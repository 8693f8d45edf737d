import Mathlib.Algebra.BigOperators.Group.Multiset.Basic
import Mathlib.Data.Finmap
import Mathlib.Tactic.Common

/-! Totals over the values of a finite map, and how insertion, removal and
replacement of one key change them. -/

namespace Marketlib
namespace MapTotals

variable {α β M : Type*} [AddCommMonoid M] {m : Finmap fun _ : α => β} {a : α} {b c : β}

/-- Sum of `f` over the values of the map. -/
def total (f : β → M) (m : Finmap fun _ : α => β) : M := (m.entries.map fun e => f e.2).sum

@[simp] theorem total_empty (f : β → M) : total f (∅ : Finmap fun _ : α => β) = 0 := rfl

/-- An additive map takes the total of `f` to the total of its images. -/
theorem total_hom {N : Type*} [AddCommMonoid N] (g : M →+ N) (f : β → M) :
    total (fun b => g (f b)) m = g (total f m) := by
  rw [total,total,map_multiset_sum,Multiset.map_map]
  rfl

/-- Number of keys whose value satisfies `P`. -/
def tally (P : β → Prop) [DecidablePred P] (m : Finmap fun _ : α => β) : ℕ :=
  total (fun b => if P b then 1 else 0) m

variable (P : β → Prop) [DecidablePred P]

theorem tally_eq_countP : tally P m = m.entries.countP fun e => P e.2 := by
  unfold tally total
  induction m.entries using Multiset.induction_on with
  | empty => rfl
  | cons e s ih =>
    rw [Multiset.map_cons,Multiset.sum_cons,ih,Multiset.countP_cons,Nat.add_comm]

theorem tally_le_card : tally P m ≤ m.keys.card := by
  rw [tally_eq_countP]
  refine (Multiset.countP_le_card _ _).trans_eq ?_
  exact (Multiset.card_map _ _).symm

variable [DecidableEq α]

theorem tally_pos : 0 < tally P m ↔ ∃ a b, m.lookup a = some b ∧ P b := by
  rw [tally_eq_countP,Multiset.countP_pos]
  simp only [Sigma.exists,Finmap.lookup_eq_some_iff]

/-- A total of a function that vanishes off `P` is zero when nothing satisfies `P`. -/
theorem total_eq_zero {f : β → M} (hf : ∀ b, ¬P b → f b = 0) (h : tally P m = 0) :
    total f m = 0 := by
  apply Multiset.sum_eq_zero
  intro x hx
  obtain ⟨e,he,rfl⟩ := Multiset.mem_map.mp hx
  apply hf
  intro hP
  have hpos : 0 < tally P m := (tally_pos P).mpr ⟨e.1,e.2,Finmap.lookup_eq_some_iff.mpr he,hP⟩
  omega

theorem insert_erase_of_lookup (h : m.lookup a = some b) : (m.erase a).insert a b = m := by
  apply Finmap.ext_lookup
  intro x
  by_cases hx : x = a
  · rw [hx,Finmap.lookup_insert,h]
  · rw [Finmap.lookup_insert_of_ne _ hx,Finmap.lookup_erase_ne hx]

theorem insert_erase (m : Finmap fun _ : α => β) (a : α) (b : β) :
    (m.erase a).insert a b = m.insert a b := by
  apply Finmap.ext_lookup
  intro x
  by_cases hx : x = a
  · rw [hx,Finmap.lookup_insert,Finmap.lookup_insert]
  · rw [Finmap.lookup_insert_of_ne _ hx,Finmap.lookup_insert_of_ne _ hx,Finmap.lookup_erase_ne hx]

theorem erase_insert (m : Finmap fun _ : α => β) (a : α) (b : β) :
    (m.insert a b).erase a = m.erase a := by
  apply Finmap.ext_lookup
  intro x
  by_cases hx : x = a
  · rw [hx,Finmap.lookup_erase,Finmap.lookup_erase]
  · rw [Finmap.lookup_erase_ne hx,Finmap.lookup_erase_ne hx,Finmap.lookup_insert_of_ne _ hx]

theorem erase_absent (h : m.lookup a = none) : m.erase a = m := by
  apply Finmap.ext_lookup
  intro x
  by_cases hx : x = a
  · rw [hx,Finmap.lookup_erase,h]
  · rw [Finmap.lookup_erase_ne hx]

theorem keys_insert : (m.insert a b).keys = insert a m.keys := by
  ext x
  simp [Finmap.mem_keys]

theorem card_insert (h : a ∉ m) : (m.insert a b).keys.card = m.keys.card+1 := by
  rw [keys_insert,Finset.card_insert_of_notMem (by rwa [Finmap.mem_keys])]

theorem card_replace (h : m.lookup a = some c) : (m.insert a b).keys.card = m.keys.card := by
  have ha : a ∈ m.keys := Finmap.mem_keys.mpr (Finmap.mem_of_lookup_eq_some h)
  rw [keys_insert,Finset.insert_eq_of_mem ha]

theorem total_insert (f : β → M) (h : a ∉ m) : total f (m.insert a b) = f b + total f m := by
  rw [total,Finmap.entries_insert_of_notMem h,Multiset.map_cons,Multiset.sum_cons]
  rfl

theorem total_erase (f : β → M) (h : m.lookup a = some b) :
    total f m = f b + total f (m.erase a) := by
  rw [← total_insert f Finmap.notMem_erase_self,insert_erase_of_lookup h]

theorem total_replace (f : β → M) (c : β) :
    total f (m.insert a c) = f c + total f (m.erase a) := by
  rw [← insert_erase,total_insert f Finmap.notMem_erase_self]

end MapTotals
end Marketlib
