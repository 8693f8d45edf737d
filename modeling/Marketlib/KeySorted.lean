import Mathlib.Data.List.Sort
import Mathlib.Order.Defs.Unbundled
import Mathlib.Tactic.Common

/-! Lists sorted strictly by a key, read as finite maps from keys to entries.
A sorted list is determined by its lookups, so an operation on it is specified by
what it does to the lookup of each key. -/

namespace Marketlib
namespace KeySorted

variable {β κ : Type*}

/-- The entries' keys are strictly ordered by `r`. -/
def Sorted (key : β → κ) (r : κ → κ → Prop) (l : List β) : Prop :=
  l.Pairwise fun a b => r (key a) (key b)

/-- The first entry with key `k`. -/
def lookup [DecidableEq κ] (key : β → κ) (k : κ) (l : List β) : Option β :=
  l.find? fun a => key a = k

section Order

variable {key : β → κ} {r : κ → κ → Prop} {l xs ys : List β} {a b : β}

theorem key_injOn [Std.Irrefl r] (h : Sorted key r l) (ha : a ∈ l) (hb : b ∈ l)
    (hk : key a = key b) : a = b := by
  have hn : (l.map key).Nodup := List.pairwise_map.mpr <| h.imp fun {x y} hxy he => by
    rw [he] at hxy
    exact irrefl_of r (key y) hxy
  exact List.inj_on_of_nodup_map hn ha hb hk

theorem sorted_middle : Sorted key r (xs ++ b :: ys) ↔
    Sorted key r (xs ++ ys) ∧ (∀ a ∈ xs, r (key a) (key b)) ∧ ∀ a ∈ ys, r (key b) (key a) := by
  simp only [Sorted,List.pairwise_append,List.pairwise_cons,List.mem_cons,forall_eq_or_imp]
  grind

theorem insertIdx_split {i : ℕ} (hi : i ≤ l.length) :
    l.insertIdx i b = l.take i ++ b :: l.drop i := by
  induction l generalizing i with
  | nil => simp_all
  | cons a l ih =>
    cases i with
    | zero => simp
    | succ i => simp [ih (Nat.le_of_succ_le_succ hi)]

theorem split_at {i : ℕ} (hi : i < l.length) : l.take i ++ l[i] :: l.drop (i+1) = l := by
  rw [← List.drop_eq_getElem_cons hi,List.take_append_drop]

theorem sorted_insertIdx {i : ℕ} (h : Sorted key r l)
    (hx : ∀ a ∈ l.take i, r (key a) (key b)) (hy : ∀ a ∈ l.drop i, r (key b) (key a))
    (hi : i ≤ l.length) : Sorted key r (l.insertIdx i b) := by
  rw [insertIdx_split hi,sorted_middle,List.take_append_drop]
  exact ⟨h,hx,hy⟩

theorem sorted_set {i : ℕ} (h : Sorted key r l) (hi : i < l.length)
    (hk : key b = key l[i]) : Sorted key r (l.set i b) := by
  rw [← split_at hi] at h
  rw [List.set_eq_take_append_cons_drop,if_pos hi]
  rw [sorted_middle] at h ⊢
  rwa [hk]

theorem sorted_eraseIdx {i : ℕ} (h : Sorted key r l) : Sorted key r (l.eraseIdx i) :=
  h.sublist (List.eraseIdx_sublist l i)

end Order

section Lookup

variable {key : β → κ} {r : κ → κ → Prop} [DecidableEq κ] {l l' xs ys : List β} {a b : β} {k : κ}

@[simp] theorem lookup_nil : lookup key k ([] : List β) = none := rfl

theorem lookup_cons : lookup key k (a :: l) = if key a = k then some a else lookup key k l := by
  by_cases h : key a = k <;> simp [lookup,h]

theorem lookup_append : lookup key k (xs ++ ys) = (lookup key k xs).or (lookup key k ys) := by
  simp [lookup]

theorem lookup_eq_none : lookup key k l = none ↔ ∀ a ∈ l, key a ≠ k := by
  simp [lookup]

theorem lookup_some_mem (h : lookup key k l = some a) : a ∈ l ∧ key a = k := by
  have hk := List.find?_some h
  exact ⟨List.mem_of_find?_eq_some h,by simpa using hk⟩

theorem lookup_eq_some [Std.Irrefl r] (h : Sorted key r l) :
    lookup key k l = some a ↔ a ∈ l ∧ key a = k := by
  constructor
  · exact lookup_some_mem
  · rintro ⟨ha,hk⟩
    cases hl : lookup key k l with
    | none => exact absurd hk (lookup_eq_none.mp hl a ha)
    | some c =>
      obtain ⟨hc,hck⟩ := lookup_some_mem hl
      rw [key_injOn h hc ha (hck.trans hk.symm)]

/-- A sorted list is determined by its lookups. -/
theorem ext [IsStrictOrder κ r] (h : Sorted key r l) (h' : Sorted key r l')
    (heq : ∀ k, lookup key k l = lookup key k l') : l = l' := by
  have hsub : ∀ {l l' : List β}, Sorted key r l → Sorted key r l' →
      (∀ k, lookup key k l = lookup key k l') → l ⊆ l' := by
    intro l l' h h' heq a ha
    have hl := (lookup_eq_some h).mpr ⟨ha,rfl⟩
    rw [heq] at hl
    exact (lookup_some_mem hl).1
  have : Std.Irrefl fun a b => r (key a) (key b) := ⟨fun a => irrefl_of r (key a)⟩
  have : Std.Antisymm fun a b => r (key a) (key b) :=
    ⟨fun a b hab hba => absurd (IsTrans.trans _ _ _ hab hba) (irrefl_of r (key a))⟩
  exact List.Subset.antisymm_of_pairwise h h' (hsub h h' heq) (hsub h' h fun k => (heq k).symm)

theorem lookup_removed [Std.Irrefl r] (h : Sorted key r (xs ++ b :: ys)) :
    lookup key (key b) (xs ++ ys) = none := by
  obtain ⟨_,hx,hy⟩ := sorted_middle.mp h
  rw [lookup_eq_none]
  intro a ha he
  rcases List.mem_append.mp ha with ha | ha
  · exact irrefl_of r (key b) (he ▸ hx a ha)
  · exact irrefl_of r (key b) (he ▸ hy a ha)

theorem lookup_middle [Std.Irrefl r] (h : Sorted key r (xs ++ b :: ys)) :
    lookup key k (xs ++ b :: ys) = if k = key b then some b else lookup key k (xs ++ ys) := by
  split_ifs with hk
  · subst hk
    exact (lookup_eq_some h).mpr ⟨by simp,rfl⟩
  · simp [lookup_append,lookup_cons,Ne.symm hk]

theorem lookup_insertIdx [Std.Irrefl r] {i : ℕ} (h : Sorted key r (l.insertIdx i b))
    (hi : i ≤ l.length) :
    lookup key k (l.insertIdx i b) = if k = key b then some b else lookup key k l := by
  rw [insertIdx_split hi] at h ⊢
  rw [lookup_middle h,List.take_append_drop]

/-- The lookup seen from index `i`: its own entry, or an entry of the rest. -/
theorem lookup_at [Std.Irrefl r] {i : ℕ} (h : Sorted key r l) (hi : i < l.length) :
    lookup key k l =
      if k = key l[i] then some l[i] else lookup key k (l.take i ++ l.drop (i+1)) := by
  have hsplit := h
  rw [← split_at hi] at hsplit
  rw [← lookup_middle hsplit,split_at hi]

theorem lookup_set [Std.Irrefl r] {i : ℕ} (h : Sorted key r l) (hi : i < l.length)
    (hk : key b = key l[i]) :
    lookup key k (l.set i b) = if k = key b then some b else lookup key k l := by
  have hs := sorted_set h hi hk
  rw [List.set_eq_take_append_cons_drop,if_pos hi] at hs ⊢
  rw [lookup_middle hs,lookup_at h hi,hk]
  split_ifs <;> rfl

theorem lookup_eraseIdx [Std.Irrefl r] {i : ℕ} (h : Sorted key r l) (hi : i < l.length) :
    lookup key k (l.eraseIdx i) = if k = key l[i] then none else lookup key k l := by
  have hsplit := h
  rw [← split_at hi] at hsplit
  rw [List.eraseIdx_eq_take_drop_succ,lookup_at h hi]
  split_ifs with hk
  · rw [hk]
    exact lookup_removed hsplit
  · rfl

end Lookup

end KeySorted
end Marketlib
