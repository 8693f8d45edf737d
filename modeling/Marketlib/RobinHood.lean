import Mathlib.Data.Finmap
import Mathlib.Logic.Function.Iterate
import Mathlib.Tactic.Common

/-! Erasing from an open-addressing table by shifting displaced entries back. Every
entry carries its distance from its ideal slot; an erase empties one slot and then
moves each following displaced entry one slot back. -/

namespace Marketlib
namespace RobinHood

structure Entry (K V : Type*) where
  dist : ℕ
  key : K
  value : V
  deriving DecidableEq

abbrev Slots (n : ℕ) (K V : Type*) := Fin n → Option (Entry K V)

variable {n : ℕ} {K V : Type*}

/-- The following slot, around the end of the table. -/
def next (i : Fin n) : Fin n := ⟨(i.val+1) % n,Nat.mod_lt _ i.pos⟩

/-- The entry of a slot as it is one slot earlier, if it is not in its ideal slot. -/
def displaced (s : Slots n K V) (i : Fin n) : Option (Entry K V) :=
  match s i with
  | some ⟨d+1,key,value⟩ => some ⟨d,key,value⟩
  | _ => none

/-- Move displaced entries back into the empty slot `prev` and its successors. -/
def shiftBack : ℕ → Fin n → Slots n K V → Slots n K V
  | 0, _, s => s
  | rounds+1, prev, s =>
    match displaced s (next prev) with
    | none => s
    | some e => shiftBack rounds (next prev)
        (Function.update (Function.update s prev (some e)) (next prev) none)

def eraseAt (s : Slots n K V) (i : Fin n) : Slots n K V :=
  shiftBack n i (Function.update s i none)

/-- The table holds each entry of the map in one slot, and has an empty slot. -/
structure Represents [DecidableEq K] (m : Finmap fun _ : K => V) (s : Slots n K V) : Prop where
  once : ∀ i j e e', s i = some e → s j = some e' → e.key = e'.key → i = j
  holds : ∀ k v, m.lookup k = some v ↔ ∃ i e, s i = some e ∧ e.key = k ∧ e.value = v
  room : ∃ i, s i = none

/-! ### The successor slot -/

theorem next_iterate (i : Fin n) (t : ℕ) : (next^[t] i).val = (i.val+t) % n := by
  induction t with
  | zero => simp [Nat.mod_eq_of_lt i.isLt]
  | succ t ih =>
    rw [Function.iterate_succ_apply']
    simp [next,ih,Nat.add_assoc]

theorem next_iterate_ne (i : Fin n) {t : ℕ} (ht : 0 < t) (hn : t < n) : next^[t] i ≠ i := by
  intro h
  have hval := next_iterate i t
  rw [h] at hval
  by_cases hwrap : i.val+t < n
  · rw [Nat.mod_eq_of_lt hwrap] at hval
    omega
  · have hi := i.isLt
    rw [Nat.mod_eq_sub_mod (by omega),Nat.mod_eq_of_lt (by omega)] at hval
    omega

theorem exists_next_iterate {i j : Fin n} (h : i ≠ j) : ∃ t, 0 < t ∧ t < n ∧ next^[t] i = j := by
  have hi := i.isLt
  have hj := j.isLt
  have hne : i.val ≠ j.val := fun h' => h (Fin.ext h')
  rcases Nat.lt_or_gt_of_ne hne with hlt | hlt
  · refine ⟨j-i,by omega,by omega,Fin.ext ?_⟩
    rw [next_iterate,show i.val+(j-i) = j by omega,Nat.mod_eq_of_lt hj]
  · refine ⟨j+n-i,by omega,by omega,Fin.ext ?_⟩
    rw [next_iterate,show i.val+(j+n-i) = j+n by omega,Nat.add_mod_right,Nat.mod_eq_of_lt hj]

/-! ### Moving one entry -/

theorem displaced_eq_some {s : Slots n K V} {i : Fin n} {e : Entry K V}
    (h : displaced s i = some e) : s i = some { e with dist := e.dist+1 } := by
  unfold displaced at h
  split at h
  · next d key value heq =>
    cases h
    exact heq
  · cases h

theorem displaced_eq_none {s : Slots n K V} {i : Fin n} (h : s i = none) :
    displaced s i = none := by
  simp [displaced,h]

/-- The shift stops in front of the first entry that is not displaced, and leaves every
slot it does not pass as it was. -/
theorem shiftBack_frame {s : Slots n K V} {rounds : ℕ} {prev k : Fin n} {t : ℕ} (ht : 0 < t)
    (hn : t < n) (hstop : displaced s (next^[t] prev) = none) (hk : ∀ u < t, next^[u] prev ≠ k) :
    shiftBack rounds prev s k = s k := by
  induction rounds generalizing prev s t with
  | zero => rfl
  | succ rounds ih =>
    rw [shiftBack]
    cases he : displaced s (next prev) with
    | none => rfl
    | some e =>
      have ht' : 1 < t := by
        by_contra hle
        obtain rfl : t = 1 := by omega
        rw [Function.iterate_one,he] at hstop
        cases hstop
      have hiter : ∀ u, next^[u] (next prev) = next^[u+1] prev := fun u => rfl
      have hend : t-1+1 = t := by omega
      refine (@ih _ (next prev) (t-1) (by omega) (by omega) ?_ ?_).trans ?_
      · rw [hiter,hend]
        by_cases heq : next^[t] prev = next prev
        · exact displaced_eq_none (by simp [heq])
        · rw [displaced,Function.update_of_ne heq,
            Function.update_of_ne (next_iterate_ne prev ht hn)]
          exact hstop
      · intro u hu
        rw [hiter]
        exact hk (u+1) (by omega)
      · have hprev : k ≠ prev := Ne.symm (hk 0 ht)
        have hnext : k ≠ next prev := Ne.symm (hk 1 ht')
        rw [Function.update_of_ne hnext,Function.update_of_ne hprev]

/-! ### What the table represents -/

variable [DecidableEq K] {m : Finmap fun _ : K => V} {s : Slots n K V}

/-- Moving an entry back into an empty slot keeps what the table represents. -/
theorem Represents.move {prev : Fin n} {e : Entry K V} (h : Represents m s) (hprev : s prev = none)
    (he : displaced s (next prev) = some e) :
    Represents m (Function.update (Function.update s prev (some e)) (next prev) none) := by
  have hnext := displaced_eq_some he
  have hne : next prev ≠ prev := by
    intro heq
    rw [heq,hprev] at hnext
    cases hnext
  have hmoved : ∀ j x, Function.update (Function.update s prev (some e)) (next prev) none j =
      some x ↔ j = prev ∧ x = e ∨ j ≠ prev ∧ j ≠ next prev ∧ s j = some x := by
    intro j x
    simp only [Function.update_apply]
    grind
  obtain ⟨honce,hholds,_⟩ := h
  refine ⟨fun i j x y hx hy hkey => ?_,fun key value => ?_,next prev,by simp⟩
  · rw [hmoved] at hx hy
    grind
  · rw [hholds]
    simp only [hmoved]
    constructor
    · rintro ⟨j,x,hx,hkey,hvalue⟩
      by_cases hj : j = next prev
      · rw [hj,hnext] at hx
        cases hx
        exact ⟨prev,e,.inl ⟨rfl,rfl⟩,hkey,hvalue⟩
      · exact ⟨j,x,.inr ⟨by grind,hj,hx⟩,hkey,hvalue⟩
    · rintro ⟨j,x,⟨rfl,rfl⟩ | ⟨_,_,hx⟩,hkey,hvalue⟩
      · exact ⟨_,_,hnext,hkey,hvalue⟩
      · exact ⟨j,x,hx,hkey,hvalue⟩

theorem shiftBack_represents {rounds : ℕ} {prev : Fin n} (h : Represents m s)
    (hprev : s prev = none) : Represents m (shiftBack rounds prev s) := by
  induction rounds generalizing prev s with
  | zero => exact h
  | succ rounds ih =>
    rw [shiftBack]
    cases he : displaced s (next prev) with
    | none => exact h
    | some e => exact ih (h.move hprev he) (by simp)

theorem Represents.clear {i : Fin n} {e : Entry K V} (h : Represents m s) (he : s i = some e) :
    Represents (m.erase e.key) (Function.update s i none) := by
  have hkept : ∀ j x, Function.update s i none j = some x ↔ j ≠ i ∧ s j = some x := by
    intro j x
    simp only [Function.update_apply]
    grind
  obtain ⟨honce,hholds,_⟩ := h
  refine ⟨fun a b x y hx hy hkey => ?_,fun key value => ?_,i,by simp⟩
  · rw [hkept] at hx hy
    exact honce a b x y hx.2 hy.2 hkey
  · simp only [hkept]
    by_cases hkey : key = e.key
    · subst hkey
      rw [Finmap.lookup_erase]
      refine iff_of_false (by simp) ?_
      rintro ⟨j,x,⟨hj,hx⟩,hkey,_⟩
      exact hj (honce j i x e hx he hkey)
    · rw [Finmap.lookup_erase_ne hkey,hholds]
      constructor
      · rintro ⟨j,x,hx,rfl,hvalue⟩
        refine ⟨j,x,⟨?_,hx⟩,rfl,hvalue⟩
        rintro rfl
        rw [he] at hx
        cases hx
        exact hkey rfl
      · rintro ⟨j,x,⟨_,hx⟩,hkey,hvalue⟩
        exact ⟨j,x,hx,hkey,hvalue⟩

/-- Erasing a slot erases its key. -/
theorem eraseAt_represents {i : Fin n} {e : Entry K V} (h : Represents m s) (he : s i = some e) :
    Represents (m.erase e.key) (eraseAt s i) :=
  shiftBack_represents (h.clear he) (by simp)

/-- Afterwards the erased slot holds the following entry if that was displaced. -/
theorem eraseAt_self {i : Fin n} {e : Entry K V} (h : Represents m s)
    (he : s i = some e) : eraseAt s i i = displaced s (next i) := by
  obtain ⟨j,hj⟩ := h.room
  have hij : i ≠ j := by
    rintro rfl
    rw [hj] at he
    cases he
  obtain ⟨t,ht,hn,htj⟩ := exists_next_iterate hij
  have hnext : next i ≠ i := next_iterate_ne i Nat.one_pos (by omega)
  have hsame : displaced (Function.update s i none) (next i) = displaced s (next i) := by
    rw [displaced,Function.update_of_ne hnext]
    rfl
  obtain ⟨rounds,rfl⟩ : ∃ rounds, n = rounds+1 := ⟨n-1,by omega⟩
  rw [eraseAt,shiftBack,hsame]
  cases hd : displaced s (next i) with
  | none => simp
  | some d =>
    have ht' : 1 < t := by
      by_contra hle
      obtain rfl : t = 1 := by omega
      rw [show next i = j from htj,displaced_eq_none hj] at hd
      cases hd
    have hiter : ∀ u, next^[u] (next i) = next^[u+1] i := fun u => rfl
    refine (shiftBack_frame (t := t-1) (by omega) (by omega) ?_ ?_).trans ?_
    · rw [hiter,show t-1+1 = t by omega,htj]
      apply displaced_eq_none
      by_cases hjn : j = next i
      · simp [hjn]
      · rw [Function.update_of_ne hjn,Function.update_of_ne (Ne.symm hij),
          Function.update_of_ne (Ne.symm hij),hj]
    · intro u hu
      rw [hiter]
      exact next_iterate_ne i (by omega) (by omega)
    · rw [Function.update_of_ne (Ne.symm hnext),Function.update_self]

end RobinHood
end Marketlib
