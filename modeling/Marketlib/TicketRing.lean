import Mathlib.Logic.Function.Basic
import Mathlib.Tactic.Common
import Marketlib.RingIndex

/-! A bounded ring in which positions are claimed in order at both ends. Positions are
counted without wrapping. Each slot serves one position at a time, `cur`, and hands over
to the position one round later when it is released. Between the claim and the
publication of a position, and between its claim by a consumer and its release, any
number of other steps may happen. -/

namespace Marketlib
namespace TicketRing

/-- What happens to the position a slot serves: not yet claimed, being written, ready,
being read. -/
inductive Stage (ι κ : Type*)
  | free
  | writing (t : ι)
  | full
  | reading (k : κ)

structure Ring (n : ℕ) (ι κ : Type*) where
  cur : Fin n → ℕ
  stage : Fin n → Stage ι κ
  head : ℕ
  tail : ℕ
  residue : ∀ i, cur i % n = i.val
  behind : ∀ i, head ≤ cur i+n
  ahead : ∀ i, cur i < tail+n
  tail_le : tail ≤ head
  free_iff : ∀ i, stage i = .free ↔ head ≤ cur i
  reading_iff : ∀ i, (∃ k, stage i = .reading k) ↔ cur i < tail

namespace Ring

variable {n : ℕ} {ι κ : Type*}

def init : Ring n ι κ where
  cur := Fin.val
  stage := fun _ => .free
  head := 0
  tail := 0
  residue := fun i => Nat.mod_eq_of_lt i.isLt
  behind := fun _ => Nat.zero_le _
  ahead := fun i => by simp
  tail_le := le_rfl
  free_iff := fun _ => by simp
  reading_iff := fun _ => by simp

variable (r : Ring n ι κ) {i j : Fin n}

/-! ### Which position a slot serves -/

theorem cur_ne (h : i ≠ j) : r.cur i ≠ r.cur j := by
  intro heq
  apply h
  rw [Fin.ext_iff,← r.residue i,← r.residue j,heq]

/-- Positions served by one slot are whole rounds apart. -/
theorem cur_near {p : ℕ} (hp : p % n = i.val) (hlow : p < r.cur i+n) (hhigh : r.cur i < p+n) :
    r.cur i = p := by
  have hres := r.residue i
  rcases Nat.lt_trichotomy (r.cur i) p with h | h | h
  · exact absurd (hres.trans hp.symm) (mod_ne_of_near h hlow)
  · exact h
  · exact absurd (hp.trans hres.symm) (mod_ne_of_near h hhigh)

theorem cur_eq_head (hi : r.head % n = i.val) (h : r.head ≤ r.cur i) : r.cur i = r.head := by
  have hn := i.pos
  have := r.ahead i
  have := r.tail_le
  exact r.cur_near hi (by omega) (by omega)

theorem cur_eq_tail (hi : r.tail % n = i.val) (h : r.tail ≤ r.cur i) : r.cur i = r.tail := by
  have hn := i.pos
  have := r.ahead i
  exact r.cur_near hi (by omega) (by omega)

/-- No more than a round is claimed ahead of the tail. -/
theorem head_le (hn : 0 < n) : r.head ≤ r.tail+n := by
  have hbehind := r.behind ⟨r.tail % n,Nat.mod_lt _ hn⟩
  by_cases h : r.tail ≤ r.cur ⟨r.tail % n,Nat.mod_lt _ hn⟩
  · rwa [r.cur_eq_tail rfl h] at hbehind
  · omega

/-- A slot still serving a position from a round before `p` means that the ring has no
room at `p`, and that `p` is the next position to be claimed. -/
theorem head_of_lagging {p : ℕ} (hi : p % n = i.val) (hp : p ≤ r.head) (h : r.cur i < p) :
    p = r.head ∧ r.cur i+n = r.head := by
  have hn := i.pos
  have hbehind := r.behind i
  have hres := r.residue i
  have hround : r.cur i+n ≤ p := by
    by_contra hlt
    exact h.ne (r.cur_near hi (by omega) (by omega))
  omega

theorem cur_lt_head (h : r.stage i ≠ .free) : r.cur i < r.head := by
  rwa [ne_eq,r.free_iff,not_le] at h

/-- The number a slot shows: its position while that is not ready, one more while it is. -/
def shown (i : Fin n) : ℕ :=
  match r.stage i with
  | .free => r.cur i
  | .writing _ => r.cur i
  | .full => r.cur i+1
  | .reading _ => r.cur i+1

@[simp] theorem shown_of_free (h : r.stage i = .free) : r.shown i = r.cur i := by rw [shown,h]
@[simp] theorem shown_of_writing {t : ι} (h : r.stage i = .writing t) : r.shown i = r.cur i := by
  rw [shown,h]
@[simp] theorem shown_of_full (h : r.stage i = .full) : r.shown i = r.cur i+1 := by rw [shown,h]
@[simp] theorem shown_of_reading {k : κ} (h : r.stage i = .reading k) : r.shown i = r.cur i+1 := by
  rw [shown,h]

theorem cur_le_shown (i : Fin n) : r.cur i ≤ r.shown i := by
  unfold shown
  split <;> omega

theorem shown_le (i : Fin n) : r.shown i ≤ r.head ∨ r.shown i < r.tail+n := by
  by_cases h : r.stage i = .free
  · rw [r.shown_of_free h]
    exact .inr (r.ahead i)
  · have hlt := r.cur_lt_head h
    refine .inl ?_
    unfold shown
    split <;> omega

/-- A slot that shows a position of its own residue serves that position, not ready. -/
theorem shown_own (hn : 2 ≤ n) (h : r.shown i % n = i.val) :
    r.shown i = r.cur i ∧ (r.stage i = .free ∨ ∃ t, r.stage i = .writing t) := by
  have hnext : (r.cur i+1) % n ≠ i.val := by
    intro heq
    refine mod_ne_of_near (Nat.lt_succ_self (r.cur i)) (Nat.add_lt_add_left hn _) ?_
    rw [r.residue,heq]
  unfold shown at h ⊢
  split at h
  · next hs => exact ⟨rfl,.inl hs⟩
  · next t hs => exact ⟨rfl,.inr ⟨t,hs⟩⟩
  · exact absurd h hnext
  · exact absurd h hnext

/-- A slot that shows one past a position of its own residue is ready at that position. -/
theorem shown_next (hn : 2 ≤ n) {p : ℕ} (hp : p % n = i.val) (h : r.shown i % n = (p+1) % n) :
    r.shown i = r.cur i+1 ∧ (r.stage i = .full ∨ ∃ k, r.stage i = .reading k) := by
  have hown : r.cur i % n ≠ (p+1) % n := by
    rw [r.residue,← hp]
    exact mod_ne_of_near p.lt_succ_self (Nat.add_lt_add_left hn p)
  unfold shown at h ⊢
  split at h
  · exact absurd h hown
  · exact absurd h hown
  · next hs => exact ⟨rfl,.inl hs⟩
  · next k hs => exact ⟨rfl,.inr ⟨k,hs⟩⟩

/-! ### Steps -/

/-- A producer claims the position at the head. -/
def claimPush (i : Fin n) (t : ι) (hfree : r.stage i = .free) (hcur : r.cur i = r.head) :
    Ring n ι κ where
  cur := r.cur
  stage := Function.update r.stage i (.writing t)
  head := r.head+1
  tail := r.tail
  residue := r.residue
  behind := fun j => by
    have hj := r.behind j
    have hn := i.pos
    rcases eq_or_ne j i with rfl | hji
    · omega
    · have hne := r.cur_ne hji
      have hres := r.residue j
      by_contra hlt
      have heq : r.cur j+n = r.cur i := by omega
      have hmod : (r.cur j+n) % n = r.cur i % n := by rw [heq]
      rw [Nat.add_mod_right,r.residue,r.residue] at hmod
      exact hji (Fin.ext hmod)
  ahead := r.ahead
  tail_le := r.tail_le.trans (Nat.le_succ _)
  free_iff := fun j => by
    rcases eq_or_ne j i with rfl | hji
    · simp [hcur]
    · rw [Function.update_of_ne hji,r.free_iff]
      have hne := r.cur_ne hji
      omega
  reading_iff := fun j => by
    rcases eq_or_ne j i with rfl | hji
    · have := r.tail_le
      simp only [Function.update_self,reduceCtorEq,exists_false,false_iff]
      omega
    · rw [Function.update_of_ne hji,r.reading_iff]

/-- The value of the claimed position is complete. -/
def publish (i : Fin n) (t : ι) (hwriting : r.stage i = .writing t) : Ring n ι κ where
  cur := r.cur
  stage := Function.update r.stage i .full
  head := r.head
  tail := r.tail
  residue := r.residue
  behind := r.behind
  ahead := r.ahead
  tail_le := r.tail_le
  free_iff := fun j => by
    rcases eq_or_ne j i with rfl | hji
    · have hnot : ¬r.head ≤ r.cur j := by rw [← r.free_iff,hwriting]; simp
      simpa using hnot
    · rw [Function.update_of_ne hji,r.free_iff]
  reading_iff := fun j => by
    rcases eq_or_ne j i with rfl | hji
    · have hnot : ¬r.cur j < r.tail := by rw [← r.reading_iff,hwriting]; simp
      simpa using hnot
    · rw [Function.update_of_ne hji,r.reading_iff]

/-- A consumer claims the position at the tail. -/
def claimPop (i : Fin n) (k : κ) (hfull : r.stage i = .full) (hcur : r.cur i = r.tail) :
    Ring n ι κ where
  cur := r.cur
  stage := Function.update r.stage i (.reading k)
  head := r.head
  tail := r.tail+1
  residue := r.residue
  behind := r.behind
  ahead := fun j => (r.ahead j).trans (by omega)
  tail_le := by
    have := r.cur_lt_head (i := i) (by simp [hfull])
    omega
  free_iff := fun j => by
    rcases eq_or_ne j i with rfl | hji
    · have := r.cur_lt_head (i := j) (by simp [hfull])
      simp only [Function.update_self,reduceCtorEq,false_iff]
      omega
    · rw [Function.update_of_ne hji,r.free_iff]
  reading_iff := fun j => by
    rcases eq_or_ne j i with rfl | hji
    · simp [hcur]
    · have := r.cur_ne hji
      rw [Function.update_of_ne hji,r.reading_iff]
      omega

/-- A slot is handed over to the position one round later. -/
def release (i : Fin n) (k : κ) (hreading : r.stage i = .reading k) : Ring n ι κ where
  cur := Function.update r.cur i (r.cur i+n)
  stage := Function.update r.stage i .free
  head := r.head
  tail := r.tail
  residue := fun j => by
    rcases eq_or_ne j i with rfl | hji
    · rw [Function.update_self,Nat.add_mod_right,r.residue]
    · rw [Function.update_of_ne hji,r.residue]
  behind := fun j => by
    have := r.behind j
    rcases eq_or_ne j i with rfl | hji
    · rw [Function.update_self]
      omega
    · rwa [Function.update_of_ne hji]
  ahead := fun j => by
    rcases eq_or_ne j i with rfl | hji
    · have := (r.reading_iff j).mp ⟨k,hreading⟩
      rw [Function.update_self]
      omega
    · rw [Function.update_of_ne hji]
      exact r.ahead j
  tail_le := r.tail_le
  free_iff := fun j => by
    rcases eq_or_ne j i with rfl | hji
    · have := r.behind j
      simpa using this
    · rw [Function.update_of_ne hji,Function.update_of_ne hji,r.free_iff]
  reading_iff := fun j => by
    rcases eq_or_ne j i with rfl | hji
    · have := r.behind j
      have := r.tail_le
      simp only [Function.update_self,reduceCtorEq,exists_false,false_iff]
      omega
    · rw [Function.update_of_ne hji,Function.update_of_ne hji,r.reading_iff]

/-! ### What the slots show after a step -/

theorem shown_congr {r r' : Ring n ι κ} (hcur : r'.cur j = r.cur j)
    (hstage : r'.stage j = r.stage j) : r'.shown j = r.shown j := by
  rw [shown,shown,hcur,hstage]

theorem shown_claimPush {t : ι} (hfree : r.stage i = .free) (hcur : r.cur i = r.head) :
    (r.claimPush i t hfree hcur).shown = r.shown := by
  funext j
  rcases eq_or_ne j i with rfl | hji
  · rw [r.shown_of_free hfree]
    exact shown_of_writing _ (Function.update_self ..)
  · exact shown_congr rfl (Function.update_of_ne hji ..)

theorem shown_publish {t : ι} (hwriting : r.stage i = .writing t) :
    (r.publish i t hwriting).shown = Function.update r.shown i (r.cur i+1) := by
  funext j
  rcases eq_or_ne j i with rfl | hji
  · rw [Function.update_self]
    exact shown_of_full _ (Function.update_self ..)
  · rw [Function.update_of_ne hji]
    exact shown_congr rfl (Function.update_of_ne hji ..)

theorem shown_claimPop {k : κ} (hfull : r.stage i = .full) (hcur : r.cur i = r.tail) :
    (r.claimPop i k hfull hcur).shown = r.shown := by
  funext j
  rcases eq_or_ne j i with rfl | hji
  · rw [r.shown_of_full hfull]
    exact shown_of_reading _ (Function.update_self ..)
  · exact shown_congr rfl (Function.update_of_ne hji ..)

theorem shown_release {k : κ} (hreading : r.stage i = .reading k) :
    (r.release i k hreading).shown = Function.update r.shown i (r.cur i+n) := by
  funext j
  rcases eq_or_ne j i with rfl | hji
  · rw [Function.update_self,shown_of_free _ (Function.update_self ..)]
    exact Function.update_self ..
  · rw [Function.update_of_ne hji]
    exact shown_congr (Function.update_of_ne hji ..) (Function.update_of_ne hji ..)

end Ring
end TicketRing
end Marketlib
