import Mathlib.Algebra.GroupWithZero.Nat
import Mathlib.Data.List.Basic
import Mathlib.Tactic.Common
import Marketlib.Transition

/-! Runs that come to an end whatever the order of their steps, and runs whose cost is bounded. -/

namespace Marketlib
namespace Transition

variable {σ α : Type*}

/-- The good steps from `s` are finitely many in whatever order they are taken, and they can stop
only where `done` holds. -/
def Ends (step : σ → α → Option σ) (good : σ → α → Prop) (done : σ → Prop) (s : σ) : Prop :=
  ∃ n, ∀ as t, Admits step good s as → run step s as = some t →
    as.length ≤ n ∧ (done t ∨ ∃ a, good t a ∧ (step t a).isSome = true)

/-- An invariant of the good steps under which each of them makes `work` less and one of them is
possible until `done` holds. -/
structure Ranking (step : σ → α → Option σ) (good : σ → α → Prop) (done : σ → Prop) where
  inv : σ → Prop
  work : σ → ℕ
  keep : ∀ s a t, inv s → good s a → step s a = some t → inv t
  lower : ∀ s a t, inv s → good s a → step s a = some t → work t < work s
  enabled : ∀ s, inv s → ¬done s → ∃ a, good s a ∧ (step s a).isSome = true

variable {step : σ → α → Option σ} {good : σ → α → Prop} {done : σ → Prop}

namespace Ranking

theorem length_add_work_le (r : Ranking step good done) {s t : σ} {as : List α} (h : r.inv s)
    (hadmits : Admits step good s as) (hrun : run step s as = some t) :
    as.length+r.work t ≤ r.work s ∧ r.inv t := by
  induction as generalizing s with
  | nil =>
    cases hrun
    exact ⟨by simp,h⟩
  | cons a as ih =>
    rw [run_cons,Option.bind_eq_some_iff] at hrun
    obtain ⟨u,hstep,hrest⟩ := hrun
    have hlower := r.lower s a u h hadmits.1 hstep
    obtain ⟨hlength,ht⟩ := ih (r.keep s a u h hadmits.1 hstep) (hadmits.2 u hstep) hrest
    refine ⟨?_,ht⟩
    rw [List.length_cons]
    omega

theorem ends (r : Ranking step good done) {s : σ} (h : r.inv s) : Ends step good done s := by
  refine ⟨r.work s,fun as t hadmits hrun => ?_⟩
  obtain ⟨hlength,ht⟩ := r.length_add_work_le h hadmits hrun
  refine ⟨by omega,?_⟩
  by_cases hdone : done t
  · exact Or.inl hdone
  · exact Or.inr (r.enabled t ht hdone)

end Ranking

theorem admits_of_forall {good : α → Prop} {s : σ} {as : List α} (h : ∀ a ∈ as, good a) :
    Admits step (fun _ => good) s as := by
  induction as generalizing s with
  | nil => trivial
  | cons a as ih =>
    rw [List.forall_mem_cons] at h
    exact ⟨h.1,fun _ _ => ih h.2⟩

theorem Reachable.back {bound : σ → Prop} (hpast : ∀ s a t, step s a = some t → bound t → bound s)
    {s t : σ} (h : Reachable step s t) (ht : bound t) : bound s :=
  h.invariant (P := fun t => bound t → bound s) id
    (fun u a v ih _ hstep hv => ih (hpast u a v hstep hv)) ht

/-- What `cost` adds up to over the steps of a run. -/
def tally (step : σ → α → Option σ) (cost : σ → α → ℕ) : σ → List α → ℕ
  | _,[] => 0
  | s,a :: as => cost s a+(step s a).elim 0 fun t => tally step cost t as

@[simp] theorem tally_nil (cost : σ → α → ℕ) (s : σ) : tally step cost s [] = 0 := rfl

theorem tally_cons (cost : σ → α → ℕ) {s t : σ} {a : α} (h : step s a = some t) (as : List α) :
    tally step cost s (a :: as) = cost s a+tally step cost t as := by
  rw [tally,h]
  rfl

theorem tally_zero (s : σ) (as : List α) : tally step (fun _ _ => 0) s as = 0 := by
  induction as generalizing s with
  | nil => rfl
  | cons a as ih =>
    rw [tally]
    cases step s a with
    | none => rfl
    | some t => simp [ih]

/-- A cost that depends on the action only. -/
theorem tally_action (cost : α → ℕ) {s u : σ} {as : List α} (hrun : run step s as = some u) :
    tally step (fun _ => cost) s as = (as.map cost).sum := by
  induction as generalizing s with
  | nil => rfl
  | cons a as ih =>
    rw [run_cons,Option.bind_eq_some_iff] at hrun
    obtain ⟨t,hstep,hrest⟩ := hrun
    rw [tally_cons _ hstep,ih hrest,List.map_cons,List.sum_cons]

/-- The potential method. Where every good step is paid for by what it takes from the potential,
and `rate` times by what it adds to the income and what it is granted, so is a whole run of them. -/
theorem run_pays {P bound : σ → Prop} (potential income : σ → ℕ) (cost grant : σ → α → ℕ)
    (rate : ℕ) (hpast : ∀ s a t, step s a = some t → bound t → bound s)
    (hnext : ∀ s a t, P s → bound t → good s a → step s a = some t → P t)
    (hpay : ∀ s a t, P s → bound t → good s a → step s a = some t →
      cost s a+potential t+rate*income s ≤ potential s+rate*(income t+grant s a))
    {s u : σ} {as : List α} (h : P s) (hadmits : Admits step good s as)
    (hrun : run step s as = some u) (hu : bound u) :
    tally step cost s as+potential u+rate*income s ≤
      potential s+rate*(income u+tally step grant s as) := by
  induction as generalizing s with
  | nil =>
    cases hrun
    simp
  | cons a as ih =>
    rw [run_cons,Option.bind_eq_some_iff] at hrun
    obtain ⟨t,hstep,hrest⟩ := hrun
    have ht : bound t := (Reachable.run .start hrest).back hpast hu
    have hfirst := hpay s a t h ht hadmits.1 hstep
    have hlater := ih (hnext s a t h ht hadmits.1 hstep) (hadmits.2 t hstep) hrest
    simp only [tally_cons _ hstep,Nat.mul_add] at hfirst hlater ⊢
    omega

/-- The rule where no invariant is needed. -/
theorem run_pays_of_step (potential income : σ → ℕ) (cost grant : σ → α → ℕ) (rate : ℕ)
    (hpay : ∀ s a t, good s a → step s a = some t →
      cost s a+potential t+rate*income s ≤ potential s+rate*(income t+grant s a))
    {s u : σ} {as : List α} (hadmits : Admits step good s as) (hrun : run step s as = some u) :
    tally step cost s as+potential u+rate*income s ≤
      potential s+rate*(income u+tally step grant s as) :=
  @run_pays σ α step good (fun _ => True) (fun _ => True) potential income cost grant rate
    (fun _ _ _ _ => id) (fun _ _ _ _ _ _ _ => trivial) (fun s a t _ _ => hpay s a t) s u as
    trivial hadmits hrun trivial

/-- Such runs can all be continued to one that is done. -/
theorem Ends.exists_run {s : σ} (h : Ends step good done s) :
    ∃ as t, Admits step good s as ∧ run step s as = some t ∧ done t := by
  obtain ⟨n,hends⟩ := h
  by_contra hnever
  push Not at hnever
  have hlong (k : ℕ) : ∃ as t, Admits step good s as ∧ run step s as = some t ∧ as.length = k := by
    induction k with
    | zero => exact ⟨[],s,trivial,rfl,rfl⟩
    | succ k ih =>
      obtain ⟨as,t,hadmits,hrun,hlength⟩ := ih
      obtain hdone | ⟨a,hgood,hsome⟩ := (hends as t hadmits hrun).2
      · exact absurd hdone (hnever as t hadmits hrun)
      obtain ⟨u,hu⟩ := Option.isSome_iff_exists.mp hsome
      refine ⟨as ++ [a],u,admits_append.mpr ⟨hadmits,fun v hv => ?_⟩,run_trans hrun ?_,?_⟩
      · cases hrun.symm.trans hv
        exact ⟨hgood,fun _ _ => trivial⟩
      · simp [hu]
      · simp [hlength]
  obtain ⟨as,t,hadmits,hrun,hlength⟩ := hlong (n+1)
  have := (hends as t hadmits hrun).1
  omega

end Transition
end Marketlib
