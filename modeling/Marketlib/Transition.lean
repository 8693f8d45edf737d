import Mathlib.Data.List.Basic
import Mathlib.Tactic.Common

/-! Runs of a machine given by a partial step function. `step s a = none` means
that action `a` is not possible in state `s`. The induction rules at the end are
the only place where later modules argue about runs of arbitrary length. -/

namespace Marketlib
namespace Transition

variable {σ α : Type*}

/-- Perform the actions in order; there is no result once an action is impossible. -/
def run (step : σ → α → Option σ) (s : σ) (as : List α) : Option σ := as.foldlM step s

@[simp] theorem run_nil (step : σ → α → Option σ) (s : σ) : run step s [] = some s := rfl

@[simp] theorem run_cons (step : σ → α → Option σ) (s : σ) (a : α) (as : List α) :
    run step s (a :: as) = (step s a).bind fun t => run step t as := rfl

theorem run_append (step : σ → α → Option σ) (s : σ) (as bs : List α) :
    run step s (as ++ bs) = (run step s as).bind fun t => run step t bs := by
  simp only [run,List.foldlM_append]
  rfl

theorem run_trans {step : σ → α → Option σ} {s t u : σ} {as bs : List α}
    (h : run step s as = some t) (h' : run step t bs = some u) :
    run step s (as ++ bs) = some u := by
  rw [run_append,h]
  exact h'

/-- A round that leads from stage to stage, taken `n` times. -/
theorem run_rounds {step : σ → α → Option σ} {round : List α} (stage : ℕ → σ → Prop)
    (hnext : ∀ k s, stage k s → ∃ t, run step s round = some t ∧ stage (k+1) t) (n : ℕ) {k : ℕ}
    {s : σ} (h : stage k s) :
    ∃ t, run step s (List.replicate n round).flatten = some t ∧ stage (k+n) t := by
  induction n generalizing k s with
  | zero => exact ⟨s,rfl,h⟩
  | succ n ih =>
    obtain ⟨t,hround,ht⟩ := hnext k s h
    obtain ⟨u,hrest,hu⟩ := ih ht
    refine ⟨u,?_,by rwa [Nat.add_assoc,Nat.add_comm 1 n] at hu⟩
    rw [List.replicate_succ,List.flatten_cons]
    exact run_trans hround hrest

/-- A machine that repeats one action inside another machine: it goes on while `good` holds,
and stops dead where it does not. -/
theorem run_embed {τ β : Type*} {step : σ → α → Option σ} {step' : τ → β → Option τ} {a : α}
    {b : β} (put : σ → τ) (good : σ → Prop) (hdead : ∀ s, ¬good s → step s a = none)
    (hstep : ∀ s t, good t → step s a = some t → step' (put s) b = some (put t)) {n : ℕ} {s t : σ}
    (hrun : run step s (List.replicate n a) = some t) (ht : good t) :
    run step' (put s) (List.replicate n b) = some (put t) := by
  induction n generalizing s with
  | zero =>
    cases hrun
    rfl
  | succ n ih =>
    rw [List.replicate_succ,run_cons] at hrun ⊢
    obtain ⟨u,hu,hrest⟩ := Option.bind_eq_some_iff.mp hrun
    have hgood : good u := by
      by_contra hbad
      cases n with
      | zero =>
        cases hrest
        exact hbad ht
      | succ n =>
        rw [List.replicate_succ,run_cons,hdead u hbad] at hrest
        cases hrest
    rw [hstep s u hgood hu,Option.bind_some]
    exact ih hrest

/-- States reached from `s₀` when every step is taken in a state and with an action
that `good` admits. -/
inductive ReachableBy (step : σ → α → Option σ) (good : σ → α → Prop) (s₀ : σ) : σ → Prop
  | start : ReachableBy step good s₀ s₀
  | next {s t a} : ReachableBy step good s₀ s → good s a → step s a = some t →
      ReachableBy step good s₀ t

/-- States reached by any run. -/
abbrev Reachable (step : σ → α → Option σ) (s₀ : σ) : σ → Prop :=
  ReachableBy step (fun _ _ => True) s₀

theorem ReachableBy.trans {step : σ → α → Option σ} {good : σ → α → Prop} {s₀ s t : σ}
    (h : ReachableBy step good s₀ s) (h' : ReachableBy step good s t) :
    ReachableBy step good s₀ t := by
  induction h' with
  | start => exact h
  | next _ hgood hstep ih => exact .next ih hgood hstep

theorem Reachable.run {step : σ → α → Option σ} {s₀ s t : σ} {as : List α}
    (h : Reachable step s₀ s) (hrun : run step s as = some t) : Reachable step s₀ t := by
  induction as generalizing s with
  | nil =>
    cases hrun
    exact h
  | cons a as ih =>
    rw [run_cons,Option.bind_eq_some_iff] at hrun
    obtain ⟨u,hu,hrest⟩ := hrun
    exact ih (.next h trivial hu) hrest

theorem reachable_iff_run {step : σ → α → Option σ} {s₀ s : σ} :
    Reachable step s₀ s ↔ ∃ as, run step s₀ as = some s := by
  constructor
  · intro h
    induction h with
    | start => exact ⟨[],rfl⟩
    | @next s t a _ _ hstep ih =>
      obtain ⟨as,has⟩ := ih
      exact ⟨as ++ [a],run_trans has (by simp [hstep])⟩
  · rintro ⟨as,has⟩
    exact Reachable.run .start has

/-- Every step of a run is taken in a state and with an action that `good` admits. -/
def Admits (step : σ → α → Option σ) (good : σ → α → Prop) : σ → List α → Prop
  | _,[] => True
  | s,a :: as => good s a ∧ ∀ t ∈ step s a, Admits step good t as

instance decidableAdmits (step : σ → α → Option σ) (good : σ → α → Prop)
    [∀ s a, Decidable (good s a)] : ∀ s as, Decidable (Admits step good s as)
  | _,[] => isTrue trivial
  | s,a :: as =>
    haveI := fun t => decidableAdmits step good t as
    inferInstanceAs (Decidable (good s a ∧ ∀ t ∈ step s a, Admits step good t as))

theorem admits_append {step : σ → α → Option σ} {good : σ → α → Prop} {s : σ} {as bs : List α} :
    Admits step good s (as ++ bs) ↔
      Admits step good s as ∧ ∀ t ∈ run step s as, Admits step good t bs := by
  induction as generalizing s with
  | nil => simp [Admits]
  | cons a as ih =>
    rw [List.cons_append,Admits,Admits,and_assoc,run_cons]
    refine and_congr_right fun _ => ?_
    cases step s a with
    | none => simp
    | some t => simp [ih]

theorem ReachableBy.admits {step : σ → α → Option σ} {good : σ → α → Prop} {s₀ s t : σ}
    {as : List α} (h : ReachableBy step good s₀ s) (hgood : Admits step good s as)
    (hrun : Transition.run step s as = some t) : ReachableBy step good s₀ t := by
  induction as generalizing s with
  | nil =>
    cases hrun
    exact h
  | cons a as ih =>
    rw [run_cons,Option.bind_eq_some_iff] at hrun
    obtain ⟨u,hu,hrest⟩ := hrun
    exact ih (.next h hgood.1 hu) (hgood.2 u hu) hrest

/-- A run that is not admitted takes a step that is not. -/
theorem Reachable.exists_of_not_admits {step : σ → α → Option σ} {good : σ → α → Prop}
    {s₀ s u : σ} {as : List α} (h : Reachable step s₀ s) (hrun : Transition.run step s as = some u)
    (hbad : ¬Admits step good s as) :
    ∃ t a t', Reachable step s₀ t ∧ ¬good t a ∧ step t a = some t' ∧ Reachable step t' u := by
  induction as generalizing s with
  | nil => exact absurd trivial hbad
  | cons a as ih =>
    rw [run_cons,Option.bind_eq_some_iff] at hrun
    obtain ⟨t,hstep,hrest⟩ := hrun
    by_cases hgood : good s a
    · refine ih (.next h trivial hstep) hrest fun hadmits => hbad ⟨hgood,fun t' ht' => ?_⟩
      rw [Option.mem_def,hstep] at ht'
      exact Option.some.inj ht' ▸ hadmits
    · exact ⟨s,a,t,h,hgood,hstep,Reachable.run .start hrest⟩

/-- An invariant that holds at the start and survives every admitted step. -/
theorem ReachableBy.invariant {step : σ → α → Option σ} {good : σ → α → Prop} {s₀ s : σ}
    {P : σ → Prop} (h₀ : P s₀)
    (hstep : ∀ s a t, P s → good s a → step s a = some t → P t)
    (h : ReachableBy step good s₀ s) : P s := by
  induction h with
  | start => exact h₀
  | next _ hgood hs ih => exact hstep _ _ _ ih hgood hs

/-- An invariant that only survives while `bound` holds, where a state past the bound
is never left again. -/
theorem ReachableBy.invariant_of_bound {step : σ → α → Option σ} {good : σ → α → Prop}
    {s₀ s : σ} {P : σ → Prop} (bound : σ → Prop) (h₀ : P s₀)
    (hback : ∀ s a t, step s a = some t → bound t → bound s)
    (hstep : ∀ s a t, P s → bound t → good s a → step s a = some t → P t)
    (h : ReachableBy step good s₀ s) (hb : bound s) : P s := by
  induction h with
  | start => exact h₀
  | next _ hgood hs ih => exact hstep _ _ _ (ih (hback _ _ _ hs hb)) hb hgood hs

/-- Two conditions on the steps that agree under an invariant which either of them keeps. -/
theorem admits_congr {step : σ → α → Option σ} {good good' : σ → α → Prop} {P : σ → Prop}
    {s : σ} {as : List α} (hiff : ∀ s a, P s → (good s a ↔ good' s a))
    (hnext : ∀ s a t, P s → good' s a → step s a = some t → P t) (h : P s) :
    Admits step good s as ↔ Admits step good' s as := by
  induction as generalizing s with
  | nil => exact Iff.rfl
  | cons a as ih =>
    rw [Admits,Admits,hiff s a h]
    exact and_congr_right fun hgood => forall₂_congr fun t ht => ih (hnext s a t h hgood ht)

/-- What good steps keep, through an invariant of theirs, and a bad step loses for good: a run
that ends within `bound` ends with it if and only if all its steps are good. -/
theorem admits_iff_of_bound {step : σ → α → Option σ} {good : σ → α → Prop} {P Q : σ → Prop}
    {s u : σ} {as : List α} (bound : σ → Prop)
    (hpast : ∀ s a t, step s a = some t → bound t → bound s)
    (hnext : ∀ s a t, P s → bound t → good s a → step s a = some t → P t)
    (hgood : ∀ s, P s → Q s)
    (hbad : ∀ s a t, P s → bound t → ¬good s a → step s a = some t → ¬Q t)
    (hback : ∀ s a t, step s a = some t → Q t → Q s) (h : P s) (hrun : run step s as = some u)
    (hb : bound u) : Q u ↔ Admits step good s as := by
  induction as generalizing s with
  | nil =>
    cases hrun
    exact iff_of_true (hgood u h) trivial
  | cons a as ih =>
    rw [run_cons,Option.bind_eq_some_iff] at hrun
    obtain ⟨t,hstep,hrest⟩ := hrun
    have ht : bound t := (Reachable.run .start hrest).invariant
      (P := fun u => bound u → bound t) id (fun v b w ih _ hvw hw => ih (hpast v b w hvw hw)) hb
    by_cases hsa : good s a
    · rw [ih (hnext s a t h ht hsa hstep) hrest]
      refine ⟨fun hadmits => ⟨hsa,fun t' ht' => ?_⟩,fun hadmits => hadmits.2 t hstep⟩
      rw [Option.mem_def,hstep] at ht'
      exact Option.some.inj ht' ▸ hadmits
    · refine iff_of_false (fun hu => hbad s a t h ht hsa hstep ?_) fun hadmits => hsa hadmits.1
      have hstays : Q u → Q t := (Reachable.run .start hrest).invariant
        (P := fun u => Q u → Q t) id fun v b w ih _ hvw hw => ih (hback v b w hvw hw)
      exact hstays hu

/-- The rule for a run of any extent. -/
theorem admits_iff {step : σ → α → Option σ} {good : σ → α → Prop} {P Q : σ → Prop} {s u : σ}
    {as : List α} (hnext : ∀ s a t, P s → good s a → step s a = some t → P t)
    (hgood : ∀ s, P s → Q s) (hbad : ∀ s a t, P s → ¬good s a → step s a = some t → ¬Q t)
    (hback : ∀ s a t, step s a = some t → Q t → Q s) (h : P s) (hrun : run step s as = some u) :
    Q u ↔ Admits step good s as :=
  admits_iff_of_bound (fun _ => True) (fun _ _ _ _ => id) (fun s a t hs _ => hnext s a t hs) hgood
    (fun s a t hs _ => hbad s a t hs) hback h hrun trivial

end Transition
end Marketlib
