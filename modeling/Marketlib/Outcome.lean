import Mathlib.Data.List.Forall2
import Mathlib.Tactic.Common

/-! Computations that may fail, compared by what they return and not by how they fail. -/

namespace Marketlib
namespace Outcome

variable {ε σ α β γ : Type}

theorem bind_eq_ok {x : Except ε α} {f : α → Except ε β} {b : β} :
    x >>= f = .ok b ↔ ∃ a, x = .ok a ∧ f a = .ok b := by
  cases x with
  | error e => simp [bind,Except.bind]
  | ok a => simp [bind,Except.bind]

theorem map_eq_ok {x : Except ε α} {f : α → β} {b : β} :
    f <$> x = .ok b ↔ ∃ a, x = .ok a ∧ f a = b := by
  cases x with
  | error e => simp [Functor.map,Except.map]
  | ok a => simp [Functor.map,Except.map]

theorem pure_eq_ok {a b : α} : (pure a : Except ε α) = .ok b ↔ a = b := by
  simp [pure,Except.pure]

theorem toOption_eq_some {x : Except ε α} {a : α} : x.toOption = some a ↔ x = .ok a := by
  cases x with
  | error e => simp [Except.toOption]
  | ok b => simp [Except.toOption]

@[simp] theorem toOption_pure (a : α) : (pure a : Except ε α).toOption = some a := rfl

@[simp] theorem toOption_bind (x : Except ε α) (f : α → Except ε β) :
    (x >>= f).toOption = x.toOption.bind fun a => (f a).toOption := by
  cases x <;> rfl

@[simp] theorem toOption_map (x : Except ε α) (f : α → β) :
    (f <$> x).toOption = x.toOption.map f := by
  cases x <;> rfl

/-- A traversal succeeds when it does at every place. -/
theorem mapM_eq_ok {f : α → Except ε β} {xs : List α} {ys : List β} :
    xs.mapM f = .ok ys ↔ List.Forall₂ (fun x y => f x = .ok y) xs ys := by
  induction xs generalizing ys with
  | nil =>
    rw [List.mapM_nil,pure_eq_ok,List.forall₂_nil_left_iff]
    exact eq_comm
  | cons x xs ih =>
    rw [List.mapM_cons]
    simp only [bind_eq_ok,pure_eq_ok,ih,List.forall₂_cons_left_iff]
    constructor
    · rintro ⟨y,hy,zs,hzs,rfl⟩
      exact ⟨y,zs,hy,hzs,rfl⟩
    · rintro ⟨y,zs,hy,hzs,rfl⟩
      exact ⟨y,hy,zs,hzs,rfl⟩

theorem toOption_mapM_congr {f : α → Except ε γ} {g : β → Except ε γ} {xs : List α}
    {ys : List β} (h : List.Forall₂ (fun x y => (f x).toOption = (g y).toOption) xs ys) :
    (xs.mapM f).toOption = (ys.mapM g).toOption := by
  induction h with
  | nil => rfl
  | cons hxy _ ih =>
    rw [List.mapM_cons,List.mapM_cons]
    simp only [toOption_bind,toOption_pure,hxy,ih]

theorem exists_of_forall₂ {R : α → β → Prop} {xs : List α} {ys : List β}
    (h : List.Forall₂ R xs ys) : ∀ x ∈ xs, ∃ y ∈ ys, R x y := by
  induction h with
  | nil => exact fun _ hx => absurd hx List.not_mem_nil
  | cons hxy _ ih =>
    refine List.forall_mem_cons.mpr ⟨⟨_,List.mem_cons_self,hxy⟩,fun x hx => ?_⟩
    obtain ⟨y,hy,hR⟩ := ih x hx
    exact ⟨y,List.mem_cons_of_mem _ hy,hR⟩

theorem forall₂_of_mem {p : α → Prop} {q : β → Prop} {R : α → β → Prop} {xs : List α}
    {ys : List β} (hp : ∀ x ∈ xs, p x) (hq : ∀ y ∈ ys, q y)
    (h : List.Forall₂ (fun x y => p x → q y → R x y) xs ys) : List.Forall₂ R xs ys := by
  induction h with
  | nil => exact .nil
  | cons hxy _ ih =>
    obtain ⟨hx,hxs⟩ := List.forall_mem_cons.mp hp
    obtain ⟨hy,hys⟩ := List.forall_mem_cons.mp hq
    exact .cons (hxy hx hy) (ih hxs hys)

theorem forM_eq_ok {f : α → Except ε Unit} {xs : List α} :
    xs.forM f = .ok () ↔ ∀ x ∈ xs, f x = .ok () := by
  induction xs with
  | nil => simp [pure,Except.pure]
  | cons x xs ih =>
    change (f x >>= fun _ => xs.forM f) = .ok () ↔ _
    rw [bind_eq_ok,List.forall_mem_cons,← ih]
    constructor
    · rintro ⟨_,hx,hxs⟩
      exact ⟨hx,hxs⟩
    · rintro ⟨hx,hxs⟩
      exact ⟨_,hx,hxs⟩

/-! ### With a state -/

theorem run_bind_eq_ok {x : StateT σ (Except ε) α}
    {f : α → StateT σ (Except ε) β} {s : σ} {r : β × σ} :
    (x >>= f).run s = .ok r ↔
      ∃ a mid, x.run s = .ok (a,mid) ∧ (f a).run mid = .ok r := by
  rw [StateT.run_bind,bind_eq_ok]
  exact Prod.exists

theorem run_map_eq_ok {x : StateT σ (Except ε) α} {f : α → β} {s s' : σ}
    {b : β} : (f <$> x).run s = .ok (b,s') ↔
      ∃ a, x.run s = .ok (a,s') ∧ f a = b := by
  rw [StateT.run_map,map_eq_ok,Prod.exists]
  constructor
  · rintro ⟨a,_,hx,h⟩
    cases h
    exact ⟨a,hx,rfl⟩
  · rintro ⟨a,hx,rfl⟩
    exact ⟨a,_,hx,rfl⟩

theorem run_lift_eq_ok {x : Except ε α} {s s' : σ} {a : α} :
    (liftM x : StateT σ (Except ε) α).run s = .ok (a,s') ↔ x = .ok a ∧ s' = s := by
  cases x with
  | error e => exact iff_of_false nofun fun h => nomatch h.1
  | ok b =>
    change Except.ok (b,s) = .ok (a,s') ↔ _
    simp [eq_comm]

/-- A traversal that succeeds does so at every place, in some state. -/
theorem run_mapM_eq_ok {f : α → StateT σ (Except ε) β} {xs : List α} {s : σ} {r : List β × σ}
    (h : (xs.mapM f).run s = .ok r) : ∀ x ∈ xs, ∃ s r, (f x).run s = .ok r := by
  induction xs generalizing s r with
  | nil => exact fun _ hx => absurd hx List.not_mem_nil
  | cons x xs ih =>
    rw [List.mapM_cons] at h
    obtain ⟨b,mid,hb,h⟩ := run_bind_eq_ok.mp h
    obtain ⟨bs,_,hbs,-⟩ := run_bind_eq_ok.mp h
    exact List.forall_mem_cons.mpr ⟨⟨s,_,hb⟩,ih hbs⟩

/-- One that succeeds at every place, in any state, succeeds. -/
theorem exists_run_mapM {f : α → StateT σ (Except ε) β} {xs : List α}
    (h : ∀ x ∈ xs, ∀ s, ∃ r, (f x).run s = .ok r) (s : σ) : ∃ r, (xs.mapM f).run s = .ok r := by
  induction xs generalizing s with
  | nil => exact ⟨_,rfl⟩
  | cons x xs ih =>
    obtain ⟨hx,hxs⟩ := List.forall_mem_cons.mp h
    obtain ⟨⟨b,mid⟩,hb⟩ := hx s
    obtain ⟨⟨bs,last⟩,hbs⟩ := ih hxs mid
    rw [List.mapM_cons]
    exact ⟨(b :: bs,last),run_bind_eq_ok.mpr ⟨b,mid,hb,run_bind_eq_ok.mpr ⟨bs,last,hbs,rfl⟩⟩⟩

theorem run_lift_bind_eq_none {x : Except ε α} (hx : x.toOption = none)
    (f : α → StateT σ (Except ε) β) (s : σ) :
    (((liftM x : StateT σ (Except ε) α) >>= f).run s).toOption = none := by
  cases x with
  | error e => rfl
  | ok a => cases hx

end Outcome
end Marketlib
