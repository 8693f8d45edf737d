import Marketlib.Outcome
import Mathlib.Logic.Function.Basic

/-! Computations that take values out of cells, against computations that only read them. A
cell that is read after its value was taken is blank. The two agree as long as no cell is read
again that held something. -/

namespace Marketlib
namespace Taking

open Outcome

/-- One read of a cell: whether the cell is blank to begin with, and whether the read takes
its value. -/
structure Read (ι : Type) where
  cell : ι
  blank : Bool
  takes : Bool

variable {ι ε α β γ : Type}

/-- The cells taken from once the reads are done. -/
def after (taken : List ι) : List (Read ι) → List ι
  | [] => taken
  | r :: rs => after (if r.takes then r.cell :: taken else taken) rs

/-- No cell is read after it was taken from, except for blank ones. -/
def Fresh (taken : List ι) : List (Read ι) → Prop
  | [] => True
  | r :: rs => (r.cell ∈ taken → r.blank = true) ∧
    Fresh (if r.takes then r.cell :: taken else taken) rs

instance decidableFresh [DecidableEq ι] : ∀ (taken : List ι) rs, Decidable (Fresh taken rs)
  | _,[] => inferInstanceAs (Decidable True)
  | taken,r :: rs =>
    have := decidableFresh (if r.takes then r.cell :: taken else taken) rs
    inferInstanceAs (Decidable ((r.cell ∈ taken → r.blank = true) ∧
      Fresh (if r.takes then r.cell :: taken else taken) rs))

@[simp] theorem fresh_singleton {taken : List ι} {r : Read ι} :
    Fresh taken [r] ↔ (r.cell ∈ taken → r.blank = true) := and_iff_left trivial

theorem after_append (taken : List ι) (rs rs' : List (Read ι)) :
    after taken (rs ++ rs') = after (after taken rs) rs' := by
  induction rs generalizing taken with
  | nil => rfl
  | cons r rs ih => exact ih _

theorem fresh_append {taken : List ι} {rs rs' : List (Read ι)} :
    Fresh taken (rs ++ rs') ↔ Fresh taken rs ∧ Fresh (after taken rs) rs' := by
  induction rs generalizing taken with
  | nil => exact (and_iff_right trivial).symm
  | cons r rs ih => exact (and_congr_right fun _ => ih).trans and_assoc.symm

/-- `x'` does what `x` does and takes what `rs` lists. It never succeeds where `x` fails, and
where `x` succeeds it has the same result exactly when the reads are fresh and what is kept
without a read is the same. -/
structure Tracks (same : Prop) (x : Except ε α) (x' : StateT (List ι) (Except ε) α)
    (rs : List (Read ι)) : Prop where
  sound : ∀ {taken taken' a'}, x'.run taken = .ok (a',taken') →
    ∃ a, x = .ok a ∧ taken' = after taken rs ∧ (a' = a ↔ same ∧ Fresh taken rs)
  complete : ∀ {taken a}, x = .ok a → Fresh taken rs →
    ∃ a' taken', x'.run taken = .ok (a',taken')

section Tracks

variable {same same' : Prop} {x : Except ε α} {x' : StateT (List ι) (Except ε) α}
  {rs rs' : List (Read ι)}

theorem Tracks.congr (hx : Tracks same x x' rs) (h : same ↔ same') : Tracks same' x x' rs := by
  rwa [← propext h]

theorem tracks_pure (a a' : α) :
    Tracks (a' = a) (pure a : Except ε α) (pure a' : StateT (List ι) (Except ε) α) [] where
  sound h := by
    rw [StateT.run_pure,pure_eq_ok] at h
    cases h
    exact ⟨a,rfl,rfl,(and_iff_left trivial).symm⟩
  complete _ _ := ⟨_,_,rfl⟩

theorem tracks_lift (x : Except ε α) :
    Tracks True x (liftM x : StateT (List ι) (Except ε) α) [] where
  sound h := by
    cases x with
    | error e => cases h
    | ok a =>
      cases h
      exact ⟨_,rfl,rfl,iff_of_true rfl ⟨trivial,trivial⟩⟩
  complete h _ := by
    rw [h]
    exact ⟨_,_,rfl⟩

/-- Both fail. -/
theorem tracks_error (same : Prop) (hx : x.toOption = none)
    (hx' : ∀ taken, (x'.run taken).toOption = none) (rs : List (Read ι)) :
    Tracks same x x' rs where
  sound {taken _ _} h := by
    have := hx' taken
    rw [h] at this
    cases this
  complete h _ := by
    rw [h] at hx
    cases hx

/-- Maps that tell apart what the two computations can return. -/
theorem Tracks.map (hx : Tracks same x x' rs) {f f' : α → β}
    (hf : ∀ {a a' taken taken'}, x = .ok a → x'.run taken = .ok (a',taken') →
      (f' a' = f a ↔ same' ∧ a' = a)) : Tracks (same' ∧ same) (f <$> x) (f' <$> x') rs where
  sound h := by
    obtain ⟨a',hrun,rfl⟩ := run_map_eq_ok.mp h
    obtain ⟨a,ha,hafter,hsame⟩ := hx.sound hrun
    refine ⟨f a,map_eq_ok.mpr ⟨a,ha,rfl⟩,hafter,?_⟩
    rw [hf ha hrun,hsame,and_assoc]
  complete h hfresh := by
    obtain ⟨a,ha,rfl⟩ := map_eq_ok.mp h
    obtain ⟨a',taken',hrun⟩ := hx.complete ha hfresh
    exact ⟨f' a',taken',run_map_eq_ok.mpr ⟨a',hrun,rfl⟩⟩

theorem Tracks.map_injective (hx : Tracks same x x' rs) {f : α → β} (hf : Function.Injective f) :
    Tracks same (f <$> x) (f <$> x') rs := by
  have hmap : Tracks (True ∧ same) (f <$> x) (f <$> x') rs :=
    hx.map fun _ _ => hf.eq_iff.trans (and_iff_right trivial).symm
  exact hmap.congr (and_iff_right trivial)

/-- One computation after the other, with both results in what is returned. -/
theorem Tracks.seq {y : Except ε β} {y' : StateT (List ι) (Except ε) β} {g : α → β → γ}
    (hg : Function.Injective2 g) (hx : Tracks same x x' rs) (hy : Tracks same' y y' rs') :
    Tracks (same ∧ same') (x >>= fun a => y >>= fun b => pure (g a b))
      (x' >>= fun a => y' >>= fun b => pure (g a b)) (rs ++ rs') where
  sound h := by
    obtain ⟨a',mid,hrun,h⟩ := run_bind_eq_ok.mp h
    obtain ⟨b',_,hrun',h⟩ := run_bind_eq_ok.mp h
    rw [StateT.run_pure,pure_eq_ok] at h
    cases h
    obtain ⟨a,ha,rfl,hsame⟩ := hx.sound hrun
    obtain ⟨b,hb,hafter,hsame'⟩ := hy.sound hrun'
    refine ⟨g a b,bind_eq_ok.mpr ⟨a,ha,bind_eq_ok.mpr ⟨b,hb,rfl⟩⟩,?_,?_⟩
    · rw [hafter,after_append]
    · rw [hg.eq_iff,hsame,hsame',fresh_append]
      exact and_and_and_comm
  complete h hfresh := by
    obtain ⟨a,ha,h⟩ := bind_eq_ok.mp h
    obtain ⟨b,hb,-⟩ := bind_eq_ok.mp h
    rw [fresh_append] at hfresh
    obtain ⟨a',mid,hrun⟩ := hx.complete ha hfresh.1
    obtain ⟨_,_,rfl,_⟩ := hx.sound hrun
    obtain ⟨b',taken',hrun'⟩ := hy.complete hb hfresh.2
    exact ⟨_,_,run_bind_eq_ok.mpr ⟨a',_,hrun,run_bind_eq_ok.mpr ⟨b',taken',hrun',rfl⟩⟩⟩

end Tracks

theorem tracks_mapM {xs : List α} {f : α → Except ε β} {f' : α → StateT (List ι) (Except ε) β}
    {same : α → Prop} {rs : α → List (Read ι)}
    (h : ∀ a ∈ xs, Tracks (same a) (f a) (f' a) (rs a)) :
    Tracks (∀ a ∈ xs, same a) (xs.mapM f) (xs.mapM f') (xs.flatMap rs) := by
  induction xs with
  | nil => exact (tracks_pure [] []).congr (by simp)
  | cons a xs ih =>
    rw [List.forall_mem_cons] at h
    rw [List.mapM_cons,List.mapM_cons,List.flatMap_cons]
    refine (h.1.seq (fun _ _ _ _ heq => List.cons.inj heq) (ih h.2)).congr ?_
    exact List.forall_mem_cons.symm

/-! ### Names of cells -/

/-- A relation that pairs each cell with one other at most, on both sides. -/
def OneToOne (R : ι → ι → Prop) : Prop :=
  ∀ {i j i' j'}, R i j → R i' j' → (i = i' ↔ j = j')

theorem OneToOne.mem_iff {R : ι → ι → Prop} (hR : OneToOne R) {i j : ι} (h : R i j)
    {taken taken' : List ι} (htaken : List.Forall₂ R taken taken') : i ∈ taken ↔ j ∈ taken' := by
  induction htaken with
  | nil => simp
  | cons hcells _ ih => rw [List.mem_cons,List.mem_cons,hR h hcells,ih]

/-- `x'` does with the cells that `R` pairs with those of `x` what `x` does with its own. -/
def Corresponds (R : ι → ι → Prop) (x x' : StateT (List ι) (Except ε) α) : Prop :=
  ∀ taken taken', List.Forall₂ R taken taken' →
    Option.Rel (fun r r' => r.1 = r'.1 ∧ List.Forall₂ R r.2 r'.2) (x.run taken).toOption
      (x'.run taken').toOption

section Corresponds

variable {R : ι → ι → Prop} {x x' : StateT (List ι) (Except ε) α}

theorem corresponds_pure (R : ι → ι → Prop) (a : α) :
    Corresponds R (pure a : StateT (List ι) (Except ε) α) (pure a) :=
  fun _ _ htaken => .some ⟨rfl,htaken⟩

theorem corresponds_lift (R : ι → ι → Prop) {x x' : Except ε α} (h : x.toOption = x'.toOption) :
    Corresponds R (liftM x : StateT (List ι) (Except ε) α) (liftM x') := by
  intro taken taken' htaken
  cases x with
  | error e =>
    cases x' with
    | error e' => exact .none
    | ok a' => cases h
  | ok a =>
    cases x' with
    | error e' => cases h
    | ok a' =>
      cases h
      exact .some ⟨rfl,htaken⟩

theorem corresponds_error (R : ι → ι → Prop) (hx : ∀ taken, (x.run taken).toOption = none)
    (hx' : ∀ taken, (x'.run taken).toOption = none) : Corresponds R x x' := by
  intro taken taken' _
  rw [hx,hx']
  exact .none

theorem Corresponds.bind {g g' : α → StateT (List ι) (Except ε) β} (hx : Corresponds R x x')
    (hg : ∀ a, Corresponds R (g a) (g' a)) : Corresponds R (x >>= g) (x' >>= g') := by
  intro taken taken' htaken
  rw [StateT.run_bind,StateT.run_bind,toOption_bind,toOption_bind]
  have hrun := hx taken taken' htaken
  generalize (x.run taken).toOption = r at hrun
  generalize (x'.run taken').toOption = r' at hrun
  cases hrun with
  | none => exact .none
  | @some r r' hr =>
    obtain ⟨a,mid⟩ := r
    obtain ⟨a',mid'⟩ := r'
    obtain ⟨rfl,hmid⟩ := hr
    exact hg a mid mid' hmid

theorem corresponds_mapM {xs : List α} {ys : List γ} {g : α → StateT (List ι) (Except ε) β}
    {g' : γ → StateT (List ι) (Except ε) β}
    (h : List.Forall₂ (fun a c => Corresponds R (g a) (g' c)) xs ys) :
    Corresponds R (xs.mapM g) (ys.mapM g') := by
  induction h with
  | nil => exact corresponds_pure R []
  | cons hhead _ ih =>
    rw [List.mapM_cons,List.mapM_cons]
    exact hhead.bind fun b => ih.bind fun bs => corresponds_pure R (b :: bs)

/-- From blank states the two return the same. -/
theorem Corresponds.toOption_run_nil (h : Corresponds R x x') :
    (Prod.fst <$> x.run []).toOption = (Prod.fst <$> x'.run []).toOption := by
  have hrun := h [] [] .nil
  rw [toOption_map,toOption_map]
  generalize (x.run []).toOption = r at hrun
  generalize (x'.run []).toOption = r' at hrun
  cases hrun with
  | none => rfl
  | some hr => exact congrArg some hr.1

end Corresponds

/-- `x'` does with the renamed cells what `x` does. -/
def Renames (f : ι → ι) (x x' : StateT (List ι) (Except ε) α) : Prop :=
  ∀ taken, (x'.run (taken.map f)).toOption =
    (x.run taken).toOption.map fun r => (r.1,r.2.map f)

/-- A renaming is a correspondence with the renamed cells. -/
theorem Corresponds.renames {f : ι → ι} {x x' : StateT (List ι) (Except ε) α}
    (h : Corresponds (fun i j => j = f i) x x') : Renames f x x' := by
  have hmap : ∀ taken taken' : List ι,
      List.Forall₂ (fun i j => j = f i) taken taken' → taken' = taken.map f := by
    intro taken taken' htaken
    induction htaken with
    | nil => rfl
    | cons hhead _ ih => rw [hhead,ih,List.map_cons]
  intro taken
  have hrun := h taken (taken.map f) (List.forall₂_map_right_iff.mpr
    (List.forall₂_same.mpr fun _ _ => rfl))
  generalize (x.run taken).toOption = r at hrun
  generalize (x'.run (taken.map f)).toOption = r' at hrun
  cases hrun with
  | none => rfl
  | @some r r' hr => exact congrArg some (Prod.ext hr.1.symm (hmap _ _ hr.2))

end Taking
end Marketlib
