import Mathlib.Data.Set.Function
import Mathlib.Data.Set.Lattice
import Mathlib.Order.CompletePartialOrder
import Mathlib.Tactic.Common

/-! Runs of writes to a memory of cells. A write is an address and what becomes of the cell
there. A step that has its cells for itself does in a run what it does alone. -/

namespace Marketlib
namespace CellWrites

variable {α β ι : Type*}

/-! ### Steps with cells of their own -/

/-- Step `x` reads and changes the cells `cells x` only. -/
structure Local (cells : ι → Set α) (f : ι → (α → β) → α → β) : Prop where
  frame (x : ι) (m : α → β) (a : α) : a ∉ cells x → f x m a = m a
  congr (x : ι) (m m' : α → β) (a : α) : Set.EqOn m m' (cells x) → a ∈ cells x →
    f x m a = f x m' a

variable {cells : ι → Set α} {f : ι → (α → β) → α → β}

theorem Local.foldl_of_not_mem (h : Local cells f) {xs : List ι} {a : α}
    (ha : ∀ x ∈ xs, a ∉ cells x) (m : α → β) : xs.foldl (fun m x => f x m) m a = m a := by
  induction xs generalizing m with
  | nil => rfl
  | cons x xs ih =>
    obtain ⟨hx,hxs⟩ := List.forall_mem_cons.mp ha
    exact (ih hxs _).trans (h.frame x m a hx)

/-- In a run of steps whose cells are apart, each makes of its cells what it makes of them at
first. -/
theorem Local.foldl_of_mem (h : Local cells f) {xs : List ι}
    (hapart : xs.Pairwise fun x y => Disjoint (cells x) (cells y)) {x : ι} (hx : x ∈ xs) {a : α}
    (ha : a ∈ cells x) (m : α → β) : xs.foldl (fun m x => f x m) m a = f x m a := by
  obtain ⟨before,after,rfl⟩ := List.append_of_mem hx
  obtain ⟨-,hafter,hbefore⟩ := List.pairwise_append.mp hapart
  have hleft : Set.EqOn (before.foldl (fun m x => f x m) m) m (cells x) := by
    intro b hb
    refine h.foldl_of_not_mem (fun y hy hmem => ?_) m
    exact (hbefore y hy x List.mem_cons_self).le_bot ⟨hmem,hb⟩
  rw [List.foldl_append,List.foldl_cons,h.foldl_of_not_mem]
  · exact h.congr x _ _ a hleft ha
  · intro y hy hmem
    exact ((List.pairwise_cons.mp hafter).1 y hy).le_bot ⟨ha,hmem⟩

/-! ### Writes -/

variable [DecidableEq α]

def applyWrite (m : α → β) (w : α × (β → β)) : α → β := Function.update m w.1 (w.2 (m w.1))

def applyWrites (ws : List (α × (β → β))) (m : α → β) : α → β := ws.foldl applyWrite m

theorem applyWrites_cons (w : α × (β → β)) (ws : List (α × (β → β))) (m : α → β) :
    applyWrites (w :: ws) m = applyWrites ws (applyWrite m w) := rfl

/-- A cell that no write is on stays as it is. -/
theorem applyWrites_of_not_mem {ws : List (α × (β → β))} {a : α}
    (h : ∀ w ∈ ws, w.1 ≠ a) (m : α → β) : applyWrites ws m a = m a := by
  induction ws generalizing m with
  | nil => rfl
  | cons w ws ih =>
    obtain ⟨hw,hws⟩ := List.forall_mem_cons.mp h
    rw [applyWrites_cons,ih hws]
    exact Function.update_of_ne hw.symm _ m

/-- What a run leaves in a cell depends on that cell alone. -/
theorem applyWrites_congr {m m' : α → β} {a : α} (h : m a = m' a) (ws : List (α × (β → β))) :
    applyWrites ws m a = applyWrites ws m' a := by
  induction ws generalizing m m' with
  | nil => exact h
  | cons w ws ih =>
    refine ih ?_
    by_cases hw : a = w.1
    · subst hw
      simp only [applyWrite,Function.update_self,h]
    · simp only [applyWrite,Function.update_of_ne hw,h]

/-- What every write on a cell brings about holds of it once there was one. -/
theorem applyWrites_of_mem {P : β → Prop} {ws : List (α × (β → β))} {a : α} {f : β → β}
    (hmem : (a,f) ∈ ws) (h : ∀ w ∈ ws, w.1 = a → ∀ c, P (w.2 c)) (m : α → β) :
    P (applyWrites ws m a) := by
  induction ws generalizing m f with
  | nil => cases hmem
  | cons w ws ih =>
    obtain ⟨hw,hws⟩ := List.forall_mem_cons.mp h
    rw [applyWrites_cons]
    by_cases hlater : ∃ g, (a,g) ∈ ws
    · obtain ⟨g,hg⟩ := hlater
      exact ih hg hws _
    · have hnone : ∀ w' ∈ ws, w'.1 ≠ a := by
        rintro ⟨a',g⟩ hg rfl
        exact hlater ⟨g,hg⟩
      rw [applyWrites_of_not_mem hnone]
      rcases List.mem_cons.mp hmem with heq | hmem
      · subst heq
        rw [applyWrite,Function.update_self]
        exact hw rfl _
      · exact absurd ⟨f,hmem⟩ hlater

/-- Where the writes are on different cells each is done on what was there at first. -/
theorem applyWrites_of_nodup {ws : List (α × (β → β))} (hnodup : (ws.map Prod.fst).Nodup) {a : α}
    {f : β → β} (hmem : (a,f) ∈ ws) (m : α → β) : applyWrites ws m a = f (m a) := by
  induction ws generalizing m with
  | nil => cases hmem
  | cons w ws ih =>
    rw [List.map_cons,List.nodup_cons] at hnodup
    rw [applyWrites_cons]
    rcases List.mem_cons.mp hmem with rfl | hmem
    · have hnone : ∀ w ∈ ws, w.1 ≠ a := by
        rintro w hw rfl
        exact hnodup.1 (List.mem_map.mpr ⟨w,hw,rfl⟩)
      rw [applyWrites_of_not_mem hnone]
      exact Function.update_self ..
    · have hne : a ≠ w.1 := by
        rintro rfl
        exact hnodup.1 (List.mem_map.mpr ⟨_,hmem,rfl⟩)
      rw [ih hnodup.2 hmem,applyWrite,Function.update_of_ne hne]

/-- Writes on cells of their own. -/
theorem Local.ofWrites {cells : ι → Set α} {ws : ι → List (α × (β → β))}
    (h : ∀ x, ∀ w ∈ ws x, w.1 ∈ cells x) : Local cells fun x => applyWrites (ws x) where
  frame x m a ha := by
    refine applyWrites_of_not_mem (fun w hw heq => ha ?_) m
    rw [← heq]
    exact h x w hw
  congr x _ _ a heq ha := applyWrites_congr (heq ha) (ws x)

/-- The writes of a run, step by step. -/
theorem applyWrites_flatMap (xs : List ι) (ws : ι → List (α × (β → β))) (m : α → β) :
    applyWrites (xs.flatMap ws) m = xs.foldl (fun m x => applyWrites (ws x) m) m := by
  simp only [applyWrites,List.foldl_flatMap]

end CellWrites
end Marketlib
