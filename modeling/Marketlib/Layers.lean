import Mathlib.Data.List.Forall2
import Mathlib.Tactic.Common

/-! Trees read layer by layer. `sub k x` are the children of `x` under the key `k`; all
children that lie under the same keys are one layer. -/

namespace Marketlib
namespace Layers

variable {κ α β : Type}

/-- What lies under the keys `ks`, one after the other, below the trees `xs`. -/
def layer (sub : κ → α → List α) : List κ → List α → List α
  | [],xs => xs
  | k :: ks,xs => layer sub ks (xs.flatMap (sub k))

/-- Down the keys `ks` all trees are parents, and those where the keys end are `p`. -/
def Along (sub : κ → α → List α) (parent p : α → Prop) : List κ → List α → Prop
  | [],xs => ∀ x ∈ xs, p x
  | k :: ks,xs => (∀ x ∈ xs, parent x) ∧ Along sub parent p ks (xs.flatMap (sub k))

variable {sub : κ → α → List α} {sub' : κ → β → List β}

@[simp] theorem layer_nil (ks : List κ) : layer sub ks [] = [] := by
  induction ks with
  | nil => rfl
  | cons k ks ih => exact ih

theorem mem_layer {ks : List κ} {xs : List α} {y : α} :
    y ∈ layer sub ks xs ↔ ∃ x ∈ xs, y ∈ layer sub ks [x] := by
  induction ks generalizing xs with
  | nil => simp [layer]
  | cons k ks ih =>
    have hone : ∀ x, y ∈ layer sub (k :: ks) [x] ↔ ∃ z ∈ sub k x, y ∈ layer sub ks [z] := by
      intro x
      rw [layer,List.flatMap_singleton,ih]
    rw [layer,ih]
    simp only [hone,List.mem_flatMap]
    constructor
    · rintro ⟨z,⟨x,hx,hz⟩,hy⟩
      exact ⟨x,hx,z,hz,hy⟩
    · rintro ⟨x,hx,z,hz,hy⟩
      exact ⟨z,⟨x,hx,hz⟩,hy⟩

theorem Along.of_mem_layer {parent p : α → Prop} {ks : List κ} {xs : List α}
    (h : Along sub parent p ks xs) : ∀ y ∈ layer sub ks xs, p y := by
  induction ks generalizing xs with
  | nil => exact h
  | cons k ks ih => exact ih h.2

variable {f : α → β}

theorem flatMap_map (hf : ∀ k x, sub' k (f x) = (sub k x).map f) (k : κ) (xs : List α) :
    (xs.map f).flatMap (sub' k) = (xs.flatMap (sub k)).map f := by
  rw [List.flatMap_map,List.map_flatMap]
  apply congrArg (fun g => xs.flatMap g)
  funext x
  exact hf k x

/-- Trees with the same children have the same layers. -/
theorem layer_map (hf : ∀ k x, sub' k (f x) = (sub k x).map f) (ks : List κ) (xs : List α) :
    layer sub' ks (xs.map f) = (layer sub ks xs).map f := by
  induction ks generalizing xs with
  | nil => rfl
  | cons k ks ih => rw [layer,flatMap_map hf,ih,layer]

theorem along_map (hf : ∀ k x, sub' k (f x) = (sub k x).map f) {parent p : β → Prop}
    (ks : List κ) (xs : List α) : Along sub' parent p ks (xs.map f) ↔
      Along sub (fun x => parent (f x)) (fun x => p (f x)) ks xs := by
  induction ks generalizing xs with
  | nil => exact List.forall_mem_map
  | cons k ks ih => rw [Along,Along,flatMap_map hf,ih,List.forall_mem_map]

end Layers
end Marketlib
