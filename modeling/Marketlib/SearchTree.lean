import Mathlib.Data.Tree.Basic
import Marketlib.KeySorted

/-! Search trees of any shape, read as the list of their entries in order. A position is the
number of entries before it. A search compares along one path only, so it finds the border
between two parts of the entries when its test is a cut: true of a front part of them. -/

namespace Marketlib
namespace SearchTree

variable {β κ : Type*}

def toList : BinaryTree β → List β
  | .nil => []
  | .node b l r => toList l ++ b :: toList r

@[simp] theorem toList_nil : toList (.nil : BinaryTree β) = [] := rfl

@[simp] theorem toList_node (b : β) (l r : BinaryTree β) :
    toList (.node b l r) = toList l ++ b :: toList r := rfl

/-- Where the search ends that goes right at the entries `before` holds of. -/
def bound (before : β → Bool) : BinaryTree β → ℕ
  | .nil => 0
  | .node b l r =>
    if before b then (toList l).length+1+bound before r else bound before l

/-- A new leaf at a position. -/
def insertAt (c : β) : ℕ → BinaryTree β → BinaryTree β
  | _,.nil => .node c .nil .nil
  | i,.node b l r =>
    if i ≤ (toList l).length then .node b (insertAt c i l) r
    else .node b l (insertAt c (i-(toList l).length-1) r)

/-- Another entry in the place of the one at a position. -/
def setAt (c : β) : ℕ → BinaryTree β → BinaryTree β
  | _,.nil => .nil
  | i,.node b l r =>
    if i < (toList l).length then .node b (setAt c i l) r
    else if i = (toList l).length then .node c l r
    else .node b l (setAt c (i-(toList l).length-1) r)

/-- What keeps a tree balanced: its shape changes, its entries and their order do not. -/
structure Balancing (β : Type*) where
  rebalance : BinaryTree β → BinaryTree β
  keeps : ∀ t, toList (rebalance t) = toList t

theorem toList_insertAt (c : β) {i : ℕ} {t : BinaryTree β} (hi : i ≤ (toList t).length) :
    toList (insertAt c i t) = (toList t).insertIdx i c := by
  induction t generalizing i with
  | nil =>
    obtain rfl : i = 0 := Nat.le_zero.mp hi
    rfl
  | node b l r ihl ihr =>
    rw [toList_node,List.length_append,List.length_cons] at hi
    rw [insertAt,KeySorted.insertIdx_split (by simpa using hi)]
    split_ifs with hl
    · rw [toList_node,toList_node,ihl hl,KeySorted.insertIdx_split hl,
        List.take_append_of_le_length hl,List.drop_append_of_le_length hl]
      simp
    · obtain ⟨k,rfl⟩ : ∃ k, i = (toList l).length+1+k := ⟨i-(toList l).length-1,by omega⟩
      have hk : (toList l).length+1+k-(toList l).length-1 = k := by omega
      have hshift : (toList l).length+1+k = (toList l).length+(k+1) := by omega
      rw [toList_node,toList_node,hk,ihr (by omega),KeySorted.insertIdx_split (by omega),hshift,
        List.take_length_add_append,List.drop_length_add_append]
      simp

theorem toList_setAt (c : β) (i : ℕ) (t : BinaryTree β) :
    toList (setAt c i t) = (toList t).set i c := by
  induction t generalizing i with
  | nil => rfl
  | node b l r ihl ihr =>
    rw [setAt,toList_node]
    split_ifs with hl hself
    · rw [toList_node,ihl,List.set_append_left _ _ hl]
    · rw [toList_node,List.set_append_right _ _ (by omega),hself,Nat.sub_self,List.set_cons_zero]
    · obtain ⟨k,rfl⟩ : ∃ k, i = (toList l).length+(k+1) := ⟨i-(toList l).length-1,by omega⟩
      rw [toList_node,List.set_append_right _ _ (by omega),ihr,Nat.add_sub_cancel_left,
        List.set_cons_succ]
      rfl

/-! ### Cuts -/

/-- The entries that `p` holds of stand before those that it does not hold of. -/
def Cuts (p : β → Bool) (l : List β) : Prop := l.Pairwise fun a b => p b = true → p a = true

theorem Cuts.append {p : β → Bool} {xs ys : List β} (h : Cuts p (xs ++ ys)) :
    Cuts p xs ∧ Cuts p ys ∧ ∀ a ∈ xs, ∀ b ∈ ys, p b = true → p a = true :=
  List.pairwise_append.mp h

theorem Cuts.split {p : β → Bool} {l : List β} (h : Cuts p l) :
    l.filter p ++ l.filter (fun b => !p b) = l := by
  induction l with
  | nil => rfl
  | cons b l ih =>
    obtain ⟨hb,hl⟩ := List.pairwise_cons.mp h
    by_cases hpb : p b = true
    · rw [List.filter_cons_of_pos hpb,List.filter_cons_of_neg (by simpa using hpb),
        List.cons_append,ih hl]
    · have hnone : l.filter p = [] :=
        List.filter_eq_nil_iff.mpr fun c hc hpc => hpb (hb c hc hpc)
      have hall : l.filter (fun b => !p b) = l :=
        List.filter_eq_self.mpr fun c hc => by simpa using fun hpc => hpb (hb c hc hpc)
      rw [List.filter_cons_of_neg hpb,List.filter_cons_of_pos (by simpa using hpb),hnone,hall,
        List.nil_append]

/-- The entries before the border are those that `p` holds of. -/
theorem Cuts.lt_countP_iff {p : β → Bool} {l : List β} (h : Cuts p l) {k : ℕ}
    (hk : k < l.length) : k < l.countP p ↔ p l[k] = true := by
  have hlen : (l.filter p).length = l.countP p := List.countP_eq_length_filter.symm
  have hget : (l.filter p ++ l.filter fun b => !p b)[k]? = some l[k] := by
    rw [h.split,List.getElem?_eq_getElem hk]
  constructor
  · intro hlt
    rw [List.getElem?_append_left (hlen ▸ hlt)] at hget
    exact (List.mem_filter.mp (List.mem_of_getElem? hget)).2
  · intro hpk
    by_contra hge
    rw [List.getElem?_append_right (by omega)] at hget
    simpa [hpk] using (List.mem_filter.mp (List.mem_of_getElem? hget)).2

/-- The search ends at the border of the cut. -/
theorem bound_eq {p : β → Bool} {t : BinaryTree β} (h : Cuts p (toList t)) :
    bound p t = ((toList t).filter p).length := by
  induction t with
  | nil => rfl
  | node b l r ihl ihr =>
    obtain ⟨hl,hbr,hcross⟩ := Cuts.append h
    obtain ⟨hb,hr⟩ := List.pairwise_cons.mp hbr
    rw [bound,toList_node,List.filter_append,List.length_append]
    split_ifs with hpb
    · have hall : (toList l).filter p = toList l :=
        List.filter_eq_self.mpr fun a ha => hcross a ha b List.mem_cons_self hpb
      rw [ihr hr,hall,List.filter_cons_of_pos hpb,List.length_cons]
      omega
    · have hnone : (toList r).filter p = [] :=
        List.filter_eq_nil_iff.mpr fun c hc hpc => hpb (hb c hc hpc)
      rw [ihl hl,List.filter_cons_of_neg hpb,hnone,List.length_nil,Nat.add_zero]

theorem take_bound {p : β → Bool} {t : BinaryTree β} (h : Cuts p (toList t)) :
    (toList t).take (bound p t) = (toList t).filter p := by
  rw [bound_eq h]
  nth_rewrite 2 [← h.split]
  exact List.take_left

theorem drop_bound {p : β → Bool} {t : BinaryTree β} (h : Cuts p (toList t)) :
    (toList t).drop (bound p t) = (toList t).filter fun b => !p b := by
  rw [bound_eq h]
  nth_rewrite 2 [← h.split]
  exact List.drop_left

/-- What stands between the borders of two cuts, where the first lies in the second. -/
theorem between_bounds {p q : β → Bool} {t : BinaryTree β} (hp : Cuts p (toList t))
    (hq : Cuts q (toList t)) (hpq : ∀ b, p b = true → q b = true) :
    bound p t ≤ bound q t ∧ ((toList t).take (bound q t)).drop (bound p t) =
      (toList t).filter fun b => q b && !p b := by
  have hfront : ((toList t).filter q).filter p = (toList t).filter p := by
    rw [List.filter_filter]
    refine List.filter_congr fun b _ => ?_
    cases hb : p b with
    | false => rfl
    | true => rw [hpq b hb,Bool.true_and]
  have hsplit := Cuts.split (hp.sublist List.filter_sublist : Cuts p ((toList t).filter q))
  rw [hfront,List.filter_filter] at hsplit
  rw [take_bound hq,bound_eq hp,bound_eq hq,← hsplit]
  refine ⟨by simp,?_⟩
  rw [List.drop_left]
  exact List.filter_congr fun b _ => Bool.and_comm ..

end SearchTree
end Marketlib
