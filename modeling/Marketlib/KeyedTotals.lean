import Mathlib.Algebra.BigOperators.Group.List.Basic
import Mathlib.Data.Fin.Tuple.Basic
import Mathlib.Data.Fintype.Basic
import Mathlib.Order.PiLex
import Marketlib.SearchTree

/-! `KeyedTotals`: measures added up by tuple keys in an ordered map, whose comparator also
takes shorter tuples. Tuples of every length have their elements from one list of types. -/

namespace Marketlib

universe u v

/-- `std::tuple` of the first `n` types. -/
abbrev Tuple (α : ℕ → Type u) (n : ℕ) := (i : Fin n) → α i

namespace Tuple

variable {α : ℕ → Type u} {k m n : ℕ}

/-- `head_ref`. -/
def headRef (k : ℕ) (h : k ≤ n) (a : Tuple α n) : Tuple α k := fun i => a (i.castLE h)

/-- `head_val`, which copies what `head_ref` refers to. -/
def headVal (k : ℕ) (h : k ≤ n) (a : Tuple α n) : Tuple α k := headRef k h a

/-- `operator<` of two tuples of one type. -/
def less : (n : ℕ) → (α : ℕ → Type u) → [∀ i, LinearOrder (α i)] → Tuple α n → Tuple α n → Bool
  | 0,_,_,_,_ => false
  | n+1,α,_,a,b =>
    if a 0 < b 0 then true
    else if b 0 < a 0 then false
    else less n (fun i => α (i+1)) (fun i => a i.succ) (fun i => b i.succ)

variable [∀ i, LinearOrder (α i)]

/-- `PrefixOrder`. -/
def prefixOrder (a : Tuple α m) (b : Tuple α n) : Bool :=
  less (min m n) α (headRef _ (Nat.min_le_left m n) a) (headRef _ (Nat.min_le_right m n) b)

theorem less_iff (a b : Tuple α n) : less n α a b = true ↔ toLex a < toLex b := by
  change _ ↔ ∃ i, (∀ j, j < i → a j = b j) ∧ a i < b i
  induction n generalizing α with
  | zero => exact iff_of_false nofun fun ⟨i,_⟩ => i.elim0
  | succ n ih =>
    rw [less,Fin.exists_fin_succ]
    simp only [Fin.forall_fin_succ,Fin.succ_pos,Fin.succ_lt_succ_iff,Fin.not_lt_zero,
      forall_const,false_implies,true_and]
    split_ifs with hlt hgt
    · exact iff_of_true rfl (.inl hlt)
    · refine iff_of_false nofun ?_
      rintro (h | ⟨i,⟨h,-⟩,-⟩)
      · exact hlt h
      · exact hgt.ne h.symm
    · have heq : a 0 = b 0 := le_antisymm (not_lt.mp hgt) (not_lt.mp hlt)
      rw [ih (α := fun i => α (i+1))]
      constructor
      · rintro ⟨i,hall,hi⟩
        exact .inr ⟨i,⟨heq,hall⟩,hi⟩
      · rintro (h | ⟨i,⟨-,hall⟩,hi⟩)
        · exact absurd h hlt
        · exact ⟨i,hall,hi⟩

/-- A key and a shorter tuple are compared on the key's first elements. -/
theorem prefixOrder_left (h : k ≤ n) (a : Tuple α n) (p : Tuple α k) :
    prefixOrder a p = true ↔ toLex (headRef k h a) < toLex p := by
  have hless : ∀ l (hn : l ≤ n) (hk : l ≤ k), l = k →
      less l α (headRef l hn a) (headRef l hk p) = less k α (headRef k h a) p := by
    rintro l hn hk rfl
    rfl
  rw [prefixOrder,hless _ _ _ (Nat.min_eq_right h),less_iff]

theorem prefixOrder_right (h : k ≤ n) (p : Tuple α k) (a : Tuple α n) :
    prefixOrder p a = true ↔ toLex p < toLex (headRef k h a) := by
  have hless : ∀ l (hk : l ≤ k) (hn : l ≤ n), l = k →
      less l α (headRef l hk p) (headRef l hn a) = less k α p (headRef k h a) := by
    rintro l hk hn rfl
    rfl
  rw [prefixOrder,hless _ _ _ (Nat.min_eq_left h),less_iff]

theorem not_prefixOrder_left (h : k ≤ n) (a : Tuple α n) (p : Tuple α k) :
    prefixOrder a p = false ↔ toLex p ≤ toLex (headRef k h a) := by
  rw [← Bool.not_eq_true,prefixOrder_left h]
  exact not_lt

theorem not_prefixOrder_right (h : k ≤ n) (p : Tuple α k) (a : Tuple α n) :
    prefixOrder p a = false ↔ toLex (headRef k h a) ≤ toLex p := by
  rw [← Bool.not_eq_true,prefixOrder_right h]
  exact not_lt

theorem prefixOrder_iff (a b : Tuple α n) : prefixOrder a b = true ↔ toLex a < toLex b :=
  prefixOrder_left le_rfl a b

/-- Keys in order have their first elements in order. -/
theorem headRef_le (h : k ≤ n) {a b : Tuple α n} (hab : toLex a < toLex b) :
    toLex (headRef k h a) ≤ toLex (headRef k h b) := by
  obtain ⟨i,hall,hi⟩ := hab
  by_cases hik : i.val < k
  · exact le_of_lt ⟨⟨i.val,hik⟩,fun j hj => hall (j.castLE h) hj,hi⟩
  · refine le_of_eq (congrArg toLex (funext fun j => hall (j.castLE h) ?_))
    exact Fin.lt_def.mpr (j.isLt.trans_le (not_lt.mp hik))

end Tuple

/-- An ordered map from keys to measures, as a search tree. -/
structure KeyedTotals (α : ℕ → Type u) [∀ i, LinearOrder (α i)] (n : ℕ) (M : Type v) where
  tree : BinaryTree (Tuple α n × M)
  sorted : KeySorted.Sorted Prod.fst (fun a b => Tuple.prefixOrder a b = true)
    (SearchTree.toList tree)

namespace KeyedTotals

open SearchTree Marketlib.Tuple

/-! ### Rows -/

section Rows

variable {κ : Type u} {M : Type v} [AddCommMonoid M] (P : κ → Prop) [DecidablePred P]

/-- Sum of the measures of the rows whose key satisfies `P`. -/
def measure (rows : List (κ × M)) : M := ((rows.filter fun r => P r.1).map Prod.snd).sum

theorem measure_append (xs ys : List (κ × M)) :
    measure P (xs ++ ys) = measure P xs+measure P ys := by
  rw [measure,List.filter_append,List.map_append,List.sum_append]
  rfl

theorem measure_cons (r : κ × M) (rows : List (κ × M)) :
    measure P (r :: rows) = (if P r.1 then r.2 else 0)+measure P rows := by
  by_cases hP : P r.1
  · simp [measure,hP]
  · simp [measure,hP]

theorem measure_perm {xs ys : List (κ × M)} (h : xs.Perm ys) : measure P xs = measure P ys :=
  ((h.filter _).map _).sum_eq

/-- Renaming the keys of the rows is renaming in the condition. -/
theorem measure_map {ι : Type*} (f : ι → κ) (rows : List (ι × M)) :
    measure P (rows.map fun r => (f r.1,r.2)) = measure (fun i => P (f i)) rows := by
  rw [measure,List.filter_map,List.map_map]
  rfl

end Rows

variable {α : ℕ → Type u} [∀ i, LinearOrder (α i)] {n k : ℕ} {M : Type v}

instance : IsStrictOrder (Tuple α n) (fun a b => prefixOrder a b = true) where
  irrefl a h := lt_irrefl _ ((prefixOrder_iff a a).mp h)
  trans a b c hab hbc :=
    (prefixOrder_iff a c).mpr (((prefixOrder_iff a b).mp hab).trans ((prefixOrder_iff b c).mp hbc))

/-- `flat()`, in the order of iteration. -/
def flat (t : KeyedTotals α n M) : List (Tuple α n × M) := toList t.tree

/-- `lower_bound`. -/
def lowerBound (t : BinaryTree (Tuple α n × M)) (p : Tuple α k) : ℕ :=
  bound (fun e => prefixOrder e.1 p) t

/-- `upper_bound`. -/
def upperBound (t : BinaryTree (Tuple α n × M)) (p : Tuple α k) : ℕ :=
  bound (fun e => !prefixOrder p e.1) t

/-- `operator[]` of the map and `+=`: a measure for a new key starts from the default. -/
def addTo [Add M] [Zero M] (b : Balancing (Tuple α n × M)) (t : BinaryTree (Tuple α n × M))
    (key : Tuple α n) (m : M) : BinaryTree (Tuple α n × M) :=
  match (toList t)[lowerBound t key]? with
  | some e =>
    if prefixOrder key e.1 then b.rebalance (insertAt (key,0+m) (lowerBound t key) t)
    else setAt (e.1,e.2+m) (lowerBound t key) t
  | none => b.rebalance (insertAt (key,0+m) (lowerBound t key) t)

/-! ### The order partitions around every prefix -/

section Cuts

variable {t : BinaryTree (Tuple α n × M)}
  (h : KeySorted.Sorted Prod.fst (fun a b => prefixOrder a b = true) (toList t))

include h

theorem cuts_below (hk : k ≤ n) (p : Tuple α k) :
    Cuts (fun e => prefixOrder e.1 p) (toList t) := by
  refine List.Pairwise.imp (fun {a b} hab hb => ?_) h
  rw [prefixOrder_left hk] at hb ⊢
  exact (headRef_le hk ((prefixOrder_iff _ _).mp hab)).trans_lt hb

theorem cuts_notAbove (hk : k ≤ n) (p : Tuple α k) :
    Cuts (fun e => !prefixOrder p e.1) (toList t) := by
  refine List.Pairwise.imp (fun {a b} hab hb => ?_) h
  rw [Bool.not_eq_true',not_prefixOrder_right hk] at hb ⊢
  exact (headRef_le hk ((prefixOrder_iff _ _).mp hab)).trans hb

/-- Between the two bounds stand the keys that begin with the prefix. -/
theorem between_bounds_eq (hk : k ≤ n) (p : Tuple α k) : lowerBound t p ≤ upperBound t p ∧
    ((toList t).take (upperBound t p)).drop (lowerBound t p) =
      (toList t).filter fun e => headRef k hk e.1 = p := by
  have himp : ∀ e : Tuple α n × M, prefixOrder e.1 p = true → (!prefixOrder p e.1) = true := by
    intro e he
    rw [prefixOrder_left hk] at he
    rw [Bool.not_eq_true',not_prefixOrder_right hk]
    exact he.le
  obtain ⟨hle,hbetween⟩ := between_bounds (cuts_below h hk p) (cuts_notAbove h hk p) himp
  refine ⟨hle,hbetween.trans (List.filter_congr fun e _ => ?_)⟩
  rw [Bool.eq_iff_iff,Bool.and_eq_true,Bool.not_eq_true',Bool.not_eq_true',
    not_prefixOrder_right hk,not_prefixOrder_left hk,decide_eq_true_iff]
  exact le_antisymm_iff.symm.trans toLex_inj

end Cuts

/-! ### Adding -/

section Add

variable [AddCommMonoid M] {b : Balancing (Tuple α n × M)} {t : BinaryTree (Tuple α n × M)}
  (h : KeySorted.Sorted Prod.fst (fun a b => prefixOrder a b = true) (toList t))

include h

/-- A new key is inserted where it belongs; to a known key's measure `m` is added. -/
theorem addTo_cases (key : Tuple α n) (m : M) :
    (∃ i ≤ (toList t).length, (∀ e ∈ (toList t).take i, prefixOrder e.1 key = true) ∧
      (∀ e ∈ (toList t).drop i, prefixOrder key e.1 = true) ∧
      toList (addTo b t key m) = (toList t).insertIdx i (key,m)) ∨
    ∃ i, ∃ hi : i < (toList t).length, (toList t)[i].1 = key ∧
      toList (addTo b t key m) = (toList t).set i (key,(toList t)[i].2+m) := by
  have hcut := cuts_below h le_rfl key
  have hbelow : ∀ e ∈ (toList t).take (lowerBound t key), prefixOrder e.1 key = true := by
    intro e he
    rw [lowerBound,take_bound hcut] at he
    exact (List.mem_filter.mp he).2
  have hnot : ∀ e ∈ (toList t).drop (lowerBound t key), prefixOrder e.1 key = false := by
    intro e he
    rw [lowerBound,drop_bound hcut] at he
    exact Bool.not_eq_true' _ ▸ (List.mem_filter.mp he).2
  have hle : lowerBound t key ≤ (toList t).length :=
    (bound_eq hcut).trans_le (List.length_filter_le _ _)
  have hinsert : toList (b.rebalance (insertAt (key,0+m) (lowerBound t key) t)) =
      (toList t).insertIdx (lowerBound t key) (key,m) := by
    rw [b.keeps,toList_insertAt _ hle,zero_add]
  rw [addTo]
  cases hat : (toList t)[lowerBound t key]? with
  | none =>
    refine .inl ⟨_,hle,hbelow,fun e he => ?_,hinsert⟩
    rw [List.drop_of_length_le (List.getElem?_eq_none_iff.mp hat)] at he
    cases he
  | some e =>
    obtain ⟨hi,rfl⟩ := List.getElem?_eq_some_iff.mp hat
    have hdrop := List.drop_eq_getElem_cons hi
    simp only
    split_ifs with hnew
    · refine .inl ⟨_,hle,hbelow,fun e he => ?_,hinsert⟩
      rw [hdrop] at he
      rcases List.mem_cons.mp he with rfl | he
      · exact hnew
      · have hsuffix := h.sublist (List.drop_sublist (lowerBound t key) _)
        rw [hdrop] at hsuffix
        exact trans_of (fun a b => prefixOrder a b = true) hnew
          ((List.pairwise_cons.mp hsuffix).1 e he)
    · have hkey : (toList t)[lowerBound t key].1 = key := by
        have hfirst := hnot _ (hdrop ▸ List.mem_cons_self)
        rw [not_prefixOrder_left le_rfl] at hfirst
        rw [Bool.not_eq_true,not_prefixOrder_right le_rfl] at hnew
        exact toLex_inj.mp (le_antisymm hnew hfirst)
      exact .inr ⟨_,hi,hkey,by rw [toList_setAt,hkey]⟩

theorem addTo_sorted (key : Tuple α n) (m : M) : KeySorted.Sorted Prod.fst
    (fun a b => prefixOrder a b = true) (toList (addTo b t key m)) := by
  rcases addTo_cases (b := b) h key m with ⟨i,hi,hbelow,habove,heq⟩ | ⟨i,hi,hkey,heq⟩
  · rw [heq]
    exact KeySorted.sorted_insertIdx h hbelow habove hi
  · rw [heq]
    exact KeySorted.sorted_set h hi hkey.symm

/-- The entries add up to what they did before and `m`. -/
theorem measure_addTo (P : Tuple α n → Prop) [DecidablePred P] (key : Tuple α n) (m : M) :
    measure P (toList (addTo b t key m)) =
      measure P (toList t)+if P key then m else 0 := by
  rcases addTo_cases (b := b) h key m with ⟨i,hi,-,-,heq⟩ | ⟨i,hi,hkey,heq⟩
  · rw [heq,measure_perm P (List.perm_insertIdx _ _ hi),measure_cons,add_comm]
  · have hsplit := KeySorted.split_at hi
    rw [heq,List.set_eq_take_append_cons_drop,if_pos hi]
    have hold : measure P (toList t) = measure P ((toList t).take i) +
        ((if P key then (toList t)[i].2 else 0)+measure P ((toList t).drop (i+1))) := by
      rw [← hkey,← measure_cons,← measure_append,hsplit]
    rw [hold,measure_append,measure_cons]
    split_ifs
    · rw [add_assoc,add_assoc,add_assoc,add_comm m]
    · rw [add_zero]

theorem mem_keys_addTo (key : Tuple α n) (m : M) (q : Tuple α n) :
    q ∈ (toList (addTo b t key m)).map Prod.fst ↔ q = key ∨ q ∈ (toList t).map Prod.fst := by
  rcases addTo_cases (b := b) h key m with ⟨i,hi,-,-,heq⟩ | ⟨i,hi,hkey,heq⟩
  · rw [heq,((List.perm_insertIdx (key,m) _ hi).map Prod.fst).mem_iff,List.map_cons,List.mem_cons]
  · have hself : key ∈ (toList t).map Prod.fst :=
      List.mem_map.mpr ⟨_,List.getElem_mem hi,hkey⟩
    have hmap : ((toList t).map Prod.fst).set i key = (toList t).map Prod.fst := by
      rw [← hkey,← List.getElem_map Prod.fst (h := by simpa using hi)]
      exact List.set_getElem_self _
    rw [heq,List.map_set,hmap]
    exact (or_iff_right_of_imp fun hq => hq ▸ hself).symm

end Add

variable [AddCommMonoid M]

def empty : KeyedTotals α n M := ⟨.nil,.nil⟩

/-- `add`. -/
def add (b : Balancing (Tuple α n × M)) (t : KeyedTotals α n M) (key : Tuple α n) (m : M) :
    KeyedTotals α n M := ⟨addTo b t.tree key m,addTo_sorted t.sorted key m⟩

/-- `subtotal`: the measures from the lower bound to the upper. No result where the loop would
pass the end. -/
def subtotal (t : KeyedTotals α n M) (p : Tuple α k) : Option M :=
  if lowerBound t.tree p ≤ upperBound t.tree p then
    some (((t.flat.take (upperBound t.tree p)).drop (lowerBound t.tree p)).foldl
      (fun sum e => sum+e.2) 0)
  else none

/-- `total`. -/
def total (t : KeyedTotals α n M) : Option M := t.subtotal (k := 0) fun i => i.elim0

/-- `rollup`: the measures added up once more, by the keys' first `L` elements. -/
def rollup (L : ℕ) (h : L ≤ n) (b : Balancing (Tuple α L × M)) (t : KeyedTotals α n M) :
    KeyedTotals α L M :=
  t.flat.foldl (fun out e => out.add b (headVal L h e.1) e.2) empty

/-- A run of `add` calls. -/
def addAll (b : Balancing (Tuple α n × M)) (rows : List (Tuple α n × M)) : KeyedTotals α n M :=
  rows.foldl (fun t r => t.add b r.1 r.2) empty

/-! ### Runs -/

theorem addAll_concat (b : Balancing (Tuple α n × M)) (rows : List (Tuple α n × M))
    (r : Tuple α n × M) : addAll b (rows ++ [r]) = (addAll b rows).add b r.1 r.2 :=
  List.foldl_concat ..

/-- The entries weigh what the added rows weigh. -/
theorem measure_addAll (P : Tuple α n → Prop) [DecidablePred P] (b : Balancing (Tuple α n × M))
    (rows : List (Tuple α n × M)) : measure P (addAll b rows).flat = measure P rows := by
  induction rows using List.reverseRecOn with
  | nil => rfl
  | append_singleton rows r ih =>
    rw [addAll_concat,measure_append,← ih,measure_cons]
    exact (measure_addTo (addAll b rows).sorted P r.1 r.2).trans
      (congrArg _ (add_zero _).symm)

theorem mem_keys_addAll (b : Balancing (Tuple α n × M)) (rows : List (Tuple α n × M))
    (q : Tuple α n) : q ∈ (addAll b rows).flat.map Prod.fst ↔ q ∈ rows.map Prod.fst := by
  induction rows using List.reverseRecOn with
  | nil => rfl
  | append_singleton rows r ih =>
    rw [addAll_concat,List.map_append,List.mem_append,← ih]
    refine (mem_keys_addTo (addAll b rows).sorted r.1 r.2 q).trans ?_
    rw [List.map_singleton,List.mem_singleton,or_comm]
    rfl

/-- A map has one entry for a key, so the entry weighs what the key does. -/
theorem measure_key (t : KeyedTotals α n M) {key : Tuple α n} {m : M} (h : (key,m) ∈ t.flat) :
    measure (fun q => q = key) t.flat = m := by
  obtain ⟨xs,ys,hsplit⟩ := List.append_of_mem h
  have hsorted := t.sorted
  rw [flat] at hsplit
  rw [hsplit,KeySorted.sorted_middle] at hsorted
  obtain ⟨-,hbefore,hafter⟩ := hsorted
  have hnone : ∀ zs : List (Tuple α n × M), (∀ e ∈ zs, e.1 ≠ key) →
      measure (fun q => q = key) zs = 0 := by
    intro zs hzs
    rw [measure,List.filter_eq_nil_iff.mpr fun e he => by simpa using hzs e he]
    rfl
  rw [flat,hsplit,measure_append,measure_cons,if_pos rfl,hnone xs,hnone ys,zero_add,add_zero]
  · rintro e he rfl
    exact irrefl_of (fun a b => prefixOrder a b = true) _ (hafter e he)
  · rintro e he rfl
    exact irrefl_of (fun a b => prefixOrder a b = true) _ (hbefore e he)

theorem mem_flat (b : Balancing (Tuple α n × M)) (rows : List (Tuple α n × M))
    (key : Tuple α n) (m : M) : (key,m) ∈ (addAll b rows).flat ↔
      key ∈ rows.map Prod.fst ∧ m = measure (fun q => q = key) rows := by
  rw [← mem_keys_addAll b,← measure_addAll _ b]
  constructor
  · intro h
    exact ⟨List.mem_map_of_mem h,(measure_key _ h).symm⟩
  · rintro ⟨hkey,rfl⟩
    obtain ⟨⟨q,m⟩,hq,rfl⟩ := List.mem_map.mp hkey
    rwa [measure_key _ hq]

theorem flat_perm (b b' : Balancing (Tuple α n × M)) {rows rows' : List (Tuple α n × M)}
    (h : rows.Perm rows') : (addAll b' rows').flat = (addAll b rows).flat := by
  refine KeySorted.ext (addAll b' rows').sorted (addAll b rows).sorted fun key => ?_
  apply Option.ext
  intro e
  rw [flat,flat,KeySorted.lookup_eq_some (addAll b' rows').sorted,
    KeySorted.lookup_eq_some (addAll b rows).sorted]
  refine and_congr_left fun _ => ?_
  obtain ⟨q,m⟩ := e
  exact (mem_flat b' rows' q m).trans <| Iff.trans
    (by rw [(h.map Prod.fst).mem_iff,measure_perm _ h]) (mem_flat b rows q m).symm

theorem subtotal_eq (b : Balancing (Tuple α n × M)) (rows : List (Tuple α n × M)) (hk : k ≤ n)
    (p : Tuple α k) : (addAll b rows).subtotal p =
      some (measure (fun key => headRef k hk key = p) rows) := by
  obtain ⟨hle,hbetween⟩ := between_bounds_eq (addAll b rows).sorted hk p
  rw [subtotal,if_pos hle,← measure_addAll _ b,flat,hbetween,measure,List.sum_eq_foldl,
    List.foldl_map]

theorem total_eq (b : Balancing (Tuple α n × M)) (rows : List (Tuple α n × M)) :
    (addAll b rows).total = some (rows.map Prod.snd).sum := by
  have hall : ∀ r ∈ rows, decide (headRef 0 (Nat.zero_le n) r.1 = fun i => i.elim0) = true :=
    fun r _ => decide_eq_true (funext fun i => i.elim0)
  rw [total,subtotal_eq b rows (Nat.zero_le n),measure,List.filter_eq_self.mpr hall]

/-- `subtotal` is the sum over the rows whose key begins with the prefix, `flat` has an entry a
key in order; the order of the calls and the shape of the tree do not matter. -/
theorem addAll_totals (b : Balancing (Tuple α n × M)) (rows : List (Tuple α n × M)) :
    (∀ k (hk : k ≤ n) (p : Tuple α k), (addAll b rows).subtotal p =
      some (measure (fun key => headRef k hk key = p) rows)) ∧
    ((addAll b rows).flat.Pairwise fun e e' => toLex e.1 < toLex e'.1) ∧
    (∀ key m, (key,m) ∈ (addAll b rows).flat ↔
      key ∈ rows.map Prod.fst ∧ m = measure (fun q => q = key) rows) ∧
    ∀ b' rows', rows.Perm rows' → (addAll b' rows').flat = (addAll b rows).flat ∧
      ∀ k ≤ n, ∀ p : Tuple α k, (addAll b' rows').subtotal p = (addAll b rows).subtotal p := by
  refine ⟨fun k hk p => subtotal_eq b rows hk p,?_,mem_flat b rows,fun b' rows' h =>
    ⟨flat_perm b b' h,fun k hk p => ?_⟩⟩
  · exact (addAll b rows).sorted.imp fun {e e'} h => (prefixOrder_iff e.1 e'.1).mp h
  · rw [subtotal_eq b' rows' hk,subtotal_eq b rows hk,measure_perm _ h]

/-! ### One level of the hierarchy -/

/-- Grouping is adding each entry under the shortened key. -/
theorem rollup_eq_addAll {L : ℕ} (h : L ≤ n) (b : Balancing (Tuple α L × M))
    (t : KeyedTotals α n M) :
    t.rollup L h b = addAll b (t.flat.map fun e => (headVal L h e.1,e.2)) := by
  rw [rollup,addAll,List.foldl_map]

theorem mem_keys_rollup {L : ℕ} (h : L ≤ n) (b : Balancing (Tuple α n × M))
    (c : Balancing (Tuple α L × M)) (rows : List (Tuple α n × M)) (p : Tuple α L) :
    p ∈ ((addAll b rows).rollup L h c).flat.map Prod.fst ↔
      ∃ r ∈ rows, headVal L h r.1 = p := by
  rw [rollup_eq_addAll,mem_keys_addAll,List.map_map]
  refine (List.mem_map (b := p)).trans ⟨?_,?_⟩
  · rintro ⟨e,he,rfl⟩
    obtain ⟨r,hr,hkey⟩ := List.mem_map.mp
      ((mem_keys_addAll b rows e.1).mp (List.mem_map_of_mem he))
    exact ⟨r,hr,congrArg (headVal L h) hkey⟩
  · rintro ⟨r,hr,rfl⟩
    obtain ⟨e,he,hkey⟩ := List.mem_map.mp
      ((mem_keys_addAll b rows r.1).mpr (List.mem_map_of_mem hr))
    exact ⟨e,he,congrArg (headVal L h) hkey⟩

/-- A condition on the shortened keys weighs the same before and after the grouping. -/
theorem measure_rollup {L : ℕ} (h : L ≤ n) (b : Balancing (Tuple α n × M))
    (c : Balancing (Tuple α L × M)) (rows : List (Tuple α n × M)) (P : Tuple α L → Prop)
    [DecidablePred P] : measure P ((addAll b rows).rollup L h c).flat =
      measure (fun key => P (headVal L h key)) rows := by
  rw [rollup_eq_addAll,measure_addAll,measure_map,measure_addAll]

/-- `rollup` has one entry for each prefix of an added key, in order; an entry's value is the
prefix's `subtotal` and the values add up to `total`. -/
theorem rollup_totals {L : ℕ} (h : L ≤ n) (b : Balancing (Tuple α n × M))
    (c : Balancing (Tuple α L × M)) (rows : List (Tuple α n × M)) :
    (((addAll b rows).rollup L h c).flat.Pairwise fun e e' => toLex e.1 < toLex e'.1) ∧
    (∀ p, p ∈ ((addAll b rows).rollup L h c).flat.map Prod.fst ↔
      ∃ r ∈ rows, headVal L h r.1 = p) ∧
    (∀ e ∈ ((addAll b rows).rollup L h c).flat, (addAll b rows).subtotal e.1 = some e.2) ∧
    (addAll b rows).total = some (((addAll b rows).rollup L h c).flat.map Prod.snd).sum := by
  refine ⟨?_,mem_keys_rollup h b c rows,fun e he => ?_,?_⟩
  · exact ((addAll b rows).rollup L h c).sorted.imp
      fun {e e'} h => (prefixOrder_iff e.1 e'.1).mp h
  · rw [subtotal_eq b rows h,← measure_key _ he,measure_rollup]
    rfl
  · have hall := measure_rollup h b c rows fun _ => True
    rw [measure,measure,List.filter_eq_self.mpr fun _ _ => decide_eq_true trivial,
      List.filter_eq_self.mpr fun _ _ => decide_eq_true trivial] at hall
    rw [total_eq,hall]

/-- Three measures under two-part keys, grouped by the first part. -/
theorem rollup_totals_three :
    ((addAll (n := 2) (α := fun _ => ℕ) ⟨id,fun _ => rfl⟩
        [(fun _ => 1,3),(fun i => i.val+1,4),(fun i => i.val,1)]).rollup 1 (by decide)
          ⟨id,fun _ => rfl⟩).flat = [(fun _ => 0,1),(fun _ => 1,7)] ∧
    (addAll (n := 2) (α := fun _ => ℕ) ⟨id,fun _ => rfl⟩
        [(fun _ => 1,3),(fun i => i.val+1,4),(fun i => i.val,1)]).total = some (1+7) := by
  have hflat : ((addAll (n := 2) (α := fun _ => ℕ) ⟨id,fun _ => rfl⟩
      [(fun _ => 1,3),(fun i => i.val+1,4),(fun i => i.val,1)]).rollup 1 (by decide)
        ⟨id,fun _ => rfl⟩).flat = [(fun _ => 0,1),(fun _ => 1,7)] := by decide
  refine ⟨hflat,?_⟩
  exact (rollup_totals (L := 1) (by decide) ⟨id,fun _ => rfl⟩ ⟨id,fun _ => rfl⟩ _).2.2.2.trans
    (congrArg (fun l => some (List.map Prod.snd l).sum) hflat)

end KeyedTotals
end Marketlib
