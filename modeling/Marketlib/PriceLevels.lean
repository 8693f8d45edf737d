import Marketlib.KeySorted
import Marketlib.OrderBook

/-! What the array operations of one side do to the levels it shows. The shifting
loops are read as insertion into and removal from a list sorted best price first. -/

namespace Marketlib

/-- Price `p` is strictly better than `q`: higher on the bid side, lower on the ask side. -/
def Better : Side → Price → Price → Prop
  | .bid, p, q => q < p
  | .ask, p, q => p < q

instance (side : Side) : IsStrictTotalOrder Price (Better side) := by
  cases side
  · exact inferInstanceAs (IsStrictTotalOrder Price (· > ·))
  · exact inferInstanceAs (IsStrictTotalOrder Price (· < ·))

instance (side : Side) : DecidableRel (Better side) := by
  cases side
  · exact inferInstanceAs (DecidableRel fun p q : Price => q < p)
  · exact inferInstanceAs (DecidableRel fun p q : Price => p < q)

theorem better_trichotomous (side : Side) (p q : Price) :
    Better side p q ∨ p = q ∨ Better side q p := by
  rcases lt_trichotomy p q with h | h | h <;> cases side <;> simp [Better,h]

namespace Levels

variable {maxLevels : ℕ}

@[simp] theorem past_iff (side : Side) (listed price : Price) :
    past side listed price = true ↔ Better side price listed := by
  cases side <;> simp [past,Better]

/-- Best price first, and no price twice. -/
def BestFirst (side : Side) (l : Levels maxLevels) : Prop :=
  KeySorted.Sorted PriceLevel.price (Better side) l.span

/-- The level listed at a price. -/
def at? (l : Levels maxLevels) (price : Price) : Option PriceLevel :=
  KeySorted.lookup PriceLevel.price price l.span

theorem span_getElem? (l : Levels maxLevels) (k : ℕ) :
    l.span[k]? = if k < l.count then l.cells[k]? else none := by
  simp [span,List.getElem?_take]

theorem span_getElem (l : Levels maxLevels) (k : ℕ) (h : k < l.span.length) (h' : k < maxLevels) :
    l.span[k] = l.cell ⟨k,h'⟩ := by
  simp [span,cell]

@[simp] theorem empty_span : (empty : Levels maxLevels).span = [] := by simp [empty,span]

/-! ### The shifting loops -/

theorem shiftRight_getElem (i j : ℕ) (hj : j < maxLevels) (cells : Vector PriceLevel maxLevels)
    (k : ℕ) (hk : k < maxLevels) :
    (shiftRight i j hj cells)[k] =
      if i < k ∧ k ≤ j then cells[k-1] else cells[k] := by
  induction j generalizing cells with
  | zero =>
    rw [shiftRight,if_neg (by omega)]
  | succ j ih =>
    rw [shiftRight]
    by_cases hij : i < j+1
    · rw [if_pos hij,ih]
      simp only [Vector.getElem_set]
      grind
    · rw [if_neg hij,if_neg (by omega)]

theorem shiftLeft_getElem (j n : ℕ) (hn : j + n < maxLevels) (cells : Vector PriceLevel maxLevels)
    (k : ℕ) (hk : k < maxLevels) :
    (shiftLeft j n hn cells)[k] =
      if h : j ≤ k ∧ k < j + n then cells[k+1] else cells[k] := by
  induction n generalizing j cells with
  | zero =>
    rw [shiftLeft,dif_neg (by omega)]
  | succ n ih =>
    rw [shiftLeft,ih]
    simp only [Vector.getElem_set]
    grind

theorem write_span (l : Levels maxLevels) (i : Fin maxLevels) (lv : PriceLevel) :
    (l.write i lv).span = l.span.set i lv := by
  simp [write,span,Vector.toList_set,List.take_set]

@[simp] theorem write_cell (l : Levels maxLevels) (i : Fin maxLevels) (lv : PriceLevel) :
    (l.write i lv).cell i = lv := by
  simp [write,cell]

theorem insert_span (l : Levels maxLevels) (h : l.count < maxLevels) (i : ℕ) (hi : i ≤ l.count)
    (lv : PriceLevel) :
    (⟨(shiftRight i l.count h l.cells).set i lv (by omega),l.count+1,h⟩ : Levels maxLevels).span =
      l.span.insertIdx i lv := by
  apply List.ext_getElem?
  intro k
  rw [span_getElem?,List.getElem?_insertIdx,span_length,span_getElem?,span_getElem?]
  by_cases hk : k < maxLevels
  · rw [Vector.getElem?_set]
    simp only [Vector.getElem?_eq_getElem hk,shiftRight_getElem]
    grind
  · grind

theorem erase_span (l : Levels maxLevels) (i : Fin maxLevels) (hi : i.val < l.count)
    (hn : i.val + (l.count-1-i) < maxLevels) (hc : l.count-1 ≤ maxLevels) :
    (⟨shiftLeft i (l.count-1-i) hn l.cells,l.count-1,hc⟩ : Levels maxLevels).span =
      l.span.eraseIdx i := by
  have hcount := l.count_le
  apply List.ext_getElem?
  intro k
  rw [span_getElem?,List.getElem?_eraseIdx,span_getElem?,span_getElem?]
  by_cases hk : k < l.count-1
  · simp only [Vector.getElem?_eq_getElem (show k < maxLevels by omega),
      Vector.getElem?_eq_getElem (show k+1 < maxLevels by omega),shiftLeft_getElem]
    grind
  · grind

/-! ### Finding a level -/

theorem findLevel_eq_some {l : Levels maxLevels} {price : Price} {i : Fin maxLevels}
    (h : l.findLevel price = some i) :
    i.val < l.count ∧ (l.cell i).price = price ∧ l.at? price = some (l.cell i) := by
  simp only [findLevel,Option.map_eq_some_iff] at h
  obtain ⟨k,hk,rfl⟩ := h
  obtain ⟨hp,hfirst⟩ := List.findFinIdx?_eq_some_iff.mp hk
  have hlt : k.val < l.count := by simpa using k.isLt
  have hlt' : k.val < maxLevels := hlt.trans_le l.count_le
  have hcell : l.span[k] = l.cell ⟨k.val,hlt'⟩ := span_getElem l k.val k.isLt hlt'
  rw [hcell] at hp
  refine ⟨hlt,of_decide_eq_true hp,?_⟩
  exact List.find?_eq_some_iff_getElem.mpr ⟨hp,k.val,k.isLt,hcell,fun j hj => by
    have := hfirst ⟨j,hj.trans k.isLt⟩ hj
    simpa using this⟩

theorem findLevel_eq_none {l : Levels maxLevels} {price : Price} :
    l.findLevel price = none ↔ l.at? price = none := by
  simp [findLevel,at?,KeySorted.lookup]

theorem findLevel_of_at? {l : Levels maxLevels} {price : Price} {lv : PriceLevel}
    (h : l.at? price = some lv) :
    ∃ i : Fin maxLevels, l.findLevel price = some i ∧ i.val < l.count ∧ l.cell i = lv := by
  cases hf : l.findLevel price with
  | none =>
    rw [findLevel_eq_none.mp hf] at h
    cases h
  | some i =>
    obtain ⟨hi,_,hat⟩ := findLevel_eq_some hf
    rw [hat] at h
    exact ⟨i,rfl,hi,Option.some.inj h⟩

theorem at?_price {l : Levels maxLevels} {price : Price} {lv : PriceLevel}
    (h : l.at? price = some lv) : lv.price = price :=
  (KeySorted.lookup_some_mem h).2

/-- Writing a cell of a listed price changes the level of that price and no other. -/
theorem write_spec {side : Side} {l : Levels maxLevels} (hl : l.BestFirst side)
    {i : Fin maxLevels} (hi : i.val < l.count) (lv : PriceLevel)
    (hlv : lv.price = (l.cell i).price) :
    (l.write i lv).BestFirst side ∧
    ∀ p, (l.write i lv).at? p = if p = lv.price then some lv else l.at? p := by
  have hi' : i.val < l.span.length := by rwa [span_length]
  have hk : lv.price = l.span[i.val].price := by rw [span_getElem]; exact hlv
  simp only [BestFirst,at?,write_span]
  exact ⟨KeySorted.sorted_set hl hi' hk,fun p => KeySorted.lookup_set hl hi' hk⟩

/-- `erase_level` unlists its price and changes no other level. -/
theorem eraseLevel_spec {side : Side} {l : Levels maxLevels} (hl : l.BestFirst side)
    (price : Price) :
    (l.eraseLevel price).BestFirst side ∧
    ∀ p, (l.eraseLevel price).at? p = if p = price then none else l.at? p := by
  unfold eraseLevel
  cases hf : l.findLevel price with
  | none =>
    refine ⟨hl,fun p => ?_⟩
    split_ifs with hp
    · rw [hp,← findLevel_eq_none,hf]
    · rfl
  | some i =>
    obtain ⟨hi,hprice,_⟩ := findLevel_eq_some hf
    have hi' : i.val < l.span.length := by rwa [span_length]
    have hk : l.span[i.val].price = price := by rw [span_getElem]; exact hprice
    simp only [BestFirst,at?,erase_span l i hi]
    refine ⟨KeySorted.sorted_eraseIdx hl,fun p => ?_⟩
    rw [KeySorted.lookup_eraseIdx hl hi',hk]

/-! ### Finding a level or making room for it -/

theorem scan_spec (side : Side) (price : Price) (lvs : List PriceLevel) (i : ℕ) :
    ∃ n ≤ lvs.length, (scan side price lvs i).1 = i+n ∧
      (∀ lv ∈ lvs.take n, Better side lv.price price) ∧
      ((scan side price lvs i).2 = true → ∃ lv, lvs[n]? = some lv ∧ lv.price = price) ∧
      ((scan side price lvs i).2 = false →
        ∀ lv, lvs[n]? = some lv → Better side price lv.price) := by
  induction lvs generalizing i with
  | nil => exact ⟨0,by simp [scan]⟩
  | cons lv rest ih =>
    rw [scan]
    by_cases heq : lv.price = price
    · rw [if_pos heq]
      exact ⟨0,by simp [heq]⟩
    · by_cases hpast : past side lv.price price = true
      · rw [if_neg heq,if_pos hpast]
        exact ⟨0,by simpa using hpast⟩
      · rw [if_neg heq,if_neg hpast]
        obtain ⟨n,hn,hidx,htake,hfound,hstop⟩ := ih (i+1)
        rw [past_iff] at hpast
        have hbetter : Better side lv.price price := by
          rcases better_trichotomous side lv.price price with h | h | h
          · exact h
          · exact absurd h heq
          · exact absurd h hpast
        refine ⟨n+1,by simpa using hn,by omega,?_,by simpa using hfound,by simpa using hstop⟩
        simpa [hbetter] using htake

/-- Where the scan stops at no level of the price, it separates better from worse. -/
theorem scan_separates {side : Side} {l : Levels maxLevels} (hl : l.BestFirst side)
    {price : Price} (h : (scan side price l.span 0).2 = false) :
    (scan side price l.span 0).1 ≤ l.count ∧
    (∀ lv ∈ l.span.take (scan side price l.span 0).1, Better side lv.price price) ∧
    ∀ lv ∈ l.span.drop (scan side price l.span 0).1, Better side price lv.price := by
  obtain ⟨n,hn,hidx,htake,_,hstop⟩ := scan_spec side price l.span 0
  rw [Nat.zero_add] at hidx
  rw [hidx]
  refine ⟨by simpa using hn,htake,?_⟩
  intro lv hlv
  by_cases hlt : n < l.span.length
  · have hhead := hstop h _ (List.getElem?_eq_getElem hlt)
    rw [List.drop_eq_getElem_cons hlt,List.mem_cons] at hlv
    rcases hlv with rfl | hlv
    · exact hhead
    · have hsorted : (l.span.drop n).Pairwise fun a b => Better side a.price b.price :=
        List.Pairwise.sublist (List.drop_sublist n l.span) hl
      rw [List.drop_eq_getElem_cons hlt,List.pairwise_cons] at hsorted
      exact IsTrans.trans _ _ _ hhead (hsorted.1 lv hlv)
  · rw [List.drop_eq_nil_of_le (by omega)] at hlv
    cases hlv

/-- The three outcomes of `find_or_insert_level`: the price is listed, it is made a
fresh empty level, or the side is full and the index is only where the scan stopped. -/
theorem findOrInsertLevel_cases {side : Side} {l : Levels maxLevels} (hl : l.BestFirst side)
    (price : Price) :
    (∃ i : Fin maxLevels, l.findOrInsertLevel side price = (l,i.val) ∧ i.val < l.count ∧
      l.at? price = some (l.cell i)) ∨
    (l.at? price = none ∧ l.count < maxLevels ∧
      ∃ (l' : Levels maxLevels) (i : Fin maxLevels),
        l.findOrInsertLevel side price = (l',i.val) ∧ i.val < l'.count ∧
        l'.cell i = ⟨price,0,0⟩ ∧ l'.BestFirst side ∧
        ∀ p, l'.at? p = if p = price then some ⟨price,0,0⟩ else l.at? p) ∨
    (l.at? price = none ∧ l.count = maxLevels ∧
      ∃ i ≤ maxLevels, l.findOrInsertLevel side price = (l,i) ∧
        (∀ lv ∈ l.span.take i, Better side lv.price price) ∧
        ∀ lv ∈ l.span.drop i, Better side price lv.price) := by
  cases hfound : (scan side price l.span 0).2 with
  | true =>
    left
    obtain ⟨n,_,hidx,_,hlv,_⟩ := scan_spec side price l.span 0
    obtain ⟨lv,hn,hprice⟩ := hlv hfound
    obtain ⟨hlt,hget⟩ := List.getElem?_eq_some_iff.mp hn
    have hcount : n < l.count := by simpa using hlt
    rw [span_getElem _ _ hlt (hcount.trans_le l.count_le)] at hget
    refine ⟨⟨n,hcount.trans_le l.count_le⟩,by simp [findOrInsertLevel,hfound,hidx],hcount,?_⟩
    rw [hget]
    exact (KeySorted.lookup_eq_some hl).mpr ⟨List.mem_of_getElem? hn,hprice⟩
  | false =>
    right
    obtain ⟨hi,hbefore,hbehind⟩ := scan_separates hl hfound
    have hnone : l.at? price = none := by
      rw [at?,KeySorted.lookup_eq_none]
      intro lv hlv heq
      rw [← List.take_append_drop (scan side price l.span 0).1 l.span,List.mem_append] at hlv
      rcases hlv with hlv | hlv
      · exact irrefl_of (Better side) price (heq ▸ hbefore lv hlv)
      · exact irrefl_of (Better side) price (heq ▸ hbehind lv hlv)
    by_cases hroom : l.count < maxLevels
    · left
      refine ⟨hnone,hroom,_,⟨(scan side price l.span 0).1,hi.trans_lt hroom⟩,
        by rw [findOrInsertLevel,hfound,if_neg (by simp),dif_pos hroom],?_,?_,?_⟩
      · simp only
        omega
      · simp [cell]
      · have hi' : (scan side price l.span 0).1 ≤ l.span.length := by rwa [span_length]
        simp only [BestFirst,at?,insert_span l hroom _ hi]
        have hsorted := KeySorted.sorted_insertIdx (b := ⟨price,0,0⟩) hl hbefore hbehind hi'
        exact ⟨hsorted,fun p => KeySorted.lookup_insertIdx hsorted hi'⟩
    · right
      have hfull : l.count = maxLevels := le_antisymm l.count_le (not_lt.mp hroom)
      exact ⟨hnone,hfull,_,hi.trans_eq hfull,
        by rw [findOrInsertLevel,hfound,if_neg (by simp),dif_neg hroom],hbefore,hbehind⟩

end Levels
end Marketlib
