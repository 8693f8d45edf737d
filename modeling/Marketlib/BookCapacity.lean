import Marketlib.BookLevels

/-! Adding to a side that holds as many levels as it has cells. -/

namespace Marketlib
namespace OrderBook

variable {maxLevels maxOrders : ℕ}

/-- From `b` to `b'` the order of quantity `qty` is credited to cell `i` of a side, the
level `lv`, and the level at every other side or price stays as it is. -/
structure CreditsOnly (b b' : OrderBook maxLevels maxOrders) (side : Side) (i : ℕ)
    (lv : PriceLevel) (qty : Qty) : Prop where
  inside : i < maxLevels
  cell : ∀ h : i < maxLevels, (b'.levels side).cell ⟨i,h⟩ =
    { lv with qty := lv.qty+qty, orderCount := lv.orderCount+1 }
  credited : b'.levelAt side lv.price =
    some { lv with qty := lv.qty+qty, orderCount := lv.orderCount+1 }
  others : ∀ s p, ¬(s = side ∧ p = lv.price) → b'.levelAt s p = b.levelAt s p

/-- The operation is undefined exactly when a full side ranks an unlisted price behind
all its levels: the level index is then one past the array. -/
theorem onAdd_eq_none {b : OrderBook maxLevels maxOrders} (hb : b.BestFirst) {id : OrderId}
    {side : Side} {price : Price} {qty : Qty} : b.onAdd id side price qty = none ↔
      b.orders.keys.card < maxOrders ∧ (b.levels side).count = maxLevels ∧
      ∀ lv ∈ (b.levels side).span, Better side lv.price price := by
  by_cases hcard : b.orders.keys.card < maxOrders
  · by_cases hroom : b.levelAt side price ≠ none ∨ (b.levels side).count < maxLevels
    · obtain ⟨b',_,hres,_⟩ := onAdd_credits hb hcard hroom id qty
      rw [hres]
      refine iff_of_false (by simp) fun ⟨_,hfull,hbehind⟩ => ?_
      rcases hroom with h | h
      · obtain ⟨lv,hlv⟩ := Option.ne_none_iff_exists'.mp h
        obtain ⟨hmem,hprice⟩ := KeySorted.lookup_some_mem hlv
        exact irrefl_of (Better side) price (hprice ▸ hbehind lv hmem)
      · exact absurd hfull h.ne
    · push Not at hroom
      have hfull := le_antisymm (b.levels side).count_le hroom.2
      obtain ⟨i,hi,_,hbefore,hbehind,hpast,hinside⟩ := onAdd_no_room hb hcard hroom.1 hfull id qty
      rcases hi.eq_or_lt with rfl | hlt
      · rw [List.take_of_length_le (by rw [Levels.span_length,hfull])] at hbefore
        exact iff_of_true (hpast rfl) ⟨hcard,hfull,hbefore⟩
      · obtain ⟨b',hres,_⟩ := hinside hlt
        rw [hres]
        refine iff_of_false (by simp) fun ⟨_,_,hall⟩ => ?_
        have hlen : i < (b.levels side).span.length := by rw [Levels.span_length]; omega
        have hmem : (b.levels side).span[i] ∈ (b.levels side).span.drop i := by
          rw [List.drop_eq_getElem_cons hlen]
          exact List.mem_cons_self
        exact asymm_of (Better side) (hbehind _ hmem) (hall _ (List.getElem_mem hlen))
  · rw [onAdd_refused (not_lt.mp hcard)]
    exact iff_of_false (by simp) fun h => hcard h.1

/-- A full side aggregates an unlisted price into one of its levels, when some level
ranks behind it; the last level, when only that one does. -/
theorem onAdd_aggregates {b : OrderBook maxLevels maxOrders} (hb : b.BestFirst)
    (hcard : b.orders.keys.card < maxOrders) {side : Side} {price : Price}
    (hnone : b.levelAt side price = none) (hfull : (b.levels side).count = maxLevels)
    (hbehind : ∃ lv ∈ (b.levels side).span, Better side price lv.price)
    (id : OrderId) (qty : Qty) :
    ∃ b', ∃ lv ∈ (b.levels side).span, b.onAdd id side price qty = some (true,b') ∧
      CreditsOnly b b' side ((b.levels side).findOrInsertLevel side price).2 lv qty ∧
      ∀ front last, (b.levels side).span = front ++ [last] →
        (∀ lv ∈ front, Better side lv.price price) →
        ((b.levels side).findOrInsertLevel side price).2 = maxLevels-1 ∧ lv = last := by
  obtain ⟨i,hi,hidx,hbefore,hrest,_,hinside⟩ := onAdd_no_room hb hcard hnone hfull id qty
  have hlen : (b.levels side).span.length = maxLevels := by rw [Levels.span_length,hfull]
  have hlt : i < maxLevels := by
    rcases hi.eq_or_lt with rfl | h
    · rw [List.take_of_length_le hlen.le] at hbefore
      obtain ⟨lv,hlv,hbetter⟩ := hbehind
      exact absurd hbetter (asymm_of (Better side) (hbefore lv hlv))
    · exact h
  have hlt' : i < (b.levels side).span.length := by rwa [hlen]
  obtain ⟨b',hres,hcell,_,_,_,hlevel⟩ := hinside hlt
  rw [← Levels.span_getElem _ _ hlt' hlt] at hcell hlevel
  rw [hidx]
  refine ⟨b',(b.levels side).span[i],List.getElem_mem hlt',hres,
    ⟨hlt,fun _ => hcell,?_,fun s p hother => by rw [hlevel,if_neg hother]⟩,?_⟩
  · rw [hlevel,if_pos ⟨rfl,rfl⟩]
    rfl
  · intro front last hspan hfront
    have hfl : front.length+1 = maxLevels := by
      rw [← hlen,hspan,List.length_append,List.length_singleton]
    -- the scan cannot stop at a level of the front
    have hstop : i = front.length := by
      by_contra hne
      have hmem : (b.levels side).span[i] ∈ (b.levels side).span.drop i := by
        rw [List.drop_eq_getElem_cons hlt']
        exact List.mem_cons_self
      have hmem' : (b.levels side).span[i] ∈ front := by
        simp only [hspan,List.getElem_append_left (show i < front.length by omega)]
        exact List.getElem_mem _
      exact asymm_of (Better side) (hrest _ hmem) (hfront _ hmem')
    subst hstop
    exact ⟨by omega,by simp [hspan]⟩

/-- What adding an order does to the levels of any reachable book. -/
theorem run_onAdd_credits {b : OrderBook maxLevels maxOrders} {symbolId : UInt32} {ops : List Op}
    (hrun : Transition.run step (create symbolId) ops = some b) (id : OrderId) (side : Side)
    (price : Price) (qty : Qty) :
    (maxOrders ≤ b.orders.keys.card → b.onAdd id side price qty = some (false,b)) ∧
    (b.orders.keys.card < maxOrders →
      b.levelAt side price ≠ none ∨ (b.levels side).count < maxLevels →
      ∃ b', b.onAdd id side price qty = some (true,b') ∧
        CreditsOnly b b' side ((b.levels side).findOrInsertLevel side price).2
          ((b.levelAt side price).getD ⟨price,0,0⟩) qty ∧
        ((b.levelAt side price).getD ⟨price,0,0⟩).price = price) ∧
    (b.orders.keys.card < maxOrders → b.levelAt side price = none →
      (b.levels side).count = maxLevels →
      (∃ lv ∈ (b.levels side).span, Better side price lv.price) →
      ∃ b', ∃ lv ∈ (b.levels side).span, b.onAdd id side price qty = some (true,b') ∧
        CreditsOnly b b' side ((b.levels side).findOrInsertLevel side price).2 lv qty ∧
        ∀ front last, (b.levels side).span = front ++ [last] →
          (∀ lv ∈ front, Better side lv.price price) →
          ((b.levels side).findOrInsertLevel side price).2 = maxLevels-1 ∧ lv = last) := by
  have hb := reachable_bestFirst (Transition.reachable_iff_run.mpr ⟨ops,hrun⟩)
  refine ⟨fun h => onAdd_refused h id side price qty,fun hcard hroom => ?_,
    fun hcard hnone hfull hbehind => onAdd_aggregates hb hcard hnone hfull hbehind id qty⟩
  obtain ⟨b',i,hres,hidx,hi,hcell,hbest,_,_,hlevel⟩ := onAdd_credits hb hcard hroom id qty
  have hprice : ((b.levelAt side price).getD ⟨price,0,0⟩).price = price := by
    cases hlv : b.levelAt side price with
    | none => rfl
    | some lv => exact Levels.at?_price hlv
  refine ⟨b',hres,⟨?_,?_,?_,?_⟩,hprice⟩
  · rw [hidx]
    exact i.isLt
  · intro _
    simp only [hidx]
    exact hcell
  · rw [hlevel,hprice,if_pos ⟨rfl,rfl⟩]
    simp only [withOrder,hprice]
  · intro s p hother
    rw [hprice] at hother
    rw [hlevel,if_neg hother]

theorem run_onAdd_credits_full :
    ∃ b : OrderBook 2 8,
      Transition.run step (create 0) [.add 1 .bid 102 10,.add 2 .bid 100 7] = some b ∧
      ∃ b', ∃ lv ∈ (b.levels .bid).span, b.onAdd 3 .bid 101 5 = some (true,b') ∧
        CreditsOnly b b' .bid ((b.levels .bid).findOrInsertLevel .bid 101).2 lv 5 ∧
        ∀ front last, (b.levels .bid).span = front ++ [last] →
          (∀ lv ∈ front, Better .bid lv.price 101) →
          ((b.levels .bid).findOrInsertLevel .bid 101).2 = 2-1 ∧ lv = last :=
  ⟨_,rfl,(run_onAdd_credits (show Transition.run step (create 0)
    [.add 1 .bid 102 10,.add 2 .bid 100 7] = some _ from rfl) 3 .bid 101 5).2.2 (by decide)
      (by decide) rfl (by decide)⟩

/-- A better price on a full side is not listed: its quantity goes to another price. -/
theorem full_side_credits_other_price :
    ∃ b b' : OrderBook 1 8, Transition.run step (create 0) [.add 1 .bid 100 10] = some b ∧
      b.orders.lookup 2 = none ∧ b.onAdd 2 .bid 101 5 = some (true,b') ∧
      b.levelAt .bid 100 = some ⟨100,10,1⟩ ∧ b'.levelAt .bid 100 = some ⟨100,15,2⟩ ∧
      b'.levelAt .bid 101 = none :=
  ⟨_,_,rfl,by decide,rfl,by decide,by decide,by decide⟩

end OrderBook
end Marketlib
