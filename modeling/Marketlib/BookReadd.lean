import Marketlib.BookAggregate

/-! Adding an order whose id is already resting. The table then holds the new order in the old
one's place, but the old one's quantity and count stay on their level. -/

namespace Marketlib
namespace OrderBook

open OrderTable

variable {maxLevels maxOrders : ℕ}

/-- Every order has its level, and every level's quantity and count are those of its orders. -/
structure Tallies (b : OrderBook maxLevels maxOrders) : Prop where
  listed : ∀ id loc, b.orders.lookup id = some loc → b.levelAt loc.side loc.price ≠ none
  levels : ∀ s p lv, b.levelAt s p = some lv → lv.qty = restingQty b.orders s p ∧
    lv.orderCount = UInt32.ofNat (restingCount b.orders s p)

/-- The count of a level, none for a price that is not listed. -/
def countAt (b : OrderBook maxLevels maxOrders) (s : Side) (p : Price) : UInt32 :=
  (b.levelAt s p).elim 0 PriceLevel.orderCount

def qtyAt (b : OrderBook maxLevels maxOrders) (s : Side) (p : Price) : Qty :=
  (b.levelAt s p).elim 0 PriceLevel.qty

/-- From `b` to `b'` every level moves by as much as the orders of its price. -/
def MovesWithTable (b b' : OrderBook maxLevels maxOrders) : Prop :=
  ∀ s p, b'.qtyAt s p-b.qtyAt s p = restingQty b'.orders s p-restingQty b.orders s p ∧
    b'.countAt s p-b.countAt s p = UInt32.ofNat (restingCount b'.orders s p)-
      UInt32.ofNat (restingCount b.orders s p)

/-- A replaced order is counted where it was, and is counted anew. -/
theorem restingCount_replace {t : OrderTable} {id : OrderId} {old : OrderLoc}
    (h : t.lookup id = some old) (new : OrderLoc) (s : Side) (p : Price) :
    restingCount (t.insert id new) s p+(if RestsAt s p old then 1 else 0) =
      restingCount t s p+if RestsAt s p new then 1 else 0 := by
  have hinsert : restingCount (t.insert id new) s p = (if RestsAt s p new then 1 else 0)+
      restingCount (t.erase id) s p :=
    MapTotals.total_replace (fun loc => if RestsAt s p loc then 1 else 0) new
  rw [hinsert,restingCount_erase h]
  omega

theorem onAdd_countAt {b b' : OrderBook maxLevels maxOrders} {side : Side} {price : Price}
    {qty : Qty} (hlevel : ∀ s p, b'.levelAt s p =
      if s = side ∧ p = price then some (withOrder price qty (b.levelAt side price))
      else b.levelAt s p) (s : Side) (p : Price) :
    b'.countAt s p = b.countAt s p+if s = side ∧ p = price then 1 else 0 := by
  rw [countAt,hlevel]
  split_ifs with h
  · obtain ⟨rfl,rfl⟩ := h
    rw [countAt]
    cases b.levelAt s p <;> rfl
  · exact (add_zero _).symm

/-- The count of the old order's level is one too high afterwards. -/
theorem readd_countAt {b b' : OrderBook maxLevels maxOrders} {id : OrderId} {side : Side}
    {price : Price} {qty : Qty} {loc : OrderLoc} (hloc : b.orders.lookup id = some loc)
    (horders : b'.orders = b.orders.insert id ⟨side,price,qty⟩)
    (hlevel : ∀ s p, b'.levelAt s p =
      if s = side ∧ p = price then some (withOrder price qty (b.levelAt side price))
      else b.levelAt s p) :
    b'.countAt loc.side loc.price-b.countAt loc.side loc.price ≠
      UInt32.ofNat (restingCount b'.orders loc.side loc.price)-
        UInt32.ofNat (restingCount b.orders loc.side loc.price) := by
  intro hcount
  have htable := restingCount_replace hloc ⟨side,price,qty⟩ loc.side loc.price
  rw [if_pos ⟨rfl,rfl⟩,← horders] at htable
  have hcast := congrArg UInt32.ofNat htable
  rw [UInt32.ofNat_add,UInt32.ofNat_add] at hcast
  rw [onAdd_countAt hlevel,add_sub_cancel_left] at hcount
  have hself : (if loc.side = side ∧ loc.price = price then 1 else 0 : UInt32) =
      UInt32.ofNat (if RestsAt loc.side loc.price ⟨side,price,qty⟩ then 1 else 0) := by
    by_cases h : loc.side = side ∧ loc.price = price
    · rw [if_pos h,if_pos ⟨h.1.symm,h.2.symm⟩]
      rfl
    · rw [if_neg h,if_neg fun h' => h ⟨h'.1.symm,h'.2.symm⟩]
      rfl
  rw [hself,eq_sub_iff_add_eq,add_comm,← hcast,add_eq_left] at hcount
  exact absurd hcount (by decide)

theorem Matches.tallies {b : OrderBook maxLevels maxOrders} {t : OrderTable} (h : Matches b t) :
    Tallies b := by
  obtain rfl := h.orders
  refine ⟨fun id loc hloc => ?_,fun s p lv hlv => ?_⟩
  · rw [h.listed hloc]
    nofun
  · rw [h.levels,levelAt_eq_some] at hlv
    exact hlv.2 ▸ ⟨rfl,rfl⟩

theorem Tallies.countAt {b : OrderBook maxLevels maxOrders} (h : Tallies b) {s : Side} {p : Price}
    (hlisted : b.levelAt s p ≠ none) :
    b.countAt s p = UInt32.ofNat (restingCount b.orders s p) := by
  obtain ⟨lv,hlv⟩ := Option.ne_none_iff_exists'.mp hlisted
  rw [OrderBook.countAt,hlv]
  exact (h.levels s p lv hlv).2

/-- A re-added order is accounted for if and only if it is refused. -/
theorem readd_iff_full {b : OrderBook maxLevels maxOrders} {symbolId : UInt32} {ops : List Op}
    (hrun : Transition.run step (create symbolId) ops = some b) {id : OrderId} {loc : OrderLoc}
    (hloc : b.orders.lookup id = some loc) {side : Side} {price : Price}
    (hroom : b.levelAt side price ≠ none ∨ (b.levels side).count < maxLevels) (qty : Qty) :
    ((b.onAdd id side price qty = some (false,b) ∨
        ∃ b', b.onAdd id side price qty = some (true,b') ∧ MovesWithTable b b') ↔
      maxOrders ≤ b.orders.keys.card) ∧
    (Tallies b → ((b.onAdd id side price qty = some (false,b) ∨
        ∃ b', b.onAdd id side price qty = some (true,b') ∧ Tallies b') ↔
      maxOrders ≤ b.orders.keys.card)) := by
  by_cases hcard : b.orders.keys.card < maxOrders
  · have hb := reachable_bestFirst (Transition.reachable_iff_run.mpr ⟨ops,hrun⟩)
    obtain ⟨b',_,hres,_,_,_,_,horders,_,hlevel⟩ := onAdd_credits hb hcard hroom id qty
    have hcount := readd_countAt hloc horders hlevel
    rw [hres]
    refine ⟨iff_of_false ?_ (not_le.mpr hcard),fun htally => iff_of_false ?_ (not_le.mpr hcard)⟩
    · rintro (h | ⟨c,h,hmoves⟩)
      · cases h
      · cases h
        exact hcount (hmoves loc.side loc.price).2
    · rintro (h | ⟨c,h,htally'⟩)
      · cases h
      · cases h
        have hlisted := htally.listed id loc hloc
        have hlisted' : b'.levelAt loc.side loc.price ≠ none := by
          rw [hlevel]
          split_ifs
          · nofun
          · exact hlisted
        exact hcount (by rw [htally.countAt hlisted,htally'.countAt hlisted'])
  · have hfull := onAdd_refused (not_lt.mp hcard) id side price qty
    exact ⟨iff_of_true (.inl hfull) (not_lt.mp hcard),
      fun _ => iff_of_true (.inl hfull) (not_lt.mp hcard)⟩

/-- Order `1`, once more. -/
theorem readd_iff_full_one : ∃ b : OrderBook 8 1,
    Transition.run step (create 0) [.add 1 .bid 100 10] = some b ∧
    ((b.onAdd 1 .bid 100 5 = some (false,b) ∨
        ∃ b', b.onAdd 1 .bid 100 5 = some (true,b') ∧ MovesWithTable b b') ↔
      1 ≤ b.orders.keys.card) ∧
    (Tallies b → ((b.onAdd 1 .bid 100 5 = some (false,b) ∨
        ∃ b', b.onAdd 1 .bid 100 5 = some (true,b') ∧ Tallies b') ↔
      1 ≤ b.orders.keys.card)) :=
  ⟨_,rfl,readd_iff_full
    (show Transition.run step (create 0) [.add 1 .bid 100 10] = some _ from rfl)
    (show _ = some ⟨.bid,100,10⟩ by decide) (.inl (by decide)) 5⟩

/-- The bid of the replaced order stays listed with nothing behind it. -/
theorem readd_leaves_level : ∃ b b' : OrderBook 8 8,
    Transition.run step (create 0) [.add 1 .bid 100 10] = some b ∧ Tallies b ∧
      b.onAdd 1 .ask 101 5 = some (true,b') ∧
      b'.levelAt .bid 100 = some ⟨100,10,1⟩ ∧ restingCount b'.orders .bid 100 = 0 ∧
      ¬Tallies b' := by
  obtain ⟨b,hrun,hmatch⟩ : ∃ b : OrderBook 8 8,
      Transition.run step (create 0) [.add 1 .bid 100 10] = some b ∧
        Matches b (placeAll 8 ∅ [.add 1 .bid 100 10]) :=
    run_matches (create_matches 0) (by decide) (by decide)
  cases hrun
  refine ⟨_,_,rfl,hmatch.tallies,rfl,by decide,by decide,fun h => ?_⟩
  exact absurd (h.levels .bid 100 ⟨100,10,1⟩ (by decide)).2 (by decide)

end OrderBook
end Marketlib
