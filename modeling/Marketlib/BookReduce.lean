import Marketlib.BookQuantities
import Marketlib.BookRemoval

/-! Reducing an order in place. An execution that leaves something of the order is a
modification; one that leaves nothing is a modification to nothing and a cancellation. -/

namespace Marketlib
namespace OrderBook

open OrderTable

variable {maxLevels maxOrders : ℕ}

/-- The two books show the same levels and hold the same orders. -/
structure SameContents (b b' : OrderBook maxLevels maxOrders) : Prop where
  bids : b.bids.span = b'.bids.span
  asks : b.asks.span = b'.asks.span
  orders : b.orders = b'.orders

theorem SameContents.of_levelAt {b b' : OrderBook maxLevels maxOrders} (hb : b.BestFirst)
    (hb' : b'.BestFirst) (hlevel : ∀ s p, b.levelAt s p = b'.levelAt s p)
    (horders : b.orders = b'.orders) : SameContents b b' where
  bids := KeySorted.ext (hb .bid) (hb' .bid) (hlevel .bid)
  asks := KeySorted.ext (hb .ask) (hb' .ask) (hlevel .ask)
  orders := horders

/-- What is executed in part is what a modification leaves. -/
theorem onExecute_eq_onModify {b : OrderBook maxLevels maxOrders} {id : OrderId} {loc : OrderLoc}
    (hloc : b.orders.lookup id = some loc) {execQty : Qty} (hpart : execQty ≠ loc.qty)
    (moved : Option OrderLoc) :
    b.onExecute id execQty moved = b.onModify id (loc.qty-execQty) := by
  have hleft : loc.qty-execQty ≠ 0 := fun h => hpart (sub_eq_zero.mp h).symm
  have hqty : ∀ q : Qty, q-loc.qty+(loc.qty-execQty) = q-execQty :=
    fun q => sub_add_sub_cancel q loc.qty execQty
  simp only [onExecute,onModify,hloc]
  cases (b.levels loc.side).findLevel loc.price with
  | none => rfl
  | some i => simp only [hleft,if_false,hqty]

/-- Taking the rest of an order off its level, in one turn or in two. -/
theorem withoutOrder_reduced (qty : Qty) (lv : PriceLevel) :
    withoutOrder 0 { lv with qty := lv.qty-qty+0 } = withoutOrder qty lv := by
  simp only [withoutOrder,add_zero,sub_zero]

/-- A fill leaves what a modification to nothing leaves once the order is cancelled. -/
theorem onExecute_fill_sameContents {b : OrderBook maxLevels maxOrders} (hb : b.BestFirst)
    {id : OrderId} {loc : OrderLoc} (hloc : b.orders.lookup id = some loc) {lv : PriceLevel}
    (hlv : b.levelAt loc.side loc.price = some lv) {moved : Option OrderLoc}
    (hmoved : ∀ rec, moved = some rec → rec.side = loc.side ∧ rec.price = loc.price) :
    SameContents (b.onExecute id loc.qty moved) ((b.onModify id 0).onCancel id) := by
  obtain ⟨i,hf,-⟩ := Levels.findLevel_of_at? hlv
  obtain ⟨hbest,horders,-,hlevel⟩ := onCancel_spec hb hloc
  obtain ⟨hbest₀,horders₀,-,hlevel₀⟩ := onModify_spec hb hloc hlv 0
  have hloc₀ : (b.onModify id 0).orders.lookup id = some { loc with qty := 0 } := by
    rw [horders₀,Finmap.lookup_insert]
  obtain ⟨hbest₁,horders₁,-,hlevel₁⟩ := onCancel_spec hbest₀ hloc₀
  rw [onExecute_fill_eq_onCancel hloc hf (.inr hmoved)]
  refine .of_levelAt hbest hbest₁ (fun s p => ?_) ?_
  · rw [hlevel,hlevel₁,hlevel₀,hlevel₀]
    by_cases hown : s = loc.side ∧ p = loc.price
    · rw [if_pos hown,if_pos hown,if_pos ⟨rfl,rfl⟩,hlv,Option.bind_some,Option.bind_some,
        withoutOrder_reduced]
    · simp only [if_neg hown]
  · rw [horders,horders₁,horders₀]
    exact (MapTotals.erase_insert ..).symm

/-- As long as the sides have room, every resting order has its level. -/
theorem run_listed {b : OrderBook maxLevels maxOrders} {symbolId : UInt32} {ops : List Op}
    (hrun : Transition.run step (create symbolId) ops = some b)
    (hcap : Throughout maxOrders (Capacity maxLevels maxOrders) ∅ ops)
    (hreads : Throughout maxOrders ReadsOwn ∅ ops) (hcounted : Throughout maxOrders Counted ∅ ops)
    {id : OrderId} {loc : OrderLoc} (hloc : b.orders.lookup id = some loc) :
    b.levelAt loc.side loc.price ≠ none := by
  obtain ⟨b',hrun',hmatch⟩ := run_reads (create_matches symbolId) hcap hreads hcounted
  obtain rfl := Option.some.inj (hrun'.symm.trans hrun)
  exact hmatch.tallies.listed id loc hloc

/-- An order is reduced alike by execution and by modification, except that the execution of
all of it also cancels it. -/
theorem run_execute_reduces {b : OrderBook maxLevels maxOrders} {symbolId : UInt32}
    {ops : List Op} (hrun : Transition.run step (create symbolId) ops = some b) {id : OrderId}
    {loc : OrderLoc} (hloc : b.orders.lookup id = some loc) {execQty : Qty}
    {moved : Option OrderLoc} (hmoved : execQty = loc.qty →
      ∀ rec, moved = some rec → rec.side = loc.side ∧ rec.price = loc.price) :
    (execQty ≠ loc.qty → b.onExecute id execQty moved = b.onModify id (loc.qty-execQty)) ∧
    (execQty = loc.qty → b.levelAt loc.side loc.price ≠ none →
      SameContents (b.onExecute id execQty moved)
        ((b.onModify id (loc.qty-execQty)).onCancel id)) ∧
    (b.levelAt loc.side loc.price = none →
      b.onExecute id execQty moved = b ∧ b.onModify id (loc.qty-execQty) = b) := by
  refine ⟨fun hpart => onExecute_eq_onModify hloc hpart moved,?_,fun hnone => ?_⟩
  · rintro rfl hlisted
    obtain ⟨lv,hlv⟩ := Option.ne_none_iff_exists'.mp hlisted
    have hb := reachable_bestFirst (Transition.reachable_iff_run.mpr ⟨ops,hrun⟩)
    rw [sub_self]
    exact onExecute_fill_sameContents hb hloc hlv (hmoved rfl)
  · have hunlisted : ∀ loc', b.orders.lookup id = some loc' →
        b.levelAt loc'.side loc'.price = none := by
      intro loc' hloc'
      obtain rfl := Option.some.inj (hloc.symm.trans hloc')
      exact hnone
    exact ⟨onExecute_ignored hunlisted,onModify_ignored hunlisted⟩

/-- All ten of ten. -/
theorem run_execute_reduces_all :
    ∃ b : OrderBook 8 8, Transition.run step (create 0) [.add 1 .bid 100 10] = some b ∧
      ((10 : Qty) ≠ 10 → b.onExecute 1 10 none = b.onModify 1 (10-10)) ∧
      ((10 : Qty) = 10 → b.levelAt .bid 100 ≠ none →
        SameContents (b.onExecute 1 10 none) ((b.onModify 1 (10-10)).onCancel 1)) ∧
      (b.levelAt .bid 100 = none → b.onExecute 1 10 none = b ∧ b.onModify 1 (10-10) = b) :=
  ⟨_,rfl,run_execute_reduces
    (show Transition.run step (create 0) [.add 1 .bid 100 10] = some _ from rfl)
    (show _ = some ⟨.bid,100,10⟩ by decide) (fun _ _ h => by cases h)⟩

/-- Filled, the order is gone; modified to nothing, it still rests. -/
theorem modify_to_nothing_rests :
    ∃ b : OrderBook 8 8, Transition.run step (create 0) [.add 1 .bid 100 10] = some b ∧
      b.orders.lookup 1 = some ⟨.bid,100,10⟩ ∧
      (b.onExecute 1 10 none).orders.lookup 1 = none ∧
      (b.onExecute 1 10 none).bids.span = [] ∧
      (b.onModify 1 (10-10)).orders.lookup 1 = some ⟨.bid,100,0⟩ ∧
      (b.onModify 1 (10-10)).bids.span = [⟨100,0,1⟩] :=
  ⟨_,rfl,by decide,by decide,by decide,by decide,by decide⟩

end OrderBook
end Marketlib
