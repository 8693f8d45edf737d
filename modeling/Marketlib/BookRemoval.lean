import Marketlib.BookLevels
import Marketlib.RobinHood

/-! The two ways an order leaves the book. Filling an order reads the order table once
more after the order's slot was erased, so its effect depends on the slot's successor. -/

namespace Marketlib
namespace OrderBook

open RobinHood

variable {maxLevels maxOrders n : ℕ}

/-- The two books show the same and hold the same orders. -/
structure SameBook (b b' : OrderBook maxLevels maxOrders) : Prop where
  bids : b.bids.span = b'.bids.span
  asks : b.asks.span = b'.asks.span
  orders : b.orders = b'.orders
  sequence : b.sequence = b'.sequence

theorem SameBook.levelAt {b b' : OrderBook maxLevels maxOrders} (h : SameBook b b') (s : Side)
    (p : Price) : b.levelAt s p = b'.levelAt s p := by
  cases s with
  | bid => exact congrArg (KeySorted.lookup PriceLevel.price p) h.bids
  | ask => exact congrArg (KeySorted.lookup PriceLevel.price p) h.asks

/-- The record that the slot of an order holds once the order is erased. -/
def movedInto (s : Slots n OrderId OrderLoc) (i : Fin n) : Option OrderLoc :=
  (eraseAt s i i).map Entry.value

/-- A fill that reads another level's record leaves its own empty level listed. -/
theorem onExecute_fill_misread {b : OrderBook maxLevels maxOrders} (hb : b.BestFirst)
    {id : OrderId} {loc : OrderLoc} (h : b.orders.lookup id = some loc) {lv : PriceLevel}
    (hlv : b.levelAt loc.side loc.price = some lv) (hlast : lv.orderCount = 1) (rec : OrderLoc)
    (hrec : ¬(rec.side = loc.side ∧ rec.price = loc.price)) :
    (b.onExecute id loc.qty (some rec)).levelAt loc.side loc.price =
      some { lv with qty := lv.qty-loc.qty, orderCount := 0 } := by
  obtain ⟨i,hf,_,hcell⟩ := Levels.findLevel_of_at? hlv
  obtain ⟨hbest,hlevel⟩ := writeLevel_spec hb hf
    { lv with qty := lv.qty-loc.qty, orderCount := 0 } (by rw [hcell])
  obtain ⟨hbest',hlevel'⟩ := with_spec hbest (b.orders.erase id)
    (b.setLevels ((b.levels loc.side).write i
      { lv with qty := lv.qty-loc.qty, orderCount := 0 }) loc.side).sequence
  obtain ⟨hbest'',herase⟩ := eraseLevel_spec hbest' rec.side rec.price
  have hzero : lv.orderCount-1 = 0 := by rw [hlast,sub_self]
  simp only [onExecute,h,hf,hcell,sub_self,if_true,hzero,Option.getD_some]
  refine ((with_spec hbest'' _ _).2 _ _).trans ?_
  rw [herase,if_neg fun hs => hrec ⟨hs.1.symm,hs.2.symm⟩,hlevel',hlevel,if_pos ⟨rfl,rfl⟩]

/-- The table left by the erase holds the orders that still rest after the fill. -/
theorem onExecute_fill_represented {b : OrderBook maxLevels maxOrders}
    {s : Slots n OrderId OrderLoc} (hs : Represents b.orders s) {i : Fin n} {dist : ℕ}
    {id : OrderId} {loc : OrderLoc} (hi : s i = some ⟨dist,id,loc⟩) {lv : PriceLevel}
    (hlv : b.levelAt loc.side loc.price = some lv) :
    Represents (b.onExecute id loc.qty (movedInto s i)).orders (eraseAt s i) := by
  have hloc : b.orders.lookup id = some loc := (hs.holds id loc).mpr ⟨i,_,hi,rfl,rfl⟩
  obtain ⟨k,hf,_,_⟩ := Levels.findLevel_of_at? hlv
  have horders : (b.onExecute id loc.qty (movedInto s i)).orders = b.orders.erase id := by
    simp only [onExecute,hloc,hf,sub_self,if_true]
    split_ifs <;> simp [eraseLevel]
  rw [horders]
  exact eraseAt_represents hs hi

/-- In every reachable book, whatever the placement of its orders in the table's slots:
filling a resting order is cancelling it unless its level empties while the record
shifted into its slot belongs to another level. -/
theorem run_fill_eq_cancel_iff {b : OrderBook maxLevels maxOrders} {symbolId : UInt32}
    {ops : List Op} (hrun : Transition.run step (create symbolId) ops = some b)
    {s : Slots n OrderId OrderLoc} (hs : Represents b.orders s) {i : Fin n} {dist : ℕ}
    {id : OrderId} {loc : OrderLoc} (hi : s i = some ⟨dist,id,loc⟩) {lv : PriceLevel}
    (hlv : b.levelAt loc.side loc.price = some lv) :
    SameBook (b.onExecute id loc.qty (movedInto s i)) (b.onCancel id) ↔
      lv.orderCount ≠ 1 ∨ ∀ e ∈ displaced s (next i),
        e.value.side = loc.side ∧ e.value.price = loc.price := by
  have hb := reachable_bestFirst (Transition.reachable_iff_run.mpr ⟨ops,hrun⟩)
  have hloc : b.orders.lookup id = some loc := (hs.holds id loc).mpr ⟨i,_,hi,rfl,rfl⟩
  obtain ⟨k,hf,_,hcell⟩ := Levels.findLevel_of_at? hlv
  have hmoved : movedInto s i = (displaced s (next i)).map Entry.value := by
    rw [movedInto,eraseAt_self hs hi]
  rw [hmoved]
  constructor
  · intro hsame
    by_contra hnot
    push Not at hnot
    obtain ⟨hlast,e,he,hother⟩ := hnot
    have hexecute := onExecute_fill_misread hb hloc hlv hlast e.value
      fun ⟨hside,hprice⟩ => hother hside hprice
    have hcancel := (onCancel_spec hb hloc).2.2.2 loc.side loc.price
    rw [Option.mem_def.mp he,Option.map_some] at hsame
    rw [← hsame.levelAt,hexecute,if_pos ⟨rfl,rfl⟩,hlv,Option.bind_some,withoutOrder,hlast] at hcancel
    simp at hcancel
  · intro hread
    rw [onExecute_fill_eq_onCancel hloc hf]
    · exact ⟨rfl,rfl,rfl,rfl⟩
    · rw [hcell]
      refine hread.imp (fun hcount hzero => hcount (sub_eq_zero.mp hzero)) fun hrecord rec hrec => ?_
      obtain ⟨e,he,rfl⟩ := Option.map_eq_some_iff.mp hrec
      exact hrecord e he

/-- Orders `1` and `17` in sixteen slots: both belong in slot one, where `1` came first. -/
def collidingSlots : Slots 16 OrderId OrderLoc := fun i =>
  if i = 1 then some ⟨0,1,⟨.bid,100,10⟩⟩ else if i = 2 then some ⟨1,17,⟨.bid,99,5⟩⟩ else none

theorem collidingSlots_eq_some {i : Fin 16} {e : Entry OrderId OrderLoc} :
    collidingSlots i = some e ↔ i = 1 ∧ e = ⟨0,1,⟨.bid,100,10⟩⟩ ∨
      i = 2 ∧ e = ⟨1,17,⟨.bid,99,5⟩⟩ := by
  unfold collidingSlots
  split_ifs with h h'
  · simp [h,eq_comm]
  · simp [h',eq_comm]
  · simp [h,h']

theorem collidingSlots_represents : Represents
    (((∅ : Finmap fun _ : OrderId => OrderLoc).insert 1 ⟨.bid,100,10⟩).insert 17 ⟨.bid,99,5⟩)
    collidingSlots := by
  refine ⟨fun i j e e' he he' hkey => ?_,fun id loc => ?_,0,rfl⟩
  · rw [collidingSlots_eq_some] at he he'
    rcases he with ⟨rfl,rfl⟩ | ⟨rfl,rfl⟩ <;> rcases he' with ⟨rfl,rfl⟩ | ⟨rfl,rfl⟩ <;> simp at hkey ⊢
  · have hslots : (∃ i e, collidingSlots i = some e ∧ e.key = id ∧ e.value = loc) ↔
        id = 1 ∧ loc = ⟨.bid,100,10⟩ ∨ id = 17 ∧ loc = ⟨.bid,99,5⟩ := by
      constructor
      · rintro ⟨i,e,he,rfl,rfl⟩
        rcases collidingSlots_eq_some.mp he with ⟨rfl,rfl⟩ | ⟨rfl,rfl⟩ <;> simp
      · rintro (⟨rfl,rfl⟩ | ⟨rfl,rfl⟩)
        · exact ⟨1,_,rfl,rfl,rfl⟩
        · exact ⟨2,_,rfl,rfl,rfl⟩
    rw [hslots]
    by_cases h17 : id = 17
    · subst h17
      simp [Finmap.lookup_insert,@eq_comm _ loc]
    · rw [Finmap.lookup_insert_of_ne _ h17]
      by_cases h1 : id = 1
      · subst h1
        simp [Finmap.lookup_insert,@eq_comm _ loc]
      · simp [Finmap.lookup_insert_of_ne _ h1,h1,h17]

theorem run_fill_eq_cancel_iff_colliding :
    ∃ b : OrderBook 8 8,
      Transition.run step (create 0) [.add 1 .bid 100 10,.add 17 .bid 99 5] = some b ∧
      (SameBook (b.onExecute 1 10 (movedInto collidingSlots 1)) (b.onCancel 1) ↔
        (1 : UInt32) ≠ 1 ∨ ∀ e ∈ displaced collidingSlots (next 1),
          e.value.side = .bid ∧ e.value.price = 100) :=
  ⟨_,rfl,run_fill_eq_cancel_iff
    (show Transition.run step (create 0) [.add 1 .bid 100 10,.add 17 .bid 99 5] = some _ from rfl)
    collidingSlots_represents (show collidingSlots 1 = some ⟨0,1,⟨.bid,100,10⟩⟩ from rfl)
    (show _ = some ⟨100,10,1⟩ by decide)⟩

/-- Filling order `1` unlists the level of order `17` and leaves its own, empty, level. -/
theorem fill_unlists_other_level :
    ∃ b : OrderBook 8 8,
      Transition.run step (create 0) [.add 1 .bid 100 10,.add 17 .bid 99 5] = some b ∧
      Represents b.orders collidingSlots ∧ b.levelAt .bid 100 = some ⟨100,10,1⟩ ∧
      collidingSlots 1 = some ⟨0,1,⟨.bid,100,10⟩⟩ ∧
      (b.onExecute 1 10 (movedInto collidingSlots 1)).bids.span = [⟨100,0,0⟩] ∧
      (b.onCancel 1).bids.span = [⟨99,5,1⟩] :=
  ⟨_,rfl,collidingSlots_represents,by decide,rfl,by decide,by decide⟩

end OrderBook
end Marketlib
