import Mathlib.Data.Finmap
import Mathlib.Data.UInt
import Mathlib.Tactic.Common
import Marketlib.Transition

/-! The array-based limit order book of one symbol. Each side is a fixed array of
price levels with a count; resting orders refer to their level by side and price,
never by index. The order table is an exact finite map. The only memory access whose
index is not bounded by the types below is the one `on_add` makes with the index it
gets back from `find_or_insert_level`; past the array it is undefined, and the
operation has no result. -/

namespace Marketlib

abbrev OrderId := UInt64
/-- Integer ticks. Prices are compared and copied, never computed with. -/
abbrev Price := ℤ
abbrev Qty := UInt64

inductive Side
  | bid | ask
  deriving DecidableEq

structure PriceLevel where
  price : Price := 0
  qty : Qty := 0
  orderCount : UInt32 := 0
  deriving DecidableEq

structure OrderLoc where
  side : Side
  price : Price
  qty : Qty
  deriving DecidableEq

/-- One side of the book: `bids_` with `num_bids_`, or `asks_` with `num_asks_`. -/
structure Levels (maxLevels : ℕ) where
  cells : Vector PriceLevel maxLevels
  count : ℕ
  count_le : count ≤ maxLevels

namespace Levels

variable {maxLevels : ℕ}

/-- No level listed: every cell is value-initialised. -/
def empty : Levels maxLevels := ⟨.replicate maxLevels {},0,Nat.zero_le _⟩

/-- What `bids()` and `asks()` show: the first `count` cells. -/
def span (l : Levels maxLevels) : List PriceLevel := l.cells.toList.take l.count

@[simp] theorem span_length (l : Levels maxLevels) : l.span.length = l.count := by
  simp [span,l.count_le]

/-- `find_level`: the first listed cell with the price. -/
def findLevel (l : Levels maxLevels) (price : Price) : Option (Fin maxLevels) :=
  (l.span.findFinIdx? fun lv => lv.price = price).map
    (Fin.castLE (by rw [span_length]; exact l.count_le))

/-- A level at `listed` ranks behind an order at `price`. -/
def past : Side → (listed price : Price) → Bool
  | .bid, listed, price => decide (listed < price)
  | .ask, listed, price => decide (price < listed)

/-- The scan of `find_or_insert_level` from cell `i` on: where it stops, and whether
it stops because the price is listed there. -/
def scan (side : Side) (price : Price) : List PriceLevel → ℕ → ℕ × Bool
  | [], i => (i,false)
  | lv :: rest, i =>
    if lv.price = price then (i,true)
    else if past side lv.price price then (i,false)
    else scan side price rest (i+1)

theorem scan_le (side : Side) (price : Price) (lvs : List PriceLevel) (i : ℕ) :
    (scan side price lvs i).1 ≤ i + lvs.length := by
  induction lvs generalizing i with
  | nil => simp [scan]
  | cons lv rest ih =>
    have := ih (i+1)
    simp only [scan,List.length_cons]
    split_ifs
    · simp
    · simp
    · omega

/-- `for (j = count; j > i; --j) levels[j] = levels[j - 1]`, started at `j`. -/
def shiftRight (i : ℕ) : (j : ℕ) → j < maxLevels → Vector PriceLevel maxLevels →
    Vector PriceLevel maxLevels
  | 0, _, cells => cells
  | j+1, hj, cells =>
    if i < j+1 then shiftRight i j (by omega) (cells.set (j+1) cells[j]) else cells

/-- `for (j = i; j + 1 < count; ++j) levels[j] = levels[j + 1]`, with `n` rounds to go. -/
def shiftLeft (j : ℕ) : (n : ℕ) → j + n < maxLevels → Vector PriceLevel maxLevels →
    Vector PriceLevel maxLevels
  | 0, _, cells => cells
  | n+1, hn, cells =>
    shiftLeft (j+1) n (by omega) (cells.set j cells[j+1] (by omega))

/-- `find_or_insert_level`: the index of the level at `price`, made if there is room.
Without room the index is where the scan stopped. -/
def findOrInsertLevel (l : Levels maxLevels) (side : Side) (price : Price) :
    Levels maxLevels × ℕ :=
  let i := (scan side price l.span 0).1
  if (scan side price l.span 0).2 then (l,i)
  else if h : l.count < maxLevels then
    (⟨(shiftRight i l.count h l.cells).set i ⟨price,0,0⟩
        (by have := scan_le side price l.span 0; rw [span_length] at this; omega),
      l.count+1,h⟩,i)
  else (l,i)

/-- `levels[i]`. -/
def cell (l : Levels maxLevels) (i : Fin maxLevels) : PriceLevel := l.cells[i.val]

/-- Assign to one cell of the array. -/
def write (l : Levels maxLevels) (i : Fin maxLevels) (lv : PriceLevel) : Levels maxLevels :=
  { l with cells := l.cells.set i lv }

/-- `erase_level` on the array of its side. -/
def eraseLevel (l : Levels maxLevels) (price : Price) : Levels maxLevels :=
  match l.findLevel price with
  | none => l
  | some i =>
    ⟨shiftLeft i (l.count-1-i) (by have := l.count_le; omega) l.cells,l.count-1,
      by have := l.count_le; omega⟩

end Levels

structure OrderBook (maxLevels maxOrders : ℕ) where
  symbolId : UInt32
  sequence : UInt64
  bids : Levels maxLevels
  asks : Levels maxLevels
  orders : Finmap fun _ : OrderId => OrderLoc

namespace OrderBook

variable {maxLevels maxOrders : ℕ}

def create (symbolId : UInt32) : OrderBook maxLevels maxOrders :=
  ⟨symbolId,0,.empty,.empty,∅⟩

/-- `side == Side::Bid ? bids_ : asks_`. -/
def levels (b : OrderBook maxLevels maxOrders) : Side → Levels maxLevels
  | .bid => b.bids
  | .ask => b.asks

def setLevels (b : OrderBook maxLevels maxOrders) (l : Levels maxLevels) :
    Side → OrderBook maxLevels maxOrders
  | .bid => { b with bids := l }
  | .ask => { b with asks := l }

def eraseLevel (b : OrderBook maxLevels maxOrders) (side : Side) (price : Price) :
    OrderBook maxLevels maxOrders :=
  b.setLevels ((b.levels side).eraseLevel price) side

/-- `on_add`. Refused with `false` when the order table is full; no result when the
level index is past the array. -/
def onAdd (b : OrderBook maxLevels maxOrders) (id : OrderId) (side : Side) (price : Price)
    (qty : Qty) : Option (Bool × OrderBook maxLevels maxOrders) :=
  if maxOrders ≤ b.orders.keys.card then some (false,b)
  else
    let (l,levelIdx) := (b.levels side).findOrInsertLevel side price
    if h : levelIdx < maxLevels then
      let lv := l.cell ⟨levelIdx,h⟩
      let l := l.write ⟨levelIdx,h⟩ { lv with qty := lv.qty+qty, orderCount := lv.orderCount+1 }
      some (true,{ b.setLevels l side with
        orders := b.orders.insert id ⟨side,price,qty⟩
        sequence := b.sequence+1 })
    else none

/-- `remove_qty`: take one order off its level, and the level off the side once no
order is left on it. -/
def removeQty (b : OrderBook maxLevels maxOrders) (loc : OrderLoc) :
    OrderBook maxLevels maxOrders :=
  match (b.levels loc.side).findLevel loc.price with
  | none => b
  | some i =>
    let lv := (b.levels loc.side).cell i
    let orderCount := lv.orderCount-1
    let b := b.setLevels ((b.levels loc.side).write i
      { lv with qty := lv.qty-loc.qty, orderCount := orderCount }) loc.side
    if orderCount = 0 then b.eraseLevel loc.side loc.price else b

def onCancel (b : OrderBook maxLevels maxOrders) (id : OrderId) : OrderBook maxLevels maxOrders :=
  match b.orders.lookup id with
  | none => b
  | some loc =>
    { b.removeQty loc with orders := b.orders.erase id, sequence := b.sequence+1 }

def onModify (b : OrderBook maxLevels maxOrders) (id : OrderId) (newQty : Qty) :
    OrderBook maxLevels maxOrders :=
  match b.orders.lookup id with
  | none => b
  | some loc =>
    match (b.levels loc.side).findLevel loc.price with
    | none => b
    | some i =>
      let lv := (b.levels loc.side).cell i
      { b.setLevels ((b.levels loc.side).write i
          { lv with qty := lv.qty-loc.qty+newQty }) loc.side with
        orders := b.orders.insert id { loc with qty := newQty }
        sequence := b.sequence+1 }

/-- `on_execute`. The reference `loc` points into the order table and is read once
more after the order was erased; `moved` is the record that the erase has by then
moved into its slot, if any. -/
def onExecute (b : OrderBook maxLevels maxOrders) (id : OrderId) (execQty : Qty)
    (moved : Option OrderLoc) : OrderBook maxLevels maxOrders :=
  match b.orders.lookup id with
  | none => b
  | some loc =>
    match (b.levels loc.side).findLevel loc.price with
    | none => b
    | some i =>
      let lv := (b.levels loc.side).cell i
      let loc := { loc with qty := loc.qty-execQty }
      if loc.qty = 0 then
        let orderCount := lv.orderCount-1
        let b : OrderBook maxLevels maxOrders := { b.setLevels ((b.levels loc.side).write i
            { lv with qty := lv.qty-execQty, orderCount := orderCount }) loc.side with
          orders := b.orders.erase id }
        let loc := moved.getD loc
        let b := if orderCount = 0 then b.eraseLevel loc.side loc.price else b
        { b with sequence := b.sequence+1 }
      else
        { b.setLevels ((b.levels loc.side).write i
            { lv with qty := lv.qty-execQty }) loc.side with
          orders := b.orders.insert id loc
          sequence := b.sequence+1 }

def bestBid (b : OrderBook maxLevels maxOrders) : Option PriceLevel := b.bids.span.head?

def bestAsk (b : OrderBook maxLevels maxOrders) : Option PriceLevel := b.asks.span.head?

inductive Op
  | add (id : OrderId) (side : Side) (price : Price) (qty : Qty)
  | cancel (id : OrderId)
  | modify (id : OrderId) (newQty : Qty)
  | execute (id : OrderId) (execQty : Qty) (moved : Option OrderLoc)
  deriving DecidableEq

/-- One call of the four operations; the result of `on_add` is dropped. -/
def step (b : OrderBook maxLevels maxOrders) : Op → Option (OrderBook maxLevels maxOrders)
  | .add id side price qty => (b.onAdd id side price qty).map Prod.snd
  | .cancel id => some (b.onCancel id)
  | .modify id newQty => some (b.onModify id newQty)
  | .execute id execQty moved => some (b.onExecute id execQty moved)

end OrderBook

/-- The fixed-depth projection that crosses the seqlock. -/
structure Snapshot (depth : ℕ) where
  symbolId : UInt32 := 0
  lastSequence : UInt64 := 0
  bidCount : UInt32 := 0
  askCount : UInt32 := 0
  bids : Vector PriceLevel depth := .replicate depth {}
  asks : Vector PriceLevel depth := .replicate depth {}

namespace Snapshot

variable {maxLevels maxOrders depth : ℕ}

/-- `for (i = 0; i < n; ++i) cells[i] = levels[i]`, on value-initialised cells. -/
def copyLevels (l : Levels maxLevels) (n : ℕ) : Vector PriceLevel depth :=
  .ofFn fun i => if i < n then (l.cells[i.val]?).getD {} else {}

end Snapshot

/-- `snapshot<Depth>()`. The counts are 32 bits wide. -/
def OrderBook.snapshot {maxLevels maxOrders : ℕ} (b : OrderBook maxLevels maxOrders) (depth : ℕ) :
    Snapshot depth :=
  let bidCount := UInt32.ofNat (min b.bids.count depth)
  let askCount := UInt32.ofNat (min b.asks.count depth)
  { symbolId := b.symbolId
    lastSequence := b.sequence
    bidCount := bidCount
    askCount := askCount
    bids := Snapshot.copyLevels b.bids bidCount.toNat
    asks := Snapshot.copyLevels b.asks askCount.toNat }

end Marketlib
