import Marketlib.OrderBook
import Marketlib.SeqLock
import Marketlib.ThreadPool

/-! `md_dispatch`: a receiver that submits each datagram by its symbol, the pool's workers,
each with the books of its own symbols, and the table of sequence locks they publish to.
The order book's operations are a parameter. `handled` and `writers` record what happened
and are read by no step. -/

namespace Marketlib
namespace MdDispatch

def kNumBookWorkers : ℕ := 4

def kMaxSymbols : ℕ := 1024

def kMaxPayload : ℕ := 64

/-- `QueueCapacity`. -/
def queueCapacity : Capacity := ⟨4096,by decide,by decide,by decide⟩

structure MarketDataTask where
  symbolId : UInt32
  sequence : UInt64
  length : UInt16
  payload : Fin kMaxPayload → UInt8

/-- The task that `on_packet` fills in: the first bytes of the datagram, then zeros. -/
def makeTask (symbolId : UInt32) (sequence : UInt64) (payload : List UInt8) : MarketDataTask :=
  let length := min payload.length kMaxPayload
  ⟨symbolId,sequence,UInt16.ofNat length,
    fun i => if i.val < length then payload.getD i.val 0 else 0⟩

/-! ### Books -/

/-- The operations of `OrderBook`; its snapshot is copied out and in word by word. -/
structure BookOps (n : ℕ) (ω β : Type*) where
  new : UInt32 → β
  onAdd : β → OrderId → Side → Price → Qty → β × Bool
  onCancel : β → OrderId → β
  onExecute : β → OrderId → Qty → β
  /-- `snapshot<5>()`. -/
  snapshot : β → SeqLock.Payload n ω

/-- The byte at an offset of the payload. -/
def readByte (task : MarketDataTask) (offset : ℕ) (h : offset < kMaxPayload) : UInt8 :=
  task.payload ⟨offset,h⟩

/-- The eight bytes from an offset on, the lowest first. -/
def readWord (task : MarketDataTask) (offset : ℕ) (h : offset+7 < kMaxPayload) : UInt64 :=
  (List.finRange 8).foldr (fun k word =>
    word*256+(task.payload ⟨offset+k.val,by have := k.isLt; omega⟩).toUInt64) 0

section Messages

variable {n : ℕ} {ω β : Type*} (ops : BookOps n ω β)

/-- The `switch` of `process_market_data`. -/
def applyMessage (book : β) (task : MarketDataTask) : β :=
  let msgType := readByte task 0 (by decide)
  let orderId := readWord task 1 (by decide)
  if msgType = ( 'A').toUInt8 then
    let sideByte := readByte task 9 (by decide)
    let price := (readWord task 10 (by decide)).toInt64.toInt
    let qty := readWord task 18 (by decide)
    let side : Side := if sideByte ≠ 0 then .ask else .bid
    (ops.onAdd book orderId side price qty).1
  else if msgType = ( 'X').toUInt8 then ops.onCancel book orderId
  else if msgType = ( 'E').toUInt8 then
    let execQty := readWord task 9 (by decide)
    ops.onExecute book orderId execQty
  else book

end Messages

/-! ### Startup -/

/-- The pool of `main`: one group, a context for each worker. -/
def layout : ThreadPool.Layout kNumBookWorkers :=
  ThreadPool.Layout.empty.spawnGroup kNumBookWorkers (by decide)

theorem layout_pos : 0 < layout.numWorkers := by decide

/-- `worker_for_key`. -/
def workerForKey (hash : UInt32 → UInt64) (key : UInt32) : Fin kNumBookWorkers :=
  ⟨(hash key).toNat % layout.numWorkers,(Nat.mod_lt _ layout_pos).trans_le layout.numWorkers_le⟩

/-- The symbols pushed onto each worker's vector of `owned`. -/
def owned (hash : UInt32 → UInt64) (symbols : List UInt32) :
    Fin kNumBookWorkers → List UInt32 :=
  symbols.foldl (fun owned sym => Function.update owned (workerForKey hash sym)
    (owned (workerForKey hash sym) ++ [sym])) fun _ => []

/-- The symbols of the loop over `kMaxSymbols`. -/
def symbols : List UInt32 := (List.range kMaxSymbols).map UInt32.ofNat

section Seed

variable {n : ℕ} {ω β : Type*} (ops : BookOps n ω β)

/-- `books.try_emplace(sym, sym)`. -/
def tryEmplace (books : UInt32 → Option β) (sym : UInt32) : UInt32 → Option β :=
  match books sym with
  | some _ => books
  | none => Function.update books sym (some (ops.new sym))

/-- The books of each worker when the pool starts. -/
def seed (hash : UInt32 → UInt64) (w : Fin kNumBookWorkers) : UInt32 → Option β :=
  (owned hash symbols w).foldl (tryEmplace ops) fun _ => none

end Seed

/-! ### Running -/

/-- Where a worker is in `process_market_data`. -/
inductive Handler (n : ℕ) (ω : Type*)
  /-- At its first line. -/
  | called
  /-- The call of `publish` is next. -/
  | publish (slot : Fin kMaxSymbols) (snap : SeqLock.Payload n ω)
  /-- In `SeqLock::write`. -/
  | writing (slot : Fin kMaxSymbols) (pc : SeqLock.Writer n ω)
  | returning

structure State (n : ℕ) (ω β ρ : Type*) where
  pool : ThreadPool.State queueCapacity kNumBookWorkers Unit UInt32 MarketDataTask
  /-- The `books` of each worker's context. -/
  books : Fin kNumBookWorkers → UInt32 → Option β
  handlers : Fin kNumBookWorkers → Handler n ω
  /-- The slots; `writer` of a slot is where the last access of a `write` on it has led. -/
  table : Fin kMaxSymbols → SeqLock.State n ω ρ
  /-- The calls of `process_market_data`. -/
  handled : List (Fin kNumBookWorkers × MarketDataTask)
  /-- The worker of each access of a `write`, slot by slot. -/
  writers : Fin kMaxSymbols → List (Fin kNumBookWorkers)

inductive Action (n : ℕ) (ω ρ : Type*)
  /-- A call of `on_packet`. -/
  | receive (symbolId : UInt32) (sequence : UInt64) (payload : List UInt8)
  /-- The next access of its submit. -/
  | push (spurious : Bool)
  /-- A worker's next step, if it is not in a `write`. -/
  | worker (w : Fin kNumBookWorkers)
  /-- The next access of the `write` a worker is in. -/
  | write (w : Fin kNumBookWorkers) (a : SeqLock.WriterAction n ω)
  /-- A reader's next access of a slot. -/
  | read (slot : Fin kMaxSymbols) (r : ρ) (a : SeqLock.ReaderAction n)
  | stop

/-- The worker that takes the step. -/
def Action.actor {n : ℕ} {ω ρ : Type*} : Action n ω ρ → Option (Fin kNumBookWorkers)
  | .worker w | .write w _ => some w
  | _ => none

section Step

variable {n : ℕ} {ω β ρ : Type*} (ops : BookOps n ω β) (hash : UInt32 → UInt64)

/-- `pool.start()`, with the slots value-initialised. -/
def start [Zero ω] : State n ω β ρ where
  pool := ThreadPool.start
  books := seed ops hash
  handlers := fun _ => .called
  table := fun _ => SeqLock.start fun _ => 0
  handled := []
  writers := fun _ => []

/-- `task.symbol_id % ctx.shared_table->capacity()`. -/
def slotOf (symbolId : UInt32) : Fin kMaxSymbols :=
  ⟨symbolId.toNat % kMaxSymbols,Nat.mod_lt _ (by decide)⟩

/-- `process_market_data` up to the publication of the snapshot. -/
def processMarketData (s : State n ω β ρ) (w : Fin kNumBookWorkers) (task : MarketDataTask) :
    State n ω β ρ :=
  let s := { s with handled := s.handled ++ [(w,task)] }
  match s.books w task.symbolId with
  | none => { s with handlers := Function.update s.handlers w .returning }
  | some book =>
    let book := applyMessage ops book task
    { s with
      books := Function.update s.books w
        (Function.update (s.books w) task.symbolId (some book))
      handlers := Function.update s.handlers w
        (.publish (slotOf task.symbolId) (ops.snapshot book)) }

/-- Where a `write` that has come to `pc` leaves its caller. -/
def Handler.resume (slot : Fin kMaxSymbols) : SeqLock.Writer n ω → Handler n ω
  | .idle => .returning
  | pc => .writing slot pc

/-- After an access of a `write` that has left the slot as `t`. -/
def wrote (s : State n ω β ρ) (w : Fin kNumBookWorkers) (slot : Fin kMaxSymbols)
    (t : SeqLock.State n ω ρ) : State n ω β ρ :=
  { s with
    table := Function.update s.table slot t
    handlers := Function.update s.handlers w (.resume slot t.writer)
    writers := Function.update s.writers slot (s.writers slot ++ [w]) }

/-- An access of a `write`. -/
def writeSlot (s : State n ω β ρ) (w : Fin kNumBookWorkers) (slot : Fin kMaxSymbols)
    (pc : SeqLock.Writer n ω) (a : SeqLock.WriterAction n ω) : Option (State n ω β ρ) :=
  (SeqLock.stepWriter (s.table slot) pc a).map (wrote s w slot)

/-- A step of the pool outside the handlers. -/
def stepPool (s : State n ω β ρ) (a : ThreadPool.Action Unit UInt32 MarketDataTask) :
    Option (State n ω β ρ) :=
  (ThreadPool.step layout hash s.pool a).map fun pool => { s with pool }

def stepWorker (s : State n ω β ρ) (w : Fin kNumBookWorkers) : Option (State n ω β ρ) :=
  match s.pool.workers w with
  | .handling _ x =>
    match s.handlers w with
    | .called => some (processMarketData ops s w x.task)
    | .publish slot snap => writeSlot s w slot .idle (.load snap)
    | .writing _ _ => none
    | .returning => (stepPool hash s (.worker w.val)).map fun s =>
      { s with handlers := Function.update s.handlers w .called }
  | _ => stepPool hash s (.worker w.val)

def stepWrite (s : State n ω β ρ) (w : Fin kNumBookWorkers) (a : SeqLock.WriterAction n ω) :
    Option (State n ω β ρ) :=
  match s.handlers w with
  | .writing slot pc => writeSlot s w slot pc a
  | _ => none

def step [DecidableEq ρ] (s : State n ω β ρ) : Action n ω ρ → Option (State n ω β ρ)
  | .receive symbolId sequence payload =>
    stepPool hash s (.submit () (.byKey symbolId) (makeTask symbolId sequence payload))
  | .push spurious => stepPool hash s (.push () spurious)
  | .worker w => stepWorker ops hash s w
  | .write w a => stepWrite s w a
  | .read slot r a => (SeqLock.stepReader (s.table slot) r ((s.table slot).readers r) a).map
      fun t => { s with table := Function.update s.table slot t }
  | .stop => stepPool hash s .stop

end Step
end MdDispatch
end Marketlib
