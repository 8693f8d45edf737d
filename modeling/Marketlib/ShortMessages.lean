import Marketlib.MdDispatch

/-! What `process_market_data` does with a datagram shorter than the layout of its message:
the bytes that are missing are read as zeros, and the book is given the order they spell. -/

namespace Marketlib

/-! ### Operations that leave the book as it is -/

theorem succ_ne_self (x : UInt64) : x+1 ≠ x := by
  intro h
  have := congrArg UInt64.toNat h
  rw [UInt64.toNat_add] at this
  have := x.toNat_lt
  simp only [UInt64.toNat_ofNat] at *
  omega

namespace OrderBook

variable {maxLevels maxOrders : ℕ} {b : OrderBook maxLevels maxOrders}

theorem setLevels_sequence (l : Levels maxLevels) (side : Side) :
    (b.setLevels l side).sequence = b.sequence := by
  cases side <;> rfl

theorem onAdd_eq_self_iff (id : OrderId) (side : Side) (price : Price) (qty : Qty) :
    (b.onAdd id side price qty).map Prod.snd = some b ↔ maxOrders ≤ b.orders.keys.card := by
  unfold onAdd
  split_ifs with hfull
  · simp [hfull]
  · simp only [hfull,iff_false]
    split_ifs with hidx
    · intro h
      have hseq := congrArg OrderBook.sequence (Option.some.inj h)
      exact succ_ne_self _ hseq
    · simp

theorem onCancel_eq_self_iff {id : OrderId} :
    b.onCancel id = b ↔ b.orders.lookup id = none := by
  unfold onCancel
  cases hloc : b.orders.lookup id with
  | none => simp
  | some loc =>
    simp only [reduceCtorEq,iff_false]
    intro h
    exact succ_ne_self _ (congrArg OrderBook.sequence h)

theorem onExecute_eq_self_iff {id : OrderId} {execQty : Qty} {moved : Option OrderLoc} :
    b.onExecute id execQty moved = b ↔
      ∀ loc ∈ b.orders.lookup id, (b.levels loc.side).findLevel loc.price = none := by
  unfold onExecute
  cases hloc : b.orders.lookup id with
  | none => simp
  | some loc =>
    simp only [Option.mem_some_iff,forall_eq']
    cases hlevel : (b.levels loc.side).findLevel loc.price with
    | none => simp
    | some i =>
      simp only [reduceCtorEq,iff_false]
      split_ifs <;> intro h <;>
        have hseq := congrArg OrderBook.sequence h <;>
        simp only [eraseLevel,setLevels_sequence] at hseq <;>
        exact succ_ne_self _ hseq

end OrderBook

namespace MdDispatch

/-! ### Reading past the end -/

/-- The eight bytes of a datagram from an offset on, the lowest first and the missing ones
zero. -/
def wordAt (payload : List UInt8) (offset : ℕ) : UInt64 :=
  (List.finRange 8).foldr (fun k word => word*256+(payload.getD (offset+k.val) 0).toUInt64) 0

theorem makeTask_payload (symbolId : UInt32) (sequence : UInt64) (payload : List UInt8)
    (i : Fin kMaxPayload) :
    (makeTask symbolId sequence payload).payload i = payload.getD i.val 0 := by
  change (if i.val < min payload.length kMaxPayload then _ else _) = _
  split_ifs with hi
  · rfl
  · have hlen : payload.length ≤ i.val := by
      have := i.isLt
      omega
    rw [List.getD_eq_default _ _ hlen]

theorem readByte_makeTask {symbolId : UInt32} {sequence : UInt64} {payload : List UInt8}
    {offset : ℕ} (h : offset < kMaxPayload) :
    readByte (makeTask symbolId sequence payload) offset h = payload.getD offset 0 :=
  makeTask_payload ..

theorem readWord_makeTask {symbolId : UInt32} {sequence : UInt64} {payload : List UInt8}
    {offset : ℕ} (h : offset+7 < kMaxPayload) :
    readWord (makeTask symbolId sequence payload) offset h = wordAt payload offset := by
  simp only [readWord,makeTask_payload,wordAt]

/-! ### The books of the workers -/

/-- `OrderBook<32, 8192>` -/
abbrev Book := OrderBook 32 8192

variable {n : ℕ} {ω ρ : Type*}

/-- The book's operations. A book has no value after an access past its arrays; `moved` is what
the order table's erase moves into the slot of an order, `copy` the words of a snapshot. -/
def bookOps (moved : Book → OrderId → Option OrderLoc) (copy : Snapshot 5 → SeqLock.Payload n ω) :
    BookOps n ω (Option Book) where
  new symbolId := some (.create symbolId)
  onAdd book id side price qty :=
    match book.bind fun b => b.onAdd id side price qty with
    | some (ok,b) => (some b,ok)
    | none => (none,false)
  onCancel book id := book.map fun b => b.onCancel id
  onExecute book id execQty := book.map fun b => b.onExecute id execQty (moved b id)
  snapshot book := copy ((book.map fun b => b.snapshot 5).getD {})

/-- How long the layout of a message is. -/
def layoutLength (msgType : UInt8) : ℕ :=
  if msgType = ( 'A').toUInt8 then 26
  else if msgType = ( 'E').toUInt8 then 17
  else 9

/-- A datagram that ends before the layout of its message does. -/
def Truncated (payload : List UInt8) : Prop := payload.length < layoutLength (payload.getD 0 0)

instance decidableTruncated (payload : List UInt8) : Decidable (Truncated payload) :=
  Nat.decLt _ _

/-- The book has no use for what the bytes of the datagram spell: it is full, or does not
know the order. -/
def Refuses (b : Book) (payload : List UInt8) : Prop :=
  if payload.getD 0 0 = ( 'A').toUInt8 then 8192 ≤ b.orders.keys.card
  else if payload.getD 0 0 = ( 'X').toUInt8 then b.orders.lookup (wordAt payload 1) = none
  else if payload.getD 0 0 = ( 'E').toUInt8 then
    ∀ loc ∈ b.orders.lookup (wordAt payload 1), (b.levels loc.side).findLevel loc.price = none
  else True

theorem bookOps_onAdd_eq_self_iff {moved : Book → OrderId → Option OrderLoc}
    {copy : Snapshot 5 → SeqLock.Payload n ω} {b : Book} {id : OrderId} {side : Side}
    {price : Price} {qty : Qty} :
    ((bookOps moved copy).onAdd (some b) id side price qty).1 = some b ↔
      8192 ≤ b.orders.keys.card := by
  rw [← OrderBook.onAdd_eq_self_iff id side price qty]
  simp only [bookOps,Option.bind_some]
  cases b.onAdd id side price qty <;> simp

theorem applyMessage_eq_self_iff (moved : Book → OrderId → Option OrderLoc)
    (copy : Snapshot 5 → SeqLock.Payload n ω) (b : Book) (symbolId : UInt32) (sequence : UInt64)
    (payload : List UInt8) :
    applyMessage (bookOps moved copy) (some b) (makeTask symbolId sequence payload) = some b ↔
      Refuses b payload := by
  simp only [applyMessage,readByte_makeTask,readWord_makeTask,Refuses]
  split_ifs with hadd hside hcancel hexec
  · exact bookOps_onAdd_eq_self_iff
  · exact bookOps_onAdd_eq_self_iff
  · exact Option.some_inj.trans OrderBook.onCancel_eq_self_iff
  · exact Option.some_inj.trans OrderBook.onExecute_eq_self_iff
  · exact iff_of_true rfl trivial

/-- `process_market_data` on a symbol that has a book changes that book as the message says. -/
theorem processMarketData_books {β : Type*} (ops : BookOps n ω β) {s : State n ω β ρ}
    {w : Fin kNumBookWorkers} (task : MarketDataTask) {book : β}
    (hbook : s.books w task.symbolId = some book) :
    (processMarketData ops s w task).books w task.symbolId = some (applyMessage ops book task) := by
  simp [processMarketData,hbook]

/-- A truncated datagram leaves the book of its symbol as it is if and only if the book refuses
the message that its bytes and zeros spell. -/
theorem rejectsTruncated_iff (moved : Book → OrderId → Option OrderLoc)
    (copy : Snapshot 5 → SeqLock.Payload n ω) {s : State n ω (Option Book) ρ}
    {w : Fin kNumBookWorkers} {symbolId : UInt32} {b : Book}
    (hbook : s.books w symbolId = some (some b)) (sequence : UInt64) (payload : List UInt8) :
    (Truncated payload → (processMarketData (bookOps moved copy) s w
        (makeTask symbolId sequence payload)).books w symbolId = s.books w symbolId) ↔
      (Truncated payload → Refuses b payload) := by
  have hnew := processMarketData_books (bookOps moved copy) (makeTask symbolId sequence payload)
    hbook
  refine imp_congr_right fun _ => ?_
  rw [hbook,← applyMessage_eq_self_iff moved copy b symbolId sequence payload]
  exact (Eq.congr_left hnew).trans Option.some_inj

def oneOps : BookOps 1 ℕ (Option Book) := bookOps (fun _ _ => none) fun _ _ => 0

def worker : Fin kNumBookWorkers := ⟨0,Nat.zero_lt_succ 3⟩

/-- Every symbol has an empty book. -/
def emptyBooks : State 1 ℕ (Option Book) Unit :=
  { start oneOps (fun _ => 0) with books := fun _ _ => some (some (.create 7)) }

theorem rejectsTruncated_iff_shortAdd :
    (Truncated [65,1] → (processMarketData oneOps emptyBooks worker
        (makeTask 7 1 [65,1])).books worker 7 = emptyBooks.books worker 7) ↔
      (Truncated [65,1] → Refuses (.create 7) [65,1]) :=
  rejectsTruncated_iff (fun _ _ => none) (fun _ _ => 0) rfl 1 [65,1]

/-- Two of the twenty-six bytes of an add: order 1 rests in the book at price 0. -/
theorem short_add_rests :
    Truncated [65,1] ∧ ∃ b : Book,
      (processMarketData oneOps emptyBooks worker (makeTask 7 1 [65,1])).books worker 7 =
        some (some b) ∧
      b.bids.span = [⟨0,0,1⟩] ∧ b.orders.lookup 1 = some ⟨.bid,0,0⟩ ∧
      emptyBooks.books worker 7 ≠ some (some b) := by
  obtain ⟨b,hb,hspan,horder⟩ : ∃ b : Book,
      (processMarketData oneOps emptyBooks worker (makeTask 7 1 [65,1])).books worker 7 =
        some (some b) ∧
      b.bids.span = [⟨0,0,1⟩] ∧ b.orders.lookup 1 = some ⟨.bid,0,0⟩ := ⟨_,rfl,by decide,rfl⟩
  refine ⟨by decide,b,hb,hspan,horder,fun heq => ?_⟩
  obtain rfl : OrderBook.create 7 = b := Option.some.inj (Option.some.inj heq)
  exact absurd hspan (by decide)

end MdDispatch
end Marketlib
