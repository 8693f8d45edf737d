import Marketlib.LittleEndian
import Marketlib.PublishedBooks
import Marketlib.ShortMessages

/-! The whole of `md_dispatch`: the receive loop of `OnloadMulticastReceiver` calls `on_packet`
for each datagram that is long enough, and when it has returned the pool is stopped. What `recv`
answers is left open, and so is when the stop request comes. -/

namespace Marketlib
namespace Feed

open MdDispatch LittleEndian

def kMaxDatagram : ℕ := 2048

structure WireHeader where
  sequence : UInt64
  symbolId : UInt32
  msgType : UInt16
  payloadLength : UInt16

/-- `sizeof(WireHeader)` -/
def headerSize : ℕ := 16

/-- The header whose bytes these are. -/
def readHeader (bytes : List UInt8) : WireHeader where
  sequence := UInt64.ofNat (ofBytes (field bytes 0 8))
  symbolId := UInt32.ofNat (ofBytes (field bytes 8 4))
  msgType := UInt16.ofNat (ofBytes (field bytes 12 2))
  payloadLength := UInt16.ofNat (ofBytes (field bytes 14 2))

abbrev Buffer := Fin kMaxDatagram → UInt8

/-- The buffer after a `recv` of a datagram; what does not fit is gone. -/
def recv (buf : Buffer) (datagram : List UInt8) : Buffer :=
  fun i => datagram.getD i.val (buf i)

def readBuf (buf : Buffer) (offset length : ℕ) : List UInt8 := field (List.ofFn buf) offset length

/-- Where the receiving thread is in `run`. -/
inductive Receiver
  /-- `st.stop_requested()` is next. -/
  | test
  | receiving
  /-- In the handler's `submit_by_key`. -/
  | submitting
  | returned

structure State (n : ℕ) (ω β ρ : Type*) where
  receiver : Receiver
  stopRequested : Bool
  buf : Buffer
  system : MdDispatch.State n ω β ρ
  /-- The datagrams that arrived. -/
  received : List (List UInt8)

inductive Action (n : ℕ) (ω ρ : Type*)
  | requestStop
  | test
  /-- `recv` fails, or gives a datagram. -/
  | recv (datagram : Option (List UInt8))
  /-- The next access of the submit. -/
  | push (spurious : Bool)
  /-- The next step of `pool.stop()`. -/
  | stop
  | worker (w : Fin kNumBookWorkers)
  | write (w : Fin kNumBookWorkers) (a : SeqLock.WriterAction n ω)
  | read (slot : Fin kMaxSymbols) (r : ρ) (a : SeqLock.ReaderAction n)

section Step

variable {n : ℕ} {ω β ρ : Type*} (ops : BookOps n ω β) (hash : UInt32 → UInt64)

def start [Zero ω] : State n ω β ρ where
  receiver := .test
  stopRequested := false
  buf := fun _ => 0
  system := MdDispatch.start ops hash
  received := []

variable [DecidableEq ρ]

/-- A step of the others. -/
def within (s : State n ω β ρ) (a : MdDispatch.Action n ω ρ) : Option (State n ω β ρ) :=
  (MdDispatch.step ops hash s.system a).map fun system => { s with system }

/-- The loop's body once a datagram is in the buffer. -/
def receive (s : State n ω β ρ) (datagram : List UInt8) : Option (State n ω β ρ) :=
  let buf := recv s.buf datagram
  let received := min datagram.length kMaxDatagram
  let s := { s with buf, received := s.received ++ [datagram] }
  if received < headerSize then some { s with receiver := .test }
  else
    let hdr := readHeader (readBuf buf 0 headerSize)
    let payload := readBuf buf headerSize (received-headerSize)
    (within ops hash s (.receive hdr.symbolId hdr.sequence payload)).map fun s =>
      { s with receiver := .submitting }

def step (s : State n ω β ρ) : Action n ω ρ → Option (State n ω β ρ)
  | .requestStop => some { s with stopRequested := true }
  | .test => match s.receiver with
    | .test => some { s with receiver := if s.stopRequested then .returned else .receiving }
    | _ => none
  | .recv datagram => match s.receiver,datagram with
    | .receiving,none => some { s with receiver := .test }
    | .receiving,some datagram => receive ops hash s datagram
    | _,_ => none
  | .push spurious => match s.receiver with
    | .submitting => (within ops hash s (.push spurious)).map fun s =>
      { s with receiver := if (s.system.pool.calling ()).isSome then .submitting else .test }
    | _ => none
  | .stop => match s.receiver with
    | .returned => within ops hash s .stop
    | _ => none
  | .worker w => within ops hash s (.worker w)
  | .write w a => within ops hash s (.write w a)
  | .read slot r a => within ops hash s (.read slot r a)

end Step

/-! ### What a datagram says -/

/-- The task that a datagram becomes, if it has a whole header. -/
def taskOf (datagram : List UInt8) : Option MarketDataTask :=
  let bytes := datagram.take kMaxDatagram
  if bytes.length < headerSize then none
  else
    let hdr := readHeader bytes
    some (makeTask hdr.symbolId hdr.sequence (bytes.drop headerSize))

theorem taskOf_short {datagram : List UInt8}
    (h : min datagram.length kMaxDatagram < headerSize) : taskOf datagram = none := by
  rw [min_comm,← List.length_take] at h
  exact if_pos h

theorem taskOf_long {datagram : List UInt8}
    (h : ¬min datagram.length kMaxDatagram < headerSize) : taskOf datagram =
      some (makeTask (readHeader (datagram.take kMaxDatagram)).symbolId
        (readHeader (datagram.take kMaxDatagram)).sequence
        ((datagram.take kMaxDatagram).drop headerSize)) := by
  rw [min_comm,← List.length_take] at h
  exact if_neg h

/-- Nothing is read that was in the buffer before. -/
theorem readBuf_recv (buf : Buffer) (datagram : List UInt8) (offset length : ℕ)
    (h : offset+length ≤ min datagram.length kMaxDatagram) :
    readBuf (recv buf datagram) offset length =
      field (datagram.take kMaxDatagram) offset length := by
  apply List.ext_getElem
  · simp only [readBuf,field,List.length_take,List.length_drop,List.length_ofFn]
    omega
  · intro i hi hi'
    simp only [readBuf,field,List.length_take,List.length_drop,List.length_ofFn] at hi
    have hlt : offset+i < datagram.length := by omega
    simp only [readBuf,field,recv,List.getElem_take,List.getElem_drop,List.getElem_ofFn]
    rw [List.getD_eq_getElem _ _ hlt]

theorem header_take (bytes : List UInt8) :
    readHeader (field bytes 0 headerSize) = readHeader bytes := by
  simp [readHeader,field,headerSize,List.drop_take,List.take_take]

/-! ### What a sender means -/

/-- A message of the demo's format. -/
inductive Message
  | add (orderId : OrderId) (side : Side) (price : Int64) (qty : Qty)
  | cancel (orderId : OrderId)
  | execute (orderId : OrderId) (execQty : Qty)

def WireHeader.encode (hdr : WireHeader) : List UInt8 :=
  toBytes 8 hdr.sequence.toNat ++ (toBytes 4 hdr.symbolId.toNat ++
    (toBytes 2 hdr.msgType.toNat ++ toBytes 2 hdr.payloadLength.toNat))

def sideByte : Side → UInt8
  | .bid => 0
  | .ask => 1

def Message.encode : Message → List UInt8
  | .add orderId side price qty => ( 'A').toUInt8 :: (toBytes 8 orderId.toNat ++
      (sideByte side :: (toBytes 8 price.toUInt64.toNat ++
        toBytes 8 qty.toNat)))
  | .cancel orderId => ( 'X').toUInt8 :: toBytes 8 orderId.toNat
  | .execute orderId execQty => ( 'E').toUInt8 :: (toBytes 8 orderId.toNat ++
      toBytes 8 execQty.toNat)

/-- What a message does to a book. -/
def Message.apply {n : ℕ} {ω β : Type*} (ops : BookOps n ω β) (book : β) : Message → β
  | .add orderId side price qty => (ops.onAdd book orderId side price.toInt qty).1
  | .cancel orderId => ops.onCancel book orderId
  | .execute orderId execQty => ops.onExecute book orderId execQty

/-- What is sent: a header, a message, and whatever comes behind it. -/
structure Packet where
  hdr : WireHeader
  message : Message
  rest : List UInt8

def Packet.encode (p : Packet) : List UInt8 := p.hdr.encode ++ (p.message.encode ++ p.rest)

@[simp] theorem WireHeader.length_encode (hdr : WireHeader) :
    hdr.encode.length = headerSize := by
  simp [WireHeader.encode,headerSize]

theorem readHeader_encode (hdr : WireHeader) (rest : List UInt8) :
    readHeader (hdr.encode ++ rest) = hdr := by
  have hbytes : hdr.encode ++ rest = toBytes 8 hdr.sequence.toNat ++
      (toBytes 4 hdr.symbolId.toNat ++ (toBytes 2 hdr.msgType.toNat ++
        (toBytes 2 hdr.payloadLength.toNat ++ rest))) := by
    simp only [WireHeader.encode,List.append_assoc]
  have hbytes' := hbytes.trans (List.append_assoc ..).symm
  have hsequence := ofBytes_field (hbytes.trans (List.nil_append _).symm) rfl
    hdr.sequence.toNat_lt
  have hsymbolId := ofBytes_field hbytes rfl hdr.symbolId.toNat_lt
  have hmsgType := ofBytes_field hbytes' rfl hdr.msgType.toNat_lt
  have hpayloadLength :=
    ofBytes_field (hbytes'.trans (List.append_assoc ..).symm) rfl hdr.payloadLength.toNat_lt
  simp only [List.length_nil,length_toBytes] at hsequence hsymbolId
  simp only [List.length_append,length_toBytes,Nat.reduceAdd] at hmsgType hpayloadLength
  rw [readHeader,hsequence,hsymbolId,hmsgType,hpayloadLength]
  simp

/-- The word at an offset is the number in the eight bytes there. -/
theorem wordAt_eq {payload pre rest : List UInt8} {offset : ℕ} {word : UInt64}
    (h : payload = pre ++ (toBytes 8 word.toNat ++ rest))
    (hoffset : pre.length = offset) : wordAt payload offset = word := by
  have hbytes : (List.finRange 8).map (fun k => payload.getD (offset+k.val) 0) =
      toBytes 8 word.toNat := by
    apply List.ext_getElem
    · simp
    · intro i hi hi'
      rw [List.getElem_map,List.getElem_finRange,h,← hoffset]
      simp only [length_toBytes] at hi'
      rw [List.getD_append_right _ _ _ _ (by simp)]
      simp only [Fin.val_cast,add_tsub_cancel_left]
      rw [List.getD_append _ _ _ _ (by simpa using hi'),List.getD_eq_getElem]
  have hfold := foldr_word ((List.finRange 8).map fun k => payload.getD (offset+k.val) 0)
  rw [List.foldr_map,hbytes,ofBytes_toBytes word.toNat_lt] at hfold
  rw [wordAt,hfold]
  simp

theorem applyMessage_encode {n : ℕ} {ω β : Type*} (ops : BookOps n ω β) (book : β)
    (message : Message) (symbolId : UInt32) (sequence : UInt64) (rest : List UInt8) :
    applyMessage ops book (makeTask symbolId sequence (message.encode ++ rest)) =
      message.apply ops book := by
  simp only [applyMessage,readByte_makeTask,readWord_makeTask]
  cases message with
  | add orderId side price qty =>
    have happend : (Message.add orderId side price qty).encode ++ rest = [( 'A').toUInt8] ++
        (toBytes 8 orderId.toNat ++ (sideByte side ::
          (toBytes 8 price.toUInt64.toNat ++ (toBytes 8 qty.toNat ++ rest)))) := by
      simp [Message.encode]
    have hhead : (Message.add orderId side price qty).encode ++ rest =
        ( 'A').toUInt8 :: (toBytes 8 orderId.toNat ++ [sideByte side]) ++
          (toBytes 8 price.toUInt64.toNat ++ (toBytes 8 qty.toNat ++ rest)) := by
      simp [Message.encode]
    have horder := wordAt_eq happend rfl
    have hprice := wordAt_eq hhead rfl
    have hqty := wordAt_eq (hhead.trans (List.append_assoc ..).symm) rfl
    simp only [List.length_cons,List.length_append,List.length_nil,length_toBytes,zero_add,
      Nat.reduceAdd] at horder hprice hqty
    have hside :
        ((Message.add orderId side price qty).encode ++ rest).getD 9 0 = sideByte side := by
      rw [hhead,List.getD_append _ _ _ _ (by simp)]
      simp
    rw [horder,hprice,hqty,hside]
    cases side <;> simp [Message.encode,Message.apply,sideByte]
  | cancel orderId =>
    have happend : (Message.cancel orderId).encode ++ rest =
        [( 'X').toUInt8] ++ (toBytes 8 orderId.toNat ++ rest) := rfl
    have horder := wordAt_eq happend rfl
    simp only [List.length_cons,List.length_nil,zero_add] at horder
    rw [horder]
    rfl
  | execute orderId execQty =>
    have happend : (Message.execute orderId execQty).encode ++ rest = [( 'E').toUInt8] ++
        (toBytes 8 orderId.toNat ++ (toBytes 8 execQty.toNat ++ rest)) := by
      simp [Message.encode]
    have horder := wordAt_eq happend rfl
    have hqty := wordAt_eq (happend.trans (List.append_assoc ..).symm) rfl
    simp only [List.length_cons,List.length_append,List.length_nil,length_toBytes,zero_add,
      Nat.reduceAdd] at horder hqty
    rw [horder,hqty]
    rfl

/-- The task that a packet becomes. -/
def Packet.task (p : Packet) : MarketDataTask :=
  makeTask p.hdr.symbolId p.hdr.sequence
    (p.message.encode ++ p.rest.take (kMaxDatagram-headerSize-p.message.encode.length))

theorem taskOf_encode (p : Packet) : taskOf p.encode = some p.task := by
  have hmessage : p.message.encode.length ≤ kMaxDatagram-headerSize := by
    cases p.message <;> simp [Message.encode,kMaxDatagram,headerSize]
  have htake : p.encode.take kMaxDatagram = p.hdr.encode ++ (p.message.encode ++
      p.rest.take (kMaxDatagram-headerSize-p.message.encode.length)) := by
    rw [Packet.encode,List.take_append,List.take_append,WireHeader.length_encode,
      List.take_of_length_le (by simp [headerSize,kMaxDatagram]),List.take_of_length_le hmessage]
  have hlength : ¬(p.hdr.encode ++ (p.message.encode ++
      p.rest.take (kMaxDatagram-headerSize-p.message.encode.length))).length < headerSize := by
    simp
  have hdrop : (p.hdr.encode ++ (p.message.encode ++
      p.rest.take (kMaxDatagram-headerSize-p.message.encode.length))).drop headerSize =
      p.message.encode ++ p.rest.take (kMaxDatagram-headerSize-p.message.encode.length) := by
    rw [← p.hdr.length_encode,List.drop_left]
  simp only [taskOf,htake,if_neg hlength,readHeader_encode,hdrop,Packet.task]

theorem applyMessage_task {n : ℕ} {ω β : Type*} (ops : BookOps n ω β) (book : β) (p : Packet) :
    applyMessage ops book p.task = p.message.apply ops book :=
  applyMessage_encode ops book p.message ..

end Feed
end Marketlib
