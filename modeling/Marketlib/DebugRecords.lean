import Marketlib.LogDrain

/-! The memory of the debug path. `write_debug` constructs the tuple of a record's arguments in
raw bytes that no destructor knows about, and stores its destroyer beside it; the record then
changes hands through the debug queue. A record goes by the number of records before it. `log`
is read by no step. -/

namespace Marketlib
namespace DebugRecords

open LogDrain (debugCapacity)

variable {ι : Type}

/-- The tuple of the arguments, by `std::is_trivially_destructible_v` of each decayed type. -/
structure Payload where
  triviallyDestructible : List Bool
  deriving DecidableEq

/-- `std::is_trivially_destructible_v<Tuple>`. -/
def Payload.isTrivial (p : Payload) : Bool := p.triviallyDestructible.all id

/-- Of a `DebugRecord` what its end depends on. -/
structure DebugRecord where
  payload : Payload
  /-- `destroy_payload` is not null. -/
  destroyPayload : Bool
  deriving DecidableEq

inductive Event
  /-- `format_fn(fmt_str, payload.get())`. -/
  | format (ptr : ℕ)
  /-- `~Tuple()`. -/
  | destroy (ptr : ℕ)
  /-- The record is deleted, and the bytes of its payload with it. -/
  | free (ptr : ℕ)
  deriving DecidableEq

def Event.ptr : Event → ℕ
  | .format ptr => ptr
  | .destroy ptr => ptr
  | .free ptr => ptr

inductive WriterPc
  | idle
  /-- In `try_push`, with the record still in the parameter of `enqueue_debug`. -/
  | enqueueing (ptr : ℕ)

/-- Who pops the queue. -/
inductive Consumer
  /-- Either loop of `drain_loop` over the debug queue. -/
  | drainLoop
  /-- `~MpscQueue`, when the process ends. -/
  | destructor
  deriving DecidableEq

/-- Where the consumer is; `held` is what its local `std::unique_ptr` owns. -/
inductive ConsumerPc
  /-- Elsewhere in `drain_loop`, or behind it. -/
  | away
  | loop (c : Consumer) (held : Option ℕ)
  /-- In `try_pop`, before the move. -/
  | popping (c : Consumer) (held : Option ℕ)
  /-- In `try_pop`, behind the move. -/
  | receiving (c : Consumer) (ptr : ℕ)
  | formatting (ptr : ℕ)
  | destroying (ptr : ℕ)
  | gone
  deriving DecidableEq

structure State (ι : Type) where
  records : List DebugRecord
  queue : MpscQueue.State debugCapacity ι ℕ
  writers : ι → WriterPc
  consumer : ConsumerPc
  /-- What has happened to the records. -/
  log : List Event

def start : State ι where
  records := []
  queue := MpscQueue.start
  writers := fun _ => .idle
  consumer := .away
  log := []

inductive Action (ι : Type)
  | write (t : ι) (payload : Payload)
  /-- The next access of a write in progress. -/
  | access (t : ι) (spurious : Bool)
  /-- `drain_loop` comes to the debug queue, or `~MpscQueue` begins. -/
  | enter (c : Consumer)
  /-- The next step of the consumer. -/
  | consume

/-- `destroy_payload` is set for a payload that is not trivially destructible. -/
def debugRecord (payload : Payload) : DebugRecord := ⟨payload,!payload.isTrivial⟩

/-- What the assignment to a `std::unique_ptr` that owns `held` deletes, or its destructor. -/
def frees (held : Option ℕ) : List Event := held.toList.map .free

/-- The tuple's destructor runs through the stored pointer, where there is one. -/
def State.destroys (s : State ι) (ptr : ℕ) : List Event :=
  if s.records[ptr]?.any DebugRecord.destroyPayload then [.destroy ptr] else []

section Step

variable [DecidableEq ι]

/-- `write_debug`, as far as the call of `try_push` in `enqueue_debug`. -/
def writeDebug (s : State ι) (t : ι) (payload : Payload) : WriterPc → Option (State ι)
  | .idle => do
    let q ← MpscQueue.step s.queue (.push t (.call s.records.length))
    some { s with
      records := s.records ++ [debugRecord payload]
      queue := q
      writers := Function.update s.writers t (.enqueueing s.records.length) }
  | _ => none

/-- The rest of `enqueue_debug`, which drops the result: what was not pushed is deleted with
the parameter. -/
def enqueueDebug (s : State ι) (t : ι) (spurious : Bool) : WriterPc → Option (State ι)
  | .enqueueing ptr => do
    let q ← MpscQueue.step s.queue (.push t (if spurious then .spurious else .step))
    match q.producers t with
    | .returned true => some { s with
        queue := q
        writers := Function.update s.writers t .idle }
    | .returned false => some { s with
        queue := q
        writers := Function.update s.writers t .idle
        log := s.log ++ [.free ptr] }
    | _ => some { s with queue := q }
  | .idle => none

/-- The debug part of `drain_loop`, and `~MpscQueue`. The move inside `try_pop` assigns to the
consumer's `std::unique_ptr`. -/
def consume (s : State ι) : ConsumerPc → Option (State ι)
  | .loop c held => do
    let q ← MpscQueue.step s.queue (.pop .call)
    some { s with
      queue := q
      consumer := .popping c held }
  | .popping c held => do
    let q ← MpscQueue.step s.queue (.pop .step)
    match q.popper with
    | .destroy _ ptr => some { s with
        queue := q
        consumer := .receiving c ptr
        log := s.log ++ frees held }
    | .returned _ => some { s with
        queue := q
        consumer := if c = .drainLoop then .away else .gone
        log := s.log ++ frees held }
    | _ => some { s with queue := q }
  | .receiving c ptr => do
    let q ← MpscQueue.step s.queue (.pop .step)
    match q.popper with
    | .returned _ => some { s with
        queue := q
        consumer := if c = .drainLoop then .formatting ptr else .loop c (some ptr) }
    | _ => some { s with queue := q }
  | .formatting ptr => some { s with
      consumer := .destroying ptr
      log := s.log ++ [.format ptr] }
  | .destroying ptr => some { s with
      consumer := .loop .drainLoop (some ptr)
      log := s.log ++ s.destroys ptr }
  | _ => none

def enter (s : State ι) (c : Consumer) : ConsumerPc → Option (State ι)
  | .away => some { s with consumer := .loop c none }
  | _ => none

def act (s : State ι) : Action ι → Option (State ι)
  | .write t payload => writeDebug s t payload (s.writers t)
  | .access t spurious => enqueueDebug s t spurious (s.writers t)
  | .enter c => enter s c s.consumer
  | .consume => consume s s.consumer

/-- Nothing happens to the queue once it is destroyed. -/
def step (s : State ι) (a : Action ι) : Option (State ι) :=
  if s.consumer = .gone then none else act s a

variable {s s' : State ι} {t : ι}

theorem writeDebug_cases {payload : Payload} (h : writeDebug s t payload (s.writers t) = some s') :
    s.writers t = .idle ∧ ∃ q, MpscQueue.step s.queue (.push t (.call s.records.length)) = some q ∧
      s' = { s with
        records := s.records ++ [debugRecord payload]
        queue := q
        writers := Function.update s.writers t (.enqueueing s.records.length) } := by
  unfold writeDebug at h
  split at h
  · next hidle =>
    obtain ⟨q,hq,hs⟩ := Option.bind_eq_some_iff.mp h
    exact ⟨hidle,q,hq,(Option.some.inj hs).symm⟩
  · cases h

theorem enqueueDebug_cases {spurious : Bool}
    (h : enqueueDebug s t spurious (s.writers t) = some s') :
    ∃ ptr a q, s.writers t = .enqueueing ptr ∧ PushAction.value a = none ∧
      MpscQueue.step s.queue (.push t a) = some q ∧
      ((q.producers t = .returned true ∧ s' = { s with
        queue := q
        writers := Function.update s.writers t .idle }) ∨
      (q.producers t = .returned false ∧ s' = { s with
        queue := q
        writers := Function.update s.writers t .idle
        log := s.log ++ [.free ptr] }) ∨
      (∀ ok, q.producers t ≠ .returned ok) ∧ s' = { s with queue := q }) := by
  unfold enqueueDebug at h
  split at h
  · next ptr hpc =>
    obtain ⟨q,hq,hs⟩ := Option.bind_eq_some_iff.mp h
    refine ⟨ptr,_,q,hpc,by split <;> rfl,hq,?_⟩
    split at hs
    · next hret => exact .inl ⟨hret,(Option.some.inj hs).symm⟩
    · next hret => exact .inr (.inl ⟨hret,(Option.some.inj hs).symm⟩)
    · next htrue hfalse =>
      exact .inr (.inr ⟨Bool.forall_bool.mpr ⟨hfalse,htrue⟩,(Option.some.inj hs).symm⟩)
  · cases h

theorem consume_cases (h : consume s s.consumer = some s') :
    (∃ c held q, s.consumer = .loop c held ∧ MpscQueue.step s.queue (.pop .call) = some q ∧
      s' = { s with
        queue := q
        consumer := .popping c held }) ∨
    (∃ c held q, s.consumer = .popping c held ∧ MpscQueue.step s.queue (.pop .step) = some q ∧
      ((∃ tail ptr, q.popper = .destroy tail ptr ∧ s' = { s with
        queue := q
        consumer := .receiving c ptr
        log := s.log ++ frees held }) ∨
      (∃ out, q.popper = .returned out ∧ s' = { s with
        queue := q
        consumer := if c = .drainLoop then .away else .gone
        log := s.log ++ frees held }) ∨
      (∀ tail ptr, q.popper ≠ .destroy tail ptr) ∧ (∀ out, q.popper ≠ .returned out) ∧
        s' = { s with queue := q })) ∨
    (∃ c ptr q, s.consumer = .receiving c ptr ∧ MpscQueue.step s.queue (.pop .step) = some q ∧
      ((∃ out, q.popper = .returned out ∧ s' = { s with
        queue := q
        consumer := if c = .drainLoop then .formatting ptr else .loop c (some ptr) }) ∨
      (∀ out, q.popper ≠ .returned out) ∧ s' = { s with queue := q })) ∨
    (∃ ptr, s.consumer = .formatting ptr ∧ s' = { s with
      consumer := .destroying ptr
      log := s.log ++ [.format ptr] }) ∨
    ∃ ptr, s.consumer = .destroying ptr ∧ s' = { s with
      consumer := .loop .drainLoop (some ptr)
      log := s.log ++ s.destroys ptr } := by
  unfold consume at h
  split at h
  · next c held hpc =>
    obtain ⟨q,hq,hs⟩ := Option.bind_eq_some_iff.mp h
    exact .inl ⟨c,held,q,hpc,hq,(Option.some.inj hs).symm⟩
  · next c held hpc =>
    obtain ⟨q,hq,hs⟩ := Option.bind_eq_some_iff.mp h
    refine .inr (.inl ⟨c,held,q,hpc,hq,?_⟩)
    split at hs
    · next tail ptr hret => exact .inl ⟨tail,ptr,hret,(Option.some.inj hs).symm⟩
    · next out hret => exact .inr (.inl ⟨out,hret,(Option.some.inj hs).symm⟩)
    · next hdestroy hret => exact .inr (.inr ⟨hdestroy,hret,(Option.some.inj hs).symm⟩)
  · next c ptr hpc =>
    obtain ⟨q,hq,hs⟩ := Option.bind_eq_some_iff.mp h
    refine .inr (.inr (.inl ⟨c,ptr,q,hpc,hq,?_⟩))
    split at hs
    · next out hret => exact .inl ⟨out,hret,(Option.some.inj hs).symm⟩
    · next hret => exact .inr ⟨hret,(Option.some.inj hs).symm⟩
  · next ptr hpc => exact .inr (.inr (.inr (.inl ⟨ptr,hpc,(Option.some.inj h).symm⟩)))
  · next ptr hpc => exact .inr (.inr (.inr (.inr ⟨ptr,hpc,(Option.some.inj h).symm⟩)))
  · cases h

omit [DecidableEq ι] in
theorem enter_cases {c : Consumer} (h : enter s c s.consumer = some s') :
    s.consumer = .away ∧ s' = { s with consumer := .loop c none } := by
  unfold enter at h
  split at h
  · next hpc => exact ⟨hpc,(Option.some.inj h).symm⟩
  · cases h

theorem step_act {a : Action ι} (h : step s a = some s') : act s a = some s' := by
  unfold step at h
  split_ifs at h
  exact h

end Step

/-! ### The life of a record -/

/-- What has happened to one record. -/
def history (log : List Event) (ptr : ℕ) : List Event := log.filter fun e => e.ptr = ptr

/-- The destructor of the record's tuple has run once by the time its memory is freed; nothing
is formatted or destroyed after it ran, and nothing happens to a record that is freed. -/
structure DestroyedOnce (log : List Event) (ptr : ℕ) : Prop where
  once : .free ptr ∈ log → log.count (.destroy ptr) = 1
  in_order : (history log ptr).Pairwise fun e e' =>
    e ≠ .free ptr ∧ (e = .destroy ptr → e' = .free ptr)

/-- The tuple of the record has a destructor that does something. -/
def State.needsDestroy (s : State ι) (ptr : ℕ) : Bool :=
  s.records[ptr]?.any fun r => !r.payload.isTrivial

/-- The step frees a record whose payload was not destroyed: `enqueue_debug` one that the queue
refuses, `~MpscQueue` one that it popped. -/
def State.leaks (s : State ι) : Action ι → Bool
  | .access t _ =>
    match s.writers t with
    | .enqueueing ptr => s.queue.refusing t && s.needsDestroy ptr
    | .idle => false
  | .consume =>
    match s.consumer with
    | .popping .destructor (some ptr) =>
      (s.queue.popper.moving || s.queue.missing) && s.needsDestroy ptr
    | _ => false
  | _ => false

/-- The whole life of a record. -/
def life (ptr : ℕ) : List Event := [.format ptr,.destroy ptr,.free ptr]

theorem history_append (xs ys : List Event) (ptr : ℕ) :
    history (xs ++ ys) ptr = history xs ptr ++ history ys ptr := List.filter_append ..

theorem history_self {es : List Event} {ptr : ℕ} (h : ∀ e ∈ es, e.ptr = ptr) :
    history es ptr = es := List.filter_eq_self.mpr fun e he => decide_eq_true (h e he)

theorem history_other (es : List Event) {ptr : ℕ} (h : ∀ e ∈ es, e.ptr ≠ ptr) :
    history es ptr = [] := List.filter_eq_nil_iff.mpr fun e he => by simpa using h e he

theorem count_history (log : List Event) (e : Event) :
    log.count e = (history log e.ptr).count e := by
  rw [history,List.count_filter (by simp)]

/-- A record whose history is the beginning of that life is destroyed once. -/
theorem DestroyedOnce.of_prefix {log : List Event} {ptr : ℕ} (h : history log ptr <+: life ptr) :
    DestroyedOnce log ptr where
  once := fun hmem => by
    have hfree : .free ptr ∈ history log ptr := List.mem_filter.mpr ⟨hmem,by simp [Event.ptr]⟩
    rw [count_history,show (Event.destroy ptr).ptr = ptr from rfl]
    obtain ⟨n,hn⟩ : ∃ n, history log ptr = (life ptr).take n :=
      ⟨_,List.prefix_iff_eq_take.mp h⟩
    rw [hn] at hfree ⊢
    match n with
    | 0 => cases hfree
    | 1 => simp [life] at hfree
    | 2 => simp [life] at hfree
    | n+3 => simp [life]
  in_order := by
    refine List.Pairwise.sublist h.sublist ?_
    simp [life]

/-! ### Who owns a record -/

/-- The record in the consumer's hand and what has happened to it. -/
def ConsumerPc.done : ConsumerPc → Option (ℕ × List Event)
  | .loop .drainLoop (some ptr) => some (ptr,[.format ptr,.destroy ptr])
  | .popping .drainLoop (some ptr) => some (ptr,[.format ptr,.destroy ptr])
  | .loop .destructor (some ptr) => some (ptr,[])
  | .popping .destructor (some ptr) => some (ptr,[])
  | .receiving _ ptr => some (ptr,[])
  | .formatting ptr => some (ptr,[])
  | .destroying ptr => some (ptr,[.format ptr])
  | _ => none

structure Owned [DecidableEq ι] (s : State ι) : Prop where
  queue : Transition.Reachable MpscQueue.step MpscQueue.start s.queue
  distinct : MpscQueue.Distinct s.queue
  calls : ∀ t, ∀ ptr ∈ s.queue.calls t, ptr < s.records.length
  writers : ∀ t ptr, s.writers t = .enqueueing ptr → (s.queue.producers t).current = some ptr
  destroyers : ∀ r ∈ s.records, r.destroyPayload = !r.payload.isTrivial
  logged : ∀ e ∈ s.log, e.ptr < s.records.length
  popping : ∀ c held, s.consumer = .popping c held → s.queue.popper.held = none
  receiving : ∀ c ptr, s.consumer = .receiving c ptr → s.queue.popper.held = some ptr
  inHand : ∀ ptr es, s.consumer.done = some (ptr,es) → ptr ∈ s.queue.taken

variable [DecidableEq ι] {s s' : State ι} {t : ι}

theorem start_owned : Owned (start : State ι) where
  queue := .start
  distinct := ⟨fun _ => List.nodup_nil,fun _ _ _ h => by cases h⟩
  calls := fun _ _ h => by cases h
  writers := fun _ _ h => by cases h
  destroyers := fun _ h => by cases h
  logged := fun _ h => by cases h
  popping := fun _ _ h => by cases h
  receiving := fun _ _ h => by cases h
  inHand := fun _ _ h => by cases h

/-- The consumer takes what was pushed, and what was pushed is a record. -/
theorem Owned.taken_lt (h : Owned s) (hb : s.queue.mem.pushes.length ≤ 2^64) {ptr : ℕ}
    (hmem : ptr ∈ s.queue.taken) : ptr < s.records.length := by
  obtain ⟨r,hr⟩ := MpscQueue.reachable_sound h.queue hb
  obtain ⟨⟨t,v⟩,hclaim,rfl⟩ := List.mem_map.mp (hr.taken.subset hmem)
  exact h.calls t v (MpscQueue.calls_of_mem_pushes h.queue hclaim)

theorem Owned.taken_nodup (h : Owned s) (hb : s.queue.mem.pushes.length ≤ 2^64) :
    s.queue.taken.Nodup := by
  obtain ⟨r,hr⟩ := MpscQueue.reachable_sound h.queue hb
  exact (h.distinct.claims h.queue).sublist hr.taken.sublist

theorem writeDebug_owned {payload : Payload} (h : Owned s)
    (hstep : writeDebug s t payload (s.writers t) = some s') : Owned s' := by
  obtain ⟨-,q,hq,rfl⟩ := writeDebug_cases hstep
  have hproducers : q.producers = Function.update s.queue.producers t
      (.loadHead s.records.length) := by rw [MpscQueue.step_call hq]
  have hpopper : q.popper = s.queue.popper ∧ q.taken = s.queue.taken := by
    rw [MpscQueue.step_call hq]
    exact ⟨rfl,rfl⟩
  refine {
    queue := .next h.queue trivial hq
    distinct := h.distinct.call (fun u hu => lt_irrefl _ (h.calls u _ hu)) hq
    calls := fun u ptr hu => ?_
    writers := fun u ptr hu => ?_
    destroyers := fun r hr => ?_
    logged := fun e he => ?_
    popping := fun c held hpc => ?_
    receiving := fun c ptr hpc => ?_
    inHand := fun ptr es hdone => ?_ }
  · rw [List.length_append,List.length_singleton]
    rcases (MpscQueue.mem_calls_call hq).mp hu with hu | ⟨-,rfl⟩
    · exact (h.calls u ptr hu).trans (Nat.lt_succ_self _)
    · exact Nat.lt_succ_self _
  · change (q.producers u).current = some ptr
    rw [hproducers]
    rcases eq_or_ne u t with rfl | hne
    · cases (Function.update_self ..).symm.trans hu
      simp [PushPc.current,PushPc.pending]
    · rw [Function.update_of_ne hne]
      exact h.writers u ptr ((Function.update_of_ne hne ..).symm.trans hu)
  · rcases List.mem_append.mp hr with hr | hr
    · exact h.destroyers r hr
    · rw [List.mem_singleton.mp hr]
      rfl
  · rw [List.length_append]
    exact (h.logged e he).trans_le (Nat.le_add_right ..)
  · change q.popper.held = none
    rw [hpopper.1]
    exact h.popping c held hpc
  · change q.popper.held = some ptr
    rw [hpopper.1]
    exact h.receiving c ptr hpc
  · change ptr ∈ q.taken
    rw [hpopper.2]
    exact h.inHand ptr es hdone

/-- What a step inside `try_push` leaves alone. -/
theorem push_frame {a : PushAction ℕ} {q : MpscQueue.State debugCapacity ι ℕ}
    (ha : PushAction.value a = none) (hq : MpscQueue.step s.queue (.push t a) = some q) :
    q.calls = s.queue.calls ∧ q.popper = s.queue.popper ∧ q.taken = s.queue.taken := by
  obtain ⟨hcalls,hpops,hpopper,-⟩ := MpscQueue.step_inCall ha hq
  exact ⟨hcalls,hpopper,by rw [MpscQueue.State.taken,hpops,hpopper]; rfl⟩

/-- The record that a thread is about to push. -/
theorem Owned.enqueueing_lt (h : Owned s) {ptr : ℕ} (hpc : s.writers t = .enqueueing ptr) :
    ptr < s.records.length := by
  have hcurrent := h.writers t ptr hpc
  have hcall : ptr ∈ s.queue.calls t := by
    rcases hpending : (s.queue.producers t).pending with _ | x
    · obtain ⟨⟨x,pos⟩,hclaim,rfl⟩ := Option.map_eq_some_iff.mp
        (by rw [PushPc.current,hpending] at hcurrent; exact hcurrent)
      exact MpscQueue.calls_of_mem_pushes h.queue
        (MpscQueue.reachable_claimed h.queue t x pos hclaim)
    · rw [PushPc.current,hpending] at hcurrent
      cases hcurrent
      exact (MpscQueue.reachable_ordered h.queue t).subset (by simp [hpending])
  exact h.calls t ptr hcall

/-- The writers' part of the state changes, by a step inside `try_push`. -/
theorem Owned.setWriters (h : Owned s) {a : PushAction ℕ}
    {q : MpscQueue.State debugCapacity ι ℕ} (ha : PushAction.value a = none)
    (hq : MpscQueue.step s.queue (.push t a) = some q) {w : ι → WriterPc} {log : List Event}
    (hw : ∀ u x, w u = .enqueueing x → (q.producers u).current = some x)
    (hlog : ∀ e ∈ log, e.ptr < s.records.length) :
    Owned { s with queue := q, writers := w, log := log } := by
  obtain ⟨hcalls,hpopper,htaken⟩ := push_frame ha hq
  exact {
    queue := .next h.queue trivial hq
    distinct := h.distinct.congr hcalls
    calls := by
      rw [hcalls]
      exact h.calls
    writers := hw
    destroyers := h.destroyers
    logged := hlog
    popping := by
      rw [hpopper]
      exact h.popping
    receiving := by
      rw [hpopper]
      exact h.receiving
    inHand := by
      rw [htaken]
      exact h.inHand }

theorem enqueueDebug_owned {spurious : Bool} (h : Owned s)
    (hstep : enqueueDebug s t spurious (s.writers t) = some s') : Owned s' := by
  obtain ⟨ptr,a,q,hpc,ha,hq,hcases⟩ := enqueueDebug_cases hstep
  have hothers (u : ι) (hu : u ≠ t) (x : ℕ) (hx : s.writers u = .enqueueing x) :
      (q.producers u).current = some x := by
    obtain ⟨-,-,-,hsame,-⟩ := MpscQueue.step_inCall ha hq
    rw [hsame u hu]
    exact h.writers u x hx
  have hidle (u : ι) (x : ℕ) (hx : Function.update s.writers t .idle u = .enqueueing x) :
      (q.producers u).current = some x := by
    rcases eq_or_ne u t with rfl | hne
    · cases (Function.update_self ..).symm.trans hx
    · exact hothers u hne x ((Function.update_of_ne hne ..).symm.trans hx)
  rcases hcases with ⟨-,rfl⟩ | ⟨-,rfl⟩ | ⟨hgo,rfl⟩
  · exact h.setWriters ha hq hidle h.logged
  · refine h.setWriters ha hq hidle fun e he => ?_
    rcases List.mem_append.mp he with he | he
    · exact h.logged e he
    · rw [List.mem_singleton.mp he]
      exact h.enqueueing_lt hpc
  · refine h.setWriters ha hq (fun u x hx => ?_) h.logged
    rcases eq_or_ne u t with rfl | hne
    · obtain ⟨-,-,-,-,y,hy,⟨-,hnow⟩ | ⟨-,-,hnow⟩ | ⟨-,-,hnow⟩ | ⟨-,-,hnow⟩⟩ :=
        MpscQueue.step_inCall ha hq
      · rw [hnow,← hy]
        exact h.writers u x hx
      · rw [hnow,← hy]
        exact h.writers u x hx
      · exact absurd hnow (hgo _)
      · exact absurd hnow (hgo _)
    · exact hothers u hne x hx

/-- The consumer's part of the state changes. -/
theorem Owned.setConsumer (h : Owned s) {q : MpscQueue.State debugCapacity ι ℕ} {pc : ConsumerPc}
    {log : List Event} (hq : MpscQueue.step s.queue (.pop .call) = some q ∨
      MpscQueue.step s.queue (.pop .step) = some q ∨ q = s.queue)
    (hlog : ∀ e ∈ log, e.ptr < s.records.length)
    (hpopping : ∀ c held, pc = .popping c held → q.popper.held = none)
    (hreceiving : ∀ c ptr, pc = .receiving c ptr → q.popper.held = some ptr)
    (hinHand : ∀ ptr es, pc.done = some (ptr,es) → ptr ∈ q.taken) :
    Owned { s with queue := q, consumer := pc, log := log } := by
  obtain ⟨hreach,hcalls,hproducers⟩ : Transition.Reachable MpscQueue.step MpscQueue.start q ∧
      q.calls = s.queue.calls ∧ q.producers = s.queue.producers := by
    rcases hq with hq | hq | rfl
    · obtain ⟨-,-,hproducers,hcalls⟩ := MpscQueue.tryPop_frame hq
      exact ⟨.next h.queue trivial hq,hcalls,hproducers⟩
    · obtain ⟨-,-,hproducers,hcalls⟩ := MpscQueue.tryPop_frame hq
      exact ⟨.next h.queue trivial hq,hcalls,hproducers⟩
    · exact ⟨h.queue,rfl,rfl⟩
  exact {
    queue := hreach
    distinct := h.distinct.congr hcalls
    calls := by
      rw [hcalls]
      exact h.calls
    writers := by
      rw [hproducers]
      exact h.writers
    destroyers := h.destroyers
    logged := hlog
    popping := hpopping
    receiving := hreceiving
    inHand := hinHand }

theorem enter_owned {c : Consumer} (h : Owned s) (hstep : enter s c s.consumer = some s') :
    Owned s' := by
  obtain ⟨-,rfl⟩ := enter_cases hstep
  exact h.setConsumer (.inr (.inr rfl)) h.logged nofun nofun (by cases c <;> nofun)

omit [DecidableEq ι] in
theorem ConsumerPc.done_held (c : Consumer) (ptr : ℕ) :
    ∃ es, (ConsumerPc.loop c (some ptr)).done = some (ptr,es) ∧
      (ConsumerPc.popping c (some ptr)).done = some (ptr,es) := by
  cases c
  · exact ⟨_,rfl,rfl⟩
  · exact ⟨_,rfl,rfl⟩

theorem consume_owned (hb : s.queue.mem.pushes.length ≤ 2^64) (h : Owned s)
    (hstep : consume s s.consumer = some s') : Owned s' := by
  have hlog {ptr : ℕ} (es : List Event) {fs : List Event} (hdone : s.consumer.done = some (ptr,es))
      (hfs : ∀ e ∈ fs, e.ptr = ptr) : ∀ e ∈ s.log ++ fs, e.ptr < s.records.length := by
    intro e he
    rcases List.mem_append.mp he with he | he
    · exact h.logged e he
    · rw [hfs e he]
      exact h.taken_lt hb (h.inHand ptr es hdone)
  have hfrees {c : Consumer} {held : Option ℕ} (hpc : s.consumer = .popping c held) :
      ∀ e ∈ s.log ++ frees held, e.ptr < s.records.length := by
    cases held with
    | none => simpa [frees] using h.logged
    | some ptr =>
      obtain ⟨es,-,hdone⟩ := ConsumerPc.done_held c ptr
      exact hlog es (hpc ▸ hdone) (by simp [frees,Event.ptr])
  rcases consume_cases hstep with ⟨c,held,q,hpc,hq,rfl⟩ |
    ⟨c,held,q,hpc,hq,⟨tail,ptr,hret,rfl⟩ | ⟨out,hret,rfl⟩ | ⟨hdestroy,-,rfl⟩⟩ |
    ⟨c,ptr,q,hpc,hq,⟨out,hret,rfl⟩ | ⟨hgo,rfl⟩⟩ | ⟨ptr,hpc,rfl⟩ | ⟨ptr,hpc,rfl⟩
  · refine h.setConsumer (.inl hq) h.logged (fun _ _ _ => by rw [MpscQueue.tryPop_call hq]; rfl)
      (by simp) fun ptr es hdone => ?_
    rw [MpscQueue.tryPop_taken_eq hq (by simp [MpscQueue.tryPop_call hq])]
    refine h.inHand ptr es ?_
    rw [hpc]
    cases c <;> cases held <;> exact hdone
  · refine h.setConsumer (.inr (.inl hq)) (hfrees hpc) (by simp) (fun c' ptr' heq => ?_)
      fun ptr' es hdone => ?_
    · cases heq
      rw [hret]
      rfl
    · cases hdone
      rw [MpscQueue.State.taken,hret]
      simp [MpscQueue.PopPc.held]
  · refine h.setConsumer (.inr (.inl hq)) (hfrees hpc) ?_ ?_ ?_
    · split <;> simp
    · split <;> simp
    · split <;> simp [ConsumerPc.done]
  · rcases MpscQueue.tryPop_empty (h.popping c held hpc) hq with ⟨tail,v,hnow⟩ | ⟨hnone,-⟩
    · exact absurd hnow (hdestroy tail v)
    · refine h.setConsumer (.inr (.inl hq)) h.logged (fun _ _ _ => hnone) (by simp [hpc]) ?_
      rw [MpscQueue.tryPop_taken_eq hq hdestroy]
      exact h.inHand
  · have hnot := (MpscQueue.tryPop_hand (h.receiving c ptr hpc) hq).1
    have hmem : ptr ∈ q.taken := by
      rw [MpscQueue.tryPop_taken_eq hq hnot]
      exact h.inHand ptr [] (by rw [hpc]; rfl)
    refine h.setConsumer (.inr (.inl hq)) h.logged ?_ ?_ fun ptr' es hdone => ?_
    · split <;> simp
    · split <;> simp
    · cases c <;> cases hdone <;> exact hmem
  · obtain ⟨hnot,hnow⟩ := MpscQueue.tryPop_hand (h.receiving c ptr hpc) hq
    refine h.setConsumer (.inr (.inl hq)) h.logged (by simp [hpc]) (fun c' ptr' heq => ?_) ?_
    · rw [hpc] at heq
      cases heq
      exact hnow.resolve_right (hgo _)
    · rw [MpscQueue.tryPop_taken_eq hq hnot]
      exact h.inHand
  · refine h.setConsumer (.inr (.inr rfl)) (hlog [] (by rw [hpc]; rfl)
      (by simp [Event.ptr])) (by simp) (by simp) fun ptr' es hdone => ?_
    cases hdone
    exact h.inHand ptr [] (by rw [hpc]; rfl)
  · refine h.setConsumer (.inr (.inr rfl)) (hlog [.format ptr] (by rw [hpc]; rfl) ?_)
      (by simp) (by simp) fun ptr' es hdone => ?_
    · rw [State.destroys]
      split <;> simp [Event.ptr]
    · cases hdone
      exact h.inHand ptr [.format ptr] (by rw [hpc]; rfl)

theorem step_owned {a : Action ι} (hb : s.queue.mem.pushes.length ≤ 2^64) (h : Owned s)
    (hstep : step s a = some s') : Owned s' := by
  have hact := step_act hstep
  cases a with
  | write t payload => exact writeDebug_owned h hact
  | access t spurious => exact enqueueDebug_owned h hact
  | enter c => exact enter_owned h hact
  | consume => exact consume_owned hb h hact

/-! ### What has happened to a record -/

/-- Of each record with something to destroy the log says where it is. -/
structure Kept (s : State ι) : Prop where
  done : ∀ ptr es, s.consumer.done = some (ptr,es) → s.needsDestroy ptr = true →
    history s.log ptr = es
  past : ∀ ptr ∈ s.queue.taken, (∀ es, s.consumer.done ≠ some (ptr,es)) →
    s.needsDestroy ptr = true → history s.log ptr = life ptr
  fresh : ∀ ptr, ptr ∉ s.queue.taken → s.needsDestroy ptr = true → history s.log ptr = []

omit [DecidableEq ι] in
theorem start_kept : Kept (start : State ι) where
  done := nofun
  past := nofun
  fresh := fun _ _ _ => rfl

omit [DecidableEq ι] in
theorem Kept.prefix_life (h : Kept s) {ptr : ℕ} (hneeds : s.needsDestroy ptr = true) :
    history s.log ptr <+: life ptr := by
  by_cases hmem : ptr ∈ s.queue.taken
  · by_cases hdone : ∃ es, s.consumer.done = some (ptr,es)
    · obtain ⟨es,hdone⟩ := hdone
      rw [h.done ptr es hdone hneeds]
      generalize s.consumer = pc at hdone
      rcases pc with _ | ⟨⟨⟩,_ | _⟩ | ⟨⟨⟩,_ | _⟩ | _ | _ | _ | _ <;> cases hdone <;> simp [life]
    · rw [h.past ptr hmem (not_exists.mp hdone) hneeds]
  · rw [h.fresh ptr hmem hneeds]
    exact List.nil_prefix

omit [DecidableEq ι] in
theorem needsDestroy_congr (hrecords : s'.records = s.records) (ptr : ℕ) :
    s'.needsDestroy ptr = s.needsDestroy ptr := by
  rw [State.needsDestroy,hrecords]
  rfl

omit [DecidableEq ι] in
theorem Kept.frame (h : Kept s) (hdone : s'.consumer.done = s.consumer.done)
    (htaken : s'.queue.taken = s.queue.taken) (hrecords : s'.records = s.records)
    (hlog : ∀ ptr, s.needsDestroy ptr = true → history s'.log ptr = history s.log ptr) :
    Kept s' := by
  have hneeds := needsDestroy_congr hrecords
  refine ⟨fun ptr es hd hn => ?_,fun ptr hmem hd hn => ?_,fun ptr hmem hn => ?_⟩ <;>
    rw [hneeds] at hn <;> rw [hlog ptr hn]
  · exact h.done ptr es (hdone ▸ hd) hn
  · exact h.past ptr (htaken ▸ hmem) (hdone ▸ hd) hn
  · exact h.fresh ptr (htaken ▸ hmem) hn

omit [DecidableEq ι] in
/-- The consumer works on the record in its hand. -/
theorem Kept.work (h : Kept s) {ptr : ℕ} {es : List Event} (fs : List Event)
    (hdone : s.consumer.done = some (ptr,es))
    (hdone' : s.needsDestroy ptr = true → s'.consumer.done = some (ptr,es ++ fs))
    (hsome : ∃ es', s'.consumer.done = some (ptr,es')) (hqueue : s'.queue = s.queue)
    (hrecords : s'.records = s.records) (hlog : s'.log = s.log ++ fs)
    (hfs : ∀ e ∈ fs, e.ptr = ptr) (hmem : ptr ∈ s.queue.taken) : Kept s' := by
  have hneeds := needsDestroy_congr hrecords
  have hother {x : ℕ} (hx : x ≠ ptr) : history s'.log x = history s.log x := by
    rw [hlog,history_append,history_other fs fun e he => by rw [hfs e he]; exact hx.symm,
      List.append_nil]
  obtain ⟨es',hsome⟩ := hsome
  refine ⟨fun x xs hx hn => ?_,fun x hx hnot hn => ?_,fun x hx hn => ?_⟩ <;> rw [hneeds] at hn
  · cases hsome.symm.trans hx
    cases (hdone' hn).symm.trans hx
    rw [hlog,history_append,history_self hfs,h.done ptr es hdone hn]
  · rw [hqueue] at hx
    have hne : x ≠ ptr := by
      rintro rfl
      exact hnot es' hsome
    rw [hother hne]
    refine h.past x hx (fun xs hxs => hne ?_) hn
    cases hdone.symm.trans hxs
    rfl
  · rw [hqueue] at hx
    rw [hother (by rintro rfl; exact hx hmem)]
    exact h.fresh x hx hn

omit [DecidableEq ι] in
/-- The consumer frees the record in its hand, and has the next one or none. -/
theorem Kept.release (h : Kept s) {held : Option ℕ} (next : Option ℕ)
    (hheld : ∀ ptr ∈ held, ∃ es, s.consumer.done = some (ptr,es) ∧
      (s.needsDestroy ptr = true → es = [.format ptr,.destroy ptr]))
    (hnone : ∀ ptr es, s.consumer.done = some (ptr,es) → held = some ptr)
    (hinHand : ∀ ptr ∈ held, ptr ∈ s.queue.taken) (hdone' : s'.consumer.done = next.map (·,[]))
    (htaken : s'.queue.taken = s.queue.taken ++ next.toList) (hnodup : s'.queue.taken.Nodup)
    (hrecords : s'.records = s.records) (hlog : s'.log = s.log ++ frees held) : Kept s' := by
  have hneeds := needsDestroy_congr hrecords
  have hother {x : ℕ} (hx : held ≠ some x) : history s'.log x = history s.log x := by
    rw [hlog,history_append,history_other (frees held) ?_,List.append_nil]
    intro e he
    obtain ⟨ptr,hptr,rfl⟩ := List.mem_map.mp he
    rintro rfl
    exact hx (Option.mem_toList.mp hptr)
  rw [htaken] at hnodup
  have hnext (x : ℕ) (hx : next = some x) : x ∉ s.queue.taken := fun hmem =>
    List.disjoint_of_nodup_append hnodup hmem (by simp [hx])
  refine ⟨fun x xs hx hn => ?_,fun x hx hnot hn => ?_,fun x hx hn => ?_⟩ <;> rw [hneeds] at hn
  · rw [hdone',Option.map_eq_some_iff] at hx
    obtain ⟨x,hx,heq⟩ := hx
    cases heq
    rw [hother fun heq => hnext x hx (hinHand x heq)]
    exact h.fresh x (hnext x hx) hn
  · rw [htaken] at hx
    have hold : x ∈ s.queue.taken := by
      rcases List.mem_append.mp hx with hx | hx
      · exact hx
      · refine absurd ?_ (hnot [])
        rw [hdone',Option.mem_toList.mp hx]
        rfl
    by_cases heq : held = some x
    · obtain ⟨es,hdone,hes⟩ := hheld x heq
      rw [hlog,history_append,h.done x es hdone hn,hes hn,heq]
      simp [frees,history,Event.ptr,life]
    · rw [hother heq]
      exact h.past x hold (fun xs hxs => heq (hnone x xs hxs)) hn
  · rw [htaken] at hx
    have hold : x ∉ s.queue.taken := fun hmem => hx (List.mem_append_left _ hmem)
    rw [hother fun heq => hold (hinHand x heq)]
    exact h.fresh x hold hn

theorem writeDebug_kept {payload : Payload} (hb : s.queue.mem.pushes.length ≤ 2^64)
    (howned : Owned s) (h : Kept s) (hstep : writeDebug s t payload (s.writers t) = some s') :
    Kept s' := by
  obtain ⟨-,q,hq,rfl⟩ := writeDebug_cases hstep
  have htaken : q.taken = s.queue.taken := by
    rw [MpscQueue.step_call hq]
    rfl
  have hold {ptr : ℕ} (hlt : ptr < s.records.length) :
      ((s.records ++ [debugRecord payload])[ptr]?.any fun r => !r.payload.isTrivial) =
        s.needsDestroy ptr := by
    rw [List.getElem?_append_left hlt]
    rfl
  refine ⟨fun ptr es hdone hn => ?_,fun ptr hmem hdone hn => ?_,fun ptr hmem hn => ?_⟩
  · have hlt := howned.taken_lt hb (howned.inHand ptr es hdone)
    exact h.done ptr es hdone ((hold hlt).symm.trans hn)
  · change ptr ∈ q.taken at hmem
    rw [htaken] at hmem
    exact h.past ptr hmem hdone ((hold (howned.taken_lt hb hmem)).symm.trans hn)
  · change ptr ∉ q.taken at hmem
    rw [htaken] at hmem
    by_cases hlt : ptr < s.records.length
    · exact h.fresh ptr hmem ((hold hlt).symm.trans hn)
    · exact history_other _ fun e he heq => hlt (heq ▸ howned.logged e he)

theorem enqueueDebug_kept {spurious : Bool} (h : Kept s)
    (hleaks : s.leaks (.access t spurious) = false)
    (hstep : enqueueDebug s t spurious (s.writers t) = some s') : Kept s' := by
  obtain ⟨ptr,a,q,hpc,ha,hq,⟨-,rfl⟩ | ⟨hfalse,rfl⟩ | ⟨-,rfl⟩⟩ := enqueueDebug_cases hstep
  · exact h.frame rfl (push_frame ha hq).2.2 rfl fun _ _ => rfl
  · refine h.frame rfl (push_frame ha hq).2.2 rfl fun x hx => ?_
    have hother : ptr ≠ x := by
      rintro rfl
      simp [State.leaks,hpc,MpscQueue.step_refusing hq hfalse,hx] at hleaks
    rw [history_append,history_other [.free ptr] (by simpa [Event.ptr] using hother),
      List.append_nil]
  · exact h.frame rfl (push_frame ha hq).2.2 rfl fun _ _ => rfl

omit [DecidableEq ι] in
theorem enter_kept {c : Consumer} (h : Kept s) (hstep : enter s c s.consumer = some s') :
    Kept s' := by
  obtain ⟨hpc,rfl⟩ := enter_cases hstep
  refine h.frame ?_ rfl rfl fun _ _ => rfl
  rw [hpc]
  cases c <;> rfl

omit [DecidableEq ι] in
/-- What the consumer gives up at a step that does not leak was destroyed. -/
theorem popping_destroyed {c : Consumer} {held : Option ℕ} (hpc : s.consumer = .popping c held)
    (hfrees : s.queue.popper.moving = true ∨ s.queue.missing = true)
    (hleaks : s.leaks .consume = false) :
    (∀ ptr ∈ held, ∃ es, s.consumer.done = some (ptr,es) ∧
      (s.needsDestroy ptr = true → es = [.format ptr,.destroy ptr])) ∧
    ∀ ptr es, s.consumer.done = some (ptr,es) → held = some ptr := by
  rw [State.leaks,hpc] at hleaks
  rw [hpc]
  cases c with
  | drainLoop =>
    refine ⟨?_,?_⟩
    · rintro ptr rfl
      exact ⟨_,rfl,fun _ => rfl⟩
    · intro ptr es hdone
      cases held <;> cases hdone
      rfl
  | destructor =>
    refine ⟨?_,?_⟩
    · rintro ptr rfl
      refine ⟨_,rfl,fun hn => ?_⟩
      rcases hfrees with hfrees | hfrees <;> simp [hfrees,hn] at hleaks
    · intro ptr es hdone
      cases held <;> cases hdone
      rfl

theorem consume_kept (hb : s'.queue.mem.pushes.length ≤ 2^64) (howned : Owned s)
    (howned' : Owned s') (h : Kept s) (hleaks : s.leaks .consume = false)
    (hstep : consume s s.consumer = some s') : Kept s' := by
  have hinHand {c : Consumer} {held : Option ℕ} (hpc : s.consumer = .popping c held) :
      ∀ ptr ∈ held, ptr ∈ s.queue.taken := by
    rintro ptr rfl
    obtain ⟨es,-,hdone⟩ := ConsumerPc.done_held c ptr
    exact howned.inHand ptr es (hpc ▸ hdone)
  have hnodup := howned'.taken_nodup hb
  rcases consume_cases hstep with ⟨c,held,q,hpc,hq,rfl⟩ |
    ⟨c,held,q,hpc,hq,⟨tail,ptr,hret,rfl⟩ | ⟨out,hret,rfl⟩ | ⟨hdestroy,-,rfl⟩⟩ |
    ⟨c,ptr,q,hpc,hq,⟨out,hret,rfl⟩ | ⟨hgo,rfl⟩⟩ | ⟨ptr,hpc,rfl⟩ | ⟨ptr,hpc,rfl⟩
  · refine h.frame ?_ (MpscQueue.tryPop_taken_eq hq (by simp [MpscQueue.tryPop_call hq])) rfl
      fun _ _ => rfl
    rw [hpc]
    cases c <;> cases held <;> rfl
  · rcases MpscQueue.tryPop_taken hq with ⟨tail',v,hmove,hnow,htaken⟩ | ⟨hnot,-⟩
    · cases hret.symm.trans hnow
      obtain ⟨hheld,hnone⟩ := popping_destroyed hpc (.inl (by rw [hmove]; rfl)) hleaks
      exact h.release (some ptr) hheld hnone (hinHand hpc) rfl htaken hnodup rfl rfl
    · exact absurd hret (hnot tail ptr)
  · have hmissing : s.queue.missing = true := by
      cases out with
      | none => exact MpscQueue.tryPop_missing hq hret
      | some v =>
        rcases MpscQueue.tryPop_empty (howned.popping c held hpc) hq with ⟨tail,w,hnow⟩ | ⟨-,hnot⟩
        · cases hret.symm.trans hnow
        · exact absurd hret (hnot v)
    obtain ⟨hheld,hnone⟩ := popping_destroyed hpc (.inr hmissing) hleaks
    refine h.release none hheld hnone (hinHand hpc) ?_ ?_ hnodup rfl rfl
    · change (ite _ _ _ : ConsumerPc).done = none
      split <;> rfl
    · exact (MpscQueue.tryPop_taken_eq hq (by simp [hret])).trans (List.append_nil _).symm
  · exact h.frame rfl (MpscQueue.tryPop_taken_eq hq hdestroy) rfl fun _ _ => rfl
  · refine h.frame ?_ (MpscQueue.tryPop_taken_eq hq (by simp [hret])) rfl fun _ _ => rfl
    rw [hpc]
    cases c <;> rfl
  · have hnot := (MpscQueue.tryPop_hand (howned.receiving c ptr hpc) hq).1
    exact h.frame rfl (MpscQueue.tryPop_taken_eq hq hnot) rfl fun _ _ => rfl
  · have hdone : s.consumer.done = some (ptr,[]) := by rw [hpc]; rfl
    exact h.work _ hdone (fun _ => rfl) ⟨_,rfl⟩ rfl rfl rfl (by simp [Event.ptr])
      (howned.inHand ptr [] hdone)
  · have hdone : s.consumer.done = some (ptr,[.format ptr]) := by rw [hpc]; rfl
    refine h.work (s.destroys ptr) hdone (fun hn => ?_) ⟨_,rfl⟩ rfl rfl rfl ?_
      (howned.inHand ptr _ hdone)
    · obtain ⟨r,hr,hneeds⟩ := Option.any_eq_true _ _ |>.mp hn
      have hdestroyer := howned.destroyers r (List.mem_of_getElem? hr)
      have hdestroys : s.destroys ptr = [.destroy ptr] := by
        rw [State.destroys,hr,Option.any_some,hdestroyer,hneeds]
        rfl
      rw [hdestroys]
      rfl
    · rw [State.destroys]
      split <;> simp [Event.ptr]

theorem step_kept {a : Action ι} (hb : s'.queue.mem.pushes.length ≤ 2^64)
    (hb₀ : s.queue.mem.pushes.length ≤ 2^64) (howned : Owned s) (howned' : Owned s')
    (h : Kept s) (hleaks : s.leaks a = false) (hstep : step s a = some s') : Kept s' := by
  have hact := step_act hstep
  cases a with
  | write t payload => exact writeDebug_kept hb₀ howned h hact
  | access t spurious => exact enqueueDebug_kept h hleaks hact
  | enter c => exact enter_kept h hact
  | consume => exact consume_kept hb howned howned' h hleaks hact

/-! ### Records that are lost -/

omit [DecidableEq ι] in
theorem not_destroyedOnce {log : List Event} {ptr : ℕ} (h : history log ptr = [.free ptr]) :
    ¬DestroyedOnce log ptr := by
  intro hd
  have hmem : .free ptr ∈ log := List.mem_of_mem_filter (h ▸ List.mem_singleton_self _)
  have honce := hd.once hmem
  rw [count_history,show (Event.destroy ptr).ptr = ptr from rfl,h] at honce
  cases honce

theorem enqueueDebug_leaks {spurious : Bool} (hb : s.queue.mem.pushes.length ≤ 2^64)
    (howned : Owned s) (h : Kept s) (hleaks : s.leaks (.access t spurious) = true)
    (hstep : enqueueDebug s t spurious (s.writers t) = some s') :
    ∃ ptr, s'.needsDestroy ptr = true ∧ ¬DestroyedOnce s'.log ptr := by
  obtain ⟨ptr,a,q,hpc,ha,hq,hcases⟩ := enqueueDebug_cases hstep
  rw [State.leaks,hpc] at hleaks
  obtain ⟨hrefusing,hneeds⟩ := Bool.and_eq_true_iff.mp hleaks
  obtain ⟨hfalse,v,hpending⟩ := MpscQueue.step_refuses ha hrefusing hq
  have hcurrent := howned.writers t ptr hpc
  rw [PushPc.current,hpending] at hcurrent
  cases hcurrent
  have hfresh : ptr ∉ s.queue.taken := fun hmem => by
    obtain ⟨r,hr⟩ := MpscQueue.reachable_sound howned.queue hb
    exact howned.distinct.unclaimed howned.queue hpending (hr.taken.subset hmem)
  rcases hcases with ⟨htrue,-⟩ | ⟨-,rfl⟩ | ⟨hgo,-⟩
  · cases hfalse.symm.trans htrue
  · refine ⟨ptr,hneeds,not_destroyedOnce ?_⟩
    rw [history_append,h.fresh ptr hfresh hneeds]
    simp [history,Event.ptr]
  · exact absurd hfalse (hgo false)

theorem consume_leaks (h : Kept s) (hleaks : s.leaks .consume = true)
    (hstep : consume s s.consumer = some s') :
    ∃ ptr, s'.needsDestroy ptr = true ∧ ¬DestroyedOnce s'.log ptr := by
  rw [State.leaks] at hleaks
  split at hleaks
  · next ptr hpc =>
    obtain ⟨hfrees,hneeds⟩ := Bool.and_eq_true_iff.mp hleaks
    have hhistory := h.done ptr [] (by rw [hpc]; rfl) hneeds
    have hlost : history (s.log ++ frees (some ptr)) ptr = [.free ptr] := by
      rw [history_append,hhistory]
      simp [history,frees,Event.ptr]
    rcases consume_cases hstep with ⟨c,held,q,hpc',-⟩ |
      ⟨c,held,q,hpc',hq,⟨tail,ptr',-,rfl⟩ | ⟨out,-,rfl⟩ | ⟨hdestroy,hgo,-⟩⟩ | ⟨c,ptr',q,hpc',-⟩ |
      ⟨ptr',hpc',-⟩ | ⟨ptr',hpc',-⟩ <;> cases hpc.symm.trans hpc'
    · exact ⟨ptr,hneeds,not_destroyedOnce hlost⟩
    · exact ⟨ptr,hneeds,not_destroyedOnce hlost⟩
    · rcases Bool.or_eq_true_iff.mp hfrees with hmoving | hmissing
      · obtain ⟨tail,v,hnow⟩ := MpscQueue.tryPop_moving hmoving hq
        exact absurd hnow (hdestroy tail v)
      · obtain ⟨tail,htesting,hne⟩ := Option.any_eq_true _ _ |>.mp hmissing
        exact absurd (MpscQueue.tryPop_failed hq htesting (of_decide_eq_true hne)) (hgo none)
  · cases hleaks

omit [DecidableEq ι] in
/-- What was in order at the end was in order before. -/
theorem DestroyedOnce.of_append {xs : List Event} (ys : List Event) {ptr : ℕ}
    (h : DestroyedOnce (xs ++ ys) ptr) : DestroyedOnce xs ptr := by
  have horder := h.in_order
  rw [history_append] at horder
  refine ⟨fun hmem => ?_,(List.pairwise_append.mp horder).1⟩
  have hfree : .free ptr ∈ history xs ptr := List.mem_filter.mpr ⟨hmem,by simp [Event.ptr]⟩
  have hnil : history ys ptr = [] := List.eq_nil_iff_forall_not_mem.mpr fun e he =>
    ((List.pairwise_append.mp horder).2.2 _ hfree e he).1 rfl
  have honce := h.once (List.mem_append_left _ hmem)
  rw [count_history,history_append,show (Event.destroy ptr).ptr = ptr from rfl,hnil,
    List.append_nil] at honce
  rw [count_history]
  exact honce

/-- The log and the records only grow, the queue's claims too. -/
theorem step_grows {a : Action ι} (hstep : step s a = some s') :
    (∃ es, s'.log = s.log ++ es) ∧ s.records <+: s'.records ∧
      s.queue.mem.pushes <+: s'.queue.mem.pushes := by
  have hact := step_act hstep
  cases a with
  | write t payload =>
    obtain ⟨-,q,hq,rfl⟩ := writeDebug_cases hact
    exact ⟨⟨[],(List.append_nil _).symm⟩,List.prefix_append ..,MpscQueue.step_pushes hq⟩
  | access t spurious =>
    obtain ⟨ptr,a,q,-,-,hq,⟨-,rfl⟩ | ⟨-,rfl⟩ | ⟨-,rfl⟩⟩ := enqueueDebug_cases hact
    · exact ⟨⟨[],(List.append_nil _).symm⟩,List.prefix_rfl,MpscQueue.step_pushes hq⟩
    · exact ⟨⟨_,rfl⟩,List.prefix_rfl,MpscQueue.step_pushes hq⟩
    · exact ⟨⟨[],(List.append_nil _).symm⟩,List.prefix_rfl,MpscQueue.step_pushes hq⟩
  | enter c =>
    obtain ⟨-,rfl⟩ := enter_cases hact
    exact ⟨⟨[],(List.append_nil _).symm⟩,List.prefix_rfl,List.prefix_rfl⟩
  | consume =>
    rcases consume_cases hact with ⟨c,held,q,-,hq,rfl⟩ |
      ⟨c,held,q,-,hq,⟨tail,ptr,-,rfl⟩ | ⟨out,-,rfl⟩ | ⟨-,-,rfl⟩⟩ |
      ⟨c,ptr,q,-,hq,⟨out,-,rfl⟩ | ⟨-,rfl⟩⟩ | ⟨ptr,-,rfl⟩ | ⟨ptr,-,rfl⟩
    · exact ⟨⟨[],(List.append_nil _).symm⟩,List.prefix_rfl,MpscQueue.step_pushes hq⟩
    · exact ⟨⟨_,rfl⟩,List.prefix_rfl,MpscQueue.step_pushes hq⟩
    · exact ⟨⟨_,rfl⟩,List.prefix_rfl,MpscQueue.step_pushes hq⟩
    · exact ⟨⟨[],(List.append_nil _).symm⟩,List.prefix_rfl,MpscQueue.step_pushes hq⟩
    · exact ⟨⟨[],(List.append_nil _).symm⟩,List.prefix_rfl,MpscQueue.step_pushes hq⟩
    · exact ⟨⟨[],(List.append_nil _).symm⟩,List.prefix_rfl,MpscQueue.step_pushes hq⟩
    · exact ⟨⟨_,rfl⟩,List.prefix_rfl,List.prefix_rfl⟩
    · exact ⟨⟨_,rfl⟩,List.prefix_rfl,List.prefix_rfl⟩

/-! ### Runs -/

/-- Every payload that has to be destroyed is destroyed once, before its record is freed. -/
def State.DestroysAll (s : State ι) : Prop :=
  ∀ ptr, s.needsDestroy ptr = true → DestroyedOnce s.log ptr

/-- While at most `2^64` slots of the queue are claimed, a run destroys every payload that needs
it once, before it frees it and after it was formatted, if and only if no step of it frees a
record that `enqueue_debug` could not push or `~MpscQueue` found. -/
theorem run_destroysAll_iff {as : List (Action ι)} (hrun : Transition.run step start as = some s)
    (hb : s.queue.mem.pushes.length ≤ 2^64) :
    s.DestroysAll ↔ Transition.Admits step (fun s a => s.leaks a = false) start as := by
  refine Transition.admits_iff_of_bound
    (P := fun s => s.queue.mem.pushes.length ≤ 2^64 ∧ Owned s ∧ Kept s)
    (fun s => s.queue.mem.pushes.length ≤ 2^64) (fun s a t hstep ht => ?_) ?_ ?_ ?_ ?_
    ⟨Nat.zero_le _,start_owned,start_kept⟩ hrun hb
  · exact (step_grows hstep).2.2.length_le.trans ht
  · rintro s a t ⟨hs,howned,hkept⟩ ht hleaks hstep
    have howned' := step_owned hs howned hstep
    exact ⟨ht,howned',step_kept ht hs howned howned' hkept hleaks hstep⟩
  · rintro s ⟨-,-,hkept⟩ ptr hneeds
    exact DestroyedOnce.of_prefix (hkept.prefix_life hneeds)
  · rintro s a t ⟨hs,howned,hkept⟩ - hbad hstep hall
    obtain ⟨ptr,hneeds,hnot⟩ : ∃ ptr, t.needsDestroy ptr = true ∧ ¬DestroyedOnce t.log ptr := by
      have hact := step_act hstep
      cases a with
      | write u payload => exact absurd rfl hbad
      | access u spurious =>
        exact enqueueDebug_leaks hs howned hkept (by simpa using hbad) hact
      | enter c => exact absurd rfl hbad
      | consume => exact consume_leaks hkept (by simpa using hbad) hact
    exact hnot (hall ptr hneeds)
  · intro s a t hstep hall ptr hneeds
    obtain ⟨⟨es,hlog⟩,⟨rs,hrecords⟩,-⟩ := step_grows hstep
    refine DestroyedOnce.of_append es (hlog ▸ hall ptr ?_)
    obtain ⟨r,hr,hneeds⟩ := Option.any_eq_true _ _ |>.mp hneeds
    refine (Option.any_eq_true _ _).mpr ⟨r,?_,hneeds⟩
    rw [← hrecords,List.getElem?_append_left (List.getElem?_eq_some_iff.mp hr).1,hr]

/-- One write, of a string, and one pass of the drain over the queue. -/
def drained : List (Action Unit) :=
  .write () ⟨[false]⟩ :: (List.replicate 6 (.access () false) ++
    .enter .drainLoop :: List.replicate 12 .consume)

theorem run_destroysAll_iff_drained : ∃ s : State Unit,
    Transition.run step start drained = some s ∧
    s.log = [.format 0,.destroy 0,.free 0] ∧ s.DestroysAll := by
  obtain ⟨s,hrun,hlog,hclaims⟩ : ∃ s : State Unit, Transition.run step start drained = some s ∧
      s.log = [.format 0,.destroy 0,.free 0] ∧ s.queue.mem.pushes.length = 1 := ⟨_,rfl,rfl,rfl⟩
  exact ⟨s,hrun,hlog,(run_destroysAll_iff hrun (by rw [hclaims]; omega)).mpr (by decide +kernel)⟩

/-! ### A queue that has no room -/

section Alone

variable {payload : Payload} {k : ℕ}

theorem step_away (haway : s.consumer = .away) (a : Action ι) : step s a = act s a :=
  if_neg (by rw [haway]; nofun)

/-- Accesses of a write that does not return yet. -/
theorem run_enqueueing {n ptr : ℕ} {q : MpscQueue.State debugCapacity ι ℕ}
    (hpc : s.writers t = .enqueueing ptr) (haway : s.consumer = .away)
    (hrun : Transition.run MpscQueue.step s.queue (List.replicate n (.push t .step)) = some q)
    (hgo : ∀ ok, q.producers t ≠ .returned ok) :
    Transition.run step s (List.replicate n (.access t false)) = some { s with queue := q } := by
  refine Transition.run_embed (fun q => { s with queue := q })
    (fun q => ∀ ok, q.producers t ≠ .returned ok) (fun q hret => ?_) (fun q q' hgo hq => ?_)
    hrun hgo
  · push Not at hret
    obtain ⟨ok,hret⟩ := hret
    simp [MpscQueue.step,tryPush,hret]
  · rw [step_away (s := { s with queue := q }) haway]
    simp only [act,hpc,enqueueDebug,hq,Bool.false_eq_true,if_false,bind,Option.bind]
    split
    · next hret => exact absurd hret (hgo _)
    · next hret => exact absurd hret (hgo _)
    · rfl

/-- The state in the call of `try_push`. -/
def State.called (s : State ι) (t : ι) (payload : Payload) : State ι :=
  { s with
    records := s.records ++ [debugRecord payload]
    queue := { s.queue with
      producers := Function.update s.queue.producers t (.loadHead s.records.length)
      calls := Function.update s.queue.calls t (s.queue.calls t ++ [s.records.length]) }
    writers := Function.update s.writers t (.enqueueing s.records.length) }

theorem step_write (haway : s.consumer = .away) (hwriter : s.writers t = .idle)
    (hidle : s.queue.producers t = .idle ∨ ∃ ok, s.queue.producers t = .returned ok) :
    step s (.write t payload) = some (s.called t payload) := by
  have hcall := MpscQueue.step_push_call (v := s.records.length) hidle
  rw [step_away haway]
  simp only [act,hwriter,writeDebug,hcall,bind,Option.bind]
  rfl

/-- The last access of a write. -/
theorem step_returned {ptr : ℕ} {ok : Bool} {q : MpscQueue.State debugCapacity ι ℕ}
    (haway : s.consumer = .away) (hpc : s.writers t = .enqueueing ptr)
    (hq : MpscQueue.step s.queue (.push t .step) = some q) (hret : q.producers t = .returned ok) :
    step s (.access t false) = some { s with
      queue := q
      writers := Function.update s.writers t .idle
      log := if ok then s.log else s.log ++ [.free ptr] } := by
  rw [step_away haway]
  simp only [act,hpc,enqueueDebug,hq,hret,Bool.false_eq_true,if_false,bind,Option.bind]
  cases ok <;> rfl

/-- The state after `k` writes of `t` in a row. -/
structure Backlog (t : ι) (payload : Payload) (k : ℕ) (s : State ι) : Prop where
  records : s.records = List.replicate k (debugRecord payload)
  queue : MpscQueue.Filling k t s.queue
  writer : s.writers t = .idle
  consumer : s.consumer = .away
  log : s.log = []

theorem start_backlog : Backlog t payload 0 start where
  records := rfl
  queue := MpscQueue.start_filling
  writer := rfl
  consumer := rfl
  log := rfl

def writeAlone (t : ι) (payload : Payload) : List (Action ι) :=
  .write t payload :: (List.replicate 5 (.access t false) ++ [.access t false])

/-- While there is room the next write is accepted. -/
theorem Backlog.next (h : Backlog t payload k s) (hk : k < debugCapacity.n) :
    ∃ s', Transition.run step s (writeAlone t payload) = some s' ∧
      Backlog t payload (k+1) s' := by
  have hpc : (s.called t payload).writers t = .enqueueing s.records.length :=
    Function.update_self ..
  obtain ⟨q,hfive,hgo,hlast⟩ := MpscQueue.run_rest (t := t) (v := s.records.length)
    (h.queue.room hk)
  have hnext := h.queue.next hk s.records.length
  refine ⟨{ s.called t payload with
    queue := MpscQueue.pushed s.queue t s.records.length
    writers := Function.update (s.called t payload).writers t .idle },?_,?_⟩
  · rw [writeAlone,Transition.run_cons,step_write h.consumer h.writer h.queue.producer,
      Option.bind_some]
    refine Transition.run_trans (run_enqueueing hpc h.consumer hfive hgo) ?_
    rw [Transition.run_cons,step_returned (s := { s.called t payload with queue := q }) h.consumer
      hpc hlast (Function.update_self ..)]
    rfl
  · refine ⟨?_,hnext,Function.update_self ..,h.consumer,h.log⟩
    rw [List.replicate_succ',← h.records]
    rfl

theorem run_backlog (t : ι) (payload : Payload) (hk : k ≤ debugCapacity.n) :
    ∃ s : State ι, Transition.run step start
      (List.replicate k (writeAlone t payload)).flatten = some s ∧ Backlog t payload k s := by
  induction k with
  | zero => exact ⟨start,rfl,start_backlog⟩
  | succ k ih =>
    obtain ⟨s,hrun,h⟩ := ih (by omega)
    obtain ⟨s',hnext,h'⟩ := h.next (by omega)
    refine ⟨s',?_,h'⟩
    rw [List.replicate_succ',List.flatten_append,List.flatten_singleton]
    exact Transition.run_trans hrun hnext

/-- With all slots taken the next record is freed by the thread that wrote it. -/
theorem Backlog.refused (h : Backlog t payload debugCapacity.n s) : ∃ s', Transition.run step s
      (.write t payload :: (List.replicate 1 (.access t false) ++ [.access t false])) = some s' ∧
    s'.log = [.free debugCapacity.n] ∧ s'.needsDestroy debugCapacity.n = !payload.isTrivial := by
  obtain ⟨q,q',hload,hgo,hlast,hfalse⟩ := h.queue.refuses (by decide) s.records.length
  have hpc : (s.called t payload).writers t = .enqueueing s.records.length :=
    Function.update_self ..
  have hlength : s.records.length = debugCapacity.n := by rw [h.records,List.length_replicate]
  refine ⟨{ s.called t payload with
    queue := q'
    writers := Function.update (s.called t payload).writers t .idle
    log := s.log ++ [.free s.records.length] },?_,?_,?_⟩
  · rw [Transition.run_cons,step_write h.consumer h.writer h.queue.producer,Option.bind_some]
    refine Transition.run_trans (run_enqueueing hpc h.consumer hload hgo) ?_
    rw [Transition.run_cons,step_returned (s := { s.called t payload with queue := q }) h.consumer
      hpc hlast hfalse]
    rfl
  · rw [h.log,hlength]
    rfl
  · simp [State.needsDestroy,State.called,← hlength,debugRecord]

end Alone

/-- A thread writes a string 4097 times while the drain does not come by. -/
def overfull : List (Action Unit) :=
  (List.replicate debugCapacity.n (writeAlone () ⟨[false]⟩)).flatten ++
    .write () ⟨[false]⟩ :: (List.replicate 1 (.access () false) ++ [.access () false])

/-- The last string is leaked: its record is freed, its destructor has not run. -/
theorem refused_payload_leaks : ∃ s : State Unit, Transition.run step start overfull = some s ∧
    s.needsDestroy debugCapacity.n = true ∧ s.log = [.free debugCapacity.n] ∧ ¬s.DestroysAll := by
  obtain ⟨s,hrun,h⟩ := run_backlog () ⟨[false]⟩ le_rfl
  obtain ⟨s',hrest,hlog,hneeds⟩ := h.refused
  refine ⟨s',Transition.run_trans hrun hrest,hneeds,hlog,fun hall => ?_⟩
  have honce := (hall _ hneeds).once (by rw [hlog]; exact List.mem_singleton_self _)
  rw [hlog] at honce
  cases honce

end DebugRecords
end Marketlib
