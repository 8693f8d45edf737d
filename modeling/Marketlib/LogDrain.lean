import Marketlib.MpscQueue
import Marketlib.SpscQueue

/-! The running logger: any number of threads that write and exit, the thread of
`drain_loop`, and one call of `Drain::stop`. Every atomic access is a step, with the local
code after it. A thread's `LogBuffer` goes by the name of the thread. The tags of a record,
`written` and the fields after it record what happened and are read by no step. -/

namespace Marketlib
namespace LogDrain

variable {ι τ : Type}

/-- `LogBuffer::kCapacity`. -/
def kCapacity : Capacity := ⟨1024,by decide,by decide,by decide⟩

/-- Of the queue of registrations. -/
def registerCapacity : Capacity := ⟨128,by decide,by decide,by decide⟩

/-- Of the queue of debug records: 4096. -/
def debugCapacity : Capacity := ⟨2^12,by decide,by decide,by decide⟩

/-- `LogRecord::kPayloadSize`. -/
def kPayloadSize : ℕ := 192

inductive Path
  | fast
  | debug
  deriving DecidableEq

/-- The types of the arguments of a write, as the dispatch sees them. -/
structure ArgTypes where
  /-- `std::is_trivially_copyable_v` of each decayed type. -/
  triviallyCopyable : List Bool
  /-- `sizeof(Tuple)`. -/
  tupleSize : ℕ

/-- The branch that `Logger::write` takes. -/
def ArgTypes.path (args : ArgTypes) : Path :=
  if args.triviallyCopyable.all id ∧ args.tupleSize ≤ kPayloadSize then .fast else .debug

/-- A record, with the thread that wrote it, how many writes were called before, and its
path. -/
structure Entry (ι τ : Type) where
  thread : ι
  number : ℕ
  path : Path
  record : τ
  deriving DecidableEq

/-- Where a thread is in `write`, or in its exit. -/
inductive WriterPc (σ : Type)
  | idle
  /-- In `try_push` of the queue of registrations. -/
  | registering (entry : σ)
  /-- In `try_push` of its own queue. -/
  | pushing (entry : σ)
  /-- In `try_push` of the debug queue. -/
  | enqueueing (entry : σ)
  /-- In the destructor of its `LogBuffer`. -/
  | destroying
  | exited

/-- The lifetime of a `LogBuffer` ends when its destructor begins. -/
def WriterPc.gone {σ : Type} : WriterPc σ → Bool
  | .destroying => true
  | .exited => true
  | _ => false

/-- Where the draining thread is in `drain_loop`; `final` in the part after the loop. -/
inductive DrainPc (ι σ : Type)
  /-- `g_running.load()`. -/
  | test
  | register (final : Bool)
  /-- In `try_pop` of the queue of registrations. -/
  | registering (final : Bool)
  /-- The buffers of `rest` are next. -/
  | visit (final : Bool) (rest : List ι)
  /-- In `try_pop` of the queue of `buf`. -/
  | popping (final : Bool) (buf : ι) (rest : List ι)
  /-- `format_and_emit` of a record of `buf`. -/
  | emitting (final : Bool) (buf : ι) (rest : List ι) (entry : σ)
  | debug (final : Bool)
  /-- In `try_pop` of the debug queue. -/
  | debugPopping (final : Bool)
  | debugEmitting (final : Bool) (entry : σ)
  | returned
  /-- It has accessed the buffer `buf` after its lifetime; anything may follow. -/
  | dangling (buf : ι)

/-- Where `Drain::stop` is. -/
inductive StopPc
  | idle
  | joining
  | returned
  deriving DecidableEq

structure State (ι τ : Type) where
  gRunning : Bool
  registerQueue : MpscQueue.State registerCapacity ι ι
  debugQueue : MpscQueue.State debugCapacity ι (Entry ι τ)
  /-- The queue of each thread's `t_buf`. -/
  tBuf : ι → SpscQueue.State kCapacity (Entry ι τ)
  tRegistered : ι → Bool
  writers : ι → WriterPc (Entry ι τ)
  /-- `buffers` of `drain_loop`. -/
  buffers : List ι
  drain : DrainPc ι (Entry ι τ)
  stopper : StopPc
  /-- The writes in the order of their calls. -/
  written : List (Entry ι τ)
  /-- The records that `emit` was called with. -/
  emitted : List (Entry ι τ)
  /-- The threads that exited before `Drain::stop` was called. -/
  left : List ι

/-- After `Drain::start`. -/
def start : State ι τ where
  gRunning := true
  registerQueue := MpscQueue.start
  debugQueue := MpscQueue.start
  tBuf := fun _ => SpscQueue.start
  tRegistered := fun _ => false
  writers := fun _ => .idle
  buffers := []
  drain := .test
  stopper := .idle
  written := []
  emitted := []
  left := []

inductive Action (ι τ : Type)
  | write (t : ι) (args : ArgTypes) (record : τ)
  /-- The next access of a write or of a destructor in progress. -/
  | access (t : ι) (spurious : Bool)
  | exit (t : ι)
  | drain
  | stop

section Step

variable [DecidableEq ι]

/-- `queue.try_push(rec)` of the thread's own buffer. -/
def pushRecord (s : State ι τ) (t : ι) (entry : Entry ι τ) : Option (State ι τ) := do
  let b ← SpscQueue.step (s.tBuf t) (.callPush entry)
  some { s with
    tBuf := Function.update s.tBuf t b
    writers := Function.update s.writers t (.pushing entry) }

/-- `write_fast`: `LogBuffer::current` registers the buffer when it is first called. -/
def writeFast (s : State ι τ) (t : ι) (entry : Entry ι τ) : Option (State ι τ) :=
  if s.tRegistered t then pushRecord s t entry
  else do
    let q ← MpscQueue.step s.registerQueue (.push t (.call t))
    some { s with
      registerQueue := q
      writers := Function.update s.writers t (.registering entry) }

/-- `write_debug`. -/
def writeDebug (s : State ι τ) (t : ι) (entry : Entry ι τ) : Option (State ι τ) := do
  let q ← MpscQueue.step s.debugQueue (.push t (.call entry))
  some { s with
    debugQueue := q
    writers := Function.update s.writers t (.enqueueing entry) }

/-- `Logger::write`. -/
def write (s : State ι τ) (t : ι) (args : ArgTypes) (record : τ) : Option (State ι τ) :=
  match s.writers t with
  | .idle =>
    let entry := ⟨t,s.written.length,args.path,record⟩
    let s' := { s with written := s.written ++ [entry] }
    match args.path with
    | .fast => writeFast s' t entry
    | .debug => writeDebug s' t entry
  | _ => none

/-- One access of a `try_push`, whose result is dropped, or of `~SpscQueue`, which pops until
its queue is empty. -/
def access (s : State ι τ) (t : ι) (spurious : Bool) :
    WriterPc (Entry ι τ) → Option (State ι τ)
  | .registering entry => do
    let q ← MpscQueue.step s.registerQueue (.push t (if spurious then .spurious else .step))
    match q.producers t with
    | .returned _ => pushRecord { s with
        registerQueue := q
        tRegistered := Function.update s.tRegistered t true } t entry
    | _ => some { s with registerQueue := q }
  | .pushing _ => do
    let b ← SpscQueue.step (s.tBuf t) .push
    match b.pusher with
    | .returned _ => some { s with
        tBuf := Function.update s.tBuf t b
        writers := Function.update s.writers t .idle }
    | _ => some { s with tBuf := Function.update s.tBuf t b }
  | .enqueueing _ => do
    let q ← MpscQueue.step s.debugQueue (.push t (if spurious then .spurious else .step))
    match q.producers t with
    | .returned _ => some { s with
        debugQueue := q
        writers := Function.update s.writers t .idle }
    | _ => some { s with debugQueue := q }
  | .destroying => do
    let b ← SpscQueue.step (s.tBuf t) .pop
    match b.popper with
    | .returned (some _) => some { s with
        tBuf := Function.update s.tBuf t { b with popper := .loadTail } }
    | .returned none => some { s with
        tBuf := Function.update s.tBuf t b
        writers := Function.update s.writers t .exited }
    | _ => some { s with tBuf := Function.update s.tBuf t b }
  | _ => none

/-- A thread exits between two writes; the destructor of its `LogBuffer`, if it has one,
becomes the consumer of the queue. -/
def exit (s : State ι τ) (t : ι) : Option (State ι τ) :=
  match s.writers t with
  | .idle =>
    let left := if s.gRunning then s.left ++ [t] else s.left
    if s.tRegistered t then some { s with
      tBuf := Function.update s.tBuf t { s.tBuf t with popper := .loadTail }
      writers := Function.update s.writers t .destroying
      left := left }
    else some { s with
      writers := Function.update s.writers t .exited
      left := left }
  | _ => none

/-- `drain_loop`. -/
def drainLoop (s : State ι τ) : DrainPc ι (Entry ι τ) → Option (State ι τ)
  | .test => some { s with drain := .register !s.gRunning }
  | .register final => do
    let q ← MpscQueue.step s.registerQueue (.pop .call)
    some { s with
      registerQueue := q
      drain := .registering final }
  | .registering final => do
    let q ← MpscQueue.step s.registerQueue (.pop .step)
    match q.popper with
    | .returned (some buf) => some { s with
        registerQueue := q
        buffers := s.buffers ++ [buf]
        drain := .register final }
    | .returned none => some { s with
        registerQueue := q
        drain := .visit final s.buffers }
    | _ => some { s with registerQueue := q }
  | .visit final [] => some { s with drain := .debug final }
  | .visit final (buf :: rest) =>
    if (s.writers buf).gone then some { s with drain := .dangling buf }
    else do
      let b ← SpscQueue.step (s.tBuf buf) .callPop
      some { s with
        tBuf := Function.update s.tBuf buf b
        drain := .popping final buf rest }
  | .popping final buf rest =>
    if (s.writers buf).gone then some { s with drain := .dangling buf }
    else do
      let b ← SpscQueue.step (s.tBuf buf) .pop
      match b.popper with
      | .returned (some entry) => some { s with
          tBuf := Function.update s.tBuf buf b
          drain := .emitting final buf rest entry }
      | .returned none => some { s with
          tBuf := Function.update s.tBuf buf b
          drain := .visit final rest }
      | _ => some { s with tBuf := Function.update s.tBuf buf b }
  | .emitting final buf rest entry => some { s with
      drain := .visit final (buf :: rest)
      emitted := s.emitted ++ [entry] }
  | .debug final => do
    let q ← MpscQueue.step s.debugQueue (.pop .call)
    some { s with
      debugQueue := q
      drain := .debugPopping final }
  | .debugPopping final => do
    let q ← MpscQueue.step s.debugQueue (.pop .step)
    match q.popper with
    | .returned (some entry) => some { s with
        debugQueue := q
        drain := .debugEmitting final entry }
    | .returned none => some { s with
        debugQueue := q
        drain := if final then .returned else .test }
    | _ => some { s with debugQueue := q }
  | .debugEmitting final entry => some { s with
      drain := .debug final
      emitted := s.emitted ++ [entry] }
  | .returned => none
  | .dangling _ => none

/-- `Drain::stop`: the store to `g_running`, then the join. -/
def stop (s : State ι τ) : StopPc → Option (State ι τ)
  | .idle => some { s with
      gRunning := false
      stopper := .joining }
  | .joining =>
    match s.drain with
    | .returned => some { s with stopper := .returned }
    | _ => none
  | .returned => none

def step (s : State ι τ) : Action ι τ → Option (State ι τ)
  | .write t args record => write s t args record
  | .access t spurious => access s t spurious (s.writers t)
  | .exit t => exit s t
  | .drain => drainLoop s s.drain
  | .stop => stop s s.stopper

variable {s s' : State ι τ} {t : ι}

theorem write_cases {args : ArgTypes} {record : τ} (h : write s t args record = some s') :
    s.writers t = .idle ∧ ∃ entry : Entry ι τ,
      entry = ⟨t,s.written.length,args.path,record⟩ ∧
      ((∃ b, args.path = .fast ∧ s.tRegistered t = true ∧
        SpscQueue.step (s.tBuf t) (.callPush entry) = some b ∧
        s' = { s with
          written := s.written ++ [entry]
          tBuf := Function.update s.tBuf t b
          writers := Function.update s.writers t (.pushing entry) }) ∨
      (∃ q, args.path = .fast ∧ s.tRegistered t = false ∧
        MpscQueue.step s.registerQueue (.push t (.call t)) = some q ∧
        s' = { s with
          written := s.written ++ [entry]
          registerQueue := q
          writers := Function.update s.writers t (.registering entry) }) ∨
      ∃ q, args.path = .debug ∧ MpscQueue.step s.debugQueue (.push t (.call entry)) = some q ∧
        s' = { s with
          written := s.written ++ [entry]
          debugQueue := q
          writers := Function.update s.writers t (.enqueueing entry) }) := by
  unfold write at h
  split at h
  · next hidle =>
    refine ⟨hidle,_,rfl,?_⟩
    cases hpath : args.path with
    | fast =>
      simp only [hpath,writeFast] at h
      split_ifs at h with hreg
      · obtain ⟨b,hb,hs⟩ := Option.bind_eq_some_iff.mp h
        exact .inl ⟨b,rfl,hreg,hb,(Option.some.inj hs).symm⟩
      · obtain ⟨q,hq,hs⟩ := Option.bind_eq_some_iff.mp h
        exact .inr (.inl ⟨q,rfl,by simpa using hreg,hq,(Option.some.inj hs).symm⟩)
    | debug =>
      simp only [hpath] at h
      obtain ⟨q,hq,hs⟩ := Option.bind_eq_some_iff.mp h
      exact .inr (.inr ⟨q,rfl,hq,(Option.some.inj hs).symm⟩)
  · cases h

/-- What a thread inside a write or its destructor may do. -/
theorem access_cases {spurious : Bool} (h : access s t spurious (s.writers t) = some s') :
    (∃ entry a q, s.writers t = .registering entry ∧ PushAction.value a = none ∧
      MpscQueue.step s.registerQueue (.push t a) = some q ∧
      ((∃ b, SpscQueue.step (s.tBuf t) (.callPush entry) = some b ∧
        s' = { s with
          registerQueue := q
          tRegistered := Function.update s.tRegistered t true
          tBuf := Function.update s.tBuf t b
          writers := Function.update s.writers t (.pushing entry) }) ∨
      s' = { s with registerQueue := q })) ∨
    (∃ entry b, s.writers t = .pushing entry ∧ SpscQueue.step (s.tBuf t) .push = some b ∧
      ((∃ ok, b.pusher = .returned ok ∧ s' = { s with
        tBuf := Function.update s.tBuf t b
        writers := Function.update s.writers t .idle }) ∨
      (∀ ok, b.pusher ≠ .returned ok) ∧ s' = { s with tBuf := Function.update s.tBuf t b })) ∨
    (∃ entry a q, s.writers t = .enqueueing entry ∧ PushAction.value a = none ∧
      MpscQueue.step s.debugQueue (.push t a) = some q ∧
      (s' = { s with
        debugQueue := q
        writers := Function.update s.writers t .idle } ∨
      s' = { s with debugQueue := q })) ∨
    ∃ b pc, s.writers t = .destroying ∧ b.pushes = (s.tBuf t).pushes ∧
      (pc = .destroying ∨ pc = .exited) ∧
      s' = { s with
        tBuf := Function.update s.tBuf t b
        writers := Function.update s.writers t pc } := by
  unfold access at h
  split at h
  · next entry hpc =>
    obtain ⟨q,hq,hs⟩ := Option.bind_eq_some_iff.mp h
    refine .inl ⟨entry,_,q,hpc,by split <;> rfl,hq,?_⟩
    split at hs
    · obtain ⟨b,hb,hs⟩ := Option.bind_eq_some_iff.mp hs
      exact .inl ⟨b,hb,(Option.some.inj hs).symm⟩
    · exact .inr (Option.some.inj hs).symm
  · next entry hpc =>
    obtain ⟨b,hb,hs⟩ := Option.bind_eq_some_iff.mp h
    refine .inr (.inl ⟨entry,b,hpc,hb,?_⟩)
    split at hs
    · next ok hret => exact .inl ⟨ok,hret,(Option.some.inj hs).symm⟩
    · next hret => exact .inr ⟨hret,(Option.some.inj hs).symm⟩
  · next entry hpc =>
    obtain ⟨q,hq,hs⟩ := Option.bind_eq_some_iff.mp h
    refine .inr (.inr (.inl ⟨entry,_,q,hpc,by split <;> rfl,hq,?_⟩))
    split at hs
    · exact .inl (Option.some.inj hs).symm
    · exact .inr (Option.some.inj hs).symm
  · next hpc =>
    obtain ⟨b,hb,hs⟩ := Option.bind_eq_some_iff.mp h
    have hpushes := (SpscQueue.step_pop_value hb).1
    split at hs
    · exact .inr (.inr (.inr ⟨{ b with popper := .loadTail },.destroying,hpc,hpushes,.inl rfl,by
        rw [← hpc,Function.update_eq_self]
        exact (Option.some.inj hs).symm⟩))
    · exact .inr (.inr (.inr ⟨_,.exited,hpc,hpushes,.inr rfl,(Option.some.inj hs).symm⟩))
    · exact .inr (.inr (.inr ⟨b,.destroying,hpc,hpushes,.inl rfl,by
        rw [← hpc,Function.update_eq_self]
        exact (Option.some.inj hs).symm⟩))
  · cases h

theorem exit_cases (h : exit s t = some s') :
    s.writers t = .idle ∧ ∃ pc b, b.pushes = (s.tBuf t).pushes ∧
      (s.tRegistered t = true ∧ pc = .destroying ∨
        s.tRegistered t = false ∧ pc = .exited) ∧
      s' = { s with
        tBuf := Function.update s.tBuf t b
        writers := Function.update s.writers t pc
        left := if s.gRunning then s.left ++ [t] else s.left } := by
  unfold exit at h
  split at h
  · next hidle =>
    simp only at h
    split at h
    · next hreg =>
      exact ⟨hidle,.destroying,{ s.tBuf t with popper := .loadTail },rfl,.inl ⟨hreg,rfl⟩,
        (Option.some.inj h).symm⟩
    · next hreg =>
      refine ⟨hidle,.exited,s.tBuf t,rfl,.inr ⟨by simpa using hreg,rfl⟩,?_⟩
      rw [Function.update_eq_self]
      exact (Option.some.inj h).symm
  · cases h

omit [DecidableEq ι] in
theorem stop_cases (h : stop s s.stopper = some s') :
    (s.stopper = .idle ∧ s' = { s with
      gRunning := false
      stopper := .joining }) ∨
    s.stopper = .joining ∧ s.drain = .returned ∧ s' = { s with stopper := .returned } := by
  unfold stop at h
  split at h
  · next hpc => exact .inl ⟨hpc,(Option.some.inj h).symm⟩
  · next hpc =>
    split at h
    · next hdrain => exact .inr ⟨hpc,hdrain,(Option.some.inj h).symm⟩
    · cases h
  · cases h

/-- What a step of `drain_loop` does. -/
theorem drainLoop_cases (h : drainLoop s s.drain = some s') :
    (s.drain = .test ∧ s' = { s with drain := .register !s.gRunning }) ∨
    (∃ final q, s.drain = .register final ∧
      MpscQueue.step s.registerQueue (.pop .call) = some q ∧
      s' = { s with
        registerQueue := q
        drain := .registering final }) ∨
    (∃ final q, s.drain = .registering final ∧
      MpscQueue.step s.registerQueue (.pop .step) = some q ∧
      ((∃ buf, q.popper = .returned (some buf) ∧ s' = { s with
        registerQueue := q
        buffers := s.buffers ++ [buf]
        drain := .register final }) ∨
      q.popper = .returned none ∧ s' = { s with
        registerQueue := q
        drain := .visit final s.buffers } ∨
      (∀ out, q.popper ≠ .returned out) ∧ s' = { s with registerQueue := q })) ∨
    (∃ final, s.drain = .visit final [] ∧ s' = { s with drain := .debug final }) ∨
    (∃ final buf rest, (s.drain = .visit final (buf :: rest) ∨ s.drain = .popping final buf rest) ∧
      (s.writers buf).gone = true ∧ s' = { s with drain := .dangling buf }) ∨
    (∃ final buf rest b, s.drain = .visit final (buf :: rest) ∧ (s.writers buf).gone = false ∧
      SpscQueue.step (s.tBuf buf) .callPop = some b ∧
      s' = { s with
        tBuf := Function.update s.tBuf buf b
        drain := .popping final buf rest }) ∨
    (∃ final buf rest b, s.drain = .popping final buf rest ∧ (s.writers buf).gone = false ∧
      SpscQueue.step (s.tBuf buf) .pop = some b ∧
      ((∃ entry, b.popper = .returned (some entry) ∧ s' = { s with
        tBuf := Function.update s.tBuf buf b
        drain := .emitting final buf rest entry }) ∨
      b.popper = .returned none ∧ s' = { s with
        tBuf := Function.update s.tBuf buf b
        drain := .visit final rest } ∨
      (∀ out, b.popper ≠ .returned out) ∧ s' = { s with tBuf := Function.update s.tBuf buf b })) ∨
    (∃ final buf rest entry, s.drain = .emitting final buf rest entry ∧
      s' = { s with
        drain := .visit final (buf :: rest)
        emitted := s.emitted ++ [entry] }) ∨
    (∃ final q, s.drain = .debug final ∧ MpscQueue.step s.debugQueue (.pop .call) = some q ∧
      s' = { s with
        debugQueue := q
        drain := .debugPopping final }) ∨
    (∃ final q, s.drain = .debugPopping final ∧
      MpscQueue.step s.debugQueue (.pop .step) = some q ∧
      ((∃ entry, q.popper = .returned (some entry) ∧ s' = { s with
        debugQueue := q
        drain := .debugEmitting final entry }) ∨
      q.popper = .returned none ∧ s' = { s with
        debugQueue := q
        drain := if final then .returned else .test } ∨
      (∀ out, q.popper ≠ .returned out) ∧ s' = { s with debugQueue := q })) ∨
    ∃ final entry, s.drain = .debugEmitting final entry ∧
      s' = { s with
        drain := .debug final
        emitted := s.emitted ++ [entry] } := by
  unfold drainLoop at h
  split at h
  · next hpc => exact .inl ⟨hpc,(Option.some.inj h).symm⟩
  · next final hpc =>
    obtain ⟨q,hq,hs⟩ := Option.bind_eq_some_iff.mp h
    exact .inr (.inl ⟨final,q,hpc,hq,(Option.some.inj hs).symm⟩)
  · next final hpc =>
    obtain ⟨q,hq,hs⟩ := Option.bind_eq_some_iff.mp h
    refine .inr (.inr (.inl ⟨final,q,hpc,hq,?_⟩))
    split at hs
    · next buf hret => exact .inl ⟨buf,hret,(Option.some.inj hs).symm⟩
    · next hret => exact .inr (.inl ⟨hret,(Option.some.inj hs).symm⟩)
    · next hsome hnone =>
      exact .inr (.inr ⟨Option.forall.mpr ⟨hnone,hsome⟩,(Option.some.inj hs).symm⟩)
  · next final hpc => exact .inr (.inr (.inr (.inl ⟨final,hpc,(Option.some.inj h).symm⟩)))
  · next final buf rest hpc =>
    split_ifs at h with hgone
    · exact .inr (.inr (.inr (.inr (.inl
        ⟨final,buf,rest,.inl hpc,hgone,(Option.some.inj h).symm⟩))))
    · obtain ⟨b,hb,hs⟩ := Option.bind_eq_some_iff.mp h
      exact .inr (.inr (.inr (.inr (.inr (.inl
        ⟨final,buf,rest,b,hpc,by simpa using hgone,hb,(Option.some.inj hs).symm⟩)))))
  · next final buf rest hpc =>
    split_ifs at h with hgone
    · exact .inr (.inr (.inr (.inr (.inl
        ⟨final,buf,rest,.inr hpc,hgone,(Option.some.inj h).symm⟩))))
    · obtain ⟨b,hb,hs⟩ := Option.bind_eq_some_iff.mp h
      refine .inr (.inr (.inr (.inr (.inr (.inr (.inl
        ⟨final,buf,rest,b,hpc,by simpa using hgone,hb,?_⟩))))))
      split at hs
      · next entry hret => exact .inl ⟨entry,hret,(Option.some.inj hs).symm⟩
      · next hret => exact .inr (.inl ⟨hret,(Option.some.inj hs).symm⟩)
      · next hsome hnone =>
        exact .inr (.inr ⟨Option.forall.mpr ⟨hnone,hsome⟩,(Option.some.inj hs).symm⟩)
  · next final buf rest entry hpc =>
    exact .inr (.inr (.inr (.inr (.inr (.inr (.inr (.inl
      ⟨final,buf,rest,entry,hpc,(Option.some.inj h).symm⟩)))))))
  · next final hpc =>
    obtain ⟨q,hq,hs⟩ := Option.bind_eq_some_iff.mp h
    exact .inr (.inr (.inr (.inr (.inr (.inr (.inr (.inr (.inl
      ⟨final,q,hpc,hq,(Option.some.inj hs).symm⟩))))))))
  · next final hpc =>
    obtain ⟨q,hq,hs⟩ := Option.bind_eq_some_iff.mp h
    refine .inr (.inr (.inr (.inr (.inr (.inr (.inr (.inr (.inr (.inl ⟨final,q,hpc,hq,?_⟩)))))))))
    split at hs
    · next entry hret => exact .inl ⟨entry,hret,(Option.some.inj hs).symm⟩
    · next hret => exact .inr (.inl ⟨hret,(Option.some.inj hs).symm⟩)
    · next hsome hnone =>
      exact .inr (.inr ⟨Option.forall.mpr ⟨hnone,hsome⟩,(Option.some.inj hs).symm⟩)
  · next final entry hpc =>
    exact .inr (.inr (.inr (.inr (.inr (.inr (.inr (.inr (.inr (.inr
      ⟨final,entry,hpc,(Option.some.inj h).symm⟩)))))))))
  · cases h
  · cases h

/-! ### The shared queues -/

/-- At most one step of a queue. -/
def Moves {cap : Capacity} {σ : Type} (q q' : MpscQueue.State cap ι σ) : Prop :=
  q' = q ∨ ∃ a, MpscQueue.step q a = some q'

theorem Moves.reachable {cap : Capacity} {σ : Type} {q q' : MpscQueue.State cap ι σ}
    (h : Moves q q') (hreach : Transition.Reachable MpscQueue.step MpscQueue.start q) :
    Transition.Reachable MpscQueue.step MpscQueue.start q' := by
  rcases h with rfl | ⟨a,ha⟩
  · exact hreach
  · exact .next hreach trivial ha

theorem step_moves {a : Action ι τ} (h : step s a = some s') :
    Moves s.registerQueue s'.registerQueue ∧ Moves s.debugQueue s'.debugQueue := by
  cases a with
  | write t args record =>
    obtain ⟨-,entry,-,⟨b,-,-,-,rfl⟩ | ⟨q,-,-,hq,rfl⟩ | ⟨q,-,hq,rfl⟩⟩ := write_cases h
    · exact ⟨.inl rfl,.inl rfl⟩
    · exact ⟨.inr ⟨_,hq⟩,.inl rfl⟩
    · exact ⟨.inl rfl,.inr ⟨_,hq⟩⟩
  | access t spurious =>
    rcases access_cases h with ⟨entry,a,q,-,-,hq,⟨b,-,rfl⟩ | rfl⟩ |
      ⟨entry,b,-,-,⟨ok,-,rfl⟩ | ⟨-,rfl⟩⟩ | ⟨entry,a,q,-,-,hq,rfl | rfl⟩ | ⟨b,pc,-,-,-,rfl⟩
    · exact ⟨.inr ⟨_,hq⟩,.inl rfl⟩
    · exact ⟨.inr ⟨_,hq⟩,.inl rfl⟩
    · exact ⟨.inl rfl,.inl rfl⟩
    · exact ⟨.inl rfl,.inl rfl⟩
    · exact ⟨.inl rfl,.inr ⟨_,hq⟩⟩
    · exact ⟨.inl rfl,.inr ⟨_,hq⟩⟩
    · exact ⟨.inl rfl,.inl rfl⟩
  | exit t =>
    obtain ⟨-,pc,b,-,-,rfl⟩ := exit_cases h
    exact ⟨.inl rfl,.inl rfl⟩
  | drain =>
    rcases drainLoop_cases h with ⟨-,rfl⟩ | ⟨_,q,-,hq,rfl⟩ |
      ⟨_,q,-,hq,⟨buf,-,rfl⟩ | ⟨-,rfl⟩ | ⟨-,rfl⟩⟩ | ⟨_,-,rfl⟩ | ⟨_,_,_,-,-,rfl⟩ |
      ⟨_,_,_,_,-,-,-,rfl⟩ |
      ⟨_,_,_,_,-,-,-,⟨_,-,rfl⟩ | ⟨-,rfl⟩ | ⟨-,rfl⟩⟩ | ⟨_,_,_,_,-,rfl⟩ | ⟨_,q,-,hq,rfl⟩ |
      ⟨_,q,-,hq,⟨_,-,rfl⟩ | ⟨-,rfl⟩ | ⟨-,rfl⟩⟩ | ⟨_,_,-,rfl⟩
    · exact ⟨.inl rfl,.inl rfl⟩
    · exact ⟨.inr ⟨_,hq⟩,.inl rfl⟩
    · exact ⟨.inr ⟨_,hq⟩,.inl rfl⟩
    · exact ⟨.inr ⟨_,hq⟩,.inl rfl⟩
    · exact ⟨.inr ⟨_,hq⟩,.inl rfl⟩
    · exact ⟨.inl rfl,.inl rfl⟩
    · exact ⟨.inl rfl,.inl rfl⟩
    · exact ⟨.inl rfl,.inl rfl⟩
    · exact ⟨.inl rfl,.inl rfl⟩
    · exact ⟨.inl rfl,.inl rfl⟩
    · exact ⟨.inl rfl,.inl rfl⟩
    · exact ⟨.inl rfl,.inl rfl⟩
    · exact ⟨.inl rfl,.inr ⟨_,hq⟩⟩
    · exact ⟨.inl rfl,.inr ⟨_,hq⟩⟩
    · exact ⟨.inl rfl,.inr ⟨_,hq⟩⟩
    · exact ⟨.inl rfl,.inr ⟨_,hq⟩⟩
    · exact ⟨.inl rfl,.inl rfl⟩
  | stop =>
    rcases stop_cases h with ⟨-,rfl⟩ | ⟨-,-,rfl⟩
    · exact ⟨.inl rfl,.inl rfl⟩
    · exact ⟨.inl rfl,.inl rfl⟩

end Step

end LogDrain
end Marketlib
