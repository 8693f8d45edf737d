import Marketlib.Feed
import Marketlib.QuietStop

/-! From the wire to the books. Each book is at every moment what the first of the datagrams for
its symbol have made of it that were not refused by a full queue, and when the pool has been
stopped none of them is missing. -/

namespace Marketlib
namespace Feed

open MdDispatch

variable {n : ℕ} {ω β ρ : Type*} [DecidableEq ρ] {ops : BookOps n ω β} {hash : UInt32 → UInt64}

/-! ### Steps -/

omit [DecidableEq ρ] in
/-- What a step of the workers and readers does to the pool. -/
theorem stepWorker_pool {s t : MdDispatch.State n ω β ρ} {w : Fin kNumBookWorkers}
    (hstep : stepWorker ops hash s w = some t) :
    t.pool = s.pool ∨ ThreadPool.step layout hash s.pool (.worker w.val) = some t.pool := by
  have hpool {u : MdDispatch.State n ω β ρ} (hu : stepPool hash s (.worker w.val) = some u) :
      ThreadPool.step layout hash s.pool (.worker w.val) = some u.pool := by
    obtain ⟨pool,hpool,rfl⟩ := Option.map_eq_some_iff.mp hu
    exact hpool
  unfold stepWorker at hstep
  split at hstep
  · next draining x hw =>
    split at hstep
    · obtain rfl := Option.some.inj hstep
      left
      rw [processMarketData]
      dsimp only
      split <;> rfl
    · obtain ⟨u,-,rfl⟩ := Option.map_eq_some_iff.mp hstep
      exact Or.inl rfl
    · cases hstep
    · obtain ⟨u,hu,rfl⟩ := Option.map_eq_some_iff.mp hstep
      have hmoved := hpool hu
      exact Or.inr hmoved
  · exact Or.inr (hpool hstep)

/-- The workers and the readers. -/
def Others : MdDispatch.Action n ω ρ → Prop
  | .worker _ | .write .. | .read .. => True
  | _ => False

theorem others_pool {s t : MdDispatch.State n ω β ρ} {a : MdDispatch.Action n ω ρ}
    (ha : Others a) (hstep : MdDispatch.step ops hash s a = some t) :
    t.pool = s.pool ∨ ∃ i, ThreadPool.step layout hash s.pool (.worker i) = some t.pool := by
  cases a with
  | receive symbolId sequence payload => exact ha.elim
  | push spurious => exact ha.elim
  | worker w => exact (stepWorker_pool hstep).imp id fun h => ⟨w.val,h⟩
  | write w a =>
    simp only [MdDispatch.step,stepWrite] at hstep
    split at hstep
    · obtain ⟨u,-,rfl⟩ := Option.map_eq_some_iff.mp hstep
      exact Or.inl rfl
    · cases hstep
  | read slot r a =>
    obtain ⟨u,-,rfl⟩ := Option.map_eq_some_iff.mp hstep
    exact Or.inl rfl
  | stop => exact ha.elim

/-- What a step does. -/
inductive Effect (ops : BookOps n ω β) (hash : UInt32 → UInt64) (s : State n ω β ρ) :
    State n ω β ρ → Prop
  | loop {t} : t.system = s.system → t.received = s.received →
      (t.receiver = s.receiver ∨ s.receiver ≠ .submitting ∧ s.receiver ≠ .returned ∧
        t.receiver ≠ .submitting) → Effect ops hash s t
  | skip {t datagram} : t.system = s.system → t.received = s.received ++ [datagram] →
      taskOf datagram = none → s.receiver = .receiving → t.receiver = .test → Effect ops hash s t
  | take {t datagram symbolId sequence payload} :
      MdDispatch.step ops hash s.system (.receive symbolId sequence payload) = some t.system →
      t.received = s.received ++ [datagram] →
      taskOf datagram = some (makeTask symbolId sequence payload) →
      s.receiver = .receiving → t.receiver = .submitting → Effect ops hash s t
  | push {t spurious} : MdDispatch.step ops hash s.system (.push spurious) = some t.system →
      t.received = s.received → s.receiver = .submitting →
      (t.receiver ≠ .submitting → t.system.pool.calling () = none) → t.receiver ≠ .returned →
      Effect ops hash s t
  | stop {t} : MdDispatch.step ops hash s.system .stop = some t.system →
      t.received = s.received → s.receiver = .returned → t.receiver = .returned →
      Effect ops hash s t
  | others {t a} : Others a → MdDispatch.step ops hash s.system a = some t.system →
      t.received = s.received → t.receiver = s.receiver → Effect ops hash s t

variable {s t : State n ω β ρ}

theorem within_eq {a : MdDispatch.Action n ω ρ} (h : within ops hash s a = some t) :
    MdDispatch.step ops hash s.system a = some t.system ∧ t.received = s.received ∧
      t.receiver = s.receiver := by
  obtain ⟨system,hsystem,rfl⟩ := Option.map_eq_some_iff.mp h
  exact ⟨hsystem,rfl,rfl⟩

theorem receive_effect {datagram : List UInt8} (hreceiving : s.receiver = .receiving)
    (hstep : receive ops hash s datagram = some t) : Effect ops hash s t := by
  unfold receive at hstep
  dsimp only at hstep
  split_ifs at hstep with hshort
  · obtain rfl := Option.some.inj hstep
    exact .skip rfl rfl (taskOf_short hshort) hreceiving rfl
  · obtain ⟨u,hu,rfl⟩ := Option.map_eq_some_iff.mp hstep
    obtain ⟨hsystem,hreceived,-⟩ := within_eq hu
    refine .take hsystem hreceived ?_ hreceiving rfl
    have hheader := readBuf_recv s.buf datagram 0 headerSize (by omega)
    have hpayload := readBuf_recv s.buf datagram headerSize
      (min datagram.length kMaxDatagram-headerSize) (by omega)
    have hrest : LittleEndian.field (datagram.take kMaxDatagram) headerSize
        (min datagram.length kMaxDatagram-headerSize) =
        (datagram.take kMaxDatagram).drop headerSize := by
      rw [LittleEndian.field,List.take_of_length_le]
      rw [List.length_drop,List.length_take,min_comm]
    rw [taskOf_long hshort,hheader,hpayload,header_take,hrest]

theorem step_effect {a : Action n ω ρ} (hstep : step ops hash s a = some t) :
    Effect ops hash s t := by
  have hothers {b : MdDispatch.Action n ω ρ} (hb : Others b)
      (h : within ops hash s b = some t) : Effect ops hash s t := by
    obtain ⟨hsystem,hreceived,hreceiver⟩ := within_eq h
    exact .others hb hsystem hreceived hreceiver
  cases a with
  | requestStop =>
    obtain rfl := Option.some.inj hstep
    exact .loop rfl rfl (Or.inl rfl)
  | test =>
    simp only [step] at hstep
    split at hstep
    · next htest =>
      obtain rfl := Option.some.inj hstep
      refine .loop rfl rfl (Or.inr ⟨by rw [htest]; nofun,by rw [htest]; nofun,?_⟩)
      dsimp only
      split_ifs <;> nofun
    · cases hstep
  | recv datagram =>
    simp only [step] at hstep
    split at hstep
    · next hreceiving =>
      obtain rfl := Option.some.inj hstep
      exact .loop rfl rfl (Or.inr ⟨by rw [hreceiving]; nofun,by rw [hreceiving]; nofun,nofun⟩)
    · next hreceiving => exact receive_effect hreceiving hstep
    · cases hstep
  | push spurious =>
    simp only [step] at hstep
    split at hstep
    · next hsubmitting =>
      obtain ⟨u,hu,rfl⟩ := Option.map_eq_some_iff.mp hstep
      obtain ⟨hsystem,hreceived,-⟩ := within_eq hu
      refine .push hsystem hreceived hsubmitting (fun hne => ?_) ?_
      · by_contra hcalling
        exact hne (if_pos (Option.isSome_iff_ne_none.mpr hcalling))
      · dsimp only
        split_ifs <;> nofun
    · cases hstep
  | stop =>
    simp only [step] at hstep
    split at hstep
    · next hreturned =>
      obtain ⟨hsystem,hreceived,hreceiver⟩ := within_eq hstep
      exact .stop hsystem hreceived hreturned (hreceiver.trans hreturned)
    · cases hstep
  | worker w => exact hothers (by trivial) hstep
  | write w a => exact hothers (by trivial) hstep
  | read slot r a => exact hothers (by trivial) hstep

/-! ### What is submitted -/

/-- The receiver and the pool agree: each whole datagram is submitted, one at a time, and `stop`
is called when the receiver has returned. -/
structure Delivers (ops : BookOps n ω β) (hash : UInt32 → UInt64) [Zero ω] (s : State n ω β ρ) :
    Prop where
  system : Transition.Reachable (MdDispatch.step ops hash) (MdDispatch.start ops hash) s.system
  pool : Transition.ReachableBy (ThreadPool.step layout hash) (ThreadPool.Quiet layout)
    ThreadPool.start s.system.pool
  submitted : s.system.pool.submitted.map ThreadPool.Submission.task =
    s.received.filterMap taskOf
  idle : s.receiver ≠ .submitting → s.system.pool.calling () = none
  stopping : s.system.pool.stopper ≠ .idle → s.receiver = .returned

variable [Zero ω]

theorem start_delivers : Delivers ops hash (start ops hash : State n ω β ρ) where
  system := .start
  pool := .start
  submitted := rfl
  idle := fun _ => rfl
  stopping := fun h => absurd rfl h

/-- What was accepted went to a worker of the pool. -/
theorem Delivers.registered (h : Delivers ops hash s) :
    ∀ x ∈ s.system.pool.accepted, x.worker.val < layout.numWorkers := by
  intro x hx
  have hinv := MdDispatch.reachable_inv h.system
  have hbooks := ThreadPool.reachable_books hinv.pool
  obtain ⟨hsubmitted,-⟩ := hbooks.accepted x hx
  obtain ⟨rr,htarget⟩ := hbooks.target x hsubmitted
  rw [hinv.routes x hsubmitted] at htarget
  rw [ThreadPool.target_byKey htarget]
  exact Nat.mod_lt _ layout_pos

theorem Delivers.others (h : Delivers ops hash s) {a : MdDispatch.Action n ω ρ} (ha : Others a)
    (hsystem : MdDispatch.step ops hash s.system a = some t.system)
    (hreceived : t.received = s.received) (hreceiver : t.receiver = s.receiver) :
    Delivers ops hash t := by
  have hnext := h.system.next trivial hsystem
  rcases others_pool ha hsystem with hpool | ⟨i,hpool⟩
  · refine ⟨hnext,?_,?_,?_,?_⟩ <;> rw [hpool]
    · exact h.pool
    · rw [hreceived]
      exact h.submitted
    · rw [hreceiver]
      exact h.idle
    · rw [hreceiver]
      exact h.stopping
  · obtain ⟨hsubmitted,hcalling,hstopper⟩ := ThreadPool.worker_steady hpool
    have hquiet : ThreadPool.Quiet layout s.system.pool (.worker i) := trivial
    refine ⟨hnext,h.pool.next hquiet hpool,?_,?_,?_⟩
    · rw [hsubmitted,hreceived]
      exact h.submitted
    · rw [hreceiver,hcalling]
      exact h.idle
    · rw [hreceiver,hstopper]
      exact h.stopping

theorem step_delivers (h : Delivers ops hash s) {a : Action n ω ρ}
    (hstep : step ops hash s a = some t) : Delivers ops hash t := by
  cases step_effect hstep with
  | loop hsystem hreceived hreceiver =>
    refine ⟨?_,?_,?_,?_,?_⟩ <;> rw [hsystem]
    · exact h.system
    · exact h.pool
    · rw [hreceived]
      exact h.submitted
    · rcases hreceiver with heq | ⟨hne,-,-⟩
      · rw [heq]
        exact h.idle
      · exact fun _ => h.idle hne
    · rcases hreceiver with heq | ⟨-,hne,-⟩
      · rw [heq]
        exact h.stopping
      · exact fun hstopper => absurd (h.stopping hstopper) hne
  | skip hsystem hreceived hnone hreceiving htest =>
    refine ⟨?_,?_,?_,?_,?_⟩ <;> rw [hsystem]
    · exact h.system
    · exact h.pool
    · rw [hreceived,List.filterMap_append,← h.submitted]
      simp [hnone]
    · exact fun _ => h.idle (by rw [hreceiving]; nofun)
    · intro hstopper
      have hreturned := h.stopping hstopper
      rw [hreceiving] at hreturned
      cases hreturned
  | take hsystem hreceived hsome hreceiving hsubmitting =>
    have hidle : s.system.pool.stopper = .idle := by
      by_contra hstopper
      have hreturned := h.stopping hstopper
      rw [hreceiving] at hreturned
      cases hreturned
    obtain ⟨pool,hpool,heq⟩ := Option.map_eq_some_iff.mp hsystem
    refine ⟨h.system.next trivial hsystem,?_,?_,fun hne => absurd hsubmitting hne,?_⟩ <;> rw [← heq]
    · exact h.pool.next (a := .submit ..) hidle hpool
    · obtain ⟨w,q,rr,-,-,-,rfl⟩ := ThreadPool.submit_cases hpool
      rw [hreceived,List.filterMap_append,← h.submitted,List.map_append]
      simp [hsome]
    · intro hstopper
      rw [(ThreadPool.submit_steady hpool).stopper] at hstopper
      exact absurd hidle hstopper
  | push hsystem hreceived hsubmitting hcalling hreturned =>
    obtain ⟨pool,hpool,heq⟩ := Option.map_eq_some_iff.mp hsystem
    refine ⟨h.system.next trivial hsystem,?_,?_,hcalling,?_⟩ <;> rw [← heq]
    · exact h.pool.next (a := .push ..) trivial hpool
    · rw [ThreadPool.step_submitted hpool nofun,hreceived]
      exact h.submitted
    · intro hstopper
      rw [(ThreadPool.push_steady hpool).stopper] at hstopper
      have hreceiver := h.stopping hstopper
      rw [hsubmitting] at hreceiver
      cases hreceiver
  | stop hsystem hreceived hreturned hreturned' =>
    have hcalling := h.idle (by rw [hreturned]; nofun)
    obtain ⟨pool,hpool,heq⟩ := Option.map_eq_some_iff.mp hsystem
    refine ⟨h.system.next trivial hsystem,?_,?_,fun _ => ?_,fun _ => hreturned'⟩ <;> rw [← heq]
    · exact h.pool.next (a := .stop) (fun _ => ⟨fun _ => hcalling,h.registered⟩) hpool
    · rw [ThreadPool.step_submitted hpool nofun,hreceived]
      exact h.submitted
    · rw [ThreadPool.stop_calling hpool]
      exact hcalling
  | others ha hsystem hreceived hreceiver => exact h.others ha hsystem hreceived hreceiver

theorem reachable_delivers (h : Transition.Reachable (step ops hash) (start ops hash) s) :
    Delivers ops hash s :=
  Transition.ReachableBy.invariant start_delivers (fun _ _ _ hs _ hstep => step_delivers hs hstep) h

/-! ### What is handled -/

/-- Past its first line, where it looks up the book. -/
def past : Handler n ω → Bool
  | .called => false
  | _ => true

omit [Zero ω] in
theorem past_resume (slot : Fin kMaxSymbols) (pc : SeqLock.Writer n ω) :
    past (Handler.resume slot pc) = true := by
  cases pc <;> rfl

/-- The task that a worker has applied and not finished. -/
def applied (s : MdDispatch.State n ω β ρ) (w : Fin kNumBookWorkers) : List Submission :=
  if past (s.handlers w) then (s.pool.workers w).current else []

/-- The calls of `process_market_data` are those of the pool's handlers. -/
structure Recorded (hash : UInt32 → UInt64) (s : MdDispatch.State n ω β ρ) : Prop where
  calls : ∀ w, (s.handled.filter fun call => call.1 = w).map Prod.snd =
    (s.pool.handled w ++ applied s w).map ThreadPool.Submission.task
  own : ∀ call ∈ s.handled, workerForKey hash call.2.symbolId = call.1

omit [DecidableEq ρ] in
theorem start_recorded : Recorded hash (MdDispatch.start ops hash : MdDispatch.State n ω β ρ) :=
  ⟨fun _ => rfl,nofun⟩

variable {s t : MdDispatch.State n ω β ρ}

omit [DecidableEq ρ] [Zero ω] in
/-- A step of the pool that is none of a worker in its handler. -/
theorem handled_of_idle {b : ThreadPool.Action Unit UInt32 MarketDataTask} {pool : Pool}
    (hstep : ThreadPool.step layout hash s.pool b = some pool)
    (hidle : ∀ w draining x, s.pool.workers w = .handling draining x → b ≠ .worker w.val) :
    pool.handled = s.pool.handled := by
  cases b with
  | submit t route task => exact (ThreadPool.submit_steady hstep).handled
  | push t spurious => exact (ThreadPool.push_steady hstep).handled
  | worker i =>
    simp only [ThreadPool.step] at hstep
    split_ifs at hstep with hi
    rcases ThreadPool.workerLoop_cases hstep with ⟨-,-,rfl⟩ | ⟨_,_,-,-,rfl⟩ |
      ⟨_,_,-,-,⟨_,-,rfl⟩ | ⟨-,rfl⟩ | ⟨-,rfl⟩⟩ | ⟨draining,x,hw,-⟩
    · rfl
    · rfl
    · rfl
    · rfl
    · rfl
    · exact absurd rfl (hidle _ draining x hw)
  | stop =>
    rcases ThreadPool.stop_cases hstep with ⟨_,-,-,rfl⟩ | ⟨_,-,-,rfl⟩ | ⟨_,-,-,-,rfl⟩ |
      ⟨_,-,-,rfl⟩ | ⟨-,-,rfl⟩ | ⟨-,-,rfl⟩ <;> rfl

theorem Recorded.pool (h : Recorded hash s) (hinv : MdDispatch.Inv ops hash s)
    {b : ThreadPool.Action Unit UInt32 MarketDataTask} {pool : Pool}
    (hstep : ThreadPool.step layout hash s.pool b = some pool)
    (hidle : ∀ w draining x, s.pool.workers w = .handling draining x → b ≠ .worker w.val) :
    Recorded hash { s with pool } := by
  refine ⟨fun w => ?_,h.own⟩
  have hsame : applied { s with pool } w = applied s w := by
    unfold applied
    split_ifs with hpast
    · have hworker : b ≠ .worker w.val := by
        by_contra heq
        have hcalled := hinv.running.called w fun draining x hw => hidle w draining x hw heq
        rw [hcalled] at hpast
        cases hpast
      rw [ThreadPool.step_workers hstep hworker]
    · rfl
  rw [h.calls,hsame,handled_of_idle hstep hidle]

omit [DecidableEq ρ] [Zero ω] in
/-- A handler goes on. -/
theorem Recorded.moves (h : Recorded hash s) {w : Fin kNumBookWorkers} {next : Handler n ω}
    (hpast : past next = past (s.handlers w)) (hpool : t.pool = s.pool)
    (hhandled : t.handled = s.handled)
    (hhandlers : t.handlers = Function.update s.handlers w next) :
    Recorded hash t := by
  refine ⟨fun v => ?_,hhandled ▸ h.own⟩
  have hsame : applied t v = applied s v := by
    rw [applied,applied,hhandlers,hpool,ThreadPool.update_unseen past hpast]
  rw [hhandled,h.calls,hsame,hpool]

omit [DecidableEq ρ] [Zero ω] in
theorem processMarketData_moves (s : MdDispatch.State n ω β ρ) (w : Fin kNumBookWorkers)
    (task : MarketDataTask) : ∃ next, past next = true ∧
      (processMarketData ops s w task).handlers = Function.update s.handlers w next ∧
      (processMarketData ops s w task).pool = s.pool ∧
      (processMarketData ops s w task).handled = s.handled ++ [(w,task)] := by
  cases hbook : s.books w task.symbolId with
  | none =>
    rw [processMarketData_none hbook]
    exact ⟨_,rfl,rfl,rfl,rfl⟩
  | some book =>
    rw [processMarketData_some hbook]
    exact ⟨_,rfl,rfl,rfl,rfl⟩

theorem Recorded.process (h : Recorded hash s) (hinv : MdDispatch.Inv ops hash s)
    {w : Fin kNumBookWorkers} {draining : Bool} {x : Submission}
    (hw : s.pool.workers w = .handling draining x) (hcalled : s.handlers w = .called) :
    Recorded hash (processMarketData ops s w x.task) := by
  obtain ⟨next,hpast,hhandlers,hpool,hhandled⟩ := processMarketData_moves s w x.task
  constructor
  · intro v
    have hcalls := h.calls v
    rw [hhandled,hpool,applied,hhandlers,hpool,List.filter_append,List.map_append,hcalls]
    rcases eq_or_ne v w with rfl | hne
    · have hfirst : past (Handler.called : Handler n ω) = false := rfl
      simp [applied,hcalled,hfirst,hpast,hw,ThreadPool.WorkerPc.current]
    · simp [applied,Function.update_of_ne hne,hne.symm]
  · rw [hhandled]
    intro call hcall
    rcases List.mem_append.mp hcall with hcall | hcall
    · exact h.own call hcall
    · rw [List.mem_singleton.mp hcall]
      exact hinv.handling hw

omit [DecidableEq ρ] [Zero ω] in
theorem Recorded.finish (h : Recorded hash s) {w : Fin kNumBookWorkers} {draining : Bool}
    {x : Submission} {pool : Pool} (hw : s.pool.workers w = .handling draining x)
    (hreturning : s.handlers w = .returning)
    (hstep : ThreadPool.step layout hash s.pool (.worker w.val) = some pool) :
    Recorded hash { s with
      pool
      handlers := Function.update s.handlers w .called } := by
  have hpool : pool = { s.pool with
      workers := Function.update s.pool.workers w (if draining then .drain else .test)
      handled := Function.update s.pool.handled w (s.pool.handled w ++ [x]) } := by
    simp only [ThreadPool.step] at hstep
    split_ifs at hstep with hlt
    simp only [Fin.eta,hw,ThreadPool.workerLoop,Option.some.injEq] at hstep
    exact hstep.symm
  subst hpool
  refine ⟨fun v => ?_,h.own⟩
  have hcalls := h.calls v
  have hfirst : past (Handler.called : Handler n ω) = false := rfl
  have hlast : past (Handler.returning : Handler n ω) = true := rfl
  rcases eq_or_ne v w with rfl | hne
  · simpa [applied,hreturning,hfirst,hlast,hw,ThreadPool.WorkerPc.current] using hcalls
  · simpa [applied,Function.update_of_ne hne] using hcalls

theorem effect_recorded (h : Recorded hash s) (hinv : MdDispatch.Inv ops hash s)
    {actor : Option (Fin kNumBookWorkers)} (heffect : MdDispatch.Effect ops hash s actor t) :
    Recorded hash t := by
  cases heffect with
  | pool hstep hidle _ => exact h.pool hinv hstep hidle
  | @process w draining x hw hcalled => exact h.process hinv hw hcalled
  | @publish w slot snap u hpublish hstep =>
    exact h.moves (by rw [hpublish,past_resume]; rfl) rfl rfl rfl
  | @access w slot pc b u hwriting hstep =>
    exact h.moves (by rw [hwriting,past_resume]; rfl) rfl rfl rfl
  | @finish w draining x pool hw hreturning hstep => exact h.finish hw hreturning hstep
  | read hstep => exact ⟨h.calls,h.own⟩

theorem reachable_recorded
    (h : Transition.Reachable (MdDispatch.step ops hash) (MdDispatch.start ops hash) s) :
    Recorded hash s := by
  refine (Transition.ReachableBy.invariant
    (P := fun s => MdDispatch.Inv ops hash s ∧ Recorded hash s) ⟨start_inv,start_recorded⟩ ?_ h).2
  intro s a t ⟨hinv,hs⟩ _ hstep
  have heffect := MdDispatch.step_effect hstep
  exact ⟨heffect.inv hinv,effect_recorded hs hinv heffect⟩

omit [DecidableEq ρ] [Zero ω] in
theorem messages_eq (h : Recorded hash s) (sym : UInt32) : messages s sym =
    ((s.pool.handled (workerForKey hash sym) ++ applied s (workerForKey hash sym)).map
      ThreadPool.Submission.task).filter fun task => task.symbolId = sym := by
  rw [← h.calls,messages,List.filter_map,List.filter_map,List.filter_filter]
  congr 1
  refine List.filter_congr fun call hcall => ?_
  by_cases hsym : call.2.symbolId = sym
  · simp [hsym,← h.own call hcall]
  · simp [hsym]

/-! ### One packet -/

section Once

/-- The start, with the books of the workers worked out. -/
def seeded : State 2 ℕ ℕ Unit where
  receiver := .test
  stopRequested := false
  buf := fun _ => 0
  system := { (MdDispatch.start countOps spread : MdDispatch.State 2 ℕ ℕ Unit) with
    books := fun w sym =>
      if sym.toNat < kMaxSymbols ∧ workerForKey spread sym = w then some 0 else none }
  received := []

theorem start_seeded : start countOps spread = seeded := by
  have hbooks : (seed countOps spread : Fin kNumBookWorkers → UInt32 → Option ℕ) =
      seeded.system.books := by
    funext w sym
    exact seed_eq w sym
  rw [start,MdDispatch.start,hbooks]
  rfl

/-- A cancellation for symbol 4, and a byte behind it. -/
def packet : Packet := ⟨⟨1,4,0,0⟩,.cancel 7,[9]⟩

/-- A short datagram, a failed `recv` and the packet; then the receiver is stopped, and the
pool. -/
def once : List (Action 2 ℕ Unit) :=
  [.test,.recv (some [1,2,3]),.test,.recv none,.test,.recv (some packet.encode)] ++
    (List.replicate 6 (.push false) ++ (List.replicate 9 (.worker firstWorker) ++
      ([.write firstWorker (.storeOdd (List.finRange 2)),.write firstWorker .copyWord,
        .write firstWorker .copyWord,.write firstWorker .storeEven,.worker firstWorker] ++
        (.requestStop :: .test :: (List.replicate 6 .stop ++
          ((List.finRange 4).flatMap (fun w => List.replicate 4 (.worker w)) ++
            List.replicate 5 .stop))))))

theorem exists_run_once : ∃ s : State 2 ℕ ℕ Unit,
    Transition.run (step countOps spread) (start countOps spread) once = some s ∧
      (∀ w, (s.system.pool.queues w).mem.pushes.length ≤ 2^64) ∧
      s.system.pool.stopper = .returned ∧ s.system.pool.rejected = [] ∧
      s.received = [[1,2,3],packet.encode] := by
  rw [start_seeded]
  have hend : (Transition.run (step countOps spread) seeded once).any (fun s =>
      decide (∀ w, (s.system.pool.queues w).mem.pushes.length ≤ 2^64) &&
      decide (s.system.pool.stopper = .returned) && s.system.pool.rejected.isEmpty &&
      decide (s.received = [[1,2,3],packet.encode])) = true := by
    decide +kernel
  obtain ⟨s,hrun,hs⟩ := Option.any_eq_true _ _ |>.mp hend
  simp only [Bool.and_eq_true,decide_eq_true_eq,List.isEmpty_iff] at hs
  exact ⟨s,hrun,hs.1.1.1,hs.1.1.2,hs.1.2,hs.2⟩

end Once

/-! ### Every run -/

/-- The tasks of the datagrams that no full queue has refused. -/
def keptTasks (s : State n ω β ρ) : List MarketDataTask :=
  s.system.pool.kept.map ThreadPool.Submission.task

/-- What has become of the datagrams so far. -/
structure Delivered (ops : BookOps n ω β) (hash : UInt32 → UInt64) (s : State n ω β ρ) : Prop where
  submitted : s.system.pool.submitted.map ThreadPool.Submission.task =
    s.received.filterMap taskOf
  kept : s.system.pool.kept.Sublist s.system.pool.submitted
  reported : ∀ x ∈ s.system.pool.submitted,
    x ∈ s.system.pool.kept ∨ x ∈ s.system.pool.rejected
  in_order : ∀ sym, messages s.system sym <+: (keptTasks s).filter fun task => task.symbolId = sym
  books : ∀ sym, sym.toNat < kMaxSymbols → s.system.books (workerForKey hash sym) sym =
    some (bookAfter ops sym (messages s.system sym))

section Runs

variable {s : State n ω β ρ}

/-- What a worker has applied begins what was kept for it. -/
theorem Delivers.applied_prefix (h : Delivers ops hash s) {w : Fin kNumBookWorkers}
    (hb : (s.system.pool.queues w).mem.pushes.length ≤ 2^64) :
    s.system.pool.handled w ++ applied s.system w <+:
      s.system.pool.kept.filter fun x => x.worker = w := by
  have hinv := MdDispatch.reachable_inv h.system
  refine List.IsPrefix.trans ?_ (ThreadPool.begun_prefix hinv.pool hb)
  rw [(ThreadPool.reachable_books hinv.pool).handled w,applied]
  split_ifs
  · exact List.prefix_rfl
  · rw [List.append_nil]
    exact List.prefix_append ..

/-- The tasks of a symbol are all kept for its worker. -/
theorem Delivers.filter_kept (h : Delivers ops hash s) (sym : UInt32) :
    ((s.system.pool.kept.filter fun x => x.worker = workerForKey hash sym).map
      ThreadPool.Submission.task).filter (fun task => task.symbolId = sym) =
    (keptTasks s).filter fun task => task.symbolId = sym := by
  have hinv := MdDispatch.reachable_inv h.system
  have hbooks := ThreadPool.reachable_books hinv.pool
  rw [keptTasks,List.filter_map,List.filter_map,List.filter_filter]
  congr 1
  refine List.filter_congr fun x hx => ?_
  have hx' := (ThreadPool.kept_sublist hinv.pool).subset hx
  obtain ⟨rr,htarget⟩ := hbooks.target x hx'
  rw [hinv.routes x hx'] at htarget
  by_cases hsym : x.task.symbolId = sym
  · have hworker : x.worker = workerForKey hash sym := by
      rw [← hsym]
      exact Fin.ext (ThreadPool.target_byKey htarget)
    simp [hsym,hworker]
  · simp [hsym]

/-- What was not kept was reported as refused. -/
theorem Delivers.reported (h : Delivers ops hash s) :
    ∀ x ∈ s.system.pool.submitted, x ∈ s.system.pool.kept ∨ x ∈ s.system.pool.rejected := by
  intro x hx
  by_cases hrejected : x ∈ s.system.pool.rejected
  · exact Or.inr hrejected
  · have hinv := MdDispatch.reachable_inv h.system
    exact Or.inl ((ThreadPool.reachable_books hinv.pool).mem_kept hx hrejected)

/-- In every run with up to `2^64` claims on each queue the handled messages of a symbol are the
first of its datagrams that were not refused, in the order of their arrival, and its book is what
they have made of an empty one. -/
theorem run_feeds_books {as : List (Action n ω ρ)}
    (hrun : Transition.run (step ops hash) (start ops hash) as = some s)
    (hb : ∀ w, (s.system.pool.queues w).mem.pushes.length ≤ 2^64) : Delivered ops hash s := by
  have h := reachable_delivers (Transition.Reachable.run .start hrun)
  have hinv := MdDispatch.reachable_inv h.system
  exact {
    submitted := h.submitted
    kept := ThreadPool.kept_sublist hinv.pool
    reported := h.reported
    in_order := fun sym => by
      rw [messages_eq (reachable_recorded h.system),← h.filter_kept]
      exact ((h.applied_prefix (hb _)).map _).filter _
    books := fun sym hsym => by
      rw [hinv.books,if_pos ⟨hsym,rfl⟩] }

theorem run_feeds_books_once : ∃ s : State 2 ℕ ℕ Unit,
    Transition.run (step countOps spread) (start countOps spread) once = some s ∧
      Delivered countOps spread s := by
  obtain ⟨s,hrun,hb,-⟩ := exists_run_once
  exact ⟨s,hrun,run_feeds_books hrun hb⟩

/-- What is left when the pool has been stopped: the datagrams were submitted in the order of
their arrival, each worker has handled those that were kept for it, the handled messages of each
symbol are all of its datagrams that were not refused, and its book and its slot of the table show
them all. -/
structure Completed (ops : BookOps n ω β) (hash : UInt32 → UInt64) (s : State n ω β ρ) : Prop where
  submitted : s.system.pool.submitted.map ThreadPool.Submission.task =
    s.received.filterMap taskOf
  kept : s.system.pool.kept.Sublist s.system.pool.submitted
  reported : ∀ x ∈ s.system.pool.submitted,
    x ∈ s.system.pool.kept ∨ x ∈ s.system.pool.rejected
  calls : ∀ w, (s.system.handled.filter fun call => call.1 = w).map Prod.snd =
    (s.system.pool.kept.filter fun x => x.worker = w).map ThreadPool.Submission.task
  own : ∀ call ∈ s.system.handled, workerForKey hash call.2.symbolId = call.1
  handled : ∀ sym, messages s.system sym = (keptTasks s).filter fun task => task.symbolId = sym
  books : ∀ sym, sym.toNat < kMaxSymbols → s.system.books (workerForKey hash sym) sym =
    some (bookAfter ops sym ((keptTasks s).filter fun task => task.symbolId = sym))
  table : ∀ i, ((keptTasks s).filter fun task => task.symbolId = symbolOf i).length < 2^63 →
    (s.system.table i).payload =
      published ops (symbolOf i) ((keptTasks s).filter fun task => task.symbolId = symbolOf i)

/-- When `stop` has returned no worker is in its handler. -/
theorem Delivers.workers_exited (h : Delivers ops hash s)
    (hb : ∀ w, (s.system.pool.queues w).mem.pushes.length ≤ 2^64)
    (hreturned : s.system.pool.stopper = .returned) (w : Fin kNumBookWorkers) :
    s.system.pool.workers w = .exited := by
  refine (ThreadPool.quiet_shutdown h.pool hb).1.joined w ?_
  rw [hreturned]
  exact w.isLt

/-- When `stop` has returned a worker has handled all that was kept for it. -/
theorem Delivers.applied_all (h : Delivers ops hash s)
    (hb : ∀ w, (s.system.pool.queues w).mem.pushes.length ≤ 2^64)
    (hreturned : s.system.pool.stopper = .returned) (w : Fin kNumBookWorkers) :
    s.system.pool.handled w ++ applied s.system w =
      s.system.pool.kept.filter fun x => x.worker = w := by
  have hinv := MdDispatch.reachable_inv h.system
  have hbooks := ThreadPool.reachable_books hinv.pool
  have hcalling : s.system.pool.calling () = none := by
    refine h.idle ?_
    rw [h.stopping (by rw [hreturned]; nofun)]
    nofun
  have hnodup : (s.system.pool.kept.filter fun x => x.worker = w).Nodup :=
    (hbooks.nodup.sublist (ThreadPool.kept_sublist hinv.pool)).filter _
  have hsubset : (s.system.pool.kept.filter fun x => x.worker = w) ⊆
      s.system.pool.handled w ++ applied s.system w := by
    intro x hx
    obtain ⟨hkept,hworker⟩ := List.mem_filter.mp hx
    rw [ThreadPool.State.kept,hcalling,Option.toList_none,List.append_nil] at hkept
    have hhandled := ThreadPool.quiet_handled h.pool hb hreturned hkept
    rw [of_decide_eq_true hworker] at hhandled
    exact List.mem_append_left _ hhandled
  exact (h.applied_prefix (hb w)).eq_of_length_le
    (List.Nodup.length_le_of_subset hnodup hsubset)

/-- When `stop` has returned the slot of a symbol shows its whole history. -/
theorem Delivers.table (h : Delivers ops hash s)
    (hb : ∀ w, (s.system.pool.queues w).mem.pushes.length ≤ 2^64)
    (hreturned : s.system.pool.stopper = .returned) (i : Fin kMaxSymbols)
    (hlength : (messages s.system (symbolOf i)).length < 2^63) :
    (s.system.table i).payload =
      published ops (symbolOf i) (messages s.system (symbolOf i)) := by
  have hinv := MdDispatch.reachable_inv h.system
  have hcalled : s.system.handlers (owner hash i) = .called := by
    refine hinv.running.called _ fun draining x hw => ?_
    rw [h.workers_exited hb hreturned] at hw
    cases hw
  have hhistory : (s.system.table i).written ++ [] =
      snapshots ops (symbolOf i) (messages s.system (symbolOf i)) := by
    rw [← hinv.history,hcalled]
    rfl
  have hwritten : (s.system.table i).written.length =
      (messages s.system (symbolOf i)).length := by
    rw [List.append_nil] at hhistory
    rw [hhistory,snapshots_length]
  have hwriter : (s.system.table i).writer = .idle := by
    rw [hinv.writer,hcalled]
    rfl
  have hlock := (SeqLock.reachable_inv (hinv.table i) (hwritten ▸ hlength)).writer
  rw [SeqLock.WriterOk,hwriter] at hlock
  rw [hlock.2,(hinv.version_eq le_rfl).2,hwritten,List.take_length]

theorem Delivers.completed (h : Delivers ops hash s)
    (hb : ∀ w, (s.system.pool.queues w).mem.pushes.length ≤ 2^64)
    (hreturned : s.system.pool.stopper = .returned) : Completed ops hash s := by
  have hinv := MdDispatch.reachable_inv h.system
  have hrecorded := reachable_recorded h.system
  have hhandled : ∀ sym, messages s.system sym =
      (keptTasks s).filter fun task => task.symbolId = sym := by
    intro sym
    rw [messages_eq hrecorded,h.applied_all hb hreturned,h.filter_kept]
  exact {
    submitted := h.submitted
    kept := ThreadPool.kept_sublist hinv.pool
    reported := h.reported
    calls := fun w => by
      rw [hrecorded.calls,h.applied_all hb hreturned]
    own := hrecorded.own
    handled := hhandled
    books := fun sym hsym => by
      rw [hinv.books,if_pos ⟨hsym,rfl⟩,hhandled]
    table := fun i hlength => by
      rw [← hhandled] at hlength ⊢
      exact h.table hb hreturned i hlength }

/-- When `pool.stop()` has returned every datagram that was not refused has been handled, by the
worker of its symbol and in the order of arrival. -/
theorem run_completes {as : List (Action n ω ρ)}
    (hrun : Transition.run (step ops hash) (start ops hash) as = some s)
    (hb : ∀ w, (s.system.pool.queues w).mem.pushes.length ≤ 2^64)
    (hreturned : s.system.pool.stopper = .returned) : Completed ops hash s :=
  (reachable_delivers (Transition.Reachable.run .start hrun)).completed hb hreturned

theorem run_completes_once : ∃ s : State 2 ℕ ℕ Unit,
    Transition.run (step countOps spread) (start countOps spread) once = some s ∧
      Completed countOps spread s := by
  obtain ⟨s,hrun,hb,hreturned,-⟩ := exists_run_once
  exact ⟨s,hrun,run_completes hrun hb hreturned⟩

omit [DecidableEq ρ] [Zero ω] in
/-- The short ones become nothing. -/
theorem filterMap_whole (datagrams : List (List UInt8)) :
    (datagrams.filter fun datagram => headerSize ≤ datagram.length).filterMap taskOf =
      datagrams.filterMap taskOf := by
  rw [List.filterMap_filter]
  refine List.filterMap_congr fun datagram _ => ?_
  split_ifs with hwhole
  · rfl
  · rw [decide_eq_true_eq] at hwhole
    exact (taskOf_short (by omega)).symm

/-- Where the whole datagrams are packets and none was refused, each book is what the messages of
its packets make of an empty one. -/
theorem run_applies {as : List (Action n ω ρ)}
    (hrun : Transition.run (step ops hash) (start ops hash) as = some s)
    (hb : ∀ w, (s.system.pool.queues w).mem.pushes.length ≤ 2^64)
    (hreturned : s.system.pool.stopper = .returned) {packets : List Packet}
    (hsent : s.received.filter (fun datagram => headerSize ≤ datagram.length) =
      packets.map Packet.encode)
    (hrefused : s.system.pool.rejected = []) {sym : UInt32} (hsym : sym.toNat < kMaxSymbols) :
    s.system.books (workerForKey hash sym) sym =
      some ((packets.filter fun p => p.hdr.symbolId = sym).foldl
        (fun book p => p.message.apply ops book) (ops.new sym)) := by
  have h := reachable_delivers (Transition.Reachable.run .start hrun)
  have hinv := MdDispatch.reachable_inv h.system
  have hbooks := ThreadPool.reachable_books hinv.pool
  have hkept : s.system.pool.kept = s.system.pool.submitted := by
    refine (ThreadPool.kept_sublist hinv.pool).eq_of_length_le
      (List.Nodup.length_le_of_subset hbooks.nodup fun x hx => hbooks.mem_kept hx ?_)
    rw [hrefused]
    exact List.not_mem_nil
  have htasks : keptTasks s = packets.map Packet.task := by
    rw [keptTasks,hkept,h.submitted,← filterMap_whole,hsent,List.filterMap_map]
    simp only [Function.comp_def,taskOf_encode]
    rw [← List.filterMap_eq_map]
    rfl
  rw [(h.completed hb hreturned).books sym hsym,htasks,bookAfter,List.filter_map,
    List.foldl_map]
  simp only [applyMessage_task]
  rfl

theorem run_applies_once : ∃ s : State 2 ℕ ℕ Unit,
    Transition.run (step countOps spread) (start countOps spread) once = some s ∧
      s.system.books (workerForKey spread 4) 4 = some 1 := by
  obtain ⟨s,hrun,hb,hreturned,hrefused,hreceived⟩ := exists_run_once
  have hsent : s.received.filter (fun datagram => headerSize ≤ datagram.length) =
      [packet].map Packet.encode := by
    rw [hreceived]
    decide
  exact ⟨s,hrun,run_applies hrun hb hreturned hsent hrefused (by decide)⟩

end Runs

end Feed
end Marketlib
