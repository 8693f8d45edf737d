import Marketlib.LogOrder

/-! The debug queue past `2^64` claims. Threads stopped before their compare-exchanges, one
at each position, push its counter once around the word; what is then written takes a slot
that the drain has yet to pass, before a line of the same thread. -/

namespace Marketlib
namespace LogDrain

section Alone

variable {ι τ : Type} [DecidableEq ι] {s : State ι τ} {t : ι} {entry : Entry ι τ} {final : Bool}
  {n : ℕ} {q : MpscQueue.State debugCapacity ι (Entry ι τ)}

/-! ### Runs of the debug queue -/

theorem step_enqueue_go (hpc : s.writers t = .enqueueing entry)
    (hq : MpscQueue.step s.debugQueue (.push t .step) = some q)
    (hgo : ∀ ok, q.producers t ≠ .returned ok) :
    step s (.access t false) = some { s with debugQueue := q } := by
  simp only [step,access,hpc,hq,Bool.false_eq_true,if_false,bind,Option.bind]

theorem step_enqueue_returned {ok : Bool} {x : Entry ι τ} (hpc : s.writers t = .enqueueing x)
    (hq : MpscQueue.step s.debugQueue (.push t .step) = some q)
    (hret : q.producers t = .returned ok) :
    step s (.access t false) = some { s with
      debugQueue := q
      writers := Function.update s.writers t .idle } := by
  simp only [step,access,hpc,hq,hret,Bool.false_eq_true,if_false,bind,Option.bind]

/-- Accesses of a debug write that does not return yet. -/
theorem run_enqueue (hpc : s.writers t = .enqueueing entry)
    (hrun : Transition.run MpscQueue.step s.debugQueue (List.replicate n (.push t .step)) = some q)
    (hgo : ∀ ok, q.producers t ≠ .returned ok) :
    Transition.run step s (List.replicate n (.access t false)) =
      some { s with debugQueue := q } := by
  have hdead : ∀ q : MpscQueue.State debugCapacity ι (Entry ι τ),
      (¬∀ ok, q.producers t ≠ .returned ok) → MpscQueue.step q (.push t .step) = none := by
    intro q hret
    push Not at hret
    obtain ⟨ok,hret⟩ := hret
    simp [MpscQueue.step,tryPush,hret]
  exact Transition.run_embed (fun q => { s with debugQueue := q }) _ hdead
    (fun q q' hgo hq => step_enqueue_go (s := { s with debugQueue := q }) hpc hq hgo) hrun hgo

theorem step_debugPop_go (hpc : s.drain = .debugPopping final)
    (hq : MpscQueue.step s.debugQueue (.pop .step) = some q)
    (hgo : ∀ out, q.popper ≠ .returned out) :
    step s .drain = some { s with debugQueue := q } := by
  simp only [step,drainLoop,hpc,hq,bind,Option.bind]
  split
  · next hret => exact absurd hret (hgo _)
  · next hret => exact absurd hret (hgo _)
  · rfl

theorem step_debugPop_some (hpc : s.drain = .debugPopping final)
    (hq : MpscQueue.step s.debugQueue (.pop .step) = some q)
    (hret : q.popper = .returned (some entry)) :
    step s .drain = some { s with
      debugQueue := q
      drain := .debugEmitting final entry } := by
  simp only [step,drainLoop,hpc,hq,hret,bind,Option.bind]

/-- Accesses of a `try_pop` of the debug queue that does not return yet. -/
theorem run_debugPop (hpc : s.drain = .debugPopping final)
    (hrun : Transition.run MpscQueue.step s.debugQueue (List.replicate n (.pop .step)) = some q)
    (hgo : ∀ out, q.popper ≠ .returned out) :
    Transition.run step s (List.replicate n .drain) = some { s with debugQueue := q } := by
  have hdead : ∀ q : MpscQueue.State debugCapacity ι (Entry ι τ),
      (¬∀ out, q.popper ≠ .returned out) → MpscQueue.step q (.pop .step) = none := by
    intro q hret
    push Not at hret
    obtain ⟨out,hret⟩ := hret
    simp [MpscQueue.step,MpscQueue.tryPop,hret]
  exact Transition.run_embed (fun q => { s with debugQueue := q }) _ hdead
    (fun q q' hgo hq => step_debugPop_go (s := { s with debugQueue := q }) hpc hq hgo) hrun hgo

/-! ### Writes and pops that nothing interrupts -/

/-- Up to the compare-exchange of a debug write. -/
def beginWrite (t : ι) (record : τ) : List (Action ι τ) :=
  .write t aString record :: List.replicate 2 (.access t false)

/-- The state after `beginWrite`. -/
def State.begun (s : State ι τ) (t : ι) (entry : Entry ι τ) : State ι τ :=
  { s with
    written := s.written ++ [entry]
    debugQueue := { s.debugQueue with
      producers := Function.update s.debugQueue.producers t
        (.compareExchange entry s.debugQueue.mem.head)
      calls := Function.update s.debugQueue.calls t (s.debugQueue.calls t ++ [entry]) }
    writers := Function.update s.writers t (.enqueueing entry) }

theorem run_beginWrite {record : τ} (hentry : entry = ⟨t,s.written.length,.debug,record⟩)
    (hwriter : s.writers t = .idle)
    (hidle : s.debugQueue.producers t = .idle ∨ ∃ ok, s.debugQueue.producers t = .returned ok)
    (hroom : s.debugQueue.mem.seq (debugCapacity.slot s.debugQueue.mem.head) =
      s.debugQueue.mem.head) :
    Transition.run step s (beginWrite t record) = some (s.begun t entry) := by
  have hcall := MpscQueue.step_push_call (v := entry) hidle
  have hwrite : step s (.write t aString record) = some { s with
      written := s.written ++ [entry]
      debugQueue := { s.debugQueue with
        producers := Function.update s.debugQueue.producers t (.loadHead entry)
        calls := Function.update s.debugQueue.calls t (s.debugQueue.calls t ++ [entry]) }
      writers := Function.update s.writers t (.enqueueing entry) } := by
    have hpath : aString.path = .debug := rfl
    simp only [step,write,hwriter,hpath,writeDebug,← hentry,hcall,bind,Option.bind]
  rw [beginWrite,Transition.run_cons,hwrite,Option.bind_some]
  have hload := MpscQueue.run_load
    (s := { s.debugQueue with
      producers := Function.update s.debugQueue.producers t (.loadHead entry)
      calls := Function.update s.debugQueue.calls t (s.debugQueue.calls t ++ [entry]) })
    (t := t) (v := entry) (Function.update_self ..) hroom
  have hpc : Function.update s.writers t (.enqueueing entry) t = .enqueueing entry :=
    Function.update_self ..
  rw [run_enqueue hpc hload (by simp)]
  simp only [Function.update_idem]
  rfl

/-- A debug write from its call to its return. -/
def writeAlone (t : ι) (record : τ) : List (Action ι τ) :=
  beginWrite t record ++ (List.replicate 3 (.access t false) ++ [.access t false])

theorem run_writeAlone {record : τ} (hentry : entry = ⟨t,s.written.length,.debug,record⟩)
    (hwriter : s.writers t = .idle)
    (hidle : s.debugQueue.producers t = .idle ∨ ∃ ok, s.debugQueue.producers t = .returned ok)
    (hroom : s.debugQueue.mem.seq (debugCapacity.slot s.debugQueue.mem.head) =
      s.debugQueue.mem.head) :
    Transition.run step s (writeAlone t record) = some { s with
      written := s.written ++ [entry]
      debugQueue := MpscQueue.pushed s.debugQueue t entry } := by
  refine Transition.run_trans (run_beginWrite hentry hwriter hidle hroom) ?_
  have hpc : (s.begun t entry).writers t = .enqueueing entry := Function.update_self ..
  refine Transition.run_trans (run_enqueue hpc
    (MpscQueue.run_claim (v := entry) (Function.update_self ..) rfl) (by simp)) ?_
  rw [Transition.run_cons,step_enqueue_returned (x := entry) (Function.update_self ..)
    (MpscQueue.step_publish (v := entry) (Function.update_self ..)) (Function.update_self ..)]
  have hsame : Function.update s.writers t .idle = s.writers :=
    Function.update_eq_self_iff.mpr hwriter.symm
  simp only [Option.bind_some,Transition.run_nil,State.begun,Function.update_idem,hsame]
  rfl

/-- From one call of `try_pop` on the debug queue to the next. -/
def drainAlone : List (Action ι τ) :=
  .drain :: (List.replicate 2 .drain ++ (List.replicate 3 .drain ++ [.drain,.drain]))

theorem run_drainAlone (hpc : s.drain = .debug final)
    (hidle : s.debugQueue.popper = .idle ∨ ∃ out, s.debugQueue.popper = .returned out)
    (hready : s.debugQueue.mem.seq (debugCapacity.slot s.debugQueue.consumer) =
      s.debugQueue.consumer+1)
    (hlive : s.debugQueue.mem.storage (debugCapacity.slot s.debugQueue.consumer) = .live entry) :
    Transition.run step s drainAlone = some { s with
      debugQueue := MpscQueue.popped s.debugQueue entry
      emitted := s.emitted ++ [entry] } := by
  have hcall : step s .drain = some { s with
      debugQueue := { s.debugQueue with popper := .loadTail }
      drain := .debugPopping final } := by
    simp only [step,drainLoop,hpc,MpscQueue.step_pop_call hidle,bind,Option.bind]
  rw [drainAlone,Transition.run_cons,hcall,Option.bind_some]
  have hlook := MpscQueue.run_look (s := { s.debugQueue with popper := .loadTail }) rfl hready
  refine Transition.run_trans (run_debugPop rfl hlook (by simp)) ?_
  have htake := MpscQueue.run_take
    (s := { s.debugQueue with popper := .move s.debugQueue.consumer }) rfl hlive
  refine Transition.run_trans (run_debugPop rfl htake (by simp)) ?_
  rw [Transition.run_cons,step_debugPop_some rfl (MpscQueue.step_advance rfl) rfl]
  simp only [Option.bind_some,Transition.run_cons,step,drainLoop,Transition.run_nil]
  rw [← hpc]
  rfl

end Alone

/-! ### One thread stopped at each position -/

/-- Thread `none` has written `k` lines, which were popped; before each of them one more thread
was stopped at its compare-exchange. -/
structure Waiting (k : ℕ) (s : State (Option ℕ) Unit) : Prop where
  drain : s.drain = .debug false
  writer : s.writers none = .idle
  calm : MpscQueue.Calm k none s.debugQueue
  stopped : ∀ j < k, ∃ entry, s.writers (some j) = .enqueueing entry ∧
    s.debugQueue.producers (some j) = .compareExchange entry (UInt64.ofNat j)
  fresh : ∀ j, k ≤ j → s.writers (some j) = .idle ∧ s.debugQueue.producers (some j) = .idle

variable {k m : ℕ} {s : State (Option ℕ) Unit}

theorem exists_waiting : ∃ s : State (Option ℕ) Unit,
    Transition.Reachable step start s ∧ Waiting 0 s := by
  obtain ⟨s,hrun,hdrain,hwriters,hqueue⟩ : ∃ s : State (Option ℕ) Unit,
      Transition.run step start (List.replicate 5 .drain) = some s ∧ s.drain = .debug false ∧
      s.writers = (fun _ => .idle) ∧ s.debugQueue = MpscQueue.start := ⟨_,rfl,rfl,rfl,rfl⟩
  refine ⟨s,Transition.Reachable.run .start hrun,{
    drain := hdrain
    writer := by rw [hwriters]
    calm := by
      rw [hqueue]
      exact MpscQueue.start_calm
    stopped := nofun
    fresh := fun j _ => by
      rw [hwriters,hqueue]
      exact ⟨rfl,rfl⟩ }⟩

/-- One more thread is stopped, and one more line goes through. -/
theorem Waiting.next (h : Waiting k s) : ∃ s', Transition.Reachable step s s' ∧
    Waiting (k+1) s' := by
  obtain ⟨hwriter,hproducer⟩ := h.fresh k le_rfl
  let stale : Entry (Option ℕ) Unit := ⟨some k,s.written.length,.debug,()⟩
  let line : Entry (Option ℕ) Unit := ⟨none,(s.written ++ [stale]).length,.debug,()⟩
  let s₁ := s.begun (some k) stale
  have hcalm : MpscQueue.Calm k none s₁.debugQueue :=
    ⟨h.calm.head,h.calm.consumer,h.calm.seq,h.calm.producer,h.calm.popper⟩
  have hbegin : Transition.run step s (beginWrite (some k) ()) = some s₁ :=
    run_beginWrite rfl hwriter (.inl hproducer) h.calm.room
  have hwrite : Transition.run step s₁ (writeAlone none ()) = some { s₁ with
      written := s₁.written ++ [line]
      debugQueue := MpscQueue.pushed s₁.debugQueue none line } :=
    run_writeAlone rfl h.writer hcalm.producer hcalm.room
  obtain ⟨hready,hlive⟩ := MpscQueue.pushed_ready (hcalm.consumer.trans hcalm.head.symm) none line
  have hdrain := run_drainAlone (s := { s₁ with
      written := s₁.written ++ [line]
      debugQueue := MpscQueue.pushed s₁.debugQueue none line })
    h.drain hcalm.popper hready hlive
  refine ⟨_,Transition.Reachable.run .start
    (Transition.run_trans hbegin (Transition.run_trans hwrite hdrain)),{
      drain := h.drain
      writer := h.writer
      calm := hcalm.next line
      stopped := fun j hj => ?_
      fresh := fun j hj => ?_ }⟩
  · rcases Nat.lt_succ_iff_lt_or_eq.mp hj with hlt | rfl
    · obtain ⟨entry,hpc,hcas⟩ := h.stopped j hlt
      have hne : some j ≠ some k := by simp [hlt.ne]
      exact ⟨entry,(Function.update_of_ne hne ..).trans hpc,
        (Function.update_of_ne hne ..).trans hcas⟩
    · exact ⟨stale,Function.update_self ..,by
        rw [← h.calm.head]
        exact Function.update_self ..⟩
  · have hne : some j ≠ some k := by simp; omega
    obtain ⟨hpc,hidle⟩ := h.fresh j (by omega)
    exact ⟨(Function.update_of_ne hne ..).trans hpc,(Function.update_of_ne hne ..).trans hidle⟩

theorem exists_waiting_at (k : ℕ) : ∃ s : State (Option ℕ) Unit,
    Transition.Reachable step start s ∧ Waiting k s := by
  induction k with
  | zero => exact exists_waiting
  | succ k ih =>
    obtain ⟨s,hreach,hs⟩ := ih
    obtain ⟨s',hnext,hs'⟩ := hs.next
    exact ⟨s',hreach.trans hnext,hs'⟩

/-! ### Round the word -/

theorem step_claim {ι τ : Type} [DecidableEq ι] {q : MpscQueue.State debugCapacity ι (Entry ι τ)}
    {t : ι} {entry : Entry ι τ} {pos : UInt64} (hpc : q.producers t = .compareExchange entry pos)
    (hhead : q.mem.head = pos) : MpscQueue.step q (.push t .step) = some { q with
      mem := { q.mem with
        head := pos+1
        pushes := q.mem.pushes ++ [(t,entry)] }
      producers := Function.update q.producers t (.construct entry pos) } := by
  simp [MpscQueue.step,tryPush,hpc,hhead,PushAction.value]

/-- The slot of position 0 is claimed and not filled, line `n` of thread `none` is behind it, and
the threads stopped at the positions from `m` on have still to claim theirs. -/
structure Claiming (m n : ℕ) (s : State (Option ℕ) Unit) : Prop where
  drain : s.drain = .debug false
  writer : s.writers none = .idle
  head : s.debugQueue.mem.head = UInt64.ofNat m
  consumer : s.debugQueue.consumer = 0
  seq_zero : s.debugQueue.mem.seq (debugCapacity.slot 0) = 0
  seq_one : s.debugQueue.mem.seq (debugCapacity.slot 1) = 1+1
  line : s.debugQueue.mem.storage (debugCapacity.slot 1) = .live ⟨none,n,.debug,()⟩
  producer : s.debugQueue.producers none = .idle ∨
    ∃ ok, s.debugQueue.producers none = .returned ok
  popper : s.debugQueue.popper = .idle ∨ ∃ out, s.debugQueue.popper = .returned out
  written : n < s.written.length
  stopped : ∀ j, m ≤ j → j < 2^64 → ∃ entry, s.writers (some j) = .enqueueing entry ∧
    s.debugQueue.producers (some j) = .compareExchange entry (UInt64.ofNat j)

theorem slot_zero_ne_one : debugCapacity.slot 0 ≠ debugCapacity.slot 1 := by decide

/-- One stopped thread claims its position. -/
theorem Claiming.next {n : ℕ} (h : Claiming m n s) (hm : m < 2^64) :
    ∃ s', step s (.access (some m) false) = some s' ∧ Claiming (m+1) n s' := by
  obtain ⟨entry,hpc,hcas⟩ := h.stopped m le_rfl hm
  refine ⟨_,step_enqueue_go hpc (step_claim hcas h.head) (by simp),{
    drain := h.drain
    writer := h.writer
    head := (UInt64.ofNat_add m 1).symm
    consumer := h.consumer
    seq_zero := h.seq_zero
    seq_one := h.seq_one
    line := h.line
    producer := h.producer
    popper := h.popper
    written := h.written
    stopped := fun j hj hlt => ?_ }⟩
  obtain ⟨entry',hpc',hcas'⟩ := h.stopped j (by omega) hlt
  have hne : some j ≠ some m := by simp; omega
  exact ⟨entry',hpc',(Function.update_of_ne hne ..).trans hcas'⟩

/-- When the counter is back at 0 its slot is claimed for a line, which is then behind the one
written next. -/
theorem Waiting.claiming (h : Waiting (2^64) s) :
    ∃ n s', Transition.Reachable step s s' ∧ Claiming 2 n s' := by
  obtain ⟨entry,hpc,hcas⟩ := h.stopped 0 (Nat.two_pow_pos 64)
  have hseq (j : ℕ) (hj : j < 2) : s.debugQueue.mem.seq (debugCapacity.slot (UInt64.ofNat j)) =
      UInt64.ofNat j := by
    have hround : UInt64.ofNat (2^64+j) = UInt64.ofNat j := by
      rw [UInt64.ofNat_add]
      exact zero_add _
    have := h.calm.seq j (hj.trans (by decide))
    rwa [hround] at this
  let s₁ : State (Option ℕ) Unit := { s with
    debugQueue := { s.debugQueue with
      mem := { s.debugQueue.mem with
        head := UInt64.ofNat 0+1
        pushes := s.debugQueue.mem.pushes ++ [(some 0,entry)] }
      producers := Function.update s.debugQueue.producers (some 0)
        (.construct entry (UInt64.ofNat 0)) } }
  have hclaim : step s (.access (some 0) false) = some s₁ :=
    step_enqueue_go hpc (step_claim hcas h.calm.head) (by simp)
  let line : Entry (Option ℕ) Unit := ⟨none,s.written.length,.debug,()⟩
  have hwrite : Transition.run step s₁ (writeAlone none ()) = some { s₁ with
      written := s₁.written ++ [line]
      debugQueue := MpscQueue.pushed s₁.debugQueue none line } :=
    run_writeAlone rfl h.writer h.calm.producer (hseq 1 (by omega))
  have hreach : Transition.Reachable step s s₁ := .next .start trivial hclaim
  have hseq' : (MpscQueue.pushed s₁.debugQueue none line).mem.seq =
      Function.update s.debugQueue.mem.seq (debugCapacity.slot 1) (1+1) := rfl
  have hstorage : (MpscQueue.pushed s₁.debugQueue none line).mem.storage =
      Function.update s.debugQueue.mem.storage (debugCapacity.slot 1) (.live line) := rfl
  have hproducers : (MpscQueue.pushed s₁.debugQueue none line).producers =
      Function.update s₁.debugQueue.producers none (.returned true) := rfl
  refine ⟨s.written.length,_,hreach.run hwrite,{
    drain := h.drain
    writer := h.writer
    head := rfl
    consumer := h.calm.consumer
    seq_zero := by
      rw [hseq',Function.update_of_ne slot_zero_ne_one]
      exact hseq 0 (by omega)
    seq_one := by rw [hseq',Function.update_self]
    line := by rw [hstorage,Function.update_self]
    producer := .inr ⟨true,by rw [hproducers,Function.update_self]⟩
    popper := h.calm.popper
    written := by simp [s₁]
    stopped := fun j hj hlt => ?_ }⟩
  obtain ⟨entry',hpc',hcas'⟩ := h.stopped j hlt
  have hne : some j ≠ some 0 := by simp; omega
  exact ⟨entry',hpc',(Function.update_of_ne hne ..).trans hcas'⟩

theorem Claiming.round {n : ℕ} (h : Claiming 2 n s) :
    ∃ s', Transition.Reachable step s s' ∧ Claiming (2^64) n s' := by
  have hall (m : ℕ) (hm : m+2 ≤ 2^64) :
      ∃ s', Transition.Reachable step s s' ∧ Claiming (m+2) n s' := by
    induction m with
    | zero => exact ⟨s,.start,h⟩
    | succ m ih =>
      obtain ⟨s',hreach,hs⟩ := ih (by omega)
      obtain ⟨s'',hstep,hs'⟩ := hs.next (by omega)
      exact ⟨s'',.next hreach trivial hstep,by rwa [Nat.add_right_comm] at hs'⟩
  exact hall (2^64-2) (by omega)

/-- What thread `none` writes then takes the slot of position 0 and comes out first. -/
theorem Claiming.overtakes {n : ℕ} (h : Claiming (2^64) n s) :
    ∃ s', Transition.Reachable step s s' ∧ n < s.written.length ∧ s'.emitted = s.emitted ++
      [⟨none,s.written.length,.debug,()⟩,⟨none,n,.debug,()⟩] := by
  let line : Entry (Option ℕ) Unit := ⟨none,s.written.length,.debug,()⟩
  let old : Entry (Option ℕ) Unit := ⟨none,n,.debug,()⟩
  have hhead : s.debugQueue.mem.head = 0 := h.head
  let s₁ : State (Option ℕ) Unit := { s with
    written := s.written ++ [line]
    debugQueue := MpscQueue.pushed s.debugQueue none line }
  have hwrite : Transition.run step s (writeAlone none ()) = some s₁ :=
    run_writeAlone rfl h.writer h.producer (by rw [hhead]; exact h.seq_zero)
  obtain ⟨hready,hlive⟩ := MpscQueue.pushed_ready (h.consumer.trans hhead.symm) none line
  let s₂ : State (Option ℕ) Unit := { s₁ with
    debugQueue := MpscQueue.popped s₁.debugQueue line
    emitted := s.emitted ++ [line] }
  have hfirst : Transition.run step s₁ drainAlone = some s₂ :=
    run_drainAlone h.drain h.popper hready hlive
  have hseq : s₂.debugQueue.mem.seq = Function.update (Function.update s.debugQueue.mem.seq
      (debugCapacity.slot s.debugQueue.mem.head) (s.debugQueue.mem.head+1))
      (debugCapacity.slot s.debugQueue.consumer)
      (s.debugQueue.consumer+UInt64.ofNat debugCapacity.n) := rfl
  have hstorage : s₂.debugQueue.mem.storage = Function.update (Function.update
      s.debugQueue.mem.storage (debugCapacity.slot s.debugQueue.mem.head) (.live line))
      (debugCapacity.slot s.debugQueue.consumer) .raw := rfl
  have hconsumer : s₂.debugQueue.consumer = 1 := by
    change s.debugQueue.consumer+1 = 1
    rw [h.consumer]
    rfl
  have hne := slot_zero_ne_one.symm
  have hold : s₂.debugQueue.mem.storage (debugCapacity.slot s₂.debugQueue.consumer) = .live old := by
    rw [hconsumer,hstorage,hhead,h.consumer,Function.update_of_ne hne,Function.update_of_ne hne,
      h.line]
  have hsecond := run_drainAlone (s := s₂) h.drain (.inr ⟨some line,rfl⟩)
    (by rw [hconsumer,hseq,hhead,h.consumer,Function.update_of_ne hne,Function.update_of_ne hne,
      h.seq_one]) hold
  refine ⟨_,Transition.Reachable.run .start (Transition.run_trans hwrite
    (Transition.run_trans hfirst hsecond)),h.written,?_⟩
  exact List.append_assoc s.emitted [line] [old]

/-- A thread writes by the debug path and then by the fast one. One pass of the drain. -/
def crossing : List (Action Unit ℕ) :=
  .write () aString 7 :: (List.replicate 6 (.access () false) ++
    .write () anInt 8 :: (List.replicate 11 (.access () false) ++ List.replicate 30 .drain))

/-- Two lines of one thread come out in the wrong order: where they are written by different
paths, in the first pass; on the debug path past `2^64` claims. -/
theorem lines_overtake :
    (∃ s : State Unit ℕ, Transition.run step start crossing = some s ∧
      s.emitted = [⟨(),1,.fast,8⟩,⟨(),0,.debug,7⟩]) ∧
    ∃ (as : List (Action (Option ℕ) Unit)) (s : State (Option ℕ) Unit),
      Transition.run step start as = some s ∧ ∃ before m n, n < m ∧
      s.emitted = before ++ [⟨none,m,.debug,()⟩,⟨none,n,.debug,()⟩] := by
  refine ⟨⟨_,rfl,rfl⟩,?_⟩
  obtain ⟨s₀,hreach,hwaiting⟩ := exists_waiting_at (2^64)
  obtain ⟨n,s₁,hclaimed,hclaiming⟩ := hwaiting.claiming
  obtain ⟨s₂,hround,hclaiming'⟩ := hclaiming.round
  obtain ⟨s₃,hlast,hlt,hemitted⟩ := hclaiming'.overtakes
  obtain ⟨as,hrun⟩ := Transition.reachable_iff_run.mp
    (((hreach.trans hclaimed).trans hround).trans hlast)
  exact ⟨as,s₃,hrun,_,_,n,hlt,hemitted⟩

end LogDrain
end Marketlib
