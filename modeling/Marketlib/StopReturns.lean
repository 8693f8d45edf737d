import Mathlib.Algebra.BigOperators.Fin
import Mathlib.Algebra.Order.BigOperators.Group.Finset
import Marketlib.Progress
import Marketlib.QuietStop

/-! How long `stop` takes. It waits for no submit: the steps of the stopping thread and of the
workers it has asked to stop are bounded by the tasks that were waiting or that arrive meanwhile,
and until it returns one of these steps is possible. -/

namespace Marketlib

open TicketRing

/-! ### The consumer's end of a queue -/

namespace MpscQueue

variable {cap : Capacity} {ι τ : Type*}

def PopPc.InCall : PopPc τ → Prop
  | .idle => False
  | .returned _ => False
  | _ => True

/-- The consumer has found a value that it has not returned. -/
def PopPc.inHand : PopPc τ → ℕ
  | .move _ => 1
  | .destroy _ _ => 1
  | .release _ _ => 1
  | .advance _ _ => 1
  | _ => 0

/-- What is left of a call and of handling the value that it has found. -/
def PopPc.due : PopPc τ → ℕ
  | .idle => 0
  | .loadTail => 2
  | .loadSeq _ => 1
  | .move _ => 8
  | .destroy _ _ => 7
  | .release _ _ => 6
  | .advance _ _ => 5
  | .returned _ => 0

/-- The claimed values that the consumer has not come to. -/
def State.waiting (s : State cap ι τ) : ℕ :=
  s.mem.pushes.length-(s.pops.length+s.popper.inHand)

variable {s s' : State cap ι τ} {r : Ring cap.n ι Unit}

/-- What the consumer has found was claimed. -/
theorem Inv.inHand_le (h : Inv s r) {tail : UInt64} (hp : s.popper = .move tail) :
    s.pops.length+1 ≤ s.mem.pushes.length := by
  have hok := h.popper
  rw [hp] at hok
  obtain ⟨v,ht⟩ := hok
  obtain ⟨t,hclaimed⟩ := ht.claimed
  have hlt := (List.getElem?_eq_some_iff.mp hclaimed).1
  rw [← ht.pops] at hlt
  exact hlt

/-- A step inside `try_pop`. -/
theorem tryPop_due (hs' : Sound s') (hstep : tryPop s s.popper .step = some s') :
    s.popper.InCall ∧ s'.mem.pushes = s.mem.pushes ∧ s.pops.length ≤ s'.pops.length ∧
      ((∃ v, s'.popper = .returned (some v)) ∧ s'.waiting = s.waiting ∧ s.popper.due = 5 ∨
      s'.popper = .returned none ∧ s'.waiting = s.waiting ∧ s.popper.due = 1 ∨
      s'.popper.InCall ∧ 8*s'.waiting+s'.popper.due < 8*s.waiting+s.popper.due) := by
  obtain ⟨r,hr⟩ := hs'
  rcases tryPop_cases hstep with ⟨ha,-,-⟩ | ⟨-,⟨hp,rfl⟩ | ⟨tail,hp,-,rfl⟩ | ⟨tail,hp,-,rfl⟩ |
    ⟨tail,v,hp,-,rfl⟩ | ⟨tail,out,hp,rfl⟩ | ⟨tail,out,hp,rfl⟩ | ⟨tail,out,hp,rfl⟩⟩
  · cases ha
  · rw [hp]
    refine ⟨trivial,rfl,le_rfl,.inr (.inr ⟨trivial,?_⟩)⟩
    simp [State.waiting,hp,PopPc.inHand,PopPc.due]
  · rw [hp]
    refine ⟨trivial,rfl,le_rfl,.inr (.inl ⟨rfl,?_,rfl⟩)⟩
    simp [State.waiting,hp,PopPc.inHand]
  · rw [hp]
    refine ⟨trivial,rfl,le_rfl,.inr (.inr ⟨trivial,?_⟩)⟩
    have hle := hr.inHand_le rfl
    simp only [State.waiting,hp,PopPc.inHand,PopPc.due] at hle ⊢
    omega
  · rw [hp]
    refine ⟨trivial,rfl,le_rfl,.inr (.inr ⟨trivial,?_⟩)⟩
    simp [State.waiting,hp,PopPc.inHand,PopPc.due]
  · rw [hp]
    refine ⟨trivial,rfl,le_rfl,.inr (.inr ⟨trivial,?_⟩)⟩
    simp [State.waiting,hp,PopPc.inHand,PopPc.due]
  · rw [hp]
    refine ⟨trivial,rfl,le_rfl,.inr (.inr ⟨trivial,?_⟩)⟩
    simp [State.waiting,hp,PopPc.inHand,PopPc.due]
  · rw [hp]
    refine ⟨trivial,rfl,by simp,.inl ⟨⟨out,rfl⟩,?_,rfl⟩⟩
    simp [State.waiting,hp,PopPc.inHand]

theorem tryPop_stays (hstep : tryPop s s.popper .step = some s') :
    (∃ out, s'.popper = .returned out) ∨ s'.popper.InCall := by
  rcases tryPop_cases hstep with ⟨ha,-,-⟩ | ⟨-,⟨-,rfl⟩ | ⟨tail,-,-,rfl⟩ | ⟨tail,-,-,rfl⟩ |
    ⟨tail,v,-,-,rfl⟩ | ⟨tail,out,-,rfl⟩ | ⟨tail,out,-,rfl⟩ | ⟨tail,out,-,rfl⟩⟩
  · cases ha
  · exact .inr trivial
  · exact .inl ⟨none,rfl⟩
  · exact .inr trivial
  · exact .inr trivial
  · exact .inr trivial
  · exact .inr trivial
  · exact .inl ⟨some out,rfl⟩

/-- The call of `try_pop`. -/
theorem tryPop_begin (hstep : tryPop s s.popper .call = some s') :
    ¬s.popper.InCall ∧ s'.popper = .loadTail ∧ s'.waiting = s.waiting ∧
      s'.mem.pushes = s.mem.pushes ∧ s'.pops = s.pops := by
  have hinCall : ¬s.popper.InCall ∧ s.popper.inHand = 0 := by
    rcases tryPop_cases hstep with ⟨-,hp | ⟨out,hp⟩,-⟩ | ⟨ha,-⟩
    · rw [hp]
      exact ⟨id,rfl⟩
    · rw [hp]
      exact ⟨id,rfl⟩
    · cases ha
  obtain rfl := tryPop_call hstep
  refine ⟨hinCall.1,rfl,?_,rfl,rfl⟩
  rw [State.waiting,State.waiting,hinCall.2]
  rfl

/-- A consumer in a call is never stuck: what it has found is there to be moved. -/
theorem Inv.pop_enabled (h : Inv s r) (hcall : s.popper.InCall) :
    (tryPop s s.popper .step).isSome = true := by
  have hok := h.popper
  cases hp : s.popper with
  | idle =>
    rw [hp] at hcall
    exact hcall.elim
  | returned out =>
    rw [hp] at hcall
    exact hcall.elim
  | loadSeq tail =>
    simp only [tryPop]
    split_ifs <;> rfl
  | move tail =>
    rw [hp] at hok
    obtain ⟨v,ht⟩ := hok
    simp [tryPop,ht.storage]
  | _ => rfl

/-- Outside a call the consumer may begin one. -/
theorem call_enabled (hcall : ¬s.popper.InCall) : (tryPop s s.popper .call).isSome = true := by
  cases hp : s.popper with
  | idle => rfl
  | returned out => rfl
  | _ =>
    rw [hp] at hcall
    exact absurd trivial hcall

end MpscQueue

namespace ThreadPool

variable {cap : Capacity} {maxWorkers : ℕ} {ι Key τ : Type*}

/-- The steps of a worker to the end of its drain, if nothing more is claimed in its queue. -/
def WorkerPc.left (q : MpscQueue.State cap ι (Submission maxWorkers ι Key τ)) :
    WorkerPc (Submission maxWorkers ι Key τ) → ℕ
  | .test => 8*q.waiting+4
  | .drain => 8*q.waiting+3
  | .popping draining => 8*q.waiting+q.popper.due+if draining then 0 else 4
  | .handling draining _ => 8*q.waiting+if draining then 4 else 8
  | .exited => 0

/-- What a worker can owe that is not yet asked to stop. -/
def owed (q : MpscQueue.State cap ι (Submission maxWorkers ι Key τ)) : ℕ :=
  8*(q.mem.pushes.length-q.pops.length)+12

/-- The steps of a worker that are counted from now on. -/
def State.left (p : Layout maxWorkers) (s : State cap maxWorkers ι Key τ) (w : Fin maxWorkers) :
    ℕ :=
  if w.val < p.numWorkers then
    if s.stopRequested w then (s.workers w).left (s.queues w) else owed (s.queues w)
  else 0

def StopPc.left (numWorkers : ℕ) : StopPc → ℕ
  | .idle => 0
  | .requesting i => (numWorkers-i)+numWorkers+2
  | .joining i => (numWorkers-i)+1
  | .returned => 0

/-- The steps of the stopping thread before it returns, and of the workers it asked to stop. -/
def stopping (s : State cap maxWorkers ι Key τ) : Action ι Key τ → ℕ
  | .worker i => if ∃ w : Fin maxWorkers, w.val = i ∧ s.stopRequested w = true then 1 else 0
  | .stop => if s.stopper = .returned then 0 else 1
  | _ => 0

section Stop

variable {p : Layout maxWorkers} {hash : Key → UInt64} {s s' : State cap maxWorkers ι Key τ}
  {q q' : MpscQueue.State cap ι (Submission maxWorkers ι Key τ)}

theorem WorkerPc.left_le (pc : WorkerPc (Submission maxWorkers ι Key τ)) : pc.left q ≤ owed q := by
  cases pc with
  | popping draining =>
    have hdue : 8*q.waiting+q.popper.due ≤ 8*(q.mem.pushes.length-q.pops.length)+8 := by
      unfold MpscQueue.State.waiting
      cases q.popper <;> simp only [MpscQueue.PopPc.inHand,MpscQueue.PopPc.due] <;> omega
    simp only [left,owed]
    split <;> omega
  | handling draining task =>
    have hwaiting : q.waiting ≤ q.mem.pushes.length-q.pops.length := by
      unfold MpscQueue.State.waiting
      omega
    simp only [left,owed]
    split <;> omega
  | _ =>
    have hwaiting : q.waiting ≤ q.mem.pushes.length-q.pops.length := by
      unfold MpscQueue.State.waiting
      omega
    simp only [left,owed]
    omega

/-- A claim makes a worker owe eight steps more. -/
theorem WorkerPc.left_claim (pc : WorkerPc (Submission maxWorkers ι Key τ))
    (hpopper : q'.popper = q.popper) (hpops : q'.pops = q.pops)
    (hpushes : q.mem.pushes.length ≤ q'.mem.pushes.length) :
    pc.left q'+8*q.mem.pushes.length ≤ pc.left q+8*q'.mem.pushes.length := by
  have hwaiting : 8*q'.waiting+8*q.mem.pushes.length ≤ 8*q.waiting+8*q'.mem.pushes.length := by
    unfold MpscQueue.State.waiting
    rw [hpopper,hpops]
    omega
  cases pc with
  | exited =>
    simp only [left]
    omega
  | popping draining =>
    simp only [left,hpopper]
    omega
  | _ =>
    simp only [left]
    omega

theorem owed_claim (hpops : q.pops.length ≤ q'.pops.length)
    (hpushes : q.mem.pushes.length ≤ q'.mem.pushes.length) :
    owed q'+8*q.mem.pushes.length ≤ owed q+8*q'.mem.pushes.length := by
  unfold owed
  omega

variable [DecidableEq ι]

theorem workerLoop_queue {v w : Fin maxWorkers} (h : workerLoop s w (s.workers w) = some s')
    (hv : v ≠ w) : s'.queues v = s.queues v := by
  rcases workerLoop_cases h with ⟨-,-,rfl⟩ | ⟨q,_,-,-,rfl⟩ |
    ⟨q,_,-,-,⟨_,-,rfl⟩ | ⟨-,rfl⟩ | ⟨-,rfl⟩⟩ | ⟨_,_,-,rfl⟩
  · rfl
  · exact Function.update_of_ne hv ..
  · exact Function.update_of_ne hv ..
  · exact Function.update_of_ne hv ..
  · exact Function.update_of_ne hv ..
  · rfl

/-- A step of a worker that was asked to stop brings it nearer to its end. -/
theorem workerLoop_left {w : Fin maxWorkers} (h : workerLoop s w (s.workers w) = some s')
    (hsound : MpscQueue.Sound (s'.queues w)) :
    (s'.queues w).mem.pushes = (s.queues w).mem.pushes ∧
      (s.queues w).pops.length ≤ (s'.queues w).pops.length ∧
      (s.stopRequested w = true →
        (s'.workers w).left (s'.queues w) < (s.workers w).left (s.queues w)) := by
  rcases workerLoop_cases h with ⟨hw,-,rfl⟩ | ⟨q,draining,hw,hq,rfl⟩ | ⟨q,draining,hw,hq,hs⟩ |
    ⟨draining,task,hw,rfl⟩
  · refine ⟨rfl,le_rfl,fun _ => ?_⟩
    simp [hw,WorkerPc.left]
  · obtain ⟨-,hpopper,hwaiting,hpushes,hpops⟩ := MpscQueue.tryPop_begin hq
    simp only [Function.update_self]
    refine ⟨hpushes,by rw [hpops],fun hstop => ?_⟩
    rcases hw with ⟨hw,-⟩ | ⟨hw,rfl⟩
    · -- a worker that was asked to stop leaves the loop when it tests
      rw [hw,workerLoop,if_pos hstop] at h
      have hmoved := congrArg (fun s => s.workers w) (Option.some.inj h)
      simp at hmoved
    · simp [hw,WorkerPc.left,hwaiting,hpopper,MpscQueue.PopPc.due]
  · have hqueue : s'.queues w = q := by
      rcases hs with ⟨task,-,rfl⟩ | ⟨-,rfl⟩ | ⟨-,rfl⟩ <;> exact Function.update_self ..
    rw [hqueue] at hsound ⊢
    obtain ⟨-,hpushes,hpops,hdue⟩ := MpscQueue.tryPop_due hsound hq
    refine ⟨hpushes,hpops,fun _ => ?_⟩
    rw [hw]
    rcases hdue with ⟨⟨v,hv⟩,hwaiting,hdue⟩ | ⟨hnone,hwaiting,hdue⟩ | ⟨hcall,hless⟩
    · rcases hs with ⟨task,-,rfl⟩ | ⟨hret,-⟩ | ⟨hret,-⟩
      · simp only [Function.update_self,WorkerPc.left,hwaiting,hdue]
        split <;> omega
      · cases hv.symm.trans hret
      · exact absurd hv (hret _)
    · rcases hs with ⟨task,hret,-⟩ | ⟨-,rfl⟩ | ⟨hret,-⟩
      · cases hnone.symm.trans hret
      · cases draining <;> simp [WorkerPc.left,hwaiting,hdue]
      · exact absurd hnone (hret _)
    · rcases hs with ⟨task,hret,-⟩ | ⟨hret,-⟩ | ⟨-,rfl⟩
      · rw [hret] at hcall
        exact hcall.elim
      · rw [hret] at hcall
        exact hcall.elim
      · simp only [hw,WorkerPc.left]
        omega
  · refine ⟨rfl,le_rfl,fun _ => ?_⟩
    cases draining <;> simp [hw,WorkerPc.left]

/-- What a submit leaves alone. -/
theorem submits_leave {a : Action ι Key τ} (hstep : step p hash s a = some s')
    (ha : (∃ t route task, a = .submit t route task) ∨ ∃ t spurious, a = .push t spurious) :
    Steady s s' ∧ ∀ w, (s'.queues w).popper = (s.queues w).popper ∧
      (s'.queues w).pops = (s.queues w).pops := by
  have hset : ∀ {v t b q}, MpscQueue.step (s.queues v) (.push t b) = some q → ∀ w,
      (Function.update s.queues v q w).popper = (s.queues w).popper ∧
        (Function.update s.queues v q w).pops = (s.queues w).pops := by
    intro v t b q hq w
    obtain ⟨m,pc,-,rfl⟩ := MpscQueue.step_push hq
    rcases eq_or_ne w v with rfl | hne
    · rw [Function.update_self]
      exact ⟨rfl,rfl⟩
    · rw [Function.update_of_ne hne]
      exact ⟨rfl,rfl⟩
  rcases ha with ⟨t,route,task,rfl⟩ | ⟨t,spurious,rfl⟩
  · refine ⟨submit_steady hstep,?_⟩
    obtain ⟨v,q,rr,-,-,hq,rfl⟩ := submit_cases hstep
    exact hset hq
  · refine ⟨push_steady hstep,?_⟩
    obtain ⟨x,q,b,-,-,hq,⟨-,rfl⟩ | ⟨-,rfl⟩ | ⟨-,rfl⟩⟩ := push_cases hstep
    · exact hset hq
    · exact hset hq
    · exact hset hq

/-- A step of a submit. -/
theorem submits_left {a : Action ι Key τ} (hstep : step p hash s a = some s')
    (ha : (∃ t route task, a = .submit t route task) ∨ ∃ t spurious, a = .push t spurious)
    (w : Fin maxWorkers) :
    s'.left p w+8*(s.queues w).mem.pushes.length ≤
      s.left p w+8*(s'.queues w).mem.pushes.length := by
  obtain ⟨hsteady,hqueues⟩ := submits_leave hstep ha
  obtain ⟨hpopper,hpops⟩ := hqueues w
  have hpushes := (step_queues hstep w).length_le
  unfold State.left
  rw [hsteady.stopRequested,hsteady.workers]
  split_ifs
  · exact WorkerPc.left_claim _ hpopper hpops hpushes
  · exact owed_claim (by rw [hpops]) hpushes
  · omega

/-- A step of a worker. -/
theorem worker_left {w : Fin maxWorkers} (hw : w.val < p.numWorkers)
    (h : workerLoop s w (s.workers w) = some s') (hsound : MpscQueue.Sound (s'.queues w)) :
    (∀ v, (s'.queues v).mem.pushes = (s.queues v).mem.pushes) ∧
      (∀ v, s'.left p v ≤ s.left p v) ∧
      (s.stopRequested w = true → s'.left p w < s.left p w) := by
  obtain ⟨hpushes,hpops,hless⟩ := workerLoop_left h hsound
  have hrequested := (workerLoop_turn h).stopRequested
  have hsame v (hv : v ≠ w) : s'.queues v = s.queues v ∧ s'.workers v = s.workers v :=
    ⟨workerLoop_queue h hv,((workerLoop_turn h).others hv).1⟩
  have hdone : s.stopRequested w = true → s'.left p w < s.left p w := by
    intro hstop
    simp only [State.left,hw,hrequested,hstop,if_true]
    exact hless hstop
  refine ⟨fun v => ?_,fun v => ?_,hdone⟩
  · rcases eq_or_ne v w with rfl | hv
    · exact hpushes
    · rw [(hsame v hv).1]
  · rcases eq_or_ne v w with rfl | hv
    · by_cases hstop : s.stopRequested v = true
      · exact (hdone hstop).le
      · simp only [State.left,hw,hrequested,hstop,if_true,owed,hpushes]
        simp only [Bool.false_eq_true,if_false]
        omega
    · simp only [State.left,hrequested,hsame v hv]
      exact le_rfl

omit [DecidableEq ι] in
/-- A step of the stopping thread. -/
theorem stop_left (hphases : Phases p s) (hbusy : s.stopper ≠ .idle)
    (h : stop p s s.stopper = some s') :
    s'.queues = s.queues ∧ (∀ v, s'.left p v ≤ s.left p v) ∧
      s'.stopper.left p.numWorkers+(if s.stopper = .returned then 0 else 1) ≤
        s.stopper.left p.numWorkers := by
  rcases stop_cases h with ⟨w,hpc,hw,rfl⟩ | ⟨i,hpc,hi,rfl⟩ | ⟨w,hpc,hw,-,rfl⟩ | ⟨i,hpc,hi,rfl⟩ |
    ⟨-,hstill,-⟩ | ⟨hpc,-,rfl⟩
  · refine ⟨rfl,fun v => ?_,?_⟩
    · unfold State.left
      rcases eq_or_ne v w with rfl | hv
      · simp only [Function.update_self,if_true]
        split_ifs
        · exact le_rfl
        · exact WorkerPc.left_le _
      · simp only [Function.update_of_ne hv,le_refl]
    · simp only [hpc,StopPc.left,reduceCtorEq,if_false]
      omega
  · refine ⟨rfl,fun v => le_rfl,?_⟩
    simp only [hpc,StopPc.left,reduceCtorEq,if_false]
    omega
  · refine ⟨rfl,fun v => le_rfl,?_⟩
    simp only [hpc,StopPc.left,reduceCtorEq,if_false]
    omega
  · refine ⟨rfl,fun v => le_rfl,?_⟩
    simp only [hpc,StopPc.left,reduceCtorEq,if_false]
    omega
  · exact absurd (hphases.running.mp hstill) hbusy
  · refine ⟨rfl,fun v => le_rfl,?_⟩
    rw [hpc.resolve_left hbusy]
    exact le_rfl

/-- The positions claimed in all the queues. -/
def State.claimed (s : State cap maxWorkers ι Key τ) : ℕ :=
  ∑ w, (s.queues w).mem.pushes.length

def State.allLeft (p : Layout maxWorkers) (s : State cap maxWorkers ι Key τ) : ℕ :=
  s.stopper.left p.numWorkers+∑ w, s.left p w

theorem step_pays (hphases : Phases p s) (hbusy : s.stopper ≠ .idle)
    (hsound : ∀ w, MpscQueue.Sound (s'.queues w)) {a : Action ι Key τ}
    (hstep : step p hash s a = some s') :
    stopping s a+s'.allLeft p+8*s.claimed ≤ s.allLeft p+8*s'.claimed := by
  have hsubmits (ha : (∃ t route task, a = .submit t route task) ∨
      ∃ t spurious, a = .push t spurious) (hsteady : Steady s s') :
      s'.allLeft p+8*s.claimed ≤ s.allLeft p+8*s'.claimed := by
    have hsum := Finset.sum_le_sum fun w (_ : w ∈ Finset.univ) => submits_left (p := p) hstep ha w
    simp only [Finset.sum_add_distrib,← Finset.mul_sum] at hsum
    unfold State.allLeft State.claimed
    rw [hsteady.stopper]
    omega
  cases a with
  | submit t route task =>
    have hle := hsubmits (.inl ⟨t,route,task,rfl⟩) (submit_steady hstep)
    simp only [stopping]
    omega
  | push t spurious =>
    have hle := hsubmits (.inr ⟨t,spurious,rfl⟩) (push_steady hstep)
    simp only [stopping]
    omega
  | worker i =>
    simp only [step] at hstep
    split_ifs at hstep with hi
    obtain ⟨hpushes,hleft,hless⟩ := worker_left hi hstep (hsound _)
    have hclaimed : s'.claimed = s.claimed := by simp only [State.claimed,hpushes]
    unfold State.allLeft
    rw [hclaimed,(workerLoop_turn hstep).stopper,stopping]
    split_ifs with hasked
    · obtain ⟨w,rfl,hw⟩ := hasked
      have hsum := Finset.sum_lt_sum (fun v (_ : v ∈ Finset.univ) => hleft v)
        ⟨w,Finset.mem_univ w,hless hw⟩
      omega
    · have hsum := Finset.sum_le_sum fun v (_ : v ∈ Finset.univ) => hleft v
      omega
  | stop =>
    obtain ⟨hqueues,hleft,hstopper⟩ := stop_left hphases hbusy hstep
    have hsum := Finset.sum_le_sum fun w (_ : w ∈ Finset.univ) => hleft w
    simp only [stopping]
    unfold State.allLeft State.claimed
    rw [hqueues]
    omega

/-! ### Until it returns a step is possible -/

def WorkerPc.InPop {σ : Type*} : WorkerPc σ → Prop
  | .popping _ => True
  | _ => False

/-- The threads before this one were asked to stop. -/
def StopPc.asked (numWorkers : ℕ) : StopPc → ℕ
  | .idle => 0
  | .requesting i => i
  | .joining _ => numWorkers
  | .returned => numWorkers

/-- A worker is in `try_pop` exactly when its queue's consumer is, and the stopping thread
joins when it has asked all of them. -/
structure Posed (p : Layout maxWorkers) (s : State cap maxWorkers ι Key τ) : Prop where
  inPop : ∀ w, (s.queues w).popper.InCall ↔ (s.workers w).InPop
  asked : ∀ w : Fin maxWorkers, w.val < s.stopper.asked p.numWorkers → s.stopRequested w = true

omit [DecidableEq ι] in
theorem start_posed : Posed p (start : State cap maxWorkers ι Key τ) :=
  ⟨fun _ => Iff.rfl,nofun⟩

theorem workerLoop_inPop {w : Fin maxWorkers}
    (h : ∀ v, (s.queues v).popper.InCall ↔ (s.workers v).InPop)
    (hstep : workerLoop s w (s.workers w) = some s') (v : Fin maxWorkers) :
    (s'.queues v).popper.InCall ↔ (s'.workers v).InPop := by
  have hw := h w
  rcases eq_or_ne v w with rfl | hv
  · rcases workerLoop_cases hstep with ⟨hpc,-,rfl⟩ | ⟨q,draining,-,hq,rfl⟩ |
      ⟨q,draining,hpc,hq,⟨task,hret,rfl⟩ | ⟨hret,rfl⟩ | ⟨hret,rfl⟩⟩ | ⟨draining,task,hpc,rfl⟩
    · rw [hpc] at hw
      simp only [Function.update_self]
      exact hw
    · obtain ⟨-,hpopper,-⟩ := MpscQueue.tryPop_begin hq
      simp only [Function.update_self,hpopper]
      exact Iff.rfl
    · simp only [Function.update_self,hret]
      exact Iff.rfl
    · simp only [Function.update_self,hret]
      cases draining <;> exact Iff.rfl
    · rw [hpc]
      simp only [Function.update_self]
      exact iff_of_true ((MpscQueue.tryPop_stays hq).resolve_left fun ⟨out,ho⟩ => hret out ho)
        trivial
    · rw [hpc] at hw
      simp only [Function.update_self]
      cases draining <;> exact hw
  · rw [((workerLoop_turn hstep).others hv).1,workerLoop_queue hstep hv]
    exact h v

omit [DecidableEq ι] in
theorem stop_posed (hphases : Phases p s) (h : Posed p s)
    (hstep : stop p s s.stopper = some s') : Posed p s' := by
  rcases stop_cases hstep with ⟨w,hpc,hw,rfl⟩ | ⟨i,hpc,hi,rfl⟩ | ⟨w,hpc,-,-,rfl⟩ | ⟨i,hpc,-,rfl⟩ |
    ⟨-,-,rfl⟩ | ⟨hpc,hrunning,rfl⟩
  · refine ⟨h.inPop,fun v hv => ?_⟩
    rcases Nat.lt_succ_iff_lt_or_eq.mp hv with hlt | heq
    · have hasked := h.asked v (by rw [hpc]; exact hlt)
      by_cases hvw : v = w
      · rw [hvw]
        exact Function.update_self ..
      · exact (Function.update_of_ne hvw ..).trans hasked
    · rw [Fin.ext heq]
      exact Function.update_self ..
  · exact ⟨h.inPop,fun v hv => h.asked v (by rw [hpc]; exact lt_of_lt_of_le hv hi)⟩
  · exact ⟨h.inPop,fun v hv => h.asked v (by rw [hpc]; exact hv)⟩
  · exact ⟨h.inPop,fun v hv => h.asked v (by rw [hpc]; exact hv)⟩
  · exact ⟨h.inPop,nofun⟩
  · have hbusy : s.stopper ≠ .idle := by
      rw [ne_eq,← hphases.running,hrunning]
      nofun
    exact ⟨h.inPop,fun v hv => h.asked v (by rw [hpc.resolve_left hbusy]; exact hv)⟩

theorem step_posed (hphases : Phases p s) (h : Posed p s) {a : Action ι Key τ}
    (hstep : step p hash s a = some s') : Posed p s' := by
  have hsubmits (ha : (∃ t route task, a = .submit t route task) ∨
      ∃ t spurious, a = .push t spurious) : Posed p s' := by
    obtain ⟨hsteady,hqueues⟩ := submits_leave hstep ha
    constructor
    · intro w
      rw [(hqueues w).1,hsteady.workers]
      exact h.inPop w
    · rw [hsteady.stopper,hsteady.stopRequested]
      exact h.asked
  cases a with
  | submit t route task => exact hsubmits (.inl ⟨t,route,task,rfl⟩)
  | push t spurious => exact hsubmits (.inr ⟨t,spurious,rfl⟩)
  | worker i =>
    simp only [step] at hstep
    split_ifs at hstep with hi
    have hturn := workerLoop_turn hstep
    refine ⟨workerLoop_inPop h.inPop hstep,?_⟩
    rw [hturn.stopper,hturn.stopRequested]
    exact h.asked
  | stop => exact stop_posed hphases h hstep

theorem worker_enabled (h : Posed p s) (hsound : ∀ w, MpscQueue.Sound (s.queues w))
    {w : Fin maxWorkers} (halive : s.workers w ≠ .exited) :
    (workerLoop s w (s.workers w)).isSome = true := by
  have hinPop := h.inPop w
  obtain ⟨r,hr⟩ := hsound w
  have hcall (hw : ¬(s.workers w).InPop) :
      ∃ q, MpscQueue.step (s.queues w) (.pop .call) = some q :=
    Option.isSome_iff_exists.mp (MpscQueue.call_enabled fun hin => hw (hinPop.mp hin))
  cases hw : s.workers w with
  | test =>
    obtain ⟨q,hq⟩ := hcall (by rw [hw]; exact id)
    simp only [workerLoop,hq]
    split <;> rfl
  | drain =>
    obtain ⟨q,hq⟩ := hcall (by rw [hw]; exact id)
    simp only [workerLoop,hq]
    rfl
  | popping draining =>
    obtain ⟨q,hq⟩ := Option.isSome_iff_exists.mp
      (hr.pop_enabled (hinPop.mpr (by rw [hw]; trivial)))
    have hstep : MpscQueue.step (s.queues w) (.pop .step) = some q := hq
    simp only [workerLoop,hstep,Option.bind_eq_bind,Option.bind_some]
    split <;> rfl
  | handling draining task => rfl
  | exited => exact absurd hw halive

/-- Once `stop` is under way there is no deadlock. -/
theorem stop_enabled (h : Posed p s) (hsound : ∀ w, MpscQueue.Sound (s.queues w))
    (hbusy : s.stopper ≠ .idle) :
    s.stopper = .returned ∨ ∃ a, stopping s a = 1 ∧ (step p hash s a).isSome = true := by
  cases hpc : s.stopper with
  | idle => exact absurd hpc hbusy
  | returned => exact .inl rfl
  | requesting i =>
    refine .inr ⟨.stop,by simp [stopping,hpc],?_⟩
    simp only [step,hpc,stop]
    split <;> rfl
  | joining i =>
    by_cases hi : i < p.numWorkers
    · by_cases hexited : s.workers ⟨i,hi.trans_le p.numWorkers_le⟩ = .exited
      · refine .inr ⟨.stop,by simp [stopping,hpc],?_⟩
        simp [step,hpc,stop,hi,hexited]
      · have hasked := h.asked ⟨i,hi.trans_le p.numWorkers_le⟩ (by rw [hpc]; exact hi)
        refine .inr ⟨.worker i,if_pos ⟨_,rfl,hasked⟩,?_⟩
        simp only [step,dif_pos hi]
        exact worker_enabled h hsound hexited
    · refine .inr ⟨.stop,by simp [stopping,hpc],?_⟩
      simp [step,hpc,stop,hi]

/-- No queue has had more than `2^64` claims. -/
def Bounded (s : State cap maxWorkers ι Key τ) : Prop :=
  ∀ w, (s.queues w).mem.pushes.length ≤ 2^64

theorem Bounded.back {a : Action ι Key τ} (hstep : step p hash s a = some s') (h : Bounded s') :
    Bounded s := fun w => (step_queues hstep w).length_le.trans (h w)

theorem Books.sound (h : Books p hash s) (hb : Bounded s) (w : Fin maxWorkers) :
    MpscQueue.Sound (s.queues w) := MpscQueue.reachable_sound (h.queues w) (hb w)

theorem step_busy (hbusy : s.stopper ≠ .idle) {a : Action ι Key τ}
    (hstep : step p hash s a = some s') : s'.stopper ≠ .idle := by
  cases a with
  | submit t route task => rwa [(submit_steady hstep).stopper]
  | push t spurious => rwa [(push_steady hstep).stopper]
  | worker i =>
    simp only [step] at hstep
    split_ifs at hstep with hi
    rwa [(workerLoop_turn hstep).stopper]
  | stop =>
    rcases stop_cases hstep with ⟨_,-,-,rfl⟩ | ⟨_,-,-,rfl⟩ | ⟨_,-,-,-,rfl⟩ | ⟨_,-,-,rfl⟩ |
      ⟨-,-,rfl⟩ | ⟨-,-,rfl⟩ <;> simp

theorem reachable_posed (h : Transition.Reachable (step p hash) start s) : Posed p s := by
  refine (h.invariant (P := fun s => Phases p s ∧ Posed p s) ⟨start_phases,start_posed⟩ ?_).2
  exact fun s a t hs _ hstep => ⟨step_phases hs.1 hstep,step_posed hs.1 hs.2 hstep⟩

/-- The tasks that were not handed to a worker in `s` and whose positions are claimed in `u`. -/
def tasks (s u : State cap maxWorkers ι Key τ) : ℕ :=
  ∑ w, ((u.queues w).mem.pushes.length-(s.queues w).pops.length)

omit [DecidableEq ι] in
theorem left_sum_le (s : State cap maxWorkers ι Key τ) :
    ∑ w, s.left p w ≤ 12*p.numWorkers+8*tasks s s := by
  have hone (w : Fin maxWorkers) : s.left p w ≤ (if w.val < p.numWorkers then 12 else 0)
      +8*((s.queues w).mem.pushes.length-(s.queues w).pops.length) := by
    have howed := (s.workers w).left_le (q := s.queues w)
    unfold owed at howed
    unfold State.left owed
    split_ifs <;> omega
  refine (Finset.sum_le_sum fun w _ => hone w).trans_eq ?_
  rw [Finset.sum_add_distrib,← Finset.mul_sum,← Finset.sum_filter,Finset.sum_const,
    Fin.card_filter_val_lt,Nat.min_eq_right p.numWorkers_le,smul_eq_mul,Nat.mul_comm]
  rfl

theorem tasks_claimed (hbooks : Books p hash s) (hb : Bounded s)
    (hgrown : ∀ w, (s.queues w).mem.pushes.length ≤ (s'.queues w).mem.pushes.length) :
    tasks s s'+s.claimed = tasks s s+s'.claimed := by
  unfold tasks State.claimed
  rw [← Finset.sum_add_distrib,← Finset.sum_add_distrib]
  refine Finset.sum_congr rfl fun w _ => ?_
  obtain ⟨r,hr⟩ := hbooks.sound hb w
  have hpops := hr.pops.length_le
  rw [List.length_map] at hpops
  have hw := hgrown w
  omega

/-- From the call on, up to `2^64` claims on each queue, `stop` returns after at most fourteen
steps a worker and two, and eight a task that was waiting then or came later, of its own thread
and of the workers it has asked to stop; until then one of these steps is possible. -/
theorem run_stop_returns {as bs : List (Action ι Key τ)} {u : State cap maxWorkers ι Key τ}
    (hrun : Transition.run (step p hash) start as = some s) (hcalled : s.stopper = .requesting 0)
    (hrest : Transition.run (step p hash) s bs = some u) (hb : Bounded u) :
    Transition.tally (step p hash) stopping s bs ≤ 14*p.numWorkers+2+8*tasks s u ∧
      (u.stopper = .returned ∨
        ∃ a, stopping u a = 1 ∧ (step p hash u a).isSome = true) := by
  have hreach := Transition.Reachable.run .start hrest
  have hs := Transition.Reachable.run .start hrun
  have hu := hs.run hrest
  have hbooks := reachable_books hs
  have hbs : Bounded s := hreach.back (fun _ _ _ hstep ht => ht.back hstep) hb
  have hall : Transition.Admits (step p hash) (fun _ _ => True) s bs :=
    Transition.admits_of_forall fun _ _ => trivial
  have hpaid : Transition.tally (step p hash) stopping s bs+u.allLeft p+8*s.claimed ≤
      s.allLeft p+8*(u.claimed+Transition.tally (step p hash) (fun _ _ => 0) s bs) :=
    Transition.run_pays (P := fun s => Books p hash s ∧ Phases p s ∧ s.stopper ≠ .idle)
      (fun s => s.allLeft p) State.claimed stopping (fun _ _ => 0) 8
      (fun _ _ _ hstep ht => Bounded.back hstep ht)
      (fun _ _ _ hs _ _ hstep => ⟨step_books hs.1 hstep,step_phases hs.2.1 hstep,
        step_busy hs.2.2 hstep⟩)
      (fun _ _ _ hs ht _ hstep => step_pays hs.2.1 hs.2.2
        ((step_books hs.1 hstep).sound ht) hstep)
      ⟨hbooks,reachable_phases hs,by rw [hcalled]; nofun⟩
      hall hrest hb
  have hgrown w := (reachable_queues hreach w).length_le
  have htasks := tasks_claimed hbooks hbs hgrown
  have hleft := left_sum_le (p := p) s
  constructor
  · unfold State.allLeft at hpaid
    rw [hcalled,Transition.tally_zero] at hpaid
    simp only [StopPc.left] at hpaid
    omega
  · have hbusy := hreach.invariant (P := fun u => u.stopper ≠ .idle) (by rw [hcalled]; nofun)
      fun _ _ _ h _ hstep => step_busy h hstep
    exact stop_enabled (reachable_posed hu) ((reachable_books hu).sound hb) hbusy

end Stop

/-- A task is accepted, the worker tests for a stop request, and `stop` is called. -/
def called : List (Action Bool Unit ℕ) :=
  .submit true .any 7 :: (List.replicate 6 (.push true false) ++ [.worker 0,.stop])

/-- The request; another task; the worker's two tasks and the end of its drain; the join. -/
def joined : List (Action Bool Unit ℕ) :=
  [.stop,.stop,.submit false .any 8] ++ (List.replicate 6 (.push false false) ++
    (List.replicate 19 (.worker 0) ++ [.stop,.stop]))

theorem run_stop_returns_joined : ∃ s u : State Capacity.two 1 Bool Unit ℕ,
    Transition.run (step single oneKey) start called = some s ∧
    Transition.run (step single oneKey) s joined = some u ∧ u.stopper = .returned ∧
    Transition.tally (step single oneKey) stopping s joined ≤
      14*single.numWorkers+2+8*tasks s u := by
  have hany : ((Transition.run (step single oneKey) (start : State Capacity.two 1 Bool Unit ℕ)
      called).any fun s => s.stopper = .requesting 0 ∧
        (Transition.run (step single oneKey) s joined).any fun u =>
          (∀ w, (u.queues w).mem.pushes.length ≤ 2^64) ∧ u.stopper = .returned) = true := by
    decide +kernel
  obtain ⟨s,hrun,hs⟩ := Option.any_eq_true _ _ |>.mp hany
  obtain ⟨hcalled,hlater⟩ := of_decide_eq_true hs
  obtain ⟨u,hrest,hu⟩ := Option.any_eq_true _ _ |>.mp hlater
  obtain ⟨hb,hreturned⟩ := of_decide_eq_true hu
  exact ⟨s,u,hrun,hrest,hreturned,(run_stop_returns hrun hcalled hrest hb).1⟩

end ThreadPool
end Marketlib
