import Marketlib.MpscQueue
import Marketlib.Routing

/-! The running pool: any number of threads that submit, one worker a queue, and one thread
that calls `stop`. Every atomic access is a step. A submission carries the arguments of its
call and its number; `submitted` and the fields after it record what happened and are read
by no step. -/

namespace Marketlib
namespace ThreadPool

variable {cap : Capacity} {maxWorkers : ℕ} {ι Key τ : Type*}

structure Submission (maxWorkers : ℕ) (ι Key τ : Type*) where
  number : ℕ
  producer : ι
  route : Route Key
  worker : Fin maxWorkers
  task : τ
  deriving DecidableEq

/-- Where a worker is in `worker_loop`; `draining` in the loop after the stop request. -/
inductive WorkerPc (σ : Type*)
  /-- `st.stop_requested()`. -/
  | test
  | drain
  /-- In `try_pop`. -/
  | popping (draining : Bool)
  | handling (draining : Bool) (task : σ)
  | exited

def WorkerPc.current {σ : Type*} : WorkerPc σ → List σ
  | .handling _ task => [task]
  | _ => []

/-- Where the stopping thread is in `stop`. -/
inductive StopPc
  | idle
  /-- `request_stop` of thread `i` is next. -/
  | requesting (i : ℕ)
  /-- The join of thread `i` is next. -/
  | joining (i : ℕ)
  | returned
  deriving DecidableEq

structure State (cap : Capacity) (maxWorkers : ℕ) (ι Key τ : Type*) where
  queues : Fin maxWorkers → MpscQueue.State cap ι (Submission maxWorkers ι Key τ)
  rr : UInt64
  running : Bool
  stopRequested : Fin maxWorkers → Bool
  workers : Fin maxWorkers → WorkerPc (Submission maxWorkers ι Key τ)
  stopper : StopPc
  /-- The submit each thread is in. -/
  calling : ι → Option (Submission maxWorkers ι Key τ)
  submitted : List (Submission maxWorkers ι Key τ)
  /-- Submits that returned true. -/
  accepted : List (Submission maxWorkers ι Key τ)
  /-- Submits that returned false. -/
  rejected : List (Submission maxWorkers ι Key τ)
  /-- The tasks each worker has called its handler with. -/
  begun : Fin maxWorkers → List (Submission maxWorkers ι Key τ)
  /-- The tasks each worker's handler has returned from. -/
  handled : Fin maxWorkers → List (Submission maxWorkers ι Key τ)
  /-- The tasks accepted when `stop` was called. -/
  promised : List (Submission maxWorkers ι Key τ)

/-- After `start()`. -/
def start : State cap maxWorkers ι Key τ where
  queues := fun _ => MpscQueue.start
  rr := 0
  running := true
  stopRequested := fun _ => false
  workers := fun _ => .test
  stopper := .idle
  calling := fun _ => none
  submitted := []
  accepted := []
  rejected := []
  begun := fun _ => []
  handled := fun _ => []
  promised := []

inductive Action (ι Key τ : Type*)
  | submit (t : ι) (route : Route Key) (task : τ)
  /-- The next access of a submit in progress. -/
  | push (t : ι) (spurious : Bool)
  | worker (i : ℕ)
  | stop

section Step

variable [DecidableEq ι]

/-- The call of a submit; for `submit_any` with its increment of `rr_counter_`. -/
def submit (p : Layout maxWorkers) (hash : Key → UInt64) (s : State cap maxWorkers ι Key τ)
    (t : ι) (route : Route Key) (task : τ) : Option (State cap maxWorkers ι Key τ) :=
  match s.calling t,target p hash s.rr route with
  | none,some w => do
    let x := ⟨s.submitted.length,t,route,w,task⟩
    let q ← MpscQueue.step (s.queues w) (.push t (.call x))
    some { s with
      queues := Function.update s.queues w q
      rr := match route with
        | .any => s.rr+1
        | _ => s.rr
      calling := Function.update s.calling t (some x)
      submitted := s.submitted ++ [x] }
  | _,_ => none

/-- One access of `try_push`, and the return of the submit after the last one. -/
def push (s : State cap maxWorkers ι Key τ) (t : ι) (spurious : Bool) :
    Option (State cap maxWorkers ι Key τ) :=
  match s.calling t with
  | none => none
  | some x => do
    let q ← MpscQueue.step (s.queues x.worker) (.push t (if spurious then .spurious else .step))
    let s' := { s with queues := Function.update s.queues x.worker q }
    match q.producers t with
    | .returned true => some { s' with
        calling := Function.update s.calling t none
        accepted := s.accepted ++ [x] }
    | .returned false => some { s' with
        calling := Function.update s.calling t none
        rejected := s.rejected ++ [x] }
    | _ => some s'

/-- `worker_loop`. -/
def workerLoop (s : State cap maxWorkers ι Key τ) (w : Fin maxWorkers) :
    WorkerPc (Submission maxWorkers ι Key τ) → Option (State cap maxWorkers ι Key τ)
  | .test =>
    if s.stopRequested w then some { s with workers := Function.update s.workers w .drain }
    else do
      let q ← MpscQueue.step (s.queues w) (.pop .call)
      some { s with
        queues := Function.update s.queues w q
        workers := Function.update s.workers w (.popping false) }
  | .drain => do
    let q ← MpscQueue.step (s.queues w) (.pop .call)
    some { s with
      queues := Function.update s.queues w q
      workers := Function.update s.workers w (.popping true) }
  | .popping draining => do
    let q ← MpscQueue.step (s.queues w) (.pop .step)
    let s' := { s with queues := Function.update s.queues w q }
    match q.popper with
    | .returned (some task) => some { s' with
        workers := Function.update s.workers w (.handling draining task)
        begun := Function.update s.begun w (s.begun w ++ [task]) }
    | .returned none => some { s' with
        workers := Function.update s.workers w (if draining then .exited else .test) }
    | _ => some s'
  | .handling draining task => some { s with
      workers := Function.update s.workers w (if draining then .drain else .test)
      handled := Function.update s.handled w (s.handled w ++ [task]) }
  | .exited => none

/-- `stop`: the exchange of `running_`, a stop request a thread, then the joins. -/
def stop (p : Layout maxWorkers) (s : State cap maxWorkers ι Key τ) :
    StopPc → Option (State cap maxWorkers ι Key τ)
  | .requesting i =>
    if h : i < p.numWorkers then some { s with
      stopRequested := Function.update s.stopRequested ⟨i,h.trans_le p.numWorkers_le⟩ true
      stopper := .requesting (i+1) }
    else some { s with stopper := .joining 0 }
  | .joining i =>
    if h : i < p.numWorkers then
      match s.workers ⟨i,h.trans_le p.numWorkers_le⟩ with
      | .exited => some { s with stopper := .joining (i+1) }
      | _ => none
    else some { s with stopper := .returned }
  | _ =>
    if s.running then some { s with
      running := false
      stopper := .requesting 0
      promised := s.accepted }
    else some { s with stopper := .returned }

def step (p : Layout maxWorkers) (hash : Key → UInt64) (s : State cap maxWorkers ι Key τ) :
    Action ι Key τ → Option (State cap maxWorkers ι Key τ)
  | .submit t route task => submit p hash s t route task
  | .push t spurious => push s t spurious
  | .worker i =>
    if h : i < p.numWorkers then
      workerLoop s ⟨i,h.trans_le p.numWorkers_le⟩ (s.workers ⟨i,h.trans_le p.numWorkers_le⟩)
    else none
  | .stop => stop p s s.stopper

variable {p : Layout maxWorkers} {hash : Key → UInt64} {s s' : State cap maxWorkers ι Key τ}

theorem submit_cases {t : ι} {route : Route Key} {task : τ}
    (h : submit p hash s t route task = some s') :
    ∃ w q rr, s.calling t = none ∧ target p hash s.rr route = some w ∧
      MpscQueue.step (s.queues w) (.push t (.call ⟨s.submitted.length,t,route,w,task⟩)) = some q ∧
      s' = { s with
        queues := Function.update s.queues w q
        rr := rr
        calling := Function.update s.calling t (some ⟨s.submitted.length,t,route,w,task⟩)
        submitted := s.submitted ++ [⟨s.submitted.length,t,route,w,task⟩] } := by
  unfold submit at h
  split at h
  · next w hcalling htarget =>
    obtain ⟨q,hq,hs⟩ := Option.bind_eq_some_iff.mp h
    exact ⟨w,q,_,hcalling,htarget,hq,(Option.some.inj hs).symm⟩
  · cases h

theorem push_cases {t : ι} {spurious : Bool} (h : push s t spurious = some s') :
    ∃ x q a, s.calling t = some x ∧ PushAction.value a = none ∧
      MpscQueue.step (s.queues x.worker) (.push t a) = some q ∧
      (q.producers t = .returned true ∧
        s' = { s with
          queues := Function.update s.queues x.worker q
          calling := Function.update s.calling t none
          accepted := s.accepted ++ [x] } ∨
      q.producers t = .returned false ∧
        s' = { s with
          queues := Function.update s.queues x.worker q
          calling := Function.update s.calling t none
          rejected := s.rejected ++ [x] } ∨
      (∀ ok, q.producers t ≠ .returned ok) ∧
        s' = { s with queues := Function.update s.queues x.worker q }) := by
  unfold push at h
  split at h
  · cases h
  · next x hcalling =>
    obtain ⟨q,hq,hs⟩ := Option.bind_eq_some_iff.mp h
    refine ⟨x,q,_,hcalling,by split <;> rfl,hq,?_⟩
    split at hs
    · next hret => exact .inl ⟨hret,(Option.some.inj hs).symm⟩
    · next hret => exact .inr (.inl ⟨hret,(Option.some.inj hs).symm⟩)
    · next htrue hfalse =>
      exact .inr (.inr ⟨Bool.forall_bool.mpr ⟨hfalse,htrue⟩,(Option.some.inj hs).symm⟩)

theorem workerLoop_cases {w : Fin maxWorkers} (h : workerLoop s w (s.workers w) = some s') :
    (s.workers w = .test ∧ s.stopRequested w = true ∧
      s' = { s with workers := Function.update s.workers w .drain }) ∨
    (∃ q draining,
      (s.workers w = .test ∧ draining = false ∨ s.workers w = .drain ∧ draining = true) ∧
      MpscQueue.step (s.queues w) (.pop .call) = some q ∧
      s' = { s with
        queues := Function.update s.queues w q
        workers := Function.update s.workers w (.popping draining) }) ∨
    (∃ q draining, s.workers w = .popping draining ∧
      MpscQueue.step (s.queues w) (.pop .step) = some q ∧
      ((∃ task, q.popper = .returned (some task) ∧
        s' = { s with
          queues := Function.update s.queues w q
          workers := Function.update s.workers w (.handling draining task)
          begun := Function.update s.begun w (s.begun w ++ [task]) }) ∨
      q.popper = .returned none ∧
        s' = { s with
          queues := Function.update s.queues w q
          workers := Function.update s.workers w (if draining then .exited else .test) } ∨
      (∀ out, q.popper ≠ .returned out) ∧
        s' = { s with queues := Function.update s.queues w q })) ∨
    ∃ draining task, s.workers w = .handling draining task ∧
      s' = { s with
        workers := Function.update s.workers w (if draining then .drain else .test)
        handled := Function.update s.handled w (s.handled w ++ [task]) } := by
  unfold workerLoop at h
  split at h
  · next hw =>
    split at h
    · next hstop => exact .inl ⟨hw,hstop,(Option.some.inj h).symm⟩
    · obtain ⟨q,hq,hs⟩ := Option.bind_eq_some_iff.mp h
      exact .inr (.inl ⟨q,false,.inl ⟨hw,rfl⟩,hq,(Option.some.inj hs).symm⟩)
  · next hw =>
    obtain ⟨q,hq,hs⟩ := Option.bind_eq_some_iff.mp h
    exact .inr (.inl ⟨q,true,.inr ⟨hw,rfl⟩,hq,(Option.some.inj hs).symm⟩)
  · next draining hw =>
    obtain ⟨q,hq,hs⟩ := Option.bind_eq_some_iff.mp h
    refine .inr (.inr (.inl ⟨q,draining,hw,hq,?_⟩))
    split at hs
    · next task hret => exact .inl ⟨task,hret,(Option.some.inj hs).symm⟩
    · next hret => exact .inr (.inl ⟨hret,(Option.some.inj hs).symm⟩)
    · next hsome hnone =>
      refine .inr (.inr ⟨fun out hret => ?_,(Option.some.inj hs).symm⟩)
      cases out with
      | none => exact hnone hret
      | some task => exact hsome task hret
  · next draining task hw => exact .inr (.inr (.inr ⟨draining,task,hw,(Option.some.inj h).symm⟩))
  · cases h

/-- What `f` does not see of a change to one entry. -/
theorem update_unseen {α β γ : Type*} [DecidableEq α] (f : β → γ) {g : α → β} {a : α} {b : β}
    (h : f b = f (g a)) (c : α) : f (Function.update g a b c) = f (g c) := by
  rcases eq_or_ne c a with rfl | hne
  · rw [Function.update_self,h]
  · rw [Function.update_of_ne hne]

omit [DecidableEq ι] in
theorem pushes_update {w : Fin maxWorkers}
    {q : MpscQueue.State cap ι (Submission maxWorkers ι Key τ)}
    (h : q.mem.pushes = (s.queues w).mem.pushes) (v : Fin maxWorkers) :
    (Function.update s.queues w q v).mem.pushes = (s.queues v).mem.pushes :=
  update_unseen (fun q : MpscQueue.State cap ι (Submission maxWorkers ι Key τ) => q.mem.pushes) h v

/-! ### Submits -/

/-- The books on the submits agree with the queues. -/
structure Submits (p : Layout maxWorkers) (hash : Key → UInt64)
    (s : State cap maxWorkers ι Key τ) : Prop where
  queues : ∀ w, Transition.Reachable MpscQueue.step MpscQueue.start (s.queues w)
  numbers : s.submitted.map Submission.number = List.range s.submitted.length
  calls : ∀ w t,
    (s.queues w).calls t = s.submitted.filter fun x => x.producer = t ∧ x.worker = w
  target : ∀ x ∈ s.submitted, ∃ rr, target p hash rr x.route = some x.worker
  current : ∀ w t x, ((s.queues w).producers t).current = some x →
    s.calling t = some x ∧ x.worker = w
  calling : ∀ t x, s.calling t = some x →
    x.producer = t ∧ x ∈ s.submitted ∧ x ∉ s.accepted ∧ x ∉ s.rejected
  outcome : ∀ x ∈ s.submitted, x ∈ s.accepted ∨ x ∈ s.rejected ∨ s.calling x.producer = some x
  accepted : ∀ x ∈ s.accepted, x ∈ s.submitted ∧ x ∉ s.rejected ∧
    (x.producer,x) ∈ (s.queues x.worker).mem.pushes
  rejected : ∀ x ∈ s.rejected, x ∈ s.submitted ∧
    (x.producer,x) ∉ (s.queues x.worker).mem.pushes

theorem start_submits : Submits p hash (start : State cap maxWorkers ι Key τ) where
  queues := fun _ => .start
  numbers := rfl
  calls := fun _ _ => rfl
  target := fun _ hx => by simp [start] at hx
  current := fun _ _ _ hx => by cases hx
  calling := fun _ _ hx => by cases hx
  outcome := fun _ hx => by simp [start] at hx
  accepted := fun _ hx => by simp [start] at hx
  rejected := fun _ hx => by simp [start] at hx

theorem Submits.number_lt (h : Submits p hash s) {x : Submission maxWorkers ι Key τ}
    (hx : x ∈ s.submitted) : x.number < s.submitted.length := by
  have hmem := List.mem_map_of_mem (f := Submission.number) hx
  rw [h.numbers] at hmem
  exact List.mem_range.mp hmem

/-- Later submits have larger numbers. -/
theorem Submits.sorted (h : Submits p hash s) :
    s.submitted.Pairwise fun x y => x.number < y.number := by
  rw [← List.pairwise_map (f := Submission.number),h.numbers]
  exact List.pairwise_lt_range

theorem Submits.nodup (h : Submits p hash s) : s.submitted.Nodup :=
  h.sorted.imp fun hlt heq => by rw [heq] at hlt; exact lt_irrefl _ hlt

/-- A claim of a queue is a submit to its worker. -/
theorem Submits.mem_pushes (h : Submits p hash s) {w : Fin maxWorkers} {t : ι}
    {x : Submission maxWorkers ι Key τ} (hx : (t,x) ∈ (s.queues w).mem.pushes) :
    x.producer = t ∧ x.worker = w ∧ x ∈ s.submitted := by
  have hmem := MpscQueue.calls_of_mem_pushes (h.queues w) hx
  rw [h.calls] at hmem
  obtain ⟨hin,hwho⟩ := List.mem_filter.mp hmem
  obtain ⟨ht,hw⟩ := of_decide_eq_true hwho
  exact ⟨ht,hw,hin⟩

/-- What is still to be claimed is not claimed yet. -/
theorem Submits.pending (h : Submits p hash s) {w : Fin maxWorkers} {t : ι}
    {x : Submission maxWorkers ι Key τ} (hx : ((s.queues w).producers t).pending = some x) :
    (t,x) ∉ (s.queues w).mem.pushes := by
  intro hin
  have hsub := MpscQueue.reachable_ordered (h.queues w) t
  rw [hx,h.calls] at hsub
  have hnodup := hsub.nodup (h.nodup.filter _)
  exact (List.nodup_append.mp hnodup).2.2 x (MpscQueue.mem_claimedBy.mpr hin) x
    (List.mem_singleton_self x) rfl

/-- When one queue takes a step they all stay queues in use. -/
theorem Submits.step_queue (h : Submits p hash s) {w : Fin maxWorkers}
    {a : MpscQueue.Action ι (Submission maxWorkers ι Key τ)}
    {q : MpscQueue.State cap ι (Submission maxWorkers ι Key τ)}
    (hq : MpscQueue.step (s.queues w) a = some q) (v : Fin maxWorkers) :
    Transition.Reachable MpscQueue.step MpscQueue.start (Function.update s.queues w q v) := by
  rcases eq_or_ne v w with rfl | hne
  · rw [Function.update_self]
    exact (h.queues v).next trivial hq
  · rw [Function.update_of_ne hne]
    exact h.queues v

/-- The calls of the queues after a submit. -/
theorem calls_submit {w : Fin maxWorkers} {t : ι} {x : Submission maxWorkers ι Key τ}
    {q : MpscQueue.State cap ι (Submission maxWorkers ι Key τ)}
    (hq : MpscQueue.step (s.queues w) (.push t (.call x)) = some q) (ht : x.producer = t)
    (hw : x.worker = w) (v : Fin maxWorkers) (u : ι) :
    (Function.update s.queues w q v).calls u =
      (s.queues v).calls u ++ [x].filter fun x => x.producer = u ∧ x.worker = v := by
  rcases eq_or_ne v w with rfl | hv
  · rw [Function.update_self,MpscQueue.step_call hq]
    rcases eq_or_ne u t with rfl | hu
    · simp [ht,hw]
    · simp [ht,Function.update_of_ne hu,hu.symm]
  · simp [hw,Function.update_of_ne hv,hv.symm]

/-- What a producer is pushing after a submit of `t`: `t` the new task, another what it was. -/
theorem Submits.current_submit (h : Submits p hash s) {w : Fin maxWorkers} {t : ι}
    {x : Submission maxWorkers ι Key τ} {q : MpscQueue.State cap ι (Submission maxWorkers ι Key τ)}
    (hcalling : s.calling t = none)
    (hq : MpscQueue.step (s.queues w) (.push t (.call x)) = some q) {v : Fin maxWorkers} {u : ι}
    {y : Submission maxWorkers ι Key τ}
    (hy : ((Function.update s.queues w q v).producers u).current = some y) :
    u = t ∧ v = w ∧ y = x ∨ u ≠ t ∧ ((s.queues v).producers u).current = some y := by
  rcases eq_or_ne v w with rfl | hv
  · rw [Function.update_self,MpscQueue.step_call hq] at hy
    rcases eq_or_ne u t with rfl | hu
    · simp only [Function.update_self] at hy
      exact .inl ⟨rfl,rfl,(Option.some.inj hy).symm⟩
    · simp only [Function.update_of_ne hu] at hy
      exact .inr ⟨hu,hy⟩
  · rw [Function.update_of_ne hv] at hy
    refine .inr ⟨?_,hy⟩
    rintro rfl
    rw [(h.current v u y hy).1] at hcalling
    cases hcalling

theorem submit_submits (h : Submits p hash s) {t : ι} {route : Route Key} {task : τ}
    (hstep : submit p hash s t route task = some s') : Submits p hash s' := by
  obtain ⟨w,q,rr,hcalling,htarget,hq,rfl⟩ := submit_cases hstep
  generalize hx : (⟨s.submitted.length,t,route,w,task⟩ : Submission maxWorkers ι Key τ) = x at *
  have hpushes := pushes_update (s := s) (w := w) (q := q) (by rw [MpscQueue.step_call hq])
  have hfresh : ∀ y ∈ s.submitted, y ≠ x := by
    rintro y hy rfl
    have := h.number_lt hy
    rw [← hx] at this
    exact lt_irrefl _ this
  refine {
    queues := h.step_queue hq
    numbers := ?_
    calls := fun v u => ?_
    target := fun y hy => ?_
    current := fun v u y hy => ?_
    calling := fun u y hy => ?_
    outcome := fun y hy => ?_
    accepted := fun y hy => ?_
    rejected := fun y hy => ?_ }
  · rw [List.map_append,h.numbers,List.length_append,← hx]
    exact List.range_succ.symm
  · rw [List.filter_append,← h.calls]
    exact calls_submit hq (by rw [← hx]) (by rw [← hx]) v u
  · rcases List.mem_append.mp hy with hy | hy
    · exact h.target y hy
    · rw [List.mem_singleton.mp hy,← hx]
      exact ⟨s.rr,htarget⟩
  · rcases h.current_submit hcalling hq hy with ⟨rfl,rfl,rfl⟩ | ⟨hu,hold⟩
    · exact ⟨Function.update_self ..,by rw [← hx]⟩
    · obtain ⟨hcall,hw⟩ := h.current v u y hold
      exact ⟨(Function.update_of_ne hu ..).trans hcall,hw⟩
  · rcases eq_or_ne u t with rfl | hu
    · simp only [Function.update_self,Option.some.injEq] at hy
      subst hy
      exact ⟨by rw [← hx],List.mem_append_right _ (List.mem_singleton_self _),
        fun hin => hfresh x (h.accepted x hin).1 rfl,fun hin => hfresh x (h.rejected x hin).1 rfl⟩
    · simp only [Function.update_of_ne hu] at hy
      obtain ⟨hproducer,hin,hrest⟩ := h.calling u y hy
      exact ⟨hproducer,List.mem_append_left _ hin,hrest⟩
  · rcases List.mem_append.mp hy with hy | hy
    · refine (h.outcome y hy).imp id fun hy' => hy'.imp id fun hcall => ?_
      have hu : y.producer ≠ t := by
        rintro rfl
        rw [hcalling] at hcall
        cases hcall
      exact (Function.update_of_ne hu ..).trans hcall
    · rw [List.mem_singleton.mp hy,← hx]
      exact .inr (.inr (Function.update_self ..))
  · obtain ⟨hin,hrej,hclaim⟩ := h.accepted y hy
    exact ⟨List.mem_append_left _ hin,hrej,by rw [hpushes]; exact hclaim⟩
  · obtain ⟨hin,hclaim⟩ := h.rejected y hy
    exact ⟨List.mem_append_left _ hin,by rw [hpushes]; exact hclaim⟩

/-- One access of a submit: it goes on, or claims its position, or returns. -/
theorem Submits.push_effect (h : Submits p hash s) {t : ι} {spurious : Bool}
    (hstep : push s t spurious = some s') :
    ∃ x q a, s.calling t = some x ∧ MpscQueue.step (s.queues x.worker) (.push t a) = some q ∧
      q.calls = (s.queues x.worker).calls ∧ q.pops = (s.queues x.worker).pops ∧
      (∀ u, u ≠ t → q.producers u = (s.queues x.worker).producers u) ∧
      ((q.producers t).current = some x ∧
        (q.mem.pushes = (s.queues x.worker).mem.pushes ∨
          q.mem.pushes = (s.queues x.worker).mem.pushes ++ [(t,x)]) ∧
        s' = { s with queues := Function.update s.queues x.worker q } ∨
      (q.producers t).current = none ∧ q.mem.pushes = (s.queues x.worker).mem.pushes ∧
        (t,x) ∉ q.mem.pushes ∧
        s' = { s with
          queues := Function.update s.queues x.worker q
          calling := Function.update s.calling t none
          rejected := s.rejected ++ [x] } ∨
      (q.producers t).current = none ∧ q.mem.pushes = (s.queues x.worker).mem.pushes ∧
        (t,x) ∈ q.mem.pushes ∧
        s' = { s with
          queues := Function.update s.queues x.worker q
          calling := Function.update s.calling t none
          accepted := s.accepted ++ [x] }) := by
  obtain ⟨x,q,a,hcalling,ha,hq,hs⟩ := push_cases hstep
  obtain ⟨hcalls,hpops,-,hothers,y,hy,heffect⟩ := MpscQueue.step_inCall ha hq
  obtain rfl : y = x := by
    have := (h.current _ _ _ hy).1
    rw [hcalling] at this
    exact (Option.some.inj this).symm
  refine ⟨y,q,a,hcalling,hq,hcalls,hpops,hothers,?_⟩
  have hgoes : (q.producers t).current = some y → ∀ ok, q.producers t ≠ .returned ok := by
    intro hcur ok hret
    rw [hret] at hcur
    cases hcur
  rcases heffect with ⟨hpushes,hcur⟩ | ⟨hpushes,hpending,hcur⟩ | ⟨hpushes,hpending,hret⟩ |
    ⟨hpushes,⟨pos,hclaim⟩,hret⟩
  · rcases hs with ⟨hret,-⟩ | ⟨hret,-⟩ | ⟨-,hs⟩
    · exact absurd hret (hgoes hcur _)
    · exact absurd hret (hgoes hcur _)
    · exact .inl ⟨hcur,.inl hpushes,hs⟩
  · rcases hs with ⟨hret,-⟩ | ⟨hret,-⟩ | ⟨-,hs⟩
    · exact absurd hret (hgoes hcur _)
    · exact absurd hret (hgoes hcur _)
    · exact .inl ⟨hcur,.inr hpushes,hs⟩
  · rcases hs with ⟨hret',-⟩ | ⟨-,hs⟩ | ⟨hret',-⟩
    · cases hret.symm.trans hret'
    · exact .inr (.inl ⟨by rw [hret]; rfl,hpushes,by rw [hpushes]; exact h.pending hpending,hs⟩)
    · exact absurd hret (hret' false)
  · have hin := MpscQueue.reachable_claimed (h.queues y.worker) t y pos hclaim
    rcases hs with ⟨-,hs⟩ | ⟨hret',-⟩ | ⟨hret',-⟩
    · exact .inr (.inr ⟨by rw [hret]; rfl,hpushes,by rwa [hpushes],hs⟩)
    · cases hret.symm.trans hret'
    · exact absurd hret (hret' true)

/-- An access of the submit `x` took its queue to `q`. -/
structure Access (s : State cap maxWorkers ι Key τ) (x : Submission maxWorkers ι Key τ)
    (q : MpscQueue.State cap ι (Submission maxWorkers ι Key τ)) : Prop where
  calling : s.calling x.producer = some x
  step : ∃ a, MpscQueue.step (s.queues x.worker) a = some q
  calls : q.calls = (s.queues x.worker).calls
  others : ∀ u, u ≠ x.producer → q.producers u = (s.queues x.worker).producers u

section Access

variable {x : Submission maxWorkers ι Key τ}
  {q : MpscQueue.State cap ι (Submission maxWorkers ι Key τ)}

theorem Submits.access_queues (h : Submits p hash s) (ha : Access s x q) (v : Fin maxWorkers) :
    Transition.Reachable MpscQueue.step MpscQueue.start (Function.update s.queues x.worker q v) :=
  h.step_queue ha.step.choose_spec v

theorem Submits.access_calls (h : Submits p hash s) (ha : Access s x q) (v : Fin maxWorkers)
    (u : ι) : (Function.update s.queues x.worker q v).calls u =
      s.submitted.filter fun x => x.producer = u ∧ x.worker = v := by
  rw [← h.calls,update_unseen MpscQueue.State.calls ha.calls]

/-- The calls of other threads, and the call of this one if it goes on. -/
theorem Submits.access_current (h : Submits p hash s) (ha : Access s x q) {v : Fin maxWorkers}
    {u : ι} {y : Submission maxWorkers ι Key τ}
    (hy : ((Function.update s.queues x.worker q v).producers u).current = some y) :
    u ≠ x.producer ∧ s.calling u = some y ∧ y.worker = v ∨
      u = x.producer ∧ v = x.worker ∧ (q.producers x.producer).current = some y := by
  rcases eq_or_ne u x.producer with rfl | hu
  · refine .inr ⟨rfl,?_⟩
    rcases eq_or_ne v x.worker with rfl | hv
    · rw [Function.update_self] at hy
      exact ⟨rfl,hy⟩
    · rw [Function.update_of_ne hv] at hy
      obtain ⟨hcall,hw⟩ := h.current v _ y hy
      rw [ha.calling] at hcall
      cases hcall
      exact absurd hw.symm hv
  · refine .inl ⟨hu,h.current v u y ?_⟩
    rcases eq_or_ne v x.worker with rfl | hv
    · rwa [Function.update_self,ha.others u hu] at hy
    · rwa [Function.update_of_ne hv] at hy

/-- The call of `x` is over: the others are as they were. -/
theorem Submits.current_returned (h : Submits p hash s) (ha : Access s x q)
    (hidle : (q.producers x.producer).current = none) (v : Fin maxWorkers) (u : ι)
    (y : Submission maxWorkers ι Key τ)
    (hy : ((Function.update s.queues x.worker q v).producers u).current = some y) :
    Function.update s.calling x.producer none u = some y ∧ y.worker = v := by
  rcases h.access_current ha hy with ⟨hu,hrest⟩ | ⟨-,-,hcur⟩
  · rwa [Function.update_of_ne hu]
  · rw [hidle] at hcur
    cases hcur

theorem Submits.calling_returned (h : Submits p hash s) {u : ι}
    {y : Submission maxWorkers ι Key τ}
    (hy : Function.update s.calling x.producer none u = some y) : y ≠ x ∧ s.calling u = some y := by
  have hu : u ≠ x.producer := by
    rintro rfl
    rw [Function.update_self] at hy
    cases hy
  rw [Function.update_of_ne hu] at hy
  refine ⟨?_,hy⟩
  rintro rfl
  exact hu (h.calling u y hy).1.symm

theorem Submits.outcome_returned (h : Submits p hash s) (ha : Access s x q)
    {y : Submission maxWorkers ι Key τ} (hy : y ∈ s.submitted) (hyx : y ≠ x) :
    y ∈ s.accepted ∨ y ∈ s.rejected ∨
      Function.update s.calling x.producer none y.producer = some y := by
  refine (h.outcome y hy).imp id fun hy' => hy'.imp id fun hcall => ?_
  rw [Function.update_of_ne,hcall]
  intro heq
  rw [heq,ha.calling] at hcall
  exact hyx (Option.some.inj hcall).symm

theorem Submits.goes_on (h : Submits p hash s) (ha : Access s x q)
    (hcur : (q.producers x.producer).current = some x)
    (hgrow : q.mem.pushes = (s.queues x.worker).mem.pushes ∨
      q.mem.pushes = (s.queues x.worker).mem.pushes ++ [(x.producer,x)]) :
    Submits p hash { s with queues := Function.update s.queues x.worker q } := by
  have hkept : ∀ v y, (y.producer,y) ∈ (s.queues v).mem.pushes →
      (y.producer,y) ∈ (Function.update s.queues x.worker q v).mem.pushes := by
    intro v y hy
    rcases eq_or_ne v x.worker with rfl | hv
    · rw [Function.update_self]
      rcases hgrow with hsame | hgrow
      · rwa [hsame]
      · rw [hgrow]
        exact List.mem_append_left _ hy
    · rwa [Function.update_of_ne hv]
  have hfresh : ∀ v y, y ≠ x → (y.producer,y) ∈ (Function.update s.queues x.worker q v).mem.pushes →
      (y.producer,y) ∈ (s.queues v).mem.pushes := by
    intro v y hyx hy
    rcases eq_or_ne v x.worker with rfl | hv
    · rw [Function.update_self] at hy
      rcases hgrow with hsame | hgrow
      · rwa [hsame] at hy
      · rw [hgrow] at hy
        rcases List.mem_append.mp hy with hy | hy
        · exact hy
        · exact absurd (Prod.ext_iff.mp (List.mem_singleton.mp hy)).2 hyx
    · rwa [Function.update_of_ne hv] at hy
  exact { h with
    queues := h.access_queues ha
    calls := h.access_calls ha
    current := fun v u y hy => by
      rcases h.access_current ha hy with ⟨-,hrest⟩ | ⟨rfl,rfl,hy'⟩
      · exact hrest
      · rw [hcur] at hy'
        cases hy'
        exact ⟨ha.calling,rfl⟩
    accepted := fun y hy => by
      obtain ⟨hin,hrej,hclaim⟩ := h.accepted y hy
      exact ⟨hin,hrej,hkept _ y hclaim⟩
    rejected := fun y hy => by
      obtain ⟨hin,hclaim⟩ := h.rejected y hy
      refine ⟨hin,fun hy' => hclaim (hfresh _ y ?_ hy')⟩
      rintro rfl
      exact (h.calling _ y ha.calling).2.2.2 hy }

theorem Submits.refuses (h : Submits p hash s) (ha : Access s x q)
    (hidle : (q.producers x.producer).current = none)
    (hsame : q.mem.pushes = (s.queues x.worker).mem.pushes)
    (hout : (x.producer,x) ∉ q.mem.pushes) :
    Submits p hash { s with
      queues := Function.update s.queues x.worker q
      calling := Function.update s.calling x.producer none
      rejected := s.rejected ++ [x] } := by
  obtain ⟨-,hin,hnacc,-⟩ := h.calling _ x ha.calling
  exact { h with
    queues := h.access_queues ha
    calls := h.access_calls ha
    current := h.current_returned ha hidle
    calling := fun u y hy => by
      obtain ⟨hyx,hcall⟩ := h.calling_returned hy
      obtain ⟨hproducer,hin',hacc,hrej⟩ := h.calling u y hcall
      exact ⟨hproducer,hin',hacc,by simp [hrej,hyx]⟩
    outcome := fun y hy => by
      rcases eq_or_ne y x with rfl | hyx
      · exact .inr (.inl (by simp))
      · exact (h.outcome_returned ha hy hyx).imp id fun hy' =>
          hy'.imp (List.mem_append_left _) id
    accepted := fun y hy => by
      obtain ⟨hin',hrej,hclaim⟩ := h.accepted y hy
      have hyx : y ≠ x := by
        rintro rfl
        exact hnacc hy
      exact ⟨hin',by simp [hrej,hyx],by rw [pushes_update hsame]; exact hclaim⟩
    rejected := fun y hy => by
      rcases List.mem_append.mp hy with hy | hy
      · obtain ⟨hin',hclaim⟩ := h.rejected y hy
        exact ⟨hin',by rw [pushes_update hsame]; exact hclaim⟩
      · rw [List.mem_singleton.mp hy]
        exact ⟨hin,by rw [pushes_update hsame,← hsame]; exact hout⟩ }

theorem Submits.accepts (h : Submits p hash s) (ha : Access s x q)
    (hidle : (q.producers x.producer).current = none)
    (hsame : q.mem.pushes = (s.queues x.worker).mem.pushes)
    (hclaimed : (x.producer,x) ∈ q.mem.pushes) :
    Submits p hash { s with
      queues := Function.update s.queues x.worker q
      calling := Function.update s.calling x.producer none
      accepted := s.accepted ++ [x] } := by
  obtain ⟨-,hin,-,hnrej⟩ := h.calling _ x ha.calling
  exact { h with
    queues := h.access_queues ha
    calls := h.access_calls ha
    current := h.current_returned ha hidle
    calling := fun u y hy => by
      obtain ⟨hyx,hcall⟩ := h.calling_returned hy
      obtain ⟨hproducer,hin',hacc,hrej⟩ := h.calling u y hcall
      exact ⟨hproducer,hin',by simp [hacc,hyx],hrej⟩
    outcome := fun y hy => by
      rcases eq_or_ne y x with rfl | hyx
      · exact .inl (by simp)
      · exact (h.outcome_returned ha hy hyx).imp (List.mem_append_left _) id
    accepted := fun y hy => by
      rcases List.mem_append.mp hy with hy | hy
      · obtain ⟨hin',hrej,hclaim⟩ := h.accepted y hy
        exact ⟨hin',hrej,by rw [pushes_update hsame]; exact hclaim⟩
      · rw [List.mem_singleton.mp hy]
        exact ⟨hin,hnrej,by rw [pushes_update hsame,← hsame]; exact hclaimed⟩
    rejected := fun y hy => by
      obtain ⟨hin',hclaim⟩ := h.rejected y hy
      exact ⟨hin',by rw [pushes_update hsame]; exact hclaim⟩ }

end Access

theorem push_submits (h : Submits p hash s) {t : ι} {spurious : Bool}
    (hstep : push s t spurious = some s') : Submits p hash s' := by
  obtain ⟨x,q,a,hcalling,hq,hqcalls,-,hothers,heffect⟩ := h.push_effect hstep
  obtain rfl := (h.calling t x hcalling).1
  have ha : Access s x q := ⟨hcalling,⟨_,hq⟩,hqcalls,hothers⟩
  rcases heffect with ⟨hcur,hgrow,rfl⟩ | ⟨hidle,hsame,hout,rfl⟩ | ⟨hidle,hsame,hclaimed,rfl⟩
  · exact h.goes_on ha hcur hgrow
  · exact h.refuses ha hidle hsame hout
  · exact h.accepts ha hidle hsame hclaimed

/-- A worker's step inside `try_pop` does not touch the submits. -/
theorem Submits.pop (h : Submits p hash s) {w : Fin maxWorkers} {a : MpscQueue.PopAction}
    {q : MpscQueue.State cap ι (Submission maxWorkers ι Key τ)}
    (hq : MpscQueue.step (s.queues w) (.pop a) = some q) :
    Submits p hash { s with queues := Function.update s.queues w q } := by
  obtain ⟨hpushes,-,hproducers,hcalls⟩ := MpscQueue.tryPop_frame hq
  exact { h with
    queues := h.step_queue hq
    calls := fun v u => by
      rw [update_unseen MpscQueue.State.calls hcalls]
      exact h.calls v u
    current := fun v u y hy => by
      rw [update_unseen MpscQueue.State.producers hproducers] at hy
      exact h.current v u y hy
    accepted := fun y hy => by
      obtain ⟨hin,hrej,hclaim⟩ := h.accepted y hy
      exact ⟨hin,hrej,by rw [pushes_update hpushes]; exact hclaim⟩
    rejected := fun y hy => by
      obtain ⟨hin,hclaim⟩ := h.rejected y hy
      exact ⟨hin,by rw [pushes_update hpushes]; exact hclaim⟩ }

theorem workerLoop_submits (h : Submits p hash s) {w : Fin maxWorkers}
    (hstep : workerLoop s w (s.workers w) = some s') : Submits p hash s' := by
  rcases workerLoop_cases hstep with ⟨-,-,rfl⟩ | ⟨q,_,-,hq,rfl⟩ |
    ⟨q,_,-,hq,⟨_,-,rfl⟩ | ⟨-,rfl⟩ | ⟨-,rfl⟩⟩ | ⟨_,_,-,rfl⟩
  · exact { h with }
  · exact { h.pop hq with }
  · exact { h.pop hq with }
  · exact { h.pop hq with }
  · exact h.pop hq
  · exact { h with }

omit [DecidableEq ι] in
theorem stop_cases (h : stop p s s.stopper = some s') :
    (∃ w : Fin maxWorkers, s.stopper = .requesting w.val ∧ w.val < p.numWorkers ∧
      s' = { s with
        stopRequested := Function.update s.stopRequested w true
        stopper := .requesting (w.val+1) }) ∨
    (∃ i, s.stopper = .requesting i ∧ p.numWorkers ≤ i ∧ s' = { s with stopper := .joining 0 }) ∨
    (∃ w : Fin maxWorkers, s.stopper = .joining w.val ∧ w.val < p.numWorkers ∧
      s.workers w = .exited ∧ s' = { s with stopper := .joining (w.val+1) }) ∨
    (∃ i, s.stopper = .joining i ∧ p.numWorkers ≤ i ∧ s' = { s with stopper := .returned }) ∨
    ((s.stopper = .idle ∨ s.stopper = .returned) ∧ s.running = true ∧
      s' = { s with running := false, stopper := .requesting 0, promised := s.accepted }) ∨
    ((s.stopper = .idle ∨ s.stopper = .returned) ∧ s.running = false ∧
      s' = { s with stopper := .returned }) := by
  cases hpc : s.stopper with
  | requesting i =>
    simp only [hpc,stop] at h
    split_ifs at h with hi
    · exact .inl ⟨⟨i,hi.trans_le p.numWorkers_le⟩,rfl,hi,(Option.some.inj h).symm⟩
    · exact .inr (.inl ⟨i,rfl,not_lt.mp hi,(Option.some.inj h).symm⟩)
  | joining i =>
    simp only [hpc,stop] at h
    split_ifs at h with hi
    · split at h
      · next hw =>
        exact .inr (.inr (.inl ⟨⟨i,hi.trans_le p.numWorkers_le⟩,rfl,hi,hw,
          (Option.some.inj h).symm⟩))
      · cases h
    · exact .inr (.inr (.inr (.inl ⟨i,rfl,not_lt.mp hi,(Option.some.inj h).symm⟩)))
  | idle =>
    simp only [hpc,stop] at h
    split_ifs at h with hrunning
    · exact .inr (.inr (.inr (.inr (.inl ⟨.inl rfl,hrunning,(Option.some.inj h).symm⟩))))
    · exact .inr (.inr (.inr (.inr (.inr ⟨.inl rfl,by simpa using hrunning,
        (Option.some.inj h).symm⟩))))
  | returned =>
    simp only [hpc,stop] at h
    split_ifs at h with hrunning
    · exact .inr (.inr (.inr (.inr (.inl ⟨.inr rfl,hrunning,(Option.some.inj h).symm⟩))))
    · exact .inr (.inr (.inr (.inr (.inr ⟨.inr rfl,by simpa using hrunning,
        (Option.some.inj h).symm⟩))))

theorem stop_submits (h : Submits p hash s) (hstep : stop p s s.stopper = some s') :
    Submits p hash s' := by
  rcases stop_cases hstep with ⟨_,-,-,rfl⟩ | ⟨_,-,-,rfl⟩ | ⟨_,-,-,-,rfl⟩ | ⟨_,-,-,rfl⟩ |
    ⟨-,-,rfl⟩ | ⟨-,-,rfl⟩ <;> exact { h with }

theorem step_submits (h : Submits p hash s) {a : Action ι Key τ}
    (hstep : step p hash s a = some s') : Submits p hash s' := by
  cases a with
  | submit t route task => exact submit_submits h hstep
  | push t spurious => exact push_submits h hstep
  | worker i =>
    simp only [step] at hstep
    split_ifs at hstep with hi
    exact workerLoop_submits h hstep
  | stop => exact stop_submits h hstep

/-! ### Workers -/

/-- A worker has begun what its queue has given out, and finished all of it but the task
it is in. -/
structure Works (s : State cap maxWorkers ι Key τ) : Prop where
  begun : ∀ w, s.begun w = (s.queues w).pops
  handled : ∀ w, s.begun w = s.handled w ++ (s.workers w).current

omit [DecidableEq ι] in
theorem start_works : Works (start : State cap maxWorkers ι Key τ) :=
  ⟨fun _ => rfl,fun _ => rfl⟩

omit [DecidableEq ι] in
theorem Works.setQueue (h : Works s) {w : Fin maxWorkers}
    {q : MpscQueue.State cap ι (Submission maxWorkers ι Key τ)}
    (hpops : q.pops = (s.queues w).pops) :
    ∀ v, s.begun v = (Function.update s.queues w q v).pops := by
  intro v
  rw [update_unseen MpscQueue.State.pops hpops]
  exact h.begun v

omit [DecidableEq ι] in
theorem Works.setWorker (h : Works s) {w : Fin maxWorkers}
    {pc : WorkerPc (Submission maxWorkers ι Key τ)} (hpc : pc.current = (s.workers w).current) :
    ∀ v, s.begun v = s.handled v ++ (Function.update s.workers w pc v).current := by
  intro v
  rw [update_unseen WorkerPc.current hpc]
  exact h.handled v

theorem workerLoop_works (h : Works s) {w : Fin maxWorkers}
    (hstep : workerLoop s w (s.workers w) = some s') : Works s' := by
  rcases workerLoop_cases hstep with ⟨hw,-,rfl⟩ | ⟨q,draining,hw,hq,rfl⟩ |
    ⟨q,draining,hw,hq,hs⟩ | ⟨draining,task,hw,rfl⟩
  · exact ⟨h.begun,h.setWorker (by rw [hw]; rfl)⟩
  · refine ⟨h.setQueue (by rw [MpscQueue.tryPop_call hq]),h.setWorker ?_⟩
    rcases hw with ⟨hw,-⟩ | ⟨hw,-⟩ <;> rw [hw] <;> rfl
  · rcases MpscQueue.tryPop_pops hq with ⟨v,hret,hpops⟩ | ⟨hnone,hpops⟩
    · rcases hs with ⟨task,hret',rfl⟩ | ⟨hret',-⟩ | ⟨hret',-⟩
      · cases hret.symm.trans hret'
        refine ⟨fun u => ?_,fun u => ?_⟩
        · rcases eq_or_ne u w with rfl | hne
          · simp only [Function.update_self]
            rw [hpops,h.begun]
          · simp only [Function.update_of_ne hne]
            exact h.begun u
        · rcases eq_or_ne u w with rfl | hne
          · have hdone := h.handled u
            rw [hw] at hdone
            simp only [Function.update_self]
            rw [hdone]
            simp [WorkerPc.current]
          · simp only [Function.update_of_ne hne]
            exact h.handled u
      · cases hret.symm.trans hret'
      · exact absurd hret (hret' _)
    · rcases hs with ⟨task,hret',-⟩ | ⟨-,rfl⟩ | ⟨-,rfl⟩
      · exact absurd hret' (hnone task)
      · refine ⟨h.setQueue hpops,h.setWorker ?_⟩
        rw [hw]
        cases draining <;> rfl
      · exact ⟨h.setQueue hpops,h.handled⟩
  · refine ⟨h.begun,fun u => ?_⟩
    rcases eq_or_ne u w with rfl | hne
    · have hdone := h.handled u
      rw [hw] at hdone
      simp only [Function.update_self]
      rw [hdone]
      cases draining <;> simp [WorkerPc.current]
    · simp only [Function.update_of_ne hne]
      exact h.handled u

theorem step_works (hsub : Submits p hash s) (h : Works s) {a : Action ι Key τ}
    (hstep : step p hash s a = some s') : Works s' := by
  cases a with
  | submit t route task =>
    obtain ⟨w,q,rr,-,-,hq,rfl⟩ := submit_cases hstep
    exact ⟨h.setQueue (by rw [MpscQueue.step_call hq]),h.handled⟩
  | push t spurious =>
    obtain ⟨x,q,a,-,-,-,hpops,-,⟨-,-,rfl⟩ | ⟨-,-,-,rfl⟩ | ⟨-,-,-,rfl⟩⟩ := hsub.push_effect hstep
    · exact ⟨h.setQueue hpops,h.handled⟩
    · exact ⟨h.setQueue hpops,h.handled⟩
    · exact ⟨h.setQueue hpops,h.handled⟩
  | worker i =>
    simp only [step] at hstep
    split_ifs at hstep with hi
    exact workerLoop_works h hstep
  | stop =>
    rcases stop_cases hstep with ⟨_,-,-,rfl⟩ | ⟨_,-,-,rfl⟩ | ⟨_,-,-,-,rfl⟩ | ⟨_,-,-,rfl⟩ |
      ⟨-,-,rfl⟩ | ⟨-,-,rfl⟩ <;> exact ⟨h.begun,h.handled⟩

structure Books (p : Layout maxWorkers) (hash : Key → UInt64)
    (s : State cap maxWorkers ι Key τ) : Prop extends Submits p hash s, Works s

theorem start_books : Books p hash (start : State cap maxWorkers ι Key τ) :=
  ⟨start_submits,start_works⟩

theorem step_books (h : Books p hash s) {a : Action ι Key τ} (hstep : step p hash s a = some s') :
    Books p hash s' :=
  ⟨step_submits h.toSubmits hstep,step_works h.toSubmits h.toWorks hstep⟩

/-- A worker begins only what was submitted to it. -/
theorem Books.begun_submitted (h : Books p hash s) {w : Fin maxWorkers}
    {x : Submission maxWorkers ι Key τ} (hx : x ∈ s.begun w) : x.worker = w ∧ x ∈ s.submitted := by
  rw [h.begun] at hx
  obtain ⟨⟨t,y⟩,hpush,rfl⟩ :=
    List.mem_map.mp ((MpscQueue.reachable_held (h.queues w)).pops x hx)
  exact (h.mem_pushes hpush).2

theorem Books.handling (h : Books p hash s) {w : Fin maxWorkers} {draining : Bool}
    {x : Submission maxWorkers ι Key τ} (hw : s.workers w = .handling draining x) :
    x.worker = w ∧ x ∈ s.submitted := by
  refine h.begun_submitted ?_
  rw [h.handled,hw]
  exact List.mem_append_right _ (List.mem_singleton_self x)

/-- Only a worker's own steps move it. -/
theorem step_workers {a : Action ι Key τ} (hstep : step p hash s a = some s') {w : Fin maxWorkers}
    (ha : a ≠ .worker w.val) : s'.workers w = s.workers w := by
  cases a with
  | submit t route task =>
    obtain ⟨v,q,rr,-,-,-,rfl⟩ := submit_cases hstep
    rfl
  | push t spurious =>
    obtain ⟨x,q,a,-,-,-,⟨-,rfl⟩ | ⟨-,rfl⟩ | ⟨-,rfl⟩⟩ := push_cases hstep <;> rfl
  | worker i =>
    simp only [step] at hstep
    split_ifs at hstep with hi
    have hne : w ≠ ⟨i,hi.trans_le p.numWorkers_le⟩ := by
      rintro rfl
      exact ha rfl
    rcases workerLoop_cases hstep with ⟨-,-,rfl⟩ | ⟨_,_,-,-,rfl⟩ |
      ⟨_,_,-,-,⟨_,-,rfl⟩ | ⟨-,rfl⟩ | ⟨-,rfl⟩⟩ | ⟨_,_,-,rfl⟩
    · exact Function.update_of_ne hne ..
    · exact Function.update_of_ne hne ..
    · exact Function.update_of_ne hne ..
    · exact Function.update_of_ne hne ..
    · rfl
    · exact Function.update_of_ne hne ..
  | stop =>
    rcases stop_cases hstep with ⟨_,-,-,rfl⟩ | ⟨_,-,-,rfl⟩ | ⟨_,-,-,-,rfl⟩ | ⟨_,-,-,rfl⟩ |
      ⟨-,-,rfl⟩ | ⟨-,-,rfl⟩ <;> rfl

/-- Only a call adds to the submits. -/
theorem step_submitted {a : Action ι Key τ} (hstep : step p hash s a = some s')
    (ha : ∀ t route task, a ≠ .submit t route task) : s'.submitted = s.submitted := by
  cases a with
  | submit t route task => exact absurd rfl (ha t route task)
  | push t spurious =>
    obtain ⟨x,q,a,-,-,-,⟨-,rfl⟩ | ⟨-,rfl⟩ | ⟨-,rfl⟩⟩ := push_cases hstep <;> rfl
  | worker i =>
    simp only [step] at hstep
    split_ifs at hstep with hi
    rcases workerLoop_cases hstep with ⟨-,-,rfl⟩ | ⟨_,_,-,-,rfl⟩ |
      ⟨_,_,-,-,⟨_,-,rfl⟩ | ⟨-,rfl⟩ | ⟨-,rfl⟩⟩ | ⟨_,_,-,rfl⟩ <;> rfl
  | stop =>
    rcases stop_cases hstep with ⟨_,-,-,rfl⟩ | ⟨_,-,-,rfl⟩ | ⟨_,-,-,-,rfl⟩ | ⟨_,-,-,rfl⟩ |
      ⟨-,-,rfl⟩ | ⟨-,-,rfl⟩ <;> rfl

theorem reachable_books (h : Transition.Reachable (step p hash) start s) : Books p hash s := by
  refine Transition.ReachableBy.invariant start_books ?_ h
  exact fun s a t hs _ hstep => step_books hs hstep

end Step
end ThreadPool
end Marketlib
