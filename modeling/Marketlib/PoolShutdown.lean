import Marketlib.DispatchOrder

/-! What `stop` leaves behind. The drain of a worker ends at the first `try_pop` that fails,
and that is one whose slot is claimed and not published, even where accepted tasks lie
published behind it. `stop` keeps its promise in exactly the runs in which no drain ends so. -/

namespace Marketlib
namespace ThreadPool

variable {cap : Capacity} {maxWorkers : ℕ} {ι Key τ : Type*}

/-- The handler was called with the task by one worker, once. -/
def HandledOnce (s : State cap maxWorkers ι Key τ) (x : Submission maxWorkers ι Key τ) : Prop :=
  ∃! e : Fin maxWorkers × ℕ, (s.handled e.1)[e.2]? = some x

/-- In the `try_pop` of the drain. -/
def WorkerPc.draining {σ : Type*} : WorkerPc σ → Bool
  | .popping draining => draining
  | _ => false

/-- Past the loop that tests for the stop request. -/
def WorkerPc.stopping {σ : Type*} : WorkerPc σ → Bool
  | .test => false
  | .drain => true
  | .popping draining => draining
  | .handling draining _ => draining
  | .exited => true

/-- The threads before this one are joined. -/
def StopPc.joined (numWorkers : ℕ) : StopPc → ℕ
  | .joining i => i
  | .returned => numWorkers
  | _ => 0

/-- The drain of the worker is about to end with a promised task ready in its queue. -/
def Skips (s : State cap maxWorkers ι Key τ) (w : Fin maxWorkers) : Prop :=
  (s.workers w).draining = true ∧
    (∃ tail ∈ (s.queues w).popper.testing, (s.queues w).mem.seq (cap.slot tail) ≠ tail+1) ∧
    ∃ x ∈ s.promised, x ∈ MpscQueue.ready (s.queues w)

/-- No drain skips a promised task, and `stop` is called when all that was accepted went to
registered workers. -/
def Careful (p : Layout maxWorkers) (s : State cap maxWorkers ι Key τ) : Action ι Key τ → Prop
  | .worker i => ∀ w : Fin maxWorkers, w.val = i → ¬Skips s w
  | .stop => s.stopper = .idle → ∀ x ∈ s.accepted, x.worker.val < p.numWorkers
  | _ => True

section Decide

variable [DecidableEq ι] [DecidableEq Key] [DecidableEq τ]

instance decidableSkips (s : State cap maxWorkers ι Key τ) (w : Fin maxWorkers) :
    Decidable (Skips s w) :=
  inferInstanceAs (Decidable (_ ∧ _ ∧ _))

instance decidableCareful (p : Layout maxWorkers) (s : State cap maxWorkers ι Key τ) :
    ∀ a, Decidable (Careful p s a)
  | .worker i => inferInstanceAs (Decidable (∀ w : Fin maxWorkers, w.val = i → ¬Skips s w))
  | .stop =>
    inferInstanceAs (Decidable (s.stopper = .idle → ∀ x ∈ s.accepted, x.worker.val < p.numWorkers))
  | .submit .. => isTrue trivial
  | .push .. => isTrue trivial

end Decide

variable [DecidableEq ι] {p : Layout maxWorkers} {hash : Key → UInt64}
  {s s' : State cap maxWorkers ι Key τ}

/-! ### What each party leaves alone -/

/-- What a submit does not touch. -/
structure Steady (s s' : State cap maxWorkers ι Key τ) : Prop where
  running : s'.running = s.running
  stopRequested : s'.stopRequested = s.stopRequested
  workers : s'.workers = s.workers
  stopper : s'.stopper = s.stopper
  accepted : s.accepted ⊆ s'.accepted
  handled : s'.handled = s.handled
  promised : s'.promised = s.promised

theorem submit_steady {t : ι} {route : Route Key} {task : τ}
    (h : submit p hash s t route task = some s') : Steady s s' := by
  obtain ⟨w,q,rr,-,-,-,rfl⟩ := submit_cases h
  exact ⟨rfl,rfl,rfl,rfl,List.Subset.refl _,rfl,rfl⟩

theorem push_steady {t : ι} {spurious : Bool} (h : push s t spurious = some s') :
    Steady s s' := by
  obtain ⟨x,q,a,-,-,-,⟨-,rfl⟩ | ⟨-,rfl⟩ | ⟨-,rfl⟩⟩ := push_cases h
  · exact ⟨rfl,rfl,rfl,rfl,List.subset_append_left ..,rfl,rfl⟩
  · exact ⟨rfl,rfl,rfl,rfl,List.Subset.refl _,rfl,rfl⟩
  · exact ⟨rfl,rfl,rfl,rfl,List.Subset.refl _,rfl,rfl⟩

/-- What a step of worker `w` does not touch, and how it moves on. -/
structure Turn (w : Fin maxWorkers) (s s' : State cap maxWorkers ι Key τ) : Prop where
  running : s'.running = s.running
  stopRequested : s'.stopRequested = s.stopRequested
  stopper : s'.stopper = s.stopper
  accepted : s'.accepted = s.accepted
  promised : s'.promised = s.promised
  alive : s.workers w ≠ .exited
  workers : ∃ pc, s'.workers = Function.update s.workers w pc ∧
    (pc.stopping = true → (s.workers w).stopping = true ∨ s.stopRequested w = true)
  handled : ∃ xs, s'.handled = Function.update s.handled w (s.handled w ++ xs)

omit [DecidableEq ι] in
theorem Turn.others {w : Fin maxWorkers} (h : Turn w s s') {v : Fin maxWorkers} (hv : v ≠ w) :
    s'.workers v = s.workers v ∧ s'.handled v = s.handled v := by
  obtain ⟨pc,hpc,-⟩ := h.workers
  obtain ⟨xs,hxs⟩ := h.handled
  rw [hpc,hxs,Function.update_of_ne hv,Function.update_of_ne hv]
  exact ⟨rfl,rfl⟩

omit [DecidableEq ι] in
theorem Turn.handled_subset {w : Fin maxWorkers} (h : Turn w s s') (v : Fin maxWorkers) :
    s.handled v ⊆ s'.handled v := by
  obtain ⟨xs,hxs⟩ := h.handled
  rw [hxs]
  rcases eq_or_ne v w with rfl | hv
  · rw [Function.update_self]
    exact List.subset_append_left ..
  · rw [Function.update_of_ne hv]
    exact List.Subset.refl _

theorem workerLoop_turn {w : Fin maxWorkers} (h : workerLoop s w (s.workers w) = some s') :
    Turn w s s' := by
  have hnone : s.handled = Function.update s.handled w (s.handled w ++ []) := by
    rw [List.append_nil,Function.update_eq_self]
  rcases workerLoop_cases h with ⟨hw,hstop,rfl⟩ | ⟨q,draining,hw,-,rfl⟩ |
    ⟨q,draining,hw,-,⟨task,-,rfl⟩ | ⟨-,rfl⟩ | ⟨-,rfl⟩⟩ | ⟨draining,task,hw,rfl⟩
  · exact ⟨rfl,rfl,rfl,rfl,rfl,by rw [hw]; nofun,⟨_,rfl,fun _ => .inr hstop⟩,⟨[],hnone⟩⟩
  · refine ⟨rfl,rfl,rfl,rfl,rfl,?_,⟨_,rfl,fun hpc => .inl ?_⟩,⟨[],hnone⟩⟩
    · rcases hw with ⟨hw,-⟩ | ⟨hw,-⟩ <;> rw [hw] <;> nofun
    · rcases hw with ⟨-,rfl⟩ | ⟨hw,-⟩
      · cases hpc
      · rw [hw]
        rfl
  · exact ⟨rfl,rfl,rfl,rfl,rfl,by rw [hw]; nofun,⟨_,rfl,fun hpc => .inl (by rw [hw]; exact hpc)⟩,
      ⟨[],hnone⟩⟩
  · refine ⟨rfl,rfl,rfl,rfl,rfl,by rw [hw]; nofun,⟨_,rfl,fun hpc => .inl ?_⟩,⟨[],hnone⟩⟩
    rw [hw]
    cases draining
    · cases hpc
    · rfl
  · exact ⟨rfl,rfl,rfl,rfl,rfl,by rw [hw]; nofun,
      ⟨_,(Function.update_eq_self w s.workers).symm,.inl⟩,⟨[],hnone⟩⟩
  · refine ⟨rfl,rfl,rfl,rfl,rfl,by rw [hw]; nofun,⟨_,rfl,fun hpc => .inl ?_⟩,⟨[task],rfl⟩⟩
    rw [hw]
    cases draining
    · cases hpc
    · rfl

/-- Where the drain of a worker ends. -/
theorem workerLoop_exited {w : Fin maxWorkers} (h : workerLoop s w (s.workers w) = some s')
    (hexited : s'.workers w = .exited) :
    (s.workers w).draining = true ∧
      ∃ tail, (s.queues w).popper.testing = some tail ∧
        (s.queues w).mem.seq (cap.slot tail) ≠ tail+1 := by
  rcases workerLoop_cases h with ⟨-,-,rfl⟩ | ⟨q,draining,-,-,rfl⟩ |
    ⟨q,draining,hw,hq,⟨task,-,rfl⟩ | ⟨hnone,rfl⟩ | ⟨-,rfl⟩⟩ | ⟨draining,task,-,rfl⟩
  · simp at hexited
  · simp at hexited
  · simp at hexited
  · cases draining
    · simp at hexited
    · exact ⟨by rw [hw]; rfl,MpscQueue.tryPop_none hq hnone⟩
  · rw [hw] at hexited
    cases hexited
  · cases draining <;> simp at hexited

/-- A drain that skips a task ends. -/
theorem Skips.exits {w : Fin maxWorkers} (h : Skips s w)
    (hstep : workerLoop s w (s.workers w) = some s') :
    s'.workers w = .exited ∧ s'.handled w = s.handled w := by
  obtain ⟨hdraining,⟨tail,htail,hne⟩,-⟩ := h
  rcases workerLoop_cases hstep with ⟨hw,-,-⟩ | ⟨q,draining,hw,-,-⟩ |
    ⟨q,draining,hw,hq,hs⟩ | ⟨draining,task,hw,-⟩
  · rw [hw] at hdraining
    cases hdraining
  · rcases hw with ⟨hw,-⟩ | ⟨hw,-⟩ <;> rw [hw] at hdraining <;> cases hdraining
  · rw [hw] at hdraining
    obtain rfl : draining = true := hdraining
    have hnone := MpscQueue.tryPop_failed hq htail hne
    rcases hs with ⟨task,hret,-⟩ | ⟨-,rfl⟩ | ⟨hgo,-⟩
    · rw [hnone] at hret
      cases hret
    · exact ⟨Function.update_self ..,rfl⟩
    · exact absurd hnone (hgo _)
  · rw [hw] at hdraining
    cases hdraining

/-! ### The phases of a shutdown -/

/-- Workers drain after their stop request, requests are made after `running_` is cleared,
and `stop` passes a thread when it has exited. -/
structure Phases (p : Layout maxWorkers) (s : State cap maxWorkers ι Key τ) : Prop where
  stopping : ∀ w, (s.workers w).stopping = true → s.stopRequested w = true
  requested : ∀ w, s.stopRequested w = true → s.running = false
  running : s.running = true ↔ s.stopper = .idle
  promised : ∀ x ∈ s.promised, x ∈ s.accepted ∧ s.running = false
  joined : ∀ w : Fin maxWorkers, w.val < s.stopper.joined p.numWorkers → s.workers w = .exited
  unserved : ∀ w : Fin maxWorkers, p.numWorkers ≤ w.val → s.handled w = []

omit [DecidableEq ι] in
theorem start_phases : Phases p (start : State cap maxWorkers ι Key τ) where
  stopping := nofun
  requested := nofun
  running := ⟨fun _ => rfl,fun _ => rfl⟩
  promised := nofun
  joined := nofun
  unserved := fun _ _ => rfl

omit [DecidableEq ι] in
theorem Phases.steady (h : Phases p s) (hs : Steady s s') : Phases p s' where
  stopping := fun w hw => by
    rw [hs.workers] at hw
    rw [hs.stopRequested]
    exact h.stopping w hw
  requested := fun w hw => by
    rw [hs.stopRequested] at hw
    rw [hs.running]
    exact h.requested w hw
  running := by
    rw [hs.running,hs.stopper]
    exact h.running
  promised := fun x hx => by
    rw [hs.promised] at hx
    rw [hs.running]
    exact (h.promised x hx).imp (@hs.accepted x) id
  joined := fun w hw => by
    rw [hs.stopper] at hw
    rw [hs.workers]
    exact h.joined w hw
  unserved := fun w hw => by
    rw [hs.handled]
    exact h.unserved w hw

omit [DecidableEq ι] in
theorem Phases.turn (h : Phases p s) {w : Fin maxWorkers} (hw : w.val < p.numWorkers)
    (ht : Turn w s s') : Phases p s' where
  stopping := fun v hv => by
    rw [ht.stopRequested]
    rcases eq_or_ne v w with rfl | hne
    · obtain ⟨pc,hpc,hstopping⟩ := ht.workers
      rw [hpc,Function.update_self] at hv
      exact (hstopping hv).elim (h.stopping v) id
    · rw [(ht.others hne).1] at hv
      exact h.stopping v hv
  requested := fun v hv => by
    rw [ht.stopRequested] at hv
    rw [ht.running]
    exact h.requested v hv
  running := by
    rw [ht.running,ht.stopper]
    exact h.running
  promised := fun x hx => by
    rw [ht.promised] at hx
    rw [ht.accepted,ht.running]
    exact h.promised x hx
  joined := fun v hv => by
    rw [ht.stopper] at hv
    have hexited := h.joined v hv
    have hne : v ≠ w := by
      rintro rfl
      exact ht.alive hexited
    rw [(ht.others hne).1,hexited]
  unserved := fun v hv => by
    have hne : v ≠ w := by
      rintro rfl
      exact absurd hw (not_lt.mpr hv)
    rw [(ht.others hne).2]
    exact h.unserved v hv

omit [DecidableEq ι] in
theorem Phases.not_returned (h : Phases p s) (hrunning : s.running = true) :
    s.promised = [] ∧ ∀ w, s.workers w ≠ .exited := by
  refine ⟨List.eq_nil_iff_forall_not_mem.mpr fun x hx => ?_,fun w hw => ?_⟩
  · rw [(h.promised x hx).2] at hrunning
    cases hrunning
  · rw [h.requested w (h.stopping w (by rw [hw]; rfl))] at hrunning
    cases hrunning

omit [DecidableEq ι] in
theorem stop_phases (h : Phases p s) (hstep : stop p s s.stopper = some s') : Phases p s' := by
  have hbusy : s.stopper ≠ .idle → s.running = false := by
    intro hne
    rwa [ne_eq,← h.running,Bool.not_eq_true] at hne
  rcases stop_cases hstep with ⟨w,hpc,-,rfl⟩ | ⟨i,hpc,-,rfl⟩ | ⟨w,hpc,-,hw,rfl⟩ | ⟨i,hpc,hi,rfl⟩ |
    ⟨hpc,hrunning,rfl⟩ | ⟨hpc,hrunning,rfl⟩
  · have hstopped := hbusy (by rw [hpc]; nofun)
    exact {
      stopping := fun v hv => by
        rcases eq_or_ne v w with rfl | hne
        · exact Function.update_self ..
        · exact (Function.update_of_ne hne ..).trans (h.stopping v hv)
      requested := fun _ _ => hstopped
      running := by simp [hstopped]
      promised := h.promised
      joined := nofun
      unserved := h.unserved }
  · exact { h with
      running := by simp [hbusy (by rw [hpc]; nofun)]
      joined := nofun }
  · exact { h with
      running := by simp [hbusy (by rw [hpc]; nofun)]
      joined := fun v hv => by
        rcases Nat.lt_succ_iff_lt_or_eq.mp hv with hlt | heq
        · exact h.joined v (by rw [hpc]; exact hlt)
        · rw [Fin.ext heq]
          exact hw }
  · exact { h with
      running := by simp [hbusy (by rw [hpc]; nofun)]
      joined := fun v hv => h.joined v (by rw [hpc]; exact hv.trans_le hi) }
  · exact {
      stopping := h.stopping
      requested := fun _ _ => rfl
      running := by simp
      promised := fun x hx => ⟨hx,rfl⟩
      joined := nofun
      unserved := h.unserved }
  · have hreturned : s.stopper = .returned := by
      refine hpc.resolve_left fun hidle => ?_
      rw [h.running.mpr hidle] at hrunning
      cases hrunning
    exact { h with
      running := by simp [hrunning]
      joined := fun v hv => h.joined v (by rw [hreturned]; exact hv) }

theorem step_phases (h : Phases p s) {a : Action ι Key τ} (hstep : step p hash s a = some s') :
    Phases p s' := by
  cases a with
  | submit t route task => exact h.steady (submit_steady hstep)
  | push t spurious => exact h.steady (push_steady hstep)
  | worker i =>
    simp only [step] at hstep
    split_ifs at hstep with hi
    exact h.turn (w := ⟨i,_⟩) hi (workerLoop_turn hstep)
  | stop => exact stop_phases h hstep

/-! ### Careful runs -/

/-- An exited worker has handled what it was promised, and all that was promised has one. -/
structure Kept (p : Layout maxWorkers) (s : State cap maxWorkers ι Key τ) : Prop where
  exited : ∀ w, s.workers w = .exited → ∀ x ∈ s.promised, x.worker = w → x ∈ s.handled w
  registered : ∀ x ∈ s.promised, x.worker.val < p.numWorkers

/-- What was accepted and is not popped is ready whenever the worker tests a slot. -/
theorem Books.ready (h : Books p hash s) {w : Fin maxWorkers}
    (hb : (s.queues w).mem.pushes.length ≤ 2^64) {tail : UInt64}
    (htail : (s.queues w).popper.testing = some tail) {x : Submission maxWorkers ι Key τ}
    (hx : x ∈ s.accepted) (hw : x.worker = w) (hbegun : x ∉ s.begun w) :
    x ∈ MpscQueue.ready (s.queues w) := by
  obtain ⟨r,hr⟩ := MpscQueue.reachable_sound (h.queues w) hb
  obtain ⟨-,-,hclaimed⟩ := h.accepted x hx
  rw [hw] at hclaimed
  obtain ⟨j,hj⟩ := List.getElem?_of_mem hclaimed
  have hle : (s.queues w).pops.length ≤ j := by
    by_contra hlt
    apply hbegun
    rw [h.begun]
    obtain ⟨rest,hrest⟩ := hr.pops
    have hmap : ((s.queues w).mem.pushes.map Prod.snd)[j]? = some x := by
      rw [List.getElem?_map,hj]
      rfl
    rw [← hrest,List.getElem?_append_left (not_le.mp hlt)] at hmap
    exact List.mem_of_getElem? hmap
  rcases hr.published htail hj hle with hseq | ⟨pos,hclaim⟩
  · exact MpscQueue.mem_ready.mpr ⟨_,j,hle,hj,hseq⟩
  · -- the submit would still be going on
    have hcurrent : ((s.queues w).producers x.producer).current = some x :=
      PushPc.current_of_claim hclaim
    exact absurd hx (h.calling _ x (h.current w _ x hcurrent).1).2.2.1

/-- A drain that skips nothing ends when all that was promised is handled. -/
theorem Books.drained (h : Books p hash s) {w : Fin maxWorkers}
    (hb : (s.queues w).mem.pushes.length ≤ 2^64) (hpromised : ∀ x ∈ s.promised, x ∈ s.accepted)
    (hcareful : ¬Skips s w) (hstep : workerLoop s w (s.workers w) = some s')
    (hexited : s'.workers w = .exited) :
    ∀ x ∈ s.promised, x.worker = w → x ∈ s.handled w := by
  intro x hx hw
  obtain ⟨hdraining,tail,htail,hne⟩ := workerLoop_exited hstep hexited
  have hidle : (s.workers w).current = [] := by
    cases hpc : s.workers w <;> simp_all [WorkerPc.draining,WorkerPc.current]
  have hbegun : s.begun w = s.handled w := by rw [h.handled,hidle,List.append_nil]
  by_contra hnot
  rw [← hbegun] at hnot
  exact hcareful ⟨hdraining,⟨tail,htail,hne⟩,x,hx,h.ready hb htail (hpromised x hx) hw hnot⟩

omit [DecidableEq ι] in
theorem Kept.steady (h : Kept p s) (hs : Steady s s') : Kept p s' where
  exited := by
    rw [hs.workers,hs.promised,hs.handled]
    exact h.exited
  registered := by
    rw [hs.promised]
    exact h.registered

omit [DecidableEq ι] in
theorem stop_kept (hphases : Phases p s) (h : Kept p s)
    (hcareful : Careful p s (.stop : Action ι Key τ)) (hstep : stop p s s.stopper = some s') :
    Kept p s' := by
  rcases stop_cases hstep with ⟨_,-,-,rfl⟩ | ⟨_,-,-,rfl⟩ | ⟨_,-,-,-,rfl⟩ | ⟨_,-,-,rfl⟩ |
    ⟨hpc,hrunning,rfl⟩ | ⟨-,-,rfl⟩
  · exact ⟨h.exited,h.registered⟩
  · exact ⟨h.exited,h.registered⟩
  · exact ⟨h.exited,h.registered⟩
  · exact ⟨h.exited,h.registered⟩
  · exact ⟨fun w hw => absurd hw ((hphases.not_returned hrunning).2 w),
      hcareful (hphases.running.mp hrunning)⟩
  · exact ⟨h.exited,h.registered⟩

theorem step_kept (hbooks : Books p hash s) (hphases : Phases p s) (h : Kept p s)
    (hb : ∀ w, (s.queues w).mem.pushes.length ≤ 2^64) {a : Action ι Key τ}
    (hcareful : Careful p s a) (hstep : step p hash s a = some s') : Kept p s' := by
  cases a with
  | submit t route task => exact h.steady (submit_steady hstep)
  | push t spurious => exact h.steady (push_steady hstep)
  | worker i =>
    simp only [step] at hstep
    split_ifs at hstep with hi
    have ht := workerLoop_turn hstep
    refine ⟨fun v hv x hx hw => ?_,by rw [ht.promised]; exact h.registered⟩
    rw [ht.promised] at hx
    rcases eq_or_ne v ⟨i,hi.trans_le p.numWorkers_le⟩ with rfl | hne
    · exact ht.handled_subset _ (hbooks.drained (hb _) (fun y hy => (hphases.promised y hy).1)
        (hcareful _ rfl) hstep hv x hx hw)
    · rw [(ht.others hne).1] at hv
      exact ht.handled_subset v (h.exited v hv x hx hw)
  | stop => exact stop_kept hphases h hcareful hstep

theorem step_queues {a : Action ι Key τ} (hstep : step p hash s a = some s') (w : Fin maxWorkers) :
    (s.queues w).mem.pushes <+: (s'.queues w).mem.pushes := by
  have hset : ∀ {v b q}, MpscQueue.step (s.queues v) b = some q →
      (s.queues w).mem.pushes <+: (Function.update s.queues v q w).mem.pushes := by
    intro v b q hq
    rcases eq_or_ne w v with rfl | hne
    · rw [Function.update_self]
      exact MpscQueue.step_pushes hq
    · rw [Function.update_of_ne hne]
  cases a with
  | submit t route task =>
    obtain ⟨v,q,rr,-,-,hq,rfl⟩ := submit_cases hstep
    exact hset hq
  | push t spurious =>
    obtain ⟨x,q,b,-,-,hq,⟨-,rfl⟩ | ⟨-,rfl⟩ | ⟨-,rfl⟩⟩ := push_cases hstep
    · exact hset hq
    · exact hset hq
    · exact hset hq
  | worker i =>
    simp only [step] at hstep
    split_ifs at hstep with hi
    rcases workerLoop_cases hstep with ⟨-,-,rfl⟩ | ⟨q,_,-,hq,rfl⟩ |
      ⟨q,_,-,hq,⟨_,-,rfl⟩ | ⟨-,rfl⟩ | ⟨-,rfl⟩⟩ | ⟨_,_,-,rfl⟩
    · exact List.prefix_rfl
    · exact hset hq
    · exact hset hq
    · exact hset hq
    · exact hset hq
    · exact List.prefix_rfl
  | stop =>
    rcases stop_cases hstep with ⟨_,-,-,rfl⟩ | ⟨_,-,-,rfl⟩ | ⟨_,-,-,-,rfl⟩ | ⟨_,-,-,rfl⟩ |
      ⟨-,-,rfl⟩ | ⟨-,-,rfl⟩ <;> exact List.prefix_rfl

/-- Only `submit_to_worker` can reach a queue that no worker serves. -/
theorem Submits.careful_stop (h : Submits p hash s)
    (hidx : ∀ x ∈ s.accepted, ∀ idx, x.route = .toWorker idx → idx < p.numWorkers) :
    Careful p s (.stop : Action ι Key τ) := by
  intro _ x hx
  obtain ⟨rr,htarget⟩ := h.target x (h.accepted x hx).1
  by_cases hroute : ∀ idx, x.route ≠ .toWorker idx
  · exact target_lt htarget hroute
  · obtain ⟨idx,heq⟩ := not_forall_not.mp hroute
    rw [heq,ThreadPool.target] at htarget
    split_ifs at htarget
    rw [← Option.some.inj htarget]
    exact hidx x hx idx heq

/-! ### Careless runs -/

/-- A promised task that no worker will handle. -/
structure Lost (p : Layout maxWorkers) (s : State cap maxWorkers ι Key τ)
    (x : Submission maxWorkers ι Key τ) : Prop where
  promised : x ∈ s.promised
  running : s.running = false
  unhandled : x ∉ s.handled x.worker
  unserved : s.workers x.worker = .exited ∨ p.numWorkers ≤ x.worker.val

omit [DecidableEq ι] in
theorem Lost.steady {x : Submission maxWorkers ι Key τ} (h : Lost p s x) (hs : Steady s s') :
    Lost p s' x where
  promised := by
    rw [hs.promised]
    exact h.promised
  running := by
    rw [hs.running]
    exact h.running
  unhandled := by
    rw [hs.handled]
    exact h.unhandled
  unserved := by
    rw [hs.workers]
    exact h.unserved

theorem step_lost {x : Submission maxWorkers ι Key τ} (h : Lost p s x) {a : Action ι Key τ}
    (hstep : step p hash s a = some s') : Lost p s' x := by
  cases a with
  | submit t route task => exact h.steady (submit_steady hstep)
  | push t spurious => exact h.steady (push_steady hstep)
  | worker i =>
    simp only [step] at hstep
    split_ifs at hstep with hi
    have ht := workerLoop_turn hstep
    have hne : x.worker ≠ ⟨i,hi.trans_le p.numWorkers_le⟩ := by
      intro heq
      rcases h.unserved with hexited | hle
      · rw [heq] at hexited
        exact ht.alive hexited
      · rw [heq] at hle
        exact absurd hi (not_lt.mpr hle)
    obtain ⟨hworkers,hhandled⟩ := ht.others hne
    exact {
      promised := by rw [ht.promised]; exact h.promised
      running := by rw [ht.running]; exact h.running
      unhandled := by rw [hhandled]; exact h.unhandled
      unserved := by rw [hworkers]; exact h.unserved }
  | stop =>
    rcases stop_cases hstep with ⟨_,-,-,rfl⟩ | ⟨_,-,-,rfl⟩ | ⟨_,-,-,-,rfl⟩ | ⟨_,-,-,rfl⟩ |
      ⟨-,hrunning,-⟩ | ⟨-,-,rfl⟩
    · exact ⟨h.promised,h.running,h.unhandled,h.unserved⟩
    · exact ⟨h.promised,h.running,h.unhandled,h.unserved⟩
    · exact ⟨h.promised,h.running,h.unhandled,h.unserved⟩
    · exact ⟨h.promised,h.running,h.unhandled,h.unserved⟩
    · rw [h.running] at hrunning
      cases hrunning
    · exact ⟨h.promised,h.running,h.unhandled,h.unserved⟩

/-- What is ready is not begun. -/
theorem Books.ready_not_begun (h : Books p hash s) {w : Fin maxWorkers}
    (hb : (s.queues w).mem.pushes.length ≤ 2^64) {x : Submission maxWorkers ι Key τ}
    (hx : x ∈ MpscQueue.ready (s.queues w)) : x.worker = w ∧ x ∉ s.begun w := by
  obtain ⟨t,j,hle,hj,-⟩ := MpscQueue.mem_ready.mp hx
  refine ⟨(h.mem_pushes (List.mem_of_getElem? hj)).2.1,fun hbegun => ?_⟩
  obtain ⟨i,hi⟩ := List.getElem?_of_mem hbegun
  have hlt : i < (s.queues w).pops.length := by
    rw [← h.begun]
    exact (List.getElem?_eq_some_iff.mp hi).1
  have hfirst := prefix_getElem? (h.begun_pushes hb) hi
  have hlast : ((s.queues w).mem.pushes.map Prod.snd)[j]? = some x := by
    rw [List.getElem?_map,hj]
    rfl
  have hnodup : ((s.queues w).mem.pushes.map Prod.snd).Nodup :=
    (h.pushes_pairwise w).imp And.left
  have heq := (List.getElem?_inj (List.getElem?_eq_some_iff.mp hfirst).1 hnodup).mp
    (hfirst.trans hlast.symm)
  omega

/-- A careless step loses a task. -/
theorem step_careless (hbooks : Books p hash s) (hphases : Phases p s)
    (hb : ∀ w, (s.queues w).mem.pushes.length ≤ 2^64) {a : Action ι Key τ}
    (hcareless : ¬Careful p s a) (hstep : step p hash s a = some s') : ∃ x, Lost p s' x := by
  cases a with
  | submit t route task => exact absurd trivial hcareless
  | push t spurious => exact absurd trivial hcareless
  | worker i =>
    simp only [Careful,not_forall,not_not] at hcareless
    obtain ⟨w,rfl,hskips⟩ := hcareless
    simp only [step] at hstep
    split_ifs at hstep with hi
    obtain ⟨hexited,hhandled⟩ := hskips.exits hstep
    have ht := workerLoop_turn hstep
    obtain ⟨-,-,x,hx,hready⟩ := hskips
    obtain ⟨rfl,hbegun⟩ := hbooks.ready_not_begun (hb w) hready
    refine ⟨x,?_,?_,?_,.inl hexited⟩
    · rw [ht.promised]
      exact hx
    · rw [ht.running]
      exact (hphases.promised x hx).2
    · rw [hhandled]
      intro hmem
      apply hbegun
      rw [hbooks.handled]
      exact List.mem_append_left _ hmem
  | stop =>
    simp only [Careful,not_forall] at hcareless
    obtain ⟨hidle,x,hx,hle⟩ := hcareless
    have hle' := not_lt.mp hle
    simp only [step,hidle,stop,hphases.running.mpr hidle,if_true,Option.some.injEq] at hstep
    subst hstep
    refine ⟨x,hx,rfl,?_,.inr hle'⟩
    change x ∉ s.handled x.worker
    rw [hphases.unserved _ hle']
    exact List.not_mem_nil

/-! ### The promise of `stop` -/

/-- Up to `2^64` claims a task that was handled was handled by its worker, and once. -/
theorem Books.handledOnce_iff (h : Books p hash s)
    (hb : ∀ w, (s.queues w).mem.pushes.length ≤ 2^64) {x : Submission maxWorkers ι Key τ} :
    HandledOnce s x ↔ x ∈ s.handled x.worker := by
  have hown : ∀ w, x ∈ s.handled w → x.worker = w := by
    intro w hx
    refine (h.begun_mem (hb w) ?_).1
    rw [h.handled]
    exact List.mem_append_left _ hx
  constructor
  · rintro ⟨⟨w,i⟩,hi,-⟩
    have hmem := List.mem_of_getElem? hi
    rwa [hown w hmem]
  · intro hx
    obtain ⟨i,hi⟩ := List.getElem?_of_mem hx
    refine ⟨(x.worker,i),hi,?_⟩
    rintro ⟨w,j⟩ hj
    simp only at hj
    obtain rfl := hown w (List.mem_of_getElem? hj)
    have hnodup : (s.handled x.worker).Nodup := by
      have hpair := ((h.pushes_pairwise x.worker).imp And.left).sublist
        (h.begun_pushes (hb x.worker)).sublist
      rw [h.handled] at hpair
      exact (List.pairwise_append.mp hpair).1
    have heq := (List.getElem?_inj (List.getElem?_eq_some_iff.mp hj).1 hnodup).mp (hj.trans hi.symm)
    rw [heq]

/-- All that holds throughout a careful run. -/
structure Shutdown (p : Layout maxWorkers) (hash : Key → UInt64)
    (s : State cap maxWorkers ι Key τ) : Prop extends Books p hash s, Phases p s, Kept p s

theorem start_shutdown : Shutdown p hash (start : State cap maxWorkers ι Key τ) :=
  ⟨start_books,start_phases,⟨nofun,nofun⟩⟩

theorem careful_shutdown (h : Transition.ReachableBy (step p hash) (Careful p) start s)
    (hb : ∀ w, (s.queues w).mem.pushes.length ≤ 2^64) : Shutdown p hash s := by
  refine Transition.ReachableBy.invariant_of_bound
    (fun s => ∀ w, (s.queues w).mem.pushes.length ≤ 2^64) start_shutdown
    (fun s a t hstep ht w => (step_queues hstep w).length_le.trans (ht w)) ?_ h hb
  intro s a t hs ht hcareful hstep
  have hbound w := (step_queues hstep w).length_le.trans (ht w)
  exact ⟨step_books hs.toBooks hstep,step_phases hs.toPhases hstep,
    step_kept hs.toBooks hs.toPhases hs.toKept hbound hcareful hstep⟩

theorem reachable_phases (h : Transition.Reachable (step p hash) start s) : Phases p s := by
  refine Transition.ReachableBy.invariant start_phases ?_ h
  exact fun s a t hs _ hstep => step_phases hs hstep

theorem reachable_queues (h : Transition.Reachable (step p hash) s s') (w : Fin maxWorkers) :
    (s.queues w).mem.pushes <+: (s'.queues w).mem.pushes := by
  refine Transition.ReachableBy.invariant
    (P := fun t => (s.queues w).mem.pushes <+: (t.queues w).mem.pushes) List.prefix_rfl ?_ h
  exact fun t a u ht _ hstep => ht.trans (step_queues hstep w)

theorem reachable_lost {x : Submission maxWorkers ι Key τ} (hx : Lost p s x)
    (h : Transition.Reachable (step p hash) s s') : Lost p s' x := by
  refine Transition.ReachableBy.invariant (P := fun t => Lost p t x) hx ?_ h
  exact fun t a u ht _ hstep => step_lost ht hstep

/-- Up to `2^64` claims on each queue, `stop` has lost no accepted task when it returns in
exactly the careful runs. -/
theorem run_keeps_promise {as : List (Action ι Key τ)}
    (hrun : Transition.run (step p hash) start as = some s)
    (hb : ∀ w, (s.queues w).mem.pushes.length ≤ 2^64) (hreturned : s.stopper = .returned) :
    (∀ x ∈ s.promised, HandledOnce s x) ↔
      Transition.Admits (step p hash) (Careful p) (start : State cap maxWorkers ι Key τ) as := by
  have hbooks := reachable_books (Transition.Reachable.run .start hrun)
  constructor
  · intro hkept
    by_contra hcareless
    obtain ⟨t,a,t',ht,hbad,hstep,hrest⟩ :=
      Transition.Reachable.exists_of_not_admits .start hrun hcareless
    have hbound w := ((step_queues hstep w).trans (reachable_queues hrest w)).length_le.trans (hb w)
    obtain ⟨x,hx⟩ := step_careless (reachable_books ht) (reachable_phases ht) hbound hbad hstep
    have hlost := reachable_lost hx hrest
    exact hlost.unhandled ((hbooks.handledOnce_iff hb).mp (hkept x hlost.promised))
  · intro hcareful x hx
    have hs := careful_shutdown (Transition.ReachableBy.admits .start hcareful hrun) hb
    have hexited := hs.joined x.worker (by rw [hreturned]; exact hs.registered x hx)
    exact (hbooks.handledOnce_iff hb).mpr (hs.exited _ hexited x hx rfl)

/-- The clearing of `running_` and the stop request of the one worker, and later its join. -/
def stopSingle (turns : ℕ) : List (Action Bool Unit ℕ) :=
  [.stop,.stop,.stop] ++ (List.replicate turns (.worker 0) ++ [.stop,.stop])

/-- A task is accepted before `stop`; a later one is claimed and never published. The drain
handles the first and ends at the second. -/
def drained : List (Action Bool Unit ℕ) :=
  .submit true .any 7 :: (List.replicate 6 (.push true false) ++
    (.submit false .any 8 :: (List.replicate 3 (.push false false) ++ stopSingle 12)))

theorem run_keeps_promise_drained : ∃ s : State Capacity.two 1 Bool Unit ℕ,
    Transition.run (step single oneKey) start drained = some s ∧
      s.promised.map Submission.task = [7] ∧ (s.handled 0).map Submission.task = [7] ∧
      ∀ x ∈ s.promised, HandledOnce s x := by
  obtain ⟨s,hrun,hpromised,hhandled,hb,hreturned⟩ : ∃ s : State Capacity.two 1 Bool Unit ℕ,
      Transition.run (step single oneKey) start drained = some s ∧
      s.promised.map Submission.task = [7] ∧ (s.handled 0).map Submission.task = [7] ∧
      (∀ w, (s.queues w).mem.pushes.length ≤ 2^64) ∧ s.stopper = .returned := by
    refine ⟨_,rfl,rfl,rfl,?_,rfl⟩
    decide
  refine ⟨s,hrun,hpromised,hhandled,(run_keeps_promise hrun hb hreturned).mpr ?_⟩
  decide

/-- The other order: the first position is claimed and not published when the drain tests it,
and the task accepted behind it is never handled. -/
def dropped : List (Action Bool Unit ℕ) :=
  .submit true .any 7 :: (List.replicate 3 (.push true false) ++
    (.submit false .any 8 :: (List.replicate 6 (.push false false) ++ stopSingle 4)))

theorem stop_drops_accepted : ∃ s : State Capacity.two 1 Bool Unit ℕ,
    Transition.run (step single oneKey) start dropped = some s ∧ s.stopper = .returned ∧
      ∃ x ∈ s.promised, x.task = 8 ∧ ¬HandledOnce s x := by
  obtain ⟨s,hrun,hreturned,⟨x,hx,htask⟩,hnone⟩ : ∃ s : State Capacity.two 1 Bool Unit ℕ,
      Transition.run (step single oneKey) start dropped = some s ∧ s.stopper = .returned ∧
      (∃ x ∈ s.promised, x.task = 8) ∧ ∀ w, s.handled w = [] := by
    refine ⟨_,rfl,rfl,?_,?_⟩ <;> decide
  refine ⟨s,hrun,hreturned,x,hx,htask,?_⟩
  rintro ⟨⟨w,i⟩,hi,-⟩
  rw [hnone] at hi
  cases hi

end ThreadPool
end Marketlib
