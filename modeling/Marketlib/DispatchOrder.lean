import Marketlib.ThreadPool

/-! The order in which the pool handles the tasks of one key. Up to `2^64` claims on each
queue it is the order of the submits; past that a producer that was stopped inside
`try_push` overwrites a task. -/

namespace Marketlib
namespace ThreadPool

variable {cap : Capacity} {maxWorkers : ℕ} {ι Key τ : Type*} [DecidableEq ι]
  {p : Layout maxWorkers} {hash : Key → UInt64} {s s' : State cap maxWorkers ι Key τ}

/-! ### Order in a queue -/

/-- The tasks given out by a queue, and those behind them. -/
theorem Books.begun_pushes (h : Books p hash s) {w : Fin maxWorkers}
    (hb : (s.queues w).mem.pushes.length ≤ 2^64) :
    s.begun w <+: (s.queues w).mem.pushes.map Prod.snd := by
  obtain ⟨r,hr⟩ := MpscQueue.reachable_sound (h.queues w) hb
  rw [h.begun]
  exact hr.pops

/-- In a queue the tasks of one producer stand in the order of its submits. -/
theorem Books.pairwise (h : Books p hash s) (w : Fin maxWorkers) :
    (s.queues w).mem.pushes.Pairwise fun x y => x.1 = y.1 → x.2.number < y.2.number := by
  rw [List.pairwise_iff_forall_sublist]
  intro x y hsub heq
  have hclaimed := (hsub.filter fun push => push.1 = y.1).map Prod.snd
  rw [List.filter_cons_of_pos (by simpa using heq),List.filter_cons_of_pos (by simp)] at hclaimed
  have hcalls := MpscQueue.claimedBy_sublist (h.queues w) y.1
  rw [h.calls] at hcalls
  have hpair := (hclaimed.trans (hcalls.trans List.filter_sublist))
  exact List.pairwise_iff_forall_sublist.mp h.sorted hpair

theorem Books.pushes_pairwise (h : Books p hash s) (w : Fin maxWorkers) :
    ((s.queues w).mem.pushes.map Prod.snd).Pairwise fun x y =>
      x ≠ y ∧ (x.producer = y.producer → x.number < y.number) := by
  rw [List.pairwise_map]
  refine (h.pairwise w).imp_of_mem fun {x y} hx hy hlt => ?_
  obtain ⟨hxp,-,-⟩ := h.mem_pushes hx
  obtain ⟨hyp,-,-⟩ := h.mem_pushes hy
  rw [hxp,hyp]
  refine ⟨fun heq => ?_,hlt⟩
  have := hlt (by rw [← hxp,← hyp,heq])
  rw [heq] at this
  exact lt_irrefl _ this

theorem Books.begun_mem (h : Books p hash s) {w : Fin maxWorkers}
    (hb : (s.queues w).mem.pushes.length ≤ 2^64) {x : Submission maxWorkers ι Key τ}
    (hx : x ∈ s.begun w) : x.worker = w ∧ (x.producer,x) ∈ (s.queues w).mem.pushes := by
  obtain ⟨⟨t,y⟩,hin,rfl⟩ := List.mem_map.mp ((h.begun_pushes hb).subset hx)
  obtain ⟨rfl,hw,-⟩ := h.mem_pushes hin
  exact ⟨hw,hin⟩

/-- What was claimed before a task that a worker has begun was begun before it. -/
theorem Books.begun_before (h : Books p hash s) {w : Fin maxWorkers}
    (hb : (s.queues w).mem.pushes.length ≤ 2^64) {x y : Submission maxWorkers ι Key τ}
    (hx : (x.producer,x) ∈ (s.queues w).mem.pushes) (hproducer : x.producer = y.producer)
    (hlt : x.number < y.number) {before after : List (Submission maxWorkers ι Key τ)}
    (hy : s.begun w = before ++ y :: after) : x ∈ before := by
  obtain ⟨rest,hrest⟩ := h.begun_pushes hb
  rw [hy] at hrest
  have hmem : x ∈ before ++ y :: after ++ rest := by
    rw [hrest]
    exact List.mem_map_of_mem (f := Prod.snd) hx
  have hpair := h.pushes_pairwise w
  rw [← hrest,List.append_assoc] at hpair
  rw [List.append_assoc] at hmem
  rcases List.mem_append.mp hmem with hbefore | hmem
  · exact hbefore
  · have htail := (List.pairwise_append.mp hpair).2.1
    rcases List.mem_cons.mp hmem with rfl | hlater
    · exact absurd hlt (lt_irrefl _)
    · have := ((List.pairwise_cons.mp htail).1 x hlater).2 hproducer.symm
      omega

/-! ### Runs of a queue inside the pool -/

section Queue

variable {t : ι} {w : Fin maxWorkers} {x : Submission maxWorkers ι Key τ} {n : ℕ}
  {q : MpscQueue.State cap ι (Submission maxWorkers ι Key τ)} {draining : Bool}

theorem step_push_go (hcalling : s.calling t = some x)
    (hq : MpscQueue.step (s.queues x.worker) (.push t .step) = some q)
    (hgo : ∀ ok, q.producers t ≠ .returned ok) :
    step p hash s (.push t false) =
      some { s with queues := Function.update s.queues x.worker q } := by
  simp only [step,push,hcalling,hq,Bool.false_eq_true,if_false,bind,Option.bind]
  split
  · next hret => exact absurd hret (hgo _)
  · next hret => exact absurd hret (hgo _)
  · rfl

theorem step_push_true (hcalling : s.calling t = some x)
    (hq : MpscQueue.step (s.queues x.worker) (.push t .step) = some q)
    (hret : q.producers t = .returned true) :
    step p hash s (.push t false) = some { s with
      queues := Function.update s.queues x.worker q
      calling := Function.update s.calling t none
      accepted := s.accepted ++ [x] } := by
  simp only [step,push,hcalling,hq,hret,Bool.false_eq_true,if_false,bind,Option.bind]

theorem step_worker (hw : w.val < p.numWorkers) :
    step p hash s (.worker w.val) = workerLoop s w (s.workers w) := by
  simp only [step,dif_pos hw]

theorem step_pop_go (hw : w.val < p.numWorkers) (hpc : s.workers w = .popping draining)
    (hq : MpscQueue.step (s.queues w) (.pop .step) = some q)
    (hgo : ∀ out, q.popper ≠ .returned out) :
    step p hash s (.worker w.val) = some { s with queues := Function.update s.queues w q } := by
  simp only [step_worker hw,hpc,workerLoop,hq,bind,Option.bind]
  split
  · next hret => exact absurd hret (hgo _)
  · next hret => exact absurd hret (hgo _)
  · rfl

theorem step_pop_some (hw : w.val < p.numWorkers) (hpc : s.workers w = .popping draining)
    (hq : MpscQueue.step (s.queues w) (.pop .step) = some q)
    (hret : q.popper = .returned (some x)) :
    step p hash s (.worker w.val) = some { s with
      queues := Function.update s.queues w q
      workers := Function.update s.workers w (.handling draining x)
      begun := Function.update s.begun w (s.begun w ++ [x]) } := by
  simp only [step_worker hw,hpc,workerLoop,hq,hret,bind,Option.bind]

/-- Accesses of a submit that does not return yet. -/
theorem run_pushes (hcalling : s.calling t = some x)
    (hrun : Transition.run MpscQueue.step (s.queues x.worker)
      (List.replicate n (.push t .step)) = some q) (hgo : ∀ ok, q.producers t ≠ .returned ok) :
    Transition.run (step p hash) s (List.replicate n (.push t false)) =
      some { s with queues := Function.update s.queues x.worker q } := by
  have hdead : ∀ q : MpscQueue.State cap ι (Submission maxWorkers ι Key τ),
      (¬∀ ok, q.producers t ≠ .returned ok) → MpscQueue.step q (.push t .step) = none := by
    intro q hret
    push Not at hret
    obtain ⟨ok,hret⟩ := hret
    simp [MpscQueue.step,tryPush,hret]
  have hembed : Transition.run (step p hash)
      { s with queues := Function.update s.queues x.worker (s.queues x.worker) }
      (List.replicate n (.push t false)) = _ :=
    Transition.run_embed (fun q => { s with queues := Function.update s.queues x.worker q }) _
      hdead (fun q q' hgo hq => by
        rw [step_push_go (s := { s with queues := Function.update s.queues x.worker q }) hcalling
          (by simpa only [Function.update_self] using hq) hgo]
        simp only [Function.update_idem]) hrun hgo
  simpa only [Function.update_eq_self] using hembed

/-- A worker's `try_pop` that has returned takes no further step by itself. -/
theorem popper_dead {q : MpscQueue.State cap ι (Submission maxWorkers ι Key τ)}
    (h : ¬∀ out, q.popper ≠ .returned out) : MpscQueue.step q (.pop .step) = none := by
  push Not at h
  obtain ⟨out,hret⟩ := h
  simp [MpscQueue.step,MpscQueue.tryPop,hret]

/-- Accesses of a worker's `try_pop` that does not return yet. -/
theorem run_pops (draining : Bool) (hw : w.val < p.numWorkers)
    (hpc : s.workers w = .popping draining)
    (hrun : Transition.run MpscQueue.step (s.queues w) (List.replicate n (.pop .step)) = some q)
    (hgo : ∀ out, q.popper ≠ .returned out) :
    Transition.run (step p hash) s (List.replicate n (.worker w.val)) =
      some { s with queues := Function.update s.queues w q } := by
  have hembed : Transition.run (step p hash)
      { s with queues := Function.update s.queues w (s.queues w) }
      (List.replicate n (.worker w.val)) = _ :=
    Transition.run_embed (fun q => { s with queues := Function.update s.queues w q }) _
      (fun q => popper_dead) (fun q q' hgo hq => by
        rw [step_pop_go (s := { s with queues := Function.update s.queues w q }) hw hpc
          (by simpa only [Function.update_self] using hq) hgo]
        simp only [Function.update_idem]) hrun hgo
  simpa only [Function.update_eq_self] using hembed

/-! ### Submits and turns that nothing interrupts -/

def submitAlone (t : ι) (key : Key) (task : τ) : List (Action ι Key τ) :=
  .submit t (.byKey key) task :: (List.replicate 2 (.push t false) ++
    (List.replicate 3 (.push t false) ++ [.push t false]))

variable (p hash) in
theorem run_submitAlone {key : Key} (task : τ) (hx : x = ⟨s.submitted.length,t,.byKey key,w,task⟩)
    (htarget : target p hash s.rr (.byKey key) = some w) (hcalling : s.calling t = none)
    (hidle : (s.queues w).producers t = .idle ∨ ∃ ok, (s.queues w).producers t = .returned ok)
    (hroom : (s.queues w).mem.seq (cap.slot (s.queues w).mem.head) = (s.queues w).mem.head) :
    Transition.run (step p hash) s (submitAlone t key task) = some { s with
      queues := Function.update s.queues w (MpscQueue.pushed (s.queues w) t x)
      submitted := s.submitted ++ [x]
      accepted := s.accepted ++ [x] } := by
  have hw : x.worker = w := by rw [hx]
  have hcall := MpscQueue.step_push_call (v := x) hidle
  have hsubmit : step p hash s (.submit t (.byKey key) task) = some { s with
      queues := Function.update s.queues w { s.queues w with
        producers := Function.update (s.queues w).producers t (.loadHead x)
        calls := Function.update (s.queues w).calls t ((s.queues w).calls t ++ [x]) }
      calling := Function.update s.calling t (some x)
      submitted := s.submitted ++ [x] } := by
    simp only [step,submit,hcalling,htarget,← hx,hcall,bind,Option.bind]
  subst hw
  rw [submitAlone,Transition.run_cons,hsubmit,Option.bind_some]
  have hload := MpscQueue.run_load
    (s := { s.queues x.worker with
      producers := Function.update (s.queues x.worker).producers t (.loadHead x)
      calls := Function.update (s.queues x.worker).calls t ((s.queues x.worker).calls t ++ [x]) })
    (t := t) (v := x) (Function.update_self ..) hroom
  refine Transition.run_trans (run_pushes (x := x) (Function.update_self ..)
    (by simpa only [Function.update_self] using hload) (by simp)) ?_
  refine Transition.run_trans (run_pushes (x := x) (Function.update_self ..)
    (by simpa only [Function.update_self] using
      MpscQueue.run_claim (v := x) (Function.update_self ..) rfl) (by simp)) ?_
  rw [Transition.run_cons,step_push_true (x := x) (Function.update_self ..)
    (by simpa only [Function.update_self] using
      MpscQueue.step_publish (v := x) (Function.update_self ..)) (by simp)]
  have hsame : Function.update s.calling t none = s.calling :=
    Function.update_eq_self_iff.mpr hcalling.symm
  simp only [Option.bind_some,Transition.run_nil,Function.update_idem,hsame]
  rfl

/-- From the test of a worker to its next test. -/
def turnAlone (w : Fin maxWorkers) : List (Action ι Key τ) :=
  .worker w.val :: (List.replicate 2 (.worker w.val) ++
    (List.replicate 3 (.worker w.val) ++ [.worker w.val,.worker w.val]))

theorem step_test (hw : w.val < p.numWorkers) (htest : s.workers w = .test)
    (hstop : s.stopRequested w = false)
    (hidle : (s.queues w).popper = .idle ∨ ∃ out, (s.queues w).popper = .returned out) :
    step p hash s (.worker w.val) = some { s with
      queues := Function.update s.queues w { s.queues w with popper := .loadTail }
      workers := Function.update s.workers w (.popping false) } := by
  simp only [step_worker hw,htest,workerLoop,hstop,MpscQueue.step_pop_call hidle,bind,Option.bind,
    Bool.false_eq_true,if_false]

/-- The end of a turn: the counter is advanced, and the handler runs. -/
theorem run_handle (tail : UInt64) (hw : w.val < p.numWorkers)
    (hpc : s.workers w = .popping false) (hadvance : (s.queues w).popper = .advance tail x) :
    Transition.run (step p hash) s [.worker w.val,.worker w.val] = some { s with
      queues := Function.update s.queues w { s.queues w with
        consumer := tail+1
        popper := .returned (some x)
        pops := (s.queues w).pops ++ [x] }
      workers := Function.update s.workers w .test
      begun := Function.update s.begun w (s.begun w ++ [x])
      handled := Function.update s.handled w (s.handled w ++ [x]) } := by
  rw [Transition.run_cons,step_pop_some hw hpc (MpscQueue.step_advance hadvance) rfl,
    Option.bind_some,Transition.run_cons]
  simp only [step_worker hw,workerLoop,Function.update_self,Function.update_idem]
  rfl

variable (p hash) in
theorem run_turnAlone (hw : w.val < p.numWorkers) (htest : s.workers w = .test)
    (hstop : s.stopRequested w = false)
    (hidle : (s.queues w).popper = .idle ∨ ∃ out, (s.queues w).popper = .returned out)
    (hready : (s.queues w).mem.seq (cap.slot (s.queues w).consumer) = (s.queues w).consumer+1)
    (hlive : (s.queues w).mem.storage (cap.slot (s.queues w).consumer) = .live x) :
    Transition.run (step p hash) s (turnAlone w) = some { s with
      queues := Function.update s.queues w (MpscQueue.popped (s.queues w) x)
      begun := Function.update s.begun w (s.begun w ++ [x])
      handled := Function.update s.handled w (s.handled w ++ [x]) } := by
  rw [turnAlone,Transition.run_cons,step_test hw htest hstop hidle,Option.bind_some]
  have hlook := MpscQueue.run_look (s := { s.queues w with popper := .loadTail }) rfl hready
  refine Transition.run_trans (run_pops false hw (Function.update_self ..)
    (by simpa only [Function.update_self] using hlook) (by simp)) ?_
  have htake := MpscQueue.run_take
    (s := { s.queues w with popper := .move (s.queues w).consumer }) rfl hlive
  refine Transition.run_trans (run_pops false hw (Function.update_self ..)
    (by simpa only [Function.update_self] using htake) (by simp)) ?_
  have hsame : Function.update s.workers w .test = s.workers :=
    Function.update_eq_self_iff.mpr htest.symm
  rw [run_handle (x := x) (s.queues w).consumer hw (Function.update_self ..)
    (by simp only [Function.update_self])]
  simp only [Function.update_self,Function.update_idem,hsame]
  rfl

/-- The worker looks at the slot at its tail. A producer stopped since the counter was one
turn of the word lower claims that slot and overwrites it. The worker goes on. -/
def overtake (t : ι) (w : Fin maxWorkers) : List (Action ι Key τ) :=
  .worker w.val :: (List.replicate 2 (.worker w.val) ++ (List.replicate 3 (.push t false) ++
    (List.replicate 3 (.worker w.val) ++ [.worker w.val,.worker w.val])))

variable (p hash) in
theorem run_overtake {pos : UInt64}
    (hx : x.worker = w) (hw : w.val < p.numWorkers) (htest : s.workers w = .test)
    (hstop : s.stopRequested w = false) (hcalling : s.calling t = some x) (hq : s.queues w = q)
    (hidle : q.popper = .idle ∨ ∃ out, q.popper = .returned out)
    (hready : q.mem.seq (cap.slot q.consumer) = q.consumer+1)
    (hstale : q.producers t = .compareExchange x pos) (hhead : q.mem.head = pos)
    (hslot : cap.slot pos = cap.slot q.consumer) :
    ∃ q', Transition.run (step p hash) s (overtake t w) = some { s with
        queues := Function.update s.queues w q'
        begun := Function.update s.begun w (s.begun w ++ [x])
        handled := Function.update s.handled w (s.handled w ++ [x]) } ∧
      q'.consumer = q.consumer+1 ∧ (∃ out, q'.popper = .returned out) ∧
      ∀ i, i ≠ cap.slot pos →
        q'.mem.seq i = q.mem.seq i ∧ q'.mem.storage i = q.mem.storage i := by
  subst hx
  have hlook := MpscQueue.run_look (s := { q with popper := .loadTail }) rfl hready
  have hclaim := MpscQueue.run_claim (s := { q with popper := .move q.consumer }) hstale hhead
  have htake := MpscQueue.run_take (v := x) (s := { q with
    mem := { q.mem with
      head := pos+1
      storage := Function.update q.mem.storage (cap.slot pos) (.live x)
      pushes := q.mem.pushes ++ [(t,x)] }
    producers := Function.update q.producers t (.publish x pos)
    popper := .move q.consumer }) rfl (by rw [← hslot]; exact Function.update_self ..)
  have hsame : Function.update s.workers x.worker .test = s.workers :=
    Function.update_eq_self_iff.mpr htest.symm
  refine ⟨{ q with
    mem := {
      head := pos+1
      seq := Function.update q.mem.seq (cap.slot q.consumer) (q.consumer+UInt64.ofNat cap.n)
      storage := Function.update (Function.update q.mem.storage (cap.slot pos) (.live x))
        (cap.slot q.consumer) .raw
      pushes := q.mem.pushes ++ [(t,x)] }
    consumer := q.consumer+1
    producers := Function.update q.producers t (.publish x pos)
    popper := .returned (some x)
    released := q.released+1
    pops := q.pops ++ [x] },?_,rfl,⟨_,rfl⟩,fun i hi => ?_⟩
  · rw [overtake,Transition.run_cons,step_test hw htest hstop (by rw [hq]; exact hidle),
      Option.bind_some,hq]
    refine Transition.run_trans (run_pops false hw (Function.update_self ..)
      (by simpa only [Function.update_self] using hlook) (by simp)) ?_
    refine Transition.run_trans (run_pushes hcalling
      (by simpa only [Function.update_self] using hclaim) (by simp)) ?_
    refine Transition.run_trans (run_pops false hw (Function.update_self ..)
      (by simpa only [Function.update_self] using htake) (by simp)) ?_
    rw [run_handle (x := x) q.consumer hw (Function.update_self ..)
      (by simp only [Function.update_self])]
    simp only [Function.update_self,Function.update_idem,hsame]
  · have hi' : i ≠ cap.slot q.consumer := hslot ▸ hi
    simp only [Function.update_of_ne hi',Function.update_of_ne hi,and_self]

end Queue

/-! ### Dispatch -/

/-- What dispatch promises for the tasks of one route, such as one key. -/
structure InOrder (p : Layout maxWorkers) (hash : Key → UInt64)
    (s : State cap maxWorkers ι Key τ) : Prop where
  same_worker : ∀ x ∈ s.submitted, ∀ y ∈ s.submitted, x.route = y.route → x.route ≠ .any →
    x.worker = y.worker
  worker_for_key : ∀ x ∈ s.submitted, ∀ key, x.route = .byKey key →
    x.worker.val = (hash key).toNat % p.numWorkers
  own_worker : ∀ w, ∀ x ∈ s.begun w, x.worker = w
  once : ∀ w, (s.begun w).Nodup
  /-- All that a worker has begun is finished, but for at most one task. -/
  alone : ∀ w, ∃ current, s.begun w = s.handled w ++ current ∧ current.length ≤ 1
  in_order : ∀ x ∈ s.accepted, ∀ y ∈ s.accepted, x.producer = y.producer →
    x.route = y.route → x.route ≠ .any → x.number < y.number →
    ∀ before after, s.begun y.worker = before ++ y :: after → x ∈ before
  reported : ∀ x ∈ s.submitted, x ∈ s.accepted ∨ x ∈ s.rejected ∨ s.calling x.producer = some x
  not_begun : ∀ x ∈ s.rejected, x ∉ s.accepted ∧ ∀ w, x ∉ s.begun w

omit [DecidableEq ι] in
theorem current_length (pc : WorkerPc (Submission maxWorkers ι Key τ)) : pc.current.length ≤ 1 := by
  cases pc <;> simp [WorkerPc.current]

/-- Up to `2^64` claims on each queue every run dispatches in order. -/
theorem run_in_order {as : List (Action ι Key τ)}
    (hrun : Transition.run (step p hash) start as = some s)
    (hb : ∀ w, (s.queues w).mem.pushes.length ≤ 2^64) : InOrder p hash s := by
  have h := reachable_books (Transition.Reachable.run .start hrun)
  have hsame : ∀ x ∈ s.submitted, ∀ y ∈ s.submitted, x.route = y.route → x.route ≠ .any →
      x.worker = y.worker := by
    intro x hx y hy hroute hany
    obtain ⟨rr,hxt⟩ := h.target x hx
    obtain ⟨rr',hyt⟩ := h.target y hy
    rw [target_fixed hany rr',hroute,hyt] at hxt
    exact (Option.some.inj hxt).symm
  exact {
    same_worker := hsame
    worker_for_key := fun x hx key hroute => by
      obtain ⟨rr,hxt⟩ := h.target x hx
      rw [hroute] at hxt
      exact target_byKey hxt
    own_worker := fun w x hx => (h.begun_mem (hb w) hx).1
    once := fun w =>
      (((h.pushes_pairwise w).imp And.left).sublist (h.begun_pushes (hb w)).sublist)
    alone := fun w => ⟨_,h.handled w,current_length _⟩
    in_order := fun x hx y hy hproducer hroute hany hlt before after hsplit => by
      obtain ⟨hxin,-,hclaim⟩ := h.accepted x hx
      rw [hsame x hxin y (h.accepted y hy).1 hroute hany] at hclaim
      exact h.begun_before (hb _) hclaim hproducer hlt hsplit
    reported := h.outcome
    not_begun := fun x hx => by
      refine ⟨fun hacc => (h.accepted x hacc).2.1 hx,fun w hbegun => ?_⟩
      obtain ⟨rfl,hclaim⟩ := h.begun_mem (hb w) hbegun
      exact (h.rejected x hx).2 hclaim }

/-- A pool of two workers, the second of them a group. -/
def grouped : Layout 2 := (Layout.empty.addWorker Nat.two_pos).spawnGroup 1 (by decide)

def oneKey : Unit → UInt64 := fun _ => 0

/-- Two threads submit to the group, their accesses interleaved; one task is handled, and
the handler is called with the next. -/
def interleaved : List (Action Bool Unit ℕ) :=
  [.submit true (.toGroup 0 ()) 7,.push true false,.submit false (.toGroup 0 ()) 8,
    .push false false,.push true false,.push true false,.push false false,.push false false,
    .push true false,.push false false,.push true false,.push true false,
    .push false false,.push false false,.push false false,.push false false,
    .worker 1,.worker 1,.worker 1,.worker 1,.worker 1,.worker 1,.worker 1,.worker 1,
    .worker 1,.worker 1,.worker 1,.worker 1,.worker 1,.worker 1,.worker 1,.submit true .any 9]

theorem run_in_order_interleaved : ∃ s : State Capacity.two 2 Bool Unit ℕ,
    Transition.run (step grouped oneKey) start interleaved = some s ∧
      (s.begun 1).map Submission.task = [7,8] ∧ (s.handled 1).map Submission.task = [7] ∧
      InOrder grouped oneKey s := by
  obtain ⟨s,hrun,hbegun,hhandled,hb⟩ : ∃ s : State Capacity.two 2 Bool Unit ℕ,
      Transition.run (step grouped oneKey) start interleaved = some s ∧
      (s.begun 1).map Submission.task = [7,8] ∧ (s.handled 1).map Submission.task = [7] ∧
      ∀ w, (s.queues w).mem.pushes.length ≤ 2^64 := by
    refine ⟨_,rfl,rfl,rfl,?_⟩
    decide
  exact ⟨s,hrun,hbegun,hhandled,run_in_order hrun hb⟩

/-! ### Past `2^64` claims -/

section Overrun

/-- A pool of one worker. -/
def single : Layout 1 := Layout.empty.addWorker Nat.one_pos

def onlyWorker : Fin 1 := ⟨0,Nat.one_pos⟩

/-- A task of producer `false` is submitted and handled. -/
def lap : List (Action Bool Unit Unit) := submitAlone false () () ++ turnAlone onlyWorker

/-- After `k` tasks were submitted and handled one by one, with the submit of `x` stopped at
its compare-exchange at position 0. -/
structure Resting (k : ℕ) (x : Submission 1 Bool Unit Unit)
    (s : State Capacity.two 1 Bool Unit Unit) : Prop where
  queue : MpscQueue.Quiet k (.compareExchange x 0) (s.queues 0)
  stopped : s.calling true = some x
  calling : s.calling false = none
  worker : s.workers 0 = .test
  stop : s.stopRequested 0 = false
  submitted : s.submitted.length = k+1
  begun : ∀ y ∈ s.begun 0, y.number ≤ k

variable {k : ℕ} {x : Submission 1 Bool Unit Unit} {s : State Capacity.two 1 Bool Unit Unit}

theorem target_single (hash : Unit → UInt64) (rr : UInt64) :
    target single hash rr (.byKey ()) = some 0 := by
  have hmod : (hash ()).toNat % 1 = 0 := Nat.mod_one _
  simp [target,pick,single,Layout.addWorker,Layout.empty,hmod]

theorem Resting.next (h : Resting k x s) (hash : Unit → UInt64) :
    ∃ s', Transition.run (step single hash) s lap = some s' ∧ Resting (k+1) x s' := by
  have hsubmit := run_submitAlone single hash () rfl (target_single hash s.rr) h.calling
    h.queue.producer h.queue.room
  generalize hy : (⟨s.submitted.length,false,.byKey (),0,()⟩ : Submission 1 Bool Unit Unit) = y
    at hsubmit
  obtain ⟨hready,hlive⟩ := h.queue.ready y
  refine ⟨_,Transition.run_trans hsubmit (run_turnAlone single hash (x := y) (w := 0)
    Nat.one_pos h.worker h.stop ?_ ?_ ?_),?_⟩
  · exact h.queue.popper
  · exact hready
  · exact hlive
  · exact {
      queue := by
        simp only [Function.update_self]
        exact h.queue.next y
      stopped := h.stopped
      calling := h.calling
      worker := h.worker
      stop := h.stop
      submitted := by simp [h.submitted]
      begun := fun z hz => by
        simp only [Function.update_self,List.mem_append,List.mem_singleton] at hz
        rcases hz with hz | rfl
        · exact (h.begun z hz).trans (Nat.le_succ k)
        · rw [← hy,h.submitted] }

theorem Resting.rounds (h : Resting k x s) (hash : Unit → UInt64) (n : ℕ) :
    ∃ s', Transition.run (step single hash) s (List.replicate n lap).flatten = some s' ∧
      Resting (k+n) x s' :=
  Transition.run_rounds (fun k s => Resting k x s) (fun _ _ hs => hs.next hash) n h

/-- Two more tasks, the first of which the stopped submit overwrites while the worker is
looking at it. -/
def overrun : List (Action Bool Unit Unit) :=
  submitAlone false () () ++ (submitAlone false () () ++
    (overtake true onlyWorker ++ turnAlone onlyWorker))

/-- The counter is two short of the turn of the word. -/
theorem Resting.overwrites (h : Resting (2^64-2) x s) (hash : Unit → UInt64)
    (hx : x.worker = 0) (hnumber : x.number = 0) :
    ∃ s', Transition.run (step single hash) s overrun = some s' ∧
      ∃ y ∈ s'.accepted, ∃ z ∈ s'.accepted, y.producer = z.producer ∧ y.route = .byKey () ∧
        z.route = .byKey () ∧ y.number < z.number ∧ z ∈ s'.begun 0 ∧ y ∉ s'.begun 0 := by
  have hlast : (UInt64.ofNat (2^64-2))+1+1 = 0 := by decide
  have hslot : Capacity.two.slot (UInt64.ofNat (2^64-2)) = Capacity.two.slot 0 := by decide
  have hslots : Capacity.two.slot (UInt64.ofNat (2^64-2)+1) ≠ Capacity.two.slot 0 := by decide
  have hhead := h.queue.head
  have hconsumer := h.queue.consumer
  have hseq : (s.queues 0).mem.seq (Capacity.two.slot (UInt64.ofNat (2^64-2)+1)) =
      UInt64.ofNat (2^64-2)+1 := by
    rw [h.queue.seq]
    decide
  generalize UInt64.ofNat (2^64-2) = c at *
  -- the two submits
  generalize hy : (⟨s.submitted.length,false,.byKey (),0,()⟩ : Submission 1 Bool Unit Unit) = y
  generalize hz : (⟨(s.submitted ++ [y]).length,false,.byKey (),0,()⟩ :
    Submission 1 Bool Unit Unit) = z
  have hfirst := run_submitAlone single hash () hy.symm (target_single hash s.rr) h.calling
    h.queue.producer h.queue.room
  have hroom : (MpscQueue.pushed (s.queues 0) false y).mem.seq (Capacity.two.slot (c+1)) = c+1 := by
    simp only [MpscQueue.pushed,hhead]
    rw [Function.update_of_ne (by rw [hslot]; exact hslots),hseq]
  have hsecond := run_submitAlone single hash ()
    (s := { s with
      queues := Function.update s.queues 0 (MpscQueue.pushed (s.queues 0) false y)
      submitted := s.submitted ++ [y]
      accepted := s.accepted ++ [y] }) hz.symm (target_single hash s.rr) h.calling
    (.inr ⟨true,rfl⟩) (by simpa only [Function.update_self,MpscQueue.pushed,hhead] using hroom)
  simp only [Function.update_self,Function.update_idem] at hsecond
  -- the stopped submit goes on
  have hready : (MpscQueue.pushed (MpscQueue.pushed (s.queues 0) false y) false z).mem.seq
      (Capacity.two.slot c) = c+1 := by
    simp only [MpscQueue.pushed,hhead]
    rw [Function.update_of_ne (by rw [hslot]; exact hslots.symm),Function.update_self]
  obtain ⟨q,hover,hqconsumer,hqpopper,hqother⟩ := run_overtake single hash
    (t := true) (w := 0) (x := x)
    (q := MpscQueue.pushed (MpscQueue.pushed (s.queues 0) false y) false z)
    (s := { s with
      queues := Function.update s.queues 0
        (MpscQueue.pushed (MpscQueue.pushed (s.queues 0) false y) false z)
      submitted := s.submitted ++ [y] ++ [z]
      accepted := s.accepted ++ [y] ++ [z] }) hx Nat.one_pos h.worker h.stop h.stopped
    (by simp only [Function.update_self]) h.queue.popper
    (by simpa only [MpscQueue.pushed,hconsumer] using hready) h.queue.stopped
    (by simp only [MpscQueue.pushed,hhead,hlast])
    (by simp only [MpscQueue.pushed,hconsumer,hslot])
  simp only [Function.update_idem] at hover
  have hqseq : q.mem.seq (Capacity.two.slot q.consumer) = q.consumer+1 := by
    rw [hqconsumer]
    simp only [MpscQueue.pushed,hconsumer]
    rw [(hqother _ hslots).1]
    simp only [MpscQueue.pushed,hhead,Function.update_self]
  have hqlive : q.mem.storage (Capacity.two.slot q.consumer) = .live z := by
    rw [hqconsumer]
    simp only [MpscQueue.pushed,hconsumer]
    rw [(hqother _ hslots).2]
    simp only [MpscQueue.pushed,hhead,Function.update_self]
  have hturn := run_turnAlone single hash (w := 0) (x := z)
    (s := { s with
      queues := Function.update s.queues 0 q
      submitted := s.submitted ++ [y] ++ [z]
      accepted := s.accepted ++ [y] ++ [z]
      begun := Function.update s.begun 0 (s.begun 0 ++ [x])
      handled := Function.update s.handled 0 (s.handled 0 ++ [x]) }) Nat.one_pos h.worker h.stop
    (by simpa only [Function.update_self] using .inr hqpopper)
    (by simpa only [Function.update_self] using hqseq)
    (by simpa only [Function.update_self] using hqlive)
  have hynumber : y.number = s.submitted.length := by rw [← hy]
  have hznumber : z.number = s.submitted.length+1 := by
    rw [← hz,List.length_append,List.length_singleton]
  have hlength := h.submitted
  refine ⟨_,Transition.run_trans hfirst (Transition.run_trans hsecond
    (Transition.run_trans hover hturn)),y,by simp,z,by simp,by rw [← hy,← hz],by rw [← hy],
    by rw [← hz],by omega,by simp,fun hmem => ?_⟩
  simp only [Function.update_self,List.mem_append,List.mem_singleton] at hmem
  rcases hmem with (hmem | hmem) | hmem
  · have := h.begun y hmem
    omega
  · rw [hmem] at hynumber
    omega
  · rw [hmem] at hynumber
    omega

/-- The first submit loads the counter and the sequence number and is stopped before its
compare-exchange. -/
def stopBeforeClaim : List (Action Bool Unit Unit) :=
  [.submit true (.byKey ()) (),.push true false,.push true false]

/-- A submit stopped for `2^64` claims claims a slot that is full. It overwrites an accepted
task, whose worker goes on to a later task of the same key and the same producer. -/
theorem stopped_submit_reorders :
    ∃ s : State Capacity.two 1 Bool Unit Unit,
      Transition.run (step single oneKey) start
        (stopBeforeClaim ++ ((List.replicate (2^64-2) lap).flatten ++ overrun)) = some s ∧
      ∃ y ∈ s.accepted, ∃ z ∈ s.accepted, y.producer = z.producer ∧ y.route = .byKey () ∧
        z.route = .byKey () ∧ y.number < z.number ∧ z ∈ s.begun 0 ∧ y ∉ s.begun 0 := by
  obtain ⟨s₀,hrun₀,hs₀⟩ : ∃ s₀ : State Capacity.two 1 Bool Unit Unit,
      Transition.run (step single oneKey) start stopBeforeClaim = some s₀ ∧
        Resting 0 ⟨0,true,.byKey (),0,()⟩ s₀ := by
    refine ⟨_,rfl,{
      queue := {
        head := rfl
        consumer := rfl
        seq := by decide
        claims := rfl
        released := rfl
        stopped := rfl
        producer := .inl rfl
        popper := .inl rfl }
      stopped := rfl
      calling := rfl
      worker := rfl
      stop := rfl
      submitted := rfl
      begun := fun y hy => by cases hy }⟩
  obtain ⟨s₁,hrun₁,hs₁⟩ := hs₀.rounds oneKey (2^64-2)
  rw [Nat.zero_add] at hs₁
  obtain ⟨s₂,hrun₂,hs₂⟩ := hs₁.overwrites oneKey rfl rfl
  exact ⟨s₂,Transition.run_trans hrun₀ (Transition.run_trans hrun₁ hrun₂),hs₂⟩

end Overrun

end ThreadPool
end Marketlib
