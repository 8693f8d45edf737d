import Marketlib.PoolShutdown

/-! Pools that are used with care. Where every submit has returned when `stop` is called and none
comes later, `stop` loses nothing. Where one thread makes all the submits, each worker takes its
tasks in their order and leaves none out. -/

namespace Marketlib
namespace ThreadPool

variable {cap : Capacity} {maxWorkers : ℕ} {ι Key τ : Type*}

/-- No submit is going on when `stop` is called, what was accepted went to registered workers,
and there is no submit after that. -/
def Quiet (p : Layout maxWorkers) (s : State cap maxWorkers ι Key τ) : Action ι Key τ → Prop
  | .submit .. => s.stopper = .idle
  | .stop => s.stopper = .idle →
    (∀ t, s.calling t = none) ∧ ∀ x ∈ s.accepted, x.worker.val < p.numWorkers
  | _ => True

instance decidableQuiet [Fintype ι] [DecidableEq ι] [DecidableEq Key] [DecidableEq τ]
    (p : Layout maxWorkers) (s : State cap maxWorkers ι Key τ) : ∀ a, Decidable (Quiet p s a)
  | .submit .. => inferInstanceAs (Decidable (s.stopper = .idle))
  | .stop => inferInstanceAs (Decidable (s.stopper = .idle →
      (∀ t, s.calling t = none) ∧ ∀ x ∈ s.accepted, x.worker.val < p.numWorkers))
  | .push .. => isTrue trivial
  | .worker .. => isTrue trivial

/-- Once `stop` is called no submit goes on, and all that was accepted is promised. -/
structure Closed (s : State cap maxWorkers ι Key τ) : Prop where
  calling : s.stopper ≠ .idle → ∀ t, s.calling t = none
  promised : s.stopper ≠ .idle → s.promised = s.accepted

section Stop

variable [DecidableEq ι] {p : Layout maxWorkers} {hash : Key → UInt64}
  {s s' : State cap maxWorkers ι Key τ}

omit [DecidableEq ι] in
theorem start_closed : Closed (start : State cap maxWorkers ι Key τ) :=
  ⟨fun h => absurd rfl h,fun h => absurd rfl h⟩

theorem workerLoop_calling {w : Fin maxWorkers} (h : workerLoop s w (s.workers w) = some s') :
    s'.calling = s.calling := by
  rcases workerLoop_cases h with ⟨-,-,rfl⟩ | ⟨_,_,-,-,rfl⟩ |
    ⟨_,_,-,-,⟨_,-,rfl⟩ | ⟨-,rfl⟩ | ⟨-,rfl⟩⟩ | ⟨_,_,-,rfl⟩ <;> rfl

/-- What a worker's step leaves alone. -/
theorem worker_steady {i : ℕ} (h : step p hash s (.worker i) = some s') :
    s'.submitted = s.submitted ∧ s'.calling = s.calling ∧ s'.stopper = s.stopper := by
  refine ⟨step_submitted h nofun,?_⟩
  simp only [step] at h
  split_ifs at h with hi
  exact ⟨workerLoop_calling h,(workerLoop_turn h).stopper⟩

theorem stop_calling (h : step p hash s .stop = some s') : s'.calling = s.calling := by
  rcases stop_cases h with ⟨_,-,-,rfl⟩ | ⟨_,-,-,rfl⟩ | ⟨_,-,-,-,rfl⟩ | ⟨_,-,-,rfl⟩ |
    ⟨-,-,rfl⟩ | ⟨-,-,rfl⟩ <;> rfl

theorem step_closed (hphases : Phases p s) (h : Closed s) {a : Action ι Key τ}
    (hquiet : Quiet p s a) (hstep : step p hash s a = some s') : Closed s' := by
  cases a with
  | submit t route task =>
    have hidle : s'.stopper = .idle := (submit_steady hstep).stopper.trans hquiet
    exact ⟨fun hne => absurd hidle hne,fun hne => absurd hidle hne⟩
  | push t spurious =>
    -- a push means that a submit is going on
    obtain ⟨x,q,b,hcalling,-⟩ := push_cases hstep
    have hidle : s'.stopper = .idle := by
      rw [(push_steady hstep).stopper]
      by_contra hne
      rw [h.calling hne t] at hcalling
      cases hcalling
    exact ⟨fun hne => absurd hidle hne,fun hne => absurd hidle hne⟩
  | worker i =>
    obtain ⟨-,hcalling,-⟩ := worker_steady hstep
    simp only [step] at hstep
    split_ifs at hstep with hi
    have ht := workerLoop_turn hstep
    constructor
    · rw [ht.stopper,hcalling]
      exact h.calling
    · rw [ht.stopper,ht.promised,ht.accepted]
      exact h.promised
  | stop =>
    rcases stop_cases hstep with ⟨_,hpc,-,rfl⟩ | ⟨_,hpc,-,rfl⟩ | ⟨_,hpc,-,-,rfl⟩ | ⟨_,hpc,-,rfl⟩ |
      ⟨-,hrunning,rfl⟩ | ⟨-,hrunning,rfl⟩
    · have hne : s.stopper ≠ .idle := by simp [hpc]
      exact ⟨fun _ => h.calling hne,fun _ => h.promised hne⟩
    · have hne : s.stopper ≠ .idle := by simp [hpc]
      exact ⟨fun _ => h.calling hne,fun _ => h.promised hne⟩
    · have hne : s.stopper ≠ .idle := by simp [hpc]
      exact ⟨fun _ => h.calling hne,fun _ => h.promised hne⟩
    · have hne : s.stopper ≠ .idle := by simp [hpc]
      exact ⟨fun _ => h.calling hne,fun _ => h.promised hne⟩
    · exact ⟨fun _ => (hquiet (hphases.running.mp hrunning)).1,fun _ => rfl⟩
    · have hne : s.stopper ≠ .idle := by
        simp [← hphases.running,hrunning]
      exact ⟨fun _ => h.calling hne,fun _ => h.promised hne⟩

/-- While no submit goes on a failed `try_pop` means that the queue is empty. -/
theorem Books.not_skips (h : Books p hash s) (hb : ∀ w, (s.queues w).mem.pushes.length ≤ 2^64)
    (hcalling : ∀ t, s.calling t = none) (w : Fin maxWorkers) : ¬Skips s w := by
  rintro ⟨-,⟨tail,htail,hne⟩,x,-,hready⟩
  obtain ⟨t,j,hle,hj,-⟩ := MpscQueue.mem_ready.mp hready
  obtain ⟨r,hr⟩ := MpscQueue.reachable_sound (h.queues w) (hb w)
  have hmissing : (s.queues w).missing = true := by
    rw [MpscQueue.State.missing,htail]
    exact decide_eq_true hne
  have hidle : ∀ t, ((s.queues w).producers t).claim = none := by
    intro t
    by_contra hclaim
    obtain ⟨⟨v,pos⟩,hclaim⟩ := Option.ne_none_iff_exists'.mp hclaim
    have hcall := (h.current w t v (PushPc.current_of_claim hclaim)).1
    rw [hcalling t] at hcall
    cases hcall
  have hpops := congrArg List.length (hr.drained hmissing hidle)
  rw [List.length_map] at hpops
  have hlt := (List.getElem?_eq_some_iff.mp hj).1
  omega

/-- In a quiet run no drain skips a promised task. -/
theorem Quiet.careful (hbooks : Books p hash s) (hphases : Phases p s) (h : Closed s)
    (hb : ∀ w, (s.queues w).mem.pushes.length ≤ 2^64) {a : Action ι Key τ}
    (hquiet : Quiet p s a) : Careful p s a := by
  cases a with
  | submit t route task => trivial
  | push t spurious => trivial
  | worker i =>
    rintro w - hskips
    obtain ⟨x,hx,-⟩ := hskips.2.2
    have hne : s.stopper ≠ .idle := by
      rw [ne_eq,← hphases.running,(hphases.promised x hx).2]
      nofun
    exact hbooks.not_skips hb (h.calling hne) w hskips
  | stop => exact fun hidle => (hquiet hidle).2

theorem quiet_shutdown (h : Transition.ReachableBy (step p hash) (Quiet p) start s)
    (hb : ∀ w, (s.queues w).mem.pushes.length ≤ 2^64) : Shutdown p hash s ∧ Closed s := by
  refine Transition.ReachableBy.invariant_of_bound (P := fun s => Shutdown p hash s ∧ Closed s)
    (fun s => ∀ w, (s.queues w).mem.pushes.length ≤ 2^64) ⟨start_shutdown,start_closed⟩
    (fun s a t hstep ht w => (step_queues hstep w).length_le.trans (ht w)) ?_ h hb
  intro s a t ⟨hs,hclosed⟩ ht hquiet hstep
  have hbound w := (step_queues hstep w).length_le.trans (ht w)
  have hcareful := hquiet.careful hs.toBooks hs.toPhases hclosed hbound
  exact ⟨⟨step_books hs.toBooks hstep,step_phases hs.toPhases hstep,
    step_kept hs.toBooks hs.toPhases hs.toKept hbound hcareful hstep⟩,
    step_closed hs.toPhases hclosed hquiet hstep⟩

/-- What was accepted is handled when `stop` has returned. -/
theorem quiet_handled (h : Transition.ReachableBy (step p hash) (Quiet p) start s)
    (hb : ∀ w, (s.queues w).mem.pushes.length ≤ 2^64) (hreturned : s.stopper = .returned)
    {x : Submission maxWorkers ι Key τ} (hx : x ∈ s.accepted) : x ∈ s.handled x.worker := by
  obtain ⟨hs,hclosed⟩ := quiet_shutdown h hb
  have hpromised : x ∈ s.promised := by
    rw [hclosed.promised (by rw [hreturned]; nofun)]
    exact hx
  have hexited := hs.joined x.worker (by rw [hreturned]; exact hs.registered x hpromised)
  exact hs.exited _ hexited x hpromised rfl

/-- Up to `2^64` claims on each queue, when `stop` returns in a quiet run every task that was
accepted has been handled, by one worker and once. -/
theorem run_quiet_handles {as : List (Action ι Key τ)}
    (hrun : Transition.run (step p hash) start as = some s)
    (hquiet : Transition.Admits (step p hash) (Quiet p) (start : State cap maxWorkers ι Key τ) as)
    (hb : ∀ w, (s.queues w).mem.pushes.length ≤ 2^64) (hreturned : s.stopper = .returned) :
    ∀ x ∈ s.accepted, HandledOnce s x := by
  intro x hx
  have h := Transition.ReachableBy.admits .start hquiet hrun
  exact ((quiet_shutdown h hb).1.handledOnce_iff hb).mpr (quiet_handled h hb hreturned hx)

end Stop

/-- A submit, then `stop`. -/
def settled : List (Action Bool Unit ℕ) :=
  .submit true .any 7 :: (List.replicate 6 (.push true false) ++ stopSingle 12)

theorem run_quiet_handles_settled : ∃ s : State Capacity.two 1 Bool Unit ℕ,
    Transition.run (step single oneKey) start settled = some s ∧
      s.accepted.map Submission.task = [7] ∧ (s.handled 0).map Submission.task = [7] ∧
      ∀ x ∈ s.accepted, HandledOnce s x := by
  obtain ⟨s,hrun,haccepted,hhandled,hb,hreturned⟩ : ∃ s : State Capacity.two 1 Bool Unit ℕ,
      Transition.run (step single oneKey) start settled = some s ∧
      s.accepted.map Submission.task = [7] ∧ (s.handled 0).map Submission.task = [7] ∧
      (∀ w, (s.queues w).mem.pushes.length ≤ 2^64) ∧ s.stopper = .returned := by
    refine ⟨_,rfl,rfl,rfl,?_,rfl⟩
    decide
  refine ⟨s,hrun,haccepted,hhandled,run_quiet_handles hrun ?_ hb hreturned⟩
  decide

/-! ### One thread that submits -/

section Sole

variable {p : Layout maxWorkers} {hash : Key → UInt64} {s s' : State cap maxWorkers Unit Key τ}

/-- What was accepted, and the submit that is going on. -/
def State.kept (s : State cap maxWorkers Unit Key τ) : List (Submission maxWorkers Unit Key τ) :=
  s.accepted ++ (s.calling ()).toList

theorem step_kept_sublist (h : s.kept.Sublist s.submitted) {a : Action Unit Key τ}
    (hstep : step p hash s a = some s') : s'.kept.Sublist s'.submitted := by
  cases a with
  | submit t route task =>
    obtain ⟨w,q,rr,hcalling,-,-,rfl⟩ := submit_cases hstep
    rw [State.kept,hcalling,Option.toList_none,List.append_nil] at h
    simp only [State.kept,Function.update_self]
    exact h.append (List.Sublist.refl _)
  | push t spurious =>
    obtain ⟨x,q,b,hcalling,-,-,⟨-,rfl⟩ | ⟨-,rfl⟩ | ⟨-,rfl⟩⟩ := push_cases hstep
    · rw [State.kept,hcalling,Option.toList_some] at h
      simpa only [State.kept,Function.update_self,Option.toList_none,List.append_nil] using h
    · simp only [State.kept,Function.update_self,Option.toList_none,List.append_nil]
      exact (List.sublist_append_left _ _).trans h
    · exact h
  | worker i =>
    obtain ⟨hsubmitted,hcalling,-⟩ := worker_steady hstep
    simp only [step] at hstep
    split_ifs at hstep with hi
    rw [hsubmitted,State.kept,(workerLoop_turn hstep).accepted,hcalling]
    exact h
  | stop =>
    rw [step_submitted hstep (by simp)]
    rcases stop_cases hstep with ⟨_,-,-,rfl⟩ | ⟨_,-,-,rfl⟩ | ⟨_,-,-,-,rfl⟩ | ⟨_,-,-,rfl⟩ |
      ⟨-,-,rfl⟩ | ⟨-,-,rfl⟩ <;> exact h

theorem kept_sublist (h : Transition.Reachable (step p hash) start s) :
    s.kept.Sublist s.submitted :=
  Transition.ReachableBy.invariant (P := fun s => s.kept.Sublist s.submitted)
    (List.Sublist.refl _) (fun _ _ _ hs _ hstep => step_kept_sublist hs hstep) h

/-- A submit is kept or refused. -/
theorem Books.mem_kept (h : Books p hash s) {x : Submission maxWorkers Unit Key τ}
    (hx : x ∈ s.submitted) (hrejected : x ∉ s.rejected) : x ∈ s.kept := by
  rcases h.outcome x hx with haccepted | hrej | hcalling
  · exact List.mem_append_left _ haccepted
  · exact absurd hrej hrejected
  · exact List.mem_append_right _ (Option.mem_toList.mpr hcalling)

end Sole

/-- A sorted list that goes down as far as another starts it. -/
theorem prefix_of_closed {α : Type*} {f : α → ℕ} {xs ys : List α}
    (hxs : xs.Pairwise fun x y => f x < f y) (hys : ys.Pairwise fun x y => f x < f y)
    (hmem : ∀ x ∈ xs, x ∈ ys) (hdown : ∀ x ∈ xs, ∀ y ∈ ys, f y < f x → y ∈ xs) : xs <+: ys := by
  induction ys generalizing xs with
  | nil =>
    rw [List.eq_nil_iff_forall_not_mem.mpr fun x hx => List.not_mem_nil (hmem x hx)]
  | cons y ys ih =>
    cases xs with
    | nil => exact List.nil_prefix
    | cons x xs =>
      rw [List.pairwise_cons] at hxs hys
      obtain rfl : x = y := by
        obtain rfl | hx := List.mem_cons.mp (hmem x List.mem_cons_self)
        · rfl
        · have hy := hdown x List.mem_cons_self y List.mem_cons_self (hys.1 x hx)
          obtain rfl | hy := List.mem_cons.mp hy
          · rfl
          · exact absurd (hxs.1 y hy) (hys.1 x hx).asymm
      refine List.prefix_cons_inj x |>.mpr
        (ih hxs.2 hys.2 (fun z hz => ?_) fun z hz z' hz' hlt => ?_)
      · obtain rfl | hz' := List.mem_cons.mp (hmem z (List.mem_cons_of_mem _ hz))
        · exact absurd (hxs.1 z hz) (lt_irrefl _)
        · exact hz'
      · have hz'' := hdown z (List.mem_cons_of_mem _ hz) z' (List.mem_cons_of_mem _ hz') hlt
        obtain rfl | hz'' := List.mem_cons.mp hz''
        · exact absurd (hys.1 z' hz') (lt_irrefl _)
        · exact hz''

section Sole

variable {p : Layout maxWorkers} {hash : Key → UInt64} {s : State cap maxWorkers Unit Key τ}

/-- A worker begins the tasks that were kept for it in their order and leaves none out. -/
theorem begun_prefix (h : Transition.Reachable (step p hash) start s) {w : Fin maxWorkers}
    (hb : (s.queues w).mem.pushes.length ≤ 2^64) :
    s.begun w <+: s.kept.filter fun x => x.worker = w := by
  have hbooks := reachable_books h
  have hkept := kept_sublist h
  have hsorted : s.kept.Pairwise fun x y => x.number < y.number := hbooks.sorted.sublist hkept
  have hpushed : ∀ x ∈ (s.queues w).mem.pushes.map Prod.snd, x ∈ s.kept ∧ x.worker = w := by
    intro x hx
    obtain ⟨⟨t,y⟩,hy,rfl⟩ := List.mem_map.mp hx
    obtain ⟨rfl,rfl,hsubmitted⟩ := hbooks.mem_pushes hy
    exact ⟨hbooks.mem_kept hsubmitted fun hrej => (hbooks.rejected y hrej).2 hy,rfl⟩
  refine (hbooks.begun_pushes hb).trans (prefix_of_closed (f := Submission.number) ?_
    (hsorted.sublist List.filter_sublist) (fun x hx => ?_) fun x hx y hy hlt => ?_)
  · exact (hbooks.pushes_pairwise w).imp fun hxy => hxy.2 rfl
  · exact List.mem_filter.mpr ⟨(hpushed x hx).1,decide_eq_true (hpushed x hx).2⟩
  · obtain ⟨hy,hworker⟩ := List.mem_filter.mp hy
    rcases List.mem_append.mp hy with haccepted | hcalling
    · have hclaim := (hbooks.accepted y haccepted).2.2
      rw [of_decide_eq_true hworker] at hclaim
      exact List.mem_map_of_mem (f := Prod.snd) hclaim
    · -- the submit that is going on is the last one
      exfalso
      rcases List.mem_append.mp (hpushed x hx).1 with hbefore | hlast
      · exact absurd ((List.pairwise_append.mp hsorted).2.2 x hbefore y hcalling) hlt.asymm
      · rw [Option.mem_toList] at hcalling hlast
        cases hcalling.symm.trans hlast
        exact lt_irrefl _ hlt

end Sole
end ThreadPool
end Marketlib
