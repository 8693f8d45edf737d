import Mathlib.Order.Nat
import Marketlib.SignalStages

/-! What becomes of a signal: what a process can die of, that a request to stop is not lost, and
that no crash is reported once the crash thread has ended. -/

namespace Marketlib
namespace Signals

open Transition

variable {capacity : ℕ} {s t : State} {a : Action} {sig : Sig} {u v : Thread}

def Action.isDeliver : Action → Bool
  | .deliver .. => true
  | _ => false

/-- No signal arrives. -/
def NoSignal (_ : State) (a : Action) : Prop := a.isDeliver = false

/-! ### The handlers of one thread -/

namespace State

@[simp] theorem top_goOn (s : State) (u : Thread) (f : Frame) : (s.goOn u f).top u = some f := by
  simp [goOn,top]

theorem lookup_eraseP_ne {hs : List (Thread × Frame)} (h : v ≠ u) :
    (hs.eraseP fun p => p.1 = u).lookup v = hs.lookup v := by
  induction hs with
  | nil => rfl
  | cons p hs ih =>
    obtain ⟨w,f⟩ := p
    by_cases hw : w = u
    · subst hw
      rw [List.eraseP_cons_of_pos (by simp),List.lookup_cons,beq_false_of_ne h]
    · rw [List.eraseP_cons_of_neg (by simpa using hw),List.lookup_cons,List.lookup_cons,ih]

theorem lookup_wake_ne {hs : List (Thread × Frame)} (h : v ≠ u) :
    (wake u hs).lookup v = hs.lookup v := by
  induction hs with
  | nil => rfl
  | cons p hs ih =>
    obtain ⟨w,f⟩ := p
    rw [wake]
    by_cases hw : w = u
    · subst hw
      rw [if_pos rfl,List.lookup_cons,List.lookup_cons,beq_false_of_ne h]
    · rw [if_neg hw,List.lookup_cons,List.lookup_cons,ih]

theorem top_goOn_ne (s : State) (f : Frame) (h : v ≠ u) : (s.goOn u f).top v = s.top v := by
  rw [goOn,top,List.lookup_cons,beq_false_of_ne h]
  exact lookup_eraseP_ne h

theorem top_handlerReturns_ne (s : State) (h : v ≠ u) :
    (s.handlerReturns u).top v = s.top v := by
  rw [handlerReturns,top,lookup_wake_ne h,lookup_eraseP_ne h,top]

theorem top_write (h : s.write capacity sig = some t) : t.top v = s.top v := by
  rw [top,top,(write_frame h).2.2.2.2.2.2.2.2.1]

end State

/-! ### What a step leaves alone -/

theorem mainStep_frame (hs : s.mainStep capacity = some t) :
    t.handlers = s.handlers ∧ t.reports = s.reports ∧ t.stop = s.stop ∧
      s.main.stage ≤ t.main.stage ∧ (s.main ≠ .sentinel → t.killed = s.killed) := by
  cases hpc : s.main with
  | sentinel =>
    simp only [State.mainStep,hpc] at hs
    obtain ⟨v,hv,rfl⟩ := Option.map_eq_some_iff.mp hs
    obtain ⟨-,-,hstop,-,-,-,-,-,hhandlers,hreports⟩ := State.write_frame hv
    exact ⟨hhandlers,hreports,hstop,by simp [MainPc.stage],fun hne => absurd rfl hne⟩
  | join =>
    simp only [State.mainStep,hpc] at hs
    split_ifs at hs
    cases hs
    simp [MainPc.stage]
  | sigactions rest =>
    cases rest <;> simp only [State.mainStep,hpc] at hs <;> cases hs <;> simp [MainPc.stage]
  | returned =>
    simp only [State.mainStep,hpc] at hs
    cases hs
  | _ =>
    simp only [State.mainStep,hpc] at hs
    cases hs
    simp [MainPc.stage]

/-- The crash thread raises only what kills the process. -/
theorem Inv.deliver_raising (h : Inv s) (hcrash : s.crash = .raising sig) :
    s.deliver .crash sig = { s with killed := some sig } := by
  simp [State.deliver,(h.raising sig hcrash).2.2]

theorem Inv.crashStep_frame (h : Inv s) (hs : s.crashStep = some t) :
    t.handlers = s.handlers ∧ t.main = s.main ∧ t.stop = s.stop ∧ t.reader = s.reader ∧
      t.writer = s.writer := by
  obtain ⟨sig,rest,-,-,rfl⟩ | ⟨-,-,-,rfl⟩ | ⟨sig,-,-,rfl⟩ | ⟨sig,-,-,rfl⟩ | ⟨sig,hcrash,rfl⟩ :=
    State.crashStep_cases hs
  case inr.inr.inr.inr => simp [h.deliver_raising hcrash]
  all_goals exact ⟨rfl,rfl,rfl,rfl,rfl⟩

theorem handlerStep_frame (hs : s.handlerStep capacity u = some t) :
    t.main = s.main ∧ t.crash = s.crash ∧ t.reader = s.reader ∧ t.writer = s.writer ∧
      t.reports = s.reports ∧ t.action = s.action ∧ (s.stop = true → t.stop = true) := by
  obtain ⟨sig,-,rfl⟩ | ⟨sig,v,-,hv,rfl⟩ | ⟨sig,v,-,hv,rfl⟩ | ⟨sig,-,rfl⟩ :=
    State.handlerStep_cases hs
  case inr.inr.inr => exact ⟨rfl,rfl,rfl,rfl,rfl,rfl,id⟩
  case inl => exact ⟨rfl,rfl,rfl,rfl,rfl,rfl,fun hstop => by simp [State.goOn,hstop]⟩
  all_goals
    obtain ⟨hmain,hcrash,hstop,-,-,hreader,hwriter,haction,-,hreports⟩ := State.write_frame hv
    exact ⟨hmain,hcrash,hreader,hwriter,hreports,haction,fun h => hstop.trans h⟩

/-- The handlers of a thread are left alone by all that other threads do. -/
theorem top_of_step (h : Inv s) (hs : step capacity s a = some t)
    (hdeliver : a.isDeliver = false) (hhandler : a ≠ .handler v)
    (hread : v = .crash → a ≠ .readFails) : t.top v = s.top v := by
  obtain ⟨-,hmove⟩ := step_eq_some.mp hs
  obtain ⟨rfl,-,hmain⟩ | ⟨rfl,-,-,rfl⟩ | ⟨rfl,-,hcrash⟩ | ⟨u,rfl,hrun⟩ | ⟨sig,rfl,-,-,-,rfl⟩ |
    ⟨u,sig,rfl,-,rfl⟩ := move_cases hmove
  · rw [State.top,State.top,(mainStep_frame hmain).1]
  · rfl
  · rw [State.top,State.top,(h.crashStep_frame hcrash).1]
  · have hne : v ≠ u := fun h => hhandler (by rw [h])
    obtain ⟨sig,-,rfl⟩ | ⟨sig,w,-,hw,rfl⟩ | ⟨sig,w,-,hw,rfl⟩ | ⟨sig,-,rfl⟩ :=
      State.handlerStep_cases hrun
    · exact State.top_goOn_ne _ _ hne
    · exact (State.top_goOn_ne _ _ hne).trans (State.top_write hw)
    · exact (State.top_goOn_ne _ _ hne).trans (State.top_write hw)
    · exact State.top_handlerReturns_ne _ hne
  · exact State.top_handlerReturns_ne s fun h => hread h rfl
  · cases hdeliver

theorem stage_le_of_step (h : Inv s) (hs : step capacity s a = some t) :
    s.main.stage ≤ t.main.stage := by
  obtain ⟨-,hmove⟩ := step_eq_some.mp hs
  obtain ⟨-,-,hmain⟩ | ⟨-,-,hpc,rfl⟩ | ⟨-,-,hcrash⟩ | ⟨u,-,hrun⟩ | ⟨sig,-,-,-,-,rfl⟩ |
    ⟨u,sig,-,-,rfl⟩ := move_cases hmove
  · exact (mainStep_frame hmain).2.2.2.1
  · simp [hpc,MainPc.stage]
  · rw [(h.crashStep_frame hcrash).2.1]
  · rw [(handlerStep_frame hrun).1]
  · exact le_rfl
  · obtain ⟨-,hdeliver⟩ | ⟨-,hdeliver⟩ | ⟨-,hdeliver⟩ := s.deliver_cases u sig <;> rw [hdeliver]

/-! ### What a process can die of -/

/-- The steps that end the process. -/
theorem step_kills (hinv : Inv s) (hs : step capacity s a = some t)
    (hkilled : t.killed = some sig) :
    (∃ u, a = .deliver u sig ∧ s.action sig = .dfl) ∨
    (a = .crash ∧ s.crash = .raising sig) ∨
    (sig = .pipe ∧ s.main = .closeWriter ∧ ∃ u, a = .handler u) := by
  obtain ⟨halive,hmove⟩ := step_eq_some.mp hs
  -- who writes to a pipe that nobody can read
  have hwrite {s' : State} {sig' : Sig} (hw : s.write capacity sig' = some s')
      (hkilled : s'.killed = some sig) : sig = .pipe ∧ s.main = .closeWriter := by
    obtain ⟨-,rfl⟩ | ⟨hwriter,hreader,rfl⟩ | ⟨-,-,-,rfl⟩ := State.write_cases hw
    · simp [halive] at hkilled
    · refine ⟨(Option.some.inj hkilled).symm,?_⟩
      have hopen := hinv.writer.mp hwriter
      have hclosed : ¬s.main.stage ≤ 9 := fun hle => by
        simp [hinv.reader.mpr ⟨hopen.1,hle⟩] at hreader
      have hstage : s.main.stage = 10 := by omega
      cases hpc : s.main <;> simp_all [MainPc.stage]
    · simp [halive] at hkilled
  obtain ⟨-,-,hmain⟩ | ⟨-,-,-,rfl⟩ | ⟨rfl,-,hcrash⟩ | ⟨u,rfl,hrun⟩ | ⟨sig',-,-,-,-,rfl⟩ |
    ⟨u,sig',rfl,-,rfl⟩ := move_cases hmove
  · by_cases hpc : s.main = .sentinel
    · simp only [State.mainStep,hpc] at hmain
      obtain ⟨v,hv,rfl⟩ := Option.map_eq_some_iff.mp hmain
      cases hpc.symm.trans (hwrite hv hkilled).2
    · rw [(mainStep_frame hmain).2.2.2.2 hpc,halive] at hkilled
      cases hkilled
  · simp [halive] at hkilled
  · obtain ⟨sig',rest,-,-,rfl⟩ | ⟨-,-,-,rfl⟩ | ⟨sig',-,-,rfl⟩ | ⟨sig',-,-,rfl⟩ |
      ⟨sig',hpc,rfl⟩ := State.crashStep_cases hcrash
    case inr.inr.inr.inr =>
      rw [hinv.deliver_raising hpc] at hkilled
      cases hkilled
      exact Or.inr (Or.inl ⟨rfl,hpc⟩)
    all_goals simp [halive] at hkilled
  · obtain ⟨sig',-,rfl⟩ | ⟨sig',v,-,hv,rfl⟩ | ⟨sig',v,-,hv,rfl⟩ | ⟨sig',-,rfl⟩ :=
      State.handlerStep_cases hrun
    · simp [State.goOn,halive] at hkilled
    · obtain ⟨hpipe,hmain⟩ := hwrite hv hkilled
      exact Or.inr (Or.inr ⟨hpipe,hmain,u,rfl⟩)
    · obtain ⟨hpipe,hmain⟩ := hwrite hv hkilled
      exact Or.inr (Or.inr ⟨hpipe,hmain,u,rfl⟩)
    · simp [State.handlerReturns,halive] at hkilled
  · simp [State.handlerReturns,halive] at hkilled
  · obtain ⟨hdfl,hdeliver⟩ | ⟨-,hdeliver⟩ | ⟨-,hdeliver⟩ := s.deliver_cases u sig' <;>
      rw [hdeliver] at hkilled
    · cases hkilled
      exact Or.inl ⟨u,rfl,hdfl⟩
    · simp [halive] at hkilled
    · simp [halive] at hkilled

/-- A signal without a handler, a crash that has been reported, or a handler's `write` while
`uninstall` is between its two calls of `close`; SIGINT and SIGTERM only before `install` has set
their handler, or when `pipe` has failed. -/
theorem killed_by (h : Reached capacity s) (hs : step capacity s a = some t)
    (hkilled : t.killed = some sig) :
    (∃ u, a = .deliver u sig ∧ s.action sig = .dfl ∧
      (sig.isGraceful = true → s.crash = .unborn ∨ sig ∈ s.main.toInstall)) ∨
    (a = .crash ∧ s.crash = .raising sig ∧ sig.isCrash = true ∧ sig ∈ s.reports) ∨
    (sig = .pipe ∧ s.main = .closeWriter ∧ ∃ u, a = .handler u) := by
  have hinv := Reached.inv h
  obtain ⟨u,rfl,hdfl⟩ | ⟨rfl,hpc⟩ | hpipe := step_kills hinv hs hkilled
  · refine Or.inl ⟨u,rfl,hdfl,fun hgraceful => ?_⟩
    by_contra hnot
    rw [not_or] at hnot
    simp [hinv.installed hnot.1 sig hgraceful hnot.2] at hdfl
  · obtain ⟨hcrash,hreport,-⟩ := hinv.raising _ hpc
    exact Or.inr (Or.inl ⟨rfl,hpc,hcrash,hreport⟩)
  · exact Or.inr (Or.inr hpipe)

/-- `do_run` up to the call of `on_run`. -/
def serving : State :=
  { init with
    main := .onRun, crash := .reading, gStop := true, gRunning := true, reader := true,
    writer := true,
    action := installs.foldl (fun f p => Function.update f p.1 p.2) fun _ => .dfl }

theorem reached_serving : Reached 4 serving :=
  Reachable.run .start (show run (step 4) init (List.replicate 12 .main) = some serving from rfl)

/-- A worker has crashed, its byte has been read and its stack trace written. -/
def raising : State :=
  { serving with
    crash := .raising .segv, handlers := [(.worker 0,.pausing .segv)], reports := [.segv],
    action := Function.update (Function.update serving.action .segv .dfl) .segv .dfl }

theorem reached_raising : Reached 4 raising :=
  reached_serving.run (show run (step 4) serving
    [.deliver (.worker 0) .segv,.handler (.worker 0),.crash,.crash] = some raising from rfl)

theorem killed_by_segv : ∃ t, step 4 raising .crash = some t ∧ t.killed = some .segv ∧
    .segv ∈ raising.reports := by
  refine ⟨_,rfl,rfl,?_⟩
  obtain ⟨u,hu,-⟩ | ⟨-,-,-,hreport⟩ | ⟨hsig,-⟩ := killed_by reached_raising
    (show step 4 raising .crash = some { raising with crash := .exited, killed := some .segv }
      from rfl) rfl
  · cases hu
  · exact hreport
  · cases hsig

/-! ### A request to stop -/

/-- A handler that does nothing yet stays where it is. -/
theorem mem_of_handlerStep {f : Frame} (hs : s.handlerStep capacity u = some t)
    (h : (v,f) ∈ s.handlers) (hpause : ∀ sig, f ≠ .pausing sig) :
    (v,f) ∈ t.handlers ∨ u = v ∧ s.top u = some f := by
  -- what is not the newest of its thread is not erased
  have herase {g : Frame} (htop : s.top u = some g) :
      (v,f) ∈ (s.handlers.eraseP fun p => p.1 = u) ∨ u = v ∧ s.top u = some f := by
    obtain ⟨before,after,hhandlers,-,herase⟩ := State.split_of_top htop
    rw [hhandlers,List.mem_append,List.mem_cons] at h
    rw [herase,List.mem_append]
    obtain h | h | h := h
    · exact Or.inl (Or.inl h)
    · obtain ⟨rfl,rfl⟩ := Prod.mk.inj h
      exact Or.inr ⟨rfl,htop⟩
    · exact Or.inl (Or.inr h)
  have hwake {hs : List (Thread × Frame)} (h : (v,f) ∈ hs) : (v,f) ∈ State.wake u hs := by
    induction hs with
    | nil => cases h
    | cons p hs ih =>
      obtain ⟨w,g⟩ := p
      rw [State.wake]
      obtain h | h := List.mem_cons.mp h
      · obtain ⟨rfl,rfl⟩ := Prod.mk.inj h
        have hsame : f.wake = f := by
          cases f with
          | pausing sig => exact absurd rfl (hpause sig)
          | _ => rfl
        split_ifs <;> simp [hsame]
      · split_ifs
        · exact List.mem_cons_of_mem _ h
        · exact List.mem_cons_of_mem _ (ih h)
  obtain ⟨sig,htop,rfl⟩ | ⟨sig,w,htop,hw,rfl⟩ | ⟨sig,w,htop,hw,rfl⟩ | ⟨sig,htop,rfl⟩ :=
    State.handlerStep_cases hs
  · exact (herase htop).imp_left fun h => List.mem_cons_of_mem _ h
  · refine (herase htop).imp_left fun h => List.mem_cons_of_mem _ ?_
    rwa [(State.write_frame hw).2.2.2.2.2.2.2.2.1]
  · refine (herase htop).imp_left fun h => List.mem_cons_of_mem _ ?_
    rwa [(State.write_frame hw).2.2.2.2.2.2.2.2.1]
  · exact (herase htop).imp_left hwake

/-- A handler asks for a stop in its first step. -/
theorem stop_of_stopping (hs : s.handlerStep capacity u = some t)
    (htop : s.top u = some (.stopping sig)) (hstop : s.gStop = true) : t.stop = true := by
  simp only [State.handlerStep,htop] at hs
  cases hs
  simp [State.goOn,hstop]

theorem stop_of_step (hs : step capacity s a = some t) (hinv : Inv s) (h : s.stop = true) :
    t.stop = true := by
  obtain ⟨-,hmove⟩ := step_eq_some.mp hs
  obtain ⟨-,-,hmain⟩ | ⟨-,-,hpc,rfl⟩ | ⟨-,-,hcrash⟩ | ⟨u,-,hrun⟩ | ⟨sig,-,-,-,-,rfl⟩ |
    ⟨u,sig,-,-,rfl⟩ := move_cases hmove
  · exact (mainStep_frame hmain).2.2.1.trans h
  · exact h
  · exact (hinv.crashStep_frame hcrash).2.2.1.trans h
  · exact (handlerStep_frame hrun).2.2.2.2.2.2 h
  · exact h
  · obtain ⟨-,hdeliver⟩ | ⟨-,hdeliver⟩ | ⟨-,hdeliver⟩ := s.deliver_cases u sig <;> rw [hdeliver] <;>
      exact h

theorem stopping_of_step (hs : step capacity s a = some t) (hinv : Inv s)
    (hopen : s.main.stage ≤ 11) (hstarted : 1 ≤ s.main.stage)
    (h : (u,.stopping sig) ∈ s.handlers) :
    t.stop = true ∨ (u,.stopping sig) ∈ t.handlers := by
  obtain ⟨-,hmove⟩ := step_eq_some.mp hs
  obtain ⟨-,-,hmain⟩ | ⟨-,-,hpc,rfl⟩ | ⟨-,-,hcrash⟩ | ⟨v,-,hrun⟩ | ⟨sig',-,htop,-,-,rfl⟩ |
    ⟨v,sig',-,-,rfl⟩ := move_cases hmove
  · exact Or.inr ((mainStep_frame hmain).1 ▸ h)
  · exact Or.inr h
  · exact Or.inr ((hinv.crashStep_frame hcrash).1 ▸ h)
  · obtain hstays | ⟨rfl,htop⟩ := mem_of_handlerStep hrun h (by simp)
    · exact Or.inr hstays
    · exact Or.inl (stop_of_stopping hrun htop (hinv.gStop.mpr ⟨hstarted,hopen⟩))
  · have hreturn : s.handlerStep 0 .crash = some (s.handlerReturns .crash) := by
      simp [State.handlerStep,htop]
    obtain hstays | ⟨-,htop'⟩ := mem_of_handlerStep hreturn h (by simp)
    · exact Or.inr hstays
    · cases htop.symm.trans htop'
  · obtain ⟨-,hdeliver⟩ | ⟨-,hdeliver⟩ | ⟨-,hdeliver⟩ := s.deliver_cases v sig' <;> rw [hdeliver]
    · exact Or.inr h
    · exact Or.inr (List.mem_cons_of_mem _ h)
    · exact Or.inr (List.mem_cons_of_mem _ h)

/-- SIGINT and SIGTERM, once they have their handler: whatever else goes on, until `g_stop` is
cleared the stop has been requested or the handler has not taken its first step. -/
theorem stop_requested (h : Reached capacity s) (haction : s.action sig = .graceful)
    (hdeliver : step capacity s (.deliver u sig) = some t) {as : List Action} {t' : State}
    (hrun : run (step capacity) t as = some t') (hopen : t'.main.stage ≤ 11) :
    t'.stop = true ∨ (u,.stopping sig) ∈ t'.handlers := by
  have hinv := Reached.inv h
  have hborn : s.crash ≠ .unborn := fun hunborn => by
    simp [(hinv.unborn hunborn).1 sig] at haction
  have hstarted := hinv.born hborn
  obtain ⟨-,hmove⟩ := step_eq_some.mp hdeliver
  have ht : t = { s with handlers := (u,.stopping sig) :: s.handlers } := by
    simp only [move] at hmove
    split_ifs at hmove
    rw [← Option.some.inj hmove]
    simp [State.deliver,haction]
  have hkept : Inv t' ∧ 1 ≤ t'.main.stage ∧ (t'.main.stage ≤ 11 →
      t'.stop = true ∨ (u,.stopping sig) ∈ t'.handlers) := by
    refine (Reachable.run .start hrun).invariant (P := fun x => Inv x ∧ 1 ≤ x.main.stage ∧
      (x.main.stage ≤ 11 → x.stop = true ∨ (u,.stopping sig) ∈ x.handlers)) ?_ ?_
    · exact ⟨hinv.step hdeliver,by rw [ht]; exact le_trans (by decide) hstarted,
        fun _ => Or.inr (by simp [ht])⟩
    · rintro x b y ⟨hx,hstage,hstop⟩ - hxy
      have hle := stage_le_of_step hx hxy
      refine ⟨hx.step hxy,hstage.trans hle,fun hy => ?_⟩
      obtain hstop | hstopping := hstop (hle.trans hy)
      · exact Or.inl (stop_of_step hxy hx hstop)
      · exact stopping_of_step hxy hx (hle.trans hy) hstage hstopping
  exact hkept.2.2 hopen

theorem stop_requested_serving : ∃ t t', step 4 serving (.deliver (.worker 0) .int) = some t ∧
    run (step 4) t [.main,.handler (.worker 0)] = some t' ∧
      (t'.stop = true ∨ (Thread.worker 0,Frame.stopping .int) ∈ t'.handlers) :=
  ⟨_,_,rfl,rfl,stop_requested reached_serving rfl rfl
    (show run (step 4) _ [.main,.handler (.worker 0)] = some _ from rfl) (by decide)⟩

/-! ### A crash that nobody reads -/

theorem exited_of_step (hinv : Inv s) (hs : step capacity s a = some t)
    (hexited : s.crash = .exited) : t.crash = .exited ∧ t.reports = s.reports := by
  obtain ⟨-,hmove⟩ := step_eq_some.mp hs
  obtain ⟨-,-,hmain⟩ | ⟨-,-,-,rfl⟩ | ⟨-,-,hcrash⟩ | ⟨u,-,hrun⟩ | ⟨sig,-,-,-,-,rfl⟩ |
    ⟨u,sig,-,-,rfl⟩ := move_cases hmove
  · refine ⟨?_,(mainStep_frame hmain).2.1⟩
    cases hpc : s.main with
    | sentinel =>
      simp only [State.mainStep,hpc] at hmain
      obtain ⟨v,hv,rfl⟩ := Option.map_eq_some_iff.mp hmain
      exact (State.write_frame hv).2.1.trans hexited
    | join =>
      simp only [State.mainStep,hpc] at hmain
      split_ifs at hmain
      cases hmain
      exact hexited
    | startThread =>
      have := hinv.born (by simp [hexited])
      rw [hpc] at this
      exact absurd this (by decide)
    | sigactions rest =>
      cases rest <;> simp only [State.mainStep,hpc] at hmain <;> cases hmain <;> exact hexited
    | _ =>
      simp only [State.mainStep,hpc] at hmain
      cases hmain
      try exact hexited
  · exact ⟨hexited,rfl⟩
  · simp [State.crashStep,hexited] at hcrash
  · obtain ⟨-,hcrash,-,-,hreports,-⟩ := handlerStep_frame hrun
    exact ⟨hcrash.trans hexited,hreports⟩
  · exact ⟨rfl,rfl⟩
  · obtain ⟨-,hdeliver⟩ | ⟨-,hdeliver⟩ | ⟨-,hdeliver⟩ := s.deliver_cases u sig <;> rw [hdeliver] <;>
      exact ⟨hexited,rfl⟩

/-- A thread that crashes when the crash thread has ended stays in `crash_handler` as long as no
other signal arrives; no stack trace is written, and the process does not die of the crash. -/
theorem crash_unanswered (h : Reached capacity s) (hexited : s.crash = .exited)
    (haction : s.action sig = .crash) (hdeliver : step capacity s (.deliver u sig) = some t)
    {as : List Action} {t' : State} (hquiet : Admits (step capacity) NoSignal t as)
    (hrun : run (step capacity) t as = some t') :
    (t'.top u = some (.crashing sig) ∨ t'.top u = some (.pausing sig)) ∧
      t'.reports = s.reports ∧ t'.killed ≠ some sig := by
  have hinv := Reached.inv h
  have hcrash : sig.isCrash = true := by
    have hinstalls := (hinv.actions sig).resolve_left (by simp [haction])
    rw [haction] at hinstalls
    exact crash_of_installs hinstalls
  obtain ⟨halive,hmove⟩ := step_eq_some.mp hdeliver
  have ht : t = { s with
      handlers := (u,.crashing sig) :: s.handlers,
      action := Function.update s.action sig .dfl } ∧ u ≠ .crash := by
    simp only [move] at hmove
    split_ifs at hmove with haccepts
    rw [← Option.some.inj hmove]
    exact ⟨by simp [State.deliver,haction],fun hu => (haccepts.1 hu).2 hexited⟩
  have hkept : Reached capacity t' ∧ t'.crash = .exited ∧ t'.reports = s.reports ∧
      (t'.top u = some (.crashing sig) ∨ t'.top u = some (.pausing sig)) ∧
      t'.killed ≠ some sig := by
    refine (ReachableBy.admits .start hquiet hrun).invariant (P := fun x => Reached capacity x ∧
      x.crash = .exited ∧ x.reports = s.reports ∧
      (x.top u = some (.crashing sig) ∨ x.top u = some (.pausing sig)) ∧
      x.killed ≠ some sig) ?_ ?_
    · refine ⟨h.next trivial hdeliver,by simp [ht,hexited],by simp [ht],Or.inl ?_,?_⟩
      · simp [ht,State.top]
      · simp [ht,halive]
    · rintro x b y ⟨hx,hexited,hreports,htop,-⟩ hb hxy
      obtain ⟨hexited',hreports'⟩ := exited_of_step (Reached.inv hx) hxy hexited
      refine ⟨hx.next trivial hxy,hexited',hreports'.trans hreports,?_,fun hkilled => ?_⟩
      · by_cases hu : b = .handler u
        · subst hu
          obtain ⟨-,hmove⟩ := step_eq_some.mp hxy
          have hhandler : x.handlerStep capacity u = some y := hmove
          obtain htop | htop := htop
          · simp only [State.handlerStep,htop] at hhandler
            obtain ⟨v,-,rfl⟩ := Option.map_eq_some_iff.mp hhandler
            exact Or.inr (State.top_goOn v u _)
          · simp [State.handlerStep,htop] at hhandler
        · rwa [top_of_step (Reached.inv hx) hxy hb hu fun hu' => absurd hu' ht.2]
      · obtain ⟨v,rfl,-⟩ | ⟨-,hraising⟩ | ⟨rfl,-⟩ := step_kills (Reached.inv hx) hxy hkilled
        · cases hb
        · cases hexited.symm.trans hraising
        · cases hcrash
  exact ⟨hkept.2.2.2.1,hkept.2.2.1,hkept.2.2.2.2⟩

/-- `do_run` after `uninstall`. -/
def uninstalled : State :=
  { serving with
    main := .returned, crash := .exited, gStop := false, gRunning := false, reader := false,
    writer := false }

theorem reached_uninstalled : Reached 4 uninstalled :=
  reached_serving.run (show run (step 4) serving
    [.main,.main,.main,.crash,.crash,.main,.main,.main,.main] = some uninstalled from rfl)

theorem crash_unanswered_uninstalled :
    ∃ t, run (step 4) uninstalled [.deliver (.worker 0) .segv,.handler (.worker 0)] = some t ∧
      t.reports = [] ∧ t.killed ≠ some .segv := by
  refine ⟨_,rfl,?_⟩
  obtain ⟨-,hreports,hkilled⟩ := crash_unanswered reached_uninstalled rfl rfl
    (show step 4 uninstalled (.deliver (.worker 0) .segv) = some _ from rfl)
    (show Admits (step 4) NoSignal _ [.handler (.worker 0)] from ⟨rfl,fun _ _ => trivial⟩) rfl
  exact ⟨hreports,hkilled⟩

end Signals
end Marketlib
