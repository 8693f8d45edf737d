import Mathlib.Algebra.Order.BigOperators.Group.List
import Marketlib.Progress
import Marketlib.SignalOutcomes

/-! Where the threads get to when no more signals arrive: `uninstall` returns, and the first crash
is reported. -/

namespace Marketlib
namespace Signals

open Transition

variable {capacity : ℕ} {s t : State} {a : Action} {sig : Sig} {u v : Thread}

/-! ### What is left to do -/

/-- A weight of the handlers that have not returned. -/
def State.total (w : Frame → ℕ) (s : State) : ℕ := (s.handlers.map fun p => w p.2).sum

theorem State.total_goOn (w : Frame → ℕ) {f : Frame} (g : Frame) (htop : s.top u = some f) :
    (s.goOn u g).total w+w f = s.total w+w g := by
  obtain ⟨before,after,hhandlers,-,herase⟩ := State.split_of_top htop
  simp only [State.total,State.goOn,herase]
  simp only [hhandlers,List.map_cons,List.map_append,List.sum_cons,List.sum_append]
  omega

theorem State.total_handlerReturns {w : Frame → ℕ} (hw : ∀ f, w f.wake = w f) {f : Frame}
    (htop : s.top u = some f) : (s.handlerReturns u).total w+w f = s.total w := by
  have hwake (hs : List (Thread × Frame)) :
      ((State.wake u hs).map fun p => w p.2).sum = (hs.map fun p => w p.2).sum := by
    induction hs with
    | nil => rfl
    | cons p hs ih =>
      obtain ⟨v,g⟩ := p
      rw [State.wake]
      split_ifs <;> simp [hw,ih]
  obtain ⟨before,after,hhandlers,-,herase⟩ := State.split_of_top htop
  simp only [State.total,State.handlerReturns,herase,hwake]
  simp only [hhandlers,List.map_cons,List.map_append,List.sum_cons,List.sum_append]
  omega

/-- What a handler has still to do, and the crash thread with the byte that it will write. -/
def Frame.work : Frame → ℕ
  | .stopping _ => 8
  | .notifying _ | .crashing _ => 7
  | .pausing _ | .returning _ => 1

@[simp] theorem Frame.work_wake (f : Frame) : f.wake.work = f.work := by
  cases f <;> rfl

/-- The bytes that a handler has still to write. -/
def Frame.toWrite : Frame → ℕ
  | .stopping _ | .notifying _ | .crashing _ => 1
  | .pausing _ | .returning _ => 0

@[simp] theorem Frame.toWrite_wake (f : Frame) : f.wake.toWrite = f.toWrite := by
  cases f <;> rfl

def CrashPc.work : CrashPc → ℕ
  | .unborn | .exited => 0
  | .reading => 1
  | .got _ => 4
  | .raising _ => 2

def MainPc.work : MainPc → ℕ
  | .setStop => 33
  | .setRunning => 32
  | .openPipe => 31
  | .startThread => 30
  | .sigactions rest => rest.length+20
  | .onRun => 19
  | .clearRunning => 18
  | .sentinel => 17
  | .join => 8
  | .closeReader => 7
  | .closeWriter => 6
  | .clearStop => 5
  | .returned => 0

def State.work (s : State) : ℕ :=
  s.main.work+s.crash.work+4*s.pipe.length+s.total Frame.work

theorem State.write_length (h : s.write capacity sig = some t) :
    t.pipe.length ≤ s.pipe.length+1 := by
  obtain ⟨-,rfl⟩ | ⟨-,-,rfl⟩ | ⟨-,-,-,rfl⟩ := State.write_cases h <;> simp

theorem State.write_work (h : s.write capacity sig = some t) : t.work ≤ s.work+4 := by
  obtain ⟨hmain,hcrash,-,-,-,-,-,-,hhandlers,-⟩ := State.write_frame h
  have hlength := State.write_length h
  simp only [State.work,State.total,hmain,hcrash,hhandlers]
  omega

theorem mainStep_work (hs : s.mainStep capacity = some t) : t.work < s.work := by
  cases hpc : s.main with
  | sentinel =>
    simp only [State.mainStep,hpc] at hs
    obtain ⟨v,hv,rfl⟩ := Option.map_eq_some_iff.mp hs
    have hwork := State.write_work hv
    have hmain := (State.write_frame hv).1
    simp only [State.work,State.total,hmain,hpc,MainPc.work] at hwork ⊢
    omega
  | join =>
    simp only [State.mainStep,hpc] at hs
    split_ifs at hs
    cases hs
    simp only [State.work,State.total,hpc,MainPc.work]
    omega
  | startThread =>
    simp only [State.mainStep,hpc] at hs
    cases hs
    simp only [State.work,State.total,hpc,MainPc.work,CrashPc.work,installs,List.length_cons,
      List.length_nil]
    omega
  | sigactions rest =>
    cases rest <;> simp only [State.mainStep,hpc] at hs <;> cases hs <;>
      simp only [State.work,State.total,hpc,MainPc.work,List.length_cons,List.length_nil] <;> omega
  | returned =>
    simp only [State.mainStep,hpc] at hs
    cases hs
  | _ =>
    simp only [State.mainStep,hpc] at hs
    cases hs
    simp only [State.work,State.total,hpc,MainPc.work]
    omega

theorem Inv.crashStep_work (h : Inv s) (hs : s.crashStep = some t) : t.work < s.work := by
  obtain ⟨sig,rest,hcrash,hpipe,rfl⟩ | ⟨hcrash,-,-,rfl⟩ | ⟨sig,hcrash,-,rfl⟩ |
    ⟨sig,hcrash,-,rfl⟩ | ⟨sig,hcrash,rfl⟩ := State.crashStep_cases hs
  case inr.inr.inl =>
    cases s.gRunning <;> simp only [State.work,State.total,hcrash,CrashPc.work] <;> simp
  case inr.inr.inr.inr =>
    rw [h.deliver_raising hcrash]
    simp only [State.work,State.total,hcrash,CrashPc.work]
    omega
  case inl =>
    simp only [State.work,State.total,hcrash,hpipe,CrashPc.work,List.length_cons]
    omega
  all_goals
    simp only [State.work,State.total,hcrash,CrashPc.work]
    omega

theorem goOn_work {f : Frame} (g : Frame) (htop : s.top u = some f) :
    (s.goOn u g).work+f.work = s.work+g.work := by
  have htotal := State.total_goOn Frame.work g htop
  simp only [State.work] at htotal ⊢
  simp only [State.goOn] at htotal ⊢
  omega

theorem handlerReturns_work {f : Frame} (htop : s.top u = some f) :
    (s.handlerReturns u).work+f.work = s.work := by
  have htotal := State.total_handlerReturns Frame.work_wake htop
  simp only [State.work] at htotal ⊢
  simp only [State.handlerReturns] at htotal ⊢
  omega

theorem handlerStep_work (hs : s.handlerStep capacity u = some t) : t.work < s.work := by
  obtain ⟨sig,htop,rfl⟩ | ⟨sig,v,htop,hv,rfl⟩ | ⟨sig,v,htop,hv,rfl⟩ | ⟨sig,htop,rfl⟩ :=
    State.handlerStep_cases hs
  · have hwork := goOn_work (s := { s with stop := s.stop || s.gStop }) (.notifying sig) htop
    have hsame : ({ s with stop := s.stop || s.gStop } : State).work = s.work := rfl
    simp only [Frame.work] at hwork
    omega
  · have hwork := goOn_work (.returning sig) ((State.top_write hv).trans htop)
    have hwrite := State.write_work hv
    simp only [Frame.work] at hwork
    omega
  · have hwork := goOn_work (.pausing sig) ((State.top_write hv).trans htop)
    have hwrite := State.write_work hv
    simp only [Frame.work] at hwork
    omega
  · have hwork := handlerReturns_work htop
    simp only [Frame.work] at hwork
    omega

/-- Without new signals all threads run out of work. -/
theorem work_lt (h : Inv s) (hs : step capacity s a = some t) (ha : a.isDeliver = false) :
    t.work < s.work := by
  obtain ⟨-,hmove⟩ := step_eq_some.mp hs
  obtain ⟨-,-,hmain⟩ | ⟨-,-,hpc,rfl⟩ | ⟨-,-,hcrash⟩ | ⟨u,-,hrun⟩ | ⟨sig,-,htop,hcrash,-,rfl⟩ |
    ⟨u,sig,rfl,-,rfl⟩ := move_cases hmove
  · exact mainStep_work hmain
  · simp only [State.work,State.total,hpc,MainPc.work]
    omega
  · exact h.crashStep_work hcrash
  · exact handlerStep_work hrun
  · have hwork := handlerReturns_work htop
    simp only [State.work,State.total,State.handlerReturns,hcrash,Frame.work,CrashPc.work]
      at hwork ⊢
    omega
  · cases ha

/-! ### `uninstall` returns -/

/-- `uninstall` has room for its byte, and nothing interrupts it or the crash thread. -/
structure Undisturbed (capacity : ℕ) (s : State) : Prop extends Inv s where
  left : 6 ≤ s.main.stage
  main : s.top .main = none
  crash : s.top .crash = none
  room : s.main.stage ≤ 7 → s.pipe.length+s.total Frame.toWrite < capacity

theorem toWrite_of_handlerStep (hs : s.handlerStep capacity u = some t) :
    t.pipe.length+t.total Frame.toWrite ≤ s.pipe.length+s.total Frame.toWrite := by
  have htotal {v : State} {sig : Sig} (hv : s.write capacity sig = some v) :
      v.total Frame.toWrite = s.total Frame.toWrite := by
    rw [State.total,State.total,(State.write_frame hv).2.2.2.2.2.2.2.2.1]
  obtain ⟨sig,htop,rfl⟩ | ⟨sig,v,htop,hv,rfl⟩ | ⟨sig,v,htop,hv,rfl⟩ | ⟨sig,htop,rfl⟩ :=
    State.handlerStep_cases hs
  · have hgo := State.total_goOn (s := { s with stop := s.stop || s.gStop }) Frame.toWrite
      (.notifying sig) htop
    simp only [State.total,State.goOn,Frame.toWrite] at hgo ⊢
    omega
  · have hgo := State.total_goOn Frame.toWrite (.returning sig) ((State.top_write hv).trans htop)
    have hlength := State.write_length hv
    rw [htotal hv] at hgo
    simp only [Frame.toWrite] at hgo
    simp only [State.goOn] at hgo ⊢
    omega
  · have hgo := State.total_goOn Frame.toWrite (.pausing sig) ((State.top_write hv).trans htop)
    have hlength := State.write_length hv
    rw [htotal hv] at hgo
    simp only [Frame.toWrite] at hgo
    simp only [State.goOn] at hgo ⊢
    omega
  · have hreturn := State.total_handlerReturns Frame.toWrite_wake htop
    simp only [Frame.toWrite] at hreturn
    simp only [State.handlerReturns] at hreturn ⊢
    omega

theorem crashStep_pipe (h : Inv s) (hs : s.crashStep = some t) :
    t.pipe.length ≤ s.pipe.length := by
  obtain ⟨sig,rest,-,hpipe,rfl⟩ | ⟨-,-,-,rfl⟩ | ⟨sig,-,-,rfl⟩ | ⟨sig,-,-,rfl⟩ | ⟨sig,hcrash,rfl⟩ :=
    State.crashStep_cases hs
  case inl => simp [hpipe]
  case inr.inr.inr.inr => rw [h.deliver_raising hcrash]
  all_goals exact le_rfl

theorem Undisturbed.next (h : Undisturbed capacity s) (hs : step capacity s a = some t)
    (ha : a.isDeliver = false) : Undisturbed capacity t := by
  have hstage := stage_le_of_step h.toInv hs
  obtain ⟨-,hmove⟩ := step_eq_some.mp hs
  have hhandler (u : Thread) (hu : s.top u = none) : a ≠ .handler u := by
    rintro rfl
    simp [move,State.handlerStep,hu] at hmove
  have hread : a ≠ .readFails := by
    rintro rfl
    simp [move,h.crash] at hmove
  refine { h.toInv.step hs with
    left := h.left.trans hstage,
    main := (top_of_step h.toInv hs ha (hhandler _ h.main) fun _ => hread).trans h.main,
    crash := (top_of_step h.toInv hs ha (hhandler _ h.crash) fun _ => hread).trans h.crash,
    room := fun ht => ?_ }
  have hroom := h.room (hstage.trans ht)
  have hleft := h.left
  obtain ⟨rfl,-,hmain⟩ | ⟨-,-,hpc,rfl⟩ | ⟨-,-,hcrash⟩ | ⟨u,-,hrun⟩ | ⟨sig,rfl,-⟩ |
    ⟨u,sig,rfl,-⟩ := move_cases hmove
  · cases hpc : s.main with
    | clearRunning =>
      simp only [State.mainStep,hpc] at hmain
      cases hmain
      exact hroom
    | sentinel =>
      simp only [State.mainStep,hpc] at hmain
      obtain ⟨v,-,rfl⟩ := Option.map_eq_some_iff.mp hmain
      simp [MainPc.stage] at ht
    | _ => simp [hpc,MainPc.stage] at hleft hstage ht <;> omega
  · simp [hpc,MainPc.stage] at hleft
  · have hpipe := crashStep_pipe h.toInv hcrash
    rw [State.total,(h.crashStep_frame hcrash).1]
    exact lt_of_le_of_lt (Nat.add_le_add_right hpipe _) hroom
  · exact lt_of_le_of_lt (toWrite_of_handlerStep hrun) hroom
  · exact absurd rfl hread
  · cases ha

theorem Undisturbed.enabled (h : Undisturbed capacity s)
    (hdone : ¬(s.killed ≠ none ∨ s.main = .returned)) :
    ∃ a : Action, a.isDeliver = false ∧ (step capacity s a).isSome = true := by
  push Not at hdone
  obtain ⟨halive,hreturned⟩ := hdone
  have hmain : (s.mainStep capacity).isSome = true → (step capacity s .main).isSome = true := by
    simp [step,halive,move,h.main]
  have hcrash : s.crashStep.isSome = true → (step capacity s .crash).isSome = true := by
    simp [step,halive,move,h.crash]
  have hleft := h.left
  cases hpc : s.main with
  | sentinel =>
    refine ⟨.main,rfl,hmain ?_⟩
    have hroom : s.pipe.length < capacity :=
      lt_of_le_of_lt (Nat.le_add_right _ _) (h.room (by simp [hpc,MainPc.stage]))
    simp only [State.mainStep,hpc,Option.isSome_map,State.write]
    split_ifs <;> simp
  | join =>
    cases hpc' : s.crash with
    | unborn => exact ⟨.main,rfl,hmain (by simp [State.mainStep,hpc,hpc'])⟩
    | exited => exact ⟨.main,rfl,hmain (by simp [State.mainStep,hpc,hpc'])⟩
    | reading =>
      obtain ⟨sig,hsig,-⟩ := h.awaited hpc hpc'
      refine ⟨.crash,rfl,hcrash ?_⟩
      cases hpipe : s.pipe with
      | nil => simp [hpipe] at hsig
      | cons sig rest => simp [State.crashStep,hpc',hpipe]
    | got sig =>
      refine ⟨.crash,rfl,hcrash ?_⟩
      simp only [State.crashStep,hpc']
      split_ifs <;> rfl
    | raising sig => exact ⟨.crash,rfl,hcrash (by simp [State.crashStep,hpc'])⟩
  | returned => exact absurd hpc hreturned
  | clearRunning | closeReader | closeWriter | clearStop =>
    exact ⟨.main,rfl,hmain (by simp [State.mainStep,hpc])⟩
  | _ => simp [hpc,MainPc.stage] at hleft

def uninstallRanking (capacity : ℕ) :
    Ranking (step capacity) NoSignal fun t => t.killed ≠ none ∨ t.main = .returned where
  inv := Undisturbed capacity
  work := State.work
  keep _ _ _ hs ha hstep := hs.next hstep ha
  lower _ _ _ hs ha hstep := work_lt hs.toInv hstep ha
  enabled _ hs hdone := hs.enabled hdone

/-- Once `on_run` has returned, `uninstall` comes to its end in whatever order the threads go on,
or the process dies, if no more signals arrive, none has interrupted the thread of `do_run` or
the crash thread, and the pipe takes what is still to be written. -/
theorem uninstall_ends (h : Reached capacity s) (hleft : 6 ≤ s.main.stage)
    (hmain : s.top .main = none) (hcrash : s.top .crash = none)
    (hroom : s.pipe.length+s.total Frame.toWrite < capacity) :
    Ends (step capacity) NoSignal (fun t => t.killed ≠ none ∨ t.main = .returned) s :=
  (uninstallRanking capacity).ends
    { Reached.inv h with left := hleft, main := hmain, crash := hcrash, room := fun _ => hroom }

theorem uninstall_ends_serving :
    Ends (step 4) NoSignal (fun t => t.killed ≠ none ∨ t.main = .returned)
      { serving with main := .clearRunning } :=
  uninstall_ends (reached_serving.run (show run (step 4) serving [.main] = some _ from rfl))
    (by decide) rfl rfl (by decide)

/-! ### The first crash is reported -/

/-- No signal arrives, and `do_run` stays where it is. -/
def Staying (_ : State) (a : Action) : Prop := a.isDeliver = false ∧ a ≠ .main

/-- While `on_run` runs, `sig` is the first crash that the crash thread will come to, or the
process has died of it. -/
structure Reporting (sig : Sig) (s : State) : Prop extends Inv s where
  main : s.main = .onRun
  answer : s.killed = none ∧ s.crash ≠ .exited ∧ s.top .crash = none ∧
      (s.crash.sig.toList ++ s.pipe).find? Sig.isCrash = some sig ∨
    s.killed = some sig ∧ sig ∈ s.reports

theorem State.write_open (hs : s.write capacity sig = some t) (hreader : s.reader = true)
    (hwriter : s.writer = true) : t = { s with pipe := s.pipe ++ [sig] } := by
  obtain ⟨hclosed,-⟩ | ⟨-,hclosed,-⟩ | ⟨-,-,-,rfl⟩ := State.write_cases hs
  · simp [hwriter] at hclosed
  · simp [hreader] at hclosed
  · rfl

theorem handlerStep_open (hs : s.handlerStep capacity u = some t) (hreader : s.reader = true)
    (hwriter : s.writer = true) :
    t.killed = s.killed ∧ ∃ bytes, t.pipe = s.pipe ++ bytes := by
  obtain ⟨sig,-,rfl⟩ | ⟨sig,v,-,hv,rfl⟩ | ⟨sig,v,-,hv,rfl⟩ | ⟨sig,-,rfl⟩ :=
    State.handlerStep_cases hs
  · exact ⟨rfl,[],(List.append_nil _).symm⟩
  · rw [State.write_open hv hreader hwriter]
    exact ⟨rfl,[sig],rfl⟩
  · rw [State.write_open hv hreader hwriter]
    exact ⟨rfl,[sig],rfl⟩
  · exact ⟨rfl,[],(List.append_nil _).symm⟩

theorem Sig.isCrash_of_isGraceful (h : sig.isGraceful = true) : sig.isCrash = false := by
  cases sig <;> simp_all [Sig.isGraceful,Sig.isCrash]

theorem Reporting.next {sig : Sig} (h : Reporting sig s) (hs : step capacity s a = some t)
    (ha : a.isDeliver = false) (hmain : a ≠ .main) : Reporting sig t := by
  obtain ⟨halive,hmove⟩ := step_eq_some.mp hs
  obtain ⟨-,hborn,htop,hfirst⟩ := h.answer.resolve_right (by simp [halive])
  have hstage : s.main.stage = 5 := by simp [h.main,MainPc.stage]
  have hrunning : s.gRunning = true := h.gRunning.mpr (by omega)
  have hstarted : s.crash ≠ .unborn := fun hunborn => by
    have hnone := (h.unborn hunborn).2
    have hcrash : s.crash.sig.toList ++ s.pipe = [] := by
      simp only [State.underWay,List.append_eq_nil_iff] at hnone ⊢
      exact hnone.1
    simp [hcrash] at hfirst
  refine { h.toInv.step hs with main := ?_, answer := ?_ }
  · obtain ⟨rfl,-⟩ | ⟨-,-,hpc,-⟩ | ⟨-,-,hcrash⟩ | ⟨u,-,hrun⟩ | ⟨sig',-,-,-,-,rfl⟩ |
      ⟨u,sig',rfl,-⟩ := move_cases hmove
    · exact absurd rfl hmain
    · cases h.main.symm.trans hpc
    · exact (h.crashStep_frame hcrash).2.1.trans h.main
    · exact (handlerStep_frame hrun).1.trans h.main
    · exact h.main
    · cases ha
  · obtain ⟨rfl,-⟩ | ⟨-,-,hpc,-⟩ | ⟨-,-,hcrash⟩ | ⟨u,rfl,hrun⟩ | ⟨sig',rfl,htop',-⟩ |
      ⟨u,sig',rfl,-⟩ := move_cases hmove
    · exact absurd rfl hmain
    · cases h.main.symm.trans hpc
    · have htop' : t.top .crash = none := by
        rw [State.top,(h.crashStep_frame hcrash).1]
        exact htop
      obtain ⟨sig',rest,hpc,hpipe,rfl⟩ | ⟨hpc,hpipe,-,rfl⟩ | ⟨sig',hpc,hsig,rfl⟩ |
        ⟨sig',hpc,hsig,rfl⟩ | ⟨sig',hpc,rfl⟩ := State.crashStep_cases hcrash
      · refine Or.inl ⟨halive,by simp,htop',?_⟩
        simpa [hpc,hpipe,CrashPc.sig] using hfirst
      · simp [hpc,hpipe,CrashPc.sig] at hfirst
      · refine Or.inl ⟨halive,by simp [hrunning],htop',?_⟩
        rw [hpc] at hfirst
        simpa [hrunning,CrashPc.sig,Sig.isCrash_of_isGraceful hsig] using hfirst
      · refine Or.inl ⟨halive,by simp,htop',?_⟩
        rw [hpc] at hfirst
        simpa [CrashPc.sig] using hfirst
      · obtain ⟨hsig',hreport,-⟩ := h.raising sig' hpc
        rw [h.deliver_raising hpc]
        have hsame : sig' = sig := by
          rw [hpc] at hfirst
          simpa [CrashPc.sig,hsig'] using hfirst
        exact Or.inr ⟨by simp [hsame],hsame ▸ hreport⟩
    · have hreader := h.reader.mpr ⟨Or.inr hstarted,by omega⟩
      have hwriter := h.writer.mpr ⟨Or.inr hstarted,by omega⟩
      obtain ⟨hkilled,bytes,hpipe⟩ := handlerStep_open hrun hreader hwriter
      have hu : u ≠ .crash := by
        rintro rfl
        simp [State.handlerStep,htop] at hrun
      refine Or.inl ⟨hkilled.trans halive,?_,?_,?_⟩
      · rwa [(handlerStep_frame hrun).2.1]
      · rw [top_of_step h.toInv hs rfl (by simpa using hu) (by simp)]
        exact htop
      · rw [(handlerStep_frame hrun).2.1,hpipe,← List.append_assoc,List.find?_append,hfirst]
        rfl
    · simp [htop] at htop'
    · cases ha

theorem Reporting.enabled {sig : Sig} (h : Reporting sig s)
    (hdone : ¬(s.killed = some sig ∧ sig ∈ s.reports)) :
    (step capacity s .crash).isSome = true := by
  obtain ⟨halive,hborn,htop,hfirst⟩ := h.answer.resolve_right hdone
  have hstep : (step capacity s .crash).isSome = s.crashStep.isSome := by
    simp [step,halive,move,htop]
  rw [hstep]
  cases hpc : s.crash with
  | unborn =>
    have hnone := (h.unborn hpc).2
    simp only [State.underWay,hpc,CrashPc.sig,List.append_eq_nil_iff] at hnone
    simp [hpc,CrashPc.sig,hnone.1] at hfirst
  | reading =>
    cases hpipe : s.pipe with
    | nil => simp [hpc,hpipe,CrashPc.sig] at hfirst
    | cons sig' rest => simp [State.crashStep,hpc,hpipe]
  | got sig' =>
    simp only [State.crashStep,hpc]
    split_ifs <;> rfl
  | raising sig' => simp [State.crashStep,hpc]
  | exited => exact absurd hpc hborn

def reportRanking (capacity : ℕ) (sig : Sig) :
    Ranking (step capacity) Staying fun t => t.killed = some sig ∧ sig ∈ t.reports where
  inv := Reporting sig
  work := State.work
  keep _ _ _ hs ha hstep := hs.next hstep ha.1 ha.2
  lower _ _ _ hs ha hstep := work_lt hs.toInv hstep ha.1
  enabled _ hs hdone := ⟨.crash,⟨rfl,by simp⟩,hs.enabled hdone⟩

/-- As long as `on_run` does not return and no other signal arrives, the first crash in the pipe
is the one that the process dies of, with its stack trace written, whatever the other handlers
do. -/
theorem crash_reported (h : Reached capacity s) (hmain : s.main = .onRun)
    (halive : s.killed = none) (hcrash : s.crash ≠ .exited) (htop : s.top .crash = none)
    (hfirst : (s.crash.sig.toList ++ s.pipe).find? Sig.isCrash = some sig) :
    Ends (step capacity) Staying (fun t => t.killed = some sig ∧ sig ∈ t.reports) s :=
  (reportRanking capacity sig).ends
    { Reached.inv h with main := hmain, answer := Or.inl ⟨halive,hcrash,htop,hfirst⟩ }

/-- A worker has crashed, and its byte is in the pipe behind that of a SIGINT. -/
def crashing : State :=
  { serving with
    pipe := [.int,.segv], stop := true, handlers := [(.worker 0,.pausing .segv)],
    action := Function.update serving.action .segv .dfl }

theorem crash_reported_crashing :
    Ends (step 4) Staying (fun t => t.killed = some .segv ∧ .segv ∈ t.reports) crashing :=
  crash_reported (reached_serving.run (show run (step 4) serving
    [.deliver .main .int,.handler .main,.handler .main,.handler .main,.deliver (.worker 0) .segv,
      .handler (.worker 0)] = some crashing from rfl)) rfl rfl (by decide) rfl (by decide)

end Signals
end Marketlib
