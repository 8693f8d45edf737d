import Marketlib.SignalHandlers

/-! What holds of a server application whatever signals arrive and when: the flags follow the
stages of `do_run`, a handler is set only when the crash thread reads the pipe, and `uninstall`
waits for a thread that has been told to end. -/

namespace Marketlib
namespace Signals

variable {capacity : ℕ} {s t : State} {sig : Sig} {u : Thread}

/-! ### The stages of `do_run` -/

/-- The flags that `do_run` sets, by how far it has come. -/
structure Staged (s : State) : Prop where
  gRunning : s.gRunning = true ↔ 2 ≤ s.main.stage ∧ s.main.stage ≤ 6
  gStop : s.gStop = true ↔ 1 ≤ s.main.stage ∧ s.main.stage ≤ 11
  reader : s.reader = true ↔ (s.main.stage = 3 ∨ s.crash ≠ .unborn) ∧ s.main.stage ≤ 9
  writer : s.writer = true ↔ (s.main.stage = 3 ∨ s.crash ≠ .unborn) ∧ s.main.stage ≤ 10
  born : s.crash ≠ .unborn → 4 ≤ s.main.stage
  installing : s.main.stage = 4 → s.crash ≠ .unborn
  joined : 9 ≤ s.main.stage → s.crash = .unborn ∨ s.crash = .exited

theorem Staged.init : Staged init := by
  constructor <;> simp [Signals.init,MainPc.stage]

/-- It says nothing about the handlers and the pipe. -/
theorem Staged.congr (h : Staged s) (hmain : t.main = s.main) (hcrash : t.crash = s.crash)
    (hrunning : t.gRunning = s.gRunning) (hstop : t.gStop = s.gStop)
    (hreader : t.reader = s.reader) (hwriter : t.writer = s.writer) : Staged t := by
  obtain ⟨h₁,h₂,h₃,h₄,h₅,h₆,h₇⟩ := h
  constructor <;> simp only [hmain,hcrash,hrunning,hstop,hreader,hwriter] <;> assumption

theorem Staged.write (h : Staged s) (hs : s.write capacity sig = some t) : Staged t := by
  obtain ⟨hmain,hcrash,-,hstop,hrunning,hreader,hwriter,-⟩ := State.write_frame hs
  exact h.congr hmain hcrash hrunning hstop hreader hwriter

theorem Staged.mainStep (h : Staged s) (hs : s.mainStep capacity = some t) : Staged t := by
  cases hpc : s.main with
  | sentinel =>
    simp only [State.mainStep,hpc] at hs
    obtain ⟨v,hv,rfl⟩ := Option.map_eq_some_iff.mp hs
    obtain ⟨hmain,-⟩ := State.write_frame hv
    obtain ⟨h₁,h₂,h₃,h₄,h₅,h₆,h₇⟩ := h.write hv
    rw [hmain,hpc] at h₁ h₂ h₃ h₄ h₅ h₆ h₇
    constructor <;> simp_all [MainPc.stage]
  | join =>
    simp only [State.mainStep,hpc] at hs
    split_ifs at hs with hjoined
    obtain ⟨h₁,h₂,h₃,h₄,h₅,h₆,h₇⟩ := h
    rw [hpc] at h₁ h₂ h₃ h₄ h₅ h₆ h₇
    cases hs
    constructor <;> simp_all [MainPc.stage]
  | sigactions rest =>
    obtain ⟨h₁,h₂,h₃,h₄,h₅,h₆,h₇⟩ := h
    cases rest <;> simp only [State.mainStep,hpc] at hs <;> cases hs <;> constructor <;>
      simp_all [MainPc.stage]
  | returned =>
    simp only [State.mainStep,hpc] at hs
    cases hs
  | _ =>
    obtain ⟨h₁,h₂,h₃,h₄,h₅,h₆,h₇⟩ := h
    simp only [State.mainStep,hpc] at hs
    cases hs
    constructor <;> simp_all [MainPc.stage]

/-- The crash thread neither starts nor comes back by itself. -/
theorem Staged.crashed (h : Staged s) (halive : s.crash ≠ .unborn ∧ s.crash ≠ .exited)
    (hmain : t.main = s.main) (hcrash : t.crash ≠ .unborn) (hrunning : t.gRunning = s.gRunning)
    (hstop : t.gStop = s.gStop) (hreader : t.reader = s.reader) (hwriter : t.writer = s.writer) :
    Staged t := by
  obtain ⟨h₁,h₂,h₃,h₄,h₅,h₆,h₇⟩ := h
  constructor <;> simp only [hmain,hrunning,hstop,hreader,hwriter] <;> simp_all <;> omega

theorem Staged.crashStep (h : Staged s) (hs : s.crashStep = some t) : Staged t := by
  obtain ⟨sig,rest,hcrash,-,rfl⟩ | ⟨hcrash,-,-,rfl⟩ | ⟨sig,hcrash,-,rfl⟩ | ⟨sig,hcrash,-,rfl⟩ |
    ⟨sig,hcrash,rfl⟩ := State.crashStep_cases hs
  · exact h.crashed (by simp [hcrash]) rfl (by simp) rfl rfl rfl rfl
  · exact h.crashed (by simp [hcrash]) rfl (by simp) rfl rfl rfl rfl
  · exact h.crashed (by simp [hcrash]) rfl (by simp only; split_ifs <;> simp) rfl rfl rfl rfl
  · exact h.crashed (by simp [hcrash]) rfl (by simp) rfl rfl rfl rfl
  · obtain ⟨-,hdeliver⟩ | ⟨-,hdeliver⟩ | ⟨-,hdeliver⟩ := s.deliver_cases .crash sig <;>
      exact h.crashed (by simp [hcrash]) (by simp [hdeliver]) (by simp) (by simp [hdeliver])
        (by simp [hdeliver]) (by simp [hdeliver]) (by simp [hdeliver])

theorem Staged.handlerStep (h : Staged s) (hs : s.handlerStep capacity u = some t) :
    Staged t := by
  obtain ⟨sig,-,rfl⟩ | ⟨sig,v,-,hv,rfl⟩ | ⟨sig,v,-,hv,rfl⟩ | ⟨sig,-,rfl⟩ :=
    State.handlerStep_cases hs
  · exact h.congr rfl rfl rfl rfl rfl rfl
  · exact (h.write hv).congr rfl rfl rfl rfl rfl rfl
  · exact (h.write hv).congr rfl rfl rfl rfl rfl rfl
  · exact h.congr rfl rfl rfl rfl rfl rfl

theorem Staged.deliver (h : Staged s) : Staged (s.deliver u sig) := by
  obtain ⟨-,hdeliver⟩ | ⟨-,hdeliver⟩ | ⟨-,hdeliver⟩ := s.deliver_cases u sig <;> rw [hdeliver] <;>
    exact h.congr rfl rfl rfl rfl rfl rfl

/-! ### The signals under way -/

/-- What a handler is called with. -/
def Frame.Proper : Frame → Prop
  | .stopping sig | .notifying sig => sig.isGraceful = true
  | .crashing sig | .pausing sig => sig.isCrash = true
  | .returning sig => sig.isGraceful = true ∨ sig.isCrash = true

theorem Frame.Proper.handled {f : Frame} (h : f.Proper) :
    f.sig.isGraceful = true ∨ f.sig.isCrash = true := by
  cases f with
  | stopping | notifying => exact Or.inl h
  | crashing | pausing => exact Or.inr h
  | returning => exact h

/-- The signals that have been delivered and not yet been dealt with. -/
def State.underWay (s : State) : List Sig :=
  s.crash.sig.toList ++ s.pipe ++ s.handlers.map fun p => p.2.sig

structure Consistent (s : State) : Prop where
  actions : ∀ sig, s.action sig = .dfl ∨ (sig,s.action sig) ∈ installs
  installed : s.crash ≠ .unborn →
    ∀ sig, sig.isGraceful = true → sig ∉ s.main.toInstall → s.action sig = .graceful
  frames : ∀ p ∈ s.handlers, p.2.Proper
  bytes : ∀ sig ∈ s.crash.sig.toList ++ s.pipe, sig.isGraceful = true ∨ sig.isCrash = true
  raising : ∀ sig, s.crash = .raising sig →
    sig.isCrash = true ∧ sig ∈ s.reports ∧ s.action sig = .dfl
  suffix : ∀ rest, s.main = .sigactions rest → rest <:+ installs
  fresh : ∀ sig ∈ s.main.toInstall, s.action sig = .dfl ∧ sig ∉ s.underWay
  unborn : s.crash = .unborn → (∀ sig, s.action sig = .dfl) ∧ s.underWay = []

theorem Consistent.init : Consistent init := by
  constructor <;> simp [Signals.init,State.underWay,CrashPc.sig,MainPc.toInstall]

/-- A step other than those of `install`: a signal comes under way where it has a handler. -/
theorem Consistent.next (h : Consistent s)
    (hmain : t.main = s.main ∨ s.main.toInstall = [] ∧ ∀ rest, t.main ≠ .sigactions rest)
    (hcrash : t.crash = .unborn ↔ s.crash = .unborn)
    (haction : ∀ sig, t.action sig = s.action sig ∨
      t.action sig = .dfl ∧ sig.isGraceful = false)
    (hunderWay : ∀ sig ∈ t.underWay, sig ∈ s.underWay ∨ s.action sig ≠ .dfl)
    (hframes : ∀ p ∈ t.handlers, p ∈ s.handlers ∨ p.2.Proper)
    (hbytes : ∀ sig ∈ t.crash.sig.toList ++ t.pipe, sig.isGraceful = true ∨ sig.isCrash = true)
    (hraising : ∀ sig, t.crash = .raising sig →
      sig.isCrash = true ∧ sig ∈ t.reports ∧ t.action sig = .dfl) : Consistent t := by
  have hinstall : t.main.toInstall = s.main.toInstall := by
    obtain hmain | ⟨hnone,hmain⟩ := hmain
    · rw [hmain]
    · rw [hnone]
      cases hpc : t.main with
      | sigactions rest => exact absurd hpc (hmain rest)
      | _ => rfl
  refine ⟨fun sig => ?_,fun hborn sig hsig hnot => ?_,fun p hp => ?_,hbytes,hraising,
    fun rest hrest => ?_,fun sig hsig => ?_,fun hunborn => ?_⟩
  · obtain hsame | ⟨hdfl,-⟩ := haction sig
    · rw [hsame]
      exact h.actions sig
    · exact Or.inl hdfl
  · obtain hsame | ⟨-,hnot⟩ := haction sig
    · rw [hsame]
      exact h.installed (fun hs => hborn (hcrash.mpr hs)) sig hsig (hinstall ▸ hnot)
    · rw [hsig] at hnot
      cases hnot
  · exact (hframes p hp).elim (h.frames p) id
  · obtain hmain | ⟨-,hmain⟩ := hmain
    · exact h.suffix rest (hmain ▸ hrest)
    · exact absurd hrest (hmain rest)
  · rw [hinstall] at hsig
    obtain ⟨hdfl,hnot⟩ := h.fresh sig hsig
    refine ⟨?_,fun hmem => ?_⟩
    · obtain hsame | ⟨hdfl',-⟩ := haction sig
      · rw [hsame,hdfl]
      · exact hdfl'
    · exact (hunderWay sig hmem).elim hnot fun hhandler => hhandler hdfl
  · obtain ⟨hdfl,hnone⟩ := h.unborn (hcrash.mp hunborn)
    refine ⟨fun sig => ?_,List.eq_nil_iff_forall_not_mem.mpr fun sig hmem => ?_⟩
    · obtain hsame | ⟨hdfl',-⟩ := haction sig
      · rw [hsame,hdfl]
      · exact hdfl'
    · obtain hmem | hhandler := hunderWay sig hmem
      · rw [hnone] at hmem
        cases hmem
      · exact hhandler (hdfl sig)

theorem mem_underWay : sig ∈ s.underWay ↔
    s.crash.sig = some sig ∨ sig ∈ s.pipe ∨ ∃ p ∈ s.handlers, p.2.sig = sig := by
  simp [State.underWay]

/-- `write` with what a handler or `uninstall` writes. -/
theorem Consistent.write (h : Consistent s) (hs : s.write capacity sig = some t)
    (hproper : sig.isGraceful = true ∨ sig.isCrash = true)
    (hunderWay : s.writer = true → sig ∈ s.underWay ∨ s.action sig ≠ .dfl) : Consistent t := by
  obtain ⟨-,rfl⟩ | ⟨-,-,rfl⟩ | ⟨hwriter,-,-,rfl⟩ := State.write_cases hs
  · exact h
  · exact h.next (Or.inl rfl) Iff.rfl (fun _ => Or.inl rfl) (fun _ hsig => Or.inl hsig)
      (fun _ hp => Or.inl hp) h.bytes h.raising
  · refine h.next (Or.inl rfl) Iff.rfl (fun _ => Or.inl rfl) (fun sig' hsig => ?_)
      (fun _ hp => Or.inl hp) (fun sig' hsig => ?_) h.raising
    · rw [mem_underWay] at hsig ⊢
      simp only [List.mem_append,List.mem_singleton] at hsig
      obtain hcrash | (hpipe | rfl) | hframe := hsig
      · exact Or.inl (Or.inl hcrash)
      · exact Or.inl (Or.inr (Or.inl hpipe))
      · rw [← mem_underWay]
        exact hunderWay hwriter
      · exact Or.inl (Or.inr (Or.inr hframe))
    · rw [← List.append_assoc,List.mem_append,List.mem_singleton] at hsig
      obtain hsig | rfl := hsig
      · exact h.bytes sig' hsig
      · exact hproper

/-- The newest handler of a thread goes on. -/
theorem Consistent.goOn (h : Consistent s) {f g : Frame} (htop : s.top u = some f)
    (hsig : g.sig = f.sig) (hproper : g.Proper) : Consistent (s.goOn u g) := by
  refine h.next (Or.inl rfl) Iff.rfl (fun _ => Or.inl rfl) (fun sig' hmem => Or.inl ?_)
    (fun p hp => ?_) h.bytes h.raising
  · rw [mem_underWay] at hmem ⊢
    obtain hcrash | hpipe | ⟨p,hp,rfl⟩ := hmem
    · exact Or.inl hcrash
    · exact Or.inr (Or.inl hpipe)
    · obtain rfl | hp := State.mem_goOn hp
      · exact Or.inr (Or.inr ⟨(u,f),State.mem_of_top htop,hsig.symm⟩)
      · exact Or.inr (Or.inr ⟨p,hp,rfl⟩)
  · obtain rfl | hp := State.mem_goOn hp
    · exact Or.inr hproper
    · exact Or.inl hp

theorem Consistent.handlerReturns (h : Consistent s) (u : Thread) :
    Consistent (s.handlerReturns u) := by
  refine h.next (Or.inl rfl) Iff.rfl (fun _ => Or.inl rfl) (fun sig' hmem => Or.inl ?_)
    (fun p hp => ?_) h.bytes h.raising
  · rw [mem_underWay] at hmem ⊢
    obtain hcrash | hpipe | ⟨p,hp,rfl⟩ := hmem
    · exact Or.inl hcrash
    · exact Or.inr (Or.inl hpipe)
    · obtain hp | ⟨sig,rfl,hpause⟩ := State.mem_handlerReturns hp
      · exact Or.inr (Or.inr ⟨p,hp,rfl⟩)
      · exact Or.inr (Or.inr ⟨_,hpause,rfl⟩)
  · obtain hp | ⟨sig,rfl,hpause⟩ := State.mem_handlerReturns hp
    · exact Or.inl hp
    · exact Or.inr (Or.inr (h.frames _ hpause))

theorem Consistent.handlerStep (h : Consistent s) (hs : s.handlerStep capacity u = some t) :
    Consistent t := by
  have hframe {f : Frame} (htop : s.top u = some f) : f.Proper :=
    h.frames _ (State.mem_of_top htop)
  have hmem {f : Frame} (htop : s.top u = some f) : f.sig ∈ s.underWay :=
    mem_underWay.mpr (Or.inr (Or.inr ⟨_,State.mem_of_top htop,rfl⟩))
  have htop' {v : State} {sig : Sig} (hv : s.write capacity sig = some v) :
      v.top u = s.top u := by
    rw [State.top,State.top,(State.write_frame hv).2.2.2.2.2.2.2.2.1]
  obtain ⟨sig,htop,rfl⟩ | ⟨sig,v,htop,hv,rfl⟩ | ⟨sig,v,htop,hv,rfl⟩ | ⟨sig,htop,rfl⟩ :=
    State.handlerStep_cases hs
  · have hstop : Consistent { s with stop := s.stop || s.gStop } :=
      h.next (Or.inl rfl) Iff.rfl (fun _ => Or.inl rfl) (fun _ hsig => Or.inl hsig)
        (fun _ hp => Or.inl hp) h.bytes h.raising
    have hproper := hframe htop
    exact hstop.goOn htop rfl hproper
  · have hwrite := h.write hv (Or.inl (hframe htop)) fun _ => Or.inl (hmem htop)
    exact hwrite.goOn ((htop' hv).trans htop) rfl (Or.inl (hframe htop))
  · have hwrite := h.write hv (Or.inr (hframe htop)) fun _ => Or.inl (hmem htop)
    have hproper := hframe htop
    exact hwrite.goOn ((htop' hv).trans htop) rfl hproper
  · exact h.handlerReturns u

theorem graceful_of_installs (h : (sig,.graceful) ∈ installs) : sig.isGraceful = true := by
  cases sig <;> simp_all [installs,Sig.isGraceful]

theorem crash_of_installs (h : (sig,.crash) ∈ installs) : sig.isCrash = true := by
  cases sig <;> simp_all [installs,Sig.isCrash]

theorem mem_underWay_push {f : Frame}
    (h : sig ∈ ({ s with handlers := (u,f) :: s.handlers } : State).underWay) :
    sig ∈ s.underWay ∨ sig = f.sig := by
  rw [mem_underWay] at h ⊢
  obtain hcrash | hpipe | ⟨p,hp,rfl⟩ := h
  · exact Or.inl (Or.inl hcrash)
  · exact Or.inl (Or.inr (Or.inl hpipe))
  · obtain rfl | hp := List.mem_cons.mp hp
    · exact Or.inr rfl
    · exact Or.inl (Or.inr (Or.inr ⟨p,hp,rfl⟩))

theorem Consistent.deliver (h : Consistent s) : Consistent (s.deliver u sig) := by
  obtain ⟨-,hdeliver⟩ | ⟨haction,hdeliver⟩ | ⟨haction,hdeliver⟩ := s.deliver_cases u sig <;>
    rw [hdeliver]
  · exact h.next (Or.inl rfl) Iff.rfl (fun _ => Or.inl rfl) (fun _ hsig => Or.inl hsig)
      (fun _ hp => Or.inl hp) h.bytes h.raising
  all_goals
    have hinstalls := (h.actions sig).resolve_left (by simp [haction])
    rw [haction] at hinstalls
  · refine h.next (Or.inl rfl) Iff.rfl (fun _ => Or.inl rfl) (fun sig' hsig => ?_)
      (fun p hp => ?_) h.bytes h.raising
    · obtain hsig | rfl := mem_underWay_push hsig
      · exact Or.inl hsig
      · exact Or.inr (by simp [haction])
    · obtain rfl | hp := List.mem_cons.mp hp
      · exact Or.inr (graceful_of_installs hinstalls)
      · exact Or.inl hp
  · have hcrash := crash_of_installs hinstalls
    refine h.next (Or.inl rfl) Iff.rfl (fun sig' => ?_) (fun sig' hsig => ?_)
      (fun p hp => ?_) h.bytes fun sig' hraising => ?_
    · by_cases hsig : sig' = sig
      · subst hsig
        refine Or.inr ⟨by simp,?_⟩
        cases sig' <;> simp_all [Sig.isCrash,Sig.isGraceful]
      · exact Or.inl (by simp [hsig])
    · obtain hsig | rfl := mem_underWay_push hsig
      · exact Or.inl hsig
      · exact Or.inr (by simp [haction])
    · obtain rfl | hp := List.mem_cons.mp hp
      · exact Or.inr hcrash
      · exact Or.inl hp
    · obtain ⟨hcrash',hreport,hdfl⟩ := h.raising sig' hraising
      refine ⟨hcrash',hreport,?_⟩
      by_cases hsig : sig' = sig
      · simp [hsig]
      · simpa [hsig] using hdfl

theorem Consistent.crashStep (h : Consistent s) (hs : s.crashStep = some t) : Consistent t := by
  obtain ⟨sig,rest,hcrash,hpipe,rfl⟩ | ⟨hcrash,-,-,rfl⟩ | ⟨sig,hcrash,-,rfl⟩ |
    ⟨sig,hcrash,hsig,rfl⟩ | ⟨sig,hcrash,rfl⟩ := State.crashStep_cases hs
  · refine h.next (Or.inl rfl) (by simp [hcrash]) (fun _ => Or.inl rfl)
      (fun sig' hsig' => Or.inl ?_) (fun _ hp => Or.inl hp) (fun sig' hsig' => ?_)
      (fun sig' hraising => by cases hraising)
    · rw [mem_underWay] at hsig' ⊢
      simpa [hcrash,hpipe,CrashPc.sig,or_assoc,eq_comm] using hsig'
    · apply h.bytes
      simpa [hcrash,hpipe,CrashPc.sig] using hsig'
  · refine h.next (Or.inl rfl) (by simp [hcrash]) (fun _ => Or.inl rfl)
      (fun sig' hsig' => Or.inl ?_) (fun _ hp => Or.inl hp) (fun sig' hsig' => h.bytes sig' ?_)
      (fun sig' hraising => by cases hraising)
    · simpa [State.underWay,hcrash,CrashPc.sig] using hsig'
    · simpa [hcrash,CrashPc.sig] using hsig'
  · refine h.next (Or.inl rfl) (by cases s.gRunning <;> simp [hcrash]) (fun _ => Or.inl rfl)
      (fun sig' hsig' => Or.inl ?_) (fun _ hp => Or.inl hp) (fun sig' hsig' => h.bytes sig' ?_)
      (fun sig' hraising => by cases hrunning : s.gRunning <;> simp [hrunning] at hraising)
    · rw [mem_underWay] at hsig' ⊢
      exact Or.inr (hsig'.resolve_left (by cases s.gRunning <;> simp [CrashPc.sig]))
    · rw [List.mem_append] at hsig' ⊢
      exact Or.inr (hsig'.resolve_left (by cases s.gRunning <;> simp [CrashPc.sig]))
  · have hproper := h.bytes sig (by simp [hcrash,CrashPc.sig])
    refine h.next (Or.inl rfl) (by simp [hcrash]) (fun sig' => ?_) (fun sig' hsig' => Or.inl ?_)
      (fun _ hp => Or.inl hp) (fun sig' hsig' => h.bytes sig' ?_) fun sig' hraising => ?_
    · by_cases hsame : sig' = sig
      · exact Or.inr ⟨by simp [hsame],hsame ▸ hsig⟩
      · exact Or.inl (by simp [hsame])
    · simpa [State.underWay,hcrash,CrashPc.sig] using hsig'
    · simpa [hcrash,CrashPc.sig] using hsig'
    · cases hraising
      exact ⟨hproper.resolve_left (by simp [hsig]),by simp,by simp⟩
  · obtain ⟨-,-,hdfl⟩ := h.raising sig hcrash
    have hdeliver : s.deliver .crash sig = { s with killed := some sig } := by
      simp [State.deliver,hdfl]
    rw [hdeliver]
    refine h.next (Or.inl rfl) (by simp [hcrash]) (fun _ => Or.inl rfl)
      (fun sig' hsig' => Or.inl ?_) (fun _ hp => Or.inl hp) (fun sig' hsig' => h.bytes sig' ?_)
      (fun sig' hraising => by cases hraising)
    · rw [mem_underWay] at hsig' ⊢
      exact Or.inr (hsig'.resolve_left (by simp [CrashPc.sig]))
    · rw [List.mem_append] at hsig' ⊢
      exact Or.inr (hsig'.resolve_left (by simp [CrashPc.sig]))

/-- The crash thread starts before the first handler is set. -/
theorem Consistent.startThread (h : Consistent s) (hcrash : s.crash = .unborn) :
    Consistent { s with crash := .reading, main := .sigactions installs } := by
  obtain ⟨hdfl,hnone⟩ := h.unborn hcrash
  have hunderWay (sig : Sig) (hsig : sig ∈ ({ s with
      crash := .reading, main := .sigactions installs } : State).underWay) : False := by
    have hmem : sig ∈ s.underWay := by simpa [State.underWay,hcrash,CrashPc.sig] using hsig
    rw [hnone] at hmem
    cases hmem
  refine ⟨h.actions,fun _ sig hsig hnot => ?_,h.frames,fun sig hsig => ?_,
    fun _ hraising => (by cases hraising),fun rest hrest => ?_,
    fun sig _ => ⟨hdfl sig,hunderWay sig⟩,fun hunborn => (by cases hunborn)⟩
  · cases sig <;> simp_all [Sig.isGraceful,MainPc.toInstall,installs]
  · exact (hunderWay sig (List.mem_append_left _ hsig)).elim
  · cases hrest
    exact List.suffix_refl _

/-- The next call of `sigaction`. -/
theorem Consistent.sigaction (h : Consistent s) {d : Disposition}
    {rest : List (Sig × Disposition)} (hmain : s.main = .sigactions ((sig,d) :: rest))
    (hborn : s.crash ≠ .unborn) : Consistent { s with
      action := Function.update s.action sig d, main := .sigactions rest } := by
  have hsuffix := h.suffix _ hmain
  have hinstalls : (sig,d) ∈ installs := hsuffix.subset List.mem_cons_self
  have hnodup : (((sig,d) :: rest).map Prod.fst).Nodup :=
    (List.Sublist.map Prod.fst hsuffix.sublist).nodup (by decide)
  rw [List.map_cons,List.nodup_cons] at hnodup
  have hinstall : s.main.toInstall = sig :: rest.map Prod.fst := by
    rw [hmain]
    rfl
  obtain ⟨-,hfresh⟩ := h.fresh sig (hinstall ▸ List.mem_cons_self)
  refine ⟨fun sig' => ?_,fun _ sig' hsig' hnot => ?_,h.frames,h.bytes,fun sig' hraising => ?_,
    fun rest' hrest' => ?_,fun sig' hsig' => ?_,fun hunborn => absurd hunborn hborn⟩
  · by_cases hsame : sig' = sig
    · subst hsame
      simp [hinstalls]
    · simpa [hsame] using h.actions sig'
  · by_cases hsame : sig' = sig
    · subst hsame
      have hd : ∀ p ∈ installs, p.1.isGraceful = true → p.2 = .graceful := by decide
      simpa using hd _ hinstalls hsig'
    · have hrest : sig' ∉ s.main.toInstall := by
        rw [hinstall,List.mem_cons]
        exact not_or.mpr ⟨hsame,hnot⟩
      simpa [hsame] using h.installed hborn sig' hsig' hrest
  · obtain ⟨hcrash,hreport,hdfl⟩ := h.raising sig' hraising
    have hsame : sig' ≠ sig := fun he =>
      hfresh (he ▸ mem_underWay.mpr (Or.inl (by simp [show s.crash = _ from hraising,CrashPc.sig])))
    exact ⟨hcrash,hreport,by simpa [hsame] using hdfl⟩
  · cases hrest'
    exact (List.suffix_cons _ _).trans hsuffix
  · obtain ⟨hdfl,hnot⟩ := h.fresh sig' (hinstall ▸ List.mem_cons_of_mem _ hsig')
    have hsame : sig' ≠ sig := fun he => hnodup.1 (he ▸ hsig')
    exact ⟨by simpa [hsame] using hdfl,hnot⟩

theorem Consistent.mainStep (h : Consistent s) (hstaged : Staged s)
    (hs : s.mainStep capacity = some t) : Consistent t := by
  cases hpc : s.main with
  | startThread =>
    simp only [State.mainStep,hpc] at hs
    cases hs
    refine h.startThread (by_contra fun hborn => ?_)
    have := hstaged.born hborn
    rw [hpc] at this
    exact absurd this (by decide)
  | sigactions rest =>
    have hborn := hstaged.installing (by rw [hpc]; rfl)
    cases rest with
    | nil =>
      simp only [State.mainStep,hpc] at hs
      cases hs
      exact h.next (Or.inr ⟨by simp [hpc,MainPc.toInstall],by simp⟩) Iff.rfl (fun _ => Or.inl rfl)
        (fun _ hsig => Or.inl hsig) (fun _ hp => Or.inl hp) h.bytes h.raising
    | cons p rest =>
      simp only [State.mainStep,hpc] at hs
      cases hs
      exact h.sigaction hpc hborn
  | sentinel =>
    simp only [State.mainStep,hpc] at hs
    obtain ⟨v,hv,rfl⟩ := Option.map_eq_some_iff.mp hs
    have hmain : v.main = .sentinel := (State.write_frame hv).1.trans hpc
    have hwritten := h.write hv (Or.inl rfl) fun hwriter => Or.inr (by
      have hborn := (hstaged.writer.mp hwriter).1.resolve_left (by simp [hpc,MainPc.stage])
      simp [h.installed hborn .term rfl (by simp [hpc,MainPc.toInstall])])
    exact hwritten.next (Or.inr ⟨by simp [hmain,MainPc.toInstall],by simp⟩) Iff.rfl
      (fun _ => Or.inl rfl) (fun _ hsig => Or.inl hsig) (fun _ hp => Or.inl hp) hwritten.bytes
      hwritten.raising
  | join =>
    simp only [State.mainStep,hpc] at hs
    split_ifs at hs with hjoined
    cases hs
    exact h.next (Or.inr ⟨by simp [hpc,MainPc.toInstall],by simp⟩) Iff.rfl (fun _ => Or.inl rfl)
      (fun _ hsig => Or.inl hsig) (fun _ hp => Or.inl hp) h.bytes h.raising
  | returned =>
    simp only [State.mainStep,hpc] at hs
    cases hs
  | _ =>
    simp only [State.mainStep,hpc] at hs
    cases hs
    exact h.next (Or.inr ⟨by simp [hpc,MainPc.toInstall],by simp⟩) Iff.rfl (fun _ => Or.inl rfl)
      (fun _ hsig => Or.inl hsig) (fun _ hp => Or.inl hp) h.bytes h.raising

/-! ### The invariant -/

structure Inv (s : State) : Prop extends Staged s, Consistent s where
  /-- A crash thread that `uninstall` waits for will find a byte that ends its loop. -/
  awaited : s.main = .join → s.crash = .reading → ∃ sig ∈ s.pipe, sig.isGraceful = true

theorem Inv.init : Inv init :=
  { Staged.init,Consistent.init with awaited := fun h => by cases h }

theorem Inv.mainStep (h : Inv s) (hs : s.mainStep capacity = some t) : Inv t := by
  refine { h.toStaged.mainStep hs,h.toConsistent.mainStep h.toStaged hs with
    awaited := fun hmain hcrash => ?_ }
  cases hpc : s.main with
  | sentinel =>
    simp only [State.mainStep,hpc] at hs
    obtain ⟨v,hv,rfl⟩ := Option.map_eq_some_iff.mp hs
    have hborn : s.crash ≠ .unborn := by
      rw [← (State.write_frame hv).2.1,show v.crash = .reading from hcrash]
      simp
    have hreader := h.reader.mpr ⟨Or.inr hborn,by simp [hpc,MainPc.stage]⟩
    have hwriter := h.writer.mpr ⟨Or.inr hborn,by simp [hpc,MainPc.stage]⟩
    obtain ⟨hclosed,-⟩ | ⟨-,hclosed,-⟩ | ⟨-,-,-,rfl⟩ := State.write_cases hv
    · simp [hwriter] at hclosed
    · simp [hreader] at hclosed
    · exact ⟨.term,by simp,rfl⟩
  | join =>
    simp only [State.mainStep,hpc] at hs
    split_ifs at hs
    cases hs
    cases hmain
  | sigactions rest =>
    cases rest <;> simp only [State.mainStep,hpc] at hs <;> cases hs <;> cases hmain
  | _ =>
    simp only [State.mainStep,hpc] at hs
    cases hs
    try cases hmain

theorem Inv.crashStep (h : Inv s) (hs : s.crashStep = some t) : Inv t := by
  refine { h.toStaged.crashStep hs,h.toConsistent.crashStep hs with
    awaited := fun hmain hcrash => ?_ }
  obtain ⟨sig,rest,-,-,rfl⟩ | ⟨-,-,-,rfl⟩ | ⟨sig,-,-,rfl⟩ | ⟨sig,-,-,rfl⟩ | ⟨sig,-,rfl⟩ :=
    State.crashStep_cases hs
  case inr.inr.inl =>
    have hmain' : s.main = .join := hmain
    have hnot : s.gRunning = false := by
      by_contra hrunning
      have := (h.gRunning.mp (by simpa using hrunning)).2
      rw [hmain'] at this
      exact absurd this (by decide)
    simp [hnot] at hcrash
  all_goals cases hcrash

theorem Inv.handlerStep (h : Inv s) (hs : s.handlerStep capacity u = some t) : Inv t := by
  refine { h.toStaged.handlerStep hs,h.toConsistent.handlerStep hs with
    awaited := fun hmain hcrash => ?_ }
  have hwrite (v : State) (sig : Sig) (hv : s.write capacity sig = some v)
      (hmain : v.main = .join) (hcrash : v.crash = .reading) :
      ∃ sig ∈ v.pipe, sig.isGraceful = true := by
    obtain ⟨hmain',hcrash',-⟩ := State.write_frame hv
    obtain ⟨sig',hsig',hgraceful⟩ := h.awaited (hmain' ▸ hmain) (hcrash' ▸ hcrash)
    exact ⟨sig',State.write_pipe hv hsig',hgraceful⟩
  obtain ⟨sig,-,rfl⟩ | ⟨sig,v,-,hv,rfl⟩ | ⟨sig,v,-,hv,rfl⟩ | ⟨sig,-,rfl⟩ :=
    State.handlerStep_cases hs
  · exact h.awaited hmain hcrash
  · exact hwrite v sig hv hmain hcrash
  · exact hwrite v sig hv hmain hcrash
  · exact h.awaited hmain hcrash

theorem Inv.deliver (h : Inv s) : Inv (s.deliver u sig) := by
  refine { h.toStaged.deliver,h.toConsistent.deliver with awaited := ?_ }
  obtain ⟨-,hdeliver⟩ | ⟨-,hdeliver⟩ | ⟨-,hdeliver⟩ := s.deliver_cases u sig <;> rw [hdeliver] <;>
    exact h.awaited

theorem Inv.step (h : Inv s) {a : Action} (hs : step capacity s a = some t) : Inv t := by
  obtain ⟨-,hmove⟩ := step_eq_some.mp hs
  obtain ⟨-,-,hs⟩ | ⟨-,-,hpc,rfl⟩ | ⟨-,-,hs⟩ | ⟨u,-,hs⟩ | ⟨sig,-,-,hcrash,-,rfl⟩ |
    ⟨u,sig,-,-,rfl⟩ := move_cases hmove
  · exact h.mainStep hs
  · have hunborn : s.crash = .unborn := by
      by_contra hborn
      have := h.born hborn
      rw [hpc] at this
      exact absurd this (by decide)
    obtain ⟨h₁,h₂,h₃,h₄,-,-,-⟩ := h.toStaged
    rw [hpc] at h₁ h₂ h₃ h₄
    have hstaged : Staged { s with main := .onRun } := by
      constructor <;> simp_all [MainPc.stage]
    have hconsistent : Consistent { s with main := .onRun } :=
      h.next (Or.inr ⟨by simp [hpc,MainPc.toInstall],by simp⟩) Iff.rfl (fun _ => Or.inl rfl)
        (fun _ hsig => Or.inl hsig) (fun _ hp => Or.inl hp) h.bytes h.raising
    exact { hstaged,hconsistent with awaited := fun hmain => by cases hmain }
  · exact h.crashStep hs
  · exact h.handlerStep hs
  · have hreturned := h.handlerReturns .crash
    have hexited : Consistent { s.handlerReturns .crash with crash := .exited } := by
      refine hreturned.next (Or.inl rfl) (by simp [State.handlerReturns,hcrash])
        (fun _ => Or.inl rfl) (fun sig hsig => Or.inl ?_) (fun _ hp => Or.inl hp)
        (fun sig hsig => hreturned.bytes sig ?_) (fun _ hraising => by cases hraising)
      · rw [mem_underWay] at hsig ⊢
        exact Or.inr (hsig.resolve_left (by simp [CrashPc.sig]))
      · rw [List.mem_append] at hsig ⊢
        exact Or.inr (hsig.resolve_left (by simp [CrashPc.sig]))
    exact { h.crashed (t := { s.handlerReturns .crash with crash := .exited })
      (by simp [hcrash]) rfl (by simp) rfl rfl rfl rfl,hexited with
        awaited := fun _ hreading => by cases hreading }
  · exact h.deliver

theorem Reached.inv (h : Reached capacity s) : Inv s :=
  h.invariant Inv.init fun _ _ _ hs _ => hs.step

end Signals
end Marketlib
