import Mathlib.Data.List.Basic
import Mathlib.Data.List.Nodup
import Mathlib.Logic.Function.Basic
import Mathlib.Tactic.Common
import Marketlib.Transition

/-! The signals of a server application: the thread that runs `ServerApplication::do_run`, the
crash thread behind the pipe, and the handlers, which interrupt any thread at any time. A step is
one system call or one access to a shared variable; `on_run` returns when it likes. Two things are
coarser than that: `if (g_stop) g_stop->request_stop()` is one step, so `uninstall` never clears
`g_stop` between the test and the call; and a `write` to a full pipe that a handler has
interrupted is tried again, where the system call fails with `EINTR` and the byte is not sent. -/

namespace Marketlib
namespace Signals

inductive Sig
  | int
  | term
  | segv
  | bus
  | fpe
  | ill
  | abrt
  | pipe
  deriving DecidableEq

def Sig.isGraceful : Sig → Bool
  | .int | .term => true
  | _ => false

def Sig.isCrash : Sig → Bool
  | .segv | .bus | .fpe | .ill | .abrt => true
  | _ => false

/-- What a signal does when it is delivered. -/
inductive Disposition
  | dfl
  | graceful
  | crash
  deriving DecidableEq

/-- The calls of `sigaction` in `install`, in their order. -/
def installs : List (Sig × Disposition) :=
  [(.int,.graceful),(.term,.graceful),(.segv,.crash),(.bus,.crash),(.fpe,.crash),(.ill,.crash),
    (.abrt,.crash)]

/-- The thread of `do_run`, the crash thread, and all others. -/
inductive Thread
  | main
  | crash
  | worker (n : ℕ)
  deriving DecidableEq

/-- A call of a handler, and what it does next. -/
inductive Frame
  /-- `graceful_handler` before `request_stop`. -/
  | stopping (sig : Sig)
  /-- `graceful_handler` before `write`. -/
  | notifying (sig : Sig)
  /-- `crash_handler` before `write`. -/
  | crashing (sig : Sig)
  | pausing (sig : Sig)
  | returning (sig : Sig)
  deriving DecidableEq

def Frame.sig : Frame → Sig
  | .stopping sig | .notifying sig | .crashing sig | .pausing sig | .returning sig => sig

/-- `pause` returns when a handler has. -/
def Frame.wake : Frame → Frame
  | .pausing sig => .returning sig
  | f => f

/-- The next statement of `install`, `on_run` and `uninstall`. -/
inductive MainPc
  | setStop
  | setRunning
  | openPipe
  | startThread
  | sigactions (rest : List (Sig × Disposition))
  | onRun
  | clearRunning
  | sentinel
  | join
  | closeReader
  | closeWriter
  | clearStop
  | returned
  deriving DecidableEq

/-- How far `do_run` has come. -/
def MainPc.stage : MainPc → ℕ
  | .setStop => 0
  | .setRunning => 1
  | .openPipe => 2
  | .startThread => 3
  | .sigactions _ => 4
  | .onRun => 5
  | .clearRunning => 6
  | .sentinel => 7
  | .join => 8
  | .closeReader => 9
  | .closeWriter => 10
  | .clearStop => 11
  | .returned => 12

/-- The signals whose handler `install` has still to set. -/
def MainPc.toInstall : MainPc → List Sig
  | .sigactions rest => rest.map Prod.fst
  | _ => []

/-- The next statement of `crash_thread_fn`. -/
inductive CrashPc
  | unborn
  | reading
  | got (sig : Sig)
  | raising (sig : Sig)
  | exited
  deriving DecidableEq

/-- The signal that the crash thread has in hand. -/
def CrashPc.sig : CrashPc → Option Sig
  | .got sig | .raising sig => some sig
  | _ => none

structure State where
  main : MainPc
  crash : CrashPc
  /-- A stop has been requested of `stop_src`. -/
  stop : Bool
  /-- `g_stop` is not null. -/
  gStop : Bool
  gRunning : Bool
  /-- `g_pipe[0]` is open. -/
  reader : Bool
  /-- `g_pipe[1]` is open. -/
  writer : Bool
  pipe : List Sig
  action : Sig → Disposition
  /-- The handlers that have not returned; a thread's newest stands first. -/
  handlers : List (Thread × Frame)
  /-- The signals whose stack trace has been written. -/
  reports : List Sig
  killed : Option Sig

def init : State :=
  { main := .setStop, crash := .unborn, stop := false, gStop := false, gRunning := false,
    reader := false, writer := false, pipe := [], action := fun _ => .dfl, handlers := [],
    reports := [], killed := none }

namespace State

/-- The handler that `t` is in. -/
def top (s : State) (t : Thread) : Option Frame := s.handlers.lookup t

/-- `write(g_pipe[1], &sig, 1)`: nothing on a closed descriptor, SIGPIPE when nobody can read,
and no result while the pipe is full. -/
def write (capacity : ℕ) (s : State) (sig : Sig) : Option State :=
  if s.writer = false then some s
  else if s.reader = false then some { s with killed := some .pipe }
  else if s.pipe.length < capacity then some { s with pipe := s.pipe ++ [sig] }
  else none

/-- The newest handler of `t` comes to `f`. -/
def goOn (s : State) (t : Thread) (f : Frame) : State :=
  { s with handlers := (t,f) :: s.handlers.eraseP fun h => h.1 = t }

/-- The newest handler of `t` is the one that has been interrupted. -/
def wake (t : Thread) : List (Thread × Frame) → List (Thread × Frame)
  | [] => []
  | (u,f) :: hs => if u = t then (u,f.wake) :: hs else (u,f) :: wake t hs

/-- The newest handler of `t` returns. -/
def handlerReturns (s : State) (t : Thread) : State :=
  { s with handlers := wake t (s.handlers.eraseP fun h => h.1 = t) }

/-- A signal arrives at `t`. `SA_RESETHAND` restores the default of a crash signal. -/
def deliver (s : State) (t : Thread) (sig : Sig) : State :=
  match s.action sig with
  | .dfl => { s with killed := some sig }
  | .graceful => { s with handlers := (t,.stopping sig) :: s.handlers }
  | .crash => { s with
      handlers := (t,.crashing sig) :: s.handlers,
      action := Function.update s.action sig .dfl }

/-- The thread exists, and no handler for the signal is running on it. -/
def Accepts (s : State) (t : Thread) (sig : Sig) : Prop :=
  (t = .crash → s.crash ≠ .unborn ∧ s.crash ≠ .exited) ∧
    ∀ h ∈ s.handlers, h.1 = t → h.2.sig ≠ sig

instance (s : State) (t : Thread) (sig : Sig) : Decidable (s.Accepts t sig) :=
  inferInstanceAs (Decidable (_ ∧ _))

/-- The thread of `do_run` on its own. -/
def mainStep (capacity : ℕ) (s : State) : Option State :=
  match s.main with
  | .setStop => some { s with gStop := true, main := .setRunning }
  | .setRunning => some { s with gRunning := true, main := .openPipe }
  | .openPipe => some { s with reader := true, writer := true, main := .startThread }
  | .startThread => some { s with crash := .reading, main := .sigactions installs }
  | .sigactions ((sig,d) :: rest) =>
    some { s with action := Function.update s.action sig d, main := .sigactions rest }
  | .sigactions [] => some { s with main := .onRun }
  | .onRun => some { s with main := .clearRunning }
  | .clearRunning => some { s with gRunning := false, main := .sentinel }
  | .sentinel => (s.write capacity .term).map fun t => { t with main := .join }
  | .join =>
    if s.crash = .unborn ∨ s.crash = .exited then some { s with main := .closeReader } else none
  | .closeReader => some { s with reader := false, main := .closeWriter }
  | .closeWriter => some { s with writer := false, main := .clearStop }
  | .clearStop => some { s with gStop := false, main := .returned }
  | .returned => none

/-- The crash thread on its own. Between `got` and `raising` stand the stack trace, the log
record, `Drain::flush` and `sigaction`. -/
def crashStep (s : State) : Option State :=
  match s.crash with
  | .reading =>
    match s.pipe with
    | sig :: rest => some { s with crash := .got sig, pipe := rest }
    | [] => if s.writer then none else some { s with crash := .exited }
  | .got sig =>
    if sig.isGraceful then
      some { s with crash := if s.gRunning then .reading else .exited }
    else some { s with
      crash := .raising sig, reports := s.reports ++ [sig],
      action := Function.update s.action sig .dfl }
  | .raising sig => some { s.deliver .crash sig with crash := .exited }
  | _ => none

/-- The newest handler of `t` on its own. -/
def handlerStep (capacity : ℕ) (s : State) (t : Thread) : Option State :=
  match s.top t with
  | some (.stopping sig) => some ({ s with stop := s.stop || s.gStop }.goOn t (.notifying sig))
  | some (.notifying sig) => (s.write capacity sig).map fun u => u.goOn t (.returning sig)
  | some (.crashing sig) => (s.write capacity sig).map fun u => u.goOn t (.pausing sig)
  | some (.returning _) => some (s.handlerReturns t)
  | _ => none

end State

inductive Action
  | main
  /-- `pipe` fails, and `install` returns. -/
  | pipeFails
  | crash
  | handler (t : Thread)
  /-- The last handler of the crash thread returns into a `read` that has been interrupted. -/
  | readFails
  | deliver (t : Thread) (sig : Sig)
  deriving DecidableEq

open State in
/-- What the threads can do while the process lives. -/
def move (capacity : ℕ) (s : State) : Action → Option State
  | .main => if s.top .main = none then s.mainStep capacity else none
  | .pipeFails =>
    if s.top .main = none ∧ s.main = .openPipe then some { s with main := .onRun } else none
  | .crash => if s.top .crash = none then s.crashStep else none
  | .handler t => s.handlerStep capacity t
  | .readFails =>
    match s.top .crash with
    | some (.returning _) =>
      if s.crash = .reading ∧ (s.handlerReturns .crash).top .crash = none then
        some { s.handlerReturns .crash with crash := .exited }
      else none
    | _ => none
  | .deliver t sig => if s.Accepts t sig then some (s.deliver t sig) else none

def step (capacity : ℕ) (s : State) (a : Action) : Option State :=
  if s.killed = none then move capacity s a else none

abbrev Reached (capacity : ℕ) : State → Prop := Transition.Reachable (step capacity) init

variable {capacity : ℕ} {s t : State} {sig : Sig} {u : Thread}

/-! ### What the steps do -/

namespace State

theorem write_cases (h : s.write capacity sig = some t) :
    (s.writer = false ∧ t = s) ∨
    (s.writer = true ∧ s.reader = false ∧ t = { s with killed := some .pipe }) ∨
    (s.writer = true ∧ s.reader = true ∧ s.pipe.length < capacity ∧
      t = { s with pipe := s.pipe ++ [sig] }) := by
  unfold write at h
  split_ifs at h with hwriter hreader hfull <;> simp_all

theorem write_frame (h : s.write capacity sig = some t) :
    t.main = s.main ∧ t.crash = s.crash ∧ t.stop = s.stop ∧ t.gStop = s.gStop ∧
      t.gRunning = s.gRunning ∧ t.reader = s.reader ∧ t.writer = s.writer ∧ t.action = s.action ∧
      t.handlers = s.handlers ∧ t.reports = s.reports := by
  obtain ⟨-,rfl⟩ | ⟨-,-,rfl⟩ | ⟨-,-,-,rfl⟩ := write_cases h <;> simp

theorem write_pipe (h : s.write capacity sig = some t) : s.pipe ⊆ t.pipe := by
  obtain ⟨-,rfl⟩ | ⟨-,-,rfl⟩ | ⟨-,-,-,rfl⟩ := write_cases h
  · exact List.Subset.refl _
  · exact List.Subset.refl _
  · exact List.subset_append_left _ _

theorem deliver_cases (s : State) (u : Thread) (sig : Sig) :
    (s.action sig = .dfl ∧ s.deliver u sig = { s with killed := some sig }) ∨
    (s.action sig = .graceful ∧
      s.deliver u sig = { s with handlers := (u,.stopping sig) :: s.handlers }) ∨
    (s.action sig = .crash ∧ s.deliver u sig = { s with
      handlers := (u,.crashing sig) :: s.handlers,
      action := Function.update s.action sig .dfl }) := by
  unfold deliver
  cases h : s.action sig <;> simp

theorem crashStep_cases (h : s.crashStep = some t) :
    (∃ sig rest, s.crash = .reading ∧ s.pipe = sig :: rest ∧
      t = { s with crash := .got sig, pipe := rest }) ∨
    (s.crash = .reading ∧ s.pipe = [] ∧ s.writer = false ∧ t = { s with crash := .exited }) ∨
    (∃ sig, s.crash = .got sig ∧ sig.isGraceful = true ∧
      t = { s with crash := if s.gRunning then .reading else .exited }) ∨
    (∃ sig, s.crash = .got sig ∧ sig.isGraceful = false ∧ t = { s with
      crash := .raising sig, reports := s.reports ++ [sig],
      action := Function.update s.action sig .dfl }) ∨
    (∃ sig, s.crash = .raising sig ∧ t = { s.deliver .crash sig with crash := .exited }) := by
  unfold crashStep at h
  split at h
  case h_1 hcrash =>
    split at h
    case h_1 sig rest hpipe => exact Or.inl ⟨sig,rest,hcrash,hpipe,(Option.some.inj h).symm⟩
    case h_2 hpipe =>
      split_ifs at h with hwriter
      exact Or.inr (Or.inl ⟨hcrash,hpipe,by simpa using hwriter,(Option.some.inj h).symm⟩)
  case h_2 sig hcrash =>
    by_cases hsig : sig.isGraceful = true
    · rw [if_pos hsig] at h
      exact Or.inr (Or.inr (Or.inl ⟨sig,hcrash,hsig,(Option.some.inj h).symm⟩))
    · rw [if_neg hsig] at h
      exact Or.inr (Or.inr (Or.inr (Or.inl
        ⟨sig,hcrash,by simpa using hsig,(Option.some.inj h).symm⟩)))
  case h_3 sig hcrash =>
    exact Or.inr (Or.inr (Or.inr (Or.inr ⟨sig,hcrash,(Option.some.inj h).symm⟩)))
  case h_4 => cases h

theorem handlerStep_cases (h : s.handlerStep capacity u = some t) :
    (∃ sig, s.top u = some (.stopping sig) ∧
      t = { s with stop := s.stop || s.gStop }.goOn u (.notifying sig)) ∨
    (∃ sig v, s.top u = some (.notifying sig) ∧ s.write capacity sig = some v ∧
      t = v.goOn u (.returning sig)) ∨
    (∃ sig v, s.top u = some (.crashing sig) ∧ s.write capacity sig = some v ∧
      t = v.goOn u (.pausing sig)) ∨
    (∃ sig, s.top u = some (.returning sig) ∧ t = s.handlerReturns u) := by
  unfold handlerStep at h
  split at h
  case h_1 sig htop => exact Or.inl ⟨sig,htop,(Option.some.inj h).symm⟩
  case h_2 sig htop =>
    obtain ⟨v,hv,rfl⟩ := Option.map_eq_some_iff.mp h
    exact Or.inr (Or.inl ⟨sig,v,htop,hv,rfl⟩)
  case h_3 sig htop =>
    obtain ⟨v,hv,rfl⟩ := Option.map_eq_some_iff.mp h
    exact Or.inr (Or.inr (Or.inl ⟨sig,v,htop,hv,rfl⟩))
  case h_4 sig htop => exact Or.inr (Or.inr (Or.inr ⟨sig,htop,(Option.some.inj h).symm⟩))
  case h_5 => cases h

/-- The newest handler of a thread in the list of all. -/
theorem split_of_top {f : Frame} (h : s.top u = some f) :
    ∃ before after, s.handlers = before ++ (u,f) :: after ∧ (∀ p ∈ before, p.1 ≠ u) ∧
      (s.handlers.eraseP fun p => p.1 = u) = before ++ after := by
  obtain ⟨before,after,hhandlers,hbefore⟩ := List.lookup_eq_some_iff.mp h
  have hne : ∀ p ∈ before, p.1 ≠ u := fun p hp he => by simpa [he] using hbefore p hp
  refine ⟨before,after,hhandlers,hne,?_⟩
  rw [hhandlers,List.eraseP_append_right _ fun p hp => by simpa using hne p hp]
  simp

theorem mem_of_top {f : Frame} (h : s.top u = some f) : (u,f) ∈ s.handlers := by
  obtain ⟨before,after,hhandlers,-,-⟩ := split_of_top h
  simp [hhandlers]

theorem mem_goOn {f : Frame} {p : Thread × Frame} (h : p ∈ (s.goOn u f).handlers) :
    p = (u,f) ∨ p ∈ s.handlers := by
  obtain rfl | h := List.mem_cons.mp h
  · exact Or.inl rfl
  · exact Or.inr (List.mem_of_mem_eraseP h)

theorem mem_wake {hs : List (Thread × Frame)} {p : Thread × Frame} (h : p ∈ wake u hs) :
    p ∈ hs ∨ ∃ sig, p = (u,.returning sig) ∧ (u,.pausing sig) ∈ hs := by
  induction hs with
  | nil => cases h
  | cons q hs ih =>
    obtain ⟨v,f⟩ := q
    rw [wake] at h
    by_cases huv : v = u
    · subst huv
      rw [if_pos rfl] at h
      obtain rfl | h := List.mem_cons.mp h
      · cases f <;> simp [Frame.wake]
      · exact Or.inl (List.mem_cons_of_mem _ h)
    · rw [if_neg huv] at h
      obtain rfl | h := List.mem_cons.mp h
      · exact Or.inl List.mem_cons_self
      · obtain h | ⟨sig,hp,hsig⟩ := ih h
        · exact Or.inl (List.mem_cons_of_mem _ h)
        · exact Or.inr ⟨sig,hp,List.mem_cons_of_mem _ hsig⟩

theorem mem_handlerReturns {p : Thread × Frame} (h : p ∈ (s.handlerReturns u).handlers) :
    p ∈ s.handlers ∨ ∃ sig, p = (u,.returning sig) ∧ (u,.pausing sig) ∈ s.handlers := by
  obtain h | ⟨sig,hp,hsig⟩ := mem_wake h
  · exact Or.inl (List.mem_of_mem_eraseP h)
  · exact Or.inr ⟨sig,hp,List.mem_of_mem_eraseP hsig⟩

end State

/-- What the threads do one at a time. -/
theorem move_cases {a : Action} (h : move capacity s a = some t) :
    (a = .main ∧ s.top .main = none ∧ s.mainStep capacity = some t) ∨
    (a = .pipeFails ∧ s.top .main = none ∧ s.main = .openPipe ∧ t = { s with main := .onRun }) ∨
    (a = .crash ∧ s.top .crash = none ∧ s.crashStep = some t) ∨
    (∃ u, a = .handler u ∧ s.handlerStep capacity u = some t) ∨
    (∃ sig, a = .readFails ∧ s.top .crash = some (.returning sig) ∧ s.crash = .reading ∧
      (s.handlerReturns .crash).top .crash = none ∧
      t = { s.handlerReturns .crash with crash := .exited }) ∨
    (∃ u sig, a = .deliver u sig ∧ s.Accepts u sig ∧ t = s.deliver u sig) := by
  cases a with
  | main =>
    simp only [move] at h
    split_ifs at h with htop
    exact Or.inl ⟨rfl,htop,h⟩
  | pipeFails =>
    simp only [move] at h
    split_ifs at h with htop
    exact Or.inr (Or.inl ⟨rfl,htop.1,htop.2,(Option.some.inj h).symm⟩)
  | crash =>
    simp only [move] at h
    split_ifs at h with htop
    exact Or.inr (Or.inr (Or.inl ⟨rfl,htop,h⟩))
  | handler u => exact Or.inr (Or.inr (Or.inr (Or.inl ⟨u,rfl,h⟩)))
  | readFails =>
    simp only [move] at h
    split at h
    case h_1 sig htop =>
      split_ifs at h with hreading
      exact Or.inr (Or.inr (Or.inr (Or.inr (Or.inl
        ⟨sig,rfl,htop,hreading.1,hreading.2,(Option.some.inj h).symm⟩))))
    case h_2 => cases h
  | deliver u sig =>
    simp only [move] at h
    split_ifs at h with haccepts
    exact Or.inr (Or.inr (Or.inr (Or.inr (Or.inr
      ⟨u,sig,rfl,haccepts,(Option.some.inj h).symm⟩))))

theorem step_eq_some {a : Action} :
    step capacity s a = some t ↔ s.killed = none ∧ move capacity s a = some t := by
  by_cases h : s.killed = none <;> simp [step,h]

end Signals
end Marketlib
