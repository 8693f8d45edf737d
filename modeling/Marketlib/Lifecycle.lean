import Mathlib.Data.List.Range
import Mathlib.Order.Defs.Unbundled
import Mathlib.Tactic.Common
import Marketlib.ConfigLoad

/-! `Application::run`: the trace of its calls. Modules stand for what their `init` and `start`
return; each is called once at most, so what they return may depend on anything. -/

namespace Marketlib

open Binding Config

structure Module (φ δ : Type) where
  name : Text
  init : Config φ δ → Except Text Unit
  start : Except Text Unit

def Module.initOk {φ δ : Type} (cfg : Config φ δ) (mod : Module φ δ) : Bool :=
  (mod.init (cfg.sectionAt mod.name)).isOk

def Module.startOk {φ δ : Type} (mod : Module φ δ) : Bool := mod.start.isOk

/-- An application and what its overridden hooks return. -/
structure Application (φ δ : Type) where
  /-- In the order of `add`. -/
  modules : List (Module φ δ)
  onInit : Except Text Unit
  doRun : ℤ

/-- A call that `run` makes; a module is named by its position in `modules_`. -/
inductive Call
  | drainStart
  | init (i : ℕ)
  | onInit
  | start (i : ℕ)
  | doRun
  | stop (i : ℕ)
  | onShutdown
  | shutdown (i : ℕ)
  | drainStop
  deriving DecidableEq

namespace Application

variable {φ δ : Type}

/-- The loop over `init`, from position `i` on, and whether it came to the end. -/
def initModules (cfg : Config φ δ) : ℕ → List (Module φ δ) → List Call × Bool
  | _,[] => ([],true)
  | i,mod :: mods =>
    match mod.init (cfg.sectionAt mod.name) with
    | .error _ => ([.init i],false)
    | .ok () =>
      let (calls,ok) := initModules cfg (i+1) mods
      (.init i :: calls,ok)

/-- The loop over `start`, with `started` modules started so far. -/
def startModules : (started : ℕ) → List (Module φ δ) → List Call × ℕ × Bool
  | started,[] => ([],started,true)
  | started,mod :: mods =>
    match mod.start with
    | .error _ => ([.start started],started,false)
    | .ok () =>
      let (calls,started',ok) := startModules (started+1) mods
      (.start started :: calls,started',ok)

/-- The positions from `modules_.rbegin()` to `modules_.rend()`. -/
def reversePositions (n : ℕ) : List ℕ := (List.range n).reverse

/-- The positions from `modules_.rend() - started` to `modules_.rend()`. -/
def fromRend (n started : ℕ) : List ℕ := (reversePositions n).drop (n-started)

/-- Steps 3 to 10 of `run`, and the exit code. -/
def lifecycle (app : Application φ δ) (cfg : Config φ δ) : List Call × ℤ :=
  let n := app.modules.length
  match initModules cfg 0 app.modules with
  | (inits,false) => (.drainStart :: inits ++ [.drainStop],1)
  | (inits,true) =>
    match app.onInit with
    | .error _ => (.drainStart :: inits ++ [.onInit,.drainStop],1)
    | .ok () =>
      match startModules 0 app.modules with
      | (starts,started,false) => (.drainStart :: inits ++ .onInit :: starts ++
          (fromRend n started).map .stop ++ (fromRend n started).map .shutdown ++ [.drainStop],1)
      | (starts,_,true) => (.drainStart :: inits ++ .onInit :: starts ++ .doRun ::
          (reversePositions n).map .stop ++ .onShutdown ::
          (reversePositions n).map .shutdown ++ [.drainStop],app.doRun)

/-- Step 2: no file, or what `Config::load` makes of it. -/
def loadConfig (file : Option (File φ δ)) (env : Environment) (overrides : List Text) :
    Option (Except ConfigError (Config φ δ)) :=
  match file with
  | none => some (.ok ⟨none⟩)
  | some file => load file env overrides

/-- `run`, from what the parser of the command line returns. -/
def run (app : Application φ δ) (parseExit : ℤ) (file : Option (File φ δ)) (env : Environment)
    (overrides : List Text) : Option (List Call × ℤ) :=
  if 0 ≤ parseExit then some ([],parseExit)
  else
    match loadConfig file env overrides with
    | none => none
    | some (.error _) => some ([],1)
    | some (.ok cfg) => some (app.lifecycle cfg)

theorem run_of_loaded (app : Application φ δ) {parseExit : ℤ} {file : Option (File φ δ)}
    {env : Environment} {overrides : List Text} {cfg : Config φ δ} (hargs : parseExit < 0)
    (hload : loadConfig file env overrides = some (.ok cfg)) :
    app.run parseExit file env overrides = some (app.lifecycle cfg) := by
  rw [run,if_neg (not_le.mpr hargs),hload]

/-! ### What the loops call -/

/-- Whether the `init` of the module at `i` succeeds. -/
def initOk (app : Application φ δ) (cfg : Config φ δ) (i : ℕ) : Bool :=
  (app.modules[i]?).any (Module.initOk cfg)

theorem initOk_lt {app : Application φ δ} {cfg : Config φ δ} {i : ℕ}
    (h : app.initOk cfg i = true) : i < app.modules.length := by
  by_contra hge
  rw [initOk,List.getElem?_eq_none (not_lt.mp hge)] at h
  cases h

/-- Whether the `start` of the module at `i` succeeds. -/
def startOk (app : Application φ δ) (i : ℕ) : Bool := (app.modules[i]?).any Module.startOk

/-- The number of modules before the first that fails. -/
def successes (ok : Module φ δ → Bool) (mods : List (Module φ δ)) : ℕ :=
  (mods.takeWhile ok).length

theorem successes_cons (ok : Module φ δ → Bool) (mod : Module φ δ) (mods : List (Module φ δ)) :
    successes ok (mod :: mods) = if ok mod then successes ok mods+1 else 0 := by
  by_cases h : ok mod = true <;> simp [successes,h]

theorem successes_spec (ok : Module φ δ → Bool) (mods : List (Module φ δ)) :
    successes ok mods ≤ mods.length ∧ (∀ j < successes ok mods, (mods[j]?).any ok = true) ∧
      (successes ok mods < mods.length → (mods[successes ok mods]?).any ok = false) := by
  induction mods with
  | nil => exact ⟨le_rfl,nofun,nofun⟩
  | cons mod mods ih =>
    obtain ⟨hle,hall,hfail⟩ := ih
    rw [successes_cons]
    split_ifs with hok
    · refine ⟨Nat.succ_le_succ hle,fun j hj => ?_,fun hlt => hfail (Nat.lt_of_succ_lt_succ hlt)⟩
      cases j with
      | zero => exact hok
      | succ j => exact hall j (Nat.lt_of_succ_lt_succ hj)
    · exact ⟨Nat.zero_le _,nofun,fun _ => by simpa using hok⟩

theorem initModules_eq (cfg : Config φ δ) (i : ℕ) (mods : List (Module φ δ)) :
    initModules cfg i mods =
      ((List.range' i (min (successes (Module.initOk cfg) mods+1) mods.length)).map .init,
        decide (successes (Module.initOk cfg) mods = mods.length)) := by
  induction mods generalizing i with
  | nil => rfl
  | cons mod mods ih =>
    rw [initModules,successes_cons]
    cases hinit : mod.init (cfg.sectionAt mod.name) with
    | error e =>
      have hok : ¬Module.initOk cfg mod = true := by rw [Module.initOk,hinit]; nofun
      simp [hok]
    | ok u =>
      have hok : Module.initOk cfg mod = true := by rw [Module.initOk,hinit]; rfl
      simp [hok,ih,List.range'_succ]

theorem startModules_eq (i : ℕ) (mods : List (Module φ δ)) :
    startModules i mods =
      ((List.range' i (min (successes Module.startOk mods+1) mods.length)).map .start,
        i+successes Module.startOk mods,
        decide (successes Module.startOk mods = mods.length)) := by
  induction mods generalizing i with
  | nil => rfl
  | cons mod mods ih =>
    rw [startModules,successes_cons]
    cases hstart : mod.start with
    | error e =>
      have hok : ¬Module.startOk mod = true := by rw [Module.startOk,hstart]; nofun
      simp [hok]
    | ok u =>
      have hok : Module.startOk mod = true := by rw [Module.startOk,hstart]; rfl
      simp [hok,ih,List.range'_succ]
      omega

theorem fromRend_eq {n started : ℕ} (h : started ≤ n) :
    fromRend n started = reversePositions started := by
  obtain ⟨d,rfl⟩ : ∃ d, n = started+d := ⟨n-started,by omega⟩
  rw [fromRend,reversePositions,List.range_add,List.reverse_append,Nat.add_sub_cancel_left,
    List.drop_left' (by simp)]
  rfl

/-- The four exits, with the calls made up to each. -/
inductive Exits (app : Application φ δ) (cfg : Config φ δ) : List Call → Prop
  | initFailed {k : ℕ} (hlt : k < app.modules.length) (hall : ∀ i < k, app.initOk cfg i = true)
      (hfail : app.initOk cfg k = false) :
      Exits app cfg (.drainStart :: (List.range (k+1)).map .init ++ [.drainStop])
  | onInitFailed (hall : ∀ i < app.modules.length, app.initOk cfg i = true)
      (hfail : app.onInit.isOk = false) :
      Exits app cfg (.drainStart :: (List.range app.modules.length).map .init ++
        [.onInit,.drainStop])
  | startFailed {s : ℕ} (hall : ∀ i < app.modules.length, app.initOk cfg i = true)
      (honInit : app.onInit.isOk = true) (hlt : s < app.modules.length)
      (hstarted : ∀ i < s, app.startOk i = true) (hfail : app.startOk s = false) :
      Exits app cfg (.drainStart :: (List.range app.modules.length).map .init ++ .onInit ::
        (List.range (s+1)).map .start ++ (reversePositions s).map .stop ++
        (reversePositions s).map .shutdown ++ [.drainStop])
  | ran (hall : ∀ i < app.modules.length, app.initOk cfg i = true)
      (honInit : app.onInit.isOk = true)
      (hstarted : ∀ i < app.modules.length, app.startOk i = true) :
      Exits app cfg (.drainStart :: (List.range app.modules.length).map .init ++ .onInit ::
        (List.range app.modules.length).map .start ++ .doRun ::
        (reversePositions app.modules.length).map .stop ++ .onShutdown ::
        (reversePositions app.modules.length).map .shutdown ++ [.drainStop])

theorem lifecycle_exits (app : Application φ δ) (cfg : Config φ δ) :
    Exits app cfg (app.lifecycle cfg).1 := by
  obtain ⟨hkle,hk,hkfail⟩ := successes_spec (Module.initOk cfg) app.modules
  obtain ⟨hsle,hs,hsfail⟩ := successes_spec Module.startOk app.modules
  rw [lifecycle,initModules_eq,startModules_eq]
  rcases hkle.lt_or_eq with hklt | hkeq
  · rw [Nat.min_eq_left hklt,← List.range_eq_range',decide_eq_false hklt.ne]
    exact .initFailed hklt hk (hkfail hklt)
  · have hall : ∀ i < app.modules.length, app.initOk cfg i = true := hkeq ▸ hk
    rw [hkeq,Nat.min_eq_right (Nat.le_succ _),← List.range_eq_range',decide_eq_true rfl]
    cases honInit : app.onInit with
    | error e => exact .onInitFailed hall (by rw [honInit]; rfl)
    | ok u =>
      have hok : app.onInit.isOk = true := by rw [honInit]; rfl
      rw [Nat.zero_add]
      rcases hsle.lt_or_eq with hslt | hseq
      · rw [Nat.min_eq_left hslt,← List.range_eq_range',decide_eq_false hslt.ne]
        simp only [fromRend_eq hsle]
        exact .startFailed hall hok hslt hs (hsfail hslt)
      · rw [hseq,Nat.min_eq_right (Nat.le_succ _),← List.range_eq_range',decide_eq_true rfl]
        exact .ran hall hok (hseq ▸ hs)

/-! ### The order of the calls -/

/-- The module that an `init` is called on. -/
def initOf : Call → Option ℕ
  | .init i => some i
  | _ => none

def startOf : Call → Option ℕ
  | .start i => some i
  | _ => none

def stopOf : Call → Option ℕ
  | .stop i => some i
  | _ => none

def shutdownOf : Call → Option ℕ
  | .shutdown i => some i
  | _ => none

/-- Calls in order, each after the success of the one before, up to a failure or the end. -/
def UpToFailure (n : ℕ) (ok : ℕ → Bool) (calls : List ℕ) : Prop :=
  ∃ m ≤ n, calls = List.range m ∧ (∀ i, i+1 < m → ok i = true) ∧
    (m < n → ∃ j, m = j+1 ∧ ok j = false)

/-- Every `init` and `on_init` succeed. -/
def Ready (app : Application φ δ) (cfg : Config φ δ) : Prop :=
  (∀ i < app.modules.length, app.initOk cfg i = true) ∧ app.onInit.isOk = true

/-- The calls of a run are in the order that the lifecycle promises. -/
structure Orderly (app : Application φ δ) (cfg : Config φ δ) (trace : List Call) : Prop where
  inits : UpToFailure app.modules.length (app.initOk cfg) (trace.filterMap initOf)
  gated : ∀ before i after, trace = before ++ .start i :: after →
    (∀ j < app.modules.length, .init j ∈ before ∧ app.initOk cfg j = true) ∧
      .onInit ∈ before ∧ app.onInit.isOk = true
  starts : app.Ready cfg → UpToFailure app.modules.length app.startOk (trace.filterMap startOf)
  stops : trace.filterMap stopOf = ((trace.filterMap startOf).filter app.startOk).reverse
  released : ∀ i ∈ trace.filterMap startOf, app.startOk i = true →
    i ∈ trace.filterMap shutdownOf
  shutdowns : (trace.filterMap shutdownOf).Pairwise (· > ·)
  stopped : trace.Pairwise fun c d => (shutdownOf c).isSome → stopOf d = none
  doRun : trace.count .doRun = 1 ∧ app.Ready cfg ∧
      (∀ i < app.modules.length, app.startOk i = true) ∨
    trace.count .doRun = 0 ∧
      ¬(app.Ready cfg ∧ ∀ i < app.modules.length, app.startOk i = true)
  onShutdown : .doRun ∈ trace → ∃ before after, trace = before ++ .onShutdown :: after ∧
    .onShutdown ∉ before ++ after ∧ before.filterMap shutdownOf = [] ∧ after.filterMap stopOf = []

theorem UpToFailure.of_failure {n k : ℕ} {ok : ℕ → Bool} (hlt : k < n)
    (hall : ∀ i < k, ok i = true) (hfail : ok k = false) : UpToFailure n ok (List.range (k+1)) :=
  ⟨k+1,hlt,rfl,fun i hi => hall i (Nat.lt_of_succ_lt_succ hi),fun _ => ⟨k,rfl,hfail⟩⟩

theorem UpToFailure.of_success {n : ℕ} {ok : ℕ → Bool} (hall : ∀ i < n, ok i = true) :
    UpToFailure n ok (List.range n) :=
  ⟨n,le_rfl,rfl,fun i hi => hall i (Nat.lt_of_succ_lt hi),fun h => absurd h (lt_irrefl n)⟩

theorem UpToFailure.mem {n i : ℕ} {ok : ℕ → Bool} {calls : List ℕ} (h : UpToFailure n ok calls)
    (hall : ∀ j < n, ok j = true) (hi : i < n) : i ∈ calls := by
  obtain ⟨m,hm,rfl,-,hfail⟩ := h
  rcases hm.lt_or_eq with hlt | rfl
  · obtain ⟨j,rfl,hj⟩ := hfail hlt
    rw [hall j (Nat.lt_of_succ_lt hlt)] at hj
    cases hj
  · exact List.mem_range.mpr hi

/-- A start stands behind a front part without starts. -/
theorem front_of_start {front rest before after : List Call} {i : ℕ}
    (h : front ++ rest = before ++ .start i :: after) (hnone : .start i ∉ front) :
    ∃ more, before = front ++ more := by
  rcases List.append_eq_append_iff.mp h with ⟨more,hbefore,-⟩ | ⟨more,hfront,hmore⟩
  · exact ⟨more,hbefore⟩
  · cases more with
    | nil => exact ⟨[],by rw [List.append_nil,hfront,List.append_nil]⟩
    | cons c more =>
      cases hmore
      exact absurd (hfront ▸ List.mem_append_right _ List.mem_cons_self) hnone

section

variable {app : Application φ δ} {cfg : Config φ δ} {trace : List Call}

theorem filter_started {n : ℕ} {ok : ℕ → Bool} (h : ∀ i < n, ok i = true) :
    (List.range n).filter ok = List.range n :=
  List.filter_eq_self.mpr fun i hi => h i (List.mem_range.mp hi)

theorem reversePositions_pairwise (n : ℕ) : (reversePositions n).Pairwise (· > ·) :=
  List.pairwise_reverse.mpr List.pairwise_lt_range

theorem Exits.inits (h : Exits app cfg trace) :
    UpToFailure app.modules.length (app.initOk cfg) (trace.filterMap initOf) := by
  cases h with
  | initFailed hlt hall hfail =>
    simpa [initOf,List.filterMap_cons,List.filterMap_map,Function.comp_def] using
      UpToFailure.of_failure hlt hall hfail
  | onInitFailed hall | startFailed hall | ran hall =>
    simpa [initOf,List.filterMap_cons,List.filterMap_map,Function.comp_def] using
      UpToFailure.of_success hall

theorem Exits.starts (h : Exits app cfg trace) :
    (¬app.Ready cfg ∧ trace.filterMap startOf = []) ∨
      (app.Ready cfg ∧
        UpToFailure app.modules.length app.startOk (trace.filterMap startOf)) := by
  cases h with
  | initFailed hlt hall hfail =>
    refine .inl ⟨fun h => ?_,?_⟩
    · rw [h.1 _ hlt] at hfail; cases hfail
    · simp [startOf,List.filterMap_cons,List.filterMap_map,Function.comp_def]
  | onInitFailed hall hfail =>
    refine .inl ⟨fun h => ?_,?_⟩
    · rw [h.2] at hfail; cases hfail
    · simp [startOf,List.filterMap_cons,List.filterMap_map,Function.comp_def]
  | startFailed hall honInit hlt hstarted hfail =>
    refine .inr ⟨⟨hall,honInit⟩,?_⟩
    simpa [startOf,List.filterMap_cons,List.filterMap_map,Function.comp_def] using
      UpToFailure.of_failure hlt hstarted hfail
  | ran hall honInit hstarted =>
    refine .inr ⟨⟨hall,honInit⟩,?_⟩
    simpa [startOf,List.filterMap_cons,List.filterMap_map,Function.comp_def] using
      UpToFailure.of_success hstarted

/-- On every exit the stopped and the shut-down modules are the started ones, in reverse. -/
theorem Exits.unwound (h : Exits app cfg trace) :
    trace.filterMap stopOf = ((trace.filterMap startOf).filter app.startOk).reverse ∧
      trace.filterMap shutdownOf = trace.filterMap stopOf := by
  cases h with
  | initFailed | onInitFailed =>
    simp [startOf,stopOf,shutdownOf,List.filterMap_cons,List.filterMap_map,Function.comp_def]
  | startFailed hall honInit hlt hstarted hfail =>
    have hfilter := filter_started hstarted
    simp [startOf,stopOf,shutdownOf,List.filterMap_cons,List.filterMap_map,Function.comp_def,
      List.range_succ,hfilter,hfail,reversePositions]
  | ran hall honInit hstarted =>
    have hfilter := filter_started hstarted
    simp [startOf,stopOf,shutdownOf,List.filterMap_cons,List.filterMap_map,Function.comp_def,
      hfilter,reversePositions]

theorem Exits.gated (h : Exits app cfg trace) {before after : List Call} {i : ℕ}
    (htrace : trace = before ++ .start i :: after) :
    app.Ready cfg ∧ (∀ j < app.modules.length, .init j ∈ before) ∧ .onInit ∈ before := by
  have hfront (rest : List Call)
      (heq : trace = (.drainStart :: (List.range app.modules.length).map .init ++ [.onInit]) ++
        rest) :
      (∀ j < app.modules.length, .init j ∈ before) ∧ .onInit ∈ before := by
    obtain ⟨more,rfl⟩ := front_of_start (heq.symm.trans htrace) (by simp)
    exact ⟨fun j hj => by simp [hj],by simp⟩
  cases h with
  | initFailed | onInitFailed =>
    have hmem := htrace ▸ List.mem_append_right before (List.mem_cons_self (a := Call.start i))
    simp at hmem
  | startFailed hall honInit =>
    refine ⟨⟨hall,honInit⟩,?_⟩
    apply hfront
    simp
    rfl
  | ran hall honInit =>
    refine ⟨⟨hall,honInit⟩,?_⟩
    apply hfront
    simp
    rfl

theorem Exits.shutdowns (h : Exits app cfg trace) :
    (trace.filterMap shutdownOf).Pairwise (· > ·) := by
  cases h with
  | initFailed | onInitFailed =>
    simp [shutdownOf,List.filterMap_cons,List.filterMap_map,Function.comp_def]
  | startFailed | ran =>
    simpa [shutdownOf,List.filterMap_cons,List.filterMap_map,Function.comp_def] using
      reversePositions_pairwise _

theorem Exits.stopped (h : Exits app cfg trace) :
    trace.Pairwise fun c d => (shutdownOf c).isSome → stopOf d = none := by
  have hany (is : List ℕ) : is.Pairwise fun _ _ => True :=
    List.pairwise_of_forall fun _ _ => trivial
  cases h <;> simp [shutdownOf,stopOf,List.pairwise_append,List.pairwise_map,hany]

theorem Exits.doRun (h : Exits app cfg trace) :
    trace.count .doRun = 1 ∧ app.Ready cfg ∧
        (∀ i < app.modules.length, app.startOk i = true) ∨
      trace.count .doRun = 0 ∧
        ¬(app.Ready cfg ∧ ∀ i < app.modules.length, app.startOk i = true) := by
  have hcount {f : ℕ → Call} (hf : ∀ i, f i ≠ .doRun) (is : List ℕ) :
      (is.map f).count .doRun = 0 :=
    List.count_eq_zero.mpr fun hmem => by
      obtain ⟨i,-,hi⟩ := List.mem_map.mp hmem
      exact hf i hi
  cases h with
  | initFailed hlt hall hfail =>
    refine .inr ⟨by simp [hcount],fun h => ?_⟩
    rw [h.1.1 _ hlt] at hfail; cases hfail
  | onInitFailed hall hfail =>
    refine .inr ⟨by simp [hcount],fun h => ?_⟩
    rw [h.1.2] at hfail; cases hfail
  | startFailed hall honInit hlt hstarted hfail =>
    refine .inr ⟨by simp [hcount],fun h => ?_⟩
    rw [h.2 _ hlt] at hfail; cases hfail
  | ran hall honInit hstarted =>
    exact .inl ⟨by simp [hcount],⟨hall,honInit⟩,hstarted⟩

theorem Exits.onShutdown (h : Exits app cfg trace) (hrun : .doRun ∈ trace) :
    ∃ before after, trace = before ++ .onShutdown :: after ∧ .onShutdown ∉ before ++ after ∧
      before.filterMap shutdownOf = [] ∧ after.filterMap stopOf = [] := by
  cases h with
  | initFailed | onInitFailed | startFailed => simp at hrun
  | ran hall honInit hstarted =>
    refine ⟨.drainStart :: (List.range app.modules.length).map .init ++ .onInit ::
        (List.range app.modules.length).map .start ++ .doRun ::
        (reversePositions app.modules.length).map .stop,
      (reversePositions app.modules.length).map .shutdown ++ [.drainStop],?_,?_,?_,?_⟩
    · simp
    · simp
    · simp [shutdownOf,List.filterMap_cons,List.filterMap_map,Function.comp_def]
    · simp [stopOf,List.filterMap_cons,List.filterMap_map,Function.comp_def]

theorem Exits.orderly (h : Exits app cfg trace) : Orderly app cfg trace where
  inits := h.inits
  gated before i after htrace :=
    have ⟨hready,hinit,honInit⟩ := h.gated htrace
    ⟨fun j hj => ⟨hinit j hj,hready.1 j hj⟩,honInit,hready.2⟩
  starts hready := h.starts.elim (fun hne => absurd hready hne.1) And.right
  stops := h.unwound.1
  released i hi hok := by
    rw [h.unwound.2,h.unwound.1,List.mem_reverse]
    exact List.mem_filter.mpr ⟨hi,hok⟩
  shutdowns := h.shutdowns
  stopped := h.stopped
  doRun := h.doRun
  onShutdown := h.onShutdown

end

theorem run_orderly (app : Application φ δ) {parseExit : ℤ} {file : Option (File φ δ)}
    {env : Environment} {overrides : List Text} {cfg : Config φ δ} (hargs : parseExit < 0)
    (hload : loadConfig file env overrides = some (.ok cfg)) :
    ∃ trace code, app.run parseExit file env overrides = some (trace,code) ∧
      Orderly app cfg trace := by
  refine ⟨(app.lifecycle cfg).1,(app.lifecycle cfg).2,?_,(lifecycle_exits app cfg).orderly⟩
  exact run_of_loaded app hargs hload

/-- A module that has nothing to do. -/
def feedModule : Module Unit Unit := ⟨['f','e','e','d'],fun _ => .ok (),.ok ()⟩

def riskModule (init start : Except Text Unit) : Module Unit Unit :=
  ⟨['r','i','s','k'],fun _ => init,start⟩

def myApp (init start : Except Text Unit) : Application Unit Unit :=
  ⟨[feedModule,riskModule init start],.ok (),0⟩

theorem run_orderly_myApp : ∃ trace code,
    (myApp (.ok ()) (.error ['p','o','r','t'])).run (-1) none (fun _ => none) [] =
        some (trace,code) ∧
      Orderly (myApp (.ok ()) (.error ['p','o','r','t'])) ⟨none⟩ trace :=
  run_orderly _ (by decide) rfl

/-! ### The release of what `init` allocates -/

/-- Every module whose `init` succeeded is shut down, once. -/
def Released (app : Application φ δ) (cfg : Config φ δ) (trace : List Call) : Prop :=
  ∀ i, .init i ∈ trace → app.initOk cfg i = true → trace.count (.shutdown i) = 1

theorem count_shutdown (trace : List Call) (i : ℕ) :
    trace.count (.shutdown i) = (trace.filterMap shutdownOf).count i := by
  induction trace with
  | nil => rfl
  | cons c trace ih => cases c <;> simp [shutdownOf,List.filterMap_cons,List.count_cons,ih]

theorem mem_inits {trace : List Call} {i : ℕ} :
    .init i ∈ trace ↔ i ∈ trace.filterMap initOf := by
  rw [List.mem_filterMap]
  refine ⟨fun h => ⟨_,h,rfl⟩,fun ⟨c,hc,hi⟩ => ?_⟩
  cases c <;> cases hi
  exact hc

theorem mem_starts {trace : List Call} {i : ℕ} :
    .start i ∈ trace ↔ i ∈ trace.filterMap startOf := by
  rw [List.mem_filterMap]
  refine ⟨fun h => ⟨_,h,rfl⟩,fun ⟨c,hc,hi⟩ => ?_⟩
  cases c <;> cases hi
  exact hc

section

variable {app : Application φ δ} {cfg : Config φ δ} {trace : List Call}

theorem Exits.count_shutdown (h : Exits app cfg trace) (i : ℕ) :
    trace.count (.shutdown i) = 1 ↔ .start i ∈ trace ∧ app.startOk i = true := by
  have hmem : i ∈ trace.filterMap shutdownOf ↔ .start i ∈ trace ∧ app.startOk i = true := by
    rw [h.unwound.2,h.unwound.1,List.mem_reverse,List.mem_filter,mem_starts]
  have hnodup : (trace.filterMap shutdownOf).Nodup := h.shutdowns.imp fun hgt => hgt.ne'
  rw [Application.count_shutdown,hnodup.count,← hmem]
  split_ifs with hi <;> simp [hi]

/-- Whether `run` shuts down all that it initialised. -/
theorem Exits.released_iff (h : Exits app cfg trace) :
    Released app cfg trace ↔ app.initOk cfg 0 = false ∨
      app.Ready cfg ∧ ∀ i < app.modules.length, app.startOk i = true := by
  obtain ⟨m,hm,hinits,hok,hfail⟩ := h.inits
  constructor
  · intro hreleased
    rcases Bool.eq_false_or_eq_true (app.initOk cfg 0) with hzero | hzero
    · have hfirst : .init 0 ∈ trace := by
        rw [mem_inits,hinits,List.mem_range]
        refine Nat.pos_of_ne_zero fun hm => ?_
        subst hm
        obtain ⟨j,hj,-⟩ := hfail (initOk_lt hzero)
        cases hj
      obtain ⟨hstart,-⟩ := (h.count_shutdown 0).mp (hreleased 0 hfirst hzero)
      obtain ⟨before,after,htrace⟩ := List.append_of_mem hstart
      have hready := (h.gated htrace).1
      refine .inr ⟨hready,fun i hi => ?_⟩
      have hinit := mem_inits.mpr (h.inits.mem hready.1 hi)
      exact ((h.count_shutdown i).mp (hreleased i hinit (hready.1 i hi))).2
    · exact .inl hzero
  · rintro (hzero | ⟨hready,hall⟩) i hi hinit
    · have hlt : i < m := List.mem_range.mp (hinits ▸ mem_inits.mp hi)
      cases i with
      | zero => rw [hzero] at hinit; cases hinit
      | succ i =>
        rw [hok 0 (by omega)] at hzero
        cases hzero
    · have hstarts := (h.starts.resolve_left fun hne => hne.1 hready).2
      have hlt := initOk_lt hinit
      exact (h.count_shutdown i).mpr ⟨mem_starts.mpr (hstarts.mem hall hlt),hall i hlt⟩

end

theorem run_releases_iff (app : Application φ δ) {parseExit : ℤ} {file : Option (File φ δ)}
    {env : Environment} {overrides : List Text} {cfg : Config φ δ} (hargs : parseExit < 0)
    (hload : loadConfig file env overrides = some (.ok cfg)) :
    ∃ trace code, app.run parseExit file env overrides = some (trace,code) ∧
      (Released app cfg trace ↔ app.initOk cfg 0 = false ∨
        app.Ready cfg ∧ ∀ i < app.modules.length, app.startOk i = true) := by
  refine ⟨(app.lifecycle cfg).1,(app.lifecycle cfg).2,?_,(lifecycle_exits app cfg).released_iff⟩
  exact run_of_loaded app hargs hload

theorem run_releases_iff_myApp : ∃ trace code,
    (myApp (.ok ()) (.ok ())).run (-1) none (fun _ => none) [] = some (trace,code) ∧
      (Released (myApp (.ok ()) (.ok ())) ⟨none⟩ trace ↔
        (myApp (.ok ()) (.ok ())).initOk ⟨none⟩ 0 = false ∨
          (myApp (.ok ()) (.ok ())).Ready ⟨none⟩ ∧
            ∀ i < (myApp (.ok ()) (.ok ())).modules.length,
              (myApp (.ok ()) (.ok ())).startOk i = true) :=
  run_releases_iff _ (by decide) rfl

/-- The feed stays initialised when the risk module's `init` fails. -/
theorem run_leaves_feed : ∃ trace,
    (myApp (.error ['n','o',' ','l','i','m','i','t']) (.ok ())).run (-1) none (fun _ => none) [] =
        some (trace,1) ∧
      ¬Released (myApp (.error ['n','o',' ','l','i','m','i','t']) (.ok ())) ⟨none⟩ trace := by
  refine ⟨[.drainStart,.init 0,.init 1,.drainStop],rfl,fun h => ?_⟩
  exact absurd (h 0 (by decide) rfl) (by decide)

end Application
end Marketlib
