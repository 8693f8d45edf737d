import Mathlib.Tactic.FinCases
import Marketlib.DispatchOrder
import Marketlib.MdDispatch

/-! What the readers of the snapshot table see: states of the books. Past `2^63` messages of
a symbol its sequence number comes round, and a reader stopped that long returns words of
two snapshots. -/

namespace Marketlib
namespace MdDispatch

variable {n : ℕ} {ω β ρ : Type*} {ops : BookOps n ω β} {hash : UInt32 → UInt64}

/-! ### Routing -/

def symbolOf (slot : Fin kMaxSymbols) : UInt32 := UInt32.ofNat slot.val

theorem symbolOf_toNat (slot : Fin kMaxSymbols) : (symbolOf slot).toNat = slot.val := by
  rw [symbolOf,UInt32.toNat_ofNat']
  have hlt : slot.val < 1024 := slot.isLt
  exact Nat.mod_eq_of_lt (by omega)

theorem symbolOf_lt (slot : Fin kMaxSymbols) : (symbolOf slot).toNat < kMaxSymbols := by
  rw [symbolOf_toNat]
  exact slot.isLt

theorem slotOf_symbolOf (slot : Fin kMaxSymbols) : slotOf (symbolOf slot) = slot := by
  have hmod : (symbolOf slot).toNat % kMaxSymbols = slot.val := by
    rw [symbolOf_toNat]
    exact Nat.mod_eq_of_lt slot.isLt
  exact Fin.ext hmod

theorem symbolOf_slotOf {sym : UInt32} (h : sym.toNat < kMaxSymbols) :
    symbolOf (slotOf sym) = sym := by
  refine UInt32.toNat_inj.mp ?_
  rw [symbolOf_toNat,slotOf]
  exact Nat.mod_eq_of_lt h

/-- The worker whose handler a slot's symbol is routed to. -/
def owner (hash : UInt32 → UInt64) (slot : Fin kMaxSymbols) : Fin kNumBookWorkers :=
  workerForKey hash (symbolOf slot)

/-! ### Seeding -/

theorem mem_symbols {sym : UInt32} : sym ∈ symbols ↔ sym.toNat < kMaxSymbols := by
  rw [symbols,List.mem_map]
  constructor
  · rintro ⟨k,hk,rfl⟩
    exact symbolOf_lt ⟨k,List.mem_range.mp hk⟩
  · intro h
    exact ⟨sym.toNat,List.mem_range.mpr h,UInt32.ofNat_toNat⟩

theorem owned_eq (hash : UInt32 → UInt64) (syms : List UInt32) (w : Fin kNumBookWorkers) :
    owned hash syms w = syms.filter fun sym => workerForKey hash sym = w := by
  induction syms using List.reverseRecOn with
  | nil => rfl
  | append_singleton syms sym ih =>
    rw [owned] at ih
    rw [owned,List.foldl_concat,List.filter_append]
    by_cases hw : workerForKey hash sym = w
    · subst hw
      simp [ih]
    · rw [Function.update_of_ne (Ne.symm hw),ih]
      simp [hw]

theorem foldl_tryEmplace (books : UInt32 → Option β) (syms : List UInt32) (sym : UInt32) :
    syms.foldl (tryEmplace ops) books sym =
      (books sym <|> if sym ∈ syms then some (ops.new sym) else none) := by
  induction syms generalizing books with
  | nil => simp
  | cons first syms ih =>
    rw [List.foldl_cons,ih,tryEmplace]
    cases hfirst : books first with
    | some book =>
      rcases eq_or_ne sym first with rfl | hne
      · simp [hfirst]
      · simp [hne]
    | none =>
      rcases eq_or_ne sym first with rfl | hne
      · simp [hfirst]
      · simp [hne]

/-- A seeded symbol has its book with the worker that it is routed to. -/
theorem seed_eq (w : Fin kNumBookWorkers) (sym : UInt32) :
    seed ops hash w sym =
      if sym.toNat < kMaxSymbols ∧ workerForKey hash sym = w then some (ops.new sym) else none := by
  rw [seed,foldl_tryEmplace,owned_eq]
  simp only [List.mem_filter,mem_symbols,decide_eq_true_eq]
  rfl

/-! ### Messages and snapshots -/

/-- The messages of a symbol that were handled, by whichever worker. -/
def messages (s : State n ω β ρ) (sym : UInt32) : List MarketDataTask :=
  (s.handled.map Prod.snd).filter fun task => task.symbolId = sym

variable (ops) in
/-- A symbol's book after some messages. -/
def bookAfter (sym : UInt32) (ms : List MarketDataTask) : β :=
  ms.foldl (applyMessage ops) (ops.new sym)

variable (ops) in
/-- What a slot shows after some messages: until the first one it is zero. -/
def published [Zero ω] (sym : UInt32) (ms : List MarketDataTask) : SeqLock.Payload n ω :=
  if ms.isEmpty then fun _ => 0 else ops.snapshot (bookAfter ops sym ms)

variable (ops) in
/-- The snapshots after the first message, the first two, and so on. -/
def snapshots (sym : UInt32) (ms : List MarketDataTask) : List (SeqLock.Payload n ω) :=
  (List.range ms.length).map fun k => ops.snapshot (bookAfter ops sym (ms.take (k+1)))

theorem snapshots_length (sym : UInt32) (ms : List MarketDataTask) :
    (snapshots ops sym ms).length = ms.length := by
  rw [snapshots,List.length_map,List.length_range]

theorem snapshots_concat (sym : UInt32) (ms : List MarketDataTask) (task : MarketDataTask) :
    snapshots ops sym (ms ++ [task]) =
      snapshots ops sym ms ++ [ops.snapshot (bookAfter ops sym (ms ++ [task]))] := by
  rw [snapshots,List.length_append,List.length_singleton,List.range_succ,List.map_append]
  congr 1
  · refine List.map_congr_left fun k hk => ?_
    rw [List.take_append_of_le_length (List.mem_range.mp hk)]
  · rw [List.map_singleton,List.take_of_length_le (by simp)]

theorem version_snapshots [Zero ω] (sym : UInt32) {ms : List MarketDataTask} {k : ℕ}
    (h : k ≤ ms.length) :
    SeqLock.version (fun _ => 0) (snapshots ops sym ms) k = published ops sym (ms.take k) := by
  cases k with
  | zero => rfl
  | succ k =>
    have hne : (ms.take (k+1)).isEmpty = false := by
      rw [List.isEmpty_eq_false_iff_exists_mem]
      exact ⟨ms[0],List.mem_take_iff_getElem.mpr ⟨0,by omega,rfl⟩⟩
    rw [published,hne,SeqLock.version,List.getD_cons_succ,snapshots,List.getD_eq_getElem?_getD,
      List.getElem?_map,List.getElem?_range (by omega)]
    rfl

theorem messages_concat (s : State n ω β ρ) (w : Fin kNumBookWorkers) (task : MarketDataTask)
    (sym : UInt32) : ((s.handled ++ [(w,task)]).map Prod.snd).filter (fun x => x.symbolId = sym) =
      if task.symbolId = sym then messages s sym ++ [task] else messages s sym := by
  rw [List.map_append,List.filter_append]
  by_cases h : task.symbolId = sym
  · simp [h,messages]
  · simp [h,messages]

/-! ### Steps -/

/-- What the steps do, by the worker that takes them. -/
inductive Effect (ops : BookOps n ω β) (hash : UInt32 → UInt64) [DecidableEq ρ]
    (s : State n ω β ρ) : Option (Fin kNumBookWorkers) → State n ω β ρ → Prop
  | pool {actor b pool} : ThreadPool.step layout hash s.pool b = some pool →
      (∀ w draining x, s.pool.workers w = .handling draining x → b ≠ .worker w.val) →
      (∀ t route task, b = .submit t route task → route = .byKey task.symbolId) →
      Effect ops hash s actor { s with pool }
  | process {w draining x} : s.pool.workers w = .handling draining x → s.handlers w = .called →
      Effect ops hash s (some w) (processMarketData ops s w x.task)
  | publish {w slot snap t} : s.handlers w = .publish slot snap →
      SeqLock.stepWriter (s.table slot) .idle (.load snap) = some t →
      Effect ops hash s (some w) (wrote s w slot t)
  | access {w slot pc b t} : s.handlers w = .writing slot pc →
      SeqLock.stepWriter (s.table slot) pc b = some t →
      Effect ops hash s (some w) (wrote s w slot t)
  | finish {w draining x pool} : s.pool.workers w = .handling draining x →
      s.handlers w = .returning → ThreadPool.step layout hash s.pool (.worker w.val) = some pool →
      Effect ops hash s (some w) { s with
        pool
        handlers := Function.update s.handlers w .called }
  | read {slot r b t} :
      SeqLock.stepReader (s.table slot) r ((s.table slot).readers r) b = some t →
      Effect ops hash s none { s with table := Function.update s.table slot t }

variable [DecidableEq ρ] {s t : State n ω β ρ}

theorem stepPool_effect {b : ThreadPool.Action Unit UInt32 MarketDataTask}
    (hstep : stepPool hash s b = some t)
    (hidle : ∀ w draining x, s.pool.workers w = .handling draining x → b ≠ .worker w.val)
    (hroute : ∀ t route task, b = .submit t route task → route = .byKey task.symbolId)
    (actor : Option (Fin kNumBookWorkers)) : Effect ops hash s actor t := by
  obtain ⟨pool,hpool,rfl⟩ := Option.map_eq_some_iff.mp hstep
  exact .pool hpool hidle hroute

theorem stepWorker_effect {w : Fin kNumBookWorkers} (hstep : stepWorker ops hash s w = some t) :
    Effect ops hash s (some w) t := by
  unfold stepWorker at hstep
  split at hstep
  · next draining x hw =>
    split at hstep
    · next hcalled =>
      cases hstep
      exact .process hw hcalled
    · next slot snap hpublish =>
      obtain ⟨u,hu,rfl⟩ := Option.map_eq_some_iff.mp hstep
      exact .publish hpublish hu
    · cases hstep
    · next hreturning =>
      obtain ⟨u,hu,rfl⟩ := Option.map_eq_some_iff.mp hstep
      obtain ⟨pool,hpool,rfl⟩ := Option.map_eq_some_iff.mp hu
      exact .finish hw hreturning hpool
  · next hidle =>
    refine stepPool_effect hstep ?_ nofun _
    rintro v draining x hv heq
    injection heq with hval
    rw [← Fin.ext hval] at hv
    exact hidle draining x hv

theorem step_effect {a : Action n ω ρ} (hstep : step ops hash s a = some t) :
    Effect ops hash s a.actor t := by
  cases a with
  | receive symbolId sequence payload =>
    refine stepPool_effect hstep nofun ?_ _
    rintro u route task heq
    cases heq
    rfl
  | push spurious => exact stepPool_effect hstep nofun nofun _
  | worker w => exact stepWorker_effect hstep
  | write w a =>
    simp only [step,stepWrite] at hstep
    split at hstep
    · next slot pc hwriting =>
      obtain ⟨u,hu,rfl⟩ := Option.map_eq_some_iff.mp hstep
      exact .access hwriting hu
    · cases hstep
  | read slot r a =>
    obtain ⟨u,hu,rfl⟩ := Option.map_eq_some_iff.mp hstep
    exact .read hu
  | stop => exact stepPool_effect hstep nofun nofun _

variable {w : Fin kNumBookWorkers} {task : MarketDataTask}

omit [DecidableEq ρ] in
theorem processMarketData_none (h : s.books w task.symbolId = none) :
    processMarketData ops s w task = { s with
      handled := s.handled ++ [(w,task)]
      handlers := Function.update s.handlers w .returning } := by
  rw [processMarketData]
  simp only [h]

omit [DecidableEq ρ] in
theorem processMarketData_some {book : β} (h : s.books w task.symbolId = some book) :
    processMarketData ops s w task = { s with
      handled := s.handled ++ [(w,task)]
      books := Function.update s.books w
        (Function.update (s.books w) task.symbolId (some (applyMessage ops book task)))
      handlers := Function.update s.handlers w
        (.publish (slotOf task.symbolId) (ops.snapshot (applyMessage ops book task))) } := by
  rw [processMarketData]
  simp only [h]

/-! ### The invariant -/

/-- The slot that a handler is publishing to. -/
def Handler.slot : Handler n ω → Option (Fin kMaxSymbols)
  | .publish slot _ | .writing slot _ => some slot
  | _ => none

/-- The snapshot that a handler has taken and the slot does not show yet. -/
def Handler.pending (h : Handler n ω) (i : Fin kMaxSymbols) : List (SeqLock.Payload n ω) :=
  match h with
  | .publish slot snap => if slot = i then [snap] else []
  | .writing slot pc => if slot = i then pc.value.toList else []
  | _ => []

/-- Where a handler is in `write` on a slot. -/
def Handler.writer (h : Handler n ω) (i : Fin kMaxSymbols) : SeqLock.Writer n ω :=
  match h with
  | .writing slot pc => if slot = i then pc else .idle
  | _ => .idle

theorem Handler.pending_of_ne {h : Handler n ω} {i : Fin kMaxSymbols} (hi : h.slot ≠ some i) :
    h.pending i = [] := by
  cases h with
  | publish slot snap => exact if_neg fun heq => hi (congrArg some heq)
  | writing slot pc => exact if_neg fun heq => hi (congrArg some heq)
  | _ => rfl

theorem Handler.writer_of_ne {h : Handler n ω} {i : Fin kMaxSymbols} (hi : h.slot ≠ some i) :
    h.writer i = .idle := by
  cases h with
  | writing slot pc => exact if_neg fun heq => hi (congrArg some heq)
  | _ => rfl

/-- A worker that is in no `write` before and after. -/
theorem writer_update {handlers : Fin kNumBookWorkers → Handler n ω} {w : Fin kNumBookWorkers}
    {next : Handler n ω} {i : Fin kMaxSymbols} (h : next.writer i = (handlers w).writer i)
    (v : Fin kNumBookWorkers) :
    (Function.update handlers w next v).writer i = (handlers v).writer i :=
  ThreadPool.update_unseen (fun handler : Handler n ω => handler.writer i) h v

theorem pending_update {handlers : Fin kNumBookWorkers → Handler n ω} {w : Fin kNumBookWorkers}
    {next : Handler n ω} {i : Fin kMaxSymbols} (h : next.pending i = (handlers w).pending i)
    (v : Fin kNumBookWorkers) :
    (Function.update handlers w next v).pending i = (handlers v).pending i :=
  ThreadPool.update_unseen (fun handler : Handler n ω => handler.pending i) h v

section Resume

variable (slot : Fin kMaxSymbols) (pc : SeqLock.Writer n ω)

theorem Handler.resume_slot {i : Fin kMaxSymbols} (h : (Handler.resume slot pc).slot = some i) :
    slot = i := by
  cases pc with
  | idle => cases h
  | _ => exact Option.some.inj h

theorem Handler.resume_writer : (Handler.resume slot pc).writer slot = pc := by
  cases pc with
  | idle => rfl
  | _ => exact if_pos rfl

theorem Handler.resume_pending : (Handler.resume slot pc).pending slot = pc.value.toList := by
  cases pc with
  | idle => rfl
  | _ => exact if_pos rfl

theorem Handler.resume_busy (i : Fin kMaxSymbols) :
    Handler.resume slot pc ≠ .writing i .idle := by
  intro h
  cases pc with
  | idle => cases h
  | _ => cases h

end Resume

/-- The state of the pool. -/
abbrev Pool := ThreadPool.State queueCapacity kNumBookWorkers Unit UInt32 MarketDataTask

abbrev Submission := ThreadPool.Submission kNumBookWorkers Unit UInt32 MarketDataTask

/-- A handler is past its first line only while its worker handles a message, and in a `write`
only on the slot of the message's symbol. -/
structure Running (pool : Pool) (handlers : Fin kNumBookWorkers → Handler n ω) : Prop where
  called : ∀ w, (∀ draining x, pool.workers w ≠ .handling draining x) → handlers w = .called
  slots : ∀ w slot, (handlers w).slot = some slot →
    ∃ draining x, pool.workers w = .handling draining x ∧ x.task.symbolId = symbolOf slot
  busy : ∀ w slot, handlers w ≠ .writing slot .idle

theorem Running.set {pool : Pool} {handlers : Fin kNumBookWorkers → Handler n ω}
    (h : Running pool handlers) {w : Fin kNumBookWorkers} {draining : Bool} {x : Submission}
    (hw : pool.workers w = .handling draining x) {next : Handler n ω}
    (hslot : ∀ slot, next.slot = some slot → x.task.symbolId = symbolOf slot)
    (hbusy : ∀ slot, next ≠ .writing slot .idle) :
    Running pool (Function.update handlers w next) where
  called := fun v hv => by
    have hne : v ≠ w := by
      rintro rfl
      exact hv draining x hw
    rw [Function.update_of_ne hne]
    exact h.called v hv
  slots := fun v i hi => by
    rcases eq_or_ne v w with rfl | hne
    · rw [Function.update_self] at hi
      exact ⟨draining,x,hw,hslot i hi⟩
    · rw [Function.update_of_ne hne] at hi
      exact h.slots v i hi
  busy := fun v i => by
    rcases eq_or_ne v w with rfl | hne
    · rw [Function.update_self]
      exact hbusy i
    · rw [Function.update_of_ne hne]
      exact h.busy v i

structure Inv [Zero ω] (ops : BookOps n ω β) (hash : UInt32 → UInt64) (s : State n ω β ρ) :
    Prop where
  pool : Transition.Reachable (ThreadPool.step layout hash) ThreadPool.start s.pool
  routes : ∀ x ∈ s.pool.submitted, x.route = .byKey x.task.symbolId
  running : Running s.pool s.handlers
  books : ∀ w sym, s.books w sym =
    if sym.toNat < kMaxSymbols ∧ workerForKey hash sym = w then
      some (bookAfter ops sym (messages s sym))
    else none
  table : ∀ i, Transition.Reachable SeqLock.step (SeqLock.start fun _ => 0) (s.table i)
  /-- Only the owner of a slot writes to it. -/
  writer : ∀ i, (s.table i).writer = (s.handlers (owner hash i)).writer i
  /-- A slot has shown a snapshot for each message, but for the one being handled. -/
  history : ∀ i, (s.table i).written ++ (s.handlers (owner hash i)).pending i =
    snapshots ops (symbolOf i) (messages s (symbolOf i))
  writers : ∀ i, ∀ w ∈ s.writers i, w = owner hash i

section Invariant

variable [Zero ω]

theorem start_inv : Inv ops hash (start ops hash : State n ω β ρ) where
  pool := .start
  routes := fun _ hx => by cases hx
  running := ⟨fun _ _ => rfl,nofun,nofun⟩
  books := fun w sym => by
    simp only [start,messages,List.map_nil,List.filter_nil,bookAfter,List.foldl_nil]
    exact seed_eq w sym
  table := fun _ => .start
  writer := fun _ => rfl
  history := fun _ => rfl
  writers := fun _ _ h => by cases h

/-- A worker handles messages of the symbols that are routed to it. -/
theorem Inv.handling (h : Inv ops hash s) {w : Fin kNumBookWorkers} {draining : Bool}
    {x : Submission} (hw : s.pool.workers w = .handling draining x) : workerForKey hash x.task.symbolId = w := by
  have hbooks := ThreadPool.reachable_books h.pool
  obtain ⟨rfl,hx⟩ := hbooks.handling hw
  obtain ⟨rr,htarget⟩ := hbooks.target x hx
  rw [h.routes x hx] at htarget
  exact Fin.ext (ThreadPool.target_byKey htarget).symm

theorem Inv.owner_eq (h : Inv ops hash s) {w : Fin kNumBookWorkers} {slot : Fin kMaxSymbols}
    (hw : (s.handlers w).slot = some slot) : owner hash slot = w := by
  obtain ⟨draining,x,hx,hsym⟩ := h.running.slots w slot hw
  rw [owner,← hsym]
  exact h.handling hx

section Pool

variable {pool pool' : Pool} {b : ThreadPool.Action Unit UInt32 MarketDataTask}

omit [Zero ω] in
/-- A step of the pool moves no worker that is in its handler. -/
theorem Running.stepPool {handlers : Fin kNumBookWorkers → Handler n ω}
    (h : Running pool handlers) (hstep : ThreadPool.step layout hash pool b = some pool')
    (hidle : ∀ w draining x, pool.workers w = .handling draining x → b ≠ .worker w.val) :
    Running pool' handlers := by
  have hkept : ∀ w draining x, pool.workers w = .handling draining x →
      pool'.workers w = .handling draining x := fun w draining x hx =>
    (ThreadPool.step_workers hstep (hidle w draining x hx)).trans hx
  refine ⟨fun w hw => ?_,fun w slot hslot => ?_,h.busy⟩
  · exact h.called w fun draining x hx => hw draining x (hkept w draining x hx)
  · obtain ⟨draining,x,hx,hsym⟩ := h.slots w slot hslot
    exact ⟨draining,x,hkept w draining x hx,hsym⟩

omit [Zero ω] in
/-- A handler returns to its worker. -/
theorem Running.finish {handlers : Fin kNumBookWorkers → Handler n ω}
    (h : Running pool handlers) {w : Fin kNumBookWorkers}
    (hstep : ThreadPool.step layout hash pool (.worker w.val) = some pool') :
    Running pool' (Function.update handlers w .called) := by
  have hkept : ∀ v, v ≠ w → pool'.workers v = pool.workers v := by
    intro v hne
    refine ThreadPool.step_workers hstep fun heq => hne ?_
    injection heq with hval
    exact (Fin.ext hval).symm
  refine ⟨fun v hv => ?_,fun v slot hslot => ?_,fun v slot => ?_⟩
  · rcases eq_or_ne v w with rfl | hne
    · rw [Function.update_self]
    · rw [Function.update_of_ne hne]
      exact h.called v fun draining x hx => hv draining x ((hkept v hne).trans hx)
  · rcases eq_or_ne v w with rfl | hne
    · rw [Function.update_self] at hslot
      cases hslot
    · rw [Function.update_of_ne hne] at hslot
      rw [hkept v hne]
      exact h.slots v slot hslot
  · rcases eq_or_ne v w with rfl | hne
    · rw [Function.update_self]
      nofun
    · rw [Function.update_of_ne hne]
      exact h.busy v slot

theorem pool_routes (h : ∀ x ∈ pool.submitted, x.route = .byKey x.task.symbolId)
    (hstep : ThreadPool.step layout hash pool b = some pool')
    (hroute : ∀ t route task, b = .submit t route task → route = .byKey task.symbolId) :
    ∀ x ∈ pool'.submitted, x.route = .byKey x.task.symbolId := by
  intro x hx
  cases b with
  | submit t route task =>
    obtain ⟨w,q,rr,-,-,-,rfl⟩ := ThreadPool.submit_cases hstep
    rcases List.mem_append.mp hx with hx | hx
    · exact h x hx
    · rw [List.mem_singleton.mp hx]
      exact hroute t route task rfl
  | _ =>
    rw [ThreadPool.step_submitted hstep nofun] at hx
    exact h x hx

end Pool

theorem Inv.stepPool (h : Inv ops hash s) {pool : Pool}
    {b : ThreadPool.Action Unit UInt32 MarketDataTask}
    (hstep : ThreadPool.step layout hash s.pool b = some pool)
    (hidle : ∀ w draining x, s.pool.workers w = .handling draining x → b ≠ .worker w.val)
    (hroute : ∀ t route task, b = .submit t route task → route = .byKey task.symbolId) :
    Inv ops hash { s with pool } :=
  { h with
    pool := h.pool.next trivial hstep
    routes := pool_routes h.routes hstep hroute
    running := h.running.stepPool hstep hidle }

/-- A handler that neither takes a snapshot nor shows one. -/
theorem Inv.finish (h : Inv ops hash s) {pool : Pool} (hreturning : s.handlers w = .returning)
    (hstep : ThreadPool.step layout hash s.pool (.worker w.val) = some pool) :
    Inv ops hash { s with
      pool
      handlers := Function.update s.handlers w .called } :=
  { h with
    pool := h.pool.next trivial hstep
    routes := pool_routes h.routes hstep nofun
    running := h.running.finish hstep
    writer := fun i => by
      rw [writer_update (by rw [hreturning]; rfl)]
      exact h.writer i
    history := fun i => by
      rw [pending_update (by rw [hreturning]; rfl)]
      exact h.history i }

/-- An access of its `write` by the worker that is in it. -/
theorem Inv.wrote (h : Inv ops hash s) {w : Fin kNumBookWorkers} {slot : Fin kMaxSymbols}
    (hslot : (s.handlers w).slot = some slot) {b : SeqLock.WriterAction n ω}
    {u : SeqLock.State n ω ρ}
    (hstep : SeqLock.stepWriter (s.table slot) (s.table slot).writer b = some u)
    (hprogress : u.written ++ u.writer.value.toList =
      (s.table slot).written ++ (s.handlers w).pending slot) :
    Inv ops hash (wrote s w slot u) where
  pool := h.pool
  routes := h.routes
  books := h.books
  running := by
    obtain ⟨draining,x,hx,hsym⟩ := h.running.slots w slot hslot
    refine h.running.set hx (fun i hi => ?_) (Handler.resume_busy slot u.writer)
    rw [← Handler.resume_slot slot u.writer hi]
    exact hsym
  table := fun i => by
    simp only [MdDispatch.wrote]
    rcases eq_or_ne i slot with rfl | hne
    · rw [Function.update_self]
      exact (h.table i).next (a := .writer b) trivial hstep
    · rw [Function.update_of_ne hne]
      exact h.table i
  writer := fun i => by
    simp only [MdDispatch.wrote]
    rcases eq_or_ne i slot with rfl | hne
    · rw [Function.update_self,h.owner_eq hslot,Function.update_self,Handler.resume_writer]
    · rw [Function.update_of_ne hne,writer_update]
      · exact h.writer i
      · rw [Handler.writer_of_ne,Handler.writer_of_ne]
        · exact fun heq => hne (Option.some.inj (heq.symm.trans hslot))
        · exact fun heq => hne (Handler.resume_slot slot u.writer heq).symm
  history := fun i => by
    refine Eq.trans ?_ (h.history i)
    simp only [MdDispatch.wrote]
    rcases eq_or_ne i slot with rfl | hne
    · rw [Function.update_self,h.owner_eq hslot,Function.update_self,Handler.resume_pending]
      exact hprogress
    · rw [Function.update_of_ne hne]
      rw [pending_update]
      rw [Handler.pending_of_ne,Handler.pending_of_ne]
      · exact fun heq => hne (Option.some.inj (heq.symm.trans hslot))
      · exact fun heq => hne (Handler.resume_slot slot u.writer heq).symm
  writers := fun i v hv => by
    simp only [MdDispatch.wrote] at hv
    rcases eq_or_ne i slot with rfl | hne
    · rw [Function.update_self] at hv
      rcases List.mem_append.mp hv with hv | hv
      · exact h.writers i v hv
      · rw [List.mem_singleton.mp hv]
        exact (h.owner_eq hslot).symm
    · rw [Function.update_of_ne hne] at hv
      exact h.writers i v hv

theorem Inv.publish (h : Inv ops hash s) {w : Fin kNumBookWorkers} {slot : Fin kMaxSymbols}
    {snap : SeqLock.Payload n ω} (hw : s.handlers w = .publish slot snap)
    {u : SeqLock.State n ω ρ}
    (hstep : SeqLock.stepWriter (s.table slot) .idle (.load snap) = some u) :
    Inv ops hash (MdDispatch.wrote s w slot u) := by
  have hslot : (s.handlers w).slot = some slot := by rw [hw]; rfl
  have hidle : (s.table slot).writer = .idle := by
    rw [h.writer,h.owner_eq hslot,hw]
    rfl
  rw [← hidle] at hstep
  refine h.wrote hslot hstep ?_
  rw [hw]
  rcases SeqLock.stepWriter_value hstep with ⟨v,hv,-,hvalue,hwritten⟩ | ⟨hbusy,-⟩
  · cases hv
    rw [hvalue,hwritten]
    exact congrArg _ (if_pos rfl).symm
  · exact absurd hidle hbusy

theorem Inv.access (h : Inv ops hash s) {w : Fin kNumBookWorkers} {slot : Fin kMaxSymbols}
    {pc : SeqLock.Writer n ω} (hw : s.handlers w = .writing slot pc)
    {b : SeqLock.WriterAction n ω} {u : SeqLock.State n ω ρ}
    (hstep : SeqLock.stepWriter (s.table slot) pc b = some u) :
    Inv ops hash (MdDispatch.wrote s w slot u) := by
  have hslot : (s.handlers w).slot = some slot := by rw [hw]; rfl
  have hpc : (s.table slot).writer = pc := by
    rw [h.writer,h.owner_eq hslot,hw]
    exact if_pos rfl
  rw [← hpc] at hstep
  refine h.wrote hslot hstep ?_
  have hpending : (s.handlers w).pending slot = (s.table slot).writer.value.toList := by
    rw [hw,hpc]
    exact if_pos rfl
  rw [hpending]
  rcases SeqLock.stepWriter_value hstep with ⟨v,-,hidle,-,-⟩ | ⟨-,hvalue⟩
  · rw [hpc] at hidle
    exact absurd (hidle ▸ hw) (h.running.busy w slot)
  · exact hvalue

/-- The books are the same but for the symbol of the message handled. -/
theorem Inv.books_other (h : Inv ops hash s) {v : Fin kNumBookWorkers} {sym : UInt32}
    (hsym : task.symbolId ≠ sym) : s.books v sym =
      if sym.toNat < kMaxSymbols ∧ workerForKey hash sym = v then
        some (bookAfter ops sym
          (((s.handled ++ [(w,task)]).map Prod.snd).filter fun x => x.symbolId = sym))
      else none := by
  rw [messages_concat,if_neg hsym]
  exact h.books v sym

/-- A message of a symbol that is not seeded is dropped. -/
theorem Inv.drop (h : Inv ops hash s) {draining : Bool}
    {x : Submission}
    (hw : s.pool.workers w = .handling draining x) (hcalled : s.handlers w = .called)
    (hseeded : ¬x.task.symbolId.toNat < kMaxSymbols) :
    Inv ops hash { s with
      handled := s.handled ++ [(w,x.task)]
      handlers := Function.update s.handlers w .returning } where
  pool := h.pool
  routes := h.routes
  table := h.table
  writers := h.writers
  running := h.running.set hw nofun nofun
  books := fun v sym => by
    by_cases hsym : x.task.symbolId = sym
    · rw [hsym] at hseeded
      rw [if_neg fun hand => hseeded hand.1]
      have hbook := h.books v sym
      rwa [if_neg fun hand => hseeded hand.1] at hbook
    · exact h.books_other hsym
  writer := fun i => by
    rw [writer_update (by rw [hcalled]; rfl)]
    exact h.writer i
  history := fun i => by
    have hsym : x.task.symbolId ≠ symbolOf i := by
      intro heq
      rw [heq] at hseeded
      exact hseeded (symbolOf_lt i)
    simp only [messages]
    rw [messages_concat,if_neg hsym]
    rw [pending_update (by rw [hcalled]; rfl)]
    exact h.history i

/-- A message of a seeded symbol changes the symbol's book, whose snapshot is now to be
published. -/
theorem Inv.apply (h : Inv ops hash s) {draining : Bool}
    {x : Submission}
    (hw : s.pool.workers w = .handling draining x) (hcalled : s.handlers w = .called)
    (hseeded : x.task.symbolId.toNat < kMaxSymbols) {book : β}
    (hbook : book = bookAfter ops x.task.symbolId (messages s x.task.symbolId ++ [x.task])) :
    Inv ops hash { s with
      handled := s.handled ++ [(w,x.task)]
      books := Function.update s.books w
        (Function.update (s.books w) x.task.symbolId (some book))
      handlers := Function.update s.handlers w
        (.publish (slotOf x.task.symbolId) (ops.snapshot book)) } where
  pool := h.pool
  routes := h.routes
  table := h.table
  writers := h.writers
  running := by
    refine h.running.set hw (fun i hi => ?_) nofun
    cases hi
    exact (symbolOf_slotOf hseeded).symm
  books := fun v sym => by
    by_cases hsym : x.task.symbolId = sym
    · subst hsym
      simp only [messages]
      rw [messages_concat,if_pos rfl,h.handling hw]
      rcases eq_or_ne v w with rfl | hne
      · rw [Function.update_self,Function.update_self,if_pos ⟨hseeded,rfl⟩,hbook]
      · have hold := h.books v x.task.symbolId
        rw [h.handling hw,if_neg fun hand => hne hand.2.symm] at hold
        rw [Function.update_of_ne hne,hold,if_neg fun hand => hne hand.2.symm]
    · refine Eq.trans ?_ (h.books_other hsym)
      simp only
      rcases eq_or_ne v w with rfl | hne
      · rw [Function.update_self,Function.update_of_ne (Ne.symm hsym)]
      · rw [Function.update_of_ne hne]
  writer := fun i => by
    rw [writer_update (by rw [hcalled]; rfl)]
    exact h.writer i
  history := fun i => by
    have hold := h.history i
    simp only [messages]
    rw [messages_concat]
    by_cases hsym : x.task.symbolId = symbolOf i
    · have hi : slotOf x.task.symbolId = i := by rw [hsym,slotOf_symbolOf]
      have howner : owner hash i = w := by
        rw [owner,← hsym]
        exact h.handling hw
      rw [howner,hcalled] at hold
      rw [if_pos hsym,snapshots_concat,← hold,howner,Function.update_self,hbook,← hsym]
      simp [Handler.pending,hi]
    · have hi : slotOf x.task.symbolId ≠ i := by
        rintro rfl
        exact hsym (symbolOf_slotOf hseeded).symm
      rw [if_neg hsym]
      refine Eq.trans ?_ hold
      rw [pending_update]
      rw [hcalled]
      exact Handler.pending_of_ne fun heq => hi (Option.some.inj heq)

theorem Inv.process (h : Inv ops hash s) {draining : Bool} {x : Submission}
    (hw : s.pool.workers w = .handling draining x) (hcalled : s.handlers w = .called) :
    Inv ops hash (processMarketData ops s w x.task) := by
  have hbooks := h.books w x.task.symbolId
  by_cases hseeded : x.task.symbolId.toNat < kMaxSymbols
  · rw [if_pos ⟨hseeded,h.handling hw⟩] at hbooks
    rw [processMarketData_some hbooks]
    refine h.apply hw hcalled hseeded ?_
    rw [bookAfter,bookAfter,List.foldl_concat]
  · rw [if_neg fun hand => hseeded hand.1] at hbooks
    rw [processMarketData_none hbooks]
    exact h.drop hw hcalled hseeded

theorem Inv.read (h : Inv ops hash s) {slot : Fin kMaxSymbols} {r : ρ}
    {b : SeqLock.ReaderAction n} {u : SeqLock.State n ω ρ}
    (hstep : SeqLock.stepReader (s.table slot) r ((s.table slot).readers r) b = some u) :
    Inv ops hash { s with table := Function.update s.table slot u } := by
  obtain ⟨-,-,hwriter,hwritten⟩ := SeqLock.stepReader_frame hstep
  exact { h with
    table := fun i => by
      simp only
      rcases eq_or_ne i slot with rfl | hne
      · rw [Function.update_self]
        exact (h.table i).next (a := .reader r b) trivial hstep
      · rw [Function.update_of_ne hne]
        exact h.table i
    writer := fun i => by
      rw [ThreadPool.update_unseen SeqLock.State.writer hwriter]
      exact h.writer i
    history := fun i => by
      rw [ThreadPool.update_unseen SeqLock.State.written hwritten]
      exact h.history i }

theorem Effect.inv (h : Inv ops hash s) {actor : Option (Fin kNumBookWorkers)}
    (heffect : Effect ops hash s actor t) : Inv ops hash t := by
  cases heffect with
  | pool hstep hidle hroute => exact h.stepPool hstep hidle hroute
  | process hw hcalled => exact h.process hw hcalled
  | publish hw hstep => exact h.publish hw hstep
  | access hw hstep => exact h.access hw hstep
  | finish _ hreturning hstep => exact h.finish hreturning hstep
  | read hstep => exact h.read hstep

theorem reachable_inv (h : Transition.Reachable (step ops hash) (start ops hash) s) :
    Inv ops hash s :=
  Transition.ReachableBy.invariant start_inv
    (fun _ _ _ hs _ hstep => (step_effect hstep).inv hs) h

/-! ### Every run -/

/-- What a slot has shown is what its symbol's messages have made of the book. -/
theorem Inv.version_eq (h : Inv ops hash s) {i : Fin kMaxSymbols} {k : ℕ}
    (hk : k ≤ (s.table i).written.length) : k ≤ (messages s (symbolOf i)).length ∧
      SeqLock.version (fun _ => 0) (s.table i).written k =
        published ops (symbolOf i) ((messages s (symbolOf i)).take k) := by
  have hhistory := h.history i
  have hle : k ≤ (messages s (symbolOf i)).length := by
    have hlength := congrArg List.length hhistory
    rw [List.length_append,snapshots_length] at hlength
    omega
  refine ⟨hle,?_⟩
  rw [← version_snapshots (symbolOf i) hle,← hhistory,SeqLock.version_append _ hk]

/-- A step that is not a worker's on a message of a seeded symbol. -/
theorem Inv.unseeded (h : Inv ops hash s) {actor : Option (Fin kNumBookWorkers)}
    (heffect : Effect ops hash s actor t)
    (hunseeded : ∀ w draining x, actor = some w → s.pool.workers w = .handling draining x →
      kMaxSymbols ≤ x.task.symbolId.toNat) :
    t.books = s.books ∧ ∀ i, (t.table i).seq = (s.table i).seq ∧
      (t.table i).payload = (s.table i).payload := by
  have hbusy : ∀ w slot, actor = some w → (s.handlers w).slot ≠ some slot := by
    intro w slot hactor hslot
    obtain ⟨draining,x,hx,hsym⟩ := h.running.slots w slot hslot
    have hlarge := hunseeded w draining x hactor hx
    rw [hsym] at hlarge
    exact absurd (symbolOf_lt slot) (not_lt.mpr hlarge)
  cases heffect with
  | pool _ _ _ => exact ⟨rfl,fun _ => ⟨rfl,rfl⟩⟩
  | finish _ _ _ => exact ⟨rfl,fun _ => ⟨rfl,rfl⟩⟩
  | @process w draining x hw _ =>
    have hbooks := h.books w x.task.symbolId
    rw [if_neg fun hand => absurd hand.1 (not_lt.mpr (hunseeded w draining x rfl hw))] at hbooks
    rw [processMarketData_none hbooks]
    exact ⟨rfl,fun _ => ⟨rfl,rfl⟩⟩
  | @publish w slot snap u hw _ => exact absurd (by rw [hw]; rfl) (hbusy w slot rfl)
  | @access w slot pc b u hw _ => exact absurd (by rw [hw]; rfl) (hbusy w slot rfl)
  | read hstep =>
    obtain ⟨hseq,hpayload,-,-⟩ := SeqLock.stepReader_frame hstep
    exact ⟨rfl,fun i => ⟨ThreadPool.update_unseen SeqLock.State.seq hseq i,
      ThreadPool.update_unseen SeqLock.State.payload hpayload i⟩⟩

/-- What the snapshot table promises. -/
structure Published (ops : BookOps n ω β) (hash : UInt32 → UInt64) (s : State n ω β ρ) :
    Prop where
  single_writer : ∀ i, ∀ w ∈ s.writers i, w = workerForKey hash (symbolOf i)
  /-- A read returns the book after a prefix of its symbol's messages, or zero before them. -/
  real : ∀ i, (messages s (symbolOf i)).length < 2^63 → ∀ res ∈ (s.table i).results,
    res.latest ≤ (messages s (symbolOf i)).length ∧ res.value = fun j =>
      some (published ops (symbolOf i) ((messages s (symbolOf i)).take res.latest) j)
  /-- No reader goes back to a shorter one. -/
  forward : ∀ i, (messages s (symbolOf i)).length < 2^63 → (s.table i).results.Pairwise
    fun res res' => res.reader = res'.reader → res.latest ≤ res'.latest
  /-- Only a worker on a message of a seeded symbol changes a book or a slot. -/
  unseeded : ∀ a t, step ops hash s a = some t →
    (∀ w draining x, a.actor = some w → s.pool.workers w = .handling draining x →
      kMaxSymbols ≤ x.task.symbolId.toNat) →
    t.books = s.books ∧ ∀ i, (t.table i).seq = (s.table i).seq ∧
      (t.table i).payload = (s.table i).payload

/-- In every run what readers see of a symbol with fewer than `2^63` messages are states of
its book, in their order. -/
theorem run_publishes {as : List (Action n ω ρ)}
    (hrun : Transition.run (step ops hash) (start ops hash) as = some s) :
    Published ops hash s := by
  have h := reachable_inv (Transition.reachable_iff_run.mpr ⟨as,hrun⟩)
  have hlocks : ∀ i, (messages s (symbolOf i)).length < 2^63 →
      SeqLock.Inv (fun _ => 0) (s.table i) := by
    intro i hb
    refine SeqLock.reachable_inv (h.table i) ?_
    exact (h.version_eq le_rfl).1.trans_lt hb
  exact {
    single_writer := h.writers
    real := fun i hb res hres => by
      obtain ⟨hle,hvalue⟩ := (hlocks i hb).results res hres
      obtain ⟨hcount,hversion⟩ := h.version_eq hle
      refine ⟨hcount,?_⟩
      rw [hvalue,hversion]
    forward := fun i hb => (hlocks i hb).ordered
    unseeded := fun a t hstep hunseeded => h.unseeded (step_effect hstep) hunseeded }

end Invariant

/-! ### One message at a time -/

section Rounds

variable {sym : UInt32} {sequence : UInt64} {payload : List UInt8} {x : Submission}

/-- A datagram whose submit nothing interrupts. -/
def receiveAlone (sym : UInt32) (sequence : UInt64) (payload : List UInt8) :
    List (Action n ω ρ) :=
  .receive sym sequence payload :: List.replicate 6 (.push false)

theorem run_receiveAlone {pool : Pool}
    (hrun : Transition.run (ThreadPool.step layout hash) s.pool
      (ThreadPool.submitAlone () sym (makeTask sym sequence payload)) = some pool) :
    Transition.run (step ops hash) s (receiveAlone sym sequence payload) =
      some { s with pool } := by
  have hsplit : ThreadPool.submitAlone () sym (makeTask sym sequence payload) =
      .submit () (.byKey sym) (makeTask sym sequence payload) ::
        List.replicate 6 (.push () false) := rfl
  rw [hsplit,Transition.run_cons] at hrun
  obtain ⟨called,hcall,hpush⟩ := Option.bind_eq_some_iff.mp hrun
  have hreceive : step ops hash s (.receive sym sequence payload) =
      some { s with pool := called } := by
    simp only [step,stepPool,hcall,Option.map_some]
  rw [receiveAlone,Transition.run_cons,hreceive,Option.bind_some]
  have hlift : ∀ pool pool', True →
      ThreadPool.step layout hash pool (.push () false) = some pool' →
      step ops hash { s with pool } (.push false) = some { s with pool := pool' } := by
    intro pool pool' _ hpool
    simp only [step,stepPool,hpool,Option.map_some]
  exact Transition.run_embed (fun pool => { s with pool }) (fun _ => True)
    (fun _ hfalse => absurd trivial hfalse) hlift hpush trivial

theorem step_worker_pool {pool : Pool}
    (hidle : ∀ draining x, s.pool.workers w ≠ .handling draining x)
    (hstep : ThreadPool.step layout hash s.pool (.worker w.val) = some pool) :
    step ops hash s (.worker w) = some { s with pool } := by
  simp only [step,stepWorker,stepPool,hstep,Option.map_some]

/-- The accesses of a worker's `try_pop` before the last one. -/
theorem run_popping {k : ℕ} {q : MpscQueue.State queueCapacity Unit Submission}
    (hw : w.val < layout.numWorkers) (hpc : s.pool.workers w = .popping false)
    (hrun : Transition.run MpscQueue.step (s.pool.queues w) (List.replicate k (.pop .step)) =
      some q) (hgo : ∀ out, q.popper ≠ .returned out) :
    Transition.run (step ops hash) s (List.replicate k (.worker w)) =
      some { s with pool := { s.pool with queues := Function.update s.pool.queues w q } } := by
  have hembed : Transition.run (step ops hash) { s with
        pool := { s.pool with queues := Function.update s.pool.queues w (s.pool.queues w) } }
      (List.replicate k (.worker w)) = _ :=
    Transition.run_embed (fun q => { s with
        pool := { s.pool with queues := Function.update s.pool.queues w q } }) _
      (fun q => ThreadPool.popper_dead) (fun q q' hgo hq => by
        have hstep : ThreadPool.step layout hash
            { s.pool with queues := Function.update s.pool.queues w q } (.worker w.val) = _ :=
          ThreadPool.step_pop_go hw hpc (by simpa only [Function.update_self] using hq) hgo
        rw [step_worker_pool (by simp only [hpc]; nofun) hstep]
        simp only [Function.update_idem]) hrun hgo
  simpa only [Function.update_eq_self] using hembed

/-- From the test of a worker to the call of its handler. -/
def takeAlone (w : Fin kNumBookWorkers) : List (Action n ω ρ) :=
  .worker w :: (List.replicate 2 (.worker w) ++ (List.replicate 3 (.worker w) ++ [.worker w]))

theorem run_takeAlone (hw : w.val < layout.numWorkers) (htest : s.pool.workers w = .test)
    (hstop : s.pool.stopRequested w = false)
    (hidle : (s.pool.queues w).popper = .idle ∨ ∃ out, (s.pool.queues w).popper = .returned out)
    (hready : (s.pool.queues w).mem.seq (queueCapacity.slot (s.pool.queues w).consumer) =
      (s.pool.queues w).consumer+1)
    (hlive : (s.pool.queues w).mem.storage (queueCapacity.slot (s.pool.queues w).consumer) =
      .live x) :
    Transition.run (step ops hash) s (takeAlone w) = some { s with
      pool := { s.pool with
        queues := Function.update s.pool.queues w (MpscQueue.popped (s.pool.queues w) x)
        workers := Function.update s.pool.workers w (.handling false x)
        begun := Function.update s.pool.begun w (s.pool.begun w ++ [x]) } } := by
  have htested : ThreadPool.step layout hash s.pool (.worker w.val) = _ :=
    ThreadPool.step_test hw htest hstop hidle
  rw [takeAlone,Transition.run_cons,step_worker_pool (by simp only [htest]; nofun) htested,
    Option.bind_some]
  have hlook := MpscQueue.run_look (s := { s.pool.queues w with popper := .loadTail }) rfl hready
  refine Transition.run_trans (run_popping hw (Function.update_self ..)
    (by simpa only [Function.update_self] using hlook) (by simp)) ?_
  have htake := MpscQueue.run_take
    (s := { s.pool.queues w with popper := .move (s.pool.queues w).consumer }) rfl hlive
  refine Transition.run_trans (run_popping hw (Function.update_self ..)
    (by simpa only [Function.update_self] using htake) (by simp)) ?_
  have hreturn : ThreadPool.step layout hash { s.pool with
      queues := Function.update s.pool.queues w { s.pool.queues w with
        mem := { (s.pool.queues w).mem with
          seq := Function.update (s.pool.queues w).mem.seq
            (queueCapacity.slot (s.pool.queues w).consumer)
            ((s.pool.queues w).consumer+UInt64.ofNat queueCapacity.n)
          storage := Function.update (s.pool.queues w).mem.storage
            (queueCapacity.slot (s.pool.queues w).consumer) .raw }
        popper := .advance (s.pool.queues w).consumer x
        released := (s.pool.queues w).released+1 }
      workers := Function.update s.pool.workers w (.popping false) } (.worker w.val) = _ :=
    ThreadPool.step_pop_some hw (Function.update_self ..)
      (by simpa only [Function.update_self] using MpscQueue.step_advance rfl) rfl
  rw [Transition.run_cons]
  simp only [Function.update_idem] at hreturn ⊢
  rw [step_worker_pool (by simp only [Function.update_self]; nofun) hreturn]
  rfl

theorem step_process (hw : s.pool.workers w = .handling false x)
    (hcalled : s.handlers w = .called) :
    step ops hash s (.worker w) = some (processMarketData ops s w x.task) := by
  simp only [step,stepWorker,hw,hcalled]

theorem step_finish (hlt : w.val < layout.numWorkers)
    (hw : s.pool.workers w = .handling false x) (hreturning : s.handlers w = .returning) :
    step ops hash s (.worker w) = some { s with
      pool := { s.pool with
        workers := Function.update s.pool.workers w .test
        handled := Function.update s.pool.handled w (s.pool.handled w ++ [x]) }
      handlers := Function.update s.handlers w .called } := by
  have hpool : ThreadPool.step layout hash s.pool (.worker w.val) = _ :=
    ThreadPool.step_worker hlt
  rw [hw] at hpool
  simp only [step,stepWorker,hw,hreturning,stepPool,hpool,ThreadPool.workerLoop,Option.map_some]
  rfl

variable {ops : BookOps 2 ω β} {s : State 2 ω β ρ}

/-- The publication of a snapshot of two words. -/
def showAlone (w : Fin kNumBookWorkers) : List (Action 2 ω ρ) :=
  [.worker w,.write w (.storeOdd (List.finRange 2)),.write w .copyWord,.write w .copyWord,
    .write w .storeEven]

theorem run_showAlone (hw : s.pool.workers w = .handling false x) {slot : Fin kMaxSymbols}
    {snap : SeqLock.Payload 2 ω} (hpublish : s.handlers w = .publish slot snap) :
    Transition.run (step ops hash) s (showAlone w) = some { s with
      table := Function.update s.table slot { s.table slot with
        seq := (s.table slot).seq+2
        payload := snap
        writer := .idle
        written := (s.table slot).written ++ [snap] }
      handlers := Function.update s.handlers w .returning
      writers := Function.update s.writers slot (s.writers slot ++ List.replicate 5 w) } := by
  have hpayload : ∀ payload : SeqLock.Payload 2 ω,
      Function.update (Function.update payload 0 (snap 0)) 1 (snap 1) = snap := by
    intro payload
    funext i
    fin_cases i <;> rfl
  have horder : ∀ i, i ∈ List.finRange 2 := List.mem_finRange
  have hrange : List.finRange 2 = [0,1] := rfl
  simp [showAlone,step,stepWorker,stepWrite,writeSlot,wrote,SeqLock.stepWriter,hw,hpublish,
    Handler.resume,hrange,hpayload,List.replicate]

/-- A call of the handler, to its return. -/
def handleAlone (w : Fin kNumBookWorkers) : List (Action 2 ω ρ) :=
  .worker w :: (showAlone w ++ [.worker w])

theorem run_handleAlone (hlt : w.val < layout.numWorkers)
    (hw : s.pool.workers w = .handling false x) (hcalled : s.handlers w = .called) {book : β}
    (hbook : s.books w x.task.symbolId = some book) {next : β}
    (hnext : applyMessage ops book x.task = next) {slot : Fin kMaxSymbols}
    (hslot : slotOf x.task.symbolId = slot) :
    Transition.run (step ops hash) s (handleAlone w) = some { s with
      pool := { s.pool with
        workers := Function.update s.pool.workers w .test
        handled := Function.update s.pool.handled w (s.pool.handled w ++ [x]) }
      books := Function.update s.books w
        (Function.update (s.books w) x.task.symbolId (some next))
      handlers := Function.update s.handlers w .called
      table := Function.update s.table slot { s.table slot with
        seq := (s.table slot).seq+2
        payload := ops.snapshot next
        writer := .idle
        written := (s.table slot).written ++ [ops.snapshot next] }
      handled := s.handled ++ [(w,x.task)]
      writers := Function.update s.writers slot (s.writers slot ++ List.replicate 5 w) } := by
  rw [handleAlone,Transition.run_cons,step_process hw hcalled,Option.bind_some,
    processMarketData_some hbook,hnext,hslot]
  refine Transition.run_trans (run_showAlone (x := x) ?_ (Function.update_self ..)) ?_
  · exact hw
  · rw [Transition.run_cons,step_finish (x := x) hlt ?_ (Function.update_self ..)]
    · simp only [Function.update_idem]
      rfl
    · exact hw

end Rounds

section Wrap

/-- A book that counts the changes made to it. -/
def countOps : BookOps 2 ℕ ℕ where
  new _ := 0
  onAdd book _ _ _ _ := (book+1,true)
  onCancel book _ := book+1
  onExecute book _ _ := book+1
  snapshot book := fun _ => book

/-- A hash that is the key. -/
def spread : UInt32 → UInt64 := UInt32.toUInt64

def firstWorker : Fin kNumBookWorkers := ⟨0,by decide⟩

def firstSlot : Fin kMaxSymbols := ⟨0,by decide⟩

/-- A datagram that cancels an order. -/
def cancelDatagram : List UInt8 := [( 'X').toUInt8]

/-- A message of symbol 0 is received and handled. -/
def round : List (Action 2 ℕ Unit) :=
  receiveAlone 0 0 cancelDatagram ++ (takeAlone firstWorker ++ handleAlone firstWorker)

theorem applyMessage_cancel (book : ℕ) :
    applyMessage countOps book (makeTask 0 0 cancelDatagram) = book+1 := rfl

theorem target_first (rr : UInt64) :
    ThreadPool.target layout spread rr (.byKey 0) = some firstWorker := rfl

/-- After `k` messages of symbol 0 were handled one by one, with a reader of its slot at `pc`. -/
structure Resting (pc : SeqLock.Reader 2 ℕ) (k : ℕ) (s : State 2 ℕ ℕ Unit) : Prop where
  queue : MpscQueue.Calm k () (s.pool.queues firstWorker)
  calling : s.pool.calling () = none
  worker : s.pool.workers firstWorker = .test
  stop : s.pool.stopRequested firstWorker = false
  handler : s.handlers firstWorker = .called
  book : s.books firstWorker 0 = some k
  seq : (s.table firstSlot).seq = UInt64.ofNat (2*k)
  payload : (s.table firstSlot).payload = fun _ => k
  reader : (s.table firstSlot).readers () = pc

variable {pc : SeqLock.Reader 2 ℕ} {k : ℕ} {s : State 2 ℕ ℕ Unit}

theorem Resting.next (h : Resting pc k s) :
    ∃ s', Transition.run (step countOps spread) s round = some s' ∧ Resting pc (k+1) s' := by
  have hsubmit := ThreadPool.run_submitAlone layout spread (makeTask 0 0 cancelDatagram) rfl
    (target_first s.pool.rr) h.calling h.queue.producer h.queue.room
  generalize hx : (⟨s.pool.submitted.length,(),.byKey 0,firstWorker,
    makeTask 0 0 cancelDatagram⟩ : Submission) = x at hsubmit
  have htask : x.task = makeTask 0 0 cancelDatagram := by rw [← hx]
  obtain ⟨hready,hlive⟩ :=
    MpscQueue.pushed_ready (h.queue.consumer.trans h.queue.head.symm) () x
  have hlt : firstWorker.val < layout.numWorkers := by decide
  have hbook : s.books firstWorker x.task.symbolId = some k := by
    rw [htask]
    exact h.book
  have hnext : applyMessage countOps k x.task = k+1 := by rw [htask,applyMessage_cancel]
  have hslot : slotOf x.task.symbolId = firstSlot := by
    rw [htask]
    rfl
  -- the pool after the submit, and when the handler is called
  obtain ⟨pool,hpool⟩ : ∃ pool : Pool, pool = { s.pool with
      queues := Function.update s.pool.queues firstWorker
        (MpscQueue.pushed (s.pool.queues firstWorker) () x)
      submitted := s.pool.submitted ++ [x]
      accepted := s.pool.accepted ++ [x] } := ⟨_,rfl⟩
  rw [← hpool] at hsubmit
  have hreceive : Transition.run (step countOps spread) s (receiveAlone 0 0 cancelDatagram) =
      some { s with pool } := run_receiveAlone hsubmit
  have hqueue : pool.queues firstWorker =
      MpscQueue.pushed (s.pool.queues firstWorker) () x := by
    simp only [hpool,Function.update_self]
  obtain ⟨pool',hpool'⟩ : ∃ pool' : Pool, pool' = { pool with
      queues := Function.update pool.queues firstWorker
        (MpscQueue.popped (pool.queues firstWorker) x)
      workers := Function.update pool.workers firstWorker (.handling false x)
      begun := Function.update pool.begun firstWorker (pool.begun firstWorker ++ [x]) } := ⟨_,rfl⟩
  have htake : Transition.run (step countOps spread) { s with pool } (takeAlone firstWorker) =
      some { s with pool := pool' } := by
    rw [hpool']
    refine run_takeAlone hlt ?_ ?_ ?_ ?_ ?_
    · rw [hpool]
      exact h.worker
    · rw [hpool]
      exact h.stop
    · rw [hqueue]
      exact h.queue.popper
    · rw [hqueue]
      exact hready
    · rw [hqueue]
      exact hlive
  have hhandling : pool'.workers firstWorker = .handling false x := by
    simp only [hpool',Function.update_self]
  have hhandle : Transition.run (step countOps spread) { s with pool := pool' }
      (handleAlone firstWorker) = _ :=
    run_handleAlone (s := { s with pool := pool' }) hlt hhandling h.handler hbook hnext hslot
  refine ⟨_,Transition.run_trans hreceive (Transition.run_trans htake hhandle),?_⟩
  have hseq : UInt64.ofNat (2*k)+2 = UInt64.ofNat (2*(k+1)) := (UInt64.ofNat_add (2*k) 2).symm
  exact {
    queue := by
      rw [hpool',hqueue]
      simp only [Function.update_self]
      exact h.queue.next x
    calling := by
      rw [hpool',hpool]
      exact h.calling
    worker := by simp only [Function.update_self]
    stop := by
      rw [hpool',hpool]
      exact h.stop
    handler := by simp only [Function.update_self]
    book := by
      have hsym : x.task.symbolId = 0 := by rw [htask]; rfl
      simp only [Function.update_self,hsym]
    seq := by
      simp only [Function.update_self]
      rw [h.seq,hseq]
    payload := by
      simp only [Function.update_self]
      rfl
    reader := by
      simp only [Function.update_self]
      exact h.reader }

theorem Resting.rounds (h : Resting pc k s) (m : ℕ) :
    ∃ s', Transition.run (step countOps spread) s (List.replicate m round).flatten = some s' ∧
      Resting pc (k+m) s' :=
  Transition.run_rounds (Resting pc) (fun _ _ hs => hs.next) m h

theorem start_resting : Resting .idle 0 (start countOps spread) where
  queue := MpscQueue.start_calm
  calling := rfl
  worker := rfl
  stop := rfl
  handler := rfl
  book := by
    have howner : workerForKey spread 0 = firstWorker := rfl
    simp only [start]
    rw [seed_eq,if_pos ⟨by decide,howner⟩]
    rfl
  seq := rfl
  payload := rfl
  reader := rfl

/-- A reader of the slot of symbol 0 takes a step. -/
theorem Resting.step_read (h : Resting pc k s) {a : SeqLock.ReaderAction 2}
    {t : SeqLock.State 2 ℕ Unit} (hstep : SeqLock.stepReader (s.table firstSlot) () pc a = some t) :
    step countOps spread s (.read firstSlot () a) =
      some { s with table := Function.update s.table firstSlot t } := by
  simp only [step,h.reader,hstep,Option.map_some]

/-- What a step of the reader leaves as it was. -/
theorem Resting.set_reader (h : Resting pc k s) (pc' : SeqLock.Reader 2 ℕ) :
    Resting pc' k { s with
      table := Function.update s.table firstSlot ((s.table firstSlot).setReader () pc') } :=
  { h with
    seq := by
      simp only [Function.update_self]
      exact h.seq
    payload := by
      simp only [Function.update_self]
      exact h.payload
    reader := by simp only [Function.update_self,SeqLock.State.setReader] }

/-- A word of the payload is copied. -/
theorem Resting.step_copy {latest : ℕ} {s₀ : UInt64} {i : Fin 2} {todo : List (Fin 2)}
    {out : Fin 2 → Option ℕ} (h : Resting (.copying .read s₀ latest (i :: todo) out) k s) :
    ∃ s', step countOps spread s (.read firstSlot () .copyWord) = some s' ∧
      Resting (.copying .read s₀ latest todo (Function.update out i (some k))) k s' := by
  refine ⟨_,h.step_read rfl,?_⟩
  rw [h.payload]
  exact h.set_reader _

/-- The last load finds the sequence number of the first, and the call returns. -/
theorem Resting.step_return {latest : ℕ} {out : Fin 2 → Option ℕ}
    (h : Resting (.copying .read (UInt64.ofNat (2*k)) latest [] out) k s)
    (heven : SeqLock.odd (UInt64.ofNat (2*k)) = false) :
    ∃ s', step countOps spread s (.read firstSlot () .loadSecond) = some s' ∧
      ∃ res ∈ (s'.table firstSlot).results, res.value = out := by
  have hload : SeqLock.stepReader (s.table firstSlot) ()
      (.copying .read (UInt64.ofNat (2*k)) latest [] out) .loadSecond =
        some ((s.table firstSlot).returns () out latest) := by
    rw [← h.seq] at heven ⊢
    simp [SeqLock.stepReader,heven]
  refine ⟨_,h.step_read hload,⟨(),out,latest⟩,?_,rfl⟩
  simp only [Function.update_self]
  exact List.mem_append_right _ (List.mem_singleton_self _)

/-- From the call of `read` through its first load. -/
theorem Resting.run_call (h : Resting .idle k s) :
    ∃ s' latest, Transition.run (step countOps spread) s
        [.read firstSlot () (.call .read),.read firstSlot () (.loadFirst (List.finRange 2))] =
          some s' ∧
      Resting (.copying .read (UInt64.ofNat (2*k)) latest [0,1] fun _ => none) k s' := by
  have hcall : SeqLock.stepReader (s.table firstSlot) () .idle (.call .read) =
      some ((s.table firstSlot).setReader () (.first .read)) := rfl
  have hcalled := h.set_reader (.first .read)
  obtain ⟨s₁,hs₁⟩ : ∃ s₁, s₁ = { s with
      table := Function.update s.table firstSlot
        ((s.table firstSlot).setReader () (.first .read)) } := ⟨_,rfl⟩
  rw [← hs₁] at hcalled
  have hload : SeqLock.stepReader (s₁.table firstSlot) () (.first .read)
      (.loadFirst (List.finRange 2)) =
      some ((s₁.table firstSlot).setReader () (.copying .read (s₁.table firstSlot).seq
        (s₁.table firstSlot).written.length [0,1] fun _ => none)) := by
    have hrange : List.finRange 2 = [0,1] := rfl
    simp [SeqLock.stepReader,hrange]
  have hnext := hcalled.set_reader (.copying .read (s₁.table firstSlot).seq
    (s₁.table firstSlot).written.length [0,1] fun _ => none)
  rw [hcalled.seq] at hnext
  refine ⟨_,_,?_,hnext⟩
  rw [Transition.run_cons,h.step_read hcall,Option.bind_some,← hs₁,Transition.run_cons,
    hcalled.step_read hload,hcalled.seq]
  rfl

/-- A message is handled and its snapshot read. -/
theorem run_publishes_read : ∃ as s, Transition.run (step countOps spread)
      (start countOps spread : State 2 ℕ ℕ Unit) as = some s ∧
    (∃ res ∈ (s.table firstSlot).results, res.value = fun _ => some 1) ∧
    Published countOps spread s := by
  obtain ⟨s₁,hround,h₁⟩ := start_resting.next
  obtain ⟨s₂,latest,hcall,h₂⟩ := h₁.run_call
  obtain ⟨s₃,hfirst,h₃⟩ := h₂.step_copy
  obtain ⟨s₄,hsecond,h₄⟩ := h₃.step_copy
  obtain ⟨s₅,hreturn,res,hres,hvalue⟩ := h₄.step_return (by decide)
  have hread : Transition.run (step countOps spread) s₂ [.read firstSlot () .copyWord,
      .read firstSlot () .copyWord,.read firstSlot () .loadSecond] = some s₅ := by
    simp [hfirst,hsecond,hreturn]
  have hrun := Transition.run_trans hround (Transition.run_trans hcall hread)
  refine ⟨_,s₅,hrun,⟨res,hres,?_⟩,run_publishes hrun⟩
  rw [hvalue]
  funext i
  fin_cases i <;> rfl

/-- A reader is stopped after the first word. -/
def stalledRead : List (Action 2 ℕ Unit) :=
  [.read firstSlot () (.call .read),.read firstSlot () (.loadFirst (List.finRange 2)),
    .read firstSlot () .copyWord]

def resumedRead : List (Action 2 ℕ Unit) :=
  [.read firstSlot () .copyWord,.read firstSlot () .loadSecond]

/-- A reader copies a word, is stopped for `2^63` messages, and goes on: the sequence number
is zero again, and the call returns words of two snapshots. -/
theorem wrapped_sequence_tears : ∃ s, Transition.run (step countOps spread)
      (start countOps spread) (stalledRead ++ ((List.replicate (2^63) round).flatten ++
        resumedRead)) = some s ∧
    ∃ res ∈ (s.table firstSlot).results, ∀ ms,
      res.value ≠ fun j => some (published countOps (symbolOf firstSlot) ms j) := by
  obtain ⟨s₁,latest,hcall,h₁⟩ := start_resting.run_call
  obtain ⟨s₂,hfirst,h₂⟩ := h₁.step_copy
  obtain ⟨s₃,hrounds,h₃⟩ := h₂.rounds (2^63)
  obtain ⟨s₄,hsecond,h₄⟩ := h₃.step_copy
  rw [Nat.zero_add] at h₄
  have hwrapped : UInt64.ofNat (2*0) = UInt64.ofNat (2*2^63) := by decide
  rw [hwrapped] at h₄
  obtain ⟨s₅,hreturn,res,hres,hvalue⟩ := h₄.step_return (by decide)
  have hcopy : Transition.run (step countOps spread) s₁ [.read firstSlot () .copyWord] =
      some s₂ := by simp [hfirst]
  have hresumed : Transition.run (step countOps spread) s₃ resumedRead = some s₅ := by
    simp [resumedRead,hsecond,hreturn]
  have hstalled : Transition.run (step countOps spread) (start countOps spread) stalledRead =
      some s₂ := Transition.run_trans hcall hcopy
  refine ⟨s₅,Transition.run_trans hstalled (Transition.run_trans hrounds hresumed),res,hres,
    fun ms heq => ?_⟩
  rw [hvalue] at heq
  have hconst : ∀ i j, published countOps (symbolOf firstSlot) ms i =
      published countOps (symbolOf firstSlot) ms j := by
    intro i j
    rw [published]
    split <;> rfl
  have hzero : some 0 = some (published countOps (symbolOf firstSlot) ms 0) := congrFun heq 0
  have hone : some (2^63) = some (published countOps (symbolOf firstSlot) ms 1) := congrFun heq 1
  rw [← hconst 0 1,← hzero] at hone
  cases hone

end Wrap

end MdDispatch
end Marketlib
