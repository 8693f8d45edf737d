import Mathlib.Data.List.Basic
import Mathlib.Data.List.Count
import Mathlib.Algebra.Order.Group.Int
import Mathlib.Tactic.Common
import Marketlib.Transition

/-! The handles of the two `OciConnection` classes: that of `ideas/binding`, which keeps raw
pointers, and that of `ideas/new`, whose error handle is in an `OciHandleGuard`. What OCI
answers is an argument of each `connect`; `log` records what was obtained and released, and
handles are told apart by number. -/

namespace Marketlib
namespace OciConnection

inductive Event
  | envCreate (env : Option ℕ)
  | errAlloc (env err : Option ℕ)
  | logon (env svc : Option ℕ)
  | logoff (svc : ℕ)
  | freeErr (err : ℕ)
  | freeEnv (env : ℕ)
  deriving DecidableEq

/-- What `OCILogon2` answers: `OCI_SUCCESS` and `OCI_SUCCESS_WITH_INFO` come with a service
context, and an error does not. -/
structure Logon where
  status : ℤ
  context : Bool
  obtained : status = 0 ∨ status = 1 → context = true
  refused : status < 0 → context = false

/-- Which of the calls of one `connect` return `OCI_SUCCESS`, and what the last one answers. -/
structure Outcomes where
  env : Bool
  err : Bool
  logon : Logon

/-- The members of a class whose `err_` is an `ε`. -/
structure Connection (ε : Type) where
  env : Option ℕ
  err : ε
  svc : Option ℕ
  connected : Bool
  /-- The handles obtained so far. -/
  obtained : ℕ
  log : List Event

namespace Connection

variable {ε : Type}

def add (s : Connection ε) (ev : Event) : Connection ε := { s with log := s.log ++ [ev] }

/-- `OCIEnvCreate(&env_, …)`, and the assignment where it fails. -/
def envCreate (s : Connection ε) (ok : Bool) : Connection ε :=
  if ok then
    { s.add (.envCreate (some s.obtained)) with env := some s.obtained, obtained := s.obtained+1 }
  else { s.add (.envCreate none) with env := none }

/-- `OCILogon2(env_, …, &svc_, …)` -/
def logon (s : Connection ε) (answer : Logon) : Connection ε :=
  if answer.context then
    { s.add (.logon s.env (some s.obtained)) with
      svc := some s.obtained, obtained := s.obtained+1 }
  else s.add (.logon s.env none)

/-- `if (env_) OCIHandleFree(env_, OCI_HTYPE_ENV);` -/
def freeEnv (s : Connection ε) : Connection ε :=
  match s.env with
  | some env => s.add (.freeEnv env)
  | none => s

end Connection

/-! ### The class of `ideas/binding` -/

namespace Raw

abbrev Connection := OciConnection.Connection (Option ℕ)

def fresh : Connection := ⟨none,none,none,false,0,[]⟩

/-- `OCIHandleAlloc(env_, &err_, OCI_HTYPE_ERROR, …)` -/
def errAlloc (s : Connection) (ok : Bool) : Connection :=
  if ok then
    { s.add (.errAlloc s.env (some s.obtained)) with
      err := some s.obtained, obtained := s.obtained+1 }
  else s.add (.errAlloc s.env none)

def logoff (s : Connection) : Connection :=
  match s.svc,s.err with
  | some svc,some _ => s.add (.logoff svc)
  | _,_ => s

def freeErr (s : Connection) : Connection :=
  match s.err with
  | some err => s.add (.freeErr err)
  | none => s

def disconnect (s : Connection) : Connection :=
  { (freeErr (logoff s)).freeEnv with env := none, err := none, svc := none, connected := false }

def connect (s : Connection) (o : Outcomes) : Bool × Connection :=
  let s := s.envCreate o.env
  if !o.env then (false,s)
  else
    let s := errAlloc s o.err
    if !o.err then (false,disconnect s)
    else
      let s := s.logon o.logon
      if o.logon.status ≠ 0 ∧ o.logon.status ≠ 1 then (false,disconnect s)
      else (true,{ s with connected := true })

end Raw

/-! ### The class of `ideas/new` -/

namespace Guarded

/-- The outer `Option` is the `std::optional`, the inner one the guard's pointer. -/
abbrev Connection := OciConnection.Connection (Option (Option ℕ))

def fresh : Connection := ⟨none,none,none,false,0,[]⟩

/-- The guard's destructor, where there is a guard. -/
def dropGuard (s : Connection) : Connection :=
  match s.err with
  | some (some err) => s.add (.freeErr err)
  | _ => s

/-- `err_.emplace(env_)`: the guard before goes, and the constructor of the new one ignores
what `OCIHandleAlloc` returns. -/
def emplace (s : Connection) (ok : Bool) : Connection :=
  let s := dropGuard s
  if ok then
    { s.add (.errAlloc s.env (some s.obtained)) with
      err := some (some s.obtained), obtained := s.obtained+1 }
  else { s.add (.errAlloc s.env none) with err := some none }

def logoff (s : Connection) : Connection :=
  match s.svc,s.err with
  | some svc,some _ => s.add (.logoff svc)
  | _,_ => s

def disconnect (s : Connection) : Connection :=
  { (dropGuard (logoff s)).freeEnv with env := none, err := none, svc := none, connected := false }

def connect (s : Connection) (o : Outcomes) : Bool × Connection :=
  let s := s.envCreate o.env
  if !o.env then (false,s)
  else
    let s := emplace s o.err
    let s := s.logon o.logon
    if o.logon.status < 0 then (false,disconnect s)
    else (true,{ s with connected := true })

end Guarded

/-! ### What a sequence of calls promises -/

inductive Op
  | connect (o : Outcomes)
  | disconnect

/-- A class: its two calls, and its `err()`. -/
structure Methods (ε : Type) where
  fresh : Connection ε
  connect : Connection ε → Outcomes → Bool × Connection ε
  disconnect : Connection ε → Connection ε
  err : Connection ε → Option ℕ

def raw : Methods (Option ℕ) := ⟨Raw.fresh,Raw.connect,Raw.disconnect,Connection.err⟩

def guarded : Methods (Option (Option ℕ)) :=
  ⟨Guarded.fresh,Guarded.connect,Guarded.disconnect,fun s => s.err.join⟩

/-- What was obtained was released once, children before their environment, and nothing else
was released. -/
structure Balanced (log : List Event) : Prop where
  env : ∀ k, .envCreate (some k) ∈ log → log.count (.freeEnv k) = 1
  err : ∀ e k, .errAlloc e (some k) ∈ log → log.count (.freeErr k) = 1
  svc : ∀ e k, .logon e (some k) ∈ log → log.count (.logoff k) = 1
  err_first : ∀ e k, .errAlloc (some e) (some k) ∈ log →
    [Event.freeErr k,.freeEnv e].Sublist log
  svc_first : ∀ e k, .logon (some e) (some k) ∈ log → [Event.logoff k,.freeEnv e].Sublist log
  released_env : ∀ k, .freeEnv k ∈ log → .envCreate (some k) ∈ log
  released_err : ∀ k, .freeErr k ∈ log → ∃ e, .errAlloc e (some k) ∈ log
  released_svc : ∀ k, .logoff k ∈ log → ∃ e, .logon e (some k) ∈ log

namespace Methods

variable {ε : Type} (c : Methods ε)

def next (s : Connection ε) : Op → Connection ε
  | .connect o => (c.connect s o).2
  | .disconnect => c.disconnect s

/-- `connected()` is true only while the three handles are there. -/
def Usable (s : Connection ε) : Prop :=
  s.connected = true → s.env ≠ none ∧ c.err s ≠ none ∧ s.svc ≠ none

/-- No handle, and not connected. -/
def Bare (s : Connection ε) : Prop :=
  s.connected = false ∧ s.env = none ∧ c.err s = none ∧ s.svc = none

def Refuses (s : Connection ε) : Op → Prop
  | .connect o => (c.connect s o).1 = false
  | .disconnect => False

/-- The calls from `s` on keep the promises, and so does the destructor after them. -/
def Keeps (s : Connection ε) : List Op → Prop
  | [] => Balanced (c.disconnect s).log
  | op :: ops => c.Usable (c.next s op) ∧ (c.Refuses s op → c.Bare (c.next s op)) ∧
      Keeps (c.next s op) ops

end Methods

/-! ### Ledgers -/

/-- The handle that an event obtains or releases. -/
def Event.handle : Event → Option ℕ
  | .envCreate x => x
  | .errAlloc _ x => x
  | .logon _ x => x
  | .logoff k => some k
  | .freeErr k => some k
  | .freeEnv k => some k

theorem balanced_nil : Balanced [] := by constructor <;> simp

theorem Balanced.append {l₁ l₂ : List Event} (h₁ : Balanced l₁) (h₂ : Balanced l₂) {n : ℕ}
    (hlow : ∀ ev ∈ l₁, ∀ k, ev.handle = some k → k < n)
    (hhigh : ∀ ev ∈ l₂, ∀ k, ev.handle = some k → n ≤ k) : Balanced (l₁ ++ l₂) := by
  have hcount : ∀ {ob rel : Event} {k : ℕ}, ob.handle = some k → rel.handle = some k →
      (ob ∈ l₁ → l₁.count rel = 1) → (ob ∈ l₂ → l₂.count rel = 1) → ob ∈ l₁ ++ l₂ →
      (l₁ ++ l₂).count rel = 1 := by
    intro ob rel k hob hrel hleft hright hmem
    rw [List.count_append]
    rcases List.mem_append.mp hmem with hmem | hmem
    · have hnone : l₂.count rel = 0 := List.count_eq_zero.mpr fun hin =>
        absurd (hhigh rel hin k hrel) (Nat.not_le_of_lt (hlow ob hmem k hob))
      rw [hleft hmem,hnone]
    · have hnone : l₁.count rel = 0 := List.count_eq_zero.mpr fun hin =>
        absurd (hhigh ob hmem k hob) (Nat.not_le_of_lt (hlow rel hin k hrel))
      rw [hright hmem,hnone]
  exact {
    env := fun k => hcount rfl rfl (h₁.env k) (h₂.env k)
    err := fun e k => hcount rfl rfl (h₁.err e k) (h₂.err e k)
    svc := fun e k => hcount rfl rfl (h₁.svc e k) (h₂.svc e k)
    err_first := fun e k hmem => (List.mem_append.mp hmem).elim
      (fun hmem => (h₁.err_first e k hmem).trans (List.sublist_append_left ..))
      (fun hmem => (h₂.err_first e k hmem).trans (List.sublist_append_right ..))
    svc_first := fun e k hmem => (List.mem_append.mp hmem).elim
      (fun hmem => (h₁.svc_first e k hmem).trans (List.sublist_append_left ..))
      (fun hmem => (h₂.svc_first e k hmem).trans (List.sublist_append_right ..))
    released_env := fun k hmem => List.mem_append.mpr <|
      (List.mem_append.mp hmem).imp (h₁.released_env k) (h₂.released_env k)
    released_err := fun k hmem => (List.mem_append.mp hmem).elim
      (fun hmem => (h₁.released_err k hmem).imp fun _ => List.mem_append_left _)
      (fun hmem => (h₂.released_err k hmem).imp fun _ => List.mem_append_right _)
    released_svc := fun k hmem => (List.mem_append.mp hmem).elim
      (fun hmem => (h₁.released_svc k hmem).imp fun _ => List.mem_append_left _)
      (fun hmem => (h₂.released_svc k hmem).imp fun _ => List.mem_append_right _) }

/-- What one environment goes through, with the handles under it that were obtained. -/
def life (k : ℕ) (err svc : Option ℕ) (tried : Bool) : List Event :=
  .envCreate (some k) :: .errAlloc (some k) err ::
    ((if tried then [.logon (some k) svc] else []) ++ (svc.map Event.logoff).toList ++
      (err.map Event.freeErr).toList ++ [.freeEnv k])

theorem life_balanced (k : ℕ) {err svc : Option ℕ} {tried : Bool}
    (hsvc : svc ≠ none → tried = true) : Balanced (life k err svc tried) := by
  cases svc with
  | none => cases err <;> cases tried <;> constructor <;> simp [life,List.cons_sublist_cons']
  | some s =>
    obtain rfl := hsvc (Option.some_ne_none s)
    cases err <;> constructor <;> simp [life,List.cons_sublist_cons']

/-- A balanced ledger over handles before `n`. -/
structure Settled (log : List Event) (n : ℕ) : Prop where
  balanced : Balanced log
  before : ∀ ev ∈ log, ∀ k, ev.handle = some k → k < n

/-- A balanced stretch over handles from `n` on and before `m`. -/
structure Stretch (l : List Event) (n m : ℕ) : Prop where
  balanced : Balanced l
  le : n ≤ m
  within : ∀ ev ∈ l, ∀ k, ev.handle = some k → n ≤ k ∧ k < m

theorem Settled.append {log l : List Event} {n m : ℕ} (h : Settled log n) (hl : Stretch l n m) :
    Settled (log ++ l) m where
  balanced := h.balanced.append hl.balanced h.before fun ev hev k hk => (hl.within ev hev k hk).1
  before := fun ev hev k hk => (List.mem_append.mp hev).elim
    (fun hev => (h.before ev hev k hk).trans_le hl.le) (fun hev => (hl.within ev hev k hk).2)

theorem stretch_failed (n : ℕ) : Stretch [.envCreate none] n n where
  balanced := by constructor <;> simp
  le := le_rfl
  within := by simp [Event.handle]

/-- The handles are numbered as they are obtained. -/
theorem stretch_life (k : ℕ) {err svc : Option ℕ} {tried : Bool} {m : ℕ} (hm : k < m)
    (hsvc : svc ≠ none → tried = true) (herr : ∀ e ∈ err, k ≤ e ∧ e < m)
    (hs : ∀ e ∈ svc, k ≤ e ∧ e < m) : Stretch (life k err svc tried) k m where
  balanced := life_balanced k hsvc
  le := hm.le
  within := by
    cases err <;> cases svc <;> cases tried <;>
      simp_all [life,Event.handle]

/-! ### The rule for a class -/

section Rule

variable {ε : Type} {hold : Option ℕ → ε}

/-- A connection that holds nothing. -/
def bare (hold : Option ℕ → ε) (n : ℕ) (log : List Event) : Connection ε :=
  ⟨none,hold none,none,false,n,log⟩

/-- A connection that holds three handles, obtained one after the other. -/
def opened (hold : Option ℕ → ε) (k : ℕ) (log : List Event) : Connection ε :=
  ⟨some k,hold (some (k+1)),some (k+2),true,k+3,log ++ [.envCreate (some k),
    .errAlloc (some k) (some (k+1)),.logon (some k) (some (k+2))]⟩

/-- What any call does to the ledger; `freed` tells the environments that it may free. -/
structure Grows (freed : ℕ → Prop) (s t : Connection ε) : Prop where
  log : s.log <+: t.log
  obtained : s.obtained ≤ t.obtained
  env : ∀ k, t.env = some k → k = s.obtained
  frees : ∀ k, .freeEnv k ∈ t.log → .freeEnv k ∈ s.log ∨ freed k

/-- What the two calls of a class do, where `hold` is what `err_` is for a pointer and
`accepts` tells the outcomes that leave three handles or none. -/
structure Lawful (c : Methods ε) (hold : Option ℕ → ε) (accepts : Outcomes → Prop) : Prop where
  fresh : c.fresh = bare hold 0 []
  err : ∀ (s : Connection ε) x, s.err = hold x → c.err s = x
  disconnect_bare : ∀ n log, c.disconnect (bare hold n log) = bare hold n log
  disconnect_opened : ∀ k log, c.disconnect (opened hold k log) =
    bare hold (k+3) (log ++ life k (some (k+1)) (some (k+2)) true)
  connect_bare : ∀ n log o, accepts o → c.connect (bare hold n log) o = (true,opened hold n log) ∨
    ∃ m l, Stretch l n m ∧ c.connect (bare hold n log) o = (false,bare hold m (log ++ l))
  connect_rejected : ∀ n log o, ¬accepts o → ¬c.Usable (c.connect (bare hold n log) o).2
  connect_failed : ∀ s o, o.env = false → c.connect s o = (false,s.envCreate false)
  connect : ∀ s o, Grows (fun k => k = s.obtained) s (c.connect s o).2
  disconnect : ∀ s, Grows (fun k => s.env = some k) s (c.disconnect s)

/-- What the calls from a state on leave behind. -/
inductive Held (hold : Option ℕ → ε) : Connection ε → Prop
  | bare {n log} : Settled log n → Held hold (bare hold n log)
  | opened {k log} : Settled log k → Held hold (opened hold k log)

/-- The environment `k` was obtained, is not held any more and was not released. -/
structure Leaked (k : ℕ) (s : Connection ε) : Prop where
  created : .envCreate (some k) ∈ s.log
  kept : .freeEnv k ∉ s.log
  lost : s.env ≠ some k
  before : k < s.obtained

/-- A `connect` that is made while no environment is held and whose outcome is accepted. -/
def Careful (accepts : Outcomes → Prop) (s : Connection ε) : Op → Prop
  | .connect o => s.env = none ∧ accepts o
  | .disconnect => True

def Methods.step (c : Methods ε) (s : Connection ε) (op : Op) : Option (Connection ε) :=
  some (c.next s op)

variable {c : Methods ε} {accepts : Outcomes → Prop} {s t : Connection ε}

/-- A leaked environment is never seen again. -/
theorem Leaked.grows {freed : ℕ → Prop} {k : ℕ} (h : Leaked k s) (hg : Grows freed s t)
    (hfreed : ¬freed k) : Leaked k t where
  created := hg.log.subset h.created
  kept := fun hmem => (hg.frees k hmem).elim h.kept hfreed
  lost := fun henv => h.before.ne (hg.env k henv)
  before := h.before.trans_le hg.obtained

theorem Lawful.leaked_next (hc : Lawful c hold accepts) {k : ℕ} (h : Leaked k s) (op : Op) :
    Leaked k (c.next s op) := by
  cases op with
  | connect o => exact h.grows (hc.connect s o) h.before.ne
  | disconnect => exact h.grows (hc.disconnect s) h.lost

theorem Lawful.not_keeps (hc : Lawful c hold accepts) {k : ℕ} (h : Leaked k s) (ops : List Op) :
    ¬c.Keeps s ops := by
  induction ops generalizing s with
  | nil =>
    intro hbalanced
    have hlast := h.grows (hc.disconnect s) h.lost
    have hone := hbalanced.env k hlast.created
    rw [List.count_eq_zero.mpr hlast.kept] at hone
    cases hone
  | cons op ops ih => exact fun hkeeps => ih (hc.leaked_next h op) hkeeps.2.2

/-- A `connect` over an environment that is held loses it, or loses it and stays connected. -/
theorem Lawful.connect_opened (hc : Lawful c hold accepts) {k : ℕ} {log : List Event}
    (h : Settled log k) (o : Outcomes) :
    ¬c.Usable (c.connect (opened hold k log) o).2 ∨
      Leaked k (c.connect (opened hold k log) o).2 := by
  cases ho : o.env with
  | false =>
    rw [hc.connect_failed _ o ho]
    exact .inl fun husable => (husable rfl).1 rfl
  | true =>
    have hg := hc.connect (opened hold k log) o
    refine .inr {
      created := hg.log.subset (by simp [opened])
      kept := fun hmem => ?_
      lost := fun henv => ?_
      before := lt_of_lt_of_le (show k < k+3 by omega) hg.obtained }
    · rcases hg.frees k hmem with hmem | hk
      · have hlog : Event.freeEnv k ∈ log := by simpa [opened] using hmem
        exact (h.before _ hlog k rfl).ne rfl
      · exact absurd hk (show k ≠ k+3 by omega)
    · exact absurd (hg.env k henv) (show k ≠ k+3 by omega)

theorem Lawful.usable_bare (hc : Lawful c hold accepts) (n : ℕ) (log : List Event) :
    c.Usable (bare hold n log) ∧ c.Bare (bare hold n log) :=
  ⟨by simp [Methods.Usable,bare],rfl,rfl,hc.err (bare hold n log) none rfl,rfl⟩

theorem Lawful.usable_opened (hc : Lawful c hold accepts) (k : ℕ) (log : List Event) :
    c.Usable (opened hold k log) := by
  intro _
  rw [hc.err (opened hold k log) (some (k+1)) rfl]
  simp [opened]

theorem Settled.life {k : ℕ} {log : List Event} (h : Settled log k) :
    Settled (log ++ life k (some (k+1)) (some (k+2)) true) (k+3) :=
  h.append (stretch_life k (by omega) (by simp) (by simp) (by simp))

/-- A careful call keeps its promises. -/
theorem Lawful.next_careful (hc : Lawful c hold accepts) (h : Held hold s) {op : Op}
    (hop : Careful accepts s op) :
    Held hold (c.next s op) ∧ c.Usable (c.next s op) ∧ (c.Refuses s op → c.Bare (c.next s op)) := by
  cases op with
  | disconnect =>
    have hnext : ∃ n log, Settled log n ∧ c.disconnect s = bare hold n log := by
      cases h with
      | bare h => exact ⟨_,_,h,hc.disconnect_bare ..⟩
      | opened h => exact ⟨_,_,h.life,hc.disconnect_opened ..⟩
    obtain ⟨n,log,hsettled,heq⟩ := hnext
    change Held hold (c.disconnect s) ∧ c.Usable (c.disconnect s) ∧ (False → c.Bare _)
    rw [heq]
    exact ⟨.bare hsettled,(hc.usable_bare n log).1,False.elim⟩
  | connect o =>
    obtain ⟨henv,ho⟩ := hop
    cases h with
    | opened h => cases henv
    | @bare n log h =>
      change Held hold (c.connect _ o).2 ∧ c.Usable (c.connect _ o).2 ∧
        ((c.connect _ o).1 = false → c.Bare (c.connect _ o).2)
      rcases hc.connect_bare n log o ho with heq | ⟨m,l,hl,heq⟩
      · rw [heq]
        exact ⟨.opened h,hc.usable_opened n log,fun hfalse => by cases hfalse⟩
      · rw [heq]
        exact ⟨.bare (h.append hl),(hc.usable_bare m _).1,fun _ => (hc.usable_bare m _).2⟩

/-- A careless one leaves a connection that is not usable, or loses an environment for good. -/
theorem Lawful.next_careless (hc : Lawful c hold accepts) (h : Held hold s) {op : Op}
    (hop : ¬Careful accepts s op) : ¬c.Usable (c.next s op) ∨ ∃ k, Leaked k (c.next s op) := by
  cases op with
  | disconnect => exact absurd trivial hop
  | connect o =>
    cases h with
    | @bare n log h => exact .inl (hc.connect_rejected n log o fun ho => hop ⟨rfl,ho⟩)
    | @opened k log h => exact (hc.connect_opened h o).imp id fun hleak => ⟨k,hleak⟩

/-- Every sequence of calls keeps the promises if and only if each `connect` is careful. -/
theorem Lawful.run_keeps_iff (hc : Lawful c hold accepts) (h : Held hold s) (ops : List Op) :
    c.Keeps s ops ↔ Transition.Admits c.step (Careful accepts) s ops := by
  induction ops generalizing s with
  | nil =>
    refine iff_of_true ?_ trivial
    cases h with
    | bare h =>
      rw [Methods.Keeps,hc.disconnect_bare]
      exact h.balanced
    | opened h =>
      rw [Methods.Keeps,hc.disconnect_opened]
      exact h.life.balanced
  | cons op ops ih =>
    rw [Methods.Keeps,Transition.Admits]
    by_cases hop : Careful accepts s op
    · obtain ⟨hheld,husable,hbare⟩ := hc.next_careful h hop
      have hrest := ih hheld
      constructor
      · rintro ⟨-,-,hkeeps⟩
        refine ⟨hop,fun t ht => ?_⟩
        cases Option.some.inj ht
        exact hrest.mp hkeeps
      · rintro ⟨-,hadmits⟩
        exact ⟨husable,hbare,hrest.mpr (hadmits _ rfl)⟩
    · refine iff_of_false (fun hkeeps => ?_) fun hadmits => hop hadmits.1
      rcases hc.next_careless h hop with hunusable | ⟨k,hleak⟩
      · exact hunusable hkeeps.1
      · exact hc.not_keeps hleak ops hkeeps.2.2

end Rule

/-! ### The two classes -/

section Calls

variable {ε : Type} {s t u : Connection ε}

/-- A call that leaves the environments alone. -/
structure Quiet (s t : Connection ε) : Prop where
  log : s.log <+: t.log
  obtained : s.obtained ≤ t.obtained
  env : t.env = s.env
  frees : ∀ k, .freeEnv k ∈ t.log → .freeEnv k ∈ s.log

theorem Quiet.refl (s : Connection ε) : Quiet s s := ⟨List.prefix_rfl,le_rfl,rfl,fun _ => id⟩

theorem Quiet.trans (h : Quiet s t) (h' : Quiet t u) : Quiet s u :=
  ⟨h.log.trans h'.log,h.obtained.trans h'.obtained,h'.env.trans h.env,
    fun k hmem => h.frees k (h'.frees k hmem)⟩

/-- One event that frees no environment, with what else it changes. -/
theorem Quiet.of_event {ev : Event} (hev : ∀ k, ev ≠ .freeEnv k) (hlog : t.log = s.log ++ [ev])
    (hobtained : s.obtained ≤ t.obtained) (henv : t.env = s.env) : Quiet s t :=
  ⟨hlog ▸ List.prefix_append ..,hobtained,henv,fun k hmem => by
    rw [hlog,List.mem_append,List.mem_singleton] at hmem
    exact hmem.elim id fun heq => absurd heq.symm (hev k)⟩

theorem logon_quiet (s : Connection ε) (answer : Logon) : Quiet s (s.logon answer) := by
  unfold Connection.logon
  split_ifs
  · exact .of_event (by simp) rfl (Nat.le_succ _) rfl
  · exact .of_event (by simp) rfl le_rfl rfl

/-- What ends with `if (env_) OCIHandleFree(env_, OCI_HTYPE_ENV);` and no handle. -/
theorem Quiet.close (h : Quiet s t) (hlog : u.log = t.freeEnv.log)
    (hobtained : u.obtained = t.obtained) (henv : u.env = none) :
    Grows (fun k => s.env = some k) s u := by
  have hfree : t.freeEnv.log = t.log ++ (t.env.map Event.freeEnv).toList := by
    unfold Connection.freeEnv
    cases t.env <;> simp [Connection.add]
  exact {
    log := by
      rw [hlog,hfree]
      exact h.log.trans (List.prefix_append ..)
    obtained := hobtained ▸ h.obtained
    env := fun k hk => by
      rw [henv] at hk
      cases hk
    frees := fun k hmem => by
      rw [hlog,hfree,List.mem_append] at hmem
      refine hmem.imp (h.frees k) fun hmem => ?_
      simpa [h.env,eq_comm] using hmem }

/-- What follows an `OCIEnvCreate` may free the new environment only. -/
theorem Quiet.opens (h : Quiet (s.envCreate true) t) :
    Grows (fun k => k = s.obtained) s t where
  log := (List.prefix_append ..).trans h.log
  obtained := (Nat.le_succ _).trans h.obtained
  env := fun k hk => (Option.some.inj (h.env.symm.trans hk)).symm
  frees := fun k hmem => .inl (by
    simpa [Connection.envCreate,Connection.add] using h.frees k hmem)

theorem Quiet.opens_close (h : Quiet (s.envCreate true) t)
    (hclose : Grows (fun k => t.env = some k) t u) (henv : u.env = none) :
    Grows (fun k => k = s.obtained) s u where
  log := h.opens.log.trans hclose.log
  obtained := h.opens.obtained.trans hclose.obtained
  env := fun k hk => by
    rw [henv] at hk
    cases hk
  frees := fun k hmem => (hclose.frees k hmem).elim (h.opens.frees k)
    fun hk => .inr (h.opens.env k hk)

theorem envCreate_failed (s : Connection ε) :
    Grows (fun k => k = s.obtained) s (s.envCreate false) where
  log := List.prefix_append ..
  obtained := le_rfl
  env := fun k hk => by cases hk
  frees := fun k hmem => .inl (by simpa [Connection.envCreate,Connection.add] using hmem)

end Calls

theorem Raw.disconnect_grows (s : Raw.Connection) :
    Grows (fun k => s.env = some k) s (disconnect s) := by
  have hlogoff : Quiet s (logoff s) := by
    unfold logoff
    split
    · exact .of_event (by simp) rfl le_rfl rfl
    · exact .refl s
  have hfree : Quiet (logoff s) (freeErr (logoff s)) := by
    unfold freeErr
    split
    · exact .of_event (by simp) rfl le_rfl rfl
    · exact .refl _
  exact (hlogoff.trans hfree).close rfl (by unfold disconnect Connection.freeEnv; split <;> rfl) rfl

theorem Raw.connect_grows (s : Raw.Connection) (o : Outcomes) :
    Grows (fun k => k = s.obtained) s (connect s o).2 := by
  cases henv : o.env with
  | false =>
    simp only [connect,henv]
    exact envCreate_failed s
  | true =>
    have halloc : Quiet (s.envCreate true) (errAlloc (s.envCreate true) o.err) := by
      unfold errAlloc
      split_ifs
      · exact .of_event (by simp) rfl (Nat.le_succ _) rfl
      · exact .of_event (by simp) rfl le_rfl rfl
    have hlogon := halloc.trans (logon_quiet _ o.logon)
    simp only [connect,henv,Bool.not_true,Bool.false_eq_true,↓reduceIte]
    split_ifs
    · exact halloc.opens_close (disconnect_grows _) rfl
    · exact hlogon.opens_close (disconnect_grows _) rfl
    · exact ⟨hlogon.opens.log,hlogon.opens.obtained,hlogon.opens.env,hlogon.opens.frees⟩

/-- Where nothing is held, every outcome leaves three handles or none. -/
theorem Raw.connect_bare (n : ℕ) (log : List Event) (o : Outcomes) :
    connect (bare id n log) o = (true,opened id n log) ∨
      ∃ m l, Stretch l n m ∧ connect (bare id n log) o = (false,bare id m (log ++ l)) := by
  cases henv : o.env with
  | false => exact .inr ⟨n,_,stretch_failed n,by
      simp [connect,henv,Connection.envCreate,Connection.add,bare]⟩
  | true =>
    cases herr : o.err with
    | false =>
      refine .inr ⟨n+1,life n none none false,stretch_life n (by omega) (by simp) (by simp)
        (by simp),?_⟩
      simp [connect,henv,herr,Connection.envCreate,Connection.add,bare,errAlloc,disconnect,logoff,
        freeErr,Connection.freeEnv,life]
    | true =>
      by_cases hstatus : o.logon.status = 0 ∨ o.logon.status = 1
      · have hcontext := o.logon.obtained hstatus
        refine .inl ?_
        simp [connect,henv,herr,Connection.envCreate,Connection.add,bare,errAlloc,
          Connection.logon,hcontext,opened,← not_or,hstatus]
      · cases hcontext : o.logon.context with
        | true =>
          refine .inr ⟨n+3,life n (some (n+1)) (some (n+2)) true,stretch_life n (by omega)
            (by simp) (by simp) (by simp),?_⟩
          simp [connect,henv,herr,Connection.envCreate,Connection.add,bare,errAlloc,
            Connection.logon,hcontext,← not_or,hstatus,disconnect,logoff,freeErr,
            Connection.freeEnv,life]
        | false =>
          refine .inr ⟨n+2,life n (some (n+1)) none true,stretch_life n (by omega)
            (by simp) (by simp) (by simp),?_⟩
          simp [connect,henv,herr,Connection.envCreate,Connection.add,bare,errAlloc,
            Connection.logon,hcontext,← not_or,hstatus,disconnect,logoff,freeErr,
            Connection.freeEnv,life]

theorem raw_lawful : Lawful raw id fun _ => True where
  fresh := rfl
  err := fun _ _ h => h
  disconnect_bare := fun _ _ => rfl
  disconnect_opened := fun k log => by
    simp [raw,Raw.disconnect,Raw.logoff,Raw.freeErr,Connection.freeEnv,Connection.add,opened,bare,
      life]
  connect_bare := fun n log o _ => Raw.connect_bare n log o
  connect_rejected := fun _ _ _ h => absurd trivial h
  connect_failed := fun s o ho => by simp [raw,Raw.connect,ho]
  connect := Raw.connect_grows
  disconnect := Raw.disconnect_grows

theorem Guarded.dropGuard_quiet (s : Guarded.Connection) : Quiet s (dropGuard s) := by
  unfold dropGuard
  split
  · exact .of_event (by simp) rfl le_rfl rfl
  · exact .refl s

theorem Guarded.disconnect_grows (s : Guarded.Connection) :
    Grows (fun k => s.env = some k) s (disconnect s) := by
  have hlogoff : Quiet s (logoff s) := by
    unfold logoff
    split
    · exact .of_event (by simp) rfl le_rfl rfl
    · exact .refl s
  exact (hlogoff.trans (dropGuard_quiet _)).close rfl
    (by unfold disconnect Connection.freeEnv; split <;> rfl) rfl

theorem Guarded.connect_grows (s : Guarded.Connection) (o : Outcomes) :
    Grows (fun k => k = s.obtained) s (connect s o).2 := by
  cases henv : o.env with
  | false =>
    simp only [connect,henv]
    exact envCreate_failed s
  | true =>
    have halloc : Quiet (s.envCreate true) (emplace (s.envCreate true) o.err) := by
      refine (dropGuard_quiet _).trans ?_
      unfold emplace
      split_ifs
      · exact .of_event (by simp) rfl (Nat.le_succ _) rfl
      · exact .of_event (by simp) rfl le_rfl rfl
    have hlogon := halloc.trans (logon_quiet _ o.logon)
    simp only [connect,henv,Bool.not_true,Bool.false_eq_true,↓reduceIte]
    split_ifs
    · exact hlogon.opens_close (disconnect_grows _) rfl
    · exact ⟨hlogon.opens.log,hlogon.opens.obtained,hlogon.opens.env,hlogon.opens.frees⟩

/-- A login is only accepted with an error handle, and only with a service context. -/
def Guarded.Accepts (o : Outcomes) : Prop :=
  o.env = true → 0 ≤ o.logon.status → o.err = true ∧ o.logon.context = true

theorem Guarded.connect_bare (n : ℕ) (log : List Event) {o : Outcomes} (ho : Accepts o) :
    connect (bare (Option.map some) n log) o = (true,opened (Option.map some) n log) ∨
      ∃ m l, Stretch l n m ∧ connect (bare (Option.map some) n log) o =
        (false,bare (Option.map some) m (log ++ l)) := by
  cases henv : o.env with
  | false => exact .inr ⟨n,_,stretch_failed n,by
      simp [connect,henv,Connection.envCreate,Connection.add,bare]⟩
  | true =>
    by_cases hstatus : o.logon.status < 0
    · have hcontext := o.logon.refused hstatus
      cases herr : o.err with
      | false =>
        refine .inr ⟨n+1,life n none none true,stretch_life n (by omega) (by simp) (by simp)
          (by simp),?_⟩
        simp [connect,henv,herr,Connection.envCreate,Connection.add,bare,emplace,dropGuard,
          Connection.logon,hcontext,hstatus,disconnect,logoff,Connection.freeEnv,life]
      | true =>
        refine .inr ⟨n+2,life n (some (n+1)) none true,stretch_life n (by omega) (by simp)
          (by simp) (by simp),?_⟩
        simp [connect,henv,herr,Connection.envCreate,Connection.add,bare,emplace,dropGuard,
          Connection.logon,hcontext,hstatus,disconnect,logoff,Connection.freeEnv,life]
    · obtain ⟨herr,hcontext⟩ := ho henv (not_lt.mp hstatus)
      refine .inl ?_
      simp [connect,henv,herr,Connection.envCreate,Connection.add,bare,emplace,dropGuard,
        Connection.logon,hcontext,hstatus,opened]

theorem Guarded.connect_rejected (n : ℕ) (log : List Event) {o : Outcomes} (ho : ¬Accepts o) :
    ¬guarded.Usable (connect (bare (Option.map some) n log) o).2 := by
  obtain ⟨henv,hstatus,hmissing⟩ : o.env = true ∧ 0 ≤ o.logon.status ∧
      ¬(o.err = true ∧ o.logon.context = true) := by simpa [Accepts] using ho
  intro husable
  cases herr : o.err with
  | false =>
    cases hcontext : o.logon.context <;>
      simp [Methods.Usable,guarded,connect,henv,herr,Connection.envCreate,Connection.add,bare,
        emplace,dropGuard,Connection.logon,hcontext,hstatus.not_gt] at husable
  | true =>
    have hcontext : o.logon.context = false := by simpa [herr] using hmissing
    simp [Methods.Usable,guarded,connect,henv,herr,Connection.envCreate,Connection.add,bare,
      emplace,dropGuard,Connection.logon,hcontext,hstatus.not_gt] at husable

theorem guarded_lawful : Lawful guarded (Option.map some) Guarded.Accepts where
  fresh := rfl
  err := fun s x h => by
    change s.err.join = x
    rw [h]
    cases x <;> rfl
  disconnect_bare := fun _ _ => rfl
  disconnect_opened := fun k log => by
    simp [guarded,Guarded.disconnect,Guarded.logoff,Guarded.dropGuard,Connection.freeEnv,
      Connection.add,opened,bare,life]
  connect_bare := fun n log _ ho => Guarded.connect_bare n log ho
  connect_rejected := fun n log _ ho => Guarded.connect_rejected n log ho
  connect_failed := fun s o ho => by simp [guarded,Guarded.connect,ho]
  connect := Guarded.connect_grows
  disconnect := Guarded.disconnect_grows

/-- In either class the handles balance if and only if every `connect` is made while no
environment is held, and in that of `ideas/new` no login is accepted without an error handle or
without a service context. -/
theorem keeps_iff (ops : List Op) :
    (raw.Keeps raw.fresh ops ↔
      Transition.Admits raw.step (Careful fun _ => True) raw.fresh ops) ∧
    (guarded.Keeps guarded.fresh ops ↔
      Transition.Admits guarded.step (Careful Guarded.Accepts) guarded.fresh ops) :=
  ⟨raw_lawful.run_keeps_iff (.bare ⟨balanced_nil,by simp⟩) ops,
    guarded_lawful.run_keeps_iff (.bare ⟨balanced_nil,by simp⟩) ops⟩

def granted : Outcomes := ⟨true,true,⟨0,true,fun _ => rfl,fun h => absurd h (lt_irrefl 0)⟩⟩

def unavailable : Outcomes := { granted with env := false }

/-- A second `connect` without a `disconnect` leaks the first environment, and where it cannot
create one it returns false from an object that is still connected. -/
theorem reconnect_leaks :
    (¬raw.Keeps raw.fresh [.connect granted,.connect granted] ∧
      ¬guarded.Keeps guarded.fresh [.connect granted,.connect granted]) ∧
    ¬raw.Keeps raw.fresh [.connect granted,.connect unavailable] ∧
      ¬guarded.Keeps guarded.fresh [.connect granted,.connect unavailable] := by
  refine ⟨⟨fun h => ?_,fun h => ?_⟩,fun h => ?_,fun h => ?_⟩
  · exact absurd (h.2.2.2.2.env 0 (by decide)) (by decide)
  · exact absurd (h.2.2.2.2.env 0 (by decide)) (by decide)
  · exact (h.2.2.1 rfl).1 rfl
  · exact (h.2.2.1 rfl).1 rfl

end OciConnection
end Marketlib
