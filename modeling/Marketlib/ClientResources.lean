import Mathlib.Algebra.BigOperators.Group.List.Defs
import Marketlib.Ledger
import Marketlib.SelectRows

/-! The statement handles, LOB locators, temporary LOBs and column descriptors of the two OCI
clients. That of `ideas/binding` frees by hand what it has allocated, that of `ideas/new` keeps
them in objects whose destructors do. What OCI answers, and where a function that is handed in
throws, are arguments. -/

namespace Marketlib
namespace ClientResources

open Ledger SelectRows

inductive Resource
  | statement
  | locator
  /-- A locator of a temporary LOB. -/
  | temporary
  | param
  deriving DecidableEq

inductive Thrown
  /-- A query logger. -/
  | logger
  /-- `OciStatementStateError`. -/
  | stateError
  | onBatch
  deriving DecidableEq

/-- What happens at each moment: whether an allocation succeeds, whether what can throw does,
whether a value is `NULL` and whether one is empty; and from which locators
`OCILobCreateTemporary` makes a temporary LOB. -/
structure World where
  grants : ℕ → Bool
  throws : ℕ → Bool
  isNull : ℕ → Bool
  isEmpty : ℕ → Bool
  creates : ℕ → Bool

/-- What a fetch answers, with the number of rows. -/
inductive Fetch
  | rows (n : ℕ)
  | noData (n : ℕ)
  | failed

def Fetch.count : Fetch → ℕ
  | .rows n | .noData n => n
  | .failed => 0

/-- How a query goes. -/
structure Query where
  out : List Kind
  fetchBatchSize : ℕ
  executed : Bool
  /-- The columns that are described, in each pass over them. -/
  described : List ℕ
  allMatched : Bool
  /-- As far as the client goes on. -/
  fetches : List Fetch

/-- A fetch gives at most the rows that it was asked for. -/
def Query.Proper (q : Query) : Prop :=
  0 < q.fetchBatchSize ∧ ∀ f ∈ q.fetches, f.count ≤ q.fetchBatchSize

def isLob : Kind → Bool
  | .lob .. => true
  | _ => false

/-- A call that both clients have. -/
inductive Call
  | execute
  | executeWith (params : List Kind)
  | selectRows (q : Query)
  | selectRowsWith (params : List Kind) (q : Query)
  | select
  /-- With the statuses of the chunks. -/
  | insertRows (chunks : List Bool)

def Call.Proper : Call → Prop
  | .selectRows q | .selectRowsWith _ q => q.Proper
  | _ => True

abbrev Client := Prog Resource Thrown

section

variable (w : World)

def logQuery : Client Unit := mayThrow w.throws .logger

def isNull : Client Bool := fun l => (.ok (w.isNull l.clock),l.tick)

/-- `OCIParamGet`, `OCIAttrGet` and `OCIDescriptorFree` of a column. -/
def describeColumn : Client Unit := do
  let parmdp ← acquire w.grants .param
  use .param parmdp
  release .param parmdp

/-- A pass over the columns. -/
def describeColumns (n : ℕ) : Client Unit := each (fun _ => describeColumn w) (List.range n)

/-- A column's LOB of a fetched row is read where it is not `NULL`. -/
def readLob (locators : List (Option ℕ)) (row : ℕ) : Client Unit := do
  if ← isNull w then pure ()
  else match locators[row]? with
    | some locator => use .locator locator
    | none => fun l => (.ok (),l.fault (.locator,row))

/-- The LOB columns of a fetched row. -/
def applyColumns (out : List Kind) (staging : List (List (Option ℕ))) (row : ℕ) : Client Unit :=
  each (fun p => if isLob p.1 then readLob w p.2 row else pure ()) (out.zip staging)

/-- What a fetch writes through. -/
def useAll (staging : List (List (Option ℕ))) : Client Unit :=
  each (use .locator) staging.flatten

def onBatch : Client Unit := mayThrow w.throws .onBatch

end

/-! ### The client of `ideas/binding` -/

namespace Raw

variable (w : World)

def isEmpty : Client Bool := fun l => (.ok (w.isEmpty l.clock),l.tick)

/-- An empty value is not written. -/
def makeTempLob : Client (Option ℕ) := do
  let locator ← acquire w.grants .locator
  let _ ← convert w.creates .locator .temporary locator
  if ← isEmpty w then pure locator
  else do
    use .temporary locator
    pure locator

def freeTempLob (locator : Option ℕ) : Client Unit := do
  revert .locator .temporary locator
  release .locator locator

/-- The entry of `lob_locators`. -/
def bindOneParam (kind : Kind) : Client (Option ℕ) :=
  if isLob kind then makeTempLob w else pure none

def bindParams (params : List Kind) : Client (List (Option ℕ)) := collect (bindOneParam w) params

/-- The column's locators, where it is one of LOBs. -/
def defineOneColumn (fetchBatchSize : ℕ) (kind : Kind) : Client (List (Option ℕ)) :=
  if isLob kind then collect (fun _ => acquire w.grants .locator) (List.range fetchBatchSize)
  else pure []

def defineColumns (q : Query) : Client (List (List (Option ℕ))) :=
  collect (defineOneColumn w q.fetchBatchSize) q.out

/-- The `for (;;)` of `run_select_fetch_loop`. -/
def fetchLoop (stmt : Option ℕ) (out : List Kind) (staging : List (List (Option ℕ))) :
    List Fetch → Client Unit
  | [] => pure ()
  | f :: fs => do
    use .statement stmt
    useAll staging
    match f with
    | .failed => pure ()
    | .rows n => do
      each (applyColumns w out staging) (List.range n)
      onBatch w
      fetchLoop stmt out staging fs
    | .noData n => do
      each (applyColumns w out staging) (List.range n)
      onBatch w

def freeLobColumns (staging : List (List (Option ℕ))) : Client Unit :=
  each (each (release .locator)) staging

/-- `ins` are the locators of the parameters. -/
def runSelectFetchLoop (stmt : Option ℕ) (ins : List (Option ℕ)) (q : Query) : Client Unit := do
  use .statement stmt
  each (use .temporary) ins
  if q.executed then
    each (describeColumns w) q.described
    if q.allMatched then
      let staging ← defineColumns w q
      fetchLoop w stmt q.out staging q.fetches
      freeLobColumns staging

def perform : Call → Client Unit
  | .execute | .select => do
    logQuery w
    let stmt ← acquire w.grants .statement
    use .statement stmt
    release .statement stmt
  | .executeWith params => do
    logQuery w
    let stmt ← acquire w.grants .statement
    let locators ← bindParams w params
    use .statement stmt
    each (use .temporary) locators
    each freeTempLob locators
    release .statement stmt
  | .selectRows q => do
    logQuery w
    let stmt ← acquire w.grants .statement
    runSelectFetchLoop w stmt [] q
    release .statement stmt
  | .selectRowsWith params q => do
    logQuery w
    let stmt ← acquire w.grants .statement
    let locators ← bindParams w params
    runSelectFetchLoop w stmt locators q
    each freeTempLob locators
    release .statement stmt
  | .insertRows chunks =>
    if chunks = [] then pure ()
    else do
      logQuery w
      let stmt ← acquire w.grants .statement
      each (fun _ => use .statement stmt) chunks
      release .statement stmt

end Raw

/-! ### The client of `ideas/new` -/

namespace Guarded

variable (w : World)

/-- `OciStatement::require_state` and its likes. -/
def requireState : Client Unit := mayThrow w.throws .stateError

/-- An `OciStatement` in a scope. -/
def withStatement {α : Type} (body : Option ℕ → Client α) : Client α := do
  let stmt ← acquire w.grants .statement
  leaving (body stmt) (release .statement stmt)

/-- The destructor of an `OCILob` on which `create_temporary` has been called: `temporary_` is
set there whatever OCI answers. -/
def destroyTemporary (locator : Option ℕ) : Client Unit := do
  revert .locator .temporary locator
  release .locator locator

/-- An `OCILob` in `staging`: created, made a temporary LOB and written. -/
def withTempLob {α : Type} (body : Option ℕ → Client α) : Client α := do
  let locator ← acquire w.grants .locator
  leaving (do
      let _ ← convert w.creates .locator .temporary locator
      use .temporary locator
      body locator)
    (destroyTemporary locator)

/-- `bind_params`, and what runs while `staging` is there. -/
def withBoundParams {α : Type} : List Kind → (List (Option ℕ) → Client α) → Client α
  | [],body => body []
  | kind :: kinds,body =>
    if isLob kind then withTempLob w fun locator => do
      requireState w
      withBoundParams kinds fun locators => body (locator :: locators)
    else do
      requireState w
      withBoundParams kinds fun locators => body (none :: locators)

/-- A `std::vector<OCILob>`. -/
def withLobs {α : Type} : ℕ → (List (Option ℕ) → Client α) → Client α
  | 0,body => body []
  | n+1,body => do
    let locator ← acquire w.grants .locator
    leaving (withLobs n fun locators => body (locator :: locators)) (release .locator locator)

/-- `locators[0].locator_address()` -/
def firstAddress : List (Option ℕ) → Client Unit
  | [] => fun l => (.ok (),l.fault (.locator,0))
  | locator :: _ => use .locator locator

/-- `define_columns`, and what runs while `staging` is there. -/
def withDefinedColumns {α : Type} (fetchBatchSize : ℕ) :
    List Kind → (List (List (Option ℕ)) → Client α) → Client α
  | [],body => body []
  | kind :: kinds,body =>
    if isLob kind then withLobs w fetchBatchSize fun locators => do
      firstAddress locators
      requireState w
      withDefinedColumns fetchBatchSize kinds fun staging => body (locators :: staging)
    else do
      requireState w
      withDefinedColumns fetchBatchSize kinds fun staging => body ([] :: staging)

/-- The `for (;;)` of `run_select_fetch_loop`. -/
def fetchLoop (stmt : Option ℕ) (out : List Kind) (staging : List (List (Option ℕ))) :
    List Fetch → Client Unit
  | [] => pure ()
  | f :: fs => do
    requireState w
    use .statement stmt
    useAll staging
    match f with
    | .failed => pure ()
    | .rows n => do
      each (applyColumns w out staging) (List.range n)
      onBatch w
      fetchLoop stmt out staging fs
    | .noData n => do
      each (applyColumns w out staging) (List.range n)
      onBatch w

/-- `OciStatement::execute`; `ins` are the locators that are bound. -/
def execute (stmt : Option ℕ) (ins : List (Option ℕ)) : Client Unit := do
  requireState w
  logQuery w
  use .statement stmt
  each (use .temporary) ins

def runSelectFetchLoop (stmt : Option ℕ) (ins : List (Option ℕ)) (q : Query) : Client Unit := do
  requireState w
  execute w stmt ins
  if q.executed then
    each (fun n => do requireState w; describeColumns w n) q.described
    if q.allMatched then
      withDefinedColumns w q.fetchBatchSize q.out fun staging =>
        fetchLoop w stmt q.out staging q.fetches

/-- How a query of `select_generic` goes, with the types of the columns that are described. -/
structure GenericQuery where
  executed : Bool
  oracleTypes : List ℕ
  /-- As far as the client goes on. -/
  fetches : List Fetch

/-- `SQLT_CLOB` and `SQLT_BLOB` -/
def isLobType (oracleType : ℕ) : Bool := oracleType == 112 || oracleType == 113

/-- No column of its batches is one of LOBs. -/
def selectGeneric (q : GenericQuery) : Client Unit := withStatement w fun stmt => do
  requireState w
  requireState w
  execute w stmt []
  if q.executed then
    requireState w
    describeColumns w q.oracleTypes.length
    if q.oracleTypes.any isLobType then pure ()
    else
      each (fun _ => do requireState w; use .statement stmt) q.oracleTypes
      fetchLoop w stmt [] [] q.fetches

def performCommon : ClientResources.Call → Client Unit
  | .execute | .select => withStatement w fun stmt => do
    requireState w
    execute w stmt []
  | .executeWith params => withStatement w fun stmt => do
    requireState w
    withBoundParams w params fun locators => execute w stmt locators
  | .selectRows q => withStatement w fun stmt => do
    requireState w
    runSelectFetchLoop w stmt [] q
  | .selectRowsWith params q => withStatement w fun stmt => do
    requireState w
    withBoundParams w params fun locators => runSelectFetchLoop w stmt locators q
  | .insertRows chunks =>
    if chunks = [] then pure ()
    else withStatement w fun stmt => do
      requireState w
      each (fun _ => execute w stmt []) chunks

inductive Call
  | common (call : ClientResources.Call)
  | selectGeneric (q : GenericQuery)

def Call.Proper : Call → Prop
  | .common call => call.Proper
  | .selectGeneric _ => True

def perform : Call → Client Unit
  | .common call => performCommon w call
  | .selectGeneric q => selectGeneric w q

end Guarded

/-! ### Sessions -/

/-- One call after the other; the caller catches what is thrown. -/
def session {C : Type} (perform : C → Client Unit) : List C → Ledger Resource →
    List (Except Thrown Unit) × Ledger Resource
  | [],l => ([],l)
  | call :: calls,l =>
    let (results,l') := session perform calls (perform call l).2
    ((perform call l).1 :: results,l')

/-! ### What both have in common -/

/-- What a client uses and frees that is not there: a temporary LOB that was refused. -/
def Refused (w : World) (r : Resource × ℕ) : Prop := r.1 = .temporary ∧ w.creates r.2 = false

theorem refused_of {w : World} (n : ℕ) (h : w.creates n = false) :
    Refused w (.temporary,n) := ⟨rfl,h⟩

/-- They can be used. -/
def Holds (w : World) (k : Resource) (P : Multiset (Resource × ℕ)) (locators : List (Option ℕ)) :
    Prop :=
  ∀ o ∈ locators, Usable (Refused w) k P o

section

variable {w : World} {k : Resource} {P P' : Multiset (Resource × ℕ)} {out : List Kind}
  {fetchBatchSize row : ℕ} {staging : List (List (Option ℕ))} {locators : List (Option ℕ)}
  {o : Option ℕ} {T : Thrown → Prop}

theorem Holds.nil : Holds w k P [] := fun _ ho => absurd ho List.not_mem_nil

theorem Holds.cons (ho : Usable (Refused w) k P o) (h : Holds w k P locators) :
    Holds w k P (o :: locators) :=
  List.forall_mem_cons.mpr ⟨ho,h⟩

theorem Holds.mono (h : Holds w k P locators) (hle : P ≤ P') : Holds w k P' locators :=
  fun o ho => (h o ho).mono hle

theorem usable_none : Usable (Refused w) k P none := fun _ hn => absurd hn (Option.not_mem_none _)

theorem usable_add : Usable (Refused w) k (owned k o+P) o :=
  usable_owned.mono (Multiset.le_add_right _ P)

/-- Every LOB column has a locator for each row of a batch. -/
structure Ready (w : World) (P : Multiset (Resource × ℕ)) (out : List Kind) (fetchBatchSize : ℕ)
    (staging : List (List (Option ℕ))) : Prop where
  full : ∀ p ∈ out.zip staging, isLob p.1 = true → p.2.length = fetchBatchSize
  holds : Holds w .locator P staging.flatten

theorem Ready.nil : Ready w P [] fetchBatchSize [] := ⟨by simp,Holds.nil⟩

theorem neutral_describeColumns (n : ℕ) : Neutral (Refused w) T P (describeColumns w n) := by
  refine neutral_each fun _ _ => Spec.bind_none (spec_acquire w.grants Resource.param) ?_
  rintro parmdp - ⟨rfl,-⟩
  refine Spec.bind_all (spec_use usable_add) ?_
  rintro - - rfl
  refine ((spec_release Resource.param parmdp).beside P).mono ?_ fun _ _ hnever => hnever.elim
  rintro - - ⟨-,rfl,rfl⟩
  exact zero_add P

theorem neutral_tick {α : Type} (answer : Ledger Resource → α) :
    Neutral (Refused w) T P (fun l => (.ok (answer l),l.tick)) :=
  fun l _ hl => ⟨P,rfl,hl,.refl l.faults⟩

theorem neutral_readLob (h : Holds w .locator P locators) (hrow : row < locators.length) :
    Neutral (Refused w) T P (readLob w locators row) := by
  have hisNull : Neutral (Refused w) T P (isNull w) := neutral_tick _
  refine hisNull.bind fun null => ?_
  cases null with
  | true => exact neutral_pure ()
  | false =>
    simp only [List.getElem?_eq_getElem hrow]
    exact neutral_use (h _ (List.getElem_mem hrow))

theorem neutral_applyColumns (h : Ready w P out fetchBatchSize staging)
    (hrow : row < fetchBatchSize) :
    Neutral (Refused w) T P (applyColumns w out staging row) := by
  refine neutral_each fun p hp => ?_
  split_ifs with hlob
  · refine neutral_readLob (fun o ho => h.holds o ?_) (by rwa [h.full p hp hlob])
    exact List.mem_flatten.mpr ⟨p.2,(List.of_mem_zip hp).2,ho⟩
  · exact neutral_pure ()

theorem neutral_rows (h : Ready w P out fetchBatchSize staging) {n : ℕ}
    (hn : n ≤ fetchBatchSize) :
    Neutral (Refused w) T P (each (applyColumns w out staging) (List.range n)) :=
  neutral_each fun _ hrow => neutral_applyColumns h (by
    rw [List.mem_range] at hrow
    omega)

theorem neutral_useEach (h : Holds w k P locators) :
    Neutral (Refused w) T P (each (use k) locators) :=
  neutral_each fun o ho => neutral_use (h o ho)

theorem neutral_useAll (h : Holds w .locator P staging.flatten) :
    Neutral (Refused w) T P (useAll staging) := neutral_useEach h

end

/-! ### Nothing is left by the client of `ideas/new` -/

namespace Guarded

/-- No restriction on what is thrown. -/
def Anything (_ : Thrown) : Prop := True

variable {w : World} {P : Multiset (Resource × ℕ)} {α : Type}

theorem spec_destroyTemporary {o : Option ℕ} {held : Multiset (Resource × ℕ)}
    (h : Turned w.creates Resource.locator .temporary o held) :
    Spec (Refused w) held (destroyTemporary o) Nothing Never := by
  refine Spec.bind_all (spec_revert (by decide) h refused_of) ?_
  rintro - - rfl
  exact spec_release _ _

theorem neutral_withTempLob {body : Option ℕ → Client α} (h : ∀ o P', P ≤ P' →
      Usable (Refused w) .temporary P' o → Neutral (Refused w) Anything P' (body o)) :
    Neutral (Refused w) Anything P (withTempLob w body) := by
  refine Spec.bind_none (spec_acquire w.grants Resource.locator) ?_
  rintro o - ⟨rfl,-⟩
  refine Spec.leaving ?_
  refine Spec.bind_quiet (spec_convert w.creates _ Resource.temporary o) fun _ held hturned => ?_
  have husable : Usable (Refused w) .temporary (held+P) o :=
    (hturned.usable refused_of).mono (Multiset.le_add_right held P)
  refine Spec.bind_all (spec_use husable) ?_
  rintro - - rfl
  refine (h o (held+P) (Multiset.le_add_left P held) husable).mono ?_ ?_
  · rintro - - rfl
    exact ⟨P,held,add_comm _ _,rfl,spec_destroyTemporary hturned⟩
  · rintro e - ⟨he,rfl⟩
    exact ⟨P,held,add_comm _ _,⟨he,rfl⟩,spec_destroyTemporary hturned⟩

theorem neutral_withBoundParams {params : List Kind} {body : List (Option ℕ) → Client α}
    (h : ∀ locators P', P ≤ P' → Holds w .temporary P' locators →
      Neutral (Refused w) Anything P' (body locators)) :
    Neutral (Refused w) Anything P (withBoundParams w params body) := by
  induction params generalizing P body with
  | nil => exact h [] P le_rfl Holds.nil
  | cons kind kinds ih =>
    rw [withBoundParams]
    split_ifs with hlob
    · refine neutral_withTempLob fun o P' hle husable => ?_
      refine (neutral_mayThrow _ trivial).bind fun _ => ih fun locators P'' hle' hholds => ?_
      exact h _ P'' (hle.trans hle') (Holds.cons (husable.mono hle') hholds)
    · refine (neutral_mayThrow _ trivial).bind fun _ => ih fun locators P' hle hholds => ?_
      exact h _ P' hle (Holds.cons usable_none hholds)

theorem neutral_withLobs {n : ℕ} {body : List (Option ℕ) → Client α}
    (h : ∀ locators P', P ≤ P' → locators.length = n → Holds w .locator P' locators →
      Neutral (Refused w) Anything P' (body locators)) :
    Neutral (Refused w) Anything P (withLobs w n body) := by
  induction n generalizing P body with
  | zero => exact h [] P le_rfl rfl Holds.nil
  | succ n ih =>
    refine neutral_scope fun o => ih fun locators P' hle hlength hholds => ?_
    exact h _ P' ((Multiset.le_add_left P _).trans hle) (by simp [hlength])
      (Holds.cons (usable_add.mono hle) hholds)

theorem neutral_withDefinedColumns {fetchBatchSize : ℕ} (hbatch : 0 < fetchBatchSize)
    {out : List Kind} {body : List (List (Option ℕ)) → Client α}
    (h : ∀ staging P', P ≤ P' → Ready w P' out fetchBatchSize staging →
      Neutral (Refused w) Anything P' (body staging)) :
    Neutral (Refused w) Anything P (withDefinedColumns w fetchBatchSize out body) := by
  induction out generalizing P body with
  | nil => exact h [] P le_rfl Ready.nil
  | cons kind kinds ih =>
    have hready {P' : Multiset (Resource × ℕ)} {locators : List (Option ℕ)}
        {staging : List (List (Option ℕ))}
        (hlength : isLob kind = true → locators.length = fetchBatchSize)
        (hholds : Holds w .locator P' locators) (hready : Ready w P' kinds fetchBatchSize staging) :
        Ready w P' (kind :: kinds) fetchBatchSize (locators :: staging) := by
      refine ⟨fun p hp hlob => ?_,fun o ho => ?_⟩
      · rw [List.zip_cons_cons] at hp
        obtain rfl | hp := List.mem_cons.mp hp
        · exact hlength hlob
        · exact hready.full p hp hlob
      · rw [List.flatten_cons] at ho
        obtain ho | ho := List.mem_append.mp ho
        · exact hholds o ho
        · exact hready.holds o ho
    rw [withDefinedColumns]
    split_ifs with hlob
    · refine neutral_withLobs fun locators P' hle hlength hholds => ?_
      have hfirst : Neutral (Refused w) Anything P' (firstAddress locators) := by
        cases locators with
        | nil =>
          rw [← hlength] at hbatch
          exact absurd hbatch (lt_irrefl 0)
        | cons o locators => exact neutral_use (hholds o List.mem_cons_self)
      refine hfirst.bind fun _ => (neutral_mayThrow _ trivial).bind fun _ => ?_
      refine ih fun staging P'' hle' hstaging => h _ P'' (hle.trans hle') ?_
      exact hready (fun _ => hlength) (hholds.mono hle') hstaging
    · refine (neutral_mayThrow _ trivial).bind fun _ => ih fun staging P' hle hstaging => ?_
      exact h _ P' hle (hready (fun h => absurd h hlob) Holds.nil hstaging)

theorem neutral_fetchLoop {stmt : Option ℕ} {out : List Kind} {staging : List (List (Option ℕ))}
    (hstmt : Usable (Refused w) .statement P stmt) (hstaging : Holds w .locator P staging.flatten)
    {fetches : List Fetch} (hrows : ∀ f ∈ fetches, Neutral (Refused w) Anything P
      (each (applyColumns w out staging) (List.range f.count))) :
    Neutral (Refused w) Anything P (fetchLoop w stmt out staging fetches) := by
  induction fetches with
  | nil => exact neutral_pure ()
  | cons f fs ih =>
    refine (neutral_mayThrow _ trivial).bind fun _ => (neutral_use hstmt).bind fun _ =>
      (neutral_useAll hstaging).bind fun _ => ?_
    have hfirst := hrows f List.mem_cons_self
    cases f with
    | failed => exact neutral_pure ()
    | rows n =>
      exact hfirst.bind fun _ => (neutral_mayThrow _ trivial).bind fun _ =>
        ih fun f hf => hrows f (List.mem_cons_of_mem _ hf)
    | noData n => exact hfirst.bind fun _ => neutral_mayThrow _ trivial

theorem neutral_execute {stmt : Option ℕ} {ins : List (Option ℕ)}
    (hstmt : Usable (Refused w) .statement P stmt) (hins : Holds w .temporary P ins) :
    Neutral (Refused w) Anything P (execute w stmt ins) :=
  (neutral_mayThrow _ trivial).bind fun _ => (neutral_mayThrow _ trivial).bind fun _ =>
    (neutral_use hstmt).bind fun _ => neutral_useEach hins

theorem neutral_runSelectFetchLoop {stmt : Option ℕ} {ins : List (Option ℕ)} {q : Query}
    (hstmt : Usable (Refused w) .statement P stmt) (hins : Holds w .temporary P ins)
    (hq : q.Proper) : Neutral (Refused w) Anything P (runSelectFetchLoop w stmt ins q) := by
  have hdescribe : Neutral (Refused w) Anything P
      (each (fun n => do requireState w; describeColumns w n) q.described) :=
    neutral_each fun n _ => (neutral_mayThrow _ trivial).bind fun _ => neutral_describeColumns n
  refine (neutral_mayThrow _ trivial).bind fun _ => (neutral_execute hstmt hins).bind fun _ => ?_
  split_ifs
  · refine hdescribe.bind fun _ => neutral_withDefinedColumns hq.1 fun staging P' hle hready => ?_
    exact neutral_fetchLoop (hstmt.mono hle) hready.holds fun f hf =>
      neutral_rows hready (hq.2 f hf)
  · exact hdescribe.bind fun _ => neutral_pure ()
  · exact neutral_pure ()

theorem neutral_selectGeneric (q : GenericQuery) :
    Neutral (Refused w) Anything P (selectGeneric w q) := by
  refine neutral_scope fun stmt => (neutral_mayThrow _ trivial).bind fun _ =>
    (neutral_mayThrow _ trivial).bind fun _ =>
      (neutral_execute usable_add Holds.nil).bind fun _ => ?_
  split_ifs
  · exact (neutral_mayThrow _ trivial).bind fun _ =>
      (neutral_describeColumns _).bind fun _ => neutral_pure ()
  · refine (neutral_mayThrow _ trivial).bind fun _ => (neutral_describeColumns _).bind fun _ =>
      (neutral_each fun _ _ => (neutral_mayThrow _ trivial).bind fun _ =>
        neutral_use usable_add).bind fun _ => ?_
    -- without columns a row takes nothing
    exact neutral_fetchLoop usable_add Holds.nil fun _ _ => neutral_each fun _ _ => neutral_pure ()
  · exact neutral_pure ()

theorem neutral_performCommon {call : ClientResources.Call} (hcall : call.Proper) :
    Neutral (Refused w) Anything P (performCommon w call) := by
  cases call with
  | execute | select =>
    exact neutral_scope fun stmt => (neutral_mayThrow _ trivial).bind fun _ =>
      neutral_execute usable_add Holds.nil
  | executeWith params =>
    refine neutral_scope fun stmt => (neutral_mayThrow _ trivial).bind fun _ =>
      neutral_withBoundParams fun locators P' hle hholds => ?_
    exact neutral_execute (usable_add.mono hle) hholds
  | selectRows q =>
    exact neutral_scope fun stmt => (neutral_mayThrow _ trivial).bind fun _ =>
      neutral_runSelectFetchLoop usable_add Holds.nil hcall
  | selectRowsWith params q =>
    refine neutral_scope fun stmt => (neutral_mayThrow _ trivial).bind fun _ =>
      neutral_withBoundParams fun locators P' hle hholds => ?_
    exact neutral_runSelectFetchLoop (usable_add.mono hle) hholds hcall
  | insertRows chunks =>
    rw [performCommon]
    split_ifs
    · exact neutral_pure ()
    · exact neutral_scope fun stmt => (neutral_mayThrow _ trivial).bind fun _ =>
        neutral_each fun _ _ => neutral_execute usable_add Holds.nil

/-- Every call gives back what it has taken. -/
theorem neutral_perform {call : Call} (hcall : call.Proper) :
    Neutral (Refused w) Anything P (perform w call) := by
  cases call with
  | common call => exact neutral_performCommon hcall
  | selectGeneric q => exact neutral_selectGeneric q

/-- Whatever throws and whatever is refused, a session of the client of `ideas/new` ends with
nothing left, and nothing is used or freed that is not there but temporary LOBs that were
refused. -/
theorem session_balanced {calls : List Call} (hcalls : ∀ call ∈ calls, call.Proper)
    (l : Ledger Resource) : (session (perform w) calls l).2.live = l.live ∧
      Allowed (Refused w) l.faults (session (perform w) calls l).2.faults := by
  induction calls generalizing l with
  | nil => exact ⟨rfl,.refl l.faults⟩
  | cons call calls ih =>
    have hspec := neutral_perform (w := w) (P := l.live) (hcalls call List.mem_cons_self)
    obtain ⟨held,hheld,hlive,hfaults⟩ := hspec l 0 (add_zero _).symm
    have heq : held = l.live := by
      cases hr : (perform w call l).1 with
      | ok _ =>
        rw [hr] at hheld
        exact hheld
      | error _ =>
        rw [hr] at hheld
        exact hheld.2
    rw [heq,add_zero] at hlive
    obtain ⟨hlive',hfaults'⟩ :=
      ih (fun c hc => hcalls c (List.mem_cons_of_mem _ hc)) (perform w call l).2
    exact ⟨hlive'.trans hlive,hfaults.trans hfaults'⟩

theorem session_balanced_select :
    let w : World :=
      ⟨fun _ => true,fun t => t == 17,fun _ => false,fun _ => false,fun n => n != 2⟩
    let q : Query := ⟨[.lob true 32,.plain 4],2,true,[2],true,[.rows 2,.noData 1]⟩
    let calls : List Call := [.common (.selectRowsWith [.lob false 24] q),
      .common (.selectRows q),.selectGeneric ⟨true,[2,1],[.rows 2,.noData 1]⟩]
    let s := session (perform w) calls Ledger.empty
    s.1.map Except.isOk = [false,true,true] ∧ s.2.faults.length = 3 ∧ s.2.live = 0 ∧
      Allowed (Refused w) [] s.2.faults := by
  intro w q calls s
  have hcalls : ∀ call ∈ calls, call.Proper := by
    simp [calls,q,Call.Proper,ClientResources.Call.Proper,Query.Proper,Fetch.count]
  exact ⟨by decide +kernel +zetaReduce,by decide +kernel +zetaReduce,
    session_balanced hcalls Ledger.empty⟩

end Guarded

/-! ### What the client of `ideas/binding` leaves -/

/-- The kinds of what a call of the client of `ideas/binding` leaves when `on_batch` throws: the
statement, a temporary LOB for each LOB among the parameters, and for each LOB column a locator
for every row of a batch. -/
def Call.leak : Call → Multiset Resource
  | .selectRows q =>
    {.statement}+q.out.countP isLob • Multiset.replicate q.fetchBatchSize .locator
  | .selectRowsWith params q =>
    {.statement}+params.countP isLob • {.temporary}+
      q.out.countP isLob • Multiset.replicate q.fetchBatchSize .locator
  | _ => 0

namespace Raw

variable {w : World} {P R : Multiset (Resource × ℕ)}

/-- Only `on_batch` throws. -/
def OnBatch (e : Thrown) : Prop := e = .onBatch

/-- Nothing is refused. -/
structure Granted (w : World) : Prop where
  grants : ∀ t, w.grants t = true
  creates : ∀ n, w.creates n = true

/-- A parameter's entry of `lob_locators`. -/
structure BoundParam (w : World) (kind : Kind) (o : Option ℕ) (held : Multiset (Resource × ℕ)) :
    Prop where
  owns : Turned w.creates .locator .temporary o held
  kinds : Granted w → held.map Prod.fst = if isLob kind then {.temporary} else 0

/-- A column's entry of `staging`. -/
structure DefinedColumn (w : World) (fetchBatchSize : ℕ) (kind : Kind)
    (locators : List (Option ℕ)) (held : Multiset (Resource × ℕ)) : Prop where
  owns : OwnsAll (Obtained w.grants .locator) locators held
  length : locators.length = if isLob kind then fetchBatchSize else 0

theorem kinds_owned {k : Resource} (n : ℕ) : (owned k (some n)).map Prod.fst = {k} := rfl

theorem obtained_some {k : Resource} {o : Option ℕ} {held : Multiset (Resource × ℕ)}
    (h : Obtained w.grants k o held) (hw : Granted w) : ∃ n, o = some n := by
  cases o with
  | none =>
    obtain ⟨t,ht⟩ := h.2 rfl
    simp [hw.grants t] at ht
  | some n => exact ⟨n,rfl⟩

theorem kinds_obtained {k : Resource} {o : Option ℕ} {held : Multiset (Resource × ℕ)}
    (h : Obtained w.grants k o held) (hw : Granted w) : held.map Prod.fst = {k} := by
  obtain ⟨n,rfl⟩ := obtained_some h hw
  rw [h.1,kinds_owned]

theorem kinds_turned {n : ℕ} {held : Multiset (Resource × ℕ)}
    (h : Turned w.creates Resource.locator .temporary (some n) held) (hw : Granted w) :
    held.map Prod.fst = {.temporary} := by
  obtain rfl | ⟨-,hrefused⟩ := h
  · exact kinds_owned n
  · have hfalse := hrefused n rfl
    simp [hw.creates n] at hfalse

theorem spec_bindOneParam (kind : Kind) :
    Spec (Refused w) 0 (bindOneParam w kind) (BoundParam w kind) Never := by
  unfold bindOneParam
  split_ifs with hlob
  · refine Spec.bind_all (spec_acquire w.grants Resource.locator) ?_
    intro o held ho
    obtain ⟨rfl,-⟩ := id ho
    refine Spec.bind_all (spec_convert w.creates _ Resource.temporary o) ?_
    intro _ held hturned
    have hbound : BoundParam w kind o held := by
      refine ⟨hturned,fun hw => ?_⟩
      obtain ⟨n,rfl⟩ := obtained_some ho hw
      rw [if_pos hlob,kinds_turned hturned hw]
    have hisEmpty : Neutral (Refused w) (fun _ => False) held (isEmpty w) := neutral_tick _
    refine hisEmpty.andThen fun empty => ?_
    cases empty with
    | true => exact spec_pure o hbound
    | false =>
      refine Spec.bind_all (spec_use (hturned.usable refused_of)) ?_
      rintro _ _ rfl
      exact spec_pure o hbound
  · exact spec_pure none ⟨Or.inl rfl,fun _ => by rw [if_neg hlob]; rfl⟩

/-- The locators of all parameters. -/
def Bound (w : World) (params : List Kind) (ins : List (Option ℕ))
    (held : Multiset (Resource × ℕ)) : Prop :=
  ins.length = params.length ∧ OwnsAll (fun p => BoundParam w p.1 p.2) (params.zip ins) held

theorem Bound.ownsAll {params : List Kind} {ins : List (Option ℕ)}
    {held : Multiset (Resource × ℕ)} (h : Bound w params ins held) :
    OwnsAll (Turned w.creates Resource.locator .temporary) ins held :=
  OwnsAll.of_zip (h.2.imp fun _ _ _ hp => hp.owns) h.1

theorem Bound.holds {params : List Kind} {ins : List (Option ℕ)}
    {held : Multiset (Resource × ℕ)} (h : Bound w params ins held) :
    Holds w .temporary held ins := by
  intro o ho
  obtain ⟨held',hle,hturned⟩ := h.ownsAll.le o ho
  exact (hturned.usable refused_of).mono hle

theorem Bound.free {params : List Kind} {ins : List (Option ℕ)} {held : Multiset (Resource × ℕ)}
    (h : Bound w params ins held) : Spec (Refused w) held (each freeTempLob ins) Nothing Never := by
  refine spec_each_nothing (fun o held hturned => ?_) h.ownsAll
  refine Spec.bind_all (spec_revert (by decide) hturned refused_of) ?_
  rintro - - rfl
  exact spec_release _ _

theorem sum_lobs (M : Multiset Resource) (kinds : List Kind) :
    (kinds.map fun kind => if isLob kind then M else 0).sum = kinds.countP isLob • M := by
  induction kinds with
  | nil => simp
  | cons kind kinds ih =>
    rw [List.map_cons,List.sum_cons,ih,List.countP_cons]
    split_ifs
    · rw [add_nsmul,one_nsmul,add_comm]
    · rw [zero_add,add_zero]

theorem sum_zip {β : Type} (M : Multiset Resource) {kinds : List Kind} {bs : List β}
    (h : bs.length = kinds.length) :
    ((kinds.zip bs).map fun p => if isLob p.1 then M else 0).sum = kinds.countP isLob • M := by
  have hmap : (kinds.zip bs).map (fun p => if isLob p.1 then M else 0) =
      ((kinds.zip bs).map Prod.fst).map fun kind => if isLob kind then M else 0 := by
    rw [List.map_map]
    rfl
  rw [hmap,List.map_fst_zip h.ge,sum_lobs]

theorem Bound.kinds {params : List Kind} {ins : List (Option ℕ)} {held : Multiset (Resource × ℕ)}
    (h : Bound w params ins held) (hw : Granted w) :
    held.map Prod.fst = params.countP isLob • {.temporary} := by
  have hkinds := h.2.kinds (fun p => if isLob p.1 then {.temporary} else 0)
    fun p held hp => hp.kinds hw
  rw [hkinds,sum_zip _ h.1]

theorem spec_bindParams (params : List Kind) :
    Spec (Refused w) 0 (bindParams w params) (Bound w params) Never :=
  spec_collect spec_bindOneParam params

theorem spec_defineOneColumn (fetchBatchSize : ℕ) (kind : Kind) :
    Spec (Refused w) 0 (defineOneColumn w fetchBatchSize kind)
      (DefinedColumn w fetchBatchSize kind) Never := by
  unfold defineOneColumn
  split_ifs with hlob
  · refine (spec_collect (fun _ => spec_acquire w.grants Resource.locator) _).mono ?_
      fun _ _ => id
    rintro locators held ⟨hlength,howns⟩
    refine ⟨howns.of_zip hlength,?_⟩
    rw [if_pos hlob,hlength,List.length_range]
  · exact spec_pure [] ⟨rfl,by rw [if_neg hlob]; rfl⟩

/-- The locators of all columns. -/
def Defined (w : World) (q : Query) (staging : List (List (Option ℕ)))
    (held : Multiset (Resource × ℕ)) : Prop :=
  staging.length = q.out.length ∧
    OwnsAll (fun p => DefinedColumn w q.fetchBatchSize p.1 p.2) (q.out.zip staging) held

theorem spec_defineColumns (q : Query) :
    Spec (Refused w) 0 (defineColumns w q) (Defined w q) Never :=
  spec_collect (spec_defineOneColumn q.fetchBatchSize) q.out

theorem Defined.ownsAll {q : Query} {staging : List (List (Option ℕ))}
    {held : Multiset (Resource × ℕ)} (h : Defined w q staging held) :
    OwnsAll (OwnsAll (Obtained w.grants .locator)) staging held :=
  OwnsAll.of_zip (h.2.imp fun _ _ _ hp => hp.owns) h.1

theorem Defined.ready {q : Query} {staging : List (List (Option ℕ))}
    {held : Multiset (Resource × ℕ)} (h : Defined w q staging held) :
    Ready w held q.out q.fetchBatchSize staging := by
  refine ⟨fun p hp hlob => ?_,fun o ho => ?_⟩
  · obtain ⟨held',-,hcolumn⟩ := h.2.le p hp
    rw [hcolumn.length,if_pos hlob]
  · obtain ⟨locators,hlocators,ho⟩ := List.mem_flatten.mp ho
    obtain ⟨held',hle,hcolumn⟩ := h.ownsAll.le locators hlocators
    obtain ⟨held'',hle',rfl,-⟩ := hcolumn.le o ho
    exact usable_owned.mono (hle'.trans hle)

theorem Defined.free {q : Query} {staging : List (List (Option ℕ))}
    {held : Multiset (Resource × ℕ)} (h : Defined w q staging held) :
    Spec (Refused w) held (freeLobColumns staging) Nothing Never := by
  refine spec_each_nothing (fun locators held howns => ?_) h.ownsAll
  refine spec_each_nothing (fun o held ho => ?_) howns
  obtain ⟨rfl,-⟩ := ho
  exact spec_release _ o

theorem Defined.kinds {q : Query} {staging : List (List (Option ℕ))}
    {held : Multiset (Resource × ℕ)} (h : Defined w q staging held) (hw : Granted w) :
    held.map Prod.fst =
      q.out.countP isLob • Multiset.replicate q.fetchBatchSize Resource.locator := by
  have hkinds := h.2.kinds
    (fun p => if isLob p.1 then Multiset.replicate q.fetchBatchSize Resource.locator else 0)
    fun p held hp => by
      rw [hp.owns.kinds (fun _ => {.locator}) fun o held ho => kinds_obtained ho hw,
        List.map_const',hp.length,List.sum_replicate]
      split_ifs
      · exact Multiset.nsmul_singleton _ _
      · exact zero_nsmul _
  rw [hkinds,sum_zip _ h.1]

theorem neutral_fetchLoop {stmt : Option ℕ} {q : Query} {staging : List (List (Option ℕ))}
    (hstmt : Usable (Refused w) .statement P stmt) (h : Ready w P q.out q.fetchBatchSize staging)
    {fetches : List Fetch} (hfetches : ∀ f ∈ fetches, f.count ≤ q.fetchBatchSize) :
    Neutral (Refused w) OnBatch P (fetchLoop w stmt q.out staging fetches) := by
  induction fetches with
  | nil => exact neutral_pure ()
  | cons f fs ih =>
    refine (neutral_use hstmt).bind fun _ => (neutral_useAll h.holds).bind fun _ => ?_
    have hcount := hfetches f List.mem_cons_self
    cases f with
    | failed => exact neutral_pure ()
    | rows n =>
      exact (neutral_rows h hcount).bind fun _ =>
        (neutral_mayThrow (T := OnBatch) _ rfl).bind fun _ => ih fun f hf =>
          hfetches f (List.mem_cons_of_mem _ hf)
    | noData n => exact (neutral_rows h hcount).bind fun _ => neutral_mayThrow _ rfl

/-- When `on_batch` throws, the locators of the columns stay. -/
theorem spec_runSelectFetchLoop {stmt : Option ℕ} {ins : List (Option ℕ)} {q : Query}
    (hstmt : Usable (Refused w) .statement P stmt) (hins : Holds w .temporary P ins)
    (hq : q.Proper) :
    Spec (Refused w) P (runSelectFetchLoop w stmt ins q) (fun _ held => held = P) fun e held =>
      OnBatch e ∧ ∃ staging outs, Defined w q staging outs ∧ held = outs+P := by
  refine (neutral_use hstmt).andThen fun _ => (neutral_useEach hins).andThen fun _ => ?_
  have hdescribe : Neutral (Refused w) (fun _ => False) P (each (describeColumns w) q.described) :=
    neutral_each fun n _ => neutral_describeColumns n
  split_ifs
  · refine hdescribe.andThen fun _ => Spec.bind_none (spec_defineColumns q) ?_
    intro staging outs hdefined
    have hready := hdefined.ready
    have hloop : Neutral (Refused w) OnBatch (outs+P) (fetchLoop w stmt q.out staging q.fetches) :=
      neutral_fetchLoop (hstmt.mono (Multiset.le_add_left P outs))
        ⟨hready.full,hready.holds.mono (Multiset.le_add_right outs P)⟩ hq.2
    refine Spec.bind_all (hloop.mono (fun _ _ => id) ?_) ?_
    · rintro e _ ⟨he,rfl⟩
      exact ⟨he,staging,outs,hdefined,rfl⟩
    · rintro _ _ rfl
      refine (hdefined.free.beside P).never.mono ?_ fun _ _ => id
      rintro _ _ ⟨_,rfl,rfl⟩
      exact zero_add P
  · exact hdescribe.andThen fun _ => spec_pure () rfl
  · exact spec_pure () rfl

/-- What is left by a call of which resources of the kinds `leak` stay when `on_batch` throws. -/
def Left (w : World) (leak : Multiset Resource) (e : Thrown) (held : Multiset (Resource × ℕ)) :
    Prop :=
  e = .logger ∧ held = 0 ∨ e = .onBatch ∧ (Granted w → held.map Prod.fst = leak)

variable {leak : Multiset Resource}

theorem spec_logged {m : Client Unit} (h : Spec (Refused w) 0 m Nothing (Left w leak)) :
    Spec (Refused w) 0 (logQuery w >>= fun _ => m) Nothing (Left w leak) := by
  have hlog : Neutral (Refused w) (fun e => e = .logger) 0 (logQuery w) := neutral_mayThrow _ rfl
  refine Spec.bind_all (hlog.mono (fun _ _ => id) fun _ _ => Or.inl) ?_
  rintro _ _ rfl
  exact h

/-- A statement that is only used. -/
theorem spec_withStatement {body : Option ℕ → Client Unit}
    (h : ∀ stmt, Neutral (Refused w) (fun _ => False) (owned Resource.statement stmt)
      (body stmt)) :
    Spec (Refused w) 0 (acquire w.grants Resource.statement >>= fun stmt => body stmt >>= fun _ =>
      release Resource.statement stmt) Nothing (Left w leak) := by
  refine Spec.bind_all (spec_acquire w.grants Resource.statement) ?_
  rintro stmt _ ⟨rfl,_⟩
  exact (h stmt).andThen fun _ => spec_release _ stmt

theorem neutral_useStatement (stmt : Option ℕ) :
    Neutral (Refused w) (fun _ => False) (owned Resource.statement stmt)
      (use Resource.statement stmt : Client Unit) :=
  neutral_use usable_owned

/-- The end of a call that has bound parameters. -/
theorem spec_freeAll {params : List Kind} {locators : List (Option ℕ)}
    {ins : Multiset (Resource × ℕ)} (h : Bound w params locators ins) (stmt : Option ℕ) :
    Spec (Refused w) (ins+owned Resource.statement stmt) (each freeTempLob locators >>= fun _ =>
      release Resource.statement stmt) Nothing (Left w leak) := by
  refine Spec.bind_quiet h.free ?_
  rintro _ _ rfl
  rw [zero_add]
  exact spec_release _ stmt

/-- A call of the client of `ideas/binding` gives back what it has taken if it returns. -/
theorem spec_perform {call : Call} (hcall : call.Proper) :
    Spec (Refused w) 0 (perform w call) Nothing (Left w call.leak) := by
  have hstmt {P : Multiset (Resource × ℕ)} (stmt : Option ℕ) :
      Usable (Refused w) .statement (P+owned Resource.statement stmt) stmt :=
    usable_owned.mono (Multiset.le_add_left _ P)
  cases call with
  | execute | select => exact spec_logged (spec_withStatement neutral_useStatement)
  | executeWith params =>
    refine spec_logged (Spec.bind_all (spec_acquire w.grants Resource.statement) ?_)
    rintro stmt _ ⟨rfl,_⟩
    refine Spec.bind_none (spec_bindParams params) fun locators ins hbound => ?_
    exact (neutral_use (hstmt stmt)).andThen fun _ =>
      (neutral_useEach (hbound.holds.mono (Multiset.le_add_right ins _))).andThen fun _ =>
        spec_freeAll hbound stmt
  | selectRows q =>
    refine spec_logged (Spec.bind_all (spec_acquire w.grants Resource.statement) ?_)
    intro stmt held hobtained
    obtain ⟨rfl,_⟩ := id hobtained
    have hloop := spec_runSelectFetchLoop (w := w) (P := owned Resource.statement stmt)
      usable_owned Holds.nil hcall
    refine Spec.bind_all (hloop.mono (fun _ _ => id) ?_) ?_
    · rintro e _ ⟨he,staging,outs,hdefined,rfl⟩
      refine Or.inr ⟨he,fun hw => ?_⟩
      rw [Multiset.map_add,hdefined.kinds hw,kinds_obtained hobtained hw,Call.leak,add_comm]
    · rintro _ _ rfl
      exact spec_release _ stmt
  | selectRowsWith params q =>
    refine spec_logged (Spec.bind_all (spec_acquire w.grants Resource.statement) ?_)
    intro stmt held hobtained
    obtain ⟨rfl,_⟩ := id hobtained
    refine Spec.bind_none (spec_bindParams params) fun locators ins hbound => ?_
    have hloop := spec_runSelectFetchLoop (w := w) (P := ins+owned Resource.statement stmt)
      (hstmt stmt) (hbound.holds.mono (Multiset.le_add_right ins _)) hcall
    refine Spec.bind_all (hloop.mono (fun _ _ => id) ?_) ?_
    · rintro e _ ⟨he,staging,outs,hdefined,rfl⟩
      refine Or.inr ⟨he,fun hw => ?_⟩
      rw [Multiset.map_add,Multiset.map_add,hdefined.kinds hw,hbound.kinds hw,
        kinds_obtained hobtained hw,Call.leak]
      abel
    · rintro _ _ rfl
      exact spec_freeAll hbound stmt
  | insertRows chunks =>
    rw [perform]
    split_ifs
    · exact spec_pure () rfl
    · exact spec_logged (spec_withStatement fun stmt =>
        neutral_each fun _ _ => neutral_useStatement stmt)

/-- What a call leaves, by how it ends. -/
def left (call : Call) : Except Thrown Unit → Multiset Resource
  | .error .onBatch => call.leak
  | _ => 0

def lost (calls : List Call) (results : List (Except Thrown Unit)) : Multiset Resource :=
  ((calls.zip results).map fun p => left p.1 p.2).sum

theorem kinds_of_outcome {call : Call} {r : Except Thrown Unit} {held : Multiset (Resource × ℕ)}
    (h : Outcome Nothing (Left w call.leak) r held) :
    (r ≠ .error .onBatch → held = 0) ∧ (Granted w → held.map Prod.fst = left call r) := by
  cases r with
  | ok _ =>
    obtain rfl := (h : held = 0)
    exact ⟨fun _ => rfl,fun _ => rfl⟩
  | error e =>
    obtain ⟨rfl,rfl⟩ | ⟨rfl,hkinds⟩ := h
    · exact ⟨fun _ => rfl,fun _ => rfl⟩
    · exact ⟨fun hne => absurd rfl hne,hkinds⟩

/-- A session of the client of `ideas/binding` uses and frees nothing that is not there but
temporary LOBs that were refused, and leaves something only where `on_batch` threw: then the
statement, the temporary LOBs of the parameters and the locators of the columns. -/
theorem session_leaks {calls : List Call} (hcalls : ∀ call ∈ calls, call.Proper)
    (l : Ledger Resource) :
    Allowed (Refused w) l.faults (session (perform w) calls l).2.faults ∧
      ∃ kept, (session (perform w) calls l).2.live = kept+l.live ∧
        ((∀ r ∈ (session (perform w) calls l).1, r ≠ .error .onBatch) → kept = 0) ∧
        (Granted w →
          kept.map Prod.fst = lost calls (session (perform w) calls l).1) := by
  induction calls generalizing l with
  | nil => exact ⟨.refl l.faults,0,(zero_add _).symm,fun _ => rfl,fun _ => rfl⟩
  | cons call calls ih =>
    have hspec := spec_perform (w := w) (hcalls call List.mem_cons_self)
    obtain ⟨held,hheld,hlive,hfaults⟩ := hspec l l.live (zero_add _).symm
    obtain ⟨hfaults',kept,hlive',hnone,hkinds⟩ :=
      ih (fun c hc => hcalls c (List.mem_cons_of_mem _ hc)) (perform w call l).2
    refine ⟨hfaults.trans hfaults',kept+held,?_,fun hr => ?_,fun hw => ?_⟩
    · rw [add_assoc,← hlive]
      exact hlive'
    · rw [hnone fun r hmem => hr r (List.mem_cons_of_mem _ hmem),
        (kinds_of_outcome hheld).1 (hr _ List.mem_cons_self),add_zero]
    · rw [Multiset.map_add,hkinds hw,(kinds_of_outcome hheld).2 hw,add_comm]
      rfl

theorem session_leaks_select :
    let w : World :=
      ⟨fun _ => true,fun t => t == 12,fun _ => false,fun _ => false,fun _ => true⟩
    let q : Query := ⟨[.lob true 32,.plain 4],2,true,[2],true,[.rows 2,.noData 1]⟩
    let calls : List Call := [.selectRowsWith [.lob false 24] q,.selectRows q]
    let s := session (perform w) calls Ledger.empty
    Allowed (Refused w) [] s.2.faults ∧ ∃ kept, s.2.live = kept+0 ∧
      kept.map Prod.fst = {.statement,.temporary,.locator,.locator} := by
  intro w q calls s
  have hcalls : ∀ call ∈ calls, call.Proper := by
    simp [calls,q,Call.Proper,Query.Proper,Fetch.count]
  obtain ⟨hfaults,kept,hlive,_,hkinds⟩ := session_leaks (w := w) hcalls Ledger.empty
  refine ⟨hfaults,kept,hlive,(hkinds ⟨fun _ => rfl,fun _ => rfl⟩).trans ?_⟩
  decide +kernel +zetaReduce

end Raw

end ClientResources
end Marketlib
