import Mathlib.Data.List.DropRight
import Marketlib.ConfigBind
import Marketlib.Effects
import Marketlib.LittleEndian
import Marketlib.SelectRows
import Marketlib.Transition

/-! `OciStatement`: its methods as they are called, with every OCI call that they make and the
status it returns. What OCI replies is a parameter. A method that throws ends with the message
and with the statement as it is then. -/

namespace Marketlib

open Binding

namespace OciStatement

open SelectRows (State OciCallResult ExecResult classify uppercased)

/-- The calls of OCI that the class makes, with what it passes by value. -/
inductive OciCall
  | stmtPrepare (sql : Text)
  | bindByName (placeholder : Text) (dataType : ℕ) (len : ℤ)
  | bindArrayOfStruct (pvskip : ℤ) (alskip : ℕ)
  | defineByPos (position dataType : ℕ) (len : ℤ)
  | defineArrayOfStruct (pvskip rlskip : ℕ)
  | attrSetPrefetchRows (rows : ℕ)
  | attrGetParamCount
  | paramGet (position : ℕ)
  | attrGetName
  | attrGetDataType
  | attrGetDataSize
  | descriptorFree
  | stmtExecute (iters : ℕ)
  | stmtFetch (nrows : ℕ)
  | attrGetStmtState
  | attrGetRowsFetched
  | dateToText
  | errorGet

/-- What a call returns and writes through its pointers. -/
structure Reply where
  status : ℤ
  errorCode : ℤ
  /-- Whether there is a bind or a define handle afterwards. -/
  handle : Bool
  value : ℕ
  name : Text

/-- OCI, and what else the class reads, over a state `ω` that it does not own. -/
structure Oci (ω δ : Type) where
  reply : ω → OciCall → Reply × ω
  /-- `conn_.err()` is not null. -/
  hasError : ω → Bool
  /-- `statement_logger()` is set. -/
  logging : ω → Bool
  /-- So many bytes from an address on. -/
  load : ω → δ → ℕ → List UInt8
  /-- `std::to_string` of a `float` or a `double` with these bytes. -/
  floatText : List UInt8 → Text

structure Statement (ω : Type) where
  state : State
  sql : Text
  paramsLog : Text
  world : ω
  /-- The calls of OCI so far. -/
  calls : List (OciCall × ℤ)
  /-- What went to the logger. -/
  lines : List Text

/-- The constructor. -/
def init {ω : Type} (world : ω) : Statement ω := ⟨.unprepared,[],[],world,[],[]⟩

/-- The message of an `OciStatementStateError`, or a result; either way the statement. -/
abbrev Method (ω α : Type) := ExceptT Text (StateM (Statement ω)) α

def stateName : State → String
  | .unprepared => "Unprepared"
  | .prepared => "Prepared"
  | .executed => "Executed"
  | .endOfFetch => "EndOfFetch"

section Methods

variable {ω δ : Type} (oci : Oci ω δ)

/-- `require_state`, and the checks that methods write out. -/
def requireState (allowed : List State) (op expected : String) : Method ω Unit := do
  let s ← get
  if s.state ∈ allowed then pure ()
  else throw ("OciStatement::" ++ op ++ "(): statement is " ++ stateName s.state ++
    ", expected " ++ expected).toList

/-- A call of OCI. -/
def call (c : OciCall) : Method ω Reply := do
  let s ← get
  let (reply,world) := oci.reply s.world c
  set { s with world, calls := s.calls ++ [(c,reply.status)] }
  return reply

/-- `call_oci`. -/
def callOci (c : OciCall) : Method ω (Reply × OciCallResult) := do
  let reply ← call oci c
  if reply.status ≠ 0 ∧ oci.hasError (← get).world then
    let error ← call oci .errorGet
    return (reply,⟨reply.status,error.errorCode⟩)
  else return (reply,⟨reply.status,0⟩)

def prepare (sql : Text) : Method ω Unit := do
  requireState [.unprepared] "prepare" "Unprepared"
  let _ ← callOci oci (.stmtPrepare sql)
  modify fun s => { s with state := .prepared, sql, paramsLog := [] }

/-- `SQLT_ODT`. -/
def sqltOdt : ℕ := 156

/-- `SQLT_INT` -/
def signedText (bytes : List UInt8) : Text :=
  decimal (Int.bmod (LittleEndian.ofBytes bytes) (256^bytes.length))

/-- `SQLT_UIN` -/
def unsignedText (bytes : List UInt8) : Text := decimal (LittleEndian.ofBytes bytes)

/-- A buffer of text, without the zeros at its end. -/
def bufferText (bytes : List UInt8) : Text :=
  (bytes.rdropWhile fun b => b = 0).map fun b => Char.ofNat b.toNat

/-- `render_typed_value` for all but a null pointer and a date. -/
def Oci.render (world : ω) (dataType : ℕ) (data : δ) (len : ℤ) : Text :=
  let bytes := oci.load world data
  let other := "<unrendered type ".toList ++ decimal dataType ++ ['>']
  match dataType with
  | 3 => if len = 2 ∨ len = 4 ∨ len = 8 then signedText (bytes len.toNat) else other
  | 68 => if len = 2 ∨ len = 4 ∨ len = 8 then unsignedText (bytes len.toNat) else other
  | 21 => oci.floatText (bytes 4)
  | 22 => oci.floatText (bytes 8)
  | 1 | 96 => "'".toList ++ bufferText (bytes (len % 2^64).toNat) ++ "'".toList
  | 112 => "<CLOB>".toList
  | 113 => "<BLOB>".toList
  | _ => other

def renderTypedValue (dataType : ℕ) (data : Option δ) (len : ℤ) : Method ω Text := do
  match data with
  | none => return "NULL".toList
  | some data =>
    if dataType = sqltOdt then
      let reply ← call oci .dateToText
      if reply.status = 0 then return "'".toList ++ reply.name ++ "'".toList
      else return "<OciDate, unrenderable>".toList
    else return oci.render (← get).world dataType data len

/-- The addition to `params_log_`. -/
def logParam (fieldName : Text) (dataType : ℕ) (data : Option δ) (len : ℤ)
    (indicator : Option Int16) : Method ω Unit := do
  let value ← if indicator = some SelectRows.indNull then pure "NULL".toList
    else renderTypedValue oci dataType data len
  modify fun s => { s with
    paramsLog := (if s.paramsLog = [] then [] else s.paramsLog ++ [',',' ']) ++ fieldName ++
      '=' :: value }

def bindName (fieldName : Text) (dataType : ℕ) (data : Option δ) (len : ℤ)
    (indicator : Option Int16) : Method ω OciCallResult := do
  requireState [.prepared,.executed] "bindName" "Prepared or Executed"
  if oci.logging (← get).world then logParam oci fieldName dataType data len indicator
  let (_,result) ← callOci oci (.bindByName (':' :: fieldName) dataType len)
  return result

def bindNameArray (fieldName : Text) (dataType : ℕ) (elemSize stride : ℤ) (alskip : ℕ) :
    Method ω OciCallResult := do
  requireState [.prepared,.executed] "bindNameArray" "Prepared or Executed"
  let (reply,result) ← callOci oci (.bindByName (':' :: fieldName) dataType elemSize)
  if reply.handle then
    let _ ← call oci (.bindArrayOfStruct stride alskip)
  return result

def bindOutput (position dataType : ℕ) (len elemSize : ℤ) (rlskip : ℕ) :
    Method ω OciCallResult := do
  requireState [.prepared,.executed,.endOfFetch] "bindOutput" "Prepared, Executed, or EndOfFetch"
  let (reply,result) ← callOci oci (.defineByPos position dataType len)
  if let some skips := SelectRows.arraySkips elemSize rlskip reply.handle then
    let _ ← call oci (.defineArrayOfStruct skips.pvskip skips.rlskip)
  return result

def setPrefetchRows (rows : ℕ) : Method ω Unit := do
  requireState [.prepared] "set_prefetch_rows" "Prepared"
  let _ ← call oci (.attrSetPrefetchRows rows)

/-- The loop of `describeColumnPosition`. -/
def findPosition (target : Text) : List ℕ → Method ω ℕ
  | [] => return 0
  | position :: positions => do
    let _ ← call oci (.paramGet position)
    let name ← call oci .attrGetName
    let _ ← call oci .descriptorFree
    if uppercased name.name = target then return position
    else findPosition target positions

def describeColumnPosition (name : Text) : Method ω ℕ := do
  requireState [.executed,.endOfFetch] "describeColumnPosition"
    "Executed -- call execute() first"
  let count ← call oci .attrGetParamCount
  findPosition oci (uppercased name) (List.range' 1 count.value)

structure ColumnInfo where
  name : Text
  position : ℕ
  oracleType : ℕ
  dataSize : ℕ

/-- The loop of `describeColumns`. -/
def describeAll : List ℕ → Method ω (List ColumnInfo)
  | [] => return []
  | position :: positions => do
    let _ ← call oci (.paramGet position)
    let name ← call oci .attrGetName
    let dataType ← call oci .attrGetDataType
    let dataSize ← call oci .attrGetDataSize
    let _ ← call oci .descriptorFree
    let columns ← describeAll positions
    return ⟨name.name,position,dataType.value,dataSize.value⟩ :: columns

def describeColumns : Method ω (List ColumnInfo) := do
  requireState [.executed,.endOfFetch] "describeColumns" "Executed -- call execute() first"
  let count ← call oci .attrGetParamCount
  describeAll oci (List.range' 1 count.value)

/-- `sync_state_from_oci`. -/
def syncStateFromOci : Method ω Unit := do
  let reply ← call oci .attrGetStmtState
  modify fun s => { s with
    state := if reply.value = 2 then .executed else if reply.value = 3 then .endOfFetch
      else s.state }

/-- The line that `execute` logs. -/
def logExecute : Method ω Unit := modify fun s => { s with
  lines := s.lines ++ ["SQL: ".toList ++ s.sql ++
    if s.paramsLog = [] then [] else " | ".toList ++ s.paramsLog] }

def execute (iters : ℕ) : Method ω ExecResult := do
  requireState [.prepared,.executed] "execute" "Prepared or Executed"
  if oci.logging (← get).world then logExecute
  let (_,result) ← callOci oci (.stmtExecute iters)
  syncStateFromOci oci
  return ⟨classify result,result⟩

def fetch (nrows : ℕ) : Method ω ExecResult := do
  requireState [.executed,.endOfFetch] "fetch" "Executed or EndOfFetch -- call execute() first"
  let (_,result) ← callOci oci (.stmtFetch nrows)
  syncStateFromOci oci
  return ⟨classify result,result⟩

def rowsFetched : Method ω ℕ := do
  let reply ← call oci .attrGetRowsFetched
  return reply.value

end Methods

/-- The public methods that call OCI. -/
inductive Call (δ : Type)
  | prepare (sql : Text)
  | bindName (fieldName : Text) (dataType : ℕ) (data : Option δ) (len : ℤ)
      (indicator : Option Int16)
  | bindNameArray (fieldName : Text) (dataType : ℕ) (elemSize stride : ℤ) (alskip : ℕ)
  | bindOutput (position dataType : ℕ) (len elemSize : ℤ) (rlskip : ℕ)
  | setPrefetchRows (rows : ℕ)
  | describeColumnPosition (name : Text)
  | describeColumns
  | execute (iters : ℕ)
  | fetch (nrows : ℕ)
  | rowsFetched

/-- A method, with its result dropped. -/
def perform {ω δ : Type} (oci : Oci ω δ) : Call δ → Method ω Unit
  | .prepare sql => prepare oci sql
  | .bindName fieldName dataType data len indicator => do
    let _ ← bindName oci fieldName dataType data len indicator
    return ()
  | .bindNameArray fieldName dataType elemSize stride alskip => do
    let _ ← bindNameArray oci fieldName dataType elemSize stride alskip
    return ()
  | .bindOutput position dataType len elemSize rlskip => do
    let _ ← bindOutput oci position dataType len elemSize rlskip
    return ()
  | .setPrefetchRows rows => setPrefetchRows oci rows
  | .describeColumnPosition name => do
    let _ ← describeColumnPosition oci name
    return ()
  | .describeColumns => do
    let _ ← describeColumns oci
    return ()
  | .execute iters => do
    let _ ← execute oci iters
    return ()
  | .fetch nrows => do
    let _ ← fetch oci nrows
    return ()
  | .rowsFetched => do
    let _ ← rowsFetched oci
    return ()

/-- A step of a program: a method, or something else that OCI does meanwhile. -/
inductive Action (ω δ : Type)
  | call (c : Call δ)
  | other (world : ω)

def step {ω δ : Type} (oci : Oci ω δ) (s : Statement ω) : Action ω δ → Option (Statement ω)
  | .call c => some (perform oci c s).2
  | .other world => some { s with world }

/-! ### What a method calls -/

/-- The calls that need a prepared handle. -/
def OciCall.needsPrepared : OciCall → Bool
  | .bindByName .. | .defineByPos .. | .stmtExecute _ | .stmtFetch _ => true
  | _ => false

def OciCall.isPrepare : OciCall → Bool
  | .stmtPrepare _ => true
  | _ => false

section Effects

open Effects

variable {ω δ : Type} (oci : Oci ω δ)

/-- Some more calls, none of which prepares a handle or needs a prepared one. -/
def Harmless (new : List (OciCall × ℤ)) : Prop :=
  ∀ e ∈ new, e.1.needsPrepared = false ∧ e.1.isPrepare = false

structure Adds (s t : Statement ω) : Prop where
  state : t.state = s.state
  calls : ∃ new, t.calls = s.calls ++ new ∧ Harmless new

structure Syncs (s t : Statement ω) : Prop where
  state : t.state = s.state ∨ t.state = .executed ∨ t.state = .endOfFetch
  calls : ∃ new, t.calls = s.calls ++ new ∧ Harmless new

/-- The call `c` among harmless ones. -/
structure Makes (c : OciCall) (s t : Statement ω) : Prop where
  state : t.state = s.state ∨ t.state = .executed ∨ t.state = .endOfFetch
  calls : ∃ before status after, t.calls = s.calls ++ (before ++ (c,status) :: after) ∧
    Harmless (before ++ after)

theorem Harmless.append {xs ys : List (OciCall × ℤ)} (hx : Harmless xs) (hy : Harmless ys) :
    Harmless (xs ++ ys) := fun e he => (List.mem_append.mp he).elim (hx e) (hy e)

theorem Adds.refl (s : Statement ω) : Adds s s := ⟨rfl,[],by simp,nofun⟩

theorem Adds.trans {s t u : Statement ω} (h : Adds s t) (h' : Adds t u) : Adds s u := by
  obtain ⟨new,hnew,hharmless⟩ := h.calls
  obtain ⟨new',hnew',hharmless'⟩ := h'.calls
  refine ⟨h'.state.trans h.state,new ++ new',?_,hharmless.append hharmless'⟩
  rw [hnew',hnew,List.append_assoc]

theorem Makes.after {c : OciCall} {s t u : Statement ω} (h : Adds s t) (h' : Makes c t u) :
    Makes c s u := by
  obtain ⟨new,hnew,hharmless⟩ := h.calls
  obtain ⟨before,status,after,hcalls,hrest⟩ := h'.calls
  refine ⟨h.state ▸ h'.state,new ++ before,status,after,?_,?_⟩
  · rw [hcalls,hnew,List.append_assoc,List.append_assoc]
  · rw [List.append_assoc]
    exact hharmless.append hrest

theorem Makes.sync {c : OciCall} {s t u : Statement ω} (h : Makes c s t) (h' : Syncs t u) :
    Makes c s u := by
  obtain ⟨new,hnew,hharmless⟩ := h'.calls
  obtain ⟨before,status,after,hcalls,hrest⟩ := h.calls
  refine ⟨?_,before,status,after ++ new,?_,?_⟩
  · rcases h'.state with hstate | hstate
    · exact hstate ▸ h.state
    · exact .inr hstate
  · rw [hnew,hcalls,List.append_assoc,List.append_assoc,List.cons_append]
  · rw [← List.append_assoc]
    exact hrest.append hharmless

theorem Makes.before {c : OciCall} {s t u : Statement ω} (h : Makes c s t) (h' : Adds t u) :
    Makes c s u := h.sync ⟨.inl h'.state,h'.calls⟩

theorem call_makes (c : OciCall) : Does (call oci c) (Makes (ω := ω) c) :=
  fun _ => ⟨_,_,rfl,.inl rfl,[],_,[],rfl,nofun⟩

theorem call_adds {c : OciCall} (hc : c.needsPrepared = false ∧ c.isPrepare = false) :
    Does (call oci c) (Adds (ω := ω)) := by
  refine fun _ => ⟨_,_,rfl,rfl,[(c,_)],rfl,fun e he => ?_⟩
  rw [List.mem_singleton.mp he]
  exact hc

theorem callOci_makes (c : OciCall) : Does (callOci oci c) (Makes (ω := ω) c) := by
  refine (call_makes oci c).bind (fun reply => ?_) Makes.before
  refine does_get_bind fun s => ?_
  split_ifs
  · exact (call_adds oci ⟨rfl,rfl⟩).bind (fun _ => does_pure _ Adds.refl) Adds.trans
  · exact does_pure _ Adds.refl

theorem renderTypedValue_adds (dataType : ℕ) (data : Option δ) (len : ℤ) :
    Does (renderTypedValue oci dataType data len) (Adds (ω := ω)) := by
  cases data with
  | none => exact does_pure _ Adds.refl
  | some data =>
    rw [renderTypedValue.eq_2]
    split_ifs
    · refine (call_adds oci ⟨rfl,rfl⟩).bind (fun reply => ?_) Adds.trans
      split_ifs
      · exact does_pure _ Adds.refl
      · exact does_pure _ Adds.refl
    · exact does_get_bind fun s => does_pure _ Adds.refl

theorem logParam_adds (fieldName : Text) (dataType : ℕ) (data : Option δ) (len : ℤ)
    (indicator : Option Int16) :
    Does (logParam oci fieldName dataType data len indicator) (Adds (ω := ω)) := by
  rw [logParam]
  have hmodify (value : Text) := does_modify (ε := Text) (fun s : Statement ω => { s with
    paramsLog := (if s.paramsLog = [] then [] else s.paramsLog ++ [',',' ']) ++ fieldName ++
      '=' :: value }) (r := Adds) fun s => ⟨rfl,[],by simp,nofun⟩
  split_ifs
  · exact (does_pure _ Adds.refl).bind hmodify Adds.trans
  · exact (renderTypedValue_adds oci dataType data len).bind hmodify Adds.trans

theorem findPosition_adds (target : Text) (positions : List ℕ) :
    Does (findPosition oci target positions) (Adds (ω := ω)) := by
  induction positions with
  | nil => exact does_pure _ Adds.refl
  | cons position positions ih =>
    refine (call_adds oci ⟨rfl,rfl⟩).bind (fun _ => ?_) Adds.trans
    refine (call_adds oci ⟨rfl,rfl⟩).bind (fun name => ?_) Adds.trans
    refine (call_adds oci ⟨rfl,rfl⟩).bind (fun _ => ?_) Adds.trans
    split_ifs
    · exact does_pure _ Adds.refl
    · exact ih

theorem describeAll_adds (positions : List ℕ) :
    Does (describeAll oci positions) (Adds (ω := ω)) := by
  induction positions with
  | nil => exact does_pure _ Adds.refl
  | cons position positions ih =>
    refine (call_adds oci ⟨rfl,rfl⟩).bind (fun _ => ?_) Adds.trans
    refine (call_adds oci ⟨rfl,rfl⟩).bind (fun name => ?_) Adds.trans
    refine (call_adds oci ⟨rfl,rfl⟩).bind (fun dataType => ?_) Adds.trans
    refine (call_adds oci ⟨rfl,rfl⟩).bind (fun dataSize => ?_) Adds.trans
    refine (call_adds oci ⟨rfl,rfl⟩).bind (fun _ => ?_) Adds.trans
    exact ih.bind (fun columns => does_pure _ Adds.refl) Adds.trans

theorem logExecute_adds : Does (logExecute (ω := ω)) Adds :=
  does_modify _ fun s => ⟨rfl,[],by simp,nofun⟩

theorem sync_syncs {α : Type} (a : α) :
    Does (syncStateFromOci oci >>= fun _ => pure a) (Syncs (ω := ω)) := by
  intro s
  obtain ⟨reply,t,hcall,hadds⟩ := call_adds (ω := ω) oci (c := .attrGetStmtState) ⟨rfl,rfl⟩ s
  refine ⟨a,{ t with state := if reply.value = 2 then .executed
    else if reply.value = 3 then .endOfFetch else t.state },bind_ok (bind_ok hcall),?_,hadds.calls⟩
  dsimp only
  split_ifs
  · exact .inr (.inl rfl)
  · exact .inr (.inr rfl)
  · exact .inl hadds.state

theorem requireState_ok {allowed : List State} {op expected : String} {s : Statement ω}
    (h : s.state ∈ allowed) : requireState allowed op expected s = (.ok (),s) := by
  change (if s.state ∈ allowed then _ else _ : Method ω Unit) s = _
  rw [if_pos h]
  rfl

theorem requireState_error {allowed : List State} {op expected : String} {s : Statement ω}
    (h : s.state ∉ allowed) : ∃ e, requireState allowed op expected s = (.error e,s) := by
  change ∃ e, (if s.state ∈ allowed then _ else _ : Method ω Unit) s = _
  rw [if_neg h]
  exact ⟨_,rfl⟩

/-- The states that a method is for. -/
def Call.allowed : Call δ → List State
  | .prepare _ => [.unprepared]
  | .bindName .. | .bindNameArray .. | .execute _ => [.prepared,.executed]
  | .bindOutput .. => [.prepared,.executed,.endOfFetch]
  | .setPrefetchRows _ => [.prepared]
  | .describeColumnPosition _ | .describeColumns | .fetch _ => [.executed,.endOfFetch]
  | .rowsFetched => [.unprepared,.prepared,.executed,.endOfFetch]

/-- What a method that does not throw does. -/
def Call.Effect : Call δ → Statement ω → Statement ω → Prop
  | .prepare sql,s,t => t.state = .prepared ∧ ∃ before status after,
      t.calls = s.calls ++ (before ++ (.stmtPrepare sql,status) :: after) ∧
        Harmless (before ++ after)
  | .bindName fieldName dataType _ len _,s,t =>
    Makes (.bindByName (':' :: fieldName) dataType len) s t
  | .bindNameArray fieldName dataType elemSize _ _,s,t =>
    Makes (.bindByName (':' :: fieldName) dataType elemSize) s t
  | .bindOutput position dataType len _ _,s,t => Makes (.defineByPos position dataType len) s t
  | .execute iters,s,t => Makes (.stmtExecute iters) s t
  | .fetch nrows,s,t => Makes (.stmtFetch nrows) s t
  | .setPrefetchRows _,s,t | .describeColumnPosition _,s,t | .describeColumns,s,t
  | .rowsFetched,s,t => Adds s t

theorem guarded_ok {α : Type} {allowed : List State} {op expected : String} {s : Statement ω}
    (h : s.state ∈ allowed) {m : Unit → Method ω α} {r : Statement ω → Statement ω → Prop}
    (hm : Does (m ()) r) : ∃ a t, (requireState allowed op expected >>= m) s = (.ok a,t) ∧ r s t := by
  rw [bind_ok (requireState_ok h)]
  exact hm s

theorem drop_ok {α : Type} {m : Method ω α} {r : Statement ω → Statement ω → Prop}
    {s : Statement ω} (h : ∃ a t, m s = (.ok a,t) ∧ r s t) :
    ∃ t, (m >>= fun _ => pure ()) s = (.ok (),t) ∧ r s t := by
  obtain ⟨a,t,hm,hr⟩ := h
  exact ⟨t,bind_ok hm,hr⟩

theorem perform_allowed {c : Call δ} {s : Statement ω} (h : s.state ∈ c.allowed) :
    ∃ t, perform oci c s = (.ok (),t) ∧ c.Effect s t := by
  cases c with
  | prepare sql =>
    obtain ⟨r,t,hcall,hmakes⟩ := callOci_makes oci (.stmtPrepare sql) s
    refine ⟨{ t with state := .prepared, sql, paramsLog := [] },?_,rfl,hmakes.calls⟩
    exact (bind_ok (requireState_ok h)).trans (bind_ok hcall)
  | bindName fieldName dataType data len indicator =>
    refine drop_ok (guarded_ok h (does_get_bind fun _ => ?_))
    have hbind := (callOci_makes (ω := ω) oci (.bindByName (':' :: fieldName) dataType len)).bind
      (fun r => does_pure r.2 Adds.refl) Makes.before
    split_ifs
    · exact (logParam_adds oci _ _ _ _ _).bind (fun _ => hbind) Makes.after
    · exact hbind
  | bindNameArray fieldName dataType elemSize stride alskip =>
    refine drop_ok (guarded_ok h ((callOci_makes oci _).bind (fun r => ?_) Makes.before))
    dsimp only
    split_ifs
    · exact (call_adds oci ⟨rfl,rfl⟩).bind (fun _ => does_pure _ Adds.refl) Adds.trans
    · exact does_pure _ Adds.refl
  | bindOutput position dataType len elemSize rlskip =>
    refine drop_ok (guarded_ok h ((callOci_makes oci _).bind (fun r => ?_) Makes.before))
    dsimp only
    split
    · exact (call_adds oci ⟨rfl,rfl⟩).bind (fun _ => does_pure _ Adds.refl) Adds.trans
    · exact does_pure _ Adds.refl
  | setPrefetchRows rows =>
    obtain ⟨_,t,hm,hr⟩ : ∃ a t, perform oci (.setPrefetchRows rows) s = (.ok a,t) ∧ Adds s t :=
      guarded_ok h ((call_adds oci ⟨rfl,rfl⟩).bind (fun _ => does_pure _ Adds.refl) Adds.trans)
    exact ⟨t,hm,hr⟩
  | describeColumnPosition name =>
    refine drop_ok (guarded_ok h ((call_adds oci ⟨rfl,rfl⟩).bind (fun r => ?_) Adds.trans))
    exact findPosition_adds oci _ _
  | describeColumns =>
    refine drop_ok (guarded_ok h ((call_adds oci ⟨rfl,rfl⟩).bind (fun r => ?_) Adds.trans))
    exact describeAll_adds oci _
  | execute iters =>
    refine drop_ok (guarded_ok h (does_get_bind fun _ => ?_))
    have hcall := (callOci_makes (ω := ω) oci (.stmtExecute iters)).bind
      (fun r => sync_syncs oci (⟨classify r.2,r.2⟩ : ExecResult)) Makes.sync
    split_ifs
    · exact logExecute_adds.bind (fun _ => hcall) Makes.after
    · exact hcall
  | fetch nrows =>
    exact drop_ok (guarded_ok h ((callOci_makes oci _).bind (fun r => sync_syncs oci _) Makes.sync))
  | rowsFetched =>
    exact drop_ok ((call_adds oci ⟨rfl,rfl⟩).bind (fun r => does_pure r.value Adds.refl)
      Adds.trans s)

/-- A method that throws has done nothing. -/
theorem perform_refused {c : Call δ} {s : Statement ω} (h : s.state ∉ c.allowed) :
    ∃ e, perform oci c s = (.error e,s) := by
  cases c with
  | prepare | setPrefetchRows =>
    obtain ⟨e,he⟩ := requireState_error h
    exact ⟨e,bind_error he⟩
  | bindName | bindNameArray | bindOutput | describeColumnPosition | describeColumns | execute
  | fetch =>
    obtain ⟨e,he⟩ := requireState_error h
    exact ⟨e,bind_error (bind_error he)⟩
  | rowsFetched =>
    refine absurd ?_ h
    cases s.state <;> simp [Call.allowed]

end Effects

/-! ### Runs -/

/-- Whether an `OCIStmtPrepare` among the calls returned a status like this. -/
def PrepareReturned (p : ℤ → Prop) (calls : List (OciCall × ℤ)) : Prop :=
  ∃ sql status, (.stmtPrepare sql,status) ∈ calls ∧ p status

abbrev Prepared : List (OciCall × ℤ) → Prop := PrepareReturned fun status => 0 ≤ status

abbrev PrepareFailed : List (OciCall × ℤ) → Prop := PrepareReturned fun status => status < 0

/-- Every call that needs a prepared handle comes after an `OCIStmtPrepare` that succeeded. -/
def Guarded (calls : List (OciCall × ℤ)) : Prop :=
  ∀ before c status after, calls = before ++ (c,status) :: after → c.needsPrepared = true →
    Prepared before

/-- The methods that pass the handle on as soon as `prepare` has returned. -/
def Call.usesHandle {δ : Type} : Call δ → Bool
  | .bindName .. | .bindNameArray .. | .bindOutput .. | .execute _ => true
  | _ => false

/-- The handle is not used after its `OCIStmtPrepare` failed. -/
def Careful {ω δ : Type} (s : Statement ω) : Action ω δ → Prop
  | .call c => c.usesHandle = true → ¬PrepareFailed s.calls
  | .other _ => True

theorem PrepareReturned.append {p : ℤ → Prop} {xs : List (OciCall × ℤ)}
    (h : PrepareReturned p xs) (ys : List (OciCall × ℤ)) : PrepareReturned p (xs ++ ys) := by
  obtain ⟨sql,status,hmem,hp⟩ := h
  exact ⟨sql,status,List.mem_append_left ys hmem,hp⟩

theorem prepareReturned_append {p : ℤ → Prop} {xs ys : List (OciCall × ℤ)}
    (hys : ∀ e ∈ ys, e.1.isPrepare = false) :
    PrepareReturned p (xs ++ ys) ↔ PrepareReturned p xs := by
  refine ⟨?_,fun h => h.append ys⟩
  rintro ⟨sql,status,hmem,hp⟩
  rcases List.mem_append.mp hmem with hx | hy
  · exact ⟨sql,status,hx,hp⟩
  · cases hys _ hy

theorem Guarded.left {xs ys : List (OciCall × ℤ)} (h : Guarded (xs ++ ys)) : Guarded xs := by
  rintro before c status after rfl hc
  exact h before c status (after ++ ys) (by simp) hc

theorem Guarded.append {xs : List (OciCall × ℤ)} (h : Guarded xs) (hprepared : Prepared xs)
    (ys : List (OciCall × ℤ)) : Guarded (xs ++ ys) := by
  intro before c status after heq hc
  rcases List.append_eq_append_iff.mp heq with ⟨more,rfl,-⟩ | ⟨more,rfl,hmore⟩
  · exact hprepared.append more
  · cases more with
    | nil => exact (List.append_nil before ▸ hprepared)
    | cons e more =>
      cases hmore
      exact h before c status more rfl hc

theorem guarded_of_none {xs : List (OciCall × ℤ)} (h : ∀ e ∈ xs, e.1.needsPrepared = false) :
    Guarded xs := by
  rintro before c status after rfl hc
  rw [h (c,status) (by simp)] at hc
  cases hc

section Runs

variable {ω δ : Type} {oci : Oci ω δ} {s t u : Statement ω}

/-- How a careful program stands. -/
inductive Phase (s : Statement ω) : Prop
  | fresh (hstate : s.state = .unprepared) (hcalls : Harmless s.calls)
  | ready (hstate : s.state ≠ .unprepared) (hprepared : Prepared s.calls)
      (hnot : ¬PrepareFailed s.calls) (hguarded : Guarded s.calls)
  | failed (hstate : s.state = .prepared) (hfailed : PrepareFailed s.calls)
      (hnot : ¬Prepared s.calls) (hnone : ∀ e ∈ s.calls, e.1.needsPrepared = false)

theorem Phase.adds (h : Phase s) (hadds : Adds s t) : Phase t := by
  obtain ⟨hstate,new,hnew,hharmless⟩ := hadds
  have hprepare {p : ℤ → Prop} : PrepareReturned p t.calls ↔ PrepareReturned p s.calls := by
    rw [hnew,prepareReturned_append fun e he => (hharmless e he).2]
  cases h with
  | fresh hs hcalls => exact .fresh (hstate.trans hs) (hnew ▸ hcalls.append hharmless)
  | ready hs hprepared hnot hguarded =>
    refine .ready (hstate ▸ hs) (hprepare.mpr hprepared) (fun h => hnot (hprepare.mp h)) ?_
    exact hnew ▸ hguarded.append hprepared new
  | failed hs hfailed hnot hnone =>
    refine .failed (hstate.trans hs) (hprepare.mpr hfailed) (fun h => hnot (hprepare.mp h)) ?_
    intro e he
    rcases List.mem_append.mp (hnew ▸ he) with he | he
    · exact hnone e he
    · exact (hharmless e he).1

theorem Makes.grows {c : OciCall} (h : Makes c s t) (hc : c.isPrepare = false) :
    ∃ new, t.calls = s.calls ++ new ∧ ∀ e ∈ new, e.1.isPrepare = false := by
  obtain ⟨before,status,after,hcalls,hharmless⟩ := h.calls
  refine ⟨_,hcalls,fun e he => ?_⟩
  rcases List.mem_append.mp he with he | he
  · exact (hharmless e (List.mem_append_left _ he)).2
  · rcases List.mem_cons.mp he with rfl | he
    · exact hc
    · exact (hharmless e (List.mem_append_right _ he)).2

theorem Phase.makes {c : OciCall} (hprepared : Prepared s.calls) (hnot : ¬PrepareFailed s.calls)
    (hguarded : Guarded s.calls) (hstate : s.state ≠ .unprepared) (hmakes : Makes c s t)
    (hc : c.isPrepare = false) : Phase t := by
  obtain ⟨new,hnew,hprepare⟩ := hmakes.grows hc
  refine .ready ?_ ?_ ?_ ?_
  · rcases hmakes.state with h | h | h <;> rw [h]
    · exact hstate
    · nofun
    · nofun
  · exact hnew ▸ hprepared.append new
  · exact fun h => hnot ((prepareReturned_append hprepare).mp (hnew ▸ h))
  · exact hnew ▸ hguarded.append hprepared new

theorem Phase.prepare {sql : Text} (h : Harmless s.calls)
    (heffect : (Call.prepare sql : Call δ).Effect s t) : Phase t := by
  obtain ⟨hstate,before,status,after,hcalls,hharmless⟩ := heffect
  have hall := h.append hharmless
  have hmem {e : OciCall × ℤ} (he : e ∈ t.calls) :
      e = (.stmtPrepare sql,status) ∨ e ∈ s.calls ++ (before ++ after) := by
    rw [hcalls] at he
    simp only [List.mem_append,List.mem_cons] at he ⊢
    tauto
  have hnone : ∀ e ∈ t.calls, e.1.needsPrepared = false := by
    intro e he
    rcases hmem he with rfl | he
    · rfl
    · exact (hall e he).1
  have hprepare {p : ℤ → Prop} : PrepareReturned p t.calls ↔ p status := by
    constructor
    · rintro ⟨sql',status',he,hp⟩
      rcases hmem he with heq | he
      · cases heq
        exact hp
      · cases (hall _ he).2
    · exact fun hp => ⟨sql,status,hcalls ▸ by simp,hp⟩
  rcases le_or_gt 0 status with hstatus | hstatus
  · refine .ready (by rw [hstate]; nofun) (hprepare.mpr hstatus) ?_ (guarded_of_none hnone)
    exact fun hfailed => absurd (hprepare.mp hfailed) (not_lt.mpr hstatus)
  · refine .failed hstate (hprepare.mpr hstatus) ?_ hnone
    exact fun hprepared => absurd (hprepare.mp hprepared) (not_le.mpr hstatus)

theorem Call.Effect.cases {c : Call δ} (h : c.Effect s t) :
    (∃ sql, c = .prepare sql) ∨
      (c.allowed ⊆ [.prepared,.executed,.endOfFetch] ∧
        (c.usesHandle = true ∨ .prepared ∉ c.allowed) ∧
        ∃ oc : OciCall, oc.needsPrepared = true ∧ Makes oc s t) ∨
      c.usesHandle = false ∧ Adds s t := by
  cases c with
  | prepare sql => exact .inl ⟨sql,rfl⟩
  | bindName | bindNameArray | bindOutput | execute =>
    exact .inr (.inl ⟨by simp [Call.allowed],.inl rfl,_,rfl,h⟩)
  | fetch => exact .inr (.inl ⟨by simp [Call.allowed],.inr (by simp [Call.allowed]),_,rfl,h⟩)
  | setPrefetchRows | describeColumnPosition | describeColumns | rowsFetched =>
    exact .inr (.inr ⟨rfl,h⟩)

theorem Call.allowed_of_usesHandle {c : Call δ} (h : c.usesHandle = true) :
    .prepared ∈ c.allowed := by
  cases c with
  | bindName | bindNameArray | bindOutput | execute => simp [Call.allowed]
  | prepare | setPrefetchRows | describeColumnPosition | describeColumns | fetch | rowsFetched =>
    cases h

theorem OciCall.not_prepare {c : OciCall} (h : c.needsPrepared = true) : c.isPrepare = false := by
  cases c <;> first | rfl | cases h

theorem perform_cases (oci : Oci ω δ) (c : Call δ) (s : Statement ω) :
    s.state ∉ c.allowed ∧ (perform oci c s).2 = s ∨
      s.state ∈ c.allowed ∧ c.Effect s (perform oci c s).2 := by
  by_cases h : s.state ∈ c.allowed
  · obtain ⟨t,hperform,heffect⟩ := perform_allowed oci h
    exact .inr ⟨h,by rwa [hperform]⟩
  · obtain ⟨e,hperform⟩ := perform_refused oci h
    exact .inl ⟨h,by rw [hperform]⟩

theorem Phase.next {a : Action ω δ} (h : Phase s) (hcareful : Careful s a)
    (hstep : step oci s a = some t) : Phase t := by
  cases a with
  | other world =>
    cases hstep
    exact h.adds ⟨rfl,[],by simp,nofun⟩
  | call c =>
    cases hstep
    rcases perform_cases oci c s with ⟨-,hsame⟩ | ⟨hallowed,heffect⟩
    · exact hsame.symm ▸ h
    · rcases heffect.cases with ⟨sql,rfl⟩ | ⟨hsub,huses,oc,hoc,hmakes⟩ | ⟨-,hadds⟩
      · have hs : s.state = .unprepared := by simpa [Call.allowed] using hallowed
        cases h with
        | fresh _ hcalls => exact Phase.prepare hcalls heffect
        | ready hstate => exact absurd hs hstate
        | failed hstate => rw [hs] at hstate; cases hstate
      · cases h with
        | fresh hstate _ =>
          have := hsub (hstate ▸ hallowed)
          simp at this
        | ready hstate hprepared hnot hguarded =>
          exact Phase.makes hprepared hnot hguarded hstate hmakes (OciCall.not_prepare hoc)
        | failed hstate hfailed =>
          rcases huses with huses | hnot
          · exact absurd hfailed (hcareful huses)
          · exact absurd (hstate ▸ hallowed) hnot
      · exact h.adds hadds

theorem Phase.guarded (h : Phase s) : Guarded s.calls := by
  cases h with
  | fresh _ hcalls => exact guarded_of_none fun e he => (hcalls e he).1
  | ready _ _ _ hguarded => exact hguarded
  | failed _ _ _ hnone => exact guarded_of_none hnone

theorem step_grows {a : Action ω δ} (hstep : step oci s a = some t) :
    ∃ new, t.calls = s.calls ++ new := by
  cases a with
  | other world =>
    cases hstep
    exact ⟨[],by simp⟩
  | call c =>
    cases hstep
    rcases perform_cases oci c s with ⟨-,hsame⟩ | ⟨-,heffect⟩
    · exact ⟨[],by simp [hsame]⟩
    · rcases heffect.cases with ⟨sql,rfl⟩ | ⟨-,-,oc,-,hmakes⟩ | ⟨-,hadds⟩
      · obtain ⟨-,before,status,after,hcalls,-⟩ := heffect
        exact ⟨_,hcalls⟩
      · obtain ⟨before,status,after,hcalls,-⟩ := hmakes.calls
        exact ⟨_,hcalls⟩
      · obtain ⟨new,hnew,-⟩ := hadds.calls
        exact ⟨new,hnew⟩

/-- Any use of a handle whose `OCIStmtPrepare` failed goes through. -/
theorem Phase.not_guarded {a : Action ω δ} (h : Phase s) (hcareless : ¬Careful s a)
    (hstep : step oci s a = some t) : ¬Guarded t.calls := by
  cases a with
  | other world => exact absurd trivial hcareless
  | call c =>
    cases hstep
    obtain ⟨huses,hfailed⟩ : c.usesHandle = true ∧ PrepareFailed s.calls := by
      simpa [Careful] using hcareless
    cases h with
    | fresh _ hcalls =>
      obtain ⟨sql,status,hmem,-⟩ := hfailed
      cases (hcalls _ hmem).2
    | ready _ _ hnot => exact absurd hfailed hnot
    | failed hstate _ hnot _ =>
      have hallowed : s.state ∈ c.allowed := by
        rw [hstate]
        exact Call.allowed_of_usesHandle huses
      rcases perform_cases oci c s with ⟨hrefused,-⟩ | ⟨-,heffect⟩
      · exact absurd hallowed hrefused
      · rcases heffect.cases with ⟨sql,rfl⟩ | ⟨-,-,oc,hoc,hmakes⟩ | ⟨hnone,-⟩
        · cases huses
        · obtain ⟨before,status,after,hcalls,hharmless⟩ := hmakes.calls
          intro hguarded
          refine hnot ?_
          have hprepared := hguarded (s.calls ++ before) oc status after
            (by rw [hcalls,List.append_assoc]) hoc
          exact (prepareReturned_append fun e he =>
            (hharmless e (List.mem_append_left _ he)).2).mp hprepared
        · rw [hnone] at huses
          cases huses

theorem guarded_iff_careful {as : List (Action ω δ)} (h : Phase s)
    (hrun : Transition.run (step oci) s as = some u) :
    Guarded u.calls ↔ Transition.Admits (step oci) Careful s as := by
  refine Transition.admits_iff (P := Phase) (Q := fun s => Guarded s.calls) ?_ ?_ ?_ ?_ h hrun
  · exact fun s a t hs hcareful hstep => hs.next hcareful hstep
  · exact fun s hs => hs.guarded
  · exact fun s a t hs hcareless hstep => hs.not_guarded hcareless hstep
  · intro s a t hstep hguarded
    obtain ⟨new,hnew⟩ := step_grows hstep
    exact (hnew ▸ hguarded).left

theorem perform_error {c : Call δ} {e : Text} (h : perform oci c s = (.error e,t)) : t = s := by
  by_cases hallowed : s.state ∈ c.allowed
  · obtain ⟨_,hok,-⟩ := perform_allowed oci hallowed
    rw [hok] at h
    cases h
  · obtain ⟨_,herror⟩ := perform_refused oci hallowed
    rw [herror] at h
    cases h
    rfl

end Runs

theorem init_fresh {ω : Type} (world : ω) : Phase (init world) :=
  .fresh rfl fun _ he => absurd he List.not_mem_nil

/-- The guard holds in a run if and only if its program leaves the handle alone once its
`OCIStmtPrepare` has failed; a refused call never does anything. -/
theorem run_guarded_iff {ω δ : Type} (oci : Oci ω δ) (world : ω) {as : List (Action ω δ)}
    {s : Statement ω} (hrun : Transition.run (step oci) (init world) as = some s) :
    (Guarded s.calls ∧ ∀ c e t, perform oci c s = (.error e,t) → t = s) ↔
      Transition.Admits (step oci) Careful (init world) as := by
  rw [← guarded_iff_careful (init_fresh world) hrun]
  exact ⟨And.left,fun h => ⟨h,fun c e t => perform_error⟩⟩

/-- A connection that was never made: no call gets anywhere. -/
def notConnected : Oci Unit Unit where
  reply _ _ := (⟨-2,0,false,0,[]⟩,())
  hasError _ := false
  logging _ := false
  load _ _ _ := []
  floatText _ := []

theorem run_guarded_iff_fetch : ∃ s : Statement Unit,
    Transition.run (step notConnected) (init ())
        [.call (.prepare "SELECT id FROM t".toList),.call (.fetch 1)] = some s ∧
      ((Guarded s.calls ∧ ∀ c e t, perform notConnected c s = (.error e,t) → t = s) ↔
        Transition.Admits (step notConnected) Careful (init ())
          [.call (.prepare "SELECT id FROM t".toList),.call (.fetch 1)]) :=
  ⟨_,rfl,run_guarded_iff notConnected () rfl⟩

/-- The handle of a failed `OCIStmtPrepare` is executed. -/
theorem execute_unprepared : ∃ s : Statement Unit,
    Transition.run (step notConnected) (init ())
        [.call (.prepare "SELECT id FROM t".toList),.call (.execute 0)] = some s ∧
      ¬Guarded s.calls := by
  refine ⟨_,rfl,fun h => ?_⟩
  obtain ⟨sql,status,hmem,hstatus⟩ :=
    h [(.stmtPrepare "SELECT id FROM t".toList,-2)] (.stmtExecute 0) (-2)
      [(.attrGetStmtState,-2)] rfl rfl
  cases List.mem_singleton.mp hmem
  exact absurd hstatus (by decide)

end OciStatement
end Marketlib
