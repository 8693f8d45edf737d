import Marketlib.InsertRows

/-! `execute` of a struct of parameters: its fields are bound by name, each through itself or
through what is staged for it, and OCI reads them when the statement is executed. -/

namespace Marketlib
namespace BoundParams

open Binding

open SelectRows (RowType Kind Cell Datum FieldValue State Stop OciCallResult ExecResult classify
  requireState sizeofPointer indNotNull indNull toSb4)

/-- A struct of parameters, with `oci_type_code_v` of its fields. -/
structure ParamRow extends RowType where
  typeCode : Fin arity → ℕ
  distinct : Function.Injective name

/-- `":" + field_name`. -/
def ParamRow.placeholder (T : ParamRow) (i : Fin T.arity) : Text := ':' :: T.name i

/-! ### Memory -/

/-- An object of the struct, of `staging` or of `indicators`. -/
inductive Place (n : ℕ)
  | field (i : Fin n)
  /-- `length_`, of a `FixedString`. -/
  | length (i : Fin n)
  | staging (i : Fin n)
  | indicator (i : Fin n)
  deriving DecidableEq

abbrev Memory (n : ℕ) (α Λ : Type) := Place n → Cell α Λ

/-! ### OCI -/

/-- What OCI is told with `OCIBindByName`. -/
structure ParamBind (n : ℕ) where
  dataType : ℕ
  data : Place n
  len : ℤ
  indicator : Option (Place n)

/-- What is called of OCI, over its own state `ω`; `Λ` are the locators. -/
structure Oci (ω Λ : Type) where
  stmtPrepare : ω → Text → ω
  bindByName : ω → Text → OciCallResult × ω
  /-- `OCIDescriptorAlloc`, which may give none. -/
  descriptorAlloc : ω → Option Λ × ω
  lobCreateTemporary : ω → Option Λ → (isClob : Bool) → OciCallResult × ω
  lobWrite : ω → Option Λ → Text → OciCallResult × ω
  stmtExecute : ω → (iters : ℕ) → OciCallResult × ω
  /-- `OCI_ATTR_STMT_STATE`. -/
  stmtState : ω → ℕ

/-- An execute: the binds in force for the placeholders, what they are read from, and its result. -/
structure Executed (n : ℕ) (ω α Λ : Type) where
  iters : ℕ
  binds : Text → Option (ParamBind n)
  memory : Memory n α Λ
  handle : ω
  result : ExecResult

/-- An `OciStatement`, with the binds in force and the executes so far. -/
structure Statement (n : ℕ) (ω α Λ : Type) extends SelectRows.Statement ω where
  binds : Text → Option (ParamBind n)
  executes : List (Executed n ω α Λ)

section Statement

variable {n : ℕ} {ω α Λ : Type} (oci : Oci ω Λ)

def Statement.prepare (stmt : Statement n ω α Λ) (sql : Text) :
    Except Stop (Statement n ω α Λ) := do
  requireState stmt.toStatement [.unprepared] "prepare".toList
  return { stmt with state := .prepared, handle := oci.stmtPrepare stmt.handle sql }

/-- A bind replaces the one that its placeholder had. -/
def Statement.bindName (stmt : Statement n ω α Λ) (fieldName : Text) (dataType : ℕ)
    (data : Place n) (len : ℤ) (indicator : Option (Place n)) :
    Except Stop (OciCallResult × Statement n ω α Λ) := do
  requireState stmt.toStatement [.prepared,.executed] "bindName".toList
  let (result,handle) := oci.bindByName stmt.handle (':' :: fieldName)
  let binds := Function.update stmt.binds (':' :: fieldName) (some ⟨dataType,data,len,indicator⟩)
  return (result,{ stmt with handle, binds })

/-- `sync_state_from_oci`. -/
def syncState (state : State) (handle : ω) : State :=
  if oci.stmtState handle = 2 then .executed
  else if oci.stmtState handle = 3 then .endOfFetch
  else state

/-- `execute`, with the memory as it is then. -/
def Statement.execute (stmt : Statement n ω α Λ) (iters : ℕ) (memory : Memory n α Λ) :
    Except Stop (ExecResult × Statement n ω α Λ) := do
  requireState stmt.toStatement [.prepared,.executed] "execute".toList
  let (call,handle) := oci.stmtExecute stmt.handle iters
  let result : ExecResult := ⟨classify call,call⟩
  return (result,{ stmt with
    state := syncState oci stmt.state handle
    handle
    executes := stmt.executes ++ [⟨iters,stmt.binds,memory,stmt.handle,result⟩] })

end Statement

/-! ### The function -/

/-- The statement, and the struct, `staging` and `indicators`. -/
structure Locals (n : ℕ) (ω α Λ : Type) where
  stmt : Statement n ω α Λ
  memory : Memory n α Λ

section Execute

variable {ω α Λ : Type} (oci : Oci ω Λ) (T : ParamRow)

/-- `bind_one_param`; `zero` is the value-initialized element of an optional. -/
def bindOneParam (zero : α) (s : Locals T.arity ω α Λ) (i : Fin T.arity) :
    Except Stop (Locals T.arity ω α Λ) :=
  match T.kind i with
  | .lob isClob _ => do
    let bytes := (s.memory (.field i)).toLob.getD []
    let (locator,handle) := oci.descriptorAlloc s.stmt.handle
    let (_,handle) := oci.lobCreateTemporary handle locator isClob
    let (_,handle) := oci.lobWrite handle locator bytes
    let memory := Function.update s.memory (.staging i) (.locator locator)
    let (_,stmt) ← { s.stmt with handle }.bindName oci (T.name i) (T.typeCode i) (.staging i)
      (toSb4 sizeofPointer) none
    return ⟨stmt,memory⟩
  | .optional elemSize _ => do
    let field := (s.memory (.field i)).toOptional.join
    let memory := Function.update s.memory (.staging i) (.scalar (field.getD zero))
    let memory := Function.update memory (.indicator i)
      (.indicator (if field.isSome then indNotNull else indNull))
    let (_,stmt) ← s.stmt.bindName oci (T.name i) (T.typeCode i) (.staging i) (toSb4 elemSize)
      (some (.indicator i))
    return ⟨stmt,memory⟩
  | .fixedString _ => do
    let length := (s.memory (.length i)).toLength.getD 0
    let memory := Function.update s.memory (.indicator i)
      (.indicator (if length = 0 then indNull else indNotNull))
    let (_,stmt) ← s.stmt.bindName oci (T.name i) (T.typeCode i) (.field i) length.toNat
      (some (.indicator i))
    return ⟨stmt,memory⟩
  | .plain width => do
    let memory := Function.update s.memory (.indicator i) (.indicator indNotNull)
    let (_,stmt) ← s.stmt.bindName oci (T.name i) (T.typeCode i) (.field i) (toSb4 width) none
    return ⟨stmt,memory⟩

/-- `bind_t<T> staging{}`, and the indicators as `bind_params` assigns them. -/
def staged (zero : α) (m : Memory T.arity α Λ) : Memory T.arity α Λ
  | .field i => m (.field i)
  | .length i => m (.length i)
  | .staging i => match T.kind i with
    | .lob _ _ => .locator none
    | _ => .scalar zero
  | .indicator _ => .indicator indNotNull

def bindParams (zero : α) (s : Locals T.arity ω α Λ) : Except Stop (Locals T.arity ω α Λ) :=
  (List.finRange T.arity).foldlM (bindOneParam oci T zero)
    { s with memory := staged T zero s.memory }

/-- A new statement on a handle. -/
def newStatement (n : ℕ) (handle : ω) : Statement n ω α Λ :=
  ⟨⟨.unprepared,handle⟩,fun _ => none,[]⟩

/-- `execute` of the struct in `params`, with the statement as it is left. -/
def executeParams (zero : α) (handle : ω) (sql : Text) (params : Memory T.arity α Λ) :
    Except Stop (ExecResult × Statement T.arity ω α Λ) := do
  let stmt ← (newStatement T.arity handle).prepare oci sql
  let s ← bindParams oci T zero ⟨stmt,params⟩
  s.stmt.execute oci 1 s.memory

end Execute

end BoundParams
end Marketlib
