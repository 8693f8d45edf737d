import Marketlib.ChunkLoop
import Marketlib.SelectRows

/-! `insert_rows`: a vector of row structs bound chunk by chunk and executed. What OCI is told
of a bind is kept, with its addresses, as it stands when a chunk is executed. -/

namespace Marketlib
namespace InsertRows

open Binding

open SelectRows (RowType Kind State ExecStatus OciCallResult ExecResult Stop classify requireState
  lengthOffset sizeofSb2 indNotNull toSb4 toUb4)

/-! ### Row structs -/

/-- A field that passes the two `static_assert`s of `bind_array_field`. -/
inductive FieldKind
  | plain (width : ℕ)
  | fixedString (capacity : ℕ)

def FieldKind.toKind : FieldKind → Kind
  | plain width => .plain width
  | fixedString capacity => .fixedString capacity

/-- A row struct for `insert_rows`. -/
structure ArrayRow extends RowType where
  field : Fin arity → FieldKind
  kinds : ∀ i, kind i = (field i).toKind
  /-- `oci_type_code_v`. -/
  typeCode : Fin arity → ℕ
  distinct : Function.Injective name

/-- The rows, and the indicators of a field. -/
inductive Region
  | rows
  | indicators (field : ℕ)
  deriving DecidableEq

/-- A block and the bytes from its start. -/
structure Address where
  region : Region
  offset : ℕ
  deriving DecidableEq

def Address.skip (a : Address) (n : ℕ) : Address := ⟨a.region,a.offset+n⟩

/-- `boost::pfr::get<I>(rows[row])`. -/
def ArrayRow.fieldAddress (T : ArrayRow) (row : ℕ) (i : Fin T.arity) : Address :=
  ⟨.rows,row*T.size+T.offset i⟩

/-- Its `length_ref()`, of a `FixedString`. -/
def ArrayRow.lengthAddress (T : ArrayRow) (row : ℕ) (i : Fin T.arity) : Option Address :=
  match T.field i with
  | .plain _ => none
  | .fixedString capacity => some ((T.fieldAddress row i).skip (lengthOffset capacity))

/-! ### Binds -/

/-- What OCI is told with `OCIBindByName` and `OCIBindArrayOfStruct`. -/
structure ArrayBind where
  placeholder : Text
  dataType : ℕ
  first : Address
  elemSize : ℤ
  pvskip : ℕ
  indicators : Address
  indskip : ℕ
  alenp : Option Address
  alskip : ℕ

/-- What is called of OCI, over its own state `ω` of a statement. -/
structure Oci (ω : Type) where
  stmtPrepare : ω → Text → ω
  /-- Whether there is a bind handle is told beside the result. -/
  bindByName : ω → Text → OciCallResult × Bool × ω
  bindArrayOfStruct : ω → (pvskip indskip alskip : ℕ) → ω
  stmtExecute : ω → (iters : ℕ) → OciCallResult × ω
  /-- `OCI_ATTR_STMT_STATE`. -/
  stmtState : ω → ℕ

/-- An execute: the binds in force, each field's indicators as they are then, and its result. -/
structure Executed where
  iters : ℕ
  binds : List ArrayBind
  indicators : ℕ → List Int16
  result : ExecResult

/-- An `OciStatement`, with the binds in force and the executes so far. -/
structure Statement (ω : Type) extends SelectRows.Statement ω where
  binds : List ArrayBind
  executes : List Executed

section Statement

variable {ω : Type} (oci : Oci ω)

def Statement.prepare (stmt : Statement ω) (sql : Text) : Except Stop (Statement ω) := do
  requireState stmt.toStatement [.unprepared] "prepare".toList
  return { stmt with state := .prepared, handle := oci.stmtPrepare stmt.handle sql }

/-- A bind replaces the one that its placeholder had. -/
def rebind (binds : List ArrayBind) (b : ArrayBind) : List ArrayBind :=
  (binds.filter fun c => c.placeholder ≠ b.placeholder) ++ [b]

def Statement.bindNameArray (stmt : Statement ω) (fieldName : Text) (dataType : ℕ)
    (firstElement : Address) (elemSize stride : ℤ) (indicators : Address)
    (alenp : Option Address) (alskip : ℕ) : Except Stop (OciCallResult × Statement ω) := do
  requireState stmt.toStatement [.prepared,.executed] "bindNameArray".toList
  let (result,bindHandle,handle) := oci.bindByName stmt.handle (':' :: fieldName)
  if bindHandle then
    let handle := oci.bindArrayOfStruct handle (toUb4 stride) sizeofSb2 alskip
    let bind : ArrayBind := ⟨':' :: fieldName,dataType,firstElement,elemSize,toUb4 stride,
      indicators,sizeofSb2,alenp,alskip⟩
    return (result,{ stmt with handle, binds := rebind stmt.binds bind })
  else return (result,{ stmt with handle })

/-- `sync_state_from_oci`. -/
def syncState (state : State) (handle : ω) : State :=
  if oci.stmtState handle = 2 then .executed
  else if oci.stmtState handle = 3 then .endOfFetch
  else state

/-- `execute`, with what the indicators hold then. -/
def Statement.execute (stmt : Statement ω) (iters : ℕ) (indicators : ℕ → List Int16) :
    Except Stop (ExecResult × Statement ω) := do
  requireState stmt.toStatement [.prepared,.executed] "execute".toList
  let (call,handle) := oci.stmtExecute stmt.handle iters
  let result : ExecResult := ⟨classify call,call⟩
  return (result,{ stmt with
    state := syncState oci stmt.state handle
    handle
    executes := stmt.executes ++ [⟨iters,stmt.binds,indicators,result⟩] })

end Statement

/-! ### The function -/

/-- `std::vector<T>`: as many rows as it can have. -/
structure Rows (T : ArrayRow) where
  size : ℕ
  maxSize : size < 2^63

/-- The statement, and `indicators`. -/
structure Locals (ω : Type) where
  stmt : Statement ω
  indicators : ℕ → List Int16

section Insert

variable {ω : Type} (oci : Oci ω) (T : ArrayRow)

def bindArrayField (offset count : ℕ) (s : Locals ω) (i : Fin T.arity) :
    Except Stop (Locals ω) := do
  let indicators := Function.update s.indicators i (List.replicate count indNotNull)
  let ind : Address := ⟨.indicators i,0⟩
  let first := T.fieldAddress offset i
  match T.field i with
  | .fixedString capacity =>
    let (_,stmt) ← s.stmt.bindNameArray oci (T.name i) (T.typeCode i) first (toSb4 capacity)
      (toSb4 T.size) ind (some (first.skip (lengthOffset capacity))) (toUb4 T.size)
    return ⟨stmt,indicators⟩
  | .plain width =>
    let (_,stmt) ← s.stmt.bindNameArray oci (T.name i) (T.typeCode i) first (toSb4 width)
      (toSb4 T.size) ind none 0
    return ⟨stmt,indicators⟩

def bindArrayFields (offset count : ℕ) (s : Locals ω) : Except Stop (Locals ω) :=
  (List.finRange T.arity).foldlM (bindArrayField oci T offset count) s

/-- A turn of the loop. -/
def insertChunk (offset thisChunk : ℕ) (s : Locals ω) : Except Stop (ExecResult × Locals ω) := do
  let s ← bindArrayFields oci T offset thisChunk s
  let (result,stmt) ← s.stmt.execute oci (toUb4 thisChunk) s.indicators
  return (result,{ s with stmt })

def isSuccess (result : ExecResult) : Bool := result.status = .success

/-- `{ExecStatus::Success, OciCallResult{OCI_SUCCESS, 0, {}}}`. -/
def allDone : ExecResult := ⟨.success,⟨0,0⟩⟩

/-- A new statement on a handle. -/
def newStatement (handle : ω) : Statement ω := ⟨⟨.unprepared,handle⟩,[],[]⟩

/-- `insert_rows`, with the statement as it is left; nothing when the fuel runs out. -/
def insertRows (fuel : ℕ) (handle : ω) (sql : Text) (rows : Rows T) (chunkSize : ℕ) :
    Option (Except Stop (ExecResult × Statement ω)) :=
  if rows.size = 0 then some (.ok (allDone,newStatement handle))
  else match (newStatement handle).prepare oci sql with
    | .error e => some (.error e)
    | .ok stmt =>
      (ChunkLoop.loop (insertChunk oci T) isSuccess rows.size chunkSize fuel 0 allDone
        ⟨stmt,fun _ => []⟩).map (Except.map fun out => (out.1,out.2.stmt))

end Insert

end InsertRows
end Marketlib
