import Mathlib.Data.Char
import Mathlib.Data.List.FinRange
import Marketlib.CellWrites
import Marketlib.ConfigField

/-! `select_rows`: the columns of a query defined over one batch buffer, which every fetch
fills anew. OCI is a parameter; addresses are a block and the bytes from its start. -/

namespace Marketlib
namespace SelectRows

open Binding CellWrites

/-! ### Row structs -/

/-- A field of a row struct, by what OCI is told about it. -/
inductive Kind
  /-- Arithmetic or `OciDate`, of `width` bytes. -/
  | plain (width : ℕ)
  /-- An optional of such a type; `elemSize` is `sizeof(ElemT)`. -/
  | optional (elemSize width : ℕ)
  | fixedString (capacity : ℕ)
  /-- `OciClob` or `OciBlob`; `isClob` is `is_oci_clob_v`. -/
  | lob (isClob : Bool) (width : ℕ)

/-- Where `length_` stands in a `FixedString`: past `data_`, on an even address. -/
def lengthOffset (capacity : ℕ) : ℕ := capacity+capacity % 2

/-- `sizeof` of the field. -/
def Kind.width : Kind → ℕ
  | plain width => width
  | optional _ width => width
  | fixedString capacity => lengthOffset capacity+2
  | lob _ width => width

def Kind.Sized : Kind → Prop
  | plain width => 0 < width
  | optional elemSize width => 0 < elemSize ∧ elemSize ≤ width
  | fixedString capacity => 0 < capacity
  | lob _ width => 0 < width

/-- `OutT`: its fields lie in it side by side. -/
structure RowType where
  /-- `boost::pfr::tuple_size_v`. -/
  arity : ℕ
  name : Fin arity → Text
  kind : Fin arity → Kind
  offset : Fin arity → ℕ
  /-- `sizeof(OutT)`. -/
  size : ℕ
  sized : ∀ i, (kind i).Sized
  inside : ∀ i, offset i+(kind i).width ≤ size
  apart : ∀ i j, i ≠ j → offset i+(kind i).width ≤ offset j ∨ offset j+(kind j).width ≤ offset i

/-! ### Memory -/

/-- The blocks that a fetch writes to: the batch, and each field's vectors. -/
inductive Region
  | batch
  | staging (field : ℕ)
  | indicators (field : ℕ)
  deriving DecidableEq

structure Address where
  region : Region
  offset : ℕ
  deriving DecidableEq

/-- An object in memory, at the address it starts at; `α` are the scalars, `Λ` the LOBs of
the database. -/
inductive Cell (α Λ : Type)
  | scalar (x : α)
  | optional (x : Option α)
  /-- `data_`. -/
  | chars (buffer : Text)
  /-- `length_`. -/
  | length (n : UInt16)
  | indicator (i : Int16)
  /-- An `OCILob`'s locator and the LOB it leads to. -/
  | locator (l : Option Λ)
  /-- `text_data` or `binary_data`. -/
  | lob (bytes : Text)

abbrev Memory (α Λ : Type) := Address → Cell α Λ

section Cell

variable {α Λ : Type}

def Cell.toScalar : Cell α Λ → Option α
  | .scalar x => some x
  | _ => none

def Cell.toOptional : Cell α Λ → Option (Option α)
  | .optional x => some x
  | _ => none

def Cell.toChars : Cell α Λ → Option Text
  | .chars buffer => some buffer
  | _ => none

def Cell.toLength : Cell α Λ → Option UInt16
  | .length n => some n
  | _ => none

def Cell.toIndicator : Cell α Λ → Option Int16
  | .indicator i => some i
  | _ => none

def Cell.toLocator : Cell α Λ → Option Λ
  | .locator l => l
  | _ => none

def Cell.toLob : Cell α Λ → Option Text
  | .lob bytes => some bytes
  | _ => none

end Cell

/-- A value of a column that is not `NULL`. A text's length is reported in 16 bits. -/
inductive Datum (α Λ : Type)
  | scalar (x : α)
  | text (s : Text) (short : s.length < 2^16)
  | lob (l : Λ)

/-- What writing a value makes of the cell it is written to, of which `len` bytes are for it. -/
def Datum.store {α Λ : Type} (len : ℤ) : Datum α Λ → Cell α Λ → Cell α Λ
  | .scalar x,_ => .scalar x
  | .text s _,old =>
    let written := s.take len.toNat
    .chars (written ++ (old.toChars.getD []).drop written.length)
  | .lob l,_ => .locator (some l)

/-- The length that is reported of a value. -/
def Datum.length {α Λ : Type} (len : ℤ) : Datum α Λ → UInt16
  | .text s _ => UInt16.ofNat (s.take len.toNat).length
  | _ => 0

/-- A row of the result set: what stands at each position, counted from 1. -/
abbrev Row (α Λ : Type) := ℕ → Option (Datum α Λ)

/-! ### Defines -/

def sizeofSb2 : ℕ := 2

/-- `sizeof(OCILob)`, and where `locator_` stands in it. -/
def sizeofOCILob : ℕ := 24

def locatorOffset : ℕ := 8

/-- `sizeof(OCILobLocator*)`. -/
def sizeofPointer : ℕ := 8

/-- `OCI_IND_NOTNULL`. -/
def indNotNull : Int16 := 0

/-- `OCI_IND_NULL`. -/
def indNull : Int16 := -1

/-- `static_cast<sb4>`. -/
def toSb4 (n : ℕ) : ℤ := Int.bmod n (2^32)

/-- `static_cast<ub4>`. -/
def toUb4 (n : ℤ) : ℕ := (n % (2^32 : ℕ)).toNat

theorem toUb4_natCast {n : ℕ} (h : n < 2^32) : toUb4 n = n := by
  rw [toUb4,← Int.natCast_emod,Int.toNat_natCast,Nat.mod_eq_of_lt h]

/-- The cast back takes the value that was cast. -/
theorem toUb4_toSb4 {n : ℕ} (h : n < 2^32) : toUb4 (toSb4 n) = n := by
  have hcast : toUb4 (toSb4 n) = toUb4 n := congrArg Int.toNat Int.bmod_emod
  exact hcast.trans (toUb4_natCast h)

/-- The bytes from row to row: of the values, the indicators and the lengths. -/
structure Skips where
  pvskip : ℕ
  indskip : ℕ
  rlskip : ℕ

/-- As `OCIDefineByPos` leaves them. -/
def Skips.unset : Skips := ⟨0,0,0⟩

/-- What `bindOutput` passes to `OCIDefineArrayOfStruct`, if it calls it. -/
def arraySkips (elemSize : ℤ) (rlskip : ℕ) (defineHandle : Bool) : Option Skips :=
  if 0 < elemSize ∧ defineHandle then
    some ⟨toUb4 elemSize,sizeofSb2,if 0 < rlskip then rlskip else toUb4 elemSize⟩
  else none

/-- A column that is defined: addresses for the first row, and the skips. -/
structure Define extends Skips where
  position : ℕ
  data : Address
  /-- The bytes that a value has room in. -/
  len : ℤ
  outsize : Option Address
  indicator : Option Address

def Address.skip (a : Address) (n : ℕ) : Address := ⟨a.region,a.offset+n⟩

/-! ### OCI -/

structure OciCallResult where
  status : ℤ
  errorCode : ℤ

/-- `OCI_NO_DATA`. -/
def ociNoData : ℤ := 100

/-- What is called of OCI, over its own state `ω` of a statement and its result set. -/
structure Oci (ω α Λ : Type) where
  setPrefetchRows : ω → ℕ → ω
  stmtExecute : ω → ℕ → OciCallResult × ω
  /-- `OCI_ATTR_PARAM_COUNT` and `OCI_ATTR_NAME`. -/
  columnNames : ω → List Text
  /-- Whether there is a define handle is told beside the result. -/
  defineByPos : ω → (position : ℕ) → OciCallResult × Bool × ω
  stmtFetch : ω → List Define → ℕ → Memory α Λ → OciCallResult × ω × Memory α Λ
  /-- `OCI_ATTR_ROWS_FETCHED`. -/
  rowsFetched : ω → ℕ
  /-- `OCI_ATTR_STMT_STATE`. -/
  stmtState : ω → ℕ
  lobGetLength : Λ → ℕ
  /-- The bytes that are read into a buffer of the given size. -/
  lobRead : Λ → ℕ → Text

inductive ExecStatus
  | success
  | connectionLost
  | queryError
  deriving DecidableEq

structure ExecResult where
  status : ExecStatus
  call : OciCallResult

/-- `OciConnection::classify`. -/
def classify (call : OciCallResult) : ExecStatus :=
  if 0 ≤ call.status then .success
  else if call.errorCode ∈ [28,1012,2396,3113,3114,3135,12153,12537,12571,25408] then
    .connectionLost
  else .queryError

/-! ### Statements -/

inductive State
  | unprepared
  | prepared
  | executed
  | endOfFetch
  deriving DecidableEq

/-- An `OciStatement`. -/
structure Statement (ω : Type) where
  state : State
  handle : ω

/-- What ends `select_rows` without a result: `OciStatementStateError` in the operation
named, or, for the loop, no more fuel. -/
inductive Stop
  | stateError (operation : Text)
  | outOfFuel

section Statement

variable {ω α Λ : Type} (oci : Oci ω α Λ)

/-- The check that a method makes first. -/
def requireState (stmt : Statement ω) (allowed : List State) (operation : Text) :
    Except Stop Unit :=
  if stmt.state ∈ allowed then .ok () else .error (.stateError operation)

/-- `sync_state_from_oci`. -/
def syncState (state : State) (handle : ω) : State :=
  if oci.stmtState handle = 2 then .executed
  else if oci.stmtState handle = 3 then .endOfFetch
  else state

def Statement.setPrefetchRows (stmt : Statement ω) (rows : ℕ) : Except Stop (Statement ω) := do
  requireState stmt [.prepared] "set_prefetch_rows".toList
  return { stmt with handle := oci.setPrefetchRows stmt.handle rows }

def Statement.execute (stmt : Statement ω) (iters : ℕ) :
    Except Stop (ExecResult × Statement ω) := do
  requireState stmt [.prepared,.executed] "execute".toList
  let (call,handle) := oci.stmtExecute stmt.handle iters
  return (⟨classify call,call⟩,⟨syncState oci stmt.state handle,handle⟩)

/-- With the column as it is defined then. -/
def Statement.bindOutput (stmt : Statement ω) (position : ℕ) (data : Address) (len : ℤ)
    (outsize indicator : Option Address) (elemSize : ℤ) (rlskip : ℕ) :
    Except Stop (OciCallResult × Statement ω × Option Define) := do
  requireState stmt [.prepared,.executed,.endOfFetch] "bindOutput".toList
  let (result,defineHandle,handle) := oci.defineByPos stmt.handle position
  let skips := (arraySkips elemSize rlskip defineHandle).getD .unset
  return (result,{ stmt with handle },
    if defineHandle then some { skips with position, data, len, outsize, indicator } else none)

def Statement.fetch (stmt : Statement ω) (defines : List Define) (nrows : ℕ) (m : Memory α Λ) :
    Except Stop (ExecResult × Statement ω × Memory α Λ) := do
  requireState stmt [.executed,.endOfFetch] "fetch".toList
  let (call,handle,m) := oci.stmtFetch stmt.handle defines nrows m
  return (⟨classify call,call⟩,⟨syncState oci stmt.state handle,handle⟩,m)

/-- `uppercased`. -/
def uppercased (s : Text) : Text := s.map Char.toUpper

/-- The loop of `describeColumnPosition`, from a position on. -/
def columnPosition (target : Text) : List Text → ℕ → ℕ
  | [],_ => 0
  | name :: names,position =>
    if uppercased name = target then position else columnPosition target names (position+1)

def Statement.describeColumnPosition (stmt : Statement ω) (name : Text) : Except Stop ℕ := do
  requireState stmt [.executed,.endOfFetch] "describeColumnPosition".toList
  return columnPosition (uppercased name) (oci.columnNames stmt.handle) 1

/-- `resolve_column_positions`. -/
def resolveColumnPositions (T : RowType) (stmt : Statement ω) : Except Stop (List ℕ) :=
  if (oci.columnNames stmt.handle).length = 0 then
    .ok ((List.finRange T.arity).map fun i => i.val+1)
  else
    (List.finRange T.arity).mapM fun i => stmt.describeColumnPosition oci (T.name i)

/-- `OCILob::read`; four bytes of room for each character. -/
def readLob (isCharLob : Bool) (l : Λ) : Text :=
  let length := oci.lobGetLength l
  if length = 0 then [] else oci.lobRead l (if isCharLob then length*4+16 else length)

end Statement

/-! ### The columns -/

section Defines

variable {ω α Λ : Type}

/-- `std::vector::assign`, or the elements emplaced one by one. -/
def assign (first : Address) (stride n : ℕ) (c : Cell α Λ) (m : Memory α Λ) : Memory α Λ :=
  applyWrites ((List.range n).map fun r => (first.skip (r*stride),fun _ => c)) m

/-- The statement, the batch and what is beside it, and the columns that are defined. -/
structure Locals (ω α Λ : Type) where
  stmt : Statement ω
  memory : Memory α Λ
  defines : List Define

variable (oci : Oci ω α Λ)

/-- `stmt.bindOutput`, in the midst of `define_one_column`. -/
def Locals.bindOutput (s : Locals ω α Λ) (position : ℕ) (data : Address) (len : ℤ)
    (outsize indicator : Option Address) (elemSize : ℤ) : Except Stop (Locals ω α Λ) := do
  let (_,stmt,define) ← s.stmt.bindOutput oci position data len outsize indicator elemSize 0
  return { s with stmt, defines := s.defines ++ define.toList }

/-- `define_one_column`; `zero` is `ElemT{}`. -/
def defineOneColumn (T : RowType) (batchSize : ℕ) (zero : α) (s : Locals ω α Λ)
    (field : Fin T.arity × ℕ) : Except Stop (Locals ω α Λ) :=
  let (i,position) := field
  let ind : Address := ⟨.indicators i,0⟩
  let first : Address := ⟨.batch,T.offset i⟩
  match T.kind i with
  | .optional elemSize _ =>
    let m := assign ind sizeofSb2 batchSize (.indicator indNotNull) s.memory
    let stage : Address := ⟨.staging i,0⟩
    let m := assign stage elemSize batchSize (.scalar zero) m
    { s with memory := m }.bindOutput oci position stage (toSb4 elemSize) none (some ind)
      (toSb4 elemSize)
  | .lob _ _ =>
    let m := assign ind sizeofSb2 batchSize (.indicator indNotNull) s.memory
    let locators : Address := ⟨.staging i,locatorOffset⟩
    let m := assign locators sizeofOCILob batchSize (.locator none) m
    { s with memory := m }.bindOutput oci position locators (toSb4 sizeofPointer) none (some ind)
      (toSb4 sizeofOCILob)
  | .fixedString capacity =>
    let m := assign ind sizeofSb2 batchSize (.indicator indNotNull) s.memory
    { s with memory := m }.bindOutput oci position first (toSb4 capacity)
      (some (first.skip (lengthOffset capacity))) (some ind) (toSb4 T.size)
  | .plain width => s.bindOutput oci position first (toSb4 width) none none (toSb4 T.size)

/-- `define_columns`. -/
def defineColumns (T : RowType) (batchSize : ℕ) (zero : α) (positions : List ℕ)
    (s : Locals ω α Λ) : Except Stop (Locals ω α Λ) :=
  ((List.finRange T.arity).zip positions).foldlM (defineOneColumn oci T batchSize zero) s

end Defines

/-! ### The fetch loop -/

section Loop

variable {ω α Λ : Type} (oci : Oci ω α Λ) (T : RowType)

/-- The address of a field in a row of the batch. -/
def fieldAddress (row : ℕ) (i : Fin T.arity) : Address :=
  Address.skip ⟨.batch,T.offset i⟩ (row*T.size)

/-- `&indicators[I][row]`. -/
def indicatorAddress (row : ℕ) (i : Fin T.arity) : Address :=
  Address.skip ⟨.indicators i,0⟩ (row*sizeofSb2)

/-- `&staging[row]`, where the elements are scalars. -/
def stageAddress (elemSize row : ℕ) (i : Fin T.arity) : Address :=
  Address.skip ⟨.staging i,0⟩ (row*elemSize)

/-- `staging[row].locator_address()`, where they are LOBs. -/
def locatorAddress (row : ℕ) (i : Fin T.arity) : Address :=
  Address.skip ⟨.staging i,locatorOffset⟩ (row*sizeofOCILob)

def write (m : Memory α Λ) (a : Address) (c : Cell α Λ) : Memory α Λ := Function.update m a c

/-- `FixedString::clear`. -/
def clearFixedString (m : Memory α Λ) (a : Address) (capacity : ℕ) : Memory α Λ :=
  write (write m a (.chars (List.replicate capacity '\x00'))) (a.skip (lengthOffset capacity))
    (.length 0)

/-- `indicators[I][row] == OCI_IND_NULL`. -/
def isNull (m : Memory α Λ) (row : ℕ) (i : Fin T.arity) : Bool :=
  (m (indicatorAddress T row i)).toIndicator == some indNull

/-- The content of the LOB that a staged locator leads to. -/
def stagedLob (isCharLob : Bool) (m : Memory α Λ) (row : ℕ) (i : Fin T.arity) : Text :=
  ((m (locatorAddress T row i)).toLocator.map (readLob oci isCharLob)).getD []

/-- `apply_one_column`. -/
def applyOneColumn (row : ℕ) (m : Memory α Λ) (i : Fin T.arity) : Memory α Λ :=
  let field := fieldAddress T row i
  match T.kind i with
  | .optional elemSize _ =>
    write m field (.optional
      (if isNull T m row i then none else (m (stageAddress T elemSize row i)).toScalar))
  | .lob isClob _ =>
    write m field (.lob (if isNull T m row i then [] else stagedLob oci T isClob m row i))
  | .fixedString capacity => if isNull T m row i then clearFixedString m field capacity else m
  | .plain _ => m

/-- `apply_columns`. -/
def applyColumns (m : Memory α Λ) (row : ℕ) : Memory α Λ :=
  (List.finRange T.arity).foldl (applyOneColumn oci T row) m

/-- `field_needs_apply_v`. -/
def Kind.needsApply : Kind → Bool
  | plain _ => false
  | _ => true

/-- `needs_apply_loop_v`. -/
def needsApplyLoop : Bool := (List.finRange T.arity).any fun i => (T.kind i).needsApply

/-- What `on_batch` can read of a field. -/
inductive FieldValue (α : Type)
  | scalar (x : α)
  | optional (x : Option α)
  /-- `FixedString::view`. -/
  | fixedString (view : Text)
  /-- `text_data` or `binary_data`. -/
  | lob (bytes : Text)

def readField (m : Memory α Λ) (row : ℕ) (i : Fin T.arity) : Option (FieldValue α) :=
  let field := m (fieldAddress T row i)
  match T.kind i with
  | .plain _ => field.toScalar.map .scalar
  | .optional _ _ => field.toOptional.map .optional
  | .fixedString capacity =>
    let length := m ((fieldAddress T row i).skip (lengthOffset capacity))
    field.toChars.bind fun data =>
      length.toLength.map fun n => .fixedString (data.take n.toNat)
  | .lob _ _ => field.toLob.map .lob

/-- A struct in the batch, field by field. -/
abbrev OutRow (α : Type) := Fin T.arity → Option (FieldValue α)

/-- A call of `on_batch`: the rows behind the pointer, and the count. -/
structure Batch (α : Type) where
  rows : List (OutRow T α)
  count : ℕ

/-- The `for (;;)` of `run_select_fetch_loop`, with its calls of `on_batch`. -/
def fetchLoop (batchSize : ℕ) (defines : List Define) :
    ℕ → Statement ω → Memory α Λ → Except Stop (ExecResult × List (Batch T α))
  | 0,_,_ => .error .outOfFuel
  | fuel+1,stmt,m => do
    let (fetchResult,stmt,m) ← stmt.fetch oci defines (batchSize % 2^32) m
    if fetchResult.status ≠ .success then return (fetchResult,[])
    let rowsFetched := oci.rowsFetched stmt.handle
    let m := if needsApplyLoop T then (List.range rowsFetched).foldl (applyColumns oci T) m else m
    let batch := ⟨(List.range batchSize).map fun row => readField T m row,rowsFetched⟩
    if fetchResult.call.status = ociNoData then return (fetchResult,[batch])
    let (result,batches) ← fetchLoop batchSize defines fuel stmt m
    return (result,batch :: batches)

/-- A field of `OutT{}`. -/
def newField (zero : α) (row : ℕ) (i : Fin T.arity) : List (Address × (Cell α Λ → Cell α Λ)) :=
  let field := fieldAddress T row i
  match T.kind i with
  | .plain _ => [(field,fun _ => .scalar zero)]
  | .optional _ _ => [(field,fun _ => .optional none)]
  | .fixedString capacity => [(field,fun _ => .chars (List.replicate capacity '\x00')),
    (field.skip (lengthOffset capacity),fun _ => .length 0)]
  | .lob _ _ => [(field,fun _ => .lob [])]

/-- `std::vector<OutT> batch(fetch_batch_size)`. -/
def newBatch (batchSize : ℕ) (zero : α) (m : Memory α Λ) : Memory α Λ :=
  applyWrites ((List.range batchSize).flatMap fun row =>
    (List.finRange T.arity).flatMap (newField T zero row)) m

/-- `run_select_fetch_loop`, on a prepared statement and a memory with anything in it. -/
def runSelectFetchLoop (fuel : ℕ) (handle : ω) (prefetchRows batchSize : ℕ) (zero : α)
    (m : Memory α Λ) : Except Stop (ExecResult × List (Batch T α)) := do
  let m := newBatch T batchSize zero m
  let stmt ← Statement.setPrefetchRows oci ⟨.prepared,handle⟩ (prefetchRows % 2^32)
  let (result,stmt) ← stmt.execute oci 0
  if result.status ≠ .success then return (result,[])
  let positions ← resolveColumnPositions oci T stmt
  if positions.any fun position => position = 0 then
    return (⟨.queryError,⟨-1,0⟩⟩,[])
  let s ← defineColumns oci T batchSize zero positions ⟨stmt,m,[]⟩
  fetchLoop oci T batchSize s.defines fuel s.stmt s.memory

end Loop
end SelectRows
end Marketlib
