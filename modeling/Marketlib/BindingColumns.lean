import Marketlib.SelectRows

/-! The columns of `select_rows` in `ideas/binding`: how they are defined over the batch, and what
is done to it after a fetch. What the client of `ideas/new` does otherwise is in its own. -/

namespace Marketlib
namespace SelectRows
namespace Raw

open Binding

variable {ω α Λ : Type} (oci : Oci ω α Λ)

/-- The statement handle, the batch and what is beside it, and the columns that are defined. -/
structure Locals (ω α Λ : Type) where
  handle : ω
  memory : Memory α Λ
  defines : List Define

/-- `OCIDefineByPos`, and `OCIDefineArrayOfStruct` on what it gives. -/
def Locals.define (s : Locals ω α Λ) (position : ℕ) (data : Address) (len : ℤ)
    (outsize indicator : Option Address) (skips : Skips) : Locals ω α Λ :=
  let (_,defineHandle,handle) := oci.defineByPos s.handle position
  let define : Define := { skips with position, data, len, outsize, indicator }
  { s with handle, defines := if defineHandle then s.defines ++ [define] else s.defines }

/-- `define_one_column`; `zero` is `ElemT{}`. -/
def defineOneColumn (T : RowType) (batchSize : ℕ) (zero : α) (s : Locals ω α Λ)
    (field : Fin T.arity × ℕ) : Locals ω α Λ :=
  let (i,position) := field
  let ind : Address := ⟨.indicators i,0⟩
  let first : Address := ⟨.batch,T.offset i⟩
  match T.kind i with
  | .optional elemSize _ =>
    let m := assign ind sizeofSb2 batchSize (.indicator indNotNull) s.memory
    let stage : Address := ⟨.staging i,0⟩
    let m := assign stage elemSize batchSize (.scalar zero) m
    { s with memory := m }.define oci position stage (toSb4 elemSize) none (some ind)
      ⟨toUb4 elemSize,sizeofSb2,0⟩
  | .lob _ _ =>
    let m := assign ind sizeofSb2 batchSize (.indicator indNotNull) s.memory
    let locators : Address := ⟨.staging i,0⟩
    let m := assign locators sizeofPointer batchSize (.locator none) m
    { s with memory := m }.define oci position locators (toSb4 sizeofPointer) none (some ind)
      ⟨toUb4 sizeofPointer,sizeofSb2,0⟩
  | .fixedString capacity =>
    s.define oci position first (toSb4 capacity) (some (first.skip (lengthOffset capacity))) none
      ⟨toUb4 T.size,sizeofSb2,toUb4 T.size⟩
  | .plain width =>
    s.define oci position first (toSb4 width) none none ⟨toUb4 T.size,sizeofSb2,0⟩

/-- `define_columns`. -/
def defineColumns (T : RowType) (batchSize : ℕ) (zero : α) (positions : List ℕ)
    (s : Locals ω α Λ) : Locals ω α Λ :=
  ((List.finRange T.arity).zip positions).foldl (defineOneColumn oci T batchSize zero) s

/-- `read_lob_bytes`, which is `OCILob::read`. -/
def readLobBytes (l : Λ) (isCharLob : Bool) : Text := readLob oci isCharLob l

/-- `staging[row]`, where the elements are locators. -/
def locatorAddress (T : RowType) (row : ℕ) (i : Fin T.arity) : Address :=
  Address.skip ⟨.staging i,0⟩ (row*sizeofPointer)

/-- The content of the LOB that a staged locator leads to. -/
def stagedLob (T : RowType) (isCharLob : Bool) (m : Memory α Λ) (row : ℕ) (i : Fin T.arity) :
    Text :=
  ((m (locatorAddress T row i)).toLocator.map fun l => readLobBytes oci l isCharLob).getD []

/-- `apply_one_column`. -/
def applyOneColumn (T : RowType) (row : ℕ) (m : Memory α Λ) (i : Fin T.arity) : Memory α Λ :=
  let field := fieldAddress T row i
  match T.kind i with
  | .optional elemSize _ =>
    write m field (.optional
      (if isNull T m row i then none else (m (stageAddress T elemSize row i)).toScalar))
  | .lob isClob _ =>
    write m field (.lob (if isNull T m row i then [] else stagedLob oci T isClob m row i))
  | .fixedString _ | .plain _ => m

/-- `apply_columns`. -/
def applyColumns (T : RowType) (m : Memory α Λ) (row : ℕ) : Memory α Λ :=
  (List.finRange T.arity).foldl (applyOneColumn oci T row) m

end Raw
end SelectRows
end Marketlib
