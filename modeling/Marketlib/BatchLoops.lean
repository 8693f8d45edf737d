import Marketlib.GenericRows
import Marketlib.RowsSent

/-! When the loops of `insert_rows`, in both versions, and of `select_generic` end. -/

namespace Marketlib
namespace InsertRows

open Binding

open SelectRows (ExecStatus lengthOffset sizeofSb2 indNotNull ociNoData toSb4 toUb4)

/-! ### The version of `ideas/binding` -/

namespace Conn

/-- `ExecResult`, with the status of OCI alone. -/
structure ExecResult where
  status : ExecStatus
  ociStatus : ℤ

/-- What is called of OCI, and of the query log, over a state `ω` of all of it. -/
structure Oci (ω : Type) where
  logQueryArray : ω → Text → (rows : ℕ) → ω
  handleAlloc : ω → ω
  stmtPrepare : ω → Text → ω
  bindByName : ω → (placeholder : Text) → (first : Address) → (elemSize : ℤ) → (dataType : ℕ) →
    (indicators : Address) → (alenp : Option Address) → ω
  bindArrayOfStruct : ω → (pvskip indskip alskip : ℕ) → ω
  stmtExecute : ω → (iters : ℕ) → ℤ × ω
  /-- `is_disconnect_error`. -/
  isDisconnectError : ω → Bool
  handleFree : ω → ω

structure Locals (ω : Type) where
  stmt : ω
  indicators : ℕ → List Int16

variable {ω : Type} (oci : Oci ω) (T : ArrayRow)

def bindArrayField (offset count : ℕ) (s : Locals ω) (i : Fin T.arity) : Locals ω :=
  let indicators := Function.update s.indicators i (List.replicate count indNotNull)
  let ind : Address := ⟨.indicators i,0⟩
  let placeholder := ':' :: T.name i
  let first := T.fieldAddress offset i
  match T.field i with
  | .fixedString capacity =>
    let stmt := oci.bindByName s.stmt placeholder first (toSb4 capacity) (T.typeCode i) ind
      (some (first.skip (lengthOffset capacity)))
    ⟨oci.bindArrayOfStruct stmt (toUb4 T.size) sizeofSb2 (toUb4 T.size),indicators⟩
  | .plain width =>
    let stmt := oci.bindByName s.stmt placeholder first (toSb4 width) (T.typeCode i) ind none
    ⟨oci.bindArrayOfStruct stmt (toUb4 T.size) sizeofSb2 0,indicators⟩

def bindArrayFields (offset count : ℕ) (s : Locals ω) : Locals ω :=
  (List.finRange T.arity).foldl (bindArrayField oci T offset count) s

/-- `OciConnection::execute`. -/
def execute (stmt : ω) (iters : ℕ) : ExecResult × ω :=
  let (status,stmt) := oci.stmtExecute stmt iters
  if status = 0 ∨ status = ociNoData then (⟨.success,status⟩,stmt)
  else if oci.isDisconnectError stmt then (⟨.connectionLost,status⟩,stmt)
  else (⟨.queryError,status⟩,stmt)

/-- A turn of the loop, which never throws. -/
def insertChunk (offset thisChunk : ℕ) (s : Locals ω) : Except Empty (ExecResult × Locals ω) :=
  let s := bindArrayFields oci T offset thisChunk s
  let (result,stmt) := execute oci s.stmt (toUb4 thisChunk)
  .ok (result,{ s with stmt })

def isSuccess (result : ExecResult) : Bool := result.status = .success

/-- The statement when the loop starts. -/
def opened (world : ω) (sql : Text) (rows : Rows T) : Locals ω :=
  ⟨oci.stmtPrepare (oci.handleAlloc (oci.logQueryArray world sql rows.size)) sql,fun _ => []⟩

/-- `insert_rows`; nothing when the fuel runs out. -/
def insertRows (fuel : ℕ) (world : ω) (sql : Text) (rows : Rows T) (chunkSize : ℕ) :
    Option (Except Empty (ExecResult × ω)) :=
  if rows.size = 0 then some (.ok (⟨.success,0⟩,world))
  else (ChunkLoop.loop (insertChunk oci T) isSuccess rows.size chunkSize fuel 0 ⟨.success,0⟩
    (opened oci T world sql rows)).map (Except.map fun out => (out.1,oci.handleFree out.2.stmt))

/-- It returns. -/
def Ends (world : ω) (sql : Text) (rows : Rows T) (chunkSize : UInt64) : Prop :=
  ∃ fuel, insertRows oci T fuel world sql rows chunkSize.toNat ≠ none

/-- Executing no rows over and over, an execute fails at some time. -/
def EmptyFails (world : ω) (sql : Text) (rows : Rows T) : Prop :=
  ∃ k, ChunkLoop.again (insertChunk oci T) isSuccess k (opened oci T world sql rows) = none

end Conn

/-! ### When they end -/

/-- A loop in a function that is left at once where there is nothing to do. -/
theorem ends_of_loop {ρ σ ε β : Type} {body : ℕ → ℕ → σ → Except ε (ρ × σ)} {good : ρ → Bool}
    {n : ℕ} (hn : n < 2^63) (chunkSize : UInt64) (result : ρ) (s : σ) (done : β)
    (f : Except ε (ρ × σ) → β) :
    (∃ fuel, (if n = 0 then some done else
      (ChunkLoop.loop body good n chunkSize.toNat fuel 0 result s).map f) ≠ none) ↔
      n = 0 ∨ chunkSize ≠ 0 ∨ ∃ k, ChunkLoop.again body good k s = none := by
  have hzero : chunkSize.toNat ≠ 0 ↔ chunkSize ≠ 0 := by
    rw [ne_eq,ne_eq,← UInt64.toNat_inj]
    rfl
  by_cases hempty : n = 0
  · refine iff_of_true ⟨0,?_⟩ (.inl hempty)
    rw [if_pos hempty]
    exact Option.some_ne_none done
  · rw [← hzero,← ChunkLoop.ends_iff hn chunkSize.toNat_lt]
    refine exists_congr fun fuel => ?_
    rw [if_neg hempty,ne_eq,Option.map_eq_none_iff]

/-- The statement when the loop starts. -/
def opened {ω : Type} (oci : Oci ω) (handle : ω) (sql : Text) : Locals ω :=
  ⟨{ newStatement (oci.stmtPrepare handle sql) with state := .prepared },fun _ => []⟩

/-- `insert_rows` returns or throws. -/
def Ends {ω : Type} (oci : Oci ω) (T : ArrayRow) (handle : ω) (sql : Text) (rows : Rows T)
    (chunkSize : UInt64) : Prop :=
  ∃ fuel, insertRows oci T fuel handle sql rows chunkSize.toNat ≠ none

/-- Executing no rows over and over, an execute fails at some time, or a call is refused. -/
def EmptyFails {ω : Type} (oci : Oci ω) (T : ArrayRow) (handle : ω) (sql : Text) : Prop :=
  ∃ k, ChunkLoop.again (insertChunk oci T) isSuccess k (opened oci handle sql) = none

theorem insertRows_ends {ω : Type} (oci : Oci ω) (T : ArrayRow) (handle : ω) (sql : Text)
    (rows : Rows T) (chunkSize : UInt64) :
    Ends oci T handle sql rows chunkSize ↔
      rows.size = 0 ∨ chunkSize ≠ 0 ∨ EmptyFails oci T handle sql :=
  ends_of_loop rows.maxSize chunkSize allDone (opened oci handle sql) _ _

theorem conn_insertRows_ends {ω : Type} (oci : Conn.Oci ω) (T : ArrayRow) (world : ω) (sql : Text)
    (rows : Rows T) (chunkSize : UInt64) :
    Conn.Ends oci T world sql rows chunkSize ↔
      rows.size = 0 ∨ chunkSize ≠ 0 ∨ Conn.EmptyFails oci T world sql rows :=
  ends_of_loop rows.maxSize chunkSize _ (Conn.opened oci T world sql rows) _ _

/-- The loops of `insert_rows` end unless the chunk size is zero, there are rows, and executing
none of them never fails; that of `select_generic` unless the batch size is zero in 32 bits and
it is entered with rows to fetch. -/
theorem batchLoops_end (T : ArrayRow) (rows : Rows T) (chunkSize : UInt64) (sql : Text)
    {ω₁ ω₂ ω₃ δ : Type} (oci : Oci ω₁) (handle : ω₁) (conn : Conn.Oci ω₂) (world₂ : ω₂)
    {cursor : OciStatement.Oci ω₃ δ} {columns : List OciStatement.ColumnInfo}
    {remaining : ω₃ → ℕ} (hserves : OciStatement.Serves cursor columns remaining)
    {caller : OciStatement.Caller ω₃}
    (hcaller : ∀ w cs n, remaining (caller.onBatch w cs n) = remaining w) (world₃ : ω₃)
    (prefetchRows fetchBatchSize : UInt64) :
    (Ends oci T handle sql rows chunkSize ↔
      rows.size = 0 ∨ chunkSize ≠ 0 ∨ EmptyFails oci T handle sql) ∧
    (Conn.Ends conn T world₂ sql rows chunkSize ↔
      rows.size = 0 ∨ chunkSize ≠ 0 ∨ Conn.EmptyFails conn T world₂ sql rows) ∧
    (OciStatement.SelectEnds cursor caller world₃ sql prefetchRows fetchBatchSize ↔
      fetchBatchSize.toNat % 2^32 ≠ 0 ∨ remaining world₃ = 0 ∨
        ¬OciStatement.Enters cursor caller columns world₃ sql prefetchRows fetchBatchSize) :=
  ⟨insertRows_ends oci T handle sql rows chunkSize,
    conn_insertRows_ends conn T world₂ sql rows chunkSize,
    OciStatement.selectGeneric_ends hserves hcaller world₃ sql prefetchRows fetchBatchSize⟩

/-! ### OCI as the mock has it -/

/-- Every call succeeds, for the other version. -/
def willingConn : Conn.Oci Unit where
  logQueryArray _ _ _ := ()
  handleAlloc _ := ()
  stmtPrepare _ _ := ()
  bindByName _ _ _ _ _ _ _ := ()
  bindArrayOfStruct _ _ _ _ := ()
  stmtExecute _ _ := (0,())
  isDisconnectError _ := false
  handleFree _ := ()

/-- A result set of which so many rows remain; its columns are not described. -/
def cursorOci : OciStatement.Oci ℕ Unit where
  reply
    | w,.stmtFetch nrows =>
      (⟨if w-nrows = 0 then ociNoData else 0,0,true,0,[]⟩,w-nrows)
    | w,.attrGetStmtState => (⟨0,0,true,if w = 0 then 3 else 2,[]⟩,w)
    | w,_ => (⟨0,0,true,0,[]⟩,w)
  hasError _ := true
  logging _ := false
  load _ _ _ := []
  floatText _ := []

theorem cursorOci_serves : OciStatement.Serves cursorOci [] id where
  fetched _ _ := rfl
  noData _ _ := rfl
  others w c hc := by
    cases c with
    | stmtFetch => cases hc
    | stmtPrepare | bindByName | bindArrayOfStruct | defineByPos | defineArrayOfStruct
    | attrSetPrefetchRows | attrGetParamCount | paramGet | attrGetName | attrGetDataType
    | attrGetDataSize | descriptorFree | stmtExecute | attrGetStmtState | attrGetRowsFetched
    | dateToText | errorGet => rfl
  state w := by
    change (if w = 0 then 3 else 2) = 2 ∨ (if w = 0 then 3 else 2) = 3
    split_ifs
    · exact .inr rfl
    · exact .inl rfl
  count _ := rfl
  described _ k _ h := by cases h

/-- There is room for every vector, and the batches are let go. -/
def roomyCaller : OciStatement.Caller ℕ where
  assign _ _ := .ok ()
  onBatch w _ _ := w

theorem batchLoops_end_twos :
    (Ends willingOci shortRow () "INSERT".toList fiveRows 2 ↔
      fiveRows.size = 0 ∨ (2 : UInt64) ≠ 0 ∨ EmptyFails willingOci shortRow () "INSERT".toList) ∧
    (Conn.Ends willingConn shortRow () "INSERT".toList fiveRows 2 ↔ fiveRows.size = 0 ∨
      (2 : UInt64) ≠ 0 ∨ Conn.EmptyFails willingConn shortRow () "INSERT".toList fiveRows) ∧
    (OciStatement.SelectEnds cursorOci roomyCaller 5 "INSERT".toList 0 2 ↔
      (2 : UInt64).toNat % 2^32 ≠ 0 ∨ id 5 = 0 ∨
        ¬OciStatement.Enters cursorOci roomyCaller [] 5 "INSERT".toList 0 2) :=
  batchLoops_end shortRow fiveRows 2 "INSERT".toList willingOci () willingConn () cursorOci_serves
    (fun _ _ _ => rfl) 5 0 2

/-- A chunk size of zero, and a batch size of 2 to the 32: none of the three ever returns. -/
theorem batchLoops_stuck :
    ¬Ends willingOci shortRow () "INSERT".toList fiveRows 0 ∧
      ¬Conn.Ends willingConn shortRow () "INSERT".toList fiveRows 0 ∧
      ¬OciStatement.SelectEnds cursorOci roomyCaller 3 "SELECT".toList 0 4294967296 := by
  refine ⟨?_,?_,?_⟩
  · rw [insertRows_ends]
    rintro (hnone | hzero | ⟨k,hk⟩)
    · cases hnone
    · exact hzero rfl
    · refine ChunkLoop.again_of_forall (p := Ready) (fun s hs => ?_) k List.mem_cons_self hk
      have hbinds : ∀ w p, (willingOci.bindByName w p).2.1 = true := fun _ _ => rfl
      obtain ⟨e,t,hrun,ht,-,-,-,w,hresult⟩ := insertChunk_run hbinds (fun _ _ => rfl)
        (by decide : shortRow.size < 2^32) 0 (Nat.two_pow_pos 32) hs
      refine ⟨e.result,t,hrun,?_,ht⟩
      rw [hresult]
      rfl
  · rw [conn_insertRows_ends]
    rintro (hnone | hzero | ⟨k,hk⟩)
    · cases hnone
    · exact hzero rfl
    · exact ChunkLoop.again_of_forall (p := fun _ => True)
        (fun s _ => ⟨_,_,rfl,rfl,trivial⟩) k trivial hk
  · rw [OciStatement.selectGeneric_ends cursorOci_serves (fun _ _ _ => rfl)]
    rintro (hsize | hnone | hnot)
    · exact hsize rfl
    · cases hnone
    · exact hnot ⟨le_refl (0 : ℤ),by simp,by simp⟩

end InsertRows
end Marketlib
