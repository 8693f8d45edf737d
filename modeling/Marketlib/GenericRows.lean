import Marketlib.InsertRows
import Marketlib.OciStatement

/-! `select_generic`: the columns of a query as OCI describes them, fetched batch by batch. It is
put together from the methods of `OciStatement`; the buffers that OCI writes to are part of the
world. -/

namespace Marketlib
namespace OciStatement

open Binding Effects

open SelectRows (State ExecResult OciCallResult classify ociNoData)

/-- What else is called: `std::vector::assign` of so many elements of a size, with what it throws
if it does, and `on_batch`, with the columns and the number of rows. -/
structure Caller (ω : Type) where
  assign : (elements elemSize : ℕ) → Except Text Unit
  onBatch : ω → List ColumnInfo → ℕ → ω

/-- `SQLT_CLOB` and `SQLT_BLOB`. -/
def ColumnInfo.isLob (column : ColumnInfo) : Bool :=
  column.oracleType = 112 || column.oracleType = 113

/-- The error of a column that is a LOB. -/
def lobError (name : Text) : Text :=
  "select_generic: column '".toList ++ name ++ ("' is a LOB -- a locator isn't a flat byte " ++
    "buffer the way every other described type here is; use select_rows<T>() with an " ++
    "OciClob/OciBlob field for a LOB column instead").toList

section Select

variable {ω δ : Type} (oci : Oci ω δ) (caller : Caller ω)

/-- The vectors of a column, assigned one after the other. -/
def assignColumn (fetchBatchSize : UInt64) (column : ColumnInfo) : Except Text Unit := do
  let size := if 0 < column.dataSize then column.dataSize else 1
  caller.assign (fetchBatchSize.toNat*size % 2^64) 1
  caller.assign fetchBatchSize.toNat 2
  caller.assign fetchBatchSize.toNat 2

/-- A turn of the loop over the columns. -/
def defineColumn (fetchBatchSize : UInt64) (column : ColumnInfo) : Method ω Unit := do
  let size := if 0 < column.dataSize then column.dataSize else 1
  match assignColumn caller fetchBatchSize column with
  | .error e => throw e
  | .ok () =>
    let _ ← bindOutput oci column.position column.oracleType (SelectRows.toSb4 size)
      (SelectRows.toSb4 size) 2

/-- The `for (;;)`; nothing when the fuel runs out. -/
def fetchBatches (fetchBatchSize : UInt64) (columns : List ColumnInfo) :
    ℕ → Method ω (Option ExecResult)
  | 0 => return none
  | fuel+1 => do
    let fetchResult ← fetch oci (fetchBatchSize.toNat % 2^32)
    if fetchResult.status ≠ .success then return some fetchResult
    let rows ← rowsFetched oci
    modify fun s => { s with world := caller.onBatch s.world columns rows }
    if fetchResult.call.status = ociNoData then return some fetchResult
    fetchBatches fetchBatchSize columns fuel

/-- `select_generic`; the result with the error text that it makes itself. -/
def selectGeneric (fuel : ℕ) (sql : Text) (prefetchRows fetchBatchSize : UInt64) :
    Method ω (Option (ExecResult × Option Text)) := do
  prepare oci sql
  setPrefetchRows oci (prefetchRows.toNat % 2^32)
  let result ← execute oci 0
  if result.status ≠ .success then return some (result,none)
  let columns ← describeColumns oci
  match columns.find? ColumnInfo.isLob with
  | some column => return some (⟨.queryError,⟨-1,0⟩⟩,some (lobError column.name))
  | none =>
    columns.forM (defineColumn oci caller fetchBatchSize)
    let result ← fetchBatches oci caller fetchBatchSize columns fuel
    return result.map fun result => (result,none)

end Select

/-! ### A result set -/

section Cursor

variable {ω δ : Type}

/-- The world after `call_oci`. -/
def callWorld (oci : Oci ω δ) (world : ω) (c : OciCall) : ω :=
  let next := (oci.reply world c).2
  if (oci.reply world c).1.status ≠ 0 ∧ oci.hasError next then (oci.reply next .errorGet).2
  else next

def OciCall.isFetch : OciCall → Bool
  | .stmtFetch _ => true
  | _ => false

/-- The answer to the `execute` of `select_generic`. -/
def executeReply (oci : Oci ω δ) (world : ω) (sql : Text) (prefetchRows : UInt64) : Reply :=
  (oci.reply (oci.reply (callWorld oci world (.stmtPrepare sql))
    (.attrSetPrefetchRows (prefetchRows.toNat % 2^32))).2 (.stmtExecute 0)).1

/-- OCI on a finite result set, of which `remaining` rows are still to be fetched. -/
structure Serves (oci : Oci ω δ) (columns : List ColumnInfo) (remaining : ω → ℕ) : Prop where
  /-- A fetch delivers `min(nrows, remaining)` rows. -/
  fetched : ∀ w nrows, remaining (oci.reply w (.stmtFetch nrows)).2 = remaining w-nrows
  /-- It says `OCI_NO_DATA` exactly when none remain. -/
  noData : ∀ w nrows, (oci.reply w (.stmtFetch nrows)).1.status =
    if remaining w-nrows = 0 then ociNoData else 0
  others : ∀ w c, c.isFetch = false → remaining (oci.reply w c).2 = remaining w
  /-- `OCI_STMT_STATE_EXECUTED` or `OCI_STMT_STATE_END_OF_FETCH`, once it is asked. -/
  state : ∀ w, (oci.reply w .attrGetStmtState).1.value = 2 ∨
    (oci.reply w .attrGetStmtState).1.value = 3
  count : ∀ w, (oci.reply w .attrGetParamCount).1.value = columns.length
  described : ∀ (w : ω) (k : ℕ) column, columns[k]? = some column →
    column.position = k+1 ∧
      let w₁ := (oci.reply w (.paramGet (k+1))).2
      let w₂ := (oci.reply w₁ .attrGetName).2
      let w₃ := (oci.reply w₂ .attrGetDataType).2
      (oci.reply w₁ .attrGetName).1.name = column.name ∧
        (oci.reply w₂ .attrGetDataType).1.value = column.oracleType ∧
        (oci.reply w₃ .attrGetDataSize).1.value = column.dataSize

/-- A statement that rows can be fetched from. -/
def Fetchable (s : Statement ω) : Prop := s.state ∈ [State.executed,State.endOfFetch]

/-- A call that fetches nothing. -/
structure Keeps (remaining : ω → ℕ) (s t : Statement ω) : Prop where
  state : t.state = s.state
  remaining : remaining t.world = remaining s.world

variable {oci : Oci ω δ} {columns : List ColumnInfo} {remaining : ω → ℕ} {s t u : Statement ω}

theorem Keeps.refl (s : Statement ω) : Keeps remaining s s := ⟨rfl,rfl⟩

theorem Keeps.trans (h : Keeps remaining s t) (h' : Keeps remaining t u) : Keeps remaining s u :=
  ⟨h'.state.trans h.state,h'.remaining.trans h.remaining⟩

theorem Keeps.fetchable (h : Keeps remaining s t) (hs : Fetchable s) : Fetchable t := by
  rw [Fetchable,h.state]
  exact hs

theorem call_run (oci : Oci ω δ) (c : OciCall) (s : Statement ω) :
    ∃ t, call oci c s = (.ok (oci.reply s.world c).1,t) ∧ t.state = s.state ∧
      t.world = (oci.reply s.world c).2 := ⟨_,rfl,rfl,rfl⟩

theorem call_keeps (hserves : Serves oci columns remaining) {c : OciCall}
    (hc : c.isFetch = false) (s : Statement ω) :
    ∃ t, call oci c s = (.ok (oci.reply s.world c).1,t) ∧ t.world = (oci.reply s.world c).2 ∧
      Keeps remaining s t :=
  ⟨_,rfl,rfl,rfl,hserves.others s.world c hc⟩

theorem callOci_run (oci : Oci ω δ) (c : OciCall) (s : Statement ω) :
    ∃ code t, callOci oci c s =
        (.ok ((oci.reply s.world c).1,⟨(oci.reply s.world c).1.status,code⟩),t) ∧
      t.state = s.state ∧ t.world = callWorld oci s.world c := by
  obtain ⟨t,hcall,hstate,hworld⟩ := call_run oci c s
  have hrun : callOci oci c s = _ := bind_ok hcall
  rw [callWorld,← hworld]
  by_cases herror : (oci.reply s.world c).1.status ≠ 0 ∧ oci.hasError t.world
  · rw [if_pos herror]
    exact ⟨_,_,hrun.trans ((bind_ok rfl).trans (congrFun (if_pos herror) t)),hstate,rfl⟩
  · rw [if_neg herror]
    exact ⟨_,_,hrun.trans ((bind_ok rfl).trans (congrFun (if_neg herror) t)),hstate,rfl⟩

theorem callWorld_remaining (hserves : Serves oci columns remaining) (w : ω) (c : OciCall) :
    remaining (callWorld oci w c) = remaining (oci.reply w c).2 := by
  rw [callWorld]
  split_ifs
  · exact hserves.others _ .errorGet rfl
  · rfl

/-! ### Up to the loop -/

theorem prepare_run (oci : Oci ω δ) (world : ω) (sql : Text) :
    ∃ t, prepare oci sql (init world) = (.ok (),t) ∧ t.state = .prepared ∧
      t.world = callWorld oci world (.stmtPrepare sql) := by
  obtain ⟨code,t,hcall,-,hworld⟩ := callOci_run oci (.stmtPrepare sql) (init world)
  exact ⟨_,(bind_ok (requireState_ok List.mem_cons_self)).trans (bind_ok hcall),rfl,hworld⟩

theorem setPrefetchRows_run (oci : Oci ω δ) (rows : ℕ) (hs : s.state = .prepared) :
    ∃ t, setPrefetchRows oci rows s = (.ok (),t) ∧ t.state = .prepared ∧
      t.world = (oci.reply s.world (.attrSetPrefetchRows rows)).2 := by
  have hallowed : s.state ∈ [State.prepared] := List.mem_singleton.mpr hs
  exact ⟨_,(bind_ok (requireState_ok hallowed)).trans (bind_ok rfl),hs,rfl⟩

theorem sync_run {α : Type} (hserves : Serves oci columns remaining) (a : α) (s : Statement ω) :
    ∃ t, (syncStateFromOci oci >>= fun _ => pure a : Method ω α) s = (.ok a,t) ∧ Fetchable t ∧
      remaining t.world = remaining s.world := by
  refine ⟨_,bind_ok (bind_ok rfl),?_,hserves.others s.world .attrGetStmtState rfl⟩
  rcases hserves.state s.world with hvalue | hvalue
  · exact List.mem_cons.mpr (.inl (if_pos hvalue))
  · refine List.mem_cons_of_mem _ (List.mem_singleton.mpr ?_)
    dsimp only
    rw [hvalue]
    rfl

theorem classify_success {call : OciCallResult} : classify call = .success ↔ 0 ≤ call.status := by
  rw [classify]
  split_ifs <;> simp_all

/-- An `execute` that is accepted leaves a statement to fetch from. -/
theorem execute_opens (hserves : Serves oci columns remaining) (hs : s.state = .prepared) :
    ∃ result t, execute oci 0 s = (.ok result,t) ∧ Fetchable t ∧
      remaining t.world = remaining s.world ∧
      (result.status = .success ↔ 0 ≤ (oci.reply s.world (.stmtExecute 0)).1.status) := by
  have hallowed : s.state ∈ [State.prepared,State.executed] := List.mem_cons.mpr (.inl hs)
  -- The line that is logged leaves the world as it is.
  have hrest : ∀ t : Statement ω, t.world = s.world → ∃ result u,
      (callOci oci (.stmtExecute 0) >>= fun r => syncStateFromOci oci >>= fun _ =>
        pure (⟨classify r.2,r.2⟩ : ExecResult)) t = (.ok result,u) ∧ Fetchable u ∧
      remaining u.world = remaining s.world ∧
      (result.status = .success ↔ 0 ≤ (oci.reply s.world (.stmtExecute 0)).1.status) := by
    intro t ht
    obtain ⟨code,v,hcall,-,hv⟩ := callOci_run oci (.stmtExecute 0) t
    obtain ⟨u,hsync,hu,hremaining⟩ := sync_run hserves (⟨classify ⟨_,code⟩,⟨_,code⟩⟩ : ExecResult) v
    refine ⟨_,u,(bind_ok hcall).trans hsync,hu,?_,?_⟩
    · rw [hremaining,hv,callWorld_remaining hserves,ht]
      exact hserves.others s.world (.stmtExecute 0) rfl
    · rw [ht]
      exact classify_success
  by_cases hlogging : oci.logging s.world = true
  · obtain ⟨result,u,hrun,h⟩ := hrest { s with lines := s.lines ++ ["SQL: ".toList ++ s.sql ++
      if s.paramsLog = [] then [] else " | ".toList ++ s.paramsLog] } rfl
    refine ⟨result,u,?_,h⟩
    refine (bind_ok (requireState_ok hallowed)).trans ((bind_ok (a := s) (t := s) rfl).trans ?_)
    exact (congrFun (if_pos hlogging) s).trans hrun
  · obtain ⟨result,u,hrun,h⟩ := hrest s rfl
    refine ⟨result,u,?_,h⟩
    refine (bind_ok (requireState_ok hallowed)).trans ((bind_ok (a := s) (t := s) rfl).trans ?_)
    exact (congrFun (if_neg hlogging) s).trans hrun

theorem describeAll_run (hserves : Serves oci columns remaining) (before : List ColumnInfo)
    {after : List ColumnInfo} (hcolumns : columns = before ++ after) (s : Statement ω) :
    ∃ t, describeAll oci (List.range' (before.length+1) after.length) s = (.ok after,t) ∧
      Keeps remaining s t := by
  induction after generalizing before s with
  | nil => exact ⟨s,rfl,Keeps.refl s⟩
  | cons column after ih =>
    have hget : columns[before.length]? = some column := by
      rw [hcolumns,List.getElem?_append_right le_rfl,Nat.sub_self]
      rfl
    obtain ⟨hposition,hname,htype,hsize⟩ := hserves.described s.world before.length column hget
    obtain ⟨s₁,h₁,hw₁,hk₁⟩ := call_keeps hserves (c := .paramGet (before.length+1)) rfl s
    obtain ⟨s₂,h₂,hw₂,hk₂⟩ := call_keeps hserves (c := .attrGetName) rfl s₁
    obtain ⟨s₃,h₃,hw₃,hk₃⟩ := call_keeps hserves (c := .attrGetDataType) rfl s₂
    obtain ⟨s₄,h₄,-,hk₄⟩ := call_keeps hserves (c := .attrGetDataSize) rfl s₃
    obtain ⟨s₅,h₅,-,hk₅⟩ := call_keeps hserves (c := .descriptorFree) rfl s₄
    obtain ⟨t,hrest,ht⟩ := ih (before ++ [column])
      (by rw [hcolumns,List.append_assoc,List.singleton_append]) s₅
    rw [List.length_append,List.length_singleton] at hrest
    refine ⟨t,?_,hk₁.trans (hk₂.trans (hk₃.trans (hk₄.trans (hk₅.trans ht))))⟩
    rw [List.length_cons,List.range'_succ,describeAll,bind_ok h₁,bind_ok h₂,bind_ok h₃,bind_ok h₄,
      bind_ok h₅,bind_ok hrest,hw₃,hw₂,hw₁,hname,htype,hsize,← hposition]
    rfl

theorem describeColumns_run (hserves : Serves oci columns remaining) (hs : Fetchable s) :
    ∃ t, describeColumns oci s = (.ok columns,t) ∧ Keeps remaining s t := by
  obtain ⟨t,hcount,-,ht⟩ := call_keeps hserves (c := .attrGetParamCount) rfl s
  obtain ⟨u,hall,hu⟩ := describeAll_run hserves [] rfl t
  refine ⟨u,?_,ht.trans hu⟩
  rw [describeColumns,bind_ok (requireState_ok hs),bind_ok hcount,hserves.count]
  exact hall

theorem callOci_keeps (hserves : Serves oci columns remaining) {c : OciCall}
    (hc : c.isFetch = false) : Does (callOci oci c) (Keeps remaining) := by
  intro s
  obtain ⟨code,t,hcall,hstate,hworld⟩ := callOci_run oci c s
  refine ⟨_,t,hcall,hstate,?_⟩
  rw [hworld,callWorld_remaining hserves]
  exact hserves.others s.world c hc

theorem bindOutput_keeps (hserves : Serves oci columns remaining) (hs : Fetchable s)
    (position dataType : ℕ) (len elemSize : ℤ) (rlskip : ℕ) :
    ∃ result t, bindOutput oci position dataType len elemSize rlskip s = (.ok result,t) ∧
      Keeps remaining s t := by
  have hallowed : s.state ∈ [State.prepared,State.executed,State.endOfFetch] :=
    List.mem_cons_of_mem _ hs
  refine guarded_ok hallowed ((callOci_keeps hserves rfl).bind (fun r => ?_) Keeps.trans)
  dsimp only
  split
  · have harray : ∀ skips : SelectRows.Skips,
        Does (call oci (.defineArrayOfStruct skips.pvskip skips.rlskip)) (Keeps remaining) := by
      intro skips s
      obtain ⟨t,hcall,-,ht⟩ := call_keeps hserves
        (c := .defineArrayOfStruct skips.pvskip skips.rlskip) rfl s
      exact ⟨_,t,hcall,ht⟩
    exact (harray _).bind (fun _ => does_pure _ Keeps.refl) Keeps.trans
  · exact does_pure _ Keeps.refl

variable {caller : Caller ω}

theorem defineColumn_ok (hserves : Serves oci columns remaining) (hs : Fetchable s)
    {fetchBatchSize : UInt64} {c : ColumnInfo}
    (hc : assignColumn caller fetchBatchSize c = .ok ()) :
    ∃ t, defineColumn oci caller fetchBatchSize c s = (.ok (),t) ∧ Keeps remaining s t := by
  obtain ⟨result,t,hbind,ht⟩ := bindOutput_keeps hserves hs c.position c.oracleType
    (SelectRows.toSb4 (if 0 < c.dataSize then c.dataSize else 1))
    (SelectRows.toSb4 (if 0 < c.dataSize then c.dataSize else 1)) 2
  refine ⟨t,?_,ht⟩
  rw [defineColumn,hc]
  exact bind_ok hbind

/-- The columns are defined if every vector can be assigned. -/
theorem defineColumns_ok (hserves : Serves oci columns remaining) (hs : Fetchable s)
    {fetchBatchSize : UInt64} {cs : List ColumnInfo}
    (hcs : ∀ c ∈ cs, assignColumn caller fetchBatchSize c = .ok ()) :
    ∃ t, cs.forM (defineColumn oci caller fetchBatchSize) s = (.ok (),t) ∧ Keeps remaining s t := by
  induction cs generalizing s with
  | nil => exact ⟨s,rfl,Keeps.refl s⟩
  | cons c cs ih =>
    obtain ⟨hc,hrest⟩ := List.forall_mem_cons.mp hcs
    obtain ⟨t,hdefine,ht⟩ := defineColumn_ok hserves hs hc
    obtain ⟨u,hforM,hu⟩ := ih (ht.fetchable hs) hrest
    exact ⟨u,(bind_ok hdefine).trans hforM,ht.trans hu⟩

theorem defineColumns_error (hserves : Serves oci columns remaining) (hs : Fetchable s)
    {fetchBatchSize : UInt64} {cs : List ColumnInfo}
    (hcs : ∃ c ∈ cs, assignColumn caller fetchBatchSize c ≠ .ok ()) :
    ∃ e t, cs.forM (defineColumn oci caller fetchBatchSize) s = (.error e,t) := by
  induction cs generalizing s with
  | nil =>
    obtain ⟨c,hc,-⟩ := hcs
    cases hc
  | cons c cs ih =>
    cases hassign : assignColumn caller fetchBatchSize c with
    | error e =>
      have hdefine : defineColumn oci caller fetchBatchSize c s = (.error e,s) := by
        rw [defineColumn,hassign]
        rfl
      exact ⟨e,s,bind_error hdefine⟩
    | ok _ =>
      obtain ⟨t,hdefine,ht⟩ := defineColumn_ok hserves hs hassign
      have hrest : ∃ c ∈ cs, assignColumn caller fetchBatchSize c ≠ .ok () := by
        obtain ⟨d,hd,hbad⟩ := hcs
        rcases List.mem_cons.mp hd with rfl | hd
        · exact absurd hassign hbad
        · exact ⟨d,hd,hbad⟩
      obtain ⟨e,u,hforM⟩ := ih (ht.fetchable hs) hrest
      exact ⟨e,u,(bind_ok hdefine).trans hforM⟩

/-! ### The loop -/

theorem fetch_run (hserves : Serves oci columns remaining) (hs : Fetchable s) (nrows : ℕ) :
    ∃ result t, fetch oci nrows s = (.ok result,t) ∧ result.status = .success ∧
      result.call.status = (if remaining s.world-nrows = 0 then ociNoData else 0) ∧
      Fetchable t ∧ remaining t.world = remaining s.world-nrows := by
  obtain ⟨code,t,hcall,-,hworld⟩ := callOci_run oci (.stmtFetch nrows) s
  obtain ⟨u,hsync,hu,hremaining⟩ := sync_run hserves
    (⟨classify ⟨_,code⟩,⟨(oci.reply s.world (.stmtFetch nrows)).1.status,code⟩⟩ : ExecResult) t
  have hstatus := hserves.noData s.world nrows
  refine ⟨_,u,(bind_ok (requireState_ok hs)).trans ((bind_ok hcall).trans hsync),?_,hstatus,hu,?_⟩
  · refine classify_success.mpr ?_
    rw [hstatus]
    split_ifs
    · exact Int.natCast_nonneg 100
    · exact le_rfl
  · rw [hremaining,hworld,callWorld_remaining hserves]
    exact hserves.fetched s.world nrows

/-- One turn of the loop: the last where no row remains after it. -/
theorem fetchBatches_turn (hserves : Serves oci columns remaining)
    (hcaller : ∀ w cs n, remaining (caller.onBatch w cs n) = remaining w) (fetchBatchSize : UInt64)
    (hs : Fetchable s) :
    ∃ result t, Fetchable t ∧
      remaining t.world = remaining s.world-fetchBatchSize.toNat % 2^32 ∧
      ∀ fuel, fetchBatches oci caller fetchBatchSize columns (fuel+1) s =
        if remaining s.world-fetchBatchSize.toNat % 2^32 = 0 then (.ok (some result),t)
        else fetchBatches oci caller fetchBatchSize columns fuel t := by
  obtain ⟨result,t,hfetch,hsuccess,hstatus,ht,hremaining⟩ := fetch_run hserves hs
    (fetchBatchSize.toNat % 2^32)
  obtain ⟨u,hrows,-,hu⟩ := call_keeps hserves (c := .attrGetRowsFetched) rfl t
  have hgoes : ¬result.status ≠ .success := not_not.mpr hsuccess
  refine ⟨result,{ u with
    world := caller.onBatch u.world columns (oci.reply t.world .attrGetRowsFetched).1.value },
    hu.fetchable ht,(hcaller _ _ _).trans (hu.remaining.trans hremaining),fun fuel => ?_⟩
  have hturn : fetchBatches oci caller fetchBatchSize columns (fuel+1) s =
      (if result.call.status = ociNoData then pure (some result)
        else fetchBatches oci caller fetchBatchSize columns fuel : Method ω (Option ExecResult))
        { u with
          world := caller.onBatch u.world columns
            (oci.reply t.world .attrGetRowsFetched).1.value } := by
    have hvalue : rowsFetched oci t =
        (.ok (oci.reply t.world .attrGetRowsFetched).1.value,u) := bind_ok hrows
    rw [fetchBatches,bind_ok hfetch,if_neg hgoes,bind_ok hvalue]
    exact bind_ok rfl
  rw [hturn,hstatus]
  by_cases hnone : remaining s.world-fetchBatchSize.toNat % 2^32 = 0
  · rw [if_pos hnone,if_pos hnone,if_pos rfl]
    rfl
  · rw [if_neg hnone,if_neg hnone,if_neg (by decide)]

/-- Fetching no rows at a time from a result set that has some goes on for ever. -/
theorem fetchBatches_stuck (hserves : Serves oci columns remaining)
    (hcaller : ∀ w cs n, remaining (caller.onBatch w cs n) = remaining w)
    {fetchBatchSize : UInt64} (hsize : fetchBatchSize.toNat % 2^32 = 0) (hs : Fetchable s)
    (hremaining : remaining s.world ≠ 0) (fuel : ℕ) :
    ∃ t, fetchBatches oci caller fetchBatchSize columns fuel s = (.ok none,t) := by
  induction fuel generalizing s with
  | zero => exact ⟨s,rfl⟩
  | succ fuel ih =>
    obtain ⟨result,t,ht,hrest,hturn⟩ := fetchBatches_turn hserves hcaller fetchBatchSize hs
    rw [hsize,Nat.sub_zero] at hrest
    rw [hturn,hsize,Nat.sub_zero,if_neg hremaining]
    exact ih ht (hrest.symm ▸ hremaining)

/-- Otherwise fewer rows remain after each fetch. -/
theorem fetchBatches_ends (hserves : Serves oci columns remaining)
    (hcaller : ∀ w cs n, remaining (caller.onBatch w cs n) = remaining w)
    {fetchBatchSize : UInt64} (hs : Fetchable s)
    (hmoves : fetchBatchSize.toNat % 2^32 ≠ 0 ∨ remaining s.world = 0) {fuel : ℕ}
    (hfuel : remaining s.world < fuel) :
    ∃ result t, fetchBatches oci caller fetchBatchSize columns fuel s = (.ok (some result),t) := by
  induction fuel generalizing s with
  | zero => exact absurd hfuel (Nat.not_lt_zero _)
  | succ fuel ih =>
    obtain ⟨result,t,ht,hrest,hturn⟩ := fetchBatches_turn hserves hcaller fetchBatchSize hs
    rw [hturn]
    split_ifs with hlast
    · exact ⟨result,t,rfl⟩
    · refine ih ht (.inl ?_) ?_
      · omega
      · omega

/-- Where the loop is entered: the query is accepted, no column is a LOB, and there is room for
a batch of each. -/
structure Enters (oci : Oci ω δ) (caller : Caller ω) (columns : List ColumnInfo) (world : ω)
    (sql : Text) (prefetchRows fetchBatchSize : UInt64) : Prop where
  accepted : 0 ≤ (executeReply oci world sql prefetchRows).status
  plain : ∀ c ∈ columns, c.isLob = false
  room : ∀ c ∈ columns, assignColumn caller fetchBatchSize c = .ok ()

/-- `select_generic` returns or throws. -/
def SelectEnds (oci : Oci ω δ) (caller : Caller ω) (world : ω) (sql : Text)
    (prefetchRows fetchBatchSize : UInt64) : Prop :=
  ∃ fuel, (selectGeneric oci caller fuel sql prefetchRows fetchBatchSize (init world)).1 ≠ .ok none

theorem selectGeneric_run (hserves : Serves oci columns remaining) (caller : Caller ω) (world : ω)
    (sql : Text) (prefetchRows fetchBatchSize : UInt64) :
    (∃ s, Fetchable s ∧ remaining s.world = remaining world ∧
      Enters oci caller columns world sql prefetchRows fetchBatchSize ∧
      ∀ fuel, selectGeneric oci caller fuel sql prefetchRows fetchBatchSize (init world) =
        (fetchBatches oci caller fetchBatchSize columns fuel >>= fun result =>
          pure (result.map fun result => (result,none))) s) ∨
    ¬Enters oci caller columns world sql prefetchRows fetchBatchSize ∧
      ∀ fuel, (selectGeneric oci caller fuel sql prefetchRows fetchBatchSize (init world)).1 ≠
        .ok none := by
  obtain ⟨s₁,h₁,hs₁,hw₁⟩ := prepare_run oci world sql
  obtain ⟨s₂,h₂,hs₂,hw₂⟩ := setPrefetchRows_run oci (prefetchRows.toNat % 2^32) hs₁
  obtain ⟨result,s₃,h₃,hs₃,hr₃,haccepted⟩ := execute_opens hserves hs₂
  have hreply : (oci.reply s₂.world (.stmtExecute 0)).1 = executeReply oci world sql prefetchRows := by
    rw [hw₂,hw₁,executeReply]
  rw [hreply] at haccepted
  have hworld : remaining s₃.world = remaining world := by
    rw [hr₃,hw₂,hserves.others _ _ rfl,hw₁,callWorld_remaining hserves,hserves.others _ _ rfl]
  have hstart : ∀ fuel, selectGeneric oci caller fuel sql prefetchRows fetchBatchSize
      (init world) = _ := fun fuel => (bind_ok h₁).trans ((bind_ok h₂).trans (bind_ok h₃))
  by_cases hsuccess : result.status = .success
  · obtain ⟨s₄,h₄,hk₄⟩ := describeColumns_run hserves hs₃
    have hcolumns : ∀ fuel, selectGeneric oci caller fuel sql prefetchRows fetchBatchSize
        (init world) = _ := fun fuel => (hstart fuel).trans
      ((congrFun (if_neg (not_not.mpr hsuccess)) s₃).trans (bind_ok h₄))
    cases hlob : columns.find? ColumnInfo.isLob with
    | some column =>
      rw [hlob] at hcolumns
      refine .inr ⟨fun h => ?_,fun fuel => ?_⟩
      · have hbad := h.plain column (List.mem_of_find?_eq_some hlob)
        rw [List.find?_some hlob] at hbad
        cases hbad
      · rw [hcolumns]
        exact fun h => Option.some_ne_none _ (Except.ok.inj h)
    | none =>
      rw [hlob] at hcolumns
      have hplain : ∀ c ∈ columns, c.isLob = false := by
        intro c hc
        simpa using List.find?_eq_none.mp hlob c hc
      by_cases hroom : ∀ c ∈ columns, assignColumn caller fetchBatchSize c = .ok ()
      · obtain ⟨s₅,h₅,hk₅⟩ := defineColumns_ok hserves (hk₄.fetchable hs₃) hroom
        refine .inl ⟨s₅,hk₅.fetchable (hk₄.fetchable hs₃),?_,⟨haccepted.mp hsuccess,hplain,hroom⟩,
          fun fuel => (hcolumns fuel).trans (bind_ok h₅)⟩
        rw [hk₅.remaining,hk₄.remaining,hworld]
      · obtain ⟨e,s₅,h₅⟩ := defineColumns_error hserves (hk₄.fetchable hs₃)
          (by simpa using hroom : ∃ c ∈ columns, assignColumn caller fetchBatchSize c ≠ .ok ())
        refine .inr ⟨fun h => hroom h.room,fun fuel => ?_⟩
        rw [(hcolumns fuel).trans (bind_error h₅)]
        simp
  · refine .inr ⟨fun h => hsuccess (haccepted.mpr h.accepted),fun fuel => ?_⟩
    rw [(hstart fuel).trans (congrFun (if_pos hsuccess) s₃)]
    exact fun h => Option.some_ne_none _ (Except.ok.inj h)

/-- `select_generic` ends unless it enters its loop with something to fetch and a batch size that
is nothing in 32 bits. -/
theorem selectGeneric_ends (hserves : Serves oci columns remaining)
    (hcaller : ∀ w cs n, remaining (caller.onBatch w cs n) = remaining w) (world : ω) (sql : Text)
    (prefetchRows fetchBatchSize : UInt64) :
    SelectEnds oci caller world sql prefetchRows fetchBatchSize ↔
      fetchBatchSize.toNat % 2^32 ≠ 0 ∨ remaining world = 0 ∨
        ¬Enters oci caller columns world sql prefetchRows fetchBatchSize := by
  rcases selectGeneric_run hserves caller world sql prefetchRows fetchBatchSize with
    ⟨s,hs,hremaining,henters,hrun⟩ | ⟨hnot,hends⟩
  · constructor
    · rintro ⟨fuel,hfuel⟩
      by_contra hstuck
      obtain ⟨hsize,hrows⟩ := not_or.mp hstuck
      obtain ⟨t,ht⟩ := fetchBatches_stuck hserves hcaller (not_not.mp hsize) hs
        (hremaining.symm ▸ (not_or.mp hrows).1) fuel
      rw [hrun,bind_ok ht] at hfuel
      exact hfuel rfl
    · intro h
      have hmoves : fetchBatchSize.toNat % 2^32 ≠ 0 ∨ remaining s.world = 0 := by
        rw [hremaining]
        exact h.imp_right fun h => h.resolve_right (not_not.mpr henters)
      obtain ⟨result,t,ht⟩ := fetchBatches_ends hserves hcaller hs hmoves
        (Nat.lt_succ_self (remaining s.world))
      refine ⟨(remaining s.world).succ,?_⟩
      rw [hrun,bind_ok ht]
      exact fun h => Option.some_ne_none _ (Except.ok.inj h)
  · exact iff_of_true ⟨0,hends 0⟩ (.inr (.inr hnot))

end Cursor

end OciStatement
end Marketlib
