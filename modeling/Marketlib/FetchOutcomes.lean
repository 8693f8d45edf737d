import Marketlib.BatchAgreement
import Marketlib.ColumnNames
import Marketlib.RowDelivery

/-! What the two clients make of a query: of the statuses of its execute and its fetches, and of
the rows. `ideas/binding` lists the statuses it takes for a success, `ideas/new` looks at the sign.
OCI answers by a script, the same for both. -/

namespace Marketlib
namespace FetchOutcomes

open Binding SelectRows CellWrites

variable {ω α Λ β ρ : Type}

/-- A fetch: what OCI answers, and the batch as `on_batch` would get it. -/
structure Reply (β : Type) where
  call : OciCallResult
  batch : β

/-- How far a client gets: there is no result while it has not stopped. -/
structure Run (ρ β : Type) where
  result : Option ρ
  /-- The executes and fetches made. -/
  calls : ℕ
  batches : List β

/-- A run after one more fetch, whose batch was handed on. -/
def Run.deliver (batch : β) (t : Run ρ β) : Run ρ β := ⟨t.result,t.calls+1,batch :: t.batches⟩

/-- A run after the execute. -/
def Run.afterExecute (t : Run ρ β) : Run ρ β := { t with calls := t.calls+1 }

/-! ### The client of `ideas/binding` -/

namespace Raw

/-- `ExecResult`. -/
structure Result where
  status : ExecStatus
  ociStatus : ℤ

/-- `OciConnection::is_disconnect_error`; the argument is what `OCIErrorGet` finds on `err_`,
where there is one. -/
def isDisconnectError : Option ℤ → Bool
  | none => true
  | some errorCode =>
    decide (errorCode ∈ [28,1012,2396,3113,3114,3135,12153,12537,12571,25408])

/-- The result for a status that was not taken for a success. -/
def failure (call : OciCallResult) : Result :=
  if isDisconnectError (some call.errorCode) then ⟨.connectionLost,call.status⟩
  else ⟨.queryError,call.status⟩

/-- `OciConnection::execute`. -/
def execute (call : OciCallResult) : Result :=
  if call.status = 0 ∨ call.status = ociNoData then ⟨.success,call.status⟩ else failure call

/-- The `for (;;)` of `run_select_fetch_loop`, over what its turns find. -/
def fetchLoop : List (Reply β) → Run Result β
  | [] => ⟨none,0,[]⟩
  | r :: rs =>
    if r.call.status ≠ 0 ∧ r.call.status ≠ ociNoData then ⟨some (failure r.call),1,[]⟩
    else if r.call.status = ociNoData then ⟨some ⟨.success,0⟩,1,[r.batch]⟩
    else (fetchLoop rs).deliver r.batch

/-- What its turns find: the answers to `OCIStmtFetch2`, and the batch once every fetched row has
been through `apply_columns`. -/
def replies (oci : Oci ω α Λ) (T : RowType) (batchSize : ℕ) (defines : List Define) :
    ℕ → ω → Memory α Λ → List (Reply (Batch T α))
  | 0,_,_ => []
  | fuel+1,w,m =>
    let (call,w,m) := oci.stmtFetch w defines (batchSize % 2^32) m
    let rowsFetched := oci.rowsFetched w
    let m := (List.range rowsFetched).foldl (SelectRows.Raw.applyColumns oci T) m
    ⟨call,⟨(List.range batchSize).map fun row => readField T m row,rowsFetched⟩⟩ ::
      replies oci T batchSize defines fuel w m

/-- `run_select_fetch_loop`. -/
def runSelectFetchLoop (oci : Oci ω α Λ) (T : RowType) (fuel : ℕ) (handle : ω)
    (prefetchRows batchSize : ℕ) (zero : α) (m : Memory α Λ) : Run Result (Batch T α) :=
  let m := newBatch T batchSize zero m
  let handle := oci.setPrefetchRows handle (prefetchRows % 2^32)
  let (call,handle) := oci.stmtExecute handle 0
  let result := execute call
  if result.status = .success then
    let positions := ColumnNames.resolveColumnPositions (oci.columnNames handle) T
    if positions.any fun position => position = 0 then ⟨some ⟨.queryError,-1⟩,1,[]⟩
    else
      let s := SelectRows.Raw.defineColumns oci T batchSize zero positions ⟨handle,m,[]⟩
      (fetchLoop (replies oci T batchSize s.defines fuel s.handle s.memory)).afterExecute
  else ⟨some result,1,[]⟩

end Raw

/-! ### The client of `ideas/new` -/

namespace Signed

/-- The `for (;;)` of `run_select_fetch_loop`, over what its turns find. -/
def fetchLoop : List (Reply β) → Run ExecResult β
  | [] => ⟨none,0,[]⟩
  | r :: rs =>
    let fetchResult : ExecResult := ⟨classify r.call,r.call⟩
    if fetchResult.status ≠ .success then ⟨some fetchResult,1,[]⟩
    else if fetchResult.call.status = ociNoData then ⟨some fetchResult,1,[r.batch]⟩
    else (fetchLoop rs).deliver r.batch

/-- What its turns find, on a statement that can be fetched from. -/
def replies (oci : Oci ω α Λ) (T : RowType) (batchSize : ℕ) (defines : List Define) :
    ℕ → ω → Memory α Λ → List (Reply (Batch T α))
  | 0,_,_ => []
  | fuel+1,w,m =>
    let (call,w,m) := oci.stmtFetch w defines (batchSize % 2^32) m
    let rowsFetched := oci.rowsFetched w
    let m := if needsApplyLoop T then (List.range rowsFetched).foldl (applyColumns oci T) m else m
    ⟨call,⟨(List.range batchSize).map fun row => readField T m row,rowsFetched⟩⟩ ::
      replies oci T batchSize defines fuel w m

/-- `run_select_fetch_loop`, with its calls counted. -/
def runSelectFetchLoop (oci : Oci ω α Λ) (T : RowType) (fuel : ℕ) (handle : ω)
    (prefetchRows batchSize : ℕ) (zero : α) (m : Memory α Λ) :
    Except Stop (Run ExecResult (Batch T α)) := do
  let m := newBatch T batchSize zero m
  let stmt ← Statement.setPrefetchRows oci ⟨.prepared,handle⟩ (prefetchRows % 2^32)
  let (result,stmt) ← stmt.execute oci 0
  if result.status ≠ .success then return ⟨some result,1,[]⟩
  let positions ← resolveColumnPositions oci T stmt
  if positions.any fun position => position = 0 then
    return ⟨some ⟨.queryError,⟨-1,0⟩⟩,1,[]⟩
  let s ← defineColumns oci T batchSize zero positions ⟨stmt,m,[]⟩
  return (fetchLoop (replies oci T batchSize s.defines fuel s.stmt.handle s.memory)).afterExecute

end Signed

/-! ### A script -/

/-- A fetch that OCI will answer, and the rows that it delivers. -/
structure Fetch (α Λ : Type) where
  call : OciCallResult
  rows : List (Row α Λ)

/-- What OCI answers to the calls of one query. -/
structure Script (α Λ : Type) where
  execute : OciCallResult
  /-- The columns that are described. -/
  columns : List Text
  fetches : List (Fetch α Λ)
  lobGetLength : Λ → ℕ
  lobRead : Λ → ℕ → Text

/-- The defines that count: of each position the last. -/
def lastDefines : List Define → List Define
  | [] => []
  | d :: ds =>
    if d.position ∈ ds.map Define.position then lastDefines ds else d :: lastDefines ds

/-- An OCI that answers by a script. Its state is the fetches to come, and how many rows the last
delivered. -/
def scripted (script : Script α Λ) : Oci (List (Fetch α Λ) × ℕ) α Λ where
  setPrefetchRows w _ := w
  stmtExecute w _ := (script.execute,w)
  columnNames _ := script.columns
  defineByPos w _ := (⟨0,0⟩,true,w)
  stmtFetch w defines _ m :=
    match w.1 with
    | [] => (⟨ociNoData,0⟩,([],0),m)
    | f :: fetches =>
      (f.call,(fetches,f.rows.length),applyWrites (rowWrites (lastDefines defines) f.rows) m)
  rowsFetched w := w.2
  stmtState _ := 2
  lobGetLength := script.lobGetLength
  lobRead := script.lobRead

/-- The position that a field's column is found at, 0 for none. -/
def position (T : RowType) (columns : List Text) (i : Fin T.arity) : ℕ :=
  if columns.length = 0 then i.val+1 else fieldPosition T columns i

/-- The fields that get a column: of each position the last. -/
def fieldsOf {n : ℕ} (position : Fin n → ℕ) : List (Fin n) → List (Fin n)
  | [] => []
  | i :: is =>
    if position i ∈ is.map position then fieldsOf position is else i :: fieldsOf position is

/-- The fields of a row struct that do. -/
def definedFields (T : RowType) (columns : List Text) : List (Fin T.arity) :=
  fieldsOf (position T columns) (List.finRange T.arity)

/-- What is relied on of OCI: a fetch delivers no more rows than it is asked for, and a text where
it is told to. -/
structure Script.Sound (script : Script α Λ) (T : RowType) (batchSize : ℕ) : Prop where
  few : ∀ f ∈ script.fetches, f.rows.length ≤ batchSize % 2^32
  text : ∀ f ∈ script.fetches,
    DeliversText (position T script.columns) (definedFields T script.columns) f.rows

/-- No field has the name of two columns. -/
def OneColumnEach (T : RowType) (columns : List Text) : Prop :=
  ∀ i : Fin T.arity, ColumnNames.columnsNamed (uppercased (T.name i)) columns ≤ 1

instance (T : RowType) (columns : List Text) : Decidable (OneColumnEach T columns) :=
  inferInstanceAs (Decidable (∀ _, _))

/-! ### How they compare -/

/-- What a call of `on_batch` is told to read. -/
def told {T : RowType} (b : Batch T α) : List (OutRow T α) × ℕ := (b.rows.take b.count,b.count)

/-- Stopped after the same call, with the same batches handed on and the same `ExecStatus`, and
no status that is not negative reported as a failure. -/
structure Alike {T : RowType} (raw : Run Raw.Result (Batch T α))
    (signed : Run ExecResult (Batch T α)) : Prop where
  status : raw.result.map Raw.Result.status = signed.result.map ExecResult.status
  calls : raw.calls = signed.calls
  batches : raw.batches.map told = signed.batches.map told
  raw_negative : ∀ r ∈ raw.result, r.status ≠ .success → r.ociStatus < 0
  signed_negative : ∀ r ∈ signed.result, r.status ≠ .success → r.call.status < 0

/-- A status that both clients know: an error, `OCI_SUCCESS` or `OCI_NO_DATA`. -/
def Listed (call : OciCallResult) : Prop :=
  call.status < 0 ∨ call.status = 0 ∨ call.status = ociNoData

/-- The fetches up to the first that is not `OCI_SUCCESS` have listed statuses. -/
def FetchesListed : List (Fetch α Λ) → Prop
  | [] => True
  | f :: fs => Listed f.call ∧ (f.call.status = 0 → FetchesListed fs)

/-- In none of these fetches is a `NULL` delivered for a `FixedString` whose place in the batch
holds a text from an earlier one. -/
def NoTextKept {T : RowType} (position : Fin T.arity → ℕ) (fields : List (Fin T.arity)) :
    (ℕ → Fin T.arity → Text) → List (Fetch α Λ) → Prop
  | _,[] => True
  | held,f :: fs => (0 ≤ f.call.status → NullsEmpty position fields f.rows held) ∧
    (f.call.status = 0 → NoTextKept position fields (textsAfter position fields f.rows held) fs)

theorem failure_status (call : OciCallResult) (h : call.status < 0) :
    (Raw.failure call).status = classify call ∧ (Raw.failure call).ociStatus = call.status := by
  unfold Raw.failure classify
  rw [if_neg h.not_ge]
  by_cases hcode : call.errorCode ∈ [28,1012,2396,3113,3114,3135,12153,12537,12571,25408]
  · simp only [Raw.isDisconnectError,hcode,decide_true,↓reduceIte,and_self]
  · simp only [Raw.isDisconnectError,hcode,decide_false,Bool.false_eq_true,↓reduceIte,and_self]

theorem Raw.nonneg_of_success {call : OciCallResult} (h : (Raw.execute call).status = .success) :
    0 ≤ call.status := by
  unfold Raw.execute at h
  split_ifs at h with hlisted
  · rcases hlisted with h | h
    · exact h.ge
    · rw [h]
      decide
  · unfold Raw.failure at h
    split_ifs at h

theorem failure_ne_success (call : OciCallResult) : (Raw.failure call).status ≠ .success := by
  unfold Raw.failure
  split_ifs <;> simp

theorem classify_of_nonneg {call : OciCallResult} (h : 0 ≤ call.status) :
    classify call = .success := if_pos h

theorem classify_of_neg {call : OciCallResult} (h : call.status < 0) :
    classify call ≠ .success := by
  rw [classify,if_neg h.not_ge]
  split_ifs <;> simp

section Alike

variable {T : RowType}

/-- Both clients stop on an error, and alike. -/
theorem alike_failure {call : OciCallResult} (h : call.status < 0) :
    Alike (⟨some (Raw.failure call),1,[]⟩ : Run Raw.Result (Batch T α))
      ⟨some ⟨classify call,call⟩,1,[]⟩ := by
  obtain ⟨hstatus,hoci⟩ := failure_status call h
  refine ⟨congrArg some hstatus,rfl,rfl,fun r hr _ => ?_,fun r hr _ => ?_⟩
  · cases hr
    rwa [hoci]
  · cases hr
    exact h

/-- A status that is not negative is no failure. -/
theorem not_alike_failure {call : OciCallResult} (h : 0 ≤ call.status) {calls : ℕ}
    {batches : List (Batch T α)} (t : Run ExecResult (Batch T α)) :
    ¬Alike ⟨some (Raw.failure call),calls,batches⟩ t := by
  intro halike
  have hneg := halike.raw_negative _ rfl (failure_ne_success call)
  have hstatus : (Raw.failure call).ociStatus = call.status := by
    unfold Raw.failure
    split_ifs <;> rfl
  rw [hstatus] at hneg
  exact absurd hneg h.not_gt

/-- Both clients stop without a failure, with a batch or none. -/
theorem alike_stop {status : ExecStatus} {raw : Raw.Result} {signed : ExecResult}
    (hraw : raw.status = status) (hsigned : signed.status = status)
    (hraw' : status ≠ .success → raw.ociStatus < 0)
    (hsigned' : status ≠ .success → signed.call.status < 0) (bs bs' : List (Batch T α)) :
    Alike ⟨some raw,1,bs⟩ ⟨some signed,1,bs'⟩ ↔ bs.map told = bs'.map told := by
  refine ⟨Alike.batches,fun h => ⟨?_,rfl,h,fun r hr hne => ?_,fun r hr hne => ?_⟩⟩
  · exact congrArg some (hraw.trans hsigned.symm)
  · cases hr
    exact hraw' (hraw ▸ hne)
  · cases hr
    exact hsigned' (hsigned ▸ hne)

theorem alike_deliver {raw : Run Raw.Result (Batch T α)} {signed : Run ExecResult (Batch T α)}
    (b b' : Batch T α) :
    Alike (raw.deliver b) (signed.deliver b') ↔ told b = told b' ∧ Alike raw signed := by
  constructor
  · intro h
    obtain ⟨hfirst,hrest⟩ := List.cons.inj h.batches
    exact ⟨hfirst,h.status,Nat.succ_injective h.calls,hrest,h.raw_negative,h.signed_negative⟩
  · rintro ⟨hfirst,h⟩
    refine ⟨h.status,congrArg Nat.succ h.calls,?_,h.raw_negative,h.signed_negative⟩
    exact congrArg₂ List.cons hfirst h.batches

theorem alike_afterExecute {raw : Run Raw.Result (Batch T α)}
    {signed : Run ExecResult (Batch T α)} :
    Alike raw.afterExecute signed.afterExecute ↔ Alike raw signed :=
  ⟨fun h => ⟨h.status,Nat.succ_injective h.calls,h.batches,h.raw_negative,h.signed_negative⟩,
    fun h => ⟨h.status,congrArg Nat.succ h.calls,h.batches,h.raw_negative,h.signed_negative⟩⟩

end Alike

/-! ### The fetches -/

section Fetches

variable {n : ℕ} {p : Fin n → ℕ}

theorem fieldsOf_sublist (is : List (Fin n)) : (fieldsOf p is).Sublist is := by
  induction is with
  | nil => exact .slnil
  | cons i is ih =>
    rw [fieldsOf]
    split_ifs
    · exact ih.cons i
    · exact ih.cons_cons i

theorem lastDefines_defineHandles {T : RowType} (c : Client) (position : Fin T.arity → ℕ)
    (is : List (Fin T.arity)) : lastDefines (c.defineHandles T position is) =
      c.defineHandles T position (fieldsOf position is) := by
  induction is with
  | nil => rfl
  | cons i is ih =>
    have hpositions : (c.defineHandles T position is).map Define.position = is.map position := by
      rw [Client.defineHandles,List.map_map]
      rfl
    have hcons : c.defineHandles T position (i :: is) =
        c.columnDefine T i (position i) :: c.defineHandles T position is := rfl
    have hposition : (c.columnDefine T i (position i)).position = position i := rfl
    rw [hcons,lastDefines,fieldsOf,hpositions,hposition,ih]
    split_ifs <;> rfl

variable {script : Script α Λ} {T : RowType} {position : Fin T.arity → ℕ} {batchSize : ℕ}

/-- The batch of a client after a fetch. -/
def batchAfter (c : Client) (script : Script α Λ) (T : RowType) (position : Fin T.arity → ℕ)
    (batchSize : ℕ) (rows : List (Row α Λ)) (m : Memory α Λ) : Batch T α :=
  ⟨(List.range batchSize).map fun row => readField T (c.delivered (scripted script) T position
    (fieldsOf position (List.finRange T.arity)) rows m) row,rows.length⟩

/-- The define handles of a client. -/
def handles (c : Client) (position : Fin T.arity → ℕ) : List Define :=
  c.defineHandles T position (List.finRange T.arity)

theorem replies_binding (f : Fetch α Λ) (fs : List (Fetch α Λ)) (k : ℕ) (m : Memory α Λ) :
    Raw.replies (scripted script) T batchSize (handles .binding position) (f :: fs).length
        (f :: fs,k) m =
      ⟨f.call,batchAfter .binding script T position batchSize f.rows m⟩ ::
        Raw.replies (scripted script) T batchSize (handles .binding position) fs.length
          (fs,f.rows.length) (Client.binding.delivered (scripted script) T position
            (fieldsOf position (List.finRange T.arity)) f.rows m) := by
  rw [List.length_cons,Raw.replies,batchAfter,Client.delivered,← lastDefines_defineHandles]
  rfl

theorem replies_new (f : Fetch α Λ) (fs : List (Fetch α Λ)) (k : ℕ) (m : Memory α Λ) :
    Signed.replies (scripted script) T batchSize (handles .new position) (f :: fs).length
        (f :: fs,k) m =
      ⟨f.call,batchAfter .new script T position batchSize f.rows m⟩ ::
        Signed.replies (scripted script) T batchSize (handles .new position) fs.length
          (fs,f.rows.length) (Client.new.delivered (scripted script) T position
            (fieldsOf position (List.finRange T.arity)) f.rows m) := by
  rw [List.length_cons,Signed.replies,batchAfter,Client.delivered,← lastDefines_defineHandles]
  rfl

variable (script) in
/-- The rows that are handed on are the same if and only if no text is kept for a `NULL`. -/
theorem told_iff {held : ℕ → Fin T.arity → Text} {m m' : Memory α Λ} {rows : List (Row α Λ)}
    (h : SameBatch (fieldsOf position (List.finRange T.arity)) batchSize held m m')
    (hsize : T.size < 2^31) (hfew : rows.length ≤ batchSize)
    (htext : DeliversText position (fieldsOf position (List.finRange T.arity)) rows) :
    told (batchAfter .binding script T position batchSize rows m) =
        told (batchAfter .new script T position batchSize rows m') ↔
      NullsEmpty position (fieldsOf position (List.finRange T.arity)) rows held := by
  have hfields : (fieldsOf position (List.finRange T.arity)).Nodup :=
    (List.nodup_finRange T.arity).sublist (fieldsOf_sublist _)
  rw [← h.reads_iff (scripted script) hsize hfields htext hfew,told,told,Prod.mk.injEq]
  simp only [batchAfter,and_true,← List.map_take,List.take_range,Nat.min_eq_left hfew]
  rw [List.map_inj_left]
  simp only [List.mem_range,funext_iff]

variable (script) in
/-- The loops of both clients make the same of their fetches if and only if no fetch that is made
answers a status that only one of them takes for a success, or has a text kept for a `NULL`. -/
theorem fetchLoop_alike_iff (hsize : T.size < 2^31) (fs : List (Fetch α Λ)) (k k' : ℕ)
    {held : ℕ → Fin T.arity → Text} {m m' : Memory α Λ}
    (h : SameBatch (fieldsOf position (List.finRange T.arity)) batchSize held m m')
    (hfew : ∀ f ∈ fs, f.rows.length ≤ batchSize)
    (htext : ∀ f ∈ fs, DeliversText position (fieldsOf position (List.finRange T.arity)) f.rows) :
    Alike (Raw.fetchLoop (Raw.replies (scripted script) T batchSize (handles .binding position)
          fs.length (fs,k) m))
        (Signed.fetchLoop (Signed.replies (scripted script) T batchSize (handles .new position)
          fs.length (fs,k') m')) ↔
      FetchesListed fs ∧
        NoTextKept position (fieldsOf position (List.finRange T.arity)) held fs := by
  induction fs generalizing k k' held m m' with
  | nil =>
    refine iff_of_true ⟨rfl,rfl,rfl,?_,?_⟩ ⟨trivial,trivial⟩
    · intro r hr
      cases hr
    · intro r hr
      cases hr
  | cons f fs ih =>
    obtain ⟨hfewf,hfewfs⟩ := List.forall_mem_cons.mp hfew
    obtain ⟨htextf,htextfs⟩ := List.forall_mem_cons.mp htext
    have hfields : (fieldsOf position (List.finRange T.arity)).Nodup :=
      (List.nodup_finRange T.arity).sublist (fieldsOf_sublist _)
    have htold := told_iff script h hsize hfewf htextf
    rw [replies_binding,replies_new,Raw.fetchLoop,Signed.fetchLoop,FetchesListed,NoTextKept]
    rcases lt_or_ge f.call.status 0 with hneg | hnonneg
    · have hzero : f.call.status ≠ 0 := hneg.ne
      have hdone : f.call.status ≠ ociNoData := fun h => by
        rw [h] at hneg
        exact absurd hneg (by decide)
      simp only [classify_of_neg hneg,hzero,hdone,ne_eq,not_false_eq_true,and_self,↓reduceIte]
      exact iff_of_true (alike_failure hneg)
        ⟨⟨.inl hneg,False.elim⟩,fun h => absurd h hneg.not_ge,False.elim⟩
    · simp only [classify_of_nonneg hnonneg,ne_eq,not_true_eq_false,↓reduceIte]
      by_cases hdone : f.call.status = ociNoData
      · have hzero : f.call.status ≠ 0 := hdone ▸ by decide
        have hlisted : Listed f.call := .inr (.inr hdone)
        have hne : ociNoData ≠ 0 := by decide
        simp only [hdone,not_true_eq_false,and_false,↓reduceIte]
        rw [alike_stop rfl rfl (fun h => absurd rfl h) (fun h => absurd rfl h)]
        simp only [List.map_cons,List.map_nil,List.cons.injEq,and_true,htold,hlisted,hne,
          false_implies,true_and]
        exact ⟨fun h _ => h,fun h => h (by decide)⟩
      · by_cases hzero : f.call.status = 0
        · have hlisted : Listed f.call := .inr (.inl hzero)
          have hne : (0 : ℤ) ≠ ociNoData := by decide
          simp only [hzero,hne,not_true_eq_false,false_and,↓reduceIte,alike_deliver,htold,hlisted,
            true_and,forall_const,le_refl]
          constructor
          · rintro ⟨hnulls,halike⟩
            have hrest := (ih f.rows.length f.rows.length (h.delivered hsize hfields htextf hnulls)
              hfewfs htextfs).mp halike
            exact ⟨hrest.1,hnulls,hrest.2⟩
          · rintro ⟨hlistedfs,hnulls,hkept⟩
            exact ⟨hnulls,(ih f.rows.length f.rows.length
              (h.delivered hsize hfields htextf hnulls) hfewfs htextfs).mpr ⟨hlistedfs,hkept⟩⟩
        · simp only [hzero,hdone,not_false_eq_true,and_self,↓reduceIte]
          refine iff_of_false (not_alike_failure hnonneg _) fun h => ?_
          rcases h.1.1 with h | h | h
          · exact absurd h hnonneg.not_gt
          · exact hzero h
          · exact hdone h

end Fetches

/-! ### The columns -/

section Columns

variable {oci : Oci ω α Λ} {T : RowType}

theorem defineOneColumn_binding (batchSize : ℕ) (zero : α) {s : SelectRows.Raw.Locals ω α Λ}
    (i : Fin T.arity) {position : ℕ} {result : OciCallResult} {w : ω}
    (hdefine : oci.defineByPos s.handle position = (result,true,w)) :
    SelectRows.Raw.defineOneColumn oci T batchSize zero s (i,position) =
      ⟨w,Client.binding.assigned T batchSize zero s.memory i,
        s.defines ++ [Client.binding.columnDefine T i position]⟩ := by
  have hrun : ∀ (m : Memory α Λ) (data : Address) (len : ℤ) (outsize indicator : Option Address)
      (skips : Skips), { s with memory := m }.define oci position data len outsize indicator skips =
        ⟨w,m,s.defines ++ [{ skips with position, data, len, outsize, indicator }]⟩ := by
    intro m data len outsize indicator skips
    simp only [SelectRows.Raw.Locals.define,hdefine,if_true]
  unfold SelectRows.Raw.defineOneColumn Client.assigned Client.withIndicators Client.columnDefine
    Client.skips Client.dataCell Client.stride Client.indicatorCell lengthCell
  cases hk : T.kind i with
  | plain width =>
    simp only [hk,fieldAddress_zero,Client.indicated,Kind.room]
    exact hrun s.memory _ _ _ _ _
  | fixedString capacity =>
    simp only [hk,fieldAddress_zero,Client.indicated,Kind.room]
    exact hrun s.memory _ _ _ _ _
  | _ =>
    simp only [hk,stageAddress_zero,Client.indicated,Kind.room,if_true]
    exact hrun _ _ _ _ _ _

variable (script : Script α Λ) (position : Fin T.arity → ℕ) (batchSize : ℕ) (zero : α)

theorem defineColumns_binding (w : List (Fetch α Λ) × ℕ) (m : Memory α Λ) :
    SelectRows.Raw.defineColumns (scripted script) T batchSize zero
        ((List.finRange T.arity).map position) ⟨w,newBatch T batchSize zero m,[]⟩ =
      ⟨w,Client.binding.defined T batchSize zero m,handles .binding position⟩ := by
  have hall : ∀ (fields : List (Fin T.arity)) (s : SelectRows.Raw.Locals _ α Λ),
      (fields.zip (fields.map position)).foldl
          (SelectRows.Raw.defineOneColumn (scripted script) T batchSize zero) s =
        ⟨s.handle,fields.foldl (Client.binding.assigned T batchSize zero) s.memory,
          s.defines ++ Client.binding.defineHandles T position fields⟩ := by
    intro fields
    induction fields with
    | nil =>
      intro s
      simp [Client.defineHandles]
    | cons i fields ih =>
      intro s
      have hdefine : (scripted script).defineByPos s.handle (position i) =
          (⟨0,0⟩,true,s.handle) := rfl
      rw [List.map_cons,List.zip_cons_cons,List.foldl_cons,
        defineOneColumn_binding batchSize zero i hdefine,ih]
      simp [Client.defineHandles]
  exact hall _ _

theorem defineColumns_new (w : List (Fetch α Λ) × ℕ) (m : Memory α Λ) {state : SelectRows.State}
    (hstate : state = .executed ∨ state = .endOfFetch) :
    defineColumns (scripted script) T batchSize zero ((List.finRange T.arity).map position)
        ⟨⟨state,w⟩,newBatch T batchSize zero m,[]⟩ =
      .ok ⟨⟨state,w⟩,Client.new.defined T batchSize zero m,handles .new position⟩ := by
  have hdefined : ∀ v p, v = w → ((scripted script).defineByPos v p).2.1 = true ∧
      ((scripted script).defineByPos v p).2.2 = w := fun _ _ h => ⟨rfl,h⟩
  have hfetchable : (Statement.mk state w).state = .executed ∨
      (Statement.mk state w).state = .endOfFetch := hstate
  have hhandle : (Statement.mk state w).handle = w := rfl
  obtain ⟨_,rfl,hrun⟩ := defineColumns_run (P := (· = w)) hdefined position batchSize zero
    hfetchable hhandle (newBatch T batchSize zero m)
  exact hrun

variable {script}

/-- Where no field has the name of two columns both clients find the same. -/
theorem positions_binding (hnames : OneColumnEach T script.columns) :
    ColumnNames.resolveColumnPositions script.columns T =
      (List.finRange T.arity).map (FetchOutcomes.position T script.columns) := by
  rw [ColumnNames.resolveColumnPositions_binding]
  unfold FetchOutcomes.position
  split_ifs with hempty
  · rfl
  · refine List.map_congr_left fun i _ => ?_
    exact (ColumnNames.lastPosition_eq_columnPosition Nat.one_ne_zero).mpr (hnames i)

variable (script) in
theorem positions_new {stmt : Statement (List (Fetch α Λ) × ℕ)}
    (hstate : stmt.state = .executed ∨ stmt.state = .endOfFetch) :
    resolveColumnPositions (scripted script) T stmt =
      .ok ((List.finRange T.arity).map (FetchOutcomes.position T script.columns)) := by
  rw [ColumnNames.resolveColumnPositions_new hstate]
  unfold FetchOutcomes.position
  have hcolumns : (scripted script).columnNames stmt.handle = script.columns := rfl
  rw [hcolumns]
  split_ifs <;> rfl

end Columns

/-! ### A query -/

/-- A run that has not stopped when there are no more turns is one that is out of fuel. -/
def Run.toExcept (t : Run ρ β) : Except Stop (ρ × List β) :=
  match t.result with
  | some r => .ok (r,t.batches)
  | none => .error .outOfFuel

theorem toExcept_deliver (batch : β) (t : Run ρ β) : (t.deliver batch).toExcept =
    t.toExcept.bind fun x => .ok (x.1,batch :: x.2) := by
  obtain ⟨_ | r,calls,batches⟩ := t <;> rfl

section Query

variable {oci : Oci ω α Λ} {T : RowType} {batchSize : ℕ} {defines : List Define}

theorem syncState_fetches {state : SelectRows.State} (w : ω)
    (hstate : state = .executed ∨ state = .endOfFetch) :
    syncState oci state w = .executed ∨ syncState oci state w = .endOfFetch := by
  unfold syncState
  split_ifs
  · exact .inl rfl
  · exact .inr rfl
  · exact hstate

/-- The fetch loop of an executed statement is the loop over what its turns find. -/
theorem fetchLoop_refines (fuel : ℕ) {stmt : Statement ω} {m : Memory α Λ}
    (hstate : stmt.state = .executed ∨ stmt.state = .endOfFetch) :
    SelectRows.fetchLoop oci T batchSize defines fuel stmt m =
      (Signed.fetchLoop
        (Signed.replies oci T batchSize defines fuel stmt.handle m)).toExcept := by
  induction fuel generalizing stmt m with
  | zero => rfl
  | succ fuel ih =>
    rcases hfetch : oci.stmtFetch stmt.handle defines (batchSize % 2^32) m with ⟨call,w,m'⟩
    have hallowed : requireState stmt [.executed,.endOfFetch] "fetch".toList = .ok () :=
      if_pos (by simpa using hstate)
    have hstep : stmt.fetch oci defines (batchSize % 2^32) m =
        .ok (⟨classify call,call⟩,⟨syncState oci stmt.state w,w⟩,m') := by
      rw [Statement.fetch,hallowed,hfetch]
      rfl
    have hnext : syncState oci stmt.state w = .executed ∨
        syncState oci stmt.state w = .endOfFetch :=
      syncState_fetches w hstate
    rw [SelectRows.fetchLoop,hstep,Signed.replies,hfetch,Signed.fetchLoop]
    by_cases hfail : classify call = .success
    · by_cases hdone : call.status = ociNoData
      · simp only [bind,Except.bind,hfail,hdone,ne_eq,not_true_eq_false,↓reduceIte]
        rfl
      · have hrest := fun m => @ih ⟨syncState oci stmt.state w,w⟩ m hnext
        simp only [bind,Except.bind,hfail,hdone,ne_eq,not_true_eq_false,↓reduceIte,hrest,
          toExcept_deliver]
        rfl
    · simp only [bind,Except.bind,hfail,ne_eq,not_false_eq_true,↓reduceIte]
      rfl

variable (script : Script α Λ) (prefetchRows : ℕ) (zero : α) (m : Memory α Λ)

/-- The query as `ideas/binding` makes it. -/
def bindingRun (script : Script α Λ) (T : RowType) (prefetchRows batchSize : ℕ) (zero : α)
    (m : Memory α Λ) : Run Raw.Result (Batch T α) :=
  Raw.runSelectFetchLoop (scripted script) T script.fetches.length (script.fetches,0) prefetchRows
    batchSize zero m

/-- The query as `ideas/new` makes it, with its calls counted. -/
def newRun (script : Script α Λ) (T : RowType) (prefetchRows batchSize : ℕ) (zero : α)
    (m : Memory α Λ) : Except Stop (Run ExecResult (Batch T α)) :=
  Signed.runSelectFetchLoop (scripted script) T script.fetches.length (script.fetches,0)
    prefetchRows batchSize zero m

/-- Every field has a column. -/
def AllMatched (T : RowType) (columns : List Text) : Prop :=
  ∀ i : Fin T.arity, position T columns i ≠ 0

instance (T : RowType) (columns : List Text) : Decidable (AllMatched T columns) :=
  inferInstanceAs (Decidable (∀ _, _))

theorem any_eq_allMatched (columns : List Text) :
    (((List.finRange T.arity).map (position T columns)).any fun p => decide (p = 0)) =
      !decide (AllMatched T columns) := by
  by_cases hall : AllMatched T columns
  · rw [decide_eq_true hall]
    simpa [AllMatched] using hall
  · rw [decide_eq_false hall]
    simpa [AllMatched] using hall

theorem any_binding (columns : List Text) :
    ((ColumnNames.resolveColumnPositions columns T).any fun p => decide (p = 0)) =
      !decide (AllMatched T columns) := by
  rw [← any_eq_allMatched,ColumnNames.resolveColumnPositions_binding]
  unfold position
  split_ifs with hempty
  · rfl
  · rw [List.any_map,List.any_map]
    refine congrArg (List.any _) (funext fun i => decide_eq_decide.mpr ?_)
    exact ColumnNames.lastPosition_eq_zero Nat.one_ne_zero

/-- A run of `ideas/binding`, by what its execute answers. -/
theorem bindingRun_eq (hnames : 0 ≤ script.execute.status → AllMatched T script.columns →
      OneColumnEach T script.columns) :
    bindingRun script T prefetchRows batchSize zero m =
      if (Raw.execute script.execute).status = .success then
        if AllMatched T script.columns then
          (Raw.fetchLoop (Raw.replies (scripted script) T batchSize
            (handles .binding (position T script.columns)) script.fetches.length
            (script.fetches,0) (Client.binding.defined T batchSize zero m))).afterExecute
        else ⟨some ⟨.queryError,-1⟩,1,[]⟩
      else ⟨some (Raw.execute script.execute),1,[]⟩ := by
  have hexecute : (scripted script).stmtExecute ((scripted script).setPrefetchRows
      (script.fetches,0) (prefetchRows % 2^32)) 0 = (script.execute,(script.fetches,0)) := rfl
  have hcolumns : (scripted script).columnNames (script.fetches,0) = script.columns := rfl
  unfold bindingRun Raw.runSelectFetchLoop
  simp only [hexecute,hcolumns,any_binding]
  by_cases hok : (Raw.execute script.execute).status = .success
  · by_cases hall : AllMatched T script.columns
    · simp only [hok,hall,decide_true,Bool.not_true,Bool.false_eq_true,if_false,if_true,
        positions_binding (hnames (Raw.nonneg_of_success hok) hall),defineColumns_binding]
    · simp only [hok,hall,decide_false,Bool.not_false,if_false,if_true]
  · simp only [hok,if_false]

/-- A run of `ideas/new`, by what its execute answers. -/
def newOutcome (script : Script α Λ) (T : RowType) (batchSize : ℕ) (zero : α) (m : Memory α Λ) :
    Run ExecResult (Batch T α) :=
  if classify script.execute = .success then
    if AllMatched T script.columns then
      (Signed.fetchLoop (Signed.replies (scripted script) T batchSize
        (handles .new (position T script.columns)) script.fetches.length
        (script.fetches,0) (Client.new.defined T batchSize zero m))).afterExecute
    else ⟨some ⟨.queryError,⟨-1,0⟩⟩,1,[]⟩
  else ⟨some ⟨classify script.execute,script.execute⟩,1,[]⟩

/-- It is the run of the code, whose calls are not counted. -/
theorem newRun_eq : newRun script T prefetchRows batchSize zero m =
      .ok (newOutcome script T batchSize zero m) ∧
    SelectRows.runSelectFetchLoop (scripted script) T script.fetches.length (script.fetches,0)
      prefetchRows batchSize zero m = (newOutcome script T batchSize zero m).toExcept := by
  have hprefetch : Statement.setPrefetchRows (scripted script) ⟨.prepared,(script.fetches,0)⟩
      (prefetchRows % 2^32) = .ok ⟨.prepared,(script.fetches,0)⟩ := rfl
  have hexec : Statement.execute (scripted script) ⟨.prepared,(script.fetches,0)⟩ 0 =
      .ok (⟨classify script.execute,script.execute⟩,⟨.executed,(script.fetches,0)⟩) := rfl
  have hfetchable : (Statement.mk .executed (script.fetches,0)).state = .executed ∨
      (Statement.mk .executed (script.fetches,0)).state = .endOfFetch := .inl rfl
  have hpositions := positions_new script (T := T) hfetchable
  have hdefine := defineColumns_new script (position T script.columns) batchSize zero
    (script.fetches,0) m hfetchable
  unfold newRun Signed.runSelectFetchLoop SelectRows.runSelectFetchLoop newOutcome
  simp only [hprefetch,hexec,bind,Except.bind]
  by_cases hok : classify script.execute = .success
  · simp only [hok,ne_eq,not_true_eq_false,↓reduceIte,hpositions,any_eq_allMatched]
    by_cases hall : AllMatched T script.columns
    · simp only [hall,decide_true,Bool.not_true,Bool.false_eq_true,↓reduceIte,hdefine]
      exact ⟨rfl,fetchLoop_refines _ hfetchable⟩
    · simp only [hall,decide_false,Bool.not_false,↓reduceIte]
      exact ⟨rfl,rfl⟩
  · simp only [hok,ne_eq,not_false_eq_true,↓reduceIte]
    exact ⟨rfl,rfl⟩

end Query

/-- Both clients make the same of a query if and only if no call that is made answers a status
that is not negative and neither `OCI_SUCCESS` nor `OCI_NO_DATA`, and no `NULL` is delivered for a
`FixedString` whose place in the batch holds a text; where rows are fetched at all, the struct is
smaller than `2^31` bytes and no field has the name of two columns. -/
theorem runSelectFetchLoop_alike_iff (script : Script α Λ) {T : RowType}
    (hfetched : 0 ≤ script.execute.status → AllMatched T script.columns →
      T.size < 2^31 ∧ OneColumnEach T script.columns) (prefetchRows : ℕ) {batchSize : ℕ}
    (hscript : script.Sound T batchSize) (zero : α) (m m' : Memory α Λ) :
    ∃ t, newRun script T prefetchRows batchSize zero m' = .ok t ∧
      SelectRows.runSelectFetchLoop (scripted script) T script.fetches.length (script.fetches,0)
        prefetchRows batchSize zero m' = t.toExcept ∧
      (Alike (bindingRun script T prefetchRows batchSize zero m) t ↔
        Listed script.execute ∧ (0 ≤ script.execute.status → AllMatched T script.columns →
          FetchesListed script.fetches ∧ NoTextKept (position T script.columns)
            (definedFields T script.columns) (fun _ _ => []) script.fetches)) := by
  obtain ⟨hrun,hcode⟩ : newRun script T prefetchRows batchSize zero m' = .ok _ ∧ _ :=
    newRun_eq script prefetchRows zero m'
  refine ⟨_,hrun,hcode,?_⟩
  rw [bindingRun_eq script prefetchRows zero m fun hok hall => (hfetched hok hall).2,newOutcome]
  rcases lt_or_ge script.execute.status 0 with hneg | hnonneg
  · have hraw : Raw.execute script.execute = Raw.failure script.execute := by
      refine if_neg fun h => ?_
      rcases h with h | h <;> rw [h] at hneg <;> exact absurd hneg (by decide)
    simp only [hraw,failure_ne_success,classify_of_neg hneg,↓reduceIte]
    exact iff_of_true (alike_failure hneg) ⟨.inl hneg,fun h => absurd h hneg.not_ge⟩
  · by_cases hlisted : script.execute.status = 0 ∨ script.execute.status = ociNoData
    · have hraw : Raw.execute script.execute = ⟨.success,script.execute.status⟩ := if_pos hlisted
      have hfew : ∀ f ∈ script.fetches, f.rows.length ≤ batchSize :=
        fun f hf => (hscript.few f hf).trans (Nat.mod_le _ _)
      simp only [hraw,classify_of_nonneg hnonneg,↓reduceIte]
      by_cases hall : AllMatched T script.columns
      · have hloop := fetchLoop_alike_iff script (hfetched hnonneg hall).1 script.fetches 0 0
          (sameBatch_defined zero m m') hfew hscript.text
        simp only [hall,↓reduceIte,alike_afterExecute,hloop]
        exact ⟨fun h => ⟨.inr hlisted,fun _ _ => h⟩,fun h => h.2 hnonneg trivial⟩
      · simp only [hall,↓reduceIte]
        have hstop : Alike (⟨some ⟨.queryError,-1⟩,1,[]⟩ : Run Raw.Result (Batch T α))
            ⟨some ⟨.queryError,⟨-1,0⟩⟩,1,[]⟩ :=
          (alike_stop rfl rfl (fun _ => by decide) (fun _ => by decide) [] []).mpr rfl
        exact iff_of_true hstop ⟨.inr hlisted,fun _ h => False.elim h⟩
    · have hraw : Raw.execute script.execute = Raw.failure script.execute := if_neg hlisted
      simp only [hraw,failure_ne_success,↓reduceIte]
      refine iff_of_false (not_alike_failure hnonneg _) fun h => ?_
      exact h.1.elim (fun h => absurd h hnonneg.not_gt) hlisted

/-- A query for trades, two at a time; LOBs are their content. -/
def tradeScript (fetches : List (Fetch ℕ Text)) : Script ℕ Text where
  execute := ⟨0,0⟩
  columns := tradeColumns
  fetches := fetches
  lobGetLength := List.length
  lobRead l size := l.take size

/-- A third trade with nothing but its number, on the place of the first. -/
def threeTrades : List (Fetch ℕ Text) :=
  [⟨⟨0,0⟩,[trade 1 true,trade 2 true]⟩,⟨⟨100,0⟩,[trade 3 false]⟩]

theorem tradeScript_sound : (tradeScript threeTrades).Sound tradeRow 2 where
  few := by
    simp only [tradeScript,threeTrades,List.forall_mem_cons]
    exact ⟨by decide,by decide,nofun⟩
  text f hf row hrow i hi hk := by
    have hposition : ∀ i, position tradeRow tradeColumns i = i.val+1 := by decide
    rw [show (tradeScript threeTrades).columns = tradeColumns from rfl,hposition]
    have hname : ∀ i, (tradeRow.kind i).isFixedString = true → i.val+1 = 3 := by decide
    rw [hname i hk]
    have htrade : ∃ number filled, row = trade number filled := by
      simp only [tradeScript,threeTrades,List.mem_cons,List.not_mem_nil,or_false] at hf
      rcases hf with rfl | rfl <;> simp only [List.mem_cons,List.not_mem_nil,or_false] at hrow
      · rcases hrow with rfl | rfl
        · exact ⟨1,true,rfl⟩
        · exact ⟨2,true,rfl⟩
      · exact ⟨3,false,hrow⟩
    obtain ⟨number,filled,rfl⟩ := htrade
    cases filled with
    | true => exact .inr ⟨_,_,rfl⟩
    | false => exact .inl rfl

/-- The name of the third trade is `NULL`: `ideas/binding` hands on that of the first with it. -/
theorem runSelectFetchLoop_alike_trades :
    ∃ t, newRun (tradeScript threeTrades) tradeRow 100 2 0 (fun _ => .scalar 0) = .ok t ∧
      ¬Alike (bindingRun (tradeScript threeTrades) tradeRow 100 2 0 (fun _ => .scalar 0)) t := by
  obtain ⟨t,hrun,-,halike⟩ := runSelectFetchLoop_alike_iff (tradeScript threeTrades)
    (fun _ _ => ⟨by decide,by decide⟩) 100 tradeScript_sound 0 (fun _ => .scalar 0)
    (fun _ => .scalar 0)
  refine ⟨t,hrun,fun h => ?_⟩
  have hmatched : AllMatched tradeRow tradeColumns := by decide
  have hkept := ((halike.mp h).2 (by decide) hmatched).2
  have hnull := (hkept.2 rfl).1 (by decide) 0 (trade 3 false) rfl ⟨2,by decide⟩ (by decide)
    (by decide) rfl
  exact absurd hnull (by decide)

/-- `OCI_SUCCESS_WITH_INFO` in the middle of a fetch. -/
theorem success_with_info_fails :
    let script := tradeScript [⟨⟨1,28002⟩,[trade 1 true,trade 2 true]⟩,⟨⟨100,0⟩,[]⟩]
    (bindingRun script tradeRow 100 2 0 (fun _ => .scalar 0)).result = some ⟨.queryError,1⟩ ∧
    ∃ t, newRun script tradeRow 100 2 0 (fun _ => .scalar 0) = .ok t ∧
      t.result = some ⟨.success,⟨100,0⟩⟩ ∧ t.batches.length = 2 ∧
      ¬Alike (bindingRun script tradeRow 100 2 0 (fun _ => .scalar 0)) t := by
  refine ⟨rfl,_,rfl,rfl,rfl,fun halike => ?_⟩
  exact absurd (halike.raw_negative ⟨.queryError,1⟩ rfl (by decide)) (by decide)

end FetchOutcomes
end Marketlib
