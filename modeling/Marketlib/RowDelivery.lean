import Mathlib.Data.Fin.VecNotation
import Mathlib.Tactic.FinCases
import Marketlib.BatchCells

/-! What the batches of `select_rows` hold: the result set, row by row. -/

namespace Marketlib
namespace SelectRows

open Binding CellWrites

variable {ω α Λ : Type}

/-! ### What OCI is relied on for -/

/-- OCI hands out the rows of a result set: each once and in order, at the addresses defined
for different columns; a `NULL` leaves value and length as they are. `HandedOut w p` says that
the first `p` rows are out. The end is reported with the last row or the first time that
there is none. A column can always be defined. -/
structure HandsOut (oci : Oci ω α Λ) (handle : ω) (columns : List Text)
    (rows : List (Row α Λ)) (HandedOut : ω → ℕ → Prop) : Prop where
  executed (prefetchRows : ℕ) :
    let (call,w) := oci.stmtExecute (oci.setPrefetchRows handle prefetchRows) 0
    0 ≤ call.status ∧ HandedOut w 0 ∧ oci.columnNames w = columns ∧
      (oci.stmtState w = 2 ∨ oci.stmtState w = 3)
  defined (w : ω) (p position : ℕ) : HandedOut w p →
    let (_,defineHandle,w') := oci.defineByPos w position
    defineHandle = true ∧ HandedOut w' p
  fetched (w : ω) (p : ℕ) (defines : List Define) (nrows : ℕ) (m : Memory α Λ) :
    HandedOut w p → 0 < nrows → (defines.map Define.position).Nodup →
      ∃ k, k ≤ nrows ∧ p+k ≤ rows.length ∧
      let (call,w',m') := oci.stmtFetch w defines nrows m
      0 ≤ call.status ∧ HandedOut w' (p+k) ∧ oci.rowsFetched w' = k ∧
        m' = applyWrites (rowWrites defines ((rows.drop p).take k)) m ∧
        (oci.stmtState w' = 2 ∨ oci.stmtState w' = 3) ∧
        (call.status = ociNoData → p+k = rows.length) ∧ (k = 0 → call.status = ociNoData)

/-- A LOB is read whole through its locator; a character takes four bytes at most. -/
structure ReadsLobs (oci : Oci ω α Λ) (isChar : Λ → Bool) (content : Λ → Text) : Prop where
  empty (l : Λ) : oci.lobGetLength l = 0 → content l = []
  short (l : Λ) : (content l).length ≤ if isChar l then oci.lobGetLength l*4+16
    else oci.lobGetLength l
  whole (l : Λ) (size : ℕ) : (content l).length ≤ size → oci.lobRead l size = content l

/-- A column that a field can take: only a plain field cannot take `NULL`, and a text has room. -/
def Fits (isChar : Λ → Bool) : Kind → Option (Datum α Λ) → Prop
  | .plain _,v => ∃ x, v = some (.scalar x)
  | .optional _ _,v => v = none ∨ ∃ x, v = some (.scalar x)
  | .fixedString capacity,v => v = none ∨ ∃ s short, v = some (.text s short) ∧ s.length ≤ capacity
  | .lob isClob _,v => v = none ∨ ∃ l, v = some (.lob l) ∧ isChar l = isClob

/-- The field that stands for a column of the result set. -/
def expected (content : Λ → Text) : Kind → Option (Datum α Λ) → Option (FieldValue α)
  | .plain _,some (.scalar x) => some (.scalar x)
  | .optional _ _,some (.scalar x) => some (.optional (some x))
  | .optional _ _,none => some (.optional none)
  | .fixedString _,some (.text s _) => some (.fixedString s)
  | .fixedString _,none => some (.fixedString [])
  | .lob _ _,some (.lob l) => some (.lob (content l))
  | .lob _ _,none => some (.lob [])
  | _,_ => none

/-! ### A field -/

section Field

variable {oci : Oci ω α Λ} {T : RowType} {isChar : Λ → Bool} {content : Λ → Text}
variable {r : ℕ} {i : Fin T.arity} {v : Option (Datum α Λ)}

theorem readLob_eq (h : ReadsLobs oci isChar content) (l : Λ) :
    readLob oci (isChar l) l = content l := by
  rw [readLob]
  split_ifs with hempty hchar
  · exact (h.empty l hempty).symm
  · have hshort := h.short l
    rw [if_pos hchar] at hshort
    exact h.whole l _ hshort
  · have hshort := h.short l
    rw [if_neg hchar] at hshort
    exact h.whole l _ hshort

theorem readField_plain {width : ℕ} (hk : T.kind i = .plain width)
    (hfits : Fits isChar (T.kind i) v) (m : Memory α Λ) :
    readField T (Client.new.receive oci T r i v m) r i = expected content (T.kind i) v := by
  rw [hk] at hfits
  obtain ⟨x,rfl⟩ := hfits
  unfold readField
  rw [receive_plain hk,hk]
  rfl

theorem readField_optional {elemSize width : ℕ} (hk : T.kind i = .optional elemSize width)
    (hfits : Fits isChar (T.kind i) v) (m : Memory α Λ) :
    readField T (Client.new.receive oci T r i v m) r i = expected content (T.kind i) v := by
  rw [hk] at hfits
  unfold readField
  rw [receive_staged (by rw [hk]; rfl),hk]
  rcases hfits with rfl | ⟨x,rfl⟩ <;> rfl

theorem readField_lob {isClob : Bool} {width : ℕ} (hk : T.kind i = .lob isClob width)
    (hlobs : ReadsLobs oci isChar content) (hfits : Fits isChar (T.kind i) v) (m : Memory α Λ) :
    readField T (Client.new.receive oci T r i v m) r i = expected content (T.kind i) v := by
  rw [hk] at hfits
  unfold readField
  rw [receive_staged (by rw [hk]; rfl),hk]
  rcases hfits with rfl | ⟨l,rfl,rfl⟩
  · rfl
  · exact congrArg (fun s => some (FieldValue.lob s)) (readLob_eq hlobs l)

theorem room_fixedString (hsize : T.size < 2^31) {capacity : ℕ}
    (hk : T.kind i = .fixedString capacity) : (T.kind i).room.toNat = capacity := by
  have hle := width_le_size T i
  rw [hk] at hle ⊢
  simp only [Kind.width,lengthOffset] at hle
  rw [Kind.room,toSb4_natCast (by omega),Int.toNat_natCast]

theorem readField_received (hsize : T.size < 2^31) (hlobs : ReadsLobs oci isChar content)
    (hfits : Fits isChar (T.kind i) v) (m : Memory α Λ) :
    readField T (Client.new.receive oci T r i v m) r i = expected content (T.kind i) v := by
  cases hk : T.kind i with
  | plain width => exact hk ▸ readField_plain hk hfits m
  | optional elemSize width => exact hk ▸ readField_optional hk hfits m
  | lob isClob width => exact hk ▸ readField_lob hk hlobs hfits m
  | fixedString capacity =>
    rw [hk] at hfits
    rcases hfits with rfl | ⟨s,hshort,rfl,hroom⟩
    · exact receive_null_cleared hk (by rw [hk]; rfl) m
    · rw [receive_text hk,room_fixedString hsize hk,List.take_of_length_le hroom]
      rfl

end Field

/-! ### Batches -/

section Batches

variable {oci : Oci ω α Λ} {T : RowType} {isChar : Λ → Bool} {content : Λ → Text}

/-- The define handles of all fields. -/
def defineHandles (T : RowType) (position : Fin T.arity → ℕ) : List Define :=
  Client.new.defineHandles T position (List.finRange T.arity)

/-- A row of the result set, as a struct. -/
def expectedRow (T : RowType) (content : Λ → Text) (position : Fin T.arity → ℕ)
    (row : Row α Λ) : OutRow T α :=
  fun i => expected content (T.kind i) (row (position i))

/-- The rows that a fetch has delivered, in the batch that `on_batch` is called with. -/
theorem batch_rows (hsize : T.size < 2^31) (hlobs : ReadsLobs oci isChar content)
    (position : Fin T.arity → ℕ) {rows : List (Row α Λ)}
    (hfits : ∀ row ∈ rows, ∀ i, Fits isChar (T.kind i) (row (position i)))
    {batchSize : ℕ} (hrows : rows.length ≤ batchSize) (m : Memory α Λ) :
    ((List.range batchSize).map fun r =>
      readField T (Client.new.delivered oci T position (List.finRange T.arity) rows m) r).take
        rows.length = rows.map (expectedRow T content position) := by
  apply List.ext_getElem
  · simpa using hrows
  · intro r hr hr'
    have hlt : r < rows.length := by simpa using hr'
    rw [List.getElem_take,List.getElem_map,List.getElem_map,List.getElem_range]
    funext i
    have hreceived : Set.EqOn
        (Client.new.delivered oci T position (List.finRange T.arity) rows m) _
        (Client.new.cells T (r,i)) :=
      delivered_eqOn hsize (List.nodup_finRange T.arity) (List.getElem?_eq_getElem hlt)
        (List.mem_finRange i) m
    rw [readField_congr hreceived]
    exact readField_received hsize hlobs (hfits _ (List.getElem_mem hlt) i) m

/-- The call of `on_batch` after a fetch. -/
def batchOf (T : RowType) (batchSize k : ℕ) (m : Memory α Λ) : Batch T α :=
  ⟨(List.range batchSize).map fun row => readField T m row,k⟩

theorem batchOf_count {batchSize k : ℕ} (h : k ≤ batchSize) (m : Memory α Λ) :
    (batchOf T batchSize k m).count ≤ (batchOf T batchSize k m).rows.length := by
  rw [batchOf,List.length_map,List.length_range]
  exact h

/-- One turn of the loop, when OCI reports no error. -/
theorem fetchLoop_succ {batchSize fuel : ℕ} {defines : List Define} {stmt : Statement ω}
    {m m' : Memory α Λ} {call : OciCallResult} {w : ω}
    (hstate : stmt.state = .executed ∨ stmt.state = .endOfFetch)
    (hfetch : oci.stmtFetch stmt.handle defines (batchSize % 2^32) m = (call,w,m'))
    (hcall : 0 ≤ call.status) :
    fetchLoop oci T batchSize defines (fuel+1) stmt m =
      let next := Client.new.applied oci T (oci.rowsFetched w) m'
      let batch := batchOf T batchSize (oci.rowsFetched w) next
      if call.status = ociNoData then .ok (⟨.success,call⟩,[batch])
      else do
        let (result,batches) ← fetchLoop oci T batchSize defines fuel
          ⟨syncState oci stmt.state w,w⟩ next
        return (result,batch :: batches) := by
  have hrequire : requireState stmt [.executed,.endOfFetch] "fetch".toList = .ok () := by
    rw [requireState,if_pos]
    simpa using hstate
  have hstatus : classify call = .success := by rw [classify,if_pos hcall]
  have hstep : stmt.fetch oci defines (batchSize % 2^32) m =
      .ok (⟨.success,call⟩,⟨syncState oci stmt.state w,w⟩,m') := by
    rw [Statement.fetch,hrequire,hfetch,← hstatus]
    rfl
  rw [fetchLoop,hstep]
  rfl

theorem syncState_fetchable {w : ω} (h : oci.stmtState w = 2 ∨ oci.stmtState w = 3)
    (state : State) : syncState oci state w = .executed ∨ syncState oci state w = .endOfFetch := by
  rw [syncState]
  rcases h with h | h
  · exact .inl (if_pos h)
  · rw [if_neg (by omega),if_pos h]
    exact .inr rfl

/-- From where `p` rows are out, the loop hands over the others. -/
theorem fetchLoop_delivers {handle : ω} {columns : List Text} {rows : List (Row α Λ)}
    {HandedOut : ω → ℕ → Prop} (hoci : HandsOut oci handle columns rows HandedOut)
    (hsize : T.size < 2^31) (hlobs : ReadsLobs oci isChar content) (position : Fin T.arity → ℕ)
    (hfits : ∀ row ∈ rows, ∀ i, Fits isChar (T.kind i) (row (position i)))
    (hnodup : ((defineHandles T position).map Define.position).Nodup)
    {batchSize : ℕ} (hpos : 1 ≤ batchSize) (hlt : batchSize < 2^32) {p : ℕ}
    {stmt : Statement ω} (m : Memory α Λ)
    (hstate : stmt.state = .executed ∨ stmt.state = .endOfFetch)
    (hout : HandedOut stmt.handle p) (hp : p ≤ rows.length) :
    ∃ result batches, (∀ fuel, rows.length - p < fuel →
        fetchLoop oci T batchSize (defineHandles T position) fuel stmt m = .ok (result,batches)) ∧
      result.status = .success ∧ (∀ b ∈ batches, b.count ≤ b.rows.length) ∧
      batches.flatMap (fun b => b.rows.take b.count) =
        (rows.drop p).map (expectedRow T content position) := by
  induction hn : rows.length - p using Nat.strong_induction_on generalizing p stmt m with
  | _ n ih =>
    subst hn
    have hmod : batchSize % 2^32 = batchSize := Nat.mod_eq_of_lt hlt
    obtain ⟨k,hk,hpk,hfetch⟩ := hoci.fetched stmt.handle p (defineHandles T position)
      (batchSize % 2^32) m hout (by omega) hnodup
    rcases hresult : oci.stmtFetch stmt.handle (defineHandles T position) (batchSize % 2^32) m
      with ⟨call,w,m'⟩
    rw [hresult] at hfetch
    obtain ⟨hcall,hout',hcount,rfl,hstmt,hend,hnone⟩ := hfetch
    have hlength : ((rows.drop p).take k).length = k := by
      rw [List.length_take,List.length_drop]
      omega
    have hrows := batch_rows hsize hlobs position
      (fun row hrow => hfits row (List.mem_of_mem_drop (List.mem_of_mem_take hrow)))
      (by omega : ((rows.drop p).take k).length ≤ batchSize) m
    have hturn : ∀ fuel, fetchLoop oci T batchSize _ (fuel+1) stmt m = _ :=
      fun fuel => fetchLoop_succ hstate hresult hcall
    simp only [hcount] at hturn
    obtain ⟨next,hdef⟩ : ∃ next, next = Client.new.applied oci T k (applyWrites
        (rowWrites (defineHandles T position) ((rows.drop p).take k)) m) := ⟨_,rfl⟩
    rw [Client.delivered,hlength] at hrows
    rw [← hdef] at hturn
    replace hrows : ((List.range batchSize).map fun r => readField T next r).take k =
        ((rows.drop p).take k).map (expectedRow T content position) := by
      rw [hdef]
      exact hrows
    by_cases hstop : call.status = ociNoData
    · have hlast := hend hstop
      refine ⟨⟨.success,call⟩,[batchOf T batchSize k next],?_,rfl,?_,?_⟩
      · intro fuel hfuel
        obtain ⟨fuel,rfl⟩ := Nat.exists_eq_succ_of_ne_zero (by omega : fuel ≠ 0)
        rw [hturn fuel,if_pos hstop]
      · intro b hb
        cases List.mem_singleton.mp hb
        exact batchOf_count (by omega) next
      · rw [List.flatMap_singleton,batchOf,hrows,List.take_of_length_le]
        rw [List.length_drop]
        omega
    · have hk0 : k ≠ 0 := fun h0 => hstop (hnone h0)
      have hnext : HandedOut (Statement.mk (syncState oci stmt.state w) w).handle (p+k) := hout'
      obtain ⟨result,batches,hrun,hok,hcounts,hall⟩ := ih (rows.length - (p+k)) (by omega)
        next (syncState_fetchable hstmt stmt.state) hnext hpk rfl
      refine ⟨result,batchOf T batchSize k next :: batches,?_,hok,?_,?_⟩
      · intro fuel hfuel
        obtain ⟨fuel,rfl⟩ := Nat.exists_eq_succ_of_ne_zero (by omega : fuel ≠ 0)
        rw [hturn fuel,if_neg hstop,hrun fuel (by omega)]
        rfl
      · exact List.forall_mem_cons.mpr ⟨batchOf_count (by omega) next,hcounts⟩
      · rw [List.flatMap_cons,hall,batchOf,hrows,← List.map_append,← List.drop_drop,
          List.take_append_drop]

end Batches

/-! ### Columns by name -/

section Columns

variable {oci : Oci ω α Λ} {T : RowType} {columns : List Text}

theorem columnPosition_found {target : Text} {names : List Text} (position : ℕ)
    (h : ∃ c ∈ names, uppercased c = target) :
    ∃ k c, names[k]? = some c ∧ uppercased c = target ∧
      columnPosition target names position = position+k := by
  induction names generalizing position with
  | nil =>
    obtain ⟨c,hc,-⟩ := h
    cases hc
  | cons name names ih =>
    rw [columnPosition]
    by_cases hname : uppercased name = target
    · exact ⟨0,name,rfl,hname,if_pos hname⟩
    · obtain ⟨c,hc,htarget⟩ := h
      have hmem : c ∈ names := by
        rcases List.mem_cons.mp hc with rfl | hmem
        · exact absurd htarget hname
        · exact hmem
      obtain ⟨k,c,hk,hc,heq⟩ := ih (position+1) ⟨c,hmem,htarget⟩
      refine ⟨k+1,c,hk,hc,?_⟩
      rw [if_neg hname,heq]
      omega

/-- The position that a field's name resolves to. -/
def fieldPosition (T : RowType) (columns : List Text) (i : Fin T.arity) : ℕ :=
  columnPosition (uppercased (T.name i)) columns 1

/-- Each field has a column of its name, ignoring case, and no two fields the same. -/
structure Matched (T : RowType) (columns : List Text) : Prop where
  named (i : Fin T.arity) : ∃ c ∈ columns, uppercased c = uppercased (T.name i)
  distinct (i j : Fin T.arity) : uppercased (T.name i) = uppercased (T.name j) → i = j

theorem fieldPosition_ne_zero (h : Matched T columns) (i : Fin T.arity) :
    fieldPosition T columns i ≠ 0 := by
  obtain ⟨k,c,-,-,heq⟩ := columnPosition_found 1 (h.named i)
  rw [fieldPosition,heq]
  omega

theorem fieldPosition_injective (h : Matched T columns) :
    Function.Injective (fieldPosition T columns) := by
  intro i j hij
  obtain ⟨k,c,hk,hc,heq⟩ := columnPosition_found 1 (h.named i)
  obtain ⟨l,d,hl,hd,heq'⟩ := columnPosition_found 1 (h.named j)
  rw [fieldPosition,fieldPosition,heq,heq',Nat.add_left_cancel_iff] at hij
  subst hij
  cases hk.symm.trans hl
  exact h.distinct i j (hc.symm.trans hd)

theorem defineHandles_nodup (h : Matched T columns) :
    ((defineHandles T (fieldPosition T columns)).map Define.position).Nodup := by
  rw [defineHandles,Client.defineHandles,List.map_map]
  exact (List.nodup_finRange T.arity).map fun i j hij => fieldPosition_injective h hij

theorem resolveColumnPositions_eq (h : Matched T columns) {stmt : Statement ω}
    (hstate : stmt.state = .executed ∨ stmt.state = .endOfFetch)
    (hcolumns : oci.columnNames stmt.handle = columns) :
    resolveColumnPositions oci T stmt =
      .ok ((List.finRange T.arity).map (fieldPosition T columns)) := by
  rw [resolveColumnPositions,hcolumns]
  split_ifs with hempty
  · refine congrArg Except.ok (List.map_congr_left fun i _ => ?_)
    obtain ⟨c,hc,-⟩ := h.named i
    rw [List.length_eq_zero_iff.mp hempty] at hc
    cases hc
  · have hdescribe : (fun i => stmt.describeColumnPosition oci (T.name i)) =
        fun i => pure (fieldPosition T columns i) := by
      funext i
      rw [Statement.describeColumnPosition,hcolumns,requireState,if_pos (by simpa using hstate)]
      rfl
    rw [hdescribe,List.mapM_pure]
    rfl

/-- One column, where OCI gives a handle. -/
theorem defineOneColumn_run (batchSize : ℕ) (zero : α) {s : Locals ω α Λ}
    (hstate : s.stmt.state = .executed ∨ s.stmt.state = .endOfFetch) (i : Fin T.arity)
    {position : ℕ} {result : OciCallResult} {w : ω}
    (hdefine : oci.defineByPos s.stmt.handle position = (result,true,w)) :
    defineOneColumn oci T batchSize zero s (i,position) = .ok
      ⟨{ s.stmt with handle := w },Client.new.assigned T batchSize zero s.memory i,
        s.defines ++ [Client.new.columnDefine T i position]⟩ := by
  have hrequire : requireState s.stmt [.prepared,.executed,.endOfFetch] "bindOutput".toList =
      .ok () := by
    rw [requireState,if_pos]
    rcases hstate with h | h <;> simp [h]
  have hbind : ∀ (m : Memory α Λ) (data : Address) (len : ℤ) (outsize indicator : Option Address)
      (elemSize : ℤ), { s with memory := m }.bindOutput oci position data len outsize indicator
        elemSize = .ok ⟨{ s.stmt with handle := w },m,s.defines ++
          [{ (arraySkips elemSize 0 true).getD .unset with
            position, data, len, outsize, indicator }]⟩ := by
    intro m data len outsize indicator elemSize
    simp only [Locals.bindOutput,Statement.bindOutput,hrequire,hdefine]
    rfl
  unfold defineOneColumn Client.assigned Client.withIndicators Client.columnDefine Client.skips
    Client.dataCell Client.stride Client.indicatorCell lengthCell
  cases hk : T.kind i with
  | plain width =>
    simp only [hk,fieldAddress_zero,Client.indicated,Kind.room]
    exact hbind s.memory _ _ _ _ _
  | _ =>
    simp only [hk,fieldAddress_zero,stageAddress_zero,Client.indicated,Kind.room,if_true]
    exact hbind _ _ _ _ _ _

/-- All columns, where OCI gives a handle for each and keeps to what is known of it. -/
theorem defineColumns_run {P : ω → Prop} (hdefined : ∀ w position, P w →
      (oci.defineByPos w position).2.1 = true ∧ P (oci.defineByPos w position).2.2)
    (position : Fin T.arity → ℕ) (batchSize : ℕ) (zero : α) {stmt : Statement ω}
    (hstate : stmt.state = .executed ∨ stmt.state = .endOfFetch) (hP : P stmt.handle)
    (m : Memory α Λ) :
    ∃ w, P w ∧ defineColumns oci T batchSize zero ((List.finRange T.arity).map position)
        ⟨stmt,m,[]⟩ = .ok ⟨{ stmt with handle := w },
          (List.finRange T.arity).foldl (Client.new.assigned T batchSize zero) m,
          defineHandles T position⟩ := by
  have hall : ∀ (fields : List (Fin T.arity)) (s : Locals ω α Λ), P s.stmt.handle →
      s.stmt.state = stmt.state → ∃ w, P w ∧
        (fields.zip (fields.map position)).foldlM (defineOneColumn oci T batchSize zero) s =
          .ok ⟨{ s.stmt with handle := w },
            fields.foldl (Client.new.assigned T batchSize zero) s.memory,
            s.defines ++ Client.new.defineHandles T position fields⟩ := by
    intro fields
    induction fields with
    | nil => exact fun s hs _ => ⟨s.stmt.handle,hs,by simp [Client.defineHandles]; rfl⟩
    | cons i fields ih =>
      intro s hs hsame
      rcases hdefine : oci.defineByPos s.stmt.handle (position i) with ⟨result,handle,w⟩
      have hgiven := hdefined _ (position i) hs
      rw [hdefine] at hgiven
      obtain ⟨rfl,hw⟩ := hgiven
      have hfetchable : s.stmt.state = .executed ∨ s.stmt.state = .endOfFetch := by rwa [hsame]
      have hstep := defineOneColumn_run batchSize zero hfetchable i hdefine
      obtain ⟨w',hw',hrest⟩ := ih ⟨{ s.stmt with handle := w },
        Client.new.assigned T batchSize zero s.memory i,
        s.defines ++ [Client.new.columnDefine T i (position i)]⟩ hw hsame
      refine ⟨w',hw',?_⟩
      rw [List.map_cons,List.zip_cons_cons,List.foldlM_cons,hstep]
      refine hrest.trans ?_
      simp [Client.defineHandles]
  exact hall _ ⟨stmt,m,[]⟩ hP rfl

end Columns

/-- Up to its fetch loop, where every field has its column. -/
theorem runSelectFetchLoop_matched {oci : Oci ω α Λ} {T : RowType} {handle : ω}
    {columns : List Text} {rows : List (Row α Λ)} {HandedOut : ω → ℕ → Prop}
    (hoci : HandsOut oci handle columns rows HandedOut) (hmatched : Matched T columns)
    (batchSize prefetchRows : ℕ) (zero : α) (m : Memory α Λ) :
    ∃ stmt m₁, (stmt.state = .executed ∨ stmt.state = .endOfFetch) ∧ HandedOut stmt.handle 0 ∧
      ∀ fuel, runSelectFetchLoop oci T fuel handle prefetchRows batchSize zero m =
        fetchLoop oci T batchSize (defineHandles T (fieldPosition T columns)) fuel stmt m₁ := by
  have hexecuted := hoci.executed (prefetchRows % 2^32)
  rcases hexecute : oci.stmtExecute (oci.setPrefetchRows handle (prefetchRows % 2^32)) 0
    with ⟨call,w⟩
  rw [hexecute] at hexecuted
  obtain ⟨hcall,hout,hcolumns,hstmt⟩ := hexecuted
  have hstate := syncState_fetchable hstmt .prepared
  have hstatus : classify call = .success := by rw [classify,if_pos hcall]
  have hpositions : resolveColumnPositions oci T ⟨syncState oci .prepared w,w⟩ =
      .ok ((List.finRange T.arity).map (fieldPosition T columns)) :=
    resolveColumnPositions_eq hmatched hstate hcolumns
  have hnonzero : ((List.finRange T.arity).map (fieldPosition T columns)).any
      (fun position => position = 0) = false := by
    simpa using fun i => fieldPosition_ne_zero hmatched i
  have hnone : HandedOut (Statement.mk (syncState oci .prepared w) w).handle 0 := hout
  obtain ⟨w',hout',hdefine⟩ := defineColumns_run (P := fun w => HandedOut w 0)
    (fun w position => hoci.defined w 0 position) (fieldPosition T columns) batchSize zero hstate
    hnone (newBatch T batchSize zero m)
  refine ⟨⟨syncState oci .prepared w,w'⟩,(List.finRange T.arity).foldl
    (Client.new.assigned T batchSize zero) (newBatch T batchSize zero m),hstate,hout',
    fun fuel => ?_⟩
  have hprefetch : Statement.setPrefetchRows oci ⟨.prepared,handle⟩ (prefetchRows % 2^32) =
      .ok ⟨.prepared,oci.setPrefetchRows handle (prefetchRows % 2^32)⟩ := rfl
  have hexec : Statement.execute oci
      ⟨.prepared,oci.setPrefetchRows handle (prefetchRows % 2^32)⟩ 0 =
      .ok (⟨.success,call⟩,⟨syncState oci .prepared w,w⟩) := by
    rw [← hstatus,Statement.execute,hexecute]
    rfl
  simp only [runSelectFetchLoop,hprefetch,hexec,hpositions,hnonzero,hdefine,bind,Except.bind]
  rfl

/-- `select_rows` hands the whole result set to `on_batch`, in order: of each batch the first
rows, as many as it is told. -/
theorem selectRows_delivers {oci : Oci ω α Λ} {T : RowType} {isChar : Λ → Bool}
    {content : Λ → Text} {handle : ω} {columns : List Text} {rows : List (Row α Λ)}
    {HandedOut : ω → ℕ → Prop} (hoci : HandsOut oci handle columns rows HandedOut)
    (hlobs : ReadsLobs oci isChar content) (hmatched : Matched T columns) (hsize : T.size < 2^31)
    (hfits : ∀ row ∈ rows, ∀ i, Fits isChar (T.kind i) (row (fieldPosition T columns i)))
    {batchSize : ℕ} (hpos : 1 ≤ batchSize) (hlt : batchSize < 2^32) (prefetchRows : ℕ) (zero : α)
    (m : Memory α Λ) :
    ∃ result batches, (∀ fuel, rows.length < fuel →
        runSelectFetchLoop oci T fuel handle prefetchRows batchSize zero m =
          .ok (result,batches)) ∧
      result.status = .success ∧ (∀ b ∈ batches, b.count ≤ b.rows.length) ∧
      batches.flatMap (fun b => b.rows.take b.count) =
        rows.map fun row i => expected content (T.kind i) (row (fieldPosition T columns i)) := by
  obtain ⟨stmt,m₁,hstate,hout,hloop⟩ :=
    runSelectFetchLoop_matched hoci hmatched batchSize prefetchRows zero m
  obtain ⟨result,batches,hrun,hrest⟩ := fetchLoop_delivers hoci hsize hlobs
    (fieldPosition T columns) hfits (defineHandles_nodup hmatched) hpos hlt m₁ hstate hout
    (Nat.zero_le _)
  refine ⟨result,batches,fun fuel hfuel => ?_,hrest⟩
  rw [hloop fuel]
  exact hrun fuel hfuel

/-- An OCI whose result set is a list; its state is how many rows are out and how many of them
the last fetch delivered. -/
def listOci (columns : List Text) (rows : List (Row ℕ Text)) : Oci (ℕ × ℕ) ℕ Text where
  setPrefetchRows w _ := w
  stmtExecute _ _ := (⟨0,0⟩,(0,0))
  columnNames _ := columns
  defineByPos w _ := (⟨0,0⟩,true,w)
  stmtFetch w defines nrows m :=
    let k := min nrows (rows.length-w.1)
    (⟨if k < nrows then ociNoData else 0,0⟩,(w.1+k,k),
      applyWrites (rowWrites defines ((rows.drop w.1).take k)) m)
  rowsFetched w := w.2
  stmtState w := if w.1 = rows.length then 3 else 2
  lobGetLength := List.length
  lobRead l size := l.take size

theorem listOci_handsOut (columns : List Text) (rows : List (Row ℕ Text)) (w : ℕ × ℕ) :
    HandsOut (listOci columns rows) w columns rows (fun w p => w.1 = p ∧ p ≤ rows.length) where
  executed _ := by
    refine ⟨le_refl _,⟨rfl,Nat.zero_le _⟩,rfl,?_⟩
    simp only [listOci]
    split <;> simp
  defined _ _ _ h := ⟨rfl,h⟩
  fetched w p defines nrows m := by
    rintro ⟨rfl,hp⟩ hrows -
    refine ⟨min nrows (rows.length-w.1),Nat.min_le_left _ _,by omega,?_,⟨rfl,by omega⟩,rfl,rfl,?_,
      ?_,?_⟩
    · simp only [listOci]
      split <;> simp [ociNoData]
    · simp only [listOci]
      split <;> simp
    · simp only [listOci]
      split
      · simp [ociNoData]
        omega
      · simp [ociNoData]
    · intro h
      simp only [listOci,h]
      exact if_pos hrows

theorem listOci_readsLobs (columns : List Text) (rows : List (Row ℕ Text)) :
    ReadsLobs (listOci columns rows) (fun _ => true) id where
  empty _ h := List.length_eq_zero_iff.mp h
  short l := by
    simp only [listOci,if_true,id]
    omega
  whole _ _ h := List.take_of_length_le h

/-- A row struct with a field of each kind. -/
def tradeRow : RowType where
  arity := 4
  name := !["id".toList,"qty".toList,"name".toList,"doc".toList]
  kind := ![.plain 4,.optional 4 8,.fixedString 4,.lob true 40]
  offset := ![0,4,12,24]
  size := 64
  sized i := by fin_cases i <;> simp [Kind.Sized]
  inside := by decide
  apart := by decide

/-- A row of the result set for it, filled or with nothing but its number. -/
def trade (number : ℕ) (filled : Bool) : Row ℕ Text
  | 1 => some (.scalar number)
  | 2 => if filled then some (.scalar 7) else none
  | 3 => if filled then some (.text "AB".toList (by decide)) else none
  | 4 => if filled then some (.lob "note".toList) else none
  | _ => none

def tradeColumns : List Text := ["ID".toList,"QTY".toList,"NAME".toList,"DOC".toList]

theorem tradeRow_matched : Matched tradeRow tradeColumns where
  named := by decide
  distinct := by decide

theorem trade_fits (number : ℕ) (filled : Bool) (i : Fin tradeRow.arity) :
    Fits (fun _ => true) (tradeRow.kind i)
      (trade number filled (fieldPosition tradeRow tradeColumns i)) := by
  have hposition : ∀ i, fieldPosition tradeRow tradeColumns i = i.val+1 := by decide
  rw [hposition]
  cases filled <;> fin_cases i <;> simp [tradeRow,trade,Fits]

/-- The third row lands on the first's place in the batch and is `NULL` where that is not. -/
theorem selectRows_delivers_reused :
    ∃ result batches, (∀ fuel, 3 < fuel →
        runSelectFetchLoop (listOci tradeColumns [trade 1 true,trade 2 true,trade 3 false])
          tradeRow fuel (0,0) 100 2 0 (fun _ => .scalar 0) = .ok (result,batches)) ∧
      result.status = .success ∧ (∀ b ∈ batches, b.count ≤ b.rows.length) ∧
      batches.flatMap (fun b => b.rows.take b.count) =
        [![some (.scalar 1),some (.optional (some 7)),some (.fixedString "AB".toList),
            some (.lob "note".toList)],
          ![some (.scalar 2),some (.optional (some 7)),some (.fixedString "AB".toList),
            some (.lob "note".toList)],
          ![some (.scalar 3),some (.optional none),some (.fixedString []),some (.lob [])]] := by
  obtain ⟨result,batches,hrun,hok,hcounts,hall⟩ := selectRows_delivers
    (listOci_handsOut tradeColumns [trade 1 true,trade 2 true,trade 3 false] (0,0))
    (listOci_readsLobs _ _) tradeRow_matched (by decide)
    (by
      intro row hrow i
      simp only [List.mem_cons,List.not_mem_nil,or_false] at hrow
      rcases hrow with rfl | rfl | rfl <;> exact trade_fits _ _ i)
    (by decide : 1 ≤ 2) (by decide) 100 0 (fun _ => .scalar 0)
  refine ⟨result,batches,hrun,hok,hcounts,hall.trans ?_⟩
  simp only [List.map_cons,List.map_nil]
  congr 1
  · funext i
    fin_cases i <;> rfl
  congr 1
  · funext i
    fin_cases i <;> rfl
  congr 1
  funext i
  fin_cases i <;> rfl

/-! ### Where a row is too long -/

def personName : Fin 2 → Text := !["id".toList,"name".toList]

def personKind (capacity : ℕ) : Fin 2 → Kind := ![.plain 4,.fixedString capacity]

/-- A row struct of a number and a text, of a size that the text decides. -/
def personRow (capacity : ℕ) (hpos : 0 < capacity) : RowType where
  arity := 2
  name := personName
  kind := personKind capacity
  offset i := 4*i
  size := 4+lengthOffset capacity+2
  sized i := by fin_cases i <;> simp [personKind,Kind.Sized,hpos]
  inside i := by fin_cases i <;> simp [personKind,Kind.width,Nat.add_assoc]
  apart i j hij := by fin_cases i <;> fin_cases j <;> simp_all [personKind,Kind.width]

/-- A row of `2^31` bytes. -/
def hugeRow : RowType := personRow (2^31-6) (by decide)

def tinyRow : RowType := personRow 1 (by decide)

def person (number : ℕ) : Row ℕ Text
  | 1 => some (.scalar number)
  | 2 => some (.text "AB".toList (by decide))
  | _ => none

def personColumns : List Text := ["ID".toList,"NAME".toList]

def people : List (Row ℕ Text) := [person 1,person 2]

theorem personRow_matched {capacity : ℕ} (hpos : 0 < capacity) :
    Matched (personRow capacity hpos) personColumns where
  named := by
    show ∀ i : Fin 2, ∃ c ∈ personColumns, uppercased c = uppercased (personName i)
    decide
  distinct := by
    show ∀ i j : Fin 2, uppercased (personName i) = uppercased (personName j) → i = j
    decide

/-- A field of the rows that a run delivers. -/
def deliveredField {T : RowType} (i : Fin T.arity) :
    Except Stop (ExecResult × List (Batch T ℕ)) → List (Option (FieldValue ℕ))
  | .ok (_,batches) => (batches.flatMap fun b => b.rows.take b.count).map fun row => row i
  | .error _ => []

theorem deliveredField_ne {T : RowType} {run : Except Stop (ExecResult × List (Batch T ℕ))}
    {rows : List (OutRow T ℕ)} (i : Fin T.arity) (hsome : deliveredField i run ≠ [])
    (hne : deliveredField i run ≠ rows.map fun row => row i) :
    ∃ result batches, run = .ok (result,batches) ∧
      batches.flatMap (fun b => b.rows.take b.count) ≠ rows := by
  cases run with
  | error stop => exact absurd rfl hsome
  | ok x =>
    refine ⟨x.1,x.2,rfl,fun heq => hne ?_⟩
    rw [← heq]
    rfl

/-- Of rows of `2^31` bytes the second lands on the place of the first, and of a text that is too
long for its field the end is missing. -/
theorem huge_row_lands_on_first :
    HandsOut (listOci personColumns people) (0,0) personColumns people
      (fun w p => w.1 = p ∧ p ≤ people.length) ∧
    ReadsLobs (listOci personColumns people) (fun _ => true) id ∧
    (Matched hugeRow personColumns ∧ (∀ row ∈ people, ∀ i, Fits (fun _ => true) (hugeRow.kind i)
        (row (fieldPosition hugeRow personColumns i))) ∧
      ∃ result batches, runSelectFetchLoop (listOci personColumns people) hugeRow 3 (0,0) 100 2 0
          (fun _ => .scalar 0) = .ok (result,batches) ∧
        batches.flatMap (fun b => b.rows.take b.count) ≠ people.map fun row i =>
          expected id (hugeRow.kind i) (row (fieldPosition hugeRow personColumns i))) ∧
    (Matched tinyRow personColumns ∧
      ∃ result batches, runSelectFetchLoop (listOci personColumns people) tinyRow 3 (0,0) 100 2 0
          (fun _ => .scalar 0) = .ok (result,batches) ∧
        batches.flatMap (fun b => b.rows.take b.count) ≠ people.map fun row i =>
          expected id (tinyRow.kind i) (row (fieldPosition tinyRow personColumns i))) := by
  have hnumbers : deliveredField (T := hugeRow) ⟨0,Nat.two_pos⟩ (runSelectFetchLoop
      (listOci personColumns people) hugeRow 3 (0,0) 100 2 0 (fun _ => .scalar 0)) =
      [some (.scalar 2),some (.scalar 0)] := rfl
  have hnames : deliveredField (T := tinyRow) ⟨1,Nat.one_lt_two⟩ (runSelectFetchLoop
      (listOci personColumns people) tinyRow 3 (0,0) 100 2 0 (fun _ => .scalar 0)) =
      [some (.fixedString ['A']),some (.fixedString ['A'])] := rfl
  have hpositions : ∀ i : Fin 2,
      columnPosition (uppercased (personName i)) personColumns 1 = i.val+1 := by decide
  refine ⟨listOci_handsOut _ _ _,listOci_readsLobs _ _,⟨personRow_matched _,?_,?_⟩,
    personRow_matched _,?_⟩
  · intro row hrow i
    have hposition : fieldPosition hugeRow personColumns i = i.val+1 := hpositions i
    rw [hposition]
    simp only [people,List.mem_cons,List.not_mem_nil,or_false] at hrow
    rcases hrow with rfl | rfl <;> fin_cases i <;>
      simp [hugeRow,personRow,personKind,person,Fits]
  · refine deliveredField_ne ⟨0,Nat.two_pos⟩ ?_ ?_ <;> rw [hnumbers]
    · exact List.cons_ne_nil _ _
    · intro heq
      cases heq
  · refine deliveredField_ne ⟨1,Nat.one_lt_two⟩ ?_ ?_ <;> rw [hnames]
    · exact List.cons_ne_nil _ _
    · intro heq
      cases heq

end SelectRows
end Marketlib
