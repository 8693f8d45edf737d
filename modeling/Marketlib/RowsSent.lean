import Mathlib.Data.Fin.VecNotation
import Mathlib.Tactic.FinCases
import Marketlib.InsertRows

/-! `insert_rows` sends every row once and in order, as long as the strides fit. -/

namespace Marketlib
namespace InsertRows

open Binding

open SelectRows (State Kind ExecStatus ExecResult Stop classify requireState lengthOffset sizeofSb2
  indNotNull toSb4 toUb4 toUb4_natCast toUb4_toSb4)

/-! ### What an execute reads -/

/-- The address of each row that a bind covers. -/
def strided (first : Address) (skip iters : ℕ) : List Address :=
  (List.range iters).map fun k => first.skip (k*skip)

def ArrayRow.placeholder (T : ArrayRow) (i : Fin T.arity) : Text := ':' :: T.name i

/-- The bind that is in force for a placeholder. -/
def bindOf (binds : List ArrayBind) (placeholder : Text) : Option ArrayBind :=
  binds.find? fun b => b.placeholder = placeholder

/-- Where the values for a placeholder are read. -/
def Executed.values (e : Executed) (placeholder : Text) : List Address :=
  (bindOf e.binds placeholder).elim [] fun b => strided b.first b.pvskip e.iters

/-- Where their lengths are read. -/
def Executed.lengths (e : Executed) (placeholder : Text) : List Address :=
  (bindOf e.binds placeholder).elim [] fun b =>
    b.alenp.elim [] fun a => strided a b.alskip e.iters

/-- Where their indicators are read. -/
def Executed.indicatorsRead (e : Executed) (placeholder : Text) : List Address :=
  (bindOf e.binds placeholder).elim [] fun b => strided b.indicators b.indskip e.iters

/-- The executes take the rows of chunk after chunk, with an indicator for each that is not
null, until one of them fails; its result is the one that is returned. -/
structure SendsInOrder (T : ArrayRow) (n chunkSize : ℕ) (result : ExecResult)
    (executes : List Executed) : Prop where
  chunk : ∀ (j : ℕ) e, executes[j]? = some e →
    j*chunkSize < n ∧ e.iters = min chunkSize (n-j*chunkSize)
  values : ∀ i, executes.flatMap (·.values (T.placeholder i)) =
    (List.range (min n (executes.length*chunkSize))).map (T.fieldAddress · i)
  lengths : ∀ i, executes.flatMap (·.lengths (T.placeholder i)) =
    (List.range (min n (executes.length*chunkSize))).filterMap (T.lengthAddress · i)
  indicators : ∀ e ∈ executes, ∀ i : Fin T.arity,
    e.indicators i = List.replicate e.iters indNotNull ∧
      e.indicatorsRead (T.placeholder i) = strided ⟨.indicators i,0⟩ sizeofSb2 e.iters
  before : ∀ e ∈ executes.dropLast, e.result.status = .success
  returned : result = (executes.getLast?.map Executed.result).getD allDone
  complete : result.status = .success → n ≤ executes.length*chunkSize

/-! ### One chunk -/

/-- The bind of a field where a chunk starts. -/
def ArrayRow.bindAt (T : ArrayRow) (offset : ℕ) (i : Fin T.arity) : ArrayBind where
  placeholder := T.placeholder i
  dataType := T.typeCode i
  first := T.fieldAddress offset i
  elemSize := match T.field i with
    | .plain width => toSb4 width
    | .fixedString capacity => toSb4 capacity
  pvskip := T.size
  indicators := ⟨.indicators i,0⟩
  indskip := sizeofSb2
  alenp := T.lengthAddress offset i
  alskip := match T.field i with
    | .plain _ => 0
    | .fixedString _ => T.size

theorem bindOf_rebind (binds : List ArrayBind) (b : ArrayBind) (placeholder : Text) :
    bindOf (rebind binds b) placeholder =
      if b.placeholder = placeholder then some b else bindOf binds placeholder := by
  rw [bindOf,rebind,List.find?_append]
  split_ifs with h
  · have hnone : (binds.filter fun c => c.placeholder ≠ b.placeholder).find?
        (fun c => c.placeholder = placeholder) = none := by
      rw [List.find?_eq_none]
      intro c hc hcp
      have hne : c.placeholder ≠ b.placeholder := by simpa using List.of_mem_filter hc
      exact hne ((of_decide_eq_true hcp).trans h.symm)
    rw [hnone,Option.none_or]
    exact List.find?_cons_of_pos (decide_eq_true h)
  · have hsame : (binds.filter fun c => c.placeholder ≠ b.placeholder).find?
        (fun c => c.placeholder = placeholder) = bindOf binds placeholder := by
      rw [List.find?_filter,bindOf]
      refine congrArg (List.find? · binds) (funext fun c => ?_)
      by_cases hc : c.placeholder = placeholder
      · simp [hc,Ne.symm h]
      · simp [hc]
    have hnone : [b].find? (fun c => c.placeholder = placeholder) = none := by simp [h]
    rw [hsame,hnone,Option.or_none]

variable {ω : Type} {oci : Oci ω} {T : ArrayRow}

/-- The statement takes binds and executes. -/
def Ready (s : Locals ω) : Prop := s.stmt.state ∈ [State.prepared,State.executed]

/-- Field `i` is bound where a chunk starts. -/
def BoundAt (T : ArrayRow) (offset count : ℕ) (s : Locals ω) (i : Fin T.arity) : Prop :=
  bindOf s.stmt.binds (T.placeholder i) = some (T.bindAt offset i) ∧
    s.indicators i = List.replicate count indNotNull

theorem bindNameArray_run (hbinds : ∀ w p, (oci.bindByName w p).2.1 = true)
    {stmt : Statement ω} (hready : stmt.state ∈ [State.prepared,State.executed])
    (fieldName : Text) (dataType : ℕ) (first : Address) (elemSize stride : ℤ)
    (indicators : Address) (alenp : Option Address) (alskip : ℕ) :
    ∃ result handle, stmt.bindNameArray oci fieldName dataType first elemSize stride indicators
      alenp alskip = .ok (result,{ stmt with
        handle
        binds := rebind stmt.binds ⟨':' :: fieldName,dataType,first,elemSize,toUb4 stride,
          indicators,sizeofSb2,alenp,alskip⟩ }) := by
  have hrequire : requireState stmt.toStatement [.prepared,.executed] "bindNameArray".toList =
    .ok () := if_pos hready
  rw [Statement.bindNameArray,hrequire]
  refine ⟨_,_,if_pos ?_⟩
  exact hbinds stmt.handle (':' :: fieldName)

theorem bindArrayField_run (hbinds : ∀ w p, (oci.bindByName w p).2.1 = true)
    (hsize : T.size < 2^32) (offset count : ℕ) {s : Locals ω} (hready : Ready s)
    (i : Fin T.arity) : ∃ t, bindArrayField oci T offset count s i = .ok t ∧ Ready t ∧
      t.stmt.executes = s.stmt.executes ∧
      t.stmt.binds = rebind s.stmt.binds (T.bindAt offset i) ∧
      t.indicators = Function.update s.indicators i (List.replicate count indNotNull) := by
  rw [bindArrayField,ArrayRow.bindAt,ArrayRow.lengthAddress]
  cases hfield : T.field i with
  | plain width =>
    obtain ⟨result,handle,hrun⟩ := bindNameArray_run hbinds hready (T.name i) (T.typeCode i)
      (T.fieldAddress offset i) (toSb4 width) (toSb4 T.size) ⟨.indicators i,0⟩ none 0
    rw [toUb4_toSb4 hsize] at hrun
    dsimp only
    rw [hrun]
    exact ⟨_,rfl,hready,rfl,rfl,rfl⟩
  | fixedString capacity =>
    obtain ⟨result,handle,hrun⟩ := bindNameArray_run hbinds hready (T.name i) (T.typeCode i)
      (T.fieldAddress offset i) (toSb4 capacity) (toSb4 T.size) ⟨.indicators i,0⟩
      (some ((T.fieldAddress offset i).skip (lengthOffset capacity))) (toUb4 T.size)
    rw [toUb4_toSb4 hsize,toUb4_natCast hsize] at hrun
    dsimp only
    rw [toUb4_natCast hsize,hrun]
    exact ⟨_,rfl,hready,rfl,rfl,rfl⟩

/-- Binding a field keeps the others bound: their placeholders are different. -/
theorem bindArrayField_boundAt {offset count : ℕ} {s t : Locals ω} {i : Fin T.arity}
    (hnames : t.stmt.binds = rebind s.stmt.binds (T.bindAt offset i))
    (hindicators : t.indicators = Function.update s.indicators i (List.replicate count indNotNull))
    {j : Fin T.arity} (h : j = i ∨ BoundAt T offset count s j) : BoundAt T offset count t j := by
  rw [BoundAt,hnames,hindicators,bindOf_rebind]
  by_cases hj : j = i
  · subst hj
    exact ⟨if_pos rfl,Function.update_self ..⟩
  · have hbound := h.resolve_left hj
    have hplaceholder : (T.bindAt offset i).placeholder ≠ T.placeholder j := by
      intro heq
      exact hj (T.distinct (List.cons.inj heq).2).symm
    have hfield : (j : ℕ) ≠ i := Fin.val_ne_of_ne hj
    rw [if_neg hplaceholder,Function.update_of_ne hfield]
    exact hbound

theorem bindFields_run (hbinds : ∀ w p, (oci.bindByName w p).2.1 = true) (hsize : T.size < 2^32)
    (offset count : ℕ) {s : Locals ω} (hready : Ready s) (fields : List (Fin T.arity)) :
    ∃ t, fields.foldlM (bindArrayField oci T offset count) s = .ok t ∧ Ready t ∧
      t.stmt.executes = s.stmt.executes ∧
      ∀ j, j ∈ fields ∨ BoundAt T offset count s j → BoundAt T offset count t j := by
  induction fields generalizing s with
  | nil => exact ⟨s,rfl,hready,rfl,fun j hj => hj.resolve_left List.not_mem_nil⟩
  | cons i fields ih =>
    obtain ⟨t,hfield,ht,hexecutes,hnames,hindicators⟩ :=
      bindArrayField_run hbinds hsize offset count hready i
    obtain ⟨u,hfields,hu,hexecutes',hbound⟩ := ih ht
    refine ⟨u,?_,hu,hexecutes'.trans hexecutes,fun j hj => hbound j ?_⟩
    · rw [List.foldlM_cons,hfield]
      exact hfields
    · rw [List.mem_cons,or_assoc,or_left_comm] at hj
      exact hj.imp_right (bindArrayField_boundAt hnames hindicators)

/-- The execute of a chunk that starts at `offset`. -/
structure Covers (T : ArrayRow) (offset : ℕ) (e : Executed) : Prop where
  binds : ∀ i : Fin T.arity, bindOf e.binds (T.placeholder i) = some (T.bindAt offset i)
  indicators : ∀ i : Fin T.arity, e.indicators i = List.replicate e.iters indNotNull

theorem execute_run (hstate : ∀ w iters, oci.stmtState (oci.stmtExecute w iters).2 = 2)
    {stmt : Statement ω} (hready : stmt.state ∈ [State.prepared,State.executed]) (iters : ℕ)
    (indicators : ℕ → List Int16) :
    ∃ call t, stmt.execute oci iters indicators = .ok (⟨classify call,call⟩,t) ∧
      call = (oci.stmtExecute stmt.handle iters).1 ∧ t.state = .executed ∧
      t.executes = stmt.executes ++ [⟨iters,stmt.binds,indicators,⟨classify call,call⟩⟩] := by
  have hrequire : requireState stmt.toStatement [.prepared,.executed] "execute".toList =
    .ok () := if_pos hready
  rw [Statement.execute,hrequire]
  exact ⟨_,_,rfl,rfl,if_pos (hstate stmt.handle iters),rfl⟩

theorem insertChunk_run (hbinds : ∀ w p, (oci.bindByName w p).2.1 = true)
    (hstate : ∀ w iters, oci.stmtState (oci.stmtExecute w iters).2 = 2) (hsize : T.size < 2^32)
    (offset : ℕ) {count : ℕ} (hcount : count < 2^32) {s : Locals ω} (hready : Ready s) :
    ∃ e t, insertChunk oci T offset count s = .ok (e.result,t) ∧ Ready t ∧
      t.stmt.executes = s.stmt.executes ++ [e] ∧ e.iters = count ∧ Covers T offset e ∧
      ∃ w, e.result = ⟨classify (oci.stmtExecute w count).1,(oci.stmtExecute w count).1⟩ := by
  obtain ⟨t,hfields,ht,hexecutes,hbound⟩ :=
    bindFields_run hbinds hsize offset count hready (List.finRange T.arity)
  have hall := fun j => hbound j (.inl (List.mem_finRange j))
  obtain ⟨call,stmt,hexecute,hcall,hexecuted,hadded⟩ := execute_run hstate ht count t.indicators
  refine ⟨⟨count,t.stmt.binds,t.indicators,⟨classify call,call⟩⟩,⟨stmt,t.indicators⟩,?_,?_,?_,rfl,
    ⟨fun i => (hall i).1,fun i => (hall i).2⟩,t.stmt.handle,by rw [hcall]⟩
  · rw [insertChunk,bindArrayFields,hfields,toUb4_natCast hcount]
    change Except.bind (t.stmt.execute oci count t.indicators) _ = _
    rw [hexecute]
    rfl
  · rw [Ready,hexecuted]
    exact List.mem_cons_of_mem _ List.mem_cons_self
  · rw [hadded,hexecutes]

/-! ### The loop -/

/-- What holds where chunk `k` starts. -/
structure Sent (T : ArrayRow) (n chunkSize k : ℕ) (result : ExecResult) (s : Locals ω) :
    Prop where
  ready : Ready s
  count : s.stmt.executes.length = k
  chunk : ∀ (j : ℕ) e, s.stmt.executes[j]? = some e →
    j*chunkSize < n ∧ e.iters = min chunkSize (n-j*chunkSize) ∧ Covers T (j*chunkSize) e
  before : ∀ e ∈ s.stmt.executes.dropLast, e.result.status = .success
  returned : result = (s.stmt.executes.getLast?.map Executed.result).getD allDone

/-- Where another chunk starts, all before it succeeded. -/
theorem Sent.all_success {n chunkSize k : ℕ} {result : ExecResult} {s : Locals ω}
    (h : Sent T n chunkSize k result s) (hgood : k = 0 ∨ isSuccess result = true) :
    ∀ e ∈ s.stmt.executes, e.result.status = .success := by
  have hbefore := h.before
  have hreturned := h.returned
  rcases List.eq_nil_or_concat s.stmt.executes with hnil | ⟨es,last,hes⟩
  · rw [hnil]
    simp
  · rw [hes,List.concat_eq_append] at hbefore hreturned ⊢
    rw [List.dropLast_concat] at hbefore
    rw [List.getLast?_concat] at hreturned
    have hk : k ≠ 0 := by
      rw [← h.count,hes,List.length_concat]
      omega
    have hlast : isSuccess last.result = true := by
      have := hgood.resolve_left hk
      rwa [hreturned] at this
    intro e he
    rcases List.mem_append.mp he with he | he
    · exact hbefore e he
    · rw [List.mem_singleton.mp he]
      exact of_decide_eq_true hlast

theorem Sent.next (hbinds : ∀ w p, (oci.bindByName w p).2.1 = true)
    (hstate : ∀ w iters, oci.stmtState (oci.stmtExecute w iters).2 = 2) (hsize : T.size < 2^32)
    {n chunkSize k : ℕ} (hchunk : chunkSize < 2^32) {result : ExecResult} {s : Locals ω}
    (h : Sent T n chunkSize k result s) (hgood : k = 0 ∨ isSuccess result = true)
    (hk : k*chunkSize < n) :
    ∃ r t, insertChunk oci T (k*chunkSize) (min chunkSize (n-k*chunkSize)) s = .ok (r,t) ∧
      Sent T n chunkSize (k+1) r t := by
  obtain ⟨e,t,hrun,ht,hadded,hiters,hcovers,-⟩ := insertChunk_run hbinds hstate hsize
    (k*chunkSize)
    (lt_of_le_of_lt (min_le_left chunkSize (n-k*chunkSize)) hchunk) h.ready
  refine ⟨e.result,t,hrun,ht,?_,fun j x hx => ?_,?_,?_⟩
  · rw [hadded,List.length_append,h.count,List.length_singleton]
  · rw [hadded] at hx
    rcases lt_trichotomy j s.stmt.executes.length with hj | rfl | hj
    · rw [List.getElem?_append_left hj] at hx
      exact h.chunk j x hx
    · rw [List.getElem?_concat_length] at hx
      cases hx
      rw [h.count]
      exact ⟨hk,hiters,hcovers⟩
    · rw [List.getElem?_eq_none (by rw [List.length_append,List.length_singleton]; omega)] at hx
      cases hx
  · rw [hadded,List.dropLast_concat]
    exact h.all_success hgood
  · rw [hadded,List.getLast?_concat]
    rfl

theorem fieldAddress_skip (T : ArrayRow) (offset k : ℕ) (i : Fin T.arity) :
    (T.fieldAddress offset i).skip (k*T.size) = T.fieldAddress (offset+k) i := by
  rw [ArrayRow.fieldAddress,ArrayRow.fieldAddress,Address.skip,Nat.add_mul,Nat.add_right_comm]

theorem Covers.values {offset : ℕ} {e : Executed} (h : Covers T offset e) (i : Fin T.arity) :
    e.values (T.placeholder i) =
      (List.range e.iters).flatMap fun k => [T.fieldAddress (offset+k) i] := by
  rw [Executed.values,h.binds i,Option.elim_some,strided,List.map_eq_flatMap]
  refine List.flatMap_congr fun k _ => ?_
  exact congrArg (fun a => [a]) (fieldAddress_skip T offset k i)

theorem Covers.lengths {offset : ℕ} {e : Executed} (h : Covers T offset e) (i : Fin T.arity) :
    e.lengths (T.placeholder i) =
      (List.range e.iters).flatMap fun k => (T.lengthAddress (offset+k) i).toList := by
  rw [Executed.lengths,h.binds i,Option.elim_some,ArrayRow.bindAt]
  cases hfield : T.field i with
  | plain width =>
    simp [ArrayRow.lengthAddress,hfield]
  | fixedString capacity =>
    simp only [ArrayRow.lengthAddress,hfield,Option.elim_some,strided,List.map_eq_flatMap,
      Option.toList_some]
    refine List.flatMap_congr fun k _ => ?_
    rw [← fieldAddress_skip T offset k i,Address.skip,Address.skip,Address.skip,Address.skip,
      Nat.add_right_comm]

theorem Covers.indicatorsRead {offset : ℕ} {e : Executed} (h : Covers T offset e)
    (i : Fin T.arity) :
    e.indicatorsRead (T.placeholder i) = strided ⟨.indicators i,0⟩ sizeofSb2 e.iters := by
  rw [Executed.indicatorsRead,h.binds i,Option.elim_some,ArrayRow.bindAt]

theorem Sent.sendsInOrder {n chunkSize k : ℕ} {result : ExecResult} {s : Locals ω}
    (h : Sent T n chunkSize k result s)
    (hcomplete : result.status = .success → n ≤ k*chunkSize) :
    SendsInOrder T n chunkSize result s.stmt.executes where
  chunk j e he := ⟨(h.chunk j e he).1,(h.chunk j e he).2.1⟩
  values i := by
    rw [List.map_eq_flatMap]
    refine ChunkLoop.flatMap_chunks fun j e he => ?_
    obtain ⟨-,hiters,hcovers⟩ := h.chunk j e he
    rw [hcovers.values i,hiters]
  lengths i := by
    rw [List.filterMap_eq_flatMap_toList]
    refine ChunkLoop.flatMap_chunks fun j e he => ?_
    obtain ⟨-,hiters,hcovers⟩ := h.chunk j e he
    rw [hcovers.lengths i,hiters]
  indicators e he i := by
    obtain ⟨j,hj⟩ := List.mem_iff_getElem?.mp he
    obtain ⟨-,-,hcovers⟩ := h.chunk j e hj
    exact ⟨hcovers.indicators i,hcovers.indicatorsRead i⟩
  before := h.before
  returned := h.returned
  complete hsuccess := by
    rw [h.count]
    exact hcomplete hsuccess

/-- Every row is sent once and in order, where the size of a row fits the 32 bits of a stride:
all of them if every chunk succeeds, else those up to the first chunk that does not, whose
result is returned. -/
theorem insertRows_sends (oci : Oci ω) (hbinds : ∀ w p, (oci.bindByName w p).2.1 = true)
    (hstate : ∀ w iters, oci.stmtState (oci.stmtExecute w iters).2 = 2) (T : ArrayRow)
    (hsize : T.size < 2^32) (handle : ω) (sql : Text) (rows : Rows T) {chunkSize : ℕ}
    (hpos : 1 ≤ chunkSize) (hlt : chunkSize < 2^32) {fuel : ℕ} (hfuel : rows.size < fuel) :
    ∃ result stmt, insertRows oci T fuel handle sql rows chunkSize = some (.ok (result,stmt)) ∧
      SendsInOrder T rows.size chunkSize result stmt.executes := by
  have hstart : ∀ w, Sent T rows.size chunkSize 0 allDone
      (⟨{ newStatement w with state := .prepared },fun _ => []⟩ : Locals ω) := fun w =>
    ⟨List.mem_cons_self,rfl,by simp [newStatement],by simp [newStatement],rfl⟩
  rw [insertRows]
  split_ifs with hempty
  · refine ⟨allDone,newStatement handle,rfl,(hstart handle).sendsInOrder fun _ => ?_⟩
    rw [hempty]
    exact Nat.zero_le _
  · have hmax := rows.maxSize
    obtain ⟨j,result,t,hloop,hsent,hend⟩ := ChunkLoop.loop_invariant isSuccess
      (Sent T rows.size chunkSize) hpos (by omega)
      (fun k r s hs hgood hk => hs.next hbinds hstate hsize hlt hgood hk)
      (hstart (oci.stmtPrepare handle sql)) (.inl rfl)
      (show rows.size-0*chunkSize < fuel by omega)
    rw [Nat.zero_mul] at hloop
    refine ⟨result,t.stmt,?_,hsent.sendsInOrder fun hsuccess => ?_⟩
    · change Option.map _ (ChunkLoop.loop _ _ _ _ _ _ _ _) = _
      exact (congrArg _ hloop).trans rfl
    · rcases hend with ⟨-,hpast⟩ | ⟨-,hbad,-⟩
      · exact hpast
      · rw [isSuccess,hsuccess] at hbad
        cases hbad

def namedFields (capacity : ℕ) : Fin 2 → FieldKind := ![.plain 4,.fixedString capacity]

theorem namedFields_sized {capacity : ℕ} (hpos : 0 < capacity) (i : Fin 2) :
    (namedFields capacity i).toKind.Sized := by
  fin_cases i
  · exact Nat.succ_pos 3
  · exact hpos

theorem namedFields_inside (capacity : ℕ) (i : Fin 2) :
    4*i+(namedFields capacity i).toKind.width ≤ 4+lengthOffset capacity+2 := by
  fin_cases i
  · change 4*0+4 ≤ _
    omega
  · change 4*1+(lengthOffset capacity+2) ≤ _
    omega

theorem namedFields_apart (capacity : ℕ) (i j : Fin 2) (hne : i ≠ j) :
    4*i+(namedFields capacity i).toKind.width ≤ 4*(j : ℕ) ∨
      4*j+(namedFields capacity j).toKind.width ≤ 4*(i : ℕ) := by
  fin_cases i
  · fin_cases j
    · exact absurd rfl hne
    · exact .inl le_rfl
  · fin_cases j
    · exact .inr le_rfl
    · exact absurd rfl hne

theorem namedFields_distinct : Function.Injective !["id".toList,"name".toList] := by decide

/-- `int id` and a `FixedString`, aligned as the `int` is. -/
def namedRow (capacity : ℕ) (hpos : 0 < capacity) : ArrayRow where
  arity := 2
  name := !["id".toList,"name".toList]
  kind i := (namedFields capacity i).toKind
  offset i := 4*i
  size := 4+lengthOffset capacity+2
  sized := namedFields_sized hpos
  inside := namedFields_inside capacity
  apart := namedFields_apart capacity
  field := namedFields capacity
  kinds _ := rfl
  typeCode := ![3,1]
  distinct := namedFields_distinct

/-- Every call succeeds. -/
def willingOci : Oci Unit where
  stmtPrepare _ _ := ()
  bindByName _ _ := (⟨0,0⟩,true,())
  bindArrayOfStruct _ _ _ _ := ()
  stmtExecute _ _ := (⟨0,0⟩,())
  stmtState _ := 2

def shortRow : ArrayRow := namedRow 6 (by decide)

def fiveRows : Rows shortRow := ⟨5,by decide⟩

/-- In twos, with one left for the last. -/
theorem insertRows_sends_five : ∃ result stmt,
    insertRows willingOci shortRow 6 () "INSERT".toList fiveRows 2 = some (.ok (result,stmt)) ∧
      SendsInOrder shortRow fiveRows.size 2 result stmt.executes := by
  have hfuel : fiveRows.size < 6 := by decide
  have hsize : shortRow.size < 2^32 := by decide
  exact insertRows_sends willingOci (fun _ _ => rfl) (fun _ _ => rfl) shortRow hsize ()
    "INSERT".toList fiveRows (by decide) (by decide) hfuel

/-- A row of 4 GiB. -/
def hugeRow : ArrayRow := namedRow (2^32-6) (by decide)

def twoRows : Rows hugeRow := ⟨2,by decide⟩

/-- Its stride is nothing in 32 bits: the first row is sent twice. -/
theorem huge_row_sent_twice : ∃ result stmt,
    insertRows willingOci hugeRow 3 () "INSERT".toList twoRows 2 = some (.ok (result,stmt)) ∧
      ¬SendsInOrder hugeRow twoRows.size 2 result stmt.executes := by
  refine ⟨_,_,rfl,fun h => ?_⟩
  have hvalues := h.values (0 : Fin 2)
  revert hvalues
  decide +kernel

end InsertRows
end Marketlib
