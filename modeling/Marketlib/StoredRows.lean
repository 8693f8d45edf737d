import Marketlib.BoundParams
import Marketlib.Outcome
import Marketlib.RowDelivery

/-! Structs that `execute` sends and `select_rows` hands out again. The database in between is what
the two sides are told of it: the values that OCI reads through the binds of an execute, and the
rows of a result set. -/

namespace Marketlib
namespace BoundParams

open Binding (Text)

open SelectRows (Kind Cell Datum FieldValue State Stop ExecStatus ExecResult classify requireState
  indNotNull indNull)

variable {ω α Λ : Type}

/-! ### What OCI reads and keeps -/

/-- What is read through a bind, where `lobs` are the LOBs. -/
def readBind {n : ℕ} (lobs : Λ → Option Text) (m : Memory n α Λ) (b : ParamBind n) :
    Option (Datum α Text) :=
  if b.indicator.any fun a => (m a).toIndicator == some indNull then none
  else match m b.data with
    | .scalar x => some (.scalar x)
    | .chars buffer =>
      if h : (buffer.take b.len.toNat).length < 2^16 then some (.text _ h) else none
    | .locator l => (l.bind lobs).map .lob
    | _ => none

/-- What an execute sends for a placeholder. -/
def Executed.sent {n : ℕ} (lobs : ω → Λ → Option Text) (e : Executed n ω α Λ)
    (placeholder : Text) : Option (Datum α Text) :=
  (e.binds placeholder).bind (readBind (lobs e.handle) e.memory)

/-- A new locator leads to no LOB yet; a LOB stays as it is until it is written. -/
structure WritesLobs (oci : Oci ω Λ) (lobs : ω → Λ → Option Text) : Prop where
  prepared (w : ω) (sql : Text) : lobs (oci.stmtPrepare w sql) = lobs w
  bound (w : ω) (placeholder : Text) : lobs (oci.bindByName w placeholder).2 = lobs w
  allocated (w : ω) : ∃ l, (oci.descriptorAlloc w).1 = some l ∧ lobs w l = none ∧
    ∀ k, k ≠ l → lobs (oci.descriptorAlloc w).2 k = lobs w k
  created (w : ω) (l : Λ) (isClob : Bool) :
    lobs (oci.lobCreateTemporary w (some l) isClob).2 l = some [] ∧
      ∀ k, k ≠ l → lobs (oci.lobCreateTemporary w (some l) isClob).2 k = lobs w k
  written (w : ω) (l : Λ) (s : Text) : lobs w l ≠ none →
    lobs (oci.lobWrite w (some l) s).2 l = some s ∧
      ∀ k, k ≠ l → lobs (oci.lobWrite w (some l) s).2 k = lobs w k

/-! ### The values of a struct -/

/-- The value of a field of the struct in memory. -/
def Holds {n : ℕ} (m : Memory n α Λ) (i : Fin n) : Kind → FieldValue α → Prop
  | .plain _,v => ∃ x, m (.field i) = .scalar x ∧ v = .scalar x
  | .optional _ _,v => ∃ o, m (.field i) = .optional o ∧ v = .optional o
  | .fixedString capacity,v => ∃ data length, m (.field i) = .chars data ∧
    m (.length i) = .length length ∧ data.length = capacity ∧ length.toNat ≤ capacity ∧
    v = .fixedString (data.take length.toNat)
  | .lob _ _,v => ∃ bytes, m (.field i) = .lob bytes ∧ v = .lob bytes

/-- The value that is sent for a field; an empty text is sent as `NULL`. -/
inductive Sends : FieldValue α → Option (Datum α Text) → Prop
  | scalar (x : α) : Sends (.scalar x) (some (.scalar x))
  | optional (o : Option α) : Sends (.optional o) (o.map .scalar)
  | empty : Sends (.fixedString []) none
  | text (s : Text) (short : s.length < 2^16) : s ≠ [] →
    Sends (.fixedString s) (some (.text s short))
  | lob (bytes : Text) : Sends (.lob bytes) (some (.lob bytes))

variable {oci : Oci ω Λ} {lobs : ω → Λ → Option Text} {T : ParamRow} {zero : α}
  {v : Fin T.arity → FieldValue α} {s t : Locals T.arity ω α Λ}

/-! ### One field -/

/-- The statement takes binds and executes. -/
def Ready (s : Locals T.arity ω α Λ) : Prop := s.stmt.state ∈ [State.prepared,State.executed]

/-- Field `i` is bound, and reads right; what is read is its own. -/
structure Bound (lobs : ω → Λ → Option Text) (v : Fin T.arity → FieldValue α)
    (s : Locals T.arity ω α Λ) (i : Fin T.arity) (b : ParamBind T.arity) : Prop where
  bind : s.stmt.binds (T.placeholder i) = some b
  data : b.data = .field i ∨ b.data = .staging i
  indicator : ∀ a ∈ b.indicator, a = .indicator i
  live : ∀ l, s.memory b.data = .locator (some l) → lobs s.stmt.handle l ≠ none
  sends : Sends (v i) (readBind (lobs s.stmt.handle) s.memory b)

/-- What the bind of field `i` leaves as it is. -/
structure Others (lobs : ω → Λ → Option Text) (i : Fin T.arity) (s t : Locals T.arity ω α Λ) :
    Prop where
  binds : ∀ j, j ≠ i → t.stmt.binds (T.placeholder j) = s.stmt.binds (T.placeholder j)
  memory : ∀ a, a ≠ .staging i → a ≠ .indicator i → t.memory a = s.memory a
  lobs : ∀ l, lobs s.stmt.handle l ≠ none → lobs t.stmt.handle l = lobs s.stmt.handle l

theorem Bound.others {i j : Fin T.arity} {b : ParamBind T.arity} (h : Bound lobs v s j b)
    (hothers : Others lobs i s t) (hne : j ≠ i) : Bound lobs v t j b := by
  have hdata : t.memory b.data = s.memory b.data := by
    refine hothers.memory _ ?_ ?_
    · rcases h.data with hfield | hstaging
      · rw [hfield]
        exact fun h => by cases h
      · rw [hstaging]
        exact fun h => hne (Place.staging.inj h)
    · rcases h.data with hfield | hstaging
      · rw [hfield]
        exact fun h => by cases h
      · rw [hstaging]
        exact fun h => by cases h
  have hindicator : b.indicator.any (fun a => (t.memory a).toIndicator == some indNull) =
      b.indicator.any fun a => (s.memory a).toIndicator == some indNull := by
    cases hi : b.indicator with
    | none => rfl
    | some a =>
      have ha := h.indicator a hi
      simp only [Option.any_some]
      rw [hothers.memory a (by rw [ha]; exact fun h => by cases h)
        (by rw [ha]; exact fun h => hne (Place.indicator.inj h))]
  have hread : readBind (lobs t.stmt.handle) t.memory b =
      readBind (lobs s.stmt.handle) s.memory b := by
    rw [readBind,readBind,hdata,hindicator]
    cases hcell : s.memory b.data with
    | locator l =>
      cases l with
      | none => rfl
      | some l =>
        have hl := hothers.lobs l (h.live l hcell)
        simp only [Option.bind_some,hl]
    | _ => rfl
  refine ⟨(hothers.binds j hne).trans h.bind,h.data,h.indicator,fun l hl => ?_,hread ▸ h.sends⟩
  rw [hdata] at hl
  rw [hothers.lobs l (h.live l hl)]
  exact h.live l hl

/-- The bind of a field, after whatever is staged for it. -/
theorem bindName_bound (hlobs : WritesLobs oci lobs) (hready : Ready s) (i : Fin T.arity) (w : ω)
    (m : Memory T.arity α Λ) (data : Place T.arity) (len : ℤ) (indicator : Option (Place T.arity))
    (hmemory : ∀ a, a ≠ .staging i → a ≠ .indicator i → m a = s.memory a)
    (hkept : ∀ l, lobs s.stmt.handle l ≠ none → lobs w l = lobs s.stmt.handle l)
    (hdata : data = .field i ∨ data = .staging i) (hindicator : ∀ a ∈ indicator, a = .indicator i)
    (hlive : ∀ l, m data = .locator (some l) → lobs w l ≠ none)
    (hsends : Sends (v i) (readBind (lobs w) m ⟨T.typeCode i,data,len,indicator⟩)) :
    ∃ result stmt, Statement.bindName oci { s.stmt with handle := w } (T.name i) (T.typeCode i)
        data len indicator = .ok (result,stmt) ∧
      Ready (⟨stmt,m⟩ : Locals T.arity ω α Λ) ∧ stmt.executes = s.stmt.executes ∧
      (∃ b, Bound lobs v ⟨stmt,m⟩ i b) ∧ Others lobs i s ⟨stmt,m⟩ := by
  have hrequire : requireState (Statement.toStatement { s.stmt with handle := w })
    [.prepared,.executed] "bindName".toList = .ok () := if_pos hready
  have hbound := hlobs.bound w (T.placeholder i)
  rw [Statement.bindName,hrequire]
  refine ⟨_,_,rfl,hready,rfl,⟨⟨T.typeCode i,data,len,indicator⟩,?_⟩,?_⟩
  · exact ⟨Function.update_self _ _ _,hdata,hindicator,
      fun l hl => (congrFun hbound l).symm ▸ hlive l hl,
      (congrArg (fun f => readBind f m _) hbound).symm ▸ hsends⟩
  · refine ⟨fun j hj => Function.update_of_ne (fun h => hj ?_) _ _,hmemory,fun l hl => ?_⟩
    · exact T.distinct (List.cons.inj h).2
    · exact (congrFun hbound l).trans (hkept l hl)

/-- Field `i` is bound, and no other is touched. -/
def Binds (oci : Oci ω Λ) (zero : α) (lobs : ω → Λ → Option Text)
    (v : Fin T.arity → FieldValue α) (s : Locals T.arity ω α Λ) (i : Fin T.arity) : Prop :=
  ∃ t, bindOneParam oci T zero s i = .ok t ∧ Ready t ∧ t.stmt.executes = s.stmt.executes ∧
    (∃ b, Bound lobs v t i b) ∧ Others lobs i s t

theorem binds_plain (hlobs : WritesLobs oci lobs) (hready : Ready s) {i : Fin T.arity} {width : ℕ}
    (hkind : T.kind i = .plain width) (hholds : Holds s.memory i (.plain width) (v i)) :
    Binds oci zero lobs v s i := by
  simp only [Binds,bindOneParam,hkind]
  obtain ⟨x,hfield,hv⟩ := hholds
  obtain ⟨m,hm⟩ : ∃ m, m = Function.update s.memory (.indicator i) (.indicator indNotNull) :=
    ⟨_,rfl⟩
  have hcell : m (.field i) = .scalar x := by simp [hm,hfield]
  have hsends : Sends (v i) (readBind (lobs s.stmt.handle) m
      ⟨T.typeCode i,.field i,SelectRows.toSb4 width,none⟩) := by
    rw [hv,readBind,hcell]
    exact .scalar x
  obtain ⟨result,stmt,hrun,hbound⟩ := bindName_bound hlobs hready i s.stmt.handle m (.field i)
    (SelectRows.toSb4 width) none (fun a _ ha => by rw [hm,Function.update_of_ne ha])
    (fun _ _ => rfl) (.inl rfl) nofun (fun l hl => by rw [hcell] at hl; cases hl) hsends
  rw [← hm]
  exact ⟨⟨stmt,m⟩,by simp only [hrun]; rfl,hbound⟩

theorem binds_optional (hlobs : WritesLobs oci lobs) (hready : Ready s) {i : Fin T.arity}
    {elemSize width : ℕ} (hkind : T.kind i = .optional elemSize width)
    (hholds : Holds s.memory i (.optional elemSize width) (v i)) :
    Binds oci zero lobs v s i := by
  simp only [Binds,bindOneParam,hkind]
  obtain ⟨o,hfield,hv⟩ := hholds
  simp only [hfield,Cell.toOptional,Option.join_some]
  obtain ⟨m,hm⟩ : ∃ m, m = Function.update (Function.update s.memory (.staging i)
    (.scalar (o.getD zero))) (.indicator i)
      (.indicator (if o.isSome then indNotNull else indNull)) := ⟨_,rfl⟩
  have hstage : m (.staging i) = .scalar (o.getD zero) := by simp [hm]
  have hnull : (m (.indicator i)).toIndicator = if o.isSome then some indNotNull else
      some indNull := by
    simp only [hm,Function.update_self,Cell.toIndicator]
    split_ifs <;> rfl
  have hsends : Sends (v i) (readBind (lobs s.stmt.handle) m
      ⟨T.typeCode i,.staging i,SelectRows.toSb4 elemSize,some (.indicator i)⟩) := by
    rw [hv,readBind,hstage,Option.any_some,hnull]
    cases o with
    | none => exact .optional none
    | some x => exact .optional (some x)
  obtain ⟨result,stmt,hrun,hbound⟩ := bindName_bound hlobs hready i s.stmt.handle m (.staging i)
    (SelectRows.toSb4 elemSize) (some (.indicator i))
    (fun a ha ha' => by rw [hm,Function.update_of_ne ha',Function.update_of_ne ha])
    (fun _ _ => rfl) (.inr rfl) (fun a ha => (Option.some.inj ha).symm)
    (fun l hl => by rw [hstage] at hl; cases hl) hsends
  rw [← hm]
  exact ⟨⟨stmt,m⟩,by simp only [hrun]; rfl,hbound⟩

theorem binds_fixedString (hlobs : WritesLobs oci lobs) (hready : Ready s) {i : Fin T.arity}
    {capacity : ℕ} (hkind : T.kind i = .fixedString capacity)
    (hholds : Holds s.memory i (.fixedString capacity) (v i)) :
    Binds oci zero lobs v s i := by
  simp only [Binds,bindOneParam,hkind]
  obtain ⟨data,length,hfield,hlength,hdata,hroom,hv⟩ := hholds
  have hle : length.toNat ≤ data.length := hdata ▸ hroom
  simp only [hlength,Cell.toLength,Option.getD_some]
  obtain ⟨m,hm⟩ : ∃ m, m = Function.update s.memory (.indicator i)
    (.indicator (if length = 0 then indNull else indNotNull)) := ⟨_,rfl⟩
  have hcell : m (.field i) = .chars data := by simp [hm,hfield]
  have hnull : (m (.indicator i)).toIndicator = if length = 0 then some indNull else
      some indNotNull := by
    simp only [hm,Function.update_self,Cell.toIndicator]
    split_ifs <;> rfl
  have hshort : (data.take length.toNat).length < 2^16 := by
    rw [List.length_take]
    exact (Nat.min_le_left _ _).trans_lt length.toNat_lt
  have hsends : Sends (v i) (readBind (lobs s.stmt.handle) m
      ⟨T.typeCode i,.field i,length.toNat,some (.indicator i)⟩) := by
    rw [hv,readBind,hcell,Option.any_some,hnull]
    by_cases hzero : length = 0
    · rw [hzero]
      exact .empty
    · simp only [if_neg hzero,Int.toNat_natCast]
      rw [dif_pos hshort]
      refine .text _ hshort fun hempty => hzero (UInt16.toNat_inj.mp ?_)
      have hlength := congrArg List.length hempty
      rw [List.length_take,List.length_nil] at hlength
      exact (by omega : length.toNat = 0)
  obtain ⟨result,stmt,hrun,hbound⟩ := bindName_bound hlobs hready i s.stmt.handle m (.field i)
    length.toNat (some (.indicator i)) (fun a _ ha => by rw [hm,Function.update_of_ne ha])
    (fun _ _ => rfl) (.inl rfl) (fun a ha => (Option.some.inj ha).symm)
    (fun l hl => by rw [hcell] at hl; cases hl) hsends
  rw [← hm]
  exact ⟨⟨stmt,m⟩,by simp only [hrun]; rfl,hbound⟩

theorem binds_lob (hlobs : WritesLobs oci lobs) (hready : Ready s) {i : Fin T.arity}
    {isClob : Bool} {width : ℕ}
    (hkind : T.kind i = .lob isClob width) (hholds : Holds s.memory i (.lob isClob width) (v i)) :
    Binds oci zero lobs v s i := by
  simp only [Binds,bindOneParam,hkind]
  obtain ⟨bytes,hfield,hv⟩ := hholds
  obtain ⟨l,halloc,hnew,hallocated⟩ := hlobs.allocated s.stmt.handle
  simp only [hfield,halloc,Cell.toLob,Option.getD_some]
  obtain ⟨w,hw⟩ : ∃ w, w = (oci.lobCreateTemporary (oci.descriptorAlloc s.stmt.handle).2
    (some l) isClob).2 := ⟨_,rfl⟩
  have hcreated := hlobs.created (oci.descriptorAlloc s.stmt.handle).2 l isClob
  rw [← hw] at hcreated
  obtain ⟨hhere,helse⟩ := hlobs.written w l bytes (by rw [hcreated.1]; exact Option.some_ne_none _)
  obtain ⟨m,hm⟩ : ∃ m, m = Function.update s.memory (.staging i) (.locator (some l)) := ⟨_,rfl⟩
  have hstage : m (.staging i) = .locator (some l) := by simp [hm]
  have hsends : Sends (v i) (readBind (lobs (oci.lobWrite w (some l) bytes).2) m
      ⟨T.typeCode i,.staging i,SelectRows.toSb4 SelectRows.sizeofPointer,none⟩) := by
    rw [hv,readBind,hstage]
    simp only [Option.any_none,Option.bind_some,hhere]
    exact .lob bytes
  have hkept : ∀ k, lobs s.stmt.handle k ≠ none →
      lobs (oci.lobWrite w (some l) bytes).2 k = lobs s.stmt.handle k := fun k hk => by
    have hne : k ≠ l := fun h => hk (h ▸ hnew)
    rw [helse k hne,hcreated.2 k hne,hallocated k hne]
  obtain ⟨result,stmt,hrun,hbound⟩ := bindName_bound hlobs hready i _ m (.staging i)
    (SelectRows.toSb4 SelectRows.sizeofPointer) none
    (fun a ha _ => by rw [hm,Function.update_of_ne ha]) hkept (.inr rfl) nofun
    (fun k hk => by
      rw [hstage] at hk
      cases hk
      rw [hhere]
      exact Option.some_ne_none _) hsends
  rw [← hm,← hw]
  exact ⟨⟨stmt,m⟩,by simp only [hrun]; rfl,hbound⟩

theorem bindOneParam_run (hlobs : WritesLobs oci lobs) (hready : Ready s) {i : Fin T.arity}
    (hholds : Holds s.memory i (T.kind i) (v i)) : Binds oci zero lobs v s i := by
  cases hkind : T.kind i with
  | plain width => exact binds_plain hlobs hready hkind (hkind ▸ hholds)
  | optional elemSize width => exact binds_optional hlobs hready hkind (hkind ▸ hholds)
  | fixedString capacity => exact binds_fixedString hlobs hready hkind (hkind ▸ hholds)
  | lob isClob width => exact binds_lob hlobs hready hkind (hkind ▸ hholds)

/-! ### All fields -/

theorem Holds.congr {n : ℕ} {m m₁ : Memory n α Λ} {i : Fin n} {k : Kind} {x : FieldValue α}
    (hfield : m₁ (.field i) = m (.field i)) (hlength : m₁ (.length i) = m (.length i))
    (h : Holds m i k x) : Holds m₁ i k x := by
  cases k with
  | _ => simpa only [Holds,hfield,hlength] using h

theorem bindFields_run (zero : α) (hlobs : WritesLobs oci lobs) (fields : List (Fin T.arity))
    (hready : Ready s) (hholds : ∀ i, Holds s.memory i (T.kind i) (v i)) :
    ∃ t, fields.foldlM (bindOneParam oci T zero) s = .ok t ∧ Ready t ∧
      t.stmt.executes = s.stmt.executes ∧
      ∀ i, (i ∈ fields ∨ ∃ b, Bound lobs v s i b) → ∃ b, Bound lobs v t i b := by
  induction fields generalizing s with
  | nil => exact ⟨s,rfl,hready,rfl,fun i hi => hi.resolve_left List.not_mem_nil⟩
  | cons i fields ih =>
    obtain ⟨t,hfirst,ht,hexecutes,hbound,hothers⟩ := bindOneParam_run hlobs hready (hholds i)
    have hholds' : ∀ j, Holds t.memory j (T.kind j) (v j) := fun j =>
      (hholds j).congr (hothers.memory _ (fun h => by cases h) (fun h => by cases h))
        (hothers.memory _ (fun h => by cases h) (fun h => by cases h))
    obtain ⟨u,hrest,hu,hexecutes',hall⟩ := ih ht hholds'
    refine ⟨u,?_,hu,hexecutes'.trans hexecutes,fun j hj => hall j ?_⟩
    · rw [List.foldlM_cons,hfirst]
      exact hrest
    · by_cases hji : j = i
      · exact .inr (hji ▸ hbound)
      · rcases hj with hmem | ⟨b,hb⟩
        · exact .inl ((List.mem_cons.mp hmem).resolve_left hji)
        · exact .inr ⟨b,hb.others hothers hji⟩

/-- An `execute` of a struct sends the values of its fields. -/
theorem executeParams_sends (zero : α) (hlobs : WritesLobs oci lobs) (handle : ω) (sql : Text)
    {params : Memory T.arity α Λ} (hholds : ∀ i, Holds params i (T.kind i) (v i)) :
    ∃ result stmt e, executeParams oci T zero handle sql params = .ok (result,stmt) ∧
      stmt.executes = [e] ∧ e.iters = 1 ∧ e.result = result ∧
      ∀ i, Sends (v i) (e.sent lobs (T.placeholder i)) := by
  obtain ⟨stmt,hstmt⟩ : ∃ stmt : Statement T.arity ω α Λ, stmt = { newStatement T.arity handle with
    state := .prepared, handle := oci.stmtPrepare handle sql } := ⟨_,rfl⟩
  have hready : Ready (⟨stmt,staged T zero params⟩ : Locals T.arity ω α Λ) := by
    rw [Ready,hstmt]
    exact List.mem_cons_self
  obtain ⟨t,hrun,ht,hexecutes,hall⟩ := bindFields_run zero hlobs
    (List.finRange T.arity) hready fun i => (hholds i).congr rfl rfl
  have hexecute : requireState t.stmt.toStatement [.prepared,.executed] "execute".toList =
    .ok () := if_pos ht
  obtain ⟨result,hresult⟩ : ∃ result : ExecResult,
    result = ⟨classify (oci.stmtExecute t.stmt.handle 1).1,(oci.stmtExecute t.stmt.handle 1).1⟩ :=
      ⟨_,rfl⟩
  obtain ⟨e,he⟩ : ∃ e : Executed T.arity ω α Λ,
    e = ⟨1,t.stmt.binds,t.memory,t.stmt.handle,result⟩ := ⟨_,rfl⟩
  have hadded : t.stmt.executes ++ [e] = [e] := by
    rw [hexecutes,hstmt]
    rfl
  refine ⟨result,{ t.stmt with
    state := syncState oci t.stmt.state (oci.stmtExecute t.stmt.handle 1).2
    handle := (oci.stmtExecute t.stmt.handle 1).2
    executes := t.stmt.executes ++ [e] },e,?_,hadded,by rw [he],by rw [he],fun i => ?_⟩
  · have hprepare : (newStatement T.arity handle).prepare oci sql = .ok stmt := by rw [hstmt]; rfl
    have hparams : bindParams oci T zero ⟨stmt,params⟩ = .ok t := hrun
    simp only [executeParams,hprepare,bind,Except.bind,hparams]
    rw [Statement.execute,hexecute,he,hresult]
    rfl
  · obtain ⟨b,hb⟩ := hall i (.inl (List.mem_finRange i))
    have hsent : e.sent lobs (T.placeholder i) =
        (t.stmt.binds (T.placeholder i)).bind (readBind (lobs t.stmt.handle) t.memory) := by
      rw [he]
      rfl
    rw [hsent,hb.bind,Option.bind_some]
    exact hb.sends

/-! ### The database in between -/

/-- A value that was sent, as a result set has it; an empty LOB may be `NULL` there. -/
inductive Kept {Λ' : Type} (isChar : Λ' → Bool) (content : Λ' → Text) (k : Kind) :
    Option (Datum α Text) → Option (Datum α Λ') → Prop
  | null : Kept isChar content k none none
  | scalar (x : α) : Kept isChar content k (some (.scalar x)) (some (.scalar x))
  | text (s : Text) (short : s.length < 2^16) (short' : s.length < 2^16) :
    Kept isChar content k (some (.text s short)) (some (.text s short'))
  | lob (l : Λ') (hkind : ∀ isClob width, k = .lob isClob width → isChar l = isClob) :
    Kept isChar content k (some (.lob (content l))) (some (.lob l))
  | emptyLob : Kept isChar content k (some (.lob [])) none

variable {ω' Λ' : Type} {isChar : Λ' → Bool} {content : Λ' → Text}

/-- The value of a field, through the database and back. -/
theorem expected_of_kept {n : ℕ} {m : Memory n α Λ} {i : Fin n} {k : Kind} {x : FieldValue α}
    {d : Option (Datum α Text)} {r : Option (Datum α Λ')} (hholds : Holds m i k x)
    (hsends : Sends x d) (hkept : Kept isChar content k d r) :
    SelectRows.Fits isChar k r ∧ SelectRows.expected content k r = some x := by
  cases k with
  | plain width =>
    obtain ⟨y,-,rfl⟩ := hholds
    cases hsends
    cases hkept
    exact ⟨⟨y,rfl⟩,rfl⟩
  | optional elemSize width =>
    obtain ⟨o,-,rfl⟩ := hholds
    cases hsends
    cases o with
    | none =>
      cases hkept
      exact ⟨.inl rfl,rfl⟩
    | some y =>
      cases hkept
      exact ⟨.inr ⟨y,rfl⟩,rfl⟩
  | fixedString capacity =>
    obtain ⟨data,length,-,-,hdata,-,rfl⟩ := hholds
    have hroom : (data.take length.toNat).length ≤ capacity := by
      rw [← hdata]
      exact List.length_take_le' _ _
    generalize data.take length.toNat = s at hsends hroom ⊢
    cases hsends with
    | empty =>
      cases hkept
      exact ⟨.inl rfl,rfl⟩
    | text s short =>
      cases hkept
      exact ⟨.inr ⟨s,short,rfl,hroom⟩,rfl⟩
  | lob isClob width =>
    obtain ⟨bytes,-,rfl⟩ := hholds
    cases hsends
    cases hkept with
    | lob l hkind => exact ⟨.inr ⟨l,rfl,hkind isClob width rfl⟩,rfl⟩
    | emptyLob => exact ⟨.inl rfl,rfl⟩

/-- A row of a result set is what an execute of the struct has sent. -/
def Stored (oci : Oci ω Λ) (T : ParamRow) (zero : α) (lobs : ω → Λ → Option Text)
    (isChar : Λ' → Bool) (content : Λ' → Text) (columns : List Text)
    (params : Memory T.arity α Λ) (row : SelectRows.Row α Λ') : Prop :=
  ∃ handle sql result stmt, executeParams oci T zero handle sql params = .ok (result,stmt) ∧
    ∃ e ∈ stmt.executes, ∀ i, Kept isChar content (T.kind i) (e.sent lobs (T.placeholder i))
      (row (SelectRows.fieldPosition T.toRowType columns i))

theorem Stored.expected {columns : List Text} {params : Memory T.arity α Λ}
    {row : SelectRows.Row α Λ'} (hlobs : WritesLobs oci lobs)
    (hholds : ∀ i, Holds params i (T.kind i) (v i))
    (h : Stored oci T zero lobs isChar content columns params row) (i : Fin T.arity) :
    SelectRows.Fits isChar (T.kind i) (row (SelectRows.fieldPosition T.toRowType columns i)) ∧
      SelectRows.expected content (T.kind i)
        (row (SelectRows.fieldPosition T.toRowType columns i)) = some (v i) := by
  obtain ⟨handle,sql,result,stmt,hrun,e,he,hkept⟩ := h
  obtain ⟨result',stmt',e',hrun',hexecutes,-,-,hsends⟩ :=
    executeParams_sends zero hlobs handle sql hholds
  cases hrun.symm.trans hrun'
  rw [hexecutes,List.mem_singleton] at he
  exact expected_of_kept (hholds i) (he ▸ hsends i) (hkept i)

/-- What `execute` has sent `select_rows` delivers: for a result set whose rows are those sent for
some structs, the structs, with the values of all their fields and in its order. -/
theorem execute_delivers (hlobs : WritesLobs oci lobs)
    {structs : List (Memory T.arity α Λ × (Fin T.arity → FieldValue α))}
    (hholds : ∀ p ∈ structs, ∀ i, Holds p.1 i (T.kind i) (p.2 i))
    {selecting : SelectRows.Oci ω' α Λ'} {handle : ω'} {columns : List Text}
    {rows : List (SelectRows.Row α Λ')}
    (hstored : List.Forall₂ (fun p => Stored oci T zero lobs isChar content columns p.1)
      structs rows)
    {HandedOut : ω' → ℕ → Prop}
    (hoci : SelectRows.HandsOut selecting handle columns rows HandedOut)
    (hreads : SelectRows.ReadsLobs selecting isChar content)
    (hmatched : SelectRows.Matched T.toRowType columns) (hsize : T.size < 2^31) {batchSize : ℕ}
    (hpos : 1 ≤ batchSize) (hlt : batchSize < 2^32) (prefetchRows : ℕ) (zero' : α)
    (m : SelectRows.Memory α Λ') :
    ∃ result batches, (∀ fuel, rows.length < fuel →
        SelectRows.runSelectFetchLoop selecting T.toRowType fuel handle prefetchRows batchSize
          zero' m = .ok (result,batches)) ∧
      result.status = .success ∧ (∀ b ∈ batches, b.count ≤ b.rows.length) ∧
      batches.flatMap (fun b => b.rows.take b.count) =
        structs.map fun p i => some (p.2 i) := by
  have hrows : ∀ row ∈ rows, ∃ p ∈ structs,
      Stored oci T zero lobs isChar content columns p.1 row :=
    Outcome.exists_of_forall₂ hstored.flip
  have hmap : rows.map (SelectRows.expectedRow T.toRowType content
      (SelectRows.fieldPosition T.toRowType columns)) = structs.map fun p i => some (p.2 i) := by
    rw [← List.forall₂_eq_eq_eq,List.forall₂_map_left_iff,List.forall₂_map_right_iff]
    refine (Outcome.forall₂_of_mem hholds (q := fun _ => True) (fun _ _ => trivial)
      (hstored.imp fun p row hrow hp _ => ?_)).flip
    exact funext fun i => (hrow.expected hlobs hp i).2
  obtain ⟨stmt,m₁,hstate,hout,hloop⟩ :=
    SelectRows.runSelectFetchLoop_matched hoci hmatched batchSize prefetchRows zero' m
  obtain ⟨result,batches,hrun,hstatus,hcounts,hall⟩ := SelectRows.fetchLoop_delivers hoci hsize
    hreads (SelectRows.fieldPosition T.toRowType columns)
    (fun row hrow i => by
      obtain ⟨p,hp,hstoredRow⟩ := hrows row hrow
      exact (hstoredRow.expected hlobs (hholds p hp) i).1)
    (SelectRows.defineHandles_nodup hmatched) hpos hlt m₁ hstate hout (Nat.zero_le _)
  refine ⟨result,batches,fun fuel hfuel => ?_,hstatus,hcounts,?_⟩
  · rw [hloop fuel]
    exact hrun fuel hfuel
  · rw [hall,List.drop_zero]
    exact hmap

/-! ### Two trades -/

/-- Locators that are not in the list begin here. -/
def fresh : List (ℕ × Text) → ℕ
  | [] => 0
  | p :: w => max (p.1+1) (fresh w)

theorem lookup_fresh {w : List (ℕ × Text)} {l : ℕ} (h : fresh w ≤ l) : w.lookup l = none := by
  induction w with
  | nil => rfl
  | cons p w ih =>
    obtain ⟨hp,hw⟩ := Nat.max_le.mp h
    have hne : (l == p.1) = false := beq_false_of_ne (by omega)
    rw [List.lookup_cons,hne]
    exact ih hw

/-- An OCI whose state lists what was written to its LOBs, the last first. -/
def listingOci : Oci (List (ℕ × Text)) ℕ where
  stmtPrepare w _ := w
  bindByName w _ := (⟨0,0⟩,w)
  descriptorAlloc w := (some (fresh w),w)
  lobCreateTemporary w l _ := (⟨0,0⟩,l.elim w fun l => (l,[]) :: w)
  lobWrite w l s := (⟨0,0⟩,l.elim w fun l => (l,s) :: w)
  stmtExecute w _ := (⟨0,0⟩,w)
  stmtState _ := 2

theorem listingOci_writesLobs : WritesLobs listingOci fun w l => w.lookup l where
  prepared _ _ := rfl
  bound _ _ := rfl
  allocated w := ⟨fresh w,rfl,lookup_fresh le_rfl,fun _ _ => rfl⟩
  created w l isClob := by
    refine ⟨by simp [listingOci],fun k hk => ?_⟩
    simp [listingOci,List.lookup_cons,beq_false_of_ne hk]
  written w l s _ := by
    refine ⟨by simp [listingOci],fun k hk => ?_⟩
    simp [listingOci,List.lookup_cons,beq_false_of_ne hk]

theorem tradeRow_distinct : Function.Injective SelectRows.tradeRow.name := by decide

def tradeParams : ParamRow where
  toRowType := SelectRows.tradeRow
  typeCode := ![3,3,1,112]
  distinct := tradeRow_distinct

def tradeValues (number : ℕ) (filled : Bool) : Fin tradeParams.arity → FieldValue ℕ :=
  ![.scalar number,.optional (if filled then some 7 else none),
    .fixedString (if filled then "AB".toList else []),.lob (if filled then "note".toList else [])]

/-- The struct in memory. -/
def tradeStruct (number : ℕ) (filled : Bool) : Memory tradeParams.arity ℕ ℕ
  | .field i => ![.scalar number,.optional (if filled then some 7 else none),
      .chars (if filled then "AB\x00\x00".toList else List.replicate 4 '\x00'),
      .lob (if filled then "note".toList else [])] i
  | .length _ => .length (if filled then 2 else 0)
  | _ => .scalar 0

theorem tradeStruct_holds (number : ℕ) (filled : Bool) (i : Fin tradeParams.arity) :
    Holds (tradeStruct number filled) i (tradeParams.kind i) (tradeValues number filled i) := by
  cases filled <;> fin_cases i
  · exact ⟨number,rfl,rfl⟩
  · exact ⟨none,rfl,rfl⟩
  · exact ⟨_,0,rfl,rfl,rfl,by decide,rfl⟩
  · exact ⟨[],rfl,rfl⟩
  · exact ⟨number,rfl,rfl⟩
  · exact ⟨some 7,rfl,rfl⟩
  · exact ⟨_,2,rfl,rfl,rfl,by decide,rfl⟩
  · exact ⟨_,rfl,rfl⟩

theorem trade_stored (number : ℕ) (filled : Bool) : Stored listingOci tradeParams 0
    (fun w l => w.lookup l) (fun _ => true) id SelectRows.tradeColumns (tradeStruct number filled)
    (SelectRows.trade number filled) := by
  obtain ⟨result,stmt,e,hrun,hexecutes,-,-,hsends⟩ := executeParams_sends 0
    listingOci_writesLobs [] "INSERT".toList (tradeStruct_holds number filled)
  refine ⟨_,_,result,stmt,hrun,e,by rw [hexecutes]; exact List.mem_singleton_self e,fun i => ?_⟩
  have hposition : ∀ i, SelectRows.fieldPosition SelectRows.tradeRow SelectRows.tradeColumns i =
      i.val+1 := by decide
  have hsent := hsends i
  generalize e.sent (fun w l => w.lookup l) (tradeParams.placeholder i) = d at hsent ⊢
  have hrow : SelectRows.trade number filled (SelectRows.fieldPosition tradeParams.toRowType
      SelectRows.tradeColumns i) = SelectRows.trade number filled (i.val+1) :=
    congrArg _ (hposition i)
  rw [hrow]
  cases filled <;> fin_cases i
  · change Sends (.scalar number) d at hsent
    cases hsent
    exact .scalar number
  · change Sends (.optional none) d at hsent
    cases hsent
    exact .null
  · change Sends (.fixedString []) d at hsent
    cases hsent with
    | empty => exact .null
    | text _ _ hne => exact absurd rfl hne
  · change Sends (.lob []) d at hsent
    cases hsent
    exact .emptyLob
  · change Sends (.scalar number) d at hsent
    cases hsent
    exact .scalar number
  · change Sends (.optional (some 7)) d at hsent
    cases hsent
    exact .scalar 7
  · change Sends (.fixedString "AB".toList) d at hsent
    cases hsent
    exact .text _ _ _
  · change Sends (.lob "note".toList) d at hsent
    cases hsent
    exact .lob "note".toList fun isClob width hkind => by cases hkind; rfl

/-- One that is filled, and one with nothing but its number. -/
def trades : List (Memory tradeParams.arity ℕ ℕ × (Fin tradeParams.arity → FieldValue ℕ)) :=
  [(tradeStruct 1 true,tradeValues 1 true),(tradeStruct 2 false,tradeValues 2 false)]

theorem trades_hold : ∀ p ∈ trades, ∀ i, Holds p.1 i (tradeParams.kind i) (p.2 i) := by
  simp only [trades,List.forall_mem_cons]
  exact ⟨tradeStruct_holds 1 true,tradeStruct_holds 2 false,nofun⟩

/-- In batches of one row. -/
theorem execute_delivers_trades : ∃ result batches,
    (∀ fuel, 2 < fuel → SelectRows.runSelectFetchLoop
        (SelectRows.listOci SelectRows.tradeColumns
          [SelectRows.trade 1 true,SelectRows.trade 2 false])
        tradeParams.toRowType fuel (0,0) 100 1 0 (fun _ => .scalar 0) = .ok (result,batches)) ∧
      result.status = .success ∧ (∀ b ∈ batches, b.count ≤ b.rows.length) ∧
      batches.flatMap (fun b => b.rows.take b.count) = trades.map fun p i => some (p.2 i) := by
  have hstored : List.Forall₂ (fun p => Stored listingOci tradeParams 0 (fun w l => w.lookup l)
      (fun _ => true) id SelectRows.tradeColumns p.1) trades
      [SelectRows.trade 1 true,SelectRows.trade 2 false] :=
    .cons (trade_stored 1 true) (.cons (trade_stored 2 false) .nil)
  exact execute_delivers listingOci_writesLobs trades_hold hstored
    (SelectRows.listOci_handsOut _ _ (0,0)) (SelectRows.listOci_readsLobs _ _)
    SelectRows.tradeRow_matched (by decide) (by decide) (by decide) 100 0 (fun _ => .scalar 0)

end BoundParams
end Marketlib
