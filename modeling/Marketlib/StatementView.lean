import Marketlib.OciStatement

/-! What `select_rows` has of an `OciStatement`: the state and a handle. Each method that it calls
ends on these as the method of the class does on the whole. -/

namespace Marketlib
namespace OciStatement

open Binding Effects
open SelectRows (Address Define ExecResult Memory OciCallResult Skips State Stop arraySkips
  classify columnPosition uppercased)

variable {ω ω' δ α β γ Λ : Type}

/-- What `call_oci` returns. -/
def outcome (oci : Oci ω δ) (w : ω) (c : OciCall) : OciCallResult :=
  ⟨(oci.reply w c).1.status,
    if (oci.reply w c).1.status ≠ 0 ∧ oci.hasError (oci.reply w c).2 then
      (oci.reply (oci.reply w c).2 .errorGet).1.errorCode
    else 0⟩

/-- The calls that change neither the state of a statement nor its rows. -/
def OciCall.asks : OciCall → Bool
  | .defineArrayOfStruct .. | .attrGetParamCount | .paramGet _ | .attrGetName | .descriptorFree
  | .attrGetStmtState | .attrGetRowsFetched | .errorGet => true
  | _ => false

/-- The handle that is shown of OCI's state answers as OCI does. -/
structure Shows (oci : Oci ω δ) (sel : SelectRows.Oci ω' α Λ) (shown : ω → ω') : Prop where
  asks (w : ω) {c : OciCall} (hc : c.asks = true) : shown (oci.reply w c).2 = shown w
  setPrefetchRows (w : ω) (rows : ℕ) :
    sel.setPrefetchRows (shown w) rows = shown (oci.reply w (.attrSetPrefetchRows rows)).2
  stmtExecute (w : ω) (iters : ℕ) : sel.stmtExecute (shown w) iters =
    (outcome oci w (.stmtExecute iters),shown (oci.reply w (.stmtExecute iters)).2)
  defineByPos (w : ω) (position dataType : ℕ) (len : ℤ) : sel.defineByPos (shown w) position =
    (outcome oci w (.defineByPos position dataType len),
      (oci.reply w (.defineByPos position dataType len)).1.handle,
      shown (oci.reply w (.defineByPos position dataType len)).2)
  stmtFetch (w : ω) (defines : List Define) (nrows : ℕ) (m : Memory α Λ) :
    ∃ m', sel.stmtFetch (shown w) defines nrows m =
      (outcome oci w (.stmtFetch nrows),shown (oci.reply w (.stmtFetch nrows)).2,m')
  rowsFetched (w : ω) : sel.rowsFetched (shown w) = (oci.reply w .attrGetRowsFetched).1.value
  stmtState (w : ω) : sel.stmtState (shown w) = (oci.reply w .attrGetStmtState).1.value
  paramCount (w : ω) :
    (sel.columnNames (shown w)).length = (oci.reply w .attrGetParamCount).1.value
  columnName (w : ω) (position : ℕ) (name : Text) :
    (sel.columnNames (shown w))[position]? = some name →
      (oci.reply (oci.reply w (.paramGet (position+1))).2 .attrGetName).1.name = name

def Statement.seen (shown : ω → ω') (s : Statement ω) : SelectRows.Statement ω' :=
  ⟨s.state,shown s.world⟩

/-- A method throws where its counterpart does, or ends with the result and in the statement
that `view` takes from what that ends with. -/
def Seen (shown : ω → ω') (view : γ → β × SelectRows.Statement ω')
    (p : Except Text β × Statement ω) (x : Except Stop γ) : Prop :=
  (∃ a t r, p = (.ok a,t) ∧ x = .ok r ∧ view r = (a,t.seen shown)) ∨
    ∃ message t operation, p = (.error message,t) ∧ x = .error (.stateError operation)

section

variable {oci : Oci ω δ} {sel : SelectRows.Oci ω' α Λ} {shown : ω → ω'}

theorem Seen.requireState {view : γ → β × SelectRows.Statement ω'} {s : Statement ω}
    {allowed : List State} {op expected : String} {operation : Text} {f : Unit → Method ω β}
    {x : Unit → Except Stop γ} (h : Seen shown view (f () s) (x ())) :
    Seen shown view ((OciStatement.requireState allowed op expected >>= f) s)
      (SelectRows.requireState (s.seen shown) allowed operation >>= x) := by
  by_cases hallowed : s.state ∈ allowed
  · have hview : SelectRows.requireState (s.seen shown) allowed operation = .ok () :=
      if_pos hallowed
    rw [bind_ok (requireState_ok hallowed),hview]
    exact h
  · obtain ⟨message,hthrown⟩ : ∃ e, OciStatement.requireState allowed op expected s =
        (.error e,s) := requireState_error hallowed
    have hview : SelectRows.requireState (s.seen shown) allowed operation =
        .error (.stateError operation) := if_neg hallowed
    rw [bind_error hthrown,hview]
    exact .inr ⟨message,s,operation,rfl,rfl⟩

theorem call_ok (oci : Oci ω δ) (shown : ω → ω') (s : Statement ω) (c : OciCall) :
    ∃ t, call oci c s = (.ok (oci.reply s.world c).1,t) ∧ t.world = (oci.reply s.world c).2 ∧
      t.seen shown = ⟨s.state,shown (oci.reply s.world c).2⟩ := ⟨_,rfl,rfl,rfl⟩

variable (h : Shows oci sel shown)

include h

theorem call_seen (s : Statement ω) {c : OciCall} (hc : c.asks = true) :
    ∃ t, call oci c s = (.ok (oci.reply s.world c).1,t) ∧ t.world = (oci.reply s.world c).2 ∧
      t.seen shown = s.seen shown := by
  obtain ⟨t,hcall,hworld,ht⟩ := call_ok oci shown s c
  rw [h.asks s.world hc] at ht
  exact ⟨t,hcall,hworld,ht⟩

theorem callOci_seen (s : Statement ω) (c : OciCall) :
    ∃ t, callOci oci c s = (.ok ((oci.reply s.world c).1,outcome oci s.world c),t) ∧
      t.seen shown = ⟨s.state,shown (oci.reply s.world c).2⟩ := by
  obtain ⟨t,hcall,hworld,ht⟩ := call_ok oci shown s c
  rw [callOci,bind_ok hcall,outcome]
  change ∃ u, (if _ ∧ oci.hasError t.world = true then _ else _ : Method ω _) t = _ ∧ _
  rw [hworld]
  split_ifs
  · obtain ⟨u,hget,-,hu⟩ := call_seen h t (c := .errorGet) rfl
    rw [hworld] at hget
    exact ⟨u,bind_ok hget,hu.trans ht⟩
  · exact ⟨t,rfl,ht⟩

theorem syncStateFromOci_seen (s : Statement ω) :
    ∃ t, syncStateFromOci oci s = (.ok (),t) ∧
      t.seen shown = ⟨SelectRows.syncState sel s.state (shown s.world),shown s.world⟩ := by
  obtain ⟨t,hcall,-,ht⟩ := call_seen h s (c := .attrGetStmtState) rfl
  obtain ⟨hstate,hshown⟩ := SelectRows.Statement.mk.inj ht
  refine ⟨_,bind_ok hcall,?_⟩
  rw [SelectRows.syncState,h.stmtState]
  change SelectRows.Statement.mk (if _ then _ else if _ then _ else t.state) (shown t.world) = _
  rw [hstate,hshown]

/-- The end of `execute` and of `fetch`. -/
theorem callAndSync_seen (s : Statement ω) (c : OciCall) :
    ∃ t, (callOci oci c >>= fun r => syncStateFromOci oci >>= fun _ =>
        pure (⟨classify r.2,r.2⟩ : ExecResult)) s =
      (.ok ⟨classify (outcome oci s.world c),outcome oci s.world c⟩,t) ∧
      t.seen shown = ⟨SelectRows.syncState sel s.state (shown (oci.reply s.world c).2),
        shown (oci.reply s.world c).2⟩ := by
  obtain ⟨t,hcall,ht⟩ := callOci_seen h s c
  obtain ⟨hstate,hshown⟩ := SelectRows.Statement.mk.inj ht
  obtain ⟨u,hsync,hu⟩ := syncStateFromOci_seen h t
  rw [hstate,hshown] at hu
  exact ⟨u,(bind_ok hcall).trans (bind_ok hsync),hu⟩

theorem setPrefetchRows_seen (s : Statement ω) (rows : ℕ) :
    Seen shown (fun t => ((),t)) (setPrefetchRows oci rows s)
      ((s.seen shown).setPrefetchRows sel rows) := by
  refine Seen.requireState (.inl ⟨(),_,_,rfl,rfl,?_⟩)
  rw [Statement.seen,Statement.seen,h.setPrefetchRows]

theorem execute_seen (s : Statement ω) (iters : ℕ) :
    Seen shown id (execute oci iters s) ((s.seen shown).execute sel iters) := by
  refine Seen.requireState ?_
  have hexecute : sel.stmtExecute (s.seen shown).handle iters = _ := h.stmtExecute s.world iters
  rw [hexecute]
  by_cases hlogging : oci.logging s.world = true
  · obtain ⟨t,hcall,ht⟩ := callAndSync_seen h { s with
      lines := s.lines ++ ["SQL: ".toList ++ s.sql ++
        if s.paramsLog = [] then [] else " | ".toList ++ s.paramsLog] } (.stmtExecute iters)
    refine .inl ⟨_,t,_,?_,rfl,congrArg (Prod.mk _) ht.symm⟩
    change (if oci.logging s.world = true then _ else _ : Method ω _) s = _
    rw [if_pos hlogging]
    exact hcall
  · obtain ⟨t,hcall,ht⟩ := callAndSync_seen h s (.stmtExecute iters)
    refine .inl ⟨_,t,_,?_,rfl,congrArg (Prod.mk _) ht.symm⟩
    change (if oci.logging s.world = true then _ else _ : Method ω _) s = _
    rw [if_neg hlogging]
    exact hcall

theorem fetch_seen (s : Statement ω) (defines : List Define) (nrows : ℕ) (m : Memory α Λ) :
    Seen shown (fun r => (r.1,r.2.1)) (fetch oci nrows s)
      ((s.seen shown).fetch sel defines nrows m) := by
  refine Seen.requireState ?_
  obtain ⟨m',hm⟩ := h.stmtFetch s.world defines nrows m
  have hfetch : sel.stmtFetch (s.seen shown).handle defines nrows m = _ := hm
  rw [hfetch]
  obtain ⟨t,hcall,ht⟩ := callAndSync_seen h s (.stmtFetch nrows)
  exact .inl ⟨_,t,_,hcall,rfl,congrArg (Prod.mk _) ht.symm⟩

theorem bindOutput_seen (s : Statement ω) (position dataType : ℕ) (data : Address) (len : ℤ)
    (outsize indicator : Option Address) (elemSize : ℤ) (rlskip : ℕ) :
    Seen shown (fun r => (r.1,r.2.1)) (bindOutput oci position dataType len elemSize rlskip s)
      ((s.seen shown).bindOutput sel position data len outsize indicator elemSize rlskip) := by
  refine Seen.requireState ?_
  have hdefine : sel.defineByPos (s.seen shown).handle position = _ :=
    h.defineByPos s.world position dataType len
  rw [hdefine]
  obtain ⟨t,hcall,ht⟩ := callOci_seen h s (.defineByPos position dataType len)
  rw [bind_ok hcall]
  dsimp only
  cases hskips : arraySkips elemSize rlskip
      (oci.reply s.world (.defineByPos position dataType len)).1.handle with
  | none => exact .inl ⟨_,t,_,rfl,rfl,congrArg (Prod.mk _) ht.symm⟩
  | some skips =>
    obtain ⟨u,harray,-,hu⟩ := call_seen h t (c := .defineArrayOfStruct skips.pvskip skips.rlskip) rfl
    exact .inl ⟨_,u,_,bind_ok harray,rfl,congrArg (Prod.mk _) (hu.trans ht).symm⟩

/-- The strides of a column are those that went into the last call of OCI, if they are set. -/
theorem bindOutput_strides {s : Statement ω} {position : ℕ} {data : Address} {len : ℤ}
    {outsize indicator : Option Address} {elemSize : ℤ} {rlskip : ℕ} {result : OciCallResult}
    {stmt : SelectRows.Statement ω'} {define : Define}
    (hview : (s.seen shown).bindOutput sel position data len outsize indicator elemSize rlskip =
      .ok (result,stmt,some define)) (dataType : ℕ) :
    define.toSkips = .unset ∨ ∃ status,
      (bindOutput oci position dataType len elemSize rlskip s).2.calls.getLast? =
        some (.defineArrayOfStruct define.pvskip define.rlskip,status) := by
  rw [SelectRows.Statement.bindOutput] at hview
  by_cases hallowed : s.state ∈ [.prepared,.executed,.endOfFetch]
  · have hrequire : SelectRows.requireState (s.seen shown) [.prepared,.executed,.endOfFetch]
        "bindOutput".toList = .ok () := if_pos hallowed
    have hdefine : sel.defineByPos (s.seen shown).handle position = _ :=
      h.defineByPos s.world position dataType len
    rw [hrequire,hdefine] at hview
    obtain ⟨t,hcall,-⟩ := callOci_seen h s (.defineByPos position dataType len)
    have hdefined := (Prod.mk.inj (Prod.mk.inj (Except.ok.inj hview)).2).2
    rw [Option.ite_none_right_eq_some] at hdefined
    obtain ⟨-,hdefined⟩ := hdefined
    rw [bindOutput,bind_ok (requireState_ok hallowed),bind_ok hcall]
    dsimp only
    rw [← Option.some.inj hdefined]
    cases hskips : arraySkips elemSize rlskip
        (oci.reply s.world (.defineByPos position dataType len)).1.handle with
    | none => exact .inl rfl
    | some skips =>
      refine .inr ⟨(oci.reply t.world (.defineArrayOfStruct skips.pvskip skips.rlskip)).1.status,?_⟩
      exact List.getLast?_concat
  · have hrequire : SelectRows.requireState (s.seen shown) [.prepared,.executed,.endOfFetch]
        "bindOutput".toList = .error (.stateError "bindOutput".toList) := if_neg hallowed
    rw [hrequire] at hview
    cases hview

theorem findPosition_seen (target : Text) {names : List Text} {position : ℕ} {s : Statement ω}
    (hnames : (sel.columnNames (shown s.world)).drop position = names) :
    ∃ t, findPosition oci target (List.range' (position+1) names.length) s =
        (.ok (columnPosition target names (position+1)),t) ∧ t.seen shown = s.seen shown := by
  induction names generalizing position s with
  | nil => exact ⟨s,rfl,rfl⟩
  | cons name names ih =>
    have hname : (sel.columnNames (shown s.world))[position]? = some name := by
      have hhead := congrArg (fun l : List Text => l[0]?) hnames
      rwa [List.getElem?_drop,add_zero] at hhead
    rw [List.length_cons,List.range'_succ,findPosition,columnPosition]
    obtain ⟨t,hparam,hworld,ht⟩ := call_seen h s (c := .paramGet (position+1)) rfl
    obtain ⟨u,hget,-,hu⟩ := call_seen h t (c := .attrGetName) rfl
    obtain ⟨v,hfree,-,hv⟩ := call_seen h u (c := .descriptorFree) rfl
    have hseen : v.seen shown = s.seen shown := hv.trans (hu.trans ht)
    rw [bind_ok hparam,bind_ok hget,bind_ok hfree,hworld,h.columnName s.world position name hname]
    by_cases htarget : uppercased name = target
    · rw [if_pos htarget,if_pos htarget]
      exact ⟨v,rfl,hseen⟩
    · rw [if_neg htarget,if_neg htarget]
      have hnames' : (sel.columnNames (shown v.world)).drop (position+1) = names := by
        rw [(SelectRows.Statement.mk.inj hseen).2,← List.tail_drop,hnames,List.tail_cons]
      obtain ⟨w,hfind,hw⟩ := ih hnames'
      exact ⟨w,hfind,hw.trans hseen⟩

theorem describeColumnPosition_seen (s : Statement ω) (name : Text) :
    Seen shown (fun position => (position,s.seen shown)) (describeColumnPosition oci name s)
      ((s.seen shown).describeColumnPosition sel name) := by
  refine Seen.requireState ?_
  obtain ⟨t,hcount,-,ht⟩ := call_seen h s (c := .attrGetParamCount) rfl
  rw [bind_ok hcount,← h.paramCount]
  obtain ⟨hstate,hshown⟩ := SelectRows.Statement.mk.inj ht
  have hall : (sel.columnNames (shown t.world)).drop 0 = sel.columnNames (shown s.world) := by
    rw [List.drop_zero,hshown]
  obtain ⟨u,hfind,hu⟩ := findPosition_seen h (uppercased name) hall
  exact .inl ⟨_,u,_,hfind,rfl,congrArg (Prod.mk _) (hu.trans ht).symm⟩

theorem rowsFetched_seen (s : Statement ω) :
    ∃ t, rowsFetched oci s = (.ok (sel.rowsFetched (shown s.world)),t) ∧
      t.seen shown = s.seen shown := by
  obtain ⟨t,hcall,-,ht⟩ := call_seen h s (c := .attrGetRowsFetched) rfl
  refine ⟨t,?_,ht⟩
  rw [rowsFetched,bind_ok hcall,h.rowsFetched]
  rfl

end

/-! ### Runs -/

/-- The calls that `select_rows` makes, with what they mean to its memory. -/
inductive SelectCall (α Λ : Type)
  | setPrefetchRows (rows : ℕ)
  | execute (iters : ℕ)
  | describeColumnPosition (name : Text)
  | bindOutput (position dataType : ℕ) (data : Address) (len : ℤ)
      (outsize indicator : Option Address) (elemSize : ℤ) (rlskip : ℕ)
  | fetch (defines : List Define) (nrows : ℕ) (m : Memory α Λ)

/-- As a call of the class. -/
def SelectCall.toCall : SelectCall α Λ → Call δ
  | .setPrefetchRows rows => .setPrefetchRows rows
  | .execute iters => .execute iters
  | .describeColumnPosition name => .describeColumnPosition name
  | .bindOutput position dataType _ len _ _ elemSize rlskip =>
    .bindOutput position dataType len elemSize rlskip
  | .fetch _ nrows _ => .fetch nrows

/-- What is left of the statement. -/
def SelectCall.view (sel : SelectRows.Oci ω' α Λ) (stmt : SelectRows.Statement ω') :
    SelectCall α Λ → Except Stop (SelectRows.Statement ω')
  | .setPrefetchRows rows => stmt.setPrefetchRows sel rows
  | .execute iters => (stmt.execute sel iters).map fun r => r.2
  | .describeColumnPosition name => (stmt.describeColumnPosition sel name).map fun _ => stmt
  | .bindOutput position _ data len outsize indicator elemSize rlskip =>
    (stmt.bindOutput sel position data len outsize indicator elemSize rlskip).map fun r => r.2.1
  | .fetch defines nrows m => (stmt.fetch sel defines nrows m).map fun r => r.2.1

theorem Seen.drop {shown : ω → ω'} {view : γ → β × SelectRows.Statement ω'} {m : Method ω β}
    {s : Statement ω} {x : Except Stop γ} (h : Seen shown view (m s) x) :
    Seen shown (fun t => ((),t)) ((m >>= fun _ => pure ()) s) (x.map fun r => (view r).2) := by
  rcases h with ⟨a,t,r,hm,rfl,hr⟩ | ⟨message,t,operation,hm,rfl⟩
  · exact .inl ⟨(),t,_,bind_ok hm,rfl,congrArg (fun q => ((),q.2)) hr⟩
  · exact .inr ⟨message,t,operation,bind_error hm,rfl⟩

section

variable {oci : Oci ω δ} {sel : SelectRows.Oci ω' α Λ} {shown : ω → ω'}

theorem perform_seen (h : Shows oci sel shown) (c : SelectCall α Λ) (s : Statement ω) :
    Seen shown (fun t => ((),t)) (perform oci c.toCall s) (c.view sel (s.seen shown)) := by
  cases c with
  | setPrefetchRows rows => exact setPrefetchRows_seen h s rows
  | execute iters => exact (execute_seen h s iters).drop
  | describeColumnPosition name => exact (describeColumnPosition_seen h s name).drop
  | bindOutput position dataType data len outsize indicator elemSize rlskip =>
    exact (bindOutput_seen h s position dataType data len outsize indicator elemSize rlskip).drop
  | fetch defines nrows m => exact (fetch_seen h s defines nrows m).drop

/-- Whatever `select_rows` calls one after the other, it is served on its view of the statement as
the class serves it. -/
theorem run_seen (h : Shows oci sel shown) (cs : List (SelectCall α Λ)) (s : Statement ω) :
    Seen shown (fun t => ((),t)) ((forM cs fun c => perform oci c.toCall : Method ω Unit) s)
      (cs.foldlM (fun stmt c => c.view sel stmt) (s.seen shown)) := by
  induction cs generalizing s with
  | nil => exact .inl ⟨(),s,_,rfl,rfl,rfl⟩
  | cons c cs ih =>
    rw [List.forM_cons,List.foldlM_cons]
    rcases perform_seen h c s with ⟨_,t,r,hm,hview,hr⟩ | ⟨message,t,operation,hm,hview⟩
    · obtain ⟨-,rfl⟩ := Prod.mk.inj hr
      rw [bind_ok hm,hview]
      exact ih t
    · rw [bind_error hm,hview]
      exact .inr ⟨message,t,operation,rfl,rfl⟩

end

/-! ### The class over an OCI of `select_rows` -/

/-- Results as `call_oci` returns them, and fetches that answer alike whatever is defined. -/
structure Answers (sel : SelectRows.Oci ω' α Λ) : Prop where
  executed (w : ω') (iters : ℕ) : (sel.stmtExecute w iters).1.status = 0 →
    (sel.stmtExecute w iters).1.errorCode = 0
  defined (w : ω') (position : ℕ) : (sel.defineByPos w position).1.status = 0 →
    (sel.defineByPos w position).1.errorCode = 0
  fetched (w : ω') (defines : List Define) (nrows : ℕ) (m : Memory α Λ) :
    (sel.stmtFetch w defines nrows m).1.status = 0 →
      (sel.stmtFetch w defines nrows m).1.errorCode = 0
  alike (w : ω') (defines defines' : List Define) (nrows : ℕ) (m m' : Memory α Λ) :
    (sel.stmtFetch w defines nrows m).1 = (sel.stmtFetch w defines' nrows m').1 ∧
      (sel.stmtFetch w defines nrows m).2.1 = (sel.stmtFetch w defines' nrows m').2.1

/-- Beside the handle there are the column that `OCIParamGet` was last called for, and the last
error code. -/
def classOci (sel : SelectRows.Oci ω' α Λ) (m : Memory α Λ) : Oci (ω' × ℕ × ℤ) δ where
  reply w c := match c with
    | .attrSetPrefetchRows rows => (⟨0,0,false,0,[]⟩,sel.setPrefetchRows w.1 rows,w.2)
    | .stmtExecute iters =>
      let r := sel.stmtExecute w.1 iters
      (⟨r.1.status,0,false,0,[]⟩,r.2,w.2.1,r.1.errorCode)
    | .defineByPos position _ _ =>
      let r := sel.defineByPos w.1 position
      (⟨r.1.status,0,r.2.1,0,[]⟩,r.2.2,w.2.1,r.1.errorCode)
    | .stmtFetch nrows =>
      let r := sel.stmtFetch w.1 [] nrows m
      (⟨r.1.status,0,false,0,[]⟩,r.2.1,w.2.1,r.1.errorCode)
    | .errorGet => (⟨0,w.2.2,false,0,[]⟩,w)
    | .attrGetParamCount => (⟨0,0,false,(sel.columnNames w.1).length,[]⟩,w)
    | .paramGet position => (⟨0,0,false,0,[]⟩,w.1,position,w.2.2)
    | .attrGetName => (⟨0,0,false,0,(sel.columnNames w.1).getD (w.2.1-1) []⟩,w)
    | .attrGetStmtState => (⟨0,0,false,sel.stmtState w.1,[]⟩,w)
    | .attrGetRowsFetched => (⟨0,0,false,sel.rowsFetched w.1,[]⟩,w)
    | _ => (⟨0,0,false,0,[]⟩,w)
  hasError _ := true
  logging _ := false
  load _ _ _ := []
  floatText _ := []

theorem result_eq {r : OciCallResult} (h : r.status = 0 → r.errorCode = 0) :
    (⟨r.status,if r.status ≠ 0 ∧ true = true then r.errorCode else 0⟩ : OciCallResult) = r := by
  by_cases hzero : r.status = 0
  · rw [if_neg fun hne => hne.1 hzero,← h hzero]
  · rw [if_pos ⟨hzero,rfl⟩]

/-- What `select_rows` is over an OCI of its own it is over one of the class. -/
theorem classOci_shows {sel : SelectRows.Oci ω' α Λ} (h : Answers sel) (m : Memory α Λ) :
    Shows (classOci (δ := δ) sel m) sel Prod.fst where
  asks w c hc := by cases c <;> first | rfl | cases hc
  setPrefetchRows _ _ := rfl
  stmtExecute w iters := Prod.ext (result_eq (h.executed w.1 iters)).symm rfl
  defineByPos w position _ _ := Prod.ext (result_eq (h.defined w.1 position)).symm rfl
  stmtFetch w defines nrows m' := by
    obtain ⟨hcall,hhandle⟩ := h.alike w.1 defines [] nrows m' m
    refine ⟨(sel.stmtFetch w.1 defines nrows m').2.2,Prod.ext ?_ (Prod.ext hhandle rfl)⟩
    exact hcall.trans (result_eq (h.fetched w.1 [] nrows m)).symm
  rowsFetched _ := rfl
  stmtState _ := rfl
  paramCount _ := rfl
  columnName w position name hname := by
    change (sel.columnNames w.1).getD (position+1-1) [] = name
    rw [Nat.add_sub_cancel,List.getD_eq_getElem?_getD,hname,Option.getD_some]

end OciStatement
end Marketlib
