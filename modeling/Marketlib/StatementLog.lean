import Marketlib.OciStatement

/-! `OciStatement`: the lines that `execute` logs, against what is bound. -/

namespace Marketlib

open Binding

namespace OciStatement

open Effects

open SelectRows (State ExecResult classify)

/-! ### Lists of parameters -/

/-- Placeholders with the text of what they were bound to, the first bound first. -/
abbrev Bindings := List (Text × Text)

def listing (bs : Bindings) : Text :=
  List.intercalate [',',' '] (bs.map fun e => e.1 ++ '=' :: e.2)

/-- The line for an SQL text and the placeholders that are listed. -/
def lineOf (sql : Text) (bs : Bindings) : Text :=
  "SQL: ".toList ++ sql ++ if bs = [] then [] else " | ".toList ++ listing bs

/-- What `e` says is the last that was said of its placeholder. -/
def Latest (bs : Bindings) (e : Text × Text) : Prop :=
  ∃ before after, bs = before ++ e :: after ∧ e.1 ∉ after.map Prod.fst

/-- The line lists every placeholder once, with the value that it was last bound to. -/
def ShowsLatest (line sql : Text) (bs : Bindings) : Prop :=
  ∃ es : Bindings, line = lineOf sql es ∧ (es.map Prod.fst).Nodup ∧ ∀ e, e ∈ es ↔ Latest bs e

theorem listing_eq_nil {bs : Bindings} : listing bs = [] ↔ bs = [] := by
  cases bs with
  | nil => exact iff_of_true rfl rfl
  | cons e bs =>
    refine iff_of_false ?_ (List.cons_ne_nil e bs)
    cases bs with
    | nil => simp [listing]
    | cons e' bs => simp [listing,List.intercalate_cons_cons]

theorem listing_cons (e : Text × Text) {bs : Bindings} (h : bs ≠ []) :
    listing (e :: bs) = e.1 ++ '=' :: e.2 ++ [',',' '] ++ listing bs := by
  rw [listing,List.map_cons,List.intercalate_cons_of_ne_nil (by simpa using h),listing]

theorem listing_concat (bs : Bindings) (e : Text × Text) :
    listing (bs ++ [e]) =
      (if listing bs = [] then [] else listing bs ++ [',',' ']) ++ e.1 ++ '=' :: e.2 := by
  induction bs with
  | nil => simp [listing]
  | cons b bs ih =>
    rw [if_neg (by simp [listing_eq_nil]),List.cons_append,listing_cons b (by simp),ih]
    by_cases h : bs = []
    · subst h
      simp [listing]
    · rw [if_neg (mt listing_eq_nil.mp h),listing_cons b h]
      simp only [List.append_assoc]

/-- What a placeholder adds to a line, with a separator. -/
def weight (e : Text × Text) : ℕ := e.1.length+e.2.length+3

theorem listing_length (bs : Bindings) :
    (listing bs).length = (bs.map weight).sum-2 := by
  induction bs with
  | nil => rfl
  | cons e bs ih =>
    by_cases h : bs = []
    · subst h
      simp [listing,weight]
      omega
    · have hpos : 0 < (listing bs).length := List.length_pos_iff.mpr (mt listing_eq_nil.mp h)
      rw [listing_cons e h,List.map_cons,List.sum_cons]
      simp only [List.length_append,List.length_cons,List.length_nil,weight]
      omega

theorem weight_of_lineOf_eq {sql : Text} {bs es : Bindings} (h : lineOf sql bs = lineOf sql es) :
    (bs.map weight).sum = (es.map weight).sum := by
  have hlist : ∀ {bs : Bindings}, bs ≠ [] → 3 ≤ (bs.map weight).sum := by
    intro bs hne
    cases bs with
    | nil => cases hne rfl
    | cons e bs =>
      rw [List.map_cons,List.sum_cons,weight]
      omega
  have hlength := congrArg List.length (List.append_cancel_left h)
  by_cases hbs : bs = []
  · subst hbs
    by_cases hes : es = []
    · rw [hes]
    · rw [if_pos rfl,if_neg hes] at hlength
      simp at hlength
  · by_cases hes : es = []
    · rw [if_neg hbs,if_pos hes] at hlength
      simp at hlength
    · rw [if_neg hbs,if_neg hes,List.length_append,List.length_append,listing_length,
        listing_length] at hlength
      have := hlist hbs
      have := hlist hes
      omega

/-- All bindings in a row are right if and only if there is one for each placeholder: a line
with one more is longer. -/
theorem showsLatest_all {sql : Text} {bs : Bindings} :
    ShowsLatest (lineOf sql bs) sql bs ↔ (bs.map Prod.fst).Nodup := by
  constructor
  · rintro ⟨es,hline,hnodup,hlatest⟩
    have hsub : es ⊆ bs := by
      intro e he
      obtain ⟨before,after,rfl,-⟩ := (hlatest e).mp he
      exact List.mem_append_right _ List.mem_cons_self
    obtain ⟨es',hperm,hes'⟩ := List.subperm_of_subset hnodup.of_map hsub
    obtain ⟨rest,hrest⟩ := hes'.exists_perm_append
    have hweight := weight_of_lineOf_eq hline
    rw [(hrest.map weight).sum_nat,List.map_append,List.sum_append,(hperm.map weight).sum_nat]
      at hweight
    have hnil : rest = [] := by
      cases rest with
      | nil => rfl
      | cons e rest =>
        rw [List.map_cons,List.sum_cons,weight] at hweight
        omega
    rw [hnil,List.append_nil] at hrest
    exact ((hrest.trans hperm).map Prod.fst).nodup_iff.mpr hnodup
  · intro hnodup
    refine ⟨bs,rfl,hnodup,fun e => ⟨fun he => ?_,?_⟩⟩
    · obtain ⟨before,after,rfl⟩ := List.append_of_mem he
      refine ⟨before,after,rfl,?_⟩
      rw [List.map_append,List.map_cons] at hnodup
      exact (List.nodup_cons.mp hnodup.of_append_right).1
    · rintro ⟨before,after,rfl,-⟩
      exact List.mem_append_right _ List.mem_cons_self

/-! ### What the methods write -/

section Methods

variable {ω δ : Type} (oci : Oci ω δ)

/-- An integer of two, four or eight bytes is shown as it is. -/
theorem render_int {world : ω} {data : δ} {len : ℕ} {z : ℤ} (hlen : len = 2 ∨ len = 4 ∨ len = 8)
    (hlow : -((256^len : ℕ) : ℤ) ≤ z*2) (hhigh : z*2 < (256^len : ℕ))
    (hload : oci.load world data len = LittleEndian.toBytes len (z % (256^len : ℕ)).toNat) :
    oci.render world 3 data len = decimal z := by
  have hwidth : 0 < 256^len := Nat.pow_pos (by decide)
  have hmod := Int.emod_nonneg z (Int.natCast_ne_zero.mpr hwidth.ne')
  have hlt : (z % (256^len : ℕ)).toNat < 256^len := by
    have := Int.emod_lt_of_pos z (Int.natCast_pos.mpr hwidth)
    omega
  have hrender : oci.render world 3 data len = signedText (oci.load world data len) := by
    obtain rfl | rfl | rfl := hlen <;> rfl
  rw [hrender,hload,signedText,LittleEndian.ofBytes_toBytes hlt,LittleEndian.length_toBytes,
    Int.toNat_of_nonneg hmod,Int.emod_bmod,Int.bmod_eq_of_le_mul_two hlow hhigh]

/-- The text of a value that is not null for its indicator. -/
def renderedValue (world : ω) (dataType : ℕ) (data : Option δ) (len : ℤ) : Text :=
  match data with
  | none => "NULL".toList
  | some data =>
    if dataType = sqltOdt then
      if (oci.reply world .dateToText).1.status = 0 then
        "'".toList ++ (oci.reply world .dateToText).1.name ++ "'".toList
      else "<OciDate, unrenderable>".toList
    else oci.render world dataType data len

/-- The text that `bindName` gives what it is called with. -/
def rendered (world : ω) (dataType : ℕ) (data : Option δ) (len : ℤ)
    (indicator : Option Int16) : Text :=
  if indicator = some SelectRows.indNull then "NULL".toList
  else renderedValue oci world dataType data len

/-- The log of a statement goes from one list of parameters and lines to another. -/
structure Logs (params : Text → Text) (new : Statement ω → List Text) (s t : Statement ω) :
    Prop where
  sql : t.sql = s.sql
  paramsLog : t.paramsLog = params s.paramsLog
  lines : t.lines = s.lines ++ new s

abbrev Quiet : Statement ω → Statement ω → Prop := Logs id fun _ => []

variable {params : Text → Text} {new : Statement ω → List Text} {s t u : Statement ω}

theorem Quiet.refl (s : Statement ω) : Quiet s s := ⟨rfl,rfl,(List.append_nil _).symm⟩

theorem Logs.before (h : Logs params new s t) (h' : Quiet t u) : Logs params new s u := by
  refine ⟨h'.sql.trans h.sql,h'.paramsLog.trans h.paramsLog,?_⟩
  rw [h'.lines,List.append_nil,h.lines]

theorem call_quiet (c : OciCall) : Does (call oci c) (Quiet (ω := ω)) :=
  fun _ => ⟨_,_,rfl,rfl,rfl,(List.append_nil _).symm⟩

theorem callOci_quiet (c : OciCall) : Does (callOci oci c) (Quiet (ω := ω)) := by
  refine (call_quiet oci c).bind (fun reply => does_get_bind fun s => ?_) Logs.before
  split_ifs
  · exact (call_quiet oci .errorGet).bind (fun _ => does_pure _ Quiet.refl) Logs.before
  · exact does_pure _ Quiet.refl

theorem sync_quiet {α : Type} (a : α) :
    Does (syncStateFromOci oci >>= fun _ => pure a) (Quiet (ω := ω)) := by
  have hsync : Does (syncStateFromOci oci) (Quiet (ω := ω)) := by
    refine (call_quiet oci .attrGetStmtState).bind (fun reply => ?_) Logs.before
    exact does_modify _ fun _ => ⟨rfl,rfl,(List.append_nil _).symm⟩
  exact hsync.bind (fun _ => does_pure a Quiet.refl) Logs.before

theorem renderTypedValue_run (dataType : ℕ) (data : Option δ) (len : ℤ) (s : Statement ω) :
    ∃ t, renderTypedValue oci dataType data len s =
      (.ok (renderedValue oci s.world dataType data len),t) ∧ Quiet s t := by
  cases data with
  | none => exact ⟨s,rfl,Quiet.refl s⟩
  | some data =>
    rw [renderTypedValue.eq_2,renderedValue]
    by_cases hdate : dataType = sqltOdt
    · rw [if_pos hdate,if_pos hdate]
      by_cases hstatus : (oci.reply s.world .dateToText).1.status = 0
      · rw [if_pos hstatus]
        exact ⟨_,(bind_ok rfl).trans (congrFun (if_pos hstatus) _),rfl,rfl,
          (List.append_nil _).symm⟩
      · rw [if_neg hstatus]
        exact ⟨_,(bind_ok rfl).trans (congrFun (if_neg hstatus) _),rfl,rfl,
          (List.append_nil _).symm⟩
    · rw [if_neg hdate,if_neg hdate]
      exact ⟨s,rfl,Quiet.refl s⟩

/-- The addition to the list of parameters. -/
def withParam (paramsLog fieldName value : Text) : Text :=
  (if paramsLog = [] then [] else paramsLog ++ [',',' ']) ++ fieldName ++ '=' :: value

theorem logParam_run (fieldName : Text) (dataType : ℕ) (data : Option δ) (len : ℤ)
    (indicator : Option Int16) (s : Statement ω) :
    ∃ t, logParam oci fieldName dataType data len indicator s = (.ok (),t) ∧
      Logs (fun params => withParam params fieldName
        (rendered oci s.world dataType data len indicator)) (fun _ => []) s t := by
  rw [logParam]
  by_cases hnull : indicator = some SelectRows.indNull
  · rw [if_pos hnull,rendered,if_pos hnull]
    exact ⟨_,bind_ok rfl,rfl,rfl,(List.append_nil _).symm⟩
  · obtain ⟨t,hrun,hquiet⟩ := renderTypedValue_run oci dataType data len s
    have hparams : t.paramsLog = s.paramsLog := hquiet.paramsLog
    rw [if_neg hnull,rendered,if_neg hnull]
    refine ⟨_,bind_ok hrun,hquiet.sql,?_,hquiet.lines⟩
    rw [withParam,← hparams]

theorem bindName_run (fieldName : Text) (dataType : ℕ) (data : Option δ) (len : ℤ)
    (indicator : Option Int16) (hlogging : oci.logging s.world = true)
    (hallowed : s.state ∈ [State.prepared,State.executed]) :
    Logs (fun params => withParam params fieldName
      (rendered oci s.world dataType data len indicator)) (fun _ => []) s
      (perform oci (.bindName fieldName dataType data len indicator) s).2 := by
  obtain ⟨t,hlog,ht⟩ := logParam_run oci fieldName dataType data len indicator s
  obtain ⟨result,u,hbind,hu⟩ := callOci_quiet oci (.bindByName (':' :: fieldName) dataType len) t
  have hrun : bindName oci fieldName dataType data len indicator s = (.ok result.2,u) := by
    refine (bind_ok (requireState_ok hallowed)).trans ?_
    refine (bind_ok (a := s) (t := s) rfl).trans ?_
    dsimp only
    rw [if_pos hlogging]
    exact (bind_ok hlog).trans (bind_ok hbind)
  have hperform : (perform oci (.bindName fieldName dataType data len indicator) s).2 = u :=
    congrArg Prod.snd (bind_ok hrun)
  rw [hperform]
  exact ht.before hu

theorem execute_run (iters : ℕ) (hlogging : oci.logging s.world = true)
    (hallowed : s.state ∈ [State.prepared,State.executed]) :
    Logs id (fun s => ["SQL: ".toList ++ s.sql ++
      if s.paramsLog = [] then [] else " | ".toList ++ s.paramsLog]) s
      (perform oci (.execute iters) s).2 := by
  have hlog : Does (logExecute (ω := ω)) (Logs id fun s => ["SQL: ".toList ++ s.sql ++
      if s.paramsLog = [] then [] else " | ".toList ++ s.paramsLog]) :=
    does_modify _ fun _ => ⟨rfl,rfl,rfl⟩
  have hcall := (callOci_quiet (ω := ω) oci (.stmtExecute iters)).bind
    (fun r => sync_quiet oci (⟨classify r.2,r.2⟩ : ExecResult)) Logs.before
  obtain ⟨result,t,hrun,ht⟩ := hlog.bind (fun _ => hcall) Logs.before s
  have hexecute : execute oci iters s = (.ok result,t) := by
    refine (bind_ok (requireState_ok hallowed)).trans ?_
    refine (bind_ok (a := s) (t := s) rfl).trans ?_
    dsimp only
    rw [if_pos hlogging]
    exact hrun
  have hperform : (perform oci (.execute iters) s).2 = t := congrArg Prod.snd (bind_ok hexecute)
  rw [hperform]
  exact ht

end Methods

/-! ### Runs -/

section Runs

variable {ω δ : Type} (oci : Oci ω δ)

/-- The name that an action binds. -/
def Action.boundName : Action ω δ → Option Text
  | .call (.bindName fieldName ..) => some fieldName
  | _ => none

def boundNames (as : List (Action ω δ)) : List Text := as.filterMap Action.boundName

/-- What an action binds, with the text of the value. -/
def boundBy (s : Statement ω) : Action ω δ → Bindings
  | .call (.bindName fieldName dataType data len indicator) =>
    [(fieldName,rendered oci s.world dataType data len indicator)]
  | _ => []

/-- What a run has bound. -/
def bound (s : Statement ω) : List (Action ω δ) → Bindings
  | [] => []
  | a :: as => boundBy oci s a ++ (step oci s a).elim [] fun t => bound t as

/-- A `bindName` or an `execute` that does not throw, or something that is not a method. -/
def Accepted (s : Statement ω) : Action ω δ → Prop
  | .call (.bindName ..) | .call (.execute _) => s.state ∈ [State.prepared,State.executed]
  | .call _ => False
  | .other _ => True

instance (s : Statement ω) : DecidablePred (Accepted (δ := δ) s)
  | .call (.bindName ..) | .call (.execute _) =>
    inferInstanceAs (Decidable (s.state ∈ [State.prepared,State.executed]))
  | .call (.prepare _) | .call (.bindNameArray ..) | .call (.bindOutput ..)
  | .call (.setPrefetchRows _) | .call (.describeColumnPosition _) | .call .describeColumns
  | .call (.fetch _) | .call .rowsFetched => isFalse id
  | .other _ => isTrue trivial

/-- Each `execute` of a run logs one line, and it shows the latest values so far. -/
def LogsLatest (sql : Text) (s : Statement ω) (as : List (Action ω δ)) : Prop :=
  ∀ before iters after t, as = before ++ .call (.execute iters) :: after →
    Transition.run (step oci) s before = some t →
    ∃ line, (perform oci (.execute iters) t).2.lines = t.lines ++ [line] ∧
      ShowsLatest line sql (bound oci s before)

variable {oci} {s t : Statement ω} {as : List (Action ω δ)}

theorem boundBy_names (s : Statement ω) (a : Action ω δ) :
    (boundBy oci s a).map Prod.fst = a.boundName.toList := by
  cases a with
  | other world => rfl
  | call c => cases c <;> rfl

theorem bound_names (s : Statement ω) (as : List (Action ω δ)) :
    (bound oci s as).map Prod.fst = boundNames as := by
  induction as generalizing s with
  | nil => rfl
  | cons a as ih =>
    have hnext : ((step oci s a).elim [] fun t => bound oci t as).map Prod.fst = boundNames as := by
      cases a with
      | other world => exact ih _
      | call c => exact ih _
    rw [bound,List.map_append,boundBy_names,hnext,boundNames,boundNames,List.filterMap_cons]
    cases a.boundName with
    | none => rfl
    | some name => rfl

/-- The parameters in the log and what has been bound grow together. -/
theorem step_paramsLog (hlogging : ∀ world, oci.logging world = true) {a : Action ω δ}
    (haccepted : Accepted s a) (hstep : step oci s a = some t) {bs : Bindings}
    (h : s.paramsLog = listing bs) :
    t.sql = s.sql ∧ t.paramsLog = listing (bs ++ boundBy oci s a) := by
  cases a with
  | other world =>
    cases hstep
    have hnone : boundBy oci s (.other world : Action ω δ) = [] := rfl
    rw [hnone,List.append_nil]
    exact ⟨rfl,h⟩
  | call c =>
    cases hstep
    cases c with
    | bindName fieldName dataType data len indicator =>
      have hlogs := bindName_run oci fieldName dataType data len indicator (hlogging _) haccepted
      have hone : boundBy oci s (.call (.bindName fieldName dataType data len indicator)) =
          [(fieldName,rendered oci s.world dataType data len indicator)] := rfl
      refine ⟨hlogs.sql,?_⟩
      rw [hlogs.paramsLog,h,hone,listing_concat,withParam]
    | execute iters =>
      have hlogs := execute_run oci iters (hlogging _) haccepted
      have hnone : boundBy oci s (.call (.execute iters) : Action ω δ) = [] := rfl
      rw [hnone,List.append_nil]
      exact ⟨hlogs.sql,hlogs.paramsLog.trans h⟩
    | prepare | bindNameArray | bindOutput | setPrefetchRows | describeColumnPosition
    | describeColumns | fetch | rowsFetched => exact haccepted.elim

theorem run_paramsLog (hlogging : ∀ world, oci.logging world = true)
    (haccepted : Transition.Admits (step oci) Accepted s as)
    (hrun : Transition.run (step oci) s as = some t) {bs : Bindings}
    (h : s.paramsLog = listing bs) :
    t.sql = s.sql ∧ t.paramsLog = listing (bs ++ bound oci s as) := by
  induction as generalizing s bs with
  | nil =>
    cases hrun
    rw [bound,List.append_nil]
    exact ⟨rfl,h⟩
  | cons a as ih =>
    obtain ⟨u,hstep,hrest⟩ := Option.bind_eq_some_iff.mp hrun
    obtain ⟨hsql,hparams⟩ := step_paramsLog hlogging haccepted.1 hstep h
    obtain ⟨hsql',hparams'⟩ := ih (haccepted.2 u hstep) hrest hparams
    rw [bound,hstep,Option.elim_some,← List.append_assoc]
    exact ⟨hsql'.trans hsql,hparams'⟩

theorem exists_run (s : Statement ω) (as : List (Action ω δ)) :
    ∃ t, Transition.run (step oci) s as = some t := by
  induction as generalizing s with
  | nil => exact ⟨s,rfl⟩
  | cons a as ih =>
    cases a with
    | other world => exact ih _
    | call c => exact ih _

/-- The line of an `execute` that comes after a run. -/
theorem execute_lines (hlogging : ∀ world, oci.logging world = true) {iters : ℕ}
    {after : List (Action ω δ)} (hparams : s.paramsLog = [])
    (haccepted : Transition.Admits (step oci) Accepted s (as ++ .call (.execute iters) :: after))
    (hrun : Transition.run (step oci) s as = some t) :
    (perform oci (.execute iters) t).2.lines = t.lines ++ [lineOf s.sql (bound oci s as)] := by
  obtain ⟨hbefore,hafter⟩ := Transition.admits_append.mp haccepted
  obtain ⟨hsql,hlog⟩ := run_paramsLog hlogging hbefore hrun
    (show s.paramsLog = listing [] from hparams)
  rw [(execute_run oci iters (hlogging _) (hafter t hrun).1).lines,hsql,hlog]
  simp only [listing_eq_nil,List.nil_append]
  rfl

/-- The log shows what is executed if and only if no placeholder is bound twice before an
`execute`; after that each line has the values before too. -/
theorem logsLatest_iff (hlogging : ∀ world, oci.logging world = true) (world : ω) {sql : Text}
    (hprepare : step oci (init world) (.call (.prepare sql)) = some s)
    (haccepted : Transition.Admits (step oci) Accepted s as) :
    LogsLatest oci sql s as ↔
      ∀ before iters after, as = before ++ .call (.execute iters) :: after →
        (boundNames before).Nodup := by
  obtain ⟨hsql,hparams⟩ : s.sql = sql ∧ s.paramsLog = [] := by
    cases hprepare
    obtain ⟨result,t,hcall,-⟩ := callOci_quiet oci (.stmtPrepare sql) (init world)
    have hrun : perform oci (.prepare sql) (init world) =
        (.ok (),{ t with state := .prepared, sql, paramsLog := [] }) :=
      (bind_ok (requireState_ok List.mem_cons_self)).trans (bind_ok hcall)
    rw [hrun]
    exact ⟨rfl,rfl⟩
  refine forall_congr' fun before => forall_congr' fun iters => forall_congr' fun after => ?_
  constructor
  · intro h has
    obtain ⟨t,hrun⟩ := exists_run s before
    obtain ⟨line,hlines,hshows⟩ := h t has hrun
    rw [execute_lines hlogging hparams (has ▸ haccepted) hrun,hsql] at hlines
    cases List.append_cancel_left hlines
    rw [← bound_names s]
    exact showsLatest_all.mp hshows
  · intro h t has hrun
    refine ⟨_,execute_lines hlogging hparams (has ▸ haccepted) hrun,?_⟩
    rw [hsql]
    refine showsLatest_all.mpr ?_
    rw [bound_names]
    exact h has

end Runs

/-- A database where every call succeeds; what is at an address is the number that it is. -/
def loggingOci : Oci Unit ℕ where
  reply _ _ := (⟨0,0,true,2,[]⟩,())
  hasError _ := true
  logging _ := true
  load _ data len := LittleEndian.toBytes len data
  floatText _ := []

def prepared : Statement Unit :=
  (perform loggingOci (.prepare "INSERT INTO t VALUES (:id)".toList) (init ())).2

def bindId (value : ℕ) : Action Unit ℕ := .call (.bindName "id".toList 3 (some value) 4 none)

theorem logsLatest_iff_once :
    LogsLatest loggingOci "INSERT INTO t VALUES (:id)".toList prepared
        [bindId 7,.call (.execute 1)] ↔
      ∀ before iters after,
        [bindId 7,.call (.execute 1)] = before ++ .call (.execute iters) :: after →
          (boundNames before).Nodup := by
  have haccepted : Transition.Admits (step loggingOci) Accepted prepared
      [bindId 7,.call (.execute 1)] := by decide
  exact logsLatest_iff (fun _ => rfl) () rfl haccepted

/-- A statement that is executed with 7 and then with 8. -/
def rebound : List (Action Unit ℕ) :=
  [bindId 7,.call (.execute 1),bindId 8,.call (.execute 1)]

/-- The second line says `id=7, id=8`. -/
theorem rebound_listed_twice :
    Transition.Admits (step loggingOci) Accepted prepared rebound ∧
      ¬LogsLatest loggingOci "INSERT INTO t VALUES (:id)".toList prepared rebound := by
  refine ⟨by decide,fun h => ?_⟩
  obtain ⟨line,hline,hshows⟩ := h [bindId 7,.call (.execute 1),bindId 8] 1 [] _ rfl rfl
  have hlist : line = lineOf "INSERT INTO t VALUES (:id)".toList
      [("id".toList,['7']),("id".toList,['8'])] :=
    (List.cons.inj (List.append_cancel_left hline)).1.symm
  subst hlist
  exact absurd (showsLatest_all.mp hshows) (by decide)

end OciStatement
end Marketlib
