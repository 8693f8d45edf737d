import Marketlib.ConfigPriority

/-! Overriding a number or a boolean. `set_by_path` stores text, and no typed accessor reads
a text. -/

namespace Marketlib
namespace Config

open Binding Toml

variable {φ δ : Type}

/-- The node at `q`, if there is one, is a string. -/
def Textual (root : Table φ δ) (q : List Text) : Prop :=
  ∀ n, (Node.table root).at q = some n → ∃ s, n = .string s

theorem textual_of_none {root : Table φ δ} {q : List Text}
    (h : (Node.table root).at q = none) : Textual root q := by
  intro n hn
  cases h.symm.trans hn

theorem Textual.set {root : Table φ δ} {q : List Text} (h : Textual root q)
    (path value : Text) : Textual (Config.set root path value) q := by
  have htable : ∀ t, (Node.table root).at q ≠ some (.table t) := by
    intro t ht
    obtain ⟨s,hs⟩ := h _ ht
    cases hs
  intro n hn
  rcases at_set htable path value with hsame | ⟨r,-,-,hr⟩
  · exact h n (hsame ▸ hn)
  · rw [hr] at hn
    cases r with
    | nil =>
      cases hn
      exact ⟨value,rfl⟩
    | cons k r => cases hn

/-- A call makes the node at its own path a string. -/
theorem textual_set_self (root : Table φ δ) (path value : Text) :
    Textual (Config.set root path value) (splitDots path) := by
  rw [Config.set,setByPath_eq]
  cases hassign : assignAt (.string value) root (splitDots path) with
  | none =>
    have hat := assignAt_isSome (.string value) root (splitDots_ne_nil path)
    rw [hassign] at hat
    exact textual_of_none (by simpa using hat.symm)
  | some root' =>
    intro n hn
    have hat := at_assignAt hassign []
    rw [List.append_nil,at_nil] at hat
    exact ⟨value,Option.some.inj (hn.symm.trans hat)⟩

theorem Textual.setAll {root : Table φ δ} {q : List Text} (h : Textual root q)
    (calls : List (Text × Text)) : Textual (Config.setAll calls root) q := by
  induction calls generalizing root with
  | nil => exact h
  | cons call calls ih => exact ih (h.set call.1 call.2)

theorem textual_setAll_of_mem {calls : List (Text × Text)} {call : Text × Text}
    (h : call ∈ calls) (root : Table φ δ) :
    Textual (Config.setAll calls root) (splitDots call.1) := by
  obtain ⟨before,after,rfl⟩ := List.append_of_mem h
  rw [Config.setAll,List.foldl_append]
  exact (textual_set_self _ call.1 call.2).setAll after

theorem Textual.erase {root : Table φ δ} {q : List Text} (h : Textual root q) (hq : q ≠ [])
    (key : Text) : Textual (Toml.erase root key) q := by
  cases q with
  | nil => exact absurd rfl hq
  | cons key' q =>
    by_cases hkey : key' = key
    · subst hkey
      refine textual_of_none ?_
      rw [at_cons,get_erase,if_pos rfl]
      rfl
    · intro n hn
      exact h n (at_erase root hkey q ▸ hn)

theorem Textual.expand {root : Table φ δ} {q : List Text} (h : Textual root q)
    (hordered : Ordered root) (env : Environment) : Textual (expandVarsTable env root) q := by
  intro n hn
  rw [at_expandVarsTable env hordered,Option.map_eq_some_iff] at hn
  obtain ⟨m,hm,rfl⟩ := hn
  obtain ⟨s,rfl⟩ := h m hm
  exact ⟨expandVars env s,rfl⟩

/-! ### The loop over the bindings -/

theorem applyEnvBinding_cases {env : Environment} {root root' : Table φ δ} {name : Text}
    (h : applyEnvBinding env root name = some root') :
    root' = root ∨ ∃ path value, root' = Config.set root path value := by
  rw [applyEnvBinding] at h
  split at h
  · split at h
    · split at h
      · cases h
        exact .inr ⟨_,_,rfl⟩
      · cases h
        exact .inl rfl
    · cases h
      exact .inl rfl
  · cases h

/-- What every call of `set_by_path` keeps, the loop keeps. -/
theorem foldlM_applyEnvBinding_keeps {env : Environment} (P : Table φ δ → Prop)
    (hset : ∀ root path value, P root → P (Config.set root path value)) {names : List Text}
    {root root' : Table φ δ} (h : names.foldlM (applyEnvBinding env) root = some root')
    (hroot : P root) : P root' := by
  induction names generalizing root with
  | nil =>
    cases h
    exact hroot
  | cons name names ih =>
    rw [List.foldlM_cons] at h
    obtain ⟨next,hnext,h⟩ := Option.bind_eq_some_iff.mp h
    refine ih h ?_
    rcases applyEnvBinding_cases hnext with rfl | ⟨path,value,rfl⟩
    · exact hroot
    · exact hset root path value hroot

/-- The loop over `env_bindings` comes to an entry that is then `path`, and the variable the
entry is named after is set to `value`. -/
def Bound (env : Environment) (root : Table φ δ) (path value : Text) : Prop :=
  ∃ bindings before name after state now,
    get root envBindings = some (.table bindings) ∧
    bindings.map Prod.fst = before ++ name :: after ∧
    before.foldlM (applyEnvBinding env) root = some state ∧
    get state envBindings = some (.table now) ∧ get now name = some (.string path) ∧
    getenv env name = some value

/-- While no path leads into `env_bindings`, every entry whose variable is set is bound. -/
theorem bound_of_mem {env : Environment} {root : Table φ δ} (hordered : Ordered root)
    (houtside : ∀ name path, (name,.string path) ∈ bindingsOf root → firstKey path ≠ envBindings)
    {name path value : Text} (hmem : (name,.string path) ∈ bindingsOf root)
    (hset : getenv env name = some value) : Bound env root path value := by
  rw [bindingsOf] at houtside hmem
  cases hsub : subTable root envBindings with
  | none =>
    rw [hsub] at hmem
    cases hmem
  | some bindings =>
    rw [hsub,Option.getD_some] at houtside hmem
    have hget := subTable_eq_some.mp hsub
    obtain ⟨hkeys,-⟩ := hordered.of_get hget
    obtain ⟨before,after,rfl⟩ := List.append_of_mem hmem
    have houtside' : ∀ name path, (name,.string path) ∈ before → firstKey path ≠ envBindings :=
      fun name path h => houtside name path (List.mem_append_left _ h)
    have hloop := foldlM_applyEnvBinding env hget before
      (fun name n h => get_of_mem hkeys (List.mem_append_left _ h)) houtside'
    refine ⟨_,before.map Prod.fst,name,after.map Prod.fst,_,_,hget,?_,hloop,?_,
      get_of_mem hkeys hmem,hset⟩
    · rw [List.map_append,List.map_cons]
    · rw [get_setAll_other,hget]
      intro call hcall
      obtain ⟨name,h,-⟩ := mem_bindingCalls hcall
      exact houtside' name call.1 h

theorem foldlM_ordered {env : Environment} {names : List Text} {root root' : Table φ δ}
    (h : names.foldlM (applyEnvBinding env) root = some root') (hroot : Ordered root) :
    Ordered root' :=
  foldlM_applyEnvBinding_keeps Ordered (fun _ path value h => set_ordered h path value) h hroot

theorem applyEnvBindings_ordered {env : Environment} {root tbl : Table φ δ}
    (h : applyEnvBindings env root = some tbl) (hroot : Ordered root) : Ordered tbl := by
  rw [applyEnvBindings] at h
  split at h
  · obtain ⟨last,hlast,h⟩ := Option.bind_eq_some_iff.mp h
    obtain ⟨_,-,h⟩ := Option.bind_eq_some_iff.mp h
    cases h
    exact (foldlM_ordered hlast hroot).erase envBindings
  · cases h
    exact hroot

/-- The path of a bound variable holds a string after the loop, if anything. -/
theorem textual_of_bound {env : Environment} {root tbl : Table φ δ} {path value : Text}
    (hbound : Bound env root path value) (h : applyEnvBindings env root = some tbl) :
    Textual tbl (splitDots path) := by
  obtain ⟨bindings,before,name,after,state,now,hget,hnames,hbefore,hstate,hentry,henv⟩ := hbound
  rw [applyEnvBindings,hget] at h
  obtain ⟨last,hlast,h⟩ := Option.bind_eq_some_iff.mp h
  obtain ⟨_,-,h⟩ := Option.bind_eq_some_iff.mp h
  cases h
  have hturn : applyEnvBinding env state name = some (Config.set state path value) := by
    rw [applyEnvBinding,hstate]
    simp only [hentry,henv]
  rw [hnames,List.foldlM_append,hbefore] at hlast
  replace hlast : after.foldlM (applyEnvBinding env) (Config.set state path value) = some last := by
    rw [← hlast,Option.bind_eq_bind,Option.bind_some,List.foldlM_cons,hturn]
    rfl
  have htext := foldlM_applyEnvBinding_keeps (fun root => Textual root (splitDots path))
    (fun _ path' value' h => h.set path' value') hlast (textual_set_self state path value)
  exact htext.erase (splitDots_ne_nil path) envBindings

/-! ### What the accessors read -/

/-- A value of one of the types that `get_int`, `get_double` and `get_bool` return. -/
inductive Number (φ : Type)
  | integer (i : Int64)
  | float (x : φ)
  | boolean (b : Bool)

/-- The accessor of the value's type returns it. -/
def Config.Reads (conv : Conversions φ) (cfg : Config φ δ) (key : Text) : Number φ → Prop
  | .integer i => cfg.getInt conv key = some i
  | .float x => cfg.getDouble conv key = some x
  | .boolean b => cfg.getBool conv key = some b

theorem at_of_sectionAt {root : Table φ δ} {sect key : Text} {n : Node φ δ}
    (h : ((⟨some root⟩ : Config φ δ).sectionAt sect).node key = some n) :
    (Node.table root).at (sectionKeys sect ++ [key]) = some n := by
  obtain ⟨sub,hsub,hget⟩ := Option.bind_eq_some_iff.mp h
  rw [at_append,walkPath_eq_some.mp hsub,Option.bind_some,at_cons,hget]
  rfl

/-- No accessor reads a number where the node can only be a string. -/
theorem not_reads_of_textual (conv : Conversions φ) {root : Table φ δ} {sect key : Text}
    (h : Textual root (sectionKeys sect ++ [key])) (v : Number φ) :
    ¬((⟨some root⟩ : Config φ δ).sectionAt sect).Reads conv key v := by
  have hnode : ∀ n, ((⟨some root⟩ : Config φ δ).sectionAt sect).node key = some n →
      ∃ s, n = .string s := fun n hn => h n (at_of_sectionAt hn)
  intro hreads
  cases v with
  | integer i =>
    obtain ⟨n,hn,hi⟩ := Option.bind_eq_some_iff.mp hreads
    obtain ⟨s,rfl⟩ := hnode n hn
    cases hi
  | float x =>
    obtain ⟨n,hn,hx⟩ := Option.bind_eq_some_iff.mp hreads
    obtain ⟨s,rfl⟩ := hnode n hn
    cases hx
  | boolean b =>
    obtain ⟨n,hn,hb⟩ := Option.bind_eq_some_iff.mp hreads
    obtain ⟨s,rfl⟩ := hnode n hn
    cases hb

/-- After `load`, what stands where an override or a bound variable points is text. -/
theorem textual_of_load {doc : Document φ δ} {env : Environment} {overrides : List Text}
    {path value : Text} {cfg : Config φ δ}
    (hload : load (.parsed doc) env overrides = some (.ok cfg))
    (hvalue : (path,value) ∈ overrideCalls overrides ∨ Bound env doc.root path value) :
    ∃ root, cfg = ⟨some root⟩ ∧ Textual root (splitDots path) := by
  obtain ⟨tbl,htbl,hcfg⟩ := Option.bind_eq_some_iff.mp hload
  cases hcfg
  refine ⟨_,rfl,Textual.expand ?_ ?_ env⟩
  · rw [applyOverrides_eq]
    rcases hvalue with hcall | hbound
    · exact textual_setAll_of_mem hcall tbl
    · exact (textual_of_bound hbound htbl).setAll _
  · rw [applyOverrides_eq]
    exact setAll_ordered (applyEnvBindings_ordered htbl doc.ordered) _

/-- A key that an override or a bound variable names is read as no number, whatever the
file has there and whatever the text is. -/
theorem load_not_reads_overridden (conv : Conversions φ) {doc : Document φ δ} {env : Environment}
    {overrides : List Text} {sect key path value : Text}
    (hpath : splitDots path = sectionKeys sect ++ [key])
    (hvalue : (path,value) ∈ overrideCalls overrides ∨ Bound env doc.root path value)
    (v : Number φ) :
    ¬∃ cfg : Config φ δ, load (.parsed doc) env overrides = some (.ok cfg) ∧
      (cfg.sectionAt sect).Reads conv key v := by
  rintro ⟨cfg,hload,hreads⟩
  obtain ⟨root,rfl,htext⟩ := textual_of_load hload hvalue
  rw [hpath] at htext
  exact not_reads_of_textual conv htext v hreads

/-- Conversions between whole numbers and fractions; a boolean is read as 0 or 1. -/
def exampleConversions : Conversions ℚ where
  floatToInteger x := if x.den = 1 then some (Int64.ofInt x.num) else none
  booleanToInteger b := some (if b then 1 else 0)
  integerToFloat i := some i.toInt
  booleanToFloat b := some (if b then 1 else 0)
  integerToBoolean i := some (i ≠ 0)
  floatToBoolean _ := none

theorem feedPort_keys :
    splitDots "feed.port".toList = sectionKeys "feed".toList ++ ["port".toList] := by
  have hsplit : splitDots (joinDots ["feed".toList,"port".toList]) = _ :=
    splitDots_joinDots nofun (by decide)
  have hsection : sectionKeys (joinDots ["feed".toList]) = _ := sectionKeys_joinDots (by decide)
  exact hsplit.trans (congrArg (· ++ ["port".toList]) hsection.symm)

theorem load_not_reads_overridden_port :
    ¬∃ cfg : Config ℚ Unit,
      load (.parsed exampleDocument) exampleEnvironment ["feed.port=9001".toList] =
        some (.ok cfg) ∧
      (cfg.sectionAt "feed".toList).Reads exampleConversions "port".toList (.integer 9001) := by
  have hcall : ("feed.port".toList,"9001".toList) ∈
      overrideCalls ["feed.port=9001".toList] := by decide
  exact load_not_reads_overridden exampleConversions feedPort_keys (.inl hcall) (.integer 9001)

/-- The file has 26477 there, the override says 9001, and no integer is read. -/
theorem overridden_port_is_no_integer :
    (Node.table exampleDocument.root).at ["feed".toList,"port".toList] = some (.integer 26477) ∧
    ∃ cfg : Config ℚ Unit,
      load (.parsed exampleDocument) exampleEnvironment ["feed.port=9001".toList] =
        some (.ok cfg) ∧
      (cfg.sectionAt "feed".toList).getInt exampleConversions "port".toList = none := by
  have houtside : ∀ name path, (name,.string path) ∈ bindingsOf exampleDocument.root →
      firstKey path ≠ envBindings := by
    intro name path hmem
    cases List.mem_singleton.mp hmem
    decide
  obtain ⟨tbl,htbl,-,-,-⟩ :=
    applyEnvBindings_spec exampleEnvironment exampleDocument.ordered houtside
  have hload : load (.parsed exampleDocument) exampleEnvironment ["feed.port=9001".toList] =
      some (.ok ⟨some (expandVarsTable exampleEnvironment
        (applyOverrides tbl ["feed.port=9001".toList]))⟩) := by
    rw [load,htbl]
    rfl
  have hcall : ("feed.port".toList,"9001".toList) ∈
      overrideCalls ["feed.port=9001".toList] := by decide
  obtain ⟨root,hroot,htext⟩ := textual_of_load hload (.inl hcall)
  rw [feedPort_keys] at htext
  refine ⟨rfl,⟨some root⟩,hroot ▸ hload,Option.eq_none_iff_forall_ne_some.mpr fun i hi => ?_⟩
  exact not_reads_of_textual exampleConversions htext (.integer i) hi

end Config
end Marketlib
