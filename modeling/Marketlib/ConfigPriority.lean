import Mathlib.Data.Rat.Defs
import Marketlib.ConfigPasses

/-! Which of a key's values `Config::load` keeps: the last override, else the last bound
variable that is set, else the file's. -/

namespace Marketlib
namespace Config

open Binding Toml

variable {φ δ : Type}

/-! ### Runs of `set_by_path` -/

/-- Calls of `set_by_path` one after the other, each a path and a value. -/
def setAll (calls : List (Text × Text)) (root : Table φ δ) : Table φ δ :=
  calls.foldl (fun root call => set root call.1 call.2) root

/-- The value of the last call on a path. -/
def lastValue (calls : List (Text × Text)) (path : Text) : Option Text :=
  (calls.filterMap fun call => if call.1 = path then some call.2 else none).getLast?

theorem lastValue_cons (call : Text × Text) (calls : List (Text × Text)) (path : Text) :
    lastValue (call :: calls) path =
      (lastValue calls path).or (if call.1 = path then some call.2 else none) := by
  rw [lastValue,List.filterMap_cons,lastValue]
  split_ifs with h
  · rw [List.getLast?_cons]
    cases (calls.filterMap _).getLast? <;> rfl
  · rw [Option.or_none]

/-- A node that is no table changes only with a call on its path or above it. -/
theorem at_set {root : Table φ δ} {q : List Text}
    (h : ∀ t, (Node.table root).at q ≠ some (.table t)) (path value : Text) :
    (Node.table (set root path value)).at q = (Node.table root).at q ∨
      ∃ r, q = splitDots path ++ r ∧ ((Node.table root).at (splitDots path)).isSome ∧
        (Node.table (set root path value)).at q = (Node.string value).at r := by
  rw [set,setByPath_eq]
  cases hassign : assignAt (.string value) root (splitDots path) with
  | none => exact .inl rfl
  | some root' =>
    have hat := assignAt_isSome (.string value) root (splitDots_ne_nil path)
    rw [hassign] at hat
    by_cases hpq : splitDots path <+: q
    · obtain ⟨r,rfl⟩ := hpq
      exact .inr ⟨r,rfl,hat.symm,at_assignAt hassign r⟩
    · refine .inl (at_assignAt_other hassign hpq ?_)
      rintro ⟨r,hr⟩
      have hne : r ≠ [] := by
        rintro rfl
        exact hpq ⟨[],by rw [← hr,List.append_nil,List.append_nil]⟩
      rw [← hr,at_append] at hat
      cases hq : (Node.table root).at q with
      | none => rw [hq] at hat; cases hat
      | some n =>
        rw [hq] at hat h
        rw [Option.bind_some,at_of_not_table (fun t ht => h t (congrArg some ht)) hne] at hat
        cases hat

theorem set_ordered {root : Table φ δ} (h : Ordered root) (path value : Text) :
    Ordered (set root path value) := by
  rw [set,setByPath_eq]
  cases hassign : assignAt (.string value) root (splitDots path) with
  | none => exact h
  | some root' => exact h.assignAt (fun sub hsub => by cases hsub) hassign

theorem setAll_ordered {root : Table φ δ} (h : Ordered root) (calls : List (Text × Text)) :
    Ordered (setAll calls root) := by
  induction calls generalizing root with
  | nil => exact h
  | cons call calls ih => exact ih (set_ordered h call.1 call.2)

/-! ### Expansion -/

/-- A node after `expand_vars_table`. -/
def expanded (env : Environment) : Node φ δ → Node φ δ
  | .string s => .string (expandVars env s)
  | n => expandNode env n

theorem get_assignAll (mods : List (Text × Text)) (t : Table φ δ) (key : Text) :
    get (assignAll mods t) key = ((lastValue mods key).map Node.string).or (get t key) := by
  induction mods generalizing t with
  | nil => rfl
  | cons m mods ih =>
    obtain ⟨k,v⟩ := m
    refine (ih (insertOrAssign k (.string v) t)).trans ?_
    rw [lastValue_cons,get_insertOrAssign]
    cases lastValue mods key with
    | some w => rfl
    | none =>
      by_cases hk : key = k
      · subst hk
        simp
      · simp [hk,Ne.symm hk]

theorem get_expandEntries (env : Environment) (t : Table φ δ) (key : Text) :
    get (expandEntries env t) key = (get t key).map (expandNode env) := by
  induction t with
  | nil => simp only [expandEntries]; rfl
  | cons e t ih =>
    obtain ⟨k,n⟩ := e
    rw [expandEntries,expandEntry,get_cons,get_cons,ih]
    split_ifs <;> rfl

theorem lastValue_expansions_cons (env : Environment) (k : Text) (n : Node φ δ) (t : Table φ δ)
    (key : Text) : lastValue (expansions env ((k,n) :: t)) key =
      (lastValue (expansions env t) key).or (if k = key then expansion env n else none) := by
  cases hn : expansion env n with
  | none => simp [expansions,hn]
  | some value =>
    have hcons : expansions env ((k,n) :: t) = (k,value) :: expansions env t := by
      simp [expansions,hn]
    rw [hcons,lastValue_cons]

/-- Where keys are distinct, a key is modified for its own string only. -/
theorem lastValue_expansions (env : Environment) {t : Table φ δ}
    (hkeys : (t.map Prod.fst).Pairwise (· < ·)) (key : Text) :
    lastValue (expansions env t) key = (get t key).bind (expansion env) := by
  induction t with
  | nil => rfl
  | cons e t ih =>
    obtain ⟨k,n⟩ := e
    obtain ⟨hfirst,hkeys⟩ := List.pairwise_cons.mp hkeys
    rw [lastValue_expansions_cons,ih hkeys,get_cons]
    by_cases hk : k = key
    · have hget : get t key = none := by
        cases hget : get t key with
        | none => rfl
        | some m =>
          have hlt := hfirst key (List.mem_map_of_mem (f := Prod.fst) (mem_of_get hget))
          exact absurd hk hlt.ne
      rw [hget,if_pos hk,if_pos hk.symm]
      rfl
    · rw [if_neg hk,if_neg (Ne.symm hk),Option.or_none]

theorem expanded_eq (env : Environment) (n : Node φ δ) :
    ((expansion env n).map Node.string).or (some (expandNode env n)) = some (expanded env n) := by
  cases n with
  | string s =>
    rw [expansion,expanded]
    split_ifs with h
    · rfl
    · rw [of_not_not h,expandNode]
      rfl
  | _ => rfl

theorem get_expandVarsTable (env : Environment) {t : Table φ δ}
    (hkeys : (t.map Prod.fst).Pairwise (· < ·)) (key : Text) :
    get (expandVarsTable env t) key = (get t key).map (expanded env) := by
  rw [expandVarsTable,get_assignAll,get_expandEntries,lastValue_expansions env hkeys]
  cases get t key with
  | none => rfl
  | some n => exact expanded_eq env n

/-- Expansion keeps every path and expands the strings. -/
theorem at_expandVarsTable (env : Environment) {t : Table φ δ} (h : Ordered t) (q : List Text) :
    (Node.table (expandVarsTable env t)).at q = ((Node.table t).at q).map (expanded env) := by
  induction q generalizing t with
  | nil => simp only [at_nil,Option.map_some,expanded,expandNode,expandVarsTable]
  | cons key q ih =>
    obtain ⟨hkeys,hbelow⟩ := id h
    rw [at_cons,at_cons,get_expandVarsTable env hkeys]
    cases hget : get t key with
    | none => rfl
    | some n =>
      cases n with
      | table sub =>
        have hsub := ih (h.of_get hget)
        rwa [expandVarsTable,← expandNode] at hsub
      | _ =>
        simp only [Option.map_some,Option.bind_some]
        cases q with
        | nil => rw [at_nil,at_nil]; rfl
        | cons k q => rfl

/-! ### Bindings -/

/-- The calls of `set_by_path` that the entries of `env_bindings` make. -/
def bindingCalls (env : Environment) (bindings : Table φ δ) : List (Text × Text) :=
  bindings.filterMap fun (name,n) =>
    (asString n).bind fun path => (getenv env name).map fun value => (path,value)

theorem applyEnvBinding_eq (env : Environment) {root bindings : Table φ δ} {name : Text}
    {n : Node φ δ} (hroot : get root envBindings = some (.table bindings))
    (hn : get bindings name = some n) :
    applyEnvBinding env root name = some (setAll (bindingCalls env [(name,n)]) root) := by
  rw [applyEnvBinding,hroot]
  simp only [hn]
  cases n with
  | string path => cases h : getenv env name <;> simp [bindingCalls,asString,h,setAll]
  | _ => rfl

/-- A call on a path that starts elsewhere leaves a key alone. -/
theorem get_set_other {root : Table φ δ} {key path : Text} (h : firstKey path ≠ key)
    (value : Text) : get (set root path value) key = get root key := by
  rw [set,setByPath_eq]
  cases hassign : assignAt (.string value) root (splitDots path) with
  | none => rfl
  | some root' =>
    have hat : (Node.table root').at [key] = (Node.table root).at [key] := by
      refine at_assignAt_other hassign ?_ ?_ <;> rw [splitDots,List.cons_prefix_cons]
      · exact fun hle => h hle.1
      · exact fun hle => h hle.1.symm
    simpa [at_cons] using hat

theorem get_setAll_other {root : Table φ δ} {key : Text} {calls : List (Text × Text)}
    (h : ∀ call ∈ calls, firstKey call.1 ≠ key) : get (setAll calls root) key = get root key := by
  induction calls generalizing root with
  | nil => rfl
  | cons call calls ih =>
    obtain ⟨hcall,hcalls⟩ := List.forall_mem_cons.mp h
    exact (ih hcalls).trans (get_set_other hcall call.2)

theorem mem_bindingCalls {env : Environment} {bindings : Table φ δ} {call : Text × Text}
    (h : call ∈ bindingCalls env bindings) :
    ∃ name, (name,.string call.1) ∈ bindings ∧ getenv env name = some call.2 := by
  rw [bindingCalls,List.mem_filterMap] at h
  obtain ⟨⟨name,n⟩,hmem,heq⟩ := h
  obtain ⟨path,hpath,heq⟩ := Option.bind_eq_some_iff.mp heq
  obtain ⟨value,hvalue,rfl⟩ := Option.map_eq_some_iff.mp heq
  cases n with
  | string s =>
    cases hpath
    exact ⟨name,hmem,hvalue⟩
  | _ => cases hpath

/-- While no path leads into `env_bindings`, its loop makes the calls in the table's order. -/
theorem foldlM_applyEnvBinding (env : Environment) {root bindings : Table φ δ}
    (hroot : get root envBindings = some (.table bindings)) (entries : Table φ δ)
    (hentries : ∀ name n, (name,n) ∈ entries → get bindings name = some n)
    (houtside : ∀ name path, (name,.string path) ∈ entries → firstKey path ≠ envBindings) :
    (entries.map Prod.fst).foldlM (applyEnvBinding env) root =
      some (setAll (bindingCalls env entries) root) := by
  induction entries generalizing root with
  | nil => rfl
  | cons e entries ih =>
    obtain ⟨name,n⟩ := e
    have hstep := applyEnvBinding_eq env hroot (hentries name n List.mem_cons_self)
    have hkeep : get (setAll (bindingCalls env [(name,n)]) root) envBindings =
        some (.table bindings) := by
      rw [get_setAll_other,hroot]
      intro call hcall
      obtain ⟨name',hmem,-⟩ := mem_bindingCalls hcall
      exact houtside name' call.1 (List.mem_cons.mpr (.inl (List.mem_singleton.mp hmem)))
    rw [List.map_cons,List.foldlM_cons,hstep]
    refine (ih hkeep (fun name n hmem => hentries name n (List.mem_cons_of_mem _ hmem))
      fun name path hmem => houtside name path (List.mem_cons_of_mem _ hmem)).trans ?_
    have hcalls : bindingCalls env ((name,n) :: entries) =
        bindingCalls env [(name,n)] ++ bindingCalls env entries :=
      List.filterMap_append (l := [(name,n)])
    rw [hcalls,setAll,setAll,setAll,List.foldl_append]

/-- The entries of `env_bindings`; none where it is no table. -/
def bindingsOf (root : Table φ δ) : Table φ δ := (subTable root envBindings).getD []

/-- What `apply_env_bindings` leaves behind. -/
theorem applyEnvBindings_spec (env : Environment) {root : Table φ δ} (h : Ordered root)
    (houtside : ∀ name path, (name,.string path) ∈ bindingsOf root → firstKey path ≠ envBindings) :
    ∃ tbl, applyEnvBindings env root = some tbl ∧ Ordered tbl ∧
      (∀ q, q ≠ [] → q.head? ≠ some envBindings → (Node.table tbl).at q =
        (Node.table (setAll (bindingCalls env (bindingsOf root)) root)).at q) ∧
      ((subTable root envBindings).isSome → get tbl envBindings = none) := by
  rw [bindingsOf] at houtside ⊢
  rw [applyEnvBindings]
  cases hsub : subTable root envBindings with
  | some bindings =>
    have hget := subTable_eq_some.mp hsub
    rw [hsub] at houtside
    obtain ⟨hkeys,-⟩ := h.of_get hget
    have hloop := foldlM_applyEnvBinding env hget bindings
      (fun name n hmem => get_of_mem hkeys hmem) houtside
    have hkept : subTable (setAll (bindingCalls env bindings) root) envBindings = some bindings := by
      rw [subTable_eq_some,get_setAll_other,hget]
      intro call hcall
      obtain ⟨name,hmem,-⟩ := mem_bindingCalls hcall
      exact houtside name call.1 hmem
    rw [hget]
    simp only [hloop,Option.bind_eq_bind,Option.bind_some,hkept]
    refine ⟨_,rfl,(setAll_ordered h _).erase envBindings,?_,fun _ => ?_⟩
    · intro q hq hhead
      cases q with
      | nil => exact absurd rfl hq
      | cons key q => exact at_erase _ (fun hkey => hhead (congrArg some hkey)) q
    · rw [get_erase,if_pos rfl]
  | none =>
    have hroot : ∀ bindings, get root envBindings ≠ some (.table bindings) := by
      intro bindings hget
      rw [subTable_eq_some.mpr hget] at hsub
      cases hsub
    split
    · exact absurd ‹_› (hroot _)
    · exact ⟨root,rfl,h,fun q _ _ => rfl,nofun⟩

/-- The calls of `set_by_path` that the overrides make. -/
def overrideCalls (overrides : List Text) : List (Text × Text) := overrides.filterMap cutAtEq

theorem applyOverrides_eq (root : Table φ δ) (overrides : List Text) :
    applyOverrides root overrides = setAll (overrideCalls overrides) root := by
  rw [applyOverrides,setAll,overrideCalls,List.foldl_filterMap]
  congr
  funext root kv
  cases cutAtEq kv <;> rfl

theorem getString_sectionAt {root : Table φ δ} {keys : List Text} {key x : Text}
    (hkeys : ∀ k ∈ keys, k ≠ [] ∧ '.' ∉ k)
    (h : (Node.table root).at (keys ++ [key]) = some (.string x)) :
    ((⟨some root⟩ : Config φ δ).sectionAt (joinDots keys)).getString key = some x := by
  rw [Config.getString,node_sectionAt root hkeys,h]
  rfl

/-- A part of `config/example.toml`. -/
def exampleDocument : Document ℚ Unit where
  root := [
    (envBindings,.table [("SLEEPY_LOG_DIR".toList,.string "logging.dir".toList)]),
    ("feed".toList,.table [("port".toList,.integer 26477)]),
    ("logging".toList,.table [
      ("dir".toList,.string "${SLEEPY_RUN_DIR}/logs".toList),
      ("level".toList,.string "info".toList),
      ("max_files".toList,.integer 5)])]
  ordered := by
    have hleaf : ∀ t : Table ℚ Unit, (t.map Prod.fst).Pairwise (· < ·) →
        (∀ e ∈ t, e.2.asTable = none) → Ordered t := by
      intro t hkeys hnone
      refine .intro hkeys fun key sub hmem => ?_
      cases hnone _ hmem
    refine .intro (by decide) fun key sub hmem => ?_
    rcases List.mem_cons.mp hmem with h | h
    · cases h
      exact hleaf _ (by decide) (by simp [Node.asTable])
    rcases List.mem_cons.mp h with h | h
    · cases h
      exact hleaf _ (by decide) (by simp [Node.asTable])
    · cases List.mem_singleton.mp h
      exact hleaf _ (by decide) (by simp [Node.asTable])

/-- `SLEEPY_LOG_DIR` is bound to `logging.dir` and set. -/
def exampleEnvironment : Environment := fun name =>
  if name = "SLEEPY_LOG_DIR".toList then some "${SLEEPY_RUN_DIR}/debug".toList
  else if name = "SLEEPY_RUN_DIR".toList then some "/run".toList
  else none

end Config
end Marketlib
