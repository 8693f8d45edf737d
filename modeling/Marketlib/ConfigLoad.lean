import Marketlib.TomlTree

/-! `Config::load`: the environment bindings, the overrides and the expansion of variables,
one pass after the other over the parsed document, and the accessors. -/

namespace Marketlib
namespace Config

open Binding Toml

variable {φ δ : Type}

/-- `std::getenv`, by name. -/
abbrev Environment := Text → Option Text

/-- The name handed to `std::getenv` ends at its first null character. -/
def getenv (env : Environment) (name : Text) : Option Text :=
  env (name.takeWhile fun c => c ≠ '\x00')

/-- `path.substr(0, path.find('.'))`. -/
def firstKey (path : Text) : Text := path.takeWhile fun c => c ≠ '.'

/-- What follows the first dot, if there is one. -/
def afterDot (path : Text) : Option Text := (path.dropWhile fun c => c ≠ '.').tail?

theorem afterDot_length {path rest : Text} (h : afterDot path = some rest) :
    rest.length < path.length := by
  have hle := (List.dropWhile_suffix (l := path) fun c => c ≠ '.').length_le
  rw [afterDot] at h
  cases hdrop : path.dropWhile (fun c => c ≠ '.') with
  | nil => rw [hdrop] at h; cases h
  | cons c cs =>
    rw [hdrop] at h hle
    cases h
    exact hle

/-- `walk_path`. -/
def walkPath (cur : Table φ δ) (rem : Text) : Option (Table φ δ) :=
  if rem = [] then some cur
  else
    (subTable cur (firstKey rem)).bind fun sub =>
      match h : afterDot rem with
      | none => some sub
      | some rest => walkPath sub rest
termination_by rem.length
decreasing_by exact afterDot_length h

/-- `set_by_path`: the changed table, or none where it returns false. -/
def setByPath (cur : Table φ δ) (rem value : Text) : Option (Table φ δ) :=
  match h : afterDot rem with
  | none => (get cur rem).map fun _ => insertOrAssign rem (.string value) cur
  | some rest =>
    (subTable cur (firstKey rem)).bind fun sub =>
      (setByPath sub rest value).map fun sub => insertOrAssign (firstKey rem) (.table sub) cur
termination_by rem.length
decreasing_by exact afterDot_length h

/-- `set_by_path` on a table that stays as it is when nothing is set. -/
def set (root : Table φ δ) (path value : Text) : Table φ δ := (setByPath root path value).getD root

/-- The text up to a closing brace, and what follows it. -/
def untilBrace : Text → Option (Text × Text)
  | [] => none
  | c :: s => if c = '}' then some ([],s) else (untilBrace s).map fun (var,rest) => (c :: var,rest)

theorem untilBrace_length {s var rest : Text} (h : untilBrace s = some (var,rest)) :
    rest.length < s.length := by
  induction s generalizing var with
  | nil => cases h
  | cons c s ih =>
    rw [untilBrace] at h
    split_ifs at h with hc
    · cases h
      exact Nat.lt_succ_self _
    · obtain ⟨⟨v,r⟩,hv,heq⟩ := Option.map_eq_some_iff.mp h
      cases heq
      exact (ih hv).trans (Nat.lt_succ_self _)

/-- `expand_vars`. -/
def expandVars (env : Environment) (s : Text) : Text :=
  match s with
  | [] => []
  | '$' :: '{' :: tail =>
    match h : untilBrace tail with
    | some (var,rest) =>
      (getenv env var).getD ('$' :: '{' :: var ++ ['}']) ++ expandVars env rest
    | none => '$' :: expandVars env ('{' :: tail)
  | c :: tail => c :: expandVars env tail
termination_by s.length
decreasing_by
  all_goals simp only [List.length_cons]
  · have := untilBrace_length h
    omega
  all_goals omega

/-- The text of a string that expansion changes. -/
def expansion (env : Environment) : Node φ δ → Option Text
  | .string s => if expandVars env s ≠ s then some (expandVars env s) else none
  | _ => none

/-- `mods` of `expand_vars_table`. -/
def expansions (env : Environment) (t : Table φ δ) : List (Text × Text) :=
  t.filterMap fun (key,n) => (expansion env n).map fun value => (key,value)

/-- The last loop of `expand_vars_table`. -/
def assignAll (mods : List (Text × Text)) (t : Table φ δ) : Table φ δ :=
  mods.foldl (fun t (key,value) => insertOrAssign key (.string value) t) t

mutual

/-- `expand_vars_table` on the tables among the nodes. -/
def expandNode (env : Environment) : Node φ δ → Node φ δ
  | .table t => .table (assignAll (expansions env t) (expandEntries env t))
  | .string s => .string s
  | .integer i => .integer i
  | .float x => .float x
  | .boolean b => .boolean b
  | .dateTime d => .dateTime d
  | .array elems => .array elems

def expandEntries (env : Environment) : List (Text × Node φ δ) → List (Text × Node φ δ)
  | [] => []
  | e :: t => expandEntry env e :: expandEntries env t

def expandEntry (env : Environment) : Text × Node φ δ → Text × Node φ δ
  | (key,n) => (key,expandNode env n)

end

/-- `expand_vars_table`. -/
def expandVarsTable (env : Environment) (t : Table φ δ) : Table φ δ :=
  assignAll (expansions env t) (expandEntries env t)

/-- The key `env_bindings`. -/
def envBindings : Text := ['e','n','v','_','b','i','n','d','i','n','g','s']

/-- One turn of the loop in `apply_env_bindings`. It reads the entry as it now is, and there
is no next state once the table it iterates over is gone. -/
def applyEnvBinding (env : Environment) (root : Table φ δ) (name : Text) :
    Option (Table φ δ) :=
  match get root envBindings with
  | some (.table bindings) =>
    match get bindings name with
    | some (.string path) =>
      match getenv env name with
      | some value => some (set root path value)
      | none => some root
    | _ => some root
  | _ => none

/-- `apply_env_bindings`. -/
def applyEnvBindings (env : Environment) (root : Table φ δ) : Option (Table φ δ) :=
  match get root envBindings with
  | some (.table bindings) => do
    let root ← (bindings.map Prod.fst).foldlM (applyEnvBinding env) root
    -- the step that ends the loop reads the table too
    let _ ← subTable root envBindings
    return erase root envBindings
  | _ => some root

/-- The path and the value of an override, split at the first `=`. -/
def cutAtEq (kv : Text) : Option (Text × Text) :=
  (kv.dropWhile fun c => c ≠ '=').tail?.map fun value => (kv.takeWhile fun c => c ≠ '=',value)

/-- `apply_overrides`. -/
def applyOverrides (root : Table φ δ) (overrides : List Text) : Table φ δ :=
  overrides.foldl (fun root kv =>
    match cutAtEq kv with
    | none => root
    | some (path,value) => set root path value) root

inductive ConfigError
  | fileNotFound
  | parseError
  deriving DecidableEq

/-- What is at the path that `load` is given. -/
inductive File (φ δ : Type)
  | missing
  | malformed
  | parsed (doc : Document φ δ)

/-- `Config`; none is the empty one. -/
structure Config (φ δ : Type) where
  impl : Option (Table φ δ)

/-- `Config::load`; no result where it would go on reading a destroyed table. -/
def load (file : File φ δ) (env : Environment) (overrides : List Text) :
    Option (Except ConfigError (Config φ δ)) :=
  match file with
  | .missing => some (.error .fileNotFound)
  | .malformed => some (.error .parseError)
  | .parsed doc => do
    let tbl ← applyEnvBindings env doc.root
    return .ok ⟨expandVarsTable env (applyOverrides tbl overrides)⟩

/-! ### Accessors -/

/-- How a node's `value<T>()` converts between the kinds of number; a string is never
converted to one. -/
structure Conversions (φ : Type) where
  floatToInteger : φ → Option Int64
  booleanToInteger : Bool → Option Int64
  integerToFloat : Int64 → Option φ
  booleanToFloat : Bool → Option φ
  integerToBoolean : Int64 → Option Bool
  floatToBoolean : φ → Option Bool

section Accessors

def asString : Node φ δ → Option Text
  | .string s => some s
  | _ => none

variable (conv : Conversions φ)

def asInt : Node φ δ → Option Int64
  | .integer i => some i
  | .float x => conv.floatToInteger x
  | .boolean b => conv.booleanToInteger b
  | _ => none

def asDouble : Node φ δ → Option φ
  | .integer i => conv.integerToFloat i
  | .float x => some x
  | .boolean b => conv.booleanToFloat b
  | _ => none

def asBool : Node φ δ → Option Bool
  | .integer i => conv.integerToBoolean i
  | .float x => conv.floatToBoolean x
  | .boolean b => some b
  | _ => none

namespace Config

variable (cfg : Config φ δ)

/-- `impl_->table[key]`. -/
def node (key : Text) : Option (Node φ δ) := cfg.impl.bind fun t => get t key

def getString (key : Text) : Option Text := (cfg.node key).bind asString

def getInt (key : Text) : Option Int64 := (cfg.node key).bind (asInt conv)

def getDouble (key : Text) : Option φ := (cfg.node key).bind (asDouble conv)

def getBool (key : Text) : Option Bool := (cfg.node key).bind (asBool conv)

/-- `Config::section`, the empty `Config` where the path does not lead to a table. -/
def sectionAt (path : Text) : Config φ δ := ⟨cfg.impl.bind fun t => walkPath t path⟩

end Config
end Accessors
end Config
end Marketlib
