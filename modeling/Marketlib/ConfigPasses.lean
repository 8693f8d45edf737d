import Marketlib.ConfigLoad

/-! What each pass of `Config::load` does to the node at a path. -/

namespace Marketlib
namespace Config

open Binding Toml

variable {φ δ : Type}

/-! ### Paths as lists of keys -/

/-- The keys that `set_by_path` visits. -/
def splitDots (path : Text) : List Text :=
  firstKey path ::
    match h : afterDot path with
    | none => []
    | some rest => splitDots rest
termination_by path.length
decreasing_by exact afterDot_length h

/-- The keys that `walk_path` visits: it stops where nothing is left, also after a dot. -/
def sectionKeys (path : Text) : List Text :=
  if path = [] then []
  else
    firstKey path ::
      match h : afterDot path with
      | none => []
      | some rest => sectionKeys rest
termination_by path.length
decreasing_by exact afterDot_length h

/-- A path ends at a key without a dot. -/
@[elab_as_elim] theorem path_induction {motive : Text → Prop}
    (last : ∀ path, afterDot path = none → motive path)
    (dot : ∀ path rest, afterDot path = some rest → motive rest → motive path) (path : Text) :
    motive path := by
  induction hn : path.length using Nat.strong_induction_on generalizing path with
  | _ n ih =>
    subst hn
    cases h : afterDot path with
    | none => exact last path h
    | some rest => exact dot path rest h (ih _ (afterDot_length h) rest rfl)

theorem firstKey_of_no_dot {path : Text} (h : afterDot path = none) : firstKey path = path := by
  have hsplit := List.takeWhile_append_dropWhile (p := fun c => decide (c ≠ '.')) (l := path)
  rw [afterDot] at h
  cases hdrop : path.dropWhile (fun c => c ≠ '.') with
  | nil => rwa [hdrop,List.append_nil] at hsplit
  | cons c cs => rw [hdrop] at h; cases h

theorem firstKey_cons {c : Char} (h : c ≠ '.') (path : Text) :
    firstKey (c :: path) = c :: firstKey path := by
  simp [firstKey,h]

theorem afterDot_cons {c : Char} (h : c ≠ '.') (path : Text) :
    afterDot (c :: path) = afterDot path := by
  simp [afterDot,h]

theorem splitDots_last {path : Text} (h : afterDot path = none) : splitDots path = [path] := by
  rw [splitDots,firstKey_of_no_dot h]
  split
  · rfl
  · simp_all

theorem splitDots_dot {path rest : Text} (h : afterDot path = some rest) :
    splitDots path = firstKey path :: splitDots rest := by
  rw [splitDots]
  split <;> simp_all

theorem splitDots_ne_nil (path : Text) : splitDots path ≠ [] := by
  rw [splitDots]
  exact nofun

theorem sectionKeys_last {path : Text} (hpath : path ≠ []) (h : afterDot path = none) :
    sectionKeys path = [path] := by
  rw [sectionKeys,if_neg hpath,firstKey_of_no_dot h]
  split
  · rfl
  · simp_all

theorem sectionKeys_dot {path rest : Text} (h : afterDot path = some rest) :
    sectionKeys path = firstKey path :: sectionKeys rest := by
  have hpath : path ≠ [] := by
    rintro rfl
    cases h
  rw [sectionKeys,if_neg hpath]
  split <;> simp_all

theorem setByPath_last {path : Text} (h : afterDot path = none) (t : Table φ δ) (value : Text) :
    setByPath t path value = (get t path).map fun _ => insertOrAssign path (.string value) t := by
  rw [setByPath]
  split
  · rfl
  · simp_all

theorem setByPath_dot {path rest : Text} (h : afterDot path = some rest) (t : Table φ δ)
    (value : Text) : setByPath t path value = (subTable t (firstKey path)).bind fun sub =>
      (setByPath sub rest value).map fun sub => insertOrAssign (firstKey path) (.table sub) t := by
  rw [setByPath]
  split <;> simp_all

/-- `set_by_path` assigns at the keys of its path. -/
theorem setByPath_eq (t : Table φ δ) (path value : Text) :
    setByPath t path value = assignAt (.string value) t (splitDots path) := by
  induction path using path_induction generalizing t with
  | last path h => rw [setByPath_last h,splitDots_last h,assignAt_single]
  | dot path rest h ih =>
    rw [setByPath_dot h,splitDots_dot h,assignAt]
    · simp only [ih]
    · exact splitDots_ne_nil rest

theorem walkPath_nil (t : Table φ δ) : walkPath t [] = some t := by
  rw [walkPath,if_pos rfl]

theorem walkPath_last {path : Text} (hpath : path ≠ []) (h : afterDot path = none)
    (t : Table φ δ) : walkPath t path = subTable t path := by
  rw [walkPath,if_neg hpath,firstKey_of_no_dot h]
  split
  · cases subTable t path <;> rfl
  · simp_all

theorem walkPath_dot {path rest : Text} (h : afterDot path = some rest) (t : Table φ δ) :
    walkPath t path = (subTable t (firstKey path)).bind fun sub => walkPath sub rest := by
  have hpath : path ≠ [] := by
    rintro rfl
    cases h
  rw [walkPath,if_neg hpath]
  split <;> simp_all

/-- `walk_path` leads to the table at the keys of its path. -/
theorem walkPath_eq_some {t sub : Table φ δ} {path : Text} :
    walkPath t path = some sub ↔ (Node.table t).at (sectionKeys path) = some (.table sub) := by
  induction path using path_induction generalizing t with
  | last path h =>
    by_cases hpath : path = []
    · subst hpath
      simp [walkPath_nil,sectionKeys]
    · rw [walkPath_last hpath h,sectionKeys_last hpath h,subTable_eq_some,at_cons]
      simp
  | dot path rest h ih =>
    rw [walkPath_dot h,sectionKeys_dot h,at_cons,Option.bind_eq_some_iff,Option.bind_eq_some_iff]
    simp only [subTable_eq_some,ih]
    constructor
    · rintro ⟨a,hget,ha⟩
      exact ⟨_,hget,ha⟩
    · rintro ⟨n,hget,hn⟩
      obtain ⟨a,rfl⟩ := table_of_at hn
      exact ⟨a,hget,hn⟩

/-! ### Joining keys -/

theorem keys_of_no_dot {key : Text} (h : '.' ∉ key) :
    firstKey key = key ∧ afterDot key = none := by
  have hdrop : key.dropWhile (fun c => c ≠ '.') = [] :=
    List.dropWhile_eq_nil_iff.mpr fun c hc => decide_eq_true fun heq => h (heq ▸ hc)
  have hnone : afterDot key = none := by rw [afterDot,hdrop]; rfl
  exact ⟨firstKey_of_no_dot hnone,hnone⟩

theorem keys_of_dot {key : Text} (h : '.' ∉ key) (rest : Text) :
    firstKey (key ++ '.' :: rest) = key ∧ afterDot (key ++ '.' :: rest) = some rest := by
  induction key with
  | nil => exact ⟨rfl,rfl⟩
  | cons c key ih =>
    obtain ⟨hc,hkey⟩ : '.' ≠ c ∧ '.' ∉ key := by simpa using h
    obtain ⟨hfirst,hafter⟩ := ih hkey
    rw [List.cons_append,firstKey_cons (Ne.symm hc),afterDot_cons (Ne.symm hc),hfirst]
    exact ⟨rfl,hafter⟩

/-- Keys joined by dots. -/
def joinDots (keys : List Text) : Text := ['.'].intercalate keys

theorem joinDots_cons_cons (key key' : Text) (keys : List Text) :
    joinDots (key :: key' :: keys) = key ++ '.' :: joinDots (key' :: keys) := by
  simp [joinDots,List.intercalate]

theorem splitDots_joinDots {keys : List Text} (hne : keys ≠ []) (h : ∀ key ∈ keys, '.' ∉ key) :
    splitDots (joinDots keys) = keys := by
  induction keys with
  | nil => exact absurd rfl hne
  | cons key keys ih =>
    obtain ⟨hkey,hkeys⟩ := List.forall_mem_cons.mp h
    cases keys with
    | nil =>
      have hjoin : joinDots [key] = key := by simp [joinDots,List.intercalate]
      rw [hjoin,splitDots_last (keys_of_no_dot hkey).2]
    | cons key' keys =>
      obtain ⟨hfirst,hafter⟩ := keys_of_dot hkey (joinDots (key' :: keys))
      rw [joinDots_cons_cons,splitDots_dot hafter,hfirst,ih (List.cons_ne_nil key' keys) hkeys]

theorem sectionKeys_joinDots {keys : List Text} (h : ∀ key ∈ keys, key ≠ [] ∧ '.' ∉ key) :
    sectionKeys (joinDots keys) = keys := by
  induction keys with
  | nil => rw [sectionKeys]; rfl
  | cons key keys ih =>
    obtain ⟨⟨hne,hkey⟩,hkeys⟩ := List.forall_mem_cons.mp h
    cases keys with
    | nil =>
      have hjoin : joinDots [key] = key := by simp [joinDots,List.intercalate]
      rw [hjoin,sectionKeys_last hne (keys_of_no_dot hkey).2]
    | cons key' keys =>
      obtain ⟨hfirst,hafter⟩ := keys_of_dot hkey (joinDots (key' :: keys))
      rw [joinDots_cons_cons,sectionKeys_dot hafter,hfirst,ih hkeys]

/-- A key read through a section is the node at the end of the whole path. -/
theorem node_sectionAt (root : Table φ δ) {keys : List Text} (hkeys : ∀ k ∈ keys, k ≠ [] ∧ '.' ∉ k)
    (key : Text) : ((⟨some root⟩ : Config φ δ).sectionAt (joinDots keys)).node key =
      (Node.table root).at (keys ++ [key]) := by
  have hwalk (sub : Table φ δ) :
      walkPath root (joinDots keys) = some sub ↔ (Node.table root).at keys = some (.table sub) := by
    rw [walkPath_eq_some,sectionKeys_joinDots hkeys]
  rw [Config.node,Config.sectionAt,Option.bind_some,at_append]
  cases hsub : walkPath root (joinDots keys) with
  | some sub =>
    rw [(hwalk sub).mp hsub]
    simp [at_cons]
  | none =>
    cases hnode : (Node.table root).at keys with
    | none => rfl
    | some n =>
      have hleaf : ∀ t, n ≠ .table t := by
        rintro t rfl
        rw [(hwalk t).mpr hnode] at hsub
        cases hsub
      exact (at_of_not_table hleaf (List.cons_ne_nil key [])).symm

end Config
end Marketlib
