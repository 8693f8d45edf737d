import Marketlib.OverrideTypes

/-! One call of `set_by_path`: when it returns true, what it changes, and what every read
through a section and a typed accessor sees of it. -/

namespace Marketlib
namespace Config

open Binding Toml

variable {φ δ : Type}

/-- The keys of a dotted path none of whose segments is empty. -/
def Segments (keys : List Text) : Prop := ∀ k ∈ keys, k ≠ [] ∧ '.' ∉ k

/-- What `get_string`, `get_int`, `get_double` and `get_bool` return for a key of a section. -/
def reads (conv : Conversions φ) (root : Table φ δ) (keys : List Text) (key : Text) :
    Option Text × Option Int64 × Option φ × Option Bool :=
  let cfg : Config φ δ := (⟨some root⟩ : Config φ δ).sectionAt (joinDots keys)
  (cfg.getString key,cfg.getInt conv key,cfg.getDouble conv key,cfg.getBool conv key)

/-- The four conversions of one node. -/
def scalars (conv : Conversions φ) (n : Option (Node φ δ)) :
    Option Text × Option Int64 × Option φ × Option Bool :=
  (n.bind asString,n.bind (asInt conv),n.bind (asDouble conv),n.bind (asBool conv))

theorem reads_eq (conv : Conversions φ) (root : Table φ δ) {keys : List Text}
    (hkeys : Segments keys) (key : Text) :
    reads conv root keys key = scalars conv ((Node.table root).at (keys ++ [key])) := by
  simp only [reads,scalars,Config.getString,Config.getInt,Config.getDouble,Config.getBool,
    node_sectionAt root hkeys]

theorem scalars_table (conv : Conversions φ) (sub : Table φ δ) :
    scalars conv (some (.table sub)) = (none,none,none,none) := rfl

/-- A node with something below it is a table. -/
theorem table_of_at_append {n m : Node φ δ} {q r : List Text} (hr : r ≠ [])
    (h : n.at (q ++ r) = some m) : ∃ sub, n.at q = some (.table sub) := by
  rw [at_append,Option.bind_eq_some_iff] at h
  obtain ⟨a,ha,hm⟩ := h
  cases a with
  | table sub => exact ⟨sub,ha⟩
  | _ =>
    rw [at_of_not_table (fun t ht => by cases ht) hr] at hm
    cases hm

variable {root root' : Table φ δ} {keys : List Text} {key value : Text}

theorem segments_dotless (h : Segments keys) : ∀ k ∈ keys, '.' ∉ k := fun k hk => (h k hk).2

theorem setByPath_joinDots (h : Segments (keys ++ [key])) :
    setByPath root (joinDots (keys ++ [key])) value =
      assignAt (.string value) root (keys ++ [key]) := by
  rw [setByPath_eq,splitDots_joinDots (by simp) (segments_dotless h)]

/-- It returns true where the segments lead to a table that has the last key. -/
theorem setByPath_isSome_iff (h : Segments (keys ++ [key])) :
    (setByPath root (joinDots (keys ++ [key])) value).isSome ↔
      ∃ sub, (Node.table root).at keys = some (.table sub) ∧ (get sub key).isSome := by
  rw [setByPath_joinDots h,assignAt_isSome _ _ (by simp)]
  constructor
  · intro hsome
    obtain ⟨n,hn⟩ := Option.isSome_iff_exists.mp hsome
    obtain ⟨sub,hsub⟩ := table_of_at_append (List.cons_ne_nil key []) hn
    rw [at_append,hsub,Option.bind_some,at_cons] at hn
    exact ⟨sub,hsub,by cases hget : get sub key <;> simp_all⟩
  · rintro ⟨sub,hsub,hget⟩
    rw [at_append,hsub,Option.bind_some,at_cons]
    cases hn : get sub key <;> simp_all

/-- Every scalar that is not at the path or below it reads as before. -/
theorem reads_setByPath (conv : Conversions φ) (h : Segments (keys ++ [key]))
    (hset : setByPath root (joinDots (keys ++ [key])) value = some root') {keys' : List Text}
    {key' : Text} (h' : Segments (keys' ++ [key'])) (hother : ¬keys ++ [key] <+: keys' ++ [key']) :
    reads conv root' keys' key' = reads conv root keys' key' := by
  have hkeys' : Segments keys' := fun k hk => h' k (List.mem_append_left _ hk)
  rw [setByPath_joinDots h] at hset
  rw [reads_eq conv root' hkeys',reads_eq conv root hkeys']
  by_cases habove : keys' ++ [key'] <+: keys ++ [key]
  · -- a proper prefix of the path is a table before and after
    obtain ⟨r,hr⟩ := habove
    have hne : r ≠ [] := by
      rintro rfl
      exact hother ⟨[],by rw [List.append_nil] at hr ⊢; exact hr.symm⟩
    have hafter := at_assignAt hset []
    have hbefore := assignAt_isSome (.string value) root (p := keys ++ [key]) (by simp)
    rw [hset] at hbefore
    obtain ⟨m,hm⟩ := Option.isSome_iff_exists.mp hbefore.symm
    rw [List.append_nil,← hr] at hafter
    rw [← hr] at hm
    obtain ⟨sub,hsub⟩ := table_of_at_append hne hafter
    obtain ⟨sub',hsub'⟩ := table_of_at_append hne hm
    rw [hsub,hsub',scalars_table,scalars_table]
  · rw [at_assignAt_other hset hother habove]

/-- What one call of `set_by_path` returns, and how it leaves the tree. -/
structure ChangesOneKey (conv : Conversions φ) (root : Table φ δ) (keys : List Text)
    (key value : Text) : Prop where
  returns : (setByPath root (joinDots (keys ++ [key])) value).isSome ↔
    ∃ sub, (Node.table root).at keys = some (.table sub) ∧ (get sub key).isSome
  written : (setByPath root (joinDots (keys ++ [key])) value).isSome →
    ((⟨some (set root (joinDots (keys ++ [key])) value)⟩ : Config φ δ).sectionAt
      (joinDots keys)).getString key = some value
  frame : (setByPath root (joinDots (keys ++ [key])) value).isSome → ∀ keys' key',
    Segments (keys' ++ [key']) → ¬keys ++ [key] <+: keys' ++ [key'] →
      reads conv (set root (joinDots (keys ++ [key])) value) keys' key' =
        reads conv root keys' key'
  refused : ¬(setByPath root (joinDots (keys ++ [key])) value).isSome →
    set root (joinDots (keys ++ [key])) value = root

/-- `set_by_path` changes one key and nothing else. -/
theorem setByPath_changesOneKey (conv : Conversions φ) (root : Table φ δ) {keys : List Text}
    {key : Text} (h : Segments (keys ++ [key])) (value : Text) :
    ChangesOneKey conv root keys key value := by
  have hset (hsome : (setByPath root (joinDots (keys ++ [key])) value).isSome) :
      setByPath root (joinDots (keys ++ [key])) value =
        some (set root (joinDots (keys ++ [key])) value) := by
    obtain ⟨root',hroot'⟩ := Option.isSome_iff_exists.mp hsome
    rw [set,hroot']
    rfl
  refine ⟨setByPath_isSome_iff h,fun hsome => ?_,fun hsome keys' key' h' hother => ?_,
    fun hnone => ?_⟩
  · have hat := at_assignAt (setByPath_joinDots h ▸ hset hsome) []
    rw [List.append_nil,at_nil] at hat
    exact getString_sectionAt (fun k hk => h k (List.mem_append_left _ hk)) hat
  · exact reads_setByPath conv h (hset hsome) h' hother
  · rw [set,Option.not_isSome_iff_eq_none.mp hnone]
    rfl

theorem setByPath_changesOneKey_port :
    ChangesOneKey exampleConversions exampleDocument.root ["feed".toList] "port".toList
      "26478".toList :=
  setByPath_changesOneKey _ _ (by unfold Segments; decide) _

end Config
end Marketlib
