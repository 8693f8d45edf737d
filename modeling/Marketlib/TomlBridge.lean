import Marketlib.FieldLookup
import Marketlib.TomlTree

/-! From a TOML table to named values: `find_toml_child` with `to_value`, by which a path is
read, and `from_toml`, by which a struct is bound. -/

namespace Marketlib
namespace Toml

open Binding

variable {φ δ : Type}

/-- `for_each_toml_child`: an array is one child per element. -/
def forEachTomlChild {β : Type} (fn : β → Text → Node φ δ → β) (init : β) (t : Table φ δ) : β :=
  t.foldl (fun acc (key,node) =>
    match node with
    | .array elems => elems.foldl (fun acc elem => fn acc key elem) acc
    | node => fn acc key node) init

/-- `find_toml_child`. -/
def findTomlChild (t : Table φ δ) (name : Text) : Option (Node φ δ) :=
  forEachTomlChild (keepFirst name) none t

/-- `toml_leaf`. -/
def tomlLeaf : Node φ δ → Option (LeafValue φ)
  | .string s => some (.text s)
  | .integer i => some (.integer i)
  | .float x => some (.float x)
  | .boolean b => some (.boolean b)
  | _ => none

mutual

/-- `from_toml`. -/
def fromToml : List (Text × Node φ δ) → FieldList φ
  | [] => []
  | e :: t => fromTomlEntry e ++ fromToml t

def fromTomlEntry : Text × Node φ δ → FieldList φ
  | (name,.table t) => [⟨name,.struct (fromToml t)⟩]
  | (name,.string s) => [⟨name,.leaf (.text s)⟩]
  | (name,.integer i) => [⟨name,.leaf (.integer i)⟩]
  | (name,.float x) => [⟨name,.leaf (.float x)⟩]
  | (name,.boolean b) => [⟨name,.leaf (.boolean b)⟩]
  | (name,.array elems) => fromTomlArray elems name
  -- dates and times are skipped
  | (_,.dateTime _) => []

def fromTomlArray : List (Node φ δ) → Text → FieldList φ
  | [],_ => []
  | elem :: elems,name => fromTomlElem elem name ++ fromTomlArray elems name

def fromTomlElem : Node φ δ → Text → FieldList φ
  | .table t,name => [⟨name,.struct (fromToml t)⟩]
  | .string s,name => [⟨name,.leaf (.text s)⟩]
  | .integer i,name => [⟨name,.leaf (.integer i)⟩]
  | .float x,name => [⟨name,.leaf (.float x)⟩]
  | .boolean b,name => [⟨name,.leaf (.boolean b)⟩]
  -- so are these in an array, and arrays in it
  | .dateTime _,_ => []
  | .array _,_ => []

end

/-- `ConfigParser::to_value` of a TOML node. -/
def toValue (n : Node φ δ) : FieldValue φ :=
  match n.asTable with
  | some t => .struct (fromToml t)
  | none => match tomlLeaf n with
    | some leaf => .leaf leaf
    | none => .struct []

def tomlEntryChildren : Text × Node φ δ → List (Named (Node φ δ))
  | (key,.array elems) => elems.map fun elem => ⟨key,elem⟩
  | (key,node) => [⟨key,node⟩]

/-- The children that `for_each_toml_child` visits. -/
def tomlChildren (t : Table φ δ) : List (Named (Node φ δ)) := t.flatMap tomlEntryChildren

/-- A table or a scalar: what a field can hold. -/
def Representable (n : Node φ δ) : Prop := n.asTable.isSome ∨ (tomlLeaf n).isSome

/-- What a field holds of a node. -/
def fieldOf (n : Node φ δ) : Option (FieldValue φ) :=
  (n.asTable.map fun t => FieldValue.struct (fromToml t)).or ((tomlLeaf n).map .leaf)

theorem tomlChildren_cons (e : Text × Node φ δ) (t : Table φ δ) :
    tomlChildren (e :: t) = tomlEntryChildren e ++ tomlChildren t := List.flatMap_cons

theorem forEachTomlChild_eq {β : Type} (fn : β → Text → Node φ δ → β) (init : β)
    (t : Table φ δ) : forEachTomlChild fn init t =
      (tomlChildren t).foldl (fun acc c => fn acc c.name c.value) init := by
  induction t generalizing init with
  | nil => rfl
  | cons e t ih =>
    obtain ⟨key,node⟩ := e
    rw [tomlChildren_cons,List.foldl_append,← ih]
    cases node with
    | array elems =>
      rw [tomlEntryChildren,List.foldl_map]
      rfl
    | _ => rfl

/-- A path finds the first child of its name. -/
theorem findTomlChild_eq (t : Table φ δ) (name : Text) :
    findTomlChild t name = (matching (tomlChildren t) name).head? := by
  rw [findTomlChild,forEachTomlChild_eq,foldl_keepFirst,Option.none_or]

theorem toValue_eq (n : Node φ δ) : toValue n = (fieldOf n).getD (.struct []) := by
  cases n <;> rfl

theorem fieldOf_eq_none {n : Node φ δ} : fieldOf n = none ↔ ¬Representable n := by
  rw [fieldOf,Representable]
  cases n.asTable <;> cases tomlLeaf n <;> simp

theorem fromTomlElem_eq (n : Node φ δ) (name : Text) :
    fromTomlElem n name = ((fieldOf n).map fun v => ⟨name,v⟩).toList := by
  cases n <;> rw [fromTomlElem] <;> rfl

theorem fromTomlArray_eq (elems : List (Node φ δ)) (name : Text) :
    fromTomlArray elems name = elems.filterMap fun n => (fieldOf n).map fun v => ⟨name,v⟩ := by
  induction elems with
  | nil => rw [fromTomlArray,List.filterMap_nil]
  | cons n elems ih =>
    rw [fromTomlArray,fromTomlElem_eq,ih,List.filterMap_cons]
    cases fieldOf n <;> rfl

/-- Binding sees the children that `for_each_toml_child` visits, less those it skips. -/
theorem fromToml_eq (t : Table φ δ) :
    fromToml t = (tomlChildren t).filterMap fun c =>
      (fieldOf c.value).map fun v => ⟨c.name,v⟩ := by
  induction t with
  | nil => rw [fromToml]; rfl
  | cons e t ih =>
    obtain ⟨key,node⟩ := e
    rw [fromToml,ih,tomlChildren_cons,List.filterMap_append]
    congr 1
    cases node with
    | array elems =>
      rw [fromTomlEntry,fromTomlArray_eq,tomlEntryChildren,List.filterMap_map]
      rfl
    | _ =>
      rw [fromTomlEntry]
      rfl

theorem matching_fromToml (t : Table φ δ) (name : Text) :
    matching (fromToml t) name = (matching (tomlChildren t) name).filterMap fieldOf := by
  rw [fromToml_eq]
  induction tomlChildren t with
  | nil => rfl
  | cons c children ih =>
    rw [List.filterMap_cons,matching_cons]
    cases hc : fieldOf c.value with
    | none =>
      rw [Option.map_none]
      split_ifs <;> simp [ih,hc]
    | some v =>
      rw [Option.map_some]
      simp only [matching_cons,ih]
      split_ifs <;> simp [hc]

/-- Nothing in the table can be bound. -/
def Vacant (t : Table φ δ) : Prop := ∀ c ∈ tomlChildren t, ¬Representable c.value

theorem fromToml_eq_nil {t : Table φ δ} : fromToml t = [] ↔ Vacant t := by
  rw [fromToml_eq,List.filterMap_eq_nil_iff,Vacant]
  simp only [Option.map_eq_none_iff,fieldOf_eq_none]

theorem fieldOf_eq_empty {n : Node φ δ} :
    fieldOf n = some (.struct []) ↔ ∃ sub, n = .table sub ∧ Vacant sub := by
  constructor
  · intro h
    cases n with
    | table sub =>
      injection h with h
      injection h with h
      exact ⟨sub,rfl,fromToml_eq_nil.mp h⟩
    | _ => cases h
  · rintro ⟨sub,rfl,hvacant⟩
    exact congrArg (fun fields => some (FieldValue.struct fields)) (fromToml_eq_nil.mpr hvacant)

/-- Among children of one name, the first can be bound, or the first that can be is a
table without anything to bind. -/
def FirstBindable : List (Node φ δ) → Prop
  | [] => True
  | n :: rest => Representable n ∨ ∃ skipped sub later, rest = skipped ++ .table sub :: later ∧
      (∀ m ∈ skipped, ¬Representable m) ∧ Vacant sub

/-- The first of the values that can be bound is the empty subtree. -/
theorem head_fields_eq_empty (nodes : List (Node φ δ)) :
    (nodes.filterMap fieldOf).head? = some (.struct []) ↔
      ∃ skipped sub later, nodes = skipped ++ .table sub :: later ∧
        (∀ m ∈ skipped, ¬Representable m) ∧ Vacant sub := by
  induction nodes with
  | nil => simp
  | cons n nodes ih =>
    cases hn : fieldOf n with
    | none =>
      rw [List.filterMap_cons_none hn,ih]
      constructor
      · rintro ⟨skipped,sub,later,rfl,hskipped,hvacant⟩
        refine ⟨n :: skipped,sub,later,rfl,?_,hvacant⟩
        exact List.forall_mem_cons.mpr ⟨fieldOf_eq_none.mp hn,hskipped⟩
      · rintro ⟨skipped,sub,later,heq,hskipped,hvacant⟩
        cases skipped with
        | nil =>
          cases heq
          cases hn
        | cons m skipped =>
          cases heq
          exact ⟨skipped,sub,later,rfl,(List.forall_mem_cons.mp hskipped).2,hvacant⟩
    | some v =>
      rw [List.filterMap_cons_some hn,List.head?_cons]
      constructor
      · intro h
        obtain ⟨sub,rfl,hvacant⟩ := fieldOf_eq_empty.mp (hn.trans h)
        exact ⟨[],sub,nodes,rfl,List.forall_mem_nil _,hvacant⟩
      · rintro ⟨skipped,sub,later,heq,hskipped,hvacant⟩
        cases skipped with
        | nil =>
          cases heq
          exact hn.symm.trans (fieldOf_eq_empty.mpr ⟨sub,rfl,hvacant⟩)
        | cons m skipped =>
          cases heq
          have hnone := fieldOf_eq_none.mpr (hskipped _ List.mem_cons_self)
          cases hn.symm.trans hnone

/-- A path reads what binding sees exactly when the first child of the name can be bound,
or what it is read as stands there as the first that can. -/
theorem toValue_findTomlChild (t : Table φ δ) (name : Text) :
    (findTomlChild t name).map toValue = (matching (fromToml t) name).head? ↔
      FirstBindable (matching (tomlChildren t) name) := by
  rw [findTomlChild_eq,matching_fromToml]
  cases matching (tomlChildren t) name with
  | nil => exact iff_of_true rfl trivial
  | cons n rest =>
    rw [List.head?_cons,Option.map_some,toValue_eq,FirstBindable]
    cases hn : fieldOf n with
    | none =>
      have hnot := fieldOf_eq_none.mp hn
      rw [List.filterMap_cons_none hn,Option.getD_none,eq_comm,head_fields_eq_empty]
      exact (or_iff_right hnot).symm
    | some v =>
      have hrep : Representable n := by
        by_contra hnot
        cases hn.symm.trans (fieldOf_eq_none.mpr hnot)
      rw [List.filterMap_cons_some hn]
      exact iff_of_true rfl (.inl hrep)

/-- A date: the path finds it and reads an empty subtree, and binding sees no field. -/
theorem toValue_findTomlChild_date :
    (findTomlChild [("since".toList,(.dateTime () : Node Unit Unit))] "since".toList).map toValue =
      some (.struct []) ∧
    (matching (fromToml [("since".toList,(.dateTime () : Node Unit Unit))])
      "since".toList).head? = none := by
  constructor
  · rfl
  · rw [matching_fromToml]
    rfl

end Toml
end Marketlib
