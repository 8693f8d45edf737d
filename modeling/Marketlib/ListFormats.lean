import Marketlib.PtreeBridge
import Marketlib.TomlBridge

/-! A list of texts in each of the three formats, bound to a vector of strings. -/

namespace Marketlib
namespace ListFormats

open Binding Ptree Toml

variable {σ κ φ δ : Type}

/-- `{"name": [..]}`: an element has an empty key, and an empty array no children. -/
def jsonArray (name : Text) (xs : List Text) : Ptree :=
  .node [] [(name,.node [] (xs.map fun x => ([],.node x [])))]

/-- `name = [..]`. -/
def tomlArray (name : Text) (xs : List Text) : Table φ δ := [(name,.array (xs.map .string))]

/-- An element `name` for each of the texts, in an element with text of its own. -/
def xmlElements (data name : Text) (xs : List Text) : Ptree :=
  .node data (xs.map fun x => (name,.node x []))

def texts (xs : List Text) : List (FieldValue φ) := xs.map fun x => .leaf (.text x)

/-- What binding a `std::vector<std::string>` leaves in the field. -/
def bindStrings (P : Program σ κ φ) (parent : σ) (strict : Bool) (fields : FieldList φ)
    (name : Text) (out : Value φ) : Except BindError (Value φ) :=
  (bindNamedValue P (scannerFor P parent (bindEntries P fields)) strict name
    (.vector (.leaf .string)) out true).map Prod.fst

def strings (xs : List Text) : Value φ := .vector (xs.map fun x => .scalar (.text x))

theorem strings_injective : Function.Injective (strings : List Text → Value φ) := by
  intro xs ys h
  injection h with h
  refine List.map_injective_iff.mpr (fun x y hxy => ?_) h
  injection hxy with hxy
  injection hxy

theorem mapM_bindOneValue (P : Program σ κ φ) (strict : Bool) (name : Text) (out : Value φ)
    (xs : List Text) :
    ((texts xs).map (bindOneValue P)).mapM (fun bindOne => bindOne strict (.leaf .string) out name) =
      .ok (xs.map fun x => .scalar (.text x)) := by
  induction xs with
  | nil => rfl
  | cons x xs ih =>
    have hcons : texts (x :: xs) = .leaf (.text x) :: (texts xs : List (FieldValue φ)) := rfl
    rw [hcons,List.map_cons,List.mapM_cons,ih,bindOneValue]
    rfl

/-- The field holds the texts of its name. -/
theorem bindStrings_eq (P : Program σ κ φ) (parent : σ) (strict : Bool) {fields : FieldList φ}
    {name : Text} {xs : List Text} (h : matching fields name = texts xs) (out : Value φ) :
    bindStrings P parent strict fields name out = .ok (strings xs) := by
  rw [bindStrings,bindNamedValue,(scannerFor_serves P parent _).all,matching_bindEntries,h]
  simp only [mapM_bindOneValue]
  rfl

theorem matching_same_name {α : Type} (name : Text) (xs : List α) :
    matching (xs.map fun x => ⟨name,x⟩) name = xs := by
  induction xs with
  | nil => rfl
  | cons x xs ih => rw [List.map_cons,matching_cons,if_pos (iequals_refl name),ih]

theorem matching_tomlArray (name : Text) (xs : List Text) :
    matching (fromToml (tomlArray name xs : Table φ δ)) name = texts xs := by
  have hchildren : tomlChildren (tomlArray name xs : Table φ δ) =
      (xs.map Node.string).map fun n => ⟨name,n⟩ := by
    rw [tomlArray,tomlChildren_cons,tomlEntryChildren]
    exact List.append_nil _
  rw [matching_fromToml,hchildren,matching_same_name,List.filterMap_map]
  exact congrFun List.filterMap_eq_map xs

/-- Nodes without children, as fields. -/
theorem map_childValue {xs : List Text} (htrim : ∀ x ∈ xs, trim x = x) :
    (xs.map fun x => Ptree.node x []).map childValue = (texts xs : List (FieldValue φ)) := by
  rw [List.map_map]
  refine List.map_congr_left fun x hx => ?_
  have hleaf : (childValue (.node x []) : FieldValue φ) = .leaf (.text (trim x)) := by
    rw [childValue]
    rfl
  rw [Function.comp_apply,hleaf,htrim x hx]

theorem ptreeEntryChildren_childless (key data : Text) :
    ptreeEntryChildren (key,.node data []) =
      if key = xmlattr then [] else [⟨key,.node data []⟩] := rfl

/-- An element of the name `<xmlattr>` would be searched for attributes. -/
theorem matching_xmlElements (data : Text) {name : Text} {xs : List Text}
    (htrim : ∀ x ∈ xs, trim x = x) :
    matching (fromPtree (xmlElements data name xs) : FieldList φ) name =
      texts (if name = xmlattr then [] else xs) := by
  have hchildren : ptreeChildren (xmlElements data name xs) =
      if name = xmlattr then [] else (xs.map fun x => Ptree.node x []).map fun n => ⟨name,n⟩ := by
    rw [ptreeChildren,xmlElements,Ptree.children,List.flatMap_map]
    induction xs with
    | nil => simp
    | cons x xs ih =>
      rw [List.flatMap_cons,ih (List.forall_mem_cons.mp htrim).2,ptreeEntryChildren_childless]
      split_ifs <;> rfl
  rw [matching_fromPtree,hchildren]
  split_ifs
  · rfl
  · rw [matching_same_name,map_childValue htrim]

/-- An empty array is a node without children and is read as a scalar. -/
theorem matching_jsonArray {name : Text} {xs : List Text} (htrim : ∀ x ∈ xs, trim x = x) :
    matching (fromPtree (jsonArray name xs) : FieldList φ) name =
      texts (if name = xmlattr then [] else if xs = [] then [[]] else xs) := by
  by_cases hname : name = xmlattr
  · subst hname
    have hchildren : ptreeChildren (jsonArray xmlattr xs) = xs.map fun x => ⟨[],.node x []⟩ := by
      simp [ptreeChildren,jsonArray,Ptree.children,ptreeEntryChildren]
    have hnone : matching (ptreeChildren (jsonArray xmlattr xs)) xmlattr = [] := by
      rw [hchildren,matching,List.filter_eq_nil_iff.mpr]
      · rfl
      · simp [iequals,xmlattr]
    rw [matching_fromPtree,hnone,if_pos rfl]
    rfl
  · have hchildren : ptreeChildren (jsonArray name xs) =
        ((if xs = [] then [[]] else xs).map fun x => Ptree.node x []).map fun n => ⟨name,n⟩ := by
      cases xs with
      | nil => simp [ptreeChildren,jsonArray,Ptree.children,ptreeEntryChildren_childless,hname]
      | cons x xs =>
        simp [ptreeChildren,jsonArray,Ptree.children,ptreeEntryChildren,hname,isPtreeArray,
          Ptree.isEmpty]
    rw [if_neg hname,matching_fromPtree,hchildren,matching_same_name]
    refine map_childValue ?_
    split_ifs
    · exact List.forall_mem_singleton.mpr rfl
    · exact htrim

/-- The vector holds the list from all three formats, unless an array is empty. No element
and no member of a struct can be named `<xmlattr>`; that name turns the condition around. -/
theorem bindStrings_all_formats (P : Program σ κ φ) (parent : σ) (strict : Bool) (out : Value φ)
    (data name : Text) {xs : List Text} (htrim : ∀ x ∈ xs, trim x = x) :
    (bindStrings P parent strict (fromPtree (jsonArray name xs)) name out = .ok (strings xs) ∧
      bindStrings P parent strict (fromToml (tomlArray name xs : Table φ δ)) name out =
        .ok (strings xs) ∧
      bindStrings P parent strict (fromPtree (xmlElements data name xs)) name out =
        .ok (strings xs)) ↔
      (xs = [] ↔ name = xmlattr) := by
  rw [bindStrings_eq P parent strict (matching_jsonArray htrim),
    bindStrings_eq P parent strict (matching_tomlArray name xs),
    bindStrings_eq P parent strict (matching_xmlElements data htrim)]
  simp only [Except.ok.injEq,strings_injective.eq_iff]
  by_cases hname : name = xmlattr
  · simp [hname,eq_comm]
  · by_cases hxs : xs = []
    · simp [hname,hxs]
    · simp [hname,hxs]

theorem bindStrings_all_formats_hosts :
    bindStrings hostProgram false false (fromPtree (jsonArray "hosts".toList
      ["db1".toList,"db2".toList])) "hosts".toList (.vector []) =
        .ok (strings ["db1".toList,"db2".toList]) ∧
      bindStrings hostProgram false false (fromToml (tomlArray "hosts".toList
        ["db1".toList,"db2".toList] : Table Unit Unit)) "hosts".toList (.vector []) =
          .ok (strings ["db1".toList,"db2".toList]) ∧
      bindStrings hostProgram false false (fromPtree (xmlElements [] "hosts".toList
        ["db1".toList,"db2".toList])) "hosts".toList (.vector []) =
          .ok (strings ["db1".toList,"db2".toList]) :=
  (bindStrings_all_formats hostProgram false false (.vector []) [] "hosts".toList (by decide)).mpr
    (by decide)

/-- `{"hosts": []}` binds to one empty string. -/
theorem bindStrings_empty_array :
    bindStrings hostProgram false false (fromPtree (jsonArray "hosts".toList []))
      "hosts".toList (.vector []) = .ok (strings [[]]) ∧
    bindStrings hostProgram false false (fromToml (tomlArray "hosts".toList [] : Table Unit Unit))
      "hosts".toList (.vector []) = .ok (strings []) :=
  ⟨rfl,rfl⟩

end ListFormats
end Marketlib
