import Marketlib.MovedLeaves

/-! From a property tree, as read from XML or JSON, to named values: `find_ptree_child` with
`to_value`, by which a path is read, and `from_ptree`, by which a struct is bound. -/

namespace Marketlib
namespace Ptree

open Binding Outcome

/-- `boost::property_tree::ptree`. -/
inductive Ptree
  | node (data : Text) (children : List (Text × Ptree))

def Ptree.data : Ptree → Text
  | .node data _ => data

def Ptree.children : Ptree → List (Text × Ptree)
  | .node _ children => children

/-- `ptree::empty`: no children. -/
def Ptree.isEmpty (pt : Ptree) : Bool := pt.children.isEmpty

/-- The key `<xmlattr>`. -/
def xmlattr : Text := ['<','x','m','l','a','t','t','r','>']

/-- `is_ptree_array`. -/
def isPtreeArray (pt : Ptree) : Bool :=
  !pt.isEmpty && pt.children.all fun (key,_) => key.isEmpty

/-- `for_each_ptree_child`. -/
def forEachPtreeChild {β : Type} (fn : β → Text → Ptree → β) (init : β) (pt : Ptree) : β :=
  pt.children.foldl (fun acc (key,child) =>
    if key = xmlattr then
      child.children.foldl (fun acc (attrName,attrValue) => fn acc attrName attrValue) acc
    else if isPtreeArray child then
      child.children.foldl (fun acc (_,element) => fn acc key element) acc
    else fn acc key child) init

/-- `find_ptree_child`. -/
def findPtreeChild (pt : Ptree) (name : Text) : Option Ptree :=
  forEachPtreeChild (keepFirst name) none pt

variable {φ : Type}

/-- An element's own text, kept as one more field where there is any. -/
def ownText (data : Text) : FieldList φ :=
  if trim data = [] then [] else [⟨textFieldKey,.leaf (.text (trim data))⟩]

mutual

/-- The value of a child in `from_ptree`. -/
def childValue : Ptree → FieldValue φ
  | .node data children =>
    if children.isEmpty then .leaf (.text (trim data))
    else .struct (levelFields children ++ ownText data)

/-- The fields that the loop of `from_ptree` pushes. -/
def levelFields : List (Text × Ptree) → FieldList φ
  | [] => []
  | e :: children => entryFields e ++ levelFields children

def entryFields : Text × Ptree → FieldList φ
  | (key,.node data children) =>
    if key = xmlattr then childFields children
    else if isPtreeArray (.node data children) then
      (childFields children).map fun f => ⟨key,f.value⟩
    else [⟨key,childValue (.node data children)⟩]

def childFields : List (Text × Ptree) → FieldList φ
  | [] => []
  | e :: children => childField e :: childFields children

def childField : Text × Ptree → Binding.Field φ
  | (key,child) => ⟨key,childValue child⟩

end

/-- `from_ptree`. -/
def fromPtree (pt : Ptree) : FieldList φ := levelFields pt.children

/-- `ConfigParser::to_value` of a property tree. -/
def toValue (pt : Ptree) : FieldValue φ :=
  if pt.isEmpty then .leaf (.text (trim pt.data)) else .struct (fromPtree pt)

def ptreeEntryChildren : Text × Ptree → List (Named Ptree)
  | (key,child) =>
    if key = xmlattr then child.children.map fun (attrName,attrValue) => ⟨attrName,attrValue⟩
    else if isPtreeArray child then child.children.map fun (_,element) => ⟨key,element⟩
    else [⟨key,child⟩]

/-- The children that `for_each_ptree_child` visits. -/
def ptreeChildren (pt : Ptree) : List (Named Ptree) := pt.children.flatMap ptreeEntryChildren

theorem forEachPtreeChild_eq {β : Type} (fn : β → Text → Ptree → β) (init : β) (pt : Ptree) :
    forEachPtreeChild fn init pt =
      (ptreeChildren pt).foldl (fun acc c => fn acc c.name c.value) init := by
  rw [forEachPtreeChild,ptreeChildren]
  induction pt.children generalizing init with
  | nil => rfl
  | cons e children ih =>
    obtain ⟨key,child⟩ := e
    rw [List.foldl_cons,ih,List.flatMap_cons,List.foldl_append]
    congr 1
    simp only [ptreeEntryChildren]
    split_ifs
    · rw [List.foldl_map]
    · rw [List.foldl_map]
    · rfl

theorem findPtreeChild_eq (pt : Ptree) (name : Text) :
    findPtreeChild pt name = (matching (ptreeChildren pt) name).head? := by
  rw [findPtreeChild,forEachPtreeChild_eq,foldl_keepFirst,Option.none_or]

theorem childFields_eq (children : List (Text × Ptree)) :
    (childFields children : FieldList φ) = children.map fun e => ⟨e.1,childValue e.2⟩ := by
  induction children with
  | nil => rw [childFields,List.map_nil]
  | cons e children ih =>
    obtain ⟨key,child⟩ := e
    rw [childFields,childField,ih,List.map_cons]

theorem entryFields_eq (e : Text × Ptree) :
    (entryFields e : FieldList φ) =
      (ptreeEntryChildren e).map fun c => ⟨c.name,childValue c.value⟩ := by
  obtain ⟨key,data,children⟩ := e
  rw [entryFields,ptreeEntryChildren]
  split_ifs
  · rw [childFields_eq,List.map_map]
    rfl
  · rw [childFields_eq,List.map_map,List.map_map]
    rfl
  · rfl

/-- Binding sees the children that `for_each_ptree_child` visits. -/
theorem fromPtree_eq (pt : Ptree) :
    (fromPtree pt : FieldList φ) =
      (ptreeChildren pt).map fun c => ⟨c.name,childValue c.value⟩ := by
  rw [fromPtree,ptreeChildren]
  induction pt.children with
  | nil => rw [levelFields]; rfl
  | cons e children ih =>
    rw [levelFields,ih,entryFields_eq,List.flatMap_cons,List.map_append]

theorem matching_fromPtree (pt : Ptree) (name : Text) :
    matching (fromPtree pt : FieldList φ) name =
      (matching (ptreeChildren pt) name).map childValue := by
  simp [fromPtree_eq,matching,List.filter_map,Function.comp_def]

/-- `from_ptree` pushes a field for each child that it visits. -/
theorem fromPtree_visits (pt : Ptree) : (fromPtree pt : FieldList φ) =
    forEachPtreeChild (fun fields key child => fields ++ [⟨key,childValue child⟩]) [] pt := by
  rw [forEachPtreeChild_eq,fromPtree_eq]
  induction ptreeChildren pt using List.reverseRecOn with
  | nil => rfl
  | append_singleton children c ih => rw [List.foldl_concat,List.map_append,ih]; rfl

theorem childValue_eq (pt : Ptree) : (childValue pt : FieldValue φ) =
    if pt.isEmpty then .leaf (.text (trim pt.data))
    else .struct (fromPtree pt ++ ownText pt.data) := by
  cases pt with
  | node data children => rw [childValue]; rfl

/-- A node and the field made of it have the same value unless own text stands beside
children. -/
theorem toValue_eq_childValue (pt : Ptree) :
    (toValue pt : FieldValue φ) = childValue pt ↔ pt.isEmpty = true ∨ trim pt.data = [] := by
  rw [toValue,childValue_eq]
  by_cases hempty : pt.isEmpty = true
  · rw [if_pos hempty,if_pos hempty]
    exact iff_of_true rfl (.inl hempty)
  · rw [if_neg hempty,if_neg hempty,or_iff_right hempty,ownText]
    split_ifs with htext
    · rw [List.append_nil]
      exact iff_of_true rfl htext
    · refine iff_of_false (fun h => ?_) htext
      injection h with h
      exact List.cons_ne_nil _ _ (List.self_eq_append_right.mp h)

section Bind

variable {σ κ : Type} (P : Program σ κ φ)

/-- A node at hand is bound as a field that holds its value is. -/
theorem toOption_bindResolvedNode (v : FieldValue φ) (s : σ) (out : Value φ) (name : Text)
    (strict : Bool) : (bindResolvedNode P (some v) (.struct s) false out name strict).toOption =
      ((bindMoving P v [] strict (.struct s) ((Elem.struct s).init P) name).run []).toOption.map
        Prod.fst := by
  cases v with
  | leaf raw => rw [bindMoving]; rfl
  | struct fields =>
    rw [bindMoving]
    simp only [bindResolvedNode,bindFromMoved,StateT.run_map,toOption_bind,toOption_map,
      toOption_pure,Option.map_map,Option.bind_map]
    exact (Option.map_eq_bind ..).symm

/-- A field whose name is not repeated is bound as the node of its value is. -/
theorem toOption_bindNamedMoving_struct (fields : FieldList φ) (parent s : σ) (name : Text)
    (strict : Bool) (h : (matching fields name).length ≤ 1) :
    (((bindNamedMoving P (scannerFor P parent (movingEntries P fields [] 0)) strict name
      (.one (.struct s)) ((Elem.struct s).init P) true).run []).toOption.map fun r => r.1.1) =
    (bindResolvedNode P (matching fields name).head? (.struct s) false
      ((Elem.struct s).init P) name strict).toOption := by
  have hsingle := (scannerFor_serves P parent (movingEntries P fields [] 0)).single name
  rw [movingEntries_located,matching_map] at hsingle
  rw [movingEntries_located,← matching_located fields [] 0 name,bindNamedMoving]
  rw [← matching_located fields [] 0 name] at h
  rcases hm : matching (located fields [] 0) name with _ | ⟨⟨v,pos⟩,_ | ⟨n',ns⟩⟩
  · rw [hm] at hsingle
    rw [toOption_eq_some.mp hsingle]
    rfl
  · rw [hm] at hsingle
    rw [toOption_eq_some.mp hsingle,List.map_singleton,List.head?_cons,toOption_bindResolvedNode]
    have hrenames := renames_value P pos v [] strict (.struct s) ((Elem.struct s).init P) name []
    change ((bindMoving P v pos strict (.struct s) _ name).run []).toOption = _ at hrenames
    change (((bindMoving P v pos strict (.struct s) _ name) >>= fun value =>
      pure (value,true)).run []).toOption.map _ = _
    rw [StateT.run_bind,toOption_bind,hrenames]
    cases ((bindMoving P v [] strict (.struct s) ((Elem.struct s).init P) name).run []).toOption with
    | none => rfl
    | some r => rfl
  · rw [hm] at h
    exact absurd h (by simp)

end Bind

/-- A path into `pt` means what binding sees. A plain field is bound only where its name is
not repeated. -/
structure PathMeansField (φ : Type) (pt : Ptree) (name : Text) : Prop where
  value : (findPtreeChild pt name).map toValue = (matching (fromPtree pt : FieldList φ) name).head?
  bound {σ κ : Type} (P : Program σ κ φ) (parent s : σ) (strict : Bool) :
    (matching (fromPtree pt : FieldList φ) name).length ≤ 1 →
    (bindResolvedNode P ((findPtreeChild pt name).map toValue) (.struct s) false
      ((Elem.struct s).init P) name strict).toOption =
    ((bindNamedMoving P (scannerFor P parent (movingEntries P (fromPtree pt) [] 0)) strict name
      (.one (.struct s)) ((Elem.struct s).init P) true).run []).toOption.map fun r => r.1.1

/-- It does exactly when the first child of the name has no children or no own text. -/
theorem pathMeansField_iff (φ : Type) (pt : Ptree) (name : Text) :
    PathMeansField φ pt name ↔ ∀ child, (matching (ptreeChildren pt) name).head? = some child →
      child.isEmpty = true ∨ trim child.data = [] := by
  have hvalue : (findPtreeChild pt name).map toValue =
      (matching (fromPtree pt : FieldList φ) name).head? ↔
      ∀ child, (matching (ptreeChildren pt) name).head? = some child →
        child.isEmpty = true ∨ trim child.data = [] := by
    rw [findPtreeChild_eq,matching_fromPtree,List.head?_map]
    cases (matching (ptreeChildren pt) name).head? with
    | none => simp
    | some child => simp [toValue_eq_childValue]
  constructor
  · intro h
    exact hvalue.mp h.value
  · intro h
    refine ⟨hvalue.mpr h,fun P parent s strict hlength => ?_⟩
    rw [toOption_bindNamedMoving_struct P _ parent s name strict hlength,hvalue.mpr h]

/-- `<config><host port="5432">db1</host></config>`, from its root element. -/
def hostConfig : Ptree :=
  .node [] [("host".toList,.node "db1".toList [(xmlattr,.node [] [("port".toList,
    .node "5432".toList [])])])]

/-- A struct with the field `host`, and its type, with the integer `port`. -/
def hostProgram : Program Bool Empty Unit where
  structs
    | false => {
        fields := [⟨"host".toList,.one (.struct true)⟩]
        init := [.struct [.scalar (.integer 0)]] }
    | true => {
        fields := [⟨"port".toList,.one (.leaf (.integral true 32))⟩]
        init := [.scalar (.integer 0)] }
  floats := {
    zero := Empty.elim
    fromChars := fun k => k.elim
    ofInteger := fun k => k.elim
    ofFloat := fun k => k.elim
    ofBoolean := fun k => k.elim
    toIntegral := fun _ _ _ => 0
    toBoolean := fun _ => false
    toText := fun _ => [] }
  linearScanFieldThreshold := 16

/-- The path `host` reads the port alone, and binding sees the text too; strict binding
succeeds through the path and rejects the field. -/
theorem hostConfig_own_text :
    (findPtreeChild hostConfig "host".toList).map toValue =
      some (FieldValue.struct [⟨"port".toList,.leaf (.text "5432".toList)⟩] : FieldValue Unit) ∧
    (matching (fromPtree hostConfig) "host".toList).head? =
      some (FieldValue.struct [⟨"port".toList,.leaf (.text "5432".toList)⟩,
        ⟨textFieldKey,.leaf (.text "db1".toList)⟩] : FieldValue Unit) ∧
    bindResolvedNode hostProgram ((findPtreeChild hostConfig "host".toList).map toValue)
      (.struct true) false (.struct [.scalar (.integer 0)]) "host".toList true =
        .ok (.struct [.scalar (.integer 5432)]) ∧
    (bindNamedMoving hostProgram
      (scannerFor hostProgram false (movingEntries hostProgram (fromPtree hostConfig) [] 0)) true
      "host".toList (.one (.struct true)) (.struct [.scalar (.integer 0)]) true).run [] =
        .error (.unknownField textFieldKey) :=
  ⟨rfl,rfl,rfl,rfl⟩

end Ptree
end Marketlib
