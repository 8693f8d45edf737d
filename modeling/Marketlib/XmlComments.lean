import Marketlib.ConfigPath
import Marketlib.HiddenEntries

/-! XML comments. The parser keeps each as a child under a key of its own, which no path and no
field names; what reads children by counting them still sees it. -/

namespace Marketlib
namespace Ptree

open Binding Outcome Layers ConfigParser

/-! ### Documents -/

/-- The key `<xmlcomment>`. -/
def xmlcomment : Text := ['<','x','m','l','c','o','m','m','e','n','t','>']

/-- The name of an element or of an attribute, which ends before any `>`. -/
def IsName (key : Text) : Prop := key ≠ [] ∧ '>' ∉ key

instance (key : Text) : Decidable (IsName key) :=
  inferInstanceAs (Decidable (key ≠ [] ∧ '>' ∉ key))

/-- The trees of `read_xml`: attributes and comments have no children. -/
inductive FromXml : Ptree → Prop
  | intro {pt : Ptree}
      (keys : ∀ e ∈ pt.children, e.1 = xmlattr ∨ e.1 = xmlcomment ∨ IsName e.1)
      (attributes : ∀ e ∈ pt.children, e.1 = xmlattr →
        ∀ a ∈ e.2.children, IsName a.1 ∧ a.2.isEmpty = true)
      (comments : ∀ e ∈ pt.children, e.1 = xmlcomment → e.2.isEmpty = true)
      (elements : ∀ e ∈ pt.children, IsName e.1 → FromXml e.2) : FromXml pt

mutual

/-- Comments are deleted from a tree, any of them and at any depth. -/
inductive Deleted : Ptree → Ptree → Prop
  | node (data) {children children'} : DeletedAmong children children' →
      Deleted (.node data children) (.node data children')

inductive DeletedAmong : List (Text × Ptree) → List (Text × Ptree) → Prop
  | nil : DeletedAmong [] []
  | keep (key) {child child' children children'} : Deleted child child' →
      DeletedAmong children children' →
      DeletedAmong ((key,child) :: children) ((key,child') :: children')
  | delete (comment) {children children'} : DeletedAmong children children' →
      DeletedAmong ((xmlcomment,comment) :: children) children'

end

/-- The only child of the parsed document, where `parsed.size() == 1`. -/
def documentElement (parsed : Ptree) : Option (Text × Ptree) :=
  match parsed.children with
  | [element] => some element
  | _ => none

/-- The root of an XML document in `read`. -/
def xmlRoot (parsed : Ptree) : Ptree := (documentElement parsed).elim parsed Prod.snd

/-- The node below `root` that a path leads to. -/
def elementAt (root : Ptree) (path : Text) : Option Ptree :=
  (segments path).foldlM findPtreeChild root

/-! ### What binding sees -/

/-- The entries of an element that has children: these, and its own text. -/
def below (pt : Ptree) : List (Named Ptree) :=
  if pt.isEmpty then []
  else ptreeChildren pt ++ if trim pt.data = [] then [] else [⟨textFieldKey,.node pt.data []⟩]

def elementsUnder (name : Text) (pt : Ptree) : List Ptree := matching (below pt) name

/-- A node that a path leads to: its own text is read only where it has no children. -/
def asRead (pt : Ptree) : Ptree := if pt.isEmpty then pt else .node [] pt.children

variable {φ δ : Type}

theorem isLeaf_childValue (pt : Ptree) :
    (childValue pt : FieldValue φ).isLeaf = pt.isEmpty := by
  rw [childValue_eq]
  cases h : pt.isEmpty <;> rfl

theorem fields_childValue (pt : Ptree) :
    (childValue pt : FieldValue φ).fields = (below pt).map (Named.map childValue) := by
  rw [childValue_eq,below]
  cases pt.isEmpty with
  | true => rfl
  | false =>
    simp only [Bool.false_eq_true,if_false,FieldValue.fields]
    rw [fromPtree_eq,ownText,List.map_append]
    split_ifs
    · rfl
    · rw [List.map_singleton,Named.map,childValue_eq]
      rfl

theorem under_childValue (name : Text) (pt : Ptree) :
    under name (childValue pt : FieldValue φ) = (elementsUnder name pt).map childValue := by
  rw [under,fields_childValue,matching_map,elementsUnder]

theorem toValue_eq (pt : Ptree) : (toValue pt : FieldValue φ) = childValue (asRead pt) := by
  rw [toValue,asRead]
  split_ifs with hempty
  · rw [childValue_eq,if_pos hempty]
  · have hnode : (Ptree.node [] pt.children).isEmpty = false := Bool.eq_false_iff.mpr hempty
    rw [childValue_eq,hnode]
    exact congrArg FieldValue.struct (List.append_nil _).symm

/-! ### Deletion -/

theorem Deleted.data {pt pt' : Ptree} (h : Deleted pt pt') : pt.data = pt'.data := by
  cases h
  rfl

theorem Deleted.among {pt pt' : Ptree} (h : Deleted pt pt') :
    DeletedAmong pt.children pt'.children := by
  cases h
  assumption

theorem Deleted.eq_of_isEmpty {pt pt' : Ptree} (h : Deleted pt pt') (hempty : pt.isEmpty = true) :
    pt' = pt := by
  obtain ⟨data,children⟩ := pt
  cases List.isEmpty_iff.mp hempty
  cases h with
  | node _ h =>
    cases h
    rfl

/-- Where all keys are kept or deleted in place, so is each child under its key. -/
theorem DeletedAmong.without {children children' : List (Text × Ptree)}
    (h : DeletedAmong children children') (hxml : ∀ e ∈ children, FromXml e.2) :
    Without xmlcomment (fun c c' => FromXml c ∧ Deleted c c')
      (children.map fun e => ⟨e.1,e.2⟩) (children'.map fun e => ⟨e.1,e.2⟩) := by
  induction children generalizing children' with
  | nil =>
    cases h
    exact .nil
  | cons e children ih =>
    obtain ⟨hchild,hchildren⟩ := List.forall_mem_cons.mp hxml
    cases h with
    | keep key hdeleted h => exact .keep key ⟨hchild,hdeleted⟩ (ih h hchildren)
    | delete comment h => exact .drop comment (ih h hchildren)

theorem DeletedAmong.keys {children children' : List (Text × Ptree)}
    (h : DeletedAmong children children') : ∀ e' ∈ children', ∃ e ∈ children, e.1 = e'.1 := by
  induction children generalizing children' with
  | nil =>
    cases h
    exact fun _ he => absurd he List.not_mem_nil
  | cons e children ih =>
    have hrest : ∀ {children'}, DeletedAmong children children' →
        ∀ e' ∈ children', ∃ e₀ ∈ e :: children, e₀.1 = e'.1 := by
      intro children' h e' he'
      obtain ⟨e₀,he₀,hkey⟩ := ih h e' he'
      exact ⟨e₀,List.mem_cons_of_mem _ he₀,hkey⟩
    cases h with
    | keep key _ h => exact List.forall_mem_cons.mpr ⟨⟨_,List.mem_cons_self,rfl⟩,hrest h⟩
    | delete comment h => exact hrest h

theorem fromXml_of_isEmpty {pt : Ptree} (h : pt.isEmpty = true) : FromXml pt := by
  have hnone : pt.children = [] := List.isEmpty_iff.mp h
  constructor <;> simp [hnone]

theorem FromXml.child {pt : Ptree} (h : FromXml pt) : ∀ e ∈ pt.children, FromXml e.2 := by
  obtain ⟨keys,attributes,comments,elements⟩ := h
  intro e he
  rcases keys e he with hkey | hkey | hname
  · have hattributes := attributes e he hkey
    refine .intro (fun a ha => .inr (.inr (hattributes a ha).1)) ?_ ?_ fun a ha _ =>
      fromXml_of_isEmpty (hattributes a ha).2
    · intro a ha hattr
      exact absurd (hattr ▸ (hattributes a ha).1.2) (by decide)
    · exact fun a ha _ => (hattributes a ha).2
  · exact fromXml_of_isEmpty (comments e he hkey)
  · exact elements e he hname

/-- XML has no arrays. -/
theorem isPtreeArray_eq_false {pt : Ptree} (h : ∀ e ∈ pt.children, e.1 ≠ []) :
    isPtreeArray pt = false := by
  obtain ⟨data,children⟩ := pt
  cases children with
  | nil => rfl
  | cons e children =>
    have hkey : e.1.isEmpty = false := List.isEmpty_eq_false_iff.mpr (h e List.mem_cons_self)
    simp [isPtreeArray,Ptree.children,hkey]

theorem FromXml.keys_ne_nil {pt : Ptree} (h : FromXml pt) : ∀ e ∈ pt.children, e.1 ≠ [] := by
  obtain ⟨keys,-,-,-⟩ := h
  intro e he
  rcases keys e he with hkey | hkey | hname
  · rw [hkey]
    exact List.cons_ne_nil _ _
  · rw [hkey]
    exact List.cons_ne_nil _ _
  · exact hname.1

theorem Deleted.isPtreeArray {pt pt' : Ptree} (hxml : FromXml pt) (h : Deleted pt pt') :
    isPtreeArray pt = false ∧ isPtreeArray pt' = false := by
  refine ⟨isPtreeArray_eq_false hxml.keys_ne_nil,isPtreeArray_eq_false fun e' he' => ?_⟩
  obtain ⟨e,he,hkey⟩ := h.among.keys e' he'
  rw [← hkey]
  exact hxml.keys_ne_nil e he

/-- One child of the parsed tree, of which one, or each attribute, is visited. -/
theorem without_ptreeEntryChildren {key : Text} {child child' : Ptree} (hxml : FromXml child)
    (h : Deleted child child') : Without xmlcomment (fun c c' => FromXml c ∧ Deleted c c')
      (ptreeEntryChildren (key,child)) (ptreeEntryChildren (key,child')) := by
  obtain ⟨harray,harray'⟩ := h.isPtreeArray hxml
  rw [ptreeEntryChildren,ptreeEntryChildren,harray,harray']
  by_cases hattr : key = xmlattr
  · rw [if_pos hattr,if_pos hattr]
    exact h.among.without hxml.child
  · rw [if_neg hattr,if_neg hattr]
    exact .keep key ⟨hxml,h⟩ .nil

theorem DeletedAmong.flatMap {children children' : List (Text × Ptree)}
    (h : DeletedAmong children children') (hxml : ∀ e ∈ children, FromXml e.2)
    (hcomments : ∀ e ∈ children, e.1 = xmlcomment → e.2.isEmpty = true) :
    Without xmlcomment (fun c c' => FromXml c ∧ Deleted c c')
      (children.flatMap ptreeEntryChildren) (children'.flatMap ptreeEntryChildren) := by
  induction children generalizing children' with
  | nil =>
    cases h
    exact .nil
  | cons e children ih =>
    obtain ⟨hchild,hchildren⟩ := List.forall_mem_cons.mp hxml
    obtain ⟨hcomment,hrest⟩ := List.forall_mem_cons.mp hcomments
    cases h with
    | keep key hdeleted h =>
      rw [List.flatMap_cons,List.flatMap_cons]
      exact (without_ptreeEntryChildren hchild hdeleted).append (ih h hchildren hrest)
    | delete comment h =>
      have hentry : ptreeEntryChildren (xmlcomment,comment) = [⟨xmlcomment,comment⟩] := by
        have hnone : comment.children = [] := List.isEmpty_iff.mp (hcomment rfl)
        have harray : Ptree.isPtreeArray comment = false := isPtreeArray_eq_false (by simp [hnone])
        rw [ptreeEntryChildren,harray,if_neg (by decide)]
        rfl
      rw [List.flatMap_cons,hentry]
      exact .drop comment (ih h hchildren hrest)

/-- What is visited below a node loses comments alone. -/
theorem Deleted.ptreeChildren {pt pt' : Ptree} (hxml : FromXml pt) (h : Deleted pt pt') :
    Without xmlcomment (fun c c' => FromXml c ∧ Deleted c c') (ptreeChildren pt)
      (ptreeChildren pt') := by
  have hchildren := hxml.child
  obtain ⟨-,-,hcomments,-⟩ := hxml
  exact h.among.flatMap hchildren hcomments

/-- A child that is visited stands for an element, or has no children. -/
theorem FromXml.visited {pt : Ptree} (h : FromXml pt) : ∀ c ∈ Ptree.ptreeChildren pt,
    c.value.isEmpty = true ∨ ∃ e ∈ pt.children, IsName e.1 ∧ e.2 = c.value := by
  obtain ⟨keys,attributes,comments,elements⟩ := h
  intro c hc
  obtain ⟨⟨key,child⟩,he,hc⟩ := List.mem_flatMap.mp hc
  rw [ptreeEntryChildren] at hc
  split_ifs at hc with hattr harray
  · obtain ⟨a,ha,rfl⟩ := List.mem_map.mp hc
    exact .inl (attributes _ he hattr a ha).2
  · have hxml := FromXml.child ⟨keys,attributes,comments,elements⟩ _ he
    rw [isPtreeArray_eq_false hxml.keys_ne_nil] at harray
    cases harray
  · rw [List.mem_singleton.mp hc]
    rcases keys _ he with hkey | hkey | hname
    · exact absurd hkey hattr
    · exact .inl (comments _ he hkey)
    · exact .inr ⟨_,he,hname,rfl⟩

theorem without_ownText (data : Text) :
    Without xmlcomment (Pruned xmlcomment) (ownText data : FieldList φ) (ownText data) := by
  rw [ownText]
  split_ifs
  · exact .nil
  · exact .keep _ (.leaf _) .nil

/-- The induction is over the tree; attributes and comments are leaves, which stay as they are. -/
theorem FromXml.pruned {pt : Ptree} (hxml : FromXml pt) : ∀ pt', Deleted pt pt' →
    Without xmlcomment (Pruned xmlcomment) (fromPtree pt : FieldList φ) (fromPtree pt') ∧
      Pruned xmlcomment (childValue pt : FieldValue φ) (childValue pt') := by
  induction hxml with
  | @intro pt keys attributes comments elements ih =>
    intro pt' h
    have hxml : FromXml pt := ⟨keys,attributes,comments,elements⟩
    have hfields : Without xmlcomment (Pruned xmlcomment) (fromPtree pt : FieldList φ)
        (fromPtree pt') := by
      rw [fromPtree_eq,fromPtree_eq]
      refine (h.ptreeChildren hxml).map fun c hc c' hc' => ?_
      rcases hxml.visited c hc with hempty | ⟨e,he,hname,hvalue⟩
      · rw [hc'.2.eq_of_isEmpty hempty,childValue_eq,if_pos hempty]
        exact .leaf _
      · rw [← hvalue] at hc' ⊢
        exact (ih e he hname c' hc'.2).2
    refine ⟨hfields,?_⟩
    rw [childValue_eq,childValue_eq]
    split_ifs with hempty hempty' hempty'
    · rw [h.data]
      exact .leaf _
    · rw [h.eq_of_isEmpty hempty] at hempty'
      exact absurd hempty hempty'
    · exact .bare _ _
    · rw [h.data]
      exact .struct (hfields.append (without_ownText _))

theorem Deleted.toValue {pt pt' : Ptree} (hxml : FromXml pt) (h : Deleted pt pt') :
    Pruned xmlcomment (Ptree.toValue pt : FieldValue φ) (Ptree.toValue pt') := by
  rw [Ptree.toValue,Ptree.toValue]
  split_ifs with hempty hempty' hempty'
  · rw [h.data]
    exact .leaf _
  · rw [h.eq_of_isEmpty hempty] at hempty'
    exact absurd hempty hempty'
  · exact .bare _ _
  · exact .struct (hxml.pruned pt' h).1

/-! ### Nodes -/

/-- No entry at any level below the node is a comment. -/
def NoComments (pt : Ptree) : Prop :=
  ∀ names, ∀ x ∈ layer elementsUnder names [asRead pt], ∀ c ∈ below x,
    iequals xmlcomment c.name = false

/-- Entries of one name, under the same names, all have children or have none. -/
def OneShape (pt : Ptree) : Prop :=
  ∀ names, (∀ x ∈ layer elementsUnder names [asRead pt], x.isEmpty = true) ∨
    ∀ x ∈ layer elementsUnder names [asRead pt], x.isEmpty = false

/-- Deleting comments, from the one node to the other, cannot be noticed. -/
structure Unnoticed (pt pt' : Ptree) : Prop where
  /-- Elements that have children all the way down, to others that all have or all lack
  children, were of these shapes before. -/
  shapes : ∀ names : List Text, (∀ name ∈ names, iequals xmlcomment name = false) →
    ∀ empty : Bool,
    (Along elementsUnder (fun x => x.isEmpty = false) (fun x => x.isEmpty = empty) names
        [asRead pt] ↔
      Along elementsUnder (fun x => x.isEmpty = false) (fun x => x.isEmpty = empty) names
        [asRead pt'])
  /-- What strict binding can succeed on had no comments. -/
  comments : OneShape pt' → NoComments pt' → NoComments pt

theorem sameShapes_toValue {pt pt' : Ptree} :
    SameShapes xmlcomment (toValue pt : FieldValue φ) (toValue pt') ↔
      ∀ names : List Text, (∀ name ∈ names, iequals xmlcomment name = false) → ∀ empty : Bool,
      (Along elementsUnder (fun x => x.isEmpty = false) (fun x => x.isEmpty = empty) names
          [asRead pt] ↔
        Along elementsUnder (fun x => x.isEmpty = false) (fun x => x.isEmpty = empty) names
          [asRead pt']) := by
  have halong : ∀ (pt : Ptree) names (empty : Bool),
      Along under (fun w : FieldValue φ => w.isLeaf = false) (fun w => w.isLeaf = empty) names
        [toValue pt] ↔ Along elementsUnder (fun x => x.isEmpty = false)
          (fun x => x.isEmpty = empty) names [asRead pt] := by
    intro pt names empty
    rw [toValue_eq,← List.map_singleton,along_map under_childValue]
    simp only [isLeaf_childValue]
  simp only [SameShapes,halong]

theorem free_toValue {pt : Ptree} :
    Free xmlcomment (toValue pt : FieldValue φ) ↔ NoComments pt := by
  refine forall_congr' fun names => ?_
  rw [toValue_eq,← List.map_singleton,layer_map under_childValue,List.forall_mem_map]
  refine forall₂_congr fun x _ => ?_
  rw [fields_childValue,List.forall_mem_map]
  rfl

theorem uniform_toValue {pt : Ptree} : Uniform (toValue pt : FieldValue φ) ↔ OneShape pt := by
  refine forall_congr' fun names => ?_
  rw [toValue_eq,← List.map_singleton,layer_map under_childValue,List.forall_mem_map,
    List.forall_mem_map]
  simp only [isLeaf_childValue]

/-- Both nodes are read alike at every type if and only if the comments cannot be noticed. -/
theorem sameReadings_toValue {pt pt' : Ptree} (hxml : FromXml pt) (h : Deleted pt pt') :
    SameReadings xmlcomment (toValue pt : FieldValue φ) (toValue pt') ↔ Unnoticed pt pt' := by
  rw [sameReadings_iff (h.toValue hxml),sameShapes_toValue,free_toValue,free_toValue,
    uniform_toValue]
  exact ⟨fun h => ⟨h.1,h.2⟩,fun h => ⟨h.shapes,h.comments⟩⟩

/-! ### Paths -/

/-- No segment of the path is `<xmlcomment>`. -/
def PlainPath (path : Text) : Prop := ∀ segment ∈ segments path, iequals xmlcomment segment = false

theorem Deleted.findPtreeChild {pt pt' : Ptree} (hxml : FromXml pt) (h : Deleted pt pt')
    {segment : Text} (hsegment : iequals xmlcomment segment = false) :
    Option.Rel (fun c c' => FromXml c ∧ Deleted c c') (Ptree.findPtreeChild pt segment)
      (Ptree.findPtreeChild pt' segment) := by
  have hmatching := (h.ptreeChildren hxml).matching hsegment
  rw [findPtreeChild_eq,findPtreeChild_eq]
  generalize matching (Ptree.ptreeChildren pt) segment = cs at hmatching
  generalize matching (Ptree.ptreeChildren pt') segment = cs' at hmatching
  cases hmatching with
  | nil => exact .none
  | cons hc _ => exact .some hc

theorem Deleted.foldlM_findPtreeChild {pt pt' : Ptree} (hxml : FromXml pt) (h : Deleted pt pt')
    {segments : List Text} (hsegments : ∀ segment ∈ segments, iequals xmlcomment segment = false) :
    Option.Rel (fun m m' => FromXml m ∧ Deleted m m') (segments.foldlM Ptree.findPtreeChild pt)
      (segments.foldlM Ptree.findPtreeChild pt') := by
  induction segments generalizing pt pt' with
  | nil => exact .some ⟨hxml,h⟩
  | cons segment segments ih =>
    obtain ⟨hsegment,hsegments⟩ := List.forall_mem_cons.mp hsegments
    have hchild := h.findPtreeChild hxml hsegment
    rw [List.foldlM_cons,List.foldlM_cons]
    generalize Ptree.findPtreeChild pt segment = c at hchild
    generalize Ptree.findPtreeChild pt' segment = c' at hchild
    cases hchild with
    | none => exact .none
    | some hc => exact ih hc.1 hc.2 hsegments

/-- The loaded configuration: `read` of an XML file, with documents attached by name. -/
def xmlConfiguration (parsed : Ptree) (attached : List (Text × Document φ δ)) (strict : Bool) :
    Configuration φ δ :=
  let doc := Document.node (.ptree (xmlRoot parsed)) attached
  ⟨doc,doc.root,strict⟩

theorem foldlM_findChild (impl : Address) (pt : Ptree) (segments : List Text) :
    (segments.foldlM findChild (⟨impl,.ptree pt⟩ : Node φ δ)).map Node.tree =
      (segments.foldlM findPtreeChild pt).map .ptree := by
  induction segments generalizing impl pt with
  | nil => rfl
  | cons segment segments ih =>
    have hchild := findChild_ptree (φ := φ) (δ := δ) impl pt segment
    rw [List.foldlM_cons,List.foldlM_cons]
    cases hc : findPtreeChild pt segment with
    | none =>
      rw [hc,Option.map_none,Option.map_eq_none_iff] at hchild
      rw [hchild]
      rfl
    | some c =>
      rw [hc] at hchild
      obtain ⟨⟨impl,tree⟩,hn,htree⟩ := Option.map_eq_some_iff.mp hchild
      cases htree
      rw [hn]
      exact ih impl c

/-- The tree that a path from the root leads to. -/
def resolvedTree (root : Ptree) (attached : List (Text × Document φ δ)) (path : Text) :
    Option (Tree φ δ) :=
  (resolve (.node (.ptree root) attached) (Document.node (.ptree root) attached).root path).map
    Node.tree

theorem resolvedTree_eq (root : Ptree) (attached : List (Text × Document φ δ)) (path : Text) :
    resolvedTree root attached path = (segments path).head?.elim (some (.ptree root)) fun segment =>
      (findPtreeChild root segment).elim
        (((attached.zipIdx.find? fun e => iequals e.1.1 segment).map
          fun e => e.1.2.rootNode (e.2+1)).bind fun m =>
            ((segments path).tail.foldlM findChild m).map Node.tree)
        fun c => ((segments path).tail.foldlM findPtreeChild c).map .ptree := by
  rw [resolvedTree,resolve_first]
  cases (segments path).head? with
  | none => rfl
  | some segment =>
    have hchild := findChild_ptree (φ := φ) (δ := δ) ⟨0,[]⟩ root segment
    rw [Option.elim_some,Option.elim_some]
    change (((findChild ⟨⟨0,[]⟩,.ptree root⟩ segment).or _).bind _).map _ = _
    cases hc : findPtreeChild root segment with
    | none =>
      rw [hc,Option.map_none,Option.map_eq_none_iff] at hchild
      rw [hchild,Option.none_or,findAttached,if_pos rfl,Option.map_bind]
      rfl
    | some c =>
      rw [hc] at hchild
      obtain ⟨⟨impl,tree⟩,hn,htree⟩ := Option.map_eq_some_iff.mp hchild
      cases htree
      rw [hn,Option.some_or,Option.bind_some,foldlM_findChild]
      rfl

theorem elementAt_eq (root : Ptree) (path : Text) : elementAt root path =
    (segments path).head?.elim (some root) fun segment =>
      (findPtreeChild root segment).bind fun c => (segments path).tail.foldlM findPtreeChild c := by
  rw [elementAt]
  cases segments path with
  | nil => rfl
  | cons segment segments => exact List.foldlM_cons

/-- What is found in the document is read there; what is not, is read elsewhere in the same
way for both. -/
theorem resolvedTree_deleted {root root' : Ptree} (hxml : FromXml root) (h : Deleted root root')
    (attached : List (Text × Document φ δ)) {path : Text} (hpath : PlainPath path) :
    (∃ m m', elementAt root path = some m ∧ elementAt root' path = some m' ∧ FromXml m ∧
      Deleted m m' ∧ resolvedTree root attached path = some (.ptree m) ∧
      resolvedTree root' attached path = some (.ptree m')) ∨
    (elementAt root path = none ∧ elementAt root' path = none ∧
      resolvedTree root attached path = resolvedTree root' attached path) := by
  rw [PlainPath] at hpath
  simp only [resolvedTree_eq,elementAt_eq]
  generalize segments path = names at hpath
  cases names with
  | nil => exact .inl ⟨root,root',rfl,rfl,hxml,h,rfl,rfl⟩
  | cons segment segments =>
    obtain ⟨hsegment,hsegments⟩ := List.forall_mem_cons.mp hpath
    have hchild := h.findPtreeChild hxml hsegment
    simp only [List.head?_cons,Option.elim_some,List.tail_cons]
    generalize Ptree.findPtreeChild root segment = c at hchild
    generalize Ptree.findPtreeChild root' segment = c' at hchild
    cases hchild with
    | none => exact .inr ⟨rfl,rfl,rfl⟩
    | @some c c' hc =>
      have hwalk := hc.2.foldlM_findPtreeChild hc.1 hsegments
      simp only [Option.elim_some,Option.bind_some]
      generalize segments.foldlM Ptree.findPtreeChild c = m at hwalk
      generalize segments.foldlM Ptree.findPtreeChild c' = m' at hwalk
      cases hwalk with
      | none => exact .inr ⟨rfl,rfl,rfl⟩
      | some hm => exact .inl ⟨_,_,rfl,rfl,hm.1,hm.2,rfl,rfl⟩

/-! ### Configurations -/

/-- What a tree of the document is converted to. -/
def valueOf : Tree φ δ → FieldValue φ
  | .ptree pt => toValue pt
  | .toml n => Toml.toValue n

theorem get_eq {σ κ : Type} (P : Program σ κ φ) (parsed : Ptree)
    (attached : List (Text × Document φ δ)) (strict : Bool) (path : Text) (e : Elem σ κ φ)
    (isOptional : Bool) : (xmlConfiguration parsed attached strict).get P path e isOptional =
      getInto P ((resolvedTree (xmlRoot parsed) attached path).map valueOf) e isOptional path
        strict := by
  rw [Configuration.get,resolvedTree,Option.map_map]
  rfl

/-- Two calls at one path are the same read if and only if the nodes are bound alike. -/
theorem sameRead_iff {σ κ : Type} (P : Program σ κ φ) (node node' : Option (FieldValue φ))
    (e : Elem σ κ φ) (isOptional : Bool) (path : Text) (strict : Bool) :
    SameRead (getInto P node e isOptional path strict) (getInto P node' e isOptional path strict) ↔
      ∀ out, (bindResolvedNode P node e isOptional out path strict).toOption =
        (bindResolvedNode P node' e isOptional out path strict).toOption := by
  refine forall_congr' fun out => ?_
  rw [getInto_run,getInto_run]
  cases bindResolvedNode P node e isOptional out path strict <;>
    cases bindResolvedNode P node' e isOptional out path strict <;> simp [Except.toOption]

/-- Deleting comments changes nothing: the same element is made the root, or none, and every
path and every type without a `<xmlcomment>` in them reads the same, with any documents
attached. -/
structure SameConfiguration (φ δ : Type) (parsed parsed' : Ptree) : Prop where
  root : (documentElement parsed).map Prod.fst = (documentElement parsed').map Prod.fst
  get : ∀ (attached : List (Text × Document φ δ)) (strict : Bool) (σ κ : Type)
    (P : Program σ κ φ), Ignores P xmlcomment → ∀ path, PlainPath path →
    ∀ (e : Elem σ κ φ) isOptional,
      SameRead ((xmlConfiguration parsed attached strict).get P path e isOptional)
        ((xmlConfiguration parsed' attached strict).get P path e isOptional)

/-- Documents of as many children make the same one the root. -/
theorem Deleted.root {parsed parsed' : Ptree} (hxml : FromXml parsed) (h : Deleted parsed parsed')
    (hsize : parsed.children.length = 1 ↔ parsed'.children.length = 1) :
    (documentElement parsed).map Prod.fst = (documentElement parsed').map Prod.fst ∧
      FromXml (xmlRoot parsed) ∧ Deleted (xmlRoot parsed) (xmlRoot parsed') := by
  have hchild := hxml.child
  have hwhole : ∀ pt : Ptree, pt.children.length ≠ 1 → documentElement pt = none := by
    intro pt hpt
    rw [documentElement]
    split
    · next hone => exact absurd (congrArg List.length hone) hpt
    · rfl
  by_cases hone : parsed.children.length = 1
  · obtain ⟨⟨key,child⟩,he⟩ := List.length_eq_one_iff.mp hone
    obtain ⟨⟨key',child'⟩,he'⟩ := List.length_eq_one_iff.mp (hsize.mp hone)
    have hamong := h.among
    rw [he,he'] at hamong
    rw [xmlRoot,xmlRoot,documentElement,documentElement,he,he']
    cases hamong with
    | keep _ hdeleted _ => exact ⟨rfl,hchild (key,child) (by simp [he]),hdeleted⟩
    | delete _ hnone => cases hnone
  · rw [xmlRoot,xmlRoot,hwhole parsed hone,hwhole parsed' fun h => hone (hsize.mpr h)]
    exact ⟨rfl,hxml,h⟩

theorem documentElement_isSome (parsed : Ptree) :
    ((documentElement parsed).map Prod.fst).isSome = true ↔ parsed.children.length = 1 := by
  rw [Option.isSome_map,documentElement]
  split
  · next hone => exact iff_of_true rfl (congrArg List.length hone)
  · next hother =>
    refine iff_of_false nofun fun hone => ?_
    obtain ⟨e,he⟩ := List.length_eq_one_iff.mp hone
    exact hother e he

/-- Deleting comments from an XML document changes no configuration if and only if the document
keeps more than one child or has one throughout, and no deletion can be noticed at any node
that a path leads to. -/
theorem sameConfiguration_iff (φ δ : Type) {parsed parsed' : Ptree} (hxml : FromXml parsed)
    (h : Deleted parsed parsed') : SameConfiguration φ δ parsed parsed' ↔
      (parsed.children.length = 1 ↔ parsed'.children.length = 1) ∧
      ∀ path, PlainPath path → ∀ m m', elementAt (xmlRoot parsed) path = some m →
        elementAt (xmlRoot parsed') path = some m' → Unnoticed m m' := by
  have hsize : (documentElement parsed).map Prod.fst = (documentElement parsed').map Prod.fst →
      (parsed.children.length = 1 ↔ parsed'.children.length = 1) := by
    intro hroot
    rw [← documentElement_isSome,← documentElement_isSome,hroot]
  constructor
  · rintro ⟨hroot,hget⟩
    refine ⟨hsize hroot,fun path hpath m m' hm hm' => ?_⟩
    obtain ⟨-,hxmlRoot,hdeleted⟩ := h.root hxml (hsize hroot)
    rcases resolvedTree_deleted (φ := φ) (δ := δ) hxmlRoot hdeleted [] hpath with
      ⟨n,n',hn,hn',hxmln,hdeletedn,htree,htree'⟩ | ⟨hn,-,-⟩
    · cases hm.symm.trans hn
      cases hm'.symm.trans hn'
      refine (sameReadings_toValue (φ := φ) hxmln hdeletedn).mp ?_
      intro σ κ P hP e isOptional out path' strict
      have hread := hget [] strict σ κ P hP path hpath e isOptional
      rw [get_eq,get_eq,htree,htree',sameRead_iff] at hread
      exact (bindResolvedNode_path P _ e isOptional out path' path strict).trans
        ((hread out).trans (bindResolvedNode_path P _ e isOptional out path path' strict))
    · rw [hm] at hn
      cases hn
  · rintro ⟨hsize,hunnoticed⟩
    obtain ⟨hroot,hxmlRoot,hdeleted⟩ := h.root hxml hsize
    refine ⟨hroot,fun attached strict σ κ P hP path hpath e isOptional => ?_⟩
    rw [get_eq,get_eq,sameRead_iff]
    intro out
    rcases resolvedTree_deleted hxmlRoot hdeleted attached hpath with
      ⟨m,m',hm,hm',hxmlm,hdeletedm,htree,htree'⟩ | ⟨-,-,htree⟩
    · rw [htree,htree']
      exact (sameReadings_toValue hxmlm hdeletedm).mpr (hunnoticed path hpath m m' hm hm') σ κ P hP
        e isOptional out path strict
    · rw [htree]

/-- The name `threads`. -/
def threadsName : Text := ['t','h','r','e','a','d','s']

/-- `<!-- pool --><config><threads>8</threads></config>`. -/
def besideRoot : Ptree :=
  .node [] [(xmlcomment,.node " pool ".toList []),
    ("config".toList,.node [] [(threadsName,.node ['8'] [])])]

/-- `<config><threads>8<!-- pool --></threads></config>`. -/
def insideLeaf : Ptree :=
  .node [] [("config".toList,.node []
    [(threadsName,.node ['8'] [(xmlcomment,.node " pool ".toList [])])])]

/-- `<config><!-- pool --><threads>8</threads></config>`. -/
def insideStruct : Ptree :=
  .node [] [("config".toList,.node [] [(xmlcomment,.node " pool ".toList []),
    (threadsName,.node ['8'] [])])]

/-- `<config><threads>8</threads></config>`. -/
def uncommented : Ptree := .node [] [("config".toList,.node [] [(threadsName,.node ['8'] [])])]

/-- `struct { int threads; }`. -/
def threadsProgram : Program Unit Empty Unit where
  structs _ := {
    fields := [⟨threadsName,.one (.leaf (.integral true 32))⟩]
    init := [.scalar (.integer 0)] }
  floats := noFloats Unit
  linearScanFieldThreshold := 16

/-- An element before the others. -/
theorem FromXml.cons {data key : Text} {child : Ptree} {children : List (Text × Ptree)}
    (hkey : IsName key) (hchild : FromXml child) (h : FromXml (.node data children)) :
    FromXml (.node data ((key,child) :: children)) := by
  obtain ⟨keys,attributes,comments,elements⟩ := h
  have hattr : key ≠ xmlattr := fun heq => absurd (heq ▸ hkey) (by decide)
  have hcomment : key ≠ xmlcomment := fun heq => absurd (heq ▸ hkey) (by decide)
  exact ⟨List.forall_mem_cons.mpr ⟨.inr (.inr hkey),keys⟩,
    List.forall_mem_cons.mpr ⟨fun heq => absurd heq hattr,attributes⟩,
    List.forall_mem_cons.mpr ⟨fun heq => absurd heq hcomment,comments⟩,
    List.forall_mem_cons.mpr ⟨fun _ => hchild,elements⟩⟩

/-- A comment before the others. -/
theorem FromXml.comment {data text : Text} {children : List (Text × Ptree)}
    (h : FromXml (.node data children)) :
    FromXml (.node data ((xmlcomment,.node text []) :: children)) := by
  obtain ⟨keys,attributes,comments,elements⟩ := h
  have hattr : xmlcomment ≠ xmlattr := by decide
  have hname : ¬ IsName xmlcomment := by decide
  exact ⟨List.forall_mem_cons.mpr ⟨.inr (.inl rfl),keys⟩,
    List.forall_mem_cons.mpr ⟨fun heq => absurd heq hattr,attributes⟩,
    List.forall_mem_cons.mpr ⟨fun _ => rfl,comments⟩,
    List.forall_mem_cons.mpr ⟨fun h => absurd h hname,elements⟩⟩

theorem fromXml_leaf (data : Text) : FromXml (.node data []) := fromXml_of_isEmpty rfl

theorem besideRoot_fromXml : FromXml besideRoot :=
  .comment (.cons (by decide) (.cons (by decide) (fromXml_leaf _) (fromXml_leaf _))
    (fromXml_leaf _))

theorem besideRoot_deleted : Deleted besideRoot uncommented :=
  .node _ (.delete _ (.keep _ (.node _ (.keep _ (.node _ .nil) .nil)) .nil))

theorem sameConfiguration_iff_besideRoot : SameConfiguration Unit Unit besideRoot uncommented ↔
    (besideRoot.children.length = 1 ↔ uncommented.children.length = 1) ∧
    ∀ path, PlainPath path → ∀ m m', elementAt (xmlRoot besideRoot) path = some m →
      elementAt (xmlRoot uncommented) path = some m' → Unnoticed m m' :=
  sameConfiguration_iff Unit Unit besideRoot_fromXml besideRoot_deleted

theorem ignores_threads : Ignores threadsProgram xmlcomment := by
  rintro _ field hfield
  rw [List.mem_singleton.mp hfield]
  decide

/-- Where a node can be read in the second document alone, the configurations differ. -/
theorem not_sameConfiguration {parsed parsed' m m' : Ptree} {path : Text} (hpath : PlainPath path)
    (hm : resolvedTree (xmlRoot parsed) ([] : List (Text × Document Unit Unit)) path =
      some (.ptree m))
    (hm' : resolvedTree (xmlRoot parsed') ([] : List (Text × Document Unit Unit)) path =
      some (.ptree m')) (e : Elem Unit Empty Unit) (strict : Bool)
    (hfails : (bindResolvedNode threadsProgram (some (toValue m)) e false (.vector []) path
      strict).toOption = none) {value : Value Unit}
    (hreads : (bindResolvedNode threadsProgram (some (toValue m')) e false (.vector []) path
      strict).toOption = some value) : ¬ SameConfiguration Unit Unit parsed parsed' := by
  intro h
  have hsame := h.get [] strict Unit Empty threadsProgram ignores_threads path hpath e false
  rw [get_eq,get_eq,hm,hm',sameRead_iff] at hsame
  have hvalue := hfails.symm.trans ((hsame _).trans hreads)
  cases hvalue

/-- The number is a struct of its comment and its text. -/
theorem insideLeaf_differs : ¬ SameConfiguration Unit Unit insideLeaf uncommented := by
  have hsegments : segments threadsName = [threadsName] :=
    segments_single (by simp [threadsName]) (List.cons_ne_nil _ _)
  have hpath : PlainPath threadsName := by
    rw [PlainPath,hsegments]
    decide
  have hbefore : resolvedTree (xmlRoot insideLeaf) ([] : List (Text × Document Unit Unit))
      threadsName = some (.ptree (.node ['8'] [(xmlcomment,.node " pool ".toList [])])) := by
    rw [resolvedTree_eq,hsegments]
    rfl
  have hafter : resolvedTree (xmlRoot uncommented) ([] : List (Text × Document Unit Unit))
      threadsName = some (.ptree (.node ['8'] [])) := by
    rw [resolvedTree_eq,hsegments]
    rfl
  exact not_sameConfiguration hpath hbefore hafter (.leaf (.integral true 32)) false rfl rfl

/-- Strict binding rejects the comment. -/
theorem insideStruct_differs : ¬ SameConfiguration Unit Unit insideStruct uncommented := by
  have hsegments : segments [] = [] := by rw [segments,if_pos rfl]
  have hpath : PlainPath [] := by
    rw [PlainPath,hsegments]
    exact fun _ h => absurd h List.not_mem_nil
  have hbefore : resolvedTree (xmlRoot insideStruct) ([] : List (Text × Document Unit Unit)) [] =
      some (.ptree (xmlRoot insideStruct)) := by
    rw [resolvedTree_eq,hsegments]
    rfl
  have hafter : resolvedTree (xmlRoot uncommented) ([] : List (Text × Document Unit Unit)) [] =
      some (.ptree (xmlRoot uncommented)) := by
    rw [resolvedTree_eq,hsegments]
    rfl
  exact not_sameConfiguration hpath hbefore hafter (.struct ()) true rfl rfl

/-- A comment beside the root element, one inside a number and one inside a struct: deleting it
changes the configuration. -/
theorem comments_change_configuration :
    (FromXml besideRoot ∧ Deleted besideRoot uncommented ∧
      ¬ SameConfiguration Unit Unit besideRoot uncommented) ∧
    (FromXml insideLeaf ∧ Deleted insideLeaf uncommented ∧
      ¬ SameConfiguration Unit Unit insideLeaf uncommented) ∧
    FromXml insideStruct ∧ Deleted insideStruct uncommented ∧
      ¬ SameConfiguration Unit Unit insideStruct uncommented := by
  refine ⟨⟨besideRoot_fromXml,besideRoot_deleted,fun h => ?_⟩,⟨?_,?_,insideLeaf_differs⟩,?_,?_,
    insideStruct_differs⟩
  · have hroot := h.root
    cases hroot
  · exact .cons (by decide) (.cons (by decide) (.comment (fromXml_leaf _)) (fromXml_leaf _))
      (fromXml_leaf _)
  · exact .node _ (.keep _ (.node _ (.keep _ (.node _ (.delete _ .nil)) .nil)) .nil)
  · exact .cons (by decide) (.comment (.cons (by decide) (fromXml_leaf _) (fromXml_leaf _)))
      (fromXml_leaf _)
  · exact .node _ (.keep _ (.node _ (.delete _ (.keep _ (.node _ .nil) .nil))) .nil)

end Ptree
end Marketlib
