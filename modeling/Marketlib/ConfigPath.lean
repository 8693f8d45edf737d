import Marketlib.FilledInPlace
import Marketlib.PtreeBridge
import Marketlib.TomlBridge

/-! `ConfigParser`: documents with others attached to them by name, and paths into them. A node
is a handle: the address of a tree, which is compared, and the tree. -/

namespace Marketlib
namespace ConfigParser

open Binding Ptree

/-- A subtree in the form in which its parser produced it. -/
inductive Tree (φ δ : Type)
  | ptree (pt : Ptree)
  | toml (n : Toml.Node φ δ)

/-- The tree of a document. -/
inductive Native (φ δ : Type)
  | ptree (pt : Ptree)
  | toml (t : Toml.Table φ δ)

/-- A document, and those attached to it. -/
inductive Document (φ δ : Type)
  | node (native : Native φ δ) (attached : List (Text × Document φ δ))

/-- The primary document is number zero, the attached ones follow; the position of a node is
that of its entry in each list on the way to it. -/
structure Address where
  document : ℕ
  position : List ℕ
  deriving DecidableEq

structure Node (φ δ : Type) where
  impl : Address
  tree : Tree φ δ

variable {φ δ : Type}

def Document.native : Document φ δ → Native φ δ
  | .node native _ => native

def Document.attached : Document φ δ → List (Text × Document φ δ)
  | .node _ attached => attached

/-- `root_node`, of the document with a number. -/
def Document.rootNode (doc : Document φ δ) (number : ℕ) : Node φ δ where
  impl := ⟨number,[]⟩
  tree := match doc.native with
    | .ptree pt => .ptree pt
    | .toml t => .toml (.table t)

/-- `root`. -/
def Document.root (doc : Document φ δ) : Node φ δ := doc.rootNode 0

/-- `load_into`, of a file that was read as `file`. -/
def Document.loadInto (doc : Document φ δ) (name : Text) (file : Document φ δ) : Document φ δ :=
  .node doc.native (doc.attached ++ [(name,file)])

/-! ### Children -/

/-- What is visited for each entry of a list, with the entry's index and its own. -/
def childrenAt {α β : Type} (visited : α → List (Named β)) (entries : List α) :
    List (Named (List ℕ × β)) :=
  entries.zipIdx.flatMap fun (e,i) =>
    (visited e).zipIdx.map fun (c,j) => ⟨c.name,[i,j],c.value⟩

def Tree.childrenAt : Tree φ δ → List (Named (List ℕ × Tree φ δ))
  | .ptree pt => (ConfigParser.childrenAt ptreeEntryChildren pt.children).map
      (Named.map fun c => (c.1,.ptree c.2))
  | .toml n => (n.asTable.elim [] (ConfigParser.childrenAt Toml.tomlEntryChildren)).map
      (Named.map fun c => (c.1,.toml c.2))

/-- `find_child`: the first child that is visited under the segment. -/
def findChild (n : Node φ δ) (segment : Text) : Option (Node φ δ) :=
  (matching n.tree.childrenAt segment).head?.map fun (position,tree) =>
    ⟨⟨n.impl.document,n.impl.position ++ position⟩,tree⟩

theorem childrenAt_map {α β : Type} (visited : α → List (Named β)) (entries : List α) :
    (childrenAt visited entries).map (Named.map Prod.snd) = entries.flatMap visited := by
  have hone : ∀ (cs : List (Named β)) (i k : ℕ),
      ((cs.zipIdx k).map fun (c,j) => (⟨c.name,[i,j],c.value⟩ : Named (List ℕ × β))).map
        (Named.map Prod.snd) = cs := by
    intro cs i k
    rw [List.map_map]
    exact List.zipIdx_map_fst k cs
  have hall : ∀ k, ((entries.zipIdx k).flatMap fun (e,i) => (visited e).zipIdx.map fun (c,j) =>
      (⟨c.name,[i,j],c.value⟩ : Named (List ℕ × β))).map (Named.map Prod.snd) =
        entries.flatMap visited := by
    induction entries with
    | nil => exact fun _ => rfl
    | cons e entries ih =>
      intro k
      rw [List.zipIdx_cons,List.flatMap_cons,List.map_append,hone,ih,List.flatMap_cons]
  exact hall 0

theorem matching_childrenAt {α β : Type} (visited : α → List (Named β)) (entries : List α)
    (name : Text) : (matching (childrenAt visited entries) name).map Prod.snd =
      matching (entries.flatMap visited) name := by
  rw [← matching_map,childrenAt_map]

/-- The addresses aside, a path sees the child that `find_ptree_child` finds. -/
theorem findChild_ptree (impl : Address) (pt : Ptree) (segment : Text) :
    (findChild (⟨impl,.ptree pt⟩ : Node φ δ) segment).map Node.tree =
      (findPtreeChild pt segment).map .ptree := by
  rw [findPtreeChild_eq,ptreeChildren,← matching_childrenAt,findChild,Tree.childrenAt,matching_map,
    List.head?_map,List.head?_map,Option.map_map,Option.map_map,Option.map_map]
  rfl

/-- Below a table, it sees the one that `find_toml_child` finds. -/
theorem findChild_toml (impl : Address) (n : Toml.Node φ δ) (segment : Text) :
    (findChild ⟨impl,.toml n⟩ segment).map Node.tree =
      n.asTable.bind fun t => (Toml.findTomlChild t segment).map .toml := by
  rw [findChild,Tree.childrenAt,matching_map,List.head?_map,Option.map_map,Option.map_map]
  cases n.asTable with
  | none => rfl
  | some t =>
    rw [Option.bind_some,Toml.findTomlChild_eq,Toml.tomlChildren,← matching_childrenAt,
      List.head?_map,Option.map_map]
    rfl

theorem position_ne_nil {tree : Tree φ δ} {c : Named (List ℕ × Tree φ δ)}
    (hc : c ∈ tree.childrenAt) : c.value.1 ≠ [] := by
  have hlist : ∀ {α β : Type} (visited : α → List (Named β)) (entries : List α)
      (d : Named (List ℕ × β)), d ∈ childrenAt visited entries → d.value.1 ≠ [] := by
    intro α β visited entries d hd
    obtain ⟨⟨e,i⟩,-,hd⟩ := List.mem_flatMap.mp hd
    obtain ⟨⟨c,j⟩,-,rfl⟩ := List.mem_map.mp hd
    exact List.cons_ne_nil _ _
  cases tree with
  | ptree pt =>
    obtain ⟨d,hd,rfl⟩ := List.mem_map.mp hc
    exact hlist _ _ d hd
  | toml n =>
    obtain ⟨d,hd,rfl⟩ := List.mem_map.mp hc
    cases ht : n.asTable with
    | none =>
      rw [ht] at hd
      cases hd
    | some t =>
      rw [ht] at hd
      exact hlist _ _ d hd

/-- No child is where a root is. -/
theorem findChild_impl {n m : Node φ δ} {segment : Text} (h : findChild n segment = some m)
    (number : ℕ) : m.impl ≠ ⟨number,[]⟩ := by
  obtain ⟨⟨position,tree⟩,hc,rfl⟩ := Option.map_eq_some_iff.mp h
  have hposition : position ≠ [] := by
    obtain ⟨c,hmem,-,hvalue⟩ := mem_matching.mp (List.mem_of_head? hc)
    have hne := position_ne_nil hmem
    rwa [hvalue] at hne
  intro heq
  exact hposition (List.append_eq_nil_iff.mp (Address.mk.inj heq).2).2

/-! ### Paths -/

/-- The first attached document of a name, for the root alone. -/
def findAttached (doc : Document φ δ) (current : Node φ δ) (segment : Text) :
    Option (Node φ δ) :=
  if current.impl = doc.root.impl then
    (doc.attached.zipIdx.find? fun e => iequals e.1.1 segment).map
      fun e => e.1.2.rootNode (e.2+1)
  else none

/-- The node that a segment leads to. -/
def next (doc : Document φ δ) (current : Node φ δ) (segment : Text) : Option (Node φ δ) :=
  (findChild current segment).or (findAttached doc current segment)

/-- The segment before the first dot. -/
def firstSegment (path : Text) : Text := path.takeWhile (· ≠ '.')

/-- The path behind the first dot, empty when there is none. -/
def restOfPath (path : Text) : Text := (path.dropWhile (· ≠ '.')).tail

theorem restOfPath_length {path : Text} (h : path ≠ []) :
    (restOfPath path).length < path.length := by
  have hdrop := (List.dropWhile_sublist (· ≠ '.') (l := path)).length_le
  have hpos := List.length_pos_iff.mpr h
  rw [restOfPath,List.length_tail]
  omega

/-- The loop of `resolve`. -/
def resolve (doc : Document φ δ) (current : Node φ δ) (path : Text) : Option (Node φ δ) :=
  if path = [] then some current
  else (next doc current (firstSegment path)).bind fun next =>
    resolve doc next (restOfPath path)
termination_by path.length
decreasing_by exact restOfPath_length ‹_›

/-- The segments that the loop takes off a path. A dot at the end adds none. -/
def segments (path : Text) : List Text :=
  if path = [] then [] else firstSegment path :: segments (restOfPath path)
termination_by path.length
decreasing_by exact restOfPath_length ‹_›

theorem resolve_eq (doc : Document φ δ) (current : Node φ δ) (path : Text) :
    resolve doc current path = (segments path).foldlM (next doc) current := by
  induction path using segments.induct generalizing current with
  | case1 =>
    rw [resolve,segments,if_pos rfl,if_pos rfl]
    rfl
  | case2 path h ih =>
    rw [resolve,segments,if_neg h,if_neg h,List.foldlM_cons]
    exact congrArg _ (funext fun next => ih next)

/-- A segment with a dot behind it. -/
theorem segments_dot {s : Text} (hs : ∀ c ∈ s, c ≠ '.') (rest : Text) :
    segments (s ++ '.' :: rest) = s :: segments rest := by
  have hkeep : ∀ c ∈ s, decide (c ≠ '.') = true := fun c hc => decide_eq_true (hs c hc)
  have hfirst : firstSegment (s ++ '.' :: rest) = s := by
    rw [firstSegment,List.takeWhile_append_of_pos hkeep]
    exact List.append_nil s
  have hrest : restOfPath (s ++ '.' :: rest) = rest := by
    rw [restOfPath,List.dropWhile_append_of_pos hkeep]
    rfl
  rw [segments,if_neg (by simp),hfirst,hrest]

theorem segments_single {s : Text} (hs : ∀ c ∈ s, c ≠ '.') (hne : s ≠ []) : segments s = [s] := by
  have hkeep : ∀ c ∈ s, decide (c ≠ '.') = true := fun c hc => decide_eq_true (hs c hc)
  have hrest : restOfPath s = [] := by
    rw [restOfPath,List.dropWhile_eq_nil_iff.mpr hkeep]
    rfl
  rw [segments,if_neg hne,firstSegment,List.takeWhile_eq_self_iff.mpr hkeep,hrest,segments,
    if_pos rfl]

/-- The induction is on the length of what stands before the dot. -/
theorem segments_append {a : Text} (ha : a ≠ []) (hdot : a.getLast? ≠ some '.') (b : Text) :
    segments (a ++ '.' :: b) = segments a ++ segments b := by
  induction hlength : a.length using Nat.strong_induction_on generalizing a with
  | h n ih =>
    by_cases hmem : '.' ∈ a
    · obtain ⟨s,rest,rfl,hs⟩ := List.eq_append_cons_of_mem hmem
      have hs' : ∀ c ∈ s, c ≠ '.' := fun c hc h => hs (h ▸ hc)
      have hrest : rest ≠ [] := by
        rintro rfl
        exact hdot List.getLast?_concat
      have hlast : rest.getLast? ≠ some '.' := by
        intro h
        rw [List.getLast?_append_cons,List.getLast?_cons,h] at hdot
        exact hdot rfl
      have hshort : rest.length < n := by
        rw [← hlength,List.length_append,List.length_cons]
        omega
      rw [List.append_assoc,List.cons_append,segments_dot hs',segments_dot hs',
        ih rest.length hshort hrest hlast rfl,List.cons_append]
    · have hplain : ∀ c ∈ a, c ≠ '.' := fun c hc h => hmem (h ▸ hc)
      rw [segments_dot hplain,segments_single hplain ha,List.singleton_append]

/-! ### Composition -/

theorem findAttached_inside {doc : Document φ δ} {n : Node φ δ} (h : n.impl ≠ ⟨0,[]⟩)
    (segment : Text) : findAttached doc n segment = none := if_neg h

theorem findAttached_impl {doc : Document φ δ} {n m : Node φ δ} {segment : Text}
    (h : findAttached doc n segment = some m) : m.impl ≠ ⟨0,[]⟩ := by
  rw [findAttached] at h
  split_ifs at h
  obtain ⟨⟨_,k⟩,-,rfl⟩ := Option.map_eq_some_iff.mp h
  exact fun heq => absurd (Address.mk.inj heq).1 k.succ_ne_zero

/-- No segment leads back to the root. -/
theorem next_impl {doc : Document φ δ} {n m : Node φ δ} {segment : Text}
    (h : next doc n segment = some m) : m.impl ≠ ⟨0,[]⟩ := by
  rcases Option.or_eq_some_iff.mp h with h | ⟨-,h⟩
  · exact findChild_impl h 0
  · exact findAttached_impl h

/-- Away from the root a walk never sees an attachment. -/
theorem foldlM_next_inside (doc : Document φ δ) (segments : List Text) {n : Node φ δ}
    (h : n.impl ≠ ⟨0,[]⟩) : segments.foldlM (next doc) n = segments.foldlM findChild n := by
  induction segments generalizing n with
  | nil => rfl
  | cons segment segments ih =>
    rw [List.foldlM_cons,List.foldlM_cons,next,findAttached_inside h,Option.or_none]
    cases hchild : findChild n segment with
    | none => rfl
    | some m => exact ih (findChild_impl hchild 0)

/-- The first segment may find an attachment, from the root and where the primary document has
no child; the others see the tree that the first one led into. -/
theorem resolve_first (doc : Document φ δ) (n : Node φ δ) (path : Text) :
    resolve doc n path = (segments path).head?.elim (some n) fun segment =>
      ((findChild n segment).or (findAttached doc n segment)).bind fun m =>
        (segments path).tail.foldlM findChild m := by
  rw [resolve_eq]
  cases segments path with
  | nil => rfl
  | cons segment rest =>
    rw [List.foldlM_cons]
    change (next doc n segment).bind _ = (next doc n segment).bind _
    cases hnext : next doc n segment with
    | none => rfl
    | some m => exact foldlM_next_inside doc rest (next_impl hnext)

/-- Resolving a path with a dot in it is resolving what stands before and behind the dot. -/
theorem resolve_dot (doc : Document φ δ) (n : Node φ δ) {a : Text} (ha : a ≠ [])
    (hdot : a.getLast? ≠ some '.') (b : Text) :
    resolve doc n (a ++ '.' :: b) = (resolve doc n a).bind fun m => resolve doc m b := by
  rw [resolve_eq,segments_append ha hdot,List.foldlM_append,resolve_eq]
  exact congrArg _ (funext fun m => (resolve_eq doc m b).symm)

/-! ### Configurations -/

/-- `ConfigParser::to_value`. -/
def Node.toValue (n : Node φ δ) : FieldValue φ :=
  match n.tree with
  | .ptree pt => Ptree.toValue pt
  | .toml n => Toml.toValue n

structure Configuration (φ δ : Type) where
  doc : Document φ δ
  node : Node φ δ
  strict : Bool

/-- `section`. -/
def Configuration.sectionAt (c : Configuration φ δ) (path : Text) :
    Except BindError (Configuration φ δ) :=
  match resolve c.doc c.node path with
  | none => .error (.missingField path)
  | some node => .ok { c with node := node }

/-- `get(path, out)`. -/
def Configuration.get {σ κ : Type} (P : Program σ κ φ) (c : Configuration φ δ) (path : Text)
    (e : Elem σ κ φ) (isOptional : Bool) : Filling φ PUnit :=
  getInto P ((resolve c.doc c.node path).map Node.toValue) e isOptional path c.strict

/-- Two calls that fail alike and leave the same in the caller's object. -/
def SameRead (x x' : Filling φ PUnit) : Prop :=
  ∀ out, (x out).1.toOption = (x' out).1.toOption ∧ (x out).2 = (x' out).2

/-- Reading at `b` through the section at `a` is reading at `a.b`, where `a` is a section;
elsewhere there is nothing at `a.b`. -/
def Configuration.SectionReads (c : Configuration φ δ) (a b : Text) : Prop :=
  match c.sectionAt a with
  | .error _ => resolve c.doc c.node (a ++ '.' :: b) = none
  | .ok c' => ∀ (σ κ : Type) (P : Program σ κ φ) (e : Elem σ κ φ) (isOptional : Bool),
      SameRead (c'.get P b e isOptional) (c.get P (a ++ '.' :: b) e isOptional)

theorem sectionReads (c : Configuration φ δ) {a : Text} (ha : a ≠ [])
    (hdot : a.getLast? ≠ some '.') (b : Text) : c.SectionReads a b := by
  have hresolve := resolve_dot c.doc c.node ha hdot b
  rw [Configuration.SectionReads,Configuration.sectionAt]
  cases hnode : resolve c.doc c.node a with
  | none =>
    rw [hnode] at hresolve
    exact hresolve
  | some n =>
    intro σ κ P e isOptional out
    rw [hnode,Option.bind_some] at hresolve
    rw [Configuration.get,Configuration.get,hresolve]
    exact getInto_path P _ e isOptional b (a ++ '.' :: b) c.strict out

theorem find?_zipIdx {α : Type} {p : α → Bool} {xs : List α} {k i : ℕ} {x : α} :
    (xs.zipIdx k).find? (fun e => p e.1) = some (x,i) ↔
      ∃ before after, xs = before ++ x :: after ∧ p x = true ∧ (∀ y ∈ before, p y = false) ∧
        i = before.length+k := by
  induction xs generalizing k with
  | nil => simp
  | cons y xs ih =>
    rw [List.zipIdx_cons,List.find?_cons]
    cases hy : p y with
    | true =>
      constructor
      · rintro h
        cases h
        exact ⟨[],xs,rfl,hy,by simp,(Nat.zero_add _).symm⟩
      · rintro ⟨before,after,hxs,hx,hbefore,rfl⟩
        cases before with
        | nil =>
          cases hxs
          simp
        | cons z before =>
          cases hxs
          have := hbefore y List.mem_cons_self
          rw [hy] at this
          cases this
    | false =>
      refine ih.trans ⟨?_,?_⟩
      · rintro ⟨before,after,rfl,hx,hbefore,rfl⟩
        exact ⟨y :: before,after,rfl,hx,List.forall_mem_cons.mpr ⟨hy,hbefore⟩,
          by rw [List.length_cons]; omega⟩
      · rintro ⟨before,after,hxs,hx,hbefore,rfl⟩
        cases before with
        | nil =>
          cases hxs
          rw [hy] at hx
          cases hx
        | cons z before =>
          cases hxs
          exact ⟨before,after,rfl,hx,(List.forall_mem_cons.mp hbefore).2,
            by rw [List.length_cons]; omega⟩

/-- The attachment that answers is the first of its name. -/
theorem findAttached_eq_some {doc : Document φ δ} {n m : Node φ δ} {segment : Text} :
    findAttached doc n segment = some m ↔ n.impl = doc.root.impl ∧
      ∃ before name attached after, doc.attached = before ++ (name,attached) :: after ∧
        iequals name segment = true ∧ (∀ e ∈ before, iequals e.1 segment = false) ∧
        m = attached.rootNode (before.length+1) := by
  rw [findAttached]
  split_ifs with hroot
  · rw [and_iff_right hroot,Option.map_eq_some_iff]
    constructor
    · rintro ⟨⟨⟨name,attached⟩,i⟩,hfind,rfl⟩
      obtain ⟨before,after,happend,hname,hbefore,rfl⟩ :=
        (find?_zipIdx (p := fun e : Text × Document φ δ => iequals e.1 segment)).mp hfind
      exact ⟨before,name,attached,after,happend,hname,hbefore,rfl⟩
    · rintro ⟨before,name,attached,after,happend,hname,hbefore,rfl⟩
      exact ⟨((name,attached),before.length),
        (find?_zipIdx (p := fun e : Text × Document φ δ => iequals e.1 segment)).mpr
          ⟨before,after,happend,hname,hbefore,rfl⟩,rfl⟩
  · exact iff_of_false nofun fun h => hroot h.1

/-- Paths compose: what stands behind a dot is read from the node that what stands before it
leads to, through a section too. Attachments answer for a first segment only, from the root,
where the primary document has no such child, and the first one of the name wins. -/
theorem resolve_composes (doc : Document φ δ) (n : Node φ δ) {a : Text} (ha : a ≠ [])
    (hdot : a.getLast? ≠ some '.') (b : Text) :
    (resolve doc n (a ++ '.' :: b) = (resolve doc n a).bind fun m => resolve doc m b) ∧
    (∀ strict, Configuration.SectionReads ⟨doc,n,strict⟩ a b) ∧
    (∀ path, resolve doc n path = (segments path).head?.elim (some n) fun segment =>
      ((findChild n segment).or (findAttached doc n segment)).bind fun m =>
        (segments path).tail.foldlM findChild m) ∧
    ∀ segment m, findAttached doc n segment = some m ↔ n.impl = doc.root.impl ∧
      ∃ before name attached after, doc.attached = before ++ (name,attached) :: after ∧
        iequals name segment = true ∧ (∀ e ∈ before, iequals e.1 segment = false) ∧
        m = attached.rootNode (before.length+1) :=
  ⟨resolve_dot doc n ha hdot b,fun strict => sectionReads ⟨doc,n,strict⟩ ha hdot b,
    resolve_first doc n,fun _ _ => findAttached_eq_some⟩

/-- A TOML document with an XML one attached to it as `feed`. -/
def feedConfig : Document Unit Unit :=
  .node (.toml [("host".toList,.string "db".toList)])
    [("feed".toList,.node (.ptree (.node [] [("port".toList,.node "9000".toList [])])) [])]

theorem resolve_composes_feed :
    (resolve feedConfig feedConfig.root ("Feed".toList ++ '.' :: "port".toList) =
      (resolve feedConfig feedConfig.root "Feed".toList).bind fun m =>
        resolve feedConfig m "port".toList) ∧
    (∀ strict, Configuration.SectionReads ⟨feedConfig,feedConfig.root,strict⟩ "Feed".toList
      "port".toList) ∧
    (∀ path, resolve feedConfig feedConfig.root path =
      (segments path).head?.elim (some feedConfig.root) fun segment =>
        ((findChild feedConfig.root segment).or
          (findAttached feedConfig feedConfig.root segment)).bind fun m =>
            (segments path).tail.foldlM findChild m) ∧
    ∀ segment m, findAttached feedConfig feedConfig.root segment = some m ↔
      feedConfig.root.impl = feedConfig.root.impl ∧
      ∃ before name attached after, feedConfig.attached = before ++ (name,attached) :: after ∧
        iequals name segment = true ∧ (∀ e ∈ before, iequals e.1 segment = false) ∧
        m = attached.rootNode (before.length+1) := by
  have ha : "Feed".toList ≠ [] := by decide
  have hdot : "Feed".toList.getLast? ≠ some '.' := by decide
  exact resolve_composes feedConfig feedConfig.root ha hdot "port".toList

end ConfigParser
end Marketlib
