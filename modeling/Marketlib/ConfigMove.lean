import Marketlib.ConfigBind
import Marketlib.FieldLookup

/-! Binding from a list that the caller hands over. A string takes the text of its leaf by
moving it, so a leaf that is read again holds no text. The tree itself never changes shape:
what has been moved is kept as the positions of the leaves. -/

namespace Marketlib
namespace Binding

/-- Where an entry stands: its index in its own list, then those of the entries around it. -/
abbrev Position := List ℕ

/-- A computation that moves texts out of leaves; the state lists the leaves moved from. -/
abbrev Moving := StateT (List Position) (Except BindError)

/-- A call of `bind_one_value` on a `Field *` that is not `const`. -/
abbrev MovingValue (σ κ φ : Type) := Bool → Elem σ κ φ → Value φ → Text → Moving (Value φ)

section Binding

variable {σ κ φ : Type} (P : Program σ κ φ)

/-- `parse_leaf_value` of an rvalue. A text that was moved from is empty. -/
def parseMovingLeaf (t : LeafType κ φ) (raw : LeafValue φ) (pos : Position) (out : Value φ)
    (name : Text) : Moving (Value φ) := do
  match raw,t with
  | .text s,.string =>
    let moved ← get
    set (pos :: moved)
    return .scalar (.text (if pos ∈ moved then [] else s))
  | .text s,t =>
    let moved ← get
    parseLeafText P t (if pos ∈ moved then [] else s) out name
  | raw,t => parseLeafValue P t raw out name

/-- `bind_named_value` over one of the `Mutable` scanners. -/
def bindNamedMoving (index : Scanner (MovingValue σ κ φ)) (strict : Bool) (name : Text) :
    FieldType σ κ φ → Value φ → Bool → Moving (Value φ × Bool)
  | .optional inner, out, _ => do
    let (value,present) ← bindNamedMoving index strict name inner (inner.init P) false
    return (if present then .optional (some value) else out,present)
  | .vector e, _, _ => do
    let matching := index.all name
    let elems ← matching.mapM fun bindOneValue => bindOneValue strict e (e.init P) name
    return (.vector elems,!matching.isEmpty)
  | .one e, out, required => do
    match ← index.single name with
    | none => if required then throw (.missingRequired name) else return (out,false)
    | some bindOneValue =>
      let value ← bindOneValue strict e out name
      return (value,true)

def bindAllMoving (index : Scanner (MovingValue σ κ φ)) (strict : Bool) :
    List (Named (FieldType σ κ φ)) → List (Value φ) → Moving (List (Value φ))
  | [],_ => return []
  | field :: fields,out => do
    let old := out.headD (field.value.init P)
    let (value,_) ← bindNamedMoving P index strict field.name field.value old true
    let values ← bindAllMoving index strict fields out.tail
    return value :: values

/-- `bind_from_fields_impl` on a `FieldList &`. -/
def bindFromFieldsMoving (fields : List (Named (MovingValue σ κ φ))) (s : σ)
    (out : List (Value φ)) (strict : Bool) : Moving (List (Value φ)) := do
  let known := (P.structs s).fields
  if strict then checkNoUnknownFields known fields
  bindAllMoving P (scannerFor P s fields) strict known out

mutual

def bindMoving : FieldValue φ → Position → MovingValue σ κ φ
  | .leaf v,pos => fun _ e out name =>
    match e with
    | .leaf t => parseMovingLeaf P t v pos out name
    | .struct _ => throw (.expectedStruct name)
  | .struct fields,pos => fun strict e out name =>
    match e with
    | .leaf _ => throw (.expectedLeaf name)
    | .struct s =>
      .struct <$> bindFromFieldsMoving P (movingEntries fields pos 0) s out.fields strict

/-- The entries of the list at `pos`, from its index `i` on. -/
def movingEntries : List (Named (FieldValue φ)) → Position → ℕ → List (Named (MovingValue σ κ φ))
  | [],_,_ => []
  | f :: fields,pos,i => movingEntry f (i :: pos) :: movingEntries fields pos (i+1)

def movingEntry : Named (FieldValue φ) → Position → Named (MovingValue σ κ φ)
  | ⟨name,value⟩,pos => ⟨name,bindMoving value pos⟩

end

/-- `bind_from_fields` on a `FieldList &&`, none of whose texts has been moved yet. -/
def bindFromMoved (fields : FieldList φ) (s : σ) (out : List (Value φ)) (strict : Bool) :
    Except BindError (List (Value φ)) :=
  Prod.fst <$> (bindFromFieldsMoving P (movingEntries P fields [] 0) s out strict).run []

/-- `bind_resolved_node`, for a type `T` made of `e`: plain, or an optional of it. The node is
its own, so its list is handed over. -/
def bindResolvedNode (node : Option (FieldValue φ)) (e : Elem σ κ φ) (isOptional : Bool)
    (out : Value φ) (path : Text) (strict : Bool) : Except BindError (Value φ) :=
  let wrap := fun value => if isOptional then .optional (some value) else value
  match node,e with
  | none,_ => if isOptional then .ok out else .error (.missingField path)
  | some (.leaf raw),.leaf t => wrap <$> parseLeafValue P t raw (e.init P) path
  | some (.struct _),.leaf _ => if isOptional then .ok out else .error (.expectedLeaf path)
  | some (.leaf _),.struct _ => .error (.expectedStruct path)
  | some (.struct fields),.struct s => do
    let value ← bindFromMoved P fields s (P.structs s).init strict
    return wrap (.struct value)

end Binding
end Binding
end Marketlib
