import Marketlib.ConfigField

/-! Binding a tree of named values onto a struct. Struct types refer to each other by name,
so a type may contain itself; sub-lists are bound by recursion on the tree. Lookup sees an
entry as its name together with the call of `bind_one_value` on it. -/

namespace Marketlib
namespace Binding

inductive Scalar (φ : Type)
  | text (s : Text)
  | boolean (b : Bool)
  | integer (i : ℤ)
  | float (x : φ)

/-- What a C++ object of a bound type holds; a struct its fields in declaration order. -/
inductive Value (φ : Type)
  | scalar (x : Scalar φ)
  | struct (fields : List (Value φ))
  | vector (elems : List (Value φ))
  | optional (value : Option (Value φ))

/-- The fields of an object of struct type. -/
def Value.fields {φ : Type} : Value φ → List (Value φ)
  | .struct fields => fields
  | _ => []

/-- A leaf type; `κ` are the floating-point types. Leaf types that are neither a string nor
arithmetic (`std::string_view`, or an optional as the element of a vector) are accepted, but
no value is ever assigned to them. -/
inductive LeafType (κ φ : Type)
  | string
  | boolean
  | integral (signed : Bool) (bits : ℕ)
  | floating (kind : κ)
  | inert (init : Value φ)

/-- The types of which a vector may be made; `σ` are the struct types. -/
inductive Elem (σ κ φ : Type)
  | leaf (t : LeafType κ φ)
  | struct (s : σ)

inductive FieldType (σ κ φ : Type)
  | one (e : Elem σ κ φ)
  | vector (e : Elem σ κ φ)
  | optional (inner : FieldType σ κ φ)

structure StructDef (σ κ φ : Type) where
  fields : List (Named (FieldType σ κ φ))
  /-- The fields of `T{}`. -/
  init : List (Value φ)

/-- What the language and its library do with floating-point numbers. -/
structure Floats (κ φ : Type) where
  zero : κ → φ
  /-- `std::from_chars`, when it consumes the whole text. -/
  fromChars : κ → Text → Option φ
  ofInteger : κ → Int64 → φ
  ofFloat : κ → φ → φ
  ofBoolean : κ → Bool → φ
  toIntegral : Bool → ℕ → φ → ℤ
  toBoolean : φ → Bool
  /-- `std::to_string`. -/
  toText : φ → Text

/-- What is fixed when a program is compiled; `kLinearScanFieldThreshold` is 16. -/
structure Program (σ κ φ : Type) where
  structs : σ → StructDef σ κ φ
  floats : Floats κ φ
  linearScanFieldThreshold : ℕ

inductive BindError
  | repeated (name : Text) (count : ℕ)
  | repeatedInScan (name : Text)
  | notBool (name raw : Text)
  | notNumber (name raw : Text)
  | expectedLeaf (name : Text)
  | expectedStruct (name : Text)
  | missingRequired (name : Text)
  | missingField (path : Text)
  | unknownField (name : Text)
  deriving DecidableEq

/-! ### Lookup -/

section Lookup

variable {α : Type}

/-- The interface that the two strategies have in common. -/
structure Scanner (α : Type) where
  single : Text → Except BindError (Option α)
  all : Text → List α

/-- One turn of the loop in `LinearFieldScannerT::single`. -/
def scanStep (name : Text) (found : Option α) (f : Named α) : Except BindError (Option α) :=
  if iequals f.name name then
    match found with
    | some _ => .error (.repeatedInScan name)
    | none => .ok (some f.value)
  else .ok found

def linearFieldScanner (fields : List (Named α)) : Scanner α where
  single name := fields.foldlM (scanStep name) none
  all name := (fields.filter fun f => iequals f.name name).map Named.value

/-- The key that the hash table finds for `name`: one with its hash, equal ignoring case. -/
def sameKey (name : Text) (bucket : Text × List α) : Bool :=
  icaseHash bucket.1 == icaseHash name && iequals bucket.1 name

/-- `by_name_[f.name].push_back(&f)`. -/
def pushBack (f : Named α) : List (Text × List α) → List (Text × List α)
  | [] => [(f.name,[f.value])]
  | bucket :: rest =>
    if sameKey f.name bucket then (bucket.1,bucket.2 ++ [f.value]) :: rest
    else bucket :: pushBack f rest

def fieldIndex (fields : List (Named α)) : Scanner α :=
  let byName := fields.foldl (fun m f => pushBack f m) []
  let find := fun name => (byName.find? (sameKey name)).map Prod.snd
  { single := fun name =>
      match find name with
      | none => .ok none
      | some [] => .ok none
      | some [f] => .ok (some f)
      | some fs => .error (.repeated name fs.length)
    all := fun name => (find name).getD [] }

end Lookup

/-! ### Leaves -/

section Binding

variable {σ κ φ : Type} (P : Program σ κ φ)

/-- `std::to_string` of an integer. -/
def decimal (i : ℤ) : Text :=
  if i < 0 then '-' :: Nat.toDigits 10 i.natAbs else Nat.toDigits 10 i.natAbs

/-- The number that a text of decimal digits stands for. -/
def ofDigits (s : Text) : Option ℕ :=
  if s = [] then none
  else s.foldlM (fun n c => if c.isDigit then some (10*n+(c.toNat - '0'.toNat)) else none) 0

/-- Whether an integral type has the value `i`. -/
def fits (signed : Bool) (bits : ℕ) (i : ℤ) : Bool :=
  if signed then -2^(bits-1) ≤ i && i < 2^(bits-1) else 0 ≤ i && i < 2^bits

/-- `std::from_chars` for an integral type, when it consumes the whole text. -/
def integralFromChars (signed : Bool) (bits : ℕ) (s : Text) : Option ℤ :=
  let value := match signed,s with
    | true,'-' :: digits => (ofDigits digits).map fun n => -(n : ℤ)
    | _,digits => (ofDigits digits).map Nat.cast
  value.filter (fits signed bits)

/-- `static_cast` to an integral type. -/
def castIntegral (signed : Bool) (bits : ℕ) (i : ℤ) : ℤ :=
  if signed then i.bmod (2^bits) else i % 2^bits

def parseLeafText (t : LeafType κ φ) (raw : Text) (out : Value φ) (name : Text) :
    Except BindError (Value φ) :=
  match t with
  | .string => .ok (.scalar (.text raw))
  | .boolean =>
    let lower := toLower (trim raw)
    if lower ∈ [['t','r','u','e'],['y'],['1']] then .ok (.scalar (.boolean true))
    else if lower ∈ [['f','a','l','s','e'],['n'],['0']] then .ok (.scalar (.boolean false))
    else .error (.notBool name raw)
  | .integral signed bits =>
    match integralFromChars signed bits (trim raw) with
    | some i => .ok (.scalar (.integer i))
    | none => .error (.notNumber name raw)
  | .floating kind =>
    match P.floats.fromChars kind (trim raw) with
    | some x => .ok (.scalar (.float x))
    | none => .error (.notNumber name raw)
  | .inert _ => .ok out

def assignTypedInteger (t : LeafType κ φ) (i : Int64) (out : Value φ) : Value φ :=
  match t with
  | .string => .scalar (.text (decimal i.toInt))
  | .boolean => .scalar (.boolean (i != 0))
  | .integral signed bits => .scalar (.integer (castIntegral signed bits i.toInt))
  | .floating kind => .scalar (.float (P.floats.ofInteger kind i))
  | .inert _ => out

def assignTypedFloat (t : LeafType κ φ) (x : φ) (out : Value φ) : Value φ :=
  match t with
  | .string => .scalar (.text (P.floats.toText x))
  | .boolean => .scalar (.boolean (P.floats.toBoolean x))
  | .integral signed bits => .scalar (.integer (P.floats.toIntegral signed bits x))
  | .floating kind => .scalar (.float (P.floats.ofFloat kind x))
  | .inert _ => out

def assignTypedBoolean (t : LeafType κ φ) (b : Bool) (out : Value φ) : Value φ :=
  match t with
  | .string => .scalar (.text (if b then ['t','r','u','e'] else ['f','a','l','s','e']))
  | .boolean => .scalar (.boolean b)
  | .integral _ _ => .scalar (.integer b.toNat)
  | .floating kind => .scalar (.float (P.floats.ofBoolean kind b))
  | .inert _ => out

/-- `parse_leaf_value`, with `assign_typed_leaf` for the three typed alternatives. -/
def parseLeafValue (t : LeafType κ φ) (raw : LeafValue φ) (out : Value φ) (name : Text) :
    Except BindError (Value φ) :=
  match raw with
  | .text s => parseLeafText P t s out name
  | .integer i => .ok (assignTypedInteger P t i out)
  | .float x => .ok (assignTypedFloat P t x out)
  | .boolean b => .ok (assignTypedBoolean P t b out)

/-! ### Structs -/

/-- `T{}` of a leaf or a struct. -/
def Elem.init : Elem σ κ φ → Value φ
  | .leaf .string => .scalar (.text [])
  | .leaf .boolean => .scalar (.boolean false)
  | .leaf (.integral _ _) => .scalar (.integer 0)
  | .leaf (.floating kind) => .scalar (.float (P.floats.zero kind))
  | .leaf (.inert init) => init
  | .struct s => .struct (P.structs s).init

/-- `T{}`. -/
def FieldType.init : FieldType σ κ φ → Value φ
  | .one e => e.init P
  | .vector _ => .vector []
  | .optional _ => .optional none

/-- A call of `bind_one_value` that lacks the target: `strict`, its type, `out` and the name. -/
abbrev OneValue (σ κ φ : Type) :=
  Bool → Elem σ κ φ → Value φ → Text → Except BindError (Value φ)

/-- `bind_named_value`: the value of the field, and whether it was present. -/
def bindNamedValue (index : Scanner (OneValue σ κ φ)) (strict : Bool) (name : Text) :
    FieldType σ κ φ → Value φ → Bool → Except BindError (Value φ × Bool)
  | .optional inner, out, _ => do
    let (value,present) ← bindNamedValue index strict name inner (inner.init P) false
    return (if present then .optional (some value) else out,present)
  | .vector e, _, _ => do
    let matching := index.all name
    let elems ← matching.mapM fun bindOneValue => bindOneValue strict e (e.init P) name
    return (.vector elems,!matching.isEmpty)
  | .one e, out, required => do
    match ← index.single name with
    | none => if required then .error (.missingRequired name) else return (out,false)
    | some bindOneValue =>
      let value ← bindOneValue strict e out name
      return (value,true)

/-- `bind_all_fields`, which calls `bind_one_field` in declaration order; `out` holds a value
for each field. -/
def bindAllFields (index : Scanner (OneValue σ κ φ)) (strict : Bool) :
    List (Named (FieldType σ κ φ)) → List (Value φ) → Except BindError (List (Value φ))
  | [],_ => return []
  | field :: fields,out => do
    let old := out.headD (field.value.init P)
    let (value,_) ← bindNamedValue P index strict field.name field.value old true
    let values ← bindAllFields index strict fields out.tail
    return value :: values

/-- `check_no_unknown_fields`. -/
def checkNoUnknownFields {α : Type} (known : List (Named (FieldType σ κ φ)))
    (fields : List (Named α)) : Except BindError Unit :=
  fields.forM fun f =>
    if known.any fun field => iequals f.name field.name then return
    else .error (.unknownField f.name)

def bindFromFieldsImpl (fields : List (Named (OneValue σ κ φ))) (s : σ) (out : List (Value φ))
    (strict : Bool) : Except BindError (List (Value φ)) := do
  let known := (P.structs s).fields
  if strict then checkNoUnknownFields known fields
  let scanner := if known.length < P.linearScanFieldThreshold then linearFieldScanner fields
    else fieldIndex fields
  bindAllFields P scanner strict known out

mutual

def bindOneValue : FieldValue φ → OneValue σ κ φ
  | .leaf v => fun _ e out name =>
    match e with
    | .leaf t => parseLeafValue P t v out name
    | .struct _ => .error (.expectedStruct name)
  | .struct fields => fun strict e out name =>
    match e with
    | .leaf _ => .error (.expectedLeaf name)
    | .struct s => .struct <$> bindFromFieldsImpl P (bindEntries fields) s out.fields strict

def bindEntries : List (Named (FieldValue φ)) → List (Named (OneValue σ κ φ))
  | [] => []
  | f :: fields => bindEntry f :: bindEntries fields

def bindEntry : Named (FieldValue φ) → Named (OneValue σ κ φ)
  | ⟨name,value⟩ => ⟨name,bindOneValue value⟩

end

/-- `bind_from_fields` on a `const FieldList &`. -/
def bindFromFields (fields : FieldList φ) (s : σ) (out : List (Value φ)) (strict : Bool) :
    Except BindError (List (Value φ)) :=
  bindFromFieldsImpl P (bindEntries P fields) s out strict

end Binding
end Binding
end Marketlib
