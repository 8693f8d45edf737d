import Marketlib.KeyOrder
import Marketlib.MovedLeaves

/-! `Configuration::get` into an object of the caller's, against `bind_from_fields` into the
same object. The one assigns a fresh value, the other fills in what the list has. -/

namespace Marketlib
namespace Binding

open Outcome Taking

variable {σ κ φ : Type} (P : Program σ κ φ)

/-- Calls that can throw and write the caller's object. -/
abbrev Filling (φ : Type) := ExceptT BindError (StateM (Value φ))

/-- `Configuration::get(path, out)`, from the node's value on: `bind_resolved_node`, statement
by statement. -/
def getInto (node : Option (FieldValue φ)) (e : Elem σ κ φ) (isOptional : Bool) (path : Text)
    (strict : Bool) : Filling φ PUnit := do
  let wrap := fun value => if isOptional then .optional (some value) else value
  match node,e with
  | none,_ => if isOptional then return else throw (.missingField path)
  | some (.leaf raw),.leaf t =>
    let value ← ExceptT.mk (pure (parseLeafValue P t raw (e.init P) path))
    set (wrap value)
  | some (.struct _),.leaf _ => if isOptional then return else throw (.expectedLeaf path)
  | some (.leaf _),.struct _ => throw (.expectedStruct path)
  | some (.struct fields),.struct s =>
    let value ← ExceptT.mk (pure (bindFromMoved P fields s (P.structs s).init strict))
    set (wrap (.struct value))

/-- The object is assigned last, or not at all. -/
theorem getInto_run (node : Option (FieldValue φ)) (e : Elem σ κ φ) (isOptional : Bool)
    (path : Text) (strict : Bool) (out : Value φ) :
    getInto P node e isOptional path strict out =
      match bindResolvedNode P node e isOptional out path strict with
      | .ok value => (.ok ⟨⟩,value)
      | .error err => (.error err,out) := by
  cases node with
  | none => cases isOptional <;> rfl
  | some v =>
    cases v with
    | leaf raw =>
      cases e with
      | leaf t =>
        simp only [getInto,bindResolvedNode]
        cases parseLeafValue P t raw ((Elem.leaf t).init P) path <;> rfl
      | struct s => rfl
    | struct fields =>
      cases e with
      | leaf t => cases isOptional <;> rfl
      | struct s =>
        simp only [getInto,bindResolvedNode]
        cases bindFromMoved P fields s (P.structs s).init strict <;> rfl

/-- The path is only named in errors. -/
theorem bindResolvedNode_path (node : Option (FieldValue φ)) (e : Elem σ κ φ) (isOptional : Bool)
    (out : Value φ) (path path' : Text) (strict : Bool) :
    (bindResolvedNode P node e isOptional out path strict).toOption =
      (bindResolvedNode P node e isOptional out path' strict).toOption := by
  have hleaf : ∀ (t : LeafType κ φ) raw old, (parseLeafValue P t raw old path).toOption =
      (parseLeafValue P t raw old path').toOption := by
    intro t raw old
    cases raw with
    | text s =>
      cases t with
      | boolean =>
        simp only [parseLeafValue,parseLeafText]
        split_ifs <;> rfl
      | integral signed bits =>
        simp only [parseLeafValue,parseLeafText]
        cases integralFromChars signed bits (trim s) <;> rfl
      | floating kind =>
        simp only [parseLeafValue,parseLeafText]
        cases P.floats.fromChars kind (trim s) <;> rfl
      | _ => rfl
    | _ => rfl
  cases node with
  | none => cases isOptional <;> rfl
  | some v =>
    cases v with
    | leaf raw =>
      cases e with
      | leaf t =>
        simp only [bindResolvedNode,toOption_map]
        rw [hleaf]
      | struct s => rfl
    | struct fields =>
      cases e with
      | leaf t => cases isOptional <;> rfl
      | struct s => rfl

theorem getInto_path (node : Option (FieldValue φ)) (e : Elem σ κ φ) (isOptional : Bool)
    (path path' : Text) (strict : Bool) (out : Value φ) :
    (getInto P node e isOptional path strict out).1.toOption =
        (getInto P node e isOptional path' strict out).1.toOption ∧
      (getInto P node e isOptional path strict out).2 =
        (getInto P node e isOptional path' strict out).2 := by
  have hpath := bindResolvedNode_path P node e isOptional out path path' strict
  rw [getInto_run,getInto_run]
  cases h : bindResolvedNode P node e isOptional out path strict <;>
    cases h' : bindResolvedNode P node e isOptional out path' strict <;> rw [h,h'] at hpath <;>
    cases hpath <;> exact ⟨rfl,rfl⟩

variable {P}

/-- When it throws, the caller's object is as it was. -/
theorem getInto_throws {node : Option (FieldValue φ)} {e : Elem σ κ φ} {isOptional : Bool}
    {path : Text} {strict : Bool} {out v : Value φ} {err : BindError}
    (h : getInto P node e isOptional path strict out = (.error err,v)) : v = out := by
  rw [getInto_run] at h
  cases hnode : bindResolvedNode P node e isOptional out path strict with
  | error err' =>
    rw [hnode] at h
    exact (Prod.mk.inj h).2.symm
  | ok value =>
    rw [hnode] at h
    cases (Prod.mk.inj h).1

/-- What is assigned is what binding into `T{}` gives. -/
theorem getInto_struct {fields : FieldList φ} {s : σ} {path : Text} {strict : Bool}
    {out v : Value φ} (h : getInto P (some (.struct fields)) (.struct s) false path strict out =
      (.ok ⟨⟩,v)) : ∃ r, (bindFromMoved P fields s (P.structs s).init strict).toOption = some r ∧
        v = .struct r := by
  rw [getInto_run] at h
  cases hbind : bindFromMoved P fields s (P.structs s).init strict with
  | error err =>
    simp only [bindResolvedNode,hbind] at h
    cases (Prod.mk.inj h).1
  | ok r =>
    simp only [bindResolvedNode,hbind] at h
    exact ⟨r,rfl,(Prod.mk.inj h).2.symm⟩

/-- Both calls leave the same in the caller's object if and only if that object holds what a
fresh one does wherever the list says nothing, and no text is read again once it was moved.
A call that throws leaves the object alone, whatever it is to hold. -/
theorem getInto_fills_iff (hfloats : EmptyIsNoNumber P.floats) (fields : FieldList φ) (s : σ)
    (out : List (Value φ)) (path : Text) (strict : Bool) :
    (∀ r v, bindFromFields P fields s out strict = .ok r →
      getInto P (some (.struct fields)) (.struct s) false path strict (.struct out) =
        (.ok ⟨⟩,v) →
      (v = .struct r ↔ listKeeps P fields s out (P.structs s).init ∧
        Fresh [] (listReads P fields s))) ∧
    ∀ node (e : Elem σ κ φ) isOptional (old : Value φ) err v,
      getInto P node e isOptional path strict old = (.error err,v) → v = old := by
  refine ⟨fun r v hr hget => ?_,fun _ _ _ _ _ _ h => getInto_throws h⟩
  obtain ⟨r',hr',rfl⟩ := getInto_struct hget
  rw [Value.struct.injEq]
  exact (bindFromMoved_tracks hfloats (P.structs s).init hr).1 r' hr'

/-- The pool's list gives the maximum alone, and the caller's object has no minimum. -/
theorem getInto_fills_iff_pool :
    (Value.struct [.optional none,.optional (some (.scalar (.integer 8)))] =
        (.struct [.optional none,.optional (some (.scalar (.integer 8)))] : Value Unit) ↔
      listKeeps serverProgram [⟨['m','a','x'],.leaf (.integer 8)⟩] true
          [.optional none,.optional none] (serverProgram.structs true).init ∧
        Fresh [] (listReads serverProgram [⟨['m','a','x'],.leaf (.integer 8)⟩] true)) ∧
    ∀ node (e : Elem Bool Empty Unit) isOptional (old : Value Unit) err v,
      getInto serverProgram node e isOptional [] true old = (.error err,v) → v = old := by
  obtain ⟨hfills,hthrows⟩ := getInto_fills_iff (P := serverProgram) (fun kind => kind.elim)
    [⟨['m','a','x'],.leaf (.integer 8)⟩] true [.optional none,.optional none] [] true
  exact ⟨hfills _ _ rfl rfl,hthrows⟩

/-- The caller's minimum of four is kept by `bind_from_fields` and lost by `get`. -/
theorem get_loses_minimum :
    bindFromFields serverProgram [] true [.optional (some (.scalar (.integer 4))),.optional none]
        false =
      .ok [.optional (some (.scalar (.integer 4))),.optional none] ∧
    getInto serverProgram (some (.struct [])) (.struct true) false [] false
        (.struct [.optional (some (.scalar (.integer 4))),.optional none]) =
      (.ok ⟨⟩,.struct [.optional none,.optional none]) := ⟨rfl,rfl⟩

end Binding
end Marketlib
