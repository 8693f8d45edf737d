import Marketlib.KeyOrder

/-! The linear scan and the hash table are interchangeable: no schema is bound otherwise for
another value of `kLinearScanFieldThreshold`. -/

namespace Marketlib
namespace Binding

open Outcome

/-- Two scanners over the same entries answer alike. -/
theorem Scanner.Serves.unique {α : Type} {scanner scanner' : Scanner α}
    {fields : List (Named α)} (h : scanner.Serves fields) (h' : scanner'.Serves fields)
    (name : Text) : (scanner.single name).toOption = (scanner'.single name).toOption ∧
      scanner.all name = scanner'.all name :=
  ⟨(h.single name).trans (h'.single name).symm,(h.all name).trans (h'.all name).symm⟩

variable {σ κ φ : Type}

/-- The same program, compiled with another threshold. -/
def Program.withThreshold (P : Program σ κ φ) (threshold : ℕ) : Program σ κ φ :=
  { P with linearScanFieldThreshold := threshold }

variable (P : Program σ κ φ) (threshold : ℕ)

theorem Elem.init_withThreshold (e : Elem σ κ φ) :
    e.init (P.withThreshold threshold) = e.init P := by
  cases e with
  | leaf t => cases t <;> rfl
  | struct s => rfl

theorem FieldType.init_withThreshold (type : FieldType σ κ φ) :
    type.init (P.withThreshold threshold) = type.init P := by
  cases type with
  | one e => exact e.init_withThreshold P threshold
  | vector e => rfl
  | optional inner => rfl

/-- Only the choice of the scanner reads the threshold. -/
theorem bindNamedValue_withThreshold (index : Scanner (OneValue σ κ φ)) (strict : Bool)
    (name : Text) (type : FieldType σ κ φ) (out : Value φ) (required : Bool) :
    bindNamedValue (P.withThreshold threshold) index strict name type out required =
      bindNamedValue P index strict name type out required := by
  induction type generalizing out required with
  | one e => rfl
  | vector e => simp only [bindNamedValue,Elem.init_withThreshold]
  | optional inner ih => simp only [bindNamedValue,FieldType.init_withThreshold,ih]

theorem bindAllFields_withThreshold (index : Scanner (OneValue σ κ φ)) (strict : Bool)
    (types : List (Named (FieldType σ κ φ))) (out : List (Value φ)) :
    bindAllFields (P.withThreshold threshold) index strict types out =
      bindAllFields P index strict types out := by
  induction types generalizing out with
  | nil => rfl
  | cons field types ih =>
    simp only [bindAllFields,FieldType.init_withThreshold,bindNamedValue_withThreshold,ih]

theorem bindFromFieldsImpl_withThreshold {fields fields' : List (Named (OneValue σ κ φ))}
    (h : Alike fields fields') (s : σ) (out : List (Value φ)) (strict : Bool) :
    (bindFromFieldsImpl (P.withThreshold threshold) fields s out strict).toOption =
      (bindFromFieldsImpl P fields' s out strict).toOption := by
  have hfields : ((P.withThreshold threshold).structs s).fields = (P.structs s).fields := rfl
  refine bindFromFieldsImpl_congr hfields h ?_
  rw [bindAllFields_withThreshold]
  exact bindAllFields_alike P h (scannerFor_serves (P.withThreshold threshold) s fields)
    (scannerFor_serves P s fields') strict (P.structs s).fields out

/-- The induction is over the tree: the strategies of all levels are exchanged at once. -/
theorem bindOneValue_withThreshold (v : FieldValue φ) :
    SameOutcome (bindOneValue (P.withThreshold threshold) v) (bindOneValue P v) := by
  induction v using FieldValue.induction with
  | leaf v =>
    intro strict e out name
    cases e <;> rfl
  | struct fields ih =>
    intro strict e out name
    cases e with
    | leaf t => rfl
    | struct s =>
      have hentries : List.Forall₂ SameEntry (bindEntries (P.withThreshold threshold) fields)
          (bindEntries P fields) := by
        rw [bindEntries_eq,bindEntries_eq,List.forall₂_map_left_iff,List.forall₂_map_right_iff,
          List.forall₂_same]
        exact fun f hf => ⟨rfl,ih f hf⟩
      simp only [bindOneValue,toOption_map]
      rw [bindFromFieldsImpl_withThreshold P threshold (.of_forall₂ hentries)]

/-- The entries of a list, each to be found under its name. -/
def entries (fields : FieldList φ) : List (Named (Field φ)) := fields.map fun f => ⟨f.name,f⟩

/-- The scan and the table find the same entries or both throw, and binding throws or leaves
the same `out` whichever of them it picks. -/
theorem strategies_interchangeable (fields : FieldList φ) :
    (∀ name, ((fieldIndex (entries fields)).single name).toOption =
        ((linearFieldScanner (entries fields)).single name).toOption ∧
      (fieldIndex (entries fields)).all name = (linearFieldScanner (entries fields)).all name) ∧
    ∀ s out strict, (bindFromFields (P.withThreshold threshold) fields s out strict).toOption =
      (bindFromFields P fields s out strict).toOption := by
  refine ⟨fun name => ?_,fun s out strict => ?_⟩
  · exact (fieldIndex_serves _).unique (linearFieldScanner_serves _) name
  · have hvalue := bindOneValue_withThreshold P threshold (.struct fields) strict
      (.struct s : Elem σ κ φ) (.struct out) []
    simp only [bindOneValue,toOption_map] at hvalue
    exact Option.map_injective (fun _ _ h => Value.struct.inj h) hvalue

end Binding
end Marketlib
