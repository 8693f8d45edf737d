import Marketlib.FieldLookup
import Marketlib.Outcome

/-! Strict binding is lenient binding and a check of the names at every level that is bound. -/

namespace Marketlib
namespace Binding

open Outcome

variable {σ κ φ : Type}

/-- The leaf or struct inside the optionals and the vector of a field's type. -/
def FieldType.elem : FieldType σ κ φ → Elem σ κ φ
  | .one e => e
  | .vector e => e
  | .optional inner => inner.elem

variable (P : Program σ κ φ)

/-- Every entry is named like a field of the struct, and so is every entry of the sub-lists
that are bound to its struct fields, inside optionals and vectors too. -/
inductive Known : FieldList φ → σ → Prop
  | intro {fields s}
      (names : ∀ f ∈ fields, ∃ field ∈ (P.structs s).fields, iequals f.name field.name = true)
      (below : ∀ f ∈ fields, ∀ field ∈ (P.structs s).fields, iequals f.name field.name = true →
        ∀ sub s', f.value = .struct sub → field.value.elem = .struct s' → Known sub s') :
      Known fields s

/-- The same of a value bound to a leaf or a struct. -/
def KnownIn (v : FieldValue φ) (e : Elem σ κ φ) : Prop :=
  ∀ fields s, v = .struct fields → e = .struct s → Known P fields s

/-- Strict binding of `v` alone. -/
def StrictIff (v : FieldValue φ) : Prop :=
  ∀ (e : Elem σ κ φ) out name r, bindOneValue P v true e out name = .ok r ↔
    bindOneValue P v false e out name = .ok r ∧ KnownIn P v e

variable {P}

/-- A leaf is bound alike, strict or not. -/
theorem strictIff_leaf (v : LeafValue φ) : StrictIff P (.leaf v) := by
  intro e out name r
  have hknown : KnownIn P (.leaf v) e := fun fields s hv => by cases hv
  cases e with
  | leaf t => exact (and_iff_left hknown).symm
  | struct s => exact (and_iff_left hknown).symm

theorem forall₂_strict {values : List (FieldValue φ)} (h : ∀ v ∈ values, StrictIff P v)
    (e : Elem σ κ φ) (init : Value φ) (name : Text) (rs : List (Value φ)) :
    List.Forall₂ (fun v r => bindOneValue P v true e init name = .ok r) values rs ↔
      List.Forall₂ (fun v r => bindOneValue P v false e init name = .ok r) values rs ∧
        ∀ v ∈ values, KnownIn P v e := by
  induction values generalizing rs with
  | nil => simp
  | cons v values ih =>
    obtain ⟨hv,hvalues⟩ := List.forall_mem_cons.mp h
    cases rs with
    | nil => simp
    | cons r rs =>
      rw [List.forall₂_cons,List.forall₂_cons,hv,ih hvalues,List.forall_mem_cons]
      tauto

theorem bindNamedValue_strict {index : Scanner (OneValue σ κ φ)} {name : Text}
    {values : List (FieldValue φ)} (hall : index.all name = values.map (bindOneValue P))
    (hsingle : (index.single name).toOption = atMostOne (values.map (bindOneValue P)))
    (hvalues : ∀ v ∈ values, StrictIff P v) (type : FieldType σ κ φ) (out : Value φ)
    (required : Bool) (r : Value φ × Bool) :
    bindNamedValue P index true name type out required = .ok r ↔
      bindNamedValue P index false name type out required = .ok r ∧
        ∀ v ∈ values, KnownIn P v type.elem := by
  induction type generalizing out required r with
  | optional inner ih =>
    simp only [bindNamedValue,bind_eq_ok,ih,FieldType.elem]
    constructor
    · rintro ⟨a,⟨ha,hknown⟩,hr⟩
      exact ⟨⟨a,ha,hr⟩,hknown⟩
    · rintro ⟨⟨a,ha,hr⟩,hknown⟩
      exact ⟨a,⟨ha,hknown⟩,hr⟩
  | vector e =>
    simp only [bindNamedValue,bind_eq_ok,hall,mapM_eq_ok,List.forall₂_map_left_iff,
      forall₂_strict hvalues,FieldType.elem]
    constructor
    · rintro ⟨a,⟨ha,hknown⟩,hr⟩
      exact ⟨⟨a,ha,hr⟩,hknown⟩
    · rintro ⟨⟨a,ha,hr⟩,hknown⟩
      exact ⟨a,⟨ha,hknown⟩,hr⟩
  | one e =>
    rw [← toOption_eq_some,← toOption_eq_some,toOption_bindNamedValue_one,
      toOption_bindNamedValue_one,hsingle]
    cases values with
    | nil => simp [atMostOne]
    | cons v values =>
      cases values with
      | nil =>
        have hv := hvalues v (List.mem_singleton_self v) e out name
        simp only [atMostOne,List.map_cons,List.map_nil,Option.bind_some,Option.map_eq_some_iff,
          toOption_eq_some,hv,List.forall_mem_singleton,FieldType.elem]
        constructor
        · rintro ⟨a,⟨ha,hknown⟩,hr⟩
          exact ⟨⟨a,ha,hr⟩,hknown⟩
        · rintro ⟨⟨a,ha,hr⟩,hknown⟩
          exact ⟨a,⟨ha,hknown⟩,hr⟩
      | cons w values => simp [atMostOne]

theorem bindAllFields_strict {index : Scanner (OneValue σ κ φ)} {fields : FieldList φ}
    (hindex : index.Serves (bindEntries P fields)) (hfields : ∀ f ∈ fields, StrictIff P f.value)
    (types : List (Named (FieldType σ κ φ))) (out r : List (Value φ)) :
    bindAllFields P index true types out = .ok r ↔
      bindAllFields P index false types out = .ok r ∧
        ∀ field ∈ types, ∀ v ∈ matching fields field.name, KnownIn P v field.value.elem := by
  induction types generalizing out r with
  | nil => simp [bindAllFields]
  | cons field types ih =>
    have hall := (hindex.all field.name).trans (matching_bindEntries P fields field.name)
    have hsingle := hindex.single field.name
    rw [matching_bindEntries] at hsingle
    have hvalues : ∀ v ∈ matching fields field.name, StrictIff P v := by
      intro v hv
      obtain ⟨f,hf,-,rfl⟩ := mem_matching.mp hv
      exact hfields f hf
    simp only [bindAllFields,bind_eq_ok,bindNamedValue_strict hall hsingle hvalues,ih,
      List.forall_mem_cons]
    constructor
    · rintro ⟨a,⟨ha,hknown⟩,b,⟨hb,hrest⟩,hr⟩
      exact ⟨⟨a,ha,b,hb,hr⟩,hknown,hrest⟩
    · rintro ⟨⟨a,ha,b,hb,hr⟩,hknown,hrest⟩
      exact ⟨a,⟨ha,hknown⟩,b,⟨hb,hrest⟩,hr⟩

theorem known_iff {fields : FieldList φ} {s : σ} : Known P fields s ↔
    (∀ f ∈ fields, ∃ field ∈ (P.structs s).fields, iequals f.name field.name = true) ∧
      ∀ field ∈ (P.structs s).fields, ∀ v ∈ matching fields field.name,
        KnownIn P v field.value.elem := by
  constructor
  · rintro ⟨names,below⟩
    refine ⟨names,fun field hfield v hv sub s' hsub hs' => ?_⟩
    obtain ⟨f,hf,hname,rfl⟩ := mem_matching.mp hv
    exact below f hf field hfield hname sub s' hsub hs'
  · rintro ⟨names,below⟩
    refine ⟨names,fun f hf field hfield hname sub s' hsub hs' => ?_⟩
    exact below field hfield f.value (mem_matching.mpr ⟨f,hf,hname,rfl⟩) sub s' hsub hs'

/-- One level, given the levels below it. -/
theorem bindFromFields_strict_of {fields : FieldList φ}
    (hfields : ∀ f ∈ fields, StrictIff P f.value) (s : σ) (out r : List (Value φ)) :
    bindFromFields P fields s out true = .ok r ↔
      bindFromFields P fields s out false = .ok r ∧ Known P fields s := by
  have hserves := scannerFor_serves P s (bindEntries P fields)
  have hnames : (∀ f ∈ bindEntries P fields, ∃ field ∈ (P.structs s).fields,
      iequals f.name field.name = true) ↔
      ∀ f ∈ fields, ∃ field ∈ (P.structs s).fields, iequals f.name field.name = true := by
    rw [bindEntries_eq,List.forall_mem_map]
  rw [bindFromFields,bindFromFields,bindFromFieldsImpl_eq_ok,bindFromFieldsImpl_eq_ok,
    bindAllFields_strict hserves hfields,checkNoUnknownFields_eq_ok,hnames,known_iff]
  simp only [forall_const,Bool.false_eq_true,false_imp_iff,true_and]
  tauto

theorem strictIff (v : FieldValue φ) : StrictIff P v := by
  induction v using FieldValue.induction with
  | leaf v => exact strictIff_leaf v
  | struct fields ih =>
    intro e out name r
    cases e with
    | leaf t => simp [bindOneValue]
    | struct s =>
      have hlevel := bindFromFields_strict_of ih s out.fields
      have hknown : KnownIn P (.struct fields) (.struct s : Elem σ κ φ) ↔ Known P fields s := by
        constructor
        · exact fun h => h fields s rfl rfl
        · rintro h _ _ ⟨⟩ ⟨⟩
          exact h
      simp only [bindOneValue,map_eq_ok,hknown]
      change (∃ a, bindFromFields P fields s out.fields true = .ok a ∧ _) ↔
        (∃ a, bindFromFields P fields s out.fields false = .ok a ∧ _) ∧ _
      simp only [hlevel]
      tauto

/-- Strict binding succeeds when lenient binding does and every entry that is bound, at any
level, is known; and both leave the same `out`. -/
theorem bindFromFields_strict (P : Program σ κ φ) (fields : FieldList φ) (s : σ)
    (out : List (Value φ)) :
    ((∃ r, bindFromFields P fields s out true = .ok r) ↔
      (∃ r, bindFromFields P fields s out false = .ok r) ∧ Known P fields s) ∧
    ∀ r r', bindFromFields P fields s out true = .ok r →
      bindFromFields P fields s out false = .ok r' → r = r' := by
  have hiff := bindFromFields_strict_of (P := P) (fun f (_ : f ∈ fields) => strictIff f.value) s out
  simp only [hiff]
  refine ⟨exists_and_right,fun r r' hr hr' => ?_⟩
  exact Except.ok.inj (hr.1.symm.trans hr')

end Binding
end Marketlib
