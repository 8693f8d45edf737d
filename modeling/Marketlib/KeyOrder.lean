import Marketlib.FieldLookup
import Marketlib.Outcome

/-! The order of differently named entries, at any level, never matters to binding. -/

namespace Marketlib
namespace Binding

open Outcome

variable {σ κ φ : Type}

/-- Lists that differ by permuting entries, at any levels, so that entries whose names are
equal ignoring case stay in order. -/
inductive Reordered : FieldList φ → FieldList φ → Prop
  | permute {fields fields'} (perm : fields.Perm fields')
      (order : ∀ name, fields.filter (fun f => iequals f.name name) =
        fields'.filter fun f => iequals f.name name) : Reordered fields fields'
  | inside (before after name) {fields fields'} : Reordered fields fields' →
      Reordered (before ++ ⟨name,.struct fields⟩ :: after)
        (before ++ ⟨name,.struct fields'⟩ :: after)
  | trans {fields fields' fields''} : Reordered fields fields' → Reordered fields' fields'' →
      Reordered fields fields''

/-- Neighbours of different names may change places. -/
theorem Reordered.swap {a b : Field φ} (h : iequals a.name b.name = false)
    (before after : FieldList φ) :
    Reordered (before ++ a :: b :: after) (before ++ b :: a :: after) := by
  refine .permute ((List.Perm.swap ..).append_left before) fun name => ?_
  simp only [List.filter_append,List.filter_cons]
  by_cases ha : iequals a.name name
  · have hb : iequals b.name name = false := by
      rw [iequals_comm,← iequals_congr ha,h]
    simp [hb]
  · simp [ha]

/-- Calls of `bind_one_value` that fail alike and leave the same `out`. -/
def SameOutcome (b b' : OneValue σ κ φ) : Prop :=
  ∀ strict e out name, (b strict e out name).toOption = (b' strict e out name).toOption

def SameEntry (f f' : Named (OneValue σ κ φ)) : Prop :=
  f.name = f'.name ∧ SameOutcome f.value f'.value

/-- Two lists of entries that binding cannot tell apart. -/
structure Alike (fields fields' : List (Named (OneValue σ κ φ))) : Prop where
  names : ∀ known : Text → Prop, (∀ f ∈ fields, known f.name) ↔ ∀ f ∈ fields', known f.name
  values : ∀ name, List.Forall₂ SameOutcome (matching fields name) (matching fields' name)

theorem atMostOne_forall₂ {α β : Type} {R : α → β → Prop} {xs : List α} {ys : List β}
    (h : List.Forall₂ R xs ys) : Option.Rel (Option.Rel R) (atMostOne xs) (atMostOne ys) := by
  cases h with
  | nil => exact .some .none
  | cons hxy hrest =>
    cases hrest with
    | nil => exact .some (.some hxy)
    | cons _ _ => exact .none

variable (P : Program σ κ φ)

theorem bindNamedValue_alike {index index' : Scanner (OneValue σ κ φ)} {name : Text}
    {fields fields' : List (Named (OneValue σ κ φ))} (h : Alike fields fields')
    (hindex : index.Serves fields) (hindex' : index'.Serves fields') (strict : Bool)
    (type : FieldType σ κ φ) (out : Value φ) (required : Bool) :
    (bindNamedValue P index strict name type out required).toOption =
      (bindNamedValue P index' strict name type out required).toOption := by
  have hvalues := h.values name
  induction type generalizing out required with
  | optional inner ih => simp only [bindNamedValue,toOption_bind,ih]
  | vector e =>
    have hempty : (matching fields name).isEmpty = (matching fields' name).isEmpty := by
      generalize matching fields name = bs at hvalues
      generalize matching fields' name = bs' at hvalues
      cases hvalues <;> rfl
    have helems := toOption_mapM_congr (hvalues.imp fun b b' hb => hb strict e (e.init P) name)
    simp only [bindNamedValue,toOption_bind,hindex.all,hindex'.all,hempty,helems]
  | one e =>
    rw [toOption_bindNamedValue_one,toOption_bindNamedValue_one,hindex.single,hindex'.single]
    have hsingle := atMostOne_forall₂ hvalues
    generalize atMostOne (matching fields name) = found at hsingle
    generalize atMostOne (matching fields' name) = found' at hsingle
    cases hsingle with
    | none => rfl
    | some hfound =>
      cases hfound with
      | none => rfl
      | some hb => simp only [Option.bind_some,hb strict e out name]

theorem bindAllFields_alike {index index' : Scanner (OneValue σ κ φ)}
    {fields fields' : List (Named (OneValue σ κ φ))} (h : Alike fields fields')
    (hindex : index.Serves fields) (hindex' : index'.Serves fields') (strict : Bool)
    (types : List (Named (FieldType σ κ φ))) (out : List (Value φ)) :
    (bindAllFields P index strict types out).toOption =
      (bindAllFields P index' strict types out).toOption := by
  induction types generalizing out with
  | nil => rfl
  | cons field types ih =>
    simp only [bindAllFields,toOption_bind,bindNamedValue_alike P h hindex hindex',ih]

/-- Two programs that bind the fields of a struct alike bind the struct alike. -/
theorem bindFromFieldsImpl_congr {P P' : Program σ κ φ} {s : σ}
    (hfields : (P.structs s).fields = (P'.structs s).fields)
    {fields fields' : List (Named (OneValue σ κ φ))} (h : Alike fields fields')
    {out : List (Value φ)} {strict : Bool}
    (hbind : (bindAllFields P (scannerFor P s fields) strict (P.structs s).fields out).toOption =
      (bindAllFields P' (scannerFor P' s fields') strict (P'.structs s).fields out).toOption) :
    (bindFromFieldsImpl P fields s out strict).toOption =
      (bindFromFieldsImpl P' fields' s out strict).toOption := by
  apply Option.ext
  intro r
  rw [toOption_eq_some,toOption_eq_some,bindFromFieldsImpl_eq_ok,bindFromFieldsImpl_eq_ok,
    checkNoUnknownFields_eq_ok,checkNoUnknownFields_eq_ok,← toOption_eq_some,
    ← toOption_eq_some,hbind,hfields]
  have hnames := h.names fun name => ∃ field ∈ (P'.structs s).fields,
    iequals name field.name = true
  rw [hnames]

theorem bindFromFieldsImpl_alike {fields fields' : List (Named (OneValue σ κ φ))}
    (h : Alike fields fields') (s : σ) (out : List (Value φ)) (strict : Bool) :
    (bindFromFieldsImpl P fields s out strict).toOption =
      (bindFromFieldsImpl P fields' s out strict).toOption :=
  bindFromFieldsImpl_congr rfl h (bindAllFields_alike P h (scannerFor_serves P s fields)
    (scannerFor_serves P s fields') strict (P.structs s).fields out)

theorem SameOutcome.refl (b : OneValue σ κ φ) : SameOutcome b b := fun _ _ _ _ => rfl

/-- Entries that bind alike in the same places. -/
theorem Alike.of_forall₂ {fields fields' : List (Named (OneValue σ κ φ))}
    (h : List.Forall₂ SameEntry fields fields') : Alike fields fields' := by
  induction h with
  | nil => exact ⟨fun _ => Iff.rfl,fun _ => .nil⟩
  | cons hf _ ih =>
    obtain ⟨hname,hvalue⟩ := hf
    refine ⟨fun known => ?_,fun name => ?_⟩
    · rw [List.forall_mem_cons,List.forall_mem_cons,hname,ih.names known]
    · rw [matching_cons,matching_cons,hname]
      split_ifs
      · exact .cons hvalue (ih.values name)
      · exact ih.values name

/-- A permutation that keeps the order within each name. -/
theorem Alike.of_permute {fields fields' : FieldList φ} (perm : fields.Perm fields')
    (order : ∀ name, fields.filter (fun f => iequals f.name name) =
      fields'.filter fun f => iequals f.name name) :
    Alike (bindEntries P fields) (bindEntries P fields') where
  names known := by
    rw [bindEntries_eq,bindEntries_eq,List.forall_mem_map,List.forall_mem_map]
    exact forall_congr' fun f => imp_congr_left perm.mem_iff
  values name := by
    rw [matching_bindEntries,matching_bindEntries,matching,matching,order name]
    exact List.forall₂_same.mpr fun b _ => .refl b

/-- What the order of its own entries does not change, for a value bound below. -/
theorem SameOutcome.of_struct {fields fields' : FieldList φ}
    (h : ∀ (s : σ) out strict, (bindFromFields P fields s out strict).toOption =
      (bindFromFields P fields' s out strict).toOption) :
    SameOutcome (bindOneValue P (.struct fields)) (bindOneValue P (.struct fields')) := by
  intro strict e out name
  cases e with
  | leaf t => rfl
  | struct s =>
    simp only [bindOneValue,toOption_map]
    exact congrArg _ (h s out.fields strict)

/-- Binding the const overload throws on both of two reordered lists, or leaves the same
`out`. -/
theorem bindFromFields_reordered (P : Program σ κ φ) {fields fields' : FieldList φ}
    (h : Reordered fields fields') (s : σ) (out : List (Value φ)) (strict : Bool) :
    (bindFromFields P fields s out strict).toOption =
      (bindFromFields P fields' s out strict).toOption := by
  induction h generalizing s out strict with
  | permute perm order => exact bindFromFieldsImpl_alike P (.of_permute P perm order) s out strict
  | inside before after name _ ih =>
    have hsame : ∀ es : List (Named (OneValue σ κ φ)), List.Forall₂ SameEntry es es :=
      fun es => List.forall₂_same.mpr fun f _ => ⟨rfl,.refl f.value⟩
    refine bindFromFieldsImpl_alike P (.of_forall₂ ?_) s out strict
    rw [bindEntries_eq,bindEntries_eq,List.map_append,List.map_append]
    exact List.rel_append (hsame _) (.cons ⟨rfl,.of_struct P ih⟩ (hsame _))
  | trans _ _ ih ih' => exact (ih s out strict).trans (ih' s out strict)

/-- A server: `host`, a string, and `pool`, a struct of two optional numbers. -/
def serverProgram : Program Bool Empty Unit where
  structs
    | false => {
        fields := [⟨['h','o','s','t'],.one (.leaf .string)⟩,⟨['p','o','o','l'],.one (.struct true)⟩]
        init := [.scalar (.text []),.struct [.optional none,.optional none]] }
    | true => {
        fields := [⟨['m','i','n'],.optional (.one (.leaf (.integral true 32)))⟩,
          ⟨['m','a','x'],.optional (.one (.leaf (.integral true 32)))⟩]
        init := [.optional none,.optional none] }
  floats := {
    zero := Empty.elim
    fromChars := fun k => k.elim
    ofInteger := fun k => k.elim
    ofFloat := fun k => k.elim
    ofBoolean := fun k => k.elim
    toIntegral := fun _ _ _ => 0
    toBoolean := fun _ => false
    toText := fun _ => [] }
  linearScanFieldThreshold := 16

def serverFields : FieldList Unit :=
  [⟨['P','o','o','l'],.struct
    [⟨['m','i','n'],.leaf (.text ['4'])⟩,⟨['M','A','X'],.leaf (.integer 8)⟩]⟩,
  ⟨['h','o','s','t'],.leaf (.text ['d','b'])⟩]

def serverFieldsReordered : FieldList Unit :=
  [⟨['h','o','s','t'],.leaf (.text ['d','b'])⟩,
  ⟨['P','o','o','l'],.struct
    [⟨['M','A','X'],.leaf (.integer 8)⟩,⟨['m','i','n'],.leaf (.text ['4'])⟩]⟩]

/-- The keys of the pool change places, and so do the pool and the host. -/
theorem bindFromFields_reordered_server :
    (bindFromFields serverProgram serverFields false [] true).toOption.isSome = true ∧
    (bindFromFields serverProgram serverFields false [] true).toOption =
      (bindFromFields serverProgram serverFieldsReordered false [] true).toOption := by
  have hkeys : Reordered serverFields (_ :: _) :=
    .inside [] _ _ (.swap (by decide) [] [])
  exact ⟨by decide,
    bindFromFields_reordered serverProgram (hkeys.trans (.swap (by decide) [] [])) false [] true⟩

end Binding
end Marketlib
