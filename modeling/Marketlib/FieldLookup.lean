import Marketlib.ConfigBind
import Marketlib.Outcome

/-! Both lookup strategies serve the same entries, and what binding does at one level
depends on nothing else. -/

namespace Marketlib
namespace Binding

open Outcome

section Lookup

variable {α : Type}

/-- The entries of a name, in order. -/
def matching (fields : List (Named α)) (name : Text) : List α :=
  (fields.filter fun f => iequals f.name name).map Named.value

/-- A name that may not be repeated. -/
def atMostOne : List α → Option (Option α)
  | [] => some none
  | [f] => some (some f)
  | _ => none

structure Scanner.Serves (scanner : Scanner α) (fields : List (Named α)) : Prop where
  all : ∀ name, scanner.all name = matching fields name
  single : ∀ name, (scanner.single name).toOption = atMostOne (matching fields name)

theorem matching_cons (f : Named α) (fields : List (Named α)) (name : Text) :
    matching (f :: fields) name =
      if iequals f.name name then f.value :: matching fields name else matching fields name := by
  simp only [matching,List.filter_cons]
  split_ifs <;> rfl

theorem matching_concat (fields : List (Named α)) (f : Named α) (name : Text) :
    matching (fields ++ [f]) name =
      matching fields name ++ if iequals f.name name then [f.value] else [] := by
  simp only [matching,List.filter_append,List.map_append,List.filter_cons,List.filter_nil]
  split_ifs <;> rfl

theorem mem_matching {fields : List (Named α)} {name : Text} {x : α} :
    x ∈ matching fields name ↔ ∃ f ∈ fields, iequals f.name name = true ∧ f.value = x := by
  simp [matching,and_assoc]

/-- The callback with which one name is looked for among visited children. -/
def keepFirst (name : Text) (found : Option α) (key : Text) (node : α) : Option α :=
  if found.isNone && iequals key name then some node else found

theorem foldl_keepFirst (name : Text) (children : List (Named α)) (found : Option α) :
    children.foldl (fun found c => keepFirst name found c.name c.value) found =
      found.or (matching children name).head? := by
  induction children generalizing found with
  | nil => exact Option.or_none.symm
  | cons c children ih =>
    rw [List.foldl_cons,ih,matching_cons,keepFirst]
    cases found with
    | some x => rfl
    | none => cases iequals c.name name <;> rfl

/-- The scan from where it has found `found`. -/
theorem scan_toOption (name : Text) (fields : List (Named α)) (found : Option α) :
    (fields.foldlM (scanStep name) found).toOption =
      atMostOne (found.toList ++ matching fields name) := by
  induction fields generalizing found with
  | nil => cases found <;> rfl
  | cons f fields ih =>
    rw [List.foldlM_cons,matching_cons]
    by_cases hname : iequals f.name name
    · cases found with
      | none =>
        simp only [scanStep,hname,if_true]
        exact ih (some f.value)
      | some x =>
        simp only [scanStep,hname,if_true]
        rfl
    · simp only [scanStep,hname,Bool.false_eq_true,if_false]
      exact ih found

theorem linearFieldScanner_serves (fields : List (Named α)) :
    (linearFieldScanner fields).Serves fields where
  all _ := rfl
  single name := scan_toOption name fields none

/-- The table need not compare hashes: equal names have equal ones. -/
theorem sameKey_eq (name : Text) (bucket : Text × List α) :
    sameKey name bucket = iequals bucket.1 name := by
  cases h : iequals bucket.1 name with
  | false => simp [sameKey,h]
  | true => simp [sameKey,h,icaseHash_eq h]

/-- What the table holds under a name. -/
def bucketOf (m : List (Text × List α)) (name : Text) : List α :=
  ((m.find? (sameKey name)).map Prod.snd).getD []

theorem bucketOf_cons (bucket : Text × List α) (m : List (Text × List α)) (name : Text) :
    bucketOf (bucket :: m) name =
      if iequals bucket.1 name then bucket.2 else bucketOf m name := by
  simp only [bucketOf,List.find?_cons,sameKey_eq]
  cases iequals bucket.1 name <;> rfl

theorem bucketOf_pushBack (f : Named α) (m : List (Text × List α)) (name : Text) :
    bucketOf (pushBack f m) name =
      bucketOf m name ++ if iequals f.name name then [f.value] else [] := by
  induction m with
  | nil =>
    simp only [pushBack,bucketOf_cons]
    split_ifs <;> rfl
  | cons bucket m ih =>
    rw [pushBack,sameKey_eq]
    by_cases hkey : iequals bucket.1 f.name
    · have hsame := iequals_congr hkey name
      simp only [hkey,if_true,bucketOf_cons,hsame]
      split_ifs <;> simp
    · simp only [hkey,Bool.false_eq_true,if_false,bucketOf_cons,ih]
      by_cases hname : iequals bucket.1 name
      · have hother : iequals f.name name = false := by
          rw [iequals_comm,← iequals_congr hname,Bool.eq_false_iff]
          exact hkey
        simp [hname,hother]
      · simp [hname]

theorem bucketOf_byName (fields : List (Named α)) (name : Text) :
    bucketOf (fields.foldl (fun m f => pushBack f m) []) name = matching fields name := by
  induction fields using List.reverseRecOn with
  | nil => rfl
  | append_singleton fields f ih =>
    rw [List.foldl_concat,bucketOf_pushBack,ih,matching_concat]

theorem fieldIndex_serves (fields : List (Named α)) : (fieldIndex fields).Serves fields where
  all name := bucketOf_byName fields name
  single name := by
    rw [← bucketOf_byName fields name]
    simp only [fieldIndex,bucketOf]
    cases (List.find? (sameKey name) _).map Prod.snd with
    | none => rfl
    | some fs =>
      match fs with
      | [] => rfl
      | [f] => rfl
      | f :: g :: fs => rfl

end Lookup

section Level

variable {σ κ φ : Type} (P : Program σ κ φ)

theorem bindEntries_eq (fields : FieldList φ) :
    bindEntries P fields = fields.map fun f => ⟨f.name,bindOneValue P f.value⟩ := by
  induction fields with
  | nil => rw [bindEntries,List.map_nil]
  | cons f fields ih => rw [bindEntries,bindEntry,ih,List.map_cons]

theorem matching_bindEntries (fields : FieldList φ) (name : Text) :
    matching (bindEntries P fields) name = (matching fields name).map (bindOneValue P) := by
  simp [bindEntries_eq,matching,List.filter_map,Function.comp_def]

/-- The strategy that is picked for a struct. -/
def scannerFor {α : Type} (s : σ) (fields : List (Named α)) : Scanner α :=
  if (P.structs s).fields.length < P.linearScanFieldThreshold then linearFieldScanner fields
  else fieldIndex fields

theorem scannerFor_serves {α : Type} (s : σ) (fields : List (Named α)) :
    (scannerFor P s fields).Serves fields := by
  unfold scannerFor
  split_ifs
  · exact linearFieldScanner_serves fields
  · exact fieldIndex_serves fields

theorem checkNoUnknownFields_eq_ok {α : Type} (known : List (Named (FieldType σ κ φ)))
    (fields : List (Named α)) : checkNoUnknownFields known fields = .ok () ↔
      ∀ f ∈ fields, ∃ field ∈ known, iequals f.name field.name = true := by
  rw [checkNoUnknownFields,forM_eq_ok]
  refine forall₂_congr fun f _ => ?_
  rw [← List.any_eq_true]
  split_ifs with h
  · exact iff_of_true rfl h
  · exact iff_of_false nofun h

theorem bindFromFieldsImpl_eq_ok (fields : List (Named (OneValue σ κ φ))) (s : σ)
    (out : List (Value φ)) (strict : Bool) (r : List (Value φ)) :
    bindFromFieldsImpl P fields s out strict = .ok r ↔
      (strict = true → checkNoUnknownFields (P.structs s).fields fields = .ok ()) ∧
        bindAllFields P (scannerFor P s fields) strict (P.structs s).fields out = .ok r := by
  cases strict with
  | false => exact (and_iff_right nofun).symm
  | true =>
    refine (bind_eq_ok (x := checkNoUnknownFields (P.structs s).fields fields)).trans ?_
    constructor
    · rintro ⟨_,hcheck,hbind⟩
      exact ⟨fun _ => hcheck,hbind⟩
    · rintro ⟨hcheck,hbind⟩
      exact ⟨_,hcheck rfl,hbind⟩

/-- A plain field is bound by what `single` finds. -/
theorem toOption_bindNamedValue_one (index : Scanner (OneValue σ κ φ)) (strict : Bool)
    (name : Text) (e : Elem σ κ φ) (out : Value φ) (required : Bool) :
    (bindNamedValue P index strict name (.one e) out required).toOption =
      (index.single name).toOption.bind fun
        | none => if required then none else some (out,false)
        | some bindOneValue => (bindOneValue strict e out name).toOption.map fun v => (v,true) := by
  rw [bindNamedValue,toOption_bind]
  congr 1
  funext found
  cases found with
  | none => cases required <;> rfl
  | some bindOneValue => exact toOption_map ..

end Level
end Binding
end Marketlib
