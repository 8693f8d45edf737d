import Marketlib.ConfigMove
import Marketlib.StrictBinding
import Marketlib.Taking

/-! Binding a list that is handed over, against binding one that is kept. Which leaves are read,
and in what order, depends on the schema and the tree alone. -/

namespace Marketlib
namespace Binding

open Outcome Taking

variable {σ κ φ : Type}

/-! ### What is read -/

/-- A string takes a text, a number or a boolean parses it. -/
def leafReads (t : LeafType κ φ) (raw : LeafValue φ) (pos : Position) : List (Read Position) :=
  match raw,t with
  | .text s,.string => [⟨pos,s.isEmpty,true⟩]
  | .text _,.inert _ => []
  | .text s,_ => [⟨pos,s.isEmpty,false⟩]
  | _,_ => []

/-- Field by field, each the entries of its name. -/
def structReads (P : Program σ κ φ) (entries : List (Named (Elem σ κ φ → List (Read Position))))
    (s : σ) : List (Read Position) :=
  (P.structs s).fields.flatMap fun field =>
    (matching entries field.name).flatMap fun reads => reads field.value.elem

section Reads

variable (P : Program σ κ φ)

mutual

/-- The leaves that are read when a value is bound. -/
def reads : FieldValue φ → Position → Elem σ κ φ → List (Read Position)
  | .leaf v,pos => fun e =>
    match e with
    | .leaf t => leafReads t v pos
    | .struct _ => []
  | .struct fields,pos => fun e =>
    match e with
    | .leaf _ => []
    | .struct s => structReads P (readEntries fields pos 0) s

def readEntries : List (Named (FieldValue φ)) → Position → ℕ →
    List (Named (Elem σ κ φ → List (Read Position)))
  | [],_,_ => []
  | f :: fields,pos,i => readEntry f (i :: pos) :: readEntries fields pos (i+1)

def readEntry : Named (FieldValue φ) → Position →
    Named (Elem σ κ φ → List (Read Position))
  | ⟨name,value⟩,pos => ⟨name,reads value pos⟩

end

end Reads

/-! ### What is not read -/

/-- What one value leaves as it was, when it is bound into `out` and into `out'`. -/
abbrev Keep (σ κ φ : Type) := Elem σ κ φ → Value φ → Value φ → Prop

/-- An optional without an entry keeps what it held; a plain field keeps what its entry does. -/
def fieldKeeps (matched : List (Keep σ κ φ)) : FieldType σ κ φ → Value φ → Value φ → Prop
  | .optional _,out,out' => matched = [] → out' = out
  | .vector _,_,_ => True
  | .one e,out,out' => ∀ keep ∈ matched, keep e out out'

def allKeep (P : Program σ κ φ) (entries : List (Named (Keep σ κ φ))) :
    List (Named (FieldType σ κ φ)) → List (Value φ) → List (Value φ) → Prop
  | [],_,_ => True
  | field :: fields,out,out' =>
    fieldKeeps (matching entries field.name) field.value (out.headD (field.value.init P))
      (out'.headD (field.value.init P)) ∧ allKeep P entries fields out.tail out'.tail

section Keeps

variable (P : Program σ κ φ)

mutual

/-- What is kept is the same in both: omitted optionals, at any depth of plain structs, and
leaves that binding never assigns. -/
def keeps : FieldValue φ → Keep σ κ φ
  | .leaf _ => fun e out out' =>
    match e with
    | .leaf (.inert _) => out' = out
    | _ => True
  | .struct fields => fun e out out' =>
    match e with
    | .leaf _ => True
    | .struct s => allKeep P (keepEntries fields) (P.structs s).fields out.fields out'.fields

def keepEntries : List (Named (FieldValue φ)) → List (Named (Keep σ κ φ))
  | [] => []
  | f :: fields => keepEntry f :: keepEntries fields

def keepEntry : Named (FieldValue φ) → Named (Keep σ κ φ)
  | ⟨name,value⟩ => ⟨name,keeps value⟩

end

end Keeps

theorem fieldKeeps_refl {matched : List (Keep σ κ φ)}
    (h : ∀ keep ∈ matched, ∀ e v, keep e v v) (type : FieldType σ κ φ) (v : Value φ) :
    fieldKeeps matched type v v := by
  cases type with
  | one e => exact fun keep hkeep => h keep hkeep e v
  | vector e => trivial
  | optional inner => exact fun _ => rfl

theorem allKeep_refl {P : Program σ κ φ} {entries : List (Named (Keep σ κ φ))}
    (h : ∀ name, ∀ keep ∈ matching entries name, ∀ e v, keep e v v)
    (types : List (Named (FieldType σ κ φ))) (out : List (Value φ)) :
    allKeep P entries types out out := by
  induction types generalizing out with
  | nil => trivial
  | cons field types ih => exact ⟨fieldKeeps_refl (h field.name) field.value _,ih out.tail⟩

/-! ### Four lists over the same entries -/

def Named.map {α β : Type} (f : α → β) (n : Named α) : Named β := ⟨n.name,f n.value⟩

theorem matching_map {α β : Type} (f : α → β) (fields : List (Named α)) (name : Text) :
    matching (fields.map (Named.map f)) name = (matching fields name).map f := by
  simp [matching,List.filter_map,Function.comp_def,Named.map]

/-- The entries of a list with their positions. -/
def located : FieldList φ → Position → ℕ → List (Named (FieldValue φ × Position))
  | [],_,_ => []
  | f :: fields,pos,i => ⟨f.name,f.value,i :: pos⟩ :: located fields pos (i+1)

theorem mem_located {fields : FieldList φ} {pos : Position} {i : ℕ}
    {n : Named (FieldValue φ × Position)} (hn : n ∈ located fields pos i) :
    ∃ f ∈ fields, f.name = n.name ∧ f.value = n.value.1 := by
  induction fields generalizing i with
  | nil => cases hn
  | cons f fields ih =>
    rcases List.mem_cons.mp hn with rfl | hn
    · exact ⟨f,List.mem_cons_self,rfl,rfl⟩
    · obtain ⟨g,hg,hsame⟩ := ih hn
      exact ⟨g,List.mem_cons_of_mem _ hg,hsame⟩

theorem exists_located {fields : FieldList φ} {f : Field φ} (hf : f ∈ fields) (pos : Position)
    (i : ℕ) : ∃ n ∈ located fields pos i, n.name = f.name := by
  induction fields generalizing i with
  | nil => cases hf
  | cons g fields ih =>
    rcases List.mem_cons.mp hf with rfl | hf
    · exact ⟨_,List.mem_cons_self,rfl⟩
    · obtain ⟨n,hn,hname⟩ := ih hf (i+1)
      exact ⟨n,List.mem_cons_of_mem _ hn,hname⟩

variable (P : Program σ κ φ)

theorem bindEntries_located (fields : FieldList φ) (pos : Position) (i : ℕ) :
    bindEntries P fields = (located fields pos i).map (Named.map fun n => bindOneValue P n.1) := by
  induction fields generalizing i with
  | nil => rw [bindEntries]; rfl
  | cons f fields ih => rw [bindEntries,bindEntry,ih (i+1)]; rfl

theorem movingEntries_located (fields : FieldList φ) (pos : Position) (i : ℕ) :
    movingEntries P fields pos i =
      (located fields pos i).map (Named.map fun n => bindMoving P n.1 n.2) := by
  induction fields generalizing i with
  | nil => rw [movingEntries]; rfl
  | cons f fields ih => rw [movingEntries,movingEntry,ih (i+1)]; rfl

theorem readEntries_located (fields : FieldList φ) (pos : Position) (i : ℕ) :
    readEntries P fields pos i =
      (located fields pos i).map (Named.map fun n => reads P n.1 n.2) := by
  induction fields generalizing i with
  | nil => rw [readEntries]; rfl
  | cons f fields ih => rw [readEntries,readEntry,ih (i+1)]; rfl

theorem keepEntries_located (fields : FieldList φ) (pos : Position) (i : ℕ) :
    keepEntries P fields = (located fields pos i).map (Named.map fun n => keeps P n.1) := by
  induction fields generalizing i with
  | nil => rw [keepEntries]; rfl
  | cons f fields ih => rw [keepEntries,keepEntry,ih (i+1)]; rfl

/-! ### Leaves -/

/-- No floating-point number is read from an empty text. -/
def EmptyIsNoNumber (floats : Floats κ φ) : Prop := ∀ kind, floats.fromChars kind [] = none

/-- Nothing but a string is read from an empty text. -/
theorem parseLeafText_empty {P : Program σ κ φ} (hfloats : EmptyIsNoNumber P.floats)
    {t : LeafType κ φ} (hstring : t ≠ .string) (hinert : ∀ init, t ≠ .inert init)
    (out : Value φ) (name : Text) : (parseLeafText P t [] out name).toOption = none := by
  cases t with
  | string => exact absurd rfl hstring
  | boolean => rfl
  | integral signed bits => cases signed <;> rfl
  | floating kind =>
    simp only [parseLeafText,trim,List.dropWhile_nil,List.rdropWhile_nil,hfloats kind]
    rfl
  | inert init => exact absurd rfl (hinert init)

/-- A text that is parsed stays in its leaf. -/
theorem tracks_parse {x : Text → Except BindError (Value φ)} (hempty : (x []).toOption = none)
    (s : Text) (pos : Position) :
    Tracks True (x s) (do let moved ← get; liftM (x (if pos ∈ moved then [] else s)) : Moving _)
      [⟨pos,s.isEmpty,false⟩] where
  sound {taken taken' a'} h := by
    change (liftM (x (if pos ∈ taken then [] else s)) : Moving (Value φ)).run taken = _ at h
    obtain ⟨a,ha,htaken,hsame⟩ := (tracks_lift _).sound h
    by_cases hpos : pos ∈ taken
    · rw [if_pos hpos] at ha
      rw [ha] at hempty
      cases hempty
    · rw [if_neg hpos] at ha
      refine ⟨a,ha,htaken,iff_of_true (hsame.mpr ⟨trivial,trivial⟩) ⟨trivial,?_⟩⟩
      exact fresh_singleton.mpr fun h => absurd h hpos
  complete {taken a} h hfresh := by
    change ∃ a' taken', (liftM (x (if pos ∈ taken then [] else s)) : Moving (Value φ)).run taken =
      .ok (a',taken')
    have hheld : (if pos ∈ taken then [] else s) = s := by
      split_ifs with hpos
      · exact (List.isEmpty_iff.mp (hfresh.1 hpos)).symm
      · rfl
    rw [hheld]
    exact (tracks_lift (x s)).complete h trivial

theorem tracks_take (s : Text) (pos : Position) (out out' : Value φ) (name : Text) :
    Tracks True (parseLeafValue P .string (.text s) out name)
      (parseMovingLeaf P .string (.text s) pos out' name) [⟨pos,s.isEmpty,true⟩] where
  sound {taken taken' a'} h := by
    cases h
    refine ⟨_,rfl,rfl,?_⟩
    rw [and_iff_right trivial,fresh_singleton]
    by_cases hpos : pos ∈ taken
    · rw [if_pos hpos,imp_iff_right hpos,List.isEmpty_iff]
      exact ⟨fun h => (Scalar.text.inj (Value.scalar.inj h)).symm,fun h => h ▸ rfl⟩
    · rw [if_neg hpos]
      exact iff_of_true rfl fun h => absurd h hpos
  complete _ _ := ⟨_,_,rfl⟩

theorem keeps_inert (init : Value φ) (raw : LeafValue φ) (out out' : Value φ) :
    keeps P (.leaf raw) (.leaf (.inert init)) out out' ↔ out' = out := by
  rw [keeps]

theorem keeps_assigned {t : LeafType κ φ} (hinert : ∀ init, t ≠ .inert init) (raw : LeafValue φ)
    (out out' : Value φ) : True ↔ keeps P (.leaf raw) (.leaf t) out out' := by
  rw [keeps]
  cases t with
  | inert init => exact absurd rfl (hinert init)
  | _ => exact Iff.rfl

/-- A typed value is not moved, and a leaf that is assigned shows nothing of its object. -/
theorem tracks_leaf {P : Program σ κ φ} (hfloats : EmptyIsNoNumber P.floats)
    (t : LeafType κ φ) (raw : LeafValue φ) (pos : Position) (out out' : Value φ) (name : Text) :
    Tracks (keeps P (.leaf raw) (.leaf t) out out') (parseLeafValue P t raw out name)
      (parseMovingLeaf P t raw pos out' name) (leafReads t raw pos) := by
  cases t with
  | inert init =>
    cases raw <;> exact (tracks_pure out out').congr (keeps_inert P init _ out out').symm
  | string =>
    refine Tracks.congr ?_ (keeps_assigned P (by simp) raw out out')
    cases raw with
    | text s => exact tracks_take P s pos out out' name
    | _ => exact tracks_lift _
  | boolean =>
    refine Tracks.congr ?_ (keeps_assigned P (by simp) raw out out')
    cases raw with
    | text s =>
      exact tracks_parse (x := fun s => parseLeafText P .boolean s out name)
        (parseLeafText_empty hfloats (by simp) (by simp) out name) s pos
    | _ => exact tracks_lift _
  | integral signed bits =>
    refine Tracks.congr ?_ (keeps_assigned P (by simp) raw out out')
    cases raw with
    | text s =>
      exact tracks_parse (x := fun s => parseLeafText P (.integral signed bits) s out name)
        (parseLeafText_empty hfloats (by simp) (by simp) out name) s pos
    | _ => exact tracks_lift _
  | floating kind =>
    refine Tracks.congr ?_ (keeps_assigned P (by simp) raw out out')
    cases raw with
    | text s =>
      exact tracks_parse (x := fun s => parseLeafText P (.floating kind) s out name)
        (parseLeafText_empty hfloats (by simp) (by simp) out name) s pos
    | _ => exact tracks_lift _

/-! ### One struct -/

/-- A field is present when its name has entries. -/
theorem bindNamedValue_present {index : Scanner (OneValue σ κ φ)}
    {fields : List (Named (OneValue σ κ φ))} (hindex : index.Serves fields) {strict : Bool}
    {name : Text} {type : FieldType σ κ φ} {out : Value φ} {required : Bool}
    {r : Value φ × Bool} (h : bindNamedValue P index strict name type out required = .ok r) :
    r.2 = !(matching fields name).isEmpty := by
  induction type generalizing out required r with
  | optional inner ih =>
    obtain ⟨a,ha,hr⟩ := bind_eq_ok.mp h
    rw [pure_eq_ok] at hr
    have hinner := ih ha
    rw [← hr,hinner]
  | vector e =>
    obtain ⟨elems,-,hr⟩ := bind_eq_ok.mp h
    rw [pure_eq_ok] at hr
    rw [← hr,hindex.all]
  | one e =>
    have hsingle := hindex.single name
    obtain ⟨found,hfound,h⟩ := bind_eq_ok.mp h
    rw [hfound] at hsingle
    rcases hm : matching fields name with _ | ⟨b,_ | ⟨b',bs⟩⟩
    · rw [hm] at hsingle
      cases hsingle
      cases required <;> cases h
      rfl
    · rw [hm] at hsingle
      cases hsingle
      obtain ⟨v,-,hr⟩ := bind_eq_ok.mp h
      cases hr
      rfl
    · rw [hm] at hsingle
      cases hsingle

/-- A plain field keeps its object where there is no entry, and else is bound by the only one. -/
theorem bindNamedMoving_one {index : Scanner (MovingValue σ κ φ)}
    {fields : List (Named (MovingValue σ κ φ))} (hindex : index.Serves fields) {strict : Bool}
    {name : Text} {e : Elem σ κ φ} {out : Value φ} {required : Bool} {r : Value φ × Bool}
    {taken taken' : List Position}
    (h : (bindNamedMoving P index strict name (.one e) out required).run taken = .ok (r,taken')) :
    (matching fields name = [] ∧ r = (out,false)) ∨ ∃ b v, matching fields name = [b] ∧
      (b strict e out name).run taken = .ok (v,taken') ∧ r = (v,true) := by
  have hsingle := hindex.single name
  obtain ⟨found,mid,hrun,h⟩ := run_bind_eq_ok.mp h
  obtain ⟨hfound,rfl⟩ := run_lift_eq_ok.mp hrun
  rw [hfound] at hsingle
  rcases hm : matching fields name with _ | ⟨b,_ | ⟨b',bs⟩⟩
  · rw [hm] at hsingle
    cases hsingle
    cases required <;> cases h
    exact .inl ⟨rfl,rfl⟩
  · rw [hm] at hsingle
    cases hsingle
    obtain ⟨v,mid,hv,hr⟩ := run_bind_eq_ok.mp h
    cases hr
    exact .inr ⟨b,v,rfl,hv,rfl⟩
  · rw [hm] at hsingle
    cases hsingle

theorem bindNamedMoving_present {index : Scanner (MovingValue σ κ φ)}
    {fields : List (Named (MovingValue σ κ φ))} (hindex : index.Serves fields) {strict : Bool}
    {name : Text} {type : FieldType σ κ φ} {out : Value φ} {required : Bool}
    {r : Value φ × Bool} {taken taken' : List Position}
    (h : (bindNamedMoving P index strict name type out required).run taken = .ok (r,taken')) :
    r.2 = !(matching fields name).isEmpty := by
  induction type generalizing out required r taken' with
  | optional inner ih =>
    obtain ⟨a,mid,ha,hr⟩ := run_bind_eq_ok.mp h
    rw [StateT.run_pure,pure_eq_ok] at hr
    have hinner := ih ha
    cases hr
    exact hinner
  | vector e =>
    obtain ⟨elems,mid,-,hr⟩ := run_bind_eq_ok.mp h
    rw [StateT.run_pure,pure_eq_ok] at hr
    cases hr
    rw [hindex.all]
  | one e =>
    rcases bindNamedMoving_one P hindex h with ⟨hm,rfl⟩ | ⟨b,v,hm,-,rfl⟩
    · rw [hm]
      rfl
    · rw [hm]
      rfl

/-- The check looks at names alone. -/
theorem checkNoUnknownFields_map {α β : Type} (known : List (Named (FieldType σ κ φ)))
    (f : α → β) (fields : List (Named α)) :
    checkNoUnknownFields known (fields.map (Named.map f)) = checkNoUnknownFields known fields := by
  induction fields with
  | nil => rfl
  | cons n fields ih =>
    let check : Except BindError Unit :=
      if known.any fun field => iequals n.name field.name then return
      else .error (.unknownField n.name)
    exact bind_congr (x := check) fun _ => ih

/-- What an optional holds after its inner value was looked for. -/
def optionalResult (out : Value φ) (r : Value φ × Bool) : Value φ × Bool :=
  (if r.2 then .optional (some r.1) else out,r.2)

theorem optionalResult_present {out out' : Value φ} {r r' : Value φ × Bool} (h : r.2 = true)
    (h' : r'.2 = true) : optionalResult out' r' = optionalResult out r ↔ r' = r := by
  obtain ⟨v,p⟩ := r
  obtain ⟨v',p'⟩ := r'
  cases h
  cases h'
  simp [optionalResult]

theorem optionalResult_absent {out out' : Value φ} {r r' : Value φ × Bool} (h : r.2 = false)
    (h' : r'.2 = false) : optionalResult out' r' = optionalResult out r ↔ out' = out := by
  obtain ⟨v,p⟩ := r
  obtain ⟨v',p'⟩ := r'
  cases h
  cases h'
  simp [optionalResult]

/-- An entry is bound alike from both lists, up to what has been moved out of it and what is
not read. -/
structure TracksValue (b : OneValue σ κ φ) (b' : MovingValue σ κ φ)
    (rd : Elem σ κ φ → List (Read Position)) (keep : Keep σ κ φ) : Prop where
  tracks : ∀ strict e out out' name,
    Tracks (keep e out out') (b strict e out name) (b' strict e out' name) (rd e)
  refl : ∀ e v, keep e v v

section Level

variable {α : Type} {entries : List (Named α)} {b : α → OneValue σ κ φ}
  {b' : α → MovingValue σ κ φ} {rd : α → Elem σ κ φ → List (Read Position)}
  {keep : α → Keep σ κ φ} {index : Scanner (OneValue σ κ φ)}
  {index' : Scanner (MovingValue σ κ φ)}

theorem tracks_bindNamed (hindex : index.Serves (entries.map (Named.map b)))
    (hindex' : index'.Serves (entries.map (Named.map b'))) {name : Text}
    (htracks : ∀ a ∈ matching entries name, TracksValue (b a) (b' a) (rd a) (keep a))
    (strict : Bool) (type : FieldType σ κ φ) (out out' : Value φ) (required : Bool)
    (hout : required = false → out' = out) :
    Tracks (fieldKeeps ((matching entries name).map keep) type out out')
      (bindNamedValue P index strict name type out required)
      (bindNamedMoving P index' strict name type out' required)
      ((matching entries name).flatMap fun a => rd a type.elem) := by
  have hrefl : ∀ k ∈ (matching entries name).map keep, ∀ e v, k e v v :=
    List.forall_mem_map.mpr fun a ha => (htracks a ha).refl
  induction type generalizing out out' required with
  | optional inner ih =>
    have hinner := (ih (inner.init P) (inner.init P) false fun _ => rfl).congr
      (iff_true_intro (fieldKeeps_refl hrefl inner (inner.init P)))
    have hmap : Tracks (((matching entries name).map keep = [] → out' = out) ∧ True)
        (optionalResult out <$> bindNamedValue P index strict name inner (inner.init P) false)
        (optionalResult out' <$> bindNamedMoving P index' strict name inner (inner.init P) false)
        ((matching entries name).flatMap fun a => rd a inner.elem) := by
      refine hinner.map fun {r r' taken _} hr hrun => ?_
      have hpresent := bindNamedValue_present P hindex hr
      have hpresent' := bindNamedMoving_present P hindex' hrun
      rw [matching_map,List.isEmpty_map] at hpresent hpresent'
      cases hm : matching entries name with
      | nil =>
        -- Absent, so that nothing was read.
        rw [hm] at hpresent hpresent'
        obtain ⟨_,hr',-,hsame⟩ := hinner.sound hrun
        cases hr.symm.trans hr'
        rw [hm] at hsame
        rw [optionalResult_absent hpresent hpresent',and_iff_left (hsame.mpr ⟨trivial,trivial⟩),
          List.map_nil,imp_iff_right rfl]
      | cons a as =>
        rw [hm] at hpresent hpresent'
        rw [optionalResult_present hpresent hpresent',List.map_cons,and_iff_right]
        exact fun h => absurd h (List.cons_ne_nil _ _)
    exact hmap.congr (and_iff_left trivial)
  | vector e =>
    have helems := tracks_mapM fun a ha => (htracks a ha).tracks strict e (e.init P) (e.init P) name
    have hall : index.all name = (matching entries name).map b := by
      rw [hindex.all,matching_map]
    have hall' : index'.all name = (matching entries name).map b' := by
      rw [hindex'.all,matching_map]
    simp only [bindNamedValue,bindNamedMoving,hall,hall',List.mapM_map,List.isEmpty_map]
    have hinjective : Function.Injective fun elems : List (Value φ) =>
        (Value.vector elems,!(matching entries name).isEmpty) :=
      fun _ _ hsame => Value.vector.inj (Prod.mk.inj hsame).1
    exact (helems.map_injective hinjective).congr
      (iff_true_intro fun a ha => (htracks a ha).refl e (e.init P))
  | one e =>
    have hsingle := hindex.single name
    have hsingle' := hindex'.single name
    rw [matching_map] at hsingle hsingle'
    rw [bindNamedValue,bindNamedMoving]
    rcases hm : matching entries name with _ | ⟨a,_ | ⟨a',as⟩⟩
    · rw [hm] at hsingle hsingle'
      rw [toOption_eq_some.mp hsingle,toOption_eq_some.mp hsingle']
      cases required with
      | true => exact tracks_error _ rfl (fun _ => rfl) []
      | false =>
        refine (tracks_pure (out,false) (out',false)).congr (iff_of_true ?_ ?_)
        · rw [hout rfl]
        · exact fun k hk => absurd hk List.not_mem_nil
    · rw [hm] at hsingle hsingle'
      rw [toOption_eq_some.mp hsingle,toOption_eq_some.mp hsingle',List.flatMap_singleton]
      have hvalue := (htracks a (hm ▸ List.mem_singleton_self a)).tracks strict e out out' name
      have hinjective : Function.Injective fun v : Value φ => (v,true) :=
        fun _ _ hsame => (Prod.mk.inj hsame).1
      exact (hvalue.map_injective hinjective).congr (by simp [fieldKeeps])
    · rw [hm] at hsingle hsingle'
      refine tracks_error _ ?_ (run_lift_bind_eq_none hsingle' _) _
      rw [toOption_bind,hsingle]
      rfl

theorem tracks_bindAll (hindex : index.Serves (entries.map (Named.map b)))
    (hindex' : index'.Serves (entries.map (Named.map b')))
    (htracks : ∀ name, ∀ a ∈ matching entries name, TracksValue (b a) (b' a) (rd a) (keep a))
    (strict : Bool) (types : List (Named (FieldType σ κ φ))) (out out' : List (Value φ)) :
    Tracks (allKeep P (entries.map (Named.map keep)) types out out')
      (bindAllFields P index strict types out) (bindAllMoving P index' strict types out')
      (types.flatMap fun field =>
        (matching entries field.name).flatMap fun a => rd a field.value.elem) := by
  induction types generalizing out out' with
  | nil => exact (tracks_pure [] []).congr (iff_of_true rfl trivial)
  | cons field types ih =>
    have hfield := tracks_bindNamed P hindex hindex' (htracks field.name) strict field.value
      (out.headD (field.value.init P)) (out'.headD (field.value.init P)) true nofun
    have hvalue : Tracks (True ∧ _) (Prod.fst <$> _) (Prod.fst <$> _) _ :=
      hfield.map fun {r r' _ _} hr hrun => by
        rw [and_iff_right trivial]
        refine ⟨fun h => Prod.ext h ?_,congrArg Prod.fst⟩
        rw [bindNamedValue_present P hindex hr,bindNamedMoving_present P hindex' hrun,
          matching_map,matching_map,List.isEmpty_map,List.isEmpty_map]
    have hcons : Function.Injective2 (List.cons : Value φ → List (Value φ) → List (Value φ)) :=
      fun _ _ _ _ h => List.cons.inj h
    have hboth := (hvalue.congr (and_iff_right trivial)).seq hcons (ih out.tail out'.tail)
    rw [← bind_pure_comp,← bind_pure_comp,bind_assoc,bind_assoc] at hboth
    simp only [pure_bind] at hboth
    rw [List.flatMap_cons,allKeep,matching_map]
    exact hboth

theorem tracks_bindFromFields
    (htracks : ∀ name, ∀ a ∈ matching entries name, TracksValue (b a) (b' a) (rd a) (keep a))
    (s : σ) (out out' : List (Value φ)) (strict : Bool) :
    Tracks (allKeep P (entries.map (Named.map keep)) (P.structs s).fields out out')
      (bindFromFieldsImpl P (entries.map (Named.map b)) s out strict)
      (bindFromFieldsMoving P (entries.map (Named.map b')) s out' strict)
      (structReads P (entries.map (Named.map rd)) s) := by
  have hall := tracks_bindAll P (scannerFor_serves P s _) (scannerFor_serves P s _) htracks
    strict (P.structs s).fields out out'
  have hreads : structReads P (entries.map (Named.map rd)) s =
      (P.structs s).fields.flatMap fun field =>
        (matching entries field.name).flatMap fun a => rd a field.value.elem := by
    simp only [structReads,matching_map,List.flatMap_map]
  rw [hreads]
  simp only [bindFromFieldsImpl,bindFromFieldsMoving,checkNoUnknownFields_map]
  cases strict with
  | false => exact hall
  | true =>
    cases hcheck : checkNoUnknownFields (P.structs s).fields entries with
    | error e => exact tracks_error _ rfl (fun _ => rfl) _
    | ok _ => exact hall

end Level

variable {P}

/-- Each entry of a list, from what holds of every value in it. -/
theorem located_forall {fields : FieldList φ} {motive : FieldValue φ → Position → Prop}
    (h : ∀ f ∈ fields, ∀ pos, motive f.value pos) (pos : Position) (i : ℕ) (name : Text) :
    ∀ a ∈ matching (located fields pos i) name, motive a.1 a.2 := by
  intro a ha
  obtain ⟨n,hn,-,rfl⟩ := mem_matching.mp ha
  obtain ⟨f,hf,-,hvalue⟩ := mem_located hn
  exact hvalue ▸ h f hf n.value.2

/-- The induction is over the tree, whose leaves are all that moves. -/
theorem tracks_value (hfloats : EmptyIsNoNumber P.floats) (v : FieldValue φ) (pos : Position) :
    TracksValue (bindOneValue P v) (bindMoving P v pos) (reads P v pos) (keeps P v) := by
  induction v using FieldValue.induction generalizing pos with
  | leaf v =>
    constructor
    · intro strict e out out' name
      rw [bindOneValue,bindMoving,reads]
      cases e with
      | leaf t => exact tracks_leaf hfloats t v pos out out' name
      | struct s => exact tracks_error _ rfl (fun _ => rfl) []
    · intro e w
      rw [keeps]
      cases e with
      | leaf t =>
        cases t with
        | inert init => rfl
        | _ => trivial
      | struct s => trivial
  | struct fields ih =>
    have hentries := located_forall (motive := fun v pos =>
      TracksValue (bindOneValue P v) (bindMoving P v pos) (reads P v pos) (keeps P v)) ih pos 0
    constructor
    · intro strict e out out' name
      rw [bindOneValue,bindMoving,reads,keeps]
      cases e with
      | leaf t => exact tracks_error _ rfl (fun _ => rfl) []
      | struct s =>
        have hfields := tracks_bindFromFields P hentries s out.fields out'.fields strict
        rw [bindEntries_located P fields pos 0,movingEntries_located,readEntries_located,
          keepEntries_located P fields pos 0]
        exact hfields.map_injective fun _ _ h => Value.struct.inj h
    · intro e w
      rw [keeps]
      cases e with
      | leaf t => trivial
      | struct s =>
        refine allKeep_refl (fun name k hk => ?_) (P.structs s).fields w.fields
        rw [keepEntries_located P fields pos 0,matching_map] at hk
        obtain ⟨a,ha,rfl⟩ := List.mem_map.mp hk
        exact (hentries name a ha).refl

/-! ### Positions -/

/-- The position as seen from a list further out. -/
def outside (outer pos : Position) : Position := pos ++ outer

theorem matching_located (fields : FieldList φ) (pos : Position) (i : ℕ) (name : Text) :
    (matching (located fields pos i) name).map Prod.fst = matching fields name := by
  induction fields generalizing i with
  | nil => rfl
  | cons f fields ih =>
    rw [located,matching_cons,matching_cons,← ih (i+1)]
    split_ifs <;> rfl

theorem located_outside (outer : Position) (fields : FieldList φ) (pos : Position) (i : ℕ) :
    located fields (outside outer pos) i =
      (located fields pos i).map (Named.map fun n => (n.1,outside outer n.2)) := by
  induction fields generalizing i with
  | nil => rfl
  | cons f fields ih => exact congrArg _ (ih (i+1))

variable (P)

theorem corresponds_leaf {R : Position → Position → Prop} (hR : OneToOne R) {pos pos' : Position}
    (hpos : R pos pos') (t : LeafType κ φ) (raw : LeafValue φ) (out : Value φ) (name : Text) :
    Corresponds R (parseMovingLeaf P t raw pos out name)
      (parseMovingLeaf P t raw pos' out name) := by
  cases raw with
  | text s =>
    have hread : ∀ x : Text → Except BindError (Value φ), Corresponds R
        (do let moved ← get; liftM (x (if pos ∈ moved then [] else s)) : Moving (Value φ))
        (do let moved ← get; liftM (x (if pos' ∈ moved then [] else s))) := by
      intro x taken taken' htaken
      have hrun := corresponds_lift R (x := x (if pos ∈ taken then [] else s)) rfl taken taken' htaken
      change Option.Rel _ _ ((liftM (x (if pos' ∈ taken' then [] else s)) :
        Moving (Value φ)).run taken').toOption
      rwa [← if_congr (hR.mem_iff hpos htaken) rfl rfl]
    cases t with
    | string =>
      intro taken taken' htaken
      have htext : (if pos ∈ taken then [] else s) = if pos' ∈ taken' then [] else s :=
        if_congr (hR.mem_iff hpos htaken) rfl rfl
      exact .some ⟨congrArg (fun s => Value.scalar (.text s)) htext,.cons hpos htaken⟩
    | boolean => exact hread fun s => parseLeafText P .boolean s out name
    | integral signed bits => exact hread fun s => parseLeafText P (.integral signed bits) s out name
    | floating kind => exact hread fun s => parseLeafText P (.floating kind) s out name
    | inert init => exact hread fun s => parseLeafText P (.inert init) s out name
  | integer i => exact corresponds_lift R rfl
  | float x => exact corresponds_lift R rfl
  | boolean b => exact corresponds_lift R rfl

/-- Calls of `bind_one_value` that correspond, for one type. -/
def CorrespondsValue (R : Position → Position → Prop) (strict : Bool) (e : Elem σ κ φ)
    (b b' : MovingValue σ κ φ) : Prop :=
  ∀ out name, Corresponds R (b strict e out name) (b' strict e out name)

section Level

variable {R : Position → Position → Prop} {strict : Bool}
  {entries entries' : List (Named (MovingValue σ κ φ))} {index index' : Scanner (MovingValue σ κ φ)}

theorem corresponds_bindNamed (hindex : index.Serves entries) (hindex' : index'.Serves entries')
    {name : Text} (type : FieldType σ κ φ)
    (hvalues : List.Forall₂ (CorrespondsValue R strict type.elem) (matching entries name)
      (matching entries' name)) (out : Value φ) (required : Bool) :
    Corresponds R (bindNamedMoving P index strict name type out required)
      (bindNamedMoving P index' strict name type out required) := by
  induction type generalizing out required with
  | optional inner ih =>
    exact (ih hvalues (inner.init P) false).bind fun r => corresponds_pure R _
  | vector e =>
    have hempty : (matching entries name).isEmpty = (matching entries' name).isEmpty := by
      generalize matching entries name = bs at hvalues
      generalize matching entries' name = bs' at hvalues
      cases hvalues <;> rfl
    have helems := corresponds_mapM (hvalues.imp fun b b' h => h (e.init P) name)
    simp only [bindNamedMoving,hindex.all,hindex'.all,hempty]
    exact helems.bind fun elems => corresponds_pure R _
  | one e =>
    have hsingle := hindex.single name
    have hsingle' := hindex'.single name
    rw [bindNamedMoving,bindNamedMoving]
    generalize matching entries name = bs at hvalues hsingle
    generalize matching entries' name = bs' at hvalues hsingle'
    rcases hvalues with _ | ⟨hvalue,_ | ⟨_,_⟩⟩
    · rw [toOption_eq_some.mp hsingle,toOption_eq_some.mp hsingle']
      cases required with
      | true => exact corresponds_error R (fun _ => rfl) fun _ => rfl
      | false => exact corresponds_pure R (out,false)
    · rw [toOption_eq_some.mp hsingle,toOption_eq_some.mp hsingle']
      exact (hvalue out name).bind fun v => corresponds_pure R (v,true)
    · exact corresponds_error R (run_lift_bind_eq_none hsingle _) (run_lift_bind_eq_none hsingle' _)

theorem corresponds_bindAll (hindex : index.Serves entries) (hindex' : index'.Serves entries')
    {types : List (Named (FieldType σ κ φ))}
    (hvalues : ∀ field ∈ types, List.Forall₂ (CorrespondsValue R strict field.value.elem)
      (matching entries field.name) (matching entries' field.name)) (out : List (Value φ)) :
    Corresponds R (bindAllMoving P index strict types out)
      (bindAllMoving P index' strict types out) := by
  induction types generalizing out with
  | nil => exact corresponds_pure R []
  | cons field types ih =>
    obtain ⟨hfield,htypes⟩ := List.forall_mem_cons.mp hvalues
    refine (corresponds_bindNamed P hindex hindex' field.value hfield _ true).bind fun r => ?_
    exact (ih htypes out.tail).bind fun values => corresponds_pure R (r.1 :: values)

/-- Lists that are checked alike, with corresponding entries under each name of the struct. -/
theorem corresponds_bindFromFields {s : σ}
    (hcheck : strict = true → (checkNoUnknownFields (P.structs s).fields entries).toOption =
      (checkNoUnknownFields (P.structs s).fields entries').toOption)
    (hvalues : ∀ field ∈ (P.structs s).fields,
      List.Forall₂ (CorrespondsValue R strict field.value.elem) (matching entries field.name)
        (matching entries' field.name)) (out : List (Value φ)) :
    Corresponds R (bindFromFieldsMoving P entries s out strict)
      (bindFromFieldsMoving P entries' s out strict) := by
  have hall := corresponds_bindAll P (scannerFor_serves P s entries)
    (scannerFor_serves P s entries') hvalues out
  cases strict with
  | false => exact hall
  | true => exact (corresponds_lift R (hcheck rfl)).bind fun _ => hall

end Level

/-- Calls that do the same with cells of other names. -/
def RenamesValue (outer : Position) (b b' : MovingValue σ κ φ) : Prop :=
  ∀ strict e out name, Renames (outside outer) (b strict e out name) (b' strict e out name)

theorem corresponds_outside (outer : Position) (v : FieldValue φ) (pos : Position) (strict : Bool)
    (e : Elem σ κ φ) : CorrespondsValue (fun p q => q = outside outer p) strict e
      (bindMoving P v pos) (bindMoving P v (outside outer pos)) := by
  have hone : OneToOne fun p q => q = outside outer p := by
    rintro p _ q _ rfl rfl
    exact (List.append_left_injective outer).eq_iff.symm
  induction v using FieldValue.induction generalizing pos e with
  | leaf v =>
    intro out name
    rw [bindMoving,bindMoving]
    cases e with
    | leaf t => exact corresponds_leaf P hone rfl t v out name
    | struct s => exact corresponds_error _ (fun _ => rfl) fun _ => rfl
  | struct fields ih =>
    intro out name
    rw [bindMoving,bindMoving]
    cases e with
    | leaf t => exact corresponds_error _ (fun _ => rfl) fun _ => rfl
    | struct s =>
      have hentries := located_forall (motive := fun v pos => ∀ e : Elem σ κ φ,
        CorrespondsValue (fun p q => q = outside outer p) strict e (bindMoving P v pos)
          (bindMoving P v (outside outer pos))) ih pos 0
      rw [movingEntries_located,movingEntries_located,located_outside,List.map_map]
      simp only [← bind_pure_comp]
      refine (corresponds_bindFromFields P (fun _ => ?_) (fun field _ => ?_) out.fields).bind
        fun values => corresponds_pure _ (Value.struct values)
      · rw [checkNoUnknownFields_map]
        exact congrArg _ (checkNoUnknownFields_map _
          (fun n : FieldValue φ × Position => bindMoving P n.1 (outside outer n.2)) _).symm
      · rw [matching_map]
        change List.Forall₂ _ _ (matching ((located fields pos 0).map
          (Named.map fun n => bindMoving P n.1 (outside outer n.2))) field.name)
        rw [matching_map,List.forall₂_map_left_iff,List.forall₂_map_right_iff]
        exact List.forall₂_same.mpr fun n hn => hentries field.name n hn field.value.elem

/-- What a value's leaves are called does not matter. -/
theorem renames_value (outer : Position) (v : FieldValue φ) (pos : Position) :
    RenamesValue outer (bindMoving P v pos) (bindMoving P v (outside outer pos)) :=
  fun strict e out name => (corresponds_outside P outer v pos strict e out name).renames

variable {P}

/-! ### The whole list -/

/-- The reads of a list that is bound to a struct. -/
def listReads (P : Program σ κ φ) (fields : FieldList φ) (s : σ) : List (Read Position) :=
  structReads P (readEntries P fields [] 0) s

/-- The same is kept of both objects. -/
def listKeeps (P : Program σ κ φ) (fields : FieldList φ) (s : σ) (out out' : List (Value φ)) :
    Prop := allKeep P (keepEntries P fields) (P.structs s).fields out out'

theorem tracks_fields (hfloats : EmptyIsNoNumber P.floats) (fields : FieldList φ) (s : σ)
    (out out' : List (Value φ)) (strict : Bool) :
    Tracks (listKeeps P fields s out out') (bindFromFields P fields s out strict)
      (bindFromFieldsMoving P (movingEntries P fields [] 0) s out' strict)
      (listReads P fields s) := by
  rw [bindFromFields,listReads,listKeeps,bindEntries_located P fields [] 0,movingEntries_located,
    readEntries_located,keepEntries_located P fields [] 0]
  exact tracks_bindFromFields P (fun name a _ => tracks_value hfloats a.1 a.2) s out out' strict

/-- An object that is kept alike with itself. -/
theorem listKeeps_refl (hfloats : EmptyIsNoNumber P.floats) (fields : FieldList φ) (s : σ)
    (out : List (Value φ)) : listKeeps P fields s out out := by
  have hvalue := (tracks_value hfloats (.struct fields) []).refl (.struct s) (.struct out)
  rwa [keeps] at hvalue

theorem bindFromMoved_eq_some {fields : FieldList φ} {s : σ} {out r : List (Value φ)}
    {strict : Bool} : (bindFromMoved P fields s out strict).toOption = some r ↔ ∃ taken,
      (bindFromFieldsMoving P (movingEntries P fields [] 0) s out strict).run [] =
        .ok (r,taken) := by
  rw [toOption_eq_some,bindFromMoved,map_eq_ok,Prod.exists]
  simp only [exists_and_right,exists_eq_right]

/-- A list handed over, against one that is kept and bound into another object. -/
theorem bindFromMoved_tracks (hfloats : EmptyIsNoNumber P.floats) {fields : FieldList φ} {s : σ}
    {out r : List (Value φ)} (out' : List (Value φ)) {strict : Bool}
    (hr : bindFromFields P fields s out strict = .ok r) :
    (∀ r', (bindFromMoved P fields s out' strict).toOption = some r' →
      (r' = r ↔ listKeeps P fields s out out' ∧ Fresh [] (listReads P fields s))) ∧
    (Fresh [] (listReads P fields s) →
      (bindFromMoved P fields s out' strict).toOption ≠ none) := by
  have htracks := tracks_fields hfloats fields s out out' strict
  refine ⟨fun r' hr' => ?_,fun hfresh => ?_⟩
  · obtain ⟨taken,hrun⟩ := bindFromMoved_eq_some.mp hr'
    obtain ⟨_,hr₀,-,hsame⟩ := htracks.sound hrun
    cases hr.symm.trans hr₀
    exact hsame
  · obtain ⟨r',taken,hrun⟩ := htracks.complete hr hfresh
    rw [bindFromMoved_eq_some.mpr ⟨taken,hrun⟩]
    nofun

/-- Handing the list over changes nothing if and only if no text is read again once it was
moved; where the list that is kept cannot be bound, neither can the one handed over. -/
theorem bindFromMoved_iff (hfloats : EmptyIsNoNumber P.floats) (fields : FieldList φ) (s : σ)
    (out : List (Value φ)) (strict : Bool) :
    (∀ r, bindFromFields P fields s out strict = .ok r →
      ((bindFromMoved P fields s out strict).toOption = some r ↔
        Fresh [] (listReads P fields s))) ∧
    ((bindFromFields P fields s out strict).toOption = none →
      (bindFromMoved P fields s out strict).toOption = none) := by
  refine ⟨fun r hr => ?_,fun hnone => ?_⟩
  · obtain ⟨hsame,hsucceeds⟩ := bindFromMoved_tracks hfloats out hr
    constructor
    · exact fun h => ((hsame r h).mp rfl).2
    · intro hfresh
      obtain ⟨r',hr'⟩ := Option.ne_none_iff_exists'.mp (hsucceeds hfresh)
      rw [hr',(hsame r' hr').mpr ⟨listKeeps_refl hfloats fields s out,hfresh⟩]
  · rw [Option.eq_none_iff_forall_ne_some]
    intro r h
    obtain ⟨taken,hrun⟩ := bindFromMoved_eq_some.mp h
    obtain ⟨r',hr',-⟩ := (tracks_fields hfloats fields s out out strict).sound hrun
    rw [hr'] at hnone
    cases hnone

/-- `struct { std::string Host; std::string host; }`. -/
def twoHostsProgram : Program Unit Empty Unit where
  structs _ := {
    fields := [⟨['H','o','s','t'],.one (.leaf .string)⟩,⟨['h','o','s','t'],.one (.leaf .string)⟩]
    init := [.scalar (.text []),.scalar (.text [])] }
  floats := {
    zero := Empty.elim
    fromChars := fun k => k.elim
    ofInteger := fun k => k.elim
    ofFloat := fun k => k.elim
    ofBoolean := fun k => k.elim
    toIntegral := fun _ _ _ => 0
    toBoolean := fun _ => false
    toText := fun _ => [] }
  linearScanFieldThreshold := 16

def oneHost : FieldList Unit := [⟨['h','o','s','t'],.leaf (.text ['d','b'])⟩]

theorem bindFromMoved_iff_twoHosts :
    ((bindFromMoved twoHostsProgram oneHost () [] false).toOption =
        some [.scalar (.text ['d','b']),.scalar (.text ['d','b'])] ↔
      Fresh [] (listReads twoHostsProgram oneHost ())) ∧
    (bindFromMoved twoHostsProgram [] () [] false).toOption = none := by
  obtain ⟨hsame,-⟩ := bindFromMoved_iff (P := twoHostsProgram) (fun kind => kind.elim) oneHost ()
    [] false
  obtain ⟨-,hthrows⟩ := bindFromMoved_iff (P := twoHostsProgram) (fun kind => kind.elim) [] () []
    false
  exact ⟨hsame _ rfl,hthrows rfl⟩

/-- Kept, the list gives its host to both fields; handed over, to the first alone. -/
theorem moved_host_is_empty :
    bindFromFields twoHostsProgram oneHost () [] false =
      .ok [.scalar (.text ['d','b']),.scalar (.text ['d','b'])] ∧
    bindFromMoved twoHostsProgram oneHost () [] false =
      .ok [.scalar (.text ['d','b']),.scalar (.text [])] ∧
    (bindFromMoved twoHostsProgram oneHost () [] false).toOption ≠
      (bindFromFields twoHostsProgram oneHost () [] false).toOption := by
  refine ⟨rfl,rfl,fun h => ?_⟩
  have hvalues : [Value.scalar (Scalar.text ['d','b']),.scalar (.text [])] =
      [Value.scalar (Scalar.text ['d','b']),(.scalar (.text ['d','b']) : Value Unit)] :=
    Option.some.inj h
  simp at hvalues

end Binding
end Marketlib
