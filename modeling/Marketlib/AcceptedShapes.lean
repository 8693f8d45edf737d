import Marketlib.FilledInPlace
import Marketlib.Layers

/-! Which values a type can hold, by the shape of the value alone: leaves for leaves, structs
for structs, and under strict binding known names. Entries under a name that no field has can
only matter through that. -/

namespace Marketlib
namespace Binding

open Outcome Taking Layers

variable {σ κ φ : Type}

/-! ### Shapes -/

def FieldValue.fields : FieldValue φ → FieldList φ
  | .leaf _ => []
  | .struct fields => fields

def FieldValue.isLeaf : FieldValue φ → Bool
  | .leaf _ => true
  | .struct _ => false

def Elem.isLeaf : Elem σ κ φ → Bool
  | .leaf _ => true
  | .struct _ => false

/-- The values that are bound under a name. -/
def under (name : Text) (v : FieldValue φ) : List (FieldValue φ) := matching v.fields name

/-- The type that fields of the names lead to. -/
inductive Reach (P : Program σ κ φ) : Elem σ κ φ → List Text → Elem σ κ φ → Prop
  | refl (e) : Reach P e [] e
  | field {s field names e} : field ∈ (P.structs s).fields → Reach P field.value.elem names e →
      Reach P (.struct s) (field.name :: names) e

/-- One level of `v` has the shape of one level of `e`. -/
def Fits (P : Program σ κ φ) (strict : Bool) : FieldValue φ → Elem σ κ φ → Prop
  | .leaf _,.leaf _ => True
  | .struct fields,.struct s => strict = true → ∀ f ∈ fields, ∃ field ∈ (P.structs s).fields,
      iequals f.name field.name = true
  | _,_ => False

/-- Every value that is bound below `v` has the shape of its type. -/
def Accepts (P : Program σ κ φ) (strict : Bool) (v : FieldValue φ) (e : Elem σ κ φ) : Prop :=
  ∀ names e', Reach P e names e' → ∀ w ∈ layer under names [v], Fits P strict w e'

variable {P : Program σ κ φ} {strict : Bool}

@[simp] theorem fits_false {v : FieldValue φ} {e : Elem σ κ φ} :
    Fits P false v e ↔ v.isLeaf = e.isLeaf := by
  cases v <;> cases e <;> simp [Fits,FieldValue.isLeaf,Elem.isLeaf]

theorem Fits.isLeaf {v : FieldValue φ} {e : Elem σ κ φ} (h : Fits P strict v e) :
    v.isLeaf = e.isLeaf := by
  cases v <;> cases e <;> first | rfl | exact h.elim

theorem Accepts.fits {v : FieldValue φ} {e : Elem σ κ φ} (h : Accepts P strict v e) :
    Fits P strict v e := h [] e (.refl e) v (List.mem_singleton_self v)

theorem Accepts.lenient {v : FieldValue φ} {e : Elem σ κ φ} (h : Accepts P strict v e) :
    Accepts P false v e :=
  fun names e' hreach w hw => fits_false.mpr (h names e' hreach w hw).isLeaf

theorem accepts_leaf (raw : LeafValue φ) (t : LeafType κ φ) :
    Accepts P strict (.leaf raw) (.leaf t) := by
  intro names e' hreach w hw
  cases hreach
  rw [List.mem_singleton.mp hw]
  trivial

theorem accepts_struct {fields : FieldList φ} {s : σ} :
    Accepts P strict (.struct fields) (.struct s) ↔
      (strict = true → ∀ f ∈ fields, ∃ field ∈ (P.structs s).fields,
        iequals f.name field.name = true) ∧
      ∀ field ∈ (P.structs s).fields, ∀ v ∈ matching fields field.name,
        Accepts P strict v field.value.elem := by
  constructor
  · intro h
    refine ⟨h.fits,fun field hfield v hv names e' hreach w hw => ?_⟩
    refine h (field.name :: names) e' (.field hfield hreach) w ?_
    rw [layer,List.flatMap_singleton]
    exact mem_layer.mpr ⟨v,hv,hw⟩
  · rintro ⟨hnames,hbelow⟩ names e' hreach w hw
    cases hreach with
    | refl =>
      rw [List.mem_singleton.mp hw]
      exact hnames
    | field hfield hreach =>
      rw [layer,List.flatMap_singleton] at hw
      obtain ⟨v,hv,hw⟩ := mem_layer.mp hw
      exact hbelow _ hfield v hv _ e' hreach w hw

/-- Values that a type accepts are parents all the way down to any type reached from it. -/
theorem accepts_along {vs : List (FieldValue φ)} {e e' : Elem σ κ φ} {names : List Text}
    (hreach : Reach P e names e') (h : ∀ v ∈ vs, Accepts P strict v e) :
    Along under (fun v => v.isLeaf = false) (fun v => v.isLeaf = e'.isLeaf) names vs := by
  induction hreach generalizing vs with
  | refl e => exact fun v hv => (h v hv).fits.isLeaf
  | @field s field names e' hfield hreach ih =>
    refine ⟨fun v hv => (h v hv).fits.isLeaf,ih fun w hw => ?_⟩
    obtain ⟨v,hv,hw⟩ := List.mem_flatMap.mp hw
    have haccepts := h v hv
    cases v with
    | leaf raw => cases hw
    | struct fields => exact (accepts_struct.mp haccepts).2 field hfield w hw

/-! ### What is bound has the shape -/

theorem bindNamedMoving_matching {index : Scanner (MovingValue σ κ φ)}
    {entries : List (Named (MovingValue σ κ φ))} (hindex : index.Serves entries) {name : Text}
    {type : FieldType σ κ φ} {out : Value φ} {required : Bool} {taken : List Position}
    {r : (Value φ × Bool) × List Position}
    (h : (bindNamedMoving P index strict name type out required).run taken = .ok r) :
    ∀ b ∈ matching entries name, ∃ out taken r,
      (b strict type.elem out name).run taken = .ok r := by
  induction type generalizing out required r with
  | optional inner ih =>
    obtain ⟨a,mid,ha,-⟩ := run_bind_eq_ok.mp h
    exact ih ha
  | vector e =>
    obtain ⟨elems,mid,helems,-⟩ := run_bind_eq_ok.mp h
    rw [hindex.all] at helems
    intro b hb
    obtain ⟨taken,r,hr⟩ := run_mapM_eq_ok helems b hb
    exact ⟨_,taken,r,hr⟩
  | one e =>
    intro b hb
    obtain ⟨r,taken'⟩ := r
    rcases bindNamedMoving_one P hindex h with ⟨hm,-⟩ | ⟨b',v,hm,hv,-⟩
    · rw [hm] at hb
      cases hb
    · rw [hm] at hb
      rw [List.mem_singleton.mp hb]
      exact ⟨_,_,_,hv⟩

theorem bindAllMoving_matching {index : Scanner (MovingValue σ κ φ)}
    {entries : List (Named (MovingValue σ κ φ))} (hindex : index.Serves entries)
    {types : List (Named (FieldType σ κ φ))} {out : List (Value φ)} {taken : List Position}
    {r : List (Value φ) × List Position}
    (h : (bindAllMoving P index strict types out).run taken = .ok r) :
    ∀ field ∈ types, ∀ b ∈ matching entries field.name, ∃ out taken r,
      (b strict field.value.elem out field.name).run taken = .ok r := by
  induction types generalizing out taken r with
  | nil => exact fun _ hfield => absurd hfield List.not_mem_nil
  | cons field types ih =>
    obtain ⟨value,mid,hvalue,h⟩ := run_bind_eq_ok.mp h
    obtain ⟨values,mid',hvalues,-⟩ := run_bind_eq_ok.mp h
    exact List.forall_mem_cons.mpr ⟨bindNamedMoving_matching hindex hvalue,ih hvalues⟩

theorem bindFromFieldsMoving_matching {entries : List (Named (MovingValue σ κ φ))} {s : σ}
    {out : List (Value φ)} {taken : List Position} {r : List (Value φ) × List Position}
    (h : (bindFromFieldsMoving P entries s out strict).run taken = .ok r) :
    (strict = true → ∀ f ∈ entries, ∃ field ∈ (P.structs s).fields,
      iequals f.name field.name = true) ∧
    ∀ field ∈ (P.structs s).fields, ∀ b ∈ matching entries field.name, ∃ out taken r,
      (b strict field.value.elem out field.name).run taken = .ok r := by
  have hserves := scannerFor_serves P s entries
  cases strict with
  | false => exact ⟨nofun,bindAllMoving_matching hserves h⟩
  | true =>
    obtain ⟨⟨⟩,mid,hcheck,h⟩ := run_bind_eq_ok.mp h
    exact ⟨fun _ => (checkNoUnknownFields_eq_ok _ _).mp (run_lift_eq_ok.mp hcheck).1,bindAllMoving_matching hserves h⟩

/-- The induction is over the value; what is moved on the way does not matter to shapes. -/
theorem accepts_of_run {v : FieldValue φ} {pos : Position} {e : Elem σ κ φ} {out : Value φ}
    {name : Text} {taken : List Position} {r : Value φ × List Position}
    (h : (bindMoving P v pos strict e out name).run taken = .ok r) : Accepts P strict v e := by
  induction v using FieldValue.induction generalizing pos e out name taken r with
  | leaf raw =>
    cases e with
    | leaf t => exact accepts_leaf raw t
    | struct s =>
      rw [bindMoving] at h
      cases h
  | struct fields ih =>
    rw [bindMoving] at h
    cases e with
    | leaf t => cases h
    | struct s =>
      obtain ⟨values,hvalues,-⟩ := run_map_eq_ok.mp h
      obtain ⟨hnames,hbelow⟩ := bindFromFieldsMoving_matching hvalues
      rw [movingEntries_located] at hnames hbelow
      refine accepts_struct.mpr ⟨fun hstrict f hf => ?_,fun field hfield v hv => ?_⟩
      · obtain ⟨n,hn,hname⟩ := exists_located hf pos 0
        have hknown := hnames hstrict _ (List.mem_map_of_mem hn)
        rwa [← hname]
      · rw [← matching_located fields pos 0 field.name] at hv
        obtain ⟨a,ha,rfl⟩ := List.mem_map.mp hv
        obtain ⟨n,hn,-,rfl⟩ := mem_matching.mp ha
        obtain ⟨f,hf,-,hvalue⟩ := mem_located hn
        have hb := hbelow field hfield _ ((matching_map _ _ _).symm ▸ List.mem_map_of_mem ha)
        obtain ⟨out,taken,r,hr⟩ := hb
        rw [← hvalue] at hr ⊢
        exact ih f hf hr

theorem toOption_bindFromMoved_none {fields : FieldList φ} {s : σ}
    (h : ¬ Accepts P strict (.struct fields) (.struct s)) (out : List (Value φ)) :
    (bindFromMoved P fields s out strict).toOption = none := by
  rw [Option.eq_none_iff_forall_ne_some]
  intro r hr
  obtain ⟨taken,hrun⟩ := bindFromMoved_eq_some.mp hr
  have hbind : (bindMoving P (.struct fields) [] strict (.struct s) (.struct out) []).run [] =
      .ok (.struct r,taken) := by
    rw [bindMoving]
    exact run_map_eq_ok.mpr ⟨r,hrun,rfl⟩
  exact h (accepts_of_run hbind)

theorem exists_run_bindFromFields {entries : List (Named (MovingValue σ κ φ))} {s : σ}
    {out : List (Value φ)} {taken : List Position}
    (hcheck : strict = true → checkNoUnknownFields (P.structs s).fields entries = .ok ())
    (hall : ∃ r, (bindAllMoving P (scannerFor P s entries) strict (P.structs s).fields
      out).run taken = .ok r) :
    ∃ r, (bindFromFieldsMoving P entries s out strict).run taken = .ok r := by
  obtain ⟨r,hr⟩ := hall
  cases strict with
  | false => exact ⟨r,hr⟩
  | true =>
    refine ⟨r,run_bind_eq_ok.mpr ⟨⟨⟩,taken,?_,hr⟩⟩
    rw [hcheck rfl]
    rfl

/-! ### Structs of vectors -/

/-- No floating-point types. -/
def noFloats (φ : Type) : Floats Empty φ where
  zero := Empty.elim
  fromChars := fun k => k.elim
  ofInteger := fun k => k.elim
  ofFloat := fun k => k.elim
  ofBoolean := fun k => k.elim
  toIntegral := fun _ _ _ => 0
  toBoolean := fun _ => false
  toText := fun _ => []

/-- A string, or a struct. -/
def listElem (t : Option σ) : Elem σ Empty φ := t.elim (.leaf .string) .struct

/-- Every field is a vector, of strings or of structs. -/
def listProgram (φ : Type) (fieldsOf : σ → List (Named (Option σ))) : Program σ Empty φ where
  structs s := {
    fields := (fieldsOf s).map (Named.map fun t => .vector (listElem t))
    init := [] }
  floats := noFloats φ
  linearScanFieldThreshold := 16

variable {fieldsOf : σ → List (Named (Option σ))}

theorem listProgram_fields (s : σ) : ((listProgram φ fieldsOf).structs s).fields =
    (fieldsOf s).map (Named.map fun t => .vector (listElem t)) := rfl

theorem accepts_listProgram {fields : FieldList φ} {s : σ} :
    Accepts (listProgram φ fieldsOf) strict (.struct fields) (.struct s) ↔
      (strict = true → ∀ f ∈ fields, ∃ field ∈ fieldsOf s, iequals f.name field.name = true) ∧
      ∀ field ∈ fieldsOf s, ∀ v ∈ matching fields field.name,
        Accepts (listProgram φ fieldsOf) strict v (listElem field.value) := by
  rw [accepts_struct,listProgram_fields,List.forall_mem_map]
  simp only [List.mem_map,exists_exists_and_eq_and]
  rfl

theorem exists_run_bindAll {index : Scanner (MovingValue σ Empty φ)}
    {entries : List (Named (MovingValue σ Empty φ))} (hindex : index.Serves entries)
    {types : List (Named (Option σ))}
    (h : ∀ field ∈ types, ∀ b ∈ matching entries field.name, ∀ out name taken,
      ∃ r, (b strict (listElem field.value) out name).run taken = .ok r)
    (out : List (Value φ)) (taken : List Position) :
    ∃ r, (bindAllMoving (listProgram φ fieldsOf) index strict
      (types.map (Named.map fun t => .vector (listElem t))) out).run taken = .ok r := by
  induction types generalizing out taken with
  | nil => exact ⟨_,rfl⟩
  | cons field types ih =>
    obtain ⟨hfield,htypes⟩ := List.forall_mem_cons.mp h
    rw [← hindex.all] at hfield
    obtain ⟨⟨elems,mid⟩,helems⟩ := exists_run_mapM (fun b hb => hfield b hb
      ((listElem field.value).init (listProgram φ fieldsOf)) field.name) taken
    obtain ⟨⟨values,last⟩,hvalues⟩ := ih htypes out.tail mid
    have hnamed : (bindNamedMoving (listProgram φ fieldsOf) index strict field.name
        (.vector (listElem field.value)) (out.headD (.vector [])) true).run taken =
        .ok ((.vector elems,!(index.all field.name).isEmpty),mid) :=
      run_bind_eq_ok.mpr ⟨elems,mid,helems,rfl⟩
    exact ⟨_,run_bind_eq_ok.mpr ⟨_,mid,hnamed,run_bind_eq_ok.mpr ⟨values,last,hvalues,rfl⟩⟩⟩

/-- A type made of vectors and strings alone binds what it accepts. -/
theorem run_of_accepts {v : FieldValue φ} {t : Option σ}
    (h : Accepts (listProgram φ fieldsOf) strict v (listElem t)) (pos : Position) (out : Value φ)
    (name : Text) (taken : List Position) :
    ∃ r, (bindMoving (listProgram φ fieldsOf) v pos strict (listElem t) out name).run taken =
      .ok r := by
  induction v using FieldValue.induction generalizing t pos out name taken with
  | leaf raw =>
    cases t with
    | some s => exact h.fits.elim
    | none =>
      rw [bindMoving]
      cases raw <;> exact ⟨_,rfl⟩
  | struct fields ih =>
    cases t with
    | none => exact h.fits.elim
    | some s =>
      obtain ⟨hnames,hbelow⟩ := accepts_listProgram.mp h
      have hentries : ∀ field ∈ fieldsOf s,
          ∀ b ∈ matching (movingEntries (listProgram φ fieldsOf) fields pos 0) field.name,
          ∀ out name taken, ∃ r, (b strict (listElem field.value) out name).run taken = .ok r := by
        intro field hfield b hb
        rw [movingEntries_located,matching_map] at hb
        obtain ⟨a,ha,rfl⟩ := List.mem_map.mp hb
        obtain ⟨n,hn,-,rfl⟩ := mem_matching.mp ha
        obtain ⟨f,hf,-,hvalue⟩ := mem_located hn
        have haccepts := hbelow field hfield n.value.1
          (matching_located fields pos 0 field.name ▸ List.mem_map_of_mem ha)
        rw [← hvalue] at haccepts ⊢
        exact ih f hf haccepts _
      have hcheck : strict = true →
          checkNoUnknownFields ((listProgram φ fieldsOf).structs s).fields
            (movingEntries (listProgram φ fieldsOf) fields pos 0) = .ok () := by
        intro hstrict
        rw [movingEntries_located,checkNoUnknownFields_map,checkNoUnknownFields_eq_ok]
        intro n hn
        obtain ⟨f,hf,hname,-⟩ := mem_located hn
        obtain ⟨field,hfield,hknown⟩ := hnames hstrict f hf
        exact ⟨_,List.mem_map_of_mem hfield,hname ▸ hknown⟩
      obtain ⟨⟨values,last⟩,hvalues⟩ := exists_run_bindFromFields hcheck
        (exists_run_bindAll (scannerFor_serves (listProgram φ fieldsOf) s _) hentries out.fields taken)
      rw [bindMoving]
      exact ⟨(.struct values,last),run_map_eq_ok.mpr ⟨values,hvalues,rfl⟩⟩

theorem bindResolvedNode_listProgram {v : FieldValue φ} {t : Option σ} (out : Value φ)
    (path : Text) : (bindResolvedNode (listProgram φ fieldsOf) (some v) (listElem t) false out path
      strict).toOption ≠ none ↔ Accepts (listProgram φ fieldsOf) strict v (listElem t) := by
  cases t with
  | none =>
    cases v with
    | leaf raw => cases raw <;> exact iff_of_true nofun (accepts_leaf _ _)
    | struct fields => exact iff_of_false (fun h => h rfl) fun h => h.fits
  | some s =>
    cases v with
    | leaf raw => exact iff_of_false (fun h => h rfl) fun h => h.fits
    | struct fields =>
      have hnode : (bindResolvedNode (listProgram φ fieldsOf) (some (.struct fields))
          (listElem (some s)) false out path strict).toOption =
          (bindFromMoved (listProgram φ fieldsOf) fields s [] strict).toOption.map .struct := by
        simp only [bindResolvedNode,listElem,Option.elim_some,toOption_bind]
        exact (Option.map_eq_bind ..).symm
      rw [hnode,ne_eq,Option.map_eq_none_iff]
      constructor
      · intro h
        by_contra haccepts
        exact h (toOption_bindFromMoved_none haccepts [])
      · intro h hnone
        obtain ⟨⟨value,taken⟩,hrun⟩ := run_of_accepts h [] (.struct []) [] []
        rw [listElem,Option.elim_some,bindMoving] at hrun
        obtain ⟨values,hvalues,-⟩ := run_map_eq_ok.mp hrun
        have hsome : (bindFromMoved (listProgram φ fieldsOf) fields s [] strict).toOption =
          some values := bindFromMoved_eq_some.mpr ⟨taken,hvalues⟩
        rw [hsome] at hnone
        cases hnone

end Binding
end Marketlib
