import Marketlib.AcceptedShapes
import Marketlib.PtreeBridge

/-! Values that differ by entries of one name, which no field has. Binding them gives the same
as long as the type accepts both or neither. -/

namespace Marketlib
namespace Binding

open Outcome Taking Layers

variable {σ κ φ : Type}

/-- The second list lacks some of the entries named `hidden`. -/
inductive Without (hidden : Text) {α β : Type} (R : α → β → Prop) :
    List (Named α) → List (Named β) → Prop
  | nil : Without hidden R [] []
  | keep (name) {a b as bs} : R a b → Without hidden R as bs →
      Without hidden R (⟨name,a⟩ :: as) (⟨name,b⟩ :: bs)
  | drop (a) {as bs} : Without hidden R as bs → Without hidden R (⟨hidden,a⟩ :: as) bs

/-- The same at every level. A struct that lost its entries may have become a leaf. -/
inductive Pruned (hidden : Text) : FieldValue φ → FieldValue φ → Prop
  | leaf (raw) : Pruned hidden (.leaf raw) (.leaf raw)
  | bare (fields raw) : Pruned hidden (.struct fields) (.leaf raw)
  | struct {fields fields'} : Without hidden (Pruned hidden) fields fields' →
      Pruned hidden (.struct fields) (.struct fields')

/-- No field of any struct is named `hidden`. -/
def Ignores (P : Program σ κ φ) (hidden : Text) : Prop :=
  ∀ s, ∀ field ∈ (P.structs s).fields, iequals hidden field.name = false

variable {P : Program σ κ φ} {strict : Bool} {hidden : Text}

theorem Reach.plain (hP : Ignores P hidden) {e e' : Elem σ κ φ} {names : List Text}
    (h : Reach P e names e') : ∀ name ∈ names, iequals hidden name = false := by
  induction h with
  | refl e => exact fun _ hname => absurd hname List.not_mem_nil
  | @field s field names e hfield _ ih => exact List.forall_mem_cons.mpr ⟨hP s field hfield,ih⟩

section Without

variable {α β : Type} {R : α → β → Prop} {as : List (Named α)} {bs : List (Named β)}

theorem Without.matching (h : Without hidden R as bs) {name : Text}
    (hname : iequals hidden name = false) :
    List.Forall₂ R (matching as name) (matching bs name) := by
  induction h with
  | nil => exact .nil
  | keep key hab _ ih =>
    rw [matching_cons,matching_cons]
    split_ifs
    · exact .cons hab ih
    · exact ih
  | drop a _ ih =>
    rw [matching_cons,if_neg (by simp [hname])]
    exact ih

theorem Without.append {as' : List (Named α)} {bs' : List (Named β)}
    (h : Without hidden R as bs) (h' : Without hidden R as' bs') :
    Without hidden R (as ++ as') (bs ++ bs') := by
  induction h with
  | nil => exact h'
  | keep key hab _ ih => exact .keep key hab ih
  | drop a _ ih => exact .drop a ih

theorem Without.map {α' β' : Type} {R' : α' → β' → Prop} {f : α → α'} {g : β → β'}
    (h : Without hidden R as bs) (hR : ∀ a ∈ as, ∀ b, R a.value b → R' (f a.value) (g b)) :
    Without hidden R' (as.map (Named.map f)) (bs.map (Named.map g)) := by
  induction h with
  | nil => exact .nil
  | keep key hab _ ih =>
    obtain ⟨hhead,htail⟩ := List.forall_mem_cons.mp hR
    exact .keep key (hhead _ hab) (ih htail)
  | drop a _ ih => exact .drop (f a) (ih (List.forall_mem_cons.mp hR).2)

theorem Without.names_subset (h : Without hidden R as bs) :
    ∀ b ∈ bs, ∃ a ∈ as, a.name = b.name := by
  induction h with
  | nil => exact fun _ hb => absurd hb List.not_mem_nil
  | keep key _ _ ih =>
    refine List.forall_mem_cons.mpr ⟨⟨_,List.mem_cons_self,rfl⟩,fun b hb => ?_⟩
    obtain ⟨a,ha,hname⟩ := ih b hb
    exact ⟨a,List.mem_cons_of_mem _ ha,hname⟩
  | drop a _ ih =>
    intro b hb
    obtain ⟨a,ha,hname⟩ := ih b hb
    exact ⟨a,List.mem_cons_of_mem _ ha,hname⟩

theorem Without.names_kept (h : Without hidden R as bs) :
    ∀ a ∈ as, a.name = hidden ∨ ∃ b ∈ bs, b.name = a.name := by
  induction h with
  | nil => exact fun _ ha => absurd ha List.not_mem_nil
  | keep key _ _ ih =>
    refine List.forall_mem_cons.mpr ⟨.inr ⟨_,List.mem_cons_self,rfl⟩,fun a ha => ?_⟩
    exact (ih a ha).imp_right fun ⟨b,hb,hname⟩ => ⟨b,List.mem_cons_of_mem _ hb,hname⟩
  | drop a _ ih => exact List.forall_mem_cons.mpr ⟨.inl rfl,ih⟩

end Without

/-! ### Acceptance -/

/-- Along names other than `hidden` the two are parents and leaves in the same places, as far
as types can tell. -/
def SameShapes (hidden : Text) (v v' : FieldValue φ) : Prop :=
  ∀ names : List Text, (∀ name ∈ names, iequals hidden name = false) → ∀ leaf : Bool,
    (Along under (fun w => w.isLeaf = false) (fun w => w.isLeaf = leaf) names [v] ↔
      Along under (fun w => w.isLeaf = false) (fun w => w.isLeaf = leaf) names [v'])

/-- No entry at any level is named `hidden`. -/
def Free (hidden : Text) (v : FieldValue φ) : Prop :=
  ∀ names, ∀ w ∈ layer under names [v], ∀ f ∈ w.fields, iequals hidden f.name = false

/-- Entries of one name, under the same names, are all leaves or all structs. -/
def Uniform (v : FieldValue φ) : Prop :=
  ∀ names, (∀ w ∈ layer under names [v], w.isLeaf = true) ∨
    ∀ w ∈ layer under names [v], w.isLeaf = false

theorem SameShapes.symm {v v' : FieldValue φ} (h : SameShapes hidden v v') :
    SameShapes hidden v' v := fun names hnames leaf => (h names hnames leaf).symm

theorem SameShapes.isLeaf {v v' : FieldValue φ} (h : SameShapes hidden v v') :
    v.isLeaf = v'.isLeaf := by
  have hhere := (h [] (fun _ hname => absurd hname List.not_mem_nil) v.isLeaf).mp
    (List.forall_mem_singleton.mpr rfl)
  exact (List.forall_mem_singleton.mp hhere).symm

theorem SameShapes.accepts (hP : Ignores P hidden) {v v' : FieldValue φ}
    (h : SameShapes hidden v v') {e : Elem σ κ φ} (hv : Accepts P false v e) :
    Accepts P false v' e := by
  intro names e' hreach w hw
  have halong := accepts_along hreach (List.forall_mem_singleton.mpr hv)
  have halong' := (h names (hreach.plain hP) e'.isLeaf).mp halong
  exact fits_false.mpr (halong'.of_mem_layer w hw)

theorem Free.struct {fields : FieldList φ} (h : Free hidden (.struct fields)) :
    (∀ f ∈ fields, iequals hidden f.name = false) ∧ ∀ f ∈ fields, Free hidden f.value := by
  refine ⟨h [] (.struct fields) (List.mem_singleton_self _),fun f hf names w hw => ?_⟩
  refine h (f.name :: names) w ?_
  rw [layer,List.flatMap_singleton]
  exact mem_layer.mpr ⟨f.value,mem_matching.mpr ⟨f,hf,iequals_refl _,rfl⟩,hw⟩

/-- Fewer names are known just as well. -/
theorem Accepts.pruned (hP : Ignores P hidden) {v v' : FieldValue φ} (h : Pruned hidden v v')
    {e : Elem σ κ φ} (hv : Accepts P strict v e) (hv' : Accepts P false v' e) :
    Accepts P strict v' e := by
  induction v using FieldValue.induction generalizing v' e with
  | leaf raw =>
    cases h
    exact hv
  | struct fields ih =>
    cases h with
    | bare _ raw =>
      cases e with
      | leaf t => exact accepts_leaf raw t
      | struct s => exact hv'.fits.elim
    | @struct _ fields' h =>
      cases e with
      | leaf t => exact hv.fits.elim
      | struct s =>
        obtain ⟨hnames,hbelow⟩ := accepts_struct.mp hv
        obtain ⟨-,hbelow'⟩ := accepts_struct.mp hv'
        refine accepts_struct.mpr ⟨fun hstrict f hf => ?_,fun field hfield w' hw' => ?_⟩
        · obtain ⟨g,hg,hname⟩ := h.names_subset f hf
          rw [← hname]
          exact hnames hstrict g hg
        · obtain ⟨w,hw,hpruned⟩ := exists_of_forall₂ (h.matching (hP s field hfield)).flip w' hw'
          obtain ⟨f,hf,-,rfl⟩ := mem_matching.mp hw
          exact ih f hf hpruned (hbelow field hfield _ hw) (hbelow' field hfield w' hw')

/-- Where there is nothing to prune, all names are still there. -/
theorem Accepts.of_pruned (hP : Ignores P hidden) {v v' : FieldValue φ} (h : Pruned hidden v v')
    (hfree : Free hidden v) {e : Elem σ κ φ} (hv' : Accepts P strict v' e)
    (hv : Accepts P false v e) : Accepts P strict v e := by
  induction v using FieldValue.induction generalizing v' e with
  | leaf raw =>
    cases h
    exact hv'
  | struct fields ih =>
    cases h with
    | bare _ raw =>
      cases e with
      | leaf t => exact hv.fits.elim
      | struct s => exact hv'.fits.elim
    | @struct _ fields' h =>
      cases e with
      | leaf t => exact hv.fits.elim
      | struct s =>
        obtain ⟨hnames,hbelow⟩ := accepts_struct.mp hv'
        obtain ⟨-,hbelow'⟩ := accepts_struct.mp hv
        obtain ⟨hplain,hfree⟩ := hfree.struct
        refine accepts_struct.mpr ⟨fun hstrict f hf => ?_,fun field hfield w hw => ?_⟩
        · rcases h.names_kept f hf with hhidden | ⟨g,hg,hname⟩
          · have hf' := hplain f hf
            rw [hhidden,iequals_refl] at hf'
            cases hf'
          · rw [← hname]
            exact hnames hstrict g hg
        · obtain ⟨w',hw',hpruned⟩ := exists_of_forall₂ (h.matching (hP s field hfield)) w hw
          obtain ⟨f,hf,-,rfl⟩ := mem_matching.mp hw
          exact ih f hf hpruned (hfree f hf) (hbelow field hfield w' hw')
            (hbelow' field hfield _ hw)

/-- What a struct type accepts strictly is free of the names that its fields lack, and of one
shape under each name. -/
theorem accepts_uniform (hP : Ignores P hidden) (names : List Text) {vs : List (FieldValue φ)}
    {e : Elem σ κ φ} (h : ∀ v ∈ vs, Accepts P true v e) :
    ((∀ w ∈ layer under names vs, w.isLeaf = true) ∨ ∀ w ∈ layer under names vs, w.isLeaf = false) ∧
    ∀ w ∈ layer under names vs, ∀ f ∈ w.fields, iequals hidden f.name = false := by
  induction names generalizing vs e with
  | nil =>
    have hshape : ∀ v ∈ vs, v.isLeaf = e.isLeaf := fun v hv => (h v hv).fits.isLeaf
    constructor
    · cases e with
      | leaf t => exact .inl hshape
      | struct s => exact .inr hshape
    · intro v hv f hf
      have hfits := (h v hv).fits
      cases v with
      | leaf raw => cases hf
      | struct fields =>
        cases e with
        | leaf t => exact hfits.elim
        | struct s =>
          obtain ⟨field,hfield,hname⟩ := hfits rfl f hf
          rw [iequals_comm,iequals_congr hname,iequals_comm]
          exact hP s field hfield
  | cons name names ih =>
    rw [layer]
    rcases hnext : vs.flatMap (under name) with _ | ⟨w,ws⟩
    · simp
    · have hw : w ∈ vs.flatMap (under name) := hnext ▸ List.mem_cons_self
      obtain ⟨v,hv,hw⟩ := List.mem_flatMap.mp hw
      have haccepts := h v hv
      cases v with
      | leaf raw => cases hw
      | struct fields =>
        cases e with
        | leaf t => exact haccepts.fits.elim
        | struct s =>
          obtain ⟨f,hf,hname,-⟩ := mem_matching.mp hw
          obtain ⟨field,hfield,hknown⟩ := (accepts_struct.mp haccepts).1 rfl f hf
          rw [← hnext]
          refine ih (e := field.value.elem) fun w hw => ?_
          obtain ⟨v,hv,hw⟩ := List.mem_flatMap.mp hw
          have haccepts := h v hv
          cases v with
          | leaf raw => cases hw
          | struct fields =>
            obtain ⟨g,hg,hgname,rfl⟩ := mem_matching.mp hw
            refine (accepts_struct.mp haccepts).2 field hfield _ (mem_matching.mpr ⟨g,hg,?_,rfl⟩)
            rw [iequals_comm,← iequals_congr hknown,iequals_congr hname,iequals_comm]
            exact hgname

/-! ### Binding -/

/-- `R` pairs the leaves of `v` with those that `v'` still has, and binding the two does the
same wherever the type accepts both. -/
structure Paired (P : Program σ κ φ) (v : FieldValue φ) (pos : Position) (v' : FieldValue φ)
    (pos' : Position) (R : Position → Position → Prop) : Prop where
  oneToOne : OneToOne R
  inside : ∀ p p', R p p' → pos <:+ p ∧ pos' <:+ p'
  binds : ∀ R', OneToOne R' → (∀ p p', R p p' → R' p p') → ∀ strict e, Accepts P strict v e →
    Accepts P strict v' e → CorrespondsValue R' strict e (bindMoving P v pos) (bindMoving P v' pos')

/-- The same of two lists, whose entries are counted from `i` and `i'` on. -/
structure PairedLists (P : Program σ κ φ) (hidden : Text) (fields : FieldList φ) (pos : Position)
    (i : ℕ) (fields' : FieldList φ) (pos' : Position) (i' : ℕ)
    (R : Position → Position → Prop) : Prop where
  oneToOne : OneToOne R
  inside : ∀ p p', R p p' → (∃ j ≥ i, (j :: pos) <:+ p) ∧ ∃ j ≥ i', (j :: pos') <:+ p'
  binds : ∀ R', OneToOne R' → (∀ p p', R p p' → R' p p') → ∀ name,
    iequals hidden name = false → ∀ strict (e : Elem σ κ φ), List.Forall₂
      (fun n n' => Accepts P strict n.1 e → Accepts P strict n'.1 e →
        CorrespondsValue R' strict e (bindMoving P n.1 n.2) (bindMoving P n'.1 n'.2))
      (matching (located fields pos i) name) (matching (located fields' pos' i') name)

/-- A position lies in one entry of a list at most. -/
theorem entry_unique {pos p : Position} {i j : ℕ} (hi : (i :: pos) <:+ p)
    (hj : (j :: pos) <:+ p) : i = j := by
  have hsuffix := List.suffix_of_suffix_length_le hi hj (by simp)
  exact (List.cons.inj (hsuffix.eq_of_length (by simp))).1

theorem PairedLists.cons {v v' : FieldValue φ} {name : Text} {fields fields' : FieldList φ}
    {pos pos' : Position} {i i' : ℕ} {R₁ R₂ : Position → Position → Prop}
    (h₁ : Paired P v (i :: pos) v' (i' :: pos') R₁)
    (h₂ : PairedLists P hidden fields pos (i+1) fields' pos' (i'+1) R₂) :
    PairedLists P hidden (⟨name,v⟩ :: fields) pos i (⟨name,v'⟩ :: fields') pos' i'
      fun p p' => R₁ p p' ∨ R₂ p p' where
  oneToOne := by
    -- the head's leaves lie in entry `i`, those of the tail in later ones
    have hapart : ∀ {p p' q q'}, R₁ p p' → R₂ q q' → p ≠ q ∧ p' ≠ q' := by
      intro p p' q q' hp hq
      obtain ⟨hin,hin'⟩ := h₁.inside p p' hp
      obtain ⟨⟨j,hj,hjin⟩,⟨j',hj',hjin'⟩⟩ := h₂.inside q q' hq
      constructor
      · rintro rfl
        have := entry_unique hin hjin
        omega
      · rintro rfl
        have := entry_unique hin' hjin'
        omega
    rintro p p' q q' (hp | hp) (hq | hq)
    · exact h₁.oneToOne hp hq
    · exact iff_of_false (hapart hp hq).1 (hapart hp hq).2
    · exact iff_of_false (hapart hq hp).1.symm (hapart hq hp).2.symm
    · exact h₂.oneToOne hp hq
  inside := by
    rintro p p' (hp | hp)
    · obtain ⟨hin,hin'⟩ := h₁.inside p p' hp
      exact ⟨⟨i,le_rfl,hin⟩,⟨i',le_rfl,hin'⟩⟩
    · obtain ⟨⟨j,hj,hjin⟩,⟨j',hj',hjin'⟩⟩ := h₂.inside p p' hp
      exact ⟨⟨j,by omega,hjin⟩,⟨j',by omega,hjin'⟩⟩
  binds R' hR' hsub key hkey strict e := by
    have hhead := h₁.binds R' hR' (fun p p' hp => hsub p p' (.inl hp)) strict e
    have htail := h₂.binds R' hR' (fun p p' hp => hsub p p' (.inr hp)) key hkey strict e
    rw [located,located,matching_cons,matching_cons]
    split_ifs
    · exact .cons hhead htail
    · exact htail

theorem PairedLists.drop {v : FieldValue φ} {fields fields' : FieldList φ} {pos pos' : Position}
    {i i' : ℕ} {R : Position → Position → Prop}
    (h : PairedLists P hidden fields pos (i+1) fields' pos' i' R) :
    PairedLists P hidden (⟨hidden,v⟩ :: fields) pos i fields' pos' i' R where
  oneToOne := h.oneToOne
  inside p p' hp := by
    obtain ⟨⟨j,hj,hjin⟩,hin'⟩ := h.inside p p' hp
    exact ⟨⟨j,by omega,hjin⟩,hin'⟩
  binds R' hR' hsub key hkey strict e := by
    rw [located,matching_cons,if_neg (by simp [hkey])]
    exact h.binds R' hR' hsub key hkey strict e

theorem Without.pairedLists {fields fields' : FieldList φ}
    (h : Without hidden (Pruned hidden) fields fields') (pos pos' : Position)
    (hvalues : ∀ f ∈ fields, ∀ v' pos pos', Pruned hidden f.value v' →
      ∃ R, Paired P f.value pos v' pos' R) (i i' : ℕ) :
    ∃ R, PairedLists P hidden fields pos i fields' pos' i' R := by
  induction h generalizing i i' with
  | nil =>
    exact ⟨fun _ _ => False,fun h _ => h.elim,fun _ _ h => h.elim,fun _ _ _ _ _ _ _ => .nil⟩
  | keep name hpruned _ ih =>
    obtain ⟨hvalue,hvalues⟩ := List.forall_mem_cons.mp hvalues
    obtain ⟨R₁,h₁⟩ := hvalue _ (i :: pos) (i' :: pos') hpruned
    obtain ⟨R₂,h₂⟩ := ih hvalues (i+1) (i'+1)
    exact ⟨_,PairedLists.cons h₁ h₂⟩
  | drop a _ ih =>
    obtain ⟨R,h⟩ := ih (List.forall_mem_cons.mp hvalues).2 (i+1) i'
    exact ⟨R,h.drop⟩

/-- One level, given the levels below it. -/
theorem PairedLists.corresponds (hP : Ignores P hidden) {fields fields' : FieldList φ}
    {pos pos' : Position} {R : Position → Position → Prop}
    (h : PairedLists P hidden fields pos 0 fields' pos' 0 R) {R' : Position → Position → Prop}
    (hR' : OneToOne R') (hsub : ∀ p p', R p p' → R' p p') {s : σ}
    (hv : Accepts P strict (.struct fields) (.struct s))
    (hv' : Accepts P strict (.struct fields') (.struct s)) (out : List (Value φ)) :
    Corresponds R' (bindFromFieldsMoving P (movingEntries P fields pos 0) s out strict)
      (bindFromFieldsMoving P (movingEntries P fields' pos' 0) s out strict) := by
  obtain ⟨hnames,hbelow⟩ := accepts_struct.mp hv
  obtain ⟨hnames',hbelow'⟩ := accepts_struct.mp hv'
  have hknown : ∀ (fields : FieldList φ) pos,
      (strict = true → ∀ f ∈ fields, ∃ field ∈ (P.structs s).fields,
        iequals f.name field.name = true) → strict = true →
      checkNoUnknownFields (P.structs s).fields (movingEntries P fields pos 0) = .ok () := by
    intro fields pos hnames hstrict
    rw [movingEntries_located,checkNoUnknownFields_map,checkNoUnknownFields_eq_ok]
    intro n hn
    obtain ⟨f,hf,hname,-⟩ := mem_located hn
    rw [← hname]
    exact hnames hstrict f hf
  refine corresponds_bindFromFields P (fun hstrict => ?_) (fun field hfield => ?_) out
  · rw [hknown fields pos hnames hstrict,hknown fields' pos' hnames' hstrict]
  · have hvalues := h.binds R' hR' hsub field.name (hP s field hfield) strict field.value.elem
    have haccepts : ∀ n ∈ matching (located fields pos 0) field.name,
        Accepts P strict n.1 field.value.elem := by
      intro n hn
      exact hbelow field hfield n.1 (matching_located fields pos 0 field.name ▸
        List.mem_map_of_mem hn)
    have haccepts' : ∀ n ∈ matching (located fields' pos' 0) field.name,
        Accepts P strict n.1 field.value.elem := by
      intro n hn
      exact hbelow' field hfield n.1 (matching_located fields' pos' 0 field.name ▸
        List.mem_map_of_mem hn)
    rw [movingEntries_located,movingEntries_located,matching_map,matching_map,
      List.forall₂_map_left_iff,List.forall₂_map_right_iff]
    exact forall₂_of_mem haccepts haccepts' hvalues

theorem Pruned.paired (hP : Ignores P hidden) (v : FieldValue φ) :
    ∀ v' pos pos', Pruned hidden v v' → ∃ R, Paired P v pos v' pos' R := by
  induction v using FieldValue.induction with
  | leaf raw =>
    rintro _ pos pos' ⟨⟩
    refine ⟨fun p p' => p = pos ∧ p' = pos',?_,?_,fun R' hR' hsub strict e _ _ out name => ?_⟩
    · rintro _ _ _ _ ⟨rfl,rfl⟩ ⟨rfl,rfl⟩
      exact iff_of_true rfl rfl
    · rintro _ _ ⟨rfl,rfl⟩
      exact ⟨List.suffix_rfl,List.suffix_rfl⟩
    · rw [bindMoving,bindMoving]
      cases e with
      | leaf t => exact corresponds_leaf P hR' (hsub _ _ ⟨rfl,rfl⟩) t raw out name
      | struct s => exact corresponds_error R' (fun _ => rfl) fun _ => rfl
  | struct fields ih =>
    intro v' pos pos' hpruned
    cases hpruned with
    | bare _ raw =>
      refine ⟨fun _ _ => False,fun h _ => h.elim,fun _ _ h => h.elim,
        fun R' _ _ strict e hv hv' => ?_⟩
      cases e with
      | leaf t => exact hv.fits.elim
      | struct s => exact hv'.fits.elim
    | @struct _ fields' h =>
      obtain ⟨R,hR⟩ := h.pairedLists pos pos' ih 0 0
      refine ⟨R,hR.oneToOne,fun p p' hp => ?_,fun R' hR' hsub strict e hv hv' out name => ?_⟩
      · obtain ⟨⟨j,-,hj⟩,⟨j',-,hj'⟩⟩ := hR.inside p p' hp
        exact ⟨(List.suffix_cons j pos).trans hj,(List.suffix_cons j' pos').trans hj'⟩
      · rw [bindMoving,bindMoving]
        cases e with
        | leaf t => exact corresponds_error R' (fun _ => rfl) fun _ => rfl
        | struct s =>
          simp only [← bind_pure_comp]
          exact (hR.corresponds hP hR' hsub hv hv' out.fields).bind
            fun values => corresponds_pure R' (Value.struct values)

/-- Lists that one struct type accepts, or does not, give the same when they are handed over. -/
theorem bindFromMoved_pruned (hP : Ignores P hidden) {fields fields' : FieldList φ} {s : σ}
    (h : Without hidden (Pruned hidden) fields fields')
    (haccepts : Accepts P strict (.struct fields) (.struct s) ↔
      Accepts P strict (.struct fields') (.struct s)) (out : List (Value φ)) :
    (bindFromMoved P fields s out strict).toOption =
      (bindFromMoved P fields' s out strict).toOption := by
  by_cases hv : Accepts P strict (.struct fields) (.struct s)
  · obtain ⟨R,hR⟩ := h.pairedLists [] [] (fun f _ => Pruned.paired hP f.value) 0 0
    exact (hR.corresponds hP hR.oneToOne (fun _ _ hp => hp) hv (haccepts.mp hv)
      out).toOption_run_nil
  · rw [toOption_bindFromMoved_none hv,toOption_bindFromMoved_none fun hv' => hv (haccepts.mpr hv')]

/-! ### Types that tell values apart -/

/-- Structs of one field each, down the names; where they end, a string or an empty struct. -/
def trailElem (leaf : Bool) (names : List Text) : Option (List Text) :=
  if names = [] ∧ leaf = true then none else some names

def trailFields (hidden : Text) (leaf : Bool) : List Text → List (Named (Option (List Text)))
  | [] => []
  | name :: names => if iequals hidden name then [] else [⟨name,trailElem leaf names⟩]

theorem ignores_trail (leaf : Bool) :
    Ignores (listProgram φ (trailFields hidden leaf)) hidden := by
  intro names field hfield
  rw [listProgram_fields] at hfield
  obtain ⟨field,hfield,rfl⟩ := List.mem_map.mp hfield
  cases names with
  | nil => cases hfield
  | cons name names =>
    rw [trailFields] at hfield
    split_ifs at hfield with hname
    · cases hfield
    · rw [List.mem_singleton.mp hfield]
      exact Bool.eq_false_iff.mpr hname

theorem accepts_trail {leaf : Bool} {names : List Text}
    (hnames : ∀ name ∈ names, iequals hidden name = false) (vs : List (FieldValue φ)) :
    (∀ v ∈ vs, Accepts (listProgram φ (trailFields hidden leaf)) false v
      (listElem (trailElem leaf names))) ↔
      Along under (fun w => w.isLeaf = false) (fun w => w.isLeaf = leaf) names vs := by
  induction names generalizing vs with
  | nil =>
    refine forall₂_congr fun v _ => ⟨fun h => ?_,fun h => ?_⟩
    · refine h.fits.isLeaf.trans ?_
      cases leaf <;> rfl
    · cases leaf <;> cases v <;> cases h
      · exact accepts_listProgram.mpr ⟨nofun,fun _ hfield => absurd hfield List.not_mem_nil⟩
      · exact accepts_leaf _ _
  | cons name names ih =>
    obtain ⟨hname,hnames⟩ := List.forall_mem_cons.mp hnames
    have hone : ∀ v : FieldValue φ, Accepts (listProgram φ (trailFields hidden leaf)) false v
        (listElem (trailElem leaf (name :: names))) ↔ v.isLeaf = false ∧ ∀ w ∈ under name v,
          Accepts (listProgram φ (trailFields hidden leaf)) false w
            (listElem (trailElem leaf names)) := by
      intro v
      rw [trailElem,if_neg (by simp)]
      cases v with
      | leaf raw => exact iff_of_false (fun h => h.fits) nofun
      | struct fields =>
        refine accepts_listProgram.trans ?_
        simp [trailFields,hname,under,FieldValue.fields,FieldValue.isLeaf]
    simp only [hone,forall_and]
    rw [Along,← ih hnames,List.forall_mem_flatMap]

/-- The type of some values of one shape: strings for leaves, else a struct with a field for
each of their names. -/
def shapeElem (vs : List (FieldValue φ)) : Option (List (FieldValue φ)) :=
  if vs.all FieldValue.isLeaf then none else some vs

def shapeFields (hidden : Text) (vs : List (FieldValue φ)) :
    List (Named (Option (List (FieldValue φ)))) :=
  (((vs.flatMap fun v => v.fields.map Named.name).filter fun name =>
    !iequals hidden name).dedup).map fun name => ⟨name,shapeElem (vs.flatMap (under name))⟩

theorem ignores_shape : Ignores (listProgram φ (shapeFields (φ := φ) hidden)) hidden := by
  intro vs field hfield
  rw [listProgram_fields,shapeFields,List.map_map] at hfield
  obtain ⟨name,hname,rfl⟩ := List.mem_map.mp hfield
  have hplain := (List.mem_filter.mp (List.mem_dedup.mp hname)).2
  rwa [Bool.not_eq_true'] at hplain

theorem reach_shape {names : List Text} {e e' : Elem (List (FieldValue φ)) Empty φ}
    (h : Reach (listProgram φ (shapeFields hidden)) e names e') {vs : List (FieldValue φ)}
    (he : e = listElem (shapeElem vs)) : e' = listElem (shapeElem (layer under names vs)) := by
  induction h generalizing vs with
  | refl e => exact he
  | @field s field names e' hfield _ ih =>
    rw [shapeElem] at he
    split_ifs at he with hleaf
    · cases he
    · cases he
      rw [listProgram_fields,shapeFields,List.map_map] at hfield
      obtain ⟨name,-,rfl⟩ := List.mem_map.mp hfield
      exact ih rfl

/-- Values of one shape have a type of which they are. -/
theorem accepts_shape {v : FieldValue φ} (huniform : Uniform v) (hfree : Free hidden v) :
    Accepts (listProgram φ (shapeFields hidden)) true v (listElem (shapeElem [v])) := by
  intro names e' hreach w hw
  rw [reach_shape hreach rfl,shapeElem]
  split_ifs with hleaf
  · have hwleaf : w.isLeaf = true := List.all_eq_true.mp hleaf w hw
    cases w with
    | leaf raw => trivial
    | struct fields => cases hwleaf
  · have hstruct : ∀ w ∈ layer under names [v], w.isLeaf = false :=
      (huniform names).resolve_left fun h => hleaf (List.all_eq_true.mpr h)
    have hwstruct := hstruct w hw
    cases w with
    | leaf raw => cases hwstruct
    | struct fields =>
      intro _ f hf
      have hplain := hfree names _ hw f hf
      have hmem : f.name ∈ (((layer under names [v]).flatMap fun v => v.fields.map Named.name).filter
          fun name => !iequals hidden name).dedup := by
        refine List.mem_dedup.mpr (List.mem_filter.mpr ⟨?_,by rw [hplain]; rfl⟩)
        exact List.mem_flatMap.mpr ⟨_,hw,List.mem_map_of_mem hf⟩
      exact ⟨_,List.mem_map_of_mem (List.mem_map_of_mem hmem),iequals_refl _⟩

/-! ### Readings -/

/-- Both values give the same when they are bound to any type whose structs have no field named
`hidden`, strictly or not. -/
def SameReadings (hidden : Text) (v v' : FieldValue φ) : Prop :=
  ∀ (σ κ : Type) (P : Program σ κ φ), Ignores P hidden →
    ∀ (e : Elem σ κ φ) isOptional out path strict,
      (bindResolvedNode P (some v) e isOptional out path strict).toOption =
        (bindResolvedNode P (some v') e isOptional out path strict).toOption

theorem bindResolvedNode_pruned (hP : Ignores P hidden) {v v' : FieldValue φ}
    (h : Pruned hidden v v') (hleaf : v.isLeaf = v'.isLeaf) {e : Elem σ κ φ}
    (haccepts : Accepts P strict v e ↔ Accepts P strict v' e) (isOptional : Bool) (out : Value φ)
    (path : Text) : (bindResolvedNode P (some v) e isOptional out path strict).toOption =
      (bindResolvedNode P (some v') e isOptional out path strict).toOption := by
  cases h with
  | leaf raw => rfl
  | bare fields raw => cases hleaf
  | struct h =>
    cases e with
    | leaf t => rfl
    | struct s =>
      simp only [bindResolvedNode,toOption_bind]
      rw [bindFromMoved_pruned hP h haccepts]

theorem sameReadings_iff {v v' : FieldValue φ} (h : Pruned hidden v v') :
    SameReadings hidden v v' ↔
      SameShapes hidden v v' ∧ (Uniform v' → Free hidden v' → Free hidden v) := by
  constructor
  · intro hsame
    have haccepts : ∀ {σ : Type} (fieldsOf : σ → List (Named (Option σ))),
        Ignores (listProgram φ fieldsOf) hidden → ∀ strict t,
        (Accepts (listProgram φ fieldsOf) strict v (listElem t) ↔
          Accepts (listProgram φ fieldsOf) strict v' (listElem t)) := by
      intro σ fieldsOf hP strict t
      rw [← bindResolvedNode_listProgram (.vector []) [],hsame σ Empty _ hP,
        bindResolvedNode_listProgram]
    constructor
    · intro names hnames leaf
      have htrail := haccepts (trailFields hidden leaf) (ignores_trail leaf) false
        (trailElem leaf names)
      rwa [← accepts_trail hnames,← accepts_trail hnames,List.forall_mem_singleton,
        List.forall_mem_singleton]
    · intro huniform hfree names
      have hv := (haccepts (shapeFields hidden) ignores_shape true _).mpr
        (accepts_shape huniform hfree)
      exact (accepts_uniform ignores_shape names (List.forall_mem_singleton.mpr hv)).2
  · rintro ⟨hshapes,hstrict⟩ σ κ P hP e isOptional out path strict
    refine bindResolvedNode_pruned hP h hshapes.isLeaf ⟨fun hv => ?_,fun hv' => ?_⟩ isOptional out
      path
    · exact hv.pruned hP h (hshapes.accepts hP hv.lenient)
    · have hv := hshapes.symm.accepts hP hv'.lenient
      cases strict with
      | false => exact hv
      | true =>
        have huniform := fun names => accepts_uniform hP names (List.forall_mem_singleton.mpr hv')
        exact hv'.of_pruned hP h
          (hstrict (fun names => (huniform names).1) fun names => (huniform names).2) hv

end Binding
end Marketlib
