import Marketlib.BatchCells

/-! The batches of the two clients side by side. Over the same rows they hold the same values, up
to a `FixedString` whose column is `NULL`: the one client leaves in it what it held, the other
clears it. -/

namespace Marketlib
namespace SelectRows

open Binding CellWrites

variable {ω α Λ : Type}

/-! ### Before the first fetch -/

section Initial

variable {c : Client} {T : RowType} {r : ℕ} {i : Fin T.arity}

theorem assign_apply {first : Address} {stride n : ℕ} (hr : r < n) (cell : Cell α Λ)
    (m : Memory α Λ) : assign first stride n cell m (first.skip (r*stride)) = cell := by
  have hmem : (first.skip (r*stride),fun _ => cell) ∈ (List.range n).map fun r =>
      (first.skip (r*stride),fun _ : Cell α Λ => cell) :=
    List.mem_map.mpr ⟨r,List.mem_range.mpr hr,rfl⟩
  refine applyWrites_of_mem (P := (· = cell)) hmem (fun w hw _ _ => ?_) m
  obtain ⟨s,-,rfl⟩ := List.mem_map.mp hw
  rfl

theorem assign_other {first a : Address} {stride n : ℕ} (h : a.region ≠ first.region)
    (cell : Cell α Λ) (m : Memory α Λ) : assign first stride n cell m a = m a := by
  refine applyWrites_of_not_mem (fun w hw heq => h ?_) m
  obtain ⟨s,-,rfl⟩ := List.mem_map.mp hw
  rw [← heq]
  rfl

/-- The vectors beside the batch that are a field's. -/
def besides (T : RowType) (i : Fin T.arity) : Set Address :=
  {a | a.region = .staging i ∨ a.region = .indicators i}

theorem besides_disjoint {i j : Fin T.arity} (h : i ≠ j) :
    Disjoint (besides T i) (besides T j) := by
  refine Set.disjoint_left.mpr fun a hi hj => h (Fin.ext ?_)
  rcases hi with hi | hi <;> rcases hj with hj | hj <;> rw [hi] at hj <;> injection hj

theorem data_besides (h : (T.kind i).staged = true) : c.dataCell T r i ∈ besides T i :=
  .inl (dataCell_staged h)

theorem withIndicators_other {a : Address} {batchSize : ℕ} (h : a.region ≠ .indicators i)
    (m : Memory α Λ) : c.withIndicators T batchSize m i a = m a := by
  unfold Client.withIndicators
  split_ifs
  · exact assign_other h _ m
  · rfl

theorem withIndicators_congr {a : Address} {m m' : Memory α Λ} (batchSize : ℕ) (h : m a = m' a) :
    c.withIndicators T batchSize m i a = c.withIndicators T batchSize m' i a := by
  unfold Client.withIndicators
  split_ifs
  · exact applyWrites_congr h _
  · exact h

theorem local_assigned (batchSize : ℕ) (zero : α) : Local (besides T)
    fun i (m : Memory α Λ) => c.assigned T batchSize zero m i where
  frame i m a ha := by
    have hind : c.withIndicators T batchSize m i a = m a :=
      withIndicators_other (fun h => ha (.inr h)) m
    have hstage : (T.kind i).staged = true → a.region ≠ (c.dataCell T 0 i).region := by
      intro h
      rw [dataCell_staged h]
      exact fun h => ha (.inl h)
    unfold Client.assigned
    cases hk : T.kind i with
    | plain width => exact hind
    | fixedString capacity => exact hind
    | _ => exact (assign_other (hstage (by rw [hk]; rfl)) _ _).trans hind
  congr i m m' a h ha := by
    have hind := withIndicators_congr (c := c) (i := i) batchSize (h ha)
    unfold Client.assigned
    cases T.kind i with
    | plain width => exact hind
    | fixedString capacity => exact hind
    | _ => exact applyWrites_congr hind _

/-- The memory when the columns have been defined. -/
def Client.defined (c : Client) (T : RowType) (batchSize : ℕ) (zero : α) (m : Memory α Λ) :
    Memory α Λ :=
  (List.finRange T.arity).foldl (c.assigned T batchSize zero) (newBatch T batchSize zero m)

variable {batchSize : ℕ} {zero : α} {m : Memory α Λ}

theorem defined_batch {a : Address} (h : a.region = .batch) :
    c.defined T batchSize zero m a = newBatch T batchSize zero m a := by
  refine (local_assigned batchSize zero).foldl_of_not_mem (fun i _ hmem => ?_) _
  rcases hmem with hmem | hmem <;> rw [h] at hmem <;> cases hmem

theorem defined_besides {a : Address} (h : a ∈ besides T i) :
    c.defined T batchSize zero m a =
      c.assigned T batchSize zero (newBatch T batchSize zero m) i a :=
  (local_assigned batchSize zero).foldl_of_mem
    ((List.nodup_finRange T.arity).imp besides_disjoint) (List.mem_finRange i) h _

theorem defined_indicator (hr : r < batchSize) (h : c.indicated (T.kind i) = true) :
    c.defined T batchSize zero m (indicatorAddress T r i) = .indicator indNotNull := by
  rw [defined_besides (i := i) (.inr rfl)]
  have hfirst : c.withIndicators T batchSize (newBatch T batchSize zero m) i
      (indicatorAddress T r i) = .indicator indNotNull := by
    rw [Client.withIndicators,if_pos h]
    exact assign_apply hr _ _
  have hother : (T.kind i).staged = true →
      (indicatorAddress T r i).region ≠ (c.dataCell T 0 i).region := by
    intro hstaged
    rw [dataCell_staged hstaged]
    exact fun h => by cases h
  unfold Client.assigned
  cases hk : T.kind i with
  | plain width => exact hfirst
  | fixedString capacity => exact hfirst
  | _ => exact (assign_other (hother (by rw [hk]; rfl)) _ _).trans hfirst

/-- What a staged element is at first. -/
def initialElement (zero : α) : Kind → Cell α Λ
  | .optional _ _ => .scalar zero
  | _ => .locator none

theorem defined_data (hr : r < batchSize) (h : (T.kind i).staged = true) :
    c.defined T batchSize zero m (c.dataCell T r i) = initialElement zero (T.kind i) := by
  rw [defined_besides (data_besides h),← dataCell_zero_skip]
  unfold Client.assigned
  cases hk : T.kind i with
  | plain width => rw [hk] at h; cases h
  | fixedString capacity => rw [hk] at h; cases h
  | _ => exact assign_apply hr _ _

theorem local_newField (zero : α) : Local (Client.new.cells T)
    fun x : ℕ × Fin T.arity => applyWrites (newField (Λ := Λ) T zero x.1 x.2) := by
  refine .ofWrites fun x w hw => ?_
  unfold newField at hw
  cases hk : T.kind x.2 with
  | fixedString capacity =>
    rw [hk] at hw
    simp only [List.mem_cons,List.not_mem_nil,or_false] at hw
    rcases hw with rfl | rfl
    · exact field_mem_cells
    · refine length_mem_cells ?_
      rw [lengthCell,hk]
      rfl
  | _ =>
    rw [hk] at hw
    cases List.mem_singleton.mp hw
    exact field_mem_cells

theorem newBatch_apply (hr : r < batchSize) {a : Address} (h : a ∈ Client.new.cells T (r,i)) :
    newBatch T batchSize zero m a = applyWrites (newField T zero r i) m a := by
  have hfold : newBatch T batchSize zero m = (List.range batchSize ×ˢ List.finRange T.arity).foldl
      (fun m x => applyWrites (newField T zero x.1 x.2) m) m := by
    rw [newBatch,← applyWrites_flatMap]
    simp only [SProd.sprod,List.product,List.flatMap_assoc,List.flatMap_map]
  rw [hfold]
  refine (local_newField zero).foldl_of_mem (x := (r,i)) ?_ ?_ h m
  · exact ((List.nodup_range (n := batchSize)).product (List.nodup_finRange T.arity)).imp
      cells_disjoint
  · exact List.mem_product.mpr ⟨List.mem_range.mpr hr,List.mem_finRange i⟩

/-- A new field does not depend on what was there. -/
theorem newBatch_field (hr : r < batchSize) (m m' : Memory α Λ) :
    newBatch T batchSize zero m (fieldAddress T r i) =
      newBatch T batchSize zero m' (fieldAddress T r i) := by
  rw [newBatch_apply hr field_mem_cells,newBatch_apply hr field_mem_cells]
  unfold newField
  cases hk : T.kind i with
  | fixedString capacity =>
    have hmem : (fieldAddress T r i).skip (lengthOffset capacity) ∈ lengthCell T r i := by
      rw [lengthCell,hk]
      rfl
    simp only [applyWrites,List.foldl_cons,List.foldl_nil,applyWrite,Function.update_self,
      Function.update_of_ne (length_ne_field hmem).symm]
  | _ => simp only [applyWrites,List.foldl_cons,List.foldl_nil,applyWrite,Function.update_self]

theorem readField_newBatch (hr : r < batchSize) {capacity : ℕ}
    (hk : T.kind i = .fixedString capacity) :
    readField T (newBatch T batchSize zero m) r i = some (.fixedString []) := by
  have hmem : (fieldAddress T r i).skip (lengthOffset capacity) ∈ lengthCell T r i := by
    rw [lengthCell,hk]
    rfl
  have hne := length_ne_field hmem
  rw [readField_fixedString hk,newBatch_apply hr field_mem_cells,
    newBatch_apply hr (length_mem_cells hmem)]
  unfold newField
  simp only [hk,applyWrites,List.foldl_cons,List.foldl_nil,applyWrite,Function.update_self,
    Function.update_of_ne hne.symm,Cell.toChars,Cell.toLength,Option.bind_some,Option.map_some]
  rfl

end Initial

/-! ### One field in both batches -/

/-- `is_fixed_string_v`. -/
def Kind.isFixedString : Kind → Bool
  | fixedString _ => true
  | _ => false

/-- The text that is held when a column has been fetched. -/
def textAfter (held : Text) : Option (Datum α Λ) → Text
  | some (.text s _) => s
  | _ => held

section Field

variable (T : RowType) (r : ℕ) (i : Fin T.arity)

/-- A field of both batches, with the text it holds where it is a `FixedString`. -/
structure SameField (held : Text) (m m' : Memory α Λ) : Prop where
  data : (T.kind i).isFixedString = false →
    m (Client.binding.dataCell T r i) = m' (Client.new.dataCell T r i)
  field : (T.kind i).isFixedString = false → m (fieldAddress T r i) = m' (fieldAddress T r i)
  indicator : (T.kind i).staged = true → m (indicatorAddress T r i) = m' (indicatorAddress T r i)
  ofBinding : (T.kind i).isFixedString = true →
    readField T m r i = some (.fixedString (held.take (T.kind i).room.toNat))
  ofNew : (T.kind i).isFixedString = true →
    readField T m' r i = some (.fixedString (held.take (T.kind i).room.toNat))

variable {T r i} {held : Text} {m m' m₁ m₂ : Memory α Λ} {oci : Oci ω α Λ}

theorem SameField.congr (h : SameField T r i held m m')
    (hbinding : Set.EqOn m₁ m (Client.binding.cells T (r,i)))
    (hnew : Set.EqOn m₂ m' (Client.new.cells T (r,i))) : SameField T r i held m₁ m₂ where
  data hk := by rw [hbinding data_mem_cells,hnew data_mem_cells,h.data hk]
  field hk := by rw [hbinding field_mem_cells,hnew field_mem_cells,h.field hk]
  indicator hk := by rw [hbinding indicator_mem_cells,hnew indicator_mem_cells,h.indicator hk]
  ofBinding hk := (readField_congr hbinding).trans (h.ofBinding hk)
  ofNew hk := (readField_congr hnew).trans (h.ofNew hk)

theorem SameField.ofCells (hk : (T.kind i).isFixedString = false)
    (data : m (Client.binding.dataCell T r i) = m' (Client.new.dataCell T r i))
    (field : m (fieldAddress T r i) = m' (fieldAddress T r i))
    (indicator : (T.kind i).staged = true →
      m (indicatorAddress T r i) = m' (indicatorAddress T r i)) : SameField T r i held m m' where
  data _ := data
  field _ := field
  indicator := indicator
  ofBinding h := absurd (hk.symm.trans h) Bool.false_ne_true
  ofNew h := absurd (hk.symm.trans h) Bool.false_ne_true

theorem SameField.ofTexts {capacity : ℕ} (hk : T.kind i = .fixedString capacity)
    (ofBinding : SelectRows.readField T m r i =
      some (.fixedString (held.take (T.kind i).room.toNat)))
    (ofNew : SelectRows.readField T m' r i =
      some (.fixedString (held.take (T.kind i).room.toNat))) : SameField T r i held m m' where
  data h := by rw [hk] at h; cases h
  field h := by rw [hk] at h; cases h
  indicator h := by rw [hk] at h; cases h
  ofBinding _ := ofBinding
  ofNew _ := ofNew

theorem staged_not_fixedString (h : (T.kind i).staged = true) :
    (T.kind i).isFixedString = false := by
  cases hk : T.kind i with
  | fixedString capacity => rw [hk] at h; cases h
  | _ => rfl

/-- Both batches read alike. -/
theorem SameField.readField (h : SameField T r i held m m') :
    readField T m r i = readField T m' r i := by
  cases hk : (T.kind i).isFixedString with
  | true => rw [h.ofBinding hk,h.ofNew hk]
  | false =>
    have hfield := h.field hk
    unfold SelectRows.readField
    rw [hfield]
    cases hkind : T.kind i with
    | fixedString capacity => rw [hkind] at hk; cases hk
    | _ => rfl

section Apply

variable {c : Client}

/-- Applying a staged column changes the field alone. -/
theorem applyOneColumn_besides (h : (T.kind i).staged = true) (m : Memory α Λ) :
    c.applyOneColumn oci T r m i (c.dataCell T r i) = m (c.dataCell T r i) ∧
      c.applyOneColumn oci T r m i (indicatorAddress T r i) = m (indicatorAddress T r i) := by
  have hindicator : indicatorAddress T r i ≠ fieldAddress T r i := by
    intro heq
    cases congrArg Address.region heq
  rw [applyOneColumn_staged h,write_apply,write_apply,if_neg (field_ne_data h).symm,
    if_neg hindicator]
  exact ⟨rfl,rfl⟩

theorem indicated_of_staged (h : (T.kind i).staged = true) : c.indicated (T.kind i) = true := by
  cases hk : T.kind i with
  | plain width => rw [hk] at h; cases h
  | fixedString capacity => rw [hk] at h; cases h
  | _ => cases c <;> rfl

end Apply

/-- A field for which a column was fetched. -/
theorem SameField.receive (h : SameField T r i held m m') {v : Option (Datum α Λ)}
    (hv : (T.kind i).isFixedString = true → v = none ∨ ∃ s short, v = some (.text s short))
    (hnull : (T.kind i).isFixedString = true → v = none → held = []) :
    SameField T r i (textAfter held v) (Client.binding.receive oci T r i v m)
      (Client.new.receive oci T r i v m') := by
  cases hk : T.kind i with
  | plain width =>
    have hfixed : (T.kind i).isFixedString = false := by rw [hk]; rfl
    have hfield := h.field hfixed
    have hreceived : Client.binding.receive oci T r i v m (fieldAddress T r i) =
        Client.new.receive oci T r i v m' (fieldAddress T r i) := by
      rw [receive_plain hk,receive_plain hk,hfield]
    have hdata : ∀ c : Client, c.dataCell T r i = fieldAddress T r i :=
      fun c => dataCell_field (by rw [hk]; rfl)
    refine .ofCells hfixed ?_ hreceived fun h => ?_
    · rw [hdata,hdata,hreceived]
    · rw [hk] at h
      cases h
  | fixedString capacity =>
    have hfixed : (T.kind i).isFixedString = true := by rw [hk]; rfl
    rcases hv hfixed with rfl | ⟨s,short,rfl⟩
    · refine .ofTexts hk ?_ ?_
      · rw [receive_null_kept hk (by rw [hk]; rfl)]
        exact h.ofBinding hfixed
      · rw [receive_null_cleared hk (by rw [hk]; rfl),hnull hfixed rfl]
        simp [textAfter]
    · exact .ofTexts hk (receive_text hk s short m) (receive_text hk s short m')
  | _ =>
    have hstaged : (T.kind i).staged = true := by rw [hk]; rfl
    have hfixed := staged_not_fixedString hstaged
    have hdata := h.data hfixed
    refine .ofCells hfixed ?_ ?_ fun _ => ?_
    · rw [Client.receive,Client.receive,(applyOneColumn_besides hstaged _).1,
        (applyOneColumn_besides hstaged _).1,ownWrites_data,ownWrites_data,hdata]
    · rw [receive_staged hstaged,receive_staged hstaged,hdata]
    · rw [Client.receive,Client.receive,(applyOneColumn_besides hstaged _).2,
        (applyOneColumn_besides hstaged _).2,ownWrites_indicator _ (indicated_of_staged hstaged),
        ownWrites_indicator _ (indicated_of_staged hstaged)]

/-- A field for which none was: it is applied to what it was at the last fetch. -/
theorem SameField.apply (h : SameField T r i held m m')
    (hnull : (T.kind i).isFixedString = true → isNull T m' r i = false) :
    SameField T r i held (Client.binding.applyOneColumn oci T r m i)
      (Client.new.applyOneColumn oci T r m' i) := by
  cases hk : T.kind i with
  | plain width =>
    rw [applyOneColumn_plain hk,applyOneColumn_plain hk]
    exact h
  | fixedString capacity =>
    have hfixed : (T.kind i).isFixedString = true := by rw [hk]; rfl
    have hbinding : Client.binding.applyOneColumn oci T r m i = m := by
      rw [applyOneColumn_fixedString hk,hk]
      exact if_neg fun h => by cases h.1
    have hnew : Client.new.applyOneColumn oci T r m' i = m' := by
      rw [applyOneColumn_fixedString hk]
      exact if_neg fun h => by rw [hnull hfixed] at h; cases h.2
    rw [hbinding,hnew]
    exact h
  | _ =>
    have hstaged : (T.kind i).staged = true := by rw [hk]; rfl
    have hfixed := staged_not_fixedString hstaged
    have hisNull : isNull T m r i = isNull T m' r i := by
      rw [isNull,isNull,h.indicator hstaged]
    refine .ofCells hfixed ?_ ?_ fun _ => ?_
    · rw [(applyOneColumn_besides hstaged _).1,(applyOneColumn_besides hstaged _).1,h.data hfixed]
    · rw [applyOneColumn_staged hstaged,applyOneColumn_staged hstaged,write_apply,write_apply,
        if_pos rfl,if_pos rfl,hisNull,h.data hfixed]
    · rw [(applyOneColumn_besides hstaged _).2,(applyOneColumn_besides hstaged _).2,
        h.indicator hstaged]

end Field

/-! ### From fetch to fetch -/

section Step

variable {T : RowType} (position : Fin T.arity → ℕ) (fields : List (Fin T.arity))

/-- The text that each field of the batch holds after a fetch. -/
def textsAfter (rows : List (Row α Λ)) (held : ℕ → Fin T.arity → Text) (r : ℕ)
    (i : Fin T.arity) : Text :=
  if i ∈ fields then rows[r]?.elim (held r i) fun row => textAfter (held r i) (row (position i))
  else held r i

/-- No `NULL` is fetched into a `FixedString` that holds a text. -/
def NullsEmpty (rows : List (Row α Λ)) (held : ℕ → Fin T.arity → Text) : Prop :=
  ∀ r row, rows[r]? = some row → ∀ i ∈ fields, (T.kind i).isFixedString = true →
    row (position i) = none → held r i = []

/-- A text column is delivered as text. -/
def DeliversText (rows : List (Row α Λ)) : Prop :=
  ∀ row ∈ rows, ∀ i ∈ fields, (T.kind i).isFixedString = true →
    row (position i) = none ∨ ∃ s short, row (position i) = some (.text s short)

/-- The batches agree. What was never defined was never `NULL`. -/
structure SameBatch (batchSize : ℕ) (held : ℕ → Fin T.arity → Text) (m m' : Memory α Λ) :
    Prop where
  same (r : ℕ) (i : Fin T.arity) : r < batchSize → SameField T r i (held r i) m m'
  notNull (r : ℕ) (i : Fin T.arity) : r < batchSize → (T.kind i).isFixedString = true →
    i ∉ fields → isNull T m' r i = false

variable {position fields} {batchSize : ℕ} {held : ℕ → Fin T.arity → Text} {m m' : Memory α Λ}
variable {oci : Oci ω α Λ} {rows : List (Row α Λ)}

theorem isNull_applyOneColumn {c : Client} {r : ℕ} {i : Fin T.arity}
    (hk : (T.kind i).isFixedString = true) (h : isNull T m r i = false) :
    isNull T (c.applyOneColumn oci T r m i) r i = false := by
  cases hkind : T.kind i with
  | fixedString capacity =>
    rw [applyOneColumn_fixedString hkind,if_neg]
    · exact h
    · rintro ⟨-,hnull⟩
      rw [h] at hnull
      cases hnull
  | _ => rw [hkind] at hk; cases hk

/-- The batches go on agreeing while no text is kept for a `NULL`. -/
theorem SameBatch.delivered (h : SameBatch fields batchSize held m m') (hsize : T.size < 2^31)
    (hfields : fields.Nodup) (htext : DeliversText position fields rows)
    (hnulls : NullsEmpty position fields rows held) :
    SameBatch fields batchSize (textsAfter position fields rows held)
      (Client.binding.delivered oci T position fields rows m)
      (Client.new.delivered oci T position fields rows m') where
  same r i hr := by
    have hsame := h.same r i hr
    cases hrow : rows[r]? with
    | none =>
      have hbeyond := List.getElem?_eq_none_iff.mp hrow
      have hheld : textsAfter position fields rows held r i = held r i := by
        rw [textsAfter,hrow]
        split_ifs <;> rfl
      rw [hheld]
      exact hsame.congr (delivered_eqOn_beyond hsize hbeyond m)
        (delivered_eqOn_beyond hsize hbeyond m')
    | some row =>
      by_cases hi : i ∈ fields
      · have hheld : textsAfter position fields rows held r i =
            textAfter (held r i) (row (position i)) := by
          rw [textsAfter,if_pos hi,hrow]
          rfl
        rw [hheld]
        exact (hsame.receive (htext row (List.mem_of_getElem? hrow) i hi)
          (hnulls r row hrow i hi)).congr (delivered_eqOn hsize hfields hrow hi m)
            (delivered_eqOn hsize hfields hrow hi m')
      · have hheld : textsAfter position fields rows held r i = held r i := if_neg hi
        have hlt := (List.getElem?_eq_some_iff.mp hrow).1
        rw [hheld]
        exact (hsame.apply fun hk => h.notNull r i hr hk hi).congr
          (delivered_eqOn_undefined hsize hlt hi m) (delivered_eqOn_undefined hsize hlt hi m')
  notNull r i hr hk hi := by
    have hnull := h.notNull r i hr hk hi
    rcases Nat.lt_or_ge r rows.length with hlt | hge
    · rw [isNull_congr (delivered_eqOn_undefined hsize hlt hi m')]
      exact isNull_applyOneColumn hk hnull
    · rw [isNull_congr (delivered_eqOn_beyond hsize hge m')]
      exact hnull

theorem room_pos (hsize : T.size < 2^31) {i : Fin T.arity}
    (hk : (T.kind i).isFixedString = true) : 0 < (T.kind i).room.toNat := by
  have hsized := T.sized i
  have hle := width_le_size T i
  cases hkind : T.kind i with
  | fixedString capacity =>
    rw [hkind] at hsized hle
    have hpos : 0 < capacity := hsized
    simp only [Kind.width,lengthOffset] at hle
    rw [Kind.room,toSb4_natCast (by omega)]
    omega
  | _ => rw [hkind] at hk; cases hk

/-- What a field reads as when a text is kept for a `NULL`. -/
theorem SameBatch.null_kept (h : SameBatch fields batchSize held m m') (hsize : T.size < 2^31)
    (hfields : fields.Nodup) {r : ℕ} {row : Row α Λ} (hr : r < batchSize)
    (hrow : rows[r]? = some row) {i : Fin T.arity} (hi : i ∈ fields)
    (hk : (T.kind i).isFixedString = true) (hnull : row (position i) = none)
    (hheld : held r i ≠ []) :
    readField T (Client.binding.delivered oci T position fields rows m) r i ≠
      readField T (Client.new.delivered oci T position fields rows m') r i := by
  rw [readField_congr (delivered_eqOn hsize hfields hrow hi m),
    readField_congr (delivered_eqOn hsize hfields hrow hi m'),hnull]
  have hbinding := (h.same r i hr).ofBinding hk
  cases hkind : T.kind i with
  | fixedString capacity =>
    have hkept : Client.binding.receive oci T r i none m = m :=
      receive_null_kept hkind (by rw [hkind]; rfl) m
    have hcleared : readField T (Client.new.receive oci T r i none m') r i =
        some (.fixedString []) := receive_null_cleared hkind (by rw [hkind]; rfl) m'
    rw [Client.receive] at hkept hcleared
    rw [hkept,hbinding,hcleared]
    intro heq
    injection heq with heq
    injection heq with heq
    rcases List.take_eq_nil_iff.mp heq with hroom | hempty
    · exact (room_pos hsize hk).ne' hroom
    · exact hheld hempty
  | _ => rw [hkind] at hk; cases hk

variable (oci) in
/-- The rows of a fetch read alike if and only if no text is kept for a `NULL`. -/
theorem SameBatch.reads_iff (h : SameBatch fields batchSize held m m') (hsize : T.size < 2^31)
    (hfields : fields.Nodup) (htext : DeliversText position fields rows)
    (hrows : rows.length ≤ batchSize) :
    (∀ r < rows.length, ∀ i,
        readField T (Client.binding.delivered oci T position fields rows m) r i =
          readField T (Client.new.delivered oci T position fields rows m') r i) ↔
      NullsEmpty position fields rows held := by
  constructor
  · intro hreads r row hrow i hi hk hnull
    by_contra hheld
    have hlt := (List.getElem?_eq_some_iff.mp hrow).1
    exact h.null_kept hsize hfields (hlt.trans_le hrows) hrow hi hk hnull hheld (hreads r hlt i)
  · intro hnulls r hr i
    have hnext : SameBatch fields batchSize _
        (Client.binding.delivered oci T position fields rows m)
        (Client.new.delivered oci T position fields rows m') :=
      h.delivered hsize hfields htext hnulls
    exact (hnext.same r i (hr.trans_le hrows)).readField

/-- The batches as the loops find them. -/
theorem sameBatch_defined (zero : α) (m m' : Memory α Λ) :
    SameBatch fields batchSize (fun _ _ => []) (Client.binding.defined T batchSize zero m)
      (Client.new.defined T batchSize zero m') where
  same r i hr := by
    have hfield : Client.binding.defined T batchSize zero m (fieldAddress T r i) =
        Client.new.defined T batchSize zero m' (fieldAddress T r i) := by
      rw [defined_batch rfl,defined_batch rfl,newBatch_field hr m m']
    cases hk : T.kind i with
    | plain width =>
      have hdata : ∀ c : Client, c.dataCell T r i = fieldAddress T r i :=
        fun c => dataCell_field (by rw [hk]; rfl)
      refine .ofCells (by rw [hk]; rfl) ?_ hfield fun h => ?_
      · rw [hdata,hdata,hfield]
      · rw [hk] at h
        cases h
    | fixedString capacity =>
      have hread : ∀ (c : Client) (m : Memory α Λ),
          readField T (c.defined T batchSize zero m) r i = some (.fixedString []) := by
        intro c m
        rw [← readField_newBatch (m := m) hr hk,readField_fixedString hk,readField_fixedString hk,
          defined_batch rfl,defined_batch rfl]
      refine .ofTexts hk ?_ ?_
      · rw [hread,List.take_nil]
      · rw [hread,List.take_nil]
    | _ =>
      have hstaged : (T.kind i).staged = true := by rw [hk]; rfl
      refine .ofCells (staged_not_fixedString hstaged) ?_ hfield fun _ => ?_
      · rw [defined_data hr hstaged,defined_data hr hstaged]
      · rw [defined_indicator hr (indicated_of_staged hstaged),
          defined_indicator hr (indicated_of_staged hstaged)]
  notNull r i hr hk _ := by
    have hindicated : Client.new.indicated (T.kind i) = true := by
      cases hkind : T.kind i with
      | fixedString capacity => rfl
      | _ => rw [hkind] at hk; cases hk
    rw [isNull,defined_indicator hr hindicated]
    rfl

end Step

end SelectRows
end Marketlib
