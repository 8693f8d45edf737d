import Mathlib.Data.List.Nodup
import Mathlib.Data.List.ProdSigma
import Mathlib.Data.List.Sigma
import Marketlib.BindingColumns

/-! The cells of a batch in either client: each field of each row has its own, and what a fetch
writes for a row, and what is done to the row after it, is on them. -/

namespace Marketlib
namespace SelectRows

open Binding CellWrites

variable {ω α Λ : Type}

/-! ### What a fetch writes -/

/-- A write of a length or an indicator, where one is asked for. -/
def sideWrite (a : Option Address) (c : Cell α Λ) : List (Address × (Cell α Λ → Cell α Λ)) :=
  a.toList.map fun a => (a,fun _ => c)

/-- What a fetch writes for one column of a row. -/
def columnWrites (d : Define) (r : ℕ) :
    Option (Datum α Λ) → List (Address × (Cell α Λ → Cell α Λ))
  | some x => (d.data.skip (r*d.pvskip),x.store d.len) ::
    (sideWrite (d.outsize.map fun a => a.skip (r*d.rlskip)) (.length (x.length d.len)) ++
      sideWrite (d.indicator.map fun a => a.skip (r*d.indskip)) (.indicator indNotNull))
  | none => sideWrite (d.indicator.map fun a => a.skip (r*d.indskip)) (.indicator indNull)

/-- What a fetch writes for the rows it delivers. -/
def rowWrites (defines : List Define) (rows : List (Row α Λ)) :
    List (Address × (Cell α Λ → Cell α Λ)) :=
  rows.zipIdx.flatMap fun (row,r) => defines.flatMap fun d => columnWrites d r (row d.position)

/-! ### Cells -/

/-- Whose `select_rows` it is. -/
inductive Client
  /-- `ideas/binding`. -/
  | binding
  /-- `ideas/new`. -/
  | new

section Cells

variable (c : Client) (T : RowType)

/-- A byte of a field in one row of the batch belongs to no other field and no other row. -/
theorem byte_unique {i j : Fin T.arity} {r s c d : ℕ} (hc : c < (T.kind i).width)
    (hd : d < (T.kind j).width)
    (h : (fieldAddress T r i).skip c = (fieldAddress T s j).skip d) : r = s ∧ i = j := by
  have hi := T.inside i
  have hj := T.inside j
  have heq : T.offset i+r*T.size+c = T.offset j+s*T.size+d := congrArg Address.offset h
  have hrow : ∀ a b : ℕ, a < T.size → (a+b*T.size)/T.size = b := by
    intro a b ha
    rw [Nat.add_mul_div_right _ _ (by omega),Nat.div_eq_of_lt ha,Nat.zero_add]
  have hrs : r = s := by
    rw [← hrow (T.offset i+c) r (by omega),← hrow (T.offset j+d) s (by omega)]
    congr 1
    omega
  subst hrs
  refine ⟨rfl,by_contra fun hij => ?_⟩
  have := T.apart i j hij
  omega

theorem width_pos (i : Fin T.arity) : 0 < (T.kind i).width := by
  have h := T.sized i
  cases hk : T.kind i with
  | plain width => rw [hk] at h; exact h
  | optional elemSize width => rw [hk] at h; exact h.1.trans_le h.2
  | fixedString capacity => exact Nat.succ_pos _
  | lob isClob width => rw [hk] at h; exact h

theorem width_le_size (i : Fin T.arity) : (T.kind i).width ≤ T.size :=
  (Nat.le_add_left _ _).trans (T.inside i)

theorem indicator_unique {i j : Fin T.arity} {r s : ℕ}
    (h : indicatorAddress T r i = indicatorAddress T s j) : r = s ∧ i = j := by
  have hregion := congrArg Address.region h
  have hoffset : 0+r*sizeofSb2 = 0+s*sizeofSb2 := congrArg Address.offset h
  injection hregion with hij
  rw [sizeofSb2] at hoffset
  exact ⟨by omega,Fin.ext hij⟩

/-- The bytes from the value of one row to that of the next. -/
def Client.stride (i : Fin T.arity) : ℕ :=
  match T.kind i with
  | .plain _ | .fixedString _ => T.size
  | .optional elemSize _ => elemSize
  | .lob _ _ =>
    match c with
    | binding => sizeofPointer
    | new => sizeofOCILob

/-- Where the value of a column is written. -/
def Client.dataCell (r : ℕ) (i : Fin T.arity) : Address :=
  match T.kind i with
  | .plain _ | .fixedString _ => fieldAddress T r i
  | .optional elemSize _ => stageAddress T elemSize r i
  | .lob _ _ =>
    match c with
    | binding => Raw.locatorAddress T r i
    | new => locatorAddress T r i

/-- Where its length is written. -/
def lengthCell (r : ℕ) (i : Fin T.arity) : Option Address :=
  match T.kind i with
  | .fixedString capacity => some ((fieldAddress T r i).skip (lengthOffset capacity))
  | _ => none

/-- A field whose `define_slot_t` holds staged elements. -/
def Kind.staged : Kind → Bool
  | optional _ _ | lob _ _ => true
  | _ => false

variable {c T} {i j : Fin T.arity} {r s : ℕ}

theorem dataCell_staged (h : (T.kind i).staged = true) :
    (c.dataCell T r i).region = .staging i := by
  unfold Client.dataCell
  cases hk : T.kind i with
  | plain width => rw [hk] at h; cases h
  | fixedString capacity => rw [hk] at h; cases h
  | optional elemSize width => rfl
  | lob isClob width => cases c <;> rfl

theorem dataCell_field (h : (T.kind i).staged = false) : c.dataCell T r i = fieldAddress T r i := by
  unfold Client.dataCell
  cases hk : T.kind i with
  | optional elemSize width => rw [hk] at h; cases h
  | lob isClob width => rw [hk] at h; cases h
  | _ => rfl

theorem staged_unique (h : (T.kind i).staged = true) (h' : (T.kind j).staged = true)
    (heq : c.dataCell T r i = c.dataCell T s j) : r = s ∧ i = j := by
  have hregion := congrArg Address.region heq
  rw [dataCell_staged h,dataCell_staged h'] at hregion
  injection hregion with hij
  obtain rfl := Fin.ext hij
  refine ⟨?_,rfl⟩
  have hsized := T.sized i
  unfold Client.dataCell at heq
  cases hk : T.kind i with
  | plain width => rw [hk] at h; cases h
  | fixedString capacity => rw [hk] at h; cases h
  | optional elemSize width =>
    simp only [hk] at heq hsized
    have hoffset : 0+r*elemSize = 0+s*elemSize := congrArg Address.offset heq
    rw [Nat.zero_add,Nat.zero_add] at hoffset
    exact Nat.eq_of_mul_eq_mul_right hsized.1 hoffset
  | lob isClob width =>
    simp only [hk] at heq
    cases c with
    | binding =>
      have hoffset : 0+r*sizeofPointer = 0+s*sizeofPointer := congrArg Address.offset heq
      rw [sizeofPointer] at hoffset
      omega
    | new =>
      have hoffset : locatorOffset+r*sizeofOCILob = locatorOffset+s*sizeofOCILob :=
        congrArg Address.offset heq
      rw [sizeofOCILob] at hoffset
      omega

variable (c T)

/-- The cells of a field in a row: the bytes in the batch, an indicator, and where the value is
written. -/
def Client.cells (x : ℕ × Fin T.arity) : Set Address :=
  {a | (∃ d < (T.kind x.2).width, a = (fieldAddress T x.1 x.2).skip d) ∨
    a = indicatorAddress T x.1 x.2 ∨ a = c.dataCell T x.1 x.2}

variable {c T}

/-- A cell is in the batch, an indicator or a staged element. -/
theorem mem_cells {a : Address} (h : a ∈ c.cells T (r,i)) :
    (∃ d < (T.kind i).width, a = (fieldAddress T r i).skip d) ∨ a = indicatorAddress T r i ∨
      (T.kind i).staged = true ∧ a = c.dataCell T r i := by
  rcases h with h | h | h
  · exact .inl h
  · exact .inr (.inl h)
  · cases hstaged : (T.kind i).staged with
    | true => exact .inr (.inr ⟨rfl,h⟩)
    | false => exact .inl ⟨0,width_pos T i,h.trans (dataCell_field hstaged)⟩

theorem cells_unique {a : Address} (h : a ∈ c.cells T (r,i)) (h' : a ∈ c.cells T (s,j)) :
    r = s ∧ i = j := by
  rcases mem_cells h with ⟨d,hd,rfl⟩ | rfl | ⟨hi,rfl⟩
  · rcases mem_cells h' with ⟨e,he,heq⟩ | heq | ⟨hj,heq⟩
    · exact byte_unique T hd he heq
    · cases congrArg Address.region heq
    · cases (congrArg Address.region heq).trans (dataCell_staged hj)
  · rcases mem_cells h' with ⟨e,he,heq⟩ | heq | ⟨hj,heq⟩
    · cases congrArg Address.region heq
    · exact indicator_unique T heq
    · cases (congrArg Address.region heq).trans (dataCell_staged hj)
  · have hregion := dataCell_staged (c := c) (r := r) hi
    rcases mem_cells h' with ⟨e,he,heq⟩ | heq | ⟨hj,heq⟩
    · rw [heq] at hregion
      cases hregion
    · rw [heq] at hregion
      cases hregion
    · exact staged_unique hi hj heq

/-- Every cell belongs to one field of one row. -/
theorem cells_disjoint {x y : ℕ × Fin T.arity} (h : x ≠ y) :
    Disjoint (c.cells T x) (c.cells T y) := by
  refine Set.disjoint_left.mpr fun a hx hy => h ?_
  obtain ⟨hr,hi⟩ := cells_unique hx hy
  exact Prod.ext hr hi

theorem field_mem_cells : fieldAddress T r i ∈ c.cells T (r,i) := .inl ⟨0,width_pos T i,rfl⟩

theorem indicator_mem_cells : indicatorAddress T r i ∈ c.cells T (r,i) := .inr (.inl rfl)

theorem data_mem_cells : c.dataCell T r i ∈ c.cells T (r,i) := .inr (.inr rfl)

theorem length_mem_cells {a : Address} (h : a ∈ lengthCell T r i) : a ∈ c.cells T (r,i) := by
  unfold lengthCell at h
  cases hk : T.kind i with
  | fixedString capacity =>
    rw [hk] at h
    cases h
    refine .inl ⟨lengthOffset capacity,?_,rfl⟩
    simp only [hk]
    exact Nat.lt_add_of_pos_right Nat.two_pos
  | _ => rw [hk] at h; cases h

theorem indicator_ne_data : indicatorAddress T r i ≠ c.dataCell T r i := by
  intro h
  have hregion := congrArg Address.region h
  cases hstaged : (T.kind i).staged with
  | true =>
    rw [dataCell_staged hstaged] at hregion
    cases hregion
  | false =>
    rw [dataCell_field hstaged] at hregion
    cases hregion

theorem field_ne_data (h : (T.kind i).staged = true) : fieldAddress T r i ≠ c.dataCell T r i := by
  intro heq
  have hregion := congrArg Address.region heq
  rw [dataCell_staged h] at hregion
  cases hregion

theorem lengthCell_eq {a : Address} (h : a ∈ lengthCell T r i) :
    ∃ capacity, T.kind i = .fixedString capacity ∧ 0 < capacity ∧
      a = (fieldAddress T r i).skip (lengthOffset capacity) := by
  have hsized := T.sized i
  unfold lengthCell at h
  cases hk : T.kind i with
  | fixedString capacity =>
    rw [hk] at h hsized
    cases h
    exact ⟨capacity,rfl,hsized,rfl⟩
  | _ => rw [hk] at h; cases h

theorem length_ne_field {a : Address} (h : a ∈ lengthCell T r i) : a ≠ fieldAddress T r i := by
  obtain ⟨capacity,-,hpos,rfl⟩ := lengthCell_eq h
  intro heq
  have hoffset := congrArg Address.offset heq
  simp only [Address.skip,lengthOffset] at hoffset
  omega

theorem length_ne_data {a : Address} (h : a ∈ lengthCell T r i) : a ≠ c.dataCell T r i := by
  obtain ⟨capacity,hk,-,-⟩ := lengthCell_eq h
  rw [dataCell_field (by rw [hk]; rfl)]
  exact length_ne_field h

theorem length_ne_indicator {a : Address} (h : a ∈ lengthCell T r i) :
    a ≠ indicatorAddress T r i := by
  obtain ⟨capacity,-,-,rfl⟩ := lengthCell_eq h
  intro heq
  cases congrArg Address.region heq

end Cells

/-! ### Defines -/

/-- The bytes that OCI is told a value has room in. -/
def Kind.room : Kind → ℤ
  | plain width => toSb4 width
  | optional elemSize _ => toSb4 elemSize
  | fixedString capacity => toSb4 capacity
  | lob _ _ => toSb4 sizeofPointer

/-- Whether an indicator is asked for. -/
def Client.indicated : Client → Kind → Bool
  | _,.plain _ => false
  | binding,.fixedString _ => false
  | _,_ => true

section Defines

variable (c : Client) (T : RowType)

def Client.indicatorCell (r : ℕ) (i : Fin T.arity) : Option Address :=
  if c.indicated (T.kind i) then some (indicatorAddress T r i) else none

/-- What each client makes of a stride. -/
def Client.skips (i : Fin T.arity) : Skips :=
  match c with
  | binding => ⟨toUb4 (c.stride T i),sizeofSb2,
      match T.kind i with
      | .fixedString _ => toUb4 (c.stride T i)
      | _ => 0⟩
  | new => (arraySkips (toSb4 (c.stride T i)) 0 true).getD .unset

/-- A column as `define_one_column` has it defined. -/
def Client.columnDefine (i : Fin T.arity) (position : ℕ) : Define :=
  { c.skips T i with
    position
    data := c.dataCell T 0 i
    len := (T.kind i).room
    outsize := lengthCell T 0 i
    indicator := c.indicatorCell T 0 i }

/-- The define handles of fields. -/
def Client.defineHandles (position : Fin T.arity → ℕ) (fields : List (Fin T.arity)) :
    List Define :=
  fields.map fun i => c.columnDefine T i (position i)

/-- What is written for one column of a row, on the cells of its field. -/
def Client.ownWrites (r : ℕ) (i : Fin T.arity) :
    Option (Datum α Λ) → List (Address × (Cell α Λ → Cell α Λ))
  | some x => (c.dataCell T r i,x.store (T.kind i).room) ::
    (sideWrite (lengthCell T r i) (.length (x.length (T.kind i).room)) ++
      sideWrite (c.indicatorCell T r i) (.indicator indNotNull))
  | none => sideWrite (c.indicatorCell T r i) (.indicator indNull)

/-- The indicators as `define_one_column` leaves them. -/
def Client.withIndicators (batchSize : ℕ) (m : Memory α Λ) (i : Fin T.arity) : Memory α Λ :=
  if c.indicated (T.kind i) then
    assign ⟨.indicators i,0⟩ sizeofSb2 batchSize (.indicator indNotNull) m
  else m

/-- All that `define_one_column` makes of the vectors beside the batch. -/
def Client.assigned (batchSize : ℕ) (zero : α) (m : Memory α Λ) (i : Fin T.arity) : Memory α Λ :=
  let m := c.withIndicators T batchSize m i
  match T.kind i with
  | .optional _ _ => assign (c.dataCell T 0 i) (c.stride T i) batchSize (.scalar zero) m
  | .lob _ _ => assign (c.dataCell T 0 i) (c.stride T i) batchSize (.locator none) m
  | _ => m

variable {c T} {i : Fin T.arity}

theorem stride_bounds (hsize : T.size < 2^31) (i : Fin T.arity) :
    0 < c.stride T i ∧ c.stride T i < 2^31 := by
  have hsized := T.sized i
  have hpos := width_pos T i
  have hle := width_le_size T i
  unfold Client.stride
  cases hk : T.kind i with
  | optional elemSize width =>
    rw [hk] at hsized hle
    obtain ⟨h,h'⟩ := hsized
    simp only [Kind.width] at hle
    simp only
    omega
  | lob isClob width => cases c <;> simp [sizeofPointer,sizeofOCILob]
  | _ =>
    simp only
    omega

theorem fieldAddress_zero (i : Fin T.arity) : fieldAddress T 0 i = ⟨.batch,T.offset i⟩ := by
  simp [fieldAddress,Address.skip]

theorem stageAddress_zero (elemSize : ℕ) (i : Fin T.arity) :
    stageAddress T elemSize 0 i = ⟨.staging i,0⟩ := by
  simp [stageAddress,Address.skip]

theorem toSb4_natCast {n : ℕ} (h : n < 2^31) : toSb4 n = n :=
  Int.bmod_eq_of_le_mul_two (by omega) (by omega)

theorem skips_new (hsize : T.size < 2^31) (i : Fin T.arity) :
    Client.new.skips T i = ⟨Client.new.stride T i,sizeofSb2,Client.new.stride T i⟩ := by
  obtain ⟨hpos,hlt⟩ := stride_bounds (c := .new) hsize i
  have harray : 0 < toSb4 (Client.new.stride T i) := by
    rw [toSb4_natCast hlt]
    exact_mod_cast hpos
  simp only [Client.skips,arraySkips,harray,and_self,if_true,lt_irrefl,if_false,Option.getD_some,
    toUb4_toSb4 (hlt.trans (by decide))]

theorem skips_binding (hsize : T.size < 2^31) (i : Fin T.arity) :
    Client.binding.skips T i = ⟨Client.binding.stride T i,sizeofSb2,
      match T.kind i with
      | .fixedString _ => Client.binding.stride T i
      | _ => 0⟩ := by
  obtain ⟨-,hlt⟩ := stride_bounds (c := .binding) hsize i
  simp only [Client.skips,toUb4_natCast (hlt.trans (by decide))]

theorem dataCell_zero_skip (r : ℕ) (i : Fin T.arity) :
    (c.dataCell T 0 i).skip (r*c.stride T i) = c.dataCell T r i := by
  unfold Client.dataCell Client.stride
  cases T.kind i with
  | lob isClob width =>
    cases c <;> simp [locatorAddress,Raw.locatorAddress,Address.skip]
  | _ => simp [fieldAddress,stageAddress,Address.skip]

theorem skips_data (hsize : T.size < 2^31) (r : ℕ) (i : Fin T.arity) :
    (c.dataCell T 0 i).skip (r*(c.skips T i).pvskip) = c.dataCell T r i := by
  have hpvskip : (c.skips T i).pvskip = c.stride T i := by
    cases c with
    | binding => rw [skips_binding hsize]
    | new => rw [skips_new hsize]
  rw [hpvskip,dataCell_zero_skip]

theorem skips_indicator (hsize : T.size < 2^31) (r : ℕ) (i : Fin T.arity) :
    (c.indicatorCell T 0 i).map (fun a => a.skip (r*(c.skips T i).indskip)) =
      c.indicatorCell T r i := by
  have hindskip : (c.skips T i).indskip = sizeofSb2 := by
    cases c with
    | binding => rw [skips_binding hsize]
    | new => rw [skips_new hsize]
  rw [hindskip]
  unfold Client.indicatorCell
  split_ifs <;> simp [indicatorAddress,Address.skip]

theorem skips_length (hsize : T.size < 2^31) (r : ℕ) (i : Fin T.arity) :
    (lengthCell T 0 i).map (fun a => a.skip (r*(c.skips T i).rlskip)) = lengthCell T r i := by
  unfold lengthCell
  cases hk : T.kind i with
  | fixedString capacity =>
    have hstride : c.stride T i = T.size := by
      unfold Client.stride
      rw [hk]
    have hrlskip : (c.skips T i).rlskip = T.size := by
      cases c with
      | binding => simp only [skips_binding hsize,hk,hstride]
      | new => simp only [skips_new hsize,hstride]
    rw [hrlskip]
    simp [fieldAddress,Address.skip,Nat.add_right_comm]
  | _ => rfl

/-- While the strides fit, the writes for a column of a row are on the cells of its field. -/
theorem columnWrites_columnDefine (hsize : T.size < 2^31) (i : Fin T.arity) (position r : ℕ)
    (v : Option (Datum α Λ)) :
    columnWrites (c.columnDefine T i position) r v = c.ownWrites T r i v := by
  cases v <;> simp only [columnWrites,Client.columnDefine,Client.ownWrites,skips_data hsize,
    skips_indicator hsize,skips_length hsize]

theorem indicatorCell_eq {r : ℕ} {a : Address} (h : a ∈ c.indicatorCell T r i) :
    a = indicatorAddress T r i := by
  unfold Client.indicatorCell at h
  split_ifs at h
  · exact (Option.some.inj h).symm
  · cases h

theorem mem_sideWrite {a : Option Address} {cell : Cell α Λ} {w : Address × (Cell α Λ → Cell α Λ)}
    (h : w ∈ sideWrite a cell) : w.1 ∈ a := by
  obtain ⟨b,hb,rfl⟩ := List.mem_map.mp h
  exact Option.mem_toList.mp hb

theorem ownWrites_cells (x : ℕ × Fin T.arity) (v : Option (Datum α Λ)) :
    ∀ w ∈ c.ownWrites T x.1 x.2 v, w.1 ∈ c.cells T x := by
  have hindicator : ∀ a ∈ c.indicatorCell T x.1 x.2, a ∈ c.cells T x := by
    intro a ha
    rw [indicatorCell_eq ha]
    exact indicator_mem_cells
  intro w hw
  cases v with
  | none => exact hindicator _ (mem_sideWrite hw)
  | some v =>
    rcases List.mem_cons.mp hw with rfl | hw
    · exact data_mem_cells
    · rcases List.mem_append.mp hw with hw | hw
      · exact length_mem_cells (mem_sideWrite hw)
      · exact hindicator _ (mem_sideWrite hw)

/-- They are on different cells. -/
theorem ownWrites_nodup (r : ℕ) (i : Fin T.arity) (v : Option (Datum α Λ)) :
    ((c.ownWrites T r i v).map Prod.fst).Nodup := by
  cases v with
  | none =>
    cases hindicator : c.indicatorCell T r i <;> simp [Client.ownWrites,sideWrite,hindicator]
  | some v =>
    have hdata := (indicator_ne_data (c := c) (r := r) (i := i)).symm
    simp only [Client.ownWrites,sideWrite]
    cases hlength : lengthCell T r i with
    | none =>
      unfold Client.indicatorCell
      split_ifs <;> simp [hdata]
    | some a =>
      have hne := (length_ne_data (c := c) hlength).symm
      have hside := length_ne_indicator hlength
      unfold Client.indicatorCell
      split_ifs <;> simp [hdata,hne,hside]

variable {r : ℕ} {v : Option (Datum α Λ)} (m : Memory α Λ)

/-- The value, where the column is not `NULL`. -/
theorem ownWrites_data : applyWrites (c.ownWrites T r i v) m (c.dataCell T r i) =
    v.elim (m (c.dataCell T r i)) fun x => x.store (T.kind i).room (m (c.dataCell T r i)) := by
  cases v with
  | none =>
    refine applyWrites_of_not_mem (fun w hw => ?_) m
    rw [indicatorCell_eq (mem_sideWrite hw)]
    exact indicator_ne_data
  | some x => exact applyWrites_of_nodup (ownWrites_nodup r i (some x)) List.mem_cons_self m

theorem ownWrites_length {a : Address} (ha : a ∈ lengthCell T r i) :
    applyWrites (c.ownWrites T r i v) m a =
      v.elim (m a) fun x => .length (x.length (T.kind i).room) := by
  cases v with
  | none =>
    refine applyWrites_of_not_mem (fun w hw => ?_) m
    rw [indicatorCell_eq (mem_sideWrite hw)]
    exact (length_ne_indicator ha).symm
  | some x =>
    refine applyWrites_of_nodup (f := fun _ => .length (x.length (T.kind i).room))
      (ownWrites_nodup r i (some x)) ?_ m
    have hlength : lengthCell T r i = some a := ha
    simp [Client.ownWrites,sideWrite,hlength]

theorem ownWrites_indicator (h : c.indicated (T.kind i) = true) :
    applyWrites (c.ownWrites T r i v) m (indicatorAddress T r i) =
      .indicator (if v.isNone then indNull else indNotNull) := by
  cases v with
  | none =>
    refine applyWrites_of_nodup (f := fun _ => .indicator indNull) (ownWrites_nodup r i none) ?_ m
    simp [Client.ownWrites,sideWrite,Client.indicatorCell,h]
  | some x =>
    refine applyWrites_of_nodup (f := fun _ => .indicator indNotNull)
      (ownWrites_nodup r i (some x)) ?_ m
    simp [Client.ownWrites,sideWrite,Client.indicatorCell,h]

end Defines

/-! ### A fetch -/

section Fetch

variable {c : Client} {T : RowType} {position : Fin T.arity → ℕ} {fields : List (Fin T.arity)}
variable {rows : List (Row α Λ)} {r : ℕ} {i : Fin T.arity} {a : Address}

/-- A fetch goes through the fields of its rows. -/
theorem fetch_eq_foldl (hsize : T.size < 2^31) (m : Memory α Λ) :
    applyWrites (rowWrites (c.defineHandles T position fields) rows) m =
      (rows.zipIdx ×ˢ fields).foldl (fun m x =>
        applyWrites (c.ownWrites T x.1.2 x.2 (x.1.1 (position x.2))) m) m := by
  have hwrites : rowWrites (c.defineHandles T position fields) rows =
      (rows.zipIdx ×ˢ fields).flatMap fun x =>
        c.ownWrites T x.1.2 x.2 (x.1.1 (position x.2)) := by
    simp only [rowWrites,Client.defineHandles,List.flatMap_map,columnWrites_columnDefine hsize,
      SProd.sprod,List.product,List.flatMap_assoc]
    rfl
  rw [hwrites,applyWrites_flatMap]

theorem local_ownWrites : Local (fun x : (Row α Λ × ℕ) × Fin T.arity => c.cells T (x.1.2,x.2))
    fun x => applyWrites (c.ownWrites T x.1.2 x.2 (x.1.1 (position x.2))) :=
  .ofWrites fun x => ownWrites_cells (x.1.2,x.2) _

theorem rows_apart (hfields : fields.Nodup) : (rows.zipIdx ×ˢ fields).Pairwise fun x y =>
    Disjoint (c.cells T (x.1.2,x.2)) (c.cells T (y.1.2,y.2)) := by
  have hrows : rows.zipIdx.Nodup := .of_map Prod.snd (List.nodup_zipIdx_map_snd rows)
  refine (hrows.product hfields).imp_of_mem fun {x y} hx hy hne => cells_disjoint fun heq => hne ?_
  obtain ⟨⟨row,r⟩,i⟩ := x
  obtain ⟨⟨row',s⟩,j⟩ := y
  obtain ⟨rfl,rfl⟩ := Prod.mk.inj heq
  have hrow := List.mem_zipIdx_iff_getElem?.mp (List.mem_product.mp hx).1
  have hrow' := List.mem_zipIdx_iff_getElem?.mp (List.mem_product.mp hy).1
  cases hrow.symm.trans hrow'
  rfl

/-- A fetch leaves in the cells of a field what the column of the row makes of them. -/
theorem fetched (hsize : T.size < 2^31) (hfields : fields.Nodup) {row : Row α Λ}
    (hrow : rows[r]? = some row) (hi : i ∈ fields) (ha : a ∈ c.cells T (r,i)) (m : Memory α Λ) :
    applyWrites (rowWrites (c.defineHandles T position fields) rows) m a =
      applyWrites (c.ownWrites T r i (row (position i))) m a := by
  rw [fetch_eq_foldl hsize]
  exact local_ownWrites.foldl_of_mem (rows_apart hfields) (x := ((row,r),i))
    (List.mem_product.mpr ⟨List.mem_zipIdx_iff_getElem?.mpr hrow,hi⟩) ha m

/-- It leaves the other cells as they are. -/
theorem fetched_other (hsize : T.size < 2^31) (h : rows.length ≤ r ∨ i ∉ fields)
    (ha : a ∈ c.cells T (r,i)) (m : Memory α Λ) :
    applyWrites (rowWrites (c.defineHandles T position fields) rows) m a = m a := by
  rw [fetch_eq_foldl hsize]
  refine local_ownWrites.foldl_of_not_mem (fun x hx hmem => ?_) m
  obtain ⟨⟨row,s⟩,j⟩ := x
  obtain ⟨hrow,hj⟩ := List.mem_product.mp hx
  obtain ⟨rfl,rfl⟩ := cells_unique ha hmem
  have hlt := (List.getElem?_eq_some_iff.mp (List.mem_zipIdx_iff_getElem?.mp hrow)).1
  rcases h with h | h
  · exact absurd hlt h.not_gt
  · exact h hj

end Fetch

/-! ### After a fetch -/

section Apply

variable (c : Client) (oci : Oci ω α Λ) (T : RowType)

def Client.applyOneColumn (r : ℕ) (m : Memory α Λ) (i : Fin T.arity) : Memory α Λ :=
  match c with
  | binding => Raw.applyOneColumn oci T r m i
  | new => SelectRows.applyOneColumn oci T r m i

/-- What `run_select_fetch_loop` does to the batch between a fetch and `on_batch`. -/
def Client.applied (k : ℕ) (m : Memory α Λ) : Memory α Λ :=
  match c with
  | binding => (List.range k).foldl (Raw.applyColumns oci T) m
  | new => if needsApplyLoop T then (List.range k).foldl (SelectRows.applyColumns oci T) m else m

variable {c oci T} {r : ℕ} {i : Fin T.arity}

/-- Nothing is done to a plain field. -/
theorem applyOneColumn_plain {width : ℕ} (h : T.kind i = .plain width) (m : Memory α Λ) :
    c.applyOneColumn oci T r m i = m := by
  cases c with
  | binding =>
    unfold Client.applyOneColumn Raw.applyOneColumn
    simp only [h]
  | new =>
    unfold Client.applyOneColumn SelectRows.applyOneColumn
    simp only [h]

theorem applied_eq_foldl (k : ℕ) (m : Memory α Λ) :
    c.applied oci T k m = (List.range k ×ˢ List.finRange T.arity).foldl
      (fun m x => c.applyOneColumn oci T x.1 m x.2) m := by
  have hrows : ∀ m : Memory α Λ, (List.range k ×ˢ List.finRange T.arity).foldl
      (fun m x => c.applyOneColumn oci T x.1 m x.2) m = (List.range k).foldl (fun m r =>
        (List.finRange T.arity).foldl (fun m i => c.applyOneColumn oci T r m i) m) m := by
    intro m
    simp only [SProd.sprod,List.product,List.foldl_flatMap,List.foldl_map]
  rw [hrows]
  cases c with
  | binding => rfl
  | new =>
    by_cases hneeds : needsApplyLoop T = true
    · exact if_pos hneeds
    · have hplain : ∀ i : Fin T.arity, ∃ width, T.kind i = .plain width := by
        intro i
        simp only [needsApplyLoop,List.any_eq_true,not_exists,not_and] at hneeds
        have hkind := hneeds i (List.mem_finRange i)
        cases hk : T.kind i with
        | plain width => exact ⟨width,rfl⟩
        | _ => exact absurd (by rw [hk]; rfl) hkind
      have hid : ∀ (r : ℕ) (m : Memory α Λ) (i : Fin T.arity),
          Client.new.applyOneColumn oci T r m i = m := by
        intro r m i
        obtain ⟨width,hk⟩ := hplain i
        exact applyOneColumn_plain hk m
      simp only [hid,List.foldl_fixed]
      exact if_neg hneeds

/-- What becomes of a field from its indicator and its staged element. -/
def stagedValue (oci : Oci ω α Λ) (kind : Kind) (null : Bool) (data : Cell α Λ) : Cell α Λ :=
  match kind with
  | .optional _ _ => .optional (if null then none else data.toScalar)
  | .lob isClob _ => .lob (if null then [] else (data.toLocator.map (readLob oci isClob)).getD [])
  | _ => data

theorem applyOneColumn_staged (h : (T.kind i).staged = true) (m : Memory α Λ) :
    c.applyOneColumn oci T r m i = write m (fieldAddress T r i)
      (stagedValue oci (T.kind i) (isNull T m r i) (m (c.dataCell T r i))) := by
  unfold Client.applyOneColumn Raw.applyOneColumn SelectRows.applyOneColumn Client.dataCell
  cases hk : T.kind i with
  | plain width => rw [hk] at h; cases h
  | fixedString capacity => rw [hk] at h; cases h
  | _ => cases c <;> rfl

theorem applyOneColumn_fixedString {capacity : ℕ} (h : T.kind i = .fixedString capacity)
    (m : Memory α Λ) : c.applyOneColumn oci T r m i =
      if c.indicated (T.kind i) ∧ isNull T m r i then
        clearFixedString m (fieldAddress T r i) capacity
      else m := by
  unfold Client.applyOneColumn Raw.applyOneColumn SelectRows.applyOneColumn
  cases c with
  | binding => simp [h,Client.indicated]
  | new => simp [h,Client.indicated]

theorem isNull_congr {m m' : Memory α Λ} (h : Set.EqOn m m' (c.cells T (r,i))) :
    isNull T m r i = isNull T m' r i := by
  rw [isNull,isNull,h indicator_mem_cells]

theorem write_apply (m : Memory α Λ) (a b : Address) (cell : Cell α Λ) :
    write m a cell b = if b = a then cell else m b := by
  by_cases h : b = a
  · rw [if_pos h,h]
    exact Function.update_self ..
  · rw [if_neg h]
    exact Function.update_of_ne h ..

/-- A column is applied on the cells of its field. -/
theorem local_applyOneColumn : Local (c.cells T)
    fun x (m : Memory α Λ) => c.applyOneColumn oci T x.1 m x.2 where
  frame x m a ha := by
    have hfield : a ≠ fieldAddress T x.1 x.2 := by
      rintro rfl
      exact ha field_mem_cells
    cases hk : T.kind x.2 with
    | plain width => rw [applyOneColumn_plain hk]
    | fixedString capacity =>
      have hlength : a ≠ (fieldAddress T x.1 x.2).skip (lengthOffset capacity) := by
        rintro rfl
        refine ha (length_mem_cells ?_)
        rw [lengthCell,hk]
        rfl
      rw [applyOneColumn_fixedString hk]
      split_ifs
      · rw [clearFixedString,write_apply,write_apply,if_neg hlength,if_neg hfield]
      · rfl
    | _ => rw [applyOneColumn_staged (by rw [hk]; rfl),write_apply,if_neg hfield]
  congr x m m' a h ha := by
    have hnull := isNull_congr h
    cases hk : T.kind x.2 with
    | plain width =>
      rw [applyOneColumn_plain hk,applyOneColumn_plain hk]
      exact h ha
    | fixedString capacity =>
      rw [applyOneColumn_fixedString hk,applyOneColumn_fixedString hk,hnull]
      split_ifs
      · simp only [clearFixedString,write_apply,h ha]
      · exact h ha
    | _ =>
      have hstaged : (T.kind x.2).staged = true := by rw [hk]; rfl
      rw [applyOneColumn_staged hstaged,applyOneColumn_staged hstaged,hnull,h data_mem_cells,
        write_apply,write_apply,h ha]

theorem applied_apply {k : ℕ} (hr : r < k) {a : Address} (ha : a ∈ c.cells T (r,i))
    (m : Memory α Λ) : c.applied oci T k m a = c.applyOneColumn oci T r m i a := by
  rw [applied_eq_foldl]
  refine local_applyOneColumn.foldl_of_mem (x := (r,i)) ?_ ?_ ha m
  · exact ((List.nodup_range (n := k)).product (List.nodup_finRange T.arity)).imp cells_disjoint
  · exact List.mem_product.mpr ⟨List.mem_range.mpr hr,List.mem_finRange i⟩

theorem applied_beyond {k : ℕ} (hr : k ≤ r) {a : Address} (ha : a ∈ c.cells T (r,i))
    (m : Memory α Λ) : c.applied oci T k m a = m a := by
  rw [applied_eq_foldl]
  refine local_applyOneColumn.foldl_of_not_mem (fun x hx hmem => ?_) m
  obtain ⟨s,j⟩ := x
  obtain ⟨rfl,-⟩ := cells_unique ha hmem
  exact absurd (List.mem_range.mp (List.mem_product.mp hx).1) hr.not_gt

end Apply

/-! ### A turn of the loop -/

section Turn

variable {c : Client} {oci : Oci ω α Λ} {T : RowType} {position : Fin T.arity → ℕ}
variable {fields : List (Fin T.arity)} {rows : List (Row α Λ)} {r : ℕ} {i : Fin T.arity}

variable (c oci T position fields rows) in
/-- The memory when `on_batch` is called after a fetch. -/
def Client.delivered (m : Memory α Λ) : Memory α Λ :=
  c.applied oci T rows.length (applyWrites (rowWrites (c.defineHandles T position fields) rows) m)

/-- What becomes of a field in a row that is delivered. -/
theorem delivered_eqOn (hsize : T.size < 2^31) (hfields : fields.Nodup) {row : Row α Λ}
    (hrow : rows[r]? = some row) (hi : i ∈ fields) (m : Memory α Λ) :
    Set.EqOn (c.delivered oci T position fields rows m)
      (c.applyOneColumn oci T r (applyWrites (c.ownWrites T r i (row (position i))) m) i)
      (c.cells T (r,i)) := by
  intro a ha
  rw [Client.delivered,applied_apply (List.getElem?_eq_some_iff.mp hrow).1 ha]
  exact local_applyOneColumn.congr (r,i) _ _ a
    (fun b hb => fetched hsize hfields hrow hi hb m) ha

/-- And where no column is delivered for it. -/
theorem delivered_eqOn_undefined (hsize : T.size < 2^31) (hr : r < rows.length) (hi : i ∉ fields)
    (m : Memory α Λ) : Set.EqOn (c.delivered oci T position fields rows m)
      (c.applyOneColumn oci T r m i) (c.cells T (r,i)) := by
  intro a ha
  rw [Client.delivered,applied_apply hr ha]
  exact local_applyOneColumn.congr (r,i) _ _ a
    (fun b hb => fetched_other hsize (.inr hi) hb m) ha

/-- A row that is not delivered stays. -/
theorem delivered_eqOn_beyond (hsize : T.size < 2^31) (hr : rows.length ≤ r) (m : Memory α Λ) :
    Set.EqOn (c.delivered oci T position fields rows m) m (c.cells T (r,i)) := by
  intro a ha
  rw [Client.delivered,applied_beyond hr ha]
  exact fetched_other hsize (.inl hr) ha m

/-- `on_batch` reads the cells of a field. -/
theorem readField_congr {m m' : Memory α Λ} (h : Set.EqOn m m' (c.cells T (r,i))) :
    readField T m r i = readField T m' r i := by
  unfold readField
  rw [h field_mem_cells]
  cases hk : T.kind i with
  | fixedString capacity =>
    have hlength : (fieldAddress T r i).skip (lengthOffset capacity) ∈ lengthCell T r i := by
      rw [lengthCell,hk]
      rfl
    simp only [h (length_mem_cells hlength)]
  | _ => rfl

end Turn

/-! ### What becomes of a field -/

section Field

variable (c : Client) (oci : Oci ω α Λ) (T : RowType) (r : ℕ) (i : Fin T.arity)

/-- The column of a row, fetched and applied. -/
def Client.receive (v : Option (Datum α Λ)) (m : Memory α Λ) : Memory α Λ :=
  c.applyOneColumn oci T r (applyWrites (c.ownWrites T r i v) m) i

variable {c oci T r i} {v : Option (Datum α Λ)}

theorem isNull_ownWrites (h : c.indicated (T.kind i) = true) (m : Memory α Λ) :
    isNull T (applyWrites (c.ownWrites T r i v) m) r i = v.isNone := by
  rw [isNull,ownWrites_indicator m h]
  cases v <;> rfl

theorem receive_staged (h : (T.kind i).staged = true) (m : Memory α Λ) :
    c.receive oci T r i v m (fieldAddress T r i) =
      stagedValue oci (T.kind i) v.isNone (v.elim (m (c.dataCell T r i)) fun x =>
        x.store (T.kind i).room (m (c.dataCell T r i))) := by
  have hindicated : c.indicated (T.kind i) = true := by
    cases hk : T.kind i with
    | plain width => rw [hk] at h; cases h
    | fixedString capacity => rw [hk] at h; cases h
    | _ => cases c <;> rfl
  rw [Client.receive,applyOneColumn_staged h,write_apply,if_pos rfl,isNull_ownWrites hindicated,
    ownWrites_data]

theorem receive_plain {width : ℕ} (h : T.kind i = .plain width) (m : Memory α Λ) :
    c.receive oci T r i v m (fieldAddress T r i) =
      v.elim (m (fieldAddress T r i)) fun x =>
        x.store (T.kind i).room (m (fieldAddress T r i)) := by
  have hdata : c.dataCell T r i = fieldAddress T r i := dataCell_field (by rw [h]; rfl)
  rw [Client.receive,applyOneColumn_plain h,← hdata,ownWrites_data]

variable {capacity : ℕ} (hk : T.kind i = .fixedString capacity)

include hk

theorem readField_fixedString (m : Memory α Λ) : readField T m r i =
    (m (fieldAddress T r i)).toChars.bind fun data =>
      (m ((fieldAddress T r i).skip (lengthOffset capacity))).toLength.map fun n =>
        .fixedString (data.take n.toNat) := by
  unfold readField
  simp only [hk]

/-- The buffer may hold more than the text: the view ends with its length. -/
theorem receive_text (s : Text) (hshort : s.length < 2^16) (m : Memory α Λ) :
    readField T (c.receive oci T r i (some (.text s hshort)) m) r i =
      some (.fixedString (s.take (T.kind i).room.toNat)) := by
  have hdata := ownWrites_data (c := c) (T := T) (r := r) (i := i) (v := some (.text s hshort)) m
  rw [dataCell_field (by rw [hk]; rfl)] at hdata
  have hmem : (fieldAddress T r i).skip (lengthOffset capacity) ∈ lengthCell T r i := by
    rw [lengthCell,hk]
    rfl
  have hlength := ownWrites_length (c := c) (v := some (.text s hshort)) m hmem
  have happly : c.receive oci T r i (some (.text s hshort)) m =
      applyWrites (c.ownWrites T r i (some (.text s hshort))) m := by
    rw [Client.receive,applyOneColumn_fixedString hk]
    refine if_neg fun h => ?_
    rw [isNull_ownWrites h.1] at h
    exact absurd h.2 Bool.false_ne_true
  have htake : (s.take (T.kind i).room.toNat).length < 2^16 :=
    (List.length_take_le' _ _).trans_lt hshort
  have htoNat : (UInt16.ofNat (s.take (T.kind i).room.toNat).length).toNat =
      (s.take (T.kind i).room.toNat).length := Nat.mod_eq_of_lt htake
  rw [happly,readField_fixedString hk,hdata,hlength]
  simp only [Option.elim_some,Datum.store,Datum.length,Cell.toChars,Cell.toLength,
    Option.bind_some,Option.map_some,htoNat,List.take_left']

/-- Without an indicator a `NULL` leaves the text that is there. -/
theorem receive_null_kept (h : c.indicated (T.kind i) = false) (m : Memory α Λ) :
    c.receive oci T r i none m = m := by
  have hwrites : c.ownWrites T r i (none : Option (Datum α Λ)) = [] := by
    simp [Client.ownWrites,sideWrite,Client.indicatorCell,h]
  rw [Client.receive,hwrites,applyOneColumn_fixedString hk]
  exact if_neg fun hnull => absurd hnull.1 (by rw [h]; exact Bool.false_ne_true)

theorem receive_null_cleared (h : c.indicated (T.kind i) = true) (m : Memory α Λ) :
    readField T (c.receive oci T r i none m) r i = some (.fixedString []) := by
  have hne : (fieldAddress T r i).skip (lengthOffset capacity) ≠ fieldAddress T r i :=
    length_ne_field (by rw [lengthCell,hk]; rfl)
  rw [Client.receive,applyOneColumn_fixedString hk,if_pos ⟨h,isNull_ownWrites h m⟩,
    readField_fixedString hk,clearFixedString,write_apply,write_apply,write_apply,if_neg hne.symm,
    if_pos rfl,if_pos rfl]
  rfl

end Field

end SelectRows
end Marketlib
