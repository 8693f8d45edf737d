import Mathlib.Logic.Function.Basic
import Marketlib.SelectRows

/-! The columns of a result set by name. `ideas/binding` enters every column in a map, where a
later column takes the place of an earlier one of its name; `ideas/new` looks for each field's
name from the first column on. -/

namespace Marketlib
namespace ColumnNames

open Binding SelectRows

/-- The loop that fills `name_to_position`, from a position on. -/
def nameToPosition (m : Text → Option ℕ) : List Text → ℕ → (Text → Option ℕ)
  | [],_ => m
  | name :: names,position =>
    nameToPosition (Function.update m (uppercased name) (some position)) names (position+1)

/-- `resolve_column_positions` of `ideas/binding`. -/
def resolveColumnPositions (columns : List Text) (T : RowType) : List ℕ :=
  if columns.length = 0 then (List.finRange T.arity).map fun i => i.val+1
  else
    let m := nameToPosition (fun _ => none) columns 1
    (List.finRange T.arity).map fun i => (m (uppercased (T.name i))).getD 0

/-- The last column of a name. -/
def lastPosition (target : Text) : List Text → ℕ → Option ℕ
  | [],_ => none
  | name :: names,position =>
    (lastPosition target names (position+1)).or
      (if uppercased name = target then some position else none)

theorem nameToPosition_eq (m : Text → Option ℕ) (columns : List Text) (position : ℕ)
    (target : Text) :
    nameToPosition m columns position target =
      (lastPosition target columns position).or (m target) := by
  induction columns generalizing m position with
  | nil => rfl
  | cons name names ih =>
    rw [nameToPosition,ih,lastPosition,Option.or_assoc]
    congr 1
    by_cases hname : uppercased name = target
    · rw [if_pos hname,← hname,Function.update_self]
      rfl
    · rw [if_neg hname,Function.update_of_ne (Ne.symm hname)]
      rfl

/-- The number of columns of a name. -/
def columnsNamed (target : Text) (columns : List Text) : ℕ :=
  columns.countP fun c => uppercased c = target

section

variable {target : Text} {columns : List Text} {position : ℕ}

theorem columnsNamed_eq_zero : columnsNamed target columns = 0 ↔
    ∀ c ∈ columns, uppercased c ≠ target := by
  simp [columnsNamed]

theorem lastPosition_eq_none :
    lastPosition target columns position = none ↔ columnsNamed target columns = 0 := by
  induction columns generalizing position with
  | nil => exact iff_of_true rfl rfl
  | cons name names ih =>
    rw [lastPosition,Option.or_eq_none_iff,ih,columnsNamed,columnsNamed,List.countP_cons]
    by_cases hname : uppercased name = target <;> simp [hname]

theorem le_lastPosition {q : ℕ} (h : lastPosition target columns position = some q) :
    position ≤ q := by
  induction columns generalizing position with
  | nil => cases h
  | cons name names ih =>
    rw [lastPosition,Option.or_eq_some_iff] at h
    rcases h with hlast | ⟨-,hfirst⟩
    · exact (Nat.le_succ position).trans (ih hlast)
    · split_ifs at hfirst
      exact (Option.some.inj hfirst).le

theorem columnPosition_eq_zero (hposition : position ≠ 0) :
    columnPosition target columns position = 0 ↔ columnsNamed target columns = 0 := by
  induction columns generalizing position with
  | nil => exact iff_of_true rfl rfl
  | cons name names ih =>
    rw [columnPosition,columnsNamed,List.countP_cons]
    by_cases hname : uppercased name = target
    · simp [hname,hposition]
    · rw [if_neg hname,ih (Nat.succ_ne_zero position)]
      simp [hname,columnsNamed]

/-- Both clients see when a field has no column. -/
theorem lastPosition_eq_zero (hposition : position ≠ 0) :
    (lastPosition target columns position).getD 0 = 0 ↔
      columnPosition target columns position = 0 := by
  rw [columnPosition_eq_zero hposition,← @lastPosition_eq_none _ _ position]
  cases hlast : lastPosition target columns position with
  | none => exact iff_of_true rfl rfl
  | some q =>
    have hle := le_lastPosition hlast
    exact iff_of_false (fun hq : q = 0 => by omega) (by simp)

/-- The last column of a name is the first if and only if no other has the name. -/
theorem lastPosition_eq_columnPosition (hposition : position ≠ 0) :
    (lastPosition target columns position).getD 0 = columnPosition target columns position ↔
      columnsNamed target columns ≤ 1 := by
  induction columns generalizing position with
  | nil => exact iff_of_true rfl (Nat.zero_le 1)
  | cons name names ih =>
    have hcount : columnsNamed target (name :: names) = columnsNamed target names +
        if uppercased name = target then 1 else 0 := by
      simp [columnsNamed,List.countP_cons]
    rw [lastPosition,columnPosition,hcount]
    by_cases hname : uppercased name = target
    · simp only [if_pos hname]
      cases hlast : lastPosition target names (position+1) with
      | none =>
        have hnone := lastPosition_eq_none.mp hlast
        simp [hnone]
      | some q =>
        have hle := le_lastPosition hlast
        have hsome : columnsNamed target names ≠ 0 := fun h0 => by
          rw [lastPosition_eq_none.mpr h0] at hlast
          cases hlast
        refine iff_of_false (fun heq => ?_) (by omega)
        have hq : q = position := heq
        omega
    · simp only [if_neg hname,Option.or_none,Nat.add_zero]
      exact ih (Nat.succ_ne_zero position)

end

section Fields

variable {ω α Λ : Type} {oci : Oci ω α Λ} {T : RowType} {stmt : Statement ω}

theorem resolveColumnPositions_binding (columns : List Text) (T : RowType) :
    resolveColumnPositions columns T = if columns.length = 0 then
      (List.finRange T.arity).map fun i => i.val+1
    else (List.finRange T.arity).map fun i =>
      (lastPosition (uppercased (T.name i)) columns 1).getD 0 := by
  simp only [resolveColumnPositions,nameToPosition_eq,Option.or_none]

/-- On a statement that was executed, `ideas/new` finds a position for each field or 0. -/
theorem resolveColumnPositions_new (hstate : stmt.state = .executed ∨ stmt.state = .endOfFetch) :
    SelectRows.resolveColumnPositions oci T stmt = .ok (if (oci.columnNames stmt.handle).length = 0
      then (List.finRange T.arity).map fun i => i.val+1
      else (List.finRange T.arity).map fun i =>
        columnPosition (uppercased (T.name i)) (oci.columnNames stmt.handle) 1) := by
  rw [SelectRows.resolveColumnPositions]
  split_ifs with hempty
  · rfl
  · have hdescribe : (fun i => stmt.describeColumnPosition oci (T.name i)) = fun i =>
        pure (columnPosition (uppercased (T.name i)) (oci.columnNames stmt.handle) 1) := by
      funext i
      rw [Statement.describeColumnPosition,requireState,if_pos (by simpa using hstate)]
      rfl
    rw [hdescribe,List.mapM_pure]
    rfl

/-- What both clients should make of the columns. -/
structure Alike (columns : List Text) (T : RowType) (ofBinding ofNew : List ℕ) : Prop where
  same : ofBinding = ofNew
  unmatched : columns ≠ [] → ∀ i : Fin T.arity, ofNew[i.val]? = some 0 ↔
    ∀ c ∈ columns, uppercased c ≠ uppercased (T.name i)
  undescribed : columns = [] → ofNew = (List.finRange T.arity).map fun i => i.val+1

/-- The two clients resolve the columns alike if and only if no field has the name of two
columns. -/
theorem resolveColumnPositions_alike_iff
    (hstate : stmt.state = .executed ∨ stmt.state = .endOfFetch) :
    ∃ positions, SelectRows.resolveColumnPositions oci T stmt = .ok positions ∧
      (Alike (oci.columnNames stmt.handle) T
          (resolveColumnPositions (oci.columnNames stmt.handle) T) positions ↔
        ∀ i : Fin T.arity,
          columnsNamed (uppercased (T.name i)) (oci.columnNames stmt.handle) ≤ 1) := by
  refine ⟨_,resolveColumnPositions_new hstate,?_⟩
  generalize oci.columnNames stmt.handle = columns
  rw [resolveColumnPositions_binding]
  cases columns with
  | nil =>
    refine iff_of_true ⟨rfl,fun hne => absurd rfl hne,fun _ => rfl⟩ fun _ => ?_
    exact Nat.zero_le 1
  | cons c columns =>
    simp only [List.length_cons,Nat.succ_ne_zero,↓reduceIte]
    constructor
    · intro halike i
      have hsame := List.map_inj_left.mp halike.same i (List.mem_finRange i)
      exact (lastPosition_eq_columnPosition Nat.one_ne_zero).mp hsame
    · intro hone
      exact {
        same := List.map_inj_left.mpr fun i _ =>
          (lastPosition_eq_columnPosition Nat.one_ne_zero).mpr (hone i)
        unmatched := fun _ i => by
          simp [columnPosition_eq_zero,columnsNamed_eq_zero]
        undescribed := fun hnil => by cases hnil }

/-- A row type of one scalar. -/
def oneField (name : Text) : RowType where
  arity := 1
  name := fun _ => name
  kind := fun _ => .plain 4
  offset := fun _ => 0
  size := 4
  sized := fun _ => Nat.succ_pos 3
  inside := fun _ => le_rfl
  apart := fun i j hij => absurd (Subsingleton.elim i j) hij

/-- A statement that describes the given columns. -/
def describing : Oci (List Text) Unit Unit where
  setPrefetchRows := fun w _ => w
  stmtExecute := fun w _ => (⟨0,0⟩,w)
  columnNames := id
  defineByPos := fun w _ => (⟨0,0⟩,true,w)
  stmtFetch := fun w _ _ m => (⟨100,0⟩,w,m)
  rowsFetched := fun _ => 0
  stmtState := fun _ => 2
  lobGetLength := fun _ => 0
  lobRead := fun _ _ => []

theorem resolveColumnPositions_alike_one :
    ∃ positions, SelectRows.resolveColumnPositions describing (oneField "Id".toList)
        ⟨.executed,["NAME".toList,"ID".toList]⟩ = .ok positions ∧
      (Alike ["NAME".toList,"ID".toList] (oneField "Id".toList)
          (resolveColumnPositions ["NAME".toList,"ID".toList] (oneField "Id".toList)) positions ↔
        ∀ i : Fin (oneField "Id".toList).arity,
          columnsNamed (uppercased ((oneField "Id".toList).name i))
            ["NAME".toList,"ID".toList] ≤ 1) :=
  resolveColumnPositions_alike_iff (.inl rfl)

/-- Two columns of one name, as a join gives them: the one client takes the second, the other
the first. -/
theorem resolveColumnPositions_twice :
    resolveColumnPositions ["ID".toList,"id".toList] (oneField "id".toList) = [2] ∧
    SelectRows.resolveColumnPositions describing (oneField "id".toList)
      ⟨.executed,["ID".toList,"id".toList]⟩ = .ok [1] ∧
    ¬Alike ["ID".toList,"id".toList] (oneField "id".toList) [2] [1] :=
  ⟨by decide,rfl,fun halike => absurd halike.same (by decide)⟩

end Fields

end ColumnNames
end Marketlib
