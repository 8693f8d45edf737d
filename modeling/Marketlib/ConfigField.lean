import Mathlib.Data.List.DropRight
import Mathlib.Data.UInt
import Mathlib.Tactic.Common

/-! Configuration texts and the parser-independent tree of named values. Characters are
bytes, and case is folded as in the C locale. -/

namespace Marketlib
namespace Binding

/-- `std::string`. -/
abbrev Text := List Char

/-- `to_lower`. -/
def toLower (s : Text) : Text := s.map Char.toLower

/-- Compares character by character, without lowering either text. -/
def iequals (a b : Text) : Bool :=
  a.length == b.length && (a.zip b).all fun (x,y) => x.toLower == y.toLower

theorem iequals_iff (a b : Text) : iequals a b = true ↔ toLower a = toLower b := by
  induction a generalizing b with
  | nil => cases b <;> simp [iequals,toLower]
  | cons x a ih =>
    cases b with
    | nil => simp [iequals,toLower]
    | cons y b =>
      have ih := ih b
      simp only [iequals,toLower,Bool.and_eq_true,beq_iff_eq,List.length_cons,Nat.add_right_cancel_iff,
        List.zip_cons_cons,List.all_cons,List.map_cons,List.cons.injEq] at ih ⊢
      rw [← ih]
      tauto

@[simp] theorem iequals_refl (a : Text) : iequals a a = true := (iequals_iff a a).mpr rfl

theorem iequals_comm (a b : Text) : iequals a b = iequals b a := by
  rw [Bool.eq_iff_iff,iequals_iff,iequals_iff]
  exact eq_comm

/-- Names that are equal ignoring case match the same names. -/
theorem iequals_congr {a b : Text} (h : iequals a b = true) (c : Text) :
    iequals a c = iequals b c := by
  rw [Bool.eq_iff_iff,iequals_iff,iequals_iff,(iequals_iff a b).mp h]

/-- `ICaseHash`: FNV-1a over the lowered characters. -/
def icaseHash (s : Text) : UInt64 :=
  s.foldl (fun h c => (h ^^^ UInt64.ofNat c.toLower.toNat)*1099511628211) 14695981039346656037

/-- What the hash table requires of its hash and its equality. -/
theorem icaseHash_eq {a b : Text} (h : iequals a b = true) : icaseHash a = icaseHash b := by
  have hfold : ∀ s : Text, icaseHash s = (toLower s).foldl
      (fun h c => (h ^^^ UInt64.ofNat c.toNat)*1099511628211) 14695981039346656037 := by
    intro s
    rw [icaseHash,toLower,List.foldl_map]
  rw [hfold,hfold,(iequals_iff a b).mp h]

/-- The characters `trim` strips. -/
def isSpace (c : Char) : Bool := c ∈ [' ','\t','\r','\n','\x0c','\x0b']

/-- `trim`. -/
def trim (s : Text) : Text := (s.dropWhile isSpace).rdropWhile isSpace

/-- The name `#text`, under which an element's own text is kept beside its children. -/
def textFieldKey : Text := ['#','t','e','x','t']

structure Named (α : Type*) where
  name : Text
  value : α

/-- Raw text, or one of the scalar types of TOML; `φ` are the doubles. -/
inductive LeafValue (φ : Type*)
  | text (s : Text)
  | integer (i : Int64)
  | float (x : φ)
  | boolean (b : Bool)

/-- A scalar, or one level of named children. -/
inductive FieldValue (φ : Type*)
  | leaf (v : LeafValue φ)
  | struct (fields : List (Named (FieldValue φ)))

/-- Induction on a tree: every entry of a list may be assumed. -/
@[elab_as_elim] theorem FieldValue.induction {φ : Type*} {motive : FieldValue φ → Prop}
    (leaf : ∀ v, motive (.leaf v))
    (struct : ∀ fields, (∀ f ∈ fields, motive f.value) → motive (.struct fields)) :
    ∀ v, motive v := by
  intro v
  induction v using FieldValue.rec with
  | leaf v => exact leaf v
  | struct fields ih => exact struct fields ih
  | nil => exact fun _ h => absurd h List.not_mem_nil
  | cons f fields ihf ih => exact List.forall_mem_cons.mpr ⟨ihf,ih⟩
  | mk name value ih => exact ih

abbrev Field (φ : Type*) := Named (FieldValue φ)

/-- Repetition is several entries of one name. -/
abbrev FieldList (φ : Type*) := List (Field φ)

end Binding
end Marketlib
