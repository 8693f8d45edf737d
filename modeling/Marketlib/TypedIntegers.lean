import Marketlib.KeyOrder
import Marketlib.Outcome

/-! A number of TOML against the same number as text. The text is parsed and checked against
the range of the target, the number is cast. -/

namespace Marketlib
namespace Binding

open Outcome

/-! ### Reading back what `std::to_string` writes -/

theorem ofDigits_eq_ofDigitChars {s : Text} (hne : s ≠ []) (hdigit : ∀ c ∈ s, c.isDigit = true) :
    ofDigits s = some (Nat.ofDigitChars 10 s 0) := by
  rw [ofDigits,if_neg hne]
  generalize 0 = n
  clear hne
  induction s generalizing n with
  | nil => rw [List.foldlM_nil,Nat.ofDigitChars_nil]; rfl
  | cons c s ih =>
    rw [List.forall_mem_cons] at hdigit
    rw [List.foldlM_cons,if_pos hdigit.1,Nat.ofDigitChars_cons]
    exact ih hdigit.2 _

theorem isDigit_of_mem_toDigits {n : ℕ} {c : Char} (hc : c ∈ Nat.toDigits 10 n) :
    c.isDigit = true := Nat.isDigit_of_mem_toDigits (by decide) (by decide) hc

theorem ofDigits_toDigits (n : ℕ) : ofDigits (Nat.toDigits 10 n) = some n := by
  rw [ofDigits_eq_ofDigitChars Nat.toDigits_ne_nil fun _ => isDigit_of_mem_toDigits,
    Nat.ofDigitChars_ten_toDigits]

/-- A text that begins with a sign is no number without it. -/
theorem ofDigits_minus (s : Text) : ofDigits ( '-' :: s) = none := by
  rw [ofDigits,if_neg (List.cons_ne_nil _ _),List.foldlM_cons]
  rfl

theorem toDigits_head_ne_minus (n : ℕ) (s : Text) : Nat.toDigits 10 n ≠ '-' :: s := by
  intro h
  have hdigit := isDigit_of_mem_toDigits (h ▸ List.mem_cons_self : '-' ∈ Nat.toDigits 10 n)
  exact absurd hdigit (by decide)

theorem fits_unsigned_neg (bits : ℕ) {i : ℤ} (hi : i < 0) : fits false bits i = false := by
  simp [fits,hi]

/-- The sign is looked for only by the signed types, and in front. -/
theorem integralFromChars_unsigned {signed : Bool} {s : Text}
    (h : ∀ digits, s = '-' :: digits → signed = false) (bits : ℕ) :
    integralFromChars signed bits s =
      ((ofDigits s).map (Nat.cast : ℕ → ℤ)).filter (fits signed bits) := by
  unfold integralFromChars
  split
  · cases h _ rfl
  · rfl

/-- An integral type reads back exactly the numbers that it has. -/
theorem integralFromChars_decimal (signed : Bool) (bits : ℕ) (i : ℤ) :
    integralFromChars signed bits (decimal i) = if fits signed bits i then some i else none := by
  by_cases hneg : i < 0
  · rw [decimal,if_pos hneg]
    cases signed with
    | false =>
      rw [integralFromChars_unsigned fun _ _ => rfl,ofDigits_minus,fits_unsigned_neg bits hneg]
      rfl
    | true =>
      have hvalue : -(i.natAbs : ℤ) = i := by omega
      simp only [integralFromChars,ofDigits_toDigits]
      change (some (-(i.natAbs : ℤ))).filter (fits true bits) = _
      rw [hvalue]
      rfl
  · have hvalue : (i.natAbs : ℤ) = i := by omega
    rw [decimal,if_neg hneg,
      integralFromChars_unsigned fun _ h => absurd h (toDigits_head_ne_minus _ _),
      ofDigits_toDigits,Option.map_some,hvalue]
    rfl

theorem mem_decimal {i : ℤ} {c : Char} (hc : c ∈ decimal i) : c = '-' ∨ c.isDigit = true := by
  unfold decimal at hc
  split_ifs at hc
  · exact (List.mem_cons.mp hc).imp_right isDigit_of_mem_toDigits
  · exact .inr (isDigit_of_mem_toDigits hc)

theorem trim_eq_self {s : Text} (h : ∀ c ∈ s, isSpace c = false) : trim s = s := by
  have hspace : ∀ c ∈ s, ¬isSpace c = true := fun c hc => by rw [h c hc]; exact Bool.false_ne_true
  rw [trim,List.dropWhile_eq_self_iff.mpr fun hpos => hspace _ (List.getElem_mem hpos),
    List.rdropWhile_eq_self_iff]
  exact fun hne => hspace _ (List.getLast_mem hne)

theorem not_isSpace_of_isDigit {c : Char} (h : c.isDigit = true) : isSpace c = false := by
  rw [isSpace,decide_eq_false_iff_not]
  intro hmem
  simp only [List.mem_cons,List.not_mem_nil,or_false] at hmem
  rcases hmem with rfl | rfl | rfl | rfl | rfl | rfl <;> exact absurd h (by decide)

theorem trim_decimal (i : ℤ) : trim (decimal i) = decimal i := by
  refine trim_eq_self fun c hc => ?_
  rcases mem_decimal hc with rfl | hdigit
  · decide
  · exact not_isSpace_of_isDigit hdigit

theorem toLower_of_isDigit {c : Char} (h : c.isDigit = true) : c.toLower = c := by
  refine dif_neg fun hupper => ?_
  have hle : c.val ≤ '9'.val := by
    simp only [Char.isDigit,Bool.and_eq_true,decide_eq_true_eq] at h
    exact h.2
  exact absurd (UInt32.le_trans hupper.1 hle) (by decide)

theorem toLower_decimal (i : ℤ) : toLower (decimal i) = decimal i := by
  refine List.map_congr_left (fun c hc => ?_) |>.trans (List.map_id _)
  rcases mem_decimal hc with rfl | hdigit
  · decide
  · exact toLower_of_isDigit hdigit

/-! ### Casting -/

/-- Nothing is lost by a cast to a type that has the value. -/
theorem castIntegral_of_fits {signed : Bool} {bits : ℕ} (hbits : 0 < bits) {i : ℤ}
    (h : fits signed bits i = true) : castIntegral signed bits i = i := by
  obtain ⟨n,rfl⟩ := Nat.exists_eq_succ_of_ne_zero hbits.ne'
  cases signed with
  | false =>
    simp only [fits,Bool.false_eq_true,if_false,Bool.and_eq_true,decide_eq_true_eq] at h
    exact Int.emod_eq_of_lt h.1 h.2
  | true =>
    simp only [fits,if_true,Bool.and_eq_true,decide_eq_true_eq,Nat.succ_sub_one] at h
    have hpow : ((2^(n+1) : ℕ) : ℤ) = 2^n*2 := by push_cast; exact pow_succ 2 n
    refine Int.bmod_eq_of_le_mul_two ?_ ?_
    · rw [hpow]; omega
    · rw [hpow]; omega

/-! ### The two ways to bind a number -/

section Leaf

variable {σ κ φ : Type} (P : Program σ κ φ)

/-- Binding the number as TOML has it and as text fails alike, or gives the same value. -/
def BindsAlike (t : LeafType κ φ) (n : Int64) : Prop :=
  ∀ out name, (parseLeafValue P t (.integer n) out name).toOption =
    (parseLeafValue P t (.text (decimal n.toInt)) out name).toOption

theorem parseLeafValue_decimal_integral (signed : Bool) (bits : ℕ) (i : ℤ) (out : Value φ)
    (name : Text) :
    (parseLeafValue P (.integral signed bits) (.text (decimal i)) out name).toOption =
      if fits signed bits i then some (.scalar (.integer i)) else none := by
  simp only [parseLeafValue,parseLeafText,trim_decimal,integralFromChars_decimal]
  split_ifs <;> rfl

theorem fits_int64 (n : Int64) : fits true 64 n.toInt = true := by
  have := n.le_toInt
  have := n.toInt_lt
  simp only [fits,if_true,Bool.and_eq_true,decide_eq_true_eq]
  omega

/-- What a text means that `std::to_string` may have written. -/
theorem integralFromChars_of_decimal {n : Int64} {s : Text} (h : decimal n.toInt = s) :
    integralFromChars true 64 s = some n.toInt := by
  rw [← h,integralFromChars_decimal,if_pos (fits_int64 n)]

theorem decimal_inj {n m : Int64} (h : decimal n.toInt = decimal m.toInt) : n = m := by
  have hread := integralFromChars_of_decimal h
  rw [integralFromChars_of_decimal rfl] at hread
  exact Int64.toInt_inj.mp (Option.some.inj hread).symm

theorem decimal_mem_truths (n : Int64) :
    decimal n.toInt ∈ [['t','r','u','e'],['y'],['1']] ↔ n = 1 := by
  have hone : decimal 1 = ['1'] := rfl
  refine ⟨fun h => ?_,fun h => by simp [h,hone]⟩
  simp only [List.mem_cons,List.not_mem_nil,or_false] at h
  rcases h with h | h | h
  · cases integralFromChars_of_decimal h
  · cases integralFromChars_of_decimal h
  · exact decimal_inj h

theorem decimal_mem_falsehoods (n : Int64) :
    decimal n.toInt ∈ [['f','a','l','s','e'],['n'],['0']] ↔ n = 0 := by
  have hzero : decimal 0 = ['0'] := rfl
  refine ⟨fun h => ?_,fun h => by simp [h,hzero]⟩
  simp only [List.mem_cons,List.not_mem_nil,or_false] at h
  rcases h with h | h | h
  · cases integralFromChars_of_decimal h
  · cases integralFromChars_of_decimal h
  · exact decimal_inj h

theorem parseLeafValue_decimal_boolean (n : Int64) (out : Value φ) (name : Text) :
    (parseLeafValue P .boolean (.text (decimal n.toInt)) out name).toOption =
      if n = 1 then some (.scalar (.boolean true))
      else if n = 0 then some (.scalar (.boolean false)) else none := by
  simp only [parseLeafValue,parseLeafText,trim_decimal,toLower_decimal,decimal_mem_truths,
    decimal_mem_falsehoods]
  split_ifs <;> rfl

/-- A 64-bit number binds alike in both forms if and only if the target has it: a boolean the
numbers zero and one, an integral type those in its range. -/
theorem bindsAlike_iff (n : Int64) : (BindsAlike P .boolean n ↔ n = 0 ∨ n = 1) ∧
    ∀ signed bits, 0 < bits →
      (BindsAlike P (.integral signed bits) n ↔ fits signed bits n.toInt = true) := by
  refine ⟨?_,fun signed bits hbits => ?_⟩
  · simp only [BindsAlike,parseLeafValue_decimal_boolean]
    constructor
    · intro h
      by_contra hother
      have := h (.scalar (.boolean false)) []
      push Not at hother
      rw [if_neg hother.2,if_neg hother.1] at this
      cases this
    · rintro (rfl | rfl) out name <;> rfl
  · simp only [BindsAlike,parseLeafValue_decimal_integral]
    constructor
    · intro h
      by_contra hwide
      have := h (.scalar (.boolean false)) []
      rw [if_neg hwide] at this
      cases this
    · intro hfits out name
      rw [if_pos hfits]
      simp only [parseLeafValue,assignTypedInteger,castIntegral_of_fits hbits hfits]
      rfl

end Leaf

theorem bindsAlike_iff_port :
    (BindsAlike serverProgram .boolean 8080 ↔ (8080 : Int64) = 0 ∨ (8080 : Int64) = 1) ∧
      (BindsAlike serverProgram (.integral false 16) 8080 ↔ fits false 16 8080 = true) := by
  obtain ⟨hboolean,hintegral⟩ := bindsAlike_iff serverProgram 8080
  exact ⟨hboolean,hintegral false 16 (by decide)⟩

/-- A port too large for 16 bits is refused as text; as a number, another port is bound. -/
theorem wide_port_is_cast :
    (parseLeafValue serverProgram (.integral false 16) (.integer 70000) (.scalar (.integer 0))
      ['p','o','r','t']).toOption = some (.scalar (.integer 4464)) ∧
    (parseLeafValue serverProgram (.integral false 16) (.text (decimal (70000 : Int64).toInt))
      (.scalar (.integer 0)) ['p','o','r','t']).toOption = none ∧
    ¬BindsAlike serverProgram (.integral false 16) 70000 := by
  have htyped : (parseLeafValue serverProgram (.integral false 16) (.integer 70000)
      (.scalar (.integer 0)) ['p','o','r','t']).toOption = some (.scalar (.integer 4464)) := rfl
  have htext := parseLeafValue_decimal_integral serverProgram false 16 70000
    (.scalar (.integer 0)) ['p','o','r','t']
  rw [if_neg (by decide)] at htext
  refine ⟨htyped,htext,fun h => ?_⟩
  exact absurd (htyped.symm.trans ((h _ _).trans htext)) nofun

end Binding
end Marketlib
