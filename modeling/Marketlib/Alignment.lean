import Mathlib.Algebra.Order.Floor.Div
import Mathlib.Data.Nat.Bitwise
import Mathlib.Data.UInt
import Mathlib.Tactic.Common

/-! Rounding a machine word up to a power of two with a mask, and the multiple it stands for. -/

namespace Marketlib

/-- A power of two as a machine word. -/
structure Alignment where
  val : UInt64
  exp : ℕ
  val_eq : val.toNat = 2^exp

namespace Alignment

variable (a : Alignment)

def size : ℕ := a.val.toNat

theorem size_pos : 0 < a.size := by
  rw [size,a.val_eq]
  exact Nat.two_pow_pos _

theorem exp_lt : a.exp < 64 := by
  have hlt := a.val.toNat_lt
  rw [a.val_eq] at hlt
  exact (Nat.pow_lt_pow_iff_right (by decide)).mp hlt

theorem dvd_word : a.size ∣ 2^64 := by
  rw [size,a.val_eq]
  exact Nat.pow_dvd_pow 2 a.exp_lt.le

/-- The first multiple that is no smaller than `x`. -/
def ceil (x : ℕ) : ℕ := a.size*(x ⌈/⌉ a.size)

theorem dvd_ceil (x : ℕ) : a.size ∣ a.ceil x := Nat.dvd_mul_right ..

theorem le_ceil (x : ℕ) : x ≤ a.ceil x := (ceilDiv_le_iff_le_mul a.size_pos).mp le_rfl

theorem ceil_le_iff {x y : ℕ} (h : a.size ∣ y) : a.ceil x ≤ y ↔ x ≤ y := by
  obtain ⟨k,rfl⟩ := h
  rw [ceil,Nat.mul_le_mul_left_iff a.size_pos,ceilDiv_le_iff_le_mul a.size_pos]

theorem ceil_le_word (x : UInt64) : a.ceil x.toNat ≤ 2^64 :=
  (a.ceil_le_iff a.dvd_word).mpr x.toNat_lt.le

/-- `(x + align - 1) & ~(align - 1)`. -/
def alignUp (x : UInt64) : UInt64 := (x+a.val-1) &&& ~~~(a.val-1)

theorem mask_toNat : (a.val-1).toNat = 2^a.exp-1 := by
  have hpos := Nat.two_pow_pos a.exp
  rw [UInt64.toNat_sub_of_le _ _ (UInt64.le_iff_toNat_le.mpr (by rw [a.val_eq]; exact hpos)),
    a.val_eq]
  rfl

end Alignment

/-- Clearing the low bits of a word. -/
theorem and_not_toNat {x y : UInt64} {e : ℕ} (he : e < 64) (hy : y.toNat = 2^e-1) :
    (x &&& ~~~y).toNat = x.toNat/2^e*2^e := by
  have hpos := Nat.two_pow_pos e
  have hlt := Nat.pow_lt_pow_right (a := 2) (by decide) he
  have hnot : (~~~y).toNat = 2^64-(2^e-1+1) := by
    rw [UInt64.toNat_not,hy]
    have : UInt64.size = 2^64 := rfl
    omega
  apply Nat.eq_of_testBit_eq
  intro i
  rw [UInt64.toNat_and,Nat.testBit_and,hnot,Nat.testBit_two_pow_sub_succ (by omega),
    Nat.testBit_two_pow_sub_one,Nat.testBit_mul_two_pow,Nat.testBit_div_two_pow]
  rcases lt_or_ge i e with hi | hi
  · simp [hi]
  · rcases lt_or_ge i 64 with hi' | hi'
    · simp [hi,hi',Nat.sub_add_cancel hi]
    · have hbit : x.toNat.testBit i = false :=
        Nat.testBit_eq_false_of_lt (x.toNat_lt.trans_le (Nat.pow_le_pow_right (by decide) hi'))
      simp [hbit,Nat.sub_add_cancel hi]

theorem mod_div_mul {m k y : ℕ} : y % (k*m)/m*m = m*(y/m) % (k*m) := by
  rw [Nat.mod_mul_left_div_self,Nat.mul_comm m,Nat.mul_mod_mul_right]

/-- The rounding wraps only when the multiple is the first that no word holds. -/
theorem Alignment.alignUp_toNat (a : Alignment) (x : UInt64) :
    (a.alignUp x).toNat = a.ceil x.toNat % 2^64 := by
  have hpos := a.size_pos
  have hsum : (x+a.val-1).toNat = (x.toNat+a.size-1) % 2^64 := by
    have hsub : x+a.val-1 = x+(a.val-1) := add_sub_assoc ..
    rw [hsub,UInt64.toNat_add,a.mask_toNat,← a.val_eq,Nat.add_sub_assoc hpos]
    rfl
  obtain ⟨k,hk⟩ := a.dvd_word
  rw [alignUp,and_not_toNat a.exp_lt a.mask_toNat,hsum,← a.val_eq,Alignment.ceil,
    Nat.ceilDiv_eq_add_pred_div]
  change (x.toNat+a.size-1) % 2^64/a.size*a.size = _
  rw [hk,Nat.mul_comm a.size k,mod_div_mul]

end Marketlib
