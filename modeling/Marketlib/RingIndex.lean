import Mathlib.Data.UInt
import Mathlib.Tactic.Common

/-! Machine words as ring positions: the slot of a position in a ring whose size is a
power of two, and the signed difference of two positions. -/

namespace Marketlib

/-- A ring size accepted by the queues: at least two, a power of two, and so small that
an array of that many cache lines can be addressed. -/
structure Capacity where
  n : ℕ
  two_le : 2 ≤ n
  pow_two : n &&& (n-1) = 0
  addressable : 64*n < 2^64

namespace Capacity

/-- The smallest ring. -/
def two : Capacity := ⟨2,by decide,by decide,by decide⟩

variable (cap : Capacity)

theorem pos : 0 < cap.n := lt_of_lt_of_le Nat.two_pos cap.two_le

theorem and_mask (x : ℕ) : x &&& (cap.n-1) = x % cap.n := by
  obtain ⟨k,hk⟩ := (Nat.and_sub_one_eq_zero_iff_isPowerOfTwo cap.pos.ne').mp cap.pow_two
  rw [hk,Nat.and_two_pow_sub_one_eq_mod]

theorem dvd_word : cap.n ∣ 2^64 := by
  obtain ⟨k,hk⟩ := (Nat.and_sub_one_eq_zero_iff_isPowerOfTwo cap.pos.ne').mp cap.pow_two
  rw [hk]
  have hlt : 2^k < 2^64 := by
    have := cap.addressable
    omega
  exact Nat.pow_dvd_pow 2 (Nat.pow_lt_pow_iff_right (by omega) |>.mp hlt).le

def mask : UInt64 := UInt64.ofNat cap.n-1

theorem mask_toNat : cap.mask.toNat = cap.n-1 := by
  have h := cap.addressable
  have h' := cap.pos
  have hn : (UInt64.ofNat cap.n).toNat = cap.n :=
    UInt64.toNat_ofNat_of_lt' (show cap.n < 2^64 by omega)
  rw [mask,UInt64.toNat_sub_of_le _ _ (UInt64.le_iff_toNat_le.mpr (by rw [hn]; exact h')),hn]
  rfl

theorem and_mask_lt (x : UInt64) : (x &&& cap.mask).toNat < cap.n := by
  rw [UInt64.toNat_and,mask_toNat,and_mask]
  exact Nat.mod_lt _ cap.pos

/-- `pos & kMask`. -/
def slot (x : UInt64) : Fin cap.n := ⟨(x &&& cap.mask).toNat,cap.and_mask_lt x⟩

theorem slot_val (x : UInt64) : (cap.slot x).val = x.toNat % cap.n := by
  change (x &&& cap.mask).toNat = _
  rw [UInt64.toNat_and,mask_toNat,and_mask]

/-- The slot of a position that is counted without wrapping. -/
theorem slot_ofNat (p : ℕ) : (cap.slot (UInt64.ofNat p)).val = p % cap.n := by
  rw [slot_val,UInt64.toNat_ofNat',Nat.mod_mod_of_dvd _ cap.dvd_word]

end Capacity

/-- Two positions less than one round apart are in different slots. -/
theorem mod_ne_of_near {a b n : ℕ} (h : a < b) (h' : b < a+n) : a % n ≠ b % n := by
  intro heq
  have hzero := Nat.sub_mod_eq_zero_of_mod_eq heq.symm
  rw [Nat.mod_eq_of_lt (by omega)] at hzero
  omega

/-- `static_cast<ptrdiff_t>(a) - static_cast<ptrdiff_t>(b)`. -/
def signedDiff (a b : UInt64) : Int64 := a.toInt64-b.toInt64

theorem signedDiff_toInt (a b : ℕ) :
    (signedDiff (UInt64.ofNat a) (UInt64.ofNat b)).toInt = ((a : ℤ)-b).bmod (2^64) := by
  rw [signedDiff,UInt64.toInt64_ofNat',UInt64.toInt64_ofNat',Int64.toInt_sub,Int64.toInt_ofNat',
    Int64.toInt_ofNat',Int64.size,← Int.sub_bmod]
  rfl

theorem signedDiff_near {a b : ℕ} (h : b ≤ a+2^63) (h' : a < b+2^63) :
    (signedDiff (UInt64.ofNat a) (UInt64.ofNat b)).toInt = (a : ℤ)-b := by
  rw [signedDiff_toInt]
  exact Int.bmod_eq_of_le (by omega) (by omega)

theorem signedDiff_eq_zero {a b : UInt64} : signedDiff a b = 0 ↔ a = b := by
  rw [signedDiff,← UInt64.toInt64_sub]
  constructor
  · intro h
    exact sub_eq_zero.mp (congrArg Int64.toUInt64 h)
  · rintro rfl
    rw [sub_self]
    rfl

/-! ### Signed cursors -/

theorem toInt_add_one {x : Int64} (h : x.toInt < 2^63-1) : (x+1).toInt = x.toInt+1 := by
  have hx := x.le_toInt
  rw [Int64.toInt_add,Int64.toInt_one]
  exact Int.bmod_eq_of_le (by omega) (by omega)

theorem toInt_sub_near {x y : Int64} (h : -2^63 ≤ x.toInt-y.toInt)
    (h' : x.toInt-y.toInt < 2^63) : (x-y).toInt = x.toInt-y.toInt := by
  rw [Int64.toInt_sub]
  exact Int.bmod_eq_of_le (by omega) (by omega)

namespace Capacity

variable (cap : Capacity)

/-- `N` as a signed word. -/
def signed : Int64 := Int64.ofNat cap.n

theorem signed_toInt : cap.signed.toInt = cap.n :=
  Int64.toInt_ofNat_of_lt (by have := cap.addressable; omega)

/-- `x & kMask` of a signed cursor. -/
def slotOf (x : Int64) : Fin cap.n := cap.slot x.toUInt64

theorem slotOf_val {x : Int64} {k : ℕ} (h : x.toInt = k) : (cap.slotOf x).val = k % cap.n := by
  have hx := x.toInt_lt
  have hword : x.toUInt64 = UInt64.ofNat k := by
    have heq : x = Int64.ofNat k :=
      Int64.toInt_inj.mp (by rw [h,Int64.toInt_ofNat_of_lt (by omega)])
    rw [heq]
    rfl
  rw [slotOf,hword,slot_ofNat]

end Capacity

end Marketlib
