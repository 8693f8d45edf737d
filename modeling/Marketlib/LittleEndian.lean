import Mathlib.Algebra.Ring.Nat
import Mathlib.Data.List.GetD
import Mathlib.Data.UInt
import Mathlib.Tactic.Common
import Mathlib.Tactic.Ring

/-! Numbers as bytes, the lowest first: what is written in so many bytes is read back, wherever
it stands. -/

namespace Marketlib
namespace LittleEndian

def toBytes : ℕ → ℕ → List UInt8
  | 0,_ => []
  | k+1,n => UInt8.ofNat n :: toBytes k (n/256)

def ofBytes : List UInt8 → ℕ
  | [] => 0
  | b :: bs => b.toNat+256*ofBytes bs

@[simp] theorem length_toBytes (k n : ℕ) : (toBytes k n).length = k := by
  induction k generalizing n with
  | zero => rfl
  | succ k ih => rw [toBytes,List.length_cons,ih]

theorem ofBytes_toBytes {k n : ℕ} (h : n < 256^k) : ofBytes (toBytes k n) = n := by
  induction k generalizing n with
  | zero =>
    rw [pow_zero,Nat.lt_one_iff] at h
    rw [h]
    rfl
  | succ k ih =>
    have hdiv : n/256 < 256^k := by
      rw [pow_succ] at h
      omega
    have hlow : (UInt8.ofNat n).toNat = n % 256 := UInt8.toNat_ofNat' ..
    rw [toBytes,ofBytes,ih hdiv,hlow]
    omega

/-- `k` bytes from an offset on. -/
def field (bs : List UInt8) (offset k : ℕ) : List UInt8 := (bs.drop offset).take k

theorem field_append (pre rest : List UInt8) (mid : List UInt8) :
    field (pre ++ (mid ++ rest)) pre.length mid.length = mid := by
  rw [field,List.drop_left,List.take_left]

/-- A field behind others of known lengths. -/
theorem field_eq {bs pre mid rest : List UInt8} {offset k : ℕ} (h : bs = pre ++ (mid ++ rest))
    (hoffset : pre.length = offset) (hk : mid.length = k) : field bs offset k = mid := by
  rw [h,← hoffset,← hk,field_append]

/-- What was written is read back. -/
theorem ofBytes_field {bs pre rest : List UInt8} {offset k n : ℕ}
    (h : bs = pre ++ (toBytes k n ++ rest)) (hoffset : pre.length = offset) (hn : n < 256^k) :
    ofBytes (field bs offset k) = n := by
  rw [field_eq h hoffset (length_toBytes k n),ofBytes_toBytes hn]

/-- The bytes shifted into a word one after the other. -/
theorem foldr_word (bs : List UInt8) :
    bs.foldr (fun b word => word*256+b.toUInt64) 0 = UInt64.ofNat (ofBytes bs) := by
  induction bs with
  | nil => rfl
  | cons b bs ih =>
    have hb : b.toUInt64 = UInt64.ofNat b.toNat := by simp
    rw [List.foldr_cons,ih,ofBytes,UInt64.ofNat_add,UInt64.ofNat_mul,hb,add_comm,mul_comm]
    rfl

end LittleEndian
end Marketlib
