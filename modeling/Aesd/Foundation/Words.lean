import Mathlib.Data.Int.Basic
import Mathlib.Tactic.NormNum

/-!
# Sixty-four bit sizes and offsets

A C program that mixes `size_t` and `loff_t` adds an unsigned word to a signed one: the signed
operand is converted, the sum wraps, and the result is converted back. On `UInt64` and `Int64`
this is `(x.toUInt64 + n).toInt64`. The lemmas below give the value of such an expression, first
modulo `2 ^ 64` and then, when no wrap can happen, as plain arithmetic.

The side conditions are inequalities between integers, which the callers get from a bound on the
sizes that are added up; no lemma here asks for more than that the result fits.
-/

namespace Aesd

/-! ## Unsigned words -/

theorem toNat_add_of_lt {a b : UInt64} (h : a.toNat + b.toNat < 2 ^ 64) :
    (a + b).toNat = a.toNat + b.toNat := by
  rw [UInt64.toNat_add, Nat.mod_eq_of_lt h]

theorem toNat_sub_of_le {a b : UInt64} (h : b.toNat ≤ a.toNat) :
    (a - b).toNat = a.toNat - b.toNat :=
  UInt64.toNat_sub_of_le a b (UInt64.le_iff_toNat_le.mpr h)

theorem toNat_ofNat_of_lt {n : ℕ} (h : n < 2 ^ 64) : (UInt64.ofNat n).toNat = n :=
  UInt64.toNat_ofNat_of_lt' h

/-! ## Between the two kinds -/

theorem toInt_toInt64 (n : UInt64) : n.toInt64.toInt = (n.toNat : ℤ).bmod (2 ^ 64) := by
  rw [← Int64.toInt_toBitVec, show n.toInt64.toBitVec = n.toBitVec from rfl,
    BitVec.toInt_eq_toNat_bmod]
  rfl

theorem toInt_toInt64_of_lt {n : UInt64} (h : n.toNat < 2 ^ 63) :
    n.toInt64.toInt = n.toNat := by
  rw [toInt_toInt64]
  exact Int.bmod_eq_of_le (by omega) (by omega)

theorem toNat_toUInt64_of_nonneg {x : Int64} (h : 0 ≤ x.toInt) :
    x.toUInt64.toNat = x.toInt.toNat :=
  Int64.toNat_toUInt64_of_le (Int64.le_iff_toInt_le.mpr (by simpa using h))

theorem le_toNat_toUInt64_of_neg {x : Int64} (h : x.toInt < 0) : 2 ^ 63 ≤ x.toUInt64.toNat := by
  rw [← Int64.toInt_toBitVec, BitVec.toInt_neg_iff] at h
  rw [show x.toUInt64.toNat = x.toBitVec.toNat from rfl]
  omega

/-! ## Mixed sums and differences -/

theorem toInt_add_size (x : Int64) (n : UInt64) :
    (x.toUInt64 + n).toInt64.toInt = (x.toInt + n.toNat).bmod (2 ^ 64) := by
  rw [show (x.toUInt64 + n).toInt64 = x + n.toInt64 from rfl, Int64.toInt_add, toInt_toInt64,
    Int.add_bmod_bmod]

theorem toInt_sub_size (x : Int64) (n : UInt64) :
    (x.toUInt64 - n).toInt64.toInt = (x.toInt - n.toNat).bmod (2 ^ 64) := by
  rw [show (x.toUInt64 - n).toInt64 = x - n.toInt64 from rfl, Int64.toInt_sub, toInt_toInt64,
    Int.sub_bmod_bmod]

theorem toInt_add_size_of_lt {x : Int64} {n : UInt64} (h : x.toInt + n.toNat < 2 ^ 63) :
    (x.toUInt64 + n).toInt64.toInt = x.toInt + n.toNat := by
  have hx := x.le_toInt
  rw [toInt_add_size]
  exact Int.bmod_eq_of_le (by omega) (by omega)

theorem toInt_sub_size_of_le {x : Int64} {n : UInt64} (h : -2 ^ 63 ≤ x.toInt - n.toNat) :
    (x.toUInt64 - n).toInt64.toInt = x.toInt - n.toNat := by
  have hx := x.toInt_lt
  rw [toInt_sub_size]
  exact Int.bmod_eq_of_le (by omega) (by omega)

theorem toInt_add_of_bounds {x y : Int64} (hlo : -2 ^ 63 ≤ x.toInt + y.toInt)
    (hhi : x.toInt + y.toInt < 2 ^ 63) : (x + y).toInt = x.toInt + y.toInt := by
  rw [Int64.toInt_add]
  exact Int.bmod_eq_of_le (by omega) (by omega)

end Aesd
