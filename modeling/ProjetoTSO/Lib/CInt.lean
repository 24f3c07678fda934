import Mathlib.Data.Int.Basic
import Mathlib.Tactic.Linarith

/-!
# C integer conversions

Fixed-width C integers are modelled by unbounded integers with the conversion
written where the program performs it.  `int32` and `int64` are the conversions
to the signed types `int` and `off_t`, `uint64` is the conversion to `size_t`.
Each conversion is the identity on the range of its type, and that is the only
fact most proofs need.
-/

namespace CInt

/-- Conversion to a 32-bit signed integer (two's complement). -/
def int32 (z : ℤ) : ℤ := Int.bmod z (2 ^ 32)

/-- Conversion to a 64-bit signed integer (two's complement). -/
def int64 (z : ℤ) : ℤ := Int.bmod z (2 ^ 64)

/-- Conversion to a 64-bit unsigned integer. -/
def uint64 (z : ℤ) : ℕ := (z % 2 ^ 64).toNat

theorem int32_eq {z : ℤ} (lower : -2 ^ 31 ≤ z) (upper : z < 2 ^ 31) : int32 z = z :=
  Int.bmod_eq_of_le_mul_two (by norm_num; omega) (by norm_num; omega)

theorem int32_range (z : ℤ) : -2 ^ 31 ≤ int32 z ∧ int32 z < 2 ^ 31 := by
  unfold int32
  rw [Int.bmod_def]
  omega

/-- Counting wraps around as a whole. -/
theorem int32_int32_add (z k : ℤ) : int32 (int32 z + k) = int32 (z + k) := by
  unfold int32
  simp only [Int.bmod_def]
  omega

theorem int64_eq {z : ℤ} (lower : -2 ^ 63 ≤ z) (upper : z < 2 ^ 63) : int64 z = z :=
  Int.bmod_eq_of_le_mul_two (by norm_num; omega) (by norm_num; omega)

theorem uint64_eq {z : ℤ} (lower : 0 ≤ z) (upper : z < 2 ^ 64) : (uint64 z : ℤ) = z := by
  unfold uint64
  rw [Int.emod_eq_of_lt lower upper]
  omega

theorem uint64_natCast {n : ℕ} (upper : n < 2 ^ 64) : uint64 n = n := by
  have := uint64_eq (z := (n : ℤ)) (by omega) (by exact_mod_cast upper)
  exact_mod_cast this

theorem uint64_lt (z : ℤ) : uint64 z < 2 ^ 64 := by
  have nonneg : 0 ≤ z % 2 ^ 64 := Int.emod_nonneg _ (by norm_num)
  have upper : z % 2 ^ 64 < 2 ^ 64 := Int.emod_lt_of_pos _ (by norm_num)
  unfold uint64
  omega

/-- Reading back the unsigned image of a signed value recovers the value: the
bits are the same. -/
theorem int64_uint64 {z : ℤ} (lower : -2 ^ 63 ≤ z) (upper : z < 2 ^ 63) :
    int64 (uint64 z) = z := by
  have nonneg : 0 ≤ z % 2 ^ 64 := Int.emod_nonneg _ (by norm_num)
  have cast : ((uint64 z : ℕ) : ℤ) = z % 2 ^ 64 := Int.toNat_of_nonneg nonneg
  have same : (z % 2 ^ 64).bmod (2 ^ 64) = z.bmod (2 ^ 64) := Int.emod_bmod z (2 ^ 64)
  calc int64 (uint64 z) = (z % 2 ^ 64).bmod (2 ^ 64) := by rw [int64, cast]
    _ = z.bmod (2 ^ 64) := same
    _ = z := int64_eq lower upper

/-- The `int` a 64-bit unsigned image of an `int` converts back to. -/
theorem int32_uint64 {z : ℤ} (lower : -2 ^ 31 ≤ z) (upper : z < 2 ^ 31) :
    int32 (uint64 z) = z := by
  have nonneg : 0 ≤ z % 2 ^ 64 := Int.emod_nonneg _ (by norm_num)
  have cast : ((uint64 z : ℕ) : ℤ) = z % 2 ^ 64 := Int.toNat_of_nonneg nonneg
  by_cases sign : 0 ≤ z
  · have small : z % 2 ^ 64 = z := Int.emod_eq_of_lt sign (by omega)
    rw [cast, small, int32_eq lower upper]
  · have shifted : z % 2 ^ 64 = z + 2 ^ 64 := by omega
    have wrap : (z + 2 ^ 64).bmod (2 ^ 32) = z.bmod (2 ^ 32) := by
      rw [Int.bmod_def, Int.bmod_def]
      omega
    rw [cast, shifted, int32, wrap]
    exact int32_eq lower upper

end CInt
