import Mathlib.Algebra.Group.Int.Defs
import Mathlib.Algebra.Group.Nat.Hom

/-!
# Integers of a fixed width

Values of the signed type of 32 bits and of the unsigned types of 32 and 64 bits, as integers
that are reduced where an operation or a conversion may leave the range.
-/

namespace K210Os.MachineInt

/-- The value of 32 bits with sign that `x` becomes. -/
def toInt32 (x : ℤ) : ℤ := Int.bmod x (2 ^ 32)

/-- The value of 32 bits without sign that `x` becomes. -/
def toUint32 (x : ℤ) : ℕ := (x % 2 ^ 32).toNat

/-- The value of 64 bits without sign that `x` becomes. -/
def toUint64 (x : ℤ) : ℕ := (x % 2 ^ 64).toNat

variable {x : ℤ} {i : ℕ}

theorem toInt32_of_range (hlo : -2 ^ 31 ≤ x) (hhi : x < 2 ^ 31) : toInt32 x = x := by
  apply Int.bmod_eq_of_le
  · omega
  · omega

theorem toInt32_of_lt (h : i < 2 ^ 31) : toInt32 i = i :=
  toInt32_of_range (by omega) (by omega)

/-- A value that passes the end of the range by less than its width comes back at its
beginning. -/
theorem toInt32_of_ge (hlo : 2 ^ 31 ≤ x) (hhi : x < 2 ^ 32) : toInt32 x = x - 2 ^ 32 := by
  have hshift : toInt32 x = toInt32 (x - 2 ^ 32) := by
    unfold toInt32
    exact (Int.sub_bmod_right x (2 ^ 32)).symm
  rw [hshift, toInt32_of_range (by omega) (by omega)]

theorem toUint32_of_lt (h : i < 2 ^ 32) : toUint32 i = i := by
  rw [toUint32, Int.emod_eq_of_lt (Int.natCast_nonneg i) (by omega), Int.toNat_natCast]

theorem toUint64_of_lt (h : i < 2 ^ 64) : toUint64 i = i := by
  rw [toUint64, Int.emod_eq_of_lt (Int.natCast_nonneg i) (by omega), Int.toNat_natCast]

/-- A value that is not far from `y` becomes `y` only if it is `y`. -/
theorem toUint64_eq_iff {y : ℤ} (hlo : y - 2 ^ 64 < x) (hhi : x < y + 2 ^ 64) (hy : y < 2 ^ 64) :
    (toUint64 x : ℤ) = y ↔ x = y ∧ 0 ≤ y := by
  unfold toUint64
  omega

end K210Os.MachineInt
