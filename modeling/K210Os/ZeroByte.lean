import Mathlib.Algebra.Order.Ring.Nat
import Mathlib.Tactic.Ring

/-!
# A zero byte in a word

The value `((x) - ONES) & ~(x) & HIGHS` of a word `x` of `n` bytes is 0 exactly if no byte of the
word is. A byte that is not 0 borrows nothing from the byte above it, so that up to the first
zero byte each byte is decremented alone.
-/

namespace K210Os.ZeroByte

/-- The word of `n` bytes that are all `b`. -/
def repeated (b : ℕ) : ℕ → ℕ
  | 0 => 0
  | n + 1 => b + 256 * repeated b n

/-- `HASZERO`, on words of `n` bytes. -/
def hasZero (n x : ℕ) : ℕ :=
  ((x + (256 ^ n - repeated 1 n)) % 256 ^ n &&& (256 ^ n - 1 - x)) &&& repeated 128 n

variable {a b c n p q x : ℕ}

theorem repeated_lt (hb : b < 256) (n : ℕ) : repeated b n < 256 ^ n := by
  induction n with
  | zero => simp [repeated]
  | succ n ih =>
      rw [repeated, pow_succ]
      omega

/-- The lowest byte and the bytes above it go their own ways. -/
theorem and_split (ha : a < 256) (hb : b < 256) :
    (a + 256 * p) &&& (b + 256 * q) = (a &&& b) + 256 * (p &&& q) := by
  have hand : a &&& b < 2 ^ 8 := Nat.and_lt_two_pow a hb
  have hlow : ((a + 256 * p) &&& (b + 256 * q)) % 2 ^ 8 = a &&& b := by
    rw [Nat.and_mod_two_pow]
    congr 1 <;> omega
  have hhigh : ((a + 256 * p) &&& (b + 256 * q)) / 2 ^ 8 = p &&& q := by
    rw [Nat.and_div_two_pow]
    congr 1 <;> omega
  omega

/-- The decrement of a byte sets its highest bit only where the byte had it. -/
theorem and_high_bit (hb : b < 256) : (b - 1) &&& (255 - b) &&& 128 = 0 := by
  have hsmall : ∀ a < 128, a &&& 128 = 0 := fun a ha => by
    refine Nat.eq_of_testBit_eq fun i => ?_
    rw [Nat.testBit_and, show 128 = 2 ^ 7 from rfl, Nat.testBit_two_pow, Nat.zero_testBit]
    by_cases hi : 7 = i
    · rw [← hi, Nat.testBit_lt_two_pow ha, Bool.false_and]
    · rw [decide_eq_false hi, Bool.and_false]
  rcases Nat.lt_or_ge b 128 with hlow | hhigh
  · rw [Nat.and_comm (b - 1), Nat.and_assoc, hsmall (b - 1) (by omega), Nat.and_zero]
  · rw [Nat.and_assoc, hsmall (255 - b) (by omega), Nat.and_zero]

theorem hasZero_zero_byte (hx : x < 256 ^ n) : hasZero (n + 1) (256 * x) ≠ 0 := by
  have hones := repeated_lt (show 1 < 256 by decide) n
  have hpow : 256 ^ (n + 1) = 256 * 256 ^ n := by ring
  obtain ⟨p, hp⟩ : ∃ p, (256 * x + (256 ^ (n + 1) - repeated 1 (n + 1))) % 256 ^ (n + 1) =
      255 + 256 * p := by
    refine ⟨((256 * x + (256 ^ (n + 1) - repeated 1 (n + 1))) % 256 ^ (n + 1)) / 256, ?_⟩
    have hlow : (256 * x + (256 ^ (n + 1) - repeated 1 (n + 1))) % 256 ^ (n + 1) % 256 = 255 := by
      rw [hpow, Nat.mod_mul_right_mod, repeated]
      omega
    omega
  have hnot : 256 ^ (n + 1) - 1 - 256 * x = 255 + 256 * (256 ^ n - 1 - x) := by omega
  rw [hasZero, hp, hnot, repeated, and_split (by decide) (by decide),
    and_split (by decide) (by decide)]
  have : 255 &&& 255 &&& 128 = 128 := by decide
  omega

theorem hasZero_other_byte (hx : x < 256 ^ n) (hb : b < 256) (hne : b ≠ 0) :
    hasZero (n + 1) (b + 256 * x) = 256 * hasZero n x := by
  have hones := repeated_lt (show 1 < 256 by decide) n
  have hpow : 256 ^ (n + 1) = 256 * 256 ^ n := by ring
  have hsub : (b + 256 * x + (256 ^ (n + 1) - repeated 1 (n + 1))) % 256 ^ (n + 1) =
      (b - 1) + 256 * ((x + (256 ^ n - repeated 1 n)) % 256 ^ n) := by
    have hsum : b + 256 * x + (256 ^ (n + 1) - repeated 1 (n + 1)) =
        (b - 1) + 256 * (x + (256 ^ n - repeated 1 n)) := by
      rw [repeated]
      omega
    generalize x + (256 ^ n - repeated 1 n) = y at hsum
    have hlow : (b - 1 + 256 * y) % 256 = b - 1 := by omega
    have hhigh : (b - 1 + 256 * y) / 256 = y := by omega
    rw [hsum, hpow, Nat.mod_mul, hlow, hhigh]
  have hnot : 256 ^ (n + 1) - 1 - (b + 256 * x) = (255 - b) + 256 * (256 ^ n - 1 - x) := by omega
  rw [hasZero, hsub, hnot, repeated, and_split (by omega) (by omega),
    and_split (Nat.lt_of_le_of_lt Nat.and_le_left (by omega)) (by decide), and_high_bit hb, hasZero,
    Nat.zero_add]

/-- The value is 0 exactly if no byte of the word is. -/
theorem hasZero_eq_zero_iff (hx : x < 256 ^ n) :
    hasZero n x = 0 ↔ ∀ i < n, x / 256 ^ i % 256 ≠ 0 := by
  induction n generalizing x with
  | zero => simp [hasZero, Nat.mod_one]
  | succ n ih =>
      have hhigh : x / 256 < 256 ^ n := by
        rw [pow_succ] at hx
        omega
      have hsplit : x % 256 + 256 * (x / 256) = x := by omega
      have hlater : ∀ i, x / 256 ^ (i + 1) = x / 256 / 256 ^ i := fun i => by
        rw [pow_succ', Nat.div_div_eq_div_mul]
      by_cases hzero : x % 256 = 0
      · rw [hzero, Nat.zero_add] at hsplit
        refine ⟨fun h => absurd h (hsplit ▸ hasZero_zero_byte hhigh), fun h => ?_⟩
        exact absurd (by simpa using hzero) (h 0 (Nat.succ_pos n))
      · rw [← hsplit, hasZero_other_byte hhigh (Nat.mod_lt x (by decide)) hzero, hsplit,
          Nat.mul_eq_zero, or_iff_right (by decide), ih hhigh]
        refine ⟨fun h i hi => ?_, fun h i hi => ?_⟩
        · cases i with
          | zero => simpa using hzero
          | succ i =>
              rw [hlater]
              exact h i (Nat.lt_of_succ_lt_succ hi)
        · rw [← hlater]
          exact h (i + 1) (Nat.succ_lt_succ hi)

end K210Os.ZeroByte
