import Mathlib.Data.Nat.Notation
import Mathlib.Tactic.Ring

/-!
# Little-endian values in byte memory

Memory is a function from addresses to bytes. `load` reads a value of `n` bytes,
least significant byte first, and `store` writes one.
-/

namespace K210Os.LittleEndian

def load (m : ℕ → BitVec 8) (a : ℕ) : ℕ → ℕ
  | 0 => 0
  | n + 1 => (m a).toNat + 256 * load m (a + 1) n

def store (m : ℕ → BitVec 8) (a n v : ℕ) : ℕ → BitVec 8 :=
  fun x => if a ≤ x ∧ x < a + n then BitVec.ofNat 8 (v / 256 ^ (x - a)) else m x

attribute [local simp] load

variable {m m' : ℕ → BitVec 8} {a b n k v : ℕ}

theorem load_congr (h : ∀ x, a ≤ x → x < a + n → m x = m' x) : load m a n = load m' a n := by
  induction n generalizing a with
  | zero => rfl
  | succ n ih =>
      simp only [load]
      rw [h a le_rfl (by omega), ih fun x hlo hhi => h x (by omega) (by omega)]

/-- A load from a part of memory. -/
theorem load_shift (m : ℕ → BitVec 8) (b a n : ℕ) :
    load (fun k => m (b + k)) a n = load m (b + a) n := by
  induction n generalizing a with
  | zero => rfl
  | succ n ih =>
      simp only [load, ih]
      rfl

theorem load_lt (m : ℕ → BitVec 8) (a n : ℕ) : load m a n < 256 ^ n := by
  induction n generalizing a with
  | zero => simp [load]
  | succ n ih =>
      have hbyte := (m a).isLt
      have hrest := ih (a + 1)
      simp only [load, pow_succ]
      omega

/-- The bytes of a value that was loaded. -/
theorem load_byte (m : ℕ → BitVec 8) (a : ℕ) {i : ℕ} (hi : i < n) :
    load m a n / 256 ^ i % 256 = (m (a + i)).toNat := by
  induction n generalizing a i with
  | zero => exact absurd hi (Nat.not_lt_zero i)
  | succ n ih =>
      have hbyte := (m a).isLt
      cases i with
      | zero =>
          change _ = (m a).toNat
          rw [load, pow_zero, Nat.div_one]
          omega
      | succ i =>
          have htail : load m a (n + 1) / 256 = load m (a + 1) n := by
            rw [load]
            omega
          rw [pow_succ', ← Nat.div_div_eq_div_mul, htail, ih (a + 1) (Nat.lt_of_succ_lt_succ hi),
            Nat.add_right_comm, Nat.add_assoc]

theorem load_zero (h : ∀ x, a ≤ x → x < a + n → m x = 0) : load m a n = 0 := by
  induction n generalizing a with
  | zero => rfl
  | succ n ih =>
      simp only [load]
      rw [h a le_rfl (by omega), ih fun x hlo hhi => h x (by omega) (by omega)]
      rfl

theorem store_outside (h : b < a ∨ a + n ≤ b) : store m a n v b = m b := by
  rw [store, if_neg (by omega)]

/-- What was stored is loaded, cut to the width. -/
theorem load_store (m : ℕ → BitVec 8) (a n v : ℕ) : load (store m a n v) a n = v % 256 ^ n := by
  have hpart : ∀ j k, j + k = n → load (store m a n v) (a + j) k = v / 256 ^ j % 256 ^ k := by
    intro j k
    induction k generalizing j with
    | zero => simp [load, Nat.mod_one]
    | succ k ih =>
        intro hjk
        have hbyte : store m a n v (a + j) = BitVec.ofNat 8 (v / 256 ^ j) := by
          rw [store, if_pos (by omega), Nat.add_sub_cancel_left]
        have hrest := ih (j + 1) (by omega)
        rw [pow_succ, ← Nat.div_div_eq_div_mul] at hrest
        rw [load, hbyte, show a + j + 1 = a + (j + 1) by omega, hrest, pow_succ', Nat.mod_mul]
        rfl
  simpa using hpart 0 n (by omega)

/-- A store does not change what lies beside it. -/
theorem load_store_of_disjoint (h : b + k ≤ a ∨ a + n ≤ b) :
    load (store m a n v) b k = load m b k :=
  load_congr fun x hlo hhi => store_outside (by omega)

end K210Os.LittleEndian
