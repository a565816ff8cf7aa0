import Mathlib.Algebra.Group.Nat.Hom
import Mathlib.Data.Nat.ModEq
import Mathlib.Logic.Function.Basic

/-!
# Ring buffers with counters that run free

A ring holds its elements in `cap` cells, at the places that two counters of `w` bits
give modulo `cap`. The counters are never reset and wrap around; with `cap` a divisor
of `2 ^ w` their difference is the number of elements at every moment.
-/

namespace K210Os.RingBuffer

structure Ring (α : Type*) (w : ℕ) where
  data : ℕ → α
  nread : BitVec w
  nwrite : BitVec w

variable {α : Type*} {w cap : ℕ} {r : Ring α w} {x : α}

def Ring.length (r : Ring α w) : ℕ := (r.nwrite - r.nread).toNat

/-- The elements, the oldest first. -/
def Ring.contents (cap : ℕ) (r : Ring α w) : List α :=
  (List.range r.length).map fun k => r.data ((r.nread.toNat + k) % cap)

def Ring.push (cap : ℕ) (r : Ring α w) (x : α) : Ring α w :=
  { r with
    data := Function.update r.data (r.nwrite.toNat % cap) x
    nwrite := r.nwrite + 1 }

def Ring.pop (cap : ℕ) (r : Ring α w) : α × Ring α w :=
  (r.data (r.nread.toNat % cap), { r with nread := r.nread + 1 })

theorem one_toNat (w : ℕ) : (1 : BitVec w).toNat = 1 % 2 ^ w := BitVec.toNat_ofNat 1 w

theorem Ring.nwrite_toNat (r : Ring α w) :
    r.nwrite.toNat = (r.nread.toNat + r.length) % 2 ^ w := by
  have hread := r.nread.isLt
  have hwrite := r.nwrite.isLt
  rw [Ring.length, BitVec.toNat_sub, Nat.add_mod_mod]
  rw [show r.nread.toNat + (2 ^ w - r.nread.toNat + r.nwrite.toNat) = r.nwrite.toNat + 2 ^ w by
    omega, Nat.add_mod_right, Nat.mod_eq_of_lt hwrite]

theorem Ring.length_eq_zero_iff : r.length = 0 ↔ r.nread = r.nwrite := by
  constructor
  · intro h
    have hwrite := r.nwrite_toNat
    rw [h, Nat.add_zero, Nat.mod_eq_of_lt r.nread.isLt] at hwrite
    exact BitVec.eq_of_toNat_eq hwrite.symm
  · intro h
    rw [Ring.length, h]
    simp

/-- The test for a full ring. -/
theorem Ring.length_eq_cap_iff (hcap : cap < 2 ^ w) :
    r.nwrite = r.nread + BitVec.ofNat w cap ↔ r.length = cap := by
  constructor
  · intro h
    rw [Ring.length, h, BitVec.add_comm, BitVec.add_sub_cancel, BitVec.toNat_ofNat,
      Nat.mod_eq_of_lt hcap]
  · intro h
    apply BitVec.eq_of_toNat_eq
    rw [r.nwrite_toNat, h, BitVec.toNat_add, BitVec.toNat_ofNat, Nat.mod_eq_of_lt hcap]

/-- Different offsets below the capacity are different cells. -/
theorem cell_ne {a i j : ℕ} (hi : i < j) (hj : j < cap) : (a + i) % cap ≠ (a + j) % cap := by
  intro h
  have hmod : i ≡ j [MOD cap] := Nat.ModEq.add_left_cancel' a h
  have heq := hmod.eq_of_lt_of_lt (by omega) hj
  omega

theorem Ring.push_length (hcap : cap < 2 ^ w) (h : r.length < cap) (x : α) :
    (r.push cap x).length = r.length + 1 := by
  have hlt : 1 < 2 ^ w := by omega
  have hsum : r.nwrite + 1 - r.nread = r.nwrite - r.nread + 1 := by
    rw [BitVec.sub_eq_add_neg, BitVec.sub_eq_add_neg, BitVec.add_assoc, BitVec.add_assoc,
      BitVec.add_comm 1]
  simp only [Ring.push, Ring.length] at h ⊢
  rw [hsum, BitVec.toNat_add, one_toNat, Nat.mod_eq_of_lt hlt, Nat.mod_eq_of_lt (by omega)]

theorem Ring.push_contents (hdvd : cap ∣ 2 ^ w) (hcap : cap < 2 ^ w) (h : r.length < cap) (x : α) :
    (r.push cap x).contents cap = r.contents cap ++ [x] := by
  have hcell : r.nwrite.toNat % cap = (r.nread.toNat + r.length) % cap := by
    rw [r.nwrite_toNat, Nat.mod_mod_of_dvd _ hdvd]
  rw [Ring.contents, Ring.push_length hcap h, List.range_succ, List.map_append, List.map_singleton,
    Ring.contents]
  simp only [Ring.push, hcell]
  congr 1
  · refine List.map_congr_left fun k hk => ?_
    rw [Function.update_of_ne (cell_ne (List.mem_range.mp hk) h)]
  · rw [Function.update_self]

theorem Ring.pop_length (cap : ℕ) (h : 0 < r.length) : (r.pop cap).2.length + 1 = r.length := by
  have hlt := (r.nwrite - r.nread).isLt
  have hone : 1 < 2 ^ w := by
    have : r.length < 2 ^ w := hlt
    omega
  have hsum : r.nwrite - (r.nread + 1) = r.nwrite - r.nread - 1 := by
    rw [BitVec.sub_eq_add_neg, BitVec.neg_add, BitVec.sub_eq_add_neg, BitVec.sub_eq_add_neg,
      BitVec.sub_eq_add_neg, BitVec.add_assoc]
  simp only [Ring.pop, Ring.length] at h ⊢
  rw [hsum, BitVec.toNat_sub_of_le, one_toNat, Nat.mod_eq_of_lt hone]
  · omega
  · rw [BitVec.le_def, one_toNat, Nat.mod_eq_of_lt hone]
    omega

theorem Ring.pop_contents (hdvd : cap ∣ 2 ^ w) (h : 0 < r.length) :
    r.contents cap = (r.pop cap).1 :: (r.pop cap).2.contents cap := by
  have hcell : ∀ k, ((r.nread + 1).toNat + k) % cap = (r.nread.toNat + (k + 1)) % cap := by
    intro k
    rw [BitVec.toNat_add, one_toNat, Nat.add_mod_mod, Nat.add_mod, Nat.mod_mod_of_dvd _ hdvd,
      ← Nat.add_mod]
    congr 1
    omega
  rw [Ring.contents, ← Ring.pop_length cap h, List.range_succ_eq_map, List.map_cons,
    List.map_map]
  simp only [Ring.pop, Ring.contents, Nat.add_zero, hcell]
  rfl

end K210Os.RingBuffer
