import K210Os.BitmapBuddy
import K210Os.BuddyTree
import Mathlib.Data.Nat.Log
import Mathlib.Tactic.Linarith

/-!
# The table as one cell per node

Byte and bit nodes are read through one function `cell`, and every write of the
allocator changes exactly one cell. `StoresTree` then says that the cells below a node
stand for a buddy tree. Orders count in units of the smallest block, so a node of
order `d` manages `2 ^ (d + 3)` bytes.
-/

namespace K210Os

open BitmapBuddy BuddyTree

theorem pow2_eq : ∀ b < 64, pow2 b = 2 ^ b := by decide +kernel

theorem log2_two_pow : ∀ k < 32, log2 (2 ^ k) = k := by decide +kernel

theorem isPowerOf2_iff {x : ℕ} (hx : x ≠ 0) : isPowerOf2 x = true ↔ ∃ k, x = 2 ^ k := by
  simp only [isPowerOf2, beq_iff_eq]
  exact Nat.and_sub_one_eq_zero_iff_isPowerOfTwo hx

/-- The top `m` bits of an `n + 1` bit number are set. -/
def Smeared (n m x : ℕ) : Prop :=
  x < 2 ^ (n + 1) ∧ ∀ i ≤ n, n < i + m → x.testBit i = true

theorem Smeared.double {n m x : ℕ} (h : Smeared n m x) :
    Smeared n (2 * m) (x ||| x >>> m) := by
  refine ⟨Nat.or_lt_two_pow h.1 ((Nat.shiftRight_le x m).trans_lt h.1), ?_⟩
  intro i hi hm
  rw [Nat.testBit_or, Nat.testBit_shiftRight, Bool.or_eq_true]
  rcases Nat.lt_or_ge n (i + m) with hlt | hge
  · exact Or.inl (h.2 i hi hlt)
  · exact Or.inr (h.2 (m + i) (by omega) (by omega))

theorem Smeared.eq {n x : ℕ} (hn : n < 32) (h : Smeared n 32 x) : x = 2 ^ (n + 1) - 1 := by
  apply Nat.eq_of_testBit_eq
  intro i
  rw [Nat.testBit_two_pow_sub_one]
  rcases Nat.lt_or_ge i (n + 1) with hi | hi
  · simp [hi, h.2 i (by omega) (by omega)]
  · have : x < 2 ^ i := h.1.trans_le (Nat.pow_le_pow_right (by omega) hi)
    simp [Nat.testBit_lt_two_pow this, Nat.not_lt.mpr hi]

theorem fixsize_mod {n size : ℕ} (hn : n < 32) (hlo : 2 ^ n ≤ size) (hhi : size < 2 ^ (n + 1)) :
    fixsize size = 2 ^ (n + 1) % 2 ^ 32 := by
  have h1 : Smeared n 1 size := by
    refine ⟨hhi, fun i hi hm => ?_⟩
    obtain rfl : i = n := by omega
    exact Nat.testBit_of_two_pow_le_and_two_pow_add_one_gt hlo hhi
  have h := h1.double.double.double.double.double.eq hn
  have hpos := Nat.two_pow_pos (n + 1)
  simp only [fixsize]
  rw [h, Nat.sub_add_cancel hpos]

theorem fixsize_eq {n size : ℕ} (hn : n < 31) (hlo : 2 ^ n ≤ size) (hhi : size < 2 ^ (n + 1)) :
    fixsize size = 2 ^ (n + 1) := by
  rw [fixsize_mod (by omega) hlo hhi]
  exact Nat.mod_eq_of_lt (Nat.pow_lt_pow_right (by omega) (by omega))

/-- The size searched for is the least power of two that is large enough, and it
fits where the request fits. -/
theorem roundSize_eq {n size : ℕ} (hn : n ≤ 27) (h : size ≤ 2 ^ (n + 3)) :
    ∃ e ≤ n, roundSize size = 2 ^ (e + 3) ∧ max 3 (Nat.clog 2 size) = e + 3 := by
  unfold roundSize
  rcases Nat.lt_or_ge 8 size with hsmall | hsmall
  · rw [if_neg (by omega)]
    by_cases hp : isPowerOf2 size = true
    · obtain ⟨k, rfl⟩ := (isPowerOf2_iff (by omega)).mp hp
      have hk : k ≤ n + 3 := (Nat.pow_le_pow_iff_right (by omega)).mp h
      have hk3 : 3 < k := (Nat.pow_lt_pow_iff_right (by omega)).mp (show 2 ^ 3 < 2 ^ k from hsmall)
      obtain ⟨e, rfl⟩ : ∃ e, k = e + 3 := ⟨k - 3, by omega⟩
      exact ⟨e, by omega, by simp [hp], by rw [Nat.clog_pow _ _ (by omega)]; omega⟩
    · have hne : size ≠ 0 := by omega
      have hlo := Nat.log2_self_le hne
      have hhi := Nat.lt_log2_self (n := size)
      have hnot : ∀ k, size ≠ 2 ^ k := fun k hk => hp ((isPowerOf2_iff hne).mpr ⟨k, hk⟩)
      have hn2 : size.log2 < n + 3 := by
        rcases Nat.lt_or_ge size.log2 (n + 3) with hlt | hge
        · exact hlt
        · have hpow := Nat.pow_le_pow_right (n := 2) (by omega) hge
          exact (hnot (n + 3) (by omega)).elim
      have h3 : 3 ≤ size.log2 := by
        have : 2 ^ 3 < 2 ^ (size.log2 + 1) := by omega
        have := (Nat.pow_lt_pow_iff_right (a := 2) (by omega)).mp this
        omega
      have hclog : Nat.clog 2 size = size.log2 + 1 := by
        apply le_antisymm
        · exact Nat.clog_le_of_le_pow hhi.le
        · have := hnot size.log2
          exact (Nat.lt_clog_iff_pow_lt (by omega)).mpr (by omega)
      refine ⟨size.log2 - 2, by omega, ?_, by omega⟩
      rw [show size.log2 - 2 + 3 = size.log2 + 1 by omega]
      simp [hp, fixsize_eq (show size.log2 < 31 by omega) hlo hhi]
  · rw [if_pos hsmall]
    have : Nat.clog 2 size ≤ 3 := Nat.clog_le_of_le_pow (by omega)
    exact ⟨0, Nat.zero_le _, rfl, by omega⟩

/-- A table over `2 ^ n` blocks of 8 bytes. -/
structure Sized (n : ℕ) (b : BitmapBuddy) : Prop where
  size : b.size = 2 ^ (n + 3)
  lo : 4 ≤ n
  hi : n ≤ 27

/-- Node `i` lies on row `w`, the root on row 0. -/
def OnRow (w i : ℕ) : Prop := 2 ^ w ≤ i + 1 ∧ i + 1 < 2 ^ (w + 1)

theorem OnRow.leftLeaf {w i : ℕ} (h : OnRow w i) : OnRow (w + 1) (leftLeaf i) := by
  unfold OnRow K210Os.leftLeaf at *
  rw [pow_succ 2 w, pow_succ 2 (w + 1)]
  omega

theorem OnRow.rightLeaf {w i : ℕ} (h : OnRow w i) : OnRow (w + 1) (rightLeaf i) := by
  unfold OnRow K210Os.rightLeaf at *
  rw [pow_succ 2 w, pow_succ 2 (w + 1)]
  omega

@[simp] theorem parent_leftLeaf (i : ℕ) : parent (leftLeaf i) = i := by
  unfold parent leftLeaf; omega

@[simp] theorem parent_rightLeaf (i : ℕ) : parent (rightLeaf i) = i := by
  unfold parent rightLeaf; omega

theorem OnRow.parent {w i : ℕ} (h : OnRow (w + 1) i) : OnRow w (parent i) := by
  unfold OnRow K210Os.parent at *
  rw [pow_succ 2 w, pow_succ 2 (w + 1)] at h
  rw [pow_succ 2 w]
  have := Nat.two_pow_pos w
  omega

variable {n : ℕ} {b : BitmapBuddy}

theorem Sized.base_succ (h : Sized n b) : b.base + 1 = 2 ^ (n - 1) := by
  have hsplit : 2 ^ (n + 3) = 2 ^ (n - 1) * 16 := by
    rw [show n + 3 = n - 1 + 4 by have := h.lo; omega, pow_add]; norm_num
  have hpos := Nat.two_pow_pos (n - 1)
  rw [BitmapBuddy.base, h.size, hsplit, Nat.mul_div_cancel _ (by omega)]
  omega

theorem Sized.base_mod (h : Sized n b) : b.base % 8 = 7 := by
  have hbase := h.base_succ
  have hsplit : 2 ^ (n - 1) = 2 ^ (n - 4) * 8 := by
    rw [show n - 1 = n - 4 + 3 by have := h.lo; omega, pow_add]; norm_num
  omega

/-- Exactly the last two rows are kept as bits. -/
theorem Sized.inBitmap_iff (h : Sized n b) {w i : ℕ} (hi : OnRow w i) :
    b.inBitmap i = true ↔ n ≤ w + 1 := by
  have hbase := h.base_succ
  have hlo := h.lo
  simp only [inBitmap, decide_eq_true_eq]
  constructor
  · intro hle
    have hlt : 2 ^ (n - 1) < 2 ^ (w + 1) := by have := hi.2; omega
    have := (Nat.pow_lt_pow_iff_right (a := 2) (by omega)).mp hlt
    omega
  · intro hle
    have hpow : 2 ^ (n - 1) ≤ 2 ^ w := Nat.pow_le_pow_right (by omega) (by omega)
    have := hi.1
    omega

/-- The content of a node: its bit on the bit levels, its byte above. -/
def cell (b : BitmapBuddy) (i : ℕ) : ℕ :=
  if b.inBitmap i then (b.bitmapScanTest i).toNat else (b.bbt i).toNat

theorem getLsbD_putBit (old : Byte) {k m : ℕ} (hm : m < 8) (v : Bool) :
    (if v then old ||| 1#8 <<< k else old &&& ~~~(1#8 <<< k)).getLsbD m =
      if m = k then v else old.getLsbD m := by
  rw [← BitVec.twoPow_eq]
  cases v
  · by_cases h : m = k
    · simp [h]
    · simp [h, hm]
  · by_cases h : m = k
    · subst h; simp [hm]
    · simp [h, hm]

@[simp] theorem bitmapSet_inBitmap (i j : ℕ) (v : Bool) :
    (b.bitmapSet i v).inBitmap j = b.inBitmap j := rfl

@[simp] theorem setByte_inBitmap (i v j : ℕ) :
    (b.setByte i v).inBitmap j = b.inBitmap j := rfl

theorem Sized.bitmapSet (h : Sized n b) (i : ℕ) (v : Bool) : Sized n (b.bitmapSet i v) :=
  ⟨h.size, h.lo, h.hi⟩

theorem Sized.setByte (h : Sized n b) (i v : ℕ) : Sized n (b.setByte i v) :=
  ⟨h.size, h.lo, h.hi⟩

/-- Two bit nodes share a byte and a bit only when they are the same node. -/
theorem Sized.scanTest_bitmapSet (h : Sized n b) {i j : ℕ} (hi : b.base ≤ i) (hj : b.base ≤ j)
    (v : Bool) :
    (b.bitmapSet i v).bitmapScanTest j = if j = i then v else b.bitmapScanTest j := by
  have hbase := h.base_mod
  simp only [bitmapScanTest, BitmapBuddy.bitmapSet, BitmapBuddy.base] at *
  by_cases hbyte : (j - (b.size / 16 - 1)) / 8 = (i - (b.size / 16 - 1)) / 8
  · rw [hbyte, Function.update_self, getLsbD_putBit _ (Nat.mod_lt _ (by omega))]
    by_cases hji : j = i
    · simp [hji]
    · rw [if_neg hji, if_neg (by omega)]
  · rw [Function.update_of_ne (by omega)]
    rw [if_neg (by rintro rfl; exact hbyte rfl)]

theorem Sized.cell_bitmapSet (h : Sized n b) {i : ℕ} (hi : b.inBitmap i = true) (v : Bool) :
    cell (b.bitmapSet i v) = Function.update (cell b) i v.toNat := by
  simp only [inBitmap, decide_eq_true_eq] at hi
  funext j
  simp only [cell, bitmapSet_inBitmap]
  by_cases hj : b.inBitmap j = true
  · simp only [hj, if_true]
    simp only [inBitmap, decide_eq_true_eq] at hj
    rw [h.scanTest_bitmapSet hi hj]
    by_cases hji : j = i
    · simp [hji]
    · simp [hji, cell, inBitmap, hj]
  · simp only [inBitmap, decide_eq_true_eq] at hj
    have hji : j ≠ i := by omega
    have hb : (b.bitmapSet i v).bbt j = b.bbt j := by
      simp only [BitmapBuddy.bitmapSet]
      exact Function.update_of_ne (by omega) _ _
    simp [hji, cell, inBitmap, hj, hb]

theorem cell_setByte {i v : ℕ} (hi : b.inBitmap i = false) (hv : v < 256) :
    cell (b.setByte i v) = Function.update (cell b) i v := by
  simp only [inBitmap, decide_eq_false_iff_not] at hi
  funext j
  simp only [cell, setByte_inBitmap]
  by_cases hj : b.inBitmap j = true
  · simp only [inBitmap, decide_eq_true_eq] at hj
    have hji : j ≠ i := by omega
    have hb : (b.setByte i v).bitmapScanTest j = b.bitmapScanTest j := by
      simp only [bitmapScanTest, BitmapBuddy.setByte, BitmapBuddy.base] at *
      rw [Function.update_of_ne (by omega)]
    simp [hji, cell, inBitmap, hj, hb]
  · by_cases hji : j = i
    · subst hji
      simp [inBitmap, hi, BitmapBuddy.setByte, Nat.mod_eq_of_lt hv]
    · simp [hji, cell, hj, BitmapBuddy.setByte]

/-- What the cell of a node of order `d` holds when its value is `v`. -/
def mark (d v : ℕ) : ℕ := if d ≤ 1 then (if v = 0 then 0 else 1) else v

/-- The value of a node: the logarithm of the largest free block it knows of. -/
def value {d : ℕ} (t : Node d) : ℕ := if t.room = 0 then 0 else t.room + 2

@[simp] theorem value_free {d : ℕ} : value (.free : Node d) = d + 3 := by
  simp [value, Node.room]

@[simp] theorem value_used {d : ℕ} : value (.used : Node d) = 0 := by
  simp [value, Node.room]

theorem value_split {d : ℕ} (l r : Node d) :
    value (.split l r) = max (value l) (value r) := by
  simp only [value, Node.room]
  rcases Nat.le_total l.room r.room with h | h
  · simp only [max_eq_right h]; split <;> split <;> omega
  · simp only [max_eq_left h]; split <;> split <;> omega

theorem value_le {d : ℕ} (t : Node d) : value t ≤ d + 3 := by
  have := room_le t
  simp only [value]
  split <;> omega

theorem le_value_iff {d e : ℕ} (t : Node d) : e + 3 ≤ value t ↔ e < t.room := by
  simp only [value]
  split <;> omega

/-- Every cell below a wholly free node holds the full value of its order. -/
def Full (c : ℕ → ℕ) : ℕ → ℕ → Prop
  | 0, i => c i = mark 0 3
  | d + 1, i => c i = mark (d + 1) (d + 4) ∧ Full c d (leftLeaf i) ∧ Full c d (rightLeaf i)

/-- The cells below node `i` stand for a tree. A pair of 8-byte blocks that are
both free is a free 16-byte block; all larger splits stay as they are. -/
def StoresTree (c : ℕ → ℕ) : {d : ℕ} → Node d → ℕ → Prop
  | d, .free, i => Full c d i
  | 0, .used, i => c i = 0
  | d + 1, .used, i => c i = 0 ∧ Full c d (leftLeaf i) ∧ Full c d (rightLeaf i)
  | d + 1, .split l r, i =>
      c i = mark (d + 1) (value (.split l r)) ∧
        StoresTree c l (leftLeaf i) ∧ StoresTree c r (rightLeaf i) ∧
        (d = 0 → ¬ (l.Idle ∧ r.Idle))

theorem Full.cell {c : ℕ → ℕ} {d i : ℕ} (h : Full c d i) : c i = mark d (d + 3) := by
  cases d with
  | zero => exact h
  | succ d => exact h.1

theorem StoresTree.cell {c : ℕ → ℕ} {d i : ℕ} {t : Node d} (h : StoresTree c t i) :
    c i = mark d (value t) := by
  cases t with
  | free => rw [value_free]; exact Full.cell h
  | used =>
      rw [value_used]
      cases d with
      | zero => simpa [mark, StoresTree] using h
      | succ d => simpa [mark] using h.1
  | split l r => exact h.1

/-- Node `j` lies in the subtree of node `i`. -/
def Under (i j : ℕ) : Prop := ∃ m, (j + 1) / 2 ^ m = i + 1

theorem under_refl (i : ℕ) : Under i i := ⟨0, by simp⟩

theorem under_of_left {i j : ℕ} (h : Under (leftLeaf i) j) : Under i j := by
  obtain ⟨m, hm⟩ := h
  refine ⟨m + 1, ?_⟩
  rw [pow_succ, ← Nat.div_div_eq_div_mul, hm]
  unfold leftLeaf
  omega

theorem under_of_right {i j : ℕ} (h : Under (rightLeaf i) j) : Under i j := by
  obtain ⟨m, hm⟩ := h
  refine ⟨m + 1, ?_⟩
  rw [pow_succ, ← Nat.div_div_eq_div_mul, hm]
  unfold rightLeaf
  omega

theorem not_under_of_lt {i j : ℕ} (h : j < i) : ¬ Under i j := by
  rintro ⟨m, hm⟩
  have := Nat.div_le_self (j + 1) (2 ^ m)
  omega

/-- Two neighbours on one row have no common descendant. -/
theorem not_under_left_right {i j : ℕ} (hl : Under (leftLeaf i) j) (hr : Under (rightLeaf i) j) :
    False := by
  obtain ⟨m, hm⟩ := hl
  obtain ⟨k, hk⟩ := hr
  unfold leftLeaf at hm
  unfold rightLeaf at hk
  rcases Nat.lt_trichotomy m k with h | rfl | h
  · obtain ⟨q, rfl⟩ := Nat.exists_eq_add_of_lt h
    rw [show m + q + 1 = m + (q + 1) by omega, pow_add, ← Nat.div_div_eq_div_mul, hm] at hk
    have := Nat.div_le_self (i * 2 + 1 + 1) (2 ^ (q + 1))
    omega
  · omega
  · obtain ⟨q, rfl⟩ := Nat.exists_eq_add_of_lt h
    rw [show k + q + 1 = k + (q + 1) by omega, pow_add, pow_succ, ← Nat.div_div_eq_div_mul,
      mul_comm, ← Nat.div_div_eq_div_mul, hk] at hm
    have := Nat.div_le_self ((i * 2 + 2 + 1) / 2) (2 ^ q)
    omega

theorem Full.congr {c c' : ℕ → ℕ} {d i : ℕ} (hc : ∀ j, Under i j → c' j = c j)
    (h : Full c d i) : Full c' d i := by
  induction d generalizing i with
  | zero => exact (hc i (under_refl i)).trans h
  | succ d ih =>
      exact ⟨(hc i (under_refl i)).trans h.1, ih (fun j hj => hc j (under_of_left hj)) h.2.1,
        ih (fun j hj => hc j (under_of_right hj)) h.2.2⟩

theorem StoresTree.congr {c c' : ℕ → ℕ} {d i : ℕ} {t : Node d} (hc : ∀ j, Under i j → c' j = c j)
    (h : StoresTree c t i) : StoresTree c' t i := by
  induction t generalizing i with
  | free => exact Full.congr hc h
  | @used d =>
      cases d with
      | zero => exact (hc i (under_refl i)).trans h
      | succ d =>
          exact ⟨(hc i (under_refl i)).trans h.1,
            Full.congr (fun j hj => hc j (under_of_left hj)) h.2.1,
            Full.congr (fun j hj => hc j (under_of_right hj)) h.2.2⟩
  | split l r ihl ihr =>
      exact ⟨(hc i (under_refl i)).trans h.1, ihl (fun j hj => hc j (under_of_left hj)) h.2.1,
        ihr (fun j hj => hc j (under_of_right hj)) h.2.2.1, h.2.2.2⟩

theorem StoresTree.congr_update {c : ℕ → ℕ} {d i p v : ℕ} {t : Node d} (hp : p < i)
    (h : StoresTree c t i) : StoresTree (Function.update c p v) t i := by
  refine h.congr fun j hj => Function.update_of_ne ?_ _ _
  rintro rfl
  exact not_under_of_lt hp hj

/-- The two children of a free node of positive order are free. -/
theorem storesTree_free_children {c : ℕ → ℕ} {d i : ℕ} (h : StoresTree c (.free : Node (d + 1)) i) :
    StoresTree c (.free : Node d) (leftLeaf i) ∧ StoresTree c (.free : Node d) (rightLeaf i) :=
  ⟨h.2.1, h.2.2⟩

theorem node_zero_cases (t : Node 0) : t = .free ∨ t = .used := by
  cases t with
  | free => exact Or.inl rfl
  | used => exact Or.inr rfl

/-- `get_size` returns the value of the tree that a node stands for. -/
theorem Sized.getSize_eq (h : Sized n b) {w d i : ℕ} (hi : OnRow w i) (hwd : w + d = n)
    {t : Node d} (ht : StoresTree (cell b) t i) : b.getSize i = value t := by
  have hbit := h.inBitmap_iff hi
  have hcell := ht.cell
  have h8 : log2 8 = 3 := log2_two_pow 3 (by omega)
  have h16 : log2 16 = 4 := log2_two_pow 4 (by omega)
  have hlo := h.lo
  match d, t with
  | 0, t =>
      obtain ⟨w, rfl⟩ : ∃ w', w = w' + 1 := ⟨w - 1, by omega⟩
      have hin : b.inBitmap i = true := hbit.mpr (by omega)
      have hpar : b.inBitmap (parent i) = true := (h.inBitmap_iff hi.parent).mpr (by omega)
      rcases node_zero_cases t with rfl | rfl <;>
        simp [getSize, hin, hpar, h8, K210Os.cell, mark] at hcell ⊢ <;> simp [hcell]
  | 1, t =>
      obtain ⟨w, rfl⟩ : ∃ w', w = w' + 1 := ⟨w - 1, by omega⟩
      have hin : b.inBitmap i = true := hbit.mpr (by omega)
      have hpar : b.inBitmap (parent i) = false := by
        rw [Bool.eq_false_iff, Ne, h.inBitmap_iff hi.parent]
        omega
      have hl : b.inBitmap (K210Os.leftLeaf i) = true :=
        (h.inBitmap_iff hi.leftLeaf).mpr (by omega)
      have hr : b.inBitmap (K210Os.rightLeaf i) = true :=
        (h.inBitmap_iff hi.rightLeaf).mpr (by omega)
      cases t with
      | free =>
          have hcl := ht.2.1.cell
          have hcr := ht.2.2.cell
          simp [getSize, hin, hpar, hl, hr, h16, K210Os.cell, mark] at hcell hcl hcr ⊢
          simp [hcell, hcl, hcr]
      | used =>
          simp [getSize, hin, hpar, K210Os.cell, mark] at hcell ⊢
          simp [hcell]
      | split l r =>
          have hcl := ht.2.1.cell
          have hcr := ht.2.2.1.cell
          have hnot := ht.2.2.2 rfl
          rcases node_zero_cases l with rfl | rfl <;> rcases node_zero_cases r with rfl | rfl <;>
            simp [getSize, hin, hpar, hl, hr, h8, K210Os.cell, mark, value_split, Node.Idle]
              at hcell hcl hcr hnot ⊢ <;> simp [hcell, hcl, hcr]
  | d + 2, t =>
      have hin : b.inBitmap i = false := by
        rw [Bool.eq_false_iff, Ne, hbit]
        omega
      simp [getSize, hin, K210Os.cell, mark] at hcell ⊢
      exact hcell

end K210Os
