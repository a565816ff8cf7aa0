import K210Os.BuddyFree
import K210Os.Transition

/-!
# The heap over whole runs

The three entry points of the allocator against buddy trees, and the invariant
that a run of them keeps: the table stands for a tree whose blocks are the live
blocks of the run.
-/

namespace K210Os

open BitmapBuddy BuddyTree

variable {n : ℕ}

theorem full_of_cells {c : ℕ → ℕ}
    (hc : ∀ w d i, w + d = n → OnRow w i → c i = mark d (d + 3)) {w d i : ℕ}
    (hwd : w + d = n) (hi : OnRow w i) : Full c d i := by
  induction d generalizing w i with
  | zero => exact hc w 0 i hwd hi
  | succ d ih =>
      exact ⟨hc w _ i hwd hi, ih (by omega) hi.leftLeaf, ih (by omega) hi.rightLeaf⟩

/-- Inside a row `i + 1` is a power of two only where the row begins. -/
theorem isPowerOf2_succ_iff {w i : ℕ} (hlo : 2 ^ w ≤ 2 * i + 1) (hhi : i < 2 ^ w) :
    isPowerOf2 (i + 1) = true ↔ i + 1 = 2 ^ w := by
  rw [isPowerOf2_iff (by omega)]
  constructor
  · rintro ⟨k, hk⟩
    have h1 : k ≤ w := (Nat.pow_le_pow_iff_right (by omega)).mp (show 2 ^ k ≤ 2 ^ w by omega)
    have h2 : w < k + 1 := by
      rw [← Nat.pow_lt_pow_iff_right (a := 2) (by omega), pow_succ]
      omega
    rw [hk, show k = w by omega]
  · exact fun h => ⟨w, h⟩

/-- The filling loop stops at the first node of the 16-byte level, with every node
before it holding the logarithm of its size. -/
theorem buddyNewLoop_spec (hn : n ≤ 27) {w i fuel : ℕ} {bbt : ℕ → Byte}
    (hlo : 2 ^ w ≤ 2 * i + 1) (hhi : i < 2 ^ w) (hw : w + 1 ≤ n)
    (hfuel : 2 ^ (n - 1) ≤ fuel + i)
    (hdone : ∀ r j, j < i → OnRow r j → bbt j = BitVec.ofNat 8 (n + 3 - r)) :
    ∃ bbt', buddyNewLoop fuel i (2 ^ (n + 4 - w)) bbt = (2 ^ (n - 1) - 1, bbt') ∧
      ∀ r j, j + 1 < 2 ^ (n - 1) → OnRow r j → bbt' j = BitVec.ofNat 8 (n + 3 - r) := by
  have hrow : 2 ^ w ≤ 2 ^ (n - 1) := Nat.pow_le_pow_right (by omega) (by omega)
  induction fuel generalizing w i bbt with
  | zero => omega
  | succ fuel ih =>
      have hpow := isPowerOf2_succ_iff hlo hhi
      have hrowi : ∀ {r s : ℕ}, OnRow r i → OnRow s i → r = s := by
        intro r s hr hs
        have h1 := (Nat.pow_lt_pow_iff_right (a := 2) (by omega)).mp (hr.1.trans_lt hs.2)
        have h2 := (Nat.pow_lt_pow_iff_right (a := 2) (by omega)).mp (hs.1.trans_lt hr.2)
        omega
      by_cases hp : i + 1 = 2 ^ w
      · -- node `i` begins row `w`
        have hhalf : 2 ^ (n + 4 - w) / 2 = 2 ^ (n + 3 - w) := by
          rw [show n + 4 - w = n + 3 - w + 1 by omega, pow_succ, Nat.mul_div_cancel _ (by omega)]
        simp only [buddyNewLoop, hpow.mpr hp, if_true, hhalf, Bool.true_and, beq_iff_eq]
        by_cases hstop : w + 1 = n
        · obtain rfl : w = n - 1 := by omega
          have h16 : 2 ^ (n + 3 - (n - 1)) = 16 := by
            rw [show n + 3 - (n - 1) = 4 by omega]; norm_num
          rw [if_pos h16]
          exact ⟨bbt, by rw [← hp]; simp, fun r j hj => hdone r j (by omega)⟩
        · have h16 : 2 ^ (n + 3 - w) ≠ 16 := by
            rw [show (16 : ℕ) = 2 ^ 4 by norm_num]
            intro heq
            have := Nat.pow_right_injective (le_refl 2) heq
            omega
          rw [if_neg h16, show n + 3 - w = n + 4 - (w + 1) by omega]
          refine ih (by rw [pow_succ]; omega) (by rw [pow_succ]; omega) (by omega) (by omega) ?_
            (Nat.pow_le_pow_right (by omega) (by omega))
          intro r j hj hr
          by_cases hji : j = i
          · subst hji
            obtain rfl : r = w := hrowi hr ⟨hp.ge, by rw [pow_succ]; omega⟩
            rw [Function.update_self, log2_two_pow _ (by omega)]
            congr 1
            omega
          · rw [Function.update_of_ne hji]
            exact hdone r j (by omega) hr
      · have hfalse : isPowerOf2 (i + 1) = false := by
          rw [Bool.eq_false_iff, Ne, hpow]
          exact hp
        have hw0 : w ≠ 0 := by
          rintro rfl
          simp only [pow_zero] at hhi hp
          omega
        simp only [buddyNewLoop, hfalse, Bool.false_eq_true, if_false, Bool.false_and]
        refine ih (by omega) (by omega) hw (by omega) ?_ hrow
        intro r j hj hr
        by_cases hji : j = i
        · subst hji
          have hhalf : 2 ^ w = 2 ^ (w - 1) * 2 := by
            rw [← pow_succ, show w - 1 + 1 = w by omega]
          obtain rfl : r = w - 1 :=
            hrowi hr ⟨by omega, by rw [show w - 1 + 1 = w by omega]; omega⟩
          rw [Function.update_self, log2_two_pow _ (by omega)]
          congr 1
          omega
        · rw [Function.update_of_ne hji]
          exact hdone r j (by omega) hr

/-- The filling loop writes no byte from the place on where it stops. -/
theorem buddyNewLoop_beyond {fuel i nodeSize : ℕ} {bbt : ℕ → Byte} :
    i ≤ (buddyNewLoop fuel i nodeSize bbt).1 ∧
      ∀ j, (buddyNewLoop fuel i nodeSize bbt).1 ≤ j →
        (buddyNewLoop fuel i nodeSize bbt).2 j = bbt j := by
  induction fuel generalizing i nodeSize bbt with
  | zero => exact ⟨le_refl i, fun _ _ => rfl⟩
  | succ fuel ih =>
      rw [buddyNewLoop]
      generalize (if isPowerOf2 (i + 1) = true then nodeSize / 2 else nodeSize) = half
      split
      · exact ⟨le_refl i, fun _ _ => rfl⟩
      · obtain ⟨hle, hkept⟩ :=
          @ih (i + 1) half (Function.update bbt i (BitVec.ofNat 8 (log2 half)))
        refine ⟨by omega, fun j hj => ?_⟩
        rw [hkept j hj, Function.update_of_ne (by omega)]

/-- The bytes of a new table: those of the byte levels, those of the bit levels, and those behind
them, which it leaves. -/
theorem buddyNew_bytes (hlo : 4 ≤ n) (hhi : n ≤ 27) (bbase : ℕ → Byte) :
    ∃ b, buddyNew (2 ^ (n + 3)) bbase = some b ∧ Sized n b ∧ b.lock = initlock ∧
      (∀ r j, j < b.base → OnRow r j → b.bbt j = BitVec.ofNat 8 (n + 3 - r)) ∧
      (∀ j, b.base ≤ j → j < b.base + 3 * 2 ^ (n - 4) → b.bbt j = 0xff#8) ∧
      ∀ j, b.base + 3 * 2 ^ (n - 4) ≤ j → b.bbt j = bbase j := by
  have hpos := Nat.two_pow_pos (n + 3)
  have hp : isPowerOf2 (2 ^ (n + 3)) = true := (isPowerOf2_iff (by omega)).mpr ⟨_, rfl⟩
  have hpow : 2 ^ (n - 1) ≤ 2 ^ (n + 3) := Nat.pow_le_pow_right (by omega) (by omega)
  have hfuel : 2 ^ (n - 1) ≤ 2 * 2 ^ (n + 3) - 1 + 0 := by omega
  have hnone : ∀ r j, j < 0 → OnRow r j → bbase j = BitVec.ofNat 8 (n + 3 - r) := by
    intro r j hj
    omega
  obtain ⟨bbt, hloop, hbytes⟩ :=
    buddyNewLoop_spec (w := 0) hhi (by simp) (by simp) (by omega) hfuel hnone
  rw [Nat.sub_zero, show 2 ^ (n + 4) = 2 * 2 ^ (n + 3) by ring] at hloop
  have hbeyond := (@buddyNewLoop_beyond (2 * 2 ^ (n + 3) - 1) 0 (2 * 2 ^ (n + 3)) bbase).2
  rw [hloop] at hbeyond
  have hbits : (2 ^ (n + 3) / 8 + 2 ^ (n + 3) / (8 * 2)) / 8 = 3 * 2 ^ (n - 4) := by
    have : 2 ^ (n + 3) = 2 ^ (n - 4) * 128 := by
      rw [show n + 3 = n - 4 + 7 by omega, pow_add]; norm_num
    omega
  let b : BitmapBuddy :=
    { lock := initlock, space := 0, size := 2 ^ (n + 3), minAllocSize := 8
      bbt := memset bbt (2 ^ (n - 1) - 1) 0xff#8 (3 * 2 ^ (n - 4)) }
  have hs : Sized n b := ⟨rfl, hlo, hhi⟩
  have hbase := hs.base_succ
  refine ⟨b, ?_, hs, rfl, ?_, ?_, ?_⟩
  · simp only [buddyNew, hp, hloop, hbits]
    rw [if_neg (by simp)]
  · intro r j hj hr
    change memset bbt (2 ^ (n - 1) - 1) 0xff#8 (3 * 2 ^ (n - 4)) j = _
    rw [memset, if_neg (by omega), hbytes r j (by omega) hr]
  · intro j hlow hhigh
    change memset bbt (2 ^ (n - 1) - 1) 0xff#8 (3 * 2 ^ (n - 4)) j = _
    rw [memset, if_pos (by omega)]
  · intro j hj
    change memset bbt (2 ^ (n - 1) - 1) 0xff#8 (3 * 2 ^ (n - 4)) j = _
    rw [memset, if_neg (by omega)]
    exact hbeyond j (by dsimp only; omega)

theorem scanTest_of_byte_ones {b : BitmapBuddy} {i : ℕ}
    (hbyte : b.bbt (b.base + (i - b.base) / 8) = 0xff#8) : b.bitmapScanTest i = true := by
  have hall : ∀ k < 8, (0xff#8 : Byte).getLsbD k = true := by decide
  rw [bitmapScanTest, hbyte]
  exact hall _ (Nat.mod_lt i (by omega))

/-- `buddy_new` makes a table in which everything is free. -/
theorem buddyNew_spec (hlo : 4 ≤ n) (hhi : n ≤ 27) (bbase : ℕ → Byte) :
    ∃ b, buddyNew (2 ^ (n + 3)) bbase = some b ∧ Sized n b ∧ b.lock = initlock ∧
      StoresTree (cell b) (.free : Node n) 0 := by
  obtain ⟨b, hnew, hs, hlock, hbytes, hones, -⟩ := buddyNew_bytes hlo hhi bbase
  have h14 : 2 ^ (n - 1) = 2 ^ (n - 4) * 8 := by
    rw [show n - 1 = n - 4 + 3 by omega, pow_add]; norm_num
  have hbase := hs.base_succ
  refine ⟨b, hnew, hs, hlock, full_of_cells (n := n) ?_ (Nat.zero_add n) ⟨by simp, by simp⟩⟩
  intro w d i hwd hi
  have hin := hs.inBitmap_iff hi
  have hrow : 2 ^ (w + 1) ≤ 2 ^ (n + 1) := Nat.pow_le_pow_right (by omega) (by omega)
  have h4 : 2 ^ (n + 1) = 2 ^ (n - 4) * 32 := by
    rw [show n + 1 = n - 4 + 5 by omega, pow_add]; norm_num
  by_cases hd : d ≤ 1
  · have hbit : b.inBitmap i = true := hin.mpr (by omega)
    have hge : b.base ≤ i := by simpa [inBitmap] using hbit
    have hi2 := hi.2
    have htest := scanTest_of_byte_ones (hones (b.base + (i - b.base) / 8) (by omega) (by omega))
    simp [cell, hbit, htest, mark, hd]
  · have hout : b.inBitmap i = false := by rw [Bool.eq_false_iff, Ne, hin]; omega
    have hlt : ¬ b.base ≤ i := by simpa [inBitmap] using hout
    have hval := hbytes w i (by omega) hi
    simp only [cell, hout, Bool.false_eq_true, if_false, hval, BitVec.toNat_ofNat, mark, hd]
    omega

/-! ### The packing of the bit levels -/

/-- A node of the two levels that are kept as bits. -/
def BitNode (size i : ℕ) : Prop := size / 16 - 1 ≤ i ∧ i < size / 4 - 1

/-- The size of the block that a node stands for. -/
def nodeBlockSize (size i : ℕ) : ℕ := size / 2 ^ Nat.log 2 (i + 1)

/-- In a heap of `size` bytes the bit nodes are independent of each other, they fill the bytes
behind the byte levels and no others, and a new table marks every block as free. -/
structure BitLevels (size : ℕ) : Prop where
  set_test : ∀ b : BitmapBuddy, b.size = size → ∀ i j v, BitNode size i → BitNode size j →
    (b.bitmapSet i v).bitmapScanTest j = if i = j then v else b.bitmapScanTest j
  set_bytes : ∀ b : BitmapBuddy, b.size = size → ∀ i v, BitNode size i →
    ∀ a, a < size / 16 - 1 ∨ size / 16 - 1 + 3 * size / 128 ≤ a →
      (b.bitmapSet i v).bbt a = b.bbt a
  new : ∀ bbase, ∃ b, buddyNew size bbase = some b ∧ b.size = size ∧
    (∀ i, BitNode size i → b.bitmapScanTest i = true) ∧
    (∀ i < size / 16 - 1, 2 ^ (b.bbt i).toNat = nodeBlockSize size i) ∧
    ∀ a, size / 16 - 1 + 3 * size / 128 ≤ a → b.bbt a = bbase a

theorem onRow_log (i : ℕ) : OnRow (Nat.log 2 (i + 1)) i :=
  ⟨Nat.pow_log_le_self 2 (Nat.succ_ne_zero i), Nat.lt_pow_succ_log_self (by omega) (i + 1)⟩

theorem Sized.size_eq {b : BitmapBuddy} (hs : Sized n b) : b.size = 2 ^ (n - 4) * 128 := by
  have hlo := hs.lo
  rw [hs.size, show n + 3 = n - 4 + 7 by omega, pow_add]
  norm_num

theorem bitLevels {k : ℕ} (hlo : 128 ≤ 2 ^ k) (hhi : 2 ^ k ≤ 2 ^ 30) : BitLevels (2 ^ k) := by
  have hk7 : 7 ≤ k := (Nat.pow_le_pow_iff_right (le_refl 2)).mp (show 2 ^ 7 ≤ 2 ^ k from hlo)
  have hk30 : k ≤ 30 := (Nat.pow_le_pow_iff_right (le_refl 2)).mp hhi
  obtain ⟨n, rfl⟩ : ∃ n, k = n + 3 := ⟨k - 3, by omega⟩
  have hsized : ∀ b : BitmapBuddy, b.size = 2 ^ (n + 3) → Sized n b := by
    intro b hb
    exact ⟨hb, by omega, by omega⟩
  constructor
  · intro b hb i j v hi hj
    have hbase : b.base = 2 ^ (n + 3) / 16 - 1 := by rw [BitmapBuddy.base, hb]
    rw [(hsized b hb).scanTest_bitmapSet (hbase ▸ hi.1) (hbase ▸ hj.1)]
    simp only [eq_comm]
  · intro b hb i v hi a ha
    have hsize := (hsized b hb).size_eq
    have hlow := hi.1
    have hhigh := hi.2
    simp only [BitmapBuddy.bitmapSet, BitmapBuddy.base]
    rw [Function.update_of_ne]
    omega
  · intro bbase
    obtain ⟨b, hnew, hs, -, hbytes, hones, hkept⟩ :=
      buddyNew_bytes (by omega : 4 ≤ n) (by omega) bbase
    have hsize := hs.size_eq
    have hbase : b.base = 2 ^ (n + 3) / 16 - 1 := by rw [BitmapBuddy.base, hs.size]
    rw [hs.size] at hsize
    refine ⟨b, hnew, hs.size, ?_, ?_, ?_⟩
    · intro i hi
      have hlow := hi.1
      have hhigh := hi.2
      exact scanTest_of_byte_ones (hones _ (by omega) (by omega))
    · intro i hi
      have hrow := onRow_log i
      have hin : b.inBitmap i = false := by
        simp only [inBitmap, decide_eq_false_iff_not]
        omega
      have hlt : Nat.log 2 (i + 1) + 1 < n := by
        by_contra hge
        exact absurd ((hs.inBitmap_iff hrow).mpr (by omega)) (by simp [hin])
      rw [hbytes _ i (by omega) hrow, BitVec.toNat_ofNat, Nat.mod_eq_of_lt (by omega), nodeBlockSize]
      exact Nat.eq_div_of_mul_eq_left (by positivity) (by rw [← pow_add]; congr 1; omega)
    · intro a ha
      exact hkept a (by omega)

theorem bitLevels_smallest : BitLevels (2 ^ 7) := bitLevels (by decide) (by decide)

/-- What the table of a heap stands for, and where its memory begins. -/
structure Stands (n space : ℕ) (h : KHeap) (t : Node n) : Prop where
  sized : Sized n h.buddy
  space_eq : h.buddy.space = space
  pos : 0 < space
  fits : space + 2 ^ (n + 3) ≤ 2 ^ 64
  repr : StoresTree (cell h.buddy) t 0

variable {space : ℕ} {h h' : KHeap} {t : Node n}

theorem onRow_zero : OnRow 0 0 := ⟨by simp, by simp⟩

theorem Stands.root_value (hs : Stands n space h t) : (h.buddy.bbt 0).toNat = value t := by
  have hout : h.buddy.inBitmap 0 = false := by
    rw [Bool.eq_false_iff, Ne, hs.sized.inBitmap_iff onRow_zero]
    have := hs.sized.lo
    omega
  have hg := hs.sized.getSize_eq onRow_zero (Nat.zero_add n) hs.repr
  simpa [getSize, hout] using hg

theorem Stands.pow2_root (hs : Stands n space h t) (e : ℕ) :
    pow2 (h.buddy.bbt 0).toNat < 2 ^ (e + 3) ↔ ¬ e < t.room := by
  rw [hs.root_value, ← pow2_value_iff hs.sized.hi t (e := e)]
  omega

/-- A block inside the heap has an address of its own, which is not `NULL`. -/
theorem Stands.address (hs : Stands n space h t) {o e : ℕ} (h8 : 8 * o + 2 ^ (e + 3) ≤ 2 ^ (n + 3)) :
    (space + 8 * o) % 2 ^ 64 = space + 8 * o ∧ space + 8 * o ≠ 0 ∧
      (space + 8 * o + 2 ^ 64 - space) % 2 ^ 64 = 8 * o := by
  have hpos := hs.pos
  have hfits := hs.fits
  have h64 := Nat.two_pow_pos (e + 3)
  exact ⟨Nat.mod_eq_of_lt (by omega), by omega, by omega⟩

theorem inside_bytes {o e : ℕ} (h : o + 2 ^ e ≤ 2 ^ n) : 8 * o + 2 ^ (e + 3) ≤ 2 ^ (n + 3) := by
  rw [pow_add 2 e, pow_add 2 n]
  omega

/-- The 32-bit arithmetic of the returned offset does not wrap. -/
theorem offset_eq (hn : n ≤ 27) {e i : ℕ} (hen : e ≤ n) (hi : OnRow (n - e) i) :
    ((i + 1) * 2 ^ (e + 3) % 2 ^ 32 + 2 ^ 64 - 2 ^ (n + 3)) % 2 ^ 64 = 8 * nodeOffset n e i := by
  have hge := hi.mul_ge (show n - e + e = n by omega)
  have hlt : (i + 1) * 2 ^ e < 2 ^ (n + 1) := by
    calc (i + 1) * 2 ^ e < 2 ^ (n - e + 1) * 2 ^ e :=
          Nat.mul_lt_mul_of_pos_right hi.2 (Nat.two_pow_pos e)
      _ = 2 ^ (n + 1) := by rw [← pow_add, show n - e + 1 + e = n + 1 by omega]
  have hn28 : 2 ^ (n + 1) ≤ 2 ^ 28 := Nat.pow_le_pow_right (by omega) (by omega)
  have he : (i + 1) * 2 ^ (e + 3) = 8 * ((i + 1) * 2 ^ e) := by ring
  have hn3 : 2 ^ (n + 3) = 8 * 2 ^ n := by ring
  rw [he, hn3, nodeOffset]
  omega

/-- `buddy_alloc` from what its search and its climb return. -/
theorem buddyAlloc_eq_some {h : KHeap} {cpu cpu' : Processor} {lock lock' : Spinlock}
    {b b' : BitmapBuddy} {size rounded nodeSize index : ℕ}
    (hacq : acquire h.cpu h.buddy.lock = some (cpu, lock))
    (hb : { h.buddy with lock := lock } = b) (hsize : roundSize size = rounded)
    (hroom : ¬ pow2 (b.bbt 0).toNat < rounded)
    (hsearch : buddyAllocSearch b rounded 32 b.size 0 = some (nodeSize, index))
    (hclimb : buddyAllocBacktrack 32 (buddyMark b rounded index) index = some b')
    (hrel : release cpu b'.lock = some (cpu', lock')) :
    let offset := ((index + 1) * nodeSize % 2 ^ 32 + 2 ^ 64 -
      (buddyMark b rounded index).size) % 2 ^ 64
    let ptr := (b'.space + offset) % 2 ^ 64
    buddyAlloc h size =
      some (ptr, ⟨cpu', { b' with lock := lock' }, memset h.mem ptr 0#8 rounded⟩) := by
  subst hb hsize
  simp only [buddyAlloc, hacq, Option.bind_eq_bind, Option.bind_some, hroom, if_false, hsearch,
    hclimb, hrel, Option.pure_def]

/-- The whole climb, up to the root. -/
theorem BlockTaken.climb_root {b : BitmapBuddy} {e : ℕ} (hs : Sized n b) (k : BlockTaken n e n 0 b t) :
    buddyAllocBacktrack 32 (buddyMark b (2 ^ (e + 3)) k.index) k.index = some k.after := by
  have hfuel : (32 - (n - e)) + (n - e) = 32 := by have := hs.hi; omega
  rw [← hfuel, k.climb]
  unfold buddyAllocBacktrack
  simp

/-- A node of the table manages a block inside the heap. -/
theorem OnRow.inside {e i : ℕ} (hen : e ≤ n) (hi : OnRow (n - e) i) :
    nodeOffset n e i + 2 ^ e ≤ 2 ^ n := by
  have hge := hi.mul_ge (Nat.sub_add_cancel hen)
  have hle : (i + 2) * 2 ^ e ≤ 2 ^ (n - e + 1) * 2 ^ e := Nat.mul_le_mul_right _ hi.2
  have hpow : 2 ^ (n - e + 1) * 2 ^ e = 2 ^ n + 2 ^ n := by
    rw [← pow_add, show n - e + 1 + e = n + 1 by omega, pow_succ]
    ring
  have hnext : (i + 2) * 2 ^ e = (i + 1) * 2 ^ e + 2 ^ e := by ring
  rw [nodeOffset]
  omega

theorem address_eq {space o e : ℕ} (hfits : space + 2 ^ (n + 3) ≤ 2 ^ 64) (hin : o + 2 ^ e ≤ 2 ^ n) :
    (space + 8 * o) % 2 ^ 64 = space + 8 * o := by
  have := inside_bytes hin
  have := Nat.two_pow_pos (e + 3)
  exact Nat.mod_eq_of_lt (by omega)

/-- `buddy_alloc` when its search finds a node of the wanted order and the climb from
there ends. -/
theorem buddyAlloc_of_climb {h : KHeap} {b after : BitmapBuddy} {size e index : ℕ}
    (hb : { h.buddy with lock := ⟨true, some h.cpu.hartid⟩ } = b) (hsized : Sized n b)
    (hlock : h.buddy.lock.locked = false) (hfits : b.space + 2 ^ (n + 3) ≤ 2 ^ 64) (hen : e ≤ n)
    (hsize : roundSize size = 2 ^ (e + 3)) (hroom : ¬ pow2 (b.bbt 0).toNat < 2 ^ (e + 3))
    (hrow : OnRow (n - e) index)
    (hsearch : buddyAllocSearch b (2 ^ (e + 3)) 32 (2 ^ (n + 3)) 0 = some (2 ^ (e + 3), index))
    (hclimb : buddyAllocBacktrack 32 (buddyMark b (2 ^ (e + 3)) index) index = some after)
    (hheader : SameHeader b after) :
    ∃ cpu, buddyAlloc h size = some (b.space + 8 * nodeOffset n e index,
      ⟨cpu, { after with lock := initlock },
        memset h.mem (b.space + 8 * nodeOffset n e index) 0#8 (2 ^ (e + 3))⟩) := by
  have hacq := acquire_of_unlocked h.cpu hlock
  have hlk : after.lock = ⟨true, some h.cpu.hartid⟩ := hheader.lock.trans (by rw [← hb])
  obtain ⟨cpu, hrel, -, -⟩ := release_pushOff h.cpu
  rw [← hlk] at hrel
  rw [← hsized.size] at hsearch
  have hcall := buddyAlloc_eq_some hacq hb hsize hroom hsearch hclimb hrel
  have hmark : (buddyMark b (2 ^ (e + 3)) index).size = 2 ^ (n + 3) :=
    ((hsized.cell_buddyMark hrow (Nat.sub_add_cancel hen)).1.sized hsized).size
  have hptr : (after.space + ((index + 1) * 2 ^ (e + 3) % 2 ^ 32 + 2 ^ 64 -
      (buddyMark b (2 ^ (e + 3)) index).size) % 2 ^ 64) % 2 ^ 64 =
        b.space + 8 * nodeOffset n e index := by
    rw [hmark, offset_eq hsized.hi hen hrow, hheader.space, address_eq hfits (hrow.inside hen)]
  simp only [hptr] at hcall
  exact ⟨cpu, hcall⟩

/-- `buddy_alloc` where the root reports less than the wanted size: the lock stays held. -/
theorem buddyAlloc_eq_null {h : KHeap} {size : ℕ} (hlock : h.buddy.lock.locked = false)
    (hroom : pow2 (h.buddy.bbt 0).toNat < roundSize size) :
    buddyAlloc h size = some (0, ⟨pushOff h.cpu,
      { h.buddy with lock := ⟨true, some h.cpu.hartid⟩ }, h.mem⟩) := by
  simp only [buddyAlloc, acquire_of_unlocked h.cpu hlock, Option.bind_eq_bind, Option.bind_some,
    hroom, if_true, Option.pure_def]

/-- `buddy_alloc` returns `NULL` when the tree has no room, and leaves the lock
held; otherwise it hands out one idle block. -/
theorem Stands.buddyAlloc (hs : Stands n space h t) (hlock : h.buddy.lock.locked = false)
    {size e : ℕ} (hen : e ≤ n) (hsize : roundSize size = 2 ^ (e + 3)) :
    (¬ e < t.room → ∃ h', buddyAlloc h size = some (0, h') ∧ Stands n space h' t) ∧
    (e < t.room → ∃ o t' h', buddyAlloc h size = some (space + 8 * o, h') ∧
      Alloc e o t 0 t' ∧ Stands n space h' t' ∧ h'.buddy.lock.locked = false) := by
  have hroot := hs.pow2_root e
  obtain ⟨b, hbdef⟩ : ∃ b, { h.buddy with lock := ⟨true, some h.cpu.hartid⟩ } = b := ⟨_, rfl⟩
  have hb : Sized n b := by subst hbdef; exact ⟨hs.sized.size, hs.sized.lo, hs.sized.hi⟩
  have hrepr : StoresTree (cell b) t 0 := by subst hbdef; exact hs.repr
  have hsp : b.space = space := by subst hbdef; exact hs.space_eq
  constructor
  · intro hroom
    refine ⟨⟨pushOff h.cpu, b, h.mem⟩, ?_, ⟨hb, hsp, hs.pos, hs.fits, hrepr⟩⟩
    rw [← hbdef]
    exact buddyAlloc_eq_null hlock (by rw [hsize]; exact hroot.mpr hroom)
  · intro hroom
    obtain ⟨k⟩ := taken_exists hb hen onRow_zero (Nat.zero_add n) hrepr hroom
    have halloc : Alloc e (nodeOffset n e k.index) t 0 k.tree := by
      have := k.alloc
      rwa [show nodeOffset n n 0 = 0 by simp [nodeOffset]] at this
    have hnot : ¬ pow2 (b.bbt 0).toNat < 2 ^ (e + 3) := by
      subst hbdef
      exact fun hlt => hroot.mp hlt hroom
    have hsearch := k.search 32 (by have := hb.hi; omega)
    have hclimb := k.climb_root hb
    obtain ⟨cpu, hcall⟩ := buddyAlloc_of_climb hbdef hb hlock (hsp.symm ▸ hs.fits) hen hsize hnot
      k.row hsearch hclimb k.header
    rw [hsp] at hcall
    refine ⟨nodeOffset n e k.index, k.tree, _, hcall, halloc, ?_, rfl⟩
    exact ⟨⟨(k.header.sized hb).size, hb.lo, hb.hi⟩, k.header.space.trans hsp, hs.pos, hs.fits, k.repr⟩

/-- From the leaf of size 1 three steps lead to the level of 8-byte blocks. -/
theorem buddyFreeLeaf_eq {m : ℕ} (hm : 0 < m) :
    buddyFreeLeaf 3 1 (8 * m - 1) = some (8, m - 1) := by
  have h3 : parent (parent (parent (8 * m - 1))) = m - 1 := by unfold parent; omega
  simp [buddyFreeLeaf, h3]

/-- The comparisons a release of the block at `offset` will make, read off the
table before it. -/
def freeAvoids (ok : ℕ → ℕ → ℕ → Bool) (b : BitmapBuddy) (offset : ℕ) : Bool :=
  match buddyFreeNode b offset with
  | none => true
  | some (nodeSize, index) => freeClimb ok b 32 nodeSize index (log2 nodeSize)

variable {ok : ℕ → ℕ → ℕ → Bool}

theorem used_of_mem_blocks {b : BitmapBuddy} {w d i o e : ℕ} (hi : OnRow w i)
    (hwd : w + d = n) {t : Node d} (ht : StoresTree (cell b) t i)
    (hmem : (o, e) ∈ t.blocks (nodeOffset n d i)) :
    e ≤ n ∧ OnRow (n - e) (nodeIndex n e o) ∧ nodeOffset n e (nodeIndex n e o) = o ∧
      StoresTree (cell b) (.used : Node e) (nodeIndex n e o) := by
  induction t generalizing w i with
  | free => simp [Node.blocks] at hmem
  | used =>
      simp only [Node.blocks, List.mem_singleton, Prod.mk.injEq] at hmem
      obtain ⟨rfl, rfl⟩ := hmem
      rw [nodeIndex_nodeOffset hi hwd, show n - e = w by omega]
      exact ⟨by omega, hi, rfl, ht⟩
  | split l r ihl ihr =>
      simp only [Node.blocks, List.mem_append] at hmem
      rcases hmem with hmem | hmem
      · rw [← nodeOffset_left] at hmem
        exact ihl hi.leftLeaf (by omega) ht.2.1 hmem
      · rw [← nodeOffset_right hi hwd] at hmem
        exact ihr hi.rightLeaf (by omega) ht.2.2.1 hmem

/-- `buddy_free` finds the node that was marked for a block. -/
theorem buddyFreeNode_eq {b : BitmapBuddy} (hs : Sized n b) (ht : StoresTree (cell b) t 0)
    {o e : ℕ} (hmem : (o, e) ∈ t.blocks 0) :
    e ≤ n ∧ buddyFreeNode b (8 * o) = some (2 ^ (e + 3), nodeIndex n e o) := by
  have hbase : nodeOffset n n 0 = 0 := by simp [nodeOffset]
  rw [← hbase] at hmem
  obtain ⟨hen, hrow, hoff, hused⟩ := used_of_mem_blocks onRow_zero (Nat.zero_add n) ht hmem
  have hge := hrow.mul_ge (show n - e + e = n by omega)
  have hleaf : (nodeIndex n e o + 1) * 2 ^ e = o + 2 ^ n := by
    unfold nodeOffset at hoff
    omega
  have hpos := Nat.two_pow_pos n
  have hstart : 8 * o + b.size - 1 = 8 * (o + 2 ^ n) - 1 := by
    rw [hs.size, pow_add]
    omega
  refine ⟨hen, ?_⟩
  have hfind := hs.buddyFreeFind_used hrow (show n - e + e = n by omega) hused (32 - e)
  rw [hleaf, show 32 - e + e = 32 by have := hs.hi; omega] at hfind
  simp only [buddyFreeNode, hstart, buddyFreeLeaf_eq (show 0 < o + 2 ^ n by omega),
    Option.bind_eq_bind, Option.bind_some, hfind]

theorem freeClimb_lock (b : BitmapBuddy) (lock : Spinlock) (fuel nodeSize index v : ℕ) :
    freeClimb ok { b with lock := lock } fuel nodeSize index v =
      freeClimb ok b fuel nodeSize index v := by
  induction fuel generalizing nodeSize index v with
  | zero => unfold freeClimb; rfl
  | succ fuel ih =>
      unfold freeClimb
      simp only [ih]
      rfl

/-- `buddy_free` from what its search and its climb return. -/
theorem buddyFree_eq_some {h : KHeap} {cpu cpu' : Processor} {lock lock' : Spinlock}
    {b b' : BitmapBuddy} {ptr offset nodeSize index : ℕ} (hptr : ptr ≠ 0)
    (hacq : acquire h.cpu h.buddy.lock = some (cpu, lock))
    (hb : { h.buddy with lock := lock } = b)
    (hoff : (ptr + 2 ^ 64 - b.space) % 2 ^ 64 = offset) (hlt : offset < b.size)
    (hnode : buddyFreeNode b offset = some (nodeSize, index))
    (hmerge : buddyFreeMerge 32 (buddyUnmark b nodeSize index) nodeSize index = some b')
    (hrel : release cpu b'.lock = some (cpu', lock')) :
    buddyFree h ptr = some ⟨cpu', { b' with lock := lock' }, h.mem⟩ := by
  subst hb hoff
  simp only [buddyFree, hptr, if_false, hacq, Option.bind_eq_bind, Option.bind_some, hlt,
    decide_true, Bool.not_true, Bool.false_eq_true, hnode, hmerge, hrel, Option.pure_def]

/-- `buddy_free` gives back the block at the address it is called with, where no
comparison of sums goes wrong on the way up. -/
theorem Stands.buddyFree (hs : Stands n space h t) (hlock : h.buddy.lock.locked = false)
    (hok : ∀ v w k, ok v w k = true → v + w ≠ k) {o e : ℕ} (hmem : (o, e) ∈ t.blocks 0)
    (hc : freeAvoids ok h.buddy (8 * o) = true) :
    ∃ t' h', buddyFree h (space + 8 * o) = some h' ∧ Release e o t 0 t' ∧
      Stands n space h' t' ∧ h'.buddy.lock.locked = false ∧
      ((∀ v w k, ok v w k = true → ¬ (v + 1 = k ∧ w + 1 = k)) → t.Tidy → t'.Tidy) := by
  have hacq := acquire_of_unlocked h.cpu hlock
  obtain ⟨b, hbdef⟩ : ∃ b, { h.buddy with lock := ⟨true, some h.cpu.hartid⟩ } = b := ⟨_, rfl⟩
  have hb : Sized n b := by subst hbdef; exact ⟨hs.sized.size, hs.sized.lo, hs.sized.hi⟩
  have hrepr : StoresTree (cell b) t 0 := by subst hbdef; exact hs.repr
  have hsp : b.space = space := by subst hbdef; exact hs.space_eq
  have hbase : nodeOffset n n 0 = 0 := by simp [nodeOffset]
  obtain ⟨hen, hnode⟩ := buddyFreeNode_eq hs.sized hs.repr hmem
  have hnode' := (buddyFreeNode_eq hb hrepr hmem).2
  have hfuel : (32 - (n - e)) + (n - e) = 32 := by have := hb.hi; omega
  have hclimb : freeClimb ok b ((32 - (n - e)) + (n - e)) (2 ^ (e + 3)) (nodeIndex n e o) (e + 3) =
      true := by
    have hlog : log2 (2 ^ (e + 3)) = e + 3 := log2_two_pow _ (by have := hb.hi; omega)
    simp only [freeAvoids, hnode, hlog] at hc
    rw [hfuel, ← hbdef, freeClimb_lock]
    exact hc
  have hmem' : (o, e) ∈ t.blocks (nodeOffset n n 0) := by rwa [hbase]
  obtain ⟨-, ⟨k⟩⟩ := given_exists hb hok onRow_zero (Nat.zero_add n) hrepr hmem' hclimb
  have hrelease : Release e o t 0 k.tree := by
    have := k.release
    rwa [hbase] at this
  have hin := mem_blocks_inside hmem
  simp only [Nat.zero_add] at hin
  obtain ⟨-, hnull, hoff⟩ := hs.address (inside_bytes hin.2)
  rw [← hsp] at hoff
  have hlt : 8 * o < b.size := by
    have := inside_bytes hin.2
    have := Nat.two_pow_pos (e + 3)
    rw [hb.size]
    omega
  have hmerge : buddyFreeMerge 32 (buddyUnmark b (2 ^ (e + 3)) (nodeIndex n e o)) (2 ^ (e + 3))
      (nodeIndex n e o) = some k.after := by
    have := k.merge (32 - (n - e))
    rw [hfuel] at this
    rw [this]
    unfold buddyFreeMerge
    simp
  have hlk : k.after.lock = ⟨true, some h.cpu.hartid⟩ := k.header.lock.trans (by rw [← hbdef])
  have hsp' : k.after.space = space := k.header.space.trans hsp
  obtain ⟨c', hrel, -, -⟩ := release_pushOff h.cpu
  rw [← hlk] at hrel
  rw [hsp] at hoff
  have hcall := buddyFree_eq_some hnull hacq hbdef (hsp.symm ▸ hoff) hlt hnode' hmerge hrel
  refine ⟨k.tree, _, hcall, hrelease, ?_, rfl, k.tidy⟩
  exact ⟨⟨(k.header.sized hb).size, hb.lo, hb.hi⟩, hsp', hs.pos, hs.fits, k.repr⟩

end K210Os
