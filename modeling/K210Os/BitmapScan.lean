import K210Os.MachineInt
import K210Os.Memory
import Mathlib.Data.Nat.Bitwise
import Mathlib.Tactic.IntervalCases

/-!
# The search for free bits in a bitmap

`bitmap_scan` looks for the first byte with a free bit, for the first free bit of that byte, and
counts free bits from there on. A call gives the value it returns, `none` where its assertion
fails, and the bytes of `bits` it read.
-/

namespace K210Os

open MachineInt

/-- `bits` is the memory from the first byte of the map on, that of the map and what lies behind
it. The index of each bit of the map is an `int`; no larger map fits into the memory of the
machine. -/
structure Bitmap where
  btmpBytesLen : ℕ
  bits : ℕ → Byte
  int_index : btmpBytesLen * 8 ≤ 2 ^ 31

def bitmapMask : ℕ := 1

namespace Bitmap

def bitmapScanTest (btmp : Bitmap) (bitIdx : ℕ) : Bool :=
  let byteIdx := bitIdx / 8
  let bitOdd := bitIdx % 8
  (btmp.bits byteIdx).toNat &&& (bitmapMask <<< bitOdd) ≠ 0

/-- The loop over the bytes that have no free bit, and the bytes it reads. -/
def byteLoop (btmp : Bitmap) (idxByte : ℕ) : ℕ × List ℕ :=
  if btmp.bits idxByte = 0xff ∧ idxByte < btmp.btmpBytesLen then
    let (found, reads) := byteLoop btmp (idxByte + 1)
    (found, idxByte :: reads)
  else (idxByte, [idxByte])
termination_by btmp.btmpBytesLen - idxByte

/-- `(uint8_t)(BITMAP_MASK << idx_bit) & byte`, whether it is not zero. -/
def masked (byte : Byte) (idxBit : ℕ) : Bool :=
  (bitmapMask <<< idxBit) % 2 ^ 8 &&& byte.toNat ≠ 0

theorem masked_eq_false {byte : Byte} {idxBit : ℕ} (h : 8 ≤ idxBit) :
    masked byte idxBit = false := by
  have hmask : bitmapMask <<< idxBit % 2 ^ 8 = 0 := by
    rw [bitmapMask, Nat.shiftLeft_eq, Nat.one_mul]
    exact Nat.mod_eq_zero_of_dvd (Nat.pow_dvd_pow 2 h)
  rw [masked, hmask, Nat.zero_and]
  rfl

/-- The loop over the bits of one byte. -/
def bitLoop (byte : Byte) (idxBit : ℕ) : ℕ :=
  if masked byte idxBit then bitLoop byte (idxBit + 1) else idxBit
termination_by 8 - idxBit
decreasing_by
  rename_i h
  have : ¬ 8 ≤ idxBit := fun hge => by simp [masked_eq_false hge] at h
  omega

/-- The loop that counts the free bits in a row, once for each bit that `bit_left` holds. -/
def countLoop (btmp : Bitmap) (cnt : ℕ) : ℕ → ℕ → ℕ → ℤ × List ℕ
  | 0, _, _ => (-1, [])
  | bitLeft + 1, nextBit, count =>
      let count := if !btmp.bitmapScanTest nextBit then toUint32 (count + 1) else 0
      if count = cnt then (toInt32 (nextBit - cnt + 1), [nextBit / 8])
      else
        let (bitIdxStart, reads) := countLoop btmp cnt bitLeft (toUint32 (nextBit + 1)) count
        (bitIdxStart, nextBit / 8 :: reads)

def bitmapScan (btmp : Bitmap) (cnt : ℕ) : Option ℤ × List ℕ :=
  let (idxByte, reads) := btmp.byteLoop 0
  if ¬ idxByte < btmp.btmpBytesLen then (none, reads)
  else if idxByte = btmp.btmpBytesLen then (some (-1), reads)
  else
    let idxBit := bitLoop (btmp.bits idxByte) 0
    let bitIdxStart := toInt32 (idxByte * 8 + idxBit)
    if cnt = 1 then (some bitIdxStart, reads ++ [idxByte])
    else
      let bitLeft := toUint32 (btmp.btmpBytesLen * 8 - bitIdxStart)
      let nextBit := toUint32 (bitIdxStart + 1)
      let (bitIdxStart, more) := btmp.countLoop cnt bitLeft nextBit 1
      (some bitIdxStart, reads ++ idxByte :: more)

/-! ### The first free bit -/

theorem and_shiftLeft_ne_zero (x i : ℕ) : decide (x &&& bitmapMask <<< i ≠ 0) = x.testBit i := by
  rw [bitmapMask, Nat.shiftLeft_eq, Nat.one_mul, Nat.and_two_pow]
  cases x.testBit i <;> simp

theorem bitmapScanTest_eq (btmp : Bitmap) (byteIdx : ℕ) {bitOdd : ℕ} (h : bitOdd < 8) :
    btmp.bitmapScanTest (byteIdx * 8 + bitOdd) = (btmp.bits byteIdx).getLsbD bitOdd := by
  have hdiv : (byteIdx * 8 + bitOdd) / 8 = byteIdx := by omega
  have hmod : (byteIdx * 8 + bitOdd) % 8 = bitOdd := by omega
  rw [bitmapScanTest, hdiv, hmod, and_shiftLeft_ne_zero]
  rfl

theorem masked_eq {byte : Byte} {idxBit : ℕ} (h : idxBit < 8) :
    masked byte idxBit = byte.getLsbD idxBit := by
  have hmask : bitmapMask <<< idxBit % 2 ^ 8 = bitmapMask <<< idxBit := by
    apply Nat.mod_eq_of_lt
    rw [bitmapMask, Nat.shiftLeft_eq, Nat.one_mul]
    exact Nat.pow_lt_pow_right (by omega) h
  rw [masked, hmask, Nat.and_comm, and_shiftLeft_ne_zero]
  rfl

/-- The loop over the bytes stops at the first one that is not all ones, or behind the map, and
reads every byte up to there. -/
theorem byteLoop_spec (btmp : Bitmap) {idxByte : ℕ} (h : idxByte ≤ btmp.btmpBytesLen) :
    idxByte ≤ (btmp.byteLoop idxByte).1 ∧ (btmp.byteLoop idxByte).1 ≤ btmp.btmpBytesLen ∧
      (∀ i, idxByte ≤ i → i < (btmp.byteLoop idxByte).1 → btmp.bits i = 0xff) ∧
      ((btmp.byteLoop idxByte).1 < btmp.btmpBytesLen →
        btmp.bits (btmp.byteLoop idxByte).1 ≠ 0xff) ∧
      (btmp.byteLoop idxByte).1 ∈ (btmp.byteLoop idxByte).2 ∧
      ∀ i ∈ (btmp.byteLoop idxByte).2, i ≤ (btmp.byteLoop idxByte).1 := by
  fun_induction byteLoop btmp idxByte with
  | case1 idxByte hfull found reads heq ih =>
    rw [heq] at ih
    obtain ⟨hle, hend, hones, hstop, hmem, hreads⟩ := ih (by omega)
    refine ⟨by omega, hend, ?_, hstop, List.mem_cons_of_mem _ hmem, ?_⟩
    · intro i hi hlt
      rcases Nat.eq_or_lt_of_le hi with rfl | hi
      · exact hfull.1
      · exact hones i hi hlt
    · intro i hi
      rcases List.mem_cons.mp hi with rfl | hi
      · omega
      · exact hreads i hi
  | case2 idxByte hstop =>
    refine ⟨le_refl _, h, ?_, ?_, List.mem_singleton_self _, ?_⟩
    · intro i hi hlt
      omega
    · intro hlt heq
      exact hstop ⟨heq, hlt⟩
    · intro i hi
      exact (List.mem_singleton.mp hi).le

theorem lt_of_ones {byte : Byte} (hbyte : byte ≠ 0xff) {idxBit : ℕ}
    (hones : ∀ i < idxBit, byte.getLsbD i = true) : idxBit < 8 := by
  by_contra hge
  apply hbyte
  apply BitVec.eq_of_getLsbD_eq
  intro i hi
  rw [hones i (by omega)]
  interval_cases i <;> rfl

/-- In a byte that is not all ones the loop over the bits stops at the first zero. -/
theorem bitLoop_spec {byte : Byte} (hbyte : byte ≠ 0xff) {idxBit : ℕ}
    (hones : ∀ i < idxBit, byte.getLsbD i = true) :
    bitLoop byte idxBit < 8 ∧ byte.getLsbD (bitLoop byte idxBit) = false ∧
      ∀ i < bitLoop byte idxBit, byte.getLsbD i = true := by
  have hlt := lt_of_ones hbyte hones
  fun_induction bitLoop byte idxBit with
  | case1 idxBit hset ih =>
    rw [masked_eq hlt] at hset
    have hones' : ∀ i < idxBit + 1, byte.getLsbD i = true := by
      intro i hi
      rcases Nat.lt_succ_iff_lt_or_eq.mp hi with hi | rfl
      · exact hones i hi
      · exact hset
    exact ih hones' (lt_of_ones hbyte hones')
  | case2 idxBit hclear =>
    rw [masked_eq hlt, Bool.not_eq_true] at hclear
    exact ⟨hlt, hclear, hones⟩

/-! ### Runs of free bits -/

/-- The `cnt` bits from `start` on are free and all of them are bits of the map. -/
def FreeRun (btmp : Bitmap) (cnt start : ℕ) : Prop :=
  start + cnt ≤ btmp.btmpBytesLen * 8 ∧
    ∀ i, start ≤ i → i < start + cnt → btmp.bitmapScanTest i = false

def FirstRun (btmp : Bitmap) (cnt start : ℕ) : Prop :=
  btmp.FreeRun cnt start ∧ ∀ earlier < start, ¬ btmp.FreeRun cnt earlier

/-- The call returns the first run, or -1 if there is none, and stays inside the map. -/
structure FindsRun (btmp : Bitmap) (cnt : ℕ) : Prop where
  result : (∃ start : ℕ, btmp.FirstRun cnt start ∧ (btmp.bitmapScan cnt).1 = some (start : ℤ)) ∨
    ((∀ start, ¬ btmp.FreeRun cnt start) ∧ (btmp.bitmapScan cnt).1 = some (-1))
  reads : ∀ i ∈ (btmp.bitmapScan cnt).2, i < btmp.btmpBytesLen

variable {btmp : Bitmap} {cnt : ℕ}

/-- The bit where the counting begins. -/
structure FirstFree (btmp : Bitmap) (bitIdx : ℕ) : Prop where
  lt : bitIdx < btmp.btmpBytesLen * 8
  free : btmp.bitmapScanTest bitIdx = false
  ones : ∀ i < bitIdx, btmp.bitmapScanTest i = true

theorem FirstFree.le_start {bitIdx start : ℕ} (h : btmp.FirstFree bitIdx)
    (hrun : btmp.FreeRun cnt start) (hcnt : 1 ≤ cnt) : bitIdx ≤ start := by
  by_contra hlt
  have hone := h.ones start (by omega)
  rw [hrun.2 start (le_refl start) (by omega)] at hone
  cases hone

theorem firstFree_of_byteLoop {idxByte : ℕ} {reads : List ℕ}
    (hloop : btmp.byteLoop 0 = (idxByte, reads)) (h : idxByte < btmp.btmpBytesLen) :
    btmp.FirstFree (idxByte * 8 + bitLoop (btmp.bits idxByte) 0) := by
  have hspec := btmp.byteLoop_spec (Nat.zero_le btmp.btmpBytesLen)
  simp only [hloop] at hspec
  obtain ⟨-, -, hones, hstop, -, -⟩ := hspec
  have hnone : ∀ i < 0, (btmp.bits idxByte).getLsbD i = true := by
    intro i hi
    omega
  obtain ⟨hlt, hfree, hbelow⟩ := bitLoop_spec (hstop h) hnone
  refine ⟨by omega, ?_, ?_⟩
  · rw [bitmapScanTest_eq btmp _ hlt, hfree]
  · intro i hi
    have hsplit : i = i / 8 * 8 + i % 8 := by omega
    have hodd : i % 8 < 8 := Nat.mod_lt i (by omega)
    rw [hsplit, bitmapScanTest_eq btmp _ hodd]
    rcases Nat.lt_or_ge (i / 8) idxByte with hbyte | hbyte
    · rw [hones (i / 8) (Nat.zero_le _) hbyte]
      generalize i % 8 = k at hodd ⊢
      interval_cases k <;> rfl
    · have hbyte' : i / 8 = idxByte := by omega
      rw [hbyte']
      exact hbelow _ (by omega)

/-- What the counting loop knows before it looks at `nextBit`: the last `count` bits are free, the
one before them is not, and no run ends before `nextBit`. -/
structure Counting (btmp : Bitmap) (cnt nextBit count : ℕ) : Prop where
  le : count ≤ nextBit
  lt : count < cnt
  free : ∀ i, nextBit - count ≤ i → i < nextBit → btmp.bitmapScanTest i = false
  maximal : count < nextBit → btmp.bitmapScanTest (nextBit - count - 1) = true
  none_yet : ∀ start, btmp.FreeRun cnt start → nextBit < start + cnt

namespace Counting

variable {nextBit count : ℕ}

theorem first {bitIdx : ℕ} (h : btmp.FirstFree bitIdx) (hcnt : 1 < cnt) :
    btmp.Counting cnt (bitIdx + 1) 1 where
  le := by omega
  lt := hcnt
  free i hlo hhi := by
    obtain rfl : i = bitIdx := by omega
    exact h.free
  maximal hlt := h.ones _ (by omega)
  none_yet start hrun := by
    have := h.le_start hrun (by omega)
    omega

theorem restart (h : btmp.Counting cnt nextBit count)
    (hset : btmp.bitmapScanTest nextBit = true) : btmp.Counting cnt (nextBit + 1) 0 where
  le := Nat.zero_le _
  lt := by
    have := h.lt
    omega
  free i hlo hhi := by omega
  maximal _ := hset
  none_yet start hrun := by
    have hlt := h.none_yet start hrun
    have hcnt := h.lt
    by_contra hge
    have hfree := hrun.2 nextBit (by omega) (by omega)
    rw [hset] at hfree
    cases hfree

theorem free_succ (h : btmp.Counting cnt nextBit count)
    (hclear : btmp.bitmapScanTest nextBit = false) :
    ∀ i, nextBit + 1 - (count + 1) ≤ i → i < nextBit + 1 → btmp.bitmapScanTest i = false := by
  intro i hlo hhi
  rcases Nat.lt_succ_iff_lt_or_eq.mp hhi with hi | rfl
  · exact h.free i (by omega) hi
  · exact hclear

theorem extend (h : btmp.Counting cnt nextBit count)
    (hclear : btmp.bitmapScanTest nextBit = false) (hne : count + 1 ≠ cnt) :
    btmp.Counting cnt (nextBit + 1) (count + 1) where
  le := by
    have := h.le
    omega
  lt := by
    have := h.lt
    omega
  free := h.free_succ hclear
  maximal hlt := by
    have heq : nextBit + 1 - (count + 1) - 1 = nextBit - count - 1 := by omega
    rw [heq]
    exact h.maximal (by omega)
  none_yet start hrun := by
    have hlt := h.none_yet start hrun
    by_contra hge
    -- a run that ends with this bit is longer than the count, so it holds the bit that stopped it
    have hcount := h.lt
    have hone := h.maximal (by omega)
    rw [hrun.2 (nextBit - count - 1) (by omega) (by omega)] at hone
    cases hone

theorem found (h : btmp.Counting cnt nextBit count)
    (hclear : btmp.bitmapScanTest nextBit = false) (heq : count + 1 = cnt)
    (hin : nextBit < btmp.btmpBytesLen * 8) : btmp.FirstRun cnt (nextBit + 1 - cnt) := by
  have hle := h.le
  refine ⟨⟨by omega, ?_⟩, ?_⟩
  · intro i hlo hhi
    exact h.free_succ hclear i (by omega) (by omega)
  · intro earlier hlt hrun
    have := h.none_yet earlier hrun
    omega

end Counting

/-! ### The loop that counts -/

theorem toUint32_succ {i : ℕ} (h : i + 1 < 2 ^ 32) : toUint32 ((i : ℤ) + 1) = i + 1 := by
  rw [← Nat.cast_add_one]
  exact toUint32_of_lt h

attribute [local simp] countLoop

theorem countLoop_set {bitLeft nextBit count : ℕ} (hnext : nextBit + 1 < 2 ^ 32)
    (hset : btmp.bitmapScanTest nextBit = true) (hcnt : 0 < cnt) :
    btmp.countLoop cnt (bitLeft + 1) nextBit count =
      ((btmp.countLoop cnt bitLeft (nextBit + 1) 0).1,
        nextBit / 8 :: (btmp.countLoop cnt bitLeft (nextBit + 1) 0).2) := by
  simp only [countLoop, hset, toUint32_succ hnext, Bool.not_true, Bool.false_eq_true, if_false]
  rw [if_neg hcnt.ne]

theorem countLoop_clear {bitLeft nextBit count : ℕ} (hnext : nextBit + 1 < 2 ^ 32)
    (hcount : count + 1 < 2 ^ 32) (hclear : btmp.bitmapScanTest nextBit = false)
    (hne : count + 1 ≠ cnt) :
    btmp.countLoop cnt (bitLeft + 1) nextBit count =
      ((btmp.countLoop cnt bitLeft (nextBit + 1) (count + 1)).1,
        nextBit / 8 :: (btmp.countLoop cnt bitLeft (nextBit + 1) (count + 1)).2) := by
  simp only [countLoop, hclear, toUint32_succ hnext, toUint32_succ hcount, Bool.not_false, if_true]
  rw [if_neg hne]

theorem countLoop_found {bitLeft nextBit count : ℕ} (hcount : count + 1 < 2 ^ 32)
    (hclear : btmp.bitmapScanTest nextBit = false) (heq : count + 1 = cnt) :
    btmp.countLoop cnt (bitLeft + 1) nextBit count =
      (toInt32 (nextBit - cnt + 1), [nextBit / 8]) := by
  simp only [countLoop, hclear, toUint32_succ hcount, Bool.not_false, if_true]
  rw [if_pos heq]

theorem succ_add_sub {i n : ℕ} (h : i < n) : i + 1 + (n - i) = n + 1 := by omega

/-- Where the map has a run, the loop returns the first one before it leaves the map. -/
theorem Counting.finds {bitLeft nextBit count start : ℕ} (h : btmp.Counting cnt nextBit count)
    (hrun : btmp.FreeRun cnt start) (hleft : nextBit + bitLeft = btmp.btmpBytesLen * 8 + 1) :
    ∃ first : ℕ, btmp.FirstRun cnt first ∧
      (btmp.countLoop cnt bitLeft nextBit count).1 = first ∧
      ∀ i ∈ (btmp.countLoop cnt bitLeft nextBit count).2, i < btmp.btmpBytesLen := by
  have hint := btmp.int_index
  induction bitLeft generalizing nextBit count with
  | zero =>
    have := h.none_yet start hrun
    have := hrun.1
    omega
  | succ bitLeft ih =>
    have hin : nextBit < btmp.btmpBytesLen * 8 := by
      have := h.none_yet start hrun
      have := hrun.1
      omega
    have hle := h.le
    have hlt := h.lt
    have hbyte : nextBit / 8 < btmp.btmpBytesLen := by omega
    cases hbit : btmp.bitmapScanTest nextBit with
    | true =>
      obtain ⟨first, hfirst, hvalue, hreads⟩ := ih (h.restart hbit) (by omega)
      rw [countLoop_set (by omega) hbit (by omega)]
      exact ⟨first, hfirst, hvalue, List.forall_mem_cons.mpr ⟨hbyte, hreads⟩⟩
    | false =>
      by_cases heq : count + 1 = cnt
      · have hcast : (nextBit : ℤ) - cnt + 1 = (nextBit + 1 - cnt : ℕ) := by omega
        rw [countLoop_found (by omega) hbit heq, hcast, toInt32_of_lt (by omega)]
        exact ⟨_, h.found hbit heq hin, rfl, by simpa using hbyte⟩
      · obtain ⟨first, hfirst, hvalue, hreads⟩ := ih (h.extend hbit heq) (by omega)
        rw [countLoop_clear (by omega) (by omega) hbit heq]
        exact ⟨first, hfirst, hvalue, List.forall_mem_cons.mpr ⟨hbyte, hreads⟩⟩

/-- Where the map has no run, the loop goes on to the byte behind the map. -/
theorem Counting.misses {bitLeft nextBit count : ℕ} (h : btmp.Counting cnt nextBit count)
    (hnone : ∀ start, ¬ btmp.FreeRun cnt start) (hpos : 0 < bitLeft)
    (hleft : nextBit + bitLeft = btmp.btmpBytesLen * 8 + 1) :
    btmp.btmpBytesLen ∈ (btmp.countLoop cnt bitLeft nextBit count).2 := by
  have hint := btmp.int_index
  induction bitLeft generalizing nextBit count with
  | zero => cases hpos
  | succ bitLeft ih =>
    have hle := h.le
    have hlt := h.lt
    cases hbit : btmp.bitmapScanTest nextBit with
    | true =>
      rw [countLoop_set (by omega) hbit (by omega)]
      rcases Nat.eq_zero_or_pos bitLeft with rfl | hmore
      · have hlast : btmp.btmpBytesLen = nextBit / 8 := by omega
        exact hlast ▸ List.mem_cons_self
      · exact List.mem_cons_of_mem _ (ih (h.restart hbit) hmore (by omega))
    | false =>
      rcases Nat.eq_zero_or_pos bitLeft with rfl | hmore
      · have hlast : btmp.btmpBytesLen = nextBit / 8 := by omega
        by_cases heq : count + 1 = cnt
        · rw [countLoop_found (by omega) hbit heq, hlast]
          exact List.mem_singleton_self _
        · rw [countLoop_clear (by omega) (by omega) hbit heq]
          exact hlast ▸ List.mem_cons_self
      · have hne : count + 1 ≠ cnt := fun heq =>
          hnone _ (h.found hbit heq (by omega)).1
        rw [countLoop_clear (by omega) (by omega) hbit hne]
        exact List.mem_cons_of_mem _ (ih (h.extend hbit hne) hmore (by omega))

/-! ### The call -/

section Call

variable {idxByte : ℕ} {reads : List ℕ} (hloop : btmp.byteLoop 0 = (idxByte, reads))

include hloop

theorem bitmapScan_full (h : ¬ idxByte < btmp.btmpBytesLen) :
    btmp.bitmapScan cnt = (none, reads) := by
  unfold bitmapScan
  rw [hloop]
  exact if_pos h

theorem bitmapScan_one (h : idxByte < btmp.btmpBytesLen) {idxBit : ℕ}
    (hbit : bitLoop (btmp.bits idxByte) 0 = idxBit) (hlt : idxByte * 8 + idxBit < 2 ^ 31) :
    btmp.bitmapScan 1 = (some ((idxByte * 8 + idxBit : ℕ) : ℤ), reads ++ [idxByte]) := by
  have hstart : toInt32 (idxByte * 8 + idxBit) = (idxByte * 8 + idxBit : ℕ) := by
    rw [← toInt32_of_lt hlt, Nat.cast_add, Nat.cast_mul, Nat.cast_ofNat]
  unfold bitmapScan
  rw [hloop]
  refine (if_neg (not_not.mpr h)).trans ?_
  refine (if_neg h.ne).trans ?_
  refine (if_pos rfl).trans ?_
  rw [hbit, hstart]

theorem bitmapScan_more (h : idxByte < btmp.btmpBytesLen) {idxBit bitIdx : ℕ}
    (hbit : bitLoop (btmp.bits idxByte) 0 = idxBit) (hidx : idxByte * 8 + idxBit = bitIdx)
    (hlt : bitIdx < btmp.btmpBytesLen * 8) (hcnt : cnt ≠ 1) :
    btmp.bitmapScan cnt =
      (some (btmp.countLoop cnt (btmp.btmpBytesLen * 8 - bitIdx) (bitIdx + 1) 1).1,
        reads ++ idxByte ::
          (btmp.countLoop cnt (btmp.btmpBytesLen * 8 - bitIdx) (bitIdx + 1) 1).2) := by
  have hint := btmp.int_index
  have hstart : toInt32 (idxByte * 8 + idxBit) = (bitIdx : ℕ) := by
    rw [← toInt32_of_lt (by omega : bitIdx < 2 ^ 31), ← hidx, Nat.cast_add, Nat.cast_mul,
      Nat.cast_ofNat]
  have hleft : toUint32 (btmp.btmpBytesLen * 8 - (bitIdx : ℤ)) =
      btmp.btmpBytesLen * 8 - bitIdx := by
    have hcast : (btmp.btmpBytesLen : ℤ) * 8 - bitIdx =
        (btmp.btmpBytesLen * 8 - bitIdx : ℕ) := by omega
    rw [hcast, toUint32_of_lt (by omega)]
  have hnext : toUint32 ((bitIdx : ℤ) + 1) = bitIdx + 1 := toUint32_succ (by omega)
  unfold bitmapScan
  rw [hloop]
  refine (if_neg (not_not.mpr h)).trans ?_
  refine (if_neg h.ne).trans ?_
  refine (if_neg hcnt).trans ?_
  rw [hbit, hstart, hleft, hnext]

end Call

theorem freeRun_one {start : ℕ} (h : btmp.FirstFree start) : btmp.FirstRun 1 start := by
  refine ⟨⟨h.lt, fun i hlo hhi => ?_⟩, fun earlier hlt hrun => ?_⟩
  · obtain rfl := Nat.le_antisymm (Nat.lt_succ_iff.mp hhi) hlo
    exact h.free
  · exact absurd (h.le_start hrun (le_refl 1)) (by omega)

theorem findsRun_of_freeRun {start : ℕ} (hcnt : 1 ≤ cnt) (hrun : btmp.FreeRun cnt start) :
    btmp.FindsRun cnt := by
  have hint := btmp.int_index
  have hspec := btmp.byteLoop_spec (Nat.zero_le btmp.btmpBytesLen)
  rcases hloop : btmp.byteLoop 0 with ⟨idxByte, reads⟩
  rw [hloop] at hspec
  obtain ⟨-, hend, hones, -, -, hreads⟩ := hspec
  have hlt : idxByte < btmp.btmpBytesLen := by
    -- the byte where the run starts is not all ones
    have hclear := hrun.2 start (le_refl _) (by omega)
    have hodd : start % 8 < 8 := Nat.mod_lt start (by omega)
    rw [show start = start / 8 * 8 + start % 8 by omega, bitmapScanTest_eq btmp _ hodd] at hclear
    by_contra hge
    have hbyte : start / 8 < idxByte := by
      have := hrun.1
      omega
    have hone := hones _ (Nat.zero_le _) hbyte
    rw [hone] at hclear
    generalize start % 8 = k at hodd hclear
    interval_cases k <;> cases hclear
  have hfirst := firstFree_of_byteLoop hloop hlt
  have hin := hfirst.lt
  have hbytes : ∀ i ∈ reads, i < btmp.btmpBytesLen := by
    intro i hi
    exact (hreads i hi).trans_lt hlt
  by_cases hone : cnt = 1
  · subst hone
    have hcall := bitmapScan_one hloop hlt rfl (by omega)
    refine ⟨Or.inl ⟨_, freeRun_one hfirst, by rw [hcall]⟩, ?_⟩
    rw [hcall]
    exact List.forall_mem_append.mpr ⟨hbytes, by simpa using hlt⟩
  · have hcall := bitmapScan_more hloop hlt rfl rfl hin hone
    have hcounting := Counting.first hfirst (by omega : 1 < cnt)
    obtain ⟨first, hrunFirst, hvalue, hmore⟩ := hcounting.finds hrun (succ_add_sub hin)
    refine ⟨Or.inl ⟨first, hrunFirst, by rw [hcall, hvalue]⟩, ?_⟩
    rw [hcall]
    exact List.forall_mem_append.mpr ⟨hbytes, List.forall_mem_cons.mpr ⟨hlt, hmore⟩⟩

/-- A map without a run is left: by the loop over the bytes if no bit is free, else by the loop
that counts. -/
theorem read_behind_of_not_freeRun (hcnt : 1 ≤ cnt) (hnone : ∀ start, ¬ btmp.FreeRun cnt start) :
    btmp.btmpBytesLen ∈ (btmp.bitmapScan cnt).2 := by
  have hspec := btmp.byteLoop_spec (Nat.zero_le btmp.btmpBytesLen)
  rcases hloop : btmp.byteLoop 0 with ⟨idxByte, reads⟩
  rw [hloop] at hspec
  obtain ⟨-, hend, -, -, hmem, -⟩ := hspec
  by_cases hlt : idxByte < btmp.btmpBytesLen
  · have hfirst := firstFree_of_byteLoop hloop hlt
    have hin := hfirst.lt
    have hne : cnt ≠ 1 := by
      rintro rfl
      exact hnone _ (freeRun_one hfirst).1
    have hcounting := Counting.first hfirst (by omega : 1 < cnt)
    have hbehind := hcounting.misses hnone (Nat.sub_pos_of_lt hin) (succ_add_sub hin)
    rw [bitmapScan_more hloop hlt rfl rfl hin hne]
    exact List.mem_append_right _ (List.mem_cons_of_mem _ hbehind)
  · rw [bitmapScan_full hloop hlt]
    have hlast : idxByte = btmp.btmpBytesLen := by omega
    exact hlast ▸ hmem

/-- The call does what it is for exactly if the map has a run to be found. -/
theorem bitmapScan_findsRun_iff (hcnt : 1 ≤ cnt) :
    btmp.FindsRun cnt ↔ ∃ start, btmp.FreeRun cnt start := by
  constructor
  · intro hfinds
    by_contra hnone
    rw [not_exists] at hnone
    exact lt_irrefl _ (hfinds.reads _ (read_behind_of_not_freeRun hcnt hnone))
  · rintro ⟨start, hrun⟩
    exact findsRun_of_freeRun hcnt hrun

/-- The bits 6 to 9 of a map of two bytes are free. -/
def crossingMap : Bitmap where
  btmpBytesLen := 2
  bits := fun i => if i = 0 then 0x3f else 0xfc
  int_index := by decide

theorem bitmapScan_crossing : crossingMap.FindsRun 4 := by
  apply (bitmapScan_findsRun_iff (by decide)).mpr
  refine ⟨6, by decide, fun i hlo hhi => ?_⟩
  interval_cases i <;> rfl

/-- Only the last bit of a map of one byte is free, and the memory behind it is zero. -/
def lastBitMap : Bitmap where
  btmpBytesLen := 1
  bits := fun i => if i = 0 then 0x7f else 0
  int_index := by decide

/-- Two bits are found where the second one lies behind the map. -/
theorem bitmapScan_leaves_map :
    (lastBitMap.bitmapScan 2).1 = some 7 ∧ ¬ lastBitMap.FindsRun 2 := by
  have hloop : lastBitMap.byteLoop 0 = (0, [0]) := by
    rw [byteLoop, if_neg (by decide)]
  have hbit : bitLoop (lastBitMap.bits 0) 0 = 7 := by
    simp [lastBitMap, bitLoop, masked, bitmapMask]
  have hcall := bitmapScan_more hloop (by decide) hbit rfl (by decide) (by decide : 2 ≠ 1)
  have hresult : (lastBitMap.bitmapScan 2).1 = some 7 := by
    rw [hcall]
    rfl
  refine ⟨hresult, fun hfinds => ?_⟩
  rcases hfinds.result with ⟨start, hfirst, -⟩ | ⟨-, hminus⟩
  · obtain ⟨hin, hfree⟩ := hfirst.1
    have hclear := hfree start (le_refl _) (by omega)
    have hlt : start ≤ 6 := Nat.le_of_add_le_add_right hin
    interval_cases start <;> cases hclear
  · rw [hresult] at hminus
    cases hminus

end Bitmap

end K210Os
