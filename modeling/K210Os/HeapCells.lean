import K210Os.MachineInt
import K210Os.MaxHeap
import Mathlib.Data.List.GetD
import Mathlib.Tactic.IntervalCases

/-!
# The max-heap in its array

The functions of the heap once more, with positions of type `int`, sizes of 64 bits and an
array of `MaxSize` cells. An access beside the array is `none`, as is a panic and a loop that
does not come to its end within `fuel` rounds.
-/

namespace K210Os

open MachineInt

structure HeapCells where
  heapArray : List ℕ
  currentSize : ℕ
  maxSize : ℕ

namespace HeapCells

def read (a : List ℕ) (pos : ℤ) : Option ℕ := if 0 ≤ pos then a[pos.toNat]? else none

def write (a : List ℕ) (pos : ℤ) (x : ℕ) : Option (List ℕ) :=
  if 0 ≤ pos ∧ pos.toNat < a.length then some (a.set pos.toNat x) else none

def heapParent (pos : ℤ) : ℤ := (toInt32 (pos - 1)).tdiv 2

/-- The condition of the loop of `heap_SiftUp`. -/
def risesFrom (a : List ℕ) (temp : ℕ) (temppos : ℤ) : Option Bool :=
  if temppos > 0 then (read a (heapParent temppos)).map fun p => decide (p < temp) else some false

def siftUpLoop (temp : ℕ) : ℕ → List ℕ → ℤ → Option (List ℕ)
  | 0, _, _ => none
  | fuel + 1, a, temppos => do
      if ← risesFrom a temp temppos then
        let p ← read a (heapParent temppos)
        let a ← write a temppos p
        siftUpLoop temp fuel a (heapParent temppos)
      else write a temppos temp

def heapSiftUp (fuel : ℕ) (m : HeapCells) (pos : ℤ) : Option HeapCells := do
  let temp ← read m.heapArray pos
  let heapArray ← siftUpLoop temp fuel m.heapArray pos
  return { m with heapArray }

/-- The choice of a child in `heap_SiftDown`. -/
def largerChild (a : List ℕ) (n : ℕ) (j : ℤ) : Option ℤ :=
  if toUint64 j < (n + 2 ^ 64 - 1) % 2 ^ 64 then do
    let left ← read a j
    let right ← read a (toInt32 (j + 1))
    return if left < right then toInt32 (j + 1) else j
  else some j

def siftDownLoop (temp n : ℕ) : ℕ → List ℕ → ℤ → Option (List ℕ)
  | 0, _, _ => none
  | fuel + 1, a, i =>
      let j := toInt32 (2 * i + 1)
      if toUint64 j < n then do
        let j ← largerChild a n j
        let child ← read a j
        if temp < child then
          let a ← write a i child
          siftDownLoop temp n fuel a j
        else write a i temp
      else write a i temp

def heapSiftDown (fuel : ℕ) (m : HeapCells) (pos : ℤ) : Option HeapCells := do
  let temp ← read m.heapArray pos
  let heapArray ← siftDownLoop temp m.currentSize fuel m.heapArray pos
  return { m with heapArray }

def heapInsert (fuel : ℕ) (m : HeapCells) (newnode : ℕ) : Option HeapCells :=
  if m.currentSize = m.maxSize then none
  else do
    let heapArray ← write m.heapArray m.currentSize newnode
    let m ← heapSiftUp fuel { m with heapArray } (toInt32 m.currentSize)
    return { m with currentSize := (m.currentSize + 1) % 2 ^ 64 }

def heapRemoveMax (fuel : ℕ) (m : HeapCells) : Option HeapCells :=
  if m.currentSize = 0 then none
  else do
    let t ← read m.heapArray 0
    let last ← read m.heapArray (m.currentSize - 1)
    let heapArray ← write m.heapArray 0 last
    let heapArray ← write heapArray (m.currentSize - 1) t
    let m := { m with heapArray, currentSize := m.currentSize - 1 }
    if m.currentSize > 1 then heapSiftDown fuel m 0 else return m

def heapTop (m : HeapCells) : Option ℕ := read m.heapArray 0

/-! ## Cells as a function -/

def cells (a : List ℕ) (i : ℕ) : ℕ := a.getD i 0

def toMaxHeap (m : HeapCells) : MaxHeap := ⟨cells m.heapArray, m.currentSize, m.maxSize⟩

section Cells

variable {a : List ℕ} {i n fuel x : ℕ}

theorem heapParent_of_lt (hpos : 0 < i) (h : i < 2 ^ 31) : heapParent i = (K210Os.heapParent i : ℕ) := by
  obtain ⟨k, rfl⟩ : ∃ k, i = k + 1 := ⟨i - 1, by omega⟩
  have hpred : ((k + 1 : ℕ) : ℤ) - 1 = (k : ℕ) := by omega
  rw [heapParent, hpred, toInt32_of_lt (by omega), K210Os.heapParent, Nat.add_sub_cancel,
    Int.tdiv_eq_ediv_of_nonneg (Int.natCast_nonneg k)]
  omega

theorem read_of_lt (h : i < a.length) : read a i = some (cells a i) := by
  rw [read, if_pos (Int.natCast_nonneg i), Int.toNat_natCast, cells, List.getD_eq_getElem a 0 h,
    List.getElem?_eq_getElem h]

theorem write_of_lt (h : i < a.length) (x : ℕ) : write a i x = some (a.set i x) := by
  rw [write, Int.toNat_natCast, if_pos ⟨Int.natCast_nonneg i, h⟩]

theorem cells_set (h : i < a.length) (x : ℕ) : cells (a.set i x) = Function.update (cells a) i x := by
  funext k
  rcases eq_or_ne k i with rfl | hne
  · rw [Function.update_self, cells, List.getD_eq_getElem _ 0 (by rwa [List.length_set]),
      List.getElem_set_self]
  · rw [Function.update_of_ne hne, cells, cells, List.getD_eq_getElem?_getD,
      List.getD_eq_getElem?_getD, List.getElem?_set_ne hne.symm]

/-- The loop runs to its end inside the array, and does what it does over an array without
end. -/
theorem siftUpLoop_refines (temp : ℕ) (hlen : a.length < 2 ^ 31) (hi : i < a.length) (hfuel : i < fuel) :
    ∃ a', siftUpLoop temp fuel a i = some a' ∧ a'.length = a.length ∧
      cells a' = MaxHeap.siftUpLoop temp (cells a) i := by
  induction fuel generalizing a i with
  | zero => exact absurd hfuel (Nat.not_lt_zero i)
  | succ fuel ih =>
      have hrises : risesFrom a temp i =
          some (decide (0 < i ∧ cells a (K210Os.heapParent i) < temp)) := by
        rcases Nat.eq_zero_or_pos i with rfl | hpos
        · rfl
        · have hup : K210Os.heapParent i < i := by unfold K210Os.heapParent; omega
          rw [risesFrom, if_pos (Int.natCast_pos.mpr hpos), heapParent_of_lt hpos (by omega),
            read_of_lt (hup.trans hi), Option.map_some]
          simp [hpos]
      unfold siftUpLoop MaxHeap.siftUpLoop
      rw [hrises]
      by_cases hloop : 0 < i ∧ cells a (K210Os.heapParent i) < temp
      · obtain ⟨hpos, hlt⟩ := hloop
        have hup : K210Os.heapParent i < i := by unfold K210Os.heapParent; omega
        have hset : (a.set i (cells a (K210Os.heapParent i))).length = a.length := List.length_set
        obtain ⟨a', hrun, hlen', hcells⟩ := ih (a := a.set i (cells a (K210Os.heapParent i)))
          (i := K210Os.heapParent i) (by omega) (by omega) (by omega)
        refine ⟨a', ?_, hlen'.trans hset, ?_⟩
        · rw [heapParent_of_lt hpos (by omega), read_of_lt (hup.trans hi)]
          simpa [hpos, hlt, write_of_lt hi] using hrun
        · rw [if_pos ⟨hpos, hlt⟩, hcells, cells_set hi]
      · refine ⟨a.set i temp, ?_, List.length_set, ?_⟩
        · simp [hloop, write_of_lt hi]
        · rw [if_neg hloop, cells_set hi]

theorem largerChild_of_lt (hlen : a.length < 2 ^ 31) (hn : n ≤ a.length) (hi : i < n) :
    largerChild a n i = some ((MaxHeap.largerChild (cells a) n i : ℕ) : ℤ) := by
  have hpred : (n + 2 ^ 64 - 1) % 2 ^ 64 = n - 1 := by omega
  rw [largerChild, MaxHeap.largerChild, toUint64_of_lt (by omega), hpred]
  by_cases hright : i < n - 1
  · have hnext : toInt32 ((i : ℤ) + 1) = (i + 1 : ℕ) := by
      rw [← toInt32_of_lt (i := i + 1) (by omega)]
      rfl
    rw [if_pos hright, hnext, read_of_lt (hi.trans_le hn), read_of_lt (by omega)]
    by_cases hlt : cells a i < cells a (i + 1)
    · simp [hright, hlt]
    · simp [hlt]
  · rw [if_neg hright, if_neg fun h => hright h.1]

/-- As `siftUpLoop_refines`. -/
theorem siftDownLoop_refines (temp : ℕ) (hlen : a.length < 2 ^ 30) (hn : n ≤ a.length) (hi : i < n)
    (hfuel : n - i < fuel) :
    ∃ a', siftDownLoop temp n fuel a i = some a' ∧ a'.length = a.length ∧
      cells a' = MaxHeap.siftDownLoop temp n (cells a) i := by
  induction fuel generalizing a i with
  | zero => exact absurd hfuel (Nat.not_lt_zero _)
  | succ fuel ih =>
      have hchild : toInt32 (2 * (i : ℤ) + 1) = (2 * i + 1 : ℕ) := by
        rw [← toInt32_of_lt (i := 2 * i + 1) (by omega)]
        rfl
      unfold siftDownLoop MaxHeap.siftDownLoop
      dsimp only
      rw [hchild, toUint64_of_lt (by omega)]
      by_cases hj : 2 * i + 1 < n
      · rw [if_pos hj, dif_pos hj, largerChild_of_lt (by omega) hn hj]
        obtain ⟨hge, hjn, -, -⟩ := MaxHeap.largerChild_spec (a := cells a) hj
        generalize MaxHeap.largerChild (cells a) n (2 * i + 1) = j at hge hjn
        rw [Option.bind_eq_bind, Option.bind_some, read_of_lt (hjn.trans_le hn),
          Option.bind_eq_bind, Option.bind_some]
        by_cases hlt : temp < cells a j
        · have hset : (a.set i (cells a j)).length = a.length := List.length_set
          obtain ⟨a', hrun, hlen', hcells⟩ := ih (a := a.set i (cells a j)) (i := j) (by omega)
            (by omega) hjn (by omega)
          refine ⟨a', ?_, hlen'.trans hset, ?_⟩
          · rw [if_pos hlt, write_of_lt (hi.trans_le hn)]
            exact hrun
          · rw [if_pos hlt, hcells, cells_set (hi.trans_le hn)]
        · refine ⟨a.set i temp, ?_, List.length_set, ?_⟩
          · rw [if_neg hlt, write_of_lt (hi.trans_le hn)]
          · rw [if_neg hlt, cells_set (hi.trans_le hn)]
      · refine ⟨a.set i temp, ?_, List.length_set, ?_⟩
        · rw [if_neg hj, write_of_lt (hi.trans_le hn)]
        · rw [dif_neg hj, cells_set (hi.trans_le hn)]

end Cells

/-! ## Heaps -/

def elements (m : HeapCells) : Multiset ℕ := m.toMaxHeap.elements

/-- A max-heap in an array of its own. -/
structure HeapIn extends HeapCells where
  length : heapArray.length = maxSize
  small : maxSize < 2 ^ 30
  le : currentSize ≤ maxSize
  ordered : toHeapCells.toMaxHeap.Ordered

section Heaps

variable {h : HeapIn} {fuel x : ℕ}

theorem heapInsert_refines (hroom : h.currentSize < h.maxSize) (hfuel : h.currentSize < fuel) :
    ∃ m, heapInsert fuel h.toHeapCells x = some m ∧ m.heapArray.length = h.maxSize ∧
      MaxHeap.heapInsert h.toMaxHeap x = some m.toMaxHeap := by
  have hlen := h.length
  have hsmall := h.small
  have hsize : h.currentSize < h.heapArray.length := by omega
  have hset : (h.heapArray.set h.currentSize x).length = h.maxSize := by
    rw [List.length_set, hlen]
  obtain ⟨a, hrun, hlen', hcells⟩ := siftUpLoop_refines (a := h.heapArray.set h.currentSize x) x
    (by omega) (by omega) hfuel
  have hread : read (h.heapArray.set h.currentSize x) h.currentSize = some x := by
    rw [read_of_lt (by omega), cells_set hsize, Function.update_self]
  refine ⟨⟨a, h.currentSize + 1, h.maxSize⟩, ?_, hlen'.trans hset, ?_⟩
  · have hsucc : (h.currentSize + 1) % 2 ^ 64 = h.currentSize + 1 := by omega
    simp only [heapInsert, if_neg hroom.ne, write_of_lt hsize, heapSiftUp,
      toInt32_of_lt (show h.currentSize < 2 ^ 31 by omega), Option.bind_eq_bind, Option.bind_some,
      hread, hrun, Option.pure_def, hsucc]
  · simp only [MaxHeap.heapInsert, toMaxHeap, if_neg hroom.ne, MaxHeap.heapSiftUp, hcells,
      cells_set hsize, Function.update_self]

theorem heapRemoveMax_refines (hpos : 0 < h.currentSize) (hfuel : h.currentSize < fuel) :
    ∃ m, heapRemoveMax fuel h.toHeapCells = some m ∧ m.heapArray.length = h.maxSize ∧
      MaxHeap.heapRemoveMax h.toMaxHeap = some m.toMaxHeap := by
  obtain ⟨n, hn⟩ : ∃ n, h.currentSize = n + 1 := ⟨h.currentSize - 1, by omega⟩
  have hlen := h.length
  have hsmall := h.small
  have hle := h.le
  have hlast : ((n + 1 : ℕ) : ℤ) - 1 = (n : ℕ) := by omega
  have hlt : n < h.heapArray.length := by omega
  have hfirst : 0 < h.heapArray.length := by omega
  obtain ⟨b, hb⟩ : ∃ b, (h.heapArray.set 0 (cells h.heapArray n)).set n (cells h.heapArray 0) = b :=
    ⟨_, rfl⟩
  have hblen : b.length = h.maxSize := by rw [← hb, List.length_set, List.length_set, hlen]
  have hbcells : cells b = Function.update (Function.update (cells h.heapArray) 0
      (cells h.heapArray n)) n (cells h.heapArray 0) := by
    rw [← hb, cells_set (by rwa [List.length_set]), cells_set hfirst]
  have hzero : read h.heapArray 0 = some (cells h.heapArray 0) := read_of_lt hfirst
  have hwrite : write h.heapArray 0 (cells h.heapArray n) =
      some (h.heapArray.set 0 (cells h.heapArray n)) := write_of_lt hfirst _
  have hwrite' : write (h.heapArray.set 0 (cells h.heapArray n)) (n : ℕ) (cells h.heapArray 0) =
      some b := by
    rw [write_of_lt (by rwa [List.length_set]), hb]
  have hcall : heapRemoveMax fuel h.toHeapCells =
      if n > 1 then heapSiftDown fuel ⟨b, n, h.maxSize⟩ 0 else some ⟨b, n, h.maxSize⟩ := by
    simp only [heapRemoveMax, hn, if_neg (Nat.succ_ne_zero n), hzero, hlast, read_of_lt hlt, hwrite,
      hwrite', Option.bind_eq_bind, Option.bind_some, Nat.add_sub_cancel, Option.pure_def]
  have hmax : MaxHeap.heapRemoveMax h.toMaxHeap =
      some (if n > 1 then MaxHeap.heapSiftDown ⟨cells b, n, h.maxSize⟩ 0
        else ⟨cells b, n, h.maxSize⟩) := by
    simp [MaxHeap.heapRemoveMax, MaxHeap.heapEmpty, toMaxHeap, hn, hbcells]
  rw [hcall, hmax]
  by_cases hlarge : n > 1
  · obtain ⟨a, hrun, hlen', hcells⟩ := siftDownLoop_refines (a := b) (n := n) (i := 0)
      (cells b 0) (by omega) (by omega) (by omega) (show n - 0 < fuel by omega)
    have hread : read b 0 = some (cells b 0) := read_of_lt (i := 0) (by omega)
    refine ⟨⟨a, n, h.maxSize⟩, ?_, hlen'.trans hblen, ?_⟩
    · rw [if_pos hlarge]
      have hrun : siftDownLoop (cells b 0) n fuel b 0 = some a := hrun
      simp only [heapSiftDown, hread, hrun, Option.bind_eq_bind, Option.bind_some, Option.pure_def]
    · rw [if_pos hlarge, MaxHeap.heapSiftDown]
      exact congrArg (fun c => some (MaxHeap.mk c n h.maxSize)) hcells.symm
  · refine ⟨⟨b, n, h.maxSize⟩, ?_, hblen, ?_⟩
    · rw [if_neg hlarge]
    · rw [if_neg hlarge]
      rfl

/-- The operations of the heap on its array. -/
theorem heap_operations (h : HeapIn) (x : ℕ) (hfuel : h.currentSize < fuel) :
    (h.currentSize < h.maxSize → ∃ h' : HeapIn,
      heapInsert fuel h.toHeapCells x = some h'.toHeapCells ∧ h'.maxSize = h.maxSize ∧
        h'.elements = x ::ₘ h.elements) ∧
    (0 < h.currentSize → ∃ (t : ℕ) (h' : HeapIn), heapTop h.toHeapCells = some t ∧
      (∀ y ∈ h.elements, y ≤ t) ∧ heapRemoveMax fuel h.toHeapCells = some h'.toHeapCells ∧
        h'.maxSize = h.maxSize ∧ h.elements = t ::ₘ h'.elements) ∧
    ∃ h' : HeapIn, h'.toHeapCells = { h.toHeapCells with currentSize := h.currentSize - 1 } := by
  refine ⟨fun hroom => ?_, fun hpos => ?_, ?_⟩
  · obtain ⟨m, hrun, hlen, hmax⟩ := heapInsert_refines (x := x) hroom hfuel
    obtain ⟨m', hspec, hord, helem, hsize, hmaxSize⟩ := MaxHeap.heapInsert_spec h.ordered hroom x
    obtain rfl := Option.some.inj (hspec.symm.trans hmax)
    exact ⟨⟨m, hlen.trans hmaxSize.symm, hmaxSize.trans_lt h.small,
      hsize.trans_le (hroom.trans_eq hmaxSize.symm), hord⟩, hrun, hmaxSize, helem⟩
  · obtain ⟨m, hrun, hlen, hmax⟩ := heapRemoveMax_refines hpos hfuel
    obtain ⟨m', hspec, hord, helem, hsize, hmaxSize, -⟩ := MaxHeap.heapRemoveMax_spec h.ordered hpos
    obtain rfl := Option.some.inj (hspec.symm.trans hmax)
    have hle : m.currentSize ≤ m.maxSize := by
      have hsize : m.currentSize + 1 = h.currentSize := hsize
      have hmaxSize : m.maxSize = h.maxSize := hmaxSize
      have hle := h.le
      omega
    exact ⟨cells h.heapArray 0, ⟨m, hlen.trans hmaxSize.symm, hmaxSize.trans_lt h.small, hle, hord⟩,
      read_of_lt (hpos.trans_le (h.le.trans_eq h.length.symm)), fun y hy => h.ordered.le_heapTop hy,
      hrun, hmaxSize, helem⟩
  · have hord := ArrayHeap.HeapOrdered.take h.ordered (Nat.sub_le h.currentSize 1)
    exact ⟨⟨{ h.toHeapCells with currentSize := h.currentSize - 1 }, h.length, h.small,
      (Nat.sub_le _ _).trans h.le, hord⟩, rfl⟩

def exampleHeap : HeapIn where
  heapArray := [5, 3, 5, 0]
  currentSize := 3
  maxSize := 4
  length := rfl
  small := by decide
  le := by decide
  ordered := by
    intro i hpos hi
    change i < 3 at hi
    interval_cases i
    · decide
    · decide

/-- With the greatest element twice in the heap. -/
theorem heap_operations_twice :
    (∃ h' : HeapIn, heapInsert 4 exampleHeap.toHeapCells 9 = some h'.toHeapCells ∧
      h'.elements = 9 ::ₘ exampleHeap.elements) ∧
    ∃ h' : HeapIn, heapRemoveMax 4 exampleHeap.toHeapCells = some h'.toHeapCells ∧
      exampleHeap.elements = 5 ::ₘ h'.elements := by
  obtain ⟨hinsert, hremove, -⟩ :=
    heap_operations exampleHeap 9 (show exampleHeap.currentSize < 4 by decide)
  obtain ⟨h', hrun, -, helem⟩ := hinsert (by decide)
  obtain ⟨t, h'', htop, -, hrun', -, helem'⟩ := hremove (by decide)
  obtain rfl : 5 = t := Option.some.inj htop
  exact ⟨⟨h', hrun, helem⟩, h'', hrun', helem'⟩

end Heaps

end HeapCells

end K210Os
