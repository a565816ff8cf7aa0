import K210Os.ArrayHeap
import Mathlib.Data.Nat.Notation

/-!
# The max-heap of recycled frames

`struct maxHeap` with its sift loops. The loops carry the sifted value `temp` and
write it only at their end, as the source does; positions stay far below the range
of the source's `int`. `none` is a panic.
-/

namespace K210Os

structure MaxHeap where
  heapArray : ℕ → ℕ
  currentSize : ℕ
  maxSize : ℕ

/-- `heap_init` over the memory at `base`. -/
def heapInit (base : ℕ → ℕ) (n : ℕ) : MaxHeap := ⟨base, 0, n⟩

def heapParent (pos : ℕ) : ℕ := (pos - 1) / 2

namespace MaxHeap

def heapEmpty (m : MaxHeap) : Bool := m.currentSize == 0

def heapTop (m : MaxHeap) : ℕ := m.heapArray 0

def siftUpLoop (temp : ℕ) (a : ℕ → ℕ) (temppos : ℕ) : ℕ → ℕ :=
  if temppos > 0 ∧ a (heapParent temppos) < temp then
    siftUpLoop temp (Function.update a temppos (a (heapParent temppos))) (heapParent temppos)
  else Function.update a temppos temp
termination_by temppos
decreasing_by simp only [heapParent]; omega

def heapSiftUp (m : MaxHeap) (pos : ℕ) : MaxHeap :=
  { m with heapArray := siftUpLoop (m.heapArray pos) m.heapArray pos }

/-- The larger of the two children of a node whose left child is `j`. -/
def largerChild (a : ℕ → ℕ) (n j : ℕ) : ℕ := if j < n - 1 ∧ a j < a (j + 1) then j + 1 else j

theorem le_largerChild (a : ℕ → ℕ) (n j : ℕ) : j ≤ largerChild a n j := by
  unfold largerChild
  split <;> omega

def siftDownLoop (temp n : ℕ) (a : ℕ → ℕ) (i : ℕ) : ℕ → ℕ :=
  let j := 2 * i + 1
  if _h : j < n then
    let j := largerChild a n j
    if temp < a j then siftDownLoop temp n (Function.update a i (a j)) j
    else Function.update a i temp
  else Function.update a i temp
termination_by n - i
decreasing_by
  have := le_largerChild a n (2 * i + 1)
  omega

def heapSiftDown (m : MaxHeap) (pos : ℕ) : MaxHeap :=
  { m with heapArray := siftDownLoop (m.heapArray pos) m.currentSize m.heapArray pos }

def heapInsert (m : MaxHeap) (newnode : ℕ) : Option MaxHeap :=
  if m.currentSize = m.maxSize then none
  else
    let m := { m with heapArray := Function.update m.heapArray m.currentSize newnode }
    let m := heapSiftUp m m.currentSize
    some { m with currentSize := m.currentSize + 1 }

def heapRemoveMax (m : MaxHeap) : Option MaxHeap :=
  if m.heapEmpty then none
  else
    let t := m.heapArray 0
    let a := Function.update m.heapArray 0 (m.heapArray (m.currentSize - 1))
    let a := Function.update a (m.currentSize - 1) t
    let m := { m with heapArray := a, currentSize := m.currentSize - 1 }
    some (if m.currentSize > 1 then heapSiftDown m 0 else m)

def isSome (m : MaxHeap) (ppn : ℕ) : Bool :=
  (List.range m.currentSize).any fun i => m.heapArray i == ppn

open ArrayHeap

/-- The elements of the heap. -/
def elements (m : MaxHeap) : Multiset ℕ := ArrayHeap.elements m.heapArray m.currentSize

def Ordered (m : MaxHeap) : Prop := HeapOrdered m.heapArray m.currentSize

variable {a : ℕ → ℕ} {temp n i : ℕ} {m m' : MaxHeap} {x : ℕ}

theorem siftUpLoop_spec (h : UpOrder (Function.update a i temp) n i) (hi : i < n) :
    HeapOrdered (siftUpLoop temp a i) n ∧
      ArrayHeap.elements (siftUpLoop temp a i) n =
        ArrayHeap.elements (Function.update a i temp) n := by
  induction i using Nat.strong_induction_on generalizing a with
  | _ i ih =>
      unfold siftUpLoop
      split
      · rename_i hloop
        obtain ⟨hpos, hlt⟩ := hloop
        have hup : up i < i := by unfold up; omega
        have hmove := move_hole (a := a) hup.ne temp
        have hnext : UpOrder (Function.update (Function.update a i (a (up i))) (up i) temp) n
            (up i) := by
          rw [hmove]
          refine h.move hpos hi ?_
          rwa [Function.update_self, Function.update_of_ne hup.ne]
        obtain ⟨hord, helem⟩ := ih (up i) hup hnext (hup.trans hi)
        refine ⟨hord, helem.trans ?_⟩
        rw [hmove, elements_swap hi (hup.trans hi)]
      · rename_i hstop
        refine ⟨h.finish fun hpos => ?_, rfl⟩
        have hup : up i < i := by unfold up; omega
        rw [Function.update_self, Function.update_of_ne hup.ne]
        exact not_lt.mp fun hlt => hstop ⟨hpos, hlt⟩

theorem largerChild_spec (hj : 2 * i + 1 < n) :
    2 * i + 1 ≤ largerChild a n (2 * i + 1) ∧ largerChild a n (2 * i + 1) < n ∧
      up (largerChild a n (2 * i + 1)) = i ∧
      ∀ k, 0 < k → k < n → up k = i → a k ≤ a (largerChild a n (2 * i + 1)) := by
  have hchild : ∀ k, 0 < k → up k = i → k = 2 * i + 1 ∨ k = 2 * i + 2 := by
    intro k hk hup
    unfold up at hup
    omega
  unfold largerChild
  split
  · rename_i hright
    refine ⟨by omega, by omega, by unfold up; omega, fun k hk _ hup => ?_⟩
    rcases hchild k hk hup with rfl | rfl
    · exact hright.2.le
    · exact le_rfl
  · rename_i hleft
    refine ⟨le_rfl, hj, by unfold up; omega, fun k hk hkn hup => ?_⟩
    rcases hchild k hk hup with rfl | rfl
    · exact le_rfl
    · exact not_lt.mp fun hlt => hleft ⟨by omega, hlt⟩

theorem siftDownLoop_spec (h : DownOrder (Function.update a i temp) n i) (hi : i < n) :
    HeapOrdered (siftDownLoop temp n a i) n ∧
      ArrayHeap.elements (siftDownLoop temp n a i) n =
        ArrayHeap.elements (Function.update a i temp) n := by
  induction hk : n - i using Nat.strong_induction_on generalizing a i with
  | _ k ih =>
      have hnone : ∀ j, 0 < j → up j = i → j ≠ i := by
        intro j hj hup
        unfold up at hup
        omega
      unfold siftDownLoop
      simp only
      split
      · rename_i hj
        obtain ⟨hge, hjn, hup, hmax⟩ := largerChild_spec (a := a) hj
        generalize largerChild a n (2 * i + 1) = j at hge hjn hup hmax ⊢
        have hji : j ≠ i := by omega
        have hmax' : ∀ k, 0 < k → k < n → up k = i →
            Function.update a i temp k ≤ Function.update a i temp j := by
          intro k hk hkn hku
          rw [Function.update_of_ne (hnone k hk hku), Function.update_of_ne hji]
          exact hmax k hk hkn hku
        split
        · rename_i hlt
          have hmove := move_hole (a := a) hji temp
          have hnext : DownOrder (Function.update (Function.update a i (a j)) j temp) n j := by
            rw [hmove]
            refine h.move (by omega) hjn hup ?_ hmax'
            rwa [Function.update_self, Function.update_of_ne hji]
          obtain ⟨hord, helem⟩ := ih (n - j) (by omega) hnext hjn rfl
          exact ⟨hord, helem.trans (by rw [hmove, elements_swap hi hjn])⟩
        · rename_i hstop
          refine ⟨h.finish fun k hk hkn hku => (hmax' k hk hkn hku).trans ?_, rfl⟩
          rw [Function.update_self, Function.update_of_ne hji]
          exact not_lt.mp hstop
      · rename_i hj
        refine ⟨h.finish fun k hk hkn hku => ?_, rfl⟩
        unfold up at hku
        omega

/-- `heap_insert` adds one element and keeps the order; it panics only when the heap
is full. -/
theorem heapInsert_spec (h : m.Ordered) (hsize : m.currentSize < m.maxSize) (x : ℕ) :
    ∃ m', heapInsert m x = some m' ∧ m'.Ordered ∧ m'.elements = x ::ₘ m.elements ∧
      m'.currentSize = m.currentSize + 1 ∧ m'.maxSize = m.maxSize := by
  have hup : UpOrder (Function.update m.heapArray m.currentSize x) (m.currentSize + 1)
      m.currentSize := by
    constructor
    · intro k hk hkn hne
      have hupk : up k < k := by unfold up; omega
      rw [Function.update_of_ne hne, Function.update_of_ne (by omega)]
      exact h k hk (by omega)
    · intro k hk hkn hpk
      unfold up at hpk
      omega
  have hself : Function.update (Function.update m.heapArray m.currentSize x) m.currentSize
      (Function.update m.heapArray m.currentSize x m.currentSize) =
        Function.update m.heapArray m.currentSize x := Function.update_eq_self _ _
  rw [← hself] at hup
  obtain ⟨hord, helem⟩ := siftUpLoop_spec hup (Nat.lt_succ_self _)
  refine ⟨_, if_neg hsize.ne, hord, ?_, rfl, rfl⟩
  rw [hself, elements_update] at helem
  exact helem

/-- `heap_removeMax` takes the greatest element away, and leaves it in the cell
behind the heap. -/
theorem heapRemoveMax_spec (h : m.Ordered) (hsize : 0 < m.currentSize) :
    ∃ m', heapRemoveMax m = some m' ∧ m'.Ordered ∧ m.elements = m.heapTop ::ₘ m'.elements ∧
      m'.currentSize + 1 = m.currentSize ∧ m'.maxSize = m.maxSize ∧
      (m'.currentSize = 0 → m'.heapTop = m.heapTop) := by
  obtain ⟨n, hn⟩ : ∃ n, m.currentSize = n + 1 := ⟨m.currentSize - 1, by omega⟩
  obtain ⟨a, ha⟩ : ∃ a, Function.update (Function.update m.heapArray 0 (m.heapArray n)) n
      (m.heapArray 0) = a := ⟨_, rfl⟩
  have hswap : a = m.heapArray ∘ Equiv.swap 0 n := by
    rw [← ha]
    rcases eq_or_ne n 0 with rfl | hne
    · simp
    · rw [move_hole hne, Function.update_eq_self]
  have hsplit : m.elements = m.heapTop ::ₘ ArrayHeap.elements a n := by
    rw [MaxHeap.elements, hn, ← elements_swap (Nat.succ_pos n) (Nat.lt_succ_self n), ← hswap,
      elements_succ, ← ha, Function.update_self, heapTop]
  have hcall : heapRemoveMax m = some
      (if n > 1 then heapSiftDown { m with heapArray := a, currentSize := n } 0
        else { m with heapArray := a, currentSize := n }) := by
    simp [heapRemoveMax, heapEmpty, hn, ha]
  rcases Nat.lt_or_ge 1 n with hlarge | hsmall
  · rw [if_pos hlarge] at hcall
    have hdown : DownOrder a n 0 := by
      constructor
      · intro k hk hkn hup
        have hupk : up k < k := by unfold up; omega
        rw [hswap]
        simp only [Function.comp, Equiv.swap_apply_of_ne_of_ne hk.ne' hkn.ne,
          Equiv.swap_apply_of_ne_of_ne hup (show up k ≠ n by omega)]
        exact h k hk (by omega)
      · intro k _ _ _ h0
        omega
    rw [← Function.update_eq_self 0 a] at hdown
    obtain ⟨hord, helem⟩ := siftDownLoop_spec hdown (by omega)
    rw [Function.update_eq_self] at helem
    refine ⟨_, hcall, hord, ?_, hn.symm, rfl, fun h0 => ?_⟩
    · rw [hsplit]
      exact congrArg _ helem.symm
    · change n = 0 at h0
      omega
  · rw [if_neg (by omega)] at hcall
    refine ⟨_, hcall, ?_, hsplit, hn.symm, rfl, fun h0 => ?_⟩
    · intro k hk hkn
      change k < n at hkn
      omega
    · change n = 0 at h0
      subst h0
      simp [heapTop, ← ha]

theorem heapInsert_eq_none_iff (m : MaxHeap) (x : ℕ) :
    heapInsert m x = none ↔ m.currentSize = m.maxSize := by
  unfold heapInsert
  split <;> simp_all

theorem Ordered.le_heapTop (h : m.Ordered) (hx : x ∈ m.elements) : x ≤ m.heapTop :=
  HeapOrdered.le_of_mem h hx

theorem heapTop_mem (h : 0 < m.currentSize) : m.heapTop ∈ m.elements :=
  mem_elements.mpr ⟨0, h, rfl⟩

theorem card_elements (m : MaxHeap) : m.elements.card = m.currentSize :=
  ArrayHeap.card_elements _ _

@[simp] theorem isSome_iff (m : MaxHeap) (ppn : ℕ) : m.isSome ppn = true ↔ ppn ∈ m.elements := by
  simp [isSome, MaxHeap.elements, mem_elements]

end MaxHeap

end K210Os
