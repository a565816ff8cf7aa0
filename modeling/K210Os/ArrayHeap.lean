import Mathlib.Data.Multiset.Range
import Mathlib.Data.Finset.Range
import Mathlib.Logic.Equiv.Basic
import Mathlib.Order.Basic

/-!
# Binary heaps in arrays

The largest element of a heap is at index 0, and the parent of index `i` is
`(i - 1) / 2`. Sifting moves a hole through the array; with the displaced value
written into the hole, each move is an exchange of two cells, so no move changes
the elements. `UpOrder` and `DownOrder` say what is in order while the hole is at
a given index.
-/

namespace K210Os.ArrayHeap

variable {α : Type*}

def up (i : ℕ) : ℕ := (i - 1) / 2

/-- The elements in the first `n` cells. -/
def elements (a : ℕ → α) (n : ℕ) : Multiset α := (Multiset.range n).map a

theorem card_elements (a : ℕ → α) (n : ℕ) : (elements a n).card = n := by
  simp [elements]

@[simp] theorem elements_zero (a : ℕ → α) : elements a 0 = 0 := rfl

theorem mem_elements {a : ℕ → α} {n : ℕ} {x : α} : x ∈ elements a n ↔ ∃ i < n, a i = x := by
  simp [elements]

theorem elements_congr {a b : ℕ → α} {n : ℕ} (h : ∀ i < n, a i = b i) :
    elements a n = elements b n :=
  Multiset.map_congr rfl fun i hi => h i (Multiset.mem_range.mp hi)

theorem elements_succ (a : ℕ → α) (n : ℕ) : elements a (n + 1) = a n ::ₘ elements a n := by
  simp [elements, Multiset.range_succ]

theorem elements_update (a : ℕ → α) (n : ℕ) (x : α) :
    elements (Function.update a n x) (n + 1) = x ::ₘ elements a n := by
  rw [elements_succ, Function.update_self]
  congr 1
  exact elements_congr fun i hi => Function.update_of_ne (by omega) _ _

/-- Exchanging two cells changes no element. -/
theorem elements_swap {a : ℕ → α} {n i j : ℕ} (hi : i < n) (hj : j < n) :
    elements (a ∘ Equiv.swap i j) n = elements a n := by
  have hlt : ∀ k < n, Equiv.swap i j k < n := by
    intro k hk
    rw [Equiv.swap_apply_def]
    split_ifs
    · exact hj
    · exact hi
    · exact hk
  have hrange : (Multiset.range n).map (Equiv.swap i j) = Multiset.range n := by
    refine (Multiset.Nodup.ext ((Multiset.nodup_range n).map (Equiv.injective _))
      (Multiset.nodup_range n)).mpr fun k => ?_
    simp only [Multiset.mem_map, Multiset.mem_range]
    constructor
    · rintro ⟨m, hm, rfl⟩
      exact hlt m hm
    · intro hk
      exact ⟨Equiv.swap i j k, hlt k hk, Equiv.swap_apply_self i j k⟩
  rw [elements, ← Multiset.map_map, hrange, elements]

/-- Moving the hole from `i` to `j` exchanges the two cells, the displaced value `x`
being in the hole. -/
theorem move_hole {a : ℕ → α} {i j : ℕ} (h : j ≠ i) (x : α) :
    Function.update (Function.update a i (a j)) j x = Function.update a i x ∘ Equiv.swap i j := by
  funext k
  rcases eq_or_ne k j with rfl | hkj
  · simp
  · rcases eq_or_ne k i with rfl | hki
    · simp [hkj, h]
    · simp [hkj, hki, Equiv.swap_apply_of_ne_of_ne hki hkj]

variable [LinearOrder α] {a : ℕ → α} {n i j : ℕ}

def HeapOrdered (a : ℕ → α) (n : ℕ) : Prop := ∀ i, 0 < i → i < n → a i ≤ a (up i)

theorem heapOrdered_zero (a : ℕ → α) : HeapOrdered a 0 := fun _ _ h => absurd h (Nat.not_lt_zero _)

/-- Dropping the last cells keeps the order. -/
theorem HeapOrdered.take (h : HeapOrdered a n) {m : ℕ} (hm : m ≤ n) : HeapOrdered a m :=
  fun i hi hin => h i hi (hin.trans_le hm)

theorem HeapOrdered.congr {b : ℕ → α} (h : HeapOrdered a n) (hab : ∀ i < n, b i = a i) :
    HeapOrdered b n := by
  intro i hi hin
  rw [hab i hin, hab (up i) (by unfold up; omega)]
  exact h i hi hin

theorem HeapOrdered.le_top (h : HeapOrdered a n) (hi : i < n) : a i ≤ a 0 := by
  induction i using Nat.strong_induction_on with
  | _ i ih =>
      rcases Nat.eq_zero_or_pos i with rfl | hpos
      · exact le_rfl
      · have hup : up i < i := by unfold up; omega
        exact (h i hpos hi).trans (ih (up i) hup (hup.trans hi))

/-- The first cell holds the greatest element. -/
theorem HeapOrdered.le_of_mem (h : HeapOrdered a n) {x : α} (hx : x ∈ elements a n) : x ≤ a 0 := by
  obtain ⟨i, hi, rfl⟩ := mem_elements.mp hx
  exact h.le_top hi

/-- Only the cell `i` may be larger than its parent. -/
structure UpOrder (a : ℕ → α) (n i : ℕ) : Prop where
  other : ∀ k, 0 < k → k < n → k ≠ i → a k ≤ a (up k)
  child : ∀ k, 0 < k → k < n → up k = i → 0 < i → a k ≤ a (up i)

theorem UpOrder.finish (h : UpOrder a n i) (hi : 0 < i → a i ≤ a (up i)) : HeapOrdered a n := by
  intro k hk hkn
  rcases eq_or_ne k i with rfl | hne
  · exact hi hk
  · exact h.other k hk hkn hne

theorem UpOrder.move (h : UpOrder a n i) (hi : 0 < i) (hin : i < n) (hlt : a (up i) < a i) :
    UpOrder (a ∘ Equiv.swap i (up i)) n (up i) := by
  have hup : up i < i := by unfold up; omega
  -- a child of `up i` that is not on the path
  have hother : ∀ k, 0 < k → k < n → k ≠ i → k ≠ up i →
      (a ∘ Equiv.swap i (up i)) k = a k := by
    intro k _ _ hki hku
    simp [Equiv.swap_apply_of_ne_of_ne hki hku]
  constructor
  · intro k hk hkn hku
    rcases eq_or_ne k i with rfl | hki
    · simpa using hlt.le
    · rw [hother k hk hkn hki hku]
      rcases eq_or_ne (up k) i with hpi | hpi
      · simpa [hpi] using h.child k hk hkn hpi hi
      · rcases eq_or_ne (up k) (up i) with hpu | hpu
        · have := h.other k hk hkn hki
          rw [hpu] at this ⊢
          simpa using this.trans hlt.le
        · simpa [Equiv.swap_apply_of_ne_of_ne hpi hpu] using h.other k hk hkn hki
  · intro k hk hkn hpu hu
    have hupup : up (up i) < up i := by unfold up at *; omega
    have htop : (a ∘ Equiv.swap i (up i)) (up (up i)) = a (up (up i)) := by
      simp [Equiv.swap_apply_of_ne_of_ne (show up (up i) ≠ i by omega)
        (show up (up i) ≠ up i by omega)]
    have hpar : a (up i) ≤ a (up (up i)) := h.other (up i) hu (hup.trans hin) hup.ne
    rw [htop]
    rcases eq_or_ne k i with rfl | hki
    · simpa using hpar
    · have hku : k ≠ up i := by rintro rfl; omega
      rw [hother k hk hkn hki hku]
      have := h.other k hk hkn hki
      rw [hpu] at this
      exact this.trans hpar

/-- Only the children of the cell `i` may be larger than their parent. -/
structure DownOrder (a : ℕ → α) (n i : ℕ) : Prop where
  other : ∀ k, 0 < k → k < n → up k ≠ i → a k ≤ a (up k)
  child : ∀ k, 0 < k → k < n → up k = i → 0 < i → a k ≤ a (up i)

theorem DownOrder.finish (h : DownOrder a n i)
    (hi : ∀ k, 0 < k → k < n → up k = i → a k ≤ a i) : HeapOrdered a n := by
  intro k hk hkn
  rcases eq_or_ne (up k) i with hki | hki
  · rw [hki]
    exact hi k hk hkn hki
  · exact h.other k hk hkn hki

/-- The hole moves down to the larger child. -/
theorem DownOrder.move (h : DownOrder a n i) (hj : 0 < j) (hjn : j < n) (hij : up j = i)
    (hlt : a i < a j) (hmax : ∀ k, 0 < k → k < n → up k = i → a k ≤ a j) :
    DownOrder (a ∘ Equiv.swap i j) n j := by
  have hlt' : i < j := by unfold up at hij; omega
  constructor
  · intro k hk hkn hpj
    rcases eq_or_ne k j with rfl | hkj
    · simpa [hij] using hlt.le
    · rcases eq_or_ne k i with rfl | hki
      · -- the cell above the hole receives the larger child
        have hpk : up k ≠ k := by unfold up; omega
        simpa [Equiv.swap_apply_of_ne_of_ne hpk hpj] using h.child j hj hjn hij hk
      · rcases eq_or_ne (up k) i with hpi | hpi
        · simpa [hpi, Equiv.swap_apply_of_ne_of_ne hki hkj] using hmax k hk hkn hpi
        · simpa [Equiv.swap_apply_of_ne_of_ne hki hkj, Equiv.swap_apply_of_ne_of_ne hpi hpj]
            using h.other k hk hkn hpi
  · intro k hk hkn hpj _
    have hjk : j < k := by unfold up at hpj; omega
    have hpk : up k ≠ i := by omega
    simpa [hij, Equiv.swap_apply_of_ne_of_ne (show k ≠ i by omega) hjk.ne', hpj] using
      h.other k hk hkn hpk

end K210Os.ArrayHeap
