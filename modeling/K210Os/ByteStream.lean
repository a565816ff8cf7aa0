import Mathlib.Data.Set.Basic
import Mathlib.Logic.Nontrivial.Basic

/-!
# Reading through a partial translation

Values are read one after the other at the addresses that a partial function gives
for their positions, until a wanted number is read, a value stops the reading, or a
position has no address. What such a reading depends on is exactly the cells at the
positions it reaches.
-/

namespace K210Os.ByteStream

variable {κ β : Type*}

inductive ReadEnd where
  | done
  | stopped
  | fault
deriving DecidableEq

/-- At most `n` values from position `i` on; the value that stops is the last one. -/
def readFrom (addr : ℕ → Option κ) (stop : β → Bool) (mem : κ → β) :
    ℕ → ℕ → ReadEnd × List β
  | _, 0 => (.done, [])
  | i, n + 1 =>
      match addr i with
      | none => (.fault, [])
      | some a =>
          if stop (mem a) then (.stopped, [mem a])
          else
            let r := readFrom addr stop mem (i + 1) n
            (r.1, mem a :: r.2)

variable {addr addr' : ℕ → Option κ} {stop : β → Bool} {mem mem' : κ → β} {i k n m : ℕ}

/-- Reading begins at position `i` and gets to position `k`: every position on the
way has an address, and no value before `k` stops. -/
structure Reaches (addr : ℕ → Option κ) (stop : β → Bool) (mem : κ → β) (i k : ℕ) : Prop where
  le : i ≤ k
  found : ∀ j, i ≤ j → j ≤ k → (addr j).isSome
  going : ∀ j a, i ≤ j → j < k → addr j = some a → stop (mem a) = false

attribute [local simp] readFrom

/-- Reading `m + n` values is reading `m` and, if nothing ended it, `n` more. -/
theorem readFrom_add (addr : ℕ → Option κ) (stop : β → Bool) (mem : κ → β) (i m n : ℕ) :
    readFrom addr stop mem i (m + n) =
      if (readFrom addr stop mem i m).1 = .done then
        ((readFrom addr stop mem (i + m) n).1,
          (readFrom addr stop mem i m).2 ++ (readFrom addr stop mem (i + m) n).2)
      else readFrom addr stop mem i m := by
  induction m generalizing i with
  | zero => simp [readFrom]
  | succ m ih =>
      rw [show m + 1 + n = m + n + 1 by omega]
      simp only [readFrom]
      cases addr i with
      | none => rfl
      | some a =>
          simp only
          cases stop (mem a) with
          | true => rfl
          | false =>
              simp only [Bool.false_eq_true, if_false]
              rw [ih (i + 1), show i + 1 + m = i + (m + 1) by omega]
              split <;> rfl

/-- A reading that no value stops. -/
theorem readFrom_done {a : ℕ → κ} (h : ∀ j < n, addr (i + j) = some (a j))
    (hgo : ∀ j < n, stop (mem (a j)) = false) :
    readFrom addr stop mem i n = (.done, (List.range n).map fun j => mem (a j)) := by
  induction n with
  | zero => rfl
  | succ n ih =>
      have hfirst := ih (fun j hj => h j (by omega)) fun j hj => hgo j (by omega)
      have hlast : readFrom addr stop mem (i + n) 1 = (.done, [mem (a n)]) := by
        simp only [readFrom, h n (by omega), hgo n (by omega), Bool.false_eq_true, if_false]
      rw [readFrom_add, hfirst, hlast, if_pos rfl, List.range_succ, List.map_append, List.map_singleton]

/-- A reading up to the first value that stops. -/
theorem readFrom_stopped {a : ℕ → κ} (hk : k < n) (h : ∀ j ≤ k, addr (i + j) = some (a j))
    (hgo : ∀ j < k, stop (mem (a j)) = false) (hstop : stop (mem (a k)) = true) :
    readFrom addr stop mem i n = (.stopped, (List.range (k + 1)).map fun j => mem (a j)) := by
  have hfirst := readFrom_done (fun j hj => h j (Nat.le_of_lt hj)) hgo
  have hsplit := readFrom_add addr stop mem i k (n - k)
  obtain ⟨m, hm⟩ : ∃ m, n - k = m + 1 := ⟨n - k - 1, by omega⟩
  have hlast : readFrom addr stop mem (i + k) (n - k) = (.stopped, [mem (a k)]) := by
    simp only [hm, readFrom, h k le_rfl, hstop, if_true]
  rw [Nat.add_sub_cancel' hk.le, hfirst, hlast, if_pos rfl] at hsplit
  rw [hsplit, List.range_succ, List.map_append, List.map_singleton]

theorem Reaches.succ {a : κ} (ha : addr i = some a) (hgo : stop (mem a) = false)
    (h : Reaches addr stop mem (i + 1) k) : Reaches addr stop mem i k := by
  refine ⟨by have := h.le; omega, fun j hj hjk => ?_, fun j b hj hjk hb => ?_⟩
  · rcases Nat.eq_or_lt_of_le hj with rfl | hlt
    · rw [ha]
      rfl
    · exact h.found j hlt hjk
  · rcases Nat.eq_or_lt_of_le hj with rfl | hlt
    · rw [ha, Option.some.injEq] at hb
      exact hb ▸ hgo
    · exact h.going j b hlt hjk hb

theorem reaches_self (h : (addr i).isSome) : Reaches addr stop mem i i := by
  refine ⟨Nat.le_refl i, fun j hj hji => ?_, fun j a hj hji _ => by omega⟩
  obtain rfl : i = j := by omega
  exact h

/-- Two memories that agree wherever the reading gets to give the same result. -/
theorem readFrom_congr
    (h : ∀ k a, k < i + n → Reaches addr stop mem i k → addr k = some a → mem' a = mem a) :
    readFrom addr stop mem' i n = readFrom addr stop mem i n := by
  induction n generalizing i with
  | zero => rfl
  | succ n ih =>
      simp only [readFrom]
      cases ha : addr i with
      | none => rfl
      | some a =>
          have hsame : mem' a = mem a :=
            h i a (by omega) (reaches_self (by rw [ha]; rfl)) ha
          simp only [hsame]
          cases hstop : stop (mem a) with
          | true => rfl
          | false =>
              simp only [Bool.false_eq_true, if_false]
              rw [ih fun k b hk hr hb => h k b (by omega) (hr.succ ha hstop) hb]

/-- A reading that gives the same values in a memory that differs at every cell
outside a set gets to cells of the set only. -/
theorem mem_of_readFrom_eq {allowed : Set κ}
    (hout : ∀ a, a ∉ allowed → mem' a ≠ mem a)
    (h : (readFrom addr stop mem' i n).2 = (readFrom addr stop mem i n).2) {a : κ} (hk : k < i + n)
    (hr : Reaches addr stop mem i k) (ha : addr k = some a) : a ∈ allowed := by
  induction n generalizing i with
  | zero =>
      have := hr.le
      omega
  | succ n ih =>
      obtain ⟨b, hb⟩ := Option.isSome_iff_exists.mp (hr.found i (Nat.le_refl i) hr.le)
      simp only [readFrom, hb] at h
      have hfirst : mem' b = mem b := by
        revert h
        cases stop (mem' b) <;> cases stop (mem b) <;> simp +contextual
      have hbin : b ∈ allowed := by
        by_contra hnot
        exact hout b hnot hfirst
      rcases Nat.eq_or_lt_of_le hr.le with rfl | hlt
      · rw [ha, Option.some.injEq] at hb
        exact hb ▸ hbin
      · have hgo := hr.going i b (Nat.le_refl i) hlt hb
        simp only [hfirst, hgo, Bool.false_eq_true, if_false, List.cons.injEq, true_and] at h
        exact ih h (by omega)
          ⟨hlt, fun j hj hjk => hr.found j (by omega) hjk,
            fun j c hj hjk hc => hr.going j c (by omega) hjk hc⟩

/-- What is made of a reading, the values read included, depends on the cells of a
set only if and only if the reading gets to cells of that set only. -/
theorem readFrom_depends_iff [Nontrivial β] {γ : Type*} {allowed : Set κ}
    (result : ReadEnd × List β → γ) (hresult : ∀ r r', result r = result r' → r.2 = r'.2) :
    (∀ mem', (∀ a ∈ allowed, mem' a = mem a) →
      result (readFrom addr stop mem' i n) = result (readFrom addr stop mem i n)) ↔
    ∀ k a, k < i + n → Reaches addr stop mem i k → addr k = some a → a ∈ allowed := by
  classical
  constructor
  · intro hall k a hk hr ha
    choose other hother using fun b : β => exists_ne b
    let mem' : κ → β := fun a => if a ∈ allowed then mem a else other (mem a)
    have hin : ∀ a ∈ allowed, mem' a = mem a := fun a ha => if_pos ha
    have hout : ∀ a, a ∉ allowed → mem' a ≠ mem a := by
      intro a hnot
      simp only [mem', if_neg hnot]
      exact hother (mem a)
    exact mem_of_readFrom_eq hout (hresult _ _ (hall mem' hin)) hk hr ha
  · intro hcells mem' hin
    rw [readFrom_congr fun k a hk hr ha => hin a (hcells k a hk hr ha)]

/-- Where the reading does not run into a missing address, every position it gets to
has one. -/
theorem found_of_not_fault (h : (readFrom addr stop mem i n).1 ≠ .fault) (hik : i ≤ k)
    (hk : k < i + n)
    (hgo : ∀ j a, i ≤ j → j < k → addr j = some a → stop (mem a) = false) :
    Reaches addr stop mem i k := by
  induction n generalizing i with
  | zero => omega
  | succ n ih =>
      cases hb : addr i with
      | none =>
          simp only [readFrom, hb] at h
          contradiction
      | some b =>
          rcases Nat.eq_or_lt_of_le hik with rfl | hlt
          · exact reaches_self (by rw [hb]; rfl)
          · have hstop := hgo i b (Nat.le_refl i) hlt hb
            simp only [readFrom, hb, hstop, Bool.false_eq_true, if_false] at h
            exact (ih h hlt (by omega) fun j a hj hjk ha => hgo j a (by omega) hjk ha).succ hb hstop

end K210Os.ByteStream
