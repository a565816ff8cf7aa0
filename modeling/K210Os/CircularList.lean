import Mathlib.Data.List.Nodup
import Mathlib.Data.Nat.Notation
import Mathlib.Logic.Function.Basic

/-!
# Circular lists along a successor function

`Path next a ns b`: behind `a` the successor function meets the elements of `ns` in
order and then `b`. A circular list with a head element is a path from the head to the
head. Elements are inserted behind the last one and unlinked through the one before.
-/

namespace K210Os.CircularList

variable {α : Type*} {next next' : α → α} {a b c : α} {ns ms : List α}

def Path (next : α → α) : α → List α → α → Prop
  | a, [], b => next a = b
  | a, n :: ns, b => next a = n ∧ Path next n ns b

/-- The last element of a list, or `a` if there is none. -/
def lastFrom (a : α) (ns : List α) : α := ns.getLast?.getD a

@[simp] theorem lastFrom_nil : lastFrom a [] = a := rfl

@[simp] theorem lastFrom_append_singleton : lastFrom a (ns ++ [c]) = c := by
  simp [lastFrom]

theorem lastFrom_cons (a c : α) (ns : List α) : lastFrom a (c :: ns) = lastFrom c ns := by
  cases ns with
  | nil => rfl
  | cons n ns => simp [lastFrom, List.getLast?_cons]

theorem lastFrom_mem (a : α) (ns : List α) : lastFrom a ns ∈ a :: ns := by
  induction ns generalizing a with
  | nil => exact List.mem_cons_self
  | cons n ns ih =>
      rw [lastFrom_cons]
      exact List.mem_cons_of_mem a (ih n)

theorem Path.congr (h : Path next a ns b) (hnext : ∀ x ∈ a :: ns, next' x = next x) :
    Path next' a ns b := by
  induction ns generalizing a with
  | nil => exact (hnext a List.mem_cons_self).trans h
  | cons n ns ih =>
      exact ⟨(hnext a List.mem_cons_self).trans h.1,
        ih h.2 fun x hx => hnext x (List.mem_cons_of_mem a hx)⟩

theorem Path.append_iff :
    Path next a (ns ++ c :: ms) b ↔ Path next a ns c ∧ Path next c ms b := by
  induction ns generalizing a with
  | nil => rfl
  | cons n ns ih => exact (and_congr_right fun _ => ih).trans and_assoc.symm

/-- The end of a path is the successor of its last element. -/
theorem Path.next_last (h : Path next a ns b) : next (lastFrom a ns) = b := by
  induction ns generalizing a with
  | nil => exact h
  | cons n ns ih =>
      rw [lastFrom_cons]
      exact ih h.2

/-- A change of the last link leads a path to another end. -/
theorem Path.redirect [DecidableEq α] (h : Path next a ns b) (hnodup : (a :: ns).Nodup) :
    Path (Function.update next (lastFrom a ns) c) a ns c := by
  induction ns generalizing a with
  | nil => exact Function.update_self _ _ _
  | cons n ns ih =>
      have hne : a ≠ lastFrom n ns := by
        intro heq
        have hmem := lastFrom_mem n ns
        rw [← heq] at hmem
        exact (List.nodup_cons.mp hnodup).1 hmem
      rw [lastFrom_cons]
      constructor
      · rw [Function.update_of_ne hne]
        exact h.1
      · exact ih h.2 (List.nodup_cons.mp hnodup).2

/-- An element that is not in a path is put behind its last one. -/
theorem Path.push [DecidableEq α] (h : Path next a ns b) (hnodup : (a :: ns).Nodup)
    (hc : c ∉ a :: ns) :
    Path (Function.update (Function.update next c (next (lastFrom a ns))) (lastFrom a ns) c) a
      (ns ++ [c]) b := by
  have hlast := lastFrom_mem a ns
  have hne : c ≠ lastFrom a ns := by
    intro heq
    rw [heq] at hc
    exact hc hlast
  have hkeep : Path (Function.update next c (next (lastFrom a ns))) a ns b := by
    apply h.congr
    intro x hx
    apply Function.update_of_ne
    rintro rfl
    exact hc hx
  refine Path.append_iff.mpr ⟨hkeep.redirect hnodup, ?_⟩
  rw [Path, Function.update_of_ne hne, Function.update_self]
  exact h.next_last

/-- An element is unlinked through the one before it. -/
theorem Path.unlink [DecidableEq α] (h : Path next a (ns ++ c :: ms) b)
    (hnodup : (a :: (ns ++ c :: ms)).Nodup) :
    Path (Function.update next (lastFrom a ns) (next c)) a (ns ++ ms) b := by
  obtain ⟨hbefore, hafter⟩ := Path.append_iff.mp h
  rw [← List.cons_append] at hnodup
  have hfirst : (a :: ns).Nodup := (List.nodup_append.mp hnodup).1
  have hapart := List.disjoint_of_nodup_append hnodup
  have hred : Path (Function.update next (lastFrom a ns) (next c)) a ns (next c) :=
    hbefore.redirect hfirst
  cases ms with
  | nil =>
      rw [List.append_nil]
      rwa [show next c = b from hafter] at hred ⊢
  | cons m ms =>
      obtain ⟨hm, hrest⟩ := hafter
      rw [hm] at hred ⊢
      refine Path.append_iff.mpr ⟨hred, hrest.congr fun x hx => ?_⟩
      apply Function.update_of_ne
      rintro rfl
      exact hapart (lastFrom_mem a ns) (List.mem_cons_of_mem c hx)

end K210Os.CircularList
