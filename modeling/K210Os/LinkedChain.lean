import Mathlib.Data.List.Nodup
import Mathlib.Data.Nat.Notation
import Mathlib.Logic.Function.Iterate

/-!
# Chains along a successor function

`Chain next stop a cs` says that from `a` on, the successor function meets exactly
the elements of `cs` and then an element at which it stops. A chain is determined
by its start, so it has no repetition; it can be read by position and extended at
its end.
-/

namespace K210Os.LinkedChain

variable {α : Type*} {next next' : α → α} {stop : α → Prop} {a b c : α} {cs ds : List α} {i : ℕ}

inductive Chain (next : α → α) (stop : α → Prop) : α → List α → Prop
  | stop {a : α} : stop a → Chain next stop a []
  | cons {a : α} {cs : List α} :
      ¬ stop a → Chain next stop (next a) cs → Chain next stop a (a :: cs)

theorem Chain.unique (h : Chain next stop a cs) (k : Chain next stop a ds) : cs = ds := by
  induction h generalizing ds with
  | stop hs =>
      cases k with
      | stop => rfl
      | cons hn => exact absurd hs hn
  | cons hn _ ih =>
      cases k with
      | stop hs => exact absurd hs hn
      | cons _ k => rw [ih k]

theorem Chain.congr (h : Chain next stop a cs) (hnext : ∀ c ∈ cs, next' c = next c) :
    Chain next' stop a cs := by
  induction h with
  | stop hs => exact .stop hs
  | @cons a cs hn _ ih =>
      refine .cons hn ?_
      rw [hnext a List.mem_cons_self]
      exact ih fun c hc => hnext c (List.mem_cons_of_mem _ hc)

/-- A chain of another function that stops at other elements, if they agree along it. -/
theorem Chain.change {stop' : α → Prop} (h : Chain next stop a cs)
    (hnext : ∀ c ∈ cs, next' c = next c) (hgo : ∀ c ∈ cs, ¬ stop' c) (ha : stop a → stop' a)
    (hend : ∀ c ∈ cs, stop (next c) → stop' (next c)) : Chain next' stop' a cs := by
  induction h with
  | stop hs => exact .stop (ha hs)
  | @cons a cs hn _ ih =>
      refine .cons (hgo a List.mem_cons_self) ?_
      rw [hnext a List.mem_cons_self]
      exact ih (fun c hc => hnext c (List.mem_cons_of_mem _ hc))
        (fun c hc => hgo c (List.mem_cons_of_mem _ hc)) (hend a List.mem_cons_self)
        fun c hc => hend c (List.mem_cons_of_mem _ hc)

theorem Chain.not_stop (h : Chain next stop a cs) (hc : c ∈ cs) : ¬ stop c := by
  induction h with
  | stop => cases hc
  | cons hn _ ih =>
      rcases List.mem_cons.mp hc with rfl | hc
      · exact hn
      · exact ih hc

theorem Chain.head_eq (h : Chain next stop a (c :: cs)) : c = a := by
  cases h
  rfl

theorem Chain.head_mem (h : Chain next stop a cs) (hne : cs ≠ []) : a ∈ cs := by
  cases h with
  | stop => exact absurd rfl hne
  | cons => exact List.mem_cons_self

/-- The chain from an element inside a chain is the rest of it. -/
theorem Chain.suffix (h : Chain next stop a (cs ++ c :: ds)) : Chain next stop c (c :: ds) := by
  induction cs generalizing a with
  | nil => exact h.head_eq ▸ h
  | cons b cs ih =>
      cases h with
      | cons _ h => exact ih h

/-- No element of a chain is its own successor. -/
theorem Chain.next_ne (h : Chain next stop a cs) (hc : c ∈ cs) : next c ≠ c := by
  intro heq
  obtain ⟨pre, post, rfl⟩ := List.append_of_mem hc
  have hrest := h.suffix
  cases hrest with
  | cons _ htail =>
      rw [heq] at htail
      have hlen := congrArg List.length (Chain.unique htail h.suffix)
      simp at hlen

theorem Chain.nodup (h : Chain next stop a cs) : cs.Nodup := by
  induction h with
  | stop => exact List.nodup_nil
  | @cons a cs hn h ih =>
      refine List.nodup_cons.mpr ⟨fun ha => ?_, ih⟩
      obtain ⟨pre, post, rfl⟩ := List.append_of_mem ha
      have heq := Chain.unique (.cons hn h) h.suffix
      have hlen := congrArg List.length heq
      simp at hlen
      omega

theorem Chain.next_getElem (h : Chain next stop a cs) (hb : cs[i]? = some b)
    (hc : cs[i + 1]? = some c) : next b = c := by
  induction h generalizing i with
  | stop => simp at hb
  | cons _ h ih =>
      cases i with
      | zero =>
          simp only [List.getElem?_cons_zero, Option.some.injEq] at hb
          simp only [Nat.zero_add, List.getElem?_cons_succ] at hc
          subst hb
          cases h with
          | stop => simp at hc
          | cons => simpa using hc
      | succ i => exact ih (by simpa using hb) (by simpa using hc)

/-- The successor function stops behind the last element. -/
theorem Chain.stop_last (h : Chain next stop a cs) (hb : cs[i]? = some b)
    (hi : i + 1 = cs.length) : stop (next b) := by
  induction h generalizing i with
  | stop => simp at hb
  | cons _ h ih =>
      cases i with
      | zero =>
          simp only [List.getElem?_cons_zero, Option.some.injEq] at hb
          subst hb
          cases h with
          | stop hs => exact hs
          | cons => simp at hi
      | succ i => exact ih (by simpa using hb) (by simpa using hi)

/-- The elements of a chain are the iterates of the successor function. -/
theorem Chain.iterate (h : Chain next stop a cs) (hi : i < cs.length) :
    cs[i]? = some (next^[i] a) := by
  induction h generalizing i with
  | stop => simp at hi
  | cons _ _ ih =>
      cases i with
      | zero => rfl
      | succ i =>
          rw [List.getElem?_cons_succ, Function.iterate_succ_apply]
          exact ih (by simpa using hi)

/-- A chain is extended by linking its last element to one at which the new chain
ends. -/
theorem Chain.snoc (h : Chain next stop a cs) (hb : cs[i]? = some b) (hi : i + 1 = cs.length)
    (hc : ¬ stop c) (hlink : next' b = c) (hend : stop (next' c))
    (hkeep : ∀ x ∈ cs, x ≠ b → next' x = next x) : Chain next' stop a (cs ++ [c]) := by
  induction h generalizing i with
  | stop => simp at hb
  | @cons a cs hn h ih =>
      have hnodup := (Chain.cons hn h).nodup
      cases i with
      | zero =>
          simp only [List.getElem?_cons_zero, Option.some.injEq] at hb
          subst hb
          obtain rfl : cs = [] := List.length_eq_zero_iff.mp (by simpa using hi.symm)
          refine .cons hn ?_
          rw [hlink]
          exact .cons hc (.stop hend)
      | succ i =>
          rw [List.getElem?_cons_succ] at hb
          have hne : a ≠ b := by
            rintro rfl
            exact (List.nodup_cons.mp hnodup).1 (List.mem_of_getElem? hb)
          refine .cons hn ?_
          rw [hkeep a List.mem_cons_self hne]
          exact ih hb (by simpa using hi) fun x hx => hkeep x (List.mem_cons_of_mem _ hx)

/-! ## Elements met on a cycle too -/

/-- The elements that the successor function meets from `a` on, whether or not it ever
stops. -/
inductive Reached (next : α → α) (stop : α → Prop) (a : α) : α → Prop
  | start : ¬ stop a → Reached next stop a a
  | step {b : α} : Reached next stop a b → ¬ stop (next b) → Reached next stop a (next b)

theorem Reached.head (h : Reached next stop a b) : ¬ stop a := by
  induction h with
  | start hn => exact hn
  | step _ _ ih => exact ih

theorem Reached.not_stop (h : Reached next stop a b) : ¬ stop b := by
  cases h with
  | start hn => exact hn
  | step _ hn => exact hn

/-- A walk may cut the link behind it: what it goes on to meet is the same. -/
theorem reached_cut (hn : ¬ stop a) (hend : stop (next' a))
    (hkeep : ∀ x, x ≠ a → next' x = next x) :
    Reached next stop a b ↔ b = a ∨ Reached next' stop (next a) b := by
  constructor
  · intro h
    induction h with
    | start => exact .inl rfl
    | @step b _ hb ih =>
        right
        rcases ih with rfl | ih
        · exact .start hb
        · by_cases hba : b = a
          · subst hba
            exact .start hb
          · rw [← hkeep b hba] at hb ⊢
            exact .step ih hb
  · rintro (rfl | h)
    · exact .start hn
    · induction h with
      | start hb => exact .step (.start hn) hb
      | @step b _ hb ih =>
          have hba : b ≠ a := by
            rintro rfl
            exact hb hend
          rw [hkeep b hba] at hb ⊢
          exact .step ih hb

end K210Os.LinkedChain
