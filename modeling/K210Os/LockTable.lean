import K210Os.Spinlock
import Mathlib.Data.Finset.Card

/-!
# Sequences of lock calls

A sequence of `acquire` and `release` on one hart, run on the locks themselves and on the
set of those that the hart holds. Where every lock has a level and a section takes locks
of lower levels only, a sequence of sections gives back what it takes.
-/

namespace K210Os

inductive LockCall (κ : Type*) where
  | acquire (lk : κ)
  | release (lk : κ)

/-- The locks of the kernel and the hart that takes them. -/
structure LockTable (κ : Type*) where
  hart : Processor
  lock : κ → Spinlock

section
variable {κ : Type*} [DecidableEq κ]

namespace LockTable

def setLock (t : LockTable κ) (lk : κ) (r : Processor × Spinlock) : LockTable κ :=
  ⟨r.1, Function.update t.lock lk r.2⟩

def call (t : LockTable κ) : LockCall κ → Option (LockTable κ)
  | .acquire lk => (K210Os.acquire t.hart (t.lock lk)).map (t.setLock lk)
  | .release lk => (K210Os.release t.hart (t.lock lk)).map (t.setLock lk)

def calls (t : LockTable κ) (cs : List (LockCall κ)) : Option (LockTable κ) := cs.foldlM call t

/-- `held` are the locks that the hart holds, and nobody else holds one. -/
structure Holds (t : LockTable κ) (held : Finset κ) : Prop where
  mem : ∀ lk ∈ held, t.lock lk = ⟨true, some t.hart.hartid⟩
  free : ∀ lk ∉ held, (t.lock lk).locked = false
  depth : t.hart.depthOfIr = held.card
  irq : t.hart.depthOfIr ≠ 0 → t.hart.irq = false

end LockTable

/-- The calls on the set of the locks that are held. -/
def LockCall.run (held : Finset κ) : LockCall κ → Option (Finset κ)
  | .acquire lk => if lk ∈ held then none else some (insert lk held)
  | .release lk => if lk ∈ held then some (held.erase lk) else none

def runCalls (held : Finset κ) (cs : List (LockCall κ)) : Option (Finset κ) :=
  cs.foldlM LockCall.run held

variable {t : LockTable κ} {held : Finset κ} {lk : κ} {cs ds : List (LockCall κ)}

/-! ## The locks and the set -/

theorem LockTable.Holds.acquire (h : t.Holds held) (hlk : lk ∉ held) :
    ∃ t', t.call (.acquire lk) = some t' ∧ t'.Holds (insert lk held) := by
  refine ⟨_, by rw [call, acquire_of_unlocked t.hart (h.free lk hlk)]; rfl, fun l hl => ?_,
    fun l hl => ?_, ?_, fun _ => rfl⟩
  · by_cases heq : l = lk
    · simp [setLock, heq, pushOff]
    · simpa [setLock, heq, pushOff] using h.mem l (Finset.mem_of_mem_insert_of_ne hl heq)
  · rw [Finset.mem_insert, not_or] at hl
    simpa [setLock, hl.1] using h.free l hl.2
  · rw [Finset.card_insert_of_notMem hlk, ← h.depth]
    rfl

theorem LockTable.Holds.acquire_held (h : t.Holds held) (hlk : lk ∈ held) :
    t.call (.acquire lk) = none := by
  rw [call, h.mem lk hlk]
  simp [K210Os.acquire, holding, pushOff]

theorem LockTable.Holds.release (h : t.Holds held) (hlk : lk ∈ held) :
    ∃ t', t.call (.release lk) = some t' ∧ t'.Holds (held.erase lk) := by
  have hpos : 0 < held.card := Finset.card_pos.mpr ⟨lk, hlk⟩
  have hdepth : t.hart.depthOfIr ≠ 0 := by
    rw [h.depth]
    omega
  have hpop : popOff t.hart = some
      { t.hart with
        depthOfIr := t.hart.depthOfIr - 1
        irq := t.hart.depthOfIr - 1 == 0 && t.hart.irEnable } := by
    have hlt : ¬ t.hart.depthOfIr < 1 := by omega
    simp [popOff, h.irq hdepth, hlt]
  refine ⟨_, by rw [call, h.mem lk hlk, K210Os.release, hpop]; simp [holding]; rfl, fun l hl => ?_,
    fun l hl => ?_, ?_, fun hne => ?_⟩
  · obtain ⟨hne, hl⟩ := Finset.mem_erase.mp hl
    simpa [setLock, hne] using h.mem l hl
  · by_cases heq : l = lk
    · simp [setLock, heq]
    · simpa [setLock, heq] using h.free l fun hin => hl (Finset.mem_erase.mpr ⟨heq, hin⟩)
  · rw [Finset.card_erase_of_mem hlk, ← h.depth]
    rfl
  · have hne' : t.hart.depthOfIr - 1 ≠ 0 := hne
    simp [setLock, hne']

theorem LockTable.Holds.release_free (h : t.Holds held) (hlk : lk ∉ held) :
    t.call (.release lk) = none := by
  simp [call, K210Os.release, holding, h.free lk hlk]

/-- The calls run on the locks as they run on the set. -/
theorem LockTable.Holds.calls (h : t.Holds held) (cs : List (LockCall κ)) :
    (∀ held', runCalls held cs = some held' → ∃ t', t.calls cs = some t' ∧ t'.Holds held') ∧
      (runCalls held cs = none → t.calls cs = none) := by
  induction cs generalizing t held with
  | nil => exact ⟨fun held' heq => ⟨t, rfl, Option.some.inj heq ▸ h⟩, fun hnone => by cases hnone⟩
  | cons c cs ih =>
      have hstep : (∃ t₁ held₁, t.call c = some t₁ ∧ LockCall.run held c = some held₁ ∧
          t₁.Holds held₁) ∨ t.call c = none ∧ LockCall.run held c = none := by
        cases c with
        | acquire lk =>
            by_cases hlk : lk ∈ held
            · exact .inr ⟨h.acquire_held hlk, if_pos hlk⟩
            · obtain ⟨t₁, hrun, h₁⟩ := h.acquire hlk
              exact .inl ⟨t₁, _, hrun, if_neg hlk, h₁⟩
        | release lk =>
            by_cases hlk : lk ∈ held
            · obtain ⟨t₁, hrun, h₁⟩ := h.release hlk
              exact .inl ⟨t₁, _, hrun, if_pos hlk, h₁⟩
            · exact .inr ⟨h.release_free hlk, if_neg hlk⟩
      rcases hstep with ⟨t₁, held₁, hrun, hrun₁, h₁⟩ | ⟨hrun, hrun₁⟩
      · simpa only [runCalls, LockTable.calls, List.foldlM_cons, hrun, hrun₁, Option.bind_eq_bind,
          Option.bind_some] using ih h₁
      · simp [runCalls, LockTable.calls, List.foldlM_cons, hrun, hrun₁]

theorem runCalls_append (held : Finset κ) (cs ds : List (LockCall κ)) :
    runCalls held (cs ++ ds) = (runCalls held cs).bind fun held => runCalls held ds :=
  List.foldlM_append ..

theorem runCalls_acquire (held : Finset κ) (lk : κ) (cs : List (LockCall κ)) :
    runCalls held (.acquire lk :: cs) =
      if lk ∈ held then none else runCalls (insert lk held) cs := by
  by_cases h : lk ∈ held <;> simp [runCalls, LockCall.run, h]

theorem runCalls_release (held : Finset κ) (lk : κ) (cs : List (LockCall κ)) :
    runCalls held (.release lk :: cs) =
      if lk ∈ held then runCalls (held.erase lk) cs else none := by
  by_cases h : lk ∈ held <;> simp [runCalls, LockCall.run, h]

@[simp] theorem runCalls_nil (held : Finset κ) : runCalls held [] = some held := rfl

end

/-! ## Sections -/

section
variable {κ : Type*}

/-- A section under a lock. -/
def locked (lk : κ) (cs : List (LockCall κ)) : List (LockCall κ) :=
  .acquire lk :: cs ++ [.release lk]

variable [DecidableEq κ] {level : κ → ℕ} {n m : ℕ} {lk : κ} {cs ds : List (LockCall κ)}

/-- The calls take no lock of level `n` or above, and give back what they take. -/
def Below (level : κ → ℕ) (n : ℕ) (cs : List (LockCall κ)) : Prop :=
  ∀ held : Finset κ, (∀ lk ∈ held, n ≤ level lk) → runCalls held cs = some held

theorem Below.nil : Below level n [] := fun _ _ => rfl

theorem Below.mono (h : Below level n cs) (hnm : n ≤ m) : Below level m cs := fun held hheld =>
  h held fun lk hlk => hnm.trans (hheld lk hlk)

theorem Below.append (h : Below level n cs) (h' : Below level n ds) : Below level n (cs ++ ds) :=
  fun held hheld => by rw [runCalls_append, h held hheld, Option.bind_some, h' held hheld]

/-- A section gives back its lock, whatever else is held. -/
theorem runCalls_locked {held : Finset κ} (hlk : lk ∉ held)
    (h : runCalls (insert lk held) cs = some (insert lk held)) :
    runCalls held (locked lk cs) = some held := by
  rw [locked, List.cons_append, runCalls_acquire, if_neg hlk, runCalls_append, h,
    Option.bind_some, runCalls_release, if_pos (Finset.mem_insert_self ..),
    Finset.erase_insert hlk, runCalls_nil]

theorem Below.locked (h : Below level (level lk) cs) (hn : level lk < n) :
    Below level n (locked lk cs) := fun held hheld => by
  refine runCalls_locked (fun hin => absurd (hheld lk hin) (by omega)) (h _ fun l hl => ?_)
  rcases Finset.mem_insert.mp hl with rfl | hl
  · exact le_rfl
  · exact hn.le.trans (hheld l hl)

theorem Below.flatMap {α : Type*} {f : α → List (LockCall κ)} (l : List α)
    (h : ∀ a ∈ l, Below level n (f a)) : Below level n (l.flatMap f) := by
  induction l with
  | nil => exact Below.nil
  | cons a l ih =>
      rw [List.flatMap_cons]
      exact (h a (by simp)).append (ih fun b hb => h b (List.mem_cons_of_mem _ hb))

end

end K210Os
