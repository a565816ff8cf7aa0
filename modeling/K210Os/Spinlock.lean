import Mathlib.Data.Nat.Notation

/-!
# Spinlocks and interrupt nesting on one hart

`acquire` and `release` with their `push_off`/`pop_off` bookkeeping, as seen by
the hart that executes them. `none` stands for a call that never returns: a
panic, or a spin on a lock that another hart holds.
-/

namespace K210Os

/-- The fields of `struct Processor` that the locks use, with `sstatus.SIE`. -/
structure Processor where
  hartid : ℕ
  irq : Bool
  depthOfIr : ℕ
  irEnable : Bool
deriving Repr, DecidableEq

structure Spinlock where
  locked : Bool
  cpu : Option ℕ
deriving Repr, DecidableEq

def initlock : Spinlock := ⟨false, none⟩

def pushOff (c : Processor) : Processor :=
  { c with
    irq := false
    irEnable := if c.depthOfIr = 0 then c.irq else c.irEnable
    depthOfIr := c.depthOfIr + 1 }

def popOff (c : Processor) : Option Processor :=
  if c.irq then none
  else if c.depthOfIr < 1 then none
  else
    let depth := c.depthOfIr - 1
    some { c with depthOfIr := depth, irq := depth == 0 && c.irEnable }

def holding (c : Processor) (lk : Spinlock) : Bool :=
  lk.locked && lk.cpu == some c.hartid

def acquire (c : Processor) (lk : Spinlock) : Option (Processor × Spinlock) :=
  let c := pushOff c
  if holding c lk then none
  else if lk.locked then none
  else some (c, ⟨true, some c.hartid⟩)

def release (c : Processor) (lk : Spinlock) : Option (Processor × Spinlock) :=
  if !holding c lk then none
  else (popOff c).map fun c => (c, ⟨false, none⟩)

theorem acquire_eq_some {c c' : Processor} {lk lk' : Spinlock}
    (h : acquire c lk = some (c', lk')) :
    lk.locked = false ∧ c' = pushOff c ∧ lk' = ⟨true, some c.hartid⟩ := by
  simp only [acquire] at h
  split at h
  · contradiction
  · split at h
    · contradiction
    · rename_i hfree
      simp only [Option.some.injEq, Prod.mk.injEq] at h
      exact ⟨by simpa using hfree, h.1.symm, h.2.symm⟩

theorem release_eq_some {c c' : Processor} {lk lk' : Spinlock}
    (h : release c lk = some (c', lk')) : lk' = initlock := by
  simp only [release] at h
  split at h
  · contradiction
  · simp only [Option.map_eq_some_iff, Prod.mk.injEq] at h
    obtain ⟨_, -, -, rfl⟩ := h
    rfl

/-- A lock that nobody holds is always taken. -/
theorem acquire_of_unlocked (c : Processor) {lk : Spinlock} (h : lk.locked = false) :
    acquire c lk = some (pushOff c, ⟨true, some c.hartid⟩) := by
  simp [acquire, holding, h, pushOff]

/-- `release` undoes `acquire`: the lock is free again and the nesting depth is
back where it was. -/
theorem release_pushOff (c : Processor) :
    ∃ c', release (pushOff c) ⟨true, some c.hartid⟩ = some (c', ⟨false, none⟩) ∧
      c'.hartid = c.hartid ∧ c'.depthOfIr = c.depthOfIr := by
  simp [release, holding, pushOff, popOff]

end K210Os
