import K210Os.Transition
import Mathlib.Data.Finset.Card

/-!
# Semaphores

`sem_wait` and `sem_signal` with the sleeping and waking they use, one step for
each part of an operation that runs under the semaphore's lock. The counter is
an unsigned 32-bit value, as `struct semaphore` declares it, so the comparison
with 0 in `sem_wait` is the unsigned one.
-/

namespace K210Os

open Transition

/-- `struct semaphore`, less its lock: `waiters` are the tasks asleep on it, and
`pid` is the task that took it last. -/
structure Semaphore where
  value : BitVec 32
  waiters : List ℕ
  pid : ℕ

def semInit (value : BitVec 32) : Semaphore := ⟨value, [], 0⟩

/-- Where a task is: it has not called `sem_wait`, sleeps in it, was woken and has
to take the lock again, or is past it without having signalled. -/
inductive TaskPhase where
  | outside
  | sleeping
  | ready
  | past
deriving DecidableEq

structure SemTasks where
  sem : Semaphore
  phase : ℕ → TaskPhase

inductive SemOp where
  | wait (pid : ℕ)
  | resume (pid : ℕ)
  | signal (pid : ℕ)

namespace SemTasks

def setPhase (s : SemTasks) (pid : ℕ) (phase : TaskPhase) : SemTasks :=
  { s with phase := Function.update s.phase pid phase }

/-- One round of the loop of `sem_wait`: the task goes to sleep or is done. -/
def semWaitRound (s : SemTasks) (pid : ℕ) : SemTasks :=
  if s.sem.value < 0 then
    { s with sem := { s.sem with waiters := s.sem.waiters ++ [pid] } }.setPhase pid .sleeping
  else { s with sem := { s.sem with pid := pid } }.setPhase pid .past

def semWait (s : SemTasks) (pid : ℕ) : SemTasks :=
  semWaitRound { s with sem := { s.sem with value := s.sem.value - 1 } } pid

/-- The first task in the queue becomes ready; a task there that does not sleep is
a panic. -/
def wakeupFromwq (s : SemTasks) : Option SemTasks :=
  match s.sem.waiters with
  | [] => some s
  | p :: waiters =>
      if s.phase p = .sleeping then
        some ({ s with sem := { s.sem with waiters := waiters } }.setPhase p .ready)
      else none

def semSignal (s : SemTasks) (pid : ℕ) : Option SemTasks := do
  let s := { s with sem := { s.sem with value := s.sem.value + 1 } }
  let s ← if s.sem.value ≤ 0 then wakeupFromwq s else some s
  return { s with sem := { s.sem with pid := 0 } }.setPhase pid .outside

/-- A task waits when it is outside, goes on when it was woken, and signals only
after its own wait returned. -/
def semStep (s : SemTasks) : SemOp → Option SemTasks
  | .wait pid => if s.phase pid = .outside then some (semWait s pid) else none
  | .resume pid => if s.phase pid = .ready then some (semWaitRound s pid) else none
  | .signal pid => if s.phase pid = .past then semSignal s pid else none

/-- `sem_init(s, value)`, before any task has called `sem_wait`. -/
def init (value : BitVec 32) : SemTasks := ⟨semInit value, fun _ => .outside⟩

/-- No more than `k` tasks are past `sem_wait` without having signalled. -/
def AtMost (k : ℕ) (s : SemTasks) : Prop :=
  ∀ tasks : Finset ℕ, (∀ p ∈ tasks, s.phase p = .past) → tasks.card ≤ k

/-- The invariant of the code as it is: nobody ever sleeps, and the value is what is
left of `k` after the tasks that are past `sem_wait`, modulo `2 ^ 32`. -/
structure Counts (k : BitVec 32) (s : SemTasks) (holders : Finset ℕ) : Prop where
  mem_iff : ∀ p, p ∈ holders ↔ s.phase p = .past
  awake : ∀ p, s.phase p = .past ∨ s.phase p = .outside
  waiters : s.sem.waiters = []
  value : s.sem.value + BitVec.ofNat 32 holders.card = k

variable {k : BitVec 32} {s s' : SemTasks} {holders : Finset ℕ} {p : ℕ}

theorem counts_init (k : BitVec 32) : Counts k (init k) ∅ :=
  ⟨by simp [init], by simp [init], rfl, by simp [init, semInit]⟩

theorem Counts.atMost_iff (h : Counts k s holders) {m : ℕ} : AtMost m s ↔ holders.card ≤ m := by
  constructor
  · intro hm
    exact hm holders fun p hp => (h.mem_iff p).mp hp
  · intro hm tasks htasks
    exact (Finset.card_le_card fun p hp => (h.mem_iff p).mpr (htasks p hp)).trans hm

/-- No unsigned value is below 0, so a wait never blocks. -/
theorem semWaitRound_eq (s : SemTasks) (pid : ℕ) :
    semWaitRound s pid = { s with sem := { s.sem with pid := pid } }.setPhase pid .past := by
  rw [semWaitRound, if_neg (by simp)]

theorem Counts.wait (h : Counts k s holders) (hp : s.phase p = .outside) :
    Counts k (semWait s p) (insert p holders) := by
  have hnot : p ∉ holders := by rw [h.mem_iff, hp]; simp
  rw [semWait, semWaitRound_eq]
  refine ⟨fun q => ?_, fun q => ?_, h.waiters, ?_⟩
  · by_cases hq : q = p
    · simp [setPhase, hq]
    · simp [setPhase, hq, h.mem_iff]
  · by_cases hq : q = p
    · simp [setPhase, hq]
    · simpa [setPhase, hq] using h.awake q
  · have hvalue := h.value
    rw [Finset.card_insert_of_notMem hnot, BitVec.ofNat_add]
    simp only [setPhase]
    rw [← hvalue]
    bv_omega

/-- With nobody asleep a signal only counts. -/
theorem semSignal_eq (hwaiters : s.sem.waiters = []) (pid : ℕ) :
    semSignal s pid =
      some ({ s with sem := { s.sem with value := s.sem.value + 1, pid := 0 } }.setPhase
        pid .outside) := by
  have hwake : ∀ s : SemTasks, s.sem.waiters = [] → wakeupFromwq s = some s := by
    intro s hs
    simp [wakeupFromwq, hs]
  rw [semSignal, hwake _ (by exact hwaiters), ite_self]
  rfl

theorem Counts.signal (h : Counts k s holders) (hp : s.phase p = .past) :
    ∃ s', semSignal s p = some s' ∧ Counts k s' (holders.erase p) := by
  have hmem : p ∈ holders := (h.mem_iff p).mpr hp
  refine ⟨_, semSignal_eq h.waiters p, fun q => ?_, fun q => ?_, h.waiters, ?_⟩
  · by_cases hq : q = p
    · simp [setPhase, hq]
    · simp [setPhase, hq, h.mem_iff]
  · by_cases hq : q = p
    · simp [setPhase, hq]
    · simpa [setPhase, hq] using h.awake q
  · have hvalue := h.value
    have hcard := Finset.card_erase_add_one hmem
    rw [← hcard, BitVec.ofNat_add] at hvalue
    simp only [setPhase]
    rw [← hvalue]
    bv_omega

/-- A step of the code keeps the count. -/
theorem Counts.step (h : Counts k s holders) {a : SemOp} (hstep : semStep s a = some s') :
    ∃ holders', Counts k s' holders' := by
  cases a with
  | wait p =>
      obtain ⟨hp, rfl⟩ : s.phase p = .outside ∧ semWait s p = s' := by simpa [semStep] using hstep
      exact ⟨_, h.wait hp⟩
  | resume p =>
      have hready : s.phase p = .ready := by
        by_contra hne
        simp [semStep, hne] at hstep
      rcases h.awake p with hp | hp <;> simp [hp] at hready
  | signal p =>
      obtain ⟨hp, hs⟩ : s.phase p = .past ∧ semSignal s p = some s' := by
        simpa [semStep] using hstep
      obtain ⟨s'', hs', hc⟩ := h.signal hp
      rw [hs, Option.some.injEq] at hs'
      exact ⟨_, hs' ▸ hc⟩

/-- While at most `k` tasks are past `sem_wait`, the value is 0 only when there are
`k` of them. -/
theorem Counts.value_eq_zero_iff (h : Counts k s holders) (hle : holders.card ≤ k.toNat) :
    s.sem.value = 0 ↔ holders.card = k.toNat := by
  have hvalue := h.value
  have hk := k.isLt
  constructor
  · intro hzero
    have hk' : k = BitVec.ofNat 32 holders.card := by simpa [hzero] using hvalue.symm
    rw [hk', BitVec.toNat_ofNat, Nat.mod_eq_of_lt (by omega)]
  · intro hcard
    rw [hcard, BitVec.ofNat_toNat, BitVec.setWidth_eq] at hvalue
    simpa using hvalue

/-- One `sem_wait` while at most `k` tasks are past it: there are still at most `k`
afterwards exactly when the value was not 0. -/
theorem Counts.wait_atMost_iff (h : Counts k s holders) (hp : s.phase p = .outside)
    (hle : holders.card ≤ k.toNat) : AtMost k.toNat (semWait s p) ↔ s.sem.value ≠ 0 := by
  have hnot : p ∉ holders := by rw [h.mem_iff, hp]; simp
  rw [(h.wait hp).atMost_iff, Finset.card_insert_of_notMem hnot, Ne, h.value_eq_zero_iff hle]
  omega

def SemStep (s : SemTasks) (a : SemOp) (s' : SemTasks) : Prop := semStep s a = some s'

theorem semStep_unique (s : SemTasks) (a : SemOp) (t u : SemTasks) (ht : SemStep s a t)
    (hu : SemStep s a u) : t = u :=
  Option.some.inj (ht.symm.trans hu)

theorem counts_of_run {ops : List SemOp} (hrun : Run SemStep (init k) ops s) :
    ∃ holders, Counts k s holders :=
  hrun.invariant (I := fun s => ∃ holders, Counts k s holders)
    (fun _ _ _ ⟨_, h⟩ hstep => h.step hstep) ⟨∅, counts_init k⟩

/-- At most `k` tasks are past `sem_wait` after one more step, if that step is not a
`sem_wait` that finds the value 0. -/
theorem atMost_step {a : SemOp} (h : Counts k s holders) (hle : AtMost k.toNat s)
    (hstep : semStep s a = some s') (hwait : ∀ p, a = .wait p → s.sem.value ≠ 0) :
    AtMost k.toNat s' := by
  have hcard := h.atMost_iff.mp hle
  cases a with
  | wait p =>
      obtain ⟨hp, rfl⟩ : s.phase p = .outside ∧ semWait s p = s' := by simpa [semStep] using hstep
      exact (h.wait_atMost_iff hp hcard).mpr (hwait p rfl)
  | resume p =>
      have hready : s.phase p = .ready := by
        by_contra hne
        simp [semStep, hne] at hstep
      rcases h.awake p with hp | hp <;> simp [hp] at hready
  | signal p =>
      obtain ⟨hp, hs⟩ : s.phase p = .past ∧ semSignal s p = some s' := by
        simpa [semStep] using hstep
      obtain ⟨s'', hs', hc⟩ := h.signal hp
      rw [hs, Option.some.injEq] at hs'
      subst hs'
      exact hc.atMost_iff.mpr ((Finset.card_erase_le).trans hcard)

/-- Along a run at most `k` tasks are past `sem_wait` at every moment if and only if
no `sem_wait` of the run finds the value 0. -/
theorem at_most_k_iff_no_wait_at_zero {ops : List SemOp} (hrun : Run SemStep (init k) ops s) :
    (∀ as bs t, ops = as ++ bs → Run SemStep (init k) as t → AtMost k.toNat t) ↔
      ∀ as p bs t, ops = as ++ .wait p :: bs → Run SemStep (init k) as t → t.sem.value ≠ 0 := by
  constructor
  · intro hall as p bs t hops ht
    obtain ⟨holders, hc⟩ := counts_of_run ht
    have hcard := hc.atMost_iff.mp (hall as _ t hops ht)
    -- the wait itself is a step of the run
    obtain ⟨u, hu, hstep⟩ : ∃ u, Run SemStep (init k) (as ++ [.wait p]) u ∧
        SemStep t (.wait p) u := by
      obtain ⟨t', ht', hrest⟩ := (hops ▸ hrun).append_inv
      obtain rfl := ht'.unique semStep_unique ht
      cases hrest with
      | step hstep _ => exact ⟨_, ht.append (.single hstep), hstep⟩
    obtain ⟨hp, rfl⟩ : t.phase p = .outside ∧ semWait t p = u := by
      simpa [SemStep, semStep] using hstep
    exact (hc.wait_atMost_iff hp hcard).mp (hall (as ++ [.wait p]) bs _ (by simp [hops]) hu)
  · intro hwait as
    induction as using List.reverseRecOn with
    | nil =>
        intro bs t _ ht
        cases ht
        exact (counts_init k).atMost_iff.mpr (by simp)
    | append_singleton as a ih =>
        intro bs t hops ht
        obtain ⟨u, hu, hstep⟩ := ht.snoc_inv
        obtain ⟨holders, hc⟩ := counts_of_run hu
        refine atMost_step hc (ih (a :: bs) u (by simpa using hops) hu) hstep ?_
        rintro p rfl
        exact hwait as p bs u (by simpa using hops) hu

/-- Three tasks on a semaphore of value 2, the third after a signal. -/
theorem two_tasks_past :
    ∃ s, Run SemStep (init 2) [.wait 7, .wait 8, .signal 7, .wait 9] s ∧
      ((∀ as bs t, [SemOp.wait 7, .wait 8, .signal 7, .wait 9] = as ++ bs →
          Run SemStep (init 2) as t → AtMost (2 : BitVec 32).toNat t) ↔
        ∀ as p bs t, [SemOp.wait 7, .wait 8, .signal 7, .wait 9] = as ++ .wait p :: bs →
          Run SemStep (init 2) as t → t.sem.value ≠ 0) := by
  have hrun : Run SemStep (init 2) [.wait 7, .wait 8, .signal 7, .wait 9]
      ((execute semStep (init 2) [.wait 7, .wait 8, .signal 7, .wait 9]).getD (init 2)) :=
    run_of_execute (by rfl)
  exact ⟨_, hrun, at_most_k_iff_no_wait_at_zero hrun⟩

/-- Two tasks take a semaphore of value 1: the value goes to `2 ^ 32 - 1`, which is
not below 0, and neither sleeps. -/
theorem two_tasks_hold_one_lock :
    ∃ s, Run SemStep (init 1) [.wait 7, .wait 8] s ∧ s.phase 7 = .past ∧ s.phase 8 = .past ∧
      ¬ AtMost 1 s := by
  have hrun : Run SemStep (init 1) [.wait 7, .wait 8]
      ((execute semStep (init 1) [.wait 7, .wait 8]).getD (init 1)) := run_of_execute (by rfl)
  refine ⟨_, hrun, by rfl, by rfl, fun hle => ?_⟩
  have := hle {7, 8} (by decide)
  simp at this

end SemTasks

end K210Os
