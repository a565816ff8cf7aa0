import K210Os.ProcessTree
import Mathlib.Algebra.Group.Nat.Hom

/-!
# The slots of the pid allocator

The released pids lie in 31 slots, of which `sp` are in use; the slots above keep the values of
earlier calls. The scan of `pid_dealloc` looks at the slot `sp` in each turn.
-/

namespace K210Os

open Transition

/-- `struct PidAllocator` without its lock. -/
structure PidSlots where
  current : BitVec 64
  recycledStack : Vector (BitVec 64) 31
  sp : ℕ

inductive PidFault where
  | panic
  | outside
  deriving DecidableEq

namespace PidSlots

def pidInit (a : PidSlots) : PidSlots := { a with current := 1, sp := 0 }

def pidAlloc (a : PidSlots) : Except PidFault (BitVec 64 × PidSlots) :=
  if a.sp ≠ 0 then
    let a := { a with sp := a.sp - 1 }
    if h : a.sp < 31 then .ok (a.recycledStack[a.sp], a) else .error .outside
  else
    let a := { a with current := a.current + 1 }
    .ok (a.current - 1, a)

/-- The scan for a pid that is in the stack, with `n` turns to go. -/
def pidDeallocScan (a : PidSlots) (pid : BitVec 64) : ℕ → Except PidFault Unit
  | 0 => .ok ()
  | n + 1 =>
      if h : a.sp < 31 then
        if a.recycledStack[a.sp] = pid then .error .panic else pidDeallocScan a pid n
      else .error .outside

def pidDealloc (a : PidSlots) (pid : BitVec 64) : Except PidFault PidSlots :=
  if pid < a.current then
    match pidDeallocScan a pid a.sp with
    | .error fault => .error fault
    | .ok () =>
        if h : a.sp < 31 then
          .ok { a with recycledStack := a.recycledStack.set a.sp pid, sp := (a.sp + 1) % 2 ^ 8 }
        else .error .outside
  else .error .panic

/-- The recycled stack, without the slots above `sp`. -/
def stack (a : PidSlots) : List (BitVec 64) := a.recycledStack.toList.take a.sp

/-- The slot that the next release will write has this value. -/
def Stale (a : PidSlots) (pid : BitVec 64) : Prop := a.recycledStack[a.sp]? = some pid

instance decidableStale (a : PidSlots) (pid : BitVec 64) : Decidable (a.Stale pid) :=
  inferInstanceAs (Decidable (_ = _))

def toPidAllocator (a : PidSlots) : PidAllocator := ⟨a.current, a.stack.reverse⟩

variable {a a' : PidSlots} {pid : BitVec 64} {n : ℕ}

theorem length_stack (hsp : a.sp ≤ 31) : a.stack.length = a.sp := by
  rw [stack, List.length_take, Vector.length_toList]
  omega

theorem stale_iff (hsp : a.sp < 31) : a.Stale pid ↔ a.recycledStack[a.sp] = pid := by
  rw [Stale, Vector.getElem?_eq_getElem hsp, Option.some_inj]

theorem stack_succ (hn : n < 31) (hsp : a.sp = n + 1) :
    a.stack = { a with sp := n }.stack ++ [a.recycledStack[n]] := by
  have hlen : n < a.recycledStack.toList.length := by
    rw [Vector.length_toList]
    exact hn
  rw [stack, stack, hsp, List.take_succ_eq_append_getElem hlen, Vector.getElem_toList]

theorem stack_set (hsp : a.sp < 31) :
    PidSlots.stack { a with recycledStack := a.recycledStack.set a.sp pid, sp := a.sp + 1 } =
      a.stack ++ [pid] := by
  rw [stack_succ hsp rfl]
  simp only [stack, Vector.toList_set, Vector.getElem_set_self]
  rw [List.take_set_of_le (Nat.le_refl a.sp)]

theorem pidDeallocScan_eq (hn : n ≠ 0) : pidDeallocScan a pid n =
    if a.sp < 31 then if a.Stale pid then .error .panic else .ok () else .error .outside := by
  induction n with
  | zero => exact absurd rfl hn
  | succ n ih =>
      rw [pidDeallocScan]
      by_cases hsp : a.sp < 31
      · rw [dif_pos hsp, if_pos hsp]
        simp only [← stale_iff hsp]
        cases n with
        | zero => rfl
        | succ n =>
            rw [ih (Nat.succ_ne_zero n), if_pos hsp]
            split_ifs <;> rfl
      · rw [dif_neg hsp, if_neg hsp]

/-- The pid comes from the top of the stack, or from the counter where the stack is empty. -/
theorem pidAlloc_cases (hsp : a.sp ≤ 31) :
    (a.sp = 0 ∧ a.stack = [] ∧
      a.pidAlloc = .ok (a.current, { a with current := a.current + 1 })) ∨
    ∃ pid a', a.sp ≠ 0 ∧ a.stack = a'.stack ++ [pid] ∧ a'.current = a.current ∧ a'.sp ≤ 31 ∧
      a.pidAlloc = .ok (pid, a') := by
  obtain hzero | ⟨n, hn⟩ : a.sp = 0 ∨ ∃ n, a.sp = n + 1 := by
    cases a.sp with
    | zero => exact Or.inl rfl
    | succ n => exact Or.inr ⟨n, rfl⟩
  · refine Or.inl ⟨hzero, ?_, ?_⟩
    · rw [stack, hzero, List.take_zero]
    · rw [pidAlloc, if_neg (not_not.mpr hzero)]
      simp only [BitVec.add_sub_cancel]
  · have hlt : n < 31 := by omega
    refine Or.inr ⟨a.recycledStack[n], { a with sp := n }, by omega, stack_succ hlt hn, rfl,
      Nat.le_of_lt hlt, ?_⟩
    rw [pidAlloc, if_pos (by omega)]
    simp only [hn, Nat.add_sub_cancel, dif_pos hlt]

/-- The allocator with a list for a stack. -/
theorem pidAlloc_refines (hsp : a.sp ≤ 31) (halloc : a.pidAlloc = .ok (pid, a')) :
    a.toPidAllocator.pidAlloc = (pid, a'.toPidAllocator) := by
  obtain ⟨-, hempty, hcall⟩ | ⟨q, b, -, hstack, hcurrent, -, hcall⟩ := pidAlloc_cases hsp
  · obtain ⟨rfl, rfl⟩ := Prod.mk.inj (Except.ok.inj (halloc.symm.trans hcall))
    have hsame : PidSlots.stack { a with current := a.current + 1 } = [] := hempty
    simp only [toPidAllocator, PidAllocator.pidAlloc, hempty, hsame, List.reverse_nil]
  · obtain ⟨rfl, rfl⟩ := Prod.mk.inj (Except.ok.inj (halloc.symm.trans hcall))
    simp only [toPidAllocator, PidAllocator.pidAlloc, hstack, hcurrent, List.reverse_append,
      List.reverse_cons, List.reverse_nil, List.nil_append, List.singleton_append]

theorem pidDealloc_cases (pid : BitVec 64) (hsp : a.sp ≤ 31) :
    ((pid < a.current ∧ a.sp < 31 ∧ (a.sp = 0 ∨ ¬ a.Stale pid)) ∧
      ∃ a', a.pidDealloc pid = .ok a' ∧ a'.current = a.current ∧ a'.sp ≤ 31 ∧
        a'.stack = a.stack ++ [pid]) ∨
    ((a.current ≤ pid ∨ a.sp ≠ 0 ∧ a.sp < 31 ∧ a.Stale pid) ∧
      a.pidDealloc pid = .error .panic) ∨
    ((pid < a.current ∧ a.sp = 31) ∧ a.pidDealloc pid = .error .outside) := by
  by_cases hlt : pid < a.current
  · by_cases hfull : a.sp < 31
    · have hmod : (a.sp + 1) % 2 ^ 8 = a.sp + 1 := Nat.mod_eq_of_lt (by omega)
      by_cases hstale : a.sp ≠ 0 ∧ a.Stale pid
      · refine Or.inr (Or.inl ⟨Or.inr ⟨hstale.1, hfull, hstale.2⟩, ?_⟩)
        rw [pidDealloc, if_pos hlt, pidDeallocScan_eq hstale.1, if_pos hfull, if_pos hstale.2]
      · have hscan : a.pidDeallocScan pid a.sp = .ok () := by
          by_cases hzero : a.sp = 0
          · rw [hzero, pidDeallocScan]
          · rw [pidDeallocScan_eq hzero, if_pos hfull, if_neg fun h => hstale ⟨hzero, h⟩]
        refine Or.inl ⟨⟨hlt, hfull, ?_⟩, { a with
          recycledStack := a.recycledStack.set a.sp pid, sp := a.sp + 1 }, ?_, rfl, hfull,
          stack_set hfull⟩
        · rw [or_iff_not_imp_left]
          exact fun hzero h => hstale ⟨hzero, h⟩
        · rw [pidDealloc, if_pos hlt, hscan]
          simp only [dif_pos hfull, hmod]
    · refine Or.inr (Or.inr ⟨⟨hlt, by omega⟩, ?_⟩)
      rw [pidDealloc, if_pos hlt, pidDeallocScan_eq (by omega), if_neg hfull]
  · refine Or.inr (Or.inl ⟨Or.inl (BitVec.not_lt.mp hlt), ?_⟩)
    rw [pidDealloc, if_neg hlt]

end PidSlots

/-! ## Runs -/

inductive PidCall where
  | alloc
  | dealloc (pid : BitVec 64)

/-- `used` records the pids that are out; no function reads it. -/
structure PidState where
  slots : PidSlots
  used : List (BitVec 64)

/-- The pids below `current`, from 1 on, are in use or in the recycled stack. -/
structure PidsOk (s : PidState) : Prop where
  nodup : s.used.Nodup
  range : ∀ {pid}, pid ∈ s.used → 1 ≤ pid ∧ pid < s.slots.current
  stack_nodup : s.slots.stack.Nodup
  mem_stack : ∀ {pid}, pid ∈ s.slots.stack ↔ 1 ≤ pid ∧ pid < s.slots.current ∧ pid ∉ s.used
  sp_le : s.slots.sp ≤ 31
  current_pos : 1 ≤ s.slots.current

namespace PidState

def call (s : PidState) : PidCall → Except PidFault PidState
  | .alloc =>
      match s.slots.pidAlloc with
      | .ok (pid, slots) => .ok ⟨slots, pid :: s.used⟩
      | .error fault => .error fault
  | .dealloc pid =>
      match s.slots.pidDealloc pid with
      | .ok slots => .ok ⟨slots, s.used.erase pid⟩
      | .error fault => .error fault

/-- The call returns. -/
def Step (s : PidState) (c : PidCall) (s' : PidState) : Prop := s.call c = .ok s'

/-- What is wanted of a call. -/
def CallLaws (s : PidState) : PidCall → Prop
  | .alloc => ∃ pid slots, s.slots.pidAlloc = .ok (pid, slots) ∧ pid ∉ s.used ∧
      PidsOk ⟨slots, pid :: s.used⟩
  | .dealloc pid => (s.slots.pidDealloc pid = .error .panic ↔ pid ∉ s.used) ∧
      (pid ∈ s.used → ∃ slots, s.slots.pidDealloc pid = .ok slots ∧
        PidsOk ⟨slots, s.used.erase pid⟩)

/-- The counter does not wrap around; a pid in use finds room, and no stale copy of itself in the
slot `sp`; one that is not in use is past the counter, or is just the stale value there. -/
def Quiet (s : PidState) : PidCall → Prop
  | .alloc => s.slots.sp ≠ 0 ∨ s.slots.current.toNat + 1 < 2 ^ 64
  | .dealloc pid =>
      if pid ∈ s.used then s.slots.sp < 31 ∧ (s.slots.sp = 0 ∨ ¬ s.slots.Stale pid)
      else s.slots.current ≤ pid ∨ s.slots.sp ≠ 0 ∧ s.slots.sp < 31 ∧ s.slots.Stale pid

def QuietStep (s : PidState) (c : PidCall) (s' : PidState) : Prop := s.Quiet c ∧ s.Step c s'

instance decidableQuiet (s : PidState) : ∀ call, Decidable (s.Quiet call)
  | .alloc => inferInstanceAs (Decidable (_ ∨ _))
  | .dealloc _ => inferInstanceAs (Decidable (ite _ _ _))

end PidState

variable {s s' : PidState} {pid : BitVec 64} {a : PidSlots}

theorem pidsOk_init (a : PidSlots) : PidsOk ⟨a.pidInit, []⟩ where
  nodup := List.nodup_nil
  range := fun h => absurd h List.not_mem_nil
  stack_nodup := by
    rw [PidSlots.pidInit, PidSlots.stack, List.take_zero]
    exact List.nodup_nil
  mem_stack := by
    intro pid
    rw [PidSlots.pidInit, PidSlots.stack, List.take_zero]
    exact iff_of_false List.not_mem_nil fun ⟨hlo, hhi, _⟩ => by bv_omega
  sp_le := Nat.zero_le _
  current_pos := BitVec.le_refl 1

/-- The counter hands out a pid of its own, unless it wraps around. -/
theorem PidsOk.alloc_current (h : PidsOk s) (hempty : s.slots.stack = []) :
    s.slots.current ∉ s.used ∧
      (PidsOk ⟨{ s.slots with current := s.slots.current + 1 }, s.slots.current :: s.used⟩ ↔
        s.slots.current.toNat + 1 < 2 ^ 64) := by
  have hnot : s.slots.current ∉ s.used := fun hmem => by
    have hrange := (h.range hmem).2
    bv_omega
  refine ⟨hnot, fun hafter => ?_, fun hlt => ?_⟩
  · have hrange := (hafter.range List.mem_cons_self).2
    dsimp only at hrange
    bv_omega
  · have hpos := h.current_pos
    have hlt' : ∀ {pid : BitVec 64}, pid < s.slots.current + 1 ↔
        pid = s.slots.current ∨ pid < s.slots.current := by
      intro pid
      bv_omega
    refine ⟨List.nodup_cons.mpr ⟨hnot, h.nodup⟩, fun {pid} hmem => ?_, h.stack_nodup,
      fun {pid} => ?_, h.sp_le, ?_⟩
    · rcases List.mem_cons.mp hmem with rfl | hmem
      · exact ⟨hpos, hlt'.mpr (Or.inl rfl)⟩
      · exact ⟨(h.range hmem).1, hlt'.mpr (Or.inr (h.range hmem).2)⟩
    · have hmem : pid ∈ s.slots.stack ↔ 1 ≤ pid ∧ pid < s.slots.current ∧ pid ∉ s.used :=
        h.mem_stack
      rw [hempty] at hmem
      refine iff_of_false (hempty ▸ List.not_mem_nil) fun ⟨hlo, hhi, hout⟩ => ?_
      rw [List.mem_cons, not_or] at hout
      exact absurd (hmem.mpr ⟨hlo, (hlt'.mp hhi).resolve_left hout.1, hout.2⟩) List.not_mem_nil
    · dsimp only
      bv_omega

/-- The pid at the top of the stack is taken. -/
theorem PidsOk.alloc_top (h : PidsOk s) (hstack : s.slots.stack = a.stack ++ [pid])
    (hcurrent : a.current = s.slots.current) (hsp : a.sp ≤ 31) :
    pid ∉ s.used ∧ PidsOk ⟨a, pid :: s.used⟩ := by
  obtain ⟨hlo, hhi, hnot⟩ := h.mem_stack.mp (hstack ▸ List.mem_append_right _ List.mem_cons_self)
  have hnodup := h.stack_nodup
  rw [hstack, List.nodup_append_comm, List.singleton_append, List.nodup_cons] at hnodup
  refine ⟨hnot, List.nodup_cons.mpr ⟨hnot, h.nodup⟩, fun {q} hmem => ?_, hnodup.2,
    fun {q} => ?_, hsp, hcurrent ▸ h.current_pos⟩
  · rw [hcurrent]
    rcases List.mem_cons.mp hmem with rfl | hmem
    · exact ⟨hlo, hhi⟩
    · exact h.range hmem
  · have hmem : q ∈ s.slots.stack ↔ 1 ≤ q ∧ q < s.slots.current ∧ q ∉ s.used := h.mem_stack
    rw [hstack, List.mem_append, List.mem_singleton] at hmem
    rw [hcurrent, List.mem_cons, not_or]
    refine ⟨fun hq => ?_, fun ⟨hqlo, hqhi, hne, hout⟩ => ?_⟩
    · obtain ⟨hqlo, hqhi, hout⟩ := hmem.mp (Or.inl hq)
      exact ⟨hqlo, hqhi, fun heq => hnodup.1 (heq ▸ hq), hout⟩
    · exact (hmem.mpr ⟨hqlo, hqhi, hout⟩).resolve_right hne

/-- A pid in use is put on the stack. -/
theorem PidsOk.dealloc (h : PidsOk s) (hused : pid ∈ s.used)
    (hstack : a.stack = s.slots.stack ++ [pid]) (hcurrent : a.current = s.slots.current)
    (hsp : a.sp ≤ 31) : PidsOk ⟨a, s.used.erase pid⟩ := by
  obtain ⟨hlo, hhi⟩ := h.range hused
  have hnot : pid ∉ s.slots.stack := fun hmem => (h.mem_stack.mp hmem).2.2 hused
  refine ⟨h.nodup.erase pid, fun {q} hmem => ?_, ?_, fun {q} => ?_, hsp, hcurrent ▸ h.current_pos⟩
  · rw [hcurrent]
    exact h.range (List.mem_of_mem_erase hmem)
  · rw [hstack, List.nodup_append_comm, List.singleton_append, List.nodup_cons]
    exact ⟨hnot, h.stack_nodup⟩
  · rw [hstack, List.mem_append, List.mem_singleton, h.mem_stack, hcurrent, h.nodup.mem_erase_iff]
    refine ⟨?_, fun ⟨hqlo, hqhi, hout⟩ => ?_⟩
    · rintro (⟨hqlo, hqhi, hout⟩ | rfl)
      · exact ⟨hqlo, hqhi, fun hin => hout hin.2⟩
      · exact ⟨hlo, hhi, fun hin => hin.1 rfl⟩
    · by_cases heq : q = pid
      · exact Or.inr heq
      · exact Or.inl ⟨hqlo, hqhi, fun hin => hout ⟨heq, hin⟩⟩

open PidState

/-- A call does what is wanted exactly if it is quiet. -/
theorem PidsOk.callLaws_iff (h : PidsOk s) (call : PidCall) : s.CallLaws call ↔ s.Quiet call := by
  cases call with
  | alloc =>
      unfold CallLaws Quiet
      obtain ⟨hzero, hempty, hcall⟩ | ⟨pid, a, hpos, hstack, hcurrent, hsp, hcall⟩ :=
        PidSlots.pidAlloc_cases h.sp_le
      · obtain ⟨hnot, hiff⟩ := h.alloc_current hempty
        rw [or_iff_right (not_not.mpr hzero), ← hiff]
        refine ⟨fun ⟨pid, a, halloc, _, hok⟩ => ?_, fun hok => ⟨_, _, hcall, hnot, hok⟩⟩
        obtain ⟨rfl, rfl⟩ := Prod.mk.inj (Except.ok.inj (hcall.symm.trans halloc))
        exact hok
      · exact iff_of_true ⟨pid, a, hcall, h.alloc_top hstack hcurrent hsp⟩ (Or.inl hpos)
  | dealloc pid =>
      simp only [CallLaws, Quiet]
      by_cases hused : pid ∈ s.used
      · have hlt := (h.range hused).2
        rw [if_pos hused, iff_false_right (not_not.mpr hused)]
        obtain ⟨⟨-, hroom⟩, a, hcall, hcurrent, hsp, hstack⟩ | ⟨hwhy, hcall⟩ | ⟨⟨hlt', hfull⟩, hcall⟩ :=
          PidSlots.pidDealloc_cases pid h.sp_le
        · rw [hcall]
          exact iff_of_true ⟨fun heq => (by cases heq), fun _ =>
            ⟨a, rfl, h.dealloc hused hstack hcurrent hsp⟩⟩ hroom
        · refine iff_of_false (fun hlaws => hlaws.1 hcall) fun hroom => ?_
          rcases hwhy with hle | ⟨hpos, -, hstale⟩
          · exact absurd hlt (BitVec.not_lt.mpr hle)
          · exact hroom.2.elim hpos fun hnot => hnot hstale
        · refine iff_of_false (fun hlaws => ?_) fun hroom => by omega
          obtain ⟨a, hok, -⟩ := hlaws.2 hused
          cases hok.symm.trans hcall
      · rw [if_neg hused, iff_true_right hused]
        obtain ⟨⟨hlt, hfull, hroom⟩, a, hcall, -⟩ | ⟨hwhy, hcall⟩ | ⟨⟨hlt', hfull⟩, hcall⟩ :=
          PidSlots.pidDealloc_cases pid h.sp_le
        · refine iff_of_false (fun hlaws => by cases hlaws.1.symm.trans hcall) ?_
          rintro (hle | ⟨hpos, -, hstale⟩)
          · exact absurd hlt (BitVec.not_lt.mpr hle)
          · exact hroom.elim hpos fun hnot => hnot hstale
        · exact iff_of_true ⟨hcall, fun hin => absurd hin hused⟩ hwhy
        · refine iff_of_false (fun hlaws => by cases hlaws.1.symm.trans hcall) ?_
          rintro (hle | ⟨-, hlt, -⟩)
          · exact absurd hlt' (BitVec.not_lt.mpr hle)
          · omega

/-- A call that is quiet and returns leaves the allocator in order. -/
theorem PidsOk.call (h : PidsOk s) {call : PidCall} (hquiet : s.Quiet call)
    (hcall : s.call call = .ok s') : PidsOk s' := by
  have hlaws := (h.callLaws_iff call).mpr hquiet
  cases call with
  | alloc =>
      obtain ⟨pid, slots, halloc, -, hok⟩ := hlaws
      rw [PidState.call, halloc] at hcall
      exact Except.ok.inj hcall ▸ hok
  | dealloc pid =>
      rw [PidState.call] at hcall
      by_cases hused : pid ∈ s.used
      · obtain ⟨slots, hdealloc, hok⟩ := hlaws.2 hused
        rw [hdealloc] at hcall
        exact Except.ok.inj hcall ▸ hok
      · rw [hlaws.1.mpr hused] at hcall
        cases hcall

/-- After any quiet calls from `pid_init` the allocator is in order, and the next call does what is
wanted exactly if it is quiet too. -/
theorem pidCalls_run_iff (a : PidSlots) {calls : List PidCall}
    (hrun : Run PidState.QuietStep ⟨a.pidInit, []⟩ calls s) (call : PidCall) : PidsOk s ∧ (s.CallLaws call ↔ s.Quiet call) := by
  have hok : PidsOk s :=
    hrun.invariant (fun _ _ _ h hstep => h.call hstep.1 hstep.2) (pidsOk_init a)
  exact ⟨hok, hok.callLaws_iff call⟩

def zeroSlots : PidSlots := ⟨0, Vector.replicate 31 0, 0⟩

/-- Two pids are out, the first comes back and is handed out once more. -/
theorem pidCalls_three : ∃ s, Run PidState.QuietStep ⟨zeroSlots.pidInit, []⟩
    [.alloc, .alloc, .dealloc 1] s ∧ s.CallLaws .alloc := by
  have hrun : Run PidState.QuietStep ⟨zeroSlots.pidInit, []⟩ [.alloc, .alloc, .dealloc 1] _ :=
    .step ⟨by decide, rfl⟩ (.step ⟨by decide, rfl⟩ (.step ⟨by decide, rfl⟩ (.done _)))
  exact ⟨_, hrun, (pidCalls_run_iff zeroSlots hrun .alloc).2.mpr (by decide)⟩

/-- A pid is given back twice; a pid in use is refused, since it was the last one at the same
place of the stack before. -/
theorem pidCalls_wrong :
    (∃ s slots, Run PidState.Step ⟨zeroSlots.pidInit, []⟩
      [.alloc, .dealloc 1] s ∧ 1 ∉ s.used ∧ s.slots.pidDealloc 1 = .ok slots) ∧
    ∃ s, Run PidState.Step ⟨zeroSlots.pidInit, []⟩
      [.alloc, .alloc, .dealloc 1, .dealloc 2, .alloc, .alloc, .dealloc 1] s ∧
      2 ∈ s.used ∧ s.slots.pidDealloc 2 = .error .panic :=
  ⟨⟨_, _, .step rfl (.step rfl (.done _)), by decide, rfl⟩,
    ⟨_, .step rfl (.step rfl (.step rfl (.step rfl (.step rfl (.step rfl (.step rfl (.done _))))))),
      by decide, rfl⟩⟩

end K210Os
