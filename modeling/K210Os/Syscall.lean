import K210Os.FileTable
import K210Os.Riscv

/-!
# Numbers that come from user registers

`syscall_handler` and the system calls that take a descriptor, up to where they use its
file. An index out of its array, and the use of the file of a descriptor that is not open,
are faults. What else a system call does is left out: its answer is `none`.
-/

namespace K210Os.Syscalls

open Riscv

/-- The system calls of the table `syscalls`. -/
inductive Syscall
  | getcwd | pipe | dup | dup3 | chdir | open | close | getdents64 | read | write
  | unlink | mkdir | mount | umount | fstat | getpid | getppid | wait | wait4 | exec | fork
  | exit | brk | mmap | munmap | uname | times | yield | gettimeofday | nanosleep | test | getuid
  deriving DecidableEq

/-- The entries of `syscalls`. -/
def syscalls : ℕ → Option Syscall
  | 1 => some .fork
  | 3 => some .wait
  | 7 => some .exec
  | 17 => some .getcwd
  | 22 => some .test
  | 23 => some .dup
  | 24 => some .dup3
  | 34 => some .mkdir
  | 35 => some .unlink
  | 39 => some .umount
  | 40 => some .mount
  | 49 => some .chdir
  | 56 => some .open
  | 57 => some .close
  | 59 => some .pipe
  | 61 => some .getdents64
  | 63 => some .read
  | 64 => some .write
  | 80 => some .fstat
  | 93 => some .exit
  | 101 => some .nanosleep
  | 124 => some .yield
  | 153 => some .times
  | 160 => some .uname
  | 169 => some .gettimeofday
  | 172 => some .getpid
  | 173 => some .getppid
  | 174 => some .getuid
  | 175 => some .getuid
  | 176 => some .getuid
  | 177 => some .getuid
  | 214 => some .brk
  | 215 => some .munmap
  | 220 => some .fork
  | 221 => some .exec
  | 222 => some .mmap
  | 260 => some .wait4
  | _ => none

/-- The number of entries of `syscalls`: `SYS_wait4` is the largest index. -/
def syscallCount : ℕ := 261

inductive Fault
  | syscalls (index : ℕ)
  | ofile (index : ℤ)
  | null
  deriving DecidableEq

/-- The array `ofile` of a process. -/
abbrev Descriptors := Fin nofile → Option File

def atFdcwd : ℤ := -100

def oCreate : BitVec 32 := 0x40

instance neZero_six : NeZero 6 := ⟨by decide⟩

section
variable (t : Descriptors) (gr : Reg → Word)

/-- The sixth argument is taken from `a6`. -/
def argraw : Fin 6 → Word
  | 0 => gr 10
  | 1 => gr 11
  | 2 => gr 12
  | 3 => gr 13
  | 4 => gr 14
  | 5 => gr 16

def argbits (n : Fin 6) : BitVec 32 := (argraw gr n).setWidth 32

def argint (n : Fin 6) : ℤ := (argbits gr n).toInt

def syscallsAt (index : ℕ) : Except Fault (Option Syscall) :=
  if index < syscallCount then .ok (syscalls index) else .error (.syscalls index)

def ofileAt (fd : ℤ) : Except Fault (Option File) :=
  if h : fd.toNat < nofile ∧ 0 ≤ fd then .ok (t ⟨fd.toNat, h.1⟩) else .error (.ofile fd)

/-- A member of the file is read or written. -/
def deref : Option File → Except Fault File
  | none => .error .null
  | some f => .ok f

/-- `argfd`; `none` where it returns `-1`. -/
def argfd (n : Fin 6) : Except Fault (Option File) :=
  if argint gr n < 0 ∨ argint gr n ≥ nofile then .ok none else ofileAt t (argint gr n)

/-- `sys_read`, `sys_write`, `sys_close`, `sys_dup`, `sys_fstat` and `sys_getdents64`. -/
def withArgfd : Except Fault (Option Word) := do
  match ← argfd t gr 0 with
  | none => return some (-1)
  | some _ => return none

/-- `fdalloc2` of an open file. -/
def fdalloc2 (newfd : ℤ) : Except Fault ℤ := do
  match ← ofileAt t newfd with
  | none => return newfd
  | some _ => return -1

def sysDup3 : Except Fault (Option Word) := do
  match ← argfd t gr 0 with
  | none => return some (-1)
  | some _ =>
      if argint gr 0 = argint gr 1 then return some (BitVec.ofInt 64 (argint gr 1))
      else return some (BitVec.ofInt 64 (← fdalloc2 t (argint gr 1)))

/-- `fileopen` up to the lookup of the name. -/
def fileopen (dfd : ℤ) (omode : BitVec 32) : Except Fault (Option Word) := do
  if dfd = atFdcwd then return none
  else
    let f ← ofileAt t dfd
    if omode &&& oCreate ≠ 0 then
      let _ ← deref f
      return none
    else return none

/-- `path` says whether `argstr` gets the name from user memory. -/
def sysOpen (path : Bool) : Except Fault (Option Word) :=
  if path then fileopen t (argint gr 0) (argbits gr 2) else return some (-1)

def sysMmap : Except Fault (Option Word) := do
  let f ← ofileAt t (argint gr 4)
  let prot := argbits gr 2
  let flags := argbits gr 3
  if prot &&& protWrite ≠ 0 then
    let file ← deref f
    if file.writable = false ∧ flags &&& mapPrivate = 0 then return some (-1)
  if prot &&& protRead ≠ 0 then
    let file ← deref f
    if file.readable = false then return some (-1)
  -- `f->off = 0`
  let _ ← deref f
  return none

def Syscall.run (path : Bool) : Syscall → Except Fault (Option Word)
  | .read => withArgfd t gr
  | .write => withArgfd t gr
  | .close => withArgfd t gr
  | .dup => withArgfd t gr
  | .fstat => withArgfd t gr
  | .getdents64 => withArgfd t gr
  | .dup3 => sysDup3 t gr
  | .open => sysOpen t gr path
  | .mmap => sysMmap t gr
  | _ => .ok none

/-- The call number is in `a7`. -/
def syscallHandler (path : Bool) : Except Fault (Option Word) := do
  let a7 := (gr 17).toNat
  if a7 > 0 then
    match ← syscallsAt a7 with
    | some call => call.run t gr path
    | none => return some 0
  else return some 0

/-- The descriptor that a system call names to use its file. -/
def descriptor : Syscall → Option ℤ
  | .read => some (argint gr 0)
  | .write => some (argint gr 0)
  | .close => some (argint gr 0)
  | .dup => some (argint gr 0)
  | .fstat => some (argint gr 0)
  | .getdents64 => some (argint gr 0)
  | .dup3 => some (argint gr 0)
  | .open => if argint gr 0 = atFdcwd then none else some (argint gr 0)
  | .mmap => some (argint gr 4)
  | _ => none

def InTable (fd : ℤ) : Prop := 0 ≤ fd ∧ fd.toNat < nofile

/-- A descriptor in the table with a file. -/
def IsOpen (fd : ℤ) : Prop := ∃ f, ofileAt t fd = .ok (some f)

/-- No index leaves its array, and a descriptor that is not open is refused with `-1`. -/
structure Guarded (path : Bool) : Prop where
  table : ∀ i, syscallHandler t gr path ≠ .error (.syscalls i)
  ofile : ∀ fd, syscallHandler t gr path ≠ .error (.ofile fd)
  refused : ∀ call fd, syscalls (gr 17).toNat = some call → descriptor gr call = some fd →
    ¬ IsOpen t fd → syscallHandler t gr path = .ok (some (-1))

/-- The arguments that a system call does not check itself. -/
def ArgsOk (path : Bool) : Syscall → Prop
  | .dup3 => IsOpen t (argint gr 0) → argint gr 0 ≠ argint gr 1 → InTable (argint gr 1)
  | .mmap => IsOpen t (argint gr 4)
  | .open => path = true → argint gr 0 ≠ atFdcwd → IsOpen t (argint gr 0)
  | _ => True

end

section
variable {t : Descriptors} {gr : Reg → Word} {path : Bool} {fd : ℤ} {call : Syscall}

theorem syscalls_lt {index : ℕ} (h : syscalls index = some call) : index < syscallCount := by
  unfold syscalls at h
  split at h <;> first | decide | cases h

theorem ofileAt_of_inTable (h : InTable fd) : ofileAt t fd = .ok (t ⟨fd.toNat, h.2⟩) :=
  dif_pos (And.symm h)

theorem ofileAt_of_not_inTable (h : ¬ InTable fd) : ofileAt t fd = .error (.ofile fd) :=
  dif_neg fun hin => h (And.symm hin)

theorem IsOpen.inTable (h : IsOpen t fd) : InTable fd := by
  obtain ⟨f, hf⟩ := h
  by_contra hout
  rw [ofileAt_of_not_inTable hout] at hf
  cases hf

/-- A descriptor in the table that is not open is free. -/
theorem ofileAt_of_not_isOpen (h : InTable fd) (hnot : ¬ IsOpen t fd) :
    ofileAt t fd = .ok none := by
  have hat : ofileAt t fd = .ok (t ⟨fd.toNat, h.2⟩) := ofileAt_of_inTable h
  cases hf : t ⟨fd.toNat, h.2⟩ with
  | none => rw [hat, hf]
  | some f => exact absurd ⟨f, by rw [hat, hf]⟩ hnot

theorem argfd_of_isOpen {n : Fin 6} (h : IsOpen t (argint gr n)) :
    ∃ f, argfd t gr n = .ok (some f) := by
  obtain ⟨f, hf⟩ := h
  have hin := IsOpen.inTable ⟨f, hf⟩
  unfold InTable at hin
  exact ⟨f, by rw [argfd, if_neg (by omega), hf]⟩

theorem argfd_of_not_isOpen {n : Fin 6} (h : ¬ IsOpen t (argint gr n)) :
    argfd t gr n = .ok none := by
  rw [argfd]
  split
  · rfl
  · apply ofileAt_of_not_isOpen _ h
    unfold InTable
    omega

theorem handler_of_table (h : syscalls (gr 17).toNat = some call) :
    syscallHandler t gr path = call.run t gr path := by
  have hpos : (gr 17).toNat > 0 := by
    apply Nat.pos_of_ne_zero
    intro heq
    rw [heq] at h
    cases h
  have hat : syscallsAt (gr 17).toNat = .ok (some call) := by
    rw [syscallsAt, if_pos (syscalls_lt h), h]
  simp only [syscallHandler, if_pos hpos, hat]
  rfl

theorem handler_of_none (hlt : (gr 17).toNat < syscallCount)
    (h : syscalls (gr 17).toNat = none) : syscallHandler t gr path = .ok (some 0) := by
  have hat : syscallsAt (gr 17).toNat = .ok none := by
    rw [syscallsAt, if_pos hlt, h]
  simp only [syscallHandler, hat]
  split <;> rfl

theorem handler_of_large (hlarge : syscallCount ≤ (gr 17).toNat) :
    syscallHandler t gr path = .error (.syscalls (gr 17).toNat) := by
  have hpos : (gr 17).toNat > 0 := lt_of_lt_of_le (by decide) hlarge
  have hat : syscallsAt (gr 17).toNat = .error (.syscalls (gr 17).toNat) := by
    rw [syscallsAt, if_neg (by omega)]
  simp only [syscallHandler, if_pos hpos, hat]
  rfl

theorem withArgfd_of_isOpen (h : IsOpen t (argint gr 0)) : withArgfd t gr = .ok none := by
  obtain ⟨f, hf⟩ := argfd_of_isOpen h
  rw [withArgfd, hf]
  rfl

theorem withArgfd_of_not_isOpen (h : ¬ IsOpen t (argint gr 0)) :
    withArgfd t gr = .ok (some (-1)) := by
  rw [withArgfd, argfd_of_not_isOpen h]
  rfl

theorem sysDup3_of_not_isOpen (h : ¬ IsOpen t (argint gr 0)) :
    sysDup3 t gr = .ok (some (-1)) := by
  rw [sysDup3, argfd_of_not_isOpen h]
  rfl

theorem sysDup3_of_same (h : IsOpen t (argint gr 0)) (heq : argint gr 0 = argint gr 1) :
    ∃ r, sysDup3 t gr = .ok r := by
  obtain ⟨f, hf⟩ := argfd_of_isOpen h
  rw [sysDup3, hf]
  exact ⟨_, if_pos heq⟩

theorem sysDup3_of_inTable (h : IsOpen t (argint gr 0)) (hin : InTable (argint gr 1)) :
    ∃ r, sysDup3 t gr = .ok r := by
  by_cases heq : argint gr 0 = argint gr 1
  · exact sysDup3_of_same h heq
  · obtain ⟨f, hf⟩ := argfd_of_isOpen h
    have halloc : ∃ r, fdalloc2 t (argint gr 1) = .ok r := by
      rw [fdalloc2, ofileAt_of_inTable hin]
      cases t ⟨(argint gr 1).toNat, hin.2⟩ with
      | none => exact ⟨_, rfl⟩
      | some f => exact ⟨_, rfl⟩
    obtain ⟨r, hr⟩ := halloc
    rw [sysDup3, hf, hr]
    exact ⟨_, if_neg heq⟩

theorem sysDup3_of_not_inTable (h : IsOpen t (argint gr 0)) (hne : argint gr 0 ≠ argint gr 1)
    (hout : ¬ InTable (argint gr 1)) : sysDup3 t gr = .error (.ofile (argint gr 1)) := by
  obtain ⟨f, hf⟩ := argfd_of_isOpen h
  rw [sysDup3, hf, fdalloc2, ofileAt_of_not_inTable hout]
  exact if_neg hne

theorem sysOpen_of_isOpen (h : argint gr 0 = atFdcwd ∨ IsOpen t (argint gr 0)) :
    sysOpen t gr true = .ok none := by
  rw [sysOpen, if_pos rfl, fileopen]
  by_cases hcwd : argint gr 0 = atFdcwd
  · exact if_pos hcwd
  · obtain ⟨f, hf⟩ := h.resolve_left hcwd
    rw [if_neg hcwd, hf]
    exact ite_self _

theorem sysOpen_of_not_inTable (hcwd : argint gr 0 ≠ atFdcwd) (hout : ¬ InTable (argint gr 0)) :
    sysOpen t gr true = .error (.ofile (argint gr 0)) := by
  rw [sysOpen, if_pos rfl, fileopen, if_neg hcwd, ofileAt_of_not_inTable hout]
  rfl

/-- A free descriptor is not refused: its file is used, or left aside. -/
theorem sysOpen_of_free (hcwd : argint gr 0 ≠ atFdcwd) (hfree : ofileAt t (argint gr 0) = .ok none) :
    sysOpen t gr true = .error .null ∨ sysOpen t gr true = .ok none := by
  rw [sysOpen, if_pos rfl, fileopen, if_neg hcwd, hfree]
  by_cases hcreate : argbits gr 2 &&& oCreate ≠ 0
  · exact Or.inl (if_pos hcreate)
  · exact Or.inr (if_neg hcreate)

theorem sysMmap_of_isOpen (h : IsOpen t (argint gr 4)) : ∃ r, sysMmap t gr = .ok r := by
  obtain ⟨f, hf⟩ := h
  rw [sysMmap, hf]
  simp only [deref, bind, Except.bind, pure, Except.pure]
  split_ifs <;> exact ⟨_, rfl⟩

theorem sysMmap_of_not_inTable (hout : ¬ InTable (argint gr 4)) :
    sysMmap t gr = .error (.ofile (argint gr 4)) := by
  rw [sysMmap, ofileAt_of_not_inTable hout]
  rfl

theorem sysMmap_of_free (hfree : ofileAt t (argint gr 4) = .ok none) :
    sysMmap t gr = .error .null := by
  rw [sysMmap, hfree]
  simp only [deref, bind, Except.bind]
  split_ifs <;> rfl

/-- What a system call does by itself with its descriptors. -/
structure Passes (t : Descriptors) (gr : Reg → Word) (path : Bool) (call : Syscall) : Prop where
  table : ∀ i, call.run t gr path ≠ .error (.syscalls i)
  ofile : ∀ fd, call.run t gr path ≠ .error (.ofile fd)
  refused : ∀ fd, descriptor gr call = some fd → ¬ IsOpen t fd →
    call.run t gr path = .ok (some (-1))

theorem passes_of_eq {r : Option Word} (hrun : call.run t gr path = .ok r)
    (hopen : ∀ fd, descriptor gr call = some fd → IsOpen t fd ∨ r = some (-1)) :
    Passes t gr path call := by
  constructor
  · intro i herror
    rw [hrun] at herror
    cases herror
  · intro fd herror
    rw [hrun] at herror
    cases herror
  · intro fd hfd hnot
    rw [hrun, (hopen fd hfd).resolve_left hnot]

theorem passes_withArgfd (hrun : call.run t gr path = withArgfd t gr)
    (hfd : descriptor gr call = some (argint gr 0)) : Passes t gr path call := by
  by_cases h : IsOpen t (argint gr 0)
  · apply passes_of_eq (hrun.trans (withArgfd_of_isOpen h))
    intro fd hfd'
    rw [hfd, Option.some.injEq] at hfd'
    exact Or.inl (hfd' ▸ h)
  · apply passes_of_eq (hrun.trans (withArgfd_of_not_isOpen h))
    exact fun fd _ => Or.inr rfl

theorem passes_dup3_iff : Passes t gr path .dup3 ↔ ArgsOk t gr path .dup3 := by
  constructor
  · intro h hopen hne
    by_contra hout
    exact h.ofile _ (sysDup3_of_not_inTable hopen hne hout)
  · intro hargs
    by_cases hopen : IsOpen t (argint gr 0)
    · have hok : ∃ r, sysDup3 t gr = .ok r := by
        by_cases heq : argint gr 0 = argint gr 1
        · exact sysDup3_of_same hopen heq
        · exact sysDup3_of_inTable hopen (hargs hopen heq)
      obtain ⟨r, hr⟩ := hok
      have hrun : Syscall.run t gr path .dup3 = .ok r := hr
      apply passes_of_eq hrun
      intro fd hfd
      cases hfd
      exact Or.inl hopen
    · have hrun : Syscall.run t gr path .dup3 = .ok (some (-1)) := sysDup3_of_not_isOpen hopen
      apply passes_of_eq hrun
      exact fun fd _ => Or.inr rfl

theorem passes_open_iff : Passes t gr path .open ↔ ArgsOk t gr path .open := by
  cases path with
  | false =>
      apply iff_of_true
      · exact passes_of_eq rfl fun fd _ => Or.inr rfl
      · exact fun hpath => absurd hpath Bool.false_ne_true
  | true =>
      constructor
      · intro h _ hcwd
        by_contra hnot
        by_cases hin : InTable (argint gr 0)
        · have hrefused : sysOpen t gr true = .ok (some (-1)) :=
            h.refused (argint gr 0) (if_neg hcwd) hnot
          rcases sysOpen_of_free hcwd (ofileAt_of_not_isOpen hin hnot) with hnull | hnone
          · rw [hnull] at hrefused
            cases hrefused
          · rw [hnone] at hrefused
            cases hrefused
        · exact h.ofile _ (sysOpen_of_not_inTable hcwd hin)
      · intro hargs
        by_cases hcwd : argint gr 0 = atFdcwd
        · have hrun : Syscall.run t gr true .open = .ok none := sysOpen_of_isOpen (Or.inl hcwd)
          apply passes_of_eq hrun
          intro fd hfd
          rw [descriptor, if_pos hcwd] at hfd
          cases hfd
        · have hopen := hargs rfl hcwd
          have hrun : Syscall.run t gr true .open = .ok none := sysOpen_of_isOpen (Or.inr hopen)
          apply passes_of_eq hrun
          intro fd hfd
          rw [descriptor, if_neg hcwd, Option.some.injEq] at hfd
          exact Or.inl (hfd ▸ hopen)

theorem passes_mmap_iff : Passes t gr path .mmap ↔ ArgsOk t gr path .mmap := by
  constructor
  · intro h
    by_contra hnot
    by_cases hin : InTable (argint gr 4)
    · have hrefused : sysMmap t gr = .ok (some (-1)) := h.refused (argint gr 4) rfl hnot
      rw [sysMmap_of_free (ofileAt_of_not_isOpen hin hnot)] at hrefused
      cases hrefused
    · exact h.ofile _ (sysMmap_of_not_inTable hin)
  · intro hopen
    obtain ⟨r, hr⟩ := sysMmap_of_isOpen hopen
    have hrun : Syscall.run t gr path .mmap = .ok r := hr
    apply passes_of_eq hrun
    intro fd hfd
    cases hfd
    exact Or.inl hopen

theorem passes_iff : Passes t gr path call ↔ ArgsOk t gr path call := by
  cases call with
  | dup3 => exact passes_dup3_iff
  | «open» => exact passes_open_iff
  | mmap => exact passes_mmap_iff
  | read => exact iff_of_true (passes_withArgfd rfl rfl) trivial
  | write => exact iff_of_true (passes_withArgfd rfl rfl) trivial
  | close => exact iff_of_true (passes_withArgfd rfl rfl) trivial
  | dup => exact iff_of_true (passes_withArgfd rfl rfl) trivial
  | fstat => exact iff_of_true (passes_withArgfd rfl rfl) trivial
  | getdents64 => exact iff_of_true (passes_withArgfd rfl rfl) trivial
  | _ => exact iff_of_true (passes_of_eq rfl fun fd hfd => by cases hfd) trivial

/-- Indices stay in their arrays and closed descriptors are refused if and only if the
number in `a7` is below the size of `syscalls`, and the call is not one of `dup3`, `mmap`
and `openat` with a descriptor that it does not check. -/
theorem guarded_iff (t : Descriptors) (gr : Reg → Word) (path : Bool) :
    Guarded t gr path ↔ (gr 17).toNat < syscallCount ∧
      ∀ call, syscalls (gr 17).toNat = some call → ArgsOk t gr path call := by
  constructor
  · intro h
    have hlt : (gr 17).toNat < syscallCount := by
      by_contra hlarge
      exact h.table _ (handler_of_large (Nat.le_of_not_lt hlarge))
    refine ⟨hlt, ?_⟩
    intro call hcall
    apply passes_iff.mp
    constructor
    · intro i
      rw [← handler_of_table hcall]
      exact h.table i
    · intro fd
      rw [← handler_of_table hcall]
      exact h.ofile fd
    · intro fd hfd hnot
      rw [← handler_of_table hcall]
      exact h.refused call fd hcall hfd hnot
  · rintro ⟨hlt, hargs⟩
    cases hcall : syscalls (gr 17).toNat with
    | none =>
        have hnone : syscallHandler t gr path = .ok (some 0) := handler_of_none hlt hcall
        constructor
        · intro i herror
          rw [hnone] at herror
          cases herror
        · intro fd herror
          rw [hnone] at herror
          cases herror
        · intro call fd hsome
          rw [hcall] at hsome
          cases hsome
    | some call =>
        have hpasses := passes_iff.mpr (hargs call hcall)
        constructor
        · intro i
          rw [handler_of_table hcall]
          exact hpasses.table i
        · intro fd
          rw [handler_of_table hcall]
          exact hpasses.ofile fd
        · intro call' fd hsome hfd hnot
          rw [hcall, Option.some.injEq] at hsome
          subst hsome
          rw [handler_of_table hcall]
          exact hpasses.refused fd hfd hnot

end

/-- The registers of an `mmap` call of an anonymous area: `fd` is `-1`. -/
def anonymousMmap : Reg → Word := fun r =>
  if r = 17 then 222 else if r = 11 then 4096 else if r = 12 then 3 else if r = 13 then 0x22 else
    if r = 14 then -1 else 0

theorem anonymous_mmap_not_guarded :
    syscallHandler (fun _ => none) anonymousMmap true = .error (.ofile (-1)) ∧
      ¬ Guarded (fun _ => none) anonymousMmap true := by
  have hrun : syscallHandler (fun _ => none) anonymousMmap true = .error (.ofile (-1)) := by
    rfl
  exact ⟨hrun, fun h => h.ofile (-1) hrun⟩

end K210Os.Syscalls
