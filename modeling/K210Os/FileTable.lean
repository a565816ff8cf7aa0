import K210Os.Transition
import Mathlib.Algebra.BigOperators.Fin
import Mathlib.Data.Finset.Insert

/-!
# The file table and the descriptors of the processes

`ftable`, the arrays `ofile` of the processes, and the files of their mmap areas. A call
is one step. `none` is a panic, or an access through a pointer that points to no entry of
the table. Every reference is a word in memory, so that `ref` does not overflow.
-/

namespace K210Os

open Transition

def nofile : ℕ := 101
def nfile : ℕ := 128

instance : NeZero nofile := ⟨by decide⟩
instance : NeZero nfile := ⟨by decide⟩

inductive FileType where
  | none
  | pipe
  | entry
  | device
deriving DecidableEq

structure File where
  type : FileType
  ref : ℕ
  readable : Bool
  writable : Bool
  pipe : ℕ
  ep : ℕ

/-- A word of `ofile`. -/
inductive Slot where
  | null
  | file (f : Fin nfile)
  | other (word : BitVec 64)
deriving DecidableEq

def protRead : BitVec 32 := 1
def protWrite : BitVec 32 := 2
def mapPrivate : BitVec 32 := 2

/-- `vma` are the files of the mmap areas of a process, and `live` the processes that have
not exited. `closed` are the entries whose last reference was dropped, as they were, the
latest first; no function reads it. -/
structure OpenFiles (ι : Type*) where
  file : Fin nfile → File
  ofile : ι → Fin nofile → Slot
  vma : ι → List (Fin nfile)
  live : Finset ι
  closed : List (Fin nfile × File)

/-- `open` is `fileopen` of a name that stands for `ep`; `heap` is what `buddy_alloc`
delivers, and `copied` says whether `copyout2` takes both numbers; `stale` is what the
memory of a new task control block holds. -/
inductive FileOp (ι : Type*) where
  | tcbNew (c : ι)
  | open (p : ι) (ep : ℕ) (readable writable : Bool)
  | close (p : ι) (fd : ℤ)
  | dup (p : ι) (fd : ℤ)
  | dup3 (p : ι) (oldfd : ℤ) (newfd : Fin nofile)
  | pipe (p : ι) (heap : Option ℕ) (copied : Bool)
  | mmap (p : ι) (prot flags : BitVec 32) (fd : ℤ)
  | fork (p c : ι) (stale : Fin nofile → Slot)
  | exit (p : ι)

namespace OpenFiles

variable {ι : Type*} [DecidableEq ι]

def setFile (s : OpenFiles ι) (f : Fin nfile) (file : File) : OpenFiles ι :=
  { s with file := Function.update s.file f file }

def setSlot (s : OpenFiles ι) (p : ι) (fd : Fin nofile) (slot : Slot) : OpenFiles ι :=
  { s with ofile := Function.update s.ofile p (Function.update (s.ofile p) fd slot) }

def fileinit : OpenFiles ι where
  file f := if f.val < 3 then ⟨.device, 1, true, true, 0, 0⟩ else ⟨.none, 0, false, false, 0, 0⟩
  ofile _ _ := .null
  vma _ := []
  live := ∅
  closed := []

def filealloc (s : OpenFiles ι) : Option (Fin nfile × OpenFiles ι) :=
  ((List.finRange nfile).find? fun f => decide ((s.file f).ref = 0)).map fun f =>
    (f, s.setFile f { s.file f with ref := 1 })

def filedup (s : OpenFiles ι) : Slot → Option (OpenFiles ι)
  | .file f =>
      if (s.file f).ref < 1 then none
      else some (s.setFile f { s.file f with ref := (s.file f).ref + 1 })
  | _ => none

/-- Whether `pipeclose` or `eput` is called depends on the type of the entry as it was. -/
def fileclose (s : OpenFiles ι) : Slot → Option (OpenFiles ι)
  | .file f =>
      if (s.file f).ref < 1 then none
      else if (s.file f).ref - 1 > 0 then
        some (s.setFile f { s.file f with ref := (s.file f).ref - 1 })
      else
        some
          { s.setFile f { s.file f with ref := 0, type := .none } with
            closed := (f, s.file f) :: s.closed }
  | _ => none

def fdalloc (s : OpenFiles ι) (p : ι) (f : Slot) : Option (Fin nofile × OpenFiles ι) :=
  ((List.finRange nofile).find? fun fd => decide (3 ≤ fd.val ∧ s.ofile p fd = .null)).map fun fd =>
    (fd, s.setSlot p fd f)

def fdalloc2 (s : OpenFiles ι) (p : ι) (f : Slot) (newfd : Fin nofile) : ℤ × OpenFiles ι :=
  if s.ofile p newfd = .null then (newfd.val, s.setSlot p newfd f) else (-1, s)

/-- `argfd` of the number `fd`. -/
def argfd (s : OpenFiles ι) (p : ι) (fd : ℤ) : Option (Fin nofile × Slot) :=
  if h : 0 ≤ fd ∧ fd.toNat < nofile then
    let slot := s.ofile p ⟨fd.toNat, h.2⟩
    if slot = .null then none else some (⟨fd.toNat, h.2⟩, slot)
  else none

/-- `fileopen` behind the lookup of the name. -/
def fileopen (s : OpenFiles ι) (p : ι) (ep : ℕ) (readable writable : Bool) : Option (ℤ × OpenFiles ι) :=
  match s.filealloc with
  | none => some (-1, s)
  | some (f, s) =>
      match s.fdalloc p (.file f) with
      | none => (s.fileclose (.file f)).map fun s => (-1, s)
      | some (fd, s) =>
          let s := s.setSlot p fd (.file f)
          some (fd.val, s.setFile f { s.file f with type := .entry, ep, readable, writable })

def sysClose (s : OpenFiles ι) (p : ι) (fd : ℤ) : Option (ℤ × OpenFiles ι) :=
  match s.argfd p fd with
  | none => some (-1, s)
  | some (fd, f) => ((s.setSlot p fd .null).fileclose f).map fun s => (0, s)

def pipealloc (s : OpenFiles ι) (heap : Option ℕ) :
    Option (Option (Fin nfile × Fin nfile) × OpenFiles ι) :=
  match s.filealloc with
  | none => some (none, s)
  | some (f0, s) =>
      match s.filealloc with
      | none => (s.fileclose (.file f0)).map fun s => (none, s)
      | some (f1, s) =>
          match heap with
          | none =>
              (s.fileclose (.file f0)).bind fun s =>
                (s.fileclose (.file f1)).map fun s => (none, s)
          | some pipe =>
              let s := s.setFile f0
                { s.file f0 with type := .pipe, readable := true, writable := false, pipe }
              some (some (f0, f1), s.setFile f1
                { s.file f1 with type := .pipe, readable := false, writable := true, pipe })

/-- The end of `sys_pipe` that undoes what was done. -/
def closeBoth (s : OpenFiles ι) (rf wf : Fin nfile) : Option (ℤ × OpenFiles ι) :=
  (s.fileclose (.file rf)).bind fun s => (s.fileclose (.file wf)).map fun s => (-1, s)

def sysPipe (s : OpenFiles ι) (p : ι) (heap : Option ℕ) (copied : Bool) : Option (ℤ × OpenFiles ι) :=
  (s.pipealloc heap).bind fun
    | (none, s) => some (-1, s)
    | (some (rf, wf), s) =>
        match s.fdalloc p (.file rf) with
        | none => s.closeBoth rf wf
        | some (fd0, s) =>
            match s.fdalloc p (.file wf) with
            | none => (s.setSlot p fd0 .null).closeBoth rf wf
            | some (fd1, s) =>
                if copied then some (0, s)
                else ((s.setSlot p fd0 .null).setSlot p fd1 .null).closeBoth rf wf

def sysDup (s : OpenFiles ι) (p : ι) (fd : ℤ) : Option (ℤ × OpenFiles ι) :=
  match s.argfd p fd with
  | none => some (-1, s)
  | some (_, f) =>
      match s.fdalloc p f with
      | none => some (-1, s)
      | some (fd, s) => (s.filedup f).map fun s => (fd.val, s)

def sysDup3 (s : OpenFiles ι) (p : ι) (oldfd : ℤ) (newfd : Fin nofile) : Option (ℤ × OpenFiles ι) :=
  match s.argfd p oldfd with
  | none => some (-1, s)
  | some (_, f) =>
      if oldfd = newfd.val then some (newfd.val, s)
      else
        let (r, s) := s.fdalloc2 p f newfd
        if r ≠ -1 then (s.filedup f).map fun s => (r, s) else some (r, s)

/-- `sys_mmap`, which looks at no bound of `fd`; `true` where an area was made. -/
def sysMmap (s : OpenFiles ι) (p : ι) (prot flags : BitVec 32) (fd : ℤ) : Option (Bool × OpenFiles ι) :=
  match s.argfd p fd with
  | some (_, .file f) =>
      if prot &&& protWrite ≠ 0 ∧ (s.file f).writable = false ∧ flags &&& mapPrivate = 0 then
        some (false, s)
      else if prot &&& protRead ≠ 0 ∧ (s.file f).readable = false then some (false, s)
      else
        ({ s with vma := Function.update s.vma p (s.vma p ++ [f]) }.filedup (.file f)).map
          fun s => (true, s)
  | _ => none

/-- One round of the loop over `ofile` in `fork`. -/
def forkSlot (p c : ι) (s : OpenFiles ι) (fd : Fin nofile) : Option (OpenFiles ι) :=
  if s.ofile p fd = .null then some s
  else (s.filedup (s.ofile p fd)).map fun s => s.setSlot c fd (s.ofile p fd)

def fork (s : OpenFiles ι) (p c : ι) (stale : Fin nofile → Slot) : Option (OpenFiles ι) :=
  ((List.finRange nofile).foldlM (forkSlot p c)
    { s with
      ofile := Function.update s.ofile c stale
      vma := Function.update s.vma c [] }).map fun s => { s with live := insert c s.live }

def tcbSlot (c : ι) (s : OpenFiles ι) (i : ℕ) : Option (OpenFiles ι) :=
  (s.filedup (.file (Fin.ofNat nfile i))).map fun s =>
    s.setSlot c (Fin.ofNat nofile i) (.file (Fin.ofNat nfile i))

/-- The descriptors of `tcb_new` and of `add_initproc`. -/
def tcbNew (s : OpenFiles ι) (c : ι) : Option (OpenFiles ι) :=
  ([0, 1, 2].foldlM (tcbSlot c)
    { s with
      ofile := Function.update s.ofile c fun _ => .null
      vma := Function.update s.vma c [] }).map fun s => { s with live := insert c s.live }

/-- One round of the loop over `ofile` in `exit_current_and_run_next`. -/
def exitSlot (p : ι) (s : OpenFiles ι) (fd : Fin nofile) : Option (OpenFiles ι) :=
  if s.ofile p fd = .null then some s
  else (s.fileclose (s.ofile p fd)).map fun s => s.setSlot p fd .null

def exit (s : OpenFiles ι) (p : ι) : Option (OpenFiles ι) :=
  (((List.finRange nofile).filter fun fd => decide (3 ≤ fd.val)).foldlM (exitSlot p) s).map
    fun s => { s with live := s.live.erase p }

def Permitted (s : OpenFiles ι) : FileOp ι → Prop
  | .tcbNew c => c ∉ s.live
  | .open p .. => p ∈ s.live
  | .close p _ => p ∈ s.live
  | .dup p _ => p ∈ s.live
  | .dup3 p .. => p ∈ s.live
  | .pipe p .. => p ∈ s.live
  | .mmap p .. => p ∈ s.live
  | .fork p c _ => p ∈ s.live ∧ c ∉ s.live
  | .exit p => p ∈ s.live

def fileStep (s : OpenFiles ι) : FileOp ι → Option (OpenFiles ι)
  | .tcbNew c => s.tcbNew c
  | .open p ep readable writable => (s.fileopen p ep readable writable).map Prod.snd
  | .close p fd => (s.sysClose p fd).map Prod.snd
  | .dup p fd => (s.sysDup p fd).map Prod.snd
  | .dup3 p oldfd newfd => (s.sysDup3 p oldfd newfd).map Prod.snd
  | .pipe p heap copied => (s.sysPipe p heap copied).map Prod.snd
  | .mmap p prot flags fd => (s.sysMmap p prot flags fd).map Prod.snd
  | .fork p c stale => s.fork p c stale
  | .exit p => s.exit p

def FileStep (s : OpenFiles ι) (op : FileOp ι) (s' : OpenFiles ι) : Prop :=
  s.Permitted op ∧ s.fileStep op = some s'

end OpenFiles

end K210Os
