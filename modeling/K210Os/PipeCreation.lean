import K210Os.BitmapBuddy
import K210Os.FileTableRuns
import K210Os.Pipe
import K210Os.UserCopy

/-!
# `sys_pipe` from its first acquisition to its last

Two entries of the file table, the memory of the pipe, two descriptors and two copies to user
space. The pipe is freed by the second of the two `fileclose`, which goes through `pipeclose`.
-/

namespace K210Os

/-- `sizeof(struct pipe)`, and where `data` stands in it. -/
def sizeofPipe : ℕ := 664
def pipeData : ℕ := 24

/-- The files, the heap with the memory, and what stands at the addresses of pipes. -/
structure PipeWorld (ι : Type*) where
  files : OpenFiles ι
  heap : KHeap
  pipes : ℕ → PipeSystem ι

def intBytes (n : ℕ) : ℕ → Byte := fun k => BitVec.ofNat 8 (n / 256 ^ k)

/-- The two `copyout2` of `sys_pipe`, whether both took the number and the memory as it is left;
`none` where one of them stops the system. -/
def copyFds (task : Mytask) (mem : Memory) (fdarray fd0 fd1 : ℕ) : Option (Bool × Memory) :=
  match copyout2 task mem fdarray (intBytes fd0) 4 with
  | (none, _) => none
  | (some r, mem) =>
      if r < 0 then some (false, mem)
      else
        match copyout2 task mem ((fdarray + 4) % 2 ^ 64) (intBytes fd1) 4 with
        | (none, _) => none
        | (some r, mem) => some (decide (0 ≤ r), mem)

namespace PipeWorld

variable {ι : Type*} [DecidableEq ι]

def pipeclose (k : PipeWorld ι) (pi : ℕ) (writable : Bool) : Option (PipeWorld ι) :=
  ((k.pipes pi).pipeclose writable).bind fun s =>
    let k := { k with pipes := Function.update k.pipes pi s }
    if s.pipe.readopen = false ∧ s.pipe.writeopen = false then
      (buddyFree k.heap pi).map fun heap => { k with heap := heap }
    else some k

/-- The `eput` of an entry is not followed here. -/
def fileclose (k : PipeWorld ι) (f : Fin nfile) : Option (PipeWorld ι) :=
  let ff := k.files.file f
  (k.files.fileclose (.file f)).bind fun files =>
    let k := { k with files := files }
    if ff.ref - 1 > 0 then some k
    else if ff.type = .pipe then k.pipeclose ff.pipe ff.writable
    else some k

def pipealloc (k : PipeWorld ι) : Option (Option (Fin nfile × Fin nfile) × PipeWorld ι) :=
  match k.files.filealloc with
  | none => some (none, k)
  | some (f0, files) =>
      let k := { k with files := files }
      match k.files.filealloc with
      | none => (k.fileclose f0).map fun k => (none, k)
      | some (f1, files) =>
          (buddyAlloc k.heap sizeofPipe).bind fun (pi, heap) =>
            let k := { k with files := files, heap := heap }
            if pi = 0 then (k.fileclose f0).bind fun k => (k.fileclose f1).map fun k => (none, k)
            else
              let files := files.setFile f0 { files.file f0 with
                type := .pipe, readable := true, writable := false, pipe := pi }
              let files := files.setFile f1 { files.file f1 with
                type := .pipe, readable := false, writable := true, pipe := pi }
              let s := PipeSystem.pipealloc fun j => heap.mem (pi + pipeData + j)
              some (some (f0, f1),
                { k with files := files, pipes := Function.update k.pipes pi s })

/-- Where `sys_pipe` gives up with both files. -/
def closeBoth (k : PipeWorld ι) (rf wf : Fin nfile) : Option (ℤ × PipeWorld ι) :=
  (k.fileclose rf).bind fun k => (k.fileclose wf).map fun k => (-1, k)

def setSlot (k : PipeWorld ι) (p : ι) (fd : Fin nofile) (slot : Slot) : PipeWorld ι :=
  { k with files := k.files.setSlot p fd slot }

def sysPipe (k : PipeWorld ι) (p : ι) (task : Mytask) (fdarray : ℕ) : Option (ℤ × PipeWorld ι) :=
  k.pipealloc.bind fun
    | (none, k) => some (-1, k)
    | (some (rf, wf), k) =>
        match k.files.fdalloc p (.file rf) with
        | none => k.closeBoth rf wf
        | some (fd0, files) =>
            let k := { k with files := files }
            match k.files.fdalloc p (.file wf) with
            | none => (k.setSlot p fd0 .null).closeBoth rf wf
            | some (fd1, files) =>
                let k := { k with files := files }
                (copyFds task k.heap.mem fdarray fd0 fd1).bind fun (copied, mem) =>
                  let k := { k with heap := { k.heap with mem := mem } }
                  if copied then some (0, k)
                  else ((k.setSlot p fd0 .null).setSlot p fd1 .null).closeBoth rf wf

end PipeWorld

/-! ## What is free -/

/-- The first that meets a test does not any more, and the others are as before. -/
theorem filter_eq_tail {α : Type*} {l : List α} {first : α} {rest : List α} {test test' : α → Bool}
    (hnodup : l.Nodup) (h : l.filter test = first :: rest) (hfirst : test' first = false)
    (hothers : ∀ x, x ≠ first → test' x = test x) : l.filter test' = rest := by
  have hrest : ∀ x ∈ rest, x ≠ first := by
    have hsub := hnodup.filter test
    rw [h] at hsub
    rintro x hx rfl
    exact (List.nodup_cons.mp hsub).1 hx
  have htest : test first = true := List.of_mem_filter (h ▸ List.mem_cons_self)
  have heq : l.filter test' = (l.filter test).filter test' := by
    rw [List.filter_filter]
    refine List.filter_congr fun x _ => ?_
    by_cases hx : x = first
    · rw [hx, hfirst, Bool.false_and]
    · rw [hothers x hx, Bool.and_self]
  rw [heq, h, List.filter_cons_of_neg (by rw [hfirst]; exact Bool.false_ne_true)]
  refine List.filter_eq_self.mpr fun x hx => ?_
  rw [hothers x (hrest x hx)]
  exact List.of_mem_filter (h ▸ List.mem_cons_of_mem first hx)

namespace OpenFiles

variable {ι : Type*} {s : OpenFiles ι} {p : ι}

def freeFiles (s : OpenFiles ι) : List (Fin nfile) :=
  (List.finRange nfile).filter fun f => decide ((s.file f).ref = 0)

def freeFds (s : OpenFiles ι) (p : ι) : List (Fin nofile) :=
  (List.finRange nofile).filter fun fd => decide (3 ≤ fd.val ∧ s.ofile p fd = .null)

theorem filealloc_none (h : s.freeFiles = []) : s.filealloc = none := by
  rw [filealloc, ← List.head?_filter]
  exact congrArg (fun l => Option.map _ (List.head? l)) h

/-- A free entry that was taken. -/
def take (s : OpenFiles ι) (f : Fin nfile) : OpenFiles ι :=
  s.setFile f { s.file f with ref := 1 }

theorem filealloc_first {f : Fin nfile} {rest : List (Fin nfile)} (h : s.freeFiles = f :: rest) :
    s.filealloc = some (f, s.take f) ∧ (s.file f).ref = 0 ∧ (s.take f).freeFiles = rest := by
  refine ⟨?_, ?_, filter_eq_tail (List.nodup_finRange nfile) h ?_ fun g hg => ?_⟩
  · rw [filealloc, ← List.head?_filter]
    exact congrArg (fun l => Option.map _ (List.head? l)) h
  · have hmem : f ∈ s.freeFiles := h ▸ List.mem_cons_self
    exact of_decide_eq_true (List.mem_filter.mp hmem).2
  · simp [take, setFile]
  · simp [take, setFile, hg]

variable [DecidableEq ι]

theorem fdalloc_none (h : s.freeFds p = []) (slot : Slot) : s.fdalloc p slot = none := by
  rw [fdalloc, ← List.head?_filter]
  exact congrArg (fun l => Option.map _ (List.head? l)) h

theorem fdalloc_first {fd : Fin nofile} {rest : List (Fin nofile)} (h : s.freeFds p = fd :: rest)
    {slot : Slot} (hslot : slot ≠ .null) :
    s.fdalloc p slot = some (fd, s.setSlot p fd slot) ∧ 3 ≤ fd.val ∧ s.ofile p fd = .null ∧
      (s.setSlot p fd slot).freeFds p = rest := by
  have hmem : fd ∈ s.freeFds p := h ▸ List.mem_cons_self
  have hfirst := of_decide_eq_true (List.mem_filter.mp hmem).2
  refine ⟨?_, hfirst.1, hfirst.2,
    filter_eq_tail (List.nodup_finRange nofile) h ?_ fun fd' hne => ?_⟩
  · rw [fdalloc, ← List.head?_filter]
    exact congrArg (fun l => Option.map _ (List.head? l)) h
  · simp [setSlot, hslot]
  · simp [setSlot, hne]

/-- The entry is given back. -/
def giveBack (s : OpenFiles ι) (f : Fin nfile) : OpenFiles ι :=
  { s.setFile f { s.file f with ref := 0, type := .none } with closed := (f, s.file f) :: s.closed }

/-- The descriptors and the counts are as before. -/
def SameUse (s s' : OpenFiles ι) : Prop :=
  s'.ofile = s.ofile ∧ ∀ f, (s'.file f).ref = (s.file f).ref

end OpenFiles

open OpenFiles

namespace PipeWorld

variable {ι : Type*} {k k' : PipeWorld ι} {p : ι} {f rf wf : Fin nfile} {pi fdarray : ℕ}
  {task : Mytask}

/-- What became of the heap in a call that failed: it was not asked, it had no memory, or the memory
of the pipe was freed, once. -/
inductive HeapAfter (h : KHeap) : KHeap → Prop
  | untouched : HeapAfter h h
  | refused {h' : KHeap} : buddyAlloc h sizeofPipe = some (0, h') → HeapAfter h h'
  | freed {pi : ℕ} {h₁ h' : KHeap} {mem : Memory} : buddyAlloc h sizeofPipe = some (pi, h₁) →
      pi ≠ 0 → buddyFree { h₁ with mem := mem } pi = some h' → HeapAfter h h'

/-- The descriptors `fd0` and `fd1` were free and are those of a new pipe at `pi`. -/
structure NewPipe (k : PipeWorld ι) (p : ι) (fd0 fd1 : Fin nofile) (rf wf : Fin nfile) (pi : ℕ)
    (k' : PipeWorld ι) : Prop where
  above : 3 ≤ fd0.val ∧ 3 ≤ fd1.val
  ne : fd0 ≠ fd1
  wasNull : k.files.ofile p fd0 = .null ∧ k.files.ofile p fd1 = .null
  slots : k'.files.ofile p fd0 = .file rf ∧ k'.files.ofile p fd1 = .file wf
  otherSlots : ∀ q fd, ¬ (q = p ∧ (fd = fd0 ∨ fd = fd1)) →
    k'.files.ofile q fd = k.files.ofile q fd
  wasFree : (k.files.file rf).ref = 0 ∧ (k.files.file wf).ref = 0
  readEnd : k'.files.file rf = ⟨.pipe, 1, true, false, pi, (k.files.file rf).ep⟩
  writeEnd : k'.files.file wf = ⟨.pipe, 1, false, true, pi, (k.files.file wf).ep⟩
  otherFiles : ∀ f, f ≠ rf → f ≠ wf → k'.files.file f = k.files.file f
  allocated : pi ≠ 0 ∧ ∃ heap mem, buddyAlloc k.heap sizeofPipe = some (pi, heap) ∧
    k'.heap = { heap with mem := mem }
  pipe : ∃ data, k'.pipes = Function.update k.pipes pi (PipeSystem.pipealloc data)

def PipeLaws (k : PipeWorld ι) (p : ι) (r : ℤ) (k' : PipeWorld ι) : Prop :=
  (r = 0 ∧ ∃ fd0 fd1 rf wf pi, k.NewPipe p fd0 fd1 rf wf pi k') ∨
    (r = -1 ∧ SameUse k.files k'.files ∧ HeapAfter k.heap k'.heap)

/-- With the descriptors of `fds` free. -/
def CopiesReturn (task : Mytask) (fdarray pi : ℕ) (heap : KHeap) : List (Fin nofile) → Prop
  | fd0 :: fd1 :: _ => ∃ copied mem, copyFds task heap.mem fdarray fd0 fd1 = some (copied, mem) ∧
      (copied = false → (buddyFree { heap with mem := mem } pi).isSome = true)
  | _ => (buddyFree heap pi).isSome = true

/-- If two files are free then `buddy_alloc` returns. If it delivers memory and two descriptors are
free then no copy stops the system. If one of them refuses, or a descriptor is missing, then
`buddy_free` of the memory returns. -/
def PipeMeets (k : PipeWorld ι) (p : ι) (task : Mytask) (fdarray : ℕ) : Prop :=
  2 ≤ k.files.freeFiles.length → ∃ pi heap, buddyAlloc k.heap sizeofPipe = some (pi, heap) ∧
    (pi ≠ 0 → CopiesReturn task fdarray pi heap (k.files.freeFds p))

variable [DecidableEq ι]

/-! ## Giving back -/

theorem fileclose_none (hone : (k.files.file f).ref = 1) (htype : (k.files.file f).type = .none) :
    k.fileclose f = some { k with files := k.files.giveBack f } := by
  simp [fileclose, OpenFiles.fileclose, hone, htype, giveBack]

theorem fileclose_pipe (hone : (k.files.file f).ref = 1) (htype : (k.files.file f).type = .pipe) :
    k.fileclose f = PipeWorld.pipeclose { k with files := k.files.giveBack f }
      (k.files.file f).pipe (k.files.file f).writable := by
  simp [fileclose, OpenFiles.fileclose, hone, htype, giveBack]

/-- The first `fileclose` leaves the pipe, the second frees it. -/
theorem closeBoth_pipe {data : ℕ → Byte} {ep ep' : ℕ} (hne : rf ≠ wf)
    (hrf : k.files.file rf = ⟨.pipe, 1, true, false, pi, ep⟩)
    (hwf : k.files.file wf = ⟨.pipe, 1, false, true, pi, ep'⟩)
    (hpipe : k.pipes pi = PipeSystem.pipealloc data) :
    ∃ pipes, k.closeBoth rf wf = (buddyFree k.heap pi).map fun heap =>
      (-1, ⟨(k.files.giveBack rf).giveBack wf, heap, pipes⟩) := by
  let half : PipeSystem ι := { PipeSystem.pipealloc data with
    pipe := { (PipeSystem.pipealloc data).pipe with readopen := false } }
  let k₁ : PipeWorld ι := ⟨k.files.giveBack rf, k.heap, Function.update k.pipes pi half⟩
  have hfirst : k.fileclose rf = some k₁ := by
    rw [fileclose_pipe (by rw [hrf]) (by rw [hrf]), hrf, pipeclose]
    dsimp only
    rw [hpipe]
    rfl
  have hwf₁ : k₁.files.file wf = ⟨.pipe, 1, false, true, pi, ep'⟩ := by
    rw [← hwf]
    exact Function.update_of_ne hne.symm _ _
  refine ⟨Function.update k₁.pipes pi
    { half with pipe := { half.pipe with writeopen := false } }, ?_⟩
  rw [closeBoth, hfirst, Option.bind_some, fileclose_pipe (by rw [hwf₁]) (by rw [hwf₁]), hwf₁,
    pipeclose]
  dsimp only
  rw [show k₁.pipes pi = half from Function.update_self pi half k.pipes]
  change Option.map _ (Option.map _ (buddyFree k.heap pi)) = _
  rw [Option.map_map]
  rfl

/-! ## `pipealloc` -/

omit [DecidableEq ι] in
/-- One entry that was taken and given back. -/
theorem sameUse_one {s : OpenFiles ι} (hfree : (s.file f).ref = 0) :
    SameUse s ((s.take f).giveBack f) := by
  refine ⟨rfl, fun g => ?_⟩
  by_cases hg : g = f
  · simp [giveBack, setFile, take, hg, hfree]
  · simp [giveBack, setFile, take, hg]

omit [DecidableEq ι] in
/-- Two entries given back, that were free before. -/
theorem sameUse_both {s t : OpenFiles ι} (hslots : t.ofile = s.ofile)
    (hothers : ∀ g, g ≠ rf → g ≠ wf → (t.file g).ref = (s.file g).ref)
    (hrf : (s.file rf).ref = 0) (hwf : (s.file wf).ref = 0) :
    SameUse s ((t.giveBack rf).giveBack wf) := by
  refine ⟨hslots, fun g => ?_⟩
  by_cases hg : g = wf
  · simp [giveBack, setFile, hg, hwf]
  · by_cases hg' : g = rf
    · subst hg'
      simp [giveBack, setFile, hg, hrf]
    · simp [giveBack, setFile, hg, hg', hothers g hg' hg]

theorem pipealloc_short (hfree : FreeNone k.files) (hshort : k.files.freeFiles.length < 2) :
    ∃ k', k.pipealloc = some (none, k') ∧ SameUse k.files k'.files ∧ k'.heap = k.heap := by
  rw [pipealloc]
  cases hfiles : k.files.freeFiles with
  | nil =>
      rw [filealloc_none hfiles]
      exact ⟨k, rfl, ⟨rfl, fun _ => rfl⟩, rfl⟩
  | cons f0 rest =>
      obtain ⟨halloc, hzero, hrest⟩ := filealloc_first hfiles
      have hnil : rest = [] := by
        rw [hfiles, List.length_cons] at hshort
        exact List.length_eq_zero_iff.mp (by omega)
      rw [halloc]
      dsimp only
      rw [filealloc_none (hrest.trans hnil)]
      have htaken : (k.files.take f0).file f0 = { k.files.file f0 with ref := 1 } :=
        Function.update_self f0 _ _
      dsimp only
      rw [fileclose_none (by dsimp only; rw [htaken])
        (by dsimp only; rw [htaken]; exact hfree f0 hzero)]
      exact ⟨_, rfl, sameUse_one hzero, rfl⟩

/-- The files, the heap and the pipe when `pipealloc` has succeeded. -/
structure HoldsPipe (k : PipeWorld ι) (rf wf : Fin nfile) (pi : ℕ) (heap : KHeap)
    (k₁ : PipeWorld ι) : Prop where
  ne : rf ≠ wf
  wasFree : (k.files.file rf).ref = 0 ∧ (k.files.file wf).ref = 0
  ofile : k₁.files.ofile = k.files.ofile
  readEnd : k₁.files.file rf = ⟨.pipe, 1, true, false, pi, (k.files.file rf).ep⟩
  writeEnd : k₁.files.file wf = ⟨.pipe, 1, false, true, pi, (k.files.file wf).ep⟩
  otherFiles : ∀ f, f ≠ rf → f ≠ wf → k₁.files.file f = k.files.file f
  heap : k₁.heap = heap
  pipe : ∃ data, k₁.pipes = Function.update k.pipes pi (PipeSystem.pipealloc data)

/-- Two entries are free. -/
theorem pipealloc_long (hfree : FreeNone k.files) {rest : List (Fin nfile)}
    (hfiles : k.files.freeFiles = rf :: wf :: rest) :
    (buddyAlloc k.heap sizeofPipe = none → k.pipealloc = none) ∧
    (∀ heap, buddyAlloc k.heap sizeofPipe = some (0, heap) →
      ∃ k', k.pipealloc = some (none, k') ∧ SameUse k.files k'.files ∧ k'.heap = heap) ∧
    ∀ pi heap, buddyAlloc k.heap sizeofPipe = some (pi, heap) → pi ≠ 0 →
      ∃ k₁, k.pipealloc = some (some (rf, wf), k₁) ∧ k.HoldsPipe rf wf pi heap k₁ := by
  obtain ⟨halloc, hzero, hrest⟩ := filealloc_first hfiles
  obtain ⟨halloc', hzero', -⟩ := filealloc_first hrest
  have hrf : (k.files.take rf).file rf = { k.files.file rf with ref := 1 } :=
    Function.update_self rf _ _
  have hne : rf ≠ wf := by
    rintro rfl
    rw [hrf] at hzero'
    exact absurd hzero' one_ne_zero
  have hwf : (k.files.take rf).file wf = k.files.file wf := Function.update_of_ne hne.symm _ _
  rw [hwf] at hzero'
  have hrf' : ((k.files.take rf).take wf).file rf = { k.files.file rf with ref := 1 } :=
    (Function.update_of_ne hne _ _).trans hrf
  have hwf' : ((k.files.take rf).take wf).file wf = { k.files.file wf with ref := 1 } := by
    rw [← hwf]
    exact Function.update_self wf _ _
  rw [pipealloc, halloc]
  dsimp only
  rw [halloc']
  dsimp only
  refine ⟨fun h => by rw [h]; rfl, fun heap h => ?_, fun pi heap h hpi => ?_⟩
  · rw [h, Option.bind_some]
    dsimp only
    rw [if_pos rfl, fileclose_none (by dsimp only; rw [hrf'])
      (by dsimp only; rw [hrf']; exact hfree rf hzero), Option.bind_some]
    have hlast : (((k.files.take rf).take wf).giveBack rf).file wf =
        { k.files.file wf with ref := 1 } := (Function.update_of_ne hne.symm _ _).trans hwf'
    rw [fileclose_none (by dsimp only; rw [hlast])
      (by dsimp only; rw [hlast]; exact hfree wf hzero')]
    refine ⟨_, rfl, sameUse_both rfl (fun g hg hg' => ?_) hzero hzero', rfl⟩
    rw [take, take, setFile, setFile]
    dsimp only
    rw [Function.update_of_ne hg', Function.update_of_ne hg]
  · rw [h, Option.bind_some]
    dsimp only
    rw [if_neg hpi]
    refine ⟨_, rfl, hne, ⟨hzero, hzero'⟩, rfl, ?_, ?_, fun g hg hg' => ?_, rfl, _, rfl⟩
    · dsimp only [setFile]
      rw [Function.update_of_ne hne, Function.update_self, hrf']
    · dsimp only [setFile]
      rw [Function.update_self, Function.update_of_ne hne.symm, hwf']
    · dsimp only [setFile, take]
      rw [Function.update_of_ne hg', Function.update_of_ne hg, Function.update_of_ne hg',
        Function.update_of_ne hg]

/-! ## `sys_pipe` -/

/-- Where both files are given back with the descriptors as they were, the call does what it should
if and only if `buddy_free` returns. -/
theorem HoldsPipe.closeBoth_iff {k₁ t : PipeWorld ι} {heap : KHeap} (mem : Memory)
    (h : k.HoldsPipe rf wf pi heap k₁) (halloc : buddyAlloc k.heap sizeofPipe = some (pi, heap))
    (hpi : pi ≠ 0) (hfile : t.files.file = k₁.files.file) (hpipes : t.pipes = k₁.pipes)
    (hofile : t.files.ofile = k.files.ofile) (hheap : t.heap = { heap with mem := mem }) :
    (∃ r k', t.closeBoth rf wf = some (r, k') ∧ k.PipeLaws p r k') ↔
      (buddyFree { heap with mem := mem } pi).isSome = true := by
  obtain ⟨data, hpipe⟩ := h.pipe
  have hat : t.pipes pi = PipeSystem.pipealloc data := by
    rw [hpipes, hpipe]
    exact Function.update_self pi _ _
  obtain ⟨pipes, hclose⟩ := closeBoth_pipe h.ne (by rw [hfile]; exact h.readEnd)
    (by rw [hfile]; exact h.writeEnd) hat
  have hsame : SameUse k.files ((t.files.giveBack rf).giveBack wf) :=
    sameUse_both hofile (fun g hg hg' => by rw [hfile, h.otherFiles g hg hg']) h.wasFree.1
      h.wasFree.2
  rw [hclose, hheap]
  constructor
  · rintro ⟨r, k', hcall, -⟩
    obtain ⟨heap', hfree, -⟩ := Option.map_eq_some_iff.mp hcall
    rw [hfree]
    rfl
  · intro hfree
    obtain ⟨heap', hfree⟩ := Option.isSome_iff_exists.mp hfree
    exact ⟨-1, _, by rw [hfree]; rfl, Or.inr ⟨rfl, hsame, HeapAfter.freed halloc hpi hfree⟩⟩

/-- A slot that was free is cleared again. -/
theorem setSlot_undo {s : OpenFiles ι} {fd : Fin nofile} (hnull : s.ofile p fd = .null)
    (slot : Slot) : ((s.setSlot p fd slot).setSlot p fd .null).ofile = s.ofile := by
  rw [OpenFiles.setSlot, OpenFiles.setSlot]
  dsimp only
  rw [Function.update_self, Function.update_idem, Function.update_idem, ← hnull,
    Function.update_eq_self, Function.update_eq_self]

theorem setSlot_undo_both {s : OpenFiles ι} {fd0 fd1 : Fin nofile} (hne : fd0 ≠ fd1)
    (hnull0 : s.ofile p fd0 = .null) (hnull1 : s.ofile p fd1 = .null) (slot0 slot1 : Slot) :
    ((((s.setSlot p fd0 slot0).setSlot p fd1 slot1).setSlot p fd0 .null).setSlot p fd1
      .null).ofile = s.ofile := by
  funext q fd
  by_cases hq : q = p
  · subst hq
    by_cases hfd1 : fd = fd1
    · simp [OpenFiles.setSlot, hfd1, hnull1]
    · by_cases hfd0 : fd = fd0
      · simp [OpenFiles.setSlot, hfd0, hne, hnull0]
      · simp [OpenFiles.setSlot, hfd0, hfd1]
  · simp [OpenFiles.setSlot, hq]

omit [DecidableEq ι] in
theorem freeFds_congr {s t : OpenFiles ι} (h : t.ofile = s.ofile) : t.freeFds p = s.freeFds p := by
  rw [freeFds, freeFds, h]

/-- Both descriptors are set and nothing is given back. -/
theorem HoldsPipe.newPipe {k₁ : PipeWorld ι} {heap : KHeap} {mem : Memory} {fd0 fd1 : Fin nofile}
    (h : k.HoldsPipe rf wf pi heap k₁) (halloc : buddyAlloc k.heap sizeofPipe = some (pi, heap))
    (hpi : pi ≠ 0) (habove : 3 ≤ fd0.val ∧ 3 ≤ fd1.val) (hne : fd0 ≠ fd1)
    (hnull : k₁.files.ofile p fd0 = .null ∧ k₁.files.ofile p fd1 = .null) :
    k.NewPipe p fd0 fd1 rf wf pi
      ⟨(k₁.files.setSlot p fd0 (.file rf)).setSlot p fd1 (.file wf), { heap with mem := mem },
        k₁.pipes⟩ where
  above := habove
  ne := hne
  wasNull := h.ofile ▸ hnull
  slots := by simp [OpenFiles.setSlot, hne]
  otherSlots := by
    intro q fd hother
    rw [← h.ofile]
    by_cases hq : q = p
    · obtain ⟨hne0, hne1⟩ := not_or.mp fun hfd => hother ⟨hq, hfd⟩
      simp [OpenFiles.setSlot, hq, hne0, hne1]
    · simp [OpenFiles.setSlot, hq]
  wasFree := h.wasFree
  readEnd := h.readEnd
  writeEnd := h.writeEnd
  otherFiles := h.otherFiles
  allocated := ⟨hpi, heap, mem, halloc, rfl⟩
  pipe := h.pipe

/-- The call after `pipealloc` has succeeded. -/
theorem HoldsPipe.sysPipe_iff {k₁ : PipeWorld ι} {heap : KHeap}
    (h : k.HoldsPipe rf wf pi heap k₁) (halloc : buddyAlloc k.heap sizeofPipe = some (pi, heap))
    (hpi : pi ≠ 0) (hcall : k.pipealloc = some (some (rf, wf), k₁)) :
    (∃ r k', k.sysPipe p task fdarray = some (r, k') ∧ k.PipeLaws p r k') ↔
      CopiesReturn task fdarray pi heap (k.files.freeFds p) := by
  have hfds₁ : k₁.files.freeFds p = k.files.freeFds p := freeFds_congr h.ofile
  rw [sysPipe, hcall, Option.bind_some]
  dsimp only
  cases hfds : k.files.freeFds p with
  | nil =>
      rw [fdalloc_none (hfds₁.trans hfds)]
      exact h.closeBoth_iff heap.mem halloc hpi rfl rfl h.ofile h.heap
  | cons fd0 rest =>
      have hslot : ∀ f, Slot.file f ≠ .null := fun f heq => by cases heq
      obtain ⟨hfd0, habove0, hnull0, hrest⟩ := fdalloc_first (hfds₁.trans hfds) (hslot rf)
      rw [hfd0]
      dsimp only
      have hundo := setSlot_undo hnull0 (.file rf)
      cases rest with
      | nil =>
          rw [fdalloc_none hrest]
          exact h.closeBoth_iff heap.mem halloc hpi rfl rfl (hundo.trans h.ofile) h.heap
      | cons fd1 rest =>
          obtain ⟨hfd1, habove1, hnull1, -⟩ := fdalloc_first hrest (hslot wf)
          rw [hfd1]
          dsimp only
          rw [h.heap, CopiesReturn]
          have hne : fd0 ≠ fd1 := by
            rintro rfl
            rw [OpenFiles.setSlot] at hnull1
            dsimp only at hnull1
            rw [Function.update_self, Function.update_self] at hnull1
            cases hnull1
          have hnull1' : k₁.files.ofile p fd1 = .null := by
            rw [OpenFiles.setSlot] at hnull1
            dsimp only at hnull1
            rwa [Function.update_self, Function.update_of_ne hne.symm] at hnull1
          cases hcopy : copyFds task heap.mem fdarray fd0 fd1 with
          | none =>
              refine iff_of_false ?_ ?_
              · rintro ⟨r, k', hnone, -⟩
                cases hnone
              · rintro ⟨copied, mem, hsome, -⟩
                cases hsome
          | some found =>
              obtain ⟨copied, mem⟩ := found
              rw [Option.bind_some]
              dsimp only
              cases copied with
              | true =>
                  rw [if_pos rfl]
                  refine iff_of_true ⟨0, _, rfl, Or.inl ⟨rfl, fd0, fd1, rf, wf, pi, ?_⟩⟩
                    ⟨true, mem, rfl, fun heq => by cases heq⟩
                  exact h.newPipe halloc hpi ⟨habove0, habove1⟩ hne ⟨hnull0, hnull1'⟩
              | false =>
                  rw [if_neg Bool.false_ne_true]
                  have hclear := setSlot_undo_both hne hnull0 hnull1' (.file rf) (.file wf)
                  refine Iff.trans (h.closeBoth_iff mem halloc hpi ?_ ?_ ?_ ?_) ?_
                  · exact rfl
                  · exact rfl
                  · exact hclear.trans h.ofile
                  · exact rfl
                  · constructor
                    · exact fun hfree => ⟨false, mem, rfl, fun _ => hfree⟩
                    · rintro ⟨copied, mem', hsome, hfree⟩
                      obtain ⟨rfl, rfl⟩ := Prod.mk.inj (Option.some.inj hsome)
                      exact hfree rfl

theorem sysPipe_laws_iff (k : PipeWorld ι) (p : ι) (task : Mytask) (fdarray : ℕ)
    (hfree : FreeNone k.files) :
    (∃ r k', k.sysPipe p task fdarray = some (r, k') ∧ k.PipeLaws p r k') ↔
      k.PipeMeets p task fdarray := by
  by_cases hshort : k.files.freeFiles.length < 2
  · obtain ⟨k', hcall, hsame, hheap⟩ := pipealloc_short hfree hshort
    refine iff_of_true ⟨-1, k', by rw [sysPipe, hcall]; rfl, Or.inr ⟨rfl, hsame, ?_⟩⟩
      fun hlong => absurd hlong (not_le.mpr hshort)
    rw [hheap]
    exact HeapAfter.untouched
  obtain ⟨rf, wf, rest, hfiles⟩ : ∃ rf wf rest, k.files.freeFiles = rf :: wf :: rest := by
    match hfiles : k.files.freeFiles with
    | [] => simp [hfiles] at hshort
    | [f] => simp [hfiles] at hshort
    | rf :: wf :: rest => exact ⟨rf, wf, rest, rfl⟩
  have hlong : 2 ≤ k.files.freeFiles.length := not_lt.mp hshort
  cases halloc : buddyAlloc k.heap sizeofPipe with
  | none =>
      obtain ⟨hnone, -⟩ := pipealloc_long hfree hfiles
      refine iff_of_false ?_ fun hmeets => ?_
      · rintro ⟨r, k', hcall, -⟩
        rw [sysPipe, hnone halloc] at hcall
        cases hcall
      · obtain ⟨pi, heap, hsome, -⟩ := hmeets hlong
        rw [halloc] at hsome
        cases hsome
  | some found =>
      obtain ⟨pi, heap⟩ := found
      obtain ⟨-, hnull, hnew⟩ := pipealloc_long hfree hfiles
      by_cases hpi : pi = 0
      · subst hpi
        obtain ⟨k', hcall, hsame, hheap⟩ := hnull heap halloc
        refine iff_of_true ⟨-1, k', by rw [sysPipe, hcall]; rfl, Or.inr ⟨rfl, hsame, ?_⟩⟩
          fun _ => ⟨0, heap, halloc, fun h => absurd rfl h⟩
        rw [hheap]
        exact HeapAfter.refused halloc
      · obtain ⟨k₁, hcall, hholds⟩ := hnew pi heap halloc hpi
        rw [hholds.sysPipe_iff halloc hpi hcall]
        constructor
        · exact fun h _ => ⟨pi, heap, halloc, fun _ => h⟩
        · intro hmeets
          obtain ⟨pi', heap', hsome, h⟩ := hmeets hlong
          obtain ⟨rfl, rfl⟩ := Prod.mk.inj (Option.some.inj (halloc.symm.trans hsome))
          exact h hpi

/-! ## The files alone -/

theorem fileclose_files (h : k.fileclose f = some k') :
    k.files.fileclose (.file f) = some k'.files := by
  obtain ⟨files, hclose, hrest⟩ := Option.bind_eq_some_iff.mp h
  rw [hclose]
  split_ifs at hrest
  · exact congrArg (Option.map PipeWorld.files) hrest
  · obtain ⟨s, -, hend⟩ := Option.bind_eq_some_iff.mp hrest
    dsimp only at hend
    split_ifs at hend
    · obtain ⟨heap, -, rfl⟩ := Option.map_eq_some_iff.mp hend
      rfl
    · exact congrArg (Option.map PipeWorld.files) hend
  · exact congrArg (Option.map PipeWorld.files) hrest

theorem closeBoth_files {r : ℤ} (h : k.closeBoth rf wf = some (r, k')) :
    k.files.closeBoth rf wf = some (r, k'.files) := by
  obtain ⟨k₁, hclose, hrest⟩ := Option.bind_eq_some_iff.mp h
  obtain ⟨k₂, hclose₂, heq⟩ := Option.map_eq_some_iff.mp hrest
  obtain ⟨rfl, rfl⟩ := Prod.mk.inj heq
  rw [OpenFiles.closeBoth, fileclose_files hclose, Option.bind_some, fileclose_files hclose₂]
  rfl

theorem pipealloc_files {found : Option (Fin nfile × Fin nfile)}
    (h : k.pipealloc = some (found, k')) :
    ∃ heap, k.files.pipealloc heap = some (found, k'.files) := by
  rw [pipealloc] at h
  cases halloc : k.files.filealloc with
  | none =>
      rw [halloc] at h
      obtain ⟨rfl, rfl⟩ := Prod.mk.inj (Option.some.inj h)
      exact ⟨none, by rw [OpenFiles.pipealloc, halloc]⟩
  | some first =>
      obtain ⟨f0, files⟩ := first
      rw [halloc] at h
      dsimp only at h
      cases halloc₂ : files.filealloc with
      | none =>
          rw [halloc₂] at h
          obtain ⟨k₁, hclose, heq⟩ := Option.map_eq_some_iff.mp h
          obtain ⟨rfl, rfl⟩ := Prod.mk.inj heq
          refine ⟨none, ?_⟩
          simp only [OpenFiles.pipealloc, halloc, halloc₂]
          rw [fileclose_files hclose]
          rfl
      | some second =>
          obtain ⟨f1, files₂⟩ := second
          rw [halloc₂] at h
          obtain ⟨⟨pi, heap⟩, -, hrest⟩ := Option.bind_eq_some_iff.mp h
          dsimp only at hrest
          split_ifs at hrest with hpi
          · obtain ⟨k₁, hclose, hrest⟩ := Option.bind_eq_some_iff.mp hrest
            obtain ⟨k₂, hclose₂, heq⟩ := Option.map_eq_some_iff.mp hrest
            obtain ⟨rfl, rfl⟩ := Prod.mk.inj heq
            refine ⟨none, ?_⟩
            simp only [OpenFiles.pipealloc, halloc, halloc₂]
            rw [fileclose_files hclose, Option.bind_some, fileclose_files hclose₂]
            rfl
          · obtain ⟨rfl, rfl⟩ := Prod.mk.inj (Option.some.inj hrest)
            exact ⟨some pi, by simp only [OpenFiles.pipealloc, halloc, halloc₂]⟩

/-- On the files the call is that of the file table, for what the heap and the copies did. -/
theorem sysPipe_files {r : ℤ} (h : k.sysPipe p task fdarray = some (r, k')) :
    ∃ heap copied, k.files.sysPipe p heap copied = some (r, k'.files) := by
  obtain ⟨⟨found, k₁⟩, halloc, hrest⟩ := Option.bind_eq_some_iff.mp h
  obtain ⟨heap, hfiles⟩ := pipealloc_files halloc
  cases found with
  | none =>
      obtain ⟨rfl, rfl⟩ := Prod.mk.inj (Option.some.inj hrest)
      exact ⟨heap, true, by rw [OpenFiles.sysPipe, hfiles]; rfl⟩
  | some both =>
      obtain ⟨rf, wf⟩ := both
      dsimp only at hrest
      cases hfd0 : k₁.files.fdalloc p (.file rf) with
      | none =>
          rw [hfd0] at hrest
          refine ⟨heap, true, ?_⟩
          simp only [OpenFiles.sysPipe, hfiles, Option.bind_some, hfd0]
          exact closeBoth_files hrest
      | some first =>
          obtain ⟨fd0, files⟩ := first
          rw [hfd0] at hrest
          dsimp only at hrest
          cases hfd1 : files.fdalloc p (.file wf) with
          | none =>
              rw [hfd1] at hrest
              refine ⟨heap, true, ?_⟩
              simp only [OpenFiles.sysPipe, hfiles, Option.bind_some, hfd0, hfd1]
              exact closeBoth_files hrest
          | some second =>
              obtain ⟨fd1, files₂⟩ := second
              rw [hfd1] at hrest
              obtain ⟨⟨copied, mem⟩, -, hend⟩ := Option.bind_eq_some_iff.mp hrest
              refine ⟨heap, copied, ?_⟩
              simp only [OpenFiles.sysPipe, hfiles, Option.bind_some, hfd0, hfd1]
              cases copied with
              | true =>
                  obtain ⟨rfl, rfl⟩ := Prod.mk.inj (Option.some.inj hend)
                  rfl
              | false => exact closeBoth_files hend

/-! ## Two heaps -/

/-- A task that has no descriptor open. -/
def pipeWorld (heap : KHeap) : PipeWorld Unit where
  files := { OpenFiles.fileinit with live := {()} }
  heap := heap
  pipes := fun _ => PipeSystem.pipealloc fun _ => 0

/-- It has no pages. -/
def pipeTask : Mytask := ⟨false, 0, 5, 5⟩

def pipeHeap (size : ℕ) : Option KHeap :=
  heapAllocatorInit size (2 ^ 31) (fun _ => 0) ⟨0, true, 0, false⟩ fun _ => 0

theorem pipeWorld_free (heap : KHeap) : FreeNone (pipeWorld heap).files := by
  have hfree : FreeNone (OpenFiles.fileinit : OpenFiles Unit) := freeNone_of_run (.done _)
  exact hfree

/-- No address is good: the pipe is freed again. -/
theorem sysPipe_laws_refused : ∃ heap, pipeHeap (2 ^ 11) = some heap ∧
    ∃ r k', (pipeWorld heap).sysPipe () pipeTask 0 = some (r, k') ∧
      (pipeWorld heap).PipeLaws () r k' := by
  have hruns : ((pipeHeap (2 ^ 11)).bind fun h => (buddyAlloc h sizeofPipe).bind fun r =>
      if r.1 = 0 then none else buddyFree r.2 r.1).isSome = true := by decide +kernel
  obtain ⟨h', hruns⟩ := Option.isSome_iff_exists.mp hruns
  obtain ⟨heap, hinit, hruns⟩ := Option.bind_eq_some_iff.mp hruns
  obtain ⟨⟨pi, heap'⟩, halloc, hfree⟩ := Option.bind_eq_some_iff.mp hruns
  refine ⟨heap, hinit, (sysPipe_laws_iff _ () pipeTask 0 (pipeWorld_free heap)).mpr fun _ => ?_⟩
  split_ifs at hfree with hpi
  have hisSome : (buddyFree heap' pi).isSome = true := by rw [hfree]; rfl
  refine ⟨pi, heap', halloc, fun _ => ?_⟩
  match (pipeWorld heap).files.freeFds () with
  | [] => exact hisSome
  | [_] => exact hisSome
  | _ :: _ :: _ => exact ⟨false, heap'.mem, rfl, fun _ => hisSome⟩

/-- An address from `VMA_START` on that is not mapped stops the system, and so does a second call
when the first has found the heap too small. -/
theorem sysPipe_stops :
    (∃ heap, pipeHeap (2 ^ 11) = some heap ∧
      (pipeWorld heap).sysPipe () pipeTask vmaStart = none) ∧
    ∃ heap k', pipeHeap (2 ^ 7) = some heap ∧
      (pipeWorld heap).sysPipe () pipeTask 0 = some (-1, k') ∧
      k'.sysPipe () pipeTask 0 = none := by
  constructor
  · have hstops : ((pipeHeap (2 ^ 11)).map fun h =>
        ((pipeWorld h).sysPipe () pipeTask vmaStart).isNone) = some true := by decide +kernel
    obtain ⟨heap, hinit, hnone⟩ := Option.map_eq_some_iff.mp hstops
    exact ⟨heap, hinit, Option.isNone_iff_eq_none.mp hnone⟩
  · have hstops : ((pipeHeap (2 ^ 7)).bind fun h => ((pipeWorld h).sysPipe () pipeTask 0).map
        fun r => (r.1, (r.2.sysPipe () pipeTask 0).isNone)) = some (-1, true) := by decide +kernel
    obtain ⟨heap, hinit, hrun⟩ := Option.bind_eq_some_iff.mp hstops
    obtain ⟨⟨r, k'⟩, hcall, heq⟩ := Option.map_eq_some_iff.mp hrun
    obtain ⟨rfl, hnone⟩ := Prod.mk.inj heq
    exact ⟨heap, k', hinit, hcall, Option.isNone_iff_eq_none.mp hnone⟩

end PipeWorld

end K210Os
