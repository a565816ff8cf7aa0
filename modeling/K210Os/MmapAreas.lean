import K210Os.ProgramBreak
import K210Os.Syscall

/-!
# Placing areas for files

`sys_mmap` puts each new area behind the last one and looks neither at the length nor at
the other areas of the task.
-/

namespace K210Os

open FrameAllocator Riscv Syscalls Transition

/-- What `sys_mmap` reads and changes: the areas and descriptors of the task and the table
of open files, with the offsets of the files beside it. -/
structure MmapTask where
  memorySet : MemorySet
  ofile : Fin nofile → Option (Fin nfile)
  file : Fin nfile → File
  off : Fin nfile → BitVec 32

namespace MmapTask

/-- The descriptor that the fifth argument names. -/
def descriptor (p : MmapTask) (gr : Reg → Word) : Option (Fin nfile) :=
  if (argint gr 4).toNat < nofile ∧ 0 ≤ argint gr 4 then
    p.ofile (Fin.ofNat nofile (argint gr 4).toNat)
  else none

/-- Where the next area begins. -/
def nextStart (ms : MemorySet) : ℕ :=
  match ms.vma.getLast? with
  | none => vmaStart
  | some t => vpn2va t.vmEnd

/-- The value returned and the task after the call; `none` where the descriptor is not open
or `filedup` panics. -/
def sysMmap (gr : Reg → Word) (p : MmapTask) : Option (ℕ × MmapTask) := do
  let length := (argraw gr 1).toNat
  let prot := argbits gr 2
  let flags := argbits gr 3
  let offset := (argraw gr 5).toNat
  let f ← p.descriptor gr
  if prot &&& protWrite ≠ 0 ∧ !(p.file f).writable ∧ flags &&& mapPrivate = 0 then
    return (2 ^ 64 - 1, p)
  if prot &&& protRead ≠ 0 ∧ !(p.file f).readable then return (2 ^ 64 - 1, p)
  let perm := vmU
  let perm := if prot &&& protWrite ≠ 0 then perm ||| vmW else perm
  let perm := if prot &&& protRead ≠ 0 then perm ||| vmR else perm
  let start := nextStart p.memorySet
  let ma := maNew start ((start + length) % 2 ^ 64) .framed perm
  -- `filedup`
  if (p.file f).ref < 1 then none
  return (vpn2va ma.vmStart,
    { p with
      memorySet := { p.memorySet with vma := p.memorySet.vma ++ [⟨ma, length, offset, f, flags⟩] }
      file := Function.update p.file f { p.file f with ref := (p.file f).ref + 1 }
      off := Function.update p.off f 0 })

/-- The call returns -1. -/
def Refused (gr : Reg → Word) (file : File) : Prop :=
  argbits gr 2 &&& protWrite ≠ 0 ∧ file.writable = false ∧ argbits gr 3 &&& mapPrivate = 0 ∨
    argbits gr 2 &&& protRead ≠ 0 ∧ file.readable = false

/-- The area that a call makes which is not refused. -/
def newArea (gr : Reg → Word) (ms : MemorySet) (f : Fin nfile) : MmapArea :=
  let perm := vmU
  let perm := if argbits gr 2 &&& protWrite ≠ 0 then perm ||| vmW else perm
  let perm := if argbits gr 2 &&& protRead ≠ 0 then perm ||| vmR else perm
  ⟨maNew (nextStart ms) ((nextStart ms + (argraw gr 1).toNat) % 2 ^ 64) .framed perm,
    (argraw gr 1).toNat, (argraw gr 5).toNat, f, argbits gr 3⟩

theorem newArea_perm_lt (gr : Reg → Word) (ms : MemorySet) (f : Fin nfile) :
    (newArea gr ms f).mapPerm < 256 := by
  dsimp only [newArea, maNew]
  split_ifs <;> decide

/-- The task after a call that is not refused. -/
def withArea (gr : Reg → Word) (p : MmapTask) (f : Fin nfile) : MmapTask :=
  { p with
    memorySet := { p.memorySet with vma := p.memorySet.vma ++ [newArea gr p.memorySet f] }
    file := Function.update p.file f { p.file f with ref := (p.file f).ref + 1 }
    off := Function.update p.off f 0 }

variable {gr : Reg → Word} {p p' : MmapTask} {f : Fin nfile} {ret : ℕ}

/-- The descriptor is open, and its file is in use. -/
def IsOpen (gr : Reg → Word) (p : MmapTask) (f : Fin nfile) : Prop :=
  p.descriptor gr = some f ∧ 1 ≤ (p.file f).ref

theorem sysMmap_refused (ho : IsOpen gr p f) (hr : Refused gr (p.file f)) :
    sysMmap gr p = some (2 ^ 64 - 1, p) := by
  simp only [sysMmap, ho.1, Option.bind_eq_bind, Option.bind_some, Option.pure_def]
  by_cases hw : argbits gr 2 &&& protWrite ≠ 0 ∧ (!(p.file f).writable) = true ∧
      argbits gr 3 &&& mapPrivate = 0
  · rw [if_pos hw]
  · rw [if_neg hw]
    rcases hr with ⟨hprot, hfile, hflags⟩ | ⟨hprot, hfile⟩
    · exact absurd ⟨hprot, by rw [hfile]; rfl, hflags⟩ hw
    · rw [if_pos ⟨hprot, by rw [hfile]; rfl⟩]

theorem sysMmap_placed (ho : IsOpen gr p f) (hr : ¬ Refused gr (p.file f)) :
    sysMmap gr p = some (vpn2va (newArea gr p.memorySet f).vmStart, withArea gr p f) := by
  rw [Refused, not_or] at hr
  obtain ⟨hw, hread⟩ := hr
  have href : ¬ (p.file f).ref < 1 := Nat.not_lt.mpr ho.2
  have hw' : ¬ (argbits gr 2 &&& protWrite ≠ 0 ∧ (!(p.file f).writable) = true ∧
      argbits gr 3 &&& mapPrivate = 0) := by simpa using hw
  have hread' : ¬ (argbits gr 2 &&& protRead ≠ 0 ∧ (!(p.file f).readable) = true) := by
    simpa using hread
  simp only [sysMmap, ho.1, Option.bind_eq_bind, Option.bind_some, if_neg hw', if_neg hread',
    if_neg href, Option.pure_def]
  rfl

/-! ## What is wanted -/

/-- The area lies below the page of the trap context. -/
def BelowKernel (ma : MapArea) : Prop := ma.vmEnd ≤ va2vpn trapContext

/-- The areas for files lie behind `VMA_START`, apart from each other and from the other
areas of the task. -/
structure AreasOk (ms : MemorySet) : Prop where
  bounds : ∀ ma ∈ ms.vma, vmaStart / pageSize ≤ ma.vmStart ∧ ma.vmStart ≤ ma.vmEnd
  apart : Apart (ms.vma.map MmapArea.toMapArea)
  areas : ∀ ma ∈ ms.vma, ∀ ma' ∈ ms.areas, BelowKernel ma' →
    ∀ vpn, ma.Covers vpn → ¬ ma'.Covers vpn

/-- The length of the area in pages. -/
def pagesAsked (gr : Reg → Word) : ℕ := ((argraw gr 1).toNat + pageSize - 1) / pageSize

/-- What is wanted of a call. -/
structure MmapLaws (gr : Reg → Word) (p : MmapTask) (ret : ℕ) (p' : MmapTask) : Prop where
  outcome : ret = 2 ^ 64 - 1 ∧ p' = p ∨
    ∃ ma, p'.memorySet.vma = p.memorySet.vma ++ [ma] ∧ ret = vpn2va ma.vmStart ∧
      ma.vmEnd = ma.vmStart + pagesAsked gr
  areas : AreasOk p'.memorySet
  off : p'.off = p.off

/-- The call is refused; or the file is at its beginning, the end of the area does not wrap,
and its pages are free of other areas. -/
def Fits (gr : Reg → Word) (p : MmapTask) (f : Fin nfile) : Prop :=
  Refused gr (p.file f) ∨
    p.off f = 0 ∧ nextStart p.memorySet + (argraw gr 1).toNat + (pageSize - 1) < 2 ^ 64 ∧
      ∀ ma ∈ p.memorySet.areas, BelowKernel ma → ∀ vpn, vaFloor (nextStart p.memorySet) ≤ vpn →
        vpn < vaFloor (nextStart p.memorySet) + pagesAsked gr → ¬ ma.Covers vpn

/-! ## Runs -/

/-- The areas follow each other up to page `hi`. -/
structure Placed (ms : MemorySet) (hi : ℕ) : Prop where
  consecutive : Consecutive (vmaStart / pageSize) (ms.vma.map MmapArea.toMapArea) hi
  next : nextStart ms = hi * 4096
  lt : hi < 2 ^ 52
  areas : ∀ ma ∈ ms.vma, ∀ ma' ∈ ms.areas, BelowKernel ma' →
    ∀ vpn, ma.Covers vpn → ¬ ma'.Covers vpn

theorem placed_of_nil {ms : MemorySet} (h : ms.vma = []) : Placed ms (vmaStart / pageSize) := by
  refine ⟨?_, ?_, by decide, ?_⟩
  · rw [h]
    rfl
  · rw [nextStart, h]
    decide
  · intro ma hma
    rw [h] at hma
    contradiction

variable {ms : MemorySet} {hi : ℕ}

theorem bounds_of_consecutive {lo : ℕ} {mas : List MapArea} (h : Consecutive lo mas hi) :
    ∀ ma ∈ mas, lo ≤ ma.vmStart ∧ ma.vmStart ≤ ma.vmEnd := by
  induction mas generalizing lo with
  | nil => exact fun ma hma => absurd hma List.not_mem_nil
  | cons ma mas ih =>
      obtain ⟨hstart, hle, hrest⟩ := h
      intro ma' hma'
      rcases List.mem_cons.mp hma' with rfl | hma'
      · exact ⟨hstart.ge, hstart.trans_le hle⟩
      · obtain ⟨hlo, hend⟩ := ih hrest ma' hma'
        exact ⟨hle.trans hlo, hend⟩

theorem Placed.ok (h : Placed ms hi) : AreasOk ms := by
  refine ⟨fun ma hma => ?_, h.consecutive.apart, h.areas⟩
  exact bounds_of_consecutive h.consecutive ma.toMapArea (List.mem_map_of_mem hma)

/-- The pages of the new area. -/
theorem Placed.newArea_pages (h : Placed ms hi) (gr : Reg → Word) (f : Fin nfile) :
    (newArea gr ms f).vmStart = hi ∧
      ((newArea gr ms f).vmEnd = hi + pagesAsked gr ↔
        nextStart ms + (argraw gr 1).toNat + (pageSize - 1) < 2 ^ 64) := by
  have hlt := h.lt
  have hlen : (argraw gr 1).toNat < 2 ^ 64 := (argraw gr 1).isLt
  have hstart : (newArea gr ms f).vmStart = vaFloor (nextStart ms) := rfl
  have hend : (newArea gr ms f).vmEnd =
      vaCeil ((nextStart ms + (argraw gr 1).toNat) % 2 ^ 64) := rfl
  rw [hstart, hend, h.next, vaFloor, paFloor, vaCeil, paCeil, pagesAsked,
    show pageSize = 4096 from rfl]
  generalize (argraw gr 1).toNat = length at hlen
  constructor
  · omega
  · omega

/-- A call that fits keeps the areas in order. -/
theorem Placed.step (h : Placed p.memorySet hi) (hf : nextStart p.memorySet + (argraw gr 1).toNat +
      (pageSize - 1) < 2 ^ 64)
    (hfree : ∀ ma ∈ p.memorySet.areas, BelowKernel ma → ∀ vpn, vaFloor (nextStart p.memorySet) ≤ vpn →
      vpn < vaFloor (nextStart p.memorySet) + pagesAsked gr → ¬ ma.Covers vpn) :
    Placed (withArea gr p f).memorySet (hi + pagesAsked gr) := by
  obtain ⟨hstart, hend⟩ := h.newArea_pages gr f
  have hlast := hend.mpr hf
  have hlt := h.lt
  have hnext := h.next
  have hbound : hi + pagesAsked gr < 2 ^ 52 := by
    rw [hnext, show pageSize = 4096 from rfl] at hf
    rw [pagesAsked, show pageSize = 4096 from rfl]
    omega
  have hfloor : vaFloor (nextStart p.memorySet) = hi := by
    rw [hnext, vaFloor, paFloor, show pageSize = 4096 from rfl]
    omega
  refine ⟨?_, ?_, hbound, ?_⟩
  · have hcons := h.consecutive
    rw [← hstart] at hcons
    have hsnoc := hcons.snoc (by omega)
    rw [hlast] at hsnoc
    rw [withArea, List.map_append]
    exact hsnoc
  · rw [nextStart, withArea, List.getLast?_concat]
    dsimp only
    rw [hlast, vpn2va, ppn2pa, Nat.shiftLeft_eq, show pageOffsetBits = 12 from rfl]
    omega
  · intro ma hma ma' hma' hbelow vpn hc
    rcases List.mem_append.mp hma with hma | hma
    · exact h.areas ma hma ma' hma' hbelow vpn hc
    · obtain rfl := List.mem_singleton.mp hma
      rw [MapArea.Covers, hstart, hlast] at hc
      exact hfree ma' hma' hbelow vpn (hfloor ▸ hc.1) (hfloor ▸ hc.2)

theorem Placed.laws_iff (h : Placed p.memorySet hi) (ho : IsOpen gr p f) :
    (∃ ret p', sysMmap gr p = some (ret, p') ∧ MmapLaws gr p ret p') ↔ Fits gr p f := by
  have hfloor : vaFloor (nextStart p.memorySet) = hi := by
    rw [h.next, vaFloor, paFloor, show pageSize = 4096 from rfl]
    omega
  obtain ⟨hstart, hend⟩ := h.newArea_pages gr f
  constructor
  · rintro ⟨ret, p', hcall, hlaws⟩
    by_cases hr : Refused gr (p.file f)
    · exact Or.inl hr
    · rw [sysMmap_placed ho hr, Option.some.injEq, Prod.mk.injEq] at hcall
      obtain ⟨-, rfl⟩ := hcall
      have hlast : (newArea gr p.memorySet f).vmEnd = hi + pagesAsked gr := by
        rcases hlaws.outcome with ⟨-, hsame⟩ | ⟨ma, hvma, -, hpages⟩
        · have hvma : p.memorySet.vma ++ [newArea gr p.memorySet f] = p.memorySet.vma :=
            congrArg (fun q => q.memorySet.vma) hsame
          have hlen := congrArg List.length hvma
          rw [List.length_append, List.length_singleton] at hlen
          omega
        · obtain rfl := List.singleton_inj.mp (List.append_cancel_left hvma)
          rw [hpages, hstart]
      refine Or.inr ⟨?_, hend.mp hlast, fun ma hma hbelow vpn hlo hhi => ?_⟩
      · have hoff := congrFun hlaws.off f
        rw [withArea] at hoff
        dsimp only at hoff
        rw [Function.update_self] at hoff
        exact hoff.symm
      · apply hlaws.areas.areas (newArea gr p.memorySet f) (by simp [withArea]) ma hma hbelow vpn
        rw [MapArea.Covers, hstart, hlast]
        exact ⟨hfloor ▸ hlo, hfloor ▸ hhi⟩
  · rintro (hr | ⟨hoff, hlong, hfree⟩)
    · exact ⟨_, p, sysMmap_refused ho hr, Or.inl ⟨rfl, rfl⟩, h.ok, rfl⟩
    · by_cases hr : Refused gr (p.file f)
      · exact ⟨_, p, sysMmap_refused ho hr, Or.inl ⟨rfl, rfl⟩, h.ok, rfl⟩
      · refine ⟨_, _, sysMmap_placed ho hr, Or.inr ⟨_, rfl, rfl, ?_⟩, (h.step hlong hfree).ok, ?_⟩
        · rw [hend.mpr hlong, hstart]
        · rw [withArea, ← hoff]
          exact Function.update_eq_self f p.off

/-- A call on an open descriptor that returns. -/
def MmapCall (p : MmapTask) (gr : Reg → Word) (p' : MmapTask) : Prop :=
  ∃ f ret, IsOpen gr p f ∧ Fits gr p f ∧ sysMmap gr p = some (ret, p')

theorem MmapCall.placed (hcall : MmapCall p gr p') (h : Placed p.memorySet hi) :
    ∃ hi', Placed p'.memorySet hi' := by
  obtain ⟨f, ret, ho, hfits, hcall⟩ := hcall
  by_cases hr : Refused gr (p.file f)
  · rw [sysMmap_refused ho hr, Option.some.injEq, Prod.mk.injEq] at hcall
    exact ⟨hi, hcall.2 ▸ h⟩
  · obtain ⟨-, hlong, hfree⟩ := hfits.resolve_left hr
    rw [sysMmap_placed ho hr, Option.some.injEq, Prod.mk.injEq] at hcall
    exact ⟨_, hcall.2 ▸ h.step hlong hfree⟩

/-- After calls that fit, on a task that had no areas for files, the next call does what is
wanted exactly if it fits. -/
theorem sysMmap_run_iff {start : MmapTask} (hstart : start.memorySet.vma = [])
    {calls : List (Reg → Word)} (hrun : Run MmapCall start calls p) (ho : IsOpen gr p f) :
    AreasOk p.memorySet ∧
      ((∃ ret p', sysMmap gr p = some (ret, p') ∧ MmapLaws gr p ret p') ↔ Fits gr p f) := by
  have hplaced : ∃ hi, Placed p.memorySet hi := by
    refine hrun.invariant (I := fun p => ∃ hi, Placed p.memorySet hi) ?_ ⟨_, placed_of_nil hstart⟩
    rintro p gr p' ⟨hi, h⟩ hcall
    exact hcall.placed h
  obtain ⟨hi, h⟩ := hplaced
  exact ⟨h.ok, h.laws_iff ho⟩

/-- A task with descriptor 3 on a file that may be read and written. -/
def exampleTask : MmapTask where
  memorySet := ⟨⟨0, []⟩, [], []⟩
  ofile fd := if fd = 3 then some 0 else none
  file _ := ⟨.entry, 1, true, true, 0, 0⟩
  off _ := 0

/-- The registers of a call with that descriptor. -/
def exampleCall (length : ℕ) (x : Reg) : Word :=
  if x = 11 then BitVec.ofNat 64 length
  else if x = 12 then 1
  else if x = 14 then 3
  else 0

theorem exampleTask_isOpen (length : ℕ) : IsOpen (exampleCall length) exampleTask 0 :=
  ⟨rfl, le_rfl⟩

theorem sysMmap_two_pages : AreasOk exampleTask.memorySet ∧
    ∃ ret p', sysMmap (exampleCall 5000) exampleTask = some (ret, p') ∧
      MmapLaws (exampleCall 5000) exampleTask ret p' := by
  obtain ⟨hok, hiff⟩ := sysMmap_run_iff (rfl : exampleTask.memorySet.vma = []) (.done exampleTask)
    (exampleTask_isOpen 5000)
  exact ⟨hok, hiff.mpr (Or.inr ⟨rfl, by decide, fun ma hma => absurd hma List.not_mem_nil⟩)⟩

/-- A length of nearly 2^64 bytes makes an area that ends before it begins. -/
theorem sysMmap_wraps : exampleTask.memorySet.vma = [] ∧
    IsOpen (exampleCall (2 ^ 64 - 4096)) exampleTask 0 ∧
    ∃ ret p', sysMmap (exampleCall (2 ^ 64 - 4096)) exampleTask = some (ret, p') ∧
      ret ≠ 2 ^ 64 - 1 ∧ ∃ ma ∈ p'.memorySet.vma, ma.vmEnd < ma.vmStart := by
  have hplaced : ¬ Refused (exampleCall (2 ^ 64 - 4096)) (exampleTask.file 0) := by
    unfold Refused
    decide
  refine ⟨rfl, exampleTask_isOpen _, _, _, sysMmap_placed (exampleTask_isOpen _) hplaced,
    by decide, newArea (exampleCall (2 ^ 64 - 4096)) exampleTask.memorySet 0, ?_, by decide⟩
  exact List.mem_append_right _ List.mem_cons_self

end MmapTask

end K210Os
