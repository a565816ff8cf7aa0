import K210Os.EntryCacheRuns
import K210Os.FileContent
import K210Os.FileTable
import K210Os.ProgramBreak

/-!
# Replacing the image of a task

`execve` opens the file, reads it to a buffer, builds a new address space and lets the
task point to it. Nothing gives the file's dirent or the old address space back, and
`base_size` stays what it was. What `buddy_alloc` delivers for the buffer is taken as
given.
-/

namespace K210Os

open FrameAllocator Riscv Transition

/-- The fields of a task that `execve` reads or that it has to leave alone. -/
structure ExecTask extends TaskMemory where
  parent : ℕ
  cwd : ℕ
  ofile : Fin nofile → Option (Fin nfile)

/-- `blocks` are the blocks that `buddy_alloc` delivered and `buddy_free` did not take back. -/
structure ExecSystem where
  kernelSpace : MemorySet
  phys : Physical
  entries : EntryCache
  blocks : List ℕ

namespace ExecTask

variable (fat : Fat32) (sym : KernelSymbols) (sstatus : Word)

/-- The trap context of a program. -/
def trapContextOf (p : ExecTask) (kernelSpace : MemorySet) (userSp entryPoint : ℕ) : ℕ → Word :=
  appContextInit sstatus (BitVec.ofNat 64 entryPoint) (BitVec.ofNat 64 userSp)
    (BitVec.ofNat 64 (token kernelSpace.pageTable)) (BitVec.ofNat 64 (ksGetTop p.pid.toNat))
    (BitVec.ofNat 64 sym.eDispatch)

/-- The task and the system after `execve`; `buddyAlloc` is the block for a size. `none` also
where the null pointer is used: a path without a file, or no block. -/
def execve (buddyAlloc : ℕ → ℕ) (p : ExecTask) (sys : ExecSystem) (path : List Byte) :
    Option (ExecTask × ExecSystem) := do
  let (found, entries) ← sys.entries.ename fat p.cwd path
  let e ← found
  let size := (entries.fs.ent e).fileSize
  let elfData := buddyAlloc size
  if elfData = 0 then none
  -- the number of bytes that were read is not looked at
  let (_, bytes, disk, entry) ←
    eread fat entries.fs.disk (entries.fs.ent e) ⟨fun _ => 0, fun _ _ => true⟩ 0 size
  let entries := { entries with fs := { entries.fs.set e entry with disk } }
  let mem := copyBytes sys.phys.mem elfData (fun k => bytes.getD k 0) bytes.length
  let (memorySet, userSp, entryPoint, s) ←
    fromElf sym.strampoline (fun k => mem (elfData + k)) { sys.phys with mem }
  let trapCxPpn ← pteFrame s.mem memorySet.pageTable.rootPpn (va2vpn trapContext)
  let trapCx := trapContextOf sym sstatus p sys.kernelSpace userSp entryPoint
  let mem := copyBytes s.mem (ppn2pa trapCxPpn) (trapContextBytes trapCx) trapContextSize
  return ({ p with memorySet, trapCxPpn },
    { sys with phys := { s with mem }, entries, blocks := (elfData :: sys.blocks).erase elfData })

/-! ## What is wanted -/

/-- The frames of the table and of the areas of a task. -/
def frames (p : ExecTask) : List ℕ :=
  p.memorySet.pageTable.fnode ++ p.memorySet.areas.flatMap (fun ma => ma.dataframe.map Prod.snd) ++
    p.memorySet.vma.flatMap fun ma => ma.dataframe.map Prod.snd

/-- Nobody holds more of a dirent than before. -/
def SameRefs (entries entries' : EntryCache) : Prop :=
  ∀ e, entries'.fs.handleCount e = entries.fs.handleCount e

/-- The call fails for a good reason, and the process is what it was. -/
structure Failed (p : ExecTask) (sys : ExecSystem) (path : List Byte) (p' : ExecTask)
    (sys' : ExecSystem) : Prop where
  cause : ∃ found entries, sys.entries.ename fat p.cwd path = some (found, entries) ∧
    ∀ e, found = some e → ∀ got bytes disk entry,
      eread fat entries.fs.disk (entries.fs.ent e) ⟨fun _ => 0, fun _ _ => true⟩ 0
        (entries.fs.ent e).fileSize = some (got, bytes, disk, entry) →
      got ≠ (entries.fs.ent e).fileSize
  task : p' = p
  bytes : ∀ f ∈ p.frames, ∀ i < 4096, sys'.phys.mem (f * 4096 + i) = sys.phys.mem (f * 4096 + i)
  frames : sys'.phys.frames = sys.phys.frames
  blocks : sys'.blocks = sys.blocks
  refs : SameRefs sys.entries sys'.entries

/-- The fields of the task describe the image, and what belonged to the old one is given
back. -/
structure Replaced (p : ExecTask) (sys : ExecSystem) (path : List Byte) (p' : ExecTask)
    (sys' : ExecSystem) : Prop where
  image : ∃ e entries content s userSp entryPoint s',
    sys.entries.ename fat p.cwd path = some (some e, entries) ∧
    (∀ k < (entries.fs.ent e).fileSize,
      (fileContent fat entries.fs.disk (entries.fs.ent e))[k]? = some (content k)) ∧
    fromElf sym.strampoline content s = some (p'.memorySet, userSp, entryPoint, s') ∧
    p'.baseSize = (userSp + pageSize) % 2 ^ 64 ∧
    ∀ k < trapContextSize, sys'.phys.mem (ppn2pa p'.trapCxPpn + k) =
      trapContextBytes (trapContextOf sym sstatus p sys.kernelSpace userSp entryPoint) k
  trapCx : pteFrame sys'.phys.mem p'.memorySet.pageTable.rootPpn (va2vpn trapContext) =
    some p'.trapCxPpn
  frames : ∀ f ∈ p.frames, Taken sys'.phys.frames f → f ∈ p'.frames
  blocks : sys'.blocks = sys.blocks
  refs : SameRefs sys.entries sys'.entries
  same : p'.pid = p.pid ∧ p'.parent = p.parent ∧ p'.cwd = p.cwd ∧ p'.ofile = p.ofile

/-- What is wanted of a call. -/
def ExecLaws (p : ExecTask) (sys : ExecSystem) (path : List Byte) (p' : ExecTask)
    (sys' : ExecSystem) : Prop :=
  Failed fat p sys path p' sys' ∨ Replaced fat sym sstatus p sys path p' sys'

variable {fat sym sstatus}

/-- `eread` moves the position of the entry and changes nothing else of it. -/
theorem ereadLoop_keeps {data : Transfer} {n fuel off tot got : ℕ} {bytes : List Byte}
    {d d' : Disk} {entry entry' : Dirent}
    (hcall : ereadLoop fat data n fuel d entry off tot = some (got, bytes, d', entry')) :
    ∃ cur cnt, entry' = { entry with curClus := cur, clusCnt := cnt } := by
  induction fuel generalizing d d' entry entry' off tot got bytes with
  | zero =>
      simp only [ereadLoop, Option.some.injEq, Prod.mk.injEq] at hcall
      exact ⟨entry.curClus, entry.clusCnt, hcall.2.2.2.symm⟩
  | succ fuel ih =>
      rw [ereadLoop] at hcall
      split at hcall
      · obtain ⟨⟨off', d₁, entry₁⟩, hreloc, hcall⟩ := Option.bind_eq_some_iff.mp hcall
        obtain ⟨cur, cnt, rfl⟩ := relocClus_keeps hreloc
        obtain ⟨⟨m, part⟩, -, hcall⟩ := Option.bind_eq_some_iff.mp hcall
        dsimp only at hcall
        split at hcall
        · simp only [Option.pure_def, Option.some.injEq, Prod.mk.injEq] at hcall
          exact ⟨cur, cnt, hcall.2.2.2.symm⟩
        · obtain ⟨⟨tot', rest, d₂, entry₂⟩, hloop, hcall⟩ := Option.bind_eq_some_iff.mp hcall
          obtain ⟨cur', cnt', rfl⟩ := ih hloop
          simp only [Option.pure_def, Option.some.injEq, Prod.mk.injEq] at hcall
          exact ⟨cur', cnt', hcall.2.2.2.symm⟩
      · simp only [Option.some.injEq, Prod.mk.injEq] at hcall
        exact ⟨entry.curClus, entry.clusCnt, hcall.2.2.2.symm⟩

theorem eread_keeps {data : Transfer} {off n got : ℕ} {bytes : List Byte} {d d' : Disk}
    {entry entry' : Dirent} (hcall : eread fat d entry data off n = some (got, bytes, d', entry')) :
    ∃ cur cnt, entry' = { entry with curClus := cur, clusCnt := cnt } := by
  rw [eread] at hcall
  split at hcall
  · simp only [Option.some.injEq, Prod.mk.injEq] at hcall
    exact ⟨entry.curClus, entry.clusCnt, hcall.2.2.2.symm⟩
  · exact ereadLoop_keeps hcall

variable {buddyAlloc : ℕ → ℕ} {p p' : ExecTask} {sys sys' : ExecSystem} {path : List Byte}

/-- What a call that comes to its end leaves behind: `e` is held once more than `ename` found
it, and the size of the old image stays. -/
theorem execve_leaves (hcall : execve fat sym sstatus buddyAlloc p sys path = some (p', sys')) :
    p'.baseSize = p.baseSize ∧ ∃ e entries, sys.entries.ename fat p.cwd path = some (some e, entries) ∧
      ∀ i, sys'.entries.fs.handleCount i = entries.fs.handleCount i := by
  obtain ⟨⟨found, entries⟩, hname, hcall⟩ := Option.bind_eq_some_iff.mp hcall
  dsimp only at hcall
  obtain ⟨e, rfl, hrest⟩ := Option.bind_eq_some_iff.mp hcall
  split at hrest
  · exact absurd hrest.symm (Option.some_ne_none _)
  · obtain ⟨⟨got, bytes, disk, entry⟩, hread, hrest⟩ := Option.bind_eq_some_iff.mp hrest
    obtain ⟨⟨ms, userSp, entryPoint, s⟩, -, hrest⟩ := Option.bind_eq_some_iff.mp hrest
    obtain ⟨ppn, -, hrest⟩ := Option.bind_eq_some_iff.mp hrest
    simp only [Option.pure_def, Option.some.injEq, Prod.mk.injEq] at hrest
    obtain ⟨rfl, rfl⟩ := hrest
    obtain ⟨cur, cnt, rfl⟩ := eread_keeps hread
    refine ⟨rfl, e, entries, hname, fun i => ?_⟩
    have hkeeps : KeepsTree (fun _ => True) entries.fs ({ entries.fs with disk }.set e
        { entries.fs.ent e with curClus := cur, clusCnt := cnt }) :=
      .set (by rfl) (by rfl) (by rfl) fun _ => by rfl
    exact hkeeps.handleCount i

end ExecTask

open ExecTask

/-- Whatever the clients of the entry cache did before, `execve` of no path does what is
wanted. -/
theorem execve_never_right {fat : Fat32} {sym : KernelSymbols} {sstatus : Word}
    {buddyAlloc : ℕ → ℕ} {p : ExecTask} {sys : ExecSystem} {path : List Byte} {disk : Disk}
    {rootClus : ℕ} {ent : ℕ → Dirent} {ls : List (EntryOp × Option ℕ)} {handles : ℕ → ℕ}
    (hrun : Run (EntryRun.EntryStep fat) (EntryRun.start disk rootClus ent) ls
      ⟨sys.entries, handles⟩)
    (hcwd : p.cwd = 0 ∨ 1 ≤ handles p.cwd ∨ path.head? = some 0x2F) :
    ¬ ∃ p' sys', p.execve fat sym sstatus buddyAlloc sys path = some (p', sys') ∧
      ExecLaws fat sym sstatus p sys path p' sys' := by
  rintro ⟨p', sys', hcall, hlaws⟩
  obtain ⟨-, e, entries, hname, hsame⟩ := execve_leaves hcall
  have hrefs : SameRefs sys.entries sys'.entries := by
    rcases hlaws with hfailed | hreplaced
    · exact hfailed.refs
    · exact hreplaced.refs
  have hpermitted : EntryRun.Permitted ⟨sys.entries, handles⟩ (.ename p.cwd path) := by
    rcases hcwd with hroot | hheld | hhead
    · exact Or.inl (Or.inl hroot)
    · exact Or.inl (Or.inr hheld)
    · exact Or.inr hhead
  have hstep : EntryRun.EntryStep fat ⟨sys.entries, handles⟩ (.ename p.cwd path, some e)
      ⟨entries, gain handles (some e)⟩ := by
    refine ⟨hpermitted, ?_⟩
    rw [EntryRun.entryStep, hname]
    rfl
  have hgain : entries.fs.handleCount e = sys.entries.fs.handleCount e +
      EntryOp.change (.ename p.cwd path) (some e) e :=
    EntryRun.handleCount_step (EntryRun.cacheOk_of_run hrun) hstep e
  have hone : EntryOp.change (.ename p.cwd path) (some e) e = 1 := if_pos rfl
  have heq := hrefs e
  rw [hsame, hgain, hone] at heq
  omega

/-- A volume with the program `A` in its root directory: 124 bytes, of which the last four
are loaded to page 0x20. -/
def programData : Memory :=
  let data : Memory := fun a => if 1025 ≤ a ∧ a < 1035 then 0x20 else 0
  -- the FAT
  let data := store32 (store32 data 520 0x0FFFFFFF) 524 0x0FFFFFFF
  -- the slot of the file
  let data := LittleEndian.store data 1024 1 0x41
  let data := LittleEndian.store data 1035 1 0x20
  let data := LittleEndian.store data 1050 2 3
  let data := LittleEndian.store data 1052 4 124
  -- its headers
  let data := LittleEndian.store data (1536 + 32) 8 64
  let data := LittleEndian.store data (1536 + 56) 2 1
  let data := LittleEndian.store data (1536 + 64) 4 elfProgLoad
  let data := LittleEndian.store data (1536 + 68) 4 elfProgFlagRead
  let data := LittleEndian.store data (1536 + 72) 8 120
  let data := LittleEndian.store data (1536 + 80) 8 0x20000
  let data := LittleEndian.store data (1536 + 96) 8 4
  LittleEndian.store data (1536 + 104) 8 4

def programRun : EntryRun :=
  EntryRun.start ⟨programData, [], []⟩ 2 fun _ => ⟨fun _ => 0, 0, 0, 0, 0, 0, false, 0, 0, 0, 0⟩

/-- A task whose directory is the root. -/
def taskOf (p : TaskMemory) : ExecTask := ⟨p, 0, 0, fun _ => none⟩

/-- The call of `/B`, a file that is not there. -/
theorem execve_missing : ¬ ∃ p' sys', (taskOf ⟨0, ⟨⟨0, []⟩, [], []⟩, 0, 0⟩).execve EntryRun.emptyFat
      exampleSymbols 0 (fun _ => 0x80300000)
      ⟨⟨⟨0, []⟩, [], []⟩, freshPhysical, programRun.cache, []⟩ [0x2F, 0x42] = some (p', sys') ∧
    ExecLaws EntryRun.emptyFat exampleSymbols 0 (taskOf ⟨0, ⟨⟨0, []⟩, [], []⟩, 0, 0⟩)
      ⟨⟨⟨0, []⟩, [], []⟩, freshPhysical, programRun.cache, []⟩ [0x2F, 0x42] p' sys' := by
  have hrun : Run (EntryRun.EntryStep EntryRun.emptyFat) (EntryRun.start ⟨programData, [], []⟩ 2
      fun _ => ⟨fun _ => 0, 0, 0, 0, 0, 0, false, 0, 0, 0, 0⟩) []
      ⟨programRun.cache, programRun.handles⟩ := .done programRun
  exact execve_never_right hrun (Or.inl rfl)

/-- A task with `base_size` 0x15000 replaces its image by that of `/A`, the stack of which ends
at 0x25000. -/
theorem execve_keeps_base_size : ∃ pt s p sys p' sys', ptNew freshPhysical = some (pt, s) ∧
    TaskMemory.tcbNew exampleSymbols 0 (oneSegment 0x10000 4 4) (bareKernel pt s) =
      some (p, sys) ∧
    (taskOf p).execve EntryRun.emptyFat exampleSymbols 0 (fun _ => 0x80300000)
      ⟨sys.kernelSpace, sys.phys, programRun.cache, []⟩ [0x2F, 0x41] = some (p', sys') ∧
    p'.baseSize = 0x15000 ∧ (0x22, 0x25) ∈ p'.memorySet.areas.map (fun ma => (ma.vmStart, ma.vmEnd)) ∧
    ¬ ExecLaws EntryRun.emptyFat exampleSymbols 0 (taskOf p)
      ⟨sys.kernelSpace, sys.phys, programRun.cache, []⟩ [0x2F, 0x41] p' sys' := by
  have heval : ((ptNew freshPhysical).bind fun x =>
      (TaskMemory.tcbNew exampleSymbols 0 (oneSegment 0x10000 4 4) (bareKernel x.1 x.2)).bind
        fun y => ((taskOf y.1).execve EntryRun.emptyFat exampleSymbols 0 (fun _ => 0x80300000)
          ⟨y.2.kernelSpace, y.2.phys, programRun.cache, []⟩ [0x2F, 0x41]).map fun z =>
            (z.1.baseSize, z.1.memorySet.areas.map fun ma => (ma.vmStart, ma.vmEnd),
              z.2.entries.fs.handleCount 1)) =
        some (0x15000, [(0x20, 0x21), (0x22, 0x25), (2 ^ 52 - 2, 2 ^ 52 - 1)], 1) := by
    decide +kernel
  simp only [Option.bind_eq_some_iff, Option.map_eq_some_iff] at heval
  obtain ⟨⟨pt, s⟩, hpt, ⟨p, sys⟩, hnew, ⟨p', sys'⟩, hcall, heval⟩ := heval
  obtain ⟨hbase, heval⟩ := Prod.mk.inj heval
  obtain ⟨hareas, hcount⟩ := Prod.mk.inj heval
  refine ⟨pt, s, p, sys, p', sys', hpt, hnew, hcall, hbase, ?_, fun hlaws => ?_⟩
  · dsimp only at hareas
    rw [hareas]
    exact List.mem_cons_of_mem _ List.mem_cons_self
  · have hrefs : SameRefs programRun.cache sys'.entries := by
      rcases hlaws with hfailed | hreplaced
      · exact hfailed.refs
      · exact hreplaced.refs
    have hbefore : programRun.cache.fs.handleCount 1 = 0 := by decide
    have hsame := hrefs 1
    dsimp only at hcount
    rw [hcount, hbefore] at hsame
    exact absurd hsame (by decide)

end K210Os
