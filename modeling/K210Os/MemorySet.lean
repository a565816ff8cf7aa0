import K210Os.UserCopy
import K210Os.Directory
import K210Os.FileTable
import K210Os.ProcessTree

/-!
# Address spaces

Map areas, the address space of a task and what builds or grows one: `from_elf`, `brk`,
`sys_mmap`, `mmap_handler`, and `from_existed_user` with the part of `fork` around it
that concerns memory. The lists of areas are lists, and what `buddy_alloc` delivers is
taken as given. `none` is a panic, a failed assertion or an access through an entry
that is not valid, where the kernel maps no memory.
-/

namespace K210Os

open FrameAllocator

def vmR : ℕ := 1 <<< 1
def vmW : ℕ := 1 <<< 2
def vmX : ℕ := 1 <<< 3
def vmU : ℕ := 1 <<< 4

def kernelStackSize : ℕ := 4096 * 4
def userStackSize : ℕ := 4096 * 2

inductive MapType where
  | identical
  | framed
  | empty
deriving DecidableEq

/-- `dataframe` is the list of page numbers and frames, in the order of `vpmap_push`. -/
structure MapArea where
  vmStart : ℕ
  vmEnd : ℕ
  mapType : MapType
  mapPerm : ℕ
  dataframe : List (ℕ × ℕ)

/-- A map area with the fields that `sys_mmap` sets. -/
structure MmapArea extends MapArea where
  length : ℕ
  off : ℕ
  f : Fin nfile
  flags : BitVec 32

structure MemorySet where
  pageTable : PageTable
  vma : List MmapArea
  areas : List MapArea

def maNew (startVa endVa : ℕ) (mapType : MapType) (mapPerm : ℕ) : MapArea :=
  ⟨vaFloor startVa, vaCeil endVa, mapType, mapPerm, []⟩

def fromAnother (a : MapArea) : MapArea := { a with dataframe := [] }

/-- The frame that `ma_map_one` maps a page to: for a framed area a cleared one. -/
def maFrame (self : MapArea) (s : Physical) (vpn : ℕ) : Option (ℕ × MapArea × Physical) :=
  match self.mapType with
  | .identical => some (vpn, self, s)
  | .framed =>
      (frameAlloc s.frames).map fun (frame, frames) =>
        (frame, { self with dataframe := self.dataframe ++ [(vpn, frame)] },
          ⟨memset s.mem (ppn2pa frame) 0 pageSize, frames⟩)
  | .empty => some (0, self, s)

def maMapOne (self : MapArea) (pt : PageTable) (s : Physical) (vpn : ℕ) :
    Option (MapArea × PageTable × Physical) := do
  let (ppn, self, s) ← maFrame self s vpn
  let (pt, s) ← map pt s vpn ppn self.mapPerm
  return (self, pt, s)

/-- The loop of `ma_map`, with `n` pages to go. -/
def maMapLoop : ℕ → ℕ → MapArea → PageTable → Physical → Option (MapArea × PageTable × Physical)
  | 0, _, self, pt, s => some (self, pt, s)
  | n + 1, vpn, self, pt, s => do
      let (self, pt, s) ← maMapOne self pt s vpn
      maMapLoop n (vpn + 1) self pt s

def maMap (self : MapArea) (pt : PageTable) (s : Physical) :
    Option (MapArea × PageTable × Physical) :=
  maMapLoop (self.vmEnd - self.vmStart) self.vmStart self pt s

/-- The frame in the entry that `find_pte` finds for a page. -/
def pteFrame (mem : Memory) (root vpn : ℕ) : Option ℕ := do
  let pte ← findPte mem root vpn
  if !pteIsValid (load64 mem pte) then none
  return pteGetPpn (load64 mem pte)

def msInit (s : Physical) : Option (MemorySet × Physical) :=
  (ptNew s).map fun (pt, s) => (⟨pt, [], []⟩, s)

/-- `strampoline` is the address of the trampoline code. -/
def msMapTrampoline (strampoline : ℕ) (self : MemorySet) (s : Physical) :
    Option (MemorySet × Physical) :=
  (map self.pageTable s (va2vpn trampoline) (pa2ppn strampoline) (pteR ||| pteX)).map
    fun (pt, s) => ({ self with pageTable := pt }, s)

/-- `memmove` of a page of `data` to a mapped page. -/
def pushPage (pt : PageTable) (s : Physical) (vpn : ℕ) (data : ℕ → Byte) : Option Physical :=
  (pteFrame s.mem pt.rootPpn vpn).map fun ppn =>
    { s with mem := copyBytes s.mem (ppn2pa ppn) data pageSize }

/-- The loop of `ms_push` that copies page after page. -/
def pushPages (pt : PageTable) (data : ℕ → Byte) : ℕ → ℕ → ℕ → Physical → Option Physical
  | 0, _, _, s => some s
  | n + 1, vpn, off, s => do
      let s ← pushPage pt s vpn fun k => data (off + k)
      pushPages pt data n (vpn + 1) (off + pageSize) s

/-- What `ms_push` copies to an area that is mapped. A size has 32 bits. -/
def pushData (pt : PageTable) (mapArea : MapArea) (data : Option (ℕ → Byte)) (size : ℕ)
    (s : Physical) : Option Physical :=
  match data with
  | none => some s
  | some data =>
      if size % 2 ^ 32 < pageSize then pushPage pt s mapArea.vmStart data
      else pushPages pt data (mapArea.vmEnd - mapArea.vmStart) mapArea.vmStart 0 s

def msPush (self : MemorySet) (s : Physical) (mapArea : MapArea) (data : Option (ℕ → Byte))
    (size : ℕ) : Option (MemorySet × Physical) := do
  let (mapArea, pt, s) ← maMap mapArea self.pageTable s
  let s ← pushData pt mapArea data size s
  return ({ self with pageTable := pt, areas := self.areas ++ [mapArea] }, s)

def insertFramedArea (self : MemorySet) (s : Physical) (startVa endVa perm : ℕ) :
    Option (MemorySet × Physical) :=
  msPush self s (maNew startVa endVa .framed perm) none 0

/-! ## Loading a program -/

def elfProgLoad : ℕ := 1
def elfProgFlagExec : ℕ := 1
def elfProgFlagWrite : ℕ := 2
def elfProgFlagRead : ℕ := 4

/-- `struct proghdr`, less the fields that are only printed. -/
structure Proghdr where
  type : ℕ
  flags : ℕ
  off : ℕ
  vaddr : ℕ
  filesz : ℕ
  memsz : ℕ
deriving DecidableEq

/-- `image` are the bytes from `elf_data` on, those behind the buffer too. -/
def readProghdr (image : ℕ → Byte) (off : ℕ) : Proghdr where
  type := LittleEndian.load image off 4
  flags := LittleEndian.load image (off + 4) 4
  off := LittleEndian.load image (off + 8) 8
  vaddr := LittleEndian.load image (off + 16) 8
  filesz := LittleEndian.load image (off + 32) 8
  memsz := LittleEndian.load image (off + 40) 8

def elfEntry (image : ℕ → Byte) : ℕ := LittleEndian.load image 24 8
def elfPhoff (image : ℕ → Byte) : ℕ := LittleEndian.load image 32 8
def elfPhnum (image : ℕ → Byte) : ℕ := LittleEndian.load image 56 2

/-- The program headers, in the order of the loop of `from_elf`. -/
def proghdrs (image : ℕ → Byte) : List Proghdr :=
  (List.range (elfPhnum image)).map fun i => readProghdr image ((elfPhoff image + 56 * i) % 2 ^ 64)

def elfPerm (ph : Proghdr) : ℕ :=
  let perm := vmU
  let perm := if ph.flags &&& elfProgFlagExec ≠ 0 then perm ||| vmX else perm
  let perm := if ph.flags &&& elfProgFlagRead ≠ 0 then perm ||| vmR else perm
  if ph.flags &&& elfProgFlagWrite ≠ 0 then perm ||| vmW else perm

def elfArea (ph : Proghdr) : MapArea :=
  maNew ph.vaddr ((ph.vaddr + ph.memsz) % 2 ^ 64) .framed (elfPerm ph)

/-- The loop of `from_elf`; the first number is `max_end_vpn`. -/
def fromElfLoop (image : ℕ → Byte) :
    List Proghdr → ℕ → MemorySet → Physical → Option (ℕ × MemorySet × Physical)
  | [], maxEndVpn, ms, s => some (maxEndVpn, ms, s)
  | ph :: phs, maxEndVpn, ms, s =>
      if ph.type = elfProgLoad then
        if ph.memsz < ph.filesz then none
        else do
          let ma := elfArea ph
          let (ms, s) ← msPush ms s ma (some fun k => image (ph.off + k)) ph.filesz
          fromElfLoop image phs ma.vmEnd ms s
      else fromElfLoop image phs maxEndVpn ms s

def userStackBottom (maxEndVpn : ℕ) : ℕ := (vpn2va maxEndVpn + pageSize) % 2 ^ 64

def userStackTop (maxEndVpn : ℕ) : ℕ := (userStackBottom maxEndVpn + userStackSize) % 2 ^ 64

def stackArea (maxEndVpn : ℕ) : MapArea :=
  maNew (userStackBottom maxEndVpn) ((userStackTop maxEndVpn + pageSize) % 2 ^ 64) .framed
    (vmR ||| vmW ||| vmU)

def trapArea : MapArea := maNew trapContext trampoline .framed (vmR ||| vmW)

/-- The numbers are `*usp` and `*entry`. -/
def fromElf (strampoline : ℕ) (image : ℕ → Byte) (s : Physical) :
    Option (MemorySet × ℕ × ℕ × Physical) := do
  let (ms, s) ← msInit s
  let (ms, s) ← msMapTrampoline strampoline ms s
  let (maxEndVpn, ms, s) ← fromElfLoop image (proghdrs image) 0 ms s
  let (ms, s) ← msPush ms s (stackArea maxEndVpn) none 0
  let (ms, s) ← msPush ms s trapArea none 0
  return (ms, userStackTop maxEndVpn, elfEntry image, s)

/-! ## Memory mapped on demand -/

def MmapArea.contains (t : MmapArea) (va : ℕ) : Bool :=
  va ≥ vpn2va t.vmStart && va < vpn2va t.vmEnd

/-- The value that `mmap_handler` returns for a cause that the area does not allow. -/
def MmapArea.refuses (t : MmapArea) (scause : ℕ) : Option ℤ :=
  if (scause = 13 ∨ scause = 5) ∧ t.mapPerm &&& pteR = 0 then some (-2)
  else if (scause = 15 ∨ scause = 7) ∧ t.mapPerm &&& pteW = 0 then some (-3)
  else none

/-- `eread` of a page of the file of an area, to kernel memory. -/
def ereadPage (fat : Fat32) (file : Fin nfile → File) (fs : FileSystem) (t : MmapArea) (va : ℕ) :
    Option (List Byte × FileSystem) :=
  let ep := (file t.f).ep
  let off := (t.off + va + 2 ^ 64 - vpn2va t.vmStart) % 2 ^ 32
  (eread fat fs.disk (fs.ent ep) ⟨fun _ => 0, fun _ _ => true⟩ off pageSize).map
    fun (_, bytes, d, e) => (bytes, { fs.set ep e with disk := d })

/-- `mmap_handler` from the area on that it finds. -/
def mmapPage (fat : Fat32) (file : Fin nfile → File) (t : MmapArea) (pt : PageTable)
    (s : Physical) (fs : FileSystem) (va : ℕ) :
    Option (MmapArea × PageTable × Physical × FileSystem) := do
  let (ma, pt, s) ← maMapOne t.toMapArea pt s (va2vpn va)
  let ppn ← pteFrame s.mem pt.rootPpn (va2vpn va)
  let (bytes, fs) ← ereadPage fat file fs t va
  let s := { s with mem := copyBytes s.mem (ppn2pa ppn) (fun k => bytes.getD k 0) bytes.length }
  return ({ t with toMapArea := ma }, pt, s, fs)

def mmapHandler (fat : Fat32) (file : Fin nfile → File) (ms : MemorySet) (s : Physical)
    (fs : FileSystem) (va scause : ℕ) : Option (ℤ × MemorySet × Physical × FileSystem) :=
  match ms.vma.span fun t => !t.contains va with
  | (_, []) => some (-1, ms, s, fs)
  | (before, t :: after) =>
      match t.refuses scause with
      | some code => some (code, ms, s, fs)
      | none =>
          (mmapPage fat file t ms.pageTable s fs va).map fun (t, pt, s, fs) =>
            (0, { ms with pageTable := pt, vma := before ++ t :: after }, s, fs)

/-! ## Tasks -/

/-- The fields of a task control block that concern memory. -/
structure TaskMemory where
  pid : BitVec 64
  memorySet : MemorySet
  baseSize : ℕ
  trapCxPpn : ℕ

/-- A number below zero does not occur, `n` is unsigned. -/
def TaskMemory.brk (p : TaskMemory) (s : Physical) (n : ℕ) : Option (TaskMemory × Physical) :=
  let newsize := p.baseSize
  let size := (newsize + n) % 2 ^ 64
  if n > 0 then
    if vaCeil newsize = vaCeil size then some ({ p with baseSize := size }, s)
    else
      (msPush p.memorySet s (maNew newsize size .framed (vmR ||| vmU ||| vmX ||| vmW)) none 0).map
        fun (ms, s) => ({ p with memorySet := ms, baseSize := size }, s)
  else some ({ p with baseSize := size }, s)

/-- The copy of the pages of one area in `from_existed_user`. -/
def copyPages (src dst : PageTable) : ℕ → ℕ → Physical → Option Physical
  | 0, _, s => some s
  | n + 1, vpn, s => do
      let srcPpn ← pteFrame s.mem src.rootPpn vpn
      let s ← pushPage dst s vpn fun k => s.mem (ppn2pa srcPpn + k)
      copyPages src dst n (vpn + 1) s

def fromExistedUserLoop (src : PageTable) :
    List MapArea → MemorySet → Physical → Option (MemorySet × Physical)
  | [], ms, s => some (ms, s)
  | ma :: mas, ms, s => do
      let (ms, s) ← msPush ms s (fromAnother ma) none 0
      let s ← copyPages src ms.pageTable (ma.vmEnd - ma.vmStart) ma.vmStart s
      fromExistedUserLoop src mas ms s

def fromExistedUser (strampoline : ℕ) (a : MemorySet) (s : Physical) :
    Option (MemorySet × Physical) := do
  let (ms, s) ← msInit s
  let (ms, s) ← msMapTrampoline strampoline ms s
  fromExistedUserLoop a.pageTable a.areas ms s

def ksGetTop (pid : ℕ) : ℕ :=
  (trapContext + 2 ^ 64 - pid * (kernelStackSize + pageSize) % 2 ^ 64) % 2 ^ 64

def ksNew (kernelSpace : MemorySet) (s : Physical) (pid : ℕ) : Option (MemorySet × Physical) :=
  let top := ksGetTop pid
  insertFramedArea kernelSpace s ((top + 2 ^ 64 - kernelStackSize) % 2 ^ 64) top (vmR ||| vmW)

def taskContextSize : ℕ := 104

/-- Where `kernel_sp` and `gr.a0` lie in `struct context`. -/
def contextKernelSp : ℕ := 296
def contextA0 : ℕ := 80

/-- `memmove` of a task context with return address `ra` to the end of a kernel stack,
through the page table of the kernel. -/
def pushTaskContext (root : ℕ) (s : Physical) (kernelStackTop ra : ℕ) : Option Physical :=
  let dst := (kernelStackTop + 2 ^ 64 - taskContextSize) % 2 ^ 64
  (pteFrame s.mem root (va2vpn dst)).map fun ppn =>
    let taskCx := LittleEndian.store (fun _ => 0) 0 8 ra
    { s with mem := copyBytes s.mem (ppn2pa ppn + getOffset dst) taskCx taskContextSize }

/-- The memory of a system in which a task forks. -/
structure ForkState where
  kernelSpace : MemorySet
  pids : PidAllocator
  phys : Physical

/-- `eReturn` is the address of `e_return`. -/
def TaskMemory.fork (strampoline eReturn : ℕ) (parent : TaskMemory) (sys : ForkState) :
    Option (TaskMemory × ForkState) := do
  let (ms, s) ← fromExistedUser strampoline parent.memorySet sys.phys
  let trapCxPpn ← pteFrame s.mem ms.pageTable.rootPpn (va2vpn trapContext)
  let (pid, pids) := sys.pids.pidAlloc
  let (kernelSpace, s) ← ksNew sys.kernelSpace s pid.toNat
  let kernelStackTop := ksGetTop pid.toNat
  let s ← pushTaskContext kernelSpace.pageTable.rootPpn s kernelStackTop eReturn
  let mem := store64 s.mem (ppn2pa trapCxPpn + contextKernelSp) kernelStackTop
  return (⟨pid, ms, parent.baseSize, trapCxPpn⟩, ⟨kernelSpace, pids, { s with mem }⟩)

/-- The new task and the value returned to the parent. -/
def TaskMemory.sysFork (strampoline eReturn : ℕ) (p : TaskMemory) (sys : ForkState) :
    Option (BitVec 64 × TaskMemory × ForkState) :=
  (p.fork strampoline eReturn sys).map fun (newT, sys) =>
    let mem := store64 sys.phys.mem (ppn2pa newT.trapCxPpn + contextA0) 0
    (newT.pid, newT, { sys with phys := { sys.phys with mem } })

end K210Os
