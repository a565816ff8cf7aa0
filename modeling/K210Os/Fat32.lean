import K210Os.Memory
import Mathlib.Algebra.Group.Nat.Hom

/-!
# FAT32: clusters and file contents

The FAT table, the allocation of clusters, and reading, writing and truncating the
contents of a directory entry. The buffer cache writes through, so a sector read is
the sector of the disk. Numbers are 32 bits wide; `none` is a panic.
-/

namespace K210Os

def bsize : ℕ := 512
def fat32Eoc : ℕ := 0x0FFFFFF8
def fat32Feoc : ℕ := 0x0FFFFFFF

def attrReadOnly : ℕ := 0x01
def attrDirectory : ℕ := 0x10

/-- The value -1 of a function that returns a 32-bit number. -/
def minusOne : ℕ := 2 ^ 32 - 1

/-- What the mounted volume keeps of its boot sector. -/
structure Fat32 where
  firstDataSec : ℕ
  dataClusCnt : ℕ
  bytsPerClus : ℕ
  bytsPerSec : ℕ
  secPerClus : ℕ
  rsvdSecCnt : ℕ
  totSec : ℕ
  fatSz : ℕ

/-- The bytes of the disk, sector after sector. Beside them stands what the functions
did so far, latest first: the sectors they wrote and the numbers that `alloc_clus`
returned. No function reads the two lists. -/
structure Disk where
  data : Memory
  written : List ℕ
  taken : List ℕ

def bread (d : Disk) (sectorno : ℕ) : Memory := fun k => d.data (bsize * sectorno + k)

def bwrite (d : Disk) (sectorno : ℕ) (buf : Memory) : Disk :=
  { d with
    data := copyBytes d.data (bsize * sectorno) buf bsize
    written := sectorno :: d.written }

def firstSecOfClus (fat : Fat32) (cluster : ℕ) : ℕ :=
  ((cluster + 2 ^ 32 - 2) % 2 ^ 32 * fat.secPerClus + fat.firstDataSec) % 2 ^ 32

def fatSecOfClus (fat : Fat32) (cluster fatNum : ℕ) : ℕ :=
  (fat.rsvdSecCnt + cluster * 4 % 2 ^ 32 / fat.bytsPerSec + fat.fatSz * (fatNum - 1)) % 2 ^ 32

def fatOffsetOfClus (fat : Fat32) (cluster : ℕ) : ℕ := cluster * 4 % 2 ^ 32 % fat.bytsPerSec

def readFat (fat : Fat32) (d : Disk) (cluster : ℕ) : ℕ :=
  if cluster ≥ fat32Eoc then cluster
  else if cluster > (fat.dataClusCnt + 1) % 2 ^ 32 then 0
  else load32 (bread d (fatSecOfClus fat cluster 1)) (fatOffsetOfClus fat cluster)

def writeFat (fat : Fat32) (d : Disk) (cluster content : ℕ) : Disk :=
  if cluster > (fat.dataClusCnt + 1) % 2 ^ 32 then d
  else
    let fatSec := fatSecOfClus fat cluster 1
    bwrite d fatSec (store32 (bread d fatSec) (fatOffsetOfClus fat cluster) content)

def zeroClusLoop : ℕ → Disk → ℕ → Disk
  | 0, d, _ => d
  | n + 1, d, sec =>
      zeroClusLoop n (bwrite d sec (memset (bread d sec) 0 0 bsize)) ((sec + 1) % 2 ^ 32)

def zeroClus (fat : Fat32) (d : Disk) (cluster : ℕ) : Disk :=
  zeroClusLoop fat.secPerClus d (firstSecOfClus fat cluster)

/-- The first of the `n` entries of a FAT sector that is zero. -/
def zeroEntry (buf : Memory) (n : ℕ) : Option ℕ :=
  (List.range n).find? fun j => load32 buf (4 * j) == 0

/-- The scan of `alloc_clus`, with `n` sectors of the FAT left from sector `i` on. -/
def allocClusLoop (fat : Fat32) (d : Disk) : ℕ → ℕ → ℕ × Disk
  | 0, _ => (1, d)
  | n + 1, i =>
      let sec := (fat.rsvdSecCnt + i) % 2 ^ 32
      let entPerSec := fat.bytsPerSec / 4
      match zeroEntry (bread d sec) entPerSec with
      | some j =>
          let clus := (i * entPerSec + j) % 2 ^ 32
          (clus, zeroClus fat (bwrite d sec (store32 (bread d sec) (4 * j) fat32Feoc)) clus)
      | none => allocClusLoop fat d n (i + 1)

def allocClus (fat : Fat32) (d : Disk) : ℕ × Disk :=
  let (clus, d) := allocClusLoop fat d fat.fatSz 0
  (clus, { d with taken := clus :: d.taken })

def freeClus (fat : Fat32) (d : Disk) (cluster : ℕ) : Disk := writeFat fat d cluster 0

/-- The other side of a transfer: the bytes there, and whether the copy of `m` bytes at
position `k` succeeds. -/
structure Transfer where
  byte : ℕ → Byte
  ok : ℕ → ℕ → Bool

/-- The rest of a transfer, from position `k` on. -/
def Transfer.drop (data : Transfer) (k : ℕ) : Transfer :=
  ⟨fun i => data.byte (k + i), fun i => data.ok (k + i)⟩

/-- How many bytes of `left` a round takes when a unit of `size` bytes is entered at
`off`. -/
def roundLen (size off left : ℕ) : ℕ :=
  let m := size - off % size
  if left < m then left else m

/-- The loop of `rw_clus` that writes. A copy that fails leaves its buffer unwritten. A
round takes at least one byte, so `n` rounds are enough. -/
def rwClusWriteLoop (data : Transfer) (n : ℕ) : ℕ → Disk → ℕ → ℕ → ℕ → ℕ × Disk
  | 0, d, _, _, tot => (tot, d)
  | fuel + 1, d, sec, off, tot =>
      if tot < n then
        let m := roundLen bsize off (n - tot)
        if data.ok tot m then
          let buf := copyBytes (bread d sec) (off % bsize) (fun k => data.byte (tot + k)) m
          rwClusWriteLoop data n fuel (bwrite d sec buf) ((sec + 1) % 2 ^ 32) (off + m) (tot + m)
        else (tot, d)
      else (tot, d)

/-- The loop of `rw_clus` that reads, with the bytes that it delivers. -/
def rwClusReadLoop (data : Transfer) (n : ℕ) (d : Disk) : ℕ → ℕ → ℕ → ℕ → ℕ × List Byte
  | 0, _, _, tot => (tot, [])
  | fuel + 1, sec, off, tot =>
      if tot < n then
        let m := roundLen bsize off (n - tot)
        if data.ok tot m then
          let bytes := (List.range m).map fun k => bread d sec (off % bsize + k)
          let (tot, rest) :=
            rwClusReadLoop data n d fuel ((sec + 1) % 2 ^ 32) (off + m) (tot + m)
          (tot, bytes ++ rest)
        else (tot, [])
      else (tot, [])

/-- The sector at which `rw_clus` begins. -/
def rwClusSec (fat : Fat32) (cluster off : ℕ) : ℕ :=
  (firstSecOfClus fat cluster + off / fat.bytsPerSec) % 2 ^ 32

def rwClusWrite (fat : Fat32) (d : Disk) (cluster : ℕ) (data : Transfer) (off n : ℕ) :
    Option (ℕ × Disk) :=
  if (off + n) % 2 ^ 32 > fat.bytsPerClus then none
  else some (rwClusWriteLoop data n n d (rwClusSec fat cluster off) (off % fat.bytsPerSec) 0)

def rwClusRead (fat : Fat32) (d : Disk) (cluster : ℕ) (data : Transfer) (off n : ℕ) :
    Option (ℕ × List Byte) :=
  if (off + n) % 2 ^ 32 > fat.bytsPerClus then none
  else some (rwClusReadLoop data n d n (rwClusSec fat cluster off) (off % fat.bytsPerSec) 0)

/-- A directory entry in the entry cache. `parent` is the number of its slot. -/
structure Dirent where
  filename : ℕ → Byte
  attr : ℕ
  firstClus : ℕ
  fileSize : ℕ
  curClus : ℕ
  clusCnt : ℕ
  dirty : Bool
  valid : ℤ
  ref : ℤ
  off : ℕ
  parent : ℕ

def Dirent.isDirectory (entry : Dirent) : Bool := entry.attr &&& attrDirectory != 0
def Dirent.isReadOnly (entry : Dirent) : Bool := entry.attr &&& attrReadOnly != 0

/-- The test `clus >= FAT32_EOC` of a signed `clus`. -/
def isEocSigned (clus : ℕ) : Bool := clus ≥ fat32Eoc && clus < 2 ^ 31

/-- The first loop of `reloc_clus`, with `n` clusters to go. `false` is its return of -1. -/
def relocForward (fat : Fat32) (alloc : Bool) : ℕ → Disk → Dirent → Bool × Disk × Dirent
  | 0, d, entry => (true, d, entry)
  | n + 1, d, entry =>
      let clus := readFat fat d entry.curClus
      if isEocSigned clus then
        if alloc then
          let (clus, d) := allocClus fat d
          let d := writeFat fat d entry.curClus clus
          relocForward fat alloc n d { entry with curClus := clus, clusCnt := entry.clusCnt + 1 }
        else (false, d, { entry with curClus := entry.firstClus, clusCnt := 0 })
      else relocForward fat alloc n d { entry with curClus := clus, clusCnt := entry.clusCnt + 1 }

/-- The second loop of `reloc_clus`, from the first cluster again. -/
def relocRewind (fat : Fat32) (d : Disk) : ℕ → ℕ → Option ℕ
  | 0, cur => some cur
  | n + 1, cur =>
      let cur := readFat fat d cur
      if cur ≥ fat32Eoc then none else relocRewind fat d n cur

def relocClus (fat : Fat32) (d : Disk) (entry : Dirent) (off : ℕ) (alloc : Bool) :
    Option (ℕ × Disk × Dirent) :=
  let clusNum := off / fat.bytsPerClus
  let (found, d, entry) := relocForward fat alloc (clusNum - entry.clusCnt) d entry
  if !found then some (minusOne, d, entry)
  else if clusNum < entry.clusCnt then
    (relocRewind fat d clusNum entry.firstClus).map fun cur =>
      (off % fat.bytsPerClus, d, { entry with curClus := cur, clusCnt := clusNum })
  else some (off % fat.bytsPerClus, d, entry)

/-- The loop of `eread`, with the bytes that it delivers. -/
def ereadLoop (fat : Fat32) (data : Transfer) (n : ℕ) :
    ℕ → Disk → Dirent → ℕ → ℕ → Option (ℕ × List Byte × Disk × Dirent)
  | 0, d, entry, _, tot => some (tot, [], d, entry)
  | fuel + 1, d, entry, off, tot =>
      if entry.curClus < fat32Eoc ∧ tot < n then do
        let (_, d, entry) ← relocClus fat d entry off false
        let m := roundLen fat.bytsPerClus off (n - tot)
        let (got, bytes) ←
          rwClusRead fat d entry.curClus (data.drop tot) (off % fat.bytsPerClus) m
        if got ≠ m then return (tot, bytes, d, entry)
        let (tot, rest, d, entry) ← ereadLoop fat data n fuel d entry (off + m) (tot + m)
        return (tot, bytes ++ rest, d, entry)
      else some (tot, [], d, entry)

def eread (fat : Fat32) (d : Disk) (entry : Dirent) (data : Transfer) (off n : ℕ) :
    Option (ℕ × List Byte × Disk × Dirent) :=
  if off > entry.fileSize ∨ (off + n) % 2 ^ 32 < off ∨ entry.isDirectory then
    some (0, [], d, entry)
  else
    let n := if off + n > entry.fileSize then entry.fileSize - off else n
    ereadLoop fat data n n d entry off 0

/-- The loop of `ewrite`; the last number is the offset where it ends. -/
def ewriteLoop (fat : Fat32) (data : Transfer) (n : ℕ) :
    ℕ → Disk → Dirent → ℕ → ℕ → Option (ℕ × Disk × Dirent × ℕ)
  | 0, d, entry, off, tot => some (tot, d, entry, off)
  | fuel + 1, d, entry, off, tot =>
      if tot < n then do
        let (_, d, entry) ← relocClus fat d entry off true
        let m := roundLen fat.bytsPerClus off (n - tot)
        let (put, d) ←
          rwClusWrite fat d entry.curClus (data.drop tot) (off % fat.bytsPerClus) m
        if put ≠ m then return (tot, d, entry, off)
        ewriteLoop fat data n fuel d entry (off + m) (tot + m)
      else some (tot, d, entry, off)

/-- The first cluster that `ewrite` gives to an empty file. -/
def ewriteFirst (fat : Fat32) (d : Disk) (entry : Dirent) : Disk × Dirent :=
  if entry.firstClus = 0 then
    let (clus, d) := allocClus fat d
    (d, { entry with firstClus := clus, curClus := clus, clusCnt := 0, dirty := true })
  else (d, entry)

def ewrite (fat : Fat32) (d : Disk) (entry : Dirent) (data : Transfer) (off n : ℕ) :
    Option (ℤ × Disk × Dirent) :=
  if off > entry.fileSize ∨ (off + n) % 2 ^ 32 < off ∨ off + n > 0xffffffff ∨
      entry.isReadOnly then some (-1, d, entry)
  else do
    let (d, entry) := ewriteFirst fat d entry
    let (tot, d, entry, off) ← ewriteLoop fat data n n d entry off 0
    let entry :=
      if n > 0 ∧ off > entry.fileSize then { entry with fileSize := off, dirty := true }
      else entry
    return (tot, d, entry)

/-- The loop of `etrunc`. A round that goes on clears an entry that was not zero, so it
ends before `n` runs out; `none` is a loop that has not ended. -/
def etruncLoop (fat : Fat32) : ℕ → Disk → ℕ → Option Disk
  | 0, _, _ => none
  | n + 1, d, clus =>
      if clus ≥ 2 ∧ clus < fat32Eoc then
        let next := readFat fat d clus
        etruncLoop fat n (freeClus fat d clus) next
      else some d

def etrunc (fat : Fat32) (d : Disk) (entry : Dirent) : Option (Disk × Dirent) :=
  (etruncLoop fat (fat.dataClusCnt + 3) d entry.firstClus).map fun d =>
    (d, { entry with fileSize := 0, firstClus := 0, dirty := true })

end K210Os
