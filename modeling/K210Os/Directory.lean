import K210Os.Fat32
import Mathlib.Data.List.DropRight
import Mathlib.Logic.Function.Basic

/-!
# FAT32: directories and the entry cache

A directory is a file of slots of 32 bytes. A name takes long-name slots, the last
part first, and a short-name slot behind them. `enext` reads the next name, `emake`
writes one, and `dirlookup`, `ealloc`, `eupdate` and `eremove` work on top of them.
Locks are left out: the calls are sequential. `none` is a panic, a store through a
null pointer or outside a name, or a loop that has not ended.
-/

namespace K210Os

def fat32MaxFilename : ℕ := 255
def charShortName : ℕ := 11
def charLongName : ℕ := 13

def attrArchive : ℕ := 0x20
def attrLongName : ℕ := 0x0F
def lastLongEntry : ℕ := 0x40
def emptyEntry : ℕ := 0xe5
def endOfEntry : ℕ := 0x00

/-- `entcnt & ~LAST_LONG_ENTRY` of a byte. -/
def dropLast (order : ℕ) : ℕ := order &&& 0xBF

/-! ## Strings -/

/-- A string that ends in a zero byte, in memory. -/
def cstring (s : List Byte) : ℕ → Byte := fun k => s.getD k 0

/-- Whether `strncmp` returns 0, with `n` bytes to go from byte `i` on. -/
def strncmpEq (p q : ℕ → Byte) : ℕ → ℕ → Bool
  | 0, _ => true
  | n + 1, i => if p i ≠ 0 ∧ p i = q i then strncmpEq p q n (i + 1) else p i == q i

/-- The length of the string in a filename; byte 255 is always zero. -/
def strlen (s : ℕ → Byte) : ℕ := ((List.range (fat32MaxFilename + 1)).find? (s · == 0)).getD 256

/-- The `n` bytes that `strncpy` stores, from byte `i` of its source on. -/
def strncpy (src : ℕ → Byte) : ℕ → ℕ → List Byte
  | 0, _ => []
  | n + 1, i =>
      if src i = 0 then List.replicate (n + 1) 0 else src i :: strncpy src n (i + 1)

/-- Trims blanks and leading dots, and tests legality. -/
def formatname (name : List Byte) : Option (List Byte) :=
  let illegal : List Byte := [0x22, 0x2A, 0x2F, 0x3A, 0x3C, 0x3E, 0x3F, 0x5C, 0x7C]
  let name := name.dropWhile fun c => c == 0x20 || c == 0x2E
  if name.any fun c => c < 0x20 || illegal.contains c then none
  else some (name.rdropWhile fun c => c == 0x20)

/-- `generate_shortname`'s mapping of a character. -/
def shortChar (c : Byte) : Byte :=
  let illegal : List Byte := [0x2B, 0x2C, 0x3B, 0x3D, 0x5B, 0x5D]
  if 0x61 ≤ c ∧ c ≤ 0x7A then c - 0x20 else if illegal.contains c then 0x5F else c

/-- The position of the last dot of a name, its start if there is none. -/
def lastDot (name : List Byte) : ℕ :=
  ((List.range name.length).reverse.find? fun j => name.getD j 0 == 0x2E).getD 0

/-- The first loop of `generate_shortname`, at position `pos` of the name with `i` bytes
stored. `p` is the pointer to the last dot, `none` once it was passed. Every round moves
forward in the name. -/
def shortnameLoop (name : List Byte) :
    ℕ → ℕ → ℕ → Option ℕ → (ℕ → Byte) → ℕ × (ℕ → Byte)
  | 0, _, i, _, shortname => (i, shortname)
  | fuel + 1, pos, i, p, shortname =>
      let c := name.getD pos 0
      if i < charShortName ∧ c ≠ 0 then
        match (if i = 8 then p else none) with
        | some dot =>
            if dot < pos then (i, shortname)
            else shortnameLoop name fuel (dot + 1) i none shortname
        | none =>
            if c = 0x20 then shortnameLoop name fuel (pos + 1) i p shortname
            else if c = 0x2E then
              if p.getD 0 ≤ pos then
                shortnameLoop name fuel (pos + 1) 8 none
                  fun k => if i ≤ k ∧ k < 8 then 0x20 else shortname k
              else shortnameLoop name fuel (pos + 1) i p shortname
            else shortnameLoop name fuel (pos + 1) (i + 1) p
              (Function.update shortname i (shortChar c))
      else (i, shortname)

def generateShortname (name : List Byte) : List Byte :=
  let (i, shortname) :=
    shortnameLoop name (name.length + 1) 0 0 (some (lastDot name)) fun _ => 0
  (List.range charShortName).map fun k => if i ≤ k then 0x20 else shortname k

def calChecksum (shortname : List Byte) : Byte :=
  shortname.foldl (fun sum c => (if sum &&& 1 ≠ 0 then 0x80 else 0) + (sum >>> 1) + c) 0

/-! ## Slots -/

/-- The bytes of a slot. A short-name slot has the name in bytes 0 to 10; a long-name slot
has its order in byte 0 and 13 characters in three places. Both have the attribute in
byte 11. -/
abbrev Dentry := List Byte

def Dentry.byte (de : Dentry) (k : ℕ) : Byte := de.getD k 0

def Dentry.value (de : Dentry) (k n : ℕ) : ℕ := LittleEndian.load de.byte k n

/-- The bytes of a little-endian value. -/
def leBytes (n v : ℕ) : List Byte := (List.range n).map fun k => BitVec.ofNat 8 (v / 256 ^ k)

def shortDentry (name : List Byte) (attr firstClus fileSize : ℕ) : Dentry :=
  name ++ [BitVec.ofNat 8 attr] ++ List.replicate 8 (0 : Byte) ++ leBytes 2 (firstClus >>> 16) ++
    List.replicate 4 (0 : Byte) ++ leBytes 2 firstClus ++ leBytes 4 fileSize

/-- The characters of a long-name slot, each in two bytes: the characters of the name up to
its zero byte, and 0xff behind it. -/
def longChars (p : ℕ → Byte) : ℕ → ℕ → Bool → List (List Byte)
  | 0, _, _ => []
  | n + 1, j, ended =>
      if ended then [0xff, 0xff] :: longChars p n (j + 1) true
      else [p j, 0] :: longChars p n (j + 1) (p j == 0)

def longDentry (order : ℕ) (checksum : Byte) (p : ℕ → Byte) : Dentry :=
  let chars := longChars p charLongName 0 false
  [BitVec.ofNat 8 order] ++ (chars.take 5).flatten ++ [BitVec.ofNat 8 attrLongName, 0, checksum] ++
    ((chars.drop 5).take 6).flatten ++ [0, 0] ++ (chars.drop 11).flatten

/-- A slot with the two fields that `eupdate` sets. -/
def Dentry.withFields (de : Dentry) (firstClus fileSize : ℕ) : Dentry :=
  de.take 20 ++ leBytes 2 (firstClus >>> 16) ++ (de.drop 22).take 4 ++ leBytes 2 firstClus ++
    leBytes 4 fileSize

/-- `snstr` of `len` characters, from character `i` on. It stores one zero byte less than
there is room. -/
def snstr (dst : ℕ → Byte) (base : ℕ) (src : ℕ → ℕ) : ℕ → ℕ → (ℕ → Byte)
  | 0, _ => dst
  | len + 1, i =>
      if src i = 0 then memset dst (base + i) 0 len
      else snstr (Function.update dst (base + i) (BitVec.ofNat 8 (src i))) base src len (i + 1)

/-- The bytes of a short name, with a dot before its extension. -/
def shortNameBytes (d : Dentry) : List Byte :=
  (((List.range 8).map d.byte).takeWhile (· != 0x20)) ++
    (if d.byte 8 = 0x20 then [] else [0x2E]) ++
    (((List.range 3).map fun k => d.byte (8 + k)).takeWhile (· != 0x20))

def readEntryName (buffer : ℕ → Byte) (base : ℕ) (d : Dentry) : ℕ → Byte :=
  if (d.byte 11).toNat = attrLongName then
    let buffer := snstr buffer base (fun k => d.value (1 + 2 * k) 2) 5 0
    let buffer := snstr buffer (base + 5) (fun k => d.value (14 + 2 * k) 2) 6 0
    snstr buffer (base + 11) (fun k => d.value (28 + 2 * k) 2) 2 0
  else
    let name := shortNameBytes d
    copyBytes (memset buffer base 0 (charShortName + 2)) base (cstring name) name.length

def readEntryInfo (entry : Dirent) (d : Dentry) : Dirent :=
  let firstClus := d.value 20 2 <<< 16 ||| d.value 26 2
  { entry with
    attr := (d.byte 11).toNat
    firstClus := firstClus
    fileSize := d.value 28 4
    curClus := firstClus
    clusCnt := 0 }

/-! ## The entry cache -/

/-- The disk, the entries by their number, 0 for `root`, and the list of the others, the
most recently used first. -/
structure FileSystem where
  disk : Disk
  ent : ℕ → Dirent
  lru : List ℕ

def FileSystem.set (fs : FileSystem) (i : ℕ) (entry : Dirent) : FileSystem :=
  { fs with ent := Function.update fs.ent i entry }

@[simp] theorem FileSystem.set_disk (fs : FileSystem) (i : ℕ) (entry : Dirent) :
    (fs.set i entry).disk = fs.disk := rfl

@[simp] theorem FileSystem.set_ent_self (fs : FileSystem) (i : ℕ) (entry : Dirent) :
    (fs.set i entry).ent i = entry := Function.update_self _ _ _

theorem FileSystem.set_ent_of_ne (fs : FileSystem) {i j : ℕ} (entry : Dirent) (h : j ≠ i) :
    (fs.set i entry).ent j = fs.ent j := Function.update_of_ne h _ _

@[simp] theorem FileSystem.set_set (fs : FileSystem) (i : ℕ) (a b : Dirent) :
    (fs.set i a).set i b = fs.set i b := by
  simp [FileSystem.set]

/-- Copies between kernel buffers: they do not fail. -/
def kernelCopy (bytes : Dentry) : Transfer := ⟨bytes.byte, fun _ _ => true⟩

def edup (fs : FileSystem) (i : ℕ) : FileSystem :=
  fs.set i { fs.ent i with ref := (fs.ent i).ref + 1 }

/-- Whether entry `i` is the valid entry of that name in the directory. -/
def egetHit (fs : FileSystem) (parent : ℕ) (name : List Byte) (i : ℕ) : Bool :=
  (fs.ent i).valid == 1 && (fs.ent i).parent == parent &&
    strncmpEq (fs.ent i).filename (cstring name) fat32MaxFilename 0

def eget (fs : FileSystem) (parent : ℕ) (name : List Byte) : Option (ℕ × FileSystem) :=
  match fs.lru.find? (egetHit fs parent name) with
  | some i =>
      let hit := edup fs i
      some (i, if (fs.ent i).ref = 0 then edup hit (hit.ent i).parent else hit)
  | none =>
      (fs.lru.reverse.find? fun i => (fs.ent i).ref == 0).map fun i =>
        (i, fs.set i { fs.ent i with ref := 1, off := 0, valid := 0, dirty := false })

/-- `reloc_clus` of the entry with number `i`. -/
def relocEnt (fat : Fat32) (fs : FileSystem) (i off : ℕ) (alloc : Bool) :
    Option (ℕ × FileSystem) :=
  (relocClus fat fs.disk (fs.ent i) off alloc).map fun (off, d, entry) =>
    (off, { fs with disk := d }.set i entry)

def eupdate (fat : Fat32) (fs : FileSystem) (i : ℕ) : Option FileSystem :=
  let entry := fs.ent i
  if !entry.dirty ∨ entry.valid ≠ 1 then some fs
  else do
    let (off, fs) ← relocEnt fat fs entry.parent entry.off false
    let (_, order) ← rwClusRead fat fs.disk (fs.ent entry.parent).curClus (kernelCopy []) off 1
    let entcnt := dropLast (Dentry.byte order 0).toNat
    let (off, fs) ← relocEnt fat fs entry.parent ((entry.off + entcnt <<< 5) % 2 ^ 32) false
    let (_, de) ← rwClusRead fat fs.disk (fs.ent entry.parent).curClus (kernelCopy []) off 32
    let de := Dentry.withFields de entry.firstClus entry.fileSize
    let (_, d) ← rwClusWrite fat fs.disk (fs.ent entry.parent).curClus (kernelCopy de) off 32
    return { fs with disk := d }.set i { fs.ent i with dirty := false }

/-- The loop of `eremove` with `n` slots to go. -/
def eremoveLoop (fat : Fat32) (parent : ℕ) :
    ℕ → FileSystem → ℕ → ℕ → Option FileSystem
  | 0, fs, _, _ => some fs
  | n + 1, fs, off, off2 => do
      let (_, d) ← rwClusWrite fat fs.disk (fs.ent parent).curClus
        (kernelCopy [BitVec.ofNat 8 emptyEntry]) off2 1
      let off := (off + 32) % 2 ^ 32
      let (off2, fs) ← relocEnt fat { fs with disk := d } parent off false
      eremoveLoop fat parent n fs off off2

def eremove (fat : Fat32) (fs : FileSystem) (i : ℕ) : Option FileSystem :=
  let entry := fs.ent i
  if entry.valid ≠ 1 then some fs
  else do
    let (off2, fs) ← relocEnt fat fs entry.parent entry.off false
    let (_, order) ← rwClusRead fat fs.disk (fs.ent entry.parent).curClus (kernelCopy []) off2 1
    let entcnt := dropLast (Dentry.byte order 0).toNat
    let fs ← eremoveLoop fat entry.parent (entcnt + 1) fs entry.off off2
    return fs.set i { fs.ent i with valid := -1 }

def edrop (fs : FileSystem) (i : ℕ) : FileSystem :=
  fs.set i { fs.ent i with ref := (fs.ent i).ref - 1 }

/-- `eput`; dropping the last reference of an entry goes on to its parent. -/
def eput (fat : Fat32) : ℕ → FileSystem → ℕ → Option FileSystem
  | 0, _, _ => none
  | fuel + 1, fs, i =>
      let entry := fs.ent i
      if i ≠ 0 ∧ entry.valid ≠ 0 ∧ entry.ref = 1 then do
        let fs := { fs with lru := i :: fs.lru.erase i }
        let fs ←
          if entry.valid = -1 then
            (etrunc fat fs.disk entry).map fun (d, entry) => { fs with disk := d }.set i entry
          else if (fs.ent entry.parent).ref < 1 then none
          else eupdate fat fs i
        let fs := edrop fs i
        if (fs.ent i).ref = 0 then eput fat fuel fs entry.parent else some fs
      else some (edrop fs i)

/-- More than the number of entries. -/
def eputFuel : ℕ := 64

/-! ## Reading a directory -/

/-- What the loop of `enext` keeps: the name read so far, the empty slots met, the value at
`count`, and whether `count` is not yet null. -/
structure Enext where
  filename : ℕ → Byte
  cnt : ℕ
  count : ℕ
  counting : Bool

inductive EnextNext
  | more (s : Enext)
  | done (code : ℤ) (s : Enext) (info : Option Dentry)

/-- One round of `enext` on a slot. The part of a name with order `lcnt` lies inside the
name or its padding only for 1 to 20. -/
def enextSlot (de : Dentry) (s : Enext) : Option EnextNext :=
  let order := (de.byte 0).toNat
  if order = endOfEntry then some (.done (-1) s none)
  else if order = emptyEntry then some (.more { s with cnt := s.cnt + 1 })
  else if s.cnt ≠ 0 then
    if s.counting then some (.done 0 { s with count := s.cnt } none) else none
  else if (de.byte 11).toNat = attrLongName then
    let lcnt := dropLast order
    if lcnt = 0 ∨ lcnt > 20 then none
    else
      let filename := readEntryName s.filename ((lcnt - 1) * charLongName) de
      if order &&& lastLongEntry = 0 then some (.more { s with filename := filename })
      else if s.counting then
        some (.more { s with filename := filename, count := lcnt + 1, counting := false })
      else none
  else if s.counting then
    some (.done 1 { s with filename := readEntryName s.filename 0 de, count := 1 } (some de))
  else some (.done 1 s (some de))

/-- More than the number of slots at offsets of 32 bits. -/
def slotFuel : ℕ := 2 ^ 27 + 1

def enextLoop (fat : Fat32) (dp : ℕ) :
    ℕ → FileSystem → ℕ → Enext → Option (ℤ × Enext × Option Dentry × FileSystem)
  | 0, _, _, _ => none
  | fuel + 1, fs, off, s => do
      let (off2, fs) ← relocEnt fat fs dp off false
      if off2 = minusOne then return (-1, s, none, fs)
      let (got, de) ← rwClusRead fat fs.disk (fs.ent dp).curClus (kernelCopy []) off2 32
      if got ≠ 32 then return (-1, s, none, fs)
      match ← enextSlot de s with
      | .more s => enextLoop fat dp fuel fs ((off + 32) % 2 ^ 32) s
      | .done code s info => return (code, s, info, fs)

/-- `enext` with its result and the value at `count`. -/
def enext (fat : Fat32) (fs : FileSystem) (dp ep off count : ℕ) : Option (ℤ × ℕ × FileSystem) :=
  if !(fs.ent dp).isDirectory ∨ (fs.ent ep).valid ≠ 0 ∨ off % 32 ≠ 0 then none
  else if (fs.ent dp).valid ≠ 1 then some (-1, count, fs)
  else do
    let filename := memset (fs.ent ep).filename 0 0 (fat32MaxFilename + 1)
    let (code, s, info, fs) ← enextLoop fat dp slotFuel fs off ⟨filename, 0, count, true⟩
    let entry := { fs.ent ep with filename := s.filename }
    return (code, s.count, fs.set ep (info.elim entry (readEntryInfo entry)))

/-- How many long-name slots a name takes. -/
def longSlots (len : ℕ) : ℕ := (len + charLongName - 1) / charLongName

/-- The loop of `dirlookup`. `poff` says whether the pointer is not null, and `stored` is
what was stored there. `type` is 1 in every round, by the precedence of `=` and `!=`. -/
def dirlookupLoop (fat : Fat32) (filename : List Byte) (dp ep : ℕ) :
    ℕ → FileSystem → ℕ → ℕ → Bool → Option ℕ → Option (Option ℕ × Option ℕ × FileSystem)
  | 0, _, _, _, _, _ => none
  | fuel + 1, fs, off, count, poff, stored => do
      let (code, count, fs) ← enext fat fs dp ep off count
      let type := if code ≠ -1 then 1 else 0
      if type ≠ 0 then
        let next := (off + count <<< 5) % 2 ^ 32
        if type = 0 then
          if poff ∧ count ≥ longSlots filename.length + 1 then
            dirlookupLoop fat filename dp ep fuel fs next count false (some off)
          else dirlookupLoop fat filename dp ep fuel fs next count poff stored
        else if strncmpEq (cstring filename) (fs.ent ep).filename fat32MaxFilename 0 then
          let fs := edup fs dp
          return (some ep, stored, fs.set ep { fs.ent ep with parent := dp, off := off, valid := 1 })
        else dirlookupLoop fat filename dp ep fuel fs next count poff stored
      else
        let fs ← eput fat eputFuel fs ep
        return (none, if poff then some off else stored, fs)

/-- `dirlookup` with the entry that it returns and what it stores through `poff`. -/
def dirlookup (fat : Fat32) (fs : FileSystem) (dp : ℕ) (filename : List Byte) (poff : Bool) :
    Option (Option ℕ × Option ℕ × FileSystem) :=
  if !(fs.ent dp).isDirectory then none
  else if strncmpEq (cstring filename) (cstring [0x2E]) fat32MaxFilename 0 then
    some (some dp, none, edup fs dp)
  else if strncmpEq (cstring filename) (cstring [0x2E, 0x2E]) fat32MaxFilename 0 then
    let up := if dp = 0 then 0 else (fs.ent dp).parent
    some (some up, none, edup fs up)
  else if (fs.ent dp).valid ≠ 1 then some (none, none, fs)
  else do
    let (ep, fs) ← eget fs dp filename
    if (fs.ent ep).valid = 1 then return (some ep, none, fs)
    let (_, fs) ← relocEnt fat fs dp 0 false
    dirlookupLoop fat filename dp ep slotFuel fs 0 0 poff none

/-! ## Creating an entry -/

/-- `emake`'s `reloc_clus` and `rw_clus` for one slot. -/
def putDentry (fat : Fat32) (fs : FileSystem) (dp off : ℕ) (de : Dentry) : Option FileSystem := do
  let (off, fs) ← relocEnt fat fs dp off true
  let (_, d) ← rwClusWrite fat fs.disk (fs.ent dp).curClus (kernelCopy de) off 32
  return { fs with disk := d }

/-- The long-name slots of `emake`, from part `i` down to part 1 of `entcnt`. -/
def emakeLongs (fat : Fat32) (dp : ℕ) (filename : ℕ → Byte) (checksum : Byte) (entcnt : ℕ) :
    ℕ → FileSystem → ℕ → Option (FileSystem × ℕ)
  | 0, fs, off => some (fs, off)
  | i + 1, fs, off => do
      let order := if i + 1 = entcnt then (i + 1) ||| lastLongEntry else i + 1
      let p := fun k => filename (i * charLongName + k)
      let fs ← putDentry fat fs dp off (longDentry order checksum p)
      emakeLongs fat dp filename checksum entcnt i fs ((off + 32) % 2 ^ 32)

def emake (fat : Fat32) (fs : FileSystem) (dp ep off : ℕ) : Option FileSystem :=
  if !(fs.ent dp).isDirectory ∨ off % 32 ≠ 0 then none
  else if off ≤ 32 then
    let name := if off = 0 then cstring (0x2E :: List.replicate 10 0x20)
      else cstring (0x2E :: 0x2E :: List.replicate 9 0x20)
    putDentry fat fs dp off
      (shortDentry (strncpy name charShortName 0) attrDirectory (fs.ent ep).firstClus 0)
  else do
    let filename := (fs.ent ep).filename
    let name := (List.range (strlen filename)).map filename
    let entcnt := longSlots name.length
    let shortname := generateShortname name
    let (fs, off) ← emakeLongs fat dp filename (calChecksum shortname) entcnt entcnt fs off
    let entry := fs.ent ep
    putDentry fat fs dp off (shortDentry (strncpy (cstring shortname) charShortName 0) entry.attr
      entry.firstClus entry.fileSize)

/-- The fields that `ealloc` sets in a fresh entry. -/
def eallocEntry (fs : FileSystem) (dp ep : ℕ) (name : List Byte) (attr off : ℕ) : FileSystem :=
  let fs := edup fs dp
  let copied := strncpy (cstring name) fat32MaxFilename 0
  fs.set ep
    { fs.ent ep with
      filename := cstring copied
      attr := attr % 256
      fileSize := 0
      firstClus := 0
      parent := dp
      off := off
      clusCnt := 0
      curClus := 0
      dirty := false }

/-- `ealloc`; the result is the number of the entry, `none` for the null pointer. -/
def ealloc (fat : Fat32) (fs : FileSystem) (dp : ℕ) (name : List Byte) (attr : ℕ) :
    Option (Option ℕ × FileSystem) :=
  if !(fs.ent dp).isDirectory then none
  else if (fs.ent dp).valid ≠ 1 then some (none, fs)
  else
    match formatname name with
    | none => some (none, fs)
    | some name => do
        let (found, stored, fs) ← dirlookup fat fs dp name true
        if found.isSome then return (found, fs)
        let off := stored.getD 0
        let (ep, fs) ← eget fs dp name
        if (fs.ent ep).ref < 1 then none
        let fs := eallocEntry fs dp ep name attr off
        let entry := fs.ent ep
        let fs ←
          if attr = attrDirectory then do
            let (clus, d) := allocClus fat fs.disk
            let fs := { fs with disk := d }.set ep
              { entry with
                attr := entry.attr ||| attrDirectory
                firstClus := clus
                curClus := clus }
            let fs ← emake fat fs ep ep 0
            emake fat fs ep dp 32
          else some (fs.set ep { entry with attr := entry.attr ||| attrArchive })
        let fs ← emake fat fs dp ep off
        return (some ep, fs.set ep { fs.ent ep with valid := 1 })

end K210Os
