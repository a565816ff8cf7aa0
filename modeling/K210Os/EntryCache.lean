import K210Os.Directory
import K210Os.Transition

/-!
# Path lookup and the holders of directory entries

`lookup_path` walks a path with one directory held at a time, and `create` makes an entry
at its end. Beside the entry cache stands what no function reads: how often each slot was
taken by `eget`, of which directory and under which name an entry became a child, and
what `eget` found.
-/

namespace K210Os

def oRdonly : ℕ := 0
def tDir : ℤ := 1
def tFile : ℤ := 2
def attrSystem : ℕ := 0x04
def entryCacheNum : ℕ := 50

/-- `parent` was taken `occupant` times when the entry became its child. -/
structure EntryLink where
  parent : ℕ
  occupant : ℕ
  name : List Byte

/-- A hit of `eget`: what was asked, the entry with its link, and how often the slot
`parent` was taken until then. -/
structure EgetHit where
  parent : ℕ
  name : List Byte
  entry : ℕ
  link : EntryLink
  occupant : ℕ

structure EntryCache where
  fs : FileSystem
  occupant : ℕ → ℕ
  link : ℕ → EntryLink
  hits : List EgetHit

namespace EntryCache

/-- The entry that `eget` finds under a name. -/
def cached (s : EntryCache) (dp : ℕ) (name : List Byte) : Option ℕ :=
  s.fs.lru.find? (egetHit s.fs dp name)

/-- `eget` takes the last slot without a holder. -/
def noteTaken (s : EntryCache) : EntryCache :=
  match s.fs.lru.reverse.find? fun i => (s.fs.ent i).ref == 0 with
  | some c => { s with occupant := Function.update s.occupant c (s.occupant c + 1) }
  | none => s

def noteLink (s : EntryCache) (ep dp : ℕ) (name : List Byte) : EntryCache :=
  { s with link := Function.update s.link ep ⟨dp, s.occupant dp, name⟩ }

/-- `eget` was called, and what it took became the entry `found`, if any. -/
def noteEget (s : EntryCache) (dp : ℕ) (name : List Byte) (found : Option ℕ) : EntryCache :=
  match s.cached dp name with
  | some i => { s with hits := ⟨dp, name, i, s.link i, s.occupant dp⟩ :: s.hits }
  | none =>
      match found with
      | some ep => s.noteTaken.noteLink ep dp name
      | none => s.noteTaken

/-- Whether `dirlookup` returns without a call of `eget`. -/
def answersAtOnce (s : EntryCache) (dp : ℕ) (filename : List Byte) : Bool :=
  strncmpEq (cstring filename) (cstring [0x2E]) fat32MaxFilename 0 ||
    strncmpEq (cstring filename) (cstring [0x2E, 0x2E]) fat32MaxFilename 0 ||
    (s.fs.ent dp).valid != 1

def noteLookup (s : EntryCache) (dp : ℕ) (filename : List Byte) (found : Option ℕ) : EntryCache :=
  if s.answersAtOnce dp filename then s else s.noteEget dp filename found

def edup (s : EntryCache) (e : ℕ) : EntryCache := { s with fs := K210Os.edup s.fs e }

def eput (fat : Fat32) (s : EntryCache) (e : ℕ) : Option EntryCache :=
  (K210Os.eput fat eputFuel s.fs e).map fun fs => { s with fs }

def dirlookup (fat : Fat32) (s : EntryCache) (dp : ℕ) (filename : List Byte) (poff : Bool) :
    Option (Option ℕ × EntryCache) :=
  (K210Os.dirlookup fat s.fs dp filename poff).map fun (found, _, fs) =>
    (found, { s.noteLookup dp filename found with fs })

/-- A new entry comes from the second `eget` of `ealloc`, after the one in `dirlookup`. -/
def noteEalloc (fat : Fat32) (s : EntryCache) (dp : ℕ) (name : List Byte) (found : Option ℕ) :
    EntryCache :=
  match (formatname name).bind fun name => (s.dirlookup fat dp name true).map (name, ·) with
  | some (name, none, s) => s.noteEget dp name found
  | some (_, some _, s) => s
  | none => s

def ealloc (fat : Fat32) (s : EntryCache) (dp : ℕ) (name : List Byte) (attr : ℕ) :
    Option (Option ℕ × EntryCache) :=
  (K210Os.ealloc fat s.fs dp name attr).map fun (found, fs) =>
    (found, if (s.fs.ent dp).valid ≠ 1 then s else { s.noteEalloc fat dp name found with fs })

/-! ## Paths -/

/-- `skipelem`: the first name of a path, cut to 255 bytes, and the rest. A path is the
bytes in front of its zero byte. -/
def skipelem (path : List Byte) : Option (List Byte × List Byte) :=
  let path := path.dropWhile (· == 0x2F)
  if path.isEmpty then none
  else
    some ((path.takeWhile (· != 0x2F)).take fat32MaxFilename,
      (path.dropWhile (· != 0x2F)).dropWhile (· == 0x2F))

/-- The loop of `lookup_path` from the held `entry` on, with the entry and the bytes at `name`
when it returns. A round takes at least one byte off the path. -/
def lookupLoop (fat : Fat32) (parent : Bool) :
    ℕ → EntryCache → ℕ → List Byte → List Byte → Option (Option ℕ × List Byte × EntryCache)
  | 0, _, _, _, _ => none
  | fuel + 1, s, entry, path, name =>
      match skipelem path with
      | none =>
          if parent then (s.eput fat entry).map fun s => (none, name, s)
          else some (some entry, name, s)
      | some (name, path) =>
          if (s.fs.ent entry).ref < 1 then none
          else if !(s.fs.ent entry).isDirectory then
            (s.eput fat entry).map fun s => (none, name, s)
          else if parent && path.isEmpty then some (some entry, name, s)
          else do
            let (next, s) ← s.dirlookup fat entry name false
            let s ← s.eput fat entry
            match next with
            | none => return (none, name, s)
            | some next => lookupLoop fat parent fuel s next path name

/-- `lookup_path` of a task whose current directory is `cwd`. -/
def lookupPath (fat : Fat32) (s : EntryCache) (cwd : ℕ) (path : List Byte) (parent : Bool) :
    Option (Option ℕ × List Byte × EntryCache) :=
  if path.isEmpty then some (none, [], s)
  else
    let entry := if path.head? = some 0x2F then 0 else cwd
    lookupLoop fat parent (path.length + 1) (s.edup entry) entry path []

def ename (fat : Fat32) (s : EntryCache) (cwd : ℕ) (path : List Byte) :
    Option (Option ℕ × EntryCache) :=
  (s.lookupPath fat cwd path false).map fun (found, _, s) => (found, s)

def enameparent (fat : Fat32) (s : EntryCache) (cwd : ℕ) (path : List Byte) :
    Option (Option ℕ × List Byte × EntryCache) :=
  s.lookupPath fat cwd path true

def create (fat : Fat32) (s : EntryCache) (cwd : ℕ) (path : List Byte) (type : ℤ) (mode : ℕ) :
    Option (Option ℕ × EntryCache) := do
  let (dp, name, s) ← s.enameparent fat cwd path
  match dp with
  | none => return (none, s)
  | some dp =>
      let mode :=
        if type = tDir then attrDirectory
        else if mode &&& oRdonly ≠ 0 then attrReadOnly
        else 0
      if (s.fs.ent dp).ref < 1 then none
      let (ep, s) ← s.ealloc fat dp name mode
      match ep with
      | none => (s.eput fat dp).map fun s => (none, s)
      | some ep =>
          let directory := (s.fs.ent ep).isDirectory
          if type = tDir ∧ !directory ∨ type = tFile ∧ directory then
            let s ← s.eput fat ep
            let s ← s.eput fat dp
            return (none, s)
          else
            let s ← s.eput fat dp
            if (s.fs.ent ep).ref < 1 then none
            return (some ep, s)

/-- The entry cache after `fat32_init`. The loop puts each entry at the front. -/
def fat32Init (disk : Disk) (rootClus : ℕ) (ent : ℕ → Dirent) : EntryCache where
  fs :=
    { disk
      ent := fun i =>
        if i = 0 then
          { filename := cstring [0x2F]
            attr := attrDirectory ||| attrSystem
            firstClus := rootClus
            fileSize := 0
            curClus := rootClus
            clusCnt := 0
            dirty := false
            valid := 1
            ref := 0
            off := 0
            parent := 0 }
        else { ent i with valid := 0, ref := 0, dirty := false, parent := 0 }
      lru := (List.range entryCacheNum).map fun k => entryCacheNum - k }
  occupant := fun _ => 0
  link := fun _ => ⟨0, 0, []⟩
  hits := []

end EntryCache

/-! ## Clients -/

/-- The entry cache, and how many handles its clients hold on each entry. -/
structure EntryRun where
  cache : EntryCache
  handles : ℕ → ℕ

inductive EntryOp where
  | ename (cwd : ℕ) (path : List Byte)
  | enameparent (cwd : ℕ) (path : List Byte)
  | create (cwd : ℕ) (path : List Byte) (type : ℤ) (mode : ℕ)
  | ealloc (dp : ℕ) (name : List Byte) (attr : ℕ)
  | dirlookup (dp : ℕ) (filename : List Byte) (poff : Bool)
  | edup (e : ℕ)
  | eput (e : ℕ)

/-- One more handle on what was returned. -/
def gain (handles : ℕ → ℕ) : Option ℕ → ℕ → ℕ
  | some e => Function.update handles e (handles e + 1)
  | none => handles

def lose (handles : ℕ → ℕ) (e : ℕ) : ℕ → ℕ := Function.update handles e (handles e - 1)

namespace EntryRun

/-- An entry may be used by a client that holds a handle on it; `root` by everyone. -/
def Held (s : EntryRun) (e : ℕ) : Prop := e = 0 ∨ 1 ≤ s.handles e

def Permitted (s : EntryRun) : EntryOp → Prop
  | .ename cwd path | .enameparent cwd path | .create cwd path _ _ =>
      s.Held cwd ∨ path.head? = some 0x2F
  | .ealloc dp _ _ | .dirlookup dp _ _ => s.Held dp
  | .edup e => s.Held e
  | .eput e => 1 ≤ s.handles e

/-- A call with the entry that it returns. Only on that one a handle is gained, and only
`eput` gives one up. -/
def entryStep (fat : Fat32) (s : EntryRun) : EntryOp → Option (Option ℕ × EntryRun)
  | .ename cwd path =>
      (s.cache.ename fat cwd path).map fun (found, cache) => (found, ⟨cache, gain s.handles found⟩)
  | .enameparent cwd path =>
      (s.cache.enameparent fat cwd path).map fun (found, _, cache) =>
        (found, ⟨cache, gain s.handles found⟩)
  | .create cwd path type mode =>
      (s.cache.create fat cwd path type mode).map fun (found, cache) =>
        (found, ⟨cache, gain s.handles found⟩)
  | .ealloc dp name attr =>
      (s.cache.ealloc fat dp name attr).map fun (found, cache) =>
        (found, ⟨cache, gain s.handles found⟩)
  | .dirlookup dp filename poff =>
      (s.cache.dirlookup fat dp filename poff).map fun (found, cache) =>
        (found, ⟨cache, gain s.handles found⟩)
  | .edup e => some (some e, ⟨s.cache.edup e, gain s.handles (some e)⟩)
  | .eput e => (s.cache.eput fat e).map fun cache => (none, ⟨cache, lose s.handles e⟩)

/-- The clients start without handles. -/
def start (disk : Disk) (rootClus : ℕ) (ent : ℕ → Dirent) : EntryRun :=
  ⟨EntryCache.fat32Init disk rootClus ent, fun _ => 0⟩

def EntryStep (fat : Fat32) (s : EntryRun) (l : EntryOp × Option ℕ) (s' : EntryRun) : Prop :=
  s.Permitted l.1 ∧ s.entryStep fat l.1 = some (l.2, s')

end EntryRun

end K210Os
