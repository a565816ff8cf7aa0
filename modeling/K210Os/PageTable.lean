import K210Os.FrameAllocator
import K210Os.Memory

/-!
# Three-level page tables

Page-table entries, the walk that finds the entry of a page and the walk that
makes the missing tables, `map` and `unmap`. Tables are frames of physical memory
with 512 entries of 8 bytes. The list of frames of a table has the root first, and
`fvec_push` puts a frame right behind it. `none` is a panic or a failed assertion.
-/

namespace K210Os

open FrameAllocator

/-- The three 9-bit indexes of a page number, the highest first. -/
def vpnIndexes (vpn : ℕ) : List ℕ := [vpn >>> 9 >>> 9 &&& 511, vpn >>> 9 &&& 511, vpn &&& 511]

def pteV : ℕ := 0x001
def pteR : ℕ := 0x002
def pteW : ℕ := 0x004
def pteX : ℕ := 0x008
def pteU : ℕ := 0x010

def pteNew (ppn flags : ℕ) : ℕ := ppn <<< 10 % 2 ^ 64 ||| flags
def pteGetPpn (pte : ℕ) : ℕ := pte >>> 10 &&& 1 <<< 44 - 1
def pteGetFlags (pte : ℕ) : ℕ := pte &&& 0x0ff
def pteIsValid (pte : ℕ) : Bool := pteGetFlags pte &&& pteV != 0

/-- The address of an entry of the table in frame `ppn`. -/
def pteArray (ppn index : ℕ) : ℕ := (ppn2pa ppn + 8 * index) % 2 ^ 64

structure PageTable where
  rootPpn : ℕ
  fnode : List ℕ

/-- What the page-table functions read and change besides the table itself. -/
structure Physical where
  mem : Memory
  frames : FrameAllocator

def fvecPush : List ℕ → ℕ → List ℕ
  | [], ppn => [ppn]
  | head :: next, ppn => head :: ppn :: next

def ptNew (s : Physical) : Option (PageTable × Physical) := do
  let (frame, frames) ← frameAlloc s.frames
  return (⟨frame, [frame]⟩, ⟨memset s.mem (ppn2pa frame) 0 pageSize, frames⟩)

/-- A fresh zeroed table for an entry that has none. -/
def newTable (pt : PageTable) (s : Physical) (pte : ℕ) : Option (PageTable × Physical) := do
  let (frame, frames) ← frameAlloc s.frames
  let mem := memset s.mem (ppn2pa frame) 0 pageSize
  let mem := store64 mem pte (pteNew frame pteV)
  return ({ pt with fnode := fvecPush pt.fnode frame }, ⟨mem, frames⟩)

def findPteCreateLoop (pt : PageTable) (s : Physical) (ppn : ℕ) :
    List ℕ → Option (ℕ × PageTable × Physical)
  | [] => none
  | [index] => some (pteArray ppn index, pt, s)
  | index :: indexes => do
      let pte := pteArray ppn index
      let (pt, s) ← if !pteIsValid (load64 s.mem pte) then newTable pt s pte else some (pt, s)
      findPteCreateLoop pt s (pteGetPpn (load64 s.mem pte)) indexes

def findPteCreate (pt : PageTable) (s : Physical) (vpn : ℕ) :
    Option (ℕ × PageTable × Physical) :=
  findPteCreateLoop pt s pt.rootPpn (vpnIndexes vpn)

def findPteLoop (mem : Memory) (ppn : ℕ) : List ℕ → Option ℕ
  | [] => none
  | [index] => some (pteArray ppn index)
  | index :: indexes =>
      let pte := load64 mem (pteArray ppn index)
      if !pteIsValid pte then none else findPteLoop mem (pteGetPpn pte) indexes

/-- `find_pte` in the table with root frame `root`; `none` is the null pointer. -/
def findPte (mem : Memory) (root vpn : ℕ) : Option ℕ := findPteLoop mem root (vpnIndexes vpn)

def map (pt : PageTable) (s : Physical) (vpn ppn flags : ℕ) : Option (PageTable × Physical) := do
  let (pte, pt, s) ← findPteCreate pt s vpn
  if pteIsValid (load64 s.mem pte) then none
  return (pt, { s with mem := store64 s.mem pte (pteNew ppn (flags ||| pteV)) })

def unmap (pt : PageTable) (s : Physical) (vpn : ℕ) : Option (PageTable × Physical) := do
  let (pte, pt, s) ← findPteCreate pt s vpn
  if !pteIsValid (load64 s.mem pte) then none
  return (pt, { s with mem := store64 s.mem pte 0 })

/-- `token`: the value of `satp` for a table. -/
def token (pt : PageTable) : ℕ := 8 <<< 60 ||| pt.rootPpn

end K210Os
