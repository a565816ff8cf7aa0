import K210Os.Memory
import K210Os.Spinlock
import Mathlib.Algebra.Group.Nat.Hom

/-!
# The kernel heap allocator

`struct bitmap_buddy` is a binary tree stored level by level in `bbt`: one byte
per node, the logarithm of the largest free block below it, on all levels but
the last two, and one bit per node on the levels of the 16-byte and the 8-byte
blocks. The functions follow the source loop by loop. Sizes and node indices are
natural numbers, with the explicit reductions where the source can wrap.

A call returns `none` where the source never returns: a panic, an assertion that
fails, or a loop that does not end.
-/

namespace K210Os

structure BitmapBuddy where
  lock : Spinlock
  space : ℕ
  size : ℕ
  minAllocSize : ℕ
  bbt : ℕ → Byte

/-- What the heap functions read and write: the calling hart, the allocator, and
the bytes of memory by address, which `buddy_alloc` clears. -/
structure KHeap where
  cpu : Processor
  buddy : BitmapBuddy
  mem : Memory

def leftLeaf (index : ℕ) : ℕ := index * 2 + 1
def rightLeaf (index : ℕ) : ℕ := index * 2 + 2
def parent (index : ℕ) : ℕ := (index + 1) / 2 - 1

def isPowerOf2 (x : ℕ) : Bool := x &&& (x - 1) == 0

/-- The least power of two above `size`. -/
def fixsize (size : ℕ) : ℕ :=
  let size := size ||| size >>> 1
  let size := size ||| size >>> 2
  let size := size ||| size >>> 4
  let size := size ||| size >>> 8
  let size := size ||| size >>> 16
  (size + 1) % 2 ^ 32

/-- One step per halving of a 32-bit value. -/
def log2Loop : ℕ → ℕ → ℕ → ℕ
  | 0, _, x => x
  | fuel + 1, value, x => if value > 1 then log2Loop fuel (value >>> 1) (x + 1) else x

def log2 (value : ℕ) : ℕ := log2Loop 32 value 0

/-- Square and multiply on 64-bit values, one step per bit of the exponent. -/
def pow2Loop : ℕ → ℕ → ℕ → ℕ → ℕ
  | 0, _, _, res => res
  | fuel + 1, b, a, res =>
      if b > 0 then
        let res := if b % 2 = 1 then res * a % 2 ^ 64 else res
        pow2Loop fuel (b / 2) (a * a % 2 ^ 64) res
      else res

def pow2 (b : ℕ) : ℕ := pow2Loop 8 b 2 1

namespace BitmapBuddy

/-- First index of the bit levels. -/
def base (b : BitmapBuddy) : ℕ := b.size / 16 - 1

def bitmapScanTest (b : BitmapBuddy) (bitIdx : ℕ) : Bool :=
  let byteIdx := (bitIdx - b.base) / 8
  let bitOdd := bitIdx % 8
  (b.bbt (b.base + byteIdx)).getLsbD bitOdd

/-- `value` is a Boolean, so the source's assertion on it always holds. -/
def bitmapSet (b : BitmapBuddy) (bitIdx : ℕ) (value : Bool) : BitmapBuddy :=
  let byteIdx := (bitIdx - b.base) / 8
  let bitOdd := bitIdx % 8
  let old := b.bbt (b.base + byteIdx)
  let new := if value then old ||| 1#8 <<< bitOdd else old &&& ~~~(1#8 <<< bitOdd)
  { b with bbt := Function.update b.bbt (b.base + byteIdx) new }

/-- The assignment `b->bbt[index] = value`. -/
def setByte (b : BitmapBuddy) (index value : ℕ) : BitmapBuddy :=
  { b with bbt := Function.update b.bbt index (BitVec.ofNat 8 value) }

def inBitmap (b : BitmapBuddy) (index : ℕ) : Bool := b.base ≤ index

/-- Logarithm of the largest free block below a node, 0 if there is none. -/
def getSize (b : BitmapBuddy) (index : ℕ) : ℕ :=
  if b.inBitmap index then
    if b.inBitmap (parent index) then
      if b.bitmapScanTest index then log2 8 else 0
    else if b.bitmapScanTest index then
      let l := b.bitmapScanTest (leftLeaf index)
      let r := b.bitmapScanTest (rightLeaf index)
      if l && r then log2 16 else if l || r then log2 8 else 0
    else 0
  else (b.bbt index).toNat

end BitmapBuddy

open BitmapBuddy

/-- The byte levels are filled until the 16-byte level is met; the index where
the loop stops is returned with the table. -/
def buddyNewLoop : ℕ → ℕ → ℕ → (ℕ → Byte) → ℕ × (ℕ → Byte)
  | 0, i, _, bbt => (i, bbt)
  | fuel + 1, i, nodeSize, bbt =>
      let nodeSize := if isPowerOf2 (i + 1) then nodeSize / 2 else nodeSize
      if isPowerOf2 (i + 1) && nodeSize == 16 then (i, bbt)
      else buddyNewLoop fuel (i + 1) nodeSize
        (Function.update bbt i (BitVec.ofNat 8 (log2 nodeSize)))

/-- `bbase` is what the memory under `bbt` holds before the call. -/
def buddyNew (size : ℕ) (bbase : ℕ → Byte) : Option BitmapBuddy :=
  if size < 1 || !isPowerOf2 size then none
  else
    let (i, bbt) := buddyNewLoop (2 * size - 1) 0 (2 * size) bbase
    let bitNodeSize := size / 8 + size / (8 * 2)
    some {
      lock := initlock
      space := 0
      size := size
      minAllocSize := 8
      bbt := memset bbt i 0xff#8 (bitNodeSize / 8) }

/-- The size `buddy_alloc` looks for: at least 8, and a power of two. -/
def roundSize (size : ℕ) : ℕ :=
  if size ≤ 8 then 8 else if !isPowerOf2 size then fixsize size else size

/-- Descent from the root to the node whose block has the wanted size. -/
def buddyAllocSearch (b : BitmapBuddy) (size : ℕ) : ℕ → ℕ → ℕ → Option (ℕ × ℕ)
  | 0, _, _ => none
  | fuel + 1, nodeSize, index =>
      if nodeSize = size then some (nodeSize, index)
      else if pow2 (b.getSize (leftLeaf index)) ≥ size then
        buddyAllocSearch b size fuel (nodeSize / 2) (leftLeaf index)
      else buddyAllocSearch b size fuel (nodeSize / 2) (rightLeaf index)

/-- One step of the climb after an allocation: the parent of `index` is set from
its two children. -/
def buddyAllocUp (b : BitmapBuddy) (index : ℕ) : BitmapBuddy :=
  let p := parent index
  if b.inBitmap index then
    if b.inBitmap p then
      b.bitmapSet p (b.bitmapScanTest (leftLeaf p) || b.bitmapScanTest (rightLeaf p))
    else b.setByte p (max (b.getSize (leftLeaf p)) (b.getSize (rightLeaf p)))
  else b.setByte p (max (b.bbt (leftLeaf p)).toNat (b.bbt (rightLeaf p)).toNat)

def buddyAllocBacktrack : ℕ → BitmapBuddy → ℕ → Option BitmapBuddy
  | fuel, b, index =>
      if index = 0 then some b
      else match fuel with
        | 0 => none
        | fuel + 1 => buddyAllocBacktrack fuel (buddyAllocUp b index) (parent index)

/-- The mark of an allocated block: a cleared bit or a zero byte. -/
def buddyMark (b : BitmapBuddy) (size index : ℕ) : BitmapBuddy :=
  if size ≤ 16 then b.bitmapSet index false else b.setByte index 0

/-- An index below `2 ^ 32` is halved to 0 in at most 32 steps, so 32 rounds are
enough for every loop over the levels. The early return leaves the lock held. -/
def buddyAlloc (h : KHeap) (size : ℕ) : Option (ℕ × KHeap) := do
  let (cpu, lock) ← acquire h.cpu h.buddy.lock
  let b := { h.buddy with lock := lock }
  let size := roundSize size
  if pow2 (b.bbt 0).toNat < size then
    return (0, { h with cpu := cpu, buddy := b })
  let (nodeSize, index) ← buddyAllocSearch b size 32 b.size 0
  let b := buddyMark b size index
  let offset := ((index + 1) * nodeSize % 2 ^ 32 + 2 ^ 64 - b.size) % 2 ^ 64
  let b ← buddyAllocBacktrack 32 b index
  let ptr := (b.space + offset) % 2 ^ 64
  let mem := memset h.mem ptr 0#8 size
  let (cpu, lock) ← release cpu b.lock
  return (ptr, { cpu := cpu, buddy := { b with lock := lock }, mem := mem })

/-- From the leaf of size 1 up to the level of the smallest blocks. -/
def buddyFreeLeaf : ℕ → ℕ → ℕ → Option (ℕ × ℕ)
  | fuel, nodeSize, index =>
      if nodeSize = 8 then some (nodeSize, index)
      else match fuel with
        | 0 => none
        | fuel + 1 => buddyFreeLeaf fuel (nodeSize * 2) (parent index)

/-- The first node upward that reads 0; the root must not be passed. -/
def buddyFreeFind (b : BitmapBuddy) : ℕ → ℕ → ℕ → Option (ℕ × ℕ)
  | fuel, nodeSize, index =>
      if b.getSize index = 0 then some (nodeSize, index)
      else if index = 0 then none
      else match fuel with
        | 0 => none
        | fuel + 1 => buddyFreeFind b fuel (nodeSize * 2) (parent index)

/-- The freed node gets its full value back. -/
def buddyUnmark (b : BitmapBuddy) (nodeSize index : ℕ) : BitmapBuddy :=
  if b.inBitmap index then b.bitmapSet index true else b.setByte index (log2 nodeSize)

/-- One step of the climb after a free, at the parent node `p` of size `nodeSize`. -/
def buddyFreeUp (b : BitmapBuddy) (nodeSize p : ℕ) : BitmapBuddy :=
  let leftLongest := b.getSize (leftLeaf p)
  let rightLongest := b.getSize (rightLeaf p)
  if b.inBitmap p then b.bitmapSet p true
  else if leftLongest + rightLongest = log2 nodeSize then b.setByte p (log2 nodeSize)
  else b.setByte p (max leftLongest rightLongest)

def buddyFreeMerge : ℕ → BitmapBuddy → ℕ → ℕ → Option BitmapBuddy
  | fuel, b, nodeSize, index =>
      if index = 0 then some b
      else match fuel with
        | 0 => none
        | fuel + 1 =>
            let p := parent index
            buddyFreeMerge fuel (buddyFreeUp b (nodeSize * 2) p) (nodeSize * 2) p

/-- The node that `buddy_free` finds for a pointer, with its size. -/
def buddyFreeNode (b : BitmapBuddy) (offset : ℕ) : Option (ℕ × ℕ) := do
  let (nodeSize, index) ← buddyFreeLeaf 3 1 (offset + b.size - 1)
  buddyFreeFind b 32 nodeSize index

def buddyFree (h : KHeap) (ptr : ℕ) : Option KHeap := do
  if ptr = 0 then return h
  let (cpu, lock) ← acquire h.cpu h.buddy.lock
  let b := { h.buddy with lock := lock }
  let offset := (ptr + 2 ^ 64 - b.space) % 2 ^ 64
  if !(offset < b.size) then none
  let (nodeSize, index) ← buddyFreeNode b offset
  let b := buddyUnmark b nodeSize index
  let b ← buddyFreeMerge 32 b nodeSize index
  let (cpu, lock) ← release cpu b.lock
  return { h with cpu := cpu, buddy := { b with lock := lock } }

/-- The rounded size of the block a pointer lies in. The climb is that of `buddy_free`;
where that one panics at the root, this one leaves the table. -/
def buddySize (b : BitmapBuddy) (ptr : ℕ) : Option ℕ := do
  let offset := (ptr + 2 ^ 64 - b.space) % 2 ^ 64
  if !(offset < b.size) then none
  let (nodeSize, _) ← buddyFreeNode b offset
  return nodeSize

/-- The index is one of a node, despite the name. -/
def idxIllegal (b : BitmapBuddy) (index : ℕ) : Bool := index < b.size / 4 - 1

def getSize2Loop : ℕ → ℕ → ℕ → ℕ
  | 0, nodeSize, _ => nodeSize
  | fuel + 1, nodeSize, idx =>
      if idx ≠ 0 then getSize2Loop fuel (nodeSize / 2) (parent idx) else nodeSize

/-- The size of a node by its place in the tree. -/
def getSize2 (b : BitmapBuddy) (idx : ℕ) : ℕ := getSize2Loop 32 b.size idx

/-- The walk over the tree, with the pending nodes on a stack, the top first. An access
outside the 50 cells of `astack` has no result. -/
def buddyRemainLoop (b : BitmapBuddy) : ℕ → ℕ → List ℕ → ℕ → Option ℕ
  | fuel, index, astack, alloced =>
      if index = 2 ^ 32 - 1 then some alloced
      else match fuel with
        | 0 => none
        | fuel + 1 =>
            if b.getSize index = 0 then
              match astack with
              | [] => none
              | top :: astack => buddyRemainLoop b fuel top astack (alloced + getSize2 b index)
            else
              let push := idxIllegal b (rightLeaf index)
              if push && !(astack.length < 50) then none
              else
                let astack := if push then rightLeaf index :: astack else astack
                if idxIllegal b (leftLeaf index) then
                  buddyRemainLoop b fuel (leftLeaf index) astack alloced
                else match astack with
                  | [] => none
                  | top :: astack => buddyRemainLoop b fuel top astack alloced

/-- No node is visited twice, so there are as many rounds as nodes. -/
def buddyRemainSize (b : BitmapBuddy) : Option ℕ := do
  let alloced ← buddyRemainLoop b (b.size / 4) 0 [2 ^ 32 - 1] 0
  return b.size - alloced

/-- `heap_allocator_init`: the allocator over a heap of `size` bytes at `space`. -/
def heapAllocatorInit (size space : ℕ) (bbase : ℕ → Byte) (cpu : Processor)
    (mem : ℕ → Byte) : Option KHeap :=
  (buddyNew size bbase).map fun b => ⟨cpu, { b with space := space }, mem⟩

end K210Os
