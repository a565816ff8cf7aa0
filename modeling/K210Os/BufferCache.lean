import K210Os.DoublyLinked
import K210Os.Memory
import K210Os.Semaphore
import Mathlib.Data.List.FinRange

/-!
# The buffer cache

The `nbuf` buffers stand in a circular list, the one released last at its head. The
calls come one after another; `mytask` is the task that makes them, none while the
kernel boots. `none` as a result is a panic, a call that sleeps, a store through a null
pointer, or a walk that has not ended.
-/

namespace K210Os

open DoublyLinked Transition

def nbucket : ℕ := 13
def nbuf : ℕ := nbucket * 3

instance : NeZero nbuf := ⟨by decide⟩

/-- `BSIZE` bytes. -/
abbrev Sector := Fin 512 → Byte

namespace Semaphore

def semWait (mytask : Option ℕ) (s : Semaphore) : Option Semaphore :=
  let value := s.value - 1
  if value < 0 then none else some { s with value, pid := mytask.getD s.pid }

def semSignal (s : Semaphore) : Option Semaphore :=
  let value := s.value + 1
  if value ≤ 0 ∧ s.waiters ≠ [] then none else some { s with value, pid := 0 }

def semHold (mytask : Option ℕ) (s : Semaphore) : Bool :=
  match mytask with
  | some pid => s.value ≤ 0 && pid == s.pid
  | none => s.value ≤ 0

end Semaphore

structure Buf where
  valid : Bool
  dev : BitVec 32
  sectorno : BitVec 32
  lock : Semaphore
  refcnt : BitVec 32
  data : Sector

inductive BufNode where
  | head
  | buf (i : Fin nbuf)
deriving DecidableEq

/-- `bcache`, with the sectors of the card. -/
structure Bcache where
  links : Links BufNode
  buf : Fin nbuf → Buf
  disk : BitVec 32 → Sector

namespace Bcache

def setBuf (s : Bcache) (i : Fin nbuf) (b : Buf) : Bcache :=
  { s with buf := Function.update s.buf i b }

def linkFront (L : Links BufNode) (i : Fin nbuf) : Option (Links BufNode) :=
  (L.next .head).map fun n =>
    (((L.setNext (.buf i) (some n)).setPrev (.buf i) (some .head)).setPrev n (some (.buf i))).setNext
      .head (some (.buf i))

def unlink (L : Links BufNode) (i : Fin nbuf) : Option (Links BufNode) := do
  let n ← L.next (.buf i)
  let p ← L.prev (.buf i)
  return (L.setPrev n p).setNext p n

/-- `bcache` before `binit`, in memory that is zero. -/
def boot (disk : BitVec 32 → Sector) : Bcache :=
  ⟨⟨fun _ => none, fun _ => none⟩, fun _ => ⟨false, 0, 0, semInit 0, 0, fun _ => 0⟩, disk⟩

def binitOne (s : Bcache) (i : Fin nbuf) : Option Bcache :=
  (linkFront s.links i).map fun links =>
    { s.setBuf i { s.buf i with refcnt := 0, sectorno := ~~~0, dev := ~~~0, lock := semInit 1 }
      with links }

def binit (s : Bcache) : Option Bcache :=
  (List.finRange nbuf).foldlM binitOne
    { s with links := (s.links.setPrev .head (some .head)).setNext .head (some .head) }

def key (s : Bcache) (i : Fin nbuf) : BitVec 32 × BitVec 32 := ((s.buf i).dev, (s.buf i).sectorno)

/-- The first loop of `bget`. -/
def cached (s : Bcache) (dev sectorno : BitVec 32) : Option (Option BufNode) :=
  (s.links.next .head).bind <| s.links.find .head
    (fun
      | .buf i => decide ((s.buf i).dev = dev ∧ (s.buf i).sectorno = sectorno)
      | .head => false)
    (nbuf + 1)

/-- The second loop of `bget`. -/
def leastRecent (s : Bcache) : Option (Option BufNode) :=
  (s.links.prev .head).bind <| s.links.flip.find .head
    (fun
      | .buf i => decide ((s.buf i).refcnt = 0)
      | .head => false)
    (nbuf + 1)

/-- Takes the buffer's semaphore and delivers the buffer. -/
def lockBuf (mytask : Option ℕ) (s : Bcache) (i : Fin nbuf) : Option (Fin nbuf × Bcache) :=
  ((s.buf i).lock.semWait mytask).map fun lock => (i, s.setBuf i { s.buf i with lock })

def bget (mytask : Option ℕ) (s : Bcache) (dev sectorno : BitVec 32) :
    Option (Fin nbuf × Bcache) :=
  (s.cached dev sectorno).bind fun
    | some (.buf i) =>
        (s.setBuf i { s.buf i with refcnt := (s.buf i).refcnt + 1 }).lockBuf mytask i
    | _ => s.leastRecent.bind fun
        | some (.buf i) =>
            (s.setBuf i { s.buf i with dev, sectorno, valid := false, refcnt := 1 }).lockBuf mytask i
        | _ => none

/-- `disk_read`; the card does not know of `dev`. -/
def diskRead (dbrSec : BitVec 32) (s : Bcache) (i : Fin nbuf) : Bcache :=
  s.setBuf i { s.buf i with data := s.disk ((s.buf i).sectorno + dbrSec) }

def diskWrite (dbrSec : BitVec 32) (s : Bcache) (i : Fin nbuf) : Bcache :=
  { s with disk := Function.update s.disk ((s.buf i).sectorno + dbrSec) (s.buf i).data }

def bread (mytask : Option ℕ) (dbrSec : BitVec 32) (s : Bcache) (dev sectorno : BitVec 32) :
    Option (Fin nbuf × Bcache) :=
  (s.bget mytask dev sectorno).map fun (i, s) =>
    if (s.buf i).valid then (i, s)
    else
      let s := s.diskRead dbrSec i
      (i, s.setBuf i { s.buf i with valid := true })

def bwrite (mytask : Option ℕ) (dbrSec : BitVec 32) (s : Bcache) (i : Fin nbuf) : Option Bcache :=
  if !(s.buf i).lock.semHold mytask then none else some (s.diskWrite dbrSec i)

def brelse (mytask : Option ℕ) (s : Bcache) (i : Fin nbuf) : Option Bcache :=
  if !(s.buf i).lock.semHold mytask then none
  else do
    let lock ← (s.buf i).lock.semSignal
    let refcnt := (s.buf i).refcnt - 1
    let s := s.setBuf i { s.buf i with lock, refcnt }
    if refcnt = 0 then
      let links ← unlink s.links i
      let links ← linkFront links i
      return { s with links }
    else return s

end Bcache

/-- The cache and its clients. `held` are the buffers that were read and not released,
`changed` those whose data were changed and not written; `released` says when a buffer
was last released, and `array` is the plain array of sectors. No function of the cache
reads them. -/
structure CacheRun where
  cache : Bcache
  held : Fin nbuf → Bool
  changed : Fin nbuf → Bool
  released : Fin nbuf → ℕ
  clock : ℕ
  array : BitVec 32 → Sector

inductive BufOp where
  | bread (dev sectorno : BitVec 32)
  | change (i : Fin nbuf) (data : Sector)
  | bwrite (i : Fin nbuf)
  | brelse (i : Fin nbuf)

namespace CacheRun

/-- The cache after `binit`. -/
def start (dbrSec : BitVec 32) (disk : BitVec 32 → Sector) : Option CacheRun :=
  (Bcache.boot disk).binit.map fun cache =>
    ⟨cache, fun _ => false, fun _ => false, fun _ => 0, 0, fun s => disk (s + dbrSec)⟩

def Permitted (s : CacheRun) : BufOp → Prop
  | .bread dev sectorno =>
      (dev, sectorno) ≠ (~~~0, ~~~0) ∧ (∃ i, s.held i = false) ∧
        ∀ i, s.held i = true → s.cache.key i ≠ (dev, sectorno)
  | .change i _ => s.held i = true
  | .bwrite i => s.held i = true
  | .brelse i => s.held i = true ∧ s.changed i = false

def cacheStep (mytask : Option ℕ) (dbrSec : BitVec 32) (s : CacheRun) :
    BufOp → Option (Option (Fin nbuf) × CacheRun)
  | .bread dev sectorno =>
      (s.cache.bread mytask dbrSec dev sectorno).map fun (i, cache) =>
        (some i, { s with cache, held := Function.update s.held i true })
  | .change i data =>
      some (none,
        { s with
          cache := s.cache.setBuf i { s.cache.buf i with data }
          changed := Function.update s.changed i true })
  | .bwrite i =>
      (s.cache.bwrite mytask dbrSec i).map fun cache =>
        (none,
          { s with
            cache
            changed := Function.update s.changed i false
            array := Function.update s.array (s.cache.buf i).sectorno (s.cache.buf i).data })
  | .brelse i =>
      (s.cache.brelse mytask i).map fun cache =>
        (none,
          { s with
            cache
            held := Function.update s.held i false
            released := Function.update s.released i (s.clock + 1)
            clock := s.clock + 1 })

/-- A step, with the buffer that it delivers. -/
def CacheStep (mytask : Option ℕ) (dbrSec : BitVec 32) (s : CacheRun)
    (l : BufOp × Option (Fin nbuf)) (s' : CacheRun) : Prop :=
  s.Permitted l.1 ∧ s.cacheStep mytask dbrSec l.1 = some (l.2, s')

end CacheRun

end K210Os
