import K210Os.Memory
import K210Os.RingBuffer
import K210Os.Transition

/-!
# Pipes

`pipewrite`, `piperead` and `pipeclose` on one pipe, for any number of tasks. A task
runs until it sleeps or returns: the CPU changes hands only in `sleep`, which gives up
the pipe's lock. `none` is the panic of `wakeup_fromwq`.
-/

namespace K210Os

open RingBuffer Transition

def pipeSize : ℕ := 512

/-- `struct pipe` without its lock; the queues hold the tasks asleep on them. -/
structure Pipe (ι : Type*) extends Ring Byte 32 where
  readopen : Bool
  writeopen : Bool
  rwaiter : List ι
  wwaiter : List ι

/-- Where a task is: outside, in `pipewrite` with `i` bytes of `n` written, or in
`piperead` before its first byte; inside, it sleeps or was woken. A user buffer is given
by what copying its byte `i` does: `copyin2` delivers the byte or fails, `copyout2`
succeeds or fails. -/
inductive PipePhase where
  | out
  | writing (addr : ℕ → Option Byte) (n i : ℕ) (asleep : Bool)
  | reading (addr : ℕ → Bool) (n : ℕ) (asleep : Bool)

def PipePhase.wake : PipePhase → Option PipePhase
  | .writing addr n i true => some (.writing addr n i false)
  | .reading addr n true => some (.reading addr n false)
  | _ => none

/-- A pipe and its tasks. `accepted` are the bytes taken from writers and `delivered`
those copied to readers, both in order; no function reads them. -/
structure PipeSystem (ι : Type*) where
  pipe : Pipe ι
  phase : ι → PipePhase
  accepted : List Byte
  delivered : List Byte

namespace PipeSystem

variable {ι : Type*} [DecidableEq ι]

def wakeupReader (s : PipeSystem ι) : Option (PipeSystem ι) :=
  match s.pipe.rwaiter with
  | [] => some s
  | p :: rwaiter => (s.phase p).wake.map fun phase =>
      { s with pipe := { s.pipe with rwaiter := rwaiter }, phase := Function.update s.phase p phase }

def wakeupWriter (s : PipeSystem ι) : Option (PipeSystem ι) :=
  match s.pipe.wwaiter with
  | [] => some s
  | p :: wwaiter => (s.phase p).wake.map fun phase =>
      { s with pipe := { s.pipe with wwaiter := wwaiter }, phase := Function.update s.phase p phase }

/-- `pi->data[pi->nwrite++ % PIPESIZE] = ch`. -/
def put (s : PipeSystem ι) (ch : Byte) : PipeSystem ι :=
  { s with
    pipe := { s.pipe with toRing := s.pipe.push pipeSize ch }
    accepted := s.accepted ++ [ch] }

def sleepWriting (s : PipeSystem ι) (t : ι) (addr : ℕ → Option Byte) (n i : ℕ) : PipeSystem ι :=
  { s with
    pipe := { s.pipe with wwaiter := s.pipe.wwaiter ++ [t] }
    phase := Function.update s.phase t (.writing addr n i true) }

def sleepReading (s : PipeSystem ι) (t : ι) (addr : ℕ → Bool) (n : ℕ) : PipeSystem ι :=
  { s with
    pipe := { s.pipe with rwaiter := s.pipe.rwaiter ++ [t] }
    phase := Function.update s.phase t (.reading addr n true) }

def leave (s : PipeSystem ι) (t : ι) : PipeSystem ι :=
  { s with phase := Function.update s.phase t .out }

/-- `pipewrite` from byte `i` on, with `left` bytes to go, up to its return or its next
`sleep`. -/
def pipewriteLoop (t : ι) (addr : ℕ → Option Byte) (n : ℕ) (killed : Bool) :
    ℕ → PipeSystem ι → ℕ → Option (Option ℤ × PipeSystem ι)
  | 0, s, i => s.wakeupReader.map fun s => (some i, s.leave t)
  | left + 1, s, i =>
      if s.pipe.nwrite = s.pipe.nread + BitVec.ofNat 32 pipeSize then
        if !s.pipe.readopen || killed then some (some (-1), s.leave t)
        else s.wakeupReader.map fun s => (none, s.sleepWriting t addr n i)
      else
        match addr i with
        | none => s.wakeupReader.map fun s => (some i, s.leave t)
        | some ch => pipewriteLoop t addr n killed left (s.put ch) (i + 1)

/-- The copying loop of `piperead`. A byte leaves the pipe before it is copied out. -/
def pipereadLoop (addr : ℕ → Bool) : ℕ → PipeSystem ι → ℕ → ℕ × PipeSystem ι
  | 0, s, i => (i, s)
  | left + 1, s, i =>
      if s.pipe.nread = s.pipe.nwrite then (i, s)
      else
        let (ch, ring) := s.pipe.pop pipeSize
        let s := { s with pipe := { s.pipe with toRing := ring } }
        if addr i then
          pipereadLoop addr left { s with delivered := s.delivered ++ [ch] } (i + 1)
        else (i, s)

/-- `piperead` up to its return or its next `sleep`. -/
def piperead (t : ι) (addr : ℕ → Bool) (n : ℕ) (killed : Bool) (s : PipeSystem ι) :
    Option (Option ℤ × PipeSystem ι) :=
  if s.pipe.nread = s.pipe.nwrite ∧ s.pipe.writeopen then
    if killed then some (some (-1), s.leave t)
    else some (none, s.sleepReading t addr n)
  else
    let (i, s) := pipereadLoop addr n s 0
    s.wakeupWriter.map fun s => (some i, s.leave t)

def pipeclose (s : PipeSystem ι) (writable : Bool) : Option (PipeSystem ι) :=
  if writable then wakeupReader { s with pipe := { s.pipe with writeopen := false } }
  else wakeupWriter { s with pipe := { s.pipe with readopen := false } }

end PipeSystem

/-- A turn of the CPU: a call by a task, the return of one from `sleep`, or the close of
an end. `killed` is what the task finds when it tests itself for `Zombie`. -/
inductive PipeOp (ι : Type*) where
  | write (t : ι) (addr : ℕ → Option Byte) (n : ℤ) (killed : Bool)
  | read (t : ι) (addr : ℕ → Bool) (n : ℤ) (killed : Bool)
  | resume (t : ι) (killed : Bool)
  | close (writable : Bool)

namespace PipeSystem

variable {ι : Type*} [DecidableEq ι]

/-- Whether the turn can come: a call by a task that is outside, through an end that is
open, or the return of a task that was woken. -/
def Permitted (s : PipeSystem ι) : PipeOp ι → Prop
  | .write t _ _ _ => s.phase t = .out ∧ s.pipe.writeopen = true
  | .read t _ _ _ => s.phase t = .out ∧ s.pipe.readopen = true
  | .resume t _ => (∃ addr n i, s.phase t = .writing addr n i false) ∨
      ∃ addr n, s.phase t = .reading addr n false
  | .close writable => (if writable then s.pipe.writeopen else s.pipe.readopen) = true

def pipeStep (s : PipeSystem ι) : PipeOp ι → Option (Option ℤ × PipeSystem ι)
  | .write t addr n killed => pipewriteLoop t addr n.toNat killed n.toNat s 0
  | .read t addr n killed => piperead t addr n.toNat killed s
  | .resume t killed =>
      match s.phase t with
      | .writing addr n i _ => pipewriteLoop t addr n killed (n - i) s i
      | .reading addr n _ => piperead t addr n killed s
      | .out => none
  | .close writable => (s.pipeclose writable).map fun s => (some 0, s)

/-- A step with what it returns, `none` where the task sleeps. -/
def PipeStep (s : PipeSystem ι) (a : PipeOp ι × Option ℤ) (s' : PipeSystem ι) : Prop :=
  s.Permitted a.1 ∧ s.pipeStep a.1 = some (a.2, s')

/-- The pipe that `pipealloc` makes, in memory that holds `data`. -/
def pipealloc (data : ℕ → Byte) : PipeSystem ι where
  pipe :=
    { data := data
      nread := 0
      nwrite := 0
      readopen := true
      writeopen := true
      rwaiter := []
      wwaiter := [] }
  phase := fun _ => .out
  accepted := []
  delivered := []

end PipeSystem

end K210Os
