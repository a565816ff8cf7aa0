import K210Os.LockTable
import K210Os.Memory
import K210Os.ProcessTree

/-!
# The locks that the tasks take

The `acquire` and `release` calls of the pipes, the console, `waitpid`, `fork`,
`exit_current_and_run_next` and the scheduler, in the order of the code. A turn is what
the CPU does until the task leaves it in `schedule` or the call returns. All locks are
initialised when a run starts: none is used before its `initlock`.
-/

namespace K210Os

open DoublyLinked Transition

/-- The wait queues of the pipe `i`, and that of the console. -/
inductive WaitQueue (π : Type*) where
  | rwaiter (i : π)
  | wwaiter (i : π)
  | waitr
deriving DecidableEq

/-- The locks of the buffer cache and of the semaphores. -/
inductive DiskLock where
  | bcache
  | sem (n : ℕ)
deriving DecidableEq

/-- `queue` and `child` are the locks of the lists. -/
inductive KernelLock (ι π : Type*) where
  | tcb (t : ι)
  | pipe (i : π)
  | cons
  | taskManager
  | queue (q : TaskQueue (WaitQueue π))
  | child (t : ι)
  | pidAllocator
  | kheap
  | ftable
  | ecache
  | disk (lk : DiskLock)
deriving DecidableEq

/-- `struct cons` without its lock and its queue. -/
structure Console where
  buf : ℕ → Byte
  r : BitVec 32
  w : BitVec 32

/-- `consoleread` with so many bytes to go: whether it comes to its `sleep`, and the bytes
that are left. `copied` says which bytes `either_copyout` takes. -/
def Console.read (copied : ℕ → Bool) (target : ℕ) : ℕ → Console → Bool × ℕ × Console
  | 0, s => (false, 0, s)
  | n + 1, s =>
      if s.r = s.w then (true, n + 1, s)
      else
        let c := s.buf (s.r.toNat % 128)
        let s' := { s with r := s.r + 1 }
        if c = 4 then (false, n + 1, if n + 1 < target then s else s')
        else if copied (target - (n + 1)) = false then (false, n + 1, s')
        else if c = 10 then (false, n, s')
        else Console.read copied target n s'

/-- An `eput`: the count goes down; or it was 1, and the entry is written back under its
semaphore and those of the disk layer, each released before the next is taken; from there
it may climb to the parent. -/
inductive Eput where
  | drop
  | last (entry : ℕ) (disk : List DiskLock)
  | climb (entry : ℕ) (disk : List DiskLock) (parent : Eput)

/-- What `fileclose` finds: other references, the end of a pipe (with the other end closed
already, or not), a file of the volume, or a device. -/
inductive Closing (π : Type*) where
  | shared
  | pipe (i : π) (writable other : Bool)
  | entry (e : Eput)
  | device

def Closing.queue? {π : Type*} : Closing π → Option (TaskQueue (WaitQueue π))
  | .pipe i true _ => some (.other (.rwaiter i))
  | .pipe i false _ => some (.other (.wwaiter i))
  | _ => none

/-- The calls of `buddy_alloc` for the address space and for the kernel stack, whether
there is a current directory, and the number of open files. -/
structure ForkWork where
  space : ℕ
  stack : ℕ
  cwd : Bool
  files : ℕ

/-- The blocks that `ms_ma_free` gives back, the files, and the current directory. -/
structure ExitWork (π : Type*) where
  freed : ℕ
  files : List (Closing π)
  cwd : Eput

/-- What a call finds: whether `copyout2` takes a status, whether a pipe is empty (with an
open writing end) or full, whether its reading end is open, and which bytes of the console
can be copied out. -/
structure Found where
  copied : Bool
  blocked : Bool
  readopen : Bool
  bytes : ℕ → Bool

/-- A call that sleeps, `waitpid` apart. -/
inductive PendingCall (π : Type*) where
  | piperead (i : π)
  | pipewrite (i : π)
  | consoleread (target left : ℕ)

inductive KernelOp (ι π : Type*) where
  | dispatch
  | suspend
  | fork (c : ι) (work : ForkWork)
  | exit (exitCode : BitVec 32) (work : ExitWork π)
  | waitpid (pid codeExitAddr : BitVec 64) (options : BitVec 32) (found : Found)
  | pipealloc (i : π)
  | piperead (i : π) (found : Found)
  | pipewrite (i : π) (found : Found)
  | consoleread (n : ℤ) (found : Found)
  | resume (found : Found)

/-- `pending` are the calls whose tasks left the CPU in `sleep` and are not back. -/
structure Kernel (ι π : Type*) where
  procs : Processes ι (WaitQueue π)
  locks : LockTable (KernelLock ι π)
  pending : ι → Option (PendingCall π)
  cons : Console

/-! ## The calls of the functions -/

namespace Locking

variable {ι π : Type*}

/-- `list_push`, `list_append` and `list_pop`. -/
def listOp (q : TaskQueue (WaitQueue π)) : List (LockCall (KernelLock ι π)) :=
  locked (.queue q) []

def taskAdd : List (LockCall (KernelLock ι π)) := locked .taskManager (listOp .ready)

def sleepExit [DecidableEq ι] [DecidableEq π] (p : ι) (lock : KernelLock ι π) :
    List (LockCall (KernelLock ι π)) :=
  if lock = .tcb p then [] else [.release (.tcb p), .acquire lock]

/-- `sleep` up to its `schedule`. -/
def sleep [DecidableEq ι] [DecidableEq π] (p : ι) (q : TaskQueue (WaitQueue π))
    (lock : KernelLock ι π) : List (LockCall (KernelLock ι π)) :=
  (if lock = .tcb p then [] else [.acquire (.tcb p), .release lock]) ++ listOp q

def suspendCurrentAndRunNext (p : ι) : List (LockCall (KernelLock ι π)) :=
  locked (.tcb p) [] ++ taskAdd

def buddyCalls (n : ℕ) : List (LockCall (KernelLock ι π)) :=
  (List.replicate n ()).flatMap fun _ => locked .kheap []

def diskCalls (disk : List DiskLock) : List (LockCall (KernelLock ι π)) :=
  disk.flatMap fun lk => locked (.disk lk) []

/-- The branch of `eput` for the last reference. -/
def eputLast (entry : ℕ) (disk : List DiskLock) : List (LockCall (KernelLock ι π)) :=
  locked .ecache (locked (.disk (.sem entry)) []) ++ diskCalls disk ++
    locked (.disk (.sem entry)) [] ++ locked .ecache []

def eput : Eput → List (LockCall (KernelLock ι π))
  | .drop => locked .ecache []
  | .last entry disk => eputLast entry disk
  | .climb entry disk parent => eputLast entry disk ++ eput parent

/-- `fork`, and the `task_add` of `sys_fork`. -/
def fork (p : ι) (work : ForkWork) : List (LockCall (KernelLock ι π)) :=
  locked (.tcb p)
      (buddyCalls (work.space + 1) ++ locked .pidAllocator [] ++ buddyCalls work.stack ++
        (if work.cwd then locked .ecache [] else []) ++
        (List.replicate work.files ()).flatMap (fun _ => locked .ftable []) ++
        locked (.child p) []) ++
    taskAdd

variable [DecidableEq ι] [DecidableEq π]

def taskFetch (s : Tasks ι (WaitQueue π)) : List (LockCall (KernelLock ι π)) :=
  locked .taskManager (if s.links.listEmpty .ready then [] else listOp .ready)

/-- One round of `run`. -/
def run (s : Tasks ι (WaitQueue π)) : List (LockCall (KernelLock ι π)) :=
  taskFetch s ++
    match s.taskFetch with
    | some (_, s) =>
        if s.links.listEmpty .ready && !s.links.listEmpty .allTask then
          listOp .allTask ++ listOp .ready
        else []
    | none => []

def wakeupFromwq (s : Tasks ι (WaitQueue π)) (q : TaskQueue (WaitQueue π)) :
    List (LockCall (KernelLock ι π)) :=
  if s.links.listEmpty q then [] else listOp q ++ taskAdd

def wakeupFromsv (s : Tasks ι (WaitQueue π)) (t : ι) : List (LockCall (KernelLock ι π)) :=
  if s.sleepVecHas t = some true then taskAdd else []

def pipeclose (s : Tasks ι (WaitQueue π)) (i : π) (q : TaskQueue (WaitQueue π)) (other : Bool) :
    List (LockCall (KernelLock ι π)) :=
  locked (.pipe i) (wakeupFromwq s q) ++ if other then locked .kheap [] else []

def fileclose (s : Tasks ι (WaitQueue π)) (closing : Closing π) :
    List (LockCall (KernelLock ι π)) :=
  locked .ftable [] ++
    match closing with
    | .pipe i true other => pipeclose s i (.other (.rwaiter i)) other
    | .pipe i false other => pipeclose s i (.other (.wwaiter i)) other
    | .entry e => eput e
    | _ => []

/-- The files of a task that exits, one after the other, and the tasks behind it. -/
def closeFiles : Tasks ι (WaitQueue π) → List (Closing π) →
    List (LockCall (KernelLock ι π)) × Tasks ι (WaitQueue π)
  | s, [] => ([], s)
  | s, closing :: files =>
      let woken := (closing.queue?.bind fun q => s.wakeupFromwq q).getD s
      let (calls, s') := closeFiles woken files
      (fileclose s closing ++ calls, s')

/-- The loop that hands the children of `p` over to `INITPROC`. -/
def adopt (initproc p : ι) : ℕ → Links (Node ι ι) → List (LockCall (KernelLock ι π))
  | 0, _ => []
  | fuel + 1, L =>
      if L.listEmpty p then []
      else
        locked (.child p) [] ++ locked (.child initproc) [] ++
          match (L.listPop p).bind fun (c, L) => L.listAppend initproc c with
          | some L => adopt initproc p fuel L
          | none => []

def exitCurrentAndRunNext (initproc : ι) (s : Processes ι (WaitQueue π)) (p : ι)
    (work : ExitWork π) : List (LockCall (KernelLock ι π)) :=
  if p = initproc then []
  else
    let (files, tasks) := closeFiles (s.tasks.setStatus p .zombie) work.files
    locked (.tcb p)
        (locked (.tcb initproc) (adopt initproc p (s.tasks.known.length + 1) s.child) ++
          buddyCalls work.freed ++ files ++ eput work.cwd) ++
      match s.parent p with
      | some parent => wakeupFromsv tasks parent
      | none => []

/-- The inner loop of `waitpid`; it keeps the lock of the child that is reported. -/
def scan (s : Processes ι (WaitQueue π)) (p : ι) (pid : BitVec 64) :
    ℕ → Node ι ι → List (LockCall (KernelLock ι π))
  | 0, _ => []
  | fuel + 1, elem =>
      if elem = .tail p then []
      else
        match elem with
        | .elem c =>
            .acquire (.tcb c) ::
              if s.Wanted pid c ∧ s.tasks.status c = .zombie then []
              else
                .release (.tcb c) ::
                  match s.child.next elem with
                  | some elem => scan s p pid fuel elem
                  | none => []
        | _ => []

/-- One round of the outer loop of `waitpid`. -/
def waitRound (s : Processes ι (WaitQueue π)) (p : ι) (call : WaitCall) :
    List (LockCall (KernelLock ι π)) :=
  ((s.child.next (.head p)).elim [] fun elem =>
      scan s p call.pid (s.tasks.known.length + 1) elem) ++
    match s.scanChildren p call with
    | some (some c, _) => [.release (.tcb p), .release (.tcb c)]
    | some (none, flag) =>
        if flag = false ∨ s.tasks.status p = .zombie then [.release (.tcb p)]
        else if call.options = 0 then sleep p .sleepVec (.tcb p)
        else []
    | none => []

/-- `piperead` with the lock of the pipe. -/
def piperead (s : Tasks ι (WaitQueue π)) (p : ι) (i : π) (found : Found) :
    List (LockCall (KernelLock ι π)) :=
  if found.blocked then
    if s.status p = .zombie then [.release (.pipe i)]
    else sleep p (.other (.rwaiter i)) (.pipe i)
  else wakeupFromwq s (.other (.wwaiter i)) ++ [.release (.pipe i)]

/-- `pipewrite` with the lock of the pipe. -/
def pipewrite (s : Tasks ι (WaitQueue π)) (p : ι) (i : π) (found : Found) :
    List (LockCall (KernelLock ι π)) :=
  if found.blocked then
    if found.readopen = false ∨ s.status p = .zombie then [.release (.pipe i)]
    else wakeupFromwq s (.other (.rwaiter i)) ++ sleep p (.other (.wwaiter i)) (.pipe i)
  else wakeupFromwq s (.other (.rwaiter i)) ++ [.release (.pipe i)]

/-- The loop of `consoleread`, which takes no lock. -/
def consoleread (s : Tasks ι (WaitQueue π)) (p : ι) (sleeps : Bool) :
    List (LockCall (KernelLock ι π)) :=
  if sleeps then
    if s.status p = .zombie then [.release .cons] else sleep p (.other .waitr) .cons
  else []

end Locking

/-! ## Turns -/

namespace Kernel

variable {ι π : Type*} [DecidableEq ι] [DecidableEq π]

def InSleep (s : Kernel ι π) (t : ι) : Prop :=
  (s.procs.call t).isSome = true ∨ (s.pending t).isSome = true

/-- The process that runs and is not inside a call. -/
def current (s : Kernel ι π) : Option ι :=
  s.procs.current.bind fun p => if (s.pending p).isNone then some p else none

/-- The lock calls of a turn of the process `p`. -/
def callsOf (initproc : ι) (s : Kernel ι π) (p : ι) :
    KernelOp ι π → List (LockCall (KernelLock ι π))
  | .dispatch => []
  | .suspend => Locking.suspendCurrentAndRunNext p
  | .fork _ work => Locking.fork p work
  | .exit _ work => Locking.exitCurrentAndRunNext initproc s.procs p work
  | .waitpid pid codeExitAddr options _ =>
      .acquire (.tcb p) :: Locking.waitRound s.procs p ⟨pid, codeExitAddr, options, false⟩
  | .pipealloc _ => locked .ftable [] ++ locked .ftable [] ++ locked .kheap []
  | .piperead i found => .acquire (.pipe i) :: Locking.piperead s.procs.tasks p i found
  | .pipewrite i found => .acquire (.pipe i) :: Locking.pipewrite s.procs.tasks p i found
  | .consoleread n found =>
      Locking.consoleread s.procs.tasks p (s.cons.read found.bytes n.toNat n.toNat).1
  | .resume found =>
      match s.procs.call p, s.pending p with
      | some call, _ => Locking.sleepExit p (.tcb p) ++ Locking.waitRound s.procs p call
      | none, some (.piperead i) =>
          Locking.sleepExit p (.pipe i) ++ Locking.piperead s.procs.tasks p i found
      | none, some (.pipewrite i) =>
          Locking.sleepExit p (.pipe i) ++ Locking.pipewrite s.procs.tasks p i found
      | none, some (.consoleread target left) =>
          Locking.sleepExit p .cons ++
            Locking.consoleread s.procs.tasks p (s.cons.read found.bytes target left).1
      | none, none => []

def calls (initproc : ι) (s : Kernel ι π) : KernelOp ι π → List (LockCall (KernelLock ι π))
  | .dispatch => Locking.run s.procs.tasks
  | op => s.procs.tasks.running.elim [] fun p => s.callsOf initproc p op

/-- The processes behind an operation. -/
def proc (initproc : ι) (s : Kernel ι π) (op : ProcOp ι (WaitQueue π)) : Option (Kernel ι π) :=
  (Processes.procStep initproc s.procs op).map fun (_, procs) => { s with procs }

def setPending (s : Kernel ι π) (p : ι) (call : Option (PendingCall π)) : Kernel ι π :=
  { s with pending := Function.update s.pending p call }

omit [DecidableEq π] in
@[simp] theorem setPending_procs (s : Kernel ι π) (p : ι) (call : Option (PendingCall π)) :
    (s.setPending p call).procs = s.procs := rfl

def piperead (initproc : ι) (s : Kernel ι π) (p : ι) (i : π) (found : Found) :
    Option (Kernel ι π) :=
  if found.blocked then
    if s.procs.tasks.status p = .zombie then some (s.setPending p none)
    else (s.proc initproc (.sleep (.rwaiter i))).map fun s => s.setPending p (some (.piperead i))
  else (s.proc initproc (.wakeupFromwq (.wwaiter i))).map fun s => s.setPending p none

def pipewrite (initproc : ι) (s : Kernel ι π) (p : ι) (i : π) (found : Found) :
    Option (Kernel ι π) :=
  if found.blocked then
    if found.readopen = false ∨ s.procs.tasks.status p = .zombie then some (s.setPending p none)
    else
      (s.proc initproc (.wakeupFromwq (.rwaiter i))).bind fun s =>
        (s.proc initproc (.sleep (.wwaiter i))).map fun s =>
          s.setPending p (some (.pipewrite i))
  else (s.proc initproc (.wakeupFromwq (.rwaiter i))).map fun s => s.setPending p none

def consoleread (initproc : ι) (s : Kernel ι π) (p : ι) (target n : ℕ) (found : Found) :
    Option (Kernel ι π) :=
  let (sleeps, left, cons) := s.cons.read found.bytes target n
  let s := { s with cons }
  if sleeps then
    if s.procs.tasks.status p = .zombie then some (s.setPending p none)
    else
      (s.proc initproc (.sleep .waitr)).map fun s =>
        s.setPending p (some (.consoleread target left))
  else some (s.setPending p none)

/-- What a turn of the process `p` does besides its lock calls. -/
def effectOf (initproc : ι) (s : Kernel ι π) (p : ι) : KernelOp ι π → Option (Kernel ι π)
  | .dispatch => none
  | .suspend => s.proc initproc .suspend
  | .fork c _ => s.proc initproc (.fork c)
  | .exit exitCode work =>
      s.proc initproc (.exit exitCode (work.files.filterMap Closing.queue?))
  | .waitpid pid codeExitAddr options found =>
      s.proc initproc (.waitpid pid codeExitAddr options found.copied)
  | .pipealloc i => (s.proc initproc (.init (.rwaiter i))).bind fun s =>
      s.proc initproc (.init (.wwaiter i))
  | .piperead i found => s.piperead initproc p i found
  | .pipewrite i found => s.pipewrite initproc p i found
  | .consoleread n found => s.consoleread initproc p n.toNat n.toNat found
  | .resume found =>
      match s.procs.call p, s.pending p with
      | some _, _ => s.proc initproc (.resume found.copied)
      | none, some (.piperead i) => s.piperead initproc p i found
      | none, some (.pipewrite i) => s.pipewrite initproc p i found
      | none, some (.consoleread target left) => s.consoleread initproc p target left found
      | none, none => none

def effect (initproc : ι) (s : Kernel ι π) : KernelOp ι π → Option (Kernel ι π)
  | .dispatch => s.proc initproc .dispatch
  | op => s.procs.tasks.running.bind fun p => s.effectOf initproc p op

/-- A pipe has its wait queues. -/
def PipeLive (s : Kernel ι π) (i : π) : Prop :=
  s.procs.tasks.live (.other (.rwaiter i)) = true ∧ s.procs.tasks.live (.other (.wwaiter i)) = true

def Permitted (s : Kernel ι π) : KernelOp ι π → Prop
  | .dispatch => s.procs.tasks.running = none
  | .suspend => s.current.isSome = true
  | .fork c _ => s.current.isSome = true ∧ c ∉ s.procs.tasks.known
  | .exit _ work =>
      s.current.isSome = true ∧
        ∀ q ∈ work.files.filterMap Closing.queue?, s.procs.tasks.live q = true
  | .waitpid .. => s.current.isSome = true
  | .pipealloc i =>
      s.current.isSome = true ∧ s.procs.tasks.live (.other (.rwaiter i)) = false ∧
        s.procs.tasks.live (.other (.wwaiter i)) = false
  | .piperead i _ => s.current.isSome = true ∧ s.PipeLive i
  | .pipewrite i _ => s.current.isSome = true ∧ s.PipeLive i
  | .consoleread .. => s.current.isSome = true
  | .resume _ => ∃ p, s.procs.tasks.running = some p ∧ s.InSleep p

def kernelStep (initproc : ι) (s : Kernel ι π) (op : KernelOp ι π) : Option (Kernel ι π) :=
  (s.locks.calls (s.calls initproc op)).bind fun locks =>
    (s.effect initproc op).map fun s => { s with locks }

def KernelStep (initproc : ι) (s : Kernel ι π) (op : KernelOp ι π) (s' : Kernel ι π) : Prop :=
  s.Permitted op ∧ s.kernelStep initproc op = some s'

/-- `INITPROC` alone and no lock taken; the console has its queue, and no byte. -/
def boot (initproc : ι) (links : Links (Node (TaskQueue (WaitQueue π)) (TaskLink ι)))
    (child : Links (Node ι ι)) (hartid : ℕ) (irq : Bool) (buf : ℕ → Byte) :
    Option (Kernel ι π) :=
  (Processes.addInitproc initproc links child).map fun procs =>
    { procs := { procs with tasks := procs.tasks.listInit (.other .waitr) }
      locks := ⟨⟨hartid, irq, 0, false⟩, fun _ => initlock⟩
      pending := fun _ => none
      cons := ⟨buf, 0, 0⟩ }

end Kernel

end K210Os
