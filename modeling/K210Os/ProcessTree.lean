import K210Os.TaskQueues

/-!
# Processes: `fork`, `exit_current_and_run_next` and `waitpid`

A process links its children through their `ctag` in its list `child`. An operation is
what the running process does until it returns to the user or leaves the CPU; a `waitpid`
that slept goes on with the next `resume`. `none` is a panic, a store through a null
pointer, or a walk that has not ended.
-/

namespace K210Os

open DoublyLinked Transition

/-- A `waitpid` on its way: its arguments and its variable `flag`. -/
structure WaitCall where
  pid : BitVec 64
  codeExitAddr : BitVec 64
  options : BitVec 32
  flag : Bool

structure PidAllocator where
  current : BitVec 64
  recycledStack : List (BitVec 64)

def pidInit : PidAllocator := ⟨1, []⟩

def PidAllocator.pidAlloc (a : PidAllocator) : BitVec 64 × PidAllocator :=
  match a.recycledStack with
  | pid :: rest => (pid, { a with recycledStack := rest })
  | [] => (a.current, { a with current := a.current + 1 })

/-- `reaped` records who reaped whom; no function reads it. -/
structure Processes (ι ω : Type*) where
  tasks : Tasks ι ω
  child : Links (Node ι ι)
  pids : PidAllocator
  pid : ι → BitVec 64
  parent : ι → Option ι
  exitCode : ι → BitVec 32
  call : ι → Option WaitCall
  reaped : List (ι × ι)

/-- `copied` says whether `copyout2` takes the status. -/
inductive ProcOp (ι ω : Type*) where
  | init (w : ω)
  | dispatch
  | suspend
  | sleep (w : ω)
  | wakeupFromwq (w : ω)
  | fork (c : ι)
  | exit (exitCode : BitVec 32) (closed : List (TaskQueue ω))
  | waitpid (pid codeExitAddr : BitVec 64) (options : BitVec 32) (copied : Bool)
  | resume (copied : Bool)

namespace Processes

variable {ι ω : Type*} [DecidableEq ι] [DecidableEq ω]

/-- `INITPROC` alone, in memory with arbitrary links. -/
def addInitproc (initproc : ι) (links : Links (Node (TaskQueue ω) (TaskLink ι)))
    (child : Links (Node ι ι)) : Option (Processes ι ω) :=
  let (pid, pids) := pidInit.pidAlloc
  (((Tasks.tmInit links).tcbNew initproc).taskAdd initproc).map fun tasks =>
    { tasks
      child := child.listInit initproc
      pids
      pid := Function.update (fun _ => 0) initproc pid
      parent := fun _ => none
      exitCode := fun _ => 0
      call := fun _ => none
      reaped := [] }

/-- `fork` of the process `p`, and the `task_add` of `sys_fork`. -/
def fork (s : Processes ι ω) (p c : ι) : Option (BitVec 64 × Processes ι ω) :=
  let (pid, pids) := s.pids.pidAlloc
  ((s.child.listInit c).listAppend p c).bind fun child =>
    ((s.tasks.tcbNew c).taskAdd c).map fun tasks =>
      (pid,
        { s with
          tasks
          child
          pids
          pid := Function.update s.pid c pid
          parent := Function.update s.parent c (some p)
          exitCode := Function.update s.exitCode c 0
          call := Function.update s.call c none })

/-- The loop of `exit_current_and_run_next` that hands the children of `p` over to
`INITPROC`. -/
def adopt (initproc p : ι) : ℕ → Processes ι ω → Option (Processes ι ω)
  | 0, _ => none
  | fuel + 1, s =>
      if s.child.listEmpty p then some s
      else
        (s.child.listPop p).bind fun (c, child) =>
          (child.listAppend initproc c).bind fun child =>
            adopt initproc p fuel
              { s with child, parent := Function.update s.parent c (some initproc) }

/-- No function that runs before the `wakeup_fromwq` of a closed file reads the status, so
that it can become `Zombie` behind the loop. -/
def exitCurrentAndRunNext (initproc : ι) (s : Processes ι ω) (p : ι) (exitCode : BitVec 32)
    (closed : List (TaskQueue ω)) : Option (Processes ι ω) :=
  if p = initproc then none
  else
    (adopt initproc p (s.tasks.known.length + 1)
        { s with exitCode := Function.update s.exitCode p exitCode }).bind fun s =>
      (s.parent p).bind fun parent =>
        (s.tasks.exitCurrentAndRunNext p parent closed).map fun tasks => { s with tasks }

/-- `pid == -1 || pid == c->pid` -/
def Wanted (s : Processes ι ω) (pid : BitVec 64) (c : ι) : Prop := pid = -1 ∨ pid = s.pid c

instance (s : Processes ι ω) (pid : BitVec 64) (c : ι) : Decidable (s.Wanted pid c) :=
  inferInstanceAs (Decidable (_ ∨ _))

/-- The inner loop of `waitpid`, from `elem` on: the child to report, and `flag`. -/
def scan (s : Processes ι ω) (p : ι) (pid : BitVec 64) :
    ℕ → Node ι ι → Bool → Option (Option ι × Bool)
  | 0, _, _ => none
  | fuel + 1, elem, flag =>
      if elem = .tail p then some (none, flag)
      else
        match elem with
        | .elem c =>
            if s.Wanted pid c then
              if s.tasks.status c = .zombie then some (some c, true)
              else (s.child.next elem).bind fun elem => scan s p pid fuel elem true
            else (s.child.next elem).bind fun elem => scan s p pid fuel elem flag
        | _ => none

def scanChildren (s : Processes ι ω) (p : ι) (call : WaitCall) : Option (Option ι × Bool) :=
  (s.child.next (.head p)).bind fun elem =>
    s.scan p call.pid (s.tasks.known.length + 1) elem call.flag

/-- The report of the zombie `c`. -/
def report (s : Processes ι ω) (p c : ι) (call : WaitCall) (copied : Bool) :
    Option (BitVec 64 × Processes ι ω) :=
  let s := { s with exitCode := Function.update s.exitCode c (s.exitCode c <<< 8) }
  if call.codeExitAddr ≠ 0 ∧ copied = false then some (-1, s)
  else (s.child.remove (.elem c)).map fun child =>
    (s.pid c, { s with child, reaped := (p, c) :: s.reaped })

/-- One round of the outer loop of `waitpid`; it delivers nothing where the process went
to sleep. -/
def waitRound (s : Processes ι ω) (p : ι) (call : WaitCall) (copied : Bool) :
    Option (Option (BitVec 64) × Processes ι ω) :=
  let done := { s with call := Function.update s.call p none }
  (s.scanChildren p call).bind fun (found, flag) =>
    match found with
    | some c => (done.report p c call copied).map fun (pid, s) => (some pid, s)
    | none =>
        if flag = false ∨ s.tasks.status p = .zombie then some (some (-1), done)
        else if call.options = 0 then
          (s.tasks.sleep p .sleepVec).map fun tasks =>
            (none, { s with tasks, call := Function.update s.call p (some { call with flag }) })
        else some (some 0, done)

/-- The process that runs and is not inside `waitpid`. -/
def current (s : Processes ι ω) : Option ι :=
  s.tasks.running.bind fun p => if (s.call p).isNone then some p else none

def Permitted (s : Processes ι ω) : ProcOp ι ω → Prop
  | .init w => s.tasks.live (.other w) = false
  | .dispatch => s.tasks.running = none
  | .suspend => s.current.isSome = true
  | .sleep w => s.current.isSome = true ∧ s.tasks.live (.other w) = true
  | .wakeupFromwq w => s.tasks.live (.other w) = true
  | .fork c => s.current.isSome = true ∧ c ∉ s.tasks.known
  | .exit _ closed =>
      s.current.isSome = true ∧ ∀ q ∈ closed, q.isWait = true ∧ s.tasks.live q = true
  | .waitpid .. => s.current.isSome = true
  | .resume _ => ∃ p call, s.tasks.running = some p ∧ s.call p = some call

/-- Only the queues and the statuses change. -/
def schedule (s : Processes ι ω) (tasks : Option (Tasks ι ω)) :
    Option (Option (BitVec 64) × Processes ι ω) :=
  tasks.map fun tasks => (none, { s with tasks })

def procStep (initproc : ι) (s : Processes ι ω) :
    ProcOp ι ω → Option (Option (BitVec 64) × Processes ι ω)
  | .init w => s.schedule (some (s.tasks.listInit (.other w)))
  | .dispatch => s.schedule s.tasks.run
  | .suspend => s.current.bind fun p => s.schedule (s.tasks.suspendCurrentAndRunNext p)
  | .sleep w => s.current.bind fun p => s.schedule (s.tasks.sleep p (.other w))
  | .wakeupFromwq w => s.schedule (s.tasks.wakeupFromwq (.other w))
  | .fork c => s.current.bind fun p => (s.fork p c).map fun (pid, s) => (some pid, s)
  | .exit exitCode closed =>
      s.current.bind fun p =>
        (exitCurrentAndRunNext initproc s p exitCode closed).map fun s => (none, s)
  | .waitpid pid codeExitAddr options copied =>
      s.current.bind fun p => s.waitRound p ⟨pid, codeExitAddr, options, false⟩ copied
  | .resume copied =>
      s.tasks.running.bind fun p => (s.call p).bind fun call => s.waitRound p call copied

/-- A step, with what it delivers to the process. -/
def ProcStep (initproc : ι) (s : Processes ι ω) (l : ProcOp ι ω × Option (BitVec 64))
    (s' : Processes ι ω) : Prop :=
  s.Permitted l.1 ∧ procStep initproc s l.1 = some (l.2, s')

end Processes

end K210Os
