import K210Os.SentinelLists
import K210Os.Transition

/-!
# Tasks and their queues

The operations that move tasks between the ready queue, the wait queues and the CPU,
each as one atomic step on one CPU. `none` is a panic, a store through a null pointer,
or a walk that has not ended.
-/

namespace K210Os

open DoublyLinked Transition

inductive TaskStatus where
  | uninit
  | ready
  | running
  | zombie
  | sleeping
deriving DecidableEq

/-- `TASK_MANAGER`'s three lists and the other wait queues of the kernel. -/
inductive TaskQueue (ω : Type*) where
  | ready
  | sleepVec
  | allTask
  | other (w : ω)
deriving DecidableEq

/-- The two links of a task control block: `tag`, and `all` for `all_task`. -/
inductive TaskLink (ι : Type*) where
  | tag (t : ι)
  | all (t : ι)
deriving DecidableEq

/-- A queue in which a task waits. -/
def TaskQueue.isWait {ω : Type*} : TaskQueue ω → Bool
  | .sleepVec => true
  | .other _ => true
  | _ => false

/-- `running` is the task that the CPU executes, none in the loop of `run`; `live` are the
queues that were initialised and `known` the tasks made so far. `entered` says which tasks
have once been in the ready queue; no function reads it. -/
structure Tasks (ι ω : Type*) where
  links : Links (Node (TaskQueue ω) (TaskLink ι))
  live : TaskQueue ω → Bool
  status : ι → TaskStatus
  running : Option ι
  known : List ι
  entered : ι → Bool

inductive TaskOp (ι ω : Type*) where
  | init (w : ω)
  | create (t : ι)
  | add (t : ι)
  | dispatch
  | suspend
  | sleep (q : TaskQueue ω)
  | wakeupFromwq (q : TaskQueue ω)
  | wakeupFromsv (t : ι)
  | exit (parent : ι) (closed : List (TaskQueue ω))

namespace Tasks

variable {ι ω : Type*} [DecidableEq ι] [DecidableEq ω]

def setStatus (s : Tasks ι ω) (t : ι) (status : TaskStatus) : Tasks ι ω :=
  { s with status := Function.update s.status t status }

def listInit (s : Tasks ι ω) (q : TaskQueue ω) : Tasks ι ω :=
  { s with links := s.links.listInit q, live := Function.update s.live q true }

/-- `tm_init`, in memory with arbitrary links. -/
def tmInit (links : Links (Node (TaskQueue ω) (TaskLink ι))) : Tasks ι ω :=
  let s : Tasks ι ω := ⟨links, fun _ => false, fun _ => .uninit, none, [], fun _ => false⟩
  ((s.listInit .ready).listInit .allTask).listInit .sleepVec

/-- A new task control block, as `tcb_new` and `fork` make it. -/
def tcbNew (s : Tasks ι ω) (t : ι) : Tasks ι ω :=
  { s.setStatus t .ready with known := t :: s.known }

def taskCreate (s : Tasks ι ω) (t : ι) : Option (Tasks ι ω) :=
  (s.links.listPush .allTask (.all t)).map fun links => { s with links := links }

/-- Records that the task is in the ready queue. -/
def enter (s : Tasks ι ω) (t : ι) : Tasks ι ω :=
  { s with entered := Function.update s.entered t true }

def taskAdd (s : Tasks ι ω) (t : ι) : Option (Tasks ι ω) :=
  (s.links.listAppend .ready (.tag t)).map fun links => { s with links := links }.enter t

/-- `list_pop` of a queue of tags. -/
def popTag (s : Tasks ι ω) (q : TaskQueue ω) : Option (ι × Tasks ι ω) :=
  match s.links.listPop q with
  | some (.tag t, links) => some (t, { s with links := links })
  | _ => none

def taskFetch (s : Tasks ι ω) : Option (Option ι × Tasks ι ω) :=
  if s.links.listEmpty .ready then some (none, s)
  else (s.popTag .ready).map fun (t, s) => (some t, s)

/-- The part of `run` that takes a task from `all_task` when nothing is ready. -/
def refill (s : Tasks ι ω) : Option (Tasks ι ω) :=
  if s.links.listEmpty .ready && !s.links.listEmpty .allTask then
    match s.links.listPop .allTask with
    | some (.all t, links) =>
        (links.listPush .ready (.tag t)).map fun links => { s with links := links }.enter t
    | _ => none
  else some s

/-- One round of `run`. -/
def run (s : Tasks ι ω) : Option (Tasks ι ω) := do
  let (task, s) ← taskFetch s
  let s ← refill s
  match task with
  | some t => return { s.setStatus t .running with running := some t }
  | none => return s

def suspendCurrentAndRunNext (s : Tasks ι ω) (t : ι) : Option (Tasks ι ω) :=
  ((s.setStatus t .ready).taskAdd t).map fun s => { s with running := none }

def sleep (s : Tasks ι ω) (t : ι) (q : TaskQueue ω) : Option (Tasks ι ω) :=
  if s.links.next (.elem (.tag t)) ≠ none ∨ s.links.prev (.elem (.tag t)) ≠ none then none
  else (s.links.listAppend q (.tag t)).map fun links =>
    { { s with links := links }.setStatus t .sleeping with running := none }

def wakeupFromwq (s : Tasks ι ω) (q : TaskQueue ω) : Option (Tasks ι ω) :=
  if s.links.listEmpty q then some s
  else do
    let (t, s) ← s.popTag q
    if s.status t ≠ .sleeping then none else (s.setStatus t .ready).taskAdd t

/-- `elem_find(&TASK_MANAGER.sleep_vec, &p->tag)`; no list of tags is longer than there are
tasks. -/
def sleepVecHas (s : Tasks ι ω) (t : ι) : Option Bool :=
  (s.links.next (.head .sleepVec)).bind fun node =>
    s.links.elemFind .sleepVec (.tag t) (s.known.length + 1) node

def wakeupFromsv (s : Tasks ι ω) (t : ι) : Option (Tasks ι ω) :=
  match s.sleepVecHas t with
  | none => none
  | some false => some s
  | some true => (s.links.remove (.elem (.tag t))).bind fun links =>
      ({ s with links := links }.setStatus t .ready).taskAdd t

/-- `exit_current_and_run_next`; `closed` are the wait queues that closing the files of
the task wakes. -/
def exitCurrentAndRunNext (s : Tasks ι ω) (t parent : ι) (closed : List (TaskQueue ω)) :
    Option (Tasks ι ω) := do
  let s ← closed.foldlM wakeupFromwq (s.setStatus t .zombie)
  let s ← s.wakeupFromsv parent
  return { s with running := none }

/-- Whether the operation can come: a task is made once, the loop of `run` goes on when
no task runs, and a running task leaves the CPU. -/
def Permitted (s : Tasks ι ω) : TaskOp ι ω → Prop
  | .init w => s.live (.other w) = false
  | .create t => t ∉ s.known
  | .add t => t ∉ s.known
  | .dispatch => s.running = none
  | .suspend => s.running.isSome = true
  | .sleep q => s.running.isSome = true ∧ q.isWait = true ∧ s.live q = true
  | .wakeupFromwq q => q.isWait = true ∧ s.live q = true
  | .wakeupFromsv _ => True
  | .exit _ closed => s.running.isSome = true ∧ ∀ q ∈ closed, q.isWait = true ∧ s.live q = true

def taskStep (s : Tasks ι ω) : TaskOp ι ω → Option (Tasks ι ω)
  | .init w => some (s.listInit (.other w))
  | .create t => (s.tcbNew t).taskCreate t
  | .add t => (s.tcbNew t).taskAdd t
  | .dispatch => s.run
  | .suspend => s.running.bind s.suspendCurrentAndRunNext
  | .sleep q => s.running.bind fun t => s.sleep t q
  | .wakeupFromwq q => s.wakeupFromwq q
  | .wakeupFromsv t => s.wakeupFromsv t
  | .exit parent closed => s.running.bind fun t => s.exitCurrentAndRunNext t parent closed

def TaskStep (s : Tasks ι ω) (op : TaskOp ι ω) (s' : Tasks ι ω) : Prop :=
  s.Permitted op ∧ s.taskStep op = some s'

end Tasks

end K210Os
