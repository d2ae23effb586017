import Llama.Lib.Run
import Mathlib.Data.Int.Notation

/-!
# The task queue

`server_queue` holds the tasks that are posted to the server: those that wait to be processed,
those that were deferred until a slot is free, and those that were declined while the server was
computing.  The main thread pops a task, hands it to the callback outside the lock, and runs the
slots when there is no task left; while it computes, a worker pops tasks instead, and declines all
but those that only read the state of the server.

Every critical section is one step.  A task that was popped is in flight until the callback has
accepted, deferred or declined it.  Which tasks were posted, accepted, removed by a cancel, and
declined since the current yield began is recorded; the steps do not read it.
-/

namespace Llama

inductive ServerTaskType
  | completion
  | embedding
  | rerank
  | infill
  | cancel
  | control
  | nextResponse
  | metrics
  | slotGet
  | slotSave
  | slotRestore
  | slotErase
  | getLora
  | setLora
  deriving DecidableEq, Repr

/-- A task as it is posted. -/
structure NewTask where
  id : ℤ
  type : ServerTaskType
  idTarget : ℤ
  idSlot : ℤ
  deriving DecidableEq, Repr

/-- A task on its way through the queues.  `seq` is its place among all tasks that were posted. -/
structure QueueTask extends NewTask where
  seq : ℕ
  deriving DecidableEq, Repr

/-- The task `c` is a cancel of the task `t`, which was posted before it. -/
def QueueTask.Cancels (c t : QueueTask) : Prop :=
  c.type = .cancel ∧ c.idTarget = t.id ∧ t.seq < c.seq

instance (c t : QueueTask) : Decidable (c.Cancels t) :=
  inferInstanceAs (Decidable (_ ∧ _ ∧ _))

structure ServerQueue where
  id : ℤ
  running : Bool
  queueTasks : List QueueTask
  queueTasksDeferred : List QueueTask
  queueTasksUnhandled : List QueueTask
  busy : Bool
  yielding : Bool
  deriving DecidableEq, Repr

namespace ServerQueue

def cleanupPendingTask (q : ServerQueue) (idTarget : ℤ) : ServerQueue :=
  { q with
    queueTasks := q.queueTasks.filter fun t => t.id ≠ idTarget
    queueTasksDeferred := q.queueTasksDeferred.filter fun t => t.id ≠ idTarget
    queueTasksUnhandled := q.queueTasksUnhandled.filter fun t => t.id ≠ idTarget }

/-- The tasks that `cleanup_pending_task` removes. -/
def cancelled (q : ServerQueue) (idTarget : ℤ) : List QueueTask :=
  (q.queueTasks ++ q.queueTasksDeferred ++ q.queueTasksUnhandled).filter fun t => t.id = idTarget

/-- Add a task at an end of the queue. -/
def push (q : ServerQueue) (task : QueueTask) (front : Bool) : ServerQueue :=
  { q with queueTasks := if front then task :: q.queueTasks else q.queueTasks ++ [task] }

/-- The deferred task that `pop_deferred_task` takes: one that asks for the slot, else the first
one. -/
def deferredFor (q : ServerQueue) (idSlot : ℤ) : Option QueueTask :=
  (q.queueTasksDeferred.find? fun t => t.idSlot = idSlot).or q.queueTasksDeferred.head?

def popDeferredTask (q : ServerQueue) (idSlot : ℤ) : ServerQueue :=
  match q.deferredFor idSlot with
  | none => q
  | some t => { q with
      queueTasks := t :: q.queueTasks
      queueTasksDeferred := q.queueTasksDeferred.erase t }

def defer (q : ServerQueue) (task : QueueTask) : ServerQueue :=
  { q with queueTasksDeferred := q.queueTasksDeferred ++ [task] }

end ServerQueue

/-- What the callback does with a task. -/
inductive TaskOutcome
  | accepted
  | deferred
  | declined
  deriving DecidableEq, Repr

/-- `process_single_task`, as far as the queue is concerned.  A slot may be available or not. -/
def processSingleTask (type : ServerTaskType) (isYielding available : Bool) : TaskOutcome :=
  if isYielding && type ≠ .metrics && type ≠ .slotGet then .declined
  else
    match type with
    | .completion | .infill | .embedding | .rerank | .slotSave | .slotRestore | .slotErase =>
      if available then .accepted else .deferred
    | _ => .accepted

/-! ## Steps -/

/-- Where the main thread is: processing tasks, running the slots, computing while the worker
processes tasks, or waiting for the worker. -/
inductive MainPhase
  | tasks
  | slots
  | computing
  | waiting
  deriving DecidableEq, Repr

/-- The queue, what its threads are doing, and what was recorded.  The task in flight comes with
whether the worker popped it. -/
structure QueueRun where
  queue : ServerQueue
  phase : MainPhase
  inFlight : Option (QueueTask × Bool)
  posted : List QueueTask
  accepted : List QueueTask
  removed : List QueueTask
  declined : List QueueTask
  deriving DecidableEq, Repr

/-- What may happen next. -/
inductive QueueOp
  | getNewId
  | post (task : NewTask) (front : Bool)
  | postAll (tasks : List NewTask) (front : Bool)
  | popDeferredTask (idSlot : ℤ)
  | terminate
  | popMain
  | popWorker
  | callback (available : Bool)
  | tasksDone
  | slotsDone
  | yieldBegin
  | workDone
  | workerDone
  | yieldEnd

namespace QueueRun

/-- The state when the loop starts. -/
def init : QueueRun := ⟨⟨0, true, [], [], [], false, false⟩, .tasks, none, [], [], [], []⟩

/-- One task of `post`: a cancel cleans up, and the task is added. -/
def postTask (st : QueueRun) (task : NewTask) (front : Bool) : QueueRun :=
  let task : QueueTask := ⟨task, st.posted.length⟩
  let cancels := task.type = .cancel
  { st with
    queue := (if cancels then st.queue.cleanupPendingTask task.idTarget else st.queue).push task
      front
    posted := st.posted ++ [task]
    removed := st.removed ++ if cancels then st.queue.cancelled task.idTarget else [] }

/-- One task of the version of `post` for several tasks, which hands out the ids. -/
def postNext (front : Bool) (st : QueueRun) (task : NewTask) : QueueRun :=
  if task.id = -1 then
    { st with queue := { st.queue with id := st.queue.id + 1 } }.postTask
      { task with id := st.queue.id } front
  else st.postTask task front

/-- Take the first task of the queue. -/
def pop (st : QueueRun) (worker : Bool) : Option QueueRun :=
  match st.queue.running, st.inFlight, st.queue.queueTasks with
  | true, none, t :: queueTasks =>
    some { st with queue := { st.queue with queueTasks := queueTasks }, inFlight := some (t, worker) }
  | _, _, _ => none

/-- The end of the callback for the task in flight. -/
def finish (st : QueueRun) (t : QueueTask) : TaskOutcome → QueueRun
  | .accepted => { st with inFlight := none, accepted := st.accepted ++ [t] }
  | .deferred => { st with inFlight := none, queue := st.queue.defer t }
  | .declined => { st with
      inFlight := none
      queue := { st.queue with queueTasksUnhandled := st.queue.queueTasksUnhandled ++ [t] }
      declined := st.declined ++ [t] }

/-- The end of `yield_to_queue`: the declined tasks are put back. -/
def putBack (st : QueueRun) : QueueRun :=
  { st with
    phase := .slots
    queue := { st.queue with
      queueTasks := st.queue.queueTasksUnhandled ++ st.queue.queueTasks
      queueTasksUnhandled := [] }
    declined := [] }

/-- One step. -/
def step (st : QueueRun) : QueueOp → Option QueueRun
  | .getNewId => some { st with queue := { st.queue with id := st.queue.id + 1 } }
  | .post task front => if task.id = -1 then none else some (st.postTask task front)
  | .postAll tasks front => some (tasks.foldl (postNext front) st)
  | .popDeferredTask idSlot => some { st with queue := st.queue.popDeferredTask idSlot }
  | .terminate => some { st with queue := { st.queue with running := false } }
  | .popMain => if st.phase = .tasks then st.pop false else none
  | .popWorker => if st.queue.busy then st.pop true else none
  | .callback available => st.inFlight.map fun f =>
      st.finish f.1 (processSingleTask f.1.type f.2 available)
  | .tasksDone => if st.phase = .tasks ∧ st.inFlight = none ∧ st.queue.queueTasks = [] then
      some { st with phase := .slots } else none
  | .slotsDone => if st.phase = .slots then some { st with phase := .tasks } else none
  | .yieldBegin => if st.phase = .slots ∧ ¬st.queue.busy then
      some { st with phase := .computing, queue := { st.queue with busy := true, yielding := true } }
      else none
  | .workDone => if st.phase = .computing then
      some { st with phase := .waiting, queue := { st.queue with yielding := false } } else none
  | .workerDone => if st.queue.busy ∧ st.inFlight = none then
      some { st with queue := { st.queue with busy := false } } else none
  | .yieldEnd => if st.phase = .waiting ∧ ¬st.queue.busy then some st.putBack else none

end QueueRun

end Llama
