import Utamo.Lib.Linked
import Utamo.Lib.Loop
import Utamo.Lib.Word

/-!
# The scheduling policy

`kernel/core/sched_core.c`. Tasks are nodes in memory that belong to the caller; a pointer to a node
is its address, and 0 is `NULL`. The core keeps a registry of the tasks, a FIFO of those that are
ready and a list of the sleepers by deadline; both lists run through the one `next` pointer of the
nodes.

A loop over a list that does not end, and a step through a `NULL` pointer, are the `none` of an
operation: no list of a core in order has more than 64 tasks, so a loop gets 65 rounds.
-/

set_option autoImplicit false

namespace Utamo.Sched

open Lib

/-- `UTAMO_SCHED_MAX_TASKS` -/
def schedMaxTasks : Nat := 64

/-- `UINT32_MAX` -/
def uint32Max : Nat := 2 ^ 32 - 1

/-- `enum sched_state` -/
inductive SchedState
  | running
  | ready
  | blocked
  | sleeping
  | zombie
  deriving DecidableEq, Repr

/-- `struct sched_task` -/
structure SchedTask where
  owner : Nat
  id : Nat
  state : SchedState
  next : Nat
  wakeTick : Nat
  runTicks : Nat
  quantumLeft : Nat
  preemptDepth : Nat
  deriving DecidableEq, Repr

/-- `(struct sched_task){0}` -/
def SchedTask.zero : SchedTask where
  owner := 0
  id := 0
  state := .running
  next := 0
  wakeTick := 0
  runTicks := 0
  quantumLeft := 0
  preemptDepth := 0

/-- `struct sched_core` -/
structure SchedCore where
  tasks : Nat → Nat
  current : Nat
  idle : Nat
  readyHead : Nat
  readyTail : Nat
  sleepHead : Nat
  now : Nat
  nextId : Nat
  ticks : Nat
  switches : Nat
  taskCount : Nat
  quantumTicks : Nat
  reschedule : Bool
  initialized : Bool

/-- The core at the address `self`, and the nodes by their address. -/
structure SchedMachine where
  self : Nat
  core : SchedCore
  task : Nat → SchedTask

/-- Write the node at an address. -/
def SchedMachine.setTask (s : SchedMachine) (task : Nat) (value : SchedTask) : SchedMachine :=
  { s with task := Function.update s.task task value }

/-- `task->next` as a function of the node. -/
def SchedMachine.next (s : SchedMachine) (task : Nat) : Nat := (s.task task).next

/-- `core->current->state == UTAMO_SCHED_RUNNING` -/
def SchedMachine.currentRuns (s : SchedMachine) : Bool := (s.task s.core.current).state = .running

/-! ## Validation -/

/-- `task_slot` -/
def taskSlot (core : SchedCore) (task : Nat) : Nat :=
  if task ≠ 0 then firstIndex 0 schedMaxTasks fun i => core.tasks i = task else schedMaxTasks

/-- The counters of the first loop of `sched_core_validate`. -/
structure TaskCounts where
  count : Nat
  ready : Nat
  sleep : Nat
  running : Nat
  deriving DecidableEq, Repr

/-- What `sched_core_validate` checks of one task before its state. -/
def taskRegistered (s : SchedMachine) (i : Nat) : Bool :=
  let core := s.core
  let task := core.tasks i
  let node := s.task task
  if node.owner ≠ s.self ∨ core.nextId ≤ node.id ∨ core.quantumTicks < node.quantumLeft ∨
      (task ≠ core.current ∧ node.preemptDepth ≠ 0) then
    false
  else if anyRange 0 i fun j =>
      core.tasks j ≠ 0 ∧ (core.tasks j = task ∨ (s.task (core.tasks j)).id = node.id) then
    false
  else if task = core.idle then
    ¬ (node.id ≠ 0 ∨ node.next ≠ 0 ∨ node.wakeTick ≠ 0 ∨
      node.state ≠ if task = core.current then .running else .ready)
  else node.id ≠ 0

/-- The body of the first loop of `sched_core_validate`. -/
def validateTask (s : SchedMachine) (i : Nat) (counts : TaskCounts) : Option TaskCounts :=
  let core := s.core
  let task := core.tasks i
  let node := s.task task
  if task = 0 then some counts
  else if ¬ taskRegistered s i then none
  else
    let counts := { counts with count := counts.count + 1 }
    match node.state with
    | .running =>
      if task ≠ core.current ∨ node.next ≠ 0 ∨ node.wakeTick ≠ 0 then none
      else some { counts with running := counts.running + 1 }
    | .ready =>
      if node.wakeTick ≠ 0 then none
      else some (if task ≠ core.idle then { counts with ready := counts.ready + 1 } else counts)
    | .sleeping =>
      if node.wakeTick ≤ core.now ∨ node.preemptDepth ≠ 0 then none
      else some { counts with sleep := counts.sleep + 1 }
    | .blocked | .zombie =>
      if node.next ≠ 0 ∨ node.wakeTick ≠ 0 ∨ node.preemptDepth ≠ 0 then none else some counts

/-- The loop of `sched_core_validate` over the ready FIFO: the pointers `task` and `last`. -/
def validateReady (s : SchedMachine) : Nat → Nat → Nat → Option (Nat × Nat)
  | 0, task, last => some (task, last)
  | count + 1, task, _ =>
    if taskSlot s.core task = schedMaxTasks ∨ task = s.core.idle ∨ (s.task task).state ≠ .ready then
      none
    else validateReady s count (s.next task) task

/-- The loop of `sched_core_validate` over the sleepers: the pointer `task`. -/
def validateSleep (s : SchedMachine) : Nat → Nat → Nat → Option Nat
  | 0, task, _ => some task
  | count + 1, task, previousDeadline =>
    if taskSlot s.core task = schedMaxTasks ∨ (s.task task).state ≠ .sleeping ∨
        (s.task task).wakeTick < previousDeadline then
      none
    else validateSleep s count (s.next task) (s.task task).wakeTick

/-- `sched_core_validate` -/
def schedCoreValidate (s : SchedMachine) : Bool :=
  let core := s.core
  if ¬ core.initialized ∨ core.quantumTicks = 0 ∨ core.taskCount = 0 ∨
      schedMaxTasks < core.taskCount ∨ core.nextId < 2 ∨ taskSlot core core.idle = schedMaxTasks ∨
      taskSlot core core.current = schedMaxTasks then
    false
  else
    match forRangeM 0 schedMaxTasks (validateTask s) ⟨0, 0, 0, 0⟩ with
    | none => false
    | some counts =>
      if counts.count ≠ core.taskCount ∨ counts.running ≠ (if s.currentRuns then 1 else 0) ∨
          (counts.running = 0 ∧ ¬ core.reschedule) then
        false
      else
        match validateReady s counts.ready core.readyHead 0 with
        | none => false
        | some (task, last) =>
          if task ≠ 0 ∨ last ≠ core.readyTail then false
          else
            match validateSleep s counts.sleep core.sleepHead 0 with
            | none => false
            | some task => task = 0

/-! ## Tasks -/

/-- `sched_core_init` -/
def schedCoreInit (s : SchedMachine) (idle bootstrap quantumTicks now : Nat) :
    SchedMachine × Bool :=
  if s.core.initialized ∨ idle = 0 ∨ bootstrap = 0 ∨ idle = bootstrap ∨ (s.task idle).owner ≠ 0 ∨
      (s.task bootstrap).owner ≠ 0 ∨ quantumTicks = 0 then
    (s, false)
  else
    let core : SchedCore :=
      { tasks := Function.update (Function.update (fun _ => 0) 0 idle) 1 bootstrap
        current := bootstrap, idle, readyHead := 0, readyTail := 0, sleepHead := 0, now, nextId := 2
        ticks := 0, switches := 0, taskCount := 2, quantumTicks, reschedule := false
        initialized := true }
    let s := { s with core }
    let s := s.setTask idle
      { SchedTask.zero with owner := s.self, id := 0, state := .ready, quantumLeft := quantumTicks }
    (s.setTask bootstrap
      { SchedTask.zero with
        owner := s.self, id := 1, state := .running, quantumLeft := quantumTicks }, true)

/-- The part of `ready_push` that appends the task to the FIFO. -/
def appendReady (s : SchedMachine) (task : Nat) : SchedMachine :=
  let s := s.setTask task { s.task task with next := 0, state := .ready, wakeTick := 0 }
  let s :=
    if s.core.readyTail ≠ 0 then
      s.setTask s.core.readyTail { s.task s.core.readyTail with next := task }
    else { s with core := { s.core with readyHead := task } }
  { s with core := { s.core with readyTail := task } }

/-- The last part of `ready_push`: a task that is ready asks for a switch if nothing useful runs. -/
def requestSwitch (s : SchedMachine) : SchedMachine :=
  if s.core.current = s.core.idle ∨ ¬ s.currentRuns then
    { s with core := { s.core with reschedule := true } }
  else s

/-- `ready_push` -/
def readyPush (s : SchedMachine) (task : Nat) : SchedMachine := requestSwitch (appendReady s task)

/-- The node of a task that is new to the registry. -/
def newTask (s : SchedMachine) : SchedTask :=
  { SchedTask.zero with owner := s.self, id := s.core.nextId, state := .ready
                        quantumLeft := s.core.quantumTicks }

/-- The part of `sched_core_add` that enters a task in the registry. -/
def registerTask (s : SchedMachine) (slot task : Nat) : SchedMachine :=
  { self := s.self
    core := { s.core with nextId := addU64 s.core.nextId 1
                          tasks := Function.update s.core.tasks slot task
                          taskCount := s.core.taskCount + 1 }
    task := Function.update s.task task (newTask s) }

/-- `sched_core_add` -/
def schedCoreAdd (s : SchedMachine) (task : Nat) : Option (SchedMachine × Bool) :=
  if ¬ schedCoreValidate s ∨ task = 0 ∨ (s.task task).owner ≠ 0 ∨
      s.core.taskCount = schedMaxTasks ∨ s.core.nextId = uint64Max then
    some (s, false)
  else
    let slot := firstIndex 0 schedMaxTasks fun i => s.core.tasks i = 0
    -- The loop has no bound of its own: without a free slot it leaves the registry.
    if slot = schedMaxTasks then none
    else some (readyPush (registerTask s slot task) task, true)

/-! ## Time -/

/-- The loop of `sched_core_tick`. -/
def expireSleepers (now : Nat) : Nat → SchedMachine → Option SchedMachine
  | 0, _ => none
  | fuel + 1, s =>
    if s.core.sleepHead ≠ 0 ∧ (s.task s.core.sleepHead).wakeTick ≤ now then
      let task := s.core.sleepHead
      let s := { s with core := { s.core with sleepHead := s.next task } }
      expireSleepers now fuel (readyPush s task)
    else some s

/-- The accounting of `sched_core_tick` for the current task. -/
def chargeCurrent (s : SchedMachine) : SchedMachine :=
  let core := s.core
  if s.currentRuns then
    let node := s.task core.current
    let node := { node with runTicks := increment node.runTicks }
    if core.current ≠ core.idle then
      let node := { node with
        quantumLeft := if node.quantumLeft ≠ 0 then node.quantumLeft - 1 else node.quantumLeft }
      let core := { core with reschedule := core.reschedule || node.quantumLeft = 0 }
      { s with core }.setTask core.current node
    else s.setTask core.current node
  else s

/-- `sched_core_tick` -/
def schedCoreTick (s : SchedMachine) (now : Nat) : Option (SchedMachine × Bool) :=
  if ¬ schedCoreValidate s ∨ now < s.core.now then some (s, false)
  else do
    let s := { s with core := { s.core with now, ticks := increment s.core.ticks } }
    let s ← expireSleepers now (schedMaxTasks + 1) (chargeCurrent s)
    return (s, true)

/-! ## Selection -/

/-- The early return of `sched_core_select`: the current task stays. -/
def selectStays (s : SchedMachine) (force : Bool) : Bool :=
  (s.task s.core.current).preemptDepth ≠ 0 ∨ (¬ force ∧ ¬ s.core.reschedule ∧ s.currentRuns)

/-- What `sched_core_select` does with the task that was running. -/
def requeueCurrent (s : SchedMachine) : SchedMachine :=
  let old := s.core.current
  if s.currentRuns then
    if old = s.core.idle then s.setTask old { s.task old with state := .ready } else readyPush s old
  else s

/-- The head of the FIFO, or the idle task, which is taken off the FIFO. -/
def takeNext (s : SchedMachine) : SchedMachine × Nat :=
  let next := s.core.readyHead
  if next ≠ 0 then
    let head := s.next next
    ({ s with core := { s.core with readyHead := head
                                    readyTail := if head = 0 then 0 else s.core.readyTail } }, next)
  else (s, s.core.idle)

/-- `sched_core_select`; the result is the task, 0 for `NULL`. -/
def schedCoreSelect (s : SchedMachine) (force : Bool) : SchedMachine × Nat :=
  if ¬ schedCoreValidate s then (s, 0)
  else
    let old := s.core.current
    if selectStays s force then (s, old)
    else
      let (s, next) := takeNext (requeueCurrent s)
      let s := s.setTask next { s.task next with
        next := 0, state := .running, wakeTick := 0, quantumLeft := s.core.quantumTicks }
      ({ s with core := { s.core with
          current := next, reschedule := false
          switches := if next ≠ old then increment s.core.switches else s.core.switches } }, next)

/-! ## Waiting -/

/-- `current_can_wait` -/
def currentCanWait (s : SchedMachine) : Bool :=
  schedCoreValidate s ∧ s.core.current ≠ s.core.idle ∧ s.currentRuns ∧
    (s.task s.core.current).preemptDepth = 0

/-- Write a link of the sleep list: `&core->sleep_head` or `&task->next`. -/
def SchedMachine.writeLink (s : SchedMachine) : Option Nat → Nat → SchedMachine
  | none, value => { s with core := { s.core with sleepHead := value } }
  | some task, value => s.setTask task { s.task task with next := value }

/-- The part of `sched_core_sleep_current` that links the task into the sleep list. -/
def linkSleeper (s : SchedMachine) (task : Nat) : Option SchedMachine := do
  let link ← seek 0 s.core.sleepHead s.next
    (fun p => p ≠ 0 ∧ (s.task p).wakeTick ≤ (s.task task).wakeTick) (schedMaxTasks + 1) none
  let s := s.setTask task { s.task task with next := readLink s.core.sleepHead s.next link }
  return s.writeLink link task

/-- The node of a task that goes to sleep. -/
def SchedTask.asleep (node : SchedTask) (wakeTick : Nat) : SchedTask :=
  { node with wakeTick, state := .sleeping }

/-- `sched_core_sleep_current` -/
def schedCoreSleepCurrent (s : SchedMachine) (delay : Nat) : Option (SchedMachine × Bool) :=
  if ¬ currentCanWait s ∨ delay = 0 ∨ uint64Max - s.core.now < delay then some (s, false)
  else do
    let task := s.core.current
    let s ← linkSleeper (s.setTask task ((s.task task).asleep (addU64 s.core.now delay))) task
    return ({ s with core := { s.core with reschedule := true } }, true)

/-- `sched_core_block_current` and `sched_core_exit_current`: the current task stops in `state`. -/
def stopCurrent (s : SchedMachine) (state : SchedState) : SchedMachine × Bool :=
  if ¬ currentCanWait s then (s, false)
  else
    let s := s.setTask s.core.current { s.task s.core.current with state }
    ({ s with core := { s.core with reschedule := true } }, true)

/-- `sched_core_block_current` -/
def schedCoreBlockCurrent (s : SchedMachine) : SchedMachine × Bool := stopCurrent s .blocked

/-- `sched_core_exit_current` -/
def schedCoreExitCurrent (s : SchedMachine) : SchedMachine × Bool := stopCurrent s .zombie

/-- The part of `sched_core_wake` that takes a sleeper off the list. -/
def unlinkSleeper (s : SchedMachine) (task : Nat) : Option SchedMachine := do
  let link ← seek 0 s.core.sleepHead s.next (fun p => p ≠ task) (schedMaxTasks + 1) none
  return s.writeLink link (s.next task)

/-- `sched_core_wake` -/
def schedCoreWake (s : SchedMachine) (task : Nat) : Option (SchedMachine × Bool) :=
  if ¬ schedCoreValidate s ∨ taskSlot s.core task = schedMaxTasks ∨
      ((s.task task).state ≠ .blocked ∧ (s.task task).state ≠ .sleeping) then
    some (s, false)
  else do
    let s ← if (s.task task).state = .sleeping then unlinkSleeper s task else some s
    return (readyPush s task, true)

/-- The part of `sched_core_remove_zombie` that takes a task out of the registry. -/
def unregisterTask (s : SchedMachine) (slot task : Nat) : SchedMachine :=
  { self := s.self
    core := { s.core with tasks := Function.update s.core.tasks slot 0
                          taskCount := s.core.taskCount - 1 }
    task := Function.update s.task task .zero }

/-- `sched_core_remove_zombie` -/
def schedCoreRemoveZombie (s : SchedMachine) (task : Nat) : SchedMachine × Bool :=
  if ¬ schedCoreValidate s then (s, false)
  else
    let slot := taskSlot s.core task
    if slot = schedMaxTasks ∨ task = s.core.current ∨ task = s.core.idle ∨
        (s.task task).state ≠ .zombie then
      (s, false)
    else (unregisterTask s slot task, true)

/-! ## Preemption -/

/-- `sched_core_preempt_disable` -/
def schedCorePreemptDisable (s : SchedMachine) : SchedMachine × Bool :=
  let node := s.task s.core.current
  if ¬ schedCoreValidate s ∨ ¬ s.currentRuns ∨ node.preemptDepth = uint32Max then (s, false)
  else (s.setTask s.core.current { node with preemptDepth := node.preemptDepth + 1 }, true)

/-- `sched_core_preempt_enable` -/
def schedCorePreemptEnable (s : SchedMachine) : SchedMachine × Bool :=
  let node := s.task s.core.current
  if ¬ schedCoreValidate s ∨ ¬ s.currentRuns ∨ node.preemptDepth = 0 then (s, false)
  else (s.setTask s.core.current { node with preemptDepth := node.preemptDepth - 1 }, true)

/-- `sched_core_reschedule_pending` -/
def schedCoreReschedulePending (s : SchedMachine) : Bool :=
  schedCoreValidate s ∧ s.core.reschedule ∧ (s.task s.core.current).preemptDepth = 0

end Utamo.Sched
