import GalapagOS.Lib.Ring

/-!
# The run queue (`schedule.c`, `schedule.h`)

The run queue is a circular doubly linked list through a sentinel, with one static node for
each of the six processes. This module has the statements of `sched_init`, `schedule`,
`unschedule` and `pit_handler` that read or write the queue; the process control blocks,
the page tables and the kernel stacks are not part of it.
-/

namespace GalapagOS

/-- A process number, an index into `pid_arr` and `run_queue`. -/
abbrev Pid : Type := Fin 6

/-- For the numerals of `Pid`. -/
instance instNeZeroPids : @NeZero ℕ Zero.ofOfNat0 6 := ⟨nofun⟩

namespace Schedule

/-- `task_state_t` -/
inductive TaskState where
  | running
  | inactive
  | sentinel
  | finished
deriving DecidableEq, Repr

/-- A pointer to a queue node: `&sentinel` or `&run_queue[p]`. -/
inductive Node where
  | sentinel
  | task (p : Pid)
deriving DecidableEq, Repr

/-- `run_queue_node_t`, without the registers that no function uses. -/
structure RunQueueNode where
  nextTask : Option Node
  prevTask : Option Node
  process : Option Pid
  running : TaskState

/-- The static variables of `schedule.c`. -/
structure RunQueue where
  node : Node → RunQueueNode
  currNode : Node
  head : Node
  tail : Node
  firstShell : Bool
  firstSchedule : Bool

namespace RunQueue

/-- An assignment to fields of one node. -/
def modify (q : RunQueue) (n : Node) (f : RunQueueNode → RunQueueNode) : RunQueue :=
  { q with node := Function.update q.node n (f (q.node n)) }

/-- `n->running = s` -/
def setRunning (q : RunQueue) (n : Node) (s : TaskState) : RunQueue :=
  q.modify n fun d => { d with running := s }

/-- `n->next_task = m` -/
def setNext (q : RunQueue) (n : Node) (m : Option Node) : RunQueue :=
  q.modify n fun d => { d with nextTask := m }

/-- `n->prev_task = m` -/
def setPrev (q : RunQueue) (n : Node) (m : Option Node) : RunQueue :=
  q.modify n fun d => { d with prevTask := m }

def next (q : RunQueue) (n : Node) : Option Node := (q.node n).nextTask

def prev (q : RunQueue) (n : Node) : Option Node := (q.node n).prevTask

def isRunning (q : RunQueue) (n : Node) : Bool := (q.node n).running = .running

end RunQueue

/-- The static initial values and then `sched_init`. -/
def schedInit : RunQueue where
  node
    | .sentinel => ⟨some .sentinel, some .sentinel, none, .sentinel⟩
    | .task _ => ⟨none, none, none, .inactive⟩
  currNode := .sentinel
  head := .sentinel
  tail := .sentinel
  firstShell := true
  firstSchedule := true

/-- The first statements of `schedule`: the node of `pid` is filled in and linked at the tail. -/
def link (q : RunQueue) (pid : Pid) : RunQueue :=
  let q₁ := q.modify (.task pid) fun d =>
    { d with
      process := some pid
      prevTask := some q.tail
      nextTask := (q.node q.tail).nextTask
      running := .running }
  let q₂ := q₁.setNext q.tail (some (.task pid))
  let q₃ := { q₂ with tail := .task pid }
  q₃.setPrev q.head (some (.task pid))

/-- `schedule`: the new task is linked and its parent, if any, becomes inactive. -/
def schedule (q : RunQueue) (pid : Pid) (parentPid : Option Pid) : RunQueue :=
  let q := link q pid
  let q := match parentPid with
    | none => q
    | some p => q.setRunning (.task p) .inactive
  { q with firstSchedule := false }

/-- `unschedule` -/
def unschedule (q : RunQueue) (pid parentPid : Pid) : RunQueue :=
  let q := q.setRunning (.task pid) .finished
  if 3 ≤ pid then q.setRunning (.task parentPid) .running else q

/-- `pit_handler` takes the current node `curr` with neighbours `prev` and `newTask` out. -/
def unlink (q : RunQueue) (curr prev newTask : Node) : RunQueue :=
  let q := q.setNext prev (some newTask)
  let q := q.setPrev newTask (some prev)
  let q := q.modify curr fun d => { d with prevTask := none, nextTask := none }
  if curr = q.tail then { q with tail := prev } else q

/-- An iteration bound for the search of `pit_handler`: the queue has at most seven nodes. -/
def searchFuel : ℕ := 7

/-- The choice of the next task in `pit_handler`: a finished current node is taken out, then
the first running node after it is searched. `none` is a `NULL` dereference or a search that
does not end. -/
def selectTask (q : RunQueue) : Option (RunQueue × Node) := do
  let newTask ← q.next q.currNode
  let q' ←
    if (q.node q.currNode).running = .finished then do
      let prev ← q.prev q.currNode
      pure (unlink q q.currNode prev newTask)
    else pure q
  let n ← Ring.search q'.next q'.isRunning searchFuel newTask
  pure (q', n)

/-- `pit_handler` on the queue. The first tick takes the first node whatever its state is; every
other tick stores the stack pointers in the control block of the old current node. -/
def pitHandler (q : RunQueue) : Option RunQueue :=
  if q.firstShell ∧ q.currNode = .sentinel then do
    let newTask ← q.next q.currNode
    let _ ← (q.node newTask).process
    pure { q with currNode := newTask, firstShell := false }
  else do
    let (q', newTask) ← selectTask q
    let _ ← (q'.node q'.currNode).process
    let _ ← (q'.node newTask).process
    pure { q' with currNode := newTask }

end Schedule
end GalapagOS
