import GalapagOS.Kernel.Process

/-!
# The kernel under preemption (`file_array.c`, `schedule.c`, `assembly_linkage.S`)

System calls enter through a trap gate, so a timer tick can come between any two statements of
`kexecute` and `khalt` that are not between `cli` and `sti`. Here the two calls are sequences of
statements, and a tick is possible after each of them. What runs is a kernel stack: the calls that
have not returned yet, innermost first. A process in user mode has none.

The handler of a hardware tick is not interrupted again, because the interrupt controller waits
for `send_eoi`. The same handler entered by `int $32` is: `switch_paging` ends in `sti`, before
`curr_node` and the stack pointers have been changed.
-/

namespace GalapagOS

open FileSystem Paging Kernel

/-! ## Calls in progress -/

/-- How a process ends: `khalt(status)` from the system call, or `khalt(EHALT)` from an exception
handler. -/
inductive Ending where
  | halt (status : UInt8)
  | exception
deriving DecidableEq, Repr

/-- The argument of `khalt`. -/
def Ending.code : Ending → UInt8
  | .halt status => status
  | .exception => ehalt

/-- The arguments and local variables of a `kexecute` that has found a free process number. -/
structure ExecCall where
  command : Option (List UInt8)
  st : Stale
  pid : Pid
  inode : ℕ

namespace ExecCall

def line (c : ExecCall) : List UInt8 := c.command.getD []

def cmd (c : ExecCall) : List UInt8 := c.line.take (commandEnd c.line)

def args (c : ExecCall) : List UInt8 := argsString c.line c.st

end ExecCall

/-- The statement of `kexecute` that comes next, after `free_pid_idx` has returned. -/
inductive ExecPc where
  | parse
  | enterPaging
  | load
  | mark
  | pcbInit
  | setCurrent
  | openStd
  | restoreParent
  | schedule
  | openShells
  | int32
  | ret
deriving DecidableEq, Repr

/-- The statement of `khalt` that comes next, in a program. -/
inductive HaltPc where
  | clear
  | unmap
  | close
  | detach
  | deliver
  | unschedule
  | int32
  | ret
deriving DecidableEq, Repr

/-- A call that has not returned. -/
inductive Frame where
  /-- `kexecute` in the loop of `free_pid_idx` -/
  | scan (command : Option (List UInt8)) (st : Stale) (idx : ℕ)
  | exec (c : ExecCall) (pc : ExecPc)
  /-- `khalt` before its test for a shell -/
  | halt (e : Ending)
  /-- `khalt` of a program, with the local variable `parent_pcb` -/
  | halting (e : Ending) (parent : Option Pid) (pc : HaltPc)
  /-- `pit_handler` after `reset_curr_process`, before and after `curr_node = new_task` -/
  | pit (newTask : Schedule.Node) (committed : Bool)

/-- The kernel variables, and where the processor and the waiting processes are. -/
structure Machine where
  k : Kernel
  /-- the process whose kernel stack the processor is on, or whose program it runs -/
  stack : Pid
  frames : List Frame
  /-- what `esp` and `ebp` of each control block point to: a stack and the calls on it -/
  saved : Pid → Pid × List Frame

/-- What an observer notes about process numbers and calls. -/
inductive Label where
  /-- `free_pid_idx` returned `n` to the `kexecute` of `p` -/
  | chose (p n : Pid)
  /-- that call returned `ERROR` -/
  | abandoned (p n : Pid)
  /-- that call called `schedule(n)`, while `run_queue[n]` was linked or not -/
  | scheduled (p n : Pid) (linked : Bool)
  /-- `n` was marked `TASK_FINISHED` -/
  | ended (n : Pid) (e : Ending)
  /-- `pit_handler` took `run_queue[n]` out -/
  | unlinked (n : Pid)
  /-- the `kexecute` of `p` returned its `ret_status` -/
  | returned (p : Pid) (value : ℕ)
deriving DecidableEq, Repr

namespace Machine

/-! ## The timer -/

/-- `pit_handler` up to the end of `reset_curr_process`. The stack pointers go to the control block
of the old current node. -/
def pitEnter (m : Machine) : Option (Machine × Schedule.Node) := do
  let (k, n) ← m.k.pitSelect
  let p ← (m.k.queue.node m.k.queue.currNode).process
  pure ({ m with k := k, saved := Function.update m.saved p (m.stack, m.frames) }, n)

/-- `curr_node = new_task` -/
def pitCommit (m : Machine) (n : Schedule.Node) : Machine := { m with k := m.k.pitCommit n }

/-- The stack pointers of the process of `curr_node` are loaded, and the calls on its stack
go on. -/
def pitLoad (m : Machine) : Option Machine := do
  let p ← (m.k.queue.node m.k.queue.currNode).process
  pure { m with stack := (m.saved p).1, frames := (m.saved p).2 }

/-- Whether `pit_handler` takes the current node out. -/
def pitLabel (m : Machine) : Option Label :=
  match m.k.queue.currNode with
  | .sentinel => none
  | .task p => if (m.k.queue.node (.task p)).running = .finished then some (.unlinked p) else none

/-- A hardware tick. -/
def tick (m : Machine) : Option Machine := do
  let (m', n) ← m.pitEnter
  (m'.pitCommit n).pitLoad

/-- `int $32`, up to the `sti` in the handler. -/
def int32 (m : Machine) : Option (Machine × Option Label) := do
  let (m', n) ← m.pitEnter
  pure ({ m' with frames := .pit n false :: m'.frames }, m.pitLabel)

/-! ## Statements -/

/-- The kernel variables after a statement, and the calls that are left. -/
def goto (m : Machine) (k : Kernel) (frames : List Frame) : Machine :=
  { m with k := k, frames := frames }

/-- One round of the loop of `free_pid_idx`. -/
def scanNext (m : Machine) (command : Option (List UInt8)) (st : Stale) (idx : ℕ)
    (rest : List Frame) : Machine × Option Label :=
  if h : idx < 6 then
    if m.k.pidArr ⟨idx, h⟩ then (m.goto m.k (.scan command st (idx + 1) :: rest), none)
    else (m.goto m.k (.exec ⟨command, st, ⟨idx, h⟩, 0⟩ .parse :: rest), some (.chose m.stack ⟨idx, h⟩))
  else (m.goto m.k rest, none)

/-- `get_esp_and_ebp(curr_process->parent->esp, curr_process->parent->ebp)` in a `kexecute` over the
calls `rest`. The frame that `ebp` points to is that of `kexecute`, so a handler that loads these
pointers returns from the call. -/
def saveParent (m : Machine) (cur : Pid) (rest : List Frame) : Pid → Pid × List Frame :=
  match (m.k.pcbs cur).parent with
  | none => m.saved
  | some q => Function.update m.saved q (m.stack, rest)

theorem saveParent_of_parent {m : Machine} {cur q : Pid} (h : (m.k.pcbs cur).parent = some q)
    (rest : List Frame) : m.saveParent cur rest = Function.update m.saved q (m.stack, rest) := by
  rw [saveParent, h]

theorem saveParent_cases (m : Machine) (cur : Pid) (rest : List Frame) (p : Pid) :
    m.saveParent cur rest p = m.saved p ∨ m.saveParent cur rest p = (m.stack, rest) := by
  cases hparent : (m.k.pcbs cur).parent with
  | none =>
    rw [saveParent, hparent]
    exact .inl rfl
  | some q =>
    rw [saveParent_of_parent hparent, Function.update_apply]
    split
    · exact .inr rfl
    · exact .inl rfl

/-- The statements of `kexecute`. -/
def execNext (m : Machine) (c : ExecCall) (rest : List Frame) :
    ExecPc → Option (Machine × Option Label)
  | .parse =>
    match c.command.bind fun _ => findExecutable m.k.img c.cmd with
    | none => some (m.goto m.k rest, some (.abandoned m.stack c.pid))
    | some data =>
      let c := { c with inode := getInodePtr m.k.img data.inodeNum }
      some (m.goto m.k (.exec c .enterPaging :: rest), none)
  | .enterPaging => do
    let k ← m.k.enterPaging c.pid
    pure (m.goto k (.exec c .load :: rest), none)
  | .load => do
    let (k, ok) ← m.k.loadProgram c.inode
    if ok then pure (m.goto k (.exec c .mark :: rest), none)
    else pure (m.goto k rest, some (.abandoned m.stack c.pid))
  | .mark => some (m.goto (m.k.markPid c.pid true) (.exec c .pcbInit :: rest), none)
  | .pcbInit =>
    let eip := readEip m.k.img c.inode c.st.eip
    some (m.goto (m.k.pcbInit c.pid eip c.cmd c.args) (.exec c .setCurrent :: rest), none)
  | .setCurrent => some (m.goto (m.k.setCurrentProcess c.pid) (.exec c .openStd :: rest), none)
  | .openStd => do
    let k ← m.k.openStdinStdout
    pure (m.goto k (.exec c .restoreParent :: rest), none)
  | .restoreParent => do
    let cur ← m.k.currProcess
    pure ({ m.goto (m.k.restoreParent cur) (.exec c .schedule :: rest) with
      saved := m.saveParent cur rest }, none)
  | .schedule => do
    let cur ← m.k.currProcess
    let pid := (m.k.pcbs cur).pid
    let linked := (m.k.queue.next (.task pid)).isSome
    -- the new stack holds an interrupt frame that leads to the entry point of the program
    pure ({ m.goto (m.k.schedule pid) (.exec c .openShells :: rest) with
      saved := Function.update m.saved pid (pid, []) }, some (.scheduled m.stack pid linked))
  | .openShells => do
    let eip := readEip m.k.img c.inode c.st.eip
    let (k, ok) ← (m.k.setRoot c.pid).openOtherShells c.pid eip c.inode c.cmd c.args
    if ok then pure (m.goto k (.exec c .int32 :: rest), none) else pure (m.goto k rest, none)
  | .int32 => (m.goto m.k (.exec c .ret :: rest)).int32
  | .ret => do
    let cur ← m.k.currProcess
    pure (m.goto m.k rest, some (.returned m.stack (m.k.pcbs cur).retStatus.toNat))

/-- The statements of `khalt` in a program. -/
def haltNext (m : Machine) (e : Ending) (parent : Option Pid) (rest : List Frame) :
    HaltPc → Option (Machine × Option Label)
  | .clear => do
    let cur ← m.k.currProcess
    pure (m.goto (m.k.markPid (m.k.pcbs cur).pid false) (.halting e parent .unmap :: rest), none)
  | .unmap => do
    let cur ← m.k.currProcess
    let k := { m.k with tables := unmapVidMemory m.k.tables (m.k.pcbs cur).pid }
    pure (m.goto k (.halting e parent .close :: rest), none)
  | .close => do
    let k ← m.k.closeAll
    pure (m.goto k (.halting e parent .detach :: rest), none)
  | .detach => do
    let cur ← m.k.currProcess
    -- `parent_pcb->pid` is read
    let _ ← parent
    pure (m.goto (m.k.detach cur e.code) (.halting e parent .deliver :: rest), none)
  | .deliver => do
    let q ← parent
    pure (m.goto (m.k.deliver q e.code) (.halting e parent .unschedule :: rest), none)
  | .unschedule => do
    let cur ← m.k.currProcess
    let q ← parent
    let pid := (m.k.pcbs cur).pid
    let k := { m.k with queue := Schedule.unschedule m.k.queue pid (m.k.pcbs q).pid }
    pure (m.goto k (.halting e parent .int32 :: rest), some (.ended pid e))
  | .int32 => (m.goto m.k (.halting e parent .ret :: rest)).int32
  | .ret => some (m.goto m.k rest, none)

/-- The next statement of the innermost call. -/
def next (m : Machine) : Option (Machine × Option Label) :=
  match m.frames with
  | [] => none
  | .scan command st idx :: rest => some (m.scanNext command st idx rest)
  | .exec c pc :: rest => m.execNext c rest pc
  | .halt e :: rest => do
    let cur ← m.k.currProcess
    -- a shell returns to its entry point
    if 2 < (m.k.pcbs cur).pid then
      pure (m.goto m.k (.halting e (m.k.pcbs cur).parent .clear :: rest), none)
    else pure (m.goto m.k rest, none)
  | .halting e parent pc :: rest => m.haltNext e parent rest pc
  | .pit n false :: rest => some (m.goto (m.k.pitCommit n) (.pit n true :: rest), none)
  | .pit _ true :: _ => m.pitLoad.map fun m' => (m', none)

/-! ## Events -/

/-- A tick, the next statement of the kernel, or a call from user mode. -/
inductive Event where
  | tick
  | statement
  | kexecute (command : Option (List UInt8)) (st : Stale)
  | khalt (e : Ending)

/-- A call from user mode. -/
def call (m : Machine) (f : Frame) : Option (Machine × Option Label) :=
  if m.frames.isEmpty then some (m.goto m.k [f], none) else none

def exec (m : Machine) : Event → Option (Machine × Option Label)
  | .tick => m.tick.map fun m' => (m', m.pitLabel)
  | .statement => m.next
  | .kexecute command st => m.call (.scan command st 0)
  | .khalt e => m.call (.halt e)

/-- The machine starts where boot ends, in the first shell, with new stacks for the others. -/
def system : Run.System Machine Event where
  init m := Kernel.system.init m.k ∧ m.stack = 0 ∧ m.frames = [] ∧ ∀ p, m.saved p = (p, [])
  step m e := (m.exec e).map Prod.fst

/-- What the observer notes of an event. -/
def label (m : Machine) (e : Event) : Option Label := (m.exec e).bind Prod.snd

/-- The machine booted from the sample image. -/
def sampleMachine : Option Machine := sampleBoot.map fun k => ⟨k, 0, [], fun p => (p, [])⟩

theorem sampleMachine_init {m : Machine} (h : sampleMachine = some m) : system.init m := by
  obtain ⟨k, hk, rfl⟩ := Option.map_eq_some_iff.mp h
  exact ⟨⟨_, _, _, _, _, _, hk⟩, rfl, rfl, fun _ => rfl⟩

/-- A call that starts another shell. -/
def execShell : Event := .kexecute (some shellCommand) ⟨0, [], fun _ => 0⟩

end Machine
end GalapagOS
