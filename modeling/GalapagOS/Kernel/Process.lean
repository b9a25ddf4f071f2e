import GalapagOS.Kernel.Descriptors
import GalapagOS.Lib.Run

/-!
# Processes and events (`file_array.c`, `schedule.c`, `terminal.c`)

`kexecute`, `khalt`, `kvidmap`, the timer handler and the terminal switch, each as one atomic
function on the kernel state, built from the stages of the code. Kernel stacks and saved
registers are not part of the state. `none` is a `NULL` dereference, a page fault or
a loop that does not end. The kernel is then a system that takes such functions as its events.
-/

namespace GalapagOS
namespace Kernel

open FileSystem Memory Paging

/-! ## The timer -/

/-- `pit_handler` up to the end of `reset_curr_process`: the next node, with its process made
current. -/
def pitSelect (k : Kernel) : Option (Kernel × Schedule.Node) :=
  if k.queue.firstShell ∧ k.queue.currNode = .sentinel then do
    let n ← k.queue.next k.queue.currNode
    let p ← (k.queue.node n).process
    pure (k.resetCurrProcess p, n)
  else do
    let (q, n) ← Schedule.selectTask k.queue
    -- the stack pointers are saved in the block of the old current node
    let _ ← (q.node q.currNode).process
    let p ← (q.node n).process
    pure (({ k with queue := q } : Kernel).resetCurrProcess p, n)

/-- The rest of `pit_handler`; the first of its branches also clears `first_shell`. -/
def pitCommit (k : Kernel) (n : Schedule.Node) : Kernel :=
  { k with
    queue := { k.queue with
      currNode := n
      firstShell := k.queue.firstShell && k.queue.currNode ≠ .sentinel } }

/-- `pit_handler`, also as `int $32`. -/
def pitHandler (k : Kernel) : Option Kernel :=
  k.pitSelect.map fun r => r.1.pitCommit r.2

/-! ## Starting a process -/

/-- `free_pid_idx` -/
def freePidIdx (pidArr : Pid → Bool) : Option Pid := [0, 1, 2, 3, 4, 5].find? fun i => !pidArr i

/-- What the uninitialised locals `no_args`, `args` and `eip` of `kexecute` hold. The bytes
found at `args` are followed by a zero byte somewhere. -/
structure Stale where
  noArgs : ℤ
  args : List UInt8
  eip : ℕ → UInt8

/-- The loop that finds the end of the command word; the string is followed by a NUL. -/
def commandEnd (command : List UInt8) : ℕ :=
  ((command.take 128).takeWhile fun b => b ≠ 0x20 ∧ b ≠ 0 ∧ b ≠ 0x0a).length

/-- The loop that skips the spaces after it. -/
def argsStart (command : List UInt8) : ℕ :=
  commandEnd command + ((command.drop (commandEnd command)).takeWhile (· = 0x20)).length

/-- The flag `no_args` when it is tested. -/
def noArgs (command : List UInt8) (st : Stale) : ℤ :=
  if command.getD (argsStart command) 0 ≠ 0 then 0
  else if command.getD (commandEnd command) 0 = 0x0a then 1 else st.noArgs

/-- The string in `args` when it is copied into the control block. -/
def argsString (command : List UInt8) (st : Stale) : List UInt8 :=
  let i := argsStart command
  if noArgs command st = 0 then
    let copied := ((command.drop i).take (128 - i)).takeWhile fun b => b ≠ 0 ∧ b ≠ 0x0a
    -- without a NUL or newline in its 128 - i bytes the array is not terminated
    if copied.length < 128 - i then copied
    else copied ++ (st.args.drop (128 - i)).takeWhile (· ≠ 0)
  else st.args.takeWhile (· ≠ 0)

/-- `check_executable` -/
def checkExecutable (img : Image) (fileName : ℕ → UInt8) : Bool :=
  let r := fsReadByName img (some fileName) 0 4 1
  r.ret = 4 ∧ r.stored = [0x7f, 0x45, 0x4c, 0x46]

/-- `get_file_info` and then `check_executable`. -/
def findExecutable (img : Image) (cmd : List UInt8) : Option Dentry :=
  (readDentryByName img (some fun j => cmd.getD j 0)).filter fun d =>
    checkExecutable img d.fileName

/-- `new_paging` for a program, `switch_paging` for a shell. -/
def enterPaging (k : Kernel) (pid : Pid) : Option Kernel :=
  if 2 < pid then
    k.currProcess.map fun cur =>
      { k with tables := newPaging k.tables pid (k.pcbs cur).pid, cr3 := some pid }
  else some (k.switchPaging pid)

def programStart : ℕ := 0x08048000

/-- The call of `read_data` that loads the program through the current directory, and whether
the whole file was read. -/
def loadProgram (k : Kernel) (inode : ℕ) : Option (Kernel × Bool) :=
  let length := inodeLength k.img inode
  let r := readData k.img inode 0 programStart length
  (k.access programStart [.write 0 r.stored]).map fun k' => (k', r.ret = length)

/-- The entry point at offset 24 of the file. -/
def readEip (img : Image) (inode : ℕ) (stale : ℕ → UInt8) : ℕ :=
  let r := readData img inode 24 1 4
  word fun j => r.stored.getD j (stale j)

def stackStart : ℕ := 0x800000
def stackSize : ℕ := 0x2000

/-- `get_kstack_address` -/
def getKstackAddress (pid : Pid) : ℕ := stackStart - pid * stackSize - 4

/-- `pcb_init` -/
def pcbInit (k : Kernel) (pid : Pid) (eip : ℕ) (cmd args : List UInt8) : Kernel :=
  let k₁ := k.modifyPcb pid fun c =>
    { c with
      pid := pid
      kernelStack := getKstackAddress pid
      userStack := 0x83ffffc
      instrPtr := eip
      parent := k.currProcess
      child := none }
  let k₂ := match k.currProcess with
    | none => k₁
    | some cur =>
      if 2 < pid then k₁.modifyPcb cur fun c => { c with child := some pid } else k₁
  k₂.modifyPcb pid fun c =>
    (c.setTerminal (if 3 ≤ pid then k.getCurrTerminal.val else pid.val)).copyStrings cmd args

/-- `schedule` -/
def schedule (k : Kernel) (pid : Pid) : Kernel :=
  { k with
    queue := Schedule.schedule k.queue pid ((k.pcbs pid).parent.map fun q => (k.pcbs q).pid) }

/-- `pid_arr[pid] = ON` -/
def markPid (k : Kernel) (pid : Pid) (b : Bool) : Kernel :=
  { k with pidArr := Function.update k.pidArr pid b }

/-- The parent's directory is loaded again. -/
def restoreParent (k : Kernel) (pid : Pid) : Kernel :=
  match (k.pcbs pid).parent with
  | none => k
  | some q => k.switchPaging (k.pcbs q).pid

/-- An assignment to one of `root1`, `root2`, `root3`. -/
def assignRoot (k : Kernel) (root : Fin 3) (p : Option Pid) : Kernel :=
  { k with roots := Function.update k.roots root p }

/-- `if (pid == ..) root.. = curr_process;` for the three shells. -/
def setRoot (k : Kernel) (pid : Pid) : Kernel :=
  if h : pid.val < 3 then k.assignRoot ⟨pid.val, h⟩ k.currProcess else k

/-- One round of the loop of `open_shells`; `false` says that it returned `ERROR`. -/
def openShell (k : Kernel) (i : Pid) (root : Fin 3) (eip inode : ℕ) (cmd args : List UInt8) :
    Option (Kernel × Bool) := do
  let (k, ok) ← (k.switchPaging i).loadProgram inode
  if ok then
    let k := (k.pcbInit i eip cmd args).setCurrentProcess i
    let k := (k.assignRoot root k.currProcess).modifyPcb i fun c =>
      ({ c with parent := none }).setTerminal i
    let k ← k.openStdinStdout
    pure (k.schedule i, true)
  else pure (k, false)

/-- `open_shells` -/
def openShells (k : Kernel) (eip inode : ℕ) (cmd args : List UInt8) : Option (Kernel × Bool) := do
  let (k, ok) ← k.openShell 1 1 eip inode cmd args
  if ok then
    let (k, ok) ← k.openShell 2 2 eip inode cmd args
    if ok then
      let k := (k.markPid 1 true).markPid 2 true
      pure ((k.switchPaging 0).resetCurrProcess 0, true)
    else pure (k, false)
  else pure (k, false)

/-- The statements of `kexecute` from `pid_arr[pid] = ON` to the roots. -/
def startProcess (k : Kernel) (pid : Pid) (eip : ℕ) (cmd args : List UInt8) : Option Kernel :=
  ((((k.markPid pid true).pcbInit pid eip cmd args).setCurrentProcess pid).openStdinStdout).map
    fun k => ((k.restoreParent pid).schedule pid).setRoot pid

/-- The first shell opens the two others. -/
def openOtherShells (k : Kernel) (pid : Pid) (eip inode : ℕ) (cmd args : List UInt8) :
    Option (Kernel × Bool) :=
  if k.pidArr 0 ∧ ¬k.pidArr 1 ∧ ¬k.pidArr 2 then
    let k := k.modifyPcb pid fun c => c.setTerminal 0
    (k.assignRoot 0 k.currProcess).openShells eip inode cmd args
  else some (k, true)

/-- `kexecute` up to and including its `int $32`: `some (-1)` is the code's `ERROR`, and
`none` says that the caller is suspended and the call has not returned yet. -/
def kexecute (k : Kernel) (command : Option (List UInt8)) (st : Stale) :
    Option (Kernel × Option ℤ) :=
  match command, freePidIdx k.pidArr with
  | some command, some pid =>
    let cmd := command.take (commandEnd command)
    let args := argsString command st
    match findExecutable k.img cmd with
    | none => some (k, some (-1))
    | some data => do
      let inode := getInodePtr k.img data.inodeNum
      let k ← k.enterPaging pid
      let (k, ok) ← k.loadProgram inode
      if ok then
        let eip := readEip k.img inode st.eip
        let k ← k.startProcess pid eip cmd args
        let (k, ok) ← k.openOtherShells pid eip inode cmd args
        if ok then
          let k ← k.pitHandler
          pure (k, none)
        else pure (k, some (-1))
      else pure (k, some (-1))
  | _, _ => some (k, some (-1))

/-! ## Ending a process -/

def ehalt : UInt8 := 239
def exceptionReturn : ℕ := 256

/-- `if (desc[fd].flags & FD_IN_USE) kclose(fd);` -/
def closeIfOpen (k : Kernel) (fd : Fin 8) : Option Kernel := do
  let p ← k.desc
  if ((k.pcbs p).files fd).InUse then (k.kclose fd).map Prod.fst else pure k

/-- The loop of `khalt` over the descriptors. -/
def closeAll (k : Kernel) : Option Kernel :=
  [0, 1, 2, 3, 4, 5, 6, 7].foldlM closeIfOpen k

/-- The value `khalt` stores in the parent's byte-wide `ret_status`. -/
def haltValue (status : UInt8) : ℕ :=
  if status = ehalt then exceptionReturn else status.toNat &&& 0xff

/-- The current process `cur` keeps its status and leaves the tree. -/
def detach (k : Kernel) (cur : Pid) (status : UInt8) : Kernel :=
  let k := k.modifyPcb cur fun c => c.setRetStatus status
  let k := match (k.pcbs cur).parent with
    | none => k
    | some q => k.modifyPcb q fun c => { c with child := none }
  k.modifyPcb cur fun c => { c with parent := none }

/-- `parent_pcb->ret_status = ret_val` -/
def deliver (k : Kernel) (parent : Pid) (status : UInt8) : Kernel :=
  k.modifyPcb parent fun c => c.setRetStatus (.ofNat (haltValue status))

/-- `khalt`, with its `int $32`. A shell is restarted from its entry point, which
changes nothing but its stack. -/
def khalt (k : Kernel) (status : UInt8) : Option Kernel := do
  let cur ← k.currProcess
  let pid := (k.pcbs cur).pid
  if 2 < pid then
    let parent ← (k.pcbs cur).parent
    let k := k.markPid pid false
    let k := { k with tables := unmapVidMemory k.tables pid }
    let k ← k.closeAll
    let parentPid := (k.pcbs parent).pid
    let k := (k.detach cur status).deliver parent status
    let k := { k with queue := Schedule.unschedule k.queue pid parentPid }
    k.pitHandler
  else pure k

/-! ## Video -/

/-- `kvidmap` -/
def kvidmap (k : Kernel) (screenStart : ℕ) : Option (Kernel × ℤ) := do
  let cur ← k.currProcess
  let pid := (k.pcbs cur).pid
  -- `address_in_user`
  if (screenStart >>> 22) &&& 0x3ff ≠ usrDirEntry then pure (k, -1)
  else
    let k := { k with tables := mapVidMemory k.tables pid, cr3 := some pid }
    let k ← k.access screenStart [.write 0 (Pcb.intBytes virtVidMem)]
    -- the address is returned as an `int32_t`
    pure (k, virtVidMem - 2 ^ 32)

/-- The loops of `swap_vid_mem`: `f` for the process and its descendants. -/
def walkChain (pcbs : Pid → Pcb) (f : Tables → Pid → Tables) : ℕ → Option Pid → Tables → Option Tables
  | _, none, tb => some tb
  | 0, some _, _ => none
  | n + 1, some p, tb => walkChain pcbs f n (pcbs p).child (f tb (pcbs p).pid)

/-- An iteration bound: a chain has at most six processes. -/
def chainFuel : ℕ := 6

/-- `swap_vid_mem` -/
def swapVidMem (k : Kernel) (oldTerm newTerm : Fin 3) : Option Kernel := do
  let cur ← k.currProcess
  let tb ← walkChain k.pcbs (fun tb pid => switchVidMemOut tb pid oldTerm) chainFuel
    (k.roots oldTerm) k.tables
  let tb ← walkChain k.pcbs (fun tb pid => switchVidMemIn tb pid) chainFuel (k.roots newTerm) tb
  pure { k with tables := tb, cr3 := some (k.pcbs cur).pid }

/-- The virtual address of the backing page of a terminal. -/
def backingPage (t : Fin 3) : ℕ := vidMem + (t + 1) * 4096

/-- `switch_terminals` -/
def switchTerminals (k : Kernel) (term : Fin 3) : Option Kernel :=
  let cur := k.getCurrTerminal
  if term = cur then some k
  else do
    let k ← k.access 0 (memcpy (backingPage cur) inactiveVidMem 4096)
    let k ← k.access 0 (memcpy inactiveVidMem (backingPage term) 4096)
    let k ← k.swapVidMem cur term
    pure { k with terms := { k.terms with currTerminal := term } }

/-- Keyboard output: a driver function on the displayed terminal, at `INACTIVE_VID_MEM`. -/
def keyboardOutput (k : Kernel) (f : ℤ → Terminal.Action) : Option Kernel :=
  let t : ℤ := k.getCurrTerminal.val
  let r := k.terms.run t (f t)
  ({ k with terms := r.1 } : Kernel).access inactiveVidMem r.2

/-- `put_char` -/
def putChar (k : Kernel) (c : UInt8) : Option Kernel :=
  k.keyboardOutput fun t => Terminal.putChar t c

/-- `clear_terminal` -/
def clearTerminal (k : Kernel) : Option Kernel := k.keyboardOutput Terminal.clearTerminal

/-! ## The kernel as an event system

Boot runs `kexecute("shell")` from the initial state; afterwards the kernel takes atomic events:
system calls of the running process, timer ticks and keys. -/

/-- One atomic event. System calls are made by the running process. -/
inductive Event where
  | kexecute (command : Option (List UInt8)) (st : Stale)
  | khalt (status : UInt8)
  | kvidmap (screenStart : ℕ)
  | fileCall (c : Call)
  | tick
  | switchTerminals (term : Fin 3)
  | putChar (c : UInt8)
  | clearTerminal

/-- The state after an event. -/
def Event.exec (k : Kernel) : Event → Option Kernel
  | .kexecute command st => (k.kexecute command st).map Prod.fst
  | .khalt status => k.khalt status
  | .kvidmap screenStart => (k.kvidmap screenStart).map Prod.fst
  | .fileCall c => c.exec k
  | .tick => k.pitHandler
  | .switchTerminals term => k.switchTerminals term
  | .putChar c => k.putChar c
  | .clearTerminal => k.clearTerminal

/-- The command line of the boot code: `shell`. -/
def shellCommand : List UInt8 := [0x73, 0x68, 0x65, 0x6c, 0x6c]

/-- Boot: `kexecute("shell")` succeeds, with the two other shells. -/
def boot (lay : Paging.Layout) (img : Image) (pcbs : Pid → Pcb) (regA : UInt8)
    (phys : ℕ → UInt8) (st : Stale) : Option Kernel :=
  match (bootState lay img pcbs regA phys).kexecute (some shellCommand) st with
  | some (k, none) => some k
  | _ => none

/-- The kernel: it boots on some machine with some image, then takes events. -/
def system : Run.System Kernel Event where
  init k := ∃ lay img pcbs regA phys st, boot lay img pcbs regA phys st = some k
  step k e := e.exec k

/-- The kernel booted from the sample image. -/
def sampleBoot : Option Kernel :=
  boot Paging.packedLayout sampleImage (fun _ => default) 0 (fun _ => 0) ⟨0, [], fun _ => 0⟩

/-- The state after some events on the sample image. -/
def sampleRun (es : List Event) : Option Kernel := sampleBoot.bind fun k => system.run k es

theorem sampleRun_reach {ok : Kernel → Event → Prop} {es : List Event} {k : Kernel}
    (hok : ∀ k₀, sampleBoot = some k₀ → system.Allowed ok k₀ es) (h : sampleRun es = some k) :
    Run.Reach system ok k := by
  obtain ⟨k₀, hk₀, hrun⟩ := Option.bind_eq_some_iff.mp h
  have hinit : system.init k₀ := ⟨_, _, _, _, _, _, hk₀⟩
  exact (Run.Reach.init hinit).run (hok k₀ hk₀) hrun

end Kernel
end GalapagOS
