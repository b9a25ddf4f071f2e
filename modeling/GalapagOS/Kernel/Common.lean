import GalapagOS.FileSystem.Common
import GalapagOS.Paging.Common
import GalapagOS.Schedule.Common
import GalapagOS.Terminal.Common

/-!
# The kernel state (`file_array.c`, `file_array.h`)

Process control blocks, file descriptors and the record of all kernel variables that the
system calls share. Pointers to a control block are process numbers, since the blocks lie at
fixed addresses (`get_pcb_address`); `none` is `NULL`.
-/

namespace GalapagOS

open Memory

/-! ## File descriptors -/

/-- The four operation tables. -/
inductive OpTable where
  | rtc
  | dir
  | fs
  | std
deriving DecidableEq, Repr

/-- `file_descriptor_t`. An operation table pointer that was never set is `none`. -/
structure FileDescriptor where
  fileOpTablePtr : Option OpTable
  inodePtr : ℕ
  filePosition : ℕ
  flags : ℕ
deriving DecidableEq, Repr, Inhabited

/-- `files[FILE_ARRAY_SIZE]` -/
abbrev FileArray : Type := Fin 8 → FileDescriptor

/-- For the numerals of the descriptors. -/
instance instNeZeroDescriptors : @NeZero ℕ Zero.ofOfNat0 8 := ⟨nofun⟩

def fdInUse : ℕ := 0x100
def fileTypeMask : ℕ := 0xf
def rtcType : ℕ := 0
def directoryType : ℕ := 1
def regularFileType : ℕ := 2
def stdinType : ℕ := 3
def stdoutType : ℕ := 4

/-- `flags & FD_IN_USE` -/
def FileDescriptor.InUse (d : FileDescriptor) : Prop := d.flags &&& fdInUse ≠ 0

instance (d : FileDescriptor) : Decidable d.InUse := inferInstanceAs (Decidable (_ ≠ _))

/-- `flags & FILE_TYPE` -/
def FileDescriptor.fileType (d : FileDescriptor) : ℕ := d.flags &&& fileTypeMask

/-- `clear_fdarray` -/
def clearFdarray (f : FileArray) : FileArray := fun i => { f i with flags := 0 }

/-! ## Process control blocks -/

/-- `pcb_t`. The packed record ends in `command[33]`, `args[100]`, `esp`, `ebp`, `ret_status`
and `terminal`; `tail` is its bytes from `command` on, followed by the unused bottom of the
kernel stack, because the string copies of `pcb_init` can run from one field into the next. The stack
pointers that `schedule`, `pit_handler` and `kexecute` save in `esp` and `ebp` are kept by the models of
the scheduler's switch and not in these bytes: a string of 100 bytes or more in `args` is here what
`pcb_init` copied, while the machine later finds a saved pointer in bytes 133 to 140. -/
structure Pcb where
  pid : Pid
  kernelStack : ℕ
  userStack : ℕ
  instrPtr : ℕ
  parent : Option Pid
  child : Option Pid
  files : FileArray
  tail : ℕ → UInt8
deriving Inhabited

namespace Pcb

def argsOffset : ℕ := 33
def espOffset : ℕ := 133
def retStatusOffset : ℕ := 141
def terminalOffset : ℕ := 142

/-- The four bytes of a small number, least significant first. -/
def intBytes (v : ℕ) : List UInt8 := [.ofNat v, .ofNat (v / 2 ^ 8), .ofNat (v / 2 ^ 16), .ofNat (v / 2 ^ 24)]

/-- `pcb->ret_status` -/
def retStatus (c : Pcb) : UInt8 := c.tail retStatusOffset

/-- `pcb->ret_status = s` -/
def setRetStatus (c : Pcb) (s : UInt8) : Pcb :=
  { c with tail := place retStatusOffset [s] c.tail }

/-- `pcb->terminal`, an `int`. -/
def terminal (c : Pcb) : ℤ :=
  let w := FileSystem.word fun j => c.tail (terminalOffset + j)
  if w < 2 ^ 31 then w else w - 2 ^ 32

/-- `pcb->terminal = t` -/
def setTerminal (c : Pcb) (t : ℕ) : Pcb :=
  { c with tail := place terminalOffset (intBytes t) c.tail }

/-- `strcpy(pcb->command, cmd); strcpy(pcb->args, args);` -/
def copyStrings (c : Pcb) (cmd args : List UInt8) : Pcb :=
  { c with tail := place argsOffset (args ++ [0]) (place 0 (cmd ++ [0]) c.tail) }

end Pcb

/-! ## The kernel variables -/

/-- The state the system calls and interrupt handlers share. The layout of the page tables and
the file system image never change. -/
structure Kernel where
  lay : Paging.Layout
  img : FileSystem.Image
  pidArr : Pid → Bool
  pcbs : Pid → Pcb
  currProcess : Option Pid
  /-- the control block whose `files` the pointer `desc` points to -/
  desc : Option Pid
  /-- `root1`, `root2`, `root3` -/
  roots : Fin 3 → Option Pid
  queue : Schedule.RunQueue
  tables : Paging.Tables
  /-- the process whose directory is loaded; `none` is the boot directory -/
  cr3 : Option Pid
  esp0 : ℕ
  terms : Terminal.Terminals
  currFileNumber : ℕ
  /-- register A of the real-time clock -/
  rtcRegA : UInt8
  phys : ℕ → UInt8

namespace Kernel

/-- An assignment to fields of one control block. -/
def modifyPcb (k : Kernel) (p : Pid) (f : Pcb → Pcb) : Kernel :=
  { k with pcbs := Function.update k.pcbs p (f (k.pcbs p)) }

/-- `get_curr_terminal` -/
def getCurrTerminal (k : Kernel) : Fin 3 := k.terms.currTerminal

/-- `get_curr_process_terminal` -/
def getCurrProcessTerminal (k : Kernel) : ℤ :=
  match k.currProcess with
  | none => 0
  | some p => (k.pcbs p).terminal

/-- `switch_paging` -/
def switchPaging (k : Kernel) (p : Pid) : Kernel := { k with cr3 := some p }

/-- `set_current_process` -/
def setCurrentProcess (k : Kernel) (p : Pid) : Kernel :=
  let k := k.modifyPcb p fun c => { c with files := clearFdarray c.files }
  { k with currProcess := some p, desc := some p, esp0 := (k.pcbs p).kernelStack }

/-- `reset_curr_process` -/
def resetCurrProcess (k : Kernel) (p : Pid) : Kernel :=
  { k with
    currProcess := some p
    desc := some p
    esp0 := (k.pcbs p).kernelStack
    cr3 := some (k.pcbs p).pid }

/-- The physical address the loaded directory gives for a virtual one; `none` is a fault. -/
def translate (k : Kernel) (v : ℕ) : Option ℕ :=
  k.cr3.bind fun p => (Paging.walk k.lay k.tables p (v % 2 ^ 32)).map Paging.Access.phys

/-- Accesses relative to a virtual base address. -/
def access (k : Kernel) (base : ℕ) (ops : List (Op UInt8)) : Option Kernel :=
  (execAll (fun off => k.translate (base + off)) ops k.phys).map fun m => { k with phys := m }

/-- The state in which `entry` calls `kexecute("shell")`: static variables are zero and
`terminal_open`, `new_init`, `sched_init`, `fs_init` have run. What memory held before is
arbitrary. -/
def bootState (lay : Paging.Layout) (img : FileSystem.Image) (pcbs : Pid → Pcb) (regA : UInt8)
    (phys : ℕ → UInt8) : Kernel where
  lay := lay
  img := img
  pidArr _ := false
  pcbs := pcbs
  currProcess := none
  desc := none
  roots _ := none
  queue := Schedule.schedInit
  tables := Paging.newInit lay
  cr3 := none
  esp0 := 0x800000
  terms := Terminal.terminalOpen
  currFileNumber := 0
  rtcRegA := regA
  phys := phys

end Kernel

end GalapagOS
