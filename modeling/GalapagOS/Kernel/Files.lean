import GalapagOS.Kernel.Common
import GalapagOS.LibC.Numbers

/-!
# File system calls (`file_array.c`, `rtc.c`)

`kopen`, `kread`, `kwrite` and `kclose` on the descriptor table that `desc` points to, with
the operations of the four tables behind them. User buffers are objects of their own: a read
returns the bytes it stores, a write is given the bytes. `none` means that the call does not
return in this state (a terminal read waits for a line) or dereferences `NULL`.
-/

namespace GalapagOS
namespace Kernel

open FileSystem Memory

/-- An assignment to fields of one descriptor of the block `p`. -/
def modifyFile (k : Kernel) (p : Pid) (i : Fin 8) (f : FileDescriptor → FileDescriptor) : Kernel :=
  k.modifyPcb p fun c => { c with files := Function.update c.files i (f (c.files i)) }

/-- `open_stdin_stdout` -/
def openStdinStdout (k : Kernel) : Option Kernel :=
  k.desc.map fun p =>
    let std (t : ℕ) : FileDescriptor :=
      { fileOpTablePtr := some .std, inodePtr := 0, filePosition := 0, flags := fdInUse ||| t }
    (k.modifyFile p 0 fun _ => std stdinType).modifyFile p 1 fun _ => std stdoutType

/-! ## Opening -/

/-- `fd_init` -/
def fdInit (k : Kernel) (p : Pid) (data : Dentry) (i : Fin 8) : Option Kernel :=
  let init (ops : OpTable) (inode : ℕ) : FileDescriptor :=
    { fileOpTablePtr := some ops, inodePtr := inode, filePosition := 0
      flags := fdInUse ||| data.fileType }
  if data.fileType = rtcType then some (k.modifyFile p i fun _ => init .rtc 0)
  else if data.fileType = directoryType then some (k.modifyFile p i fun _ => init .dir 0)
  else if data.fileType = regularFileType then
    some (k.modifyFile p i fun _ => init .fs (getInodePtr k.img data.inodeNum))
  else none

/-- The first free descriptor from `FD_START` on. -/
def chosenIndex (f : FileArray) : Option (Fin 8) :=
  [2, 3, 4, 5, 6, 7].find? fun i => ¬(f i).InUse

/-- `kopen`. None of the three `open` operations it can reach does anything: `rtc_open` has
run at boot, and the other two only return. -/
def kopen (k : Kernel) (fileName : Option (ℕ → UInt8)) : Option (Kernel × ℤ) := do
  let p ← k.desc
  match chosenIndex (k.pcbs p).files with
  | none => pure (k, -1)
  | some i =>
    match readDentryByName k.img fileName with
    | none => pure (k, -1)
    | some data =>
      match k.fdInit p data i with
      | none => pure (k, -1)
      | some k' => pure (k', i)

/-! ## Reading -/

/-- `increment_position`: every descriptor from `FD_START` on that has the inode. -/
def incrementPosition (k : Kernel) (p : Pid) (inode : ℕ) (amt : ℤ) : Kernel :=
  if inode = 0 then k
  else k.modifyPcb p fun c =>
    { c with
      files := fun i =>
        if 2 ≤ i ∧ (c.files i).inodePtr = inode then
          { c.files i with filePosition := (((c.files i).filePosition + amt) % 2 ^ 32).toNat }
        else c.files i }

/-- `fs_read` -/
def fsRead (k : Kernel) (p : Pid) (ptr offset count buf : ℕ) : Kernel × ReadResult :=
  match readDentryByName k.img (returnDentryByPtr k.img ptr) with
  | none => (k, ⟨-1, []⟩)
  | some d =>
    let r := readData k.img ((inodes k.img + d.inodeNum * inodeSize) % 2 ^ 32) offset buf count
    (k.incrementPosition p ptr r.ret, r)

/-- The `read` operation of a descriptor. `rtc_read` waits for the next clock interrupt and
returns 0. -/
def opRead (k : Kernel) (p : Pid) (d : FileDescriptor) (nbytes buf : ℕ) :
    Option (Kernel × ReadResult) :=
  match d.fileOpTablePtr with
  | none => none
  | some .rtc => some (k, ⟨0, []⟩)
  | some .dir =>
    let r := dirRead k.img k.currFileNumber nbytes
    some ({ k with currFileNumber := r.1 }, r.2)
  | some .fs => some (k.fsRead p d.inodePtr d.filePosition nbytes buf)
  | some .std =>
    (Terminal.terminalRead k.terms k.getCurrProcessTerminal nbytes).map fun r =>
      ({ k with terms := r.1 }, ⟨r.2.length, r.2⟩)

/-- The types that may be read. -/
def readable : List ℕ := [rtcType, directoryType, regularFileType, stdinType]

/-- The types that may be written. -/
def writable : List ℕ := [rtcType, directoryType, regularFileType, stdoutType]

theorem toNat_lt_of_valid {fd : ℤ} (h : 0 ≤ fd ∧ fd < 8) : fd.toNat < 8 := by omega

/-- The descriptor behind a valid `fd` that is in use with one of the given types; `none` when
one of the tests at the start of `kread` and `kwrite` fails. -/
def checkFd (f : FileArray) (types : List ℕ) (fd : ℤ) : Option FileDescriptor :=
  if h : 0 ≤ fd ∧ fd < 8 then
    let d := f ⟨fd.toNat, toNat_lt_of_valid h⟩
    if d.InUse ∧ d.fileType ∈ types then some d else none
  else none

/-- `kread`; `buf` is an address, 0 for `NULL`. -/
def kread (k : Kernel) (fd : ℤ) (buf : ℕ) (nbytes : ℤ) : Option (Kernel × ReadResult) := do
  let p ← k.desc
  if buf = 0 ∨ nbytes < 0 then pure (k, ⟨-1, []⟩)
  else
    match checkFd (k.pcbs p).files readable fd with
    | none => pure (k, ⟨-1, []⟩)
    | some d => k.opRead p d nbytes.toNat buf

/-! ## Writing -/

/-- The rate `rtc_write` computes for a frequency; `none` is its `ERROR`. -/
def rtcRate (frequency : ℕ) : Option ℕ :=
  if frequency < 2 ∨ 1024 < frequency then none
  else if ((List.range 32).filter fun i => frequency.testBit i).length > 1 then none
  else
    let rate := (List.range 15).foldl (fun r j => if 0x8000 >>> j = frequency then j + 1 else r) 0
    some (rate &&& 0xf)

/-- `rtc_write` -/
def rtcWrite (k : Kernel) (buf : ℕ → UInt8) : Kernel × ℤ :=
  match rtcRate (word buf) with
  | none => (k, -1)
  | some rate => ({ k with rtcRegA := .ofNat rate ||| (k.rtcRegA &&& 0xf0) }, 0)

/-- `terminal_write` by the current process; the screen is written through its page tables. -/
def terminalWrite (k : Kernel) (bytes : List UInt8) : Option (Kernel × ℤ) :=
  let t := k.getCurrProcessTerminal
  let r := k.terms.run t (Terminal.terminalWrite t bytes)
  (({ k with terms := r.1 } : Kernel).access Paging.vidMem r.2).map fun k' =>
    (k', (bytes.filter (· ≠ 0)).length)

/-- The `write` operation of a descriptor; the file system is read-only. -/
def opWrite (k : Kernel) (d : FileDescriptor) (buf : ℕ → UInt8) (nbytes : ℕ) :
    Option (Kernel × ℤ) :=
  match d.fileOpTablePtr with
  | none => none
  | some .rtc => some (k.rtcWrite buf)
  | some .dir => some (k, -1)
  | some .fs => some (k, -1)
  | some .std => k.terminalWrite ((List.range nbytes).map buf)

/-- `kwrite`; a `NULL` buffer is `none`. -/
def kwrite (k : Kernel) (fd : ℤ) (buf : Option (ℕ → UInt8)) (nbytes : ℤ) :
    Option (Kernel × ℤ) := do
  let p ← k.desc
  match buf with
  | none => pure (k, -1)
  | some buf =>
    if nbytes < 0 then pure (k, -1)
    else
      match checkFd (k.pcbs p).files writable fd with
      | none => pure (k, -1)
      | some d => k.opWrite d buf nbytes.toNat

/-! ## Closing -/

/-- The `close` operation of a table. -/
def opClose (k : Kernel) : Option OpTable → Option (Kernel × ℤ)
  | none => none
  | some .std => some ({ k with terms := Terminal.terminalClose k.terms k.getCurrProcessTerminal }, 0)
  | some _ => some (k, 0)

/-- `kclose` -/
def kclose (k : Kernel) (fd : ℤ) : Option (Kernel × ℤ) := do
  let p ← k.desc
  if h : 2 ≤ fd ∧ fd < 8 then
    let i : Fin 8 := ⟨fd.toNat, by omega⟩
    let d := (k.pcbs p).files i
    if d.InUse then
      (k.modifyFile p i fun d => { d with flags := 0 }).opClose d.fileOpTablePtr
    else pure (k, -1)
  else pure (k, -1)

/-! ## Arguments -/

/-- `kget_args`. The number of bytes is only tested for its sign. The address space of 4 GB bounds
the loop of `strlen`. -/
def kgetArgs (k : Kernel) (buf : ℕ) (nbytes : ℤ) : Option ReadResult :=
  if buf = 0 ∨ nbytes < 0 then some ⟨-1, []⟩
  else do
    let p ← k.currProcess
    let args := fun i => (k.pcbs p).tail (Pcb.argsOffset + i)
    let n ← LibC.strlen (2 ^ 32) args
    pure ⟨0, (List.range n).map args ++ [0]⟩

end Kernel
end GalapagOS
