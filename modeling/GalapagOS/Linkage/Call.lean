import GalapagOS.Linkage.SystemCall
import GalapagOS.Linkage.Timer

/-!
# A system call of a program (`ece391syscall.S`, `assembly_linkage.S`)

A wrapper of `DO_CALL` takes the number and three arguments to registers and executes `int $0x80`.
`system_call_linkage` saves the registers, tests the number, passes the arguments on to a function
of `sys_call_table`, and returns its value through `retval`.

The wrapper is a C function to the program: it keeps `ebx`, `ebp`, `esi`, `edi` and the stack, and
its value is in `eax`. That is so in every interleaving of any number of processes, except at two
places. A tick puts an address in `ebx` (see `Linkage.Timer`), where the wrapper has the value of
the caller and then the first argument; and `retval` is the same variable for all processes.

`ds` is not kept: the linkage loads the segment of the kernel, nothing loads the old one again, and
`iret` takes it away from user mode. And `khalt` of a shell does not return to its caller: it writes
to the frame of `int $0x80`, so that `iret` starts the program again.
-/

namespace GalapagOS
namespace Linkage
namespace Call

open Function Timer

/-! ## The code -/

/-- The functions of `sys_call_table`. -/
inductive SysCall where
  | khalt
  | kexecute
  | kread
  | kwrite
  | kopen
  | kclose
  | kgetArgs
  | kvidmap
  | ksetHandler
  | ksigreturn
deriving DecidableEq, Repr

def sysCallTable : List (Option SysCall) :=
  [none, some .khalt, some .kexecute, some .kread, some .kwrite, some .kopen, some .kclose,
    some .kgetArgs, some .kvidmap, some .ksetHandler, some .ksigreturn]

/-- The entry of the table with a number. -/
def function (number : Word) : Option SysCall := (sysCallTable[number.toNat]?).join

/-- `ece391sysnum.h`: the wrappers of the library have the names of the functions. -/
def SysCall.number : SysCall → Word
  | .khalt => 1
  | .kexecute => 2
  | .kread => 3
  | .kwrite => 4
  | .kopen => 5
  | .kclose => 6
  | .kgetArgs => 7
  | .kvidmap => 8
  | .ksetHandler => 9
  | .ksigreturn => 10

theorem SysCall.function_number (f : SysCall) :
    ValidNumber f.number ∧ function f.number = some f := by
  cases f <;> decide

/-- The instructions of `DO_CALL`. -/
inductive Stub where
  /-- `PUSHL %EBX` -/
  | pushEbx
  /-- `MOVL $number,%EAX` -/
  | loadNumber
  /-- `MOVL 8(%ESP),%EBX` -/
  | loadFirst
  /-- `MOVL 12(%ESP),%ECX` -/
  | loadSecond
  /-- `MOVL 16(%ESP),%EDX` -/
  | loadThird
  /-- `INT $0x80` -/
  | int80
  /-- `POPL %EBX` -/
  | popEbx
  | ret
deriving DecidableEq, Repr

/-- The instructions of `system_call_linkage` up to the call; a comparison and its jump are one. -/
inductive Entry where
  | pushfl
  | pushal
  /-- `cmpl $MIN_SYS_CALL,%eax; jl invalid_syscall_num` -/
  | testMin
  /-- `cmpl $MAX_SYS_CALL,%eax; jg invalid_syscall_num` -/
  | testMax
  | pushEdx
  | pushEcx
  | pushEbx
  /-- `movw $KERNEL_DS, %cx` -/
  | loadCx
  /-- `movw %cx, %ds` -/
  | loadDs
  /-- `call *sys_call_table(,%eax,4)` -/
  | call
deriving DecidableEq, Repr

/-- The places of a process that makes a call; `κ` are the wrappers of its program. -/
inductive Point (κ : Type) where
  | stub (w : κ) (i : Stub)
  | entry (i : Entry)
  /-- inside of the function -/
  | handler (f : SysCall)
  /-- `addl $12,%esp` -/
  | dropArgs
  /-- the end of `system_call_linkage` -/
  | valid (i : Instr)
  /-- `invalid_syscall_num` -/
  | invalid (i : Instr)
deriving DecidableEq, Repr

/-- The processor with the memory of the program, in words. -/
structure Cpu extends Context where
  ds : Word
  mem : Word → Word

/-- Where things are, and the numbers of the wrappers. -/
structure Layout (ι κ : Type) where
  number : κ → Word
  kernelStack : ι → Word
  address : Point κ → Word
  point : Word → Option (Point κ)
  point_address : ∀ pt, point (address pt) = some pt

/-- `KERNEL_DS` -/
def kernelDs : Word := 0x18

/-- A trap gate clears TF, NT, RF and VM. -/
def trapFlags (eflags : Word) : Word := eflags &&& ~~~0x34100

/-- The instruction behind another one. -/
def after (code : List Instr) (i : Instr) : Option Instr := (code.dropWhile (· ≠ i)).tail.head?

section

variable {ι κ : Type} (L : Layout ι κ)

def Layout.goto (c : Cpu) (pt : Point κ) : Cpu := { c with eip := L.address pt }

/-- An instruction of a wrapper. -/
def Layout.stub (w : κ) (c : Cpu) (esp ss : Word) : Stub → Cpu
  | .pushEbx =>
    L.goto { c with mode := .user (esp - 4) ss, mem := update c.mem (esp - 4) c.regs.ebx }
      (.stub w .loadNumber)
  | .loadNumber => L.goto { c with regs := { c.regs with eax := L.number w } } (.stub w .loadFirst)
  | .loadFirst =>
    L.goto { c with regs := { c.regs with ebx := c.mem (esp + 8) } } (.stub w .loadSecond)
  | .loadSecond =>
    L.goto { c with regs := { c.regs with ecx := c.mem (esp + 12) } } (.stub w .loadThird)
  | .loadThird => L.goto { c with regs := { c.regs with edx := c.mem (esp + 16) } } (.stub w .int80)
  | .int80 =>
    -- the frame has the address behind the instruction
    let c := L.goto c (.stub w .popEbx)
    L.goto { c with eflags := trapFlags c.eflags, mode := .kernel c.iretFrame } (.entry .pushfl)
  | .popEbx =>
    L.goto { c with regs := { c.regs with ebx := c.mem esp }, mode := .user (esp + 4) ss }
      (.stub w .ret)
  | .ret => { c with eip := c.mem esp, mode := .user (esp + 4) ss }

/-- An instruction of `system_call_linkage` before the call. `v` are the flags that a comparison
leaves. -/
def Layout.entry (p : ι) (v : Word) (c : Cpu) (stack : List Word) : Entry → Option Cpu
  | .pushfl => some (L.goto { c with mode := .kernel (c.eflags :: stack) } (.entry .pushal))
  | .pushal =>
    let esp := L.kernelStack p - BitVec.ofNat 32 (4 * stack.length)
    some (L.goto { c with mode := .kernel (pushal c.regs esp ++ stack) } (.entry .testMin))
  | .testMin =>
    some (L.goto { c with eflags := v }
      (if c.regs.eax.toInt < 1 then .invalid .storeError else .entry .testMax))
  | .testMax =>
    some (L.goto { c with eflags := v }
      (if 10 < c.regs.eax.toInt then .invalid .storeError else .entry .pushEdx))
  | .pushEdx => some (L.goto { c with mode := .kernel (c.regs.edx :: stack) } (.entry .pushEcx))
  | .pushEcx => some (L.goto { c with mode := .kernel (c.regs.ecx :: stack) } (.entry .pushEbx))
  | .pushEbx => some (L.goto { c with mode := .kernel (c.regs.ebx :: stack) } (.entry .loadCx))
  | .loadCx =>
    some (L.goto { c with regs := { c.regs with ecx := c.regs.ecx &&& 0xffff0000 ||| kernelDs } }
      (.entry .loadDs))
  | .loadDs => some (L.goto { c with ds := c.regs.ecx &&& 0xffff } (.entry .call))
  | .call => (function c.regs.eax).map fun f =>
      L.goto { c with mode := .kernel (L.address .dropArgs :: stack) } (.handler f)

/-- An instruction behind the call, with the value of `retval`. -/
def Cpu.instr (r : Word) (c : Cpu) : List Word → Instr → Option (Word × Cpu)
  | _, .storeEax => some (c.regs.eax, c)
  | _, .storeError => some (-1, c)
  | edi :: esi :: ebp :: _ :: ebx :: edx :: ecx :: eax :: stack, .popal =>
    some (r, { c with regs := ⟨eax, ecx, edx, ebx, ebp, esi, edi⟩, mode := .kernel stack })
  | _, .loadEax => some (r, { c with regs := { c.regs with eax := r } })
  | eflags :: stack, .popfl => some (r, { c with eflags := eflags, mode := .kernel stack })
  | stack, .iret => (c.iret stack).map fun d =>
      -- a data segment of the kernel is taken away from user mode
      let ds := match d.mode with
        | .user _ _ => if c.ds = kernelDs then 0 else c.ds
        | .kernel _ => c.ds
      (r, { c with toContext := d, ds := ds })
  -- a stack that is too short
  | _, .popal => none
  | _, .popfl => none

/-- The same instruction in `Linkage.SystemCall`, which has only `eax` of the registers and of the
frame of `pushal`. -/
theorem Cpu.exec_of_instr {c c' : Cpu} {stack : List Word} {i : Instr} {t : Thread} {r r' : Word}
    (heax : t.eax = c.regs.eax) (hframe : i = .popal → stack[7]? = some t.frame)
    (h : c.instr r stack i = some (r', c')) :
    i.exec (r, t) = (r', { t with eax := c'.regs.eax }) := by
  cases i with
  | storeEax =>
    cases h
    rw [← heax]
    rfl
  | storeError =>
    cases h
    rw [← heax]
    rfl
  | popal =>
    have hword := hframe rfl
    unfold Cpu.instr at h
    split at h <;> try contradiction
    cases h
    cases hword
    rfl
  | loadEax =>
    cases h
    rfl
  | popfl =>
    unfold Cpu.instr at h
    split at h <;> try contradiction
    cases h
    rw [← heax]
    rfl
  | iret =>
    obtain ⟨d, hd, hx⟩ := Option.map_eq_some_iff.mp (show (c.iret stack).map _ = some _ from h)
    have hregs : d.regs = c.regs := by
      unfold Context.iret at hd
      repeat' split at hd
      all_goals cases hd
      all_goals rfl
    cases hx
    show (r, t) = (r, { t with eax := d.regs.eax })
    rw [hregs, ← heax]

/-- One of the two ends of `system_call_linkage`. -/
def Layout.instr (r : Word) (c : Cpu) (stack : List Word) (code : List Instr) (pt : Instr → Point κ)
    (i : Instr) : Option (Word × Cpu) :=
  (c.instr r stack i).map fun x =>
    (x.1, (after code i).elim x.2 fun j => L.goto x.2 (pt j))

/-- The instruction at a place, with the value of `retval`. -/
def Layout.exec (p : ι) (v r : Word) (c : Cpu) (pt : Point κ) : Option (Word × Cpu) :=
  match pt, c.mode with
  | .stub w i, .user esp ss => some (r, L.stub w c esp ss i)
  | .entry i, .kernel stack => (L.entry p v c stack i).map fun c => (r, c)
  | .dropArgs, .kernel (_ :: _ :: _ :: stack) =>
    some (r, L.goto { c with eflags := v, mode := .kernel stack } (.valid .storeEax))
  | .valid i, .kernel stack => L.instr r c stack validReturn .valid i
  | .invalid i, .kernel stack => L.instr r c stack invalidReturn .invalid i
  | _, _ => none

end

/-! ## Interleavings -/

/-- What an observer has seen of a call: the wrapper, the processor at its entry, the functions that
were called with their arguments, the value and the stores of the function, and what it has put in
the frame of `int $0x80`. -/
structure Pending (κ : Type) where
  wrapper : κ
  start : Cpu
  esp : Word
  ss : Word
  calls : List (SysCall × Word × Word × Word)
  value : Option Word
  stores : List (Word × Word)
  restart : Option (Word × Word)

/-- What a function leaves behind: its value, the registers that it need not keep, its arguments,
and what it has stored in the memory of the program. A tick may have come meanwhile. -/
structure Result where
  value : Word
  ecx : Word
  edx : Word
  ebx : Word
  eflags : Word
  args : Word × Word × Word
  stores : List (Word × Word)
  /-- `instr_ptr` and `user_stack` of a shell that halts -/
  restart : Option (Word × Word)

def storeAll (stores : List (Word × Word)) (m : Word → Word) : Word → Word :=
  stores.foldl (fun m x => update m x.1 x.2) m

/-- `retval` and the processes. -/
structure State (ι κ : Type) where
  retval : Word
  cpu : ι → Cpu
  pending : ι → Option (Pending κ)
  /-- the instructions of a call so far -/
  steps : ι → ℕ

inductive Event (ι κ : Type) where
  /-- the program goes on until it is at the entry of a wrapper -/
  | call (p : ι) (w : κ) (c : Cpu)
  /-- the next instruction of the process -/
  | step (p : ι) (v : Word)
  /-- the function returns -/
  | handled (p : ι) (r : Result)
  /-- the process has lost the processor and got it back, with `ds` of the others -/
  | preempt (p : ι) (ebx ds : Word)

section

variable {ι κ : Type} [DecidableEq ι] (L : Layout ι κ)

/-- The function that is called, with the words on the stack. -/
def Cpu.call (c : Cpu) : List (SysCall × Word × Word × Word) :=
  match function c.regs.eax, c.mode with
  | some f, .kernel (a :: b :: d :: _) => [(f, a, b, d)]
  | _, _ => []

/-- What is noted of an instruction. -/
def Pending.next (q : Pending κ) (c : Cpu) : Point κ → Option (Pending κ)
  | .stub _ .ret => none
  | .entry .call => some { q with calls := q.calls ++ c.call }
  -- with another frame the wrapper is not reached again
  | .valid .iret | .invalid .iret => if q.restart = none then some q else none
  | _ => some q

/-- `JUMP_BACK_TO_IRET`: the words from the saved `ebp` of `khalt` up to the frame of `int $0x80`. -/
def jumpBackToIret : ℕ := 14

/-- The stores of `khalt` to `eip` and `esp` of `curr_iret`, on the stack from the return address of
`khalt` on. The saved `ebp` is the word below it. -/
def restartFrame (stack : List Word) : Option (Word × Word) → List Word
  | none => stack
  | some (instrPtr, userStack) =>
    (stack.set (jumpBackToIret - 1) instrPtr).set (jumpBackToIret + 2) userStack

/-- `ret` of a compiled function, with the return address on the stack. -/
def Cpu.handled (c : Cpu) (r : Result) : Option Cpu :=
  match c.mode with
  | .kernel stack =>
    match restartFrame stack r.restart with
    | eip :: _ :: _ :: _ :: stack =>
      some { c with
        regs := { c.regs with eax := r.value, ecx := r.ecx, edx := r.edx, ebx := r.ebx }
        eflags := r.eflags
        eip := eip
        mode := .kernel (r.args.1 :: r.args.2.1 :: r.args.2.2 :: stack)
        mem := storeAll r.stores c.mem }
    | _ => none
  | .user _ _ => none

/-- What is noted when the function returns. -/
def Pending.handled (q : Pending κ) (r : Result) : Pending κ :=
  { q with value := some r.value, stores := q.stores ++ r.stores, restart := r.restart }

def Event.exec (s : State ι κ) : Event ι κ → Option (State ι κ)
  | .call p w c =>
    match s.pending p, c.mode with
    | none, .user esp ss =>
      if c.eip = L.address (.stub w .pushEbx) then
        some { s with
          cpu := update s.cpu p c
          pending := update s.pending p (some ⟨w, c, esp, ss, [], none, [], none⟩)
          steps := update s.steps p 0 }
      else none
    | _, _ => none
  | .step p v =>
    (s.pending p).bind fun q => (L.point (s.cpu p).eip).bind fun pt =>
      (L.exec p v s.retval (s.cpu p) pt).map fun x =>
        { retval := x.1
          cpu := update s.cpu p x.2
          pending := update s.pending p (q.next (s.cpu p) pt)
          steps := update s.steps p (s.steps p + 1) }
  | .handled p r =>
    (s.pending p).bind fun q =>
      match L.point (s.cpu p).eip with
      | some (.handler f) =>
        -- no other function stores to the frame
        if r.restart = none ∨ f = .khalt then
          ((s.cpu p).handled r).map fun c =>
            { s with
              cpu := update s.cpu p c
              pending := update s.pending p (some (q.handled r)) }
        else none
      | _ => none
  | .preempt p ebx ds =>
    (s.pending p).map fun _ =>
      { s with
        cpu := update s.cpu p
          { s.cpu p with regs := { (s.cpu p).regs with ebx := ebx }, ds := ds } }

/-- No process makes a call at first. -/
def system : Run.System (State ι κ) (Event ι κ) where
  init s := ∀ p, s.pending p = none
  step s e := e.exec L s

/-- `ebx` has a value that is still needed. -/
def Point.usesEbx : Point κ → Bool
  | .stub _ .pushEbx | .stub _ .loadSecond | .stub _ .loadThird | .stub _ .int80 | .stub _ .ret => true
  | .entry .pushfl | .entry .pushal | .entry .testMin | .entry .testMax | .entry .pushEdx
  | .entry .pushEcx | .entry .pushEbx => true
  | _ => false

/-- The next instruction writes `retval`. -/
def Point.storesRetval : Point κ → Bool
  | .valid .storeEax | .invalid .storeError => true
  | _ => false

/-- Between the store to `retval` and the load. -/
def Point.usesRetval : Point κ → Bool
  | .valid .popal | .valid .loadEax => true
  | .invalid .popal | .invalid .popfl | .invalid .loadEax => true
  | _ => false

/-- The process is making a call and at a place of a kind. -/
def State.At (s : State ι κ) (p : ι) (kind : Point κ → Bool) : Prop :=
  (s.pending p).isSome ∧ (L.point (s.cpu p).eip).any kind

instance (s : State ι κ) (p : ι) (kind : Point κ → Bool) : Decidable (s.At L p kind) :=
  inferInstanceAs (Decidable (_ ∧ _))

/-- The stores of a function do not hit the return address of the wrapper and the word below it. -/
def Pending.Spared (q : Pending κ) (stores : List (Word × Word)) : Prop :=
  ∀ x ∈ stores, x.1 ≠ q.esp ∧ x.1 ≠ q.esp - 4

instance (q : Pending κ) (stores : List (Word × Word)) : Decidable (q.Spared stores) :=
  -- by the list: a search for an instance may also go through all pairs of words
  List.decidableBAll (fun x : Word × Word => x.1 ≠ q.esp ∧ x.1 ≠ q.esp - 4) stores

/-- No tick comes while `ebx` is needed, and no result is stored between the store and the load of
another process. -/
def Undisturbed (s : State ι κ) : Event ι κ → Prop
  | .call _ _ _ => True
  | .step p _ => s.At L p Point.storesRetval → ∀ p', p' ≠ p → ¬s.At L p' Point.usesRetval
  | .handled p r => ∀ q ∈ s.pending p, q.Spared r.stores
  | .preempt p _ _ => ¬s.At L p Point.usesEbx

instance [Fintype ι] (s : State ι κ) : DecidablePred (Undisturbed L s)
  | .call _ _ _ => inferInstanceAs (Decidable True)
  | .step _ _ => inferInstanceAs (Decidable (_ → ∀ p', p' ≠ _ → ¬_))
  | .handled p r => inferInstanceAs (Decidable (∀ q ∈ s.pending p, q.Spared r.stores))
  | .preempt _ _ _ => inferInstanceAs (Decidable ¬_)

end

/-! ## One call -/

section

variable {ι κ : Type} {L : Layout ι κ} {q : Pending κ} {c : Cpu} {p : ι} {r v : Word}

/-- The arguments of the wrapper, above its return address. -/
def Pending.args (q : Pending κ) : Word × Word × Word :=
  (q.start.mem (q.esp + 4), q.start.mem (q.esp + 8), q.start.mem (q.esp + 12))

/-- The memory of the program with the stores of the function. -/
def Pending.mem (q : Pending κ) : Word → Word := storeAll q.stores q.start.mem

/-- The frame of `int $0x80`. -/
def Pending.frame (L : Layout ι κ) (q : Pending κ) : List Word :=
  match q.restart with
  | none => [L.address (.stub q.wrapper .popEbx), userCs, q.start.eflags, q.esp - 4, q.ss]
  | some (instrPtr, userStack) => [instrPtr, userCs, q.start.eflags, userStack, q.ss]

/-- The value of a call: that of the function with the number of the wrapper, which has got the
arguments of the wrapper, or -1 if there is none. -/
def Completed (L : Layout ι κ) (q : Pending κ) (value : Word) : Prop :=
  (ValidNumber (L.number q.wrapper) ∧ q.value = some value ∧
    ∃ f, function (L.number q.wrapper) = some f ∧ q.calls = [(f, q.args)]) ∨
  (¬ValidNumber (L.number q.wrapper) ∧ q.calls = [] ∧ value = -1)

/-- A wrapper of the library calls its own function. -/
theorem Completed.library {L : Layout ι SysCall} {q : Pending SysCall} {value : Word}
    (hL : L.number = SysCall.number) (h : Completed L q value) :
    q.value = some value ∧ q.calls = [(q.wrapper, q.args)] := by
  obtain ⟨hvalid, hf⟩ := q.wrapper.function_number
  rw [← hL] at hvalid hf
  rcases h with ⟨-, hvalue, f, hf', hcalls⟩ | ⟨hnot, -⟩
  · obtain rfl := Option.some.inj (hf.symm.trans hf')
    exact ⟨hvalue, hcalls⟩
  · exact absurd hvalid hnot

/-- No function has been called. -/
structure Pending.New (q : Pending κ) : Prop where
  calls : q.calls = []
  stores : q.stores = []
  restart : q.restart = none

/-- What holds during the whole call. -/
structure Kept (q : Pending κ) (c : Cpu) : Prop where
  ebp : c.regs.ebp = q.start.regs.ebp
  esi : c.regs.esi = q.start.regs.esi
  edi : c.regs.edi = q.start.regs.edi
  mem : ∀ a, a ≠ q.esp - 4 → c.mem a = q.mem a
  returnAddress : q.mem q.esp = q.start.mem q.esp
  khalt : q.restart ≠ none → q.calls = [(.khalt, q.args)]

/-- What holds between `PUSHL %EBX` and `POPL %EBX`. -/
structure InCall (q : Pending κ) (c : Cpu) : Prop extends Kept q c where
  ebx : c.mem (q.esp - 4) = q.start.regs.ebx

structure InStub (q : Pending κ) (c : Cpu) : Prop extends InCall q c where
  mode : c.mode = .user (q.esp - 4) q.ss
  eflags : c.eflags = q.start.eflags
  restart : q.restart = none

/-- The kernel stack has these words, the registers of `pushal`, the flags and the frame. -/
def OnStack (L : Layout ι κ) (q : Pending κ) (c : Cpu) (words : List Word) : Prop :=
  ∃ esp ebx edx ecx eax eflags, c.mode = .kernel (words ++ q.start.regs.edi :: q.start.regs.esi ::
    q.start.regs.ebp :: esp :: ebx :: edx :: ecx :: eax :: eflags :: q.frame L)

/-- The kernel stack has the flags and the frame. -/
def FlagsOnStack (L : Layout ι κ) (q : Pending κ) (c : Cpu) : Prop :=
  ∃ eflags, c.mode = .kernel (eflags :: q.frame L)

/-- The number and the arguments are in registers. -/
structure Loaded (L : Layout ι κ) (q : Pending κ) (c : Cpu) : Prop where
  eax : c.regs.eax = L.number q.wrapper
  ebx : c.regs.ebx = q.args.1
  ecx : c.regs.ecx = q.args.2.1
  edx : c.regs.edx = q.args.2.2

/-- What holds at an instruction of the wrapper. -/
def AtStub (L : Layout ι κ) (q : Pending κ) (c : Cpu) : Stub → Prop
  | .pushEbx => q.New ∧ Kept q c ∧ c.mode = .user q.esp q.ss ∧ c.eflags = q.start.eflags ∧
      c.regs.ebx = q.start.regs.ebx
  | .loadNumber => q.New ∧ InStub q c
  | .loadFirst => q.New ∧ InStub q c ∧ c.regs.eax = L.number q.wrapper
  | .loadSecond => q.New ∧ InStub q c ∧ c.regs.eax = L.number q.wrapper ∧ c.regs.ebx = q.args.1
  | .loadThird => q.New ∧ InStub q c ∧ c.regs.eax = L.number q.wrapper ∧ c.regs.ebx = q.args.1 ∧
      c.regs.ecx = q.args.2.1
  | .int80 => q.New ∧ InStub q c ∧ Loaded L q c
  | .popEbx => InStub q c ∧ Completed L q c.regs.eax
  | .ret => Kept q c ∧ c.mode = .user q.esp q.ss ∧ c.eflags = q.start.eflags ∧
      c.regs.ebx = q.start.regs.ebx ∧ Completed L q c.regs.eax ∧ q.restart = none

/-- What holds at an instruction of `system_call_linkage` before the call. -/
def AtEntry (L : Layout ι κ) (q : Pending κ) (c : Cpu) : Entry → Prop
  | .pushfl => Loaded L q c ∧ c.mode = .kernel (q.frame L)
  | .pushal => Loaded L q c ∧ FlagsOnStack L q c
  | .testMin => Loaded L q c ∧ OnStack L q c []
  | .testMax => Loaded L q c ∧ OnStack L q c [] ∧ 1 ≤ (L.number q.wrapper).toInt
  | .pushEdx => Loaded L q c ∧ OnStack L q c [] ∧ ValidNumber (L.number q.wrapper)
  | .pushEcx => Loaded L q c ∧ OnStack L q c [q.args.2.2] ∧ ValidNumber (L.number q.wrapper)
  | .pushEbx => Loaded L q c ∧ OnStack L q c [q.args.2.1, q.args.2.2] ∧
      ValidNumber (L.number q.wrapper)
  | .loadCx | .loadDs | .call => c.regs.eax = L.number q.wrapper ∧
      OnStack L q c [q.args.1, q.args.2.1, q.args.2.2] ∧ ValidNumber (L.number q.wrapper)

/-- What holds at a place. -/
def At (L : Layout ι κ) (r : Word) (q : Pending κ) (c : Cpu) : Point κ → Prop
  | .stub w i => w = q.wrapper ∧ AtStub L q c i
  | .entry i => q.New ∧ InCall q c ∧ AtEntry L q c i
  | .handler f => InCall q c ∧ (∃ a b d, OnStack L q c [L.address .dropArgs, a, b, d]) ∧
      ValidNumber (L.number q.wrapper) ∧ function (L.number q.wrapper) = some f ∧
      q.calls = [(f, q.args)] ∧ q.restart = none
  | .dropArgs => InCall q c ∧ (∃ a b d, OnStack L q c [a, b, d]) ∧ Completed L q c.regs.eax
  | .valid .storeEax => InCall q c ∧ OnStack L q c [] ∧ Completed L q c.regs.eax
  | .valid .popal => InCall q c ∧ OnStack L q c [] ∧ Completed L q r
  | .valid .loadEax => InCall q c ∧ FlagsOnStack L q c ∧ Completed L q r
  | .valid .popfl => InCall q c ∧ FlagsOnStack L q c ∧ Completed L q c.regs.eax
  | .valid .iret => InCall q c ∧ c.mode = .kernel (q.frame L) ∧ Completed L q c.regs.eax
  | .valid .storeError => False
  | .invalid .storeError => InCall q c ∧ OnStack L q c [] ∧ Completed L q (-1)
  | .invalid .popal => InCall q c ∧ OnStack L q c [] ∧ Completed L q r
  | .invalid .popfl => InCall q c ∧ FlagsOnStack L q c ∧ Completed L q r
  | .invalid .loadEax => InCall q c ∧ c.mode = .kernel (q.frame L) ∧ Completed L q r
  | .invalid .iret => InCall q c ∧ c.mode = .kernel (q.frame L) ∧ Completed L q c.regs.eax
  | .invalid .storeEax => False

/-- The instructions before a place, at most. -/
def Point.index : Point κ → ℕ
  | .stub _ .pushEbx => 0
  | .stub _ .loadNumber => 1
  | .stub _ .loadFirst => 2
  | .stub _ .loadSecond => 3
  | .stub _ .loadThird => 4
  | .stub _ .int80 => 5
  | .entry .pushfl => 6
  | .entry .pushal => 7
  | .entry .testMin => 8
  | .entry .testMax => 9
  | .entry .pushEdx => 10
  | .entry .pushEcx => 11
  | .entry .pushEbx => 12
  | .entry .loadCx => 13
  | .entry .loadDs => 14
  | .entry .call => 15
  | .handler _ | .dropArgs => 16
  | .valid .storeEax | .valid .storeError | .invalid .storeEax | .invalid .storeError => 17
  | .valid .popal | .invalid .popal => 18
  | .valid .loadEax | .invalid .popfl => 19
  | .valid .popfl | .invalid .loadEax => 20
  | .valid .iret | .invalid .iret => 21
  | .stub _ .popEbx => 22
  | .stub _ .ret => 23

theorem Point.index_lt (pt : Point κ) : pt.index < 24 := by
  unfold Point.index
  split <;> decide

/-- The process is at a place, and what is due there holds. -/
def Goes (L : Layout ι κ) (r : Word) (q : Pending κ) (c : Cpu) (index : ℕ) : Prop :=
  ∃ pt, c.eip = L.address pt ∧ At L r q c pt ∧ index ≤ pt.index

/-- The program behind the call of a wrapper. -/
structure Returned (L : Layout ι κ) (q : Pending κ) (c : Cpu) : Prop where
  eip : c.eip = q.start.mem q.esp
  mode : c.mode = .user (q.esp + 4) q.ss
  eflags : c.eflags = q.start.eflags
  ebx : c.regs.ebx = q.start.regs.ebx
  ebp : c.regs.ebp = q.start.regs.ebp
  esi : c.regs.esi = q.start.regs.esi
  edi : c.regs.edi = q.start.regs.edi
  mem : ∀ a, a ≠ q.esp - 4 → c.mem a = q.mem a
  value : Completed L q c.regs.eax

/-- The program of a shell from its start, after `khalt`. -/
structure Restarted (L : Layout ι κ) (q : Pending κ) (c : Cpu) (instrPtr userStack : Word) : Prop where
  calls : q.calls = [(.khalt, q.args)]
  eip : c.eip = instrPtr
  mode : c.mode = .user userStack q.ss
  eflags : c.eflags = q.start.eflags
  mem : ∀ a, a ≠ q.esp - 4 → c.mem a = q.mem a
  value : Completed L q c.regs.eax

/-- How a call ends. -/
def Ended (L : Layout ι κ) (q : Pending κ) (c : Cpu) : Prop :=
  match q.restart with
  | none => Returned L q c
  | some (instrPtr, userStack) => Restarted L q c instrPtr userStack

/-- What an instruction leads to: the next place, or the end of the call. -/
def Leads (L : Layout ι κ) (q : Pending κ) (c : Cpu) (pt : Point κ) (x : Word × Cpu) : Prop :=
  match q.next c pt with
  | some q' => Goes L x.1 q' x.2 (pt.index + 1)
  | none => Ended L q x.2

theorem Leads.of_next {q' : Pending κ} {pt : Point κ} {x : Word × Cpu} (hnext : q.next c pt = some q')
    (h : Goes L x.1 q' x.2 (pt.index + 1)) : Leads L q c pt x := by
  rw [Leads, hnext]
  exact h

/-- The registers that a function keeps and the memory. -/
theorem InCall.of_eq {c' : Cpu} (h : InCall q c) (hebp : c'.regs.ebp = c.regs.ebp)
    (hesi : c'.regs.esi = c.regs.esi) (hedi : c'.regs.edi = c.regs.edi) (hmem : c'.mem = c.mem) :
    InCall q c' where
  ebp := hebp.trans h.ebp
  esi := hesi.trans h.esi
  edi := hedi.trans h.edi
  mem a ha := (congrFun hmem a).trans (h.mem a ha)
  returnAddress := h.returnAddress
  khalt := h.khalt
  ebx := (congrFun hmem _).trans h.ebx

theorem sub_four_ne (a : Word) : a ≠ a - 4 := by bv_omega

/-- A word of the caller's frame, from inside of the wrapper. -/
theorem InStub.arg (h : InStub q c) (hnew : q.New) {d e : Word} (hd : q.esp - 4 + d = q.esp + e)
    (he : q.esp + e ≠ q.esp - 4) : c.mem (q.esp - 4 + d) = q.start.mem (q.esp + e) := by
  rw [hd, h.mem _ he, Pending.mem, hnew.stores]
  rfl

theorem AtStub.step {i : Stub} (h : AtStub L q c i) (hi : i ≠ .ret) :
    ∃ esp ss, c.mode = .user esp ss ∧
      Goes L r q (L.stub q.wrapper c esp ss i) ((Point.stub q.wrapper i).index + 1) := by
  cases i with
  | pushEbx =>
    obtain ⟨hnew, hkept, hmode, heflags, hebx⟩ := h
    refine ⟨_, _, hmode, .stub q.wrapper .loadNumber, rfl, ⟨rfl, hnew, ?_⟩, le_rfl⟩
    refine ⟨⟨⟨hkept.ebp, hkept.esi, hkept.edi, fun a ha => ?_, hkept.returnAddress, hkept.khalt⟩, ?_⟩,
      rfl, heflags, hnew.restart⟩
    · exact (update_of_ne ha _ _).trans (hkept.mem a ha)
    · exact (update_self ..).trans hebx
  | loadNumber =>
    obtain ⟨hnew, hin⟩ := h
    refine ⟨_, _, hin.mode, .stub q.wrapper .loadFirst, rfl, ⟨rfl, hnew, ?_, rfl⟩, le_rfl⟩
    exact ⟨hin.of_eq rfl rfl rfl rfl, hin.mode, hin.eflags, hin.restart⟩
  | loadFirst =>
    obtain ⟨hnew, hin, heax⟩ := h
    refine ⟨_, _, hin.mode, .stub q.wrapper .loadSecond, rfl, ⟨rfl, hnew, ?_, heax, ?_⟩, le_rfl⟩
    · exact ⟨hin.of_eq rfl rfl rfl rfl, hin.mode, hin.eflags, hin.restart⟩
    · exact hin.arg hnew (by bv_omega) (by bv_omega)
  | loadSecond =>
    obtain ⟨hnew, hin, heax, hebx⟩ := h
    refine ⟨_, _, hin.mode, .stub q.wrapper .loadThird, rfl, ⟨rfl, hnew, ?_, heax, hebx, ?_⟩, le_rfl⟩
    · exact ⟨hin.of_eq rfl rfl rfl rfl, hin.mode, hin.eflags, hin.restart⟩
    · exact hin.arg hnew (by bv_omega) (by bv_omega)
  | loadThird =>
    obtain ⟨hnew, hin, heax, hebx, hecx⟩ := h
    refine ⟨_, _, hin.mode, .stub q.wrapper .int80, rfl, ⟨rfl, hnew, ?_, heax, hebx, hecx, ?_⟩, le_rfl⟩
    · exact ⟨hin.of_eq rfl rfl rfl rfl, hin.mode, hin.eflags, hin.restart⟩
    · exact hin.arg hnew (by bv_omega) (by bv_omega)
  | int80 =>
    -- the processor makes the frame of the call
    obtain ⟨hnew, hin, hloaded⟩ := h
    refine ⟨_, _, hin.mode, .entry .pushfl, rfl, ⟨hnew, ?_, ?_, ?_⟩, le_rfl⟩
    · exact hin.of_eq rfl rfl rfl rfl
    · exact ⟨hloaded.eax, hloaded.ebx, hloaded.ecx, hloaded.edx⟩
    · show Mode.kernel (Context.iretFrame _) = _
      rw [Context.iretFrame]
      dsimp only [Layout.goto]
      rw [hin.mode, hin.eflags, Pending.frame, hin.restart]
  | popEbx =>
    obtain ⟨hin, hvalue⟩ := h
    refine ⟨_, _, hin.mode, .stub q.wrapper .ret, rfl,
      ⟨rfl, ?_, ?_, hin.eflags, hin.ebx, hvalue, hin.restart⟩, le_rfl⟩
    · exact ⟨hin.ebp, hin.esi, hin.edi, hin.mem, hin.returnAddress, hin.khalt⟩
    · show Mode.user (q.esp - 4 + 4) q.ss = _
      rw [BitVec.sub_add_cancel]
  | ret => exact absurd rfl hi

theorem AtStub.ret (h : AtStub L q c .ret) :
    ∃ esp ss, c.mode = .user esp ss ∧ Ended L q (L.stub q.wrapper c esp ss .ret) := by
  obtain ⟨hkept, hmode, heflags, hebx, hvalue, hrestart⟩ := h
  refine ⟨_, _, hmode, ?_⟩
  rw [Ended, hrestart]
  refine ⟨?_, rfl, heflags, hebx, hkept.ebp, hkept.esi, hkept.edi, hkept.mem, hvalue⟩
  exact (hkept.mem _ (sub_four_ne q.esp)).trans hkept.returnAddress

theorem Loaded.of_regs {c' : Cpu} (h : Loaded L q c) (hregs : c'.regs = c.regs) : Loaded L q c' := by
  obtain ⟨heax, hebx, hecx, hedx⟩ := h
  constructor
  · rwa [hregs]
  · rwa [hregs]
  · rwa [hregs]
  · rwa [hregs]

theorem validNumber_function {number : Word} (h : ValidNumber number) :
    ∃ f, function number = some f := by
  obtain ⟨hlow, hhigh⟩ := h
  -- the ten numbers
  have hcases : number.toNat < 11 ∧ 0 < number.toNat := by
    rw [BitVec.toInt_eq_toNat_cond] at hlow hhigh
    split at hlow <;> rename_i hlt
    · rw [if_pos hlt] at hhigh
      omega
    · omega
  have hall : ∀ n : Fin 11, 0 < n.val → ((sysCallTable[n.val]?).join).isSome := by decide
  exact Option.isSome_iff_exists.mp (hall ⟨number.toNat, hcases.1⟩ hcases.2)

/-- A number that fails one of the two tests. -/
theorem InCall.refused {n : ℕ} (hin : InCall q c) (hnew : q.New) (hstack : OnStack L q c [])
    (hloaded : Loaded L q c) (hnot : ¬ValidNumber c.regs.eax) (hn : n ≤ 17) (v : Word) :
    Goes L r q (L.goto { c with eflags := v } (.invalid .storeError)) n := by
  obtain ⟨_, _, _, _, _, _, hmode⟩ := hstack
  rw [hloaded.eax] at hnot
  refine ⟨.invalid .storeError, rfl, ⟨?_, ?_, .inr ⟨hnot, hnew.calls, rfl⟩⟩, hn⟩
  · exact hin.of_eq rfl rfl rfl rfl
  · exact ⟨_, _, _, _, _, _, hmode⟩

theorem AtEntry.step {i : Entry} (p : ι) (v r : Word) (hnew : q.New) (hin : InCall q c)
    (h : AtEntry L q c i) :
    ∃ stack c' q', c.mode = .kernel stack ∧ L.entry p v c stack i = some c' ∧
      q.next c (.entry i) = some q' ∧ Goes L r q' c' ((Point.entry i : Point κ).index + 1) := by
  cases i with
  | pushfl =>
    obtain ⟨hloaded, hmode⟩ := h
    refine ⟨_, _, q, hmode, rfl, rfl, .entry .pushal, rfl, ⟨hnew, ?_, ?_, _, rfl⟩, le_rfl⟩
    · exact hin.of_eq rfl rfl rfl rfl
    · exact hloaded.of_regs rfl
  | pushal =>
    obtain ⟨hloaded, eflags, hmode⟩ := h
    refine ⟨_, _, q, hmode, rfl, rfl, .entry .testMin, rfl, ⟨hnew, ?_, ?_, ?_⟩, le_rfl⟩
    · exact hin.of_eq rfl rfl rfl rfl
    · exact hloaded.of_regs rfl
    · rw [OnStack, ← hin.edi, ← hin.esi, ← hin.ebp]
      exact ⟨_, _, _, _, _, _, rfl⟩
  | testMin =>
    -- here and in the next test a number outside of the table leads to `invalid_syscall_num`
    obtain ⟨hloaded, _, _, _, _, _, _, hmode⟩ := h
    have hstack : OnStack L q c [] := ⟨_, _, _, _, _, _, hmode⟩
    refine ⟨_, _, q, hmode, rfl, rfl, ?_⟩
    by_cases hlow : c.regs.eax.toInt < 1
    · have hnot : ¬ValidNumber c.regs.eax := fun hvalid => absurd hvalid.1 (by omega)
      rw [if_pos hlow]
      exact hin.refused hnew hstack hloaded hnot (show 8 + 1 ≤ 17 by decide) v
    · rw [if_neg hlow]
      refine ⟨.entry .testMax, rfl, ⟨hnew, ?_, ?_, ?_, ?_⟩, le_rfl⟩
      · exact hin.of_eq rfl rfl rfl rfl
      · exact hloaded.of_regs rfl
      · exact ⟨_, _, _, _, _, _, hmode⟩
      · rw [← hloaded.eax]
        omega
  | testMax =>
    obtain ⟨hloaded, ⟨_, _, _, _, _, _, hmode⟩, hlow⟩ := h
    have hstack : OnStack L q c [] := ⟨_, _, _, _, _, _, hmode⟩
    refine ⟨_, _, q, hmode, rfl, rfl, ?_⟩
    by_cases hhigh : 10 < c.regs.eax.toInt
    · have hnot : ¬ValidNumber c.regs.eax := fun hvalid => absurd hvalid.2 (by omega)
      rw [if_pos hhigh]
      exact hin.refused hnew hstack hloaded hnot (show 9 + 1 ≤ 17 by decide) v
    · rw [if_neg hhigh]
      refine ⟨.entry .pushEdx, rfl, ⟨hnew, ?_, ?_, ?_, hlow, ?_⟩, le_rfl⟩
      · exact hin.of_eq rfl rfl rfl rfl
      · exact hloaded.of_regs rfl
      · exact ⟨_, _, _, _, _, _, hmode⟩
      · rw [← hloaded.eax]
        omega
  | pushEdx =>
    -- the arguments are pushed from the last to the first
    obtain ⟨hloaded, ⟨_, _, _, _, _, _, hmode⟩, hvalid⟩ := h
    refine ⟨_, _, q, hmode, rfl, rfl, .entry .pushEcx, rfl, ⟨hnew, ?_, ?_, ?_, hvalid⟩, le_rfl⟩
    · exact hin.of_eq rfl rfl rfl rfl
    · exact hloaded.of_regs rfl
    · rw [← hloaded.edx]
      exact ⟨_, _, _, _, _, _, rfl⟩
  | pushEcx =>
    obtain ⟨hloaded, ⟨_, _, _, _, _, _, hmode⟩, hvalid⟩ := h
    refine ⟨_, _, q, hmode, rfl, rfl, .entry .pushEbx, rfl, ⟨hnew, ?_, ?_, ?_, hvalid⟩, le_rfl⟩
    · exact hin.of_eq rfl rfl rfl rfl
    · exact hloaded.of_regs rfl
    · rw [← hloaded.ecx]
      exact ⟨_, _, _, _, _, _, rfl⟩
  | pushEbx =>
    obtain ⟨hloaded, ⟨_, _, _, _, _, _, hmode⟩, hvalid⟩ := h
    refine ⟨_, _, q, hmode, rfl, rfl, .entry .loadCx, rfl, ⟨hnew, ?_, hloaded.eax, ?_, hvalid⟩, le_rfl⟩
    · exact hin.of_eq rfl rfl rfl rfl
    · rw [← hloaded.ebx]
      exact ⟨_, _, _, _, _, _, rfl⟩
  | loadCx =>
    -- from here on ecx and ds are lost, and only the number in eax is needed
    obtain ⟨heax, ⟨_, _, _, _, _, _, hmode⟩, hvalid⟩ := h
    refine ⟨_, _, q, hmode, rfl, rfl, .entry .loadDs, rfl, ⟨hnew, ?_, heax, ?_, hvalid⟩, le_rfl⟩
    · exact hin.of_eq rfl rfl rfl rfl
    · exact ⟨_, _, _, _, _, _, hmode⟩
  | loadDs =>
    obtain ⟨heax, ⟨_, _, _, _, _, _, hmode⟩, hvalid⟩ := h
    refine ⟨_, _, q, hmode, rfl, rfl, .entry .call, rfl, ⟨hnew, ?_, heax, ?_, hvalid⟩, le_rfl⟩
    · exact hin.of_eq rfl rfl rfl rfl
    · exact ⟨_, _, _, _, _, _, hmode⟩
  | call =>
    obtain ⟨heax, ⟨_, _, _, _, _, _, hmode⟩, hvalid⟩ := h
    obtain ⟨f, hf⟩ := validNumber_function hvalid
    have hcall : c.call = [(f, q.args)] := by
      rw [Cpu.call, heax, hf, hmode]
      rfl
    have hentry : ∀ stack, L.entry p v c stack .call
        = some (L.goto { c with mode := .kernel (L.address .dropArgs :: stack) } (.handler f)) := by
      intro stack
      rw [Layout.entry, heax, hf]
      rfl
    refine ⟨_, _, _, hmode, hentry _, rfl, .handler f, rfl, ⟨?_, ?_, hvalid, hf, ?_, hnew.restart⟩,
      le_rfl⟩
    · exact ⟨⟨hin.ebp, hin.esi, hin.edi, hin.mem, hin.returnAddress, fun h => absurd hnew.restart h⟩,
        hin.ebx⟩
    · exact ⟨_, _, _, _, _, _, _, _, _, rfl⟩
    · show q.calls ++ c.call = [(f, q.args)]
      rw [hnew.calls, hcall]
      rfl

theorem Layout.instr_of_after {stack : List Word} {code : List Instr} {pt : Instr → Point κ}
    {i j : Instr} {r' : Word} {c' : Cpu} (hcode : after code i = some j)
    (h : c.instr r stack i = some (r', c')) :
    L.instr r c stack code pt i = some (r', L.goto c' (pt j)) := by
  rw [Layout.instr, h, Option.map_some, hcode]
  rfl

theorem Layout.instr_last {stack : List Word} {code : List Instr} {pt : Instr → Point κ} {i : Instr}
    {x : Word × Cpu} (hcode : after code i = none) (h : c.instr r stack i = some x) :
    L.instr r c stack code pt i = some x := by
  rw [Layout.instr, h, Option.map_some, hcode]
  rfl

/-- `popal` with the registers of the call, in either of the two ends. -/
theorem OnStack.popal {code : List Instr} {j : Instr} (hcode : after code .popal = some j)
    (h : OnStack L q c []) (hin : InCall q c) (r : Word) (pt : Instr → Point κ) :
    ∃ stack c', c.mode = .kernel stack ∧
      L.instr r c stack code pt .popal = some (r, L.goto c' (pt j)) ∧
      InCall q (L.goto c' (pt j)) ∧ FlagsOnStack L q (L.goto c' (pt j)) := by
  obtain ⟨_, _, _, _, _, _, hmode⟩ := h
  refine ⟨_, _, hmode, Layout.instr_of_after hcode rfl, ?_, ?_⟩
  · exact ⟨⟨rfl, rfl, rfl, hin.mem, hin.returnAddress, hin.khalt⟩, hin.ebx⟩
  · exact ⟨_, rfl⟩

/-- `iret` with the frame of the call, in either of the two ends: back to the wrapper, or to the
start of a shell. -/
theorem InCall.iret {code : List Instr} {pt : Instr → Point κ} (hcode : after code .iret = none)
    (hnext : q.next c (pt .iret) = if q.restart = none then some q else none)
    (hindex : (pt .iret).index = 21) (hin : InCall q c) (hmode : c.mode = .kernel (q.frame L))
    (hvalue : Completed L q c.regs.eax) (r : Word) :
    ∃ stack x, c.mode = .kernel stack ∧ L.instr r c stack code pt .iret = some x ∧
      Leads L q c (pt .iret) x ∧ x.1 = r := by
  cases hrestart : q.restart with
  | none =>
    rw [Pending.frame, hrestart] at hmode
    rw [if_pos hrestart] at hnext
    refine ⟨_, _, hmode, Layout.instr_last hcode rfl, .of_next hnext ?_, rfl⟩
    refine ⟨.stub q.wrapper .popEbx, rfl, ⟨rfl, ?_, hvalue⟩, by rw [hindex]; exact le_rfl⟩
    exact ⟨hin.of_eq rfl rfl rfl rfl, rfl, rfl, hrestart⟩
  | some x =>
    have hsome : q.restart ≠ none := by
      rw [hrestart]
      exact Option.some_ne_none x
    rw [Pending.frame, hrestart] at hmode
    rw [if_neg hsome] at hnext
    refine ⟨_, _, hmode, Layout.instr_last hcode rfl, ?_, rfl⟩
    rw [Leads, hnext]
    dsimp only
    rw [Ended, hrestart]
    exact ⟨hin.khalt hsome, rfl, rfl, rfl, hin.mem, hvalue⟩

theorem At.valid_step {i : Instr} (h : At L r q c (.valid i)) :
    ∃ stack x, c.mode = .kernel stack ∧ L.instr r c stack validReturn .valid i = some x ∧
      Leads L q c (.valid i) x ∧
      ((Point.valid i : Point κ).storesRetval = false → x.1 = r) := by
  cases i with
  | storeEax =>
    obtain ⟨hin, ⟨_, _, _, _, _, _, hmode⟩, hvalue⟩ := h
    refine ⟨_, _, hmode, rfl, .of_next rfl ⟨.valid .popal, rfl, ⟨?_, ?_, hvalue⟩, le_rfl⟩, nofun⟩
    · exact hin.of_eq rfl rfl rfl rfl
    · exact ⟨_, _, _, _, _, _, hmode⟩
  | popal =>
    obtain ⟨hin, hstack, hvalue⟩ := h
    have hcode : after validReturn .popal = some .loadEax := rfl
    obtain ⟨stack, c', hmode, heq, hin', hflags⟩ := hstack.popal hcode hin r .valid
    exact ⟨stack, _, hmode, heq, .of_next rfl ⟨.valid .loadEax, rfl, ⟨hin', hflags, hvalue⟩, le_rfl⟩,
      fun _ => rfl⟩
  | loadEax =>
    obtain ⟨hin, ⟨eflags, hmode⟩, hvalue⟩ := h
    refine ⟨_, _, hmode, rfl,
      .of_next rfl ⟨.valid .popfl, rfl, ⟨?_, ⟨eflags, hmode⟩, hvalue⟩, le_rfl⟩, fun _ => rfl⟩
    exact hin.of_eq rfl rfl rfl rfl
  | popfl =>
    obtain ⟨hin, ⟨eflags, hmode⟩, hvalue⟩ := h
    refine ⟨_, _, hmode, rfl, .of_next rfl ⟨.valid .iret, rfl, ⟨?_, rfl, hvalue⟩, le_rfl⟩,
      fun _ => rfl⟩
    exact hin.of_eq rfl rfl rfl rfl
  | iret =>
    obtain ⟨hin, hmode, hvalue⟩ := h
    have hcode : after validReturn .iret = none := rfl
    have hindex : (Point.valid .iret : Point κ).index = 21 := rfl
    obtain ⟨stack, x, hmode, heq, hleads, hretval⟩ := hin.iret hcode rfl hindex hmode hvalue r
    exact ⟨stack, x, hmode, heq, hleads, fun _ => hretval⟩
  | storeError => exact h.elim

theorem At.invalid_step {i : Instr} (h : At L r q c (.invalid i)) :
    ∃ stack x, c.mode = .kernel stack ∧ L.instr r c stack invalidReturn .invalid i = some x ∧
      Leads L q c (.invalid i) x ∧
      ((Point.invalid i : Point κ).storesRetval = false → x.1 = r) := by
  cases i with
  | storeError =>
    obtain ⟨hin, ⟨_, _, _, _, _, _, hmode⟩, hvalue⟩ := h
    refine ⟨_, _, hmode, rfl, .of_next rfl ⟨.invalid .popal, rfl, ⟨?_, ?_, hvalue⟩, le_rfl⟩, nofun⟩
    · exact hin.of_eq rfl rfl rfl rfl
    · exact ⟨_, _, _, _, _, _, hmode⟩
  | popal =>
    obtain ⟨hin, hstack, hvalue⟩ := h
    have hcode : after invalidReturn .popal = some .popfl := rfl
    obtain ⟨stack, c', hmode, heq, hin', hflags⟩ := hstack.popal hcode hin r .invalid
    exact ⟨stack, _, hmode, heq, .of_next rfl ⟨.invalid .popfl, rfl, ⟨hin', hflags, hvalue⟩, le_rfl⟩,
      fun _ => rfl⟩
  | popfl =>
    obtain ⟨hin, ⟨eflags, hmode⟩, hvalue⟩ := h
    refine ⟨_, _, hmode, rfl, .of_next rfl ⟨.invalid .loadEax, rfl, ⟨?_, rfl, hvalue⟩, le_rfl⟩,
      fun _ => rfl⟩
    exact hin.of_eq rfl rfl rfl rfl
  | loadEax =>
    obtain ⟨hin, hmode, hvalue⟩ := h
    refine ⟨_, _, hmode, rfl, .of_next rfl ⟨.invalid .iret, rfl, ⟨?_, hmode, hvalue⟩, le_rfl⟩,
      fun _ => rfl⟩
    exact hin.of_eq rfl rfl rfl rfl
  | iret =>
    obtain ⟨hin, hmode, hvalue⟩ := h
    have hcode : after invalidReturn .iret = none := rfl
    have hindex : (Point.invalid .iret : Point κ).index = 21 := rfl
    obtain ⟨stack, x, hmode, heq, hleads, hretval⟩ := hin.iret hcode rfl hindex hmode hvalue r
    exact ⟨stack, x, hmode, heq, hleads, fun _ => hretval⟩
  | storeEax => exact h.elim

theorem Layout.exec_stub {esp ss : Word} (hmode : c.mode = .user esp ss) (p : ι) (v : Word) (w : κ)
    (i : Stub) : L.exec p v r c (.stub w i) = some (r, L.stub w c esp ss i) := by
  unfold Layout.exec
  rw [hmode]

theorem Layout.exec_entry {stack : List Word} {c' : Cpu} {i : Entry} (hmode : c.mode = .kernel stack)
    (h : L.entry p v c stack i = some c') : L.exec p v r c (.entry i) = some (r, c') := by
  unfold Layout.exec
  rw [hmode]
  exact congrArg (Option.map _) h

theorem Layout.exec_handler (p : ι) (v : Word) (f : SysCall) : L.exec p v r c (.handler f) = none := by
  unfold Layout.exec
  cases c.mode <;> rfl

theorem Layout.exec_dropArgs {a b d : Word} {stack : List Word}
    (hmode : c.mode = .kernel (a :: b :: d :: stack)) (p : ι) (v : Word) :
    L.exec p v r c .dropArgs
      = some (r, L.goto { c with eflags := v, mode := .kernel stack } (.valid .storeEax)) := by
  unfold Layout.exec
  rw [hmode]

theorem Layout.exec_valid {stack : List Word} (hmode : c.mode = .kernel stack) (p : ι) (v : Word)
    (i : Instr) : L.exec p v r c (.valid i) = L.instr r c stack validReturn .valid i := by
  unfold Layout.exec
  rw [hmode]

theorem Layout.exec_invalid {stack : List Word} (hmode : c.mode = .kernel stack) (p : ι) (v : Word)
    (i : Instr) : L.exec p v r c (.invalid i) = L.instr r c stack invalidReturn .invalid i := by
  unfold Layout.exec
  rw [hmode]

/-- The next instruction. Inside of the function there is none. -/
theorem At.step {pt : Point κ} (p : ι) (v : Word) (h : At L r q c pt) :
    (∃ f, pt = .handler f ∧ L.exec p v r c pt = none) ∨
      ∃ x, L.exec p v r c pt = some x ∧ Leads L q c pt x ∧ (pt.storesRetval = false → x.1 = r) := by
  cases pt with
  | stub w i =>
    obtain ⟨rfl, h⟩ := h
    by_cases hi : i = .ret
    · subst hi
      obtain ⟨esp, ss, hmode, hended⟩ := h.ret
      exact .inr ⟨_, Layout.exec_stub hmode p v q.wrapper .ret, hended, fun _ => rfl⟩
    · obtain ⟨esp, ss, hmode, hgoes⟩ := h.step (r := r) hi
      refine .inr ⟨_, Layout.exec_stub hmode p v q.wrapper i, ?_, fun _ => rfl⟩
      have hnext : q.next c (.stub q.wrapper i) = some q := by
        cases i with
        | ret => exact absurd rfl hi
        | _ => rfl
      exact .of_next hnext hgoes
  | entry i =>
    obtain ⟨hnew, hin, h⟩ := h
    obtain ⟨stack, c', q', hmode, heq, hnext, hgoes⟩ := h.step p v r hnew hin
    exact .inr ⟨_, Layout.exec_entry hmode heq, .of_next hnext hgoes, fun _ => rfl⟩
  | handler f => exact .inl ⟨f, rfl, Layout.exec_handler p v f⟩
  | dropArgs =>
    obtain ⟨hin, ⟨_, _, _, _, _, _, _, _, _, hmode⟩, hvalue⟩ := h
    refine .inr ⟨_, Layout.exec_dropArgs hmode p v,
      ⟨.valid .storeEax, rfl, ⟨?_, ⟨_, _, _, _, _, _, rfl⟩, hvalue⟩, le_rfl⟩, fun _ => rfl⟩
    exact hin.of_eq rfl rfl rfl rfl
  | valid i =>
    obtain ⟨stack, x, hmode, heq, hleads, hretval⟩ := h.valid_step
    exact .inr ⟨x, (Layout.exec_valid hmode p v i).trans heq, hleads, hretval⟩
  | invalid i =>
    obtain ⟨stack, x, hmode, heq, hleads, hretval⟩ := h.invalid_step
    exact .inr ⟨x, (Layout.exec_invalid hmode p v i).trans heq, hleads, hretval⟩

/-! ## What others do to a call -/

/-- The value of `retval` matters between the store and the load only. -/
theorem At.of_retval {pt : Point κ} (h : At L r q c pt) (hpt : pt.usesRetval = false) (r' : Word) :
    At L r' q c pt := by
  cases pt with
  | stub w i => exact h
  | entry i => exact h
  | handler f => exact h
  | dropArgs => exact h
  | valid i =>
    cases i with
    | popal => cases hpt
    | loadEax => cases hpt
    | _ => exact h
  | invalid i =>
    cases i with
    | popal => cases hpt
    | popfl => cases hpt
    | loadEax => cases hpt
    | _ => exact h

/-- A tick where `ebx` is not needed. -/
theorem At.preempt {pt : Point κ} (h : At L r q c pt) (hpt : pt.usesEbx = false) (w ds : Word) :
    At L r q { c with regs := { c.regs with ebx := w }, ds := ds } pt := by
  have hcall : InCall q c → InCall q { c with regs := { c.regs with ebx := w }, ds := ds } :=
    fun hin => hin.of_eq rfl rfl rfl rfl
  have hstub : InStub q c → InStub q { c with regs := { c.regs with ebx := w }, ds := ds } :=
    fun hin => ⟨hcall hin.toInCall, hin.mode, hin.eflags, hin.restart⟩
  cases pt with
  | stub _ i =>
    cases i with
    | loadNumber => exact ⟨h.1, h.2.1, hstub h.2.2⟩
    | loadFirst => exact ⟨h.1, h.2.1, hstub h.2.2.1, h.2.2.2⟩
    | popEbx => exact ⟨h.1, hstub h.2.1, h.2.2⟩
    | _ => cases hpt
  | entry i =>
    cases i with
    | loadCx => exact ⟨h.1, hcall h.2.1, h.2.2⟩
    | loadDs => exact ⟨h.1, hcall h.2.1, h.2.2⟩
    | call => exact ⟨h.1, hcall h.2.1, h.2.2⟩
    | _ => cases hpt
  | handler f => exact ⟨hcall h.1, h.2⟩
  | dropArgs => exact ⟨hcall h.1, h.2⟩
  | valid i =>
    cases i with
    | storeError => exact h
    | _ => exact ⟨hcall h.1, h.2⟩
  | invalid i =>
    cases i with
    | storeEax => exact h
    | _ => exact ⟨hcall h.1, h.2⟩

theorem storeAll_append (xs ys : List (Word × Word)) (m : Word → Word) :
    storeAll (xs ++ ys) m = storeAll ys (storeAll xs m) := List.foldl_append ..

theorem storeAll_of_ne {stores : List (Word × Word)} {a : Word} :
    ∀ {m : Word → Word}, (∀ x ∈ stores, x.1 ≠ a) → storeAll stores m a = m a := by
  induction stores with
  | nil => exact fun _ => rfl
  | cons x stores ih =>
    intro m h
    refine (ih fun y hy => h y (List.mem_cons_of_mem x hy)).trans ?_
    exact update_of_ne (h x List.mem_cons_self).symm _ _

theorem storeAll_congr {stores : List (Word × Word)} {a : Word} :
    ∀ {m m' : Word → Word}, m a = m' a → storeAll stores m a = storeAll stores m' a := by
  induction stores with
  | nil => exact fun h => h
  | cons x stores ih =>
    intro m m' h
    apply ih
    dsimp only
    by_cases ha : a = x.1
    · rw [ha, update_self, update_self]
    · rw [update_of_ne ha, update_of_ne ha, h]

theorem Cpu.handled_eq {eip a b d : Word} {stack stack' : List Word} {res : Result}
    (hmode : c.mode = .kernel stack')
    (hstack : restartFrame stack' res.restart = eip :: a :: b :: d :: stack) :
    c.handled res = some { c with
      regs := { c.regs with eax := res.value, ecx := res.ecx, edx := res.edx, ebx := res.ebx }
      eflags := res.eflags
      eip := eip
      mode := .kernel (res.args.1 :: res.args.2.1 :: res.args.2.2 :: stack)
      mem := storeAll res.stores c.mem } := by
  unfold Cpu.handled
  rw [hmode]
  dsimp only
  rw [hstack]

/-- The words that `khalt` of a shell changes are those of the frame. -/
theorem restartFrame_frame (hq : q.restart = none) (res : Result)
    (eip a b d edi esi ebp esp ebx edx ecx eax eflags : Word) :
    restartFrame (eip :: a :: b :: d :: edi :: esi :: ebp :: esp :: ebx :: edx :: ecx :: eax ::
        eflags :: q.frame L) res.restart
      = eip :: a :: b :: d :: edi :: esi :: ebp :: esp :: ebx :: edx :: ecx :: eax :: eflags ::
        (q.handled res).frame L := by
  unfold Pending.frame Pending.handled
  rw [hq]
  cases res.restart <;> rfl

/-- The function returns to `system_call_linkage`. -/
theorem At.handled {f : SysCall} {res : Result} (h : At L r q c (.handler f))
    (hspared : q.Spared res.stores) (hrestart : res.restart = none ∨ f = .khalt) :
    ∃ c', c.handled res = some c' ∧ c'.eip = L.address .dropArgs ∧
      At L r (q.handled res) c' .dropArgs := by
  obtain ⟨hin, ⟨_, _, _, _, _, _, _, _, _, hmode⟩, hvalid, hf, hcalls, hnone⟩ := h
  have hmem : (storeAll (q.stores ++ res.stores) q.start.mem) = storeAll res.stores q.mem :=
    storeAll_append ..
  have hstack := restartFrame_frame (L := L) hnone res
  refine ⟨_, Cpu.handled_eq hmode (hstack ..), rfl,
    ⟨⟨hin.ebp, hin.esi, hin.edi, fun a ha => ?_, ?_, fun hsome => ?_⟩, ?_⟩,
    ⟨_, _, _, _, _, _, _, _, _, rfl⟩, .inl ⟨hvalid, rfl, f, hf, hcalls⟩⟩
  · show storeAll res.stores c.mem a = storeAll (q.stores ++ res.stores) q.start.mem a
    rw [hmem]
    exact storeAll_congr (hin.mem a ha)
  · show storeAll (q.stores ++ res.stores) q.start.mem q.esp = q.start.mem q.esp
    rw [hmem, storeAll_of_ne fun x hx => (hspared x hx).1]
    exact hin.returnAddress
  · obtain rfl := hrestart.resolve_left hsome
    exact hcalls
  · exact (storeAll_of_ne fun x hx => (hspared x hx).2).trans hin.ebx

end

/-! ## Every call -/

section

variable {ι κ : Type} [DecidableEq ι] {L : Layout ι κ} {s s' : State ι κ} {p : ι}

/-- Every call is where it should be. -/
def Inv (L : Layout ι κ) (s : State ι κ) : Prop :=
  ∀ p q, s.pending p = some q → Goes L s.retval q (s.cpu p) (s.steps p)

/-- An event of one process: the others keep their places, if `retval` is not theirs. -/
theorem Inv.set (h : Inv L s) (p : ι) (r : Word) (c : Cpu) (o : Option (Pending κ)) (n : ℕ)
    (hself : ∀ q, o = some q → Goes L r q c n)
    (hother : r = s.retval ∨ ∀ p', p' ≠ p → ¬s.At L p' Point.usesRetval) :
    Inv L ⟨r, update s.cpu p c, update s.pending p o, update s.steps p n⟩ := by
  intro p' q hq
  dsimp only at hq ⊢
  by_cases hp : p' = p
  · rw [hp, update_self] at hq
    rw [hp, update_self, update_self]
    exact hself q hq
  · rw [update_of_ne hp] at hq
    rw [update_of_ne hp, update_of_ne hp]
    obtain ⟨pt, heip, hat, hle⟩ := h p' q hq
    refine ⟨pt, heip, ?_, hle⟩
    rcases hother with rfl | hother
    · exact hat
    · apply hat.of_retval
      by_contra huses
      refine hother p' hp ⟨by rw [hq]; rfl, ?_⟩
      rw [heip, L.point_address]
      exact Bool.not_eq_false _ ▸ huses

theorem Inv.call {w : κ} {c : Cpu} (h : Inv L s) (hs : Event.exec L s (.call p w c) = some s') :
    Inv L s' := by
  unfold Event.exec at hs
  dsimp only at hs
  split at hs
  · rename_i esp ss hnone hmode
    obtain ⟨heip, heq⟩ := Option.ite_none_right_eq_some.mp hs
    cases heq
    refine h.set p s.retval c _ 0 (fun q hq => ?_) (.inl rfl)
    cases hq
    refine ⟨.stub w .pushEbx, heip, ⟨rfl, ⟨rfl, rfl, rfl⟩, ?_, hmode, rfl, rfl⟩, le_rfl⟩
    exact ⟨rfl, rfl, rfl, fun _ _ => rfl, rfl, fun h => absurd rfl h⟩
  · cases hs

/-- What the next instruction of a call does. -/
theorem Inv.next {q : Pending κ} (h : Inv L s) (hq : s.pending p = some q) (v : Word) :
    ∃ pt, L.point (s.cpu p).eip = some pt ∧ s.steps p ≤ pt.index ∧
      ((∃ f, pt = .handler f ∧ Event.exec L s (.step p v) = none) ∨
        ∃ x, Event.exec L s (.step p v)
            = some ⟨x.1, update s.cpu p x.2, update s.pending p (q.next (s.cpu p) pt),
              update s.steps p (s.steps p + 1)⟩ ∧
          Leads L q (s.cpu p) pt x ∧ (pt.storesRetval = false → x.1 = s.retval)) := by
  obtain ⟨pt, heip, hat, hle⟩ := h p q hq
  have hpoint : L.point (s.cpu p).eip = some pt := by rw [heip, L.point_address]
  refine ⟨pt, hpoint, hle, ?_⟩
  unfold Event.exec
  dsimp only
  rw [hq, hpoint, Option.bind_some, Option.bind_some]
  rcases hat.step p v with ⟨f, hf, hnone⟩ | ⟨x, hx, hleads, hretval⟩
  · exact .inl ⟨f, hf, by rw [hnone]; rfl⟩
  · exact .inr ⟨x, by rw [hx]; rfl, hleads, hretval⟩

theorem Inv.step {v : Word} (h : Inv L s) (hok : Undisturbed L s (.step p v))
    (hs : Event.exec L s (.step p v) = some s') : Inv L s' := by
  cases hq : s.pending p with
  | none =>
    unfold Event.exec at hs
    dsimp only at hs
    rw [hq] at hs
    cases hs
  | some q =>
    obtain ⟨pt, hpoint, hle, ⟨-, -, hnone⟩ | ⟨x, hx, hleads, hretval⟩⟩ := h.next hq v
    · rw [hnone] at hs
      cases hs
    · obtain rfl := Option.some.inj (hx.symm.trans hs)
      refine h.set p x.1 x.2 _ _ (fun q' hq' => ?_) ?_
      · rw [Leads, hq'] at hleads
        obtain ⟨pt', heip, hat, hindex⟩ := hleads
        exact ⟨pt', heip, hat, by omega⟩
      · cases hstores : pt.storesRetval with
        | false => exact .inl (hretval hstores)
        | true =>
          refine .inr (hok ⟨by rw [hq]; rfl, ?_⟩)
          rw [hpoint]
          exact hstores

theorem Inv.handled {res : Result} (h : Inv L s) (hok : Undisturbed L s (.handled p res))
    (hs : Event.exec L s (.handled p res) = some s') : Inv L s' := by
  unfold Event.exec at hs
  dsimp only at hs
  obtain ⟨q, hq, hs⟩ := Option.bind_eq_some_iff.mp hs
  obtain ⟨pt, heip, hat, hle⟩ := h p q hq
  rw [heip, L.point_address] at hs
  cases pt with
  | handler f =>
    obtain ⟨hrestart, hs⟩ := Option.ite_none_right_eq_some.mp hs
    obtain ⟨c', hc', heip', hat'⟩ := hat.handled (hok q hq) hrestart
    rw [hc'] at hs
    cases hs
    have hinv := h.set p s.retval c' (some (q.handled res)) (s.steps p)
      (fun q' hq' => Option.some.inj hq' ▸ ⟨.dropArgs, heip', hat', hle⟩) (.inl rfl)
    rwa [update_eq_self] at hinv
  | _ => cases hs

theorem Inv.preempt {w ds : Word} (h : Inv L s) (hok : Undisturbed L s (.preempt p w ds))
    (hs : Event.exec L s (.preempt p w ds) = some s') : Inv L s' := by
  unfold Event.exec at hs
  dsimp only at hs
  obtain ⟨q, hq, rfl⟩ := Option.map_eq_some_iff.mp hs
  obtain ⟨pt, heip, hat, hle⟩ := h p q hq
  have huses : pt.usesEbx = false := by
    by_contra huses
    refine hok ⟨by rw [hq]; rfl, ?_⟩
    rw [heip, L.point_address]
    exact Bool.not_eq_false _ ▸ huses
  have hinv := h.set p s.retval { s.cpu p with regs := { (s.cpu p).regs with ebx := w }, ds := ds }
    (some q) (s.steps p) (fun q' hq' => Option.some.inj hq' ▸ ⟨pt, heip, hat.preempt huses w ds, hle⟩)
    (.inl rfl)
  rwa [update_eq_self, ← hq, update_eq_self] at hinv

theorem inv_of_reach (h : Run.Reach (system L) (Undisturbed L) s) : Inv L s := by
  refine h.invariant (fun s hs p q hq => ?_) fun s e s' hinv hok hs => ?_
  · rw [hs p] at hq
    cases hq
  · cases e with
    | call p w c => exact hinv.call hs
    | step p v => exact hinv.step hok hs
    | handled p res => exact hinv.handled hok hs
    | preempt p w ds => exact hinv.preempt hok hs

/-- A call of a wrapper in any interleaving in which no tick comes while `ebx` is needed, no result is
stored between the store and the load of another process, and no function stores to the return
address of the wrapper and the saved `ebx`. Its next instruction can always be executed, except inside
of the function, and there are at most 24 of them. When it ends, the function with its number has
been called once, with the arguments of the wrapper, and its value is in `eax`, or -1 if there is no
such function. The program goes on behind its call with the registers, the flags and the stack of a C
call, and with its memory as the function left it; only `khalt` of a shell starts it again. -/
theorem system_call_returns {q : Pending κ} (h : Run.Reach (system L) (Undisturbed L) s)
    (hq : s.pending p = some q) :
    s.steps p < 24 ∧
    ((∃ f, L.point (s.cpu p).eip = some (.handler f)) ∨
      ∀ v, ((system L).step s (.step p v)).isSome) ∧
    ∀ v s', (system L).step s (.step p v) = some s' → s'.pending p = none →
      Ended L q (s'.cpu p) := by
  have hinv := inv_of_reach h
  refine ⟨?_, ?_, fun v s' hs hnone => ?_⟩
  · obtain ⟨pt, -, -, hle⟩ := hinv p q hq
    exact hle.trans_lt pt.index_lt
  · obtain ⟨pt, heip, -, -⟩ := hinv p q hq
    by_cases hhandler : ∃ f, pt = .handler f
    · obtain ⟨f, rfl⟩ := hhandler
      exact .inl ⟨f, by rw [heip, L.point_address]⟩
    · refine .inr fun v => ?_
      obtain ⟨pt', hpoint, -, ⟨f, rfl, -⟩ | ⟨x, hx, -⟩⟩ := hinv.next hq v
      · rw [heip, L.point_address] at hpoint
        exact absurd ⟨f, Option.some.inj hpoint⟩ hhandler
      · exact Option.isSome_iff_exists.mpr ⟨_, hx⟩
  · obtain ⟨pt, -, -, ⟨-, -, hfail⟩ | ⟨x, hx, hleads, -⟩⟩ := hinv.next hq v
    · exact absurd (hs.symm.trans hfail) (Option.some_ne_none _)
    · obtain rfl := Option.some.inj (hx.symm.trans hs)
      dsimp only at hnone ⊢
      rw [update_self] at hnone ⊢
      rw [Leads, hnone] at hleads
      exact hleads

end

/-! ## A sample run -/

/-- `ece391_read`, `ece391_halt`, and a wrapper with a number that is too large. -/
inductive SampleWrapper where
  | read
  | halt
  | bad
deriving DecidableEq

/-- The points of the wrappers, in the order of their addresses. -/
def sampleCode : List (Point SampleWrapper) :=
  [SampleWrapper.read, .halt, .bad].flatMap (fun w => ([.stub w .pushEbx, .stub w .loadNumber,
    .stub w .loadFirst, .stub w .loadSecond, .stub w .loadThird, .stub w .int80, .stub w .popEbx,
    .stub w .ret] : List (Point SampleWrapper))) ++
  ([.entry .pushfl, .entry .pushal, .entry .testMin, .entry .testMax, .entry .pushEdx,
    .entry .pushEcx, .entry .pushEbx, .entry .loadCx, .entry .loadDs, .entry .call,
    .dropArgs] : List (Point SampleWrapper)) ++
  [Instr.storeEax, .storeError, .popal, .loadEax, .popfl, .iret].flatMap
    (fun i : Instr => ([.valid i, .invalid i] : List (Point SampleWrapper))) ++
  ([.handler .khalt, .handler .kexecute, .handler .kread, .handler .kwrite, .handler .kopen,
    .handler .kclose, .handler .kgetArgs, .handler .kvidmap, .handler .ksetHandler,
    .handler .ksigreturn] : List (Point SampleWrapper))

def sampleLayout : Layout Pid SampleWrapper where
  number
    | .read => 3
    | .halt => 1
    | .bad => 11
  kernelStack _ := 0x7fffc0
  address pt := BitVec.ofNat 32 (sampleCode.idxOf pt)
  point w := sampleCode[w.toNat]?
  point_address pt := by
    cases pt with
    | stub w i => cases w <;> cases i <;> rfl
    | entry i => cases i <;> rfl
    | handler f => cases f <;> rfl
    | dropArgs => rfl
    | valid i => cases i <;> rfl
    | invalid i => cases i <;> rfl

/-- At the entry of a wrapper, with the return address 0x1000 and the arguments 5, 0x9000 and 2. -/
def sampleCpu (w : SampleWrapper) : Cpu where
  regs := ⟨1, 2, 3, 4, 5, 6, 7⟩
  eflags := 0x202
  eip := sampleLayout.address (.stub w .pushEbx)
  mode := .user 0x8000 userDs
  ds := userDs
  mem a := if a = 0x8000 then 0x1000 else if a = 0x8004 then 5 else if a = 0x8008 then 0x9000
    else if a = 0x800c then 2 else 0

def sampleIdle : State Pid SampleWrapper := ⟨0, fun _ => sampleCpu .read, fun _ => none, fun _ => 0⟩

/-- Process 3 reads two bytes. A tick comes where `ebx` is not needed; while process 3 is inside of
the function, process 4 has its call refused, and the shell 0 halts. Process 3 is then at its `ret`
and the shell at its `iret`. -/
def sampleEvents : List (Event Pid SampleWrapper) :=
  ([.call 3 .read (sampleCpu .read), .step 3 0,
    .preempt 3 0x7fffac userDs] : List (Event Pid SampleWrapper)) ++
    List.replicate 15 (.step 3 0 : Event Pid SampleWrapper) ++
    ([.call 4 .bad (sampleCpu .bad)] : List (Event Pid SampleWrapper)) ++
    List.replicate 14 (.step 4 0 : Event Pid SampleWrapper) ++
    ([.call 0 .halt (sampleCpu .halt)] : List (Event Pid SampleWrapper)) ++
    List.replicate 16 (.step 0 0 : Event Pid SampleWrapper) ++
    ([.handled 0 ⟨0, 0, 0, 0, 0, (0, 0, 0), [], some (0x8048094, 0x83ffffc)⟩] :
      List (Event Pid SampleWrapper)) ++
    List.replicate 5 (.step 0 0 : Event Pid SampleWrapper) ++
    ([.handled 3 ⟨2, 0, 0, 0, 0, (0, 0, 0), [(0x9000, 0x6261)], none⟩] :
      List (Event Pid SampleWrapper)) ++
    List.replicate 7 (.step 3 0 : Event Pid SampleWrapper)

/-- What is evaluated of the run: the calls that end with the next instruction of process 3 and of the
shell. -/
def sampleEnd (s : State Pid SampleWrapper) : Prop :=
  ((s.pending 3).any fun q => q.restart = none ∧ q.calls = [(.kread, 5, 0x9000, 2)]) ∧
  ((s.pending 0).any fun q => q.restart = some (0x8048094, 0x83ffffc)) ∧
  (((system sampleLayout).step s (.step 3 0)).any fun s' => (s'.pending 3).isNone ∧
    (s'.cpu 3).regs.eax = 2 ∧ (s'.cpu 3).mem 0x9000 = 0x6261 ∧ (s'.cpu 3).ds = 0) ∧
  (((system sampleLayout).step s (.step 0 0)).any fun s' => (s'.pending 0).isNone)

instance : DecidablePred sampleEnd := fun _ => inferInstanceAs (Decidable (_ ∧ _ ∧ _ ∧ _))

theorem system_call_returns_read :
    ∃ s q q' s' s'', (system sampleLayout).run sampleIdle sampleEvents = some s ∧
      s.pending 3 = some q ∧ (system sampleLayout).step s (.step 3 0) = some s' ∧
      Returned sampleLayout q (s'.cpu 3) ∧ q.calls = [(.kread, 5, 0x9000, 2)] ∧
      (s'.cpu 3).regs.eax = 2 ∧ (s'.cpu 3).mem 0x9000 = 0x6261 ∧ (s'.cpu 3).ds = 0 ∧
      s.pending 0 = some q' ∧ (system sampleLayout).step s (.step 0 0) = some s'' ∧
      Restarted sampleLayout q' (s''.cpu 0) 0x8048094 0x83ffffc := by
  have hok : (system sampleLayout).Allowed (Undisturbed sampleLayout) sampleIdle sampleEvents := by
    decide +kernel
  have heval : ((system sampleLayout).run sampleIdle sampleEvents).any fun s => sampleEnd s := by
    decide +kernel
  obtain ⟨s, hs, heval⟩ := (Option.any_eq_true _ _).mp heval
  obtain ⟨hread, hhalt, hend, hend'⟩ := of_decide_eq_true heval
  obtain ⟨q, hq, hread⟩ := (Option.any_eq_true _ _).mp hread
  obtain ⟨hrestart, hcalls⟩ := of_decide_eq_true hread
  obtain ⟨q', hq', hhalt⟩ := (Option.any_eq_true _ _).mp hhalt
  obtain ⟨s', hs', hend⟩ := (Option.any_eq_true _ _).mp hend
  obtain ⟨hnone, heax, hmem, hds⟩ := of_decide_eq_true hend
  obtain ⟨s'', hs'', hnone'⟩ := (Option.any_eq_true _ _).mp hend'
  have hinit : Run.Reach (system sampleLayout) (Undisturbed sampleLayout) sampleIdle :=
    .init fun _ => rfl
  have hreach := hinit.run hok hs
  have hreturned := (system_call_returns hreach hq).2.2 0 s' hs' (Option.isNone_iff_eq_none.mp hnone)
  rw [Ended, hrestart] at hreturned
  have hrestarted := (system_call_returns hreach hq').2.2 0 s'' hs''
    (Option.isNone_iff_eq_none.mp hnone')
  rw [Ended, of_decide_eq_true hhalt] at hrestarted
  exact ⟨s, q, q', s', s'', hs, hq, hs', hreturned, hcalls, heax, hmem, hds, hq', hs'', hrestarted⟩

end Call
end Linkage
end GalapagOS
