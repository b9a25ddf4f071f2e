import GalapagOS.Lib.WordStack
import GalapagOS.Linkage.Timer

/-!
# The first context of a program (`schedule.c`, `assembly_linkage.S`)

`schedule` writes the kernel stack of a new task by hand, as if the task had been interrupted: the
frame of the processor, the flags and registers of `pit_int_linkage`, the argument and the return
address of `pit_handler`, and the saved `ebp`. The timer handler and the stub then take it apart.
`Timer` has both sides with the stack as a list of words. Here they are on memory, with the pointer
arithmetic of the code and every word noted that is read or written, and the machine on memory does
what the one on lists does.

A memory gives the word at each address. All accesses are to whole words, at a distance from
`kernel_stack` that is a multiple of four.
-/

namespace GalapagOS
namespace Linkage
namespace Frames

open WordStack
open Timer hiding Word

abbrev Memory : Type := Word → Word

/-! ## `schedule` -/

/-- The fields of `pcb_t` that are used here. -/
structure Task where
  kernelStack : Word
  userStack : Word
  instrPtr : Word
  ebp : Word
  esp : Word

/-- `NUM_IRET_STACK` -/
def numIretStack : Word := 5

/-- `NUM_REG_STACK` -/
def numRegStack : Word := 8

/-- `MOVE_NEW_STACK` -/
def moveNewStack : Word := 10

/-- The offset of `iesp` in `gen_regs_t`. -/
def iespOffset : Word := 12

/-- `memcpy` of whole words. -/
def storeWords (mem : Memory) (a : Word) : List Word → Memory
  | [] => mem
  | w :: ws => storeWords (Function.update mem a w) (a + 4) ws

/-- `schedule` from `setup task's stack` on, with the address of the label `pit_ret`. -/
def schedule (q : Schedule.RunQueue) (pitRetVal : Word) (tasks : Pid → Task) (mem : Memory)
    (pid : Pid) : (Pid → Task) × Memory :=
  if q.firstSchedule ∧ q.currNode = .sentinel then (tasks, mem)
  else
    let task := tasks pid
    let newStack := task.kernelStack - 4 * numIretStack
    let mem := storeWords mem newStack
      [task.instrPtr, userCs, stackFlags, task.userStack, userDs]
    let newStack := newStack - 4
    let mem := Function.update mem newStack stackFlags
    let allRegisters := newStack - 4 * numRegStack
    let mem := Function.update mem (allRegisters + iespOffset) newStack
    -- over the registers and the argument, down to the return address
    let newStack := newStack - 4 * moveNewStack
    let mem := Function.update mem newStack pitRetVal
    let newStack := newStack - 4
    let mem := Function.update mem newStack task.kernelStack
    (Function.update tasks pid { task with ebp := newStack, esp := newStack }, mem)

/-! ## The processor -/

/-- The processor in kernel mode. -/
structure Cpu where
  regs : Regs
  esp : Word
  eflags : Word
  eip : Word
  mem : Memory
  /-- the words that were read or written on the stack, the latest first -/
  touched : List Word

namespace Cpu

def push (c : Cpu) (w : Word) : Cpu :=
  { c with
    esp := c.esp - 4
    mem := Function.update c.mem (c.esp - 4) w
    touched := (c.esp - 4) :: c.touched }

/-- What a `pop` reads. -/
def top (c : Cpu) : Word := c.mem c.esp

/-- The processor after a `pop`. -/
def pop (c : Cpu) : Cpu := { c with esp := c.esp + 4, touched := c.esp :: c.touched }

theorem eflags_pop (c : Cpu) : c.pop.eflags = c.eflags := rfl

def leave (c : Cpu) : Cpu :=
  let c := { c with esp := c.regs.ebp }
  { c.pop with regs := { c.regs with ebp := c.top } }

def ret (c : Cpu) : Cpu := { c.pop with eip := c.top }

/-- The end of `pit_handler`: the stack pointers of the task, and the epilogue. -/
def resume (c : Cpu) (task : Task) : Cpu :=
  let c := { c with regs := { c.regs with ebp := task.ebp }, esp := task.esp }
  c.leave.ret

def popal (c : Cpu) : Cpu :=
  let edi := c.top
  let c := c.pop
  let esi := c.top
  let c := c.pop
  let ebp := c.top
  -- the word of `esp` is skipped
  let c := c.pop.pop
  let ebx := c.top
  let c := c.pop
  let edx := c.top
  let c := c.pop
  let ecx := c.top
  let c := c.pop
  { c.pop with regs := ⟨c.top, ecx, edx, ebx, ebp, esi, edi⟩ }

end Cpu

/-- What a compiled function leaves behind: the registers that it need not restore, and the words
that it has pushed. -/
structure Callee where
  scratch : Scratch
  frame : List Word
  /-- a kernel stack has `2 ^ 11` words -/
  fits : frame.length < 2 ^ 11

/-- `call`, and a function that returns with the stack balanced. -/
def Cpu.call (c : Cpu) (f : Callee) (returnAddress : Word) : Cpu :=
  let c₁ := c.push returnAddress
  let c₂ := f.frame.foldl Cpu.push c₁
  Cpu.ret { c₂ with
    esp := c₁.esp
    regs := { c.regs with
      eax := f.scratch.regs.eax, ecx := f.scratch.regs.ecx, edx := f.scratch.regs.edx }
    eflags := f.scratch.eflags }

/-- What `iret` loads when it leaves the kernel, and where it leaves the kernel stack. -/
structure Entry where
  eip : Word
  cs : Word
  eflags : Word
  esp : Word
  ss : Word
  kernelEsp : Word
  touched : List Word

/-- `iret` to user mode. -/
def Cpu.iret (c : Cpu) : Option Entry :=
  let c₁ := c.pop
  let c₂ := c₁.pop
  let c₃ := c₂.pop
  let c₄ := c₃.pop
  if c₁.top = userCs then
    some ⟨c.top, c₁.top, c₂.top, c₃.top, c₄.top, c₄.pop.esp, c₄.pop.touched⟩
  else none

section

variable {ι : Type} (L : Layout ι)

/-- The instructions from `pit_ret` up to `iret`. -/
def Cpu.exec (f : Callee) (c : Cpu) : Tail → Option Cpu
  | .dropArg => some { c with esp := c.esp + 4, eip := L.address .pushIrq }
  | .pushIrq => some { c.push 0 with eip := L.address .sendEoi }
  | .sendEoi => some (c.call f (L.address .dropIrq))
  | .dropIrq => some { c with esp := c.esp + 4, eip := L.address .popal }
  | .popal => some { c.popal with eip := L.address .popfl }
  | .popfl => some { c.pop with eflags := c.top, eip := L.address .iret }
  -- the last one leaves the kernel, see `Cpu.iret`
  | .iret => none

/-- Instructions one after the other, each from its own address. -/
def Cpu.execAll (f : Callee) : List Tail → Cpu → Option Cpu
  | [], c => some c
  | t :: ts, c => if c.eip = L.address t then (c.exec L f t).bind (Cpu.execAll f ts) else none

end

/-! ## The stack as a list -/

/-- These words are on the kernel stack, and only its first `n` slots have been touched. -/
structure Stands (ks : Word) (n : ℕ) (c : Cpu) (stack : List Word) : Prop where
  esp : c.esp = slot ks stack.length
  holds : Holds c.mem ks stack
  touched : ∀ a ∈ c.touched, ∃ i, 1 ≤ i ∧ i ≤ n ∧ a = slot ks i

/-- The context that `Timer` has for a processor with this stack. -/
def Cpu.context (c : Cpu) (stack : List Word) : Context :=
  ⟨c.regs, c.eflags, c.eip, .kernel stack⟩

section

variable {ks w : Word} {n : ℕ} {c : Cpu} {stack : List Word}

theorem slot_succ (ks : Word) (i : ℕ) : slot ks i - 4 = slot ks (i + 1) := slot_sub ks i 1

theorem slot_pred (ks : Word) (i : ℕ) : slot ks (i + 1) + 4 = slot ks i := slot_add ks i 1

/-- Registers do not matter. -/
theorem Stands.withRegs (h : Stands ks n c stack) (r : Regs) (eflags eip : Word) :
    Stands ks n { c with regs := r, eflags := eflags, eip := eip } stack :=
  ⟨h.esp, h.holds, h.touched⟩

theorem Stands.top (h : Stands ks n c (w :: stack)) : c.top = w := by
  unfold Cpu.top
  rw [h.esp]
  exact h.holds.1

theorem Stands.discard (h : Stands ks n c (w :: stack)) :
    Stands ks n { c with esp := c.esp + 4 } stack := by
  refine ⟨?_, h.holds.2, h.touched⟩
  show c.esp + 4 = slot ks stack.length
  rw [h.esp]
  exact slot_pred ks stack.length

/-- The word that is read or written next is in the window. -/
theorem Stands.touch (h : Stands ks n c stack) {i : ℕ} (h₁ : 1 ≤ i) (hi : i ≤ n) :
    ∀ a ∈ slot ks i :: c.touched, ∃ i, 1 ≤ i ∧ i ≤ n ∧ a = slot ks i := by
  intro a ha
  rcases List.mem_cons.mp ha with rfl | ha
  · exact ⟨i, h₁, hi, rfl⟩
  · exact h.touched a ha

theorem Stands.pop (h : Stands ks n c (w :: stack)) (hlen : stack.length + 1 ≤ n) :
    Stands ks n c.pop stack := by
  refine ⟨h.discard.esp, h.holds.2, ?_⟩
  show ∀ a ∈ c.esp :: c.touched, _
  rw [h.esp]
  exact h.touch (Nat.succ_le_succ (Nat.zero_le _)) hlen

theorem Stands.push (h : Stands ks n c stack) (hlen : stack.length + 1 ≤ n) (hn : n < 2 ^ 30)
    (w : Word) : Stands ks n (c.push w) (w :: stack) := by
  have hesp : c.esp - 4 = slot ks (stack.length + 1) := by
    rw [h.esp]
    exact slot_succ ks stack.length
  refine ⟨hesp, ?_, ?_⟩
  · show Holds (Function.update c.mem (c.esp - 4) w) ks (w :: stack)
    rw [hesp]
    exact h.holds.push (by omega) w
  · show ∀ a ∈ (c.esp - 4) :: c.touched, _
    rw [hesp]
    exact h.touch (Nat.succ_le_succ (Nat.zero_le _)) hlen

theorem Stands.pushAll (h : Stands ks n c stack) (ws : List Word)
    (hlen : stack.length + ws.length ≤ n) (hn : n < 2 ^ 30) :
    Stands ks n (ws.foldl Cpu.push c) (ws.reverse ++ stack) := by
  induction ws generalizing c stack with
  | nil => exact h
  | cons w ws ih =>
    rw [List.length_cons] at hlen
    have hpush := ih (h.push (by omega) hn w) (by rw [List.length_cons]; omega)
    simpa using hpush

theorem Stands.ret (h : Stands ks n c (w :: stack)) (hlen : stack.length + 1 ≤ n) :
    Stands ks n c.ret stack ∧ c.ret.context stack = { c.context stack with eip := w } := by
  refine ⟨(h.pop hlen).withRegs _ _ _, ?_⟩
  unfold Cpu.context Cpu.ret
  rw [h.top]
  rfl

theorem Stands.call (h : Stands ks n c stack) (f : Callee) (returnAddress : Word)
    (hlen : stack.length + 1 + f.frame.length ≤ n) (hn : n < 2 ^ 30) :
    Stands ks n (c.call f returnAddress) stack ∧
      (c.call f returnAddress).context stack
        = { c.context stack with
            regs := { c.regs with
              eax := f.scratch.regs.eax, ecx := f.scratch.regs.ecx, edx := f.scratch.regs.edx }
            eflags := f.scratch.eflags
            eip := returnAddress } := by
  have hpush := h.push (by omega) hn returnAddress
  have hall := hpush.pushAll f.frame (by rw [List.length_cons]; omega) hn
  -- the function is back at its return address
  have hback : Stands ks n { f.frame.foldl Cpu.push (c.push returnAddress) with
      esp := (c.push returnAddress).esp } (returnAddress :: stack) :=
    ⟨hpush.esp, hall.holds.of_append, hall.touched⟩
  have hregs := hback.withRegs { c.regs with
    eax := f.scratch.regs.eax, ecx := f.scratch.regs.ecx, edx := f.scratch.regs.edx }
    f.scratch.eflags (f.frame.foldl Cpu.push (c.push returnAddress)).eip
  exact hregs.ret (by omega)

theorem Stands.popal {edi esi ebp esp ebx edx ecx eax : Word}
    (h : Stands ks n c (edi :: esi :: ebp :: esp :: ebx :: edx :: ecx :: eax :: stack))
    (hlen : stack.length + 8 ≤ n) :
    Stands ks n c.popal stack ∧ c.popal.regs = ⟨eax, ecx, edx, ebx, ebp, esi, edi⟩ ∧
      c.popal.eflags = c.eflags := by
  have h₁ := h.pop (by simp only [List.length_cons]; omega)
  have h₂ := h₁.pop (by simp only [List.length_cons]; omega)
  have h₃ := h₂.pop (by simp only [List.length_cons]; omega)
  have h₄ := h₃.pop (by simp only [List.length_cons]; omega)
  have h₅ := h₄.pop (by simp only [List.length_cons]; omega)
  have h₆ := h₅.pop (by simp only [List.length_cons]; omega)
  have h₇ := h₆.pop (by simp only [List.length_cons]; omega)
  have h₈ := h₇.pop (by omega)
  have hpopal : c.popal = { c.pop.pop.pop.pop.pop.pop.pop.pop with
      regs := ⟨eax, ecx, edx, ebx, ebp, esi, edi⟩ } := by
    simp only [Cpu.popal, h.top, h₁.top, h₂.top, h₄.top, h₅.top, h₆.top, h₇.top]
  rw [hpopal]
  exact ⟨h₈.withRegs _ _ _, rfl, by simp only [Cpu.eflags_pop]⟩

variable {ι : Type} {L : Layout ι} {f : Callee} {t : Tail} {x : Context}

/-- Up to `iret` the instructions do on memory what they do on the list. -/
theorem Stands.exec (h : Stands ks n c stack) (ht : t ≠ .iret)
    (hlen : stack.length + 1 + f.frame.length ≤ n) (hn : n < 2 ^ 30)
    (hx : L.execOn f.scratch (c.context stack) t stack = some x) :
    ∃ c' stack', c.exec L f t = some c' ∧ x = c'.context stack' ∧ Stands ks n c' stack' := by
  revert hx
  fun_cases Layout.execOn L f.scratch (c.context stack) t stack with
  | case1 =>
    rintro ⟨⟩
    exact ⟨_, _, rfl, rfl, h.discard.withRegs _ _ _⟩
  | case2 =>
    rintro ⟨⟩
    exact ⟨_, _, rfl, rfl, (h.push (by omega) hn 0).withRegs _ _ _⟩
  | case3 =>
    rintro ⟨⟩
    obtain ⟨hstands, hcontext⟩ := h.call f (L.address .dropIrq) hlen hn
    exact ⟨_, _, rfl, hcontext.symm, hstands⟩
  | case4 =>
    rintro ⟨⟩
    exact ⟨_, _, rfl, rfl, h.discard.withRegs _ _ _⟩
  | case5 =>
    rintro ⟨⟩
    simp only [List.length_cons] at hlen
    obtain ⟨hstands, hregs, hflags⟩ := h.popal (by omega)
    refine ⟨_, _, rfl, ?_, hstands.withRegs _ _ _⟩
    simp only [Cpu.context, hregs, hflags]
  | case6 =>
    rintro ⟨⟩
    simp only [List.length_cons] at hlen
    refine ⟨_, _, rfl, ?_, (h.pop (by omega)).withRegs _ _ _⟩
    simp only [Cpu.context, h.top]
    rfl
  | case7 => exact absurd rfl ht
  | case8 =>
    intro hx
    cases hx

/-- One instruction, from its address to the next one. -/
theorem Stands.step (h : Stands ks n c stack) (ht : t ≠ .iret) (heip : c.eip = L.address t)
    (hlen : stack.length + 1 + f.frame.length ≤ n) (hn : n < 2 ^ 30)
    {r : Regs} {flags eip : Word} {stack' : List Word}
    (hx : L.execOn f.scratch (c.context stack) t stack = some ⟨r, flags, eip, .kernel stack'⟩) :
    ∃ c', (∀ ts, c.execAll L f (t :: ts) = c'.execAll L f ts) ∧ c'.eip = eip ∧
      Stands ks n c' stack' := by
  obtain ⟨c', s, hc', hcontext, hstands⟩ := h.exec ht hlen hn hx
  rw [Cpu.context, Context.mk.injEq, Mode.kernel.injEq] at hcontext
  obtain ⟨-, -, he, rfl⟩ := hcontext
  refine ⟨c', fun ts => ?_, he.symm, hstands⟩
  rw [Cpu.execAll, if_pos heip, hc', Option.bind_some]

/-- The instructions up to `iret`, on a stack that `pit_int_linkage` has built. -/
theorem Stands.execAll {arg esp flags : Word} {r : Regs} {frame : List Word}
    (h : Stands ks n c (arg :: (pushal r esp ++ flags :: frame)))
    (heip : c.eip = L.address .dropArg)
    (hlen : frame.length + 12 + f.frame.length ≤ n) (hn : n < 2 ^ 30) :
    ∃ c', c.execAll L f [.dropArg, .pushIrq, .sendEoi, .dropIrq, .popal, .popfl] = some c' ∧
      c'.eip = L.address .iret ∧ Stands ks n c' frame := by
  have hregs : (pushal r esp ++ flags :: frame).length = frame.length + 9 := by simp [pushal]
  obtain ⟨c₁, hrun₁, he₁, h₁⟩ := h.step (f := f) (t := .dropArg) nofun heip
    (by rw [List.length_cons]; omega) hn rfl
  obtain ⟨c₂, hrun₂, he₂, h₂⟩ := h₁.step (f := f) (t := .pushIrq) nofun he₁
    (by omega) hn rfl
  obtain ⟨c₃, hrun₃, he₃, h₃⟩ := h₂.step (f := f) (t := .sendEoi) nofun he₂
    (by rw [List.length_cons]; omega) hn rfl
  obtain ⟨c₄, hrun₄, he₄, h₄⟩ := h₃.step (f := f) (t := .dropIrq) nofun he₃
    (by rw [List.length_cons]; omega) hn rfl
  obtain ⟨c₅, hrun₅, he₅, h₅⟩ := h₄.step (f := f) (t := .popal) nofun he₄
    (by omega) hn rfl
  obtain ⟨c₆, hrun₆, he₆, h₆⟩ := h₅.step (f := f) (t := .popfl) nofun he₅
    (show frame.length + 1 + 1 + f.frame.length ≤ n by omega) hn rfl
  refine ⟨c₆, ?_, he₆, h₆⟩
  rw [hrun₁, hrun₂, hrun₃, hrun₄, hrun₅, hrun₆]
  rfl

theorem Stands.leave {ebp : Word} (h : Stands ks n { c with esp := c.regs.ebp } (ebp :: stack))
    (hlen : stack.length + 1 ≤ n) : Stands ks n c.leave stack :=
  (h.pop hlen).withRegs _ _ _

/-- The loads of `pit_handler`, `leave` and `ret`. -/
theorem Stands.resume {task : Task} {ebp eip : Word}
    (h : Stands ks n { c with esp := task.ebp } (ebp :: eip :: stack))
    (hlen : stack.length + 2 ≤ n) :
    Stands ks n (c.resume task) stack ∧ (c.resume task).eip = eip := by
  let c₁ : Cpu := { c with regs := { c.regs with ebp := task.ebp }, esp := task.esp }
  have hload : Stands ks n { c₁ with esp := c₁.regs.ebp } (ebp :: eip :: stack) :=
    h.withRegs { c.regs with ebp := task.ebp } c.eflags c.eip
  have hleave : Stands ks n c₁.leave (eip :: stack) := hload.leave hlen
  exact ⟨(hleave.ret (by omega)).1, hleave.top⟩

/-- `iret` to user mode empties the stack. -/
theorem Stands.iret {eip eflags esp ss : Word} (h : Stands ks n c [eip, userCs, eflags, esp, ss])
    (hn : 5 ≤ n) :
    ∃ e, c.iret = some e ∧ e.eip = eip ∧ e.cs = userCs ∧ e.eflags = eflags ∧ e.esp = esp ∧
      e.ss = ss ∧ e.kernelEsp = ks ∧ ∀ a ∈ e.touched, ∃ i, 1 ≤ i ∧ i ≤ n ∧ a = slot ks i := by
  have h₁ := h.pop hn
  have h₂ := h₁.pop (Nat.le_of_succ_le hn)
  have h₃ := h₂.pop (show 3 ≤ n by omega)
  have h₄ := h₃.pop (show 2 ≤ n by omega)
  have h₅ := h₄.pop (show 1 ≤ n by omega)
  refine ⟨⟨eip, userCs, eflags, esp, ss, _, _⟩, ?_, rfl, rfl, rfl, rfl, rfl,
    h₅.esp.trans (slot_zero ks), h₅.touched⟩
  simp only [Cpu.iret, h.top, h₁.top, h₂.top, h₃.top, h₄.top, if_true]

end

/-! ## The stack that `schedule` writes -/

section

variable {q : Schedule.RunQueue} {tasks : Pid → Task} {mem : Memory} {pid : Pid}

/-- The memory after `schedule`, with all addresses from `kernel_stack`. -/
theorem schedule_eq (hq : ¬(q.firstSchedule = true ∧ q.currNode = .sentinel)) (pitRetVal : Word) :
    schedule q pitRetVal tasks mem pid =
      let task := tasks pid
      let ks := task.kernelStack
      (Function.update tasks pid { task with ebp := slot ks 17, esp := slot ks 17 },
        Function.update (Function.update (Function.update (Function.update (Function.update
          (Function.update (Function.update (Function.update (Function.update mem
            (slot ks 5) task.instrPtr)
            (slot ks 4) userCs)
            (slot ks 3) stackFlags)
            (slot ks 2) task.userStack)
            (slot ks 1) userDs)
            (slot ks 6) stackFlags)
            (slot ks 11) (slot ks 6))
            (slot ks 16) pitRetVal)
            (slot ks 17) ks) := by
  generalize htask : tasks pid = task
  have h₅ : task.kernelStack - 4 * numIretStack = slot task.kernelStack 5 := rfl
  have h₁₁ : slot task.kernelStack 6 - 4 * numRegStack + iespOffset = slot task.kernelStack 11 := by
    unfold slot numRegStack iespOffset
    bv_omega
  have h₁₆ : slot task.kernelStack 6 - 4 * moveNewStack = slot task.kernelStack 16 :=
    slot_sub task.kernelStack 6 10
  simp only [schedule, if_neg hq, htask, storeWords, h₅, h₁₁, h₁₆, slot_pred task.kernelStack 4,
    slot_pred task.kernelStack 3, slot_pred task.kernelStack 2, slot_pred task.kernelStack 1,
    slot_succ task.kernelStack 5, slot_succ task.kernelStack 16]

/-- What the registers of the new task will hold: the words that were on its stack. -/
def garbage (mem : Memory) (ks : Word) : Regs :=
  ⟨mem (slot ks 7), mem (slot ks 8), mem (slot ks 9), mem (slot ks 10), mem (slot ks 12),
    mem (slot ks 13), mem (slot ks 14)⟩

theorem length_stack_schedule {ι : Type} (L : Layout ι) (i : ι) (eip esp : Word) (r : Regs)
    (arg : Word) : (L.schedule i eip esp r arg).stack.length = 17 := rfl

/-- It is the stack that `Timer` has for a new task. -/
theorem schedule_holds (hq : ¬(q.firstSchedule = true ∧ q.currNode = .sentinel)) {L : Layout Pid}
    (hL : L.kernelStack pid = (tasks pid).kernelStack) :
    Holds (schedule q (L.address .dropArg) tasks mem pid).2 (tasks pid).kernelStack
      (L.schedule pid (tasks pid).instrPtr (tasks pid).userStack
        (garbage mem (tasks pid).kernelStack) (mem (slot (tasks pid).kernelStack 15))).stack := by
  rw [schedule_eq hq]
  unfold Layout.schedule Layout.esp
  rw [hL]
  generalize tasks pid = task
  simp [Holds, pushal, garbage, slot]

/-- `schedule` writes 17 words below `kernel_stack`. -/
theorem schedule_frame (hq : ¬(q.firstSchedule = true ∧ q.currNode = .sentinel)) (pitRetVal : Word)
    {a : Word} (ha : ∀ i, 1 ≤ i → i ≤ 17 → a ≠ slot (tasks pid).kernelStack i) :
    (schedule q pitRetVal tasks mem pid).2 a = mem a := by
  rw [schedule_eq hq]
  simp only [Function.update_of_ne (ha 5 (by decide) (by decide)),
    Function.update_of_ne (ha 4 (by decide) (by decide)),
    Function.update_of_ne (ha 3 (by decide) (by decide)),
    Function.update_of_ne (ha 2 (by decide) (by decide)),
    Function.update_of_ne (ha 1 (by decide) (by decide)),
    Function.update_of_ne (ha 6 (by decide) (by decide)),
    Function.update_of_ne (ha 11 (by decide) (by decide)),
    Function.update_of_ne (ha 16 (by decide) (by decide)),
    Function.update_of_ne (ha 17 (by decide) (by decide))]

/-- A task that was scheduled after the first one comes out of the timer handler at its first
instruction, in user mode, with the flags `0x202`, its own stack and an empty kernel stack. The
handler and the stub touch no word from `kernel_stack` on upwards, and neither does `schedule`. -/
theorem fabricated_context (hq : ¬(q.firstSchedule = true ∧ q.currNode = .sentinel)) {ι : Type}
    (L : Layout ι) (tasks : Pid → Task) (mem : Memory) (pid : Pid) (f : Callee) (c : Cpu) :
    let r := schedule q (L.address .dropArg) tasks mem pid
    let ks := (tasks pid).kernelStack
    let c₁ := Cpu.resume { c with mem := r.2, touched := [] } (r.1 pid)
    (∀ a, (∀ i, 1 ≤ i → i ≤ 17 → a ≠ slot ks i) → r.2 a = mem a) ∧
    ∃ c₂ e, c₁.execAll L f [.dropArg, .pushIrq, .sendEoi, .dropIrq, .popal, .popfl] = some c₂ ∧
      c₂.eip = L.address .iret ∧ c₂.iret = some e ∧
      e.eip = (tasks pid).instrPtr ∧ e.cs = userCs ∧ e.eflags = 0x202 ∧
      e.esp = (tasks pid).userStack ∧ e.ss = userDs ∧ e.kernelEsp = ks ∧
      (∀ a ∈ e.touched, ∃ i, 1 ≤ i ∧ i ≤ 17 + f.frame.length ∧ a = slot ks i) ∧
      (4 * (17 + f.frame.length) ≤ ks.toNat → ∀ a ∈ e.touched, a.toNat < ks.toNat) := by
  -- the addresses of the instructions are those of `L`, the stacks those of the tasks
  let L' : Layout Pid := ⟨fun p => (tasks p).kernelStack, L.address, L.injective⟩
  have hholds : Holds (schedule q (L.address .dropArg) tasks mem pid).2 (tasks pid).kernelStack
      (L'.schedule pid (tasks pid).instrPtr (tasks pid).userStack
        (garbage mem (tasks pid).kernelStack) (mem (slot (tasks pid).kernelStack 15))).stack :=
    schedule_holds (L := L') hq rfl
  have hebp : ((schedule q (L.address .dropArg) tasks mem pid).1 pid).ebp
      = slot (tasks pid).kernelStack 17 := by
    rw [schedule_eq hq]
    simp only [Function.update_self]
  have hn : 17 + f.frame.length < 2 ^ 30 := by
    have hfits := f.fits
    omega
  refine ⟨fun a ha => schedule_frame hq _ ha, ?_⟩
  have hstands : Stands (tasks pid).kernelStack (17 + f.frame.length)
      { c with
        mem := (schedule q (L.address .dropArg) tasks mem pid).2
        touched := []
        esp := ((schedule q (L.address .dropArg) tasks mem pid).1 pid).ebp } _ :=
    ⟨by rw [length_stack_schedule, hebp], hholds, fun a ha => absurd ha List.not_mem_nil⟩
  obtain ⟨hresume, heip⟩ := Stands.resume
    (c := { c with mem := (schedule q (L.address .dropArg) tasks mem pid).2, touched := [] })
    hstands (by simp [pushal])
  obtain ⟨c₂, hrun, hiret, hframe⟩ := hresume.execAll (f := f) (L := L) heip (by simp) hn
  obtain ⟨e, he, h₁, h₂, h₃, h₄, h₅, h₆, htouched⟩ := hframe.iret (by omega)
  refine ⟨c₂, e, hrun, hiret, he, h₁, h₂, h₃, h₄, h₅, h₆, htouched, fun hks a ha => ?_⟩
  obtain ⟨i, hi, hin, rfl⟩ := htouched a ha
  have hslot := slot_toNat (show 4 * i ≤ (tasks pid).kernelStack.toNat by omega)
  omega

end

/-- The control blocks of the three shells. -/
def sampleTasks (p : Pid) : Task := ⟨sampleLayout.kernelStack p, 0x83ffffc, 0x8048000, 0, 0⟩

/-- `send_eoi` with two words on the stack. -/
def sampleCallee : Callee := ⟨sampleScratch, [1, 2], by decide⟩

/-- A processor in the timer handler. -/
def sampleCpu : Cpu := ⟨⟨1, 2, 3, 4, 5, 6, 7⟩, 0x7fff00, 0, 0x402000, fun _ => 0xcc, []⟩

/-- The second shell. -/
theorem fabricated_context_second :
    let r := schedule (Schedule.schedule Schedule.schedInit 0 none) (sampleLayout.address .dropArg)
      sampleTasks (fun _ => 0xcc) 1
    let c₁ := Cpu.resume { sampleCpu with mem := r.2, touched := [] } (r.1 1)
    ∃ c₂ e, c₁.execAll sampleLayout sampleCallee
        [.dropArg, .pushIrq, .sendEoi, .dropIrq, .popal, .popfl] = some c₂ ∧
      c₂.iret = some e ∧ e.eip = 0x8048000 ∧ e.cs = userCs ∧ e.esp = 0x83ffffc ∧
      e.kernelEsp = 0x7fdffc ∧ ∀ a ∈ e.touched, a.toNat < 0x7fdffc := by
  have hsecond : ¬((Schedule.schedule Schedule.schedInit 0 none).firstSchedule = true ∧
      (Schedule.schedule Schedule.schedInit 0 none).currNode = .sentinel) := by decide
  obtain ⟨-, c₂, e, hrun, -, he, heip, hcs, -, hesp, -, hkernel, -, hbelow⟩ :=
    fabricated_context hsecond sampleLayout sampleTasks (fun _ => 0xcc) 1 sampleCallee sampleCpu
  exact ⟨c₂, e, hrun, he, heip, hcs, hesp, hkernel, hbelow (by decide)⟩

end Frames
end Linkage
end GalapagOS
