import GalapagOS.Interrupts.Driver
import GalapagOS.Interrupts.Idt
import GalapagOS.Schedule.Common

/-!
# Taking and ending interrupts (`assembly_linkage.S`, `int_handlers.c`, `schedule.c`)

`keyboard_int` and `rtc_int` call `send_eoi` first and run with interrupts off until then. The timer
handler switches to the kernel stack of another process and lets interrupts in before it ends its own:
the call of `send_eoi` behind `pit_ret` is made by the process that is resumed, which may have been
suspended in a handler of its own, in a software `int $32`, or not have run at all.

Each kernel stack is the list of the handlers that are active on it. Whatever the order of devices,
nested interrupts and switches, a line is in service only while the handler on top of the current
stack is one that still has to end it.
-/

namespace GalapagOS
namespace Interrupts

open I8259 Function

/-- The three handlers of devices. -/
inductive Handler where
  | pitInt
  | keyboardInt
  | rtcInt
deriving DecidableEq, Repr

namespace Handler

/-- `PIT_INT`, `KEYBOARD_INT`, `RTC_INT` -/
def irq : Handler → ℕ
  | pitInt => 0
  | keyboardInt => 1
  | rtcInt => 8

def linkage : Handler → Linkage
  | pitInt => .pitIntLinkage
  | keyboardInt => .keyboardIntLinkage
  | rtcInt => .rtcIntLinkage

end Handler

/-- `SLAVE_INT` -/
def slaveInt : ℕ := 2

/-- A handler that is active on a kernel stack, and whether it has called `send_eoi`. -/
structure Activation where
  handler : Handler
  acked : Bool
deriving DecidableEq, Repr

/-- The controller, the interrupt flag and the kernel stacks, with their innermost handler first. -/
structure State where
  pic : Pic
  flag : Bool
  current : Pid
  active : Pid → List Activation

inductive Event where
  | request (l : Line)
  /-- the processor takes an interrupt and finds itself in this handler -/
  | accept (h : Handler)
  /-- the innermost handler calls `send_eoi` -/
  | eoi
  /-- `cli`, `sti` or `popfl` -/
  | setFlag (b : Bool)
  /-- `int $32` of `kexecute` and `khalt` -/
  | int32
  /-- `pit_handler` loads the stack of this process -/
  | switch (p : Pid)
  /-- `schedule` prepares a stack that starts at `pit_ret` -/
  | schedule (p : Pid)
  /-- the innermost handler returns -/
  | iret (b : Bool)
  /-- `pit_init` -/
  | pitInit

/-- The handler that has not called `send_eoi`, if the code that runs belongs to one. -/
def unacked : List Activation → Option Handler
  | ⟨h, false⟩ :: _ => some h
  | _ => none

namespace State

def stack (s : State) : List Activation := s.active s.current

def setStack (s : State) (l : List Activation) : State :=
  { s with active := update s.active s.current l }

end State

/-- The code of a handler between its entry and its `send_eoi`: `pit_handler` uses the interrupt flag
and switches stacks, the other two do nothing else. `none` is an event that the code cannot make in
this state, or an interrupt that finds no gate. -/
def Event.exec (code : Code) (s : State) : Event → Option State
  | .request l => some { s with pic := { s.pic with pair := s.pic.pair.request l } }
  | .accept h =>
    if s.flag then do
      let (pair, vector) ← s.pic.pair.interrupt
      let gate := idt code vector.toNat
      if gate.present ∧ gate.isGate ∧ gate.entryPoint = code.address h.linkage then
        -- an interrupt gate turns interrupts off
        pure { s.setStack (⟨h, false⟩ :: s.stack) with
          pic := { s.pic with pair := pair }, flag := gate.reserved3 }
      else none
    else none
  | .eoi =>
    match s.stack with
    | ⟨h, false⟩ :: l =>
      (s.pic.sendEoi h.irq).map fun pic => { s.setStack (⟨h, true⟩ :: l) with pic := pic }
    | _ => none
  | .setFlag b =>
    if unacked s.stack = none ∨ unacked s.stack = some .pitInt then some { s with flag := b } else none
  | .int32 =>
    if unacked s.stack = none then
      some { s.setStack (⟨.pitInt, false⟩ :: s.stack) with flag := (idt code 32).reserved3 }
    else none
  | .switch p =>
    if unacked s.stack = some .pitInt ∧ unacked (s.active p) = some .pitInt then
      some { s with current := p }
    else none
  | .schedule p =>
    if unacked s.stack = none ∧ p ≠ s.current then
      some { s with active := update s.active p [⟨.pitInt, false⟩] }
    else none
  | .iret b =>
    match s.stack with
    | ⟨_, true⟩ :: l => some { s.setStack l with flag := b }
    | _ => none
  | .pitInit =>
    if unacked s.stack = none then
      (s.pic.enableIrq Handler.pitInt.irq).map fun pic => { s with pic := pic }
    else none

/-- The calls of `entry`. -/
def entryInit (p : Pic) : Option Pic := do
  let p ← p.i8259Init
  let p ← p.enableIrq slaveInt
  let p ← p.enableIrq Handler.keyboardInt.irq
  p.enableIrq Handler.rtcInt.irq

/-- The machine after `entry` has set up the controller; no handler is active. -/
def system (code : Code) : Run.System State Event where
  init s := (∃ p₀, entryInit p₀ = some s.pic) ∧ ∀ p, s.active p = []
  step s e := e.exec code s

/-! ## Lines in service -/

variable {code : Code} {s s' : State} {p : Pic}

/-- The in-service bit of a line. -/
def Pic.inService (p : Pic) : Line → Bool
  | .master i => bit p.pair.master.isr i
  | .slave j => bit p.pair.slave.isr j

/-- The lines that the handler ends: an interrupt of the clock is in service on both chips. -/
def Handler.ends : Handler → List Line
  | .pitInt => [line Handler.pitInt.irq]
  | .keyboardInt => [line Handler.keyboardInt.irq]
  | .rtcInt => [line Handler.rtcInt.irq, .master Pair.wire]

theorem nothing_inService (h : ∀ l, p.inService l = false) :
    p.pair.master.isr = 0#8 ∧ p.pair.slave.isr = 0#8 :=
  ⟨eq_zero_iff.mpr fun i => h (.master i), eq_zero_iff.mpr fun j => h (.slave j)⟩

theorem inService_remask (op : BitVec 8 → Fin 8 → BitVec 8) (l l' : Line) :
    (p.remask op l).inService l' = p.inService l' := by
  cases l <;> cases l' <;> rfl

/-- `send_eoi` of a handler ends the lines it is for and no others. -/
theorem inService_finish (h : Handler) (l : Line) :
    (p.finish (line h.irq)).inService l = (p.inService l && decide (l ∉ h.ends)) := by
  cases h with
  | pitInt =>
    change (p.finish (.master (index 0))).inService l = _
    cases l <;> simp [Pic.finish, Pic.inService, Handler.ends, Handler.irq, line, numIrqLines]
  | keyboardInt =>
    change (p.finish (.master (index 1))).inService l = _
    cases l <;> simp [Pic.finish, Pic.inService, Handler.ends, Handler.irq, line, numIrqLines]
  | rtcInt =>
    change (p.finish (.slave (index 8))).inService l = _
    cases l <;> simp [Pic.finish, Pic.inService, Handler.ends, Handler.irq, line, numIrqLines]

/-- The vector that the controller gives for the line of a handler. -/
def Handler.vector : Handler → ℕ
  | .pitInt => 32
  | .keyboardInt => 33
  | .rtcInt => 40

/-- Its gate is present, leads to the handler, and turns interrupts off. -/
theorem idt_vector (code : Code) (h : Handler) :
    (idt code h.vector).present = true ∧ (idt code h.vector).isGate = true ∧
      (idt code h.vector).reserved3 = false ∧
      (idt code h.vector).entryPoint = code.address h.linkage := by
  have hfind : (stores.find? fun e => e.1 = h.vector) = some (h.vector, false, 0#2, h.linkage) := by
    cases h <;> rfl
  obtain ⟨hpresent, hgate, htrap, -, hentry⟩ := idt_of_find code hfind
  exact ⟨hpresent, hgate, htrap, hentry⟩

theorem linkage_injective : Injective Handler.linkage := by
  intro h h' he
  cases h <;> cases h' <;> first | rfl | cases he

/-! ## The invariant -/

/-- The lines that the kernel enables at all. -/
def usedLines : List Line := [line 0, line 1, line slaveInt, line 8]

structure Served (s : State) : Prop where
  ready : Ready s.pic
  lines : ∀ l, s.pic.masked l = false → l ∈ usedLines
  /-- only a timer handler can have been interrupted before its `send_eoi` -/
  below : ∀ p, ∀ a ∈ (s.active p).tail, a.acked = false → a.handler = .pitInt
  service : ∀ l, s.pic.inService l = true → ∃ h, unacked s.stack = some h ∧ l ∈ h.ends
  closed : ∀ h, unacked s.stack = some h → h ≠ .pitInt → s.flag = false

theorem unacked_eq_some {l : List Activation} {h : Handler} (hl : unacked l = some h) :
    ∃ rest, l = ⟨h, false⟩ :: rest := by
  cases l with
  | nil => cases hl
  | cons a rest =>
    obtain ⟨h', b⟩ := a
    cases b with
    | false =>
      cases hl
      exact ⟨rest, rfl⟩
    | true => cases hl

theorem Served.unacked_of_tail (h : Served s) {p : Pid} {a : Activation} {l : List Activation}
    (hl : s.active p = a :: l) {h' : Handler} (hh : unacked l = some h') : h' = .pitInt := by
  obtain ⟨rest, rfl⟩ := unacked_eq_some hh
  exact h.below p ⟨h', false⟩ (by rw [hl]; simp) rfl

/-- The activations below the top after a stack has been replaced. -/
theorem below_update {f : Pid → List Activation} {p : Pid} {l : List Activation}
    (h : ∀ p, ∀ a ∈ (f p).tail, a.acked = false → a.handler = .pitInt)
    (hl : ∀ a ∈ l.tail, a.acked = false → a.handler = .pitInt) :
    ∀ q, ∀ a ∈ (update f p l q).tail, a.acked = false → a.handler = .pitInt := by
  intro q a ha
  rw [update_apply] at ha
  split at ha
  · exact hl a ha
  · exact h q a ha

theorem stack_setStack (pic : Pic) (flag : Bool) (l : List Activation) :
    State.stack { s.setStack l with pic := pic, flag := flag } = l := by
  simp [State.stack, State.setStack]

/-- When the processor takes an interrupt nothing was in service, and the vector belongs to the handler
whose lines are in service now. -/
theorem Served.interrupt {pair : Pair} {v : BitVec 8} (h : Served s) (hflag : s.flag = true)
    (hint : s.pic.pair.interrupt = some (pair, v)) :
    (∀ l, s.pic.inService l = false) ∧ ∃ h : Handler, v.toNat = h.vector ∧
      ∀ l, Pic.inService { s.pic with pair := pair } l = true ↔ l ∈ h.ends := by
  -- with interrupts on, only the timer's line can be in service
  have htimer : ∀ l, s.pic.inService l = true → l = line 0 := by
    intro l hl
    obtain ⟨h', hun, hmem⟩ := h.service l hl
    by_cases hpit : h' = .pitInt
    · subst hpit
      simpa [Handler.ends, Handler.irq] using hmem
    · rw [h.closed h' hun hpit] at hflag
      cases hflag
  -- and it has the highest priority
  have hnone : bit s.pic.pair.master.isr (index 0) = false → ∀ l, s.pic.inService l = false := by
    intro hzero l
    by_contra hl
    rw [Bool.not_eq_false] at hl
    rw [htimer l hl] at hl
    exact absurd hl (by rw [show s.pic.inService (line 0) = false from hzero]; simp)
  have hfirst : ∀ i : Fin 8, index 0 ≤ i := by decide
  rcases Pair.interrupt_cases h.ready.cascaded hint with
    ⟨i, hwire, -, himr, hisr, rfl, rfl⟩ | ⟨j, hpend, -, hisr, rfl, rfl⟩
  · have hbefore := hnone (hisr _ (hfirst i))
    have hline : i = index 0 ∨ i = index 1 := by
      have hmem := h.lines (.master i) himr
      simp only [usedLines, line, numIrqLines, slaveInt] at hmem
      simp at hmem
      rcases hmem with h0 | h1 | h2
      · exact .inl h0
      · exact .inr h1
      · exact absurd h2 hwire
    have hafter : ∀ l, Pic.inService { s.pic with pair := ⟨s.pic.pair.wired.acknowledge i, s.pic.pair.slave⟩ } l
        = true ↔ l = .master i := by
      intro l
      cases l with
      | master k =>
        have hk := hbefore (.master k)
        simp only [Pic.inService] at hk
        simp [Pic.inService, Chip.acknowledge, Pair.wired, hk]
      | slave k =>
        have hk := hbefore (.slave k)
        simp only [Pic.inService] at hk
        simp [Pic.inService, hk]
    refine ⟨hbefore, ?_⟩
    rw [h.ready.masterBase]
    rcases hline with rfl | rfl
    · exact ⟨.pitInt, rfl, fun l => by rw [hafter]; simp [Handler.ends, Handler.irq, line, numIrqLines]⟩
    · exact ⟨.keyboardInt, rfl, fun l => by
        rw [hafter]; simp [Handler.ends, Handler.irq, line, numIrqLines]⟩
  · have hbefore := hnone (hisr _ (hfirst _))
    have himr := (Chip.pending_eq_some hpend).2.1
    have hline : j = index 8 := by
      have hmem := h.lines (.slave j) himr
      simp only [usedLines, line, numIrqLines, slaveInt] at hmem
      simpa using hmem
    subst hline
    refine ⟨hbefore, .rtcInt, ?_, fun l => ?_⟩
    · rw [h.ready.slaveBase]
      rfl
    · cases l with
      | master k =>
        have hk := hbefore (.master k)
        simp only [Pic.inService] at hk
        simp [Pic.inService, Chip.acknowledge, Pair.wired, hk, Handler.ends, Handler.irq, line, numIrqLines]
      | slave k =>
        have hk := hbefore (.slave k)
        simp only [Pic.inService] at hk
        simp [Pic.inService, Chip.acknowledge, hk, Handler.ends, Handler.irq, line, numIrqLines]

/-- The interrupt that the processor takes, and nothing else it could take. -/
theorem Served.accept (h : Served s) {h' : Handler} (he : (Event.accept h').exec code s = some s') :
    (∀ l, s.pic.inService l = false) ∧ (∀ l, s'.pic.inService l = true ↔ l ∈ h'.ends) ∧
      s'.stack = ⟨h', false⟩ :: s.stack ∧ Served s' := by
  simp only [Event.exec] at he
  split at he
  · rename_i hflag
    obtain ⟨⟨pair, v⟩, hint, he⟩ := Option.bind_eq_some_iff.mp he
    obtain ⟨hbefore, h₁, hv, hafter⟩ := h.interrupt hflag hint
    obtain ⟨-, -, htrap, hentry⟩ := idt_vector code h₁
    simp only [hv, hentry, htrap] at he
    split at he
    · rename_i hgate
      obtain rfl : h₁ = h' := linkage_injective (code.injective hgate.2.2)
      cases he
      have hack : s.pic.acknowledge = { s.pic with pair := pair } := by
        rw [Pic.acknowledge, hint]
      refine ⟨hbefore, hafter, stack_setStack _ _ _, ?_⟩
      constructor
      case ready =>
        have hready := h.ready.acknowledge
        rw [hack] at hready
        exact hready
      case lines =>
        intro l hl
        have hmasked := masked_acknowledge h.ready l
        rw [hack] at hmasked
        exact h.lines l (hmasked.symm.trans hl)
      case below =>
        refine below_update h.below fun a ha hacked => ?_
        -- the handler that is interrupted has interrupts on
        cases hstack : s.stack with
        | nil => simp [hstack] at ha
        | cons b l =>
          rw [List.tail_cons, hstack] at ha
          rcases List.mem_cons.mp ha with rfl | hmem
          · by_contra hpit
            have hun : unacked s.stack = some a.handler := by
              rw [hstack, unacked.eq_def]
              obtain ⟨ah, ab⟩ := a
              cases hacked
              rfl
            rw [h.closed _ hun hpit] at hflag
            cases hflag
          · exact h.below s.current a (by
              rw [show s.active s.current = b :: l from hstack]
              exact hmem) hacked
      case service =>
        intro l hl
        exact ⟨h₁, by rw [stack_setStack]; rfl, (hafter l).mp hl⟩
      case closed =>
        intro _ _ _
        rfl
    · cases he
  · cases he

/-- The call of `send_eoi` by the handler on top leaves nothing in service. -/
theorem Served.eoi (h : Served s) (he : Event.eoi.exec code s = some s') :
    (∀ l, s'.pic.inService l = false) ∧ unacked s'.stack = none ∧ Served s' := by
  simp only [Event.exec] at he
  split at he
  · rename_i h' l hstack
    rw [sendEoi_eq, Option.map_some, Option.some.injEq] at he
    subst he
    have hnone : ∀ l, (s.pic.finish (line h'.irq)).inService l = false := by
      intro l'
      rw [inService_finish]
      cases hl' : s.pic.inService l' with
      | false => rfl
      | true =>
        obtain ⟨h₁, hun, hmem⟩ := h.service l' hl'
        rw [hstack] at hun
        cases hun
        simpa using hmem
    have hun : unacked (State.stack { s.setStack (⟨h', true⟩ :: l) with
        pic := s.pic.finish (line h'.irq), flag := s.flag }) = none := by
      rw [stack_setStack]
      rfl
    refine ⟨hnone, hun, h.ready.finish _, fun l' hl' => ?_, ?_, fun l' hl' => ?_, fun h₁ hh₁ => ?_⟩
    · exact h.lines l' ((masked_finish _ _ _).symm.trans hl')
    · refine below_update h.below fun a ha => h.below s.current a ?_
      rw [show s.active s.current = ⟨h', false⟩ :: l from hstack]
      exact ha
    · rw [hnone l'] at hl'
      cases hl'
    · cases hun.symm.trans hh₁
  · cases he

/-- No handler has been entered, ended or left: the lines in service are those of before. -/
theorem Served.congr (h : Served s) (hready : Ready s'.pic)
    (hmask : ∀ l, s'.pic.masked l = false → l ∈ usedLines)
    (hserv : ∀ l, s'.pic.inService l = s.pic.inService l)
    (hbelow : ∀ p, ∀ a ∈ (s'.active p).tail, a.acked = false → a.handler = .pitInt)
    (htop : unacked s'.stack = unacked s.stack ∨ (∀ l, s.pic.inService l = false) ∨
      unacked s.stack = some .pitInt ∧ unacked s'.stack = some .pitInt)
    (hclosed : ∀ h, unacked s'.stack = some h → h ≠ .pitInt → s'.flag = false) : Served s' := by
  refine ⟨hready, hmask, hbelow, fun l hl => ?_, hclosed⟩
  rw [hserv] at hl
  rcases htop with hsame | hnone | ⟨hpit, hpit'⟩
  · rw [hsame]
    exact h.service l hl
  · rw [hnone l] at hl
    cases hl
  · obtain ⟨h₁, hun, hmem⟩ := h.service l hl
    rw [hpit] at hun
    cases hun
    exact ⟨.pitInt, hpit', hmem⟩

theorem Served.nothing (h : Served s) (hun : unacked s.stack = none) (l : Line) :
    s.pic.inService l = false := by
  by_contra hl
  obtain ⟨h', hh', -⟩ := h.service l (by simpa using hl)
  rw [hun] at hh'
  cases hh'

theorem Served.step {e : Event} (h : Served s) (he : e.exec code s = some s') : Served s' := by
  cases e with
  | request l =>
    cases he
    refine h.congr (h.ready.request l) (fun l' hl' => h.lines l' ?_) (fun l' => ?_) h.below (.inl rfl) h.closed
    · rw [← masked_request s.pic l l']
      exact hl'
    · cases l <;> cases l' <;> rfl
  | accept h' => exact (h.accept he).2.2.2
  | eoi => exact (h.eoi he).2.2
  | setFlag b =>
    simp only [Event.exec] at he
    split at he
    · rename_i hun
      cases he
      refine h.congr h.ready h.lines (fun _ => rfl) h.below (.inl rfl) fun h' hh' hpit => ?_
      have hh : unacked s.stack = some h' := hh'
      rcases hun with hun | hun
      · rw [hun] at hh
        cases hh
      · rw [hun] at hh
        cases hh
        exact absurd rfl hpit
    · cases he
  | int32 =>
    simp only [Event.exec] at he
    split at he
    · rename_i hun
      cases he
      refine h.congr h.ready h.lines (fun _ => rfl) (below_update h.below fun a ha hacked => ?_)
        (.inr (.inl (h.nothing hun))) fun h' hh' hpit => ?_
      · -- the code that executes `int $32` belongs to no handler that has still to end
        cases hstack : s.stack with
        | nil => simp [hstack] at ha
        | cons b l =>
          rw [List.tail_cons, hstack] at ha
          rcases List.mem_cons.mp ha with rfl | hmem
          · obtain ⟨ah, ab⟩ := a
            cases hacked
            rw [hstack] at hun
            cases hun
          · exact h.below s.current a (by
              rw [show s.active s.current = b :: l from hstack]
              exact hmem) hacked
      · rw [stack_setStack] at hh'
        cases hh'
        exact absurd rfl hpit
    · cases he
  | switch p =>
    simp only [Event.exec] at he
    split at he
    · rename_i hun
      cases he
      refine h.congr h.ready h.lines (fun _ => rfl) h.below (.inr (.inr hun)) fun h' hh' hpit => ?_
      have hh : unacked (s.active p) = some h' := hh'
      rw [hun.2] at hh
      cases hh
      exact absurd rfl hpit
    · cases he
  | schedule p =>
    simp only [Event.exec] at he
    split at he
    · rename_i hun
      cases he
      have hstack : State.stack { s with active := update s.active p [⟨.pitInt, false⟩] } = s.stack :=
        update_of_ne (Ne.symm hun.2) _ _
      refine h.congr h.ready h.lines (fun _ => rfl) (below_update h.below ?_) (.inl ?_) fun h' hh' => ?_
      · intro a ha
        simp at ha
      · rw [hstack]
      · rw [hstack] at hh'
        exact h.closed h' hh'
    · cases he
  | iret b =>
    simp only [Event.exec] at he
    split at he
    · rename_i h' l hstack
      cases he
      have hactive : s.active s.current = ⟨h', true⟩ :: l := hstack
      have hun : unacked s.stack = none := by rw [hstack]; rfl
      refine h.congr h.ready h.lines (fun _ => rfl) (below_update h.below fun a ha => ?_)
        (.inr (.inl (h.nothing hun))) fun h₁ hh₁ hpit => ?_
      · refine h.below s.current a ?_
        rw [hactive]
        exact List.mem_of_mem_tail ha
      · rw [stack_setStack] at hh₁
        exact absurd (h.unacked_of_tail hactive hh₁) hpit
    · cases he
  | pitInit =>
    simp only [Event.exec] at he
    split at he
    · rw [enableIrq_eq h.ready, Option.map_some, Option.some.injEq] at he
      subst he
      have hready : Ready (s.pic.remask clearBit (line Handler.pitInt.irq)) := h.ready.remask _ _
      refine h.congr hready (fun l hl => ?_) (fun l => inService_remask _ _ _) h.below (.inl rfl) h.closed
      rw [masked_remask_clearBit] at hl
      by_cases hline : l = line Handler.pitInt.irq
      · rw [hline]
        exact List.mem_cons_self
      · exact h.lines l (by simpa [hline] using hl)
    · cases he

/-! ## Runs -/

/-- After `entry` the keyboard, the clock and the line of the slave are enabled and nothing is in service. -/
theorem entryInit_spec {p₀ : Pic} (h : entryInit p₀ = some p) :
    Ready p ∧ (∀ l, p.masked l = false → l ∈ usedLines) ∧ ∀ l, p.inService l = false := by
  obtain ⟨p₁, hp₁, hready, hmaster, hslave, hm, hs⟩ := i8259Init_spec p₀
  have hp : p = ((p₁.remask clearBit (line slaveInt)).remask clearBit (line 1)).remask clearBit (line 8) := by
    simp only [entryInit, hp₁, Option.bind_eq_bind, Option.bind_some, enableIrq_eq hready,
      enableIrq_eq (hready.remask clearBit _), enableIrq_eq ((hready.remask clearBit _).remask clearBit _)] at h
    cases h
    rfl
  subst hp
  refine ⟨((hready.remask _ _).remask _ _).remask _ _, fun l hl => ?_, fun l => ?_⟩
  · have hall : p₁.masked l = true := by cases l <;> simp [Pic.masked, hmaster, hslave]
    simp only [masked_remask_clearBit, hall, Bool.true_and] at hl
    by_contra hother
    simp only [usedLines, List.mem_cons, not_or] at hother
    simp [hother] at hl
  · rw [inService_remask, inService_remask, inService_remask]
    cases l <;> simp [Pic.inService, hm, hs]

theorem served_of_reach (h : Run.Reach (system code) Run.Free s) : Served s := by
  refine h.invariant ?_ fun s e s' hs _ he => hs.step he
  rintro s ⟨⟨p₀, hp₀⟩, hempty⟩
  obtain ⟨hready, hlines, hnone⟩ := entryInit_spec hp₀
  refine ⟨hready, hlines, fun p a ha => ?_, fun l hl => ?_, fun h hh => ?_⟩
  · rw [hempty p] at ha
    cases ha
  · rw [hnone l] at hl
    cases hl
  · rw [State.stack, hempty] at hh
    cases hh

/-- In every reachable state each line in service is one that the running handler will end. So code
that belongs to no handler, or to one that has called `send_eoi`, runs with no line in service, and with
interrupts on a line that asks is taken at once. An interrupt that is taken enters the handler of its
line, whose `send_eoi` ends exactly what is in service. -/
theorem interrupts_served (code : Code) (h : Run.Reach (system code) Run.Free s) :
    (∀ l, s.pic.inService l = true → ∃ h, unacked s.stack = some h ∧ l ∈ h.ends) ∧
    (unacked s.stack = none → s.pic.pair.master.isr = 0#8 ∧ s.pic.pair.slave.isr = 0#8) ∧
    (unacked s.stack = none → s.flag = true → ∀ l, s.pic.pair.Asks l →
      ∃ h s', (Event.accept h).exec code s = some s') ∧
    (∀ h s', (Event.accept h).exec code s = some s' →
      unacked s'.stack = some h ∧ ∀ l, s'.pic.inService l = true ↔ l ∈ h.ends) ∧
    (∀ s', Event.eoi.exec code s = some s' →
      s'.pic.pair.master.isr = 0#8 ∧ s'.pic.pair.slave.isr = 0#8) := by
  have hs := served_of_reach h
  refine ⟨hs.service, fun hun => nothing_inService (hs.nothing hun), fun hun hflag l hl => ?_,
    fun h' s' he => ?_,
    fun s' he => nothing_inService (hs.eoi he).1⟩
  · obtain ⟨hm, hsl⟩ := nothing_inService (hs.nothing hun)
    obtain ⟨⟨pair, v⟩, hint⟩ := Option.isSome_iff_exists.mp
      (Pair.exists_interrupt hs.ready.cascaded hm hsl hl)
    obtain ⟨-, h', hv, -⟩ := hs.interrupt hflag hint
    obtain ⟨hpresent, hgate, htrap, hentry⟩ := idt_vector code h'
    refine ⟨h', { s.setStack (⟨h', false⟩ :: s.stack) with
      pic := { s.pic with pair := pair }, flag := false }, ?_⟩
    simp [Event.exec, hflag, hint, hv, hpresent, hgate, htrap, hentry]
  · obtain ⟨-, hlines, hstack, -⟩ := hs.accept he
    exact ⟨by rw [hstack]; rfl, hlines⟩

/-- The entry points in the order of the table. -/
def sampleAddress (l : Linkage) : BitVec 32 := BitVec.ofNat 32 (stores.findIdx fun e => e.2.2.2 = l)

theorem sampleAddress_injective : Injective sampleAddress := by
  have hleft : LeftInverse (fun a : BitVec 32 => (stores.map fun e => e.2.2.2).getD a.toNat .pitIntLinkage)
      sampleAddress := by
    intro l
    cases l <;> rfl
  exact hleft.injective

def sampleCode : Code := ⟨sampleAddress, sampleAddress_injective⟩

/-- Chips that have just been switched on. -/
def resetPic : Pic :=
  let chip : Chip := ⟨.mask, false, false, 0#8, 0#8, 0#8, 0#8, 0#8, 0#8⟩
  ⟨⟨chip, chip⟩, 0#8, 0#8⟩

/-- The machine after `entry` has turned interrupts on. -/
def sampleState : State :=
  { pic := (entryInit resetPic).getD resetPic, flag := true, current := 0, active := fun _ => [] }

/-- The clock and the keyboard ask at once: the keyboard has the higher priority, and the clock is
taken when the keyboard has been ended. -/
theorem interrupts_served_sample : ∃ s, (system sampleCode).run sampleState
      [.request (line 8), .request (line 1), .accept .keyboardInt, .eoi, .setFlag true] = some s ∧
    s.pic.pair.Asks (line 8) ∧ ∃ h s', (Event.accept h).exec sampleCode s = some s' := by
  obtain ⟨s, hs⟩ := Option.isSome_iff_exists.mp (show ((system sampleCode).run sampleState
    [.request (line 8), .request (line 1), .accept .keyboardInt, .eoi, .setFlag true]).isSome by decide)
  have hinit : (system sampleCode).init sampleState := ⟨⟨resetPic, by decide⟩, fun _ => rfl⟩
  have hstart : Run.Reach (system sampleCode) Run.Free sampleState := .init hinit
  have hreach := hstart.run ((system sampleCode).allowed_free _ _) hs
  have hfacts : ((system sampleCode).run sampleState
      [.request (line 8), .request (line 1), .accept .keyboardInt, .eoi, .setFlag true]).map
      (fun s => decide (unacked s.stack = none ∧ s.flag = true ∧ s.pic.pair.slave.irr = 1#8 ∧
        s.pic.pair.slave.imr = 0xfe#8 ∧ s.pic.pair.master.imr = 0xf9#8)) = some true := by decide
  rw [hs, Option.map_some, Option.some.injEq] at hfacts
  obtain ⟨hun, hflag, hirr, himr, hmaster⟩ := of_decide_eq_true hfacts
  have hasks : s.pic.pair.Asks (line 8) := by
    refine ⟨?_, ?_, ?_⟩
    · rw [hirr]; decide
    · rw [himr]; decide
    · rw [hmaster]; decide
  exact ⟨s, hs, hasks, (interrupts_served sampleCode hreach).2.2.1 hun hflag _ hasks⟩

end Interrupts
end GalapagOS
