import GalapagOS.Kernel.Files
import GalapagOS.Lib.Cmos
import GalapagOS.Lib.Run

/-!
# The clock driver under interrupts (`rtc.c`, `rtc_int`)

`rtc_write` programs the rate by four port accesses, and `rtc_int` makes two of its own to the same
ports. The state is the clock, the interrupt flag of the processor, the handlers on its stack and the
driver call of each process; events are the statements of the driver and the handler, the ticks of the
clock, and switches of the process by the timer.
-/

namespace GalapagOS
namespace Interrupts
namespace Clock

open Function

/-! ## Booting -/

def rtcRegA : UInt8 := 0x8a
def rtcRegB : UInt8 := 0x8b
def rtcEn : UInt8 := 0x40

/-- `rtc_init` -/
def rtcInit (c : Cmos) : Option Cmos := do
  let (c, oldRegb) ← (c.select rtcRegB).readData
  (c.select rtcRegB).writeData (oldRegb ||| rtcEn)

/-- The port accesses of `rtc_write`. -/
def sendRate (c : Cmos) (rate : UInt8) : Option Cmos := do
  let (c, regAValue) ← (c.select rtcRegA).readData
  (c.select rtcRegA).writeData (rate ||| (regAValue &&& 0xf0))

/-- The first call of `rtc_open`; interrupts are still disabled. -/
def rtcOpen (c : Cmos) : Option Cmos := do
  let c ← rtcInit c
  let rate ← Kernel.rtcRate 2
  sendRate c (.ofNat rate)

/-! ## Statements -/

/-- Where a process is in the driver. -/
inductive Call where
  /-- outside of it -/
  | user
  /-- `cli();` of `rtc_write` -/
  | cli (rate : UInt8)
  /-- `outb(RTC_REG_A, RTC_IDX_PORT);` -/
  | indexRead (rate : UInt8)
  /-- `reg_A_value = inb(RTC_WR_PORT);` -/
  | dataRead (rate : UInt8)
  /-- `outb(RTC_REG_A, RTC_IDX_PORT);` once more -/
  | indexWrite (rate regAValue : UInt8)
  /-- `outb(rate | (reg_A_value & BYTE_MASK), RTC_WR_PORT);` -/
  | dataWrite (rate regAValue : UInt8)
  /-- `sti();` -/
  | sti
  /-- `rtc_flag = 0;` of `rtc_read` -/
  | clear
  /-- `while (!rtc_flag);` -/
  | spin

/-- Where `rtc_int` is. -/
inductive Handler where
  | sendEoi
  /-- `outb(REG_C, RTC_IDX_PORT);` -/
  | index
  /-- `inb(RTC_WR_PORT);` -/
  | data
  /-- `rtc_flag = 1;` -/
  | setFlag
  | iret
deriving DecidableEq

/-- The machine; `P` are the processes. -/
structure State (P : Type) where
  cmos : Cmos
  rtcFlag : Bool
  /-- the interrupt flag of the processor -/
  iflag : Bool
  current : P
  calls : P → Call
  /-- the handlers on the stack of the processor, the running one first -/
  handlers : List Handler

inductive Event (P : Type) where
  | tick
  | interrupt
  /-- a statement of the handler -/
  | handler
  /-- the timer switches the process -/
  | switch (p : P)
  /-- the current process calls `rtc_write` or `rtc_read` -/
  | write (frequency : ℕ)
  | read
  /-- a statement of the driver -/
  | step

section Semantics

variable {P : Type} [DecidableEq P]

/-- The current process goes on to another statement. -/
def State.goto (s : State P) (call : Call) : State P :=
  { s with calls := update s.calls s.current call }

/-- A statement of the current process. -/
def Call.exec (s : State P) : Call → Option (State P)
  | .user => none
  | .cli rate => some ({ s with iflag := false }.goto (.indexRead rate))
  | .indexRead rate => some ({ s with cmos := s.cmos.select rtcRegA }.goto (.dataRead rate))
  | .dataRead rate => s.cmos.readData.map fun r => { s with cmos := r.1 }.goto (.indexWrite rate r.2)
  | .indexWrite rate regAValue =>
    some ({ s with cmos := s.cmos.select rtcRegA }.goto (.dataWrite rate regAValue))
  | .dataWrite rate regAValue =>
    (s.cmos.writeData (rate ||| (regAValue &&& 0xf0))).map fun c => { s with cmos := c }.goto .sti
  | .sti => some ({ s with iflag := true }.goto .user)
  | .clear => some ({ s with rtcFlag := false }.goto .spin)
  | .spin => some (if s.rtcFlag then s.goto .user else s)

/-- A statement of `rtc_int`, with the handlers below it. -/
def Handler.exec (s : State P) (rest : List Handler) : Handler → Option (State P)
  | .sendEoi => some { s with handlers := .index :: rest }
  | .index => some { s with cmos := s.cmos.select 0x0c, handlers := .data :: rest }
  | .data => s.cmos.readData.map fun r => { s with cmos := r.1, handlers := .setFlag :: rest }
  | .setFlag => some { s with rtcFlag := true, handlers := .iret :: rest }
  -- it returns to a place where interrupts were enabled
  | .iret => some { s with iflag := true, handlers := rest }

def Event.exec (s : State P) : Event P → Option (State P)
  | .tick => some { s with cmos := s.cmos.tick }
  | .interrupt =>
    if s.iflag ∧ s.cmos.request then
      some { s with
        iflag := false
        cmos := { s.cmos with request := false }
        handlers := .sendEoi :: s.handlers }
    else none
  | .handler =>
    match s.handlers with
    | [] => none
    | h :: rest => h.exec s rest
  | .switch p => if s.iflag then some { s with current := p } else none
  | .write frequency =>
    match s.handlers, s.calls s.current with
    | [], .user =>
      match Kernel.rtcRate frequency with
      | none => some s
      | some rate => some (s.goto (.cli (.ofNat rate)))
    | _, _ => none
  | .read =>
    match s.handlers, s.calls s.current with
    | [], .user => some (s.goto .clear)
    | _, _ => none
  | .step =>
    match s.handlers with
    | [] => (s.calls s.current).exec s
    | _ :: _ => none

/-- The processes run after `rtc_open` and `sti`. The machine was switched on with the clock `c`. -/
structure Booted (c : Cmos) (s : State P) : Prop where
  rtcOpen : rtcOpen c = some s.cmos
  iflag : s.iflag = true
  handlers : s.handlers = []
  calls : ∀ p, s.calls p = .user

def system (c : Cmos) : Run.System (State P) (Event P) where
  init := Booted c
  step s e := e.exec s

end Semantics

/-! ## The invariant -/

/-- The statements between `cli` and `sti`. -/
def Call.Protected : Call → Prop
  | .indexRead _ | .dataRead _ | .indexWrite _ _ | .dataWrite _ _ | .sti => True
  | .user | .cli _ | .clear | .spin => False

/-- The register that a statement of the driver accesses is selected, and the value it has read is
still in the register. -/
def Call.Ready (c : Cmos) : Call → Prop
  | .dataRead _ => c.selected = some Cmos.regA
  | .indexWrite _ regAValue => regAValue = c.reg Cmos.regA
  | .dataWrite _ regAValue => c.selected = some Cmos.regA ∧ regAValue = c.reg Cmos.regA
  | _ => True

/-- The handler has not read register C yet. -/
def Handler.Unread : Handler → Prop
  | .sendEoi | .index | .data => True
  | .setFlag | .iret => False

section Invariant

variable {P : Type} {c : Cmos} {s s' : State P} {e : Event P} {h : Handler} {call : Call} {down : Prop}

/-- What the processor executes: a process with interrupts enabled, the protected statements of the
driver, or the handler. -/
inductive Context (s : State P) : Prop
  | process (hflag : s.iflag = true) (hhandlers : s.handlers = [])
      (hfree : ∀ p, ¬(s.calls p).Protected)
  | driver (hflag : s.iflag = false) (hhandlers : s.handlers = [])
      (hprotected : (s.calls s.current).Protected) (hready : (s.calls s.current).Ready s.cmos)
      (hfree : ∀ p, p ≠ s.current → ¬(s.calls p).Protected)
  | handler (h : Handler) (hflag : s.iflag = false) (hhandlers : s.handlers = [h])
      (hfree : ∀ p, ¬(s.calls p).Protected)
      (hselected : h = .data → s.cmos.selected = some Cmos.regC)

/-- If the line was `down` when the machine was switched on, a raised line is on its way to the
handler. -/
structure Inv (down : Prop) (s : State P) : Prop where
  context : Context s
  requested : down → s.cmos.line = true → s.cmos.request = true ∨ ∃ h ∈ s.handlers, h.Unread

/-- Unless a handler still has to read register C, a raised line is a request. -/
theorem Inv.requested_of_read (hinv : Inv down s) (hread : ∀ h ∈ s.handlers, ¬h.Unread) (hdown : down)
    (hline : s.cmos.line = true) : s.cmos.request = true := by
  refine (hinv.requested hdown hline).resolve_right ?_
  rintro ⟨h, hmem, hunread⟩
  exact hread h hmem hunread

theorem Inv.of_request (hcontext : Context s)
    (hrequest : down → s.cmos.line = true → s.cmos.request = true) : Inv down s :=
  ⟨hcontext, fun hdown hline => .inl (hrequest hdown hline)⟩

theorem Context.process_of_iflag (hc : Context s) (hflag : s.iflag = true) :
    s.handlers = [] ∧ ∀ p, ¬(s.calls p).Protected := by
  cases hc with
  | process _ hhandlers hfree => exact ⟨hhandlers, hfree⟩
  | driver hoff => exact absurd (hflag.symm.trans hoff) (by decide)
  | handler h hoff => exact absurd (hflag.symm.trans hoff) (by decide)

/-- Register A when a rate has been programmed, or none. -/
def setRate (a : UInt8) : Option UInt8 → UInt8
  | none => a
  | some rate => rate ||| (a &&& 0xf0)

/-- What an event does to the registers: `rtc_write` stores its rate into register A, and only
register C changes otherwise. -/
structure Registers (c c' : Cmos) (rate : Option UInt8) : Prop where
  rate : c'.reg Cmos.regA = setRate (c.reg Cmos.regA) rate
  others : ∀ r, r ≠ Cmos.regA → r ≠ Cmos.regC → c'.reg r = c.reg r

theorem Registers.of_reg_eq {c c' : Cmos} (h : c'.reg = c.reg) : Registers c c' none :=
  ⟨congrFun h _, fun r _ _ => congrFun h r⟩

theorem registers_store_regC (c : Cmos) (v : UInt8) {c' : Cmos}
    (h : c'.reg = (c.store Cmos.regC v).reg) : Registers c c' none := by
  constructor
  · rw [h, Cmos.reg_store, update_of_ne Cmos.regA_ne_regC]
    rfl
  · intro r _ hC
    rw [h, Cmos.reg_store, update_of_ne hC]

/-! ## One event -/

theorem Inv.tick (hinv : Inv down s) : Inv down { s with cmos := s.cmos.tick } := by
  constructor
  · cases hinv.context with
    | process hflag hhandlers hfree => exact .process hflag hhandlers hfree
    | driver hflag hhandlers hprotected hready hfree =>
      refine .driver hflag hhandlers hprotected ?_ hfree
      -- a tick neither selects a register nor changes register A
      have hA : s.cmos.tick.reg Cmos.regA = s.cmos.reg Cmos.regA := by
        rw [Cmos.reg_tick, update_of_ne Cmos.regA_ne_regC]
      revert hready
      show (s.calls s.current).Ready s.cmos → (s.calls s.current).Ready s.cmos.tick
      cases s.calls s.current <;> simp only [Call.Ready, hA, Cmos.selected_tick, imp_self]
    | handler h hflag hhandlers hfree hselected =>
      exact .handler h hflag hhandlers hfree hselected
  · intro hdown hline
    by_cases hunread : ∃ h ∈ s.handlers, h.Unread
    · exact .inr hunread
    · refine .inl (Cmos.requested_store (fun hup => ?_) hline)
      exact (hinv.requested hdown hup).resolve_right hunread

theorem Inv.interrupt (hinv : Inv down s) (hflag : s.iflag = true) :
    Inv down { s with
      iflag := false
      cmos := { s.cmos with request := false }
      handlers := .sendEoi :: s.handlers } := by
  obtain ⟨hhandlers, hfree⟩ := hinv.context.process_of_iflag hflag
  rw [hhandlers]
  exact ⟨.handler .sendEoi rfl rfl hfree fun h => absurd h (by decide),
    fun _ _ => .inr ⟨.sendEoi, List.mem_singleton_self _, trivial⟩⟩

/-- A statement of the handler. -/
theorem Inv.handler (hinv : Inv down s) {rest : List Handler} (hhandlers : s.handlers = h :: rest)
    (hstep : h.exec s rest = some s') : Inv down s' ∧ Registers s.cmos s'.cmos none := by
  obtain ⟨hflag, hrest, hfree, hselected⟩ : s.iflag = false ∧ rest = [] ∧
      (∀ p, ¬(s.calls p).Protected) ∧ (h = .data → s.cmos.selected = some Cmos.regC) := by
    cases hinv.context with
    | process _ hnil => cases hnil.symm.trans hhandlers
    | driver _ hnil => cases hnil.symm.trans hhandlers
    | handler h' hflag hone hfree hselected =>
      cases hhandlers.symm.trans hone
      exact ⟨hflag, rfl, hfree, hselected⟩
  subst hrest
  have hrequested (hread : ¬h.Unread) : down → s.cmos.line = true → s.cmos.request = true := by
    refine hinv.requested_of_read fun h' hmem => ?_
    rw [hhandlers, List.mem_singleton] at hmem
    exact hmem ▸ hread
  cases h with
  | sendEoi =>
    cases hstep
    exact ⟨⟨.handler .index hflag rfl hfree fun h => absurd h (by decide),
      fun _ _ => .inr ⟨.index, List.mem_singleton_self _, trivial⟩⟩, .of_reg_eq rfl⟩
  | index =>
    cases hstep
    exact ⟨⟨.handler .data hflag rfl hfree fun _ => rfl,
      fun _ _ => .inr ⟨.data, List.mem_singleton_self _, trivial⟩⟩, .of_reg_eq rfl⟩
  | data =>
    rw [Handler.exec, Cmos.readData_regC (hselected rfl), Option.map_some, Option.some.injEq] at hstep
    subst hstep
    refine ⟨⟨.handler .setFlag hflag rfl hfree fun h => absurd h (by decide), fun _ hline => ?_⟩,
      registers_store_regC s.cmos 0 rfl⟩
    exact absurd (Cmos.line_store_regC.symm.trans hline) (by decide)
  | setFlag =>
    cases hstep
    exact ⟨.of_request (.handler .iret hflag rfl hfree fun h => absurd h (by decide)) (hrequested id),
      .of_reg_eq rfl⟩
  | iret =>
    cases hstep
    exact ⟨.of_request (.process rfl rfl hfree) (hrequested id), .of_reg_eq rfl⟩

theorem free_update [DecidableEq P] (hfree : ∀ p, p ≠ s.current → ¬(s.calls p).Protected)
    (hcall : ¬call.Protected) (p : P) : ¬(update s.calls s.current call p).Protected := by
  rw [update_apply]
  split
  · exact hcall
  · exact hfree p ‹_›

/-- The processor stays between `cli` and `sti`. -/
theorem Context.driver_goto [DecidableEq P] (hflag : s.iflag = false) (hhandlers : s.handlers = [])
    (hfree : ∀ p, p ≠ s.current → ¬(s.calls p).Protected) (hprotected : call.Protected)
    (hready : call.Ready s.cmos) : Context (s.goto call) := by
  have hcall : (s.goto call).calls (s.goto call).current = call := update_self ..
  refine .driver hflag hhandlers ?_ ?_ fun p (hp : p ≠ s.current) => ?_
  · rwa [hcall]
  · rwa [hcall]
  · show ¬(update s.calls s.current call p).Protected
    rw [update_of_ne hp]
    exact hfree p hp

/-- The rate that a statement programs. -/
def programmed (s : State P) : Event P → Option UInt8
  | .step =>
    match s.handlers, s.calls s.current with
    | [], .dataWrite rate _ => some rate
    | _, _ => none
  | _ => none

/-- A statement of the driver. -/
theorem Inv.step_driver [DecidableEq P] (hinv : Inv down s) (hhandlers : s.handlers = [])
    (hstep : (s.calls s.current).exec s = some s') :
    Inv down s' ∧ Registers s.cmos s'.cmos (programmed s .step) := by
  have hrequested : down → s.cmos.line = true → s.cmos.request = true :=
    hinv.requested_of_read (by simp [hhandlers])
  have hrate : programmed s .step = match s.calls s.current with
      | .dataWrite rate _ => some rate
      | _ => none := by
    simp only [programmed, hhandlers]
    split <;> simp_all
  rw [hrate]
  cases hinv.context with
  | process hflag _ hfree =>
    -- interrupts are enabled: `cli`, or `rtc_read`
    have hother : ∀ p, p ≠ s.current → ¬(s.calls p).Protected := fun p _ => hfree p
    cases hcall : s.calls s.current with
    | user =>
      rw [hcall] at hstep
      cases hstep
    | cli rate =>
      rw [hcall] at hstep
      cases hstep
      exact ⟨.of_request (.driver_goto rfl hhandlers hother trivial trivial) hrequested, .of_reg_eq rfl⟩
    | clear =>
      rw [hcall] at hstep
      cases hstep
      exact ⟨.of_request (.process hflag hhandlers (free_update hother id)) hrequested, .of_reg_eq rfl⟩
    | spin =>
      rw [hcall, Call.exec, Option.some.injEq] at hstep
      subst hstep
      split
      · exact ⟨.of_request (.process hflag hhandlers (free_update hother id)) hrequested, .of_reg_eq rfl⟩
      · exact ⟨hinv, .of_reg_eq rfl⟩
    | indexRead | dataRead | indexWrite | dataWrite | sti =>
      exact absurd (hcall ▸ trivial) (hfree s.current)
  | driver hflag _ hprotected hready hfree =>
    cases hcall : s.calls s.current with
    | user | cli | clear | spin =>
      rw [hcall] at hprotected
      exact absurd hprotected id
    | indexRead rate =>
      rw [hcall] at hstep
      cases hstep
      exact ⟨.of_request (.driver_goto hflag hhandlers hfree trivial rfl) hrequested, .of_reg_eq rfl⟩
    | dataRead rate =>
      rw [hcall] at hstep hready
      have hsel : s.cmos.selected = some Cmos.regA := hready
      rw [Call.exec, Cmos.readData_of_ne hsel Cmos.regA_ne_regC, Option.map_some,
        Option.some.injEq] at hstep
      subst hstep
      exact ⟨.of_request (.driver_goto hflag hhandlers hfree trivial rfl) hrequested, .of_reg_eq rfl⟩
    | indexWrite rate old =>
      rw [hcall] at hstep hready
      cases hstep
      exact ⟨.of_request (.driver_goto hflag hhandlers hfree trivial ⟨rfl, hready⟩) hrequested,
        .of_reg_eq rfl⟩
    | dataWrite rate old =>
      rw [hcall] at hstep hready
      obtain ⟨hsel, rfl⟩ : s.cmos.selected = some Cmos.regA ∧ old = s.cmos.reg Cmos.regA := hready
      rw [Call.exec, Cmos.writeData_of_ne hsel Cmos.regA_ne_regC Cmos.regA_ne_regD, Option.map_some,
        Option.some.injEq] at hstep
      subst hstep
      refine ⟨.of_request (.driver_goto hflag hhandlers hfree trivial trivial) ?_, ?_, ?_⟩
      · exact fun hdown hline => Cmos.requested_store (hrequested hdown) hline
      · show update s.cmos.reg Cmos.regA _ Cmos.regA = _
        rw [update_self]
        rfl
      · intro r hA _
        exact update_of_ne hA _ _
    | sti =>
      rw [hcall] at hstep
      cases hstep
      exact ⟨.of_request (.process rfl hhandlers (free_update hfree id)) hrequested, .of_reg_eq rfl⟩
  | handler h _ hone =>
    cases hhandlers.symm.trans hone

/-- One event. -/
theorem Inv.step [DecidableEq P] (hinv : Inv down s) (hstep : (system c).step s e = some s') :
    Inv down s' ∧ Registers s.cmos s'.cmos (programmed s e) := by
  -- a process that calls the driver is not in a protected statement
  have hcalls : ∀ call : Call, s.handlers = [] → s.calls s.current = .user → ¬call.Protected →
      Inv down (s.goto call) := by
    intro call hhandlers huser hcall
    cases hinv.context with
    | process hflag _ hfree =>
      exact ⟨.process hflag hhandlers (free_update (fun p _ => hfree p) hcall), hinv.requested⟩
    | driver _ _ hprotected =>
      rw [huser] at hprotected
      exact absurd hprotected id
    | handler h _ hone => cases hhandlers.symm.trans hone
  cases e with
  | tick =>
    cases hstep
    exact ⟨hinv.tick, registers_store_regC s.cmos _ rfl⟩
  | interrupt =>
    simp only [system, Event.exec] at hstep
    split at hstep
    · cases hstep
      exact ⟨hinv.interrupt ‹_ ∧ _›.1, .of_reg_eq rfl⟩
    · cases hstep
  | handler =>
    simp only [system, Event.exec] at hstep
    split at hstep
    · cases hstep
    · exact hinv.handler ‹_› hstep
  | switch p =>
    simp only [system, Event.exec] at hstep
    split at hstep
    · cases hstep
      obtain ⟨hhandlers, hfree⟩ := hinv.context.process_of_iflag ‹_›
      exact ⟨⟨.process ‹_› hhandlers hfree, hinv.requested⟩, .of_reg_eq rfl⟩
    · cases hstep
  | write frequency =>
    simp only [system, Event.exec] at hstep
    split at hstep
    · split at hstep
      · cases hstep
        exact ⟨hinv, .of_reg_eq rfl⟩
      · cases hstep
        exact ⟨hcalls _ ‹_› ‹_› id, .of_reg_eq rfl⟩
    · cases hstep
  | read =>
    simp only [system, Event.exec] at hstep
    split at hstep
    · cases hstep
      exact ⟨hcalls _ ‹_› ‹_› id, .of_reg_eq rfl⟩
    · cases hstep
  | step =>
    simp only [system, Event.exec] at hstep
    split at hstep
    · exact hinv.step_driver ‹_› hstep
    · cases hstep

/-! ## Rates -/

/-- The rate of a call is a number of four bits. -/
def Call.Small : Call → Prop
  | .cli rate | .indexRead rate | .dataRead rate => rate < 16
  | .indexWrite rate _ | .dataWrite rate _ => rate < 16
  | _ => True

theorem rtcRate_small {frequency rate : ℕ} (h : Kernel.rtcRate frequency = some rate) :
    UInt8.ofNat rate < 16 := by
  unfold Kernel.rtcRate at h
  split at h
  · cases h
  split at h
  · cases h
  · cases h
    have hlt := Nat.and_lt_two_pow (n := 4) ((List.range 15).foldl
      (fun r j => if 0x8000 >>> j = frequency then j + 1 else r) 0) (show 0xf < 2 ^ 4 by decide)
    rw [UInt8.lt_iff_toNat_lt, UInt8.toNat_ofNat']
    exact lt_of_le_of_lt (Nat.mod_le _ _) hlt

/-- A statement of the driver keeps the rate of its call. -/
theorem Call.exec_calls [DecidableEq P] (hcall : s.calls s.current = call)
    (h : call.exec s = some s') :
    ∃ call', s'.calls = update s.calls s.current call' ∧ (call.Small → call'.Small) := by
  cases call with
  | user => cases h
  | cli | indexRead | indexWrite =>
    cases h
    exact ⟨_, rfl, id⟩
  | sti | clear =>
    cases h
    exact ⟨_, rfl, fun _ => trivial⟩
  | dataRead =>
    obtain ⟨r, -, rfl⟩ := Option.map_eq_some_iff.mp h
    exact ⟨_, rfl, id⟩
  | dataWrite =>
    obtain ⟨c, -, rfl⟩ := Option.map_eq_some_iff.mp h
    exact ⟨_, rfl, fun _ => trivial⟩
  | spin =>
    rw [Call.exec, Option.some.injEq] at h
    subst h
    split
    · exact ⟨_, rfl, fun _ => trivial⟩
    · exact ⟨.spin, by rw [← hcall, update_eq_self], id⟩

theorem small_update [DecidableEq P] (h : ∀ p, (s.calls p).Small) (hcall : call.Small) (p : P) :
    (update s.calls s.current call p).Small := by
  rw [update_apply]
  split
  · exact hcall
  · exact h p

/-- Every rate comes from `rtc_write`, which keeps four bits of it. -/
theorem small_step [DecidableEq P] (h : ∀ p, (s.calls p).Small)
    (hstep : (system c).step s e = some s') : ∀ p, (s'.calls p).Small := by
  cases e with
  | tick =>
    cases hstep
    exact h
  | interrupt =>
    simp only [system, Event.exec] at hstep
    split at hstep
    · cases hstep
      exact h
    · cases hstep
  | handler =>
    simp only [system, Event.exec] at hstep
    split at hstep
    · cases hstep
    · rename_i h' rest _
      cases h' with
      | sendEoi | index | setFlag | iret =>
        cases hstep
        exact h
      | data =>
        obtain ⟨r, -, rfl⟩ := Option.map_eq_some_iff.mp hstep
        exact h
  | switch p =>
    simp only [system, Event.exec] at hstep
    split at hstep
    · cases hstep
      exact h
    · cases hstep
  | write frequency =>
    simp only [system, Event.exec] at hstep
    split at hstep
    · split at hstep
      · cases hstep
        exact h
      · rename_i rate hrate
        cases hstep
        exact small_update h (rtcRate_small hrate)
    · cases hstep
  | read =>
    simp only [system, Event.exec] at hstep
    split at hstep
    · cases hstep
      exact small_update h trivial
    · cases hstep
  | step =>
    simp only [system, Event.exec] at hstep
    split at hstep
    · obtain ⟨call', hcalls, hsmall⟩ := Call.exec_calls rfl hstep
      rw [hcalls]
      exact small_update h (hsmall (h _))
    · cases hstep

theorem programmed_small (h : ∀ p, (s.calls p).Small) {rate : UInt8}
    (hrate : programmed s e = some rate) : rate < 16 := by
  cases e with
  | step =>
    unfold programmed at hrate
    dsimp only at hrate
    split at hrate
    · rename_i rate' old _ hcall
      cases hrate
      have hsmall := h s.current
      rw [hcall] at hsmall
      exact hsmall
    · cases hrate
  | _ => cases hrate

/-- A rate leaves the upper bits of register A alone. -/
theorem setRate_upper (a : UInt8) {rate : Option UInt8} (h : ∀ r, rate = some r → r < 16) :
    setRate a rate &&& 0xf0 = a &&& 0xf0 := by
  have hall : ∀ (i : Fin 16) (j : Fin 256),
      (UInt8.ofNat i.val ||| (UInt8.ofNat j.val &&& 0xf0)) &&& 0xf0 = UInt8.ofNat j.val &&& 0xf0 := by
    decide +kernel
  cases rate with
  | none => rfl
  | some r =>
    have hlt : r.toNat < 16 := UInt8.lt_iff_toNat_lt.mp (h r rfl)
    have hsame := hall ⟨r.toNat, hlt⟩ ⟨a.toNat, a.toNat_lt⟩
    rwa [UInt8.ofNat_toNat, UInt8.ofNat_toNat] at hsame

/-! ## Runs -/

/-- The rate 15 of `START_FREQUENCY` and the enable bit have been stored. -/
theorem rtcOpen_eq (c : Cmos) : rtcOpen c = some
    { ((c.store Cmos.regB (c.reg Cmos.regB ||| rtcEn)).store Cmos.regA
        (15 ||| (c.reg Cmos.regA &&& 0xf0))) with selected := none } := by
  have hrate : Kernel.rtcRate 2 = some 15 := by decide
  simp only [rtcOpen, hrate]
  rfl

theorem Booted.inv [DecidableEq P] (hboot : Booted c s) : Inv (c.line = false) s := by
  have hcmos := hboot.rtcOpen
  rw [rtcOpen_eq, Option.some.injEq] at hcmos
  refine ⟨.process hboot.iflag hboot.handlers fun p => ?_, fun hdown hline => .inl ?_⟩
  · rw [hboot.calls]
    exact id
  · rw [← hcmos] at hline ⊢
    refine Cmos.requested_store (fun hup => ?_) hline
    refine Cmos.requested_store (fun hup => ?_) hup
    exact absurd (hdown.symm.trans hup) (by decide)

theorem Reach.inv [DecidableEq P] (h : Run.Reach (system (P := P) c) Run.Free s) :
    Inv (c.line = false) s :=
  h.invariant (fun _ hboot => Booted.inv hboot) fun _ _ _ hinv _ hstep => (hinv.step hstep).1

/-- What holds of the registers in every run: the upper bits of register A and the registers but A and
C are as the boot code has left them, and no statement holds a rate that would change them. -/
structure Programmed (c : Cmos) (s : State P) : Prop where
  inv : Inv (c.line = false) s
  small : ∀ p, (s.calls p).Small
  upper : s.cmos.reg Cmos.regA &&& 0xf0 = c.reg Cmos.regA &&& 0xf0
  regB : s.cmos.reg Cmos.regB = c.reg Cmos.regB ||| rtcEn
  others : ∀ r, r ≠ Cmos.regA → r ≠ Cmos.regB → r ≠ Cmos.regC → s.cmos.reg r = c.reg r

theorem Booted.regA (hboot : Booted c s) :
    s.cmos.reg Cmos.regA = 15 ||| (c.reg Cmos.regA &&& 0xf0) := by
  have hcmos := hboot.rtcOpen
  rw [rtcOpen_eq, Option.some.injEq] at hcmos
  rw [← hcmos]
  simp only [Cmos.reg_store, update_self]

theorem Booted.programmed [DecidableEq P] (hboot : Booted c s) : Programmed c s := by
  have hcmos := hboot.rtcOpen
  rw [rtcOpen_eq, Option.some.injEq] at hcmos
  refine ⟨hboot.inv, fun p => ?_, ?_, ?_, fun r hA hB _ => ?_⟩
  · rw [hboot.calls]
    trivial
  · -- 15, the rate of 2 Hz, is below 16 like every other
    have hmax : ∀ r, some (15 : UInt8) = some r → r < 16 := by
      intro r hr
      cases hr
      decide
    rw [hboot.regA]
    exact setRate_upper _ hmax
  · have hne : Cmos.regB ≠ Cmos.regA := by decide
    rw [← hcmos]
    simp only [Cmos.reg_store, update_of_ne hne, update_self]
  · rw [← hcmos]
    simp only [Cmos.reg_store, update_of_ne hA, update_of_ne hB]

theorem Programmed.step [DecidableEq P] (h : Programmed c s)
    (hstep : (system c).step s e = some s') :
    Programmed c s' ∧
      s'.cmos.reg Cmos.regA = setRate (s.cmos.reg Cmos.regA) (programmed s e) := by
  obtain ⟨hinv, hregs⟩ := h.inv.step hstep
  refine ⟨⟨hinv, small_step h.small hstep, ?_, ?_, fun r hA hB hC => ?_⟩, hregs.rate⟩
  · rw [hregs.rate, setRate_upper _ fun r hr => programmed_small h.small hr, h.upper]
  · rw [hregs.others Cmos.regB (by decide) (by decide), h.regB]
  · rw [hregs.others r hA hC, h.others r hA hB hC]

/-- However the calls of the processes, the handler and the switches of the timer are interleaved:
register A holds the rate that was programmed last, at first that of 2 Hz, beside the upper bits it
had when the machine was switched on, which no rate has changed; periodic interrupts are enabled in
register B, and only register C has changed otherwise. -/
theorem clock_registers [DecidableEq P] {s₀ : State P} {es : List (Event P)} (hboot : Booted c s₀)
    (hrun : (system c).run s₀ es = some s) :
    s.cmos.reg Cmos.regA
      = ((system c).labels programmed s₀ es).foldl setRate (15 ||| (c.reg Cmos.regA &&& 0xf0)) ∧
    s.cmos.reg Cmos.regA &&& 0xf0 = c.reg Cmos.regA &&& 0xf0 ∧
    s.cmos.reg Cmos.regB = c.reg Cmos.regB ||| rtcEn ∧
    ∀ r, r ≠ Cmos.regA → r ≠ Cmos.regB → r ≠ Cmos.regC → s.cmos.reg r = c.reg r := by
  have hstep : ∀ (s : State P) (e : Event P) (s' : State P), Programmed c s → Run.Free s e →
      (system c).step s e = some s' → Programmed c s' ∧
        s'.cmos.reg Cmos.regA = setRate (s.cmos.reg Cmos.regA) (programmed s e) :=
    fun _ _ _ h _ => h.step
  obtain ⟨hprogrammed, hrate⟩ :=
    Run.System.refines programmed hstep hboot.programmed ((system c).allowed_free es s₀) hrun
  exact ⟨hboot.regA ▸ hrate, hprogrammed.upper, hprogrammed.regB, hprogrammed.others⟩

section Sample

/-- A clock with cleared registers, and the machine after booting with it. -/
def sampleCmos : Cmos := ⟨none, fun _ => 0, false⟩

def sampleStart : State Bool := ⟨(rtcOpen sampleCmos).getD sampleCmos, false, true, false, fun _ => .user, []⟩

theorem sampleStart_booted : Booted sampleCmos sampleStart :=
  ⟨rfl, rfl, rfl, fun _ => rfl⟩

/-- A process sets the clock to 1024 Hz, and the clock ticks after its `cli`. -/
def sampleWrite : List (Event Bool) := [.write 1024, .step, .tick]

/-- The process goes on, the handler runs, and another process is switched to. -/
def sampleServe : List (Event Bool) :=
  List.replicate 5 .step ++ [.interrupt] ++ List.replicate 5 .handler ++ [.switch true]

theorem clock_registers_write : ∃ s,
    (system sampleCmos).run sampleStart (sampleWrite ++ sampleServe) = some s ∧
      s.cmos.reg Cmos.regA = 6 := by
  obtain ⟨s, hs⟩ : ∃ s, (system sampleCmos).run sampleStart (sampleWrite ++ sampleServe) = some s :=
    ⟨_, rfl⟩
  refine ⟨s, hs, (clock_registers sampleStart_booted hs).1.trans ?_⟩
  decide

end Sample

/-! ## Ticks are served -/

/-- What the processor does next when the timer is quiet: take an interrupt, or go on with the
handler or the process. -/
def cpu (s : State P) : Event P :=
  if s.iflag ∧ s.cmos.request then .interrupt
  else if s.handlers = [] then .step else .handler

/-- The next `n` events of the processor. -/
def serve [DecidableEq P] (s : State P) : ℕ → Option (State P)
  | 0 => some s
  | n + 1 => ((cpu s).exec s).bind fun s' => serve s' n

/-- At most so many events of the processor are left until register C has been read, from a statement
of a process or of the handler on. -/
def Call.left : Call → ℕ
  | .indexRead _ => 9
  | .dataRead _ => 8
  | .indexWrite _ _ => 7
  | .dataWrite _ _ => 6
  | .sti => 5
  | _ => 4

/-- A handler that has read register C before the tick has to return first. -/
def Handler.left : Handler → ℕ
  | .setFlag => 6
  | .iret => 5
  | .sendEoi => 3
  | .index => 2
  | .data => 1

def left (s : State P) : ℕ :=
  match s.handlers with
  | [] => (s.calls s.current).left
  | h :: _ => h.left

theorem left_le (s : State P) : left s ≤ 9 := by
  unfold left Call.left Handler.left
  split
  · split <;> omega
  · split <;> omega

theorem left_process (hhandlers : s.handlers = []) (hfree : ¬(s.calls s.current).Protected) :
    left s = 4 := by
  unfold left
  rw [hhandlers]
  dsimp only
  cases hcall : s.calls s.current with
  | user | cli | clear | spin => rfl
  | indexRead | dataRead | indexWrite | dataWrite | sti => exact absurd (hcall ▸ trivial) hfree

theorem left_goto [DecidableEq P] (call : Call) (hhandlers : s.handlers = []) :
    left (s.goto call) = call.left := by
  have hcurrent : (s.goto call).calls (s.goto call).current = call := update_self ..
  unfold left
  rw [show (s.goto call).handlers = [] from hhandlers]
  dsimp only
  rw [hcurrent]

/-- The tick has been read from register C, and the handler comes to `rtc_flag = 1;`. -/
def AtFlag (s : State P) : Prop := s.cmos.line = false ∧ s.handlers = [.setFlag]

/-- Each statement between `cli` and `sti` leaves the line up and brings `sti` nearer. -/
theorem exec_left_of_protected [DecidableEq P] (hhandlers : s.handlers = []) (hprotected : call.Protected)
    (hready : call.Ready s.cmos) (hline : s.cmos.line = true) :
    ∃ s', call.exec s = some s' ∧ s'.cmos.line = true ∧ left s' < call.left := by
  cases call with
  | user | cli | clear | spin => exact absurd hprotected id
  | indexRead rate =>
    refine ⟨_, rfl, hline, ?_⟩
    exact lt_of_eq_of_lt (left_goto _ hhandlers) (Nat.lt_succ_self 8)
  | dataRead rate =>
    rw [Call.exec, Cmos.readData_of_ne hready Cmos.regA_ne_regC]
    refine ⟨_, rfl, hline, ?_⟩
    exact lt_of_eq_of_lt (left_goto _ hhandlers) (Nat.lt_succ_self 7)
  | indexWrite rate old =>
    refine ⟨_, rfl, hline, ?_⟩
    exact lt_of_eq_of_lt (left_goto _ hhandlers) (Nat.lt_succ_self 6)
  | dataWrite rate old =>
    rw [Call.exec, Cmos.writeData_of_ne hready.1 Cmos.regA_ne_regC Cmos.regA_ne_regD]
    -- the line does not depend on register A
    have hsame := Cmos.line_store_of_ne (c := s.cmos) (v := rate ||| (old &&& 0xf0))
      (show Cmos.regA ≠ Cmos.regB by decide) Cmos.regA_ne_regC
    refine ⟨_, rfl, hsame.trans hline, ?_⟩
    exact lt_of_eq_of_lt (left_goto _ hhandlers) (Nat.lt_succ_self 5)
  | sti =>
    refine ⟨_, rfl, hline, ?_⟩
    exact lt_of_eq_of_lt (left_goto _ hhandlers) (Nat.lt_succ_self 4)

/-- The handler reads register C, or comes nearer to it; after the read it returns first. -/
theorem exec_left_of_handler (hfree : ∀ p, ¬(s.calls p).Protected)
    (hselected : h = .data → s.cmos.selected = some Cmos.regC) (hline : s.cmos.line = true) :
    ∃ s', h.exec s [] = some s' ∧ (AtFlag s' ∨ s'.cmos.line = true ∧ left s' < h.left) := by
  cases h with
  | sendEoi => exact ⟨_, rfl, .inr ⟨hline, Nat.lt_succ_self 2⟩⟩
  | index => exact ⟨_, rfl, .inr ⟨hline, Nat.lt_succ_self 1⟩⟩
  | data =>
    rw [Handler.exec, Cmos.readData_regC (hselected rfl)]
    exact ⟨_, rfl, .inl ⟨Cmos.line_store_regC, rfl⟩⟩
  | setFlag => exact ⟨_, rfl, .inr ⟨hline, Nat.lt_succ_self 5⟩⟩
  | iret =>
    refine ⟨_, rfl, .inr ⟨hline, ?_⟩⟩
    exact lt_of_eq_of_lt (left_process rfl (hfree s.current)) (Nat.lt_succ_self 4)

/-- An event of the processor reads register C or brings it nearer. -/
theorem Inv.served_step [DecidableEq P] (hinv : Inv down s) (hdown : down)
    (hline : s.cmos.line = true) :
    ∃ s', (cpu s).exec s = some s' ∧ (AtFlag s' ∨ s'.cmos.line = true ∧ left s' < left s) := by
  cases hinv.context with
  | process hflag hhandlers hfree =>
    -- no handler has started, so the tick is a request
    have hrequest := hinv.requested_of_read (by simp [hhandlers]) hdown hline
    have hcpu : cpu s = .interrupt := if_pos ⟨hflag, hrequest⟩
    rw [hcpu]
    refine ⟨_, if_pos ⟨hflag, hrequest⟩, .inr ⟨hline, ?_⟩⟩
    rw [left_process hhandlers (hfree s.current)]
    exact Nat.lt_succ_self 3
  | driver hflag hhandlers hprotected hready hfree =>
    have hcpu : (cpu s).exec s = (s.calls s.current).exec s := by
      unfold cpu
      rw [hflag, if_neg (by simp), if_pos hhandlers]
      simp only [Event.exec, hhandlers]
    have hleft : left s = (s.calls s.current).left := by
      unfold left
      rw [hhandlers]
    rw [hcpu, hleft]
    obtain ⟨s', hs', hup, hlt⟩ := exec_left_of_protected hhandlers hprotected hready hline
    exact ⟨s', hs', .inr ⟨hup, hlt⟩⟩
  | handler h hflag hhandlers hfree hselected =>
    have hcpu : (cpu s).exec s = h.exec s [] := by
      unfold cpu
      rw [hflag, if_neg (by simp), hhandlers, if_neg (by simp)]
      simp only [Event.exec, hhandlers]
    have hleft : left s = h.left := by
      unfold left
      rw [hhandlers]
    rw [hcpu, hleft]
    exact exec_left_of_handler hfree hselected hline

theorem Inv.served [DecidableEq P] (hdown : down) {n : ℕ} :
    ∀ {s : State P}, Inv down s → s.cmos.line = true → left s ≤ n →
      ∃ m, m ≤ n ∧ ∃ s', serve s m = some s' ∧ Inv down s' ∧ AtFlag s' := by
  induction n with
  | zero =>
    intro s hinv hline hle
    exact absurd hle (by unfold left Call.left Handler.left; split <;> split <;> omega)
  | succ n ih =>
    intro s hinv hline hle
    obtain ⟨s₁, hstep, hserved⟩ := hinv.served_step hdown hline
    have hinv₁ : Inv down s₁ := (hinv.step (c := s.cmos) hstep).1
    rcases hserved with hdone | ⟨hline₁, hless⟩
    · exact ⟨1, by omega, s₁, by simp [serve, hstep], hinv₁, hdone⟩
    · obtain ⟨m, hm, s', hserve, hinv', hflag⟩ := ih hinv₁ hline₁ (by omega)
      exact ⟨m + 1, by omega, s', by simp [serve, hstep, hserve], hinv', hflag⟩

theorem serve_snoc [DecidableEq P] {n : ℕ} :
    ∀ {s s' : State P}, serve s n = some s' → serve s (n + 1) = (cpu s').exec s' := by
  induction n with
  | zero =>
    intro s s' h
    cases h
    simp [serve]
  | succ n ih =>
    intro s s' h
    obtain ⟨s₁, hs₁, hrest⟩ := Option.bind_eq_some_iff.mp h
    rw [serve, hs₁]
    exact ih hrest

/-- Interrupts are disabled in the handler, so its next statement sets the flag. -/
theorem Inv.cpu_atFlag [DecidableEq P] (hinv : Inv down s) (hat : AtFlag s) :
    ∃ s', (cpu s).exec s = some s' ∧ s'.rtcFlag = true := by
  have hflag : s.iflag = false := by
    cases hinv.context with
    | process _ hnil => cases hnil.symm.trans hat.2
    | driver hoff => exact hoff
    | handler _ hoff => exact hoff
  unfold cpu
  rw [hflag, if_neg (by simp), hat.2, if_neg (by simp)]
  simp only [Event.exec, hat.2, Handler.exec]
  exact ⟨_, rfl, rfl⟩

/-- The clock does not get stuck: in every reachable state in which it signals a tick, also one
between `cli` and `sti`, the processor comes to `rtc_flag = 1;` of a handler that has read this tick
from register C, within nine of its events, and the next one sets the flag. The line must have been
down when the machine was switched on. -/
theorem tick_served [DecidableEq P] (hdown : c.line = false)
    (h : Run.Reach (system (P := P) c) Run.Free s) (hline : s.cmos.line = true) :
    ∃ m, m ≤ 9 ∧ ∃ s' s'', serve s m = some s' ∧ AtFlag s' ∧ serve s (m + 1) = some s'' ∧
      s''.rtcFlag = true := by
  obtain ⟨m, hm, s', hserve, hinv, hat⟩ := (Reach.inv h).served hdown hline (left_le s)
  obtain ⟨s'', hcpu, hflag⟩ := hinv.cpu_atFlag hat
  exact ⟨m, hm, s', s'', hserve, hat, (serve_snoc hserve).trans hcpu, hflag⟩

/-- The tick comes while the process is between `cli` and `sti`. -/
theorem tick_served_write : ∃ s : State Bool, (system sampleCmos).run sampleStart sampleWrite = some s ∧
    s.iflag = false ∧ ∃ m, m ≤ 9 ∧ ∃ s' s'', serve s m = some s' ∧ AtFlag s' ∧
      serve s (m + 1) = some s'' ∧ s''.rtcFlag = true := by
  have hstart : Run.Reach (system sampleCmos) Run.Free sampleStart := .init sampleStart_booted
  have hreach : ∀ s, (system sampleCmos).run sampleStart sampleWrite = some s →
      Run.Reach (system sampleCmos) Run.Free s :=
    fun s hs => hstart.run ((system sampleCmos).allowed_free sampleWrite _) hs
  exact ⟨_, rfl, rfl, tick_served rfl (hreach _ rfl) (by decide)⟩

/-! ## Reads -/

/-- What an observer sees of the reads. -/
inductive ReadLabel (P : Type) where
  /-- a call of `rtc_read` has reset the flag -/
  | reset (p : P)
  | interrupt
  /-- a call of `rtc_read` returns -/
  | returned (p : P)

def readLabel (s : State P) : Event P → Option (ReadLabel P)
  | .step =>
    match s.handlers, s.calls s.current with
    | [], .clear => some (.reset s.current)
    | [], .spin => if s.rtcFlag then some (.returned s.current) else none
    | _, _ => none
  | .handler =>
    match s.handlers with
    | .setFlag :: _ => some .interrupt
    | _ => none
  | _ => none

/-- Whether an interrupt has been handled since the last reset of each process. -/
def awaken [DecidableEq P] (woken : P → Bool) : Option (ReadLabel P) → P → Bool
  | some (.reset p) => update woken p false
  | some .interrupt => fun _ => true
  | _ => woken

/-- When the flag is set, every process that waits for it has been woken. -/
def Awake (s : State P) (woken : P → Bool) : Prop :=
  s.rtcFlag = true → ∀ p, s.calls p = .spin → woken p = true

theorem Awake.of_calls {woken : P → Bool} (h : Awake s woken) (hflag : s'.rtcFlag = s.rtcFlag)
    (hcalls : ∀ p, s'.calls p = .spin → s.calls p = .spin) : Awake s' woken := by
  intro hset p hp
  exact h (hflag ▸ hset) p (hcalls p hp)

theorem spin_of_update [DecidableEq P] (hcall : call ≠ .spin) {p : P}
    (h : update s.calls s.current call p = .spin) : s.calls p = .spin := by
  rw [update_apply] at h
  split at h
  · exact absurd h hcall
  · exact h

/-- A statement of the driver. -/
theorem Awake.step_driver [DecidableEq P] {woken : P → Bool} (h : Awake s woken)
    (hhandlers : s.handlers = []) (hstep : (s.calls s.current).exec s = some s') :
    Awake s' (awaken woken (readLabel s .step)) := by
  unfold readLabel
  rw [hhandlers]
  cases hcall : s.calls s.current with
  | user =>
    rw [hcall] at hstep
    cases hstep
  | clear =>
    rw [hcall] at hstep
    cases hstep
    intro hset
    cases (hset : false = true)
  | spin =>
    rw [hcall, Call.exec, Option.some.injEq] at hstep
    subst hstep
    dsimp only
    split
    · exact h.of_calls rfl fun p hp => spin_of_update (by simp) hp
    · exact h
  | cli | indexRead | indexWrite | sti =>
    rw [hcall] at hstep
    cases hstep
    exact h.of_calls rfl fun p hp => spin_of_update (by simp) hp
  | dataRead =>
    rw [hcall] at hstep
    obtain ⟨r, -, rfl⟩ := Option.map_eq_some_iff.mp hstep
    exact h.of_calls rfl fun p hp => spin_of_update (by simp) hp
  | dataWrite =>
    rw [hcall] at hstep
    obtain ⟨c, -, rfl⟩ := Option.map_eq_some_iff.mp hstep
    exact h.of_calls rfl fun p hp => spin_of_update (by simp) hp

/-- One event. -/
theorem Awake.step [DecidableEq P] {woken : P → Bool} (h : Awake s woken)
    (hstep : (system c).step s e = some s') : Awake s' (awaken woken (readLabel s e)) := by
  cases e with
  | tick =>
    cases hstep
    exact h
  | interrupt =>
    simp only [system, Event.exec] at hstep
    split at hstep
    · cases hstep
      exact h
    · cases hstep
  | switch p =>
    simp only [system, Event.exec] at hstep
    split at hstep
    · cases hstep
      exact h
    · cases hstep
  | handler =>
    simp only [system, Event.exec] at hstep
    split at hstep
    · cases hstep
    · rename_i h' rest hhandlers
      cases h' with
      | setFlag =>
        have hlabel : readLabel s .handler = some .interrupt := by
          simp only [readLabel, hhandlers]
        rw [hlabel]
        exact fun _ _ _ => rfl
      | sendEoi | index | iret =>
        cases hstep
        simp only [readLabel, hhandlers]
        exact h
      | data =>
        obtain ⟨r, -, rfl⟩ := Option.map_eq_some_iff.mp hstep
        simp only [readLabel, hhandlers]
        exact h
  | write frequency =>
    simp only [system, Event.exec] at hstep
    split at hstep
    · split at hstep
      · cases hstep
        exact h
      · cases hstep
        exact h.of_calls rfl fun p hp => spin_of_update (by simp) hp
    · cases hstep
  | read =>
    simp only [system, Event.exec] at hstep
    split at hstep
    · cases hstep
      exact h.of_calls rfl fun p hp => spin_of_update (by simp) hp
    · cases hstep
  | step =>
    simp only [system, Event.exec] at hstep
    split at hstep
    · exact h.step_driver ‹_› hstep
    · cases hstep

/-- `rtc_read` returns only after an interrupt that was handled since its own reset of the flag,
although all processes share the flag. -/
theorem rtcRead_waits [DecidableEq P] {s₀ : State P} {es : List (Event P)} {p : P}
    (hboot : Booted c s₀) (hrun : (system c).run s₀ es = some s)
    (hreturn : readLabel s e = some (.returned p)) :
    ((system c).labels readLabel s₀ es).foldl awaken (fun _ => false) p = true := by
  have hstep : ∀ (s : State P) (e : Event P) (s' : State P) (woken : P → Bool), Awake s woken →
      Run.Free s e → (system c).step s e = some s' →
      ∃ woken', pure (awaken woken (readLabel s e)) = some woken' ∧ Awake s' woken' :=
    fun _ _ _ _ h _ hstep => ⟨_, rfl, h.step hstep⟩
  have hstart : Awake s₀ fun _ => false := by
    intro _ p hp
    rw [hboot.calls] at hp
    cases hp
  obtain ⟨woken, hwoken, hawake⟩ := @Run.System.simulates _ _ _ _ _ _ readLabel Awake
    (fun woken l => pure (awaken woken l)) hstep _ _ _ _ hstart ((system c).allowed_free es s₀) hrun
  rw [List.foldlM_pure] at hwoken
  cases hwoken
  cases e with
  | step =>
    unfold readLabel at hreturn
    dsimp only at hreturn
    split at hreturn
    · cases hreturn
    · split at hreturn
      · cases hreturn
        exact hawake ‹_› _ ‹_›
      · cases hreturn
    · cases hreturn
  | handler =>
    unfold readLabel at hreturn
    dsimp only at hreturn
    split at hreturn <;> cases hreturn
  | tick | interrupt | switch | write | read => cases hreturn

/-- A process reads, and the next tick lets it return. -/
def sampleRead : List (Event Bool) :=
  [.read, .step, .step, .tick, .interrupt] ++ List.replicate 5 .handler

theorem rtcRead_waits_tick : ∃ s, (system sampleCmos).run sampleStart sampleRead = some s ∧
    readLabel s .step = some (.returned false) ∧
    ((system sampleCmos).labels readLabel sampleStart sampleRead).foldl awaken (fun _ => false) false
      = true :=
  ⟨_, rfl, rfl, rtcRead_waits (e := .step) sampleStart_booted rfl rfl⟩

end Invariant

end Clock
end Interrupts
end GalapagOS
