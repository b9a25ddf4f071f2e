import Mathlib.Data.UInt
import Mathlib.Logic.Function.Basic

/-!
# A CMOS clock behind an index port and a data port

A register is selected through one port and then accessed through the other; after the access no
register counts as selected, and an access without a selection is an error (`none`). The clock signals
a periodic event by a flag in register C. Its interrupt line is up while the flag is set and periodic
interrupts are enabled in register B. Only a rising edge requests an interrupt, and only reading
register C takes the line down.
-/

namespace Cmos

open Function

def regA : UInt8 := 0x0a
def regB : UInt8 := 0x0b
def regC : UInt8 := 0x0c
def regD : UInt8 := 0x0d

/-- The flag of the periodic event in register C, and its enable bit in register B. -/
def periodic : UInt8 := 0x40

end Cmos

/-- The clock, and the request latched by the interrupt controller. -/
structure Cmos where
  selected : Option UInt8
  reg : UInt8 → UInt8
  request : Bool

namespace Cmos

open Function

variable {c : Cmos} {r v : UInt8}

theorem regA_ne_regC : regA ≠ regC := by decide

theorem regA_ne_regD : regA ≠ regD := by decide

/-- The interrupt line. -/
def line (c : Cmos) : Bool := c.reg regB &&& periodic ≠ 0 ∧ c.reg regC &&& periodic ≠ 0

/-- A register changes; a rising edge of the line is latched. -/
def store (c : Cmos) (r v : UInt8) : Cmos :=
  let c' := { c with reg := update c.reg r v }
  { c' with request := c.request || (!c.line && c'.line) }

/-- A periodic event. -/
def tick (c : Cmos) : Cmos := c.store regC (c.reg regC ||| periodic)

/-- Output to the index port; the highest bit is not part of the number. -/
def select (c : Cmos) (v : UInt8) : Cmos := { c with selected := some (v &&& 0x7f) }

/-- Input from the data port. Register C is cleared when it is read. -/
def readData (c : Cmos) : Option (Cmos × UInt8) :=
  c.selected.map fun r => ({ (if r = regC then c.store regC 0 else c) with selected := none }, c.reg r)

/-- Output to the data port. Registers C and D are read-only. -/
def writeData (c : Cmos) (v : UInt8) : Option Cmos :=
  c.selected.map fun r =>
    { (if r = regC ∨ r = regD then c else c.store r v) with selected := none }

theorem readData_of_ne (h : c.selected = some r) (hr : r ≠ regC) :
    c.readData = some ({ c with selected := none }, c.reg r) := by
  rw [readData, h, Option.map_some, if_neg hr]

theorem readData_regC (h : c.selected = some regC) :
    c.readData = some ({ c.store regC 0 with selected := none }, c.reg regC) := by
  rw [readData, h, Option.map_some, if_pos rfl]

theorem writeData_of_ne (h : c.selected = some r) (hC : r ≠ regC) (hD : r ≠ regD) :
    c.writeData v = some { c.store r v with selected := none } := by
  rw [writeData, h, Option.map_some, if_neg (not_or.mpr ⟨hC, hD⟩)]

@[simp] theorem reg_store : (c.store r v).reg = update c.reg r v := rfl

@[simp] theorem selected_store : (c.store r v).selected = c.selected := rfl

@[simp] theorem reg_select : (c.select v).reg = c.reg := rfl

@[simp] theorem line_select : (c.select v).line = c.line := rfl

@[simp] theorem request_select : (c.select v).request = c.request := rfl

@[simp] theorem reg_tick : c.tick.reg = update c.reg regC (c.reg regC ||| periodic) := rfl

@[simp] theorem selected_tick : c.tick.selected = c.selected := rfl

/-- When the line goes up, an interrupt is requested. -/
theorem request_store (h : (c.store r v).line = true) (hdown : c.line = false) :
    (c.store r v).request = true := by
  show (c.request || (!c.line && (c.store r v).line)) = true
  rw [hdown, h, Bool.not_false, Bool.and_self, Bool.or_true]

/-- A request stays until it is acknowledged. -/
theorem request_store_of_request (h : c.request = true) : (c.store r v).request = true := by
  show (c.request || _) = true
  rw [h, Bool.true_or]

/-- A request is not lost by a store, and made when the store takes the line up. -/
theorem requested_store (h : c.line = true → c.request = true) (hline : (c.store r v).line = true) :
    (c.store r v).request = true := by
  cases hdown : c.line with
  | false => exact request_store hline hdown
  | true => exact request_store_of_request (h hdown)

/-- The line is down after register C has been cleared. -/
theorem line_store_regC : (c.store regC 0).line = false := by
  have hflag : (0 : UInt8) &&& periodic = 0 := by decide
  simp [line, hflag]

/-- The line depends on registers B and C only. -/
theorem line_store_of_ne (hB : r ≠ regB) (hC : r ≠ regC) : (c.store r v).line = c.line := by
  simp only [line, reg_store, update_of_ne hB.symm, update_of_ne hC.symm]

end Cmos
