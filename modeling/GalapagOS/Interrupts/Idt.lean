import Mathlib.Data.Nat.Notation
import Mathlib.Logic.Function.Defs

/-!
# The interrupt descriptor table (`kernel.c`, `x86_desc.h`)

`entry` fills one descriptor again and again with `SET_IDT_ENTRY` and stores it in the table: trap
gates for the exceptions, interrupt gates for the three devices and a trap gate open to user
programs for the system calls. The other entries stay zero.
-/

namespace GalapagOS
namespace Interrupts

/-- The entry points of `assembly_linkage.S` that are stored in the table. -/
inductive Linkage where
  | divideByZeroLinkage
  | debuggerLinkage
  | nmiLinkage
  | breakpointLinkage
  | overflowLinkage
  | boundsLinkage
  | invalidOpcodeLinkage
  | coprocessorLinkage
  | doubleFaultLinkage
  | coprocessorSegmentLinkage
  | invalidTssLinkage
  | segmentNotPresentLinkage
  | stackSegmentFaultLinkage
  | generalProtectionFaultLinkage
  | pageFaultLinkage
  | floatingPointLinkage
  | alignmentCheckLinkage
  | machineCheckLinkage
  | pitIntLinkage
  | keyboardIntLinkage
  | rtcIntLinkage
  | systemCallLinkage
deriving DecidableEq, Repr

/-- Where the linker has put the entry points. -/
structure Code where
  address : Linkage → BitVec 32
  injective : Function.Injective address

/-- `idt_desc_t` -/
structure IdtDesc where
  offset1500 : BitVec 16
  segSelector : BitVec 16
  reserved4 : BitVec 8
  reserved3 : Bool
  reserved2 : Bool
  reserved1 : Bool
  size : Bool
  reserved0 : Bool
  dpl : BitVec 2
  present : Bool
  offset3116 : BitVec 16
deriving DecidableEq, Repr

namespace IdtDesc

/-- A table entry that was never stored. -/
def zero : IdtDesc := ⟨0#16, 0#16, 0#8, false, false, false, false, false, 0#2, false, 0#16⟩

/-- `SET_IDT_ENTRY(str, handler)` -/
def setIdtEntry (str : IdtDesc) (handler : BitVec 32) : IdtDesc :=
  { str with
    offset3116 := ((handler &&& 0xffff0000#32) >>> 16).setWidth 16
    offset1500 := (handler &&& 0xffff#32).setWidth 16 }

/-- The address at which the processor enters the handler. -/
def entryPoint (d : IdtDesc) : BitVec 32 := d.offset3116 ++ d.offset1500

/-- The bits between the privilege level and the reserved byte are those of a 32-bit gate. -/
def isGate (d : IdtDesc) : Bool := !d.reserved0 && d.size && d.reserved1 && d.reserved2

theorem entryPoint_setIdtEntry (d : IdtDesc) (handler : BitVec 32) :
    (d.setIdtEntry handler).entryPoint = handler := by
  apply BitVec.eq_of_getLsbD_eq
  intro i hi
  have hlow : ∀ i < 32, (0xffff#32).getLsbD i = decide (i < 16) := by decide
  have hhigh : ∀ i < 32, (0xffff0000#32).getLsbD i = decide (16 ≤ i) := by decide
  simp only [entryPoint, setIdtEntry, BitVec.getLsbD_append, BitVec.getLsbD_setWidth,
    BitVec.getLsbD_ushiftRight, BitVec.getLsbD_and]
  by_cases h : i < 16
  · simp [h, hlow i hi]
  · have hsum : 16 + (i - 16) = i := by omega
    rw [hsum, hhigh i hi]
    simp only [h, decide_false]
    simp [show i - 16 < 16 by omega, show 16 ≤ i by omega]

end IdtDesc

/-! ## The table -/

/-- `the_idt_desc` as it is set up first. -/
def theIdtDesc : IdtDesc :=
  { IdtDesc.zero with
    segSelector := 0x0010#16, reserved4 := 0#8, reserved3 := true, reserved2 := true
    reserved1 := true, size := true, reserved0 := false, dpl := 0#2, present := true }

/-- What is stored: the vector, `reserved3`, `dpl` and the handler. -/
def stores : List (ℕ × Bool × BitVec 2 × Linkage) :=
  [(0, true, 0#2, .divideByZeroLinkage), (1, true, 0#2, .debuggerLinkage), (2, true, 0#2, .nmiLinkage),
    (3, true, 0#2, .breakpointLinkage), (4, true, 0#2, .overflowLinkage), (5, true, 0#2, .boundsLinkage),
    (6, true, 0#2, .invalidOpcodeLinkage), (7, true, 0#2, .coprocessorLinkage),
    (8, true, 0#2, .doubleFaultLinkage), (9, true, 0#2, .coprocessorSegmentLinkage),
    (10, true, 0#2, .invalidTssLinkage), (11, true, 0#2, .segmentNotPresentLinkage),
    (12, true, 0#2, .stackSegmentFaultLinkage), (13, true, 0#2, .generalProtectionFaultLinkage),
    (14, true, 0#2, .pageFaultLinkage), (15, true, 0#2, .floatingPointLinkage),
    (16, true, 0#2, .alignmentCheckLinkage), (17, true, 0#2, .machineCheckLinkage),
    (32, false, 0#2, .pitIntLinkage), (33, false, 0#2, .keyboardIntLinkage),
    (40, false, 0#2, .rtcIntLinkage), (128, true, 3#2, .systemCallLinkage)]

/-- `idt` after the stores of `entry`; no vector is stored twice. -/
def idt (code : Code) (vector : ℕ) : IdtDesc :=
  match stores.find? fun e => e.1 = vector with
  | none => .zero
  | some (_, reserved3, dpl, linkage) =>
    IdtDesc.setIdtEntry { theIdtDesc with reserved3 := reserved3, dpl := dpl } (code.address linkage)

variable {code : Code}

/-- Where an entry was stored, the gate is present and leads to its handler. -/
theorem idt_of_find (code : Code) {vector : ℕ} {trap : Bool} {dpl : BitVec 2} {l : Linkage}
    (h : (stores.find? fun e => e.1 = vector) = some (vector, trap, dpl, l)) :
    (idt code vector).present = true ∧ (idt code vector).isGate = true ∧
      (idt code vector).reserved3 = trap ∧ (idt code vector).dpl = dpl ∧
      (idt code vector).entryPoint = code.address l := by
  have hidt : idt code vector = IdtDesc.setIdtEntry { theIdtDesc with reserved3 := trap, dpl := dpl }
      (code.address l) := by
    rw [idt, h]
  rw [hidt]
  exact ⟨rfl, rfl, rfl, rfl, IdtDesc.entryPoint_setIdtEntry _ _⟩

end Interrupts
end GalapagOS
