import Mathlib.Data.List.FinRange

/-!
# The 8259A interrupt controller

One chip has eight request lines with fixed priorities, line 0 first. It is set up by a sequence of
initialisation words and then takes masks and end-of-interrupt commands. `Pair` is the usual
cascade of two chips, where the output of the second is wired to a line of the first.

Only the fully nested mode with specific or plain end-of-interrupt commands is described; a command
word that rotates priorities or selects a register gives `none`.
-/

namespace I8259

/-! ## Single bits of a register -/

section Bits

/-- Bit `i` of a register. -/
def bit (r : BitVec 8) (i : Fin 8) : Bool := r.getLsbD i

/-- The register with bit `i` set. -/
def setBit (r : BitVec 8) (i : Fin 8) : BitVec 8 := r ||| BitVec.twoPow 8 i

/-- The register with bit `i` cleared. -/
def clearBit (r : BitVec 8) (i : Fin 8) : BitVec 8 := r &&& ~~~BitVec.twoPow 8 i

variable {r r' : BitVec 8} {i j : Fin 8}

@[simp] theorem bit_setBit : bit (setBit r i) j = (bit r j || decide (j = i)) := by
  simp [bit, setBit, Fin.ext_iff]

@[simp] theorem bit_clearBit : bit (clearBit r i) j = (bit r j && decide (j ≠ i)) := by
  simp [bit, clearBit, Fin.ext_iff]

@[simp] theorem bit_zero : bit 0#8 i = false := BitVec.getLsbD_zero

@[simp] theorem bit_allOnes : bit 0xff#8 i = true := by
  revert i
  decide

/-- Registers are compared bit by bit. -/
theorem eq_of_bit (h : ∀ i, bit r i = bit r' i) : r = r' :=
  BitVec.eq_of_getLsbD_eq fun i hi => h ⟨i, hi⟩

theorem eq_zero_iff : r = 0#8 ↔ ∀ i, bit r i = false := by
  constructor
  · rintro rfl i
    exact bit_zero
  · intro h
    apply eq_of_bit
    intro i
    rw [h i, bit_zero]

end Bits

/-! ## One chip -/

/-- What the chip takes the next byte at its second port for. -/
inductive Expects where
  | icw2
  | icw3
  | icw4
  | mask
deriving DecidableEq, Repr

structure Chip where
  expects : Expects
  /-- from the first initialisation word: no cascade, and a fourth word follows -/
  single : Bool
  wantsIcw4 : Bool
  /-- the vector of line 0 -/
  base : BitVec 8
  cascade : BitVec 8
  mode : BitVec 8
  /-- masked, requested and in-service lines -/
  imr : BitVec 8
  irr : BitVec 8
  isr : BitVec 8
deriving DecidableEq, Repr

namespace Chip

variable {c c' : Chip} {i j : Fin 8}

/-- The line in service with the highest priority. -/
def serving (c : Chip) : Option (Fin 8) := (List.finRange 8).find? fun i => bit c.isr i

/-- A byte at the first port: an initialisation word (bit 4), or an operation command. -/
def command (c : Chip) (v : BitVec 8) : Option Chip :=
  if v.getLsbD 4 then
    some { c with
      expects := .icw2, single := v.getLsbD 1, wantsIcw4 := v.getLsbD 0
      mode := 0#8, imr := 0#8, irr := 0#8, isr := 0#8 }
  else if v.getLsbD 3 then none
  else if v.extractLsb' 5 3 = 0b011#3 then
    some { c with isr := clearBit c.isr (v.extractLsb' 0 3).toFin }
  else if v.extractLsb' 5 3 = 0b001#3 then
    some (match c.serving with
      | none => c
      | some i => { c with isr := clearBit c.isr i })
  else none

/-- A byte at the second port: the next initialisation word, or a mask. -/
def data (c : Chip) (v : BitVec 8) : Chip :=
  let next : Expects := if c.wantsIcw4 then .icw4 else .mask
  match c.expects with
  | .icw2 => { c with base := v &&& 0xf8#8, expects := if c.single then next else .icw3 }
  | .icw3 => { c with cascade := v, expects := next }
  | .icw4 => { c with mode := v, expects := .mask }
  | .mask => { c with imr := v }

/-- A device pulls a line. -/
def request (c : Chip) (i : Fin 8) : Chip := { c with irr := setBit c.irr i }

/-- The line that asks for an interrupt: requested, not masked, and no line of the same or a higher
priority in service. -/
def pending (c : Chip) : Option (Fin 8) :=
  ((List.finRange 8).find? fun i =>
    bit c.isr i || bit c.irr i && !bit c.imr i).filter fun i => !bit c.isr i

/-- The processor acknowledges the interrupt; the line is in service. -/
def acknowledge (c : Chip) (i : Fin 8) : Chip :=
  { c with irr := clearBit c.irr i, isr := setBit c.isr i }

theorem pending_eq_some (h : c.pending = some i) :
    bit c.irr i = true ∧ bit c.imr i = false ∧ ∀ j ≤ i, bit c.isr j = false := by
  obtain ⟨hfind, hi⟩ := Option.filter_eq_some_iff.mp h
  obtain ⟨hbit, k, hk, hki, hbefore⟩ := List.find?_eq_some_iff_getElem.mp hfind
  have hisr : bit c.isr i = false := by simpa using hi
  have hreq : bit c.irr i = true ∧ bit c.imr i = false := by simpa [hisr] using hbit
  refine ⟨hreq.1, hreq.2, fun j hj => ?_⟩
  rcases hj.eq_or_lt with rfl | hlt
  · exact hisr
  · -- the lines of higher priority come first in the search
    have hk' : k = i.val := by
      have := congrArg Fin.val hki
      simpa using this
    have hjk : j.val < k := by
      rw [hk']
      exact hlt
    have hno := hbefore j.val hjk
    simp only [List.getElem_finRange, Fin.cast_mk, Fin.eta, Bool.not_or, Bool.and_eq_true,
      Bool.not_eq_true'] at hno
    exact hno.1

/-- With no line in service, a requested line that is not masked asks for an interrupt. -/
theorem exists_pending (hisr : c.isr = 0#8) (hirr : bit c.irr i = true)
    (himr : bit c.imr i = false) : ∃ j, c.pending = some j := by
  have hzero := eq_zero_iff.mp hisr
  obtain ⟨j, hj⟩ : ∃ j, (List.finRange 8).find? (fun i =>
      bit c.isr i || bit c.irr i && !bit c.imr i) = some j := by
    rw [← Option.isSome_iff_exists, List.find?_isSome]
    exact ⟨i, List.mem_finRange i, by simp [hirr, himr]⟩
  refine ⟨j, ?_⟩
  rw [pending, hj]
  simp [hzero j]

end Chip

/-! ## Two chips in cascade -/

structure Pair where
  master : Chip
  slave : Chip
deriving DecidableEq, Repr

/-- The sixteen lines. -/
inductive Line where
  | master (i : Fin 8)
  | slave (j : Fin 8)
deriving DecidableEq, Repr

namespace Pair

variable {p p' : Pair}

theorem two_lt_eight : 2 < 8 := by decide

/-- The line of the master that the slave is wired to. -/
def wire : Fin 8 := ⟨2, two_lt_eight⟩

/-- The master with the output of the slave on its line. -/
def wired (p : Pair) : Chip :=
  { p.master with
    irr := if p.slave.pending.isSome then setBit p.master.irr wire else clearBit p.master.irr wire }

/-- A device pulls a line; line `wire` of the master belongs to the slave. -/
def request (p : Pair) : Line → Pair
  | .master i => { p with master := p.master.request i }
  | .slave j => { p with slave := p.slave.request j }

/-- The acknowledge cycles of the processor: the vector it is given. If the line of the
master has a slave behind it, the slave is acknowledged as well and gives the vector. -/
def interrupt (p : Pair) : Option (Pair × BitVec 8) := do
  let i ← p.wired.pending
  let master := p.wired.acknowledge i
  if bit master.cascade i then
    let j ← p.slave.pending
    pure (⟨master, p.slave.acknowledge j⟩, p.slave.base + BitVec.ofNat 8 j)
  else pure (⟨master, p.slave⟩, master.base + BitVec.ofNat 8 i)

/-- The slave is wired where the master has been told to expect one. -/
def Cascaded (p : Pair) : Prop := ∀ i, bit p.master.cascade i = decide (i = wire)

/-- An interrupt comes from a line of the master, or from a line of the slave through the master's. -/
theorem interrupt_cases {v : BitVec 8} (hp : p.Cascaded) (h : p.interrupt = some (p', v)) :
    (∃ i, i ≠ wire ∧ bit p.master.irr i = true ∧ bit p.master.imr i = false ∧
      (∀ j ≤ i, bit p.master.isr j = false) ∧
      p' = ⟨p.wired.acknowledge i, p.slave⟩ ∧ v = p.master.base + BitVec.ofNat 8 i) ∨
    (∃ j, p.slave.pending = some j ∧ bit p.master.imr wire = false ∧
      (∀ j ≤ wire, bit p.master.isr j = false) ∧
      p' = ⟨p.wired.acknowledge wire, p.slave.acknowledge j⟩ ∧
      v = p.slave.base + BitVec.ofNat 8 j) := by
  obtain ⟨i, hi, h⟩ := Option.bind_eq_some_iff.mp h
  obtain ⟨hirr, himr, hisr⟩ := Chip.pending_eq_some hi
  have hcascade : bit (p.wired.acknowledge i).cascade i = decide (i = wire) := hp i
  dsimp only at h
  rw [hcascade] at h
  by_cases hw : i = wire
  · subst hw
    obtain ⟨j, hj, h⟩ := Option.bind_eq_some_iff.mp (by simpa using h)
    cases h
    exact .inr ⟨j, hj, himr, hisr, rfl, rfl⟩
  · simp only [hw, decide_false, Bool.false_eq_true, if_false] at h
    cases h
    refine .inl ⟨i, hw, ?_, himr, hisr, rfl, rfl⟩
    -- the wire to the slave is another bit
    simp only [wired] at hirr
    split at hirr
    · simpa [hw] using hirr
    · simpa [hw] using hirr

/-- A device pulls the line, and neither the line nor its way through the master is masked. -/
def Asks (p : Pair) : Line → Prop
  | .master i => i ≠ wire ∧ bit p.master.irr i = true ∧ bit p.master.imr i = false
  | .slave j => bit p.slave.irr j = true ∧ bit p.slave.imr j = false ∧ bit p.master.imr wire = false

/-- With nothing in service, a line that asks leads to an interrupt. -/
theorem exists_interrupt {l : Line} (hp : p.Cascaded) (hmaster : p.master.isr = 0#8)
    (hslave : p.slave.isr = 0#8) (hl : p.Asks l) : p.interrupt.isSome := by
  obtain ⟨i, hi⟩ : ∃ i, p.wired.pending = some i := by
    cases l with
    | master i =>
      refine Chip.exists_pending (i := i) hmaster ?_ hl.2.2
      simp only [wired]
      split <;> simp [hl.1, hl.2.1]
    | slave j =>
      obtain ⟨j', hj'⟩ := Chip.exists_pending hslave hl.1 hl.2.1
      refine Chip.exists_pending (i := wire) hmaster ?_ hl.2.2
      simp [wired, hj']
  have hcascade : bit (p.wired.acknowledge i).cascade i = decide (i = wire) := hp i
  simp only [interrupt, hi, Option.bind_eq_bind, Option.bind_some, hcascade]
  by_cases hw : i = wire
  · -- the wire is pulled by a line of the slave
    have hirr := (Chip.pending_eq_some hi).1
    have hpulled : p.slave.pending.isSome := by
      by_contra hnone
      simp [wired, hnone, hw] at hirr
    obtain ⟨j, hj⟩ := Option.isSome_iff_exists.mp hpulled
    simp [hw, hj]
  · simp [hw]

end Pair

end I8259
