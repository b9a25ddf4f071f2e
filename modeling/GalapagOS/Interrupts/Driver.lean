import GalapagOS.Lib.I8259
import GalapagOS.Lib.Run
import Mathlib.Data.Finset.Erase
import Mathlib.Data.Finset.Insert
import Mathlib.Data.Nat.Notation

/-!
# The interrupt controller driver (`i8259.c`)

The driver programs the two chips through their ports and keeps a copy of the two masks.
`i8259_init` works from any state the chips may be in, in the middle of another initialisation too; after
it the copies agree with the masks, and the lines that are not masked are those that the calls of
`enable_irq` and `disable_irq` leave enabled, whatever interrupts come in between.
-/

namespace GalapagOS
namespace Interrupts

open I8259

/-- The chips behind the ports, and `master_mask`, `slave_mask`. -/
structure Pic where
  pair : Pair
  masterMask : BitVec 8
  slaveMask : BitVec 8
deriving DecidableEq, Repr

def master8259Port : ℕ := 0x20
def slave8259Port : ℕ := 0xa0
def numIrqLines : ℕ := 8
def icw1 : BitVec 8 := 0x11#8
def icw2Master : BitVec 8 := 0x20#8
def icw2Slave : BitVec 8 := 0x28#8
def icw3Master : BitVec 8 := 0x04#8
def icw3Slave : BitVec 8 := 0x02#8
def icw4 : BitVec 8 := 0x01#8
def eoi : BitVec 8 := 0x60#8
def maskAll : BitVec 8 := 0xff#8
def slaveLine : BitVec 8 := 0x2#8

namespace Pic

/-- `outb(data, port)` -/
def outb (p : Pic) (data : BitVec 8) (port : ℕ) : Option Pic :=
  if port = 0x20 then
    (p.pair.master.command data).map fun c => { p with pair := { p.pair with master := c } }
  else if port = 0x21 then some { p with pair := { p.pair with master := p.pair.master.data data } }
  else if port = 0xa0 then
    (p.pair.slave.command data).map fun c => { p with pair := { p.pair with slave := c } }
  else if port = 0xa1 then some { p with pair := { p.pair with slave := p.pair.slave.data data } }
  else none

/-- `inb(port)`, for the ports that give the mask. -/
def inb (p : Pic) (port : ℕ) : Option (BitVec 8) :=
  if port = 0x21 then some p.pair.master.imr
  else if port = 0xa1 then some p.pair.slave.imr
  else none

/-- `i8259_init` -/
def i8259Init (p : Pic) : Option Pic := do
  let p := { p with masterMask := maskAll, slaveMask := maskAll }
  let p ← p.outb icw1 master8259Port
  let p ← p.outb icw1 slave8259Port
  let p ← p.outb icw2Master (master8259Port + 1)
  let p ← p.outb icw2Slave (slave8259Port + 1)
  let p ← p.outb icw3Master (master8259Port + 1)
  let p ← p.outb icw3Slave (slave8259Port + 1)
  let p ← p.outb icw4 (master8259Port + 1)
  let p ← p.outb icw4 (slave8259Port + 1)
  let p ← p.outb p.masterMask (master8259Port + 1)
  p.outb p.slaveMask (slave8259Port + 1)

/-- `enable_irq` -/
def enableIrq (p : Pic) (irqNum : ℕ) : Option Pic :=
  let adjustMask : BitVec 8 := 1#8 <<< (irqNum % numIrqLines)
  if irqNum < numIrqLines then do
    let p := { p with masterMask := p.masterMask &&& ~~~adjustMask }
    let data ← p.inb (master8259Port + 1)
    p.outb (data &&& ~~~adjustMask) (master8259Port + 1)
  else do
    let p := { p with slaveMask := p.slaveMask &&& ~~~adjustMask }
    let data ← p.inb (slave8259Port + 1)
    p.outb (data &&& ~~~adjustMask) (slave8259Port + 1)

/-- `disable_irq` -/
def disableIrq (p : Pic) (irqNum : ℕ) : Option Pic :=
  if irqNum < numIrqLines then do
    let mask : BitVec 8 := 1#8 <<< irqNum
    let p := { p with masterMask := p.masterMask ||| mask }
    let data ← p.inb (master8259Port + 1)
    p.outb (data ||| mask) (master8259Port + 1)
  else if irqNum < 2 * numIrqLines then do
    let mask : BitVec 8 := 1#8 <<< (irqNum - numIrqLines)
    let p := { p with slaveMask := p.slaveMask ||| mask }
    let data ← p.inb (slave8259Port + 1)
    p.outb (data ||| mask) (slave8259Port + 1)
  else pure p

/-- `send_eoi` -/
def sendEoi (p : Pic) (irqNum : ℕ) : Option Pic :=
  let line := BitVec.ofNat 8 (irqNum % numIrqLines)
  if numIrqLines ≤ irqNum then do
    let p ← p.outb (eoi ||| line) slave8259Port
    p.outb (eoi ||| slaveLine) master8259Port
  else p.outb (eoi ||| line) master8259Port

end Pic

/-! ## What the calls do -/

variable {p p' : Pic} {n : ℕ}

theorem mod_numIrqLines_lt (n : ℕ) : n % numIrqLines < 8 := Nat.mod_lt n (by decide)

/-- The line of a chip that a number stands for. -/
def index (n : ℕ) : Fin 8 := ⟨n % numIrqLines, mod_numIrqLines_lt n⟩

/-- The line that the driver takes `irq_num` for. -/
def line (n : ℕ) : Line := if n < numIrqLines then .master (index n) else .slave (index n)

/-- Both chips take masks and commands, and the masks are the driver's. -/
structure Ready (p : Pic) : Prop where
  master : p.pair.master.expects = .mask
  slave : p.pair.slave.expects = .mask
  masterBase : p.pair.master.base = 0x20#8
  slaveBase : p.pair.slave.base = 0x28#8
  cascaded : p.pair.Cascaded
  masterMask : p.masterMask = p.pair.master.imr
  slaveMask : p.slaveMask = p.pair.slave.imr

theorem i8259Init_spec (p : Pic) : ∃ p', p.i8259Init = some p' ∧ Ready p' ∧
    p'.pair.master.imr = 0xff#8 ∧ p'.pair.slave.imr = 0xff#8 ∧
    p'.pair.master.isr = 0#8 ∧ p'.pair.slave.isr = 0#8 := by
  refine ⟨_, rfl, ⟨rfl, rfl, rfl, rfl, ?_, rfl, rfl⟩, rfl, rfl, rfl, rfl⟩
  change ∀ i, bit icw3Master i = decide (i = Pair.wire)
  decide

/-- Both copies of the mask bit of a line are changed. -/
def Pic.remask (p : Pic) (op : BitVec 8 → Fin 8 → BitVec 8) : Line → Pic
  | .master i => { p with
      masterMask := op p.masterMask i
      pair := { p.pair with master := { p.pair.master with imr := op p.pair.master.imr i } } }
  | .slave j => { p with
      slaveMask := op p.slaveMask j
      pair := { p.pair with slave := { p.pair.slave with imr := op p.pair.slave.imr j } } }

/-- A line is no longer in service; a line of the slave has been in service on the wire as well. -/
def Pic.finish (p : Pic) : Line → Pic
  | .master i => { p with
      pair := { p.pair with master := { p.pair.master with isr := clearBit p.pair.master.isr i } } }
  | .slave j => { p with
      pair :=
        { master := { p.pair.master with isr := clearBit p.pair.master.isr Pair.wire }
          slave := { p.pair.slave with isr := clearBit p.pair.slave.isr j } } }

theorem shiftLeft_index (n : ℕ) : 1#8 <<< (n % numIrqLines) = BitVec.twoPow 8 (index n) := rfl

theorem line_of_lt (h : n < numIrqLines) : line n = .master (index n) := if_pos h

theorem line_of_le (h : numIrqLines ≤ n) : line n = .slave (index n) := if_neg (Nat.not_lt.mpr h)

/-- `enable_irq`, for any number: from 8 on it is a line of the slave. -/
theorem enableIrq_eq (h : Ready p) (n : ℕ) : p.enableIrq n = some (p.remask clearBit (line n)) := by
  have hmaster := h.master
  have hslave := h.slave
  unfold Pic.enableIrq
  split
  · rename_i hn
    rw [line_of_lt hn]
    simp [Pic.inb, Pic.outb, master8259Port, Chip.data, hmaster, Pic.remask, shiftLeft_index, clearBit]
  · rename_i hn
    rw [line_of_le (Nat.not_lt.mp hn)]
    simp [Pic.inb, Pic.outb, slave8259Port, Chip.data, hslave, Pic.remask, shiftLeft_index, clearBit]

/-- `disable_irq`: a number from 16 on is ignored. -/
theorem disableIrq_eq (h : Ready p) (n : ℕ) :
    p.disableIrq n = some (if n < 2 * numIrqLines then p.remask setBit (line n) else p) := by
  have hmaster := h.master
  have hslave := h.slave
  unfold Pic.disableIrq
  split
  · rename_i hn
    have hn' : n < 2 * numIrqLines := Nat.lt_of_lt_of_le hn (by decide)
    have hmask := shiftLeft_index n
    rw [Nat.mod_eq_of_lt hn] at hmask
    rw [line_of_lt hn, if_pos hn']
    simp [Pic.inb, Pic.outb, master8259Port, Chip.data, hmaster, Pic.remask, hmask, setBit]
  · rename_i hn
    rw [line_of_le (Nat.not_lt.mp hn)]
    split
    · rename_i hn'
      have hmask := shiftLeft_index n
      rw [show n % numIrqLines = n - numIrqLines by unfold numIrqLines at *; omega] at hmask
      simp [Pic.inb, Pic.outb, slave8259Port, Chip.data, hslave, Pic.remask, hmask, setBit]
    · rfl

/-- The specific end-of-interrupt command of a line. -/
theorem command_eoi (c : Chip) (n : ℕ) :
    c.command (eoi ||| BitVec.ofNat 8 (n % numIrqLines)) = some { c with isr := clearBit c.isr (index n) } := by
  have hword : ∀ m : Fin 8, ¬(eoi ||| BitVec.ofNat 8 m).getLsbD 4 = true ∧
      ¬(eoi ||| BitVec.ofNat 8 m).getLsbD 3 = true ∧
      (eoi ||| BitVec.ofNat 8 m).extractLsb' 5 3 = 0b011#3 ∧
      ((eoi ||| BitVec.ofNat 8 m).extractLsb' 0 3).toFin = m := by decide
  obtain ⟨h₄, h₃, hop, hline⟩ := hword (index n)
  change c.command (eoi ||| BitVec.ofNat 8 (index n)) = _
  rw [Chip.command, if_neg h₄, if_neg h₃, if_pos hop, hline]

/-- `send_eoi` -/
theorem sendEoi_eq (p : Pic) (n : ℕ) : p.sendEoi n = some (p.finish (line n)) := by
  have hwire : p.pair.master.command (eoi ||| slaveLine)
      = some { p.pair.master with isr := clearBit p.pair.master.isr Pair.wire } :=
    command_eoi p.pair.master 2
  unfold Pic.sendEoi
  split
  · rename_i hn
    rw [line_of_le hn]
    simp [Pic.outb, slave8259Port, master8259Port, command_eoi, hwire, Pic.finish]
  · rename_i hn
    rw [line_of_lt (Nat.not_le.mp hn)]
    simp [Pic.outb, master8259Port, command_eoi, Pic.finish]

theorem Ready.remask (h : Ready p) (op : BitVec 8 → Fin 8 → BitVec 8) (l : Line) :
    Ready (p.remask op l) := by
  cases l with
  | master i =>
    exact ⟨h.master, h.slave, h.masterBase, h.slaveBase, h.cascaded,
      congrArg (op · i) h.masterMask, h.slaveMask⟩
  | slave j =>
    exact ⟨h.master, h.slave, h.masterBase, h.slaveBase, h.cascaded, h.masterMask,
      congrArg (op · j) h.slaveMask⟩

/-- The setup does not depend on the requested and the in-service lines. -/
theorem Ready.congr (h : Ready p) {q : Pair} {m m' s s' : BitVec 8}
    (hq : q = ⟨{ p.pair.master with irr := m, isr := m' }, { p.pair.slave with irr := s, isr := s' }⟩) :
    Ready { p with pair := q } := by
  subst hq
  exact ⟨h.master, h.slave, h.masterBase, h.slaveBase, h.cascaded, h.masterMask, h.slaveMask⟩

theorem Ready.finish (h : Ready p) (l : Line) : Ready (p.finish l) := by
  cases l with
  | master i => exact h.congr rfl
  | slave j => exact h.congr rfl

theorem Ready.request (h : Ready p) (l : Line) : Ready { p with pair := p.pair.request l } := by
  cases l with
  | master i => exact h.congr rfl
  | slave j => exact h.congr rfl

/-! ## Runs -/

/-- Calls of the driver, devices that pull a line, and interrupts that the processor takes. -/
inductive PicEvent where
  | enableIrq (irqNum : ℕ)
  | disableIrq (irqNum : ℕ)
  | sendEoi (irqNum : ℕ)
  | request (l : Line)
  | interrupt
deriving DecidableEq, Repr

/-- The chips after the acknowledge cycles, if a line asks for an interrupt. -/
def Pic.acknowledge (p : Pic) : Pic :=
  match p.pair.interrupt with
  | none => p
  | some r => { p with pair := r.1 }

def PicEvent.exec (p : Pic) : PicEvent → Option Pic
  | .enableIrq n => p.enableIrq n
  | .disableIrq n => p.disableIrq n
  | .sendEoi n => p.sendEoi n
  | .request l => some { p with pair := p.pair.request l }
  | .interrupt => some p.acknowledge

/-- The driver after its initialisation, on chips in any state. -/
def picSystem : Run.System Pic PicEvent where
  init p := ∃ p₀ : Pic, p₀.i8259Init = some p
  step p e := e.exec p

theorem Ready.acknowledge (h : Ready p) : Ready p.acknowledge := by
  unfold Pic.acknowledge
  cases hint : p.pair.interrupt with
  | none => exact h
  | some r =>
    rcases Pair.interrupt_cases h.cascaded hint with ⟨i, -, -, -, -, hr, -⟩ | ⟨j, -, -, -, hr, -⟩
    · exact h.congr hr
    · exact h.congr hr

/-- What the calls are for: a set of enabled lines. A number above 15 enables a line of the
slave, but disables none. -/
def enabledAfter (s : Finset Line) : PicEvent → Finset Line
  | .enableIrq n => insert (line n) s
  | .disableIrq n => if n < 2 * numIrqLines then s.erase (line n) else s
  | _ => s

/-- The mask bit of a line. -/
def Pic.masked (p : Pic) : Line → Bool
  | .master i => bit p.pair.master.imr i
  | .slave j => bit p.pair.slave.imr j

theorem masked_remask_clearBit (p : Pic) (l l' : Line) :
    (p.remask clearBit l).masked l' = (p.masked l' && decide (l' ≠ l)) := by
  cases l <;> cases l' <;> simp [Pic.remask, Pic.masked]

theorem masked_remask_setBit (p : Pic) (l l' : Line) :
    (p.remask setBit l).masked l' = (p.masked l' || decide (l' = l)) := by
  cases l <;> cases l' <;> simp [Pic.remask, Pic.masked]

theorem masked_finish (p : Pic) (l l' : Line) : (p.finish l).masked l' = p.masked l' := by
  cases l <;> cases l' <;> rfl

theorem masked_request (p : Pic) (l l' : Line) :
    Pic.masked { p with pair := p.pair.request l } l' = p.masked l' := by
  cases l <;> cases l' <;> rfl

theorem masked_acknowledge (h : Ready p) (l : Line) : p.acknowledge.masked l = p.masked l := by
  unfold Pic.acknowledge
  cases hint : p.pair.interrupt with
  | none => rfl
  | some r =>
    rcases Pair.interrupt_cases h.cascaded hint with ⟨i, -, -, -, -, hr, -⟩ | ⟨j, -, -, -, hr, -⟩
    · cases l <;> simp [Pic.masked, hr, Chip.acknowledge, Pair.wired]
    · cases l <;> simp [Pic.masked, hr, Chip.acknowledge, Pair.wired]

/-- Every event goes through, keeps the setup, and changes the masked lines as it should. -/
theorem Ready.exec {s : Finset Line} (h : Ready p) (hs : ∀ l, p.masked l = false ↔ l ∈ s) (e : PicEvent) :
    ∃ p', e.exec p = some p' ∧ Ready p' ∧ ∀ l, p'.masked l = false ↔ l ∈ enabledAfter s e := by
  cases e with
  | enableIrq n =>
    refine ⟨_, enableIrq_eq h n, h.remask _ _, fun l => ?_⟩
    rw [masked_remask_clearBit, enabledAfter, Finset.mem_insert, ← hs l]
    by_cases hl : l = line n <;> simp [hl]
  | disableIrq n =>
    refine ⟨_, disableIrq_eq h n, ?_, fun l => ?_⟩
    · split
      · exact h.remask _ _
      · exact h
    · simp only [enabledAfter]
      split
      · rw [masked_remask_setBit, Finset.mem_erase, ← hs l]
        by_cases hl : l = line n <;> simp [hl]
      · exact hs l
  | sendEoi n =>
    refine ⟨_, sendEoi_eq p n, h.finish _, fun l => ?_⟩
    rw [masked_finish]
    exact hs l
  | request l' =>
    refine ⟨_, rfl, h.request l', fun l => ?_⟩
    rw [masked_request]
    exact hs l
  | interrupt =>
    refine ⟨_, rfl, h.acknowledge, fun l => ?_⟩
    rw [masked_acknowledge h]
    exact hs l

theorem Ready.run {es : List PicEvent} : ∀ {p : Pic} {s : Finset Line}, Ready p →
    (∀ l, p.masked l = false ↔ l ∈ s) → ∃ p', picSystem.run p es = some p' ∧ Ready p' ∧
      ∀ l, p'.masked l = false ↔ l ∈ es.foldl enabledAfter s := by
  induction es with
  | nil =>
    intro p s h hs
    exact ⟨p, rfl, h, hs⟩
  | cons e es ih =>
    intro p s h hs
    obtain ⟨p₁, he, h₁, hs₁⟩ := h.exec hs e
    obtain ⟨p₂, hrun, h₂, hs₂⟩ := ih h₁ hs₁
    refine ⟨p₂, ?_, h₂, hs₂⟩
    rw [Run.System.run, show picSystem.step p e = some p₁ from he, Option.bind_some, hrun]

/-- From any state of the two chips `i8259_init` succeeds, and so does every later call. The driver's
masks stay those of the chips, and the lines that are not masked are exactly those that were
enabled last, however devices, interrupts and their ends come in between. -/
theorem enabled_lines (p₀ : Pic) (es : List PicEvent) :
    ∃ p p', p₀.i8259Init = some p ∧ picSystem.run p es = some p' ∧
      p'.masterMask = p'.pair.master.imr ∧ p'.slaveMask = p'.pair.slave.imr ∧
      (p'.pair.master.base = 0x20#8 ∧ p'.pair.slave.base = 0x28#8 ∧ p'.pair.Cascaded) ∧
      ∀ l, p'.masked l = false ↔ l ∈ es.foldl enabledAfter ∅ := by
  obtain ⟨p, hp, hready, hmaster, hslave, -, -⟩ := i8259Init_spec p₀
  have hnone : ∀ l, p.masked l = false ↔ l ∈ (∅ : Finset Line) := by
    intro l
    cases l <;> simp [Pic.masked, hmaster, hslave]
  obtain ⟨p', hrun, hready', hlines⟩ := hready.run hnone
  exact ⟨p, p', hp, hrun, hready'.masterMask, hready'.slaveMask,
    ⟨hready'.masterBase, hready'.slaveBase, hready'.cascaded⟩, hlines⟩

end Interrupts
end GalapagOS
