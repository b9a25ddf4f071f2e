import GalapagOS.LibC
import Mathlib.Algebra.Group.Nat.Defs
import Mathlib.Logic.Function.Iterate

/-!
# The instructions of `memcpy` (`lib.c`)

The inline assembly of `memcpy`, one instruction at a time, on a processor with the registers it
uses. `memcpy` of `LibC` lists the accesses that the routine makes; here the routine is run, and
it makes exactly these (`Stands.top`), whatever the alignment of its arguments. Registers
are 32 bits wide; memory is flat, and an access stays below `2 ^ 32`.
-/

namespace GalapagOS
namespace MemcpyAsm

open Memory

/-! ## The processor -/

inductive Reg where
  | esi
  | edi
  | ecx
  | edx
deriving DecidableEq, Repr

inductive Operand where
  | imm (w : BitVec 32)
  | reg (r : Reg)
deriving DecidableEq, Repr

inductive Label where
  | memcpyTop
  | memcpyAligned
  | memcpyBottom
  | memcpyDone
deriving DecidableEq, Repr

inductive Instr where
  | testl (a : Operand) (r : Reg)
  | jz (l : Label)
  | jmp (l : Label)
  /-- `movb (%esi), %al` -/
  | loadAl
  /-- `movb %al, (%edi)` -/
  | storeAl
  | addl (a : Operand) (r : Reg)
  | subl (a : Operand) (r : Reg)
  | movl (a : Operand) (r : Reg)
  | shrl (k : ℕ) (r : Reg)
  | andl (a : Operand) (r : Reg)
  /-- `movw %ds, %dx` -/
  | movDsDx
  /-- `movw %dx, %es` -/
  | movDxEs
  | cld
  | repMovsl
deriving DecidableEq, Repr

structure Cpu where
  eip : ℕ
  esi : BitVec 32
  edi : BitVec 32
  ecx : BitVec 32
  edx : BitVec 32
  al : UInt8
  ds : BitVec 16
  es : BitVec 16
  zf : Bool
  df : Bool
  mem : ℕ → UInt8

namespace Cpu

def get (c : Cpu) : Reg → BitVec 32
  | .esi => c.esi
  | .edi => c.edi
  | .ecx => c.ecx
  | .edx => c.edx

def set (c : Cpu) (w : BitVec 32) : Reg → Cpu
  | .esi => { c with esi := w }
  | .edi => { c with edi := w }
  | .ecx => { c with ecx := w }
  | .edx => { c with edx := w }

def eval (c : Cpu) : Operand → BitVec 32
  | .imm w => w
  | .reg r => c.get r

/-- A result that sets the zero flag. -/
def setZ (c : Cpu) (w : BitVec 32) (r : Reg) : Cpu := { c.set w r with zf := decide (w = 0) }

/-- `movsl`, `k` times. -/
def movsl : ℕ → Cpu → Cpu
  | 0, c => c
  | k + 1, c =>
    let stride : BitVec 32 := if c.df then -4 else 4
    movsl k
      { c with
        mem := (Op.move c.edi.toNat c.esi.toNat 4).apply c.mem
        esi := c.esi + stride
        edi := c.edi + stride }

end Cpu

/-! ## The routine -/

/-- The assembly of `memcpy`. -/
def code : List Instr :=
  [ -- .memcpy_top
    .testl (.reg .ecx) .ecx, .jz .memcpyDone, .testl (.imm 3) .edi, .jz .memcpyAligned,
    .loadAl, .storeAl, .addl (.imm 1) .edi, .addl (.imm 1) .esi, .subl (.imm 1) .ecx,
    .jmp .memcpyTop,
    -- .memcpy_aligned
    .movDsDx, .movDxEs, .movl (.reg .ecx) .edx, .shrl 2 .ecx, .andl (.imm 3) .edx, .cld,
    .repMovsl,
    -- .memcpy_bottom
    .testl (.reg .edx) .edx, .jz .memcpyDone,
    .loadAl, .storeAl, .addl (.imm 1) .edi, .addl (.imm 1) .esi, .subl (.imm 1) .edx,
    .jmp .memcpyBottom]

/-- The index of the instruction after a label. -/
def Label.index : Label → ℕ
  | .memcpyTop => 0
  | .memcpyAligned => 10
  | .memcpyBottom => 17
  | .memcpyDone => 25

/-- An instruction, with `eip` already behind it. -/
def Instr.exec (c : Cpu) : Instr → Cpu
  | .testl a r => { c with zf := decide (c.get r &&& c.eval a = 0) }
  | .jz l => if c.zf then { c with eip := l.index } else c
  | .jmp l => { c with eip := l.index }
  | .loadAl => { c with al := c.mem c.esi.toNat }
  | .storeAl => { c with mem := Function.update c.mem c.edi.toNat c.al }
  | .addl a r => c.setZ (c.get r + c.eval a) r
  | .subl a r => c.setZ (c.get r - c.eval a) r
  | .movl a r => c.set (c.eval a) r
  | .shrl k r => c.setZ (c.get r >>> k) r
  | .andl a r => c.setZ (c.get r &&& c.eval a) r
  | .movDsDx => { c with edx := c.edx.extractLsb' 16 16 ++ c.ds }
  | .movDxEs => { c with es := c.edx.setWidth 16 }
  | .cld => { c with df := false }
  | .repMovsl => { c.movsl c.ecx.toNat with ecx := 0 }

/-- One instruction; nothing happens at `.memcpy_done`. -/
def Cpu.step (c : Cpu) : Cpu :=
  match code[c.eip]? with
  | none => c
  | some i => i.exec { c with eip := c.eip + 1 }

/-- The operands `"S"(src), "D"(dest), "c"(n)` of the routine; the other registers are arbitrary. -/
def Cpu.memcpy (c : Cpu) (dest src n : BitVec 32) : Cpu :=
  { c with eip := Label.memcpyTop.index, esi := src, edi := dest, ecx := n }

/-- Some number of instructions leads from one state to another. -/
def Reaches (c c' : Cpu) : Prop := ∃ k, Cpu.step^[k] c = c'

theorem Reaches.trans {c₁ c₂ c₃ : Cpu} (h₁ : Reaches c₁ c₂) (h₂ : Reaches c₂ c₃) :
    Reaches c₁ c₃ := by
  obtain ⟨k₁, rfl⟩ := h₁
  obtain ⟨k₂, rfl⟩ := h₂
  exact ⟨k₂ + k₁, Function.iterate_add_apply _ _ _ _⟩

/-- The routine comes to `.memcpy_done` with the memory `m`. -/
def Ends (c : Cpu) (m : ℕ → UInt8) : Prop :=
  ∃ c', Reaches c c' ∧ c'.eip = Label.memcpyDone.index ∧ c'.mem = m

theorem Reaches.ends {c c' : Cpu} {m : ℕ → UInt8} (h : Reaches c c') (he : Ends c' m) : Ends c m := by
  obtain ⟨c'', hc'', heip, hmem⟩ := he
  exact ⟨c'', h.trans hc'', heip, hmem⟩

/-! ## The blocks between the labels -/

/-- The routine stands before instruction `i` with the memory `m` and has come to the bytes `d`
and `s`, which are counted without wrapping around. -/
structure Stands (c : Cpu) (i d s : ℕ) (m : ℕ → UInt8) : Prop where
  eip : c.eip = i
  edi : c.edi = .ofNat 32 d
  esi : c.esi = .ofNat 32 s
  mem : c.mem = m

theorem Cpu.get_eip (c : Cpu) (i : ℕ) (r : Reg) : ({ c with eip := i } : Cpu).get r = c.get r := by
  cases r <;> rfl

theorem Cpu.eval_eip (c : Cpu) (i : ℕ) (a : Operand) :
    ({ c with eip := i } : Cpu).eval a = c.eval a := by
  cases a with
  | imm w => rfl
  | reg r => exact get_eip c i r

/-- `testl` and `jz` together. -/
theorem Cpu.test_jump {c : Cpu} {a : Operand} {r : Reg} {l : Label}
    (htest : code[c.eip]? = some (.testl a r)) (hjump : code[c.eip + 1]? = some (.jz l)) :
    c.step.step =
      { c with
        eip := if c.get r &&& c.eval a = 0 then l.index else c.eip + 2
        zf := decide (c.get r &&& c.eval a = 0) } := by
  have hfirst : c.step = { c with eip := c.eip + 1, zf := decide (c.get r &&& c.eval a = 0) } := by
    rw [step, htest]
    simp only [Instr.exec, get_eip, eval_eip]
  rw [hfirst, step]
  simp only [hjump, Instr.exec]
  by_cases hz : c.get r &&& c.eval a = 0
  · simp only [hz, decide_true, if_true]
  · simp only [hz, decide_false, if_false, Bool.false_eq_true]

section

variable {c : Cpu} {i d s n : ℕ} {m : ℕ → UInt8}

theorem Stands.test_jump {a : Operand} {r : Reg} {l : Label} (h : Stands c i d s m)
    (htest : code[i]? = some (.testl a r)) (hjump : code[i + 1]? = some (.jz l)) :
    ∃ c', Reaches c c' ∧
      Stands c' (if c.get r &&& c.eval a = 0 then l.index else i + 2) d s m ∧
      c'.ecx = c.ecx ∧ c'.edx = c.edx := by
  obtain ⟨rfl, hedi, hesi, hmem⟩ := h
  exact ⟨_, ⟨2, Cpu.test_jump htest hjump⟩, ⟨rfl, hedi, hesi, hmem⟩, rfl, rfl⟩

theorem ofNat_eq_zero (h : n < 2 ^ 32) : BitVec.ofNat 32 n = 0 ↔ n = 0 := by
  rw [← BitVec.toNat_inj, BitVec.toNat_ofNat, Nat.mod_eq_of_lt h]
  rfl

/-- The start of both loops: `.memcpy_done` follows when nothing is left. -/
theorem Stands.loop_test {r : Reg} (h : Stands c i d s m)
    (htest : code[i]? = some (.testl (.reg r) r)) (hjump : code[i + 1]? = some (.jz .memcpyDone))
    (hn : c.get r = .ofNat 32 n) (hlt : n < 2 ^ 32) :
    ∃ c', Reaches c c' ∧ Stands c' (if n = 0 then 25 else i + 2) d s m ∧
      c'.ecx = c.ecx ∧ c'.edx = c.edx := by
  have hzero : c.get r &&& c.eval (.reg r) = 0 ↔ n = 0 := by
    rw [show c.eval (.reg r) = c.get r from rfl, BitVec.and_self, hn, ofNat_eq_zero hlt]
  have hrun := h.test_jump htest hjump
  simp only [hzero] at hrun
  exact hrun

/-- `testl $0x3, %edi` tells whether the destination is aligned. -/
theorem Stands.align_test (h : Stands c 2 d s m) (hd : d < 2 ^ 32) :
    ∃ c', Reaches c c' ∧ Stands c' (if d % 4 = 0 then 10 else 4) d s m ∧ c'.ecx = c.ecx := by
  have hmask : c.get .edi &&& c.eval (.imm 3) = 0 ↔ d % 4 = 0 := by
    rw [show c.get .edi = .ofNat 32 d from h.edi, ← BitVec.toNat_inj, BitVec.toNat_and,
      BitVec.toNat_ofNat, Nat.mod_eq_of_lt hd]
    show d &&& (2 ^ 2 - 1) = 0 ↔ _
    rw [Nat.and_two_pow_sub_one_eq_mod]
  obtain ⟨c', hrun, hstands, hecx, -⟩ := h.test_jump rfl rfl
  simp only [hmask] at hstands
  exact ⟨c', hrun, hstands, hecx⟩

/-- The next bytes, as the instructions address them. -/
theorem Stands.move (h : Stands c i d s m) (hd : d < 2 ^ 32) (hs : s < 2 ^ 32) (w : ℕ) :
    (Op.move c.edi.toNat c.esi.toNat w).apply c.mem = (Op.move d s w).apply m := by
  rw [h.edi, h.esi, h.mem, BitVec.toNat_ofNat, BitVec.toNat_ofNat, Nat.mod_eq_of_lt hd,
    Nat.mod_eq_of_lt hs]

/-- The pointers of `c'` are `w` bytes behind those of `c`, and these bytes have been moved. -/
theorem Stands.advance {j w : ℕ} (h : Stands c i d s m) (hd : d < 2 ^ 32) (hs : s < 2 ^ 32)
    (c' : Cpu) (heip : c'.eip = j) (hedi : c'.edi = c.edi + .ofNat 32 w)
    (hesi : c'.esi = c.esi + .ofNat 32 w)
    (hmem : c'.mem = (Op.move c.edi.toNat c.esi.toNat w).apply c.mem) :
    Stands c' j (d + w) (s + w) ((Op.move d s w).apply m) where
  eip := heip
  edi := by rw [hedi, h.edi, BitVec.ofNat_add]
  esi := by rw [hesi, h.esi, BitVec.ofNat_add]
  mem := hmem.trans (h.move hd hs w)

theorem ofNat_succ_sub_one (n : ℕ) : BitVec.ofNat 32 (n + 1) - 1 = BitVec.ofNat 32 n := by
  rw [BitVec.ofNat_add]
  exact BitVec.add_sub_cancel _ _

/-- The body of the loop `.memcpy_top`. -/
theorem Stands.top_byte (h : Stands c 4 d s m) (hd : d < 2 ^ 32) (hs : s < 2 ^ 32)
    (hn : c.ecx = .ofNat 32 (n + 1)) :
    ∃ c', Reaches c c' ∧ Stands c' 0 (d + 1) (s + 1) ((Op.move d s 1).apply m) ∧
      c'.ecx = .ofNat 32 n := by
  have hecx : c.ecx - 1 = .ofNat 32 n := by rw [hn, ofNat_succ_sub_one]
  have hadvance := fun c' => h.advance (j := 0) (w := 1) hd hs c'
  obtain ⟨⟩ := c
  obtain rfl := h.eip
  exact ⟨_, ⟨6, rfl⟩, hadvance _ rfl rfl rfl rfl, hecx⟩

/-- The body of the loop `.memcpy_bottom`. -/
theorem Stands.bottom_byte (h : Stands c 19 d s m) (hd : d < 2 ^ 32) (hs : s < 2 ^ 32)
    (hn : c.edx = .ofNat 32 (n + 1)) :
    ∃ c', Reaches c c' ∧ Stands c' 17 (d + 1) (s + 1) ((Op.move d s 1).apply m) ∧
      c'.edx = .ofNat 32 n := by
  have hedx : c.edx - 1 = .ofNat 32 n := by rw [hn, ofNat_succ_sub_one]
  have hadvance := fun c' => h.advance (j := 17) (w := 1) hd hs c'
  obtain ⟨⟩ := c
  obtain rfl := h.eip
  exact ⟨_, ⟨6, rfl⟩, hadvance _ rfl rfl rfl rfl, hedx⟩

/-- `rep movsl` upwards. -/
theorem Stands.movsl {k : ℕ} (h : Stands c i d s m) (hdf : c.df = false)
    (hd : d + k * 4 ≤ 2 ^ 32) (hs : s + k * 4 ≤ 2 ^ 32) :
    Stands (c.movsl k) i (d + k * 4) (s + k * 4) (applyAll (moves 4 d s k) m) ∧
      (c.movsl k).edx = c.edx := by
  induction k generalizing c d s m with
  | zero => exact ⟨h, rfl⟩
  | succ k ih =>
    rw [Cpu.movsl, hdf, show d + (k + 1) * 4 = d + 4 + k * 4 by omega,
      show s + (k + 1) * 4 = s + 4 + k * 4 by omega]
    exact ih (h.advance (w := 4) (by omega) (by omega) _ h.eip rfl rfl rfl) rfl (by omega) (by omega)

/-- The code after `.memcpy_aligned`, up to `rep movsl`. -/
theorem Stands.aligned_words (h : Stands c 10 d s m) (hn : c.ecx = .ofNat 32 n) (hlt : n < 2 ^ 32)
    (hd : d + n ≤ 2 ^ 32) (hs : s + n ≤ 2 ^ 32) :
    ∃ c', Reaches c c' ∧
      Stands c' 17 (d + n / 4 * 4) (s + n / 4 * 4) (applyAll (moves 4 d s (n / 4)) m) ∧
      c'.edx = .ofNat 32 (n % 4) := by
  have hcount : (c.ecx >>> 2).toNat = n / 4 := by
    rw [hn, BitVec.toNat_ushiftRight, BitVec.toNat_ofNat, Nat.mod_eq_of_lt hlt,
      Nat.shiftRight_eq_div_pow]
  have hrest : c.ecx &&& 3 = .ofNat 32 (n % 4) := by
    apply BitVec.eq_of_toNat_eq
    rw [hn, BitVec.toNat_and, BitVec.toNat_ofNat, BitVec.toNat_ofNat, Nat.mod_eq_of_lt hlt]
    show n &&& (2 ^ 2 - 1) = _
    rw [Nat.and_two_pow_sub_one_eq_mod]
    omega
  have hset (c₁ : Cpu) (he : c₁.eip = 17) (hedi : c₁.edi = c.edi) (hesi : c₁.esi = c.esi)
      (hmem : c₁.mem = c.mem) : Stands c₁ 17 d s m :=
    ⟨he, hedi.trans h.edi, hesi.trans h.esi, hmem.trans h.mem⟩
  -- the segment registers and `edx` are set, then the words are moved
  obtain ⟨c₁, hrun, he, hdf, hedi, hesi, hedx, hmem⟩ :
      ∃ c₁ : Cpu, Reaches c { c₁.movsl (c.ecx >>> 2).toNat with ecx := 0 } ∧ c₁.eip = 17 ∧
        c₁.df = false ∧ c₁.edi = c.edi ∧ c₁.esi = c.esi ∧ c₁.edx = c.ecx &&& 3 ∧ c₁.mem = c.mem := by
    obtain ⟨⟩ := c
    obtain rfl := h.eip
    exact ⟨_, ⟨7, rfl⟩, rfl, rfl, rfl, rfl, rfl, rfl⟩
  rw [hcount] at hrun
  obtain ⟨hmoved, hkept⟩ := (hset c₁ he hedi hesi hmem).movsl (k := n / 4) hdf (by omega) (by omega)
  exact ⟨_, hrun, ⟨hmoved.eip, hmoved.edi, hmoved.esi, hmoved.mem⟩, hkept.trans (hedx.trans hrest)⟩

/-! ## The loops -/

/-- The loop `.memcpy_bottom` moves `n` single bytes. -/
theorem Stands.bottom (h : Stands c 17 d s m) (hn : c.edx = .ofNat 32 n) (hlt : n < 2 ^ 32)
    (hd : d + n ≤ 2 ^ 32) (hs : s + n ≤ 2 ^ 32) : Ends c (applyAll (moves 1 d s n) m) := by
  induction n generalizing c d s m with
  | zero =>
    obtain ⟨c₁, hrun, h₁, -⟩ := h.loop_test rfl rfl hn hlt
    exact ⟨c₁, hrun, h₁.eip, h₁.mem⟩
  | succ n ih =>
    obtain ⟨c₁, hrun₁, h₁, -, hedx₁⟩ := h.loop_test rfl rfl hn hlt
    obtain ⟨c₂, hrun₂, h₂, hedx₂⟩ := h₁.bottom_byte (by omega) (by omega) (hedx₁.trans hn)
    exact (hrun₁.trans hrun₂).ends (ih h₂ hedx₂ (by omega) (by omega) (by omega))

/-- From `.memcpy_top` the routine makes the accesses of `memcpy` and ends. -/
theorem Stands.top (h : Stands c 0 d s m) (hn : c.ecx = .ofNat 32 n) (hlt : n < 2 ^ 32)
    (hd : d + n ≤ 2 ^ 32) (hs : s + n ≤ 2 ^ 32) : Ends c (applyAll (memcpy d s n) m) := by
  induction n generalizing c d s m with
  | zero =>
    obtain ⟨c₁, hrun, h₁, -⟩ := h.loop_test rfl rfl hn hlt
    exact ⟨c₁, hrun, h₁.eip, h₁.mem⟩
  | succ n ih =>
    obtain ⟨c₁, hrun₁, h₁, hecx₁, -⟩ := h.loop_test rfl rfl hn hlt
    obtain ⟨c₂, hrun₂, h₂, hecx₂⟩ := h₁.align_test (by omega)
    have hecx : c₂.ecx = .ofNat 32 (n + 1) := hecx₂.trans (hecx₁.trans hn)
    refine (hrun₁.trans hrun₂).ends ?_
    rw [memcpy]
    by_cases hal : d % 4 = 0
    · rw [if_pos hal] at h₂ ⊢
      obtain ⟨c₃, hrun₃, h₃, hedx₃⟩ := h₂.aligned_words hecx hlt hd hs
      rw [memcpyAligned, applyAll_append]
      exact hrun₃.ends (h₃.bottom hedx₃ (by omega) (by omega) (by omega))
    · rw [if_neg hal] at h₂ ⊢
      obtain ⟨c₃, hrun₃, h₃, hecx₃⟩ := h₂.top_byte (by omega) (by omega) hecx
      exact hrun₃.ends (ih h₃ hecx₃ (by omega) (by omega) (by omega))

/-! ## The routine as a whole -/

/-- Nothing happens at `.memcpy_done`. -/
theorem step_done (he : c.eip = Label.memcpyDone.index) : c.step = c := by
  rw [Cpu.step, he]
  rfl

/-- The routine ends with one memory only. -/
theorem Ends.unique {m' : ℕ → UInt8} (h : Ends c m) (h' : Ends c m') : m = m' := by
  obtain ⟨_, ⟨k, rfl⟩, he, rfl⟩ := h
  obtain ⟨_, ⟨k', rfl⟩, he', rfl⟩ := h'
  -- the run that ends first stays where it is
  rcases Nat.le_total k k' with hle | hle
  · rw [← Nat.sub_add_cancel hle, Function.iterate_add_apply,
      Function.iterate_fixed (step_done he)]
  · rw [← Nat.sub_add_cancel hle, Function.iterate_add_apply,
      Function.iterate_fixed (step_done he')]

/-- Any alignment, any length: the range is moved when its destination does not lie within the
source, above its start. -/
theorem Cpu.memcpy_ends (c : Cpu) {dest src n : BitVec 32} (hd : dest.toNat + n.toNat ≤ 2 ^ 32)
    (hs : src.toNat + n.toNat ≤ 2 ^ 32)
    (h : dest.toNat ≤ src.toNat ∨ src.toNat + n.toNat ≤ dest.toNat) :
    Ends (c.memcpy dest src n) ((Op.move dest.toNat src.toNat n.toNat).apply c.mem) := by
  have hword (w : BitVec 32) : w = .ofNat 32 w.toNat := by simp
  have hstands : Stands (c.memcpy dest src n) 0 dest.toNat src.toNat c.mem :=
    ⟨rfl, hword dest, hword src, rfl⟩
  have hends := hstands.top (hword n) n.isLt hd hs
  rwa [applyAll_memcpy h] at hends

end

end MemcpyAsm
end GalapagOS
