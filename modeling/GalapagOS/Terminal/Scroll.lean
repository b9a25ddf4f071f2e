import GalapagOS.LibC.Memcpy
import GalapagOS.Terminal.Reference
import GalapagOS.Paging.Common

/-!
# Scrolling at absolute addresses (`scroll_line`)

The two branches of `scroll_line` work on different pages, the page behind `INACTIVE_VID_MEM` for
the keyboard and the one behind `mem` for a process. Each moves the rows with `memcpy` and then
fills one row. The source and the destination of the move overlap; the routine copes with that
because the destination is the lower one.
-/

namespace GalapagOS
namespace Terminal

open Memory MemcpyAsm Paging

/-! ## The calls -/

/-- Where the page starts. `terminal_open` sets `mem` to `VID_MEM`. -/
def scrollBase (userTriggered : Bool) : BitVec 32 :=
  if userTriggered then .ofNat 32 inactiveVidMem else .ofNat 32 vidMem

/-- The call of `memcpy` in `scroll_line`. `mem` points to 16-bit cells, so that `i*WIDTH` cells
are added to it; `INACTIVE_VID_MEM` is a number. -/
def scrollCopy (c : Cpu) (userTriggered : Bool) (i : BitVec 32) : Cpu :=
  if userTriggered then
    c.memcpy (scrollBase true) (scrollBase true + i * 80 * 2) ((25 - i) * 80 * 2)
  else
    c.memcpy (scrollBase false) (scrollBase false + 2 * (i * 80)) ((25 - i) * 80 * 2)

/-- The first argument of `memset_word` in `scroll_line`. -/
def scrollFill (userTriggered : Bool) (i : BitVec 32) : BitVec 32 :=
  if userTriggered then scrollBase true + 2 * (25 - i) * 80
  else scrollBase false + 2 * ((25 - i) * 80)

/-- The page after `memset_word`, with the blank of terminal `t`. -/
def scrollBlank (userTriggered : Bool) (t : ℤ) (i : BitVec 32) (m : ℕ → UInt8) : ℕ → UInt8 :=
  applyAll (memsetWord (scrollFill userTriggered i).toNat asciiSpace ((fore t).getD 0) 80) m

/-! ## The pages -/

section

variable {c : Cpu} {userTriggered : Bool} {n m : ℕ}

/-- A page does not reach the end of the address space. -/
theorem scrollBase_lt (userTriggered : Bool) : (scrollBase userTriggered).toNat + 8000 < 2 ^ 32 := by
  cases userTriggered <;> decide

theorem toNat_scrollBase_add (userTriggered : Bool) (hn : n ≤ 8000) :
    (scrollBase userTriggered + .ofNat 32 n).toNat = (scrollBase userTriggered).toNat + n := by
  have hlt := scrollBase_lt userTriggered
  rw [BitVec.toNat_add, BitVec.toNat_ofNat]
  omega

/-- `i` rows and `25 - i` rows in bytes; the three products are those of the source. -/
theorem rows_bytes (h : n + m = 25) :
    (25 - BitVec.ofNat 32 n : BitVec 32) = .ofNat 32 m ∧ (∀ k : ℕ,
      BitVec.ofNat 32 k * 80 * 2 = .ofNat 32 (160 * k) ∧
      2 * (BitVec.ofNat 32 k * 80) = .ofNat 32 (160 * k) ∧
      2 * BitVec.ofNat 32 k * 80 = .ofNat 32 (160 * k)) := by
  have hmul (k : ℕ) : BitVec.ofNat 32 k * 80 * 2 = .ofNat 32 (160 * k) := by
    rw [show 160 * k = k * 80 * 2 by omega, BitVec.ofNat_mul, BitVec.ofNat_mul]
    rfl
  refine ⟨?_, fun k => ⟨hmul k, ?_, ?_⟩⟩
  · rw [show (25 : BitVec 32) = .ofNat 32 (m + n) by rw [Nat.add_comm, h]; rfl, BitVec.ofNat_add,
      BitVec.add_sub_cancel]
  · rw [BitVec.mul_comm, hmul]
  · rw [BitVec.mul_comm 2, BitVec.mul_assoc, BitVec.mul_comm 2, ← BitVec.mul_assoc, hmul]

/-- Both branches pass the same distances. -/
theorem scrollCopy_eq (c : Cpu) (userTriggered : Bool) (h : n + m = 25) :
    scrollCopy c userTriggered (.ofNat 32 n)
      = c.memcpy (scrollBase userTriggered) (scrollBase userTriggered + .ofNat 32 (160 * n))
        (.ofNat 32 (160 * m)) := by
  obtain ⟨hsub, hbytes⟩ := rows_bytes h
  cases userTriggered
  · simp only [scrollCopy, hsub, hbytes, Bool.false_eq_true, if_false]
  · simp only [scrollCopy, hsub, hbytes, if_true]

theorem scrollFill_eq (userTriggered : Bool) (h : n + m = 25) :
    scrollFill userTriggered (.ofNat 32 n) = scrollBase userTriggered + .ofNat 32 (160 * m) := by
  obtain ⟨hsub, hbytes⟩ := rows_bytes h
  cases userTriggered
  · simp only [scrollFill, hsub, hbytes, Bool.false_eq_true, if_false]
  · simp only [scrollFill, hsub, hbytes, if_true]

/-- The routine moves the rows of either page up by `n`, in spite of the overlap. -/
theorem scrollCopy_ends (c : Cpu) (userTriggered : Bool) (h : n + m = 25) :
    Ends (scrollCopy c userTriggered (.ofNat 32 n))
      ((Op.move (scrollBase userTriggered).toNat ((scrollBase userTriggered).toNat + 160 * n)
        (160 * m)).apply c.mem) := by
  have hlt := scrollBase_lt userTriggered
  have hsrc := toNat_scrollBase_add (n := 160 * n) userTriggered (by omega)
  have hlen : (BitVec.ofNat 32 (160 * m)).toNat = 160 * m := by
    rw [BitVec.toNat_ofNat]
    omega
  have hends : Ends (c.memcpy (scrollBase userTriggered)
      (scrollBase userTriggered + .ofNat 32 (160 * n)) (.ofNat 32 (160 * m))) _ :=
    c.memcpy_ends (by omega) (by omega) (.inl (by omega))
  rw [hsrc, hlen] at hends
  rwa [scrollCopy_eq c userTriggered h]

/-- Seen from the start of the page, the two calls are the accesses of `scrollOps`. -/
theorem scroll_view (mem : ℕ → UInt8) (userTriggered : Bool) (t : ℤ) (h : n + m = 25) (a : ℕ) :
    scrollBlank userTriggered t (.ofNat 32 n)
        ((Op.move (scrollBase userTriggered).toNat ((scrollBase userTriggered).toNat + 160 * n)
          (160 * m)).apply mem) ((scrollBase userTriggered).toNat + a)
      = applyAll (scrollOps t n) (fun a => mem ((scrollBase userTriggered).toNat + a)) a := by
  have hfill := toNat_scrollBase_add (n := 160 * m) userTriggered (by omega)
  rw [scrollOps_eq t h, applyAll_append, applyAll_memsetWord, applyAll_memcpy (.inl (Nat.zero_le _)),
    apply_move, scrollBlank, scrollFill_eq userTriggered h, hfill, applyAll_memsetWord, apply_move]
  -- from here on both sides compare the same offsets, counted from two origins
  generalize (scrollBase userTriggered).toNat = base
  by_cases hblank : 160 * m ≤ a ∧ a < 160 * m + 2 * 80
  · rw [if_pos (by omega), if_pos hblank, Nat.add_sub_add_left]
  · rw [if_neg (by omega), if_neg hblank]
    by_cases hmoved : a < 160 * m
    · rw [if_pos (by omega), if_pos (by omega), Nat.add_sub_cancel_left, Nat.sub_zero, Nat.add_assoc]
    · rw [if_neg (by omega), if_neg (by omega)]

/-- Row `r` of the screen, and its byte `b`, come from row `r + n`. -/
theorem scrollOps_row (t : ℤ) (h : n + m = 25) (page : ℕ → UInt8) {r b : ℕ} (hr : r + n < 25)
    (hb : b < 160) :
    applyAll (scrollOps t n) page (160 * r + b) = page (160 * (r + n) + b) := by
  rw [scrollOps_eq t h, applyAll_append, applyAll_memsetWord, applyAll_memcpy (.inl (Nat.zero_le _)),
    apply_move, if_neg (by omega), if_pos (by omega)]
  congr 1
  omega

/-- `memcpy` moves a range to any lower address and to any disjoint one and touches no other
byte. So both branches of `scroll_line` move the rows from `i` on to the top of the screen. -/
theorem memcpy_moves_down :
    (∀ (c : Cpu) (dest src n : BitVec 32), dest.toNat + n.toNat ≤ 2 ^ 32 →
      src.toNat + n.toNat ≤ 2 ^ 32 →
      (dest.toNat ≤ src.toNat ∨ dest.toNat + n.toNat ≤ src.toNat ∨
        src.toNat + n.toNat ≤ dest.toNat) →
      ∃ m, Ends (c.memcpy dest src n) m ∧
        (∀ j < n.toNat, m (dest.toNat + j) = c.mem (src.toNat + j)) ∧
        ∀ a, a < dest.toNat ∨ dest.toNat + n.toNat ≤ a → m a = c.mem a) ∧
    ∀ (c : Cpu) (userTriggered : Bool) (t : ℤ) (i : ℕ), i ≤ 25 →
      ∃ m, Ends (scrollCopy c userTriggered (.ofNat 32 i)) m ∧
        ∀ r b, r + i < 25 → b < 160 →
          scrollBlank userTriggered t (.ofNat 32 i) m ((scrollBase userTriggered).toNat + (160 * r + b))
            = c.mem ((scrollBase userTriggered).toNat + (160 * (r + i) + b)) := by
  constructor
  · intro c dest src n hd hs h
    refine ⟨_, c.memcpy_ends hd hs (by omega), fun j hj => ?_, fun a ha => ?_⟩
    · rw [apply_move, if_pos (by omega), Nat.add_sub_cancel_left]
    · rw [apply_move, if_neg (by omega)]
  · intro c userTriggered t i hi
    obtain ⟨m, hm⟩ : ∃ m, i + m = 25 := ⟨25 - i, by omega⟩
    refine ⟨_, scrollCopy_ends c userTriggered hm, fun r b hr hb => ?_⟩
    rw [scroll_view c.mem userTriggered t hm, scrollOps_row t hm _ hr hb]

/-- A processor before a call; the direction flag is set. -/
def sampleCpu : Cpu := ⟨0, 0, 0, 0, 0, 0, 0x18, 0x18, false, true, fun a => .ofNat a⟩

/-- Seven bytes from an unaligned address, moved down by one. -/
theorem memcpy_moves_down_by_one :
    ∃ m, Ends (sampleCpu.memcpy 0x1001 0x1002 7) m ∧
      (∀ j < 7, m (0x1001 + j) = .ofNat (0x1002 + j)) ∧
      ∀ a, a < 0x1001 ∨ 0x1001 + 7 ≤ a → m a = .ofNat a :=
  memcpy_moves_down.1 sampleCpu 0x1001 0x1002 7 (by decide) (by decide) (by decide)

end

end Terminal
end GalapagOS
