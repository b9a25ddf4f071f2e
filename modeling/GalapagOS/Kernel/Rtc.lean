import GalapagOS.Kernel.Files

/-!
# The clock's frequency (`rtc_write`)

A write to the real-time clock names a frequency in Hz. The driver accepts the powers of two
from 2 to 1024 and programs the rate `r` with `frequency = 32768 >> (r - 1)` into the lower
half of register A. `rtcRate` counts the ones of the word; `onesCheck` is the loop as the
source writes it, left at the second one.
-/

namespace GalapagOS
namespace Kernel

open FileSystem

/-! ## The test for a power of two -/

/-- The loop of `rtc_write` over the bits of `frequency`, with the ones counted so far; `none`
is its `ERROR`. -/
def onesCheck (frequency : ℕ) : List ℕ → ℕ → Option ℕ
  | [], numberOnes => some numberOnes
  | i :: rest, numberOnes =>
    let numberOnes := if frequency.testBit i then numberOnes + 1 else numberOnes
    if numberOnes > 1 then none else onesCheck frequency rest numberOnes

/-- Leaving the loop at the second one and counting all of them decide the same words. -/
theorem onesCheck_eq_none {f : ℕ} {bits : List ℕ} {ones : ℕ} (h : ones ≤ 1) :
    onesCheck f bits ones = none ↔ ones + (bits.filter fun i => f.testBit i).length > 1 := by
  induction bits generalizing ones with
  | nil =>
    simp only [onesCheck, List.filter_nil, List.length_nil]
    constructor
    · intro hnone
      cases hnone
    · intro hmore
      omega
  | cons i rest ih =>
    by_cases hi : f.testBit i
    · simp only [onesCheck, hi, if_true, List.filter_cons, List.length_cons]
      by_cases hone : ones + 1 > 1
      · simp only [hone, if_true, true_iff]
        omega
      · rw [if_neg hone, ih (by omega)]
        omega
    · simp only [onesCheck, hi, Bool.false_eq_true, if_false, List.filter_cons]
      rw [if_neg (by omega), ih h]

/-- `rtcRate` with the loop of the source in the place of the count. -/
theorem rtcRate_eq_onesCheck (f : ℕ) :
    rtcRate f =
      if f < 2 ∨ 1024 < f then none
      else (onesCheck f (List.range 32) 0).map fun _ =>
        (List.range 15).foldl (fun r j => if 0x8000 >>> j = f then j + 1 else r) 0 &&& 0xf := by
  have hloop : onesCheck f (List.range 32) 0 = none ↔
      0 + ((List.range 32).filter fun i => f.testBit i).length > 1 := onesCheck_eq_none (by omega)
  rw [Nat.zero_add] at hloop
  unfold rtcRate
  cases hcheck : onesCheck f (List.range 32) 0 with
  | none => rw [if_pos (hloop.mp hcheck), Option.map_none]
  | some ones =>
    have hfew : ¬ ((List.range 32).filter fun i => f.testBit i).length > 1 := by
      intro hmore
      rw [hloop.mpr hmore] at hcheck
      cases hcheck
    rw [if_neg hfew, Option.map_some]

/-- A word below `2 ^ 32` with at most one one is `0` or a power of two. -/
theorem eq_two_pow_of_ones {f : ℕ} (hpos : f ≠ 0) (hlt : f < 2 ^ 32)
    (hones : ¬ ((List.range 32).filter fun i => f.testBit i).length > 1) :
    f = 2 ^ f.log2 := by
  have hset {i : ℕ} (hi : f.testBit i = true) : i ∈ (List.range 32).filter (f.testBit ·) := by
    refine List.mem_filter.mpr ⟨List.mem_range.mpr ?_, hi⟩
    by_contra hge
    rw [Nat.testBit_lt_two_pow (hlt.trans_le (Nat.pow_le_pow_right (by omega) (by omega)))] at hi
    cases hi
  have htop : f.testBit f.log2 = true := Nat.testBit_log2 hpos
  apply Nat.eq_of_testBit_eq
  intro i
  rw [Nat.testBit_two_pow]
  cases hi : f.testBit i with
  | false =>
    symm
    rw [decide_eq_false_iff_not]
    rintro rfl
    rw [htop] at hi
    cases hi
  | true =>
    symm
    rw [decide_eq_true_iff]
    -- both places are in a list of at most one element
    have hmem := hset hi
    have htopMem := hset htop
    generalize (List.range 32).filter (f.testBit ·) = l at hones hmem htopMem
    match l with
    | [j] => rw [List.mem_singleton.mp hmem, List.mem_singleton.mp htopMem]
    | _ :: _ :: _ => exact absurd (by simp) hones

/-! ## The rate -/

/-- The accepted frequencies and their rates. -/
theorem rtcRate_eq_some {f r : ℕ} :
    rtcRate f = some r ↔ ∃ e, 1 ≤ e ∧ e ≤ 10 ∧ f = 2 ^ e ∧ r = 16 - e := by
  have hpow : ∀ e ∈ List.range' 1 10, rtcRate (2 ^ e) = some (16 - e) := by decide
  constructor
  · intro h
    have hrange : ¬ (f < 2 ∨ 1024 < f) := by
      intro hout
      rw [rtcRate, if_pos hout] at h
      cases h
    have hones : ¬ ((List.range 32).filter fun i => f.testBit i).length > 1 := by
      intro hmore
      rw [rtcRate, if_neg hrange, if_pos hmore] at h
      cases h
    have hf := eq_two_pow_of_ones (by omega) (by omega) hones
    generalize f.log2 = e at hf
    have hlow : 1 ≤ e := by
      by_contra hzero
      rw [Nat.lt_one_iff.mp (Nat.not_le.mp hzero)] at hf
      omega
    have hhigh : e ≤ 10 := by
      by_contra hbig
      have := Nat.pow_le_pow_right (n := 2) (by omega) (Nat.not_le.mp hbig)
      omega
    have hrate := hpow e (List.mem_range'_1.mpr ⟨hlow, by omega⟩)
    rw [← hf, h] at hrate
    exact ⟨e, hlow, hhigh, hf, Option.some.inj hrate⟩
  · rintro ⟨e, hlow, hhigh, rfl, rfl⟩
    exact hpow e (List.mem_range'_1.mpr ⟨hlow, by omega⟩)

example : (rtcRate 2, rtcRate 1024, rtcRate 6, rtcRate 2048) = (some 15, some 6, none, none) := by
  decide

/-- The rate `16 - e` is the one that gives the frequency `2 ^ e`. -/
theorem shift_rate {e : ℕ} (hlow : 1 ≤ e) (hhigh : e ≤ 10) : 32768 >>> (16 - e - 1) = 2 ^ e := by
  rw [Nat.shiftRight_eq_div_pow, show (32768 : ℕ) = 2 ^ (16 - e - 1) * 2 ^ e by
    rw [← Nat.pow_add, show 16 - e - 1 + e = 15 by omega]]
  exact Nat.mul_div_cancel_left _ (Nat.two_pow_pos _)

/-! ## Register A -/

/-- What `rtc_write` does with a rate: the lower half of the register is replaced. -/
theorem rtcWrite_of_rate {k : Kernel} {buf : ℕ → UInt8} {r : ℕ} (h : rtcRate (word buf) = some r) :
    k.rtcWrite buf = ({ k with rtcRegA := (k.rtcRegA &&& 0xf0) ||| .ofNat r }, 0) := by
  rw [rtcWrite, h]
  simp only [UInt8.or_comm]

theorem rtcWrite_of_none {k : Kernel} {buf : ℕ → UInt8} (h : rtcRate (word buf) = none) :
    k.rtcWrite buf = (k, -1) := by
  rw [rtcWrite, h]

/-- A write that returns 0 was given an accepted frequency. -/
theorem rtcRate_of_zero {k : Kernel} {buf : ℕ → UInt8} (h : (k.rtcWrite buf).2 = 0) :
    ∃ r, rtcRate (word buf) = some r := by
  cases hr : rtcRate (word buf) with
  | none =>
    rw [rtcWrite_of_none hr] at h
    cases h
  | some r => exact ⟨r, rfl⟩

theorem or_and_distrib (a b c : UInt8) : (a ||| b) &&& c = (a &&& c) ||| (b &&& c) := by
  apply UInt8.toNat.inj
  rw [UInt8.toNat_and, UInt8.toNat_or, UInt8.toNat_or, UInt8.toNat_and, UInt8.toNat_and,
    Nat.and_or_distrib_right]

/-- A rate lies in the lower half of a byte. -/
theorem halves_rate : ∀ r : Fin 16,
    UInt8.ofNat r &&& 0xf0 = 0 ∧ UInt8.ofNat r &&& 0x0f = .ofNat r ∧ (UInt8.ofNat r).toNat = r := by
  decide

/-- The two halves of the register after a rate has been written. -/
theorem halves_of_rate (a : UInt8) (r : Fin 16) :
    ((a &&& 0xf0) ||| .ofNat r) &&& 0xf0 = a &&& 0xf0 ∧
      (((a &&& 0xf0) ||| .ofNat r) &&& 0x0f).toNat = r := by
  obtain ⟨hhigh, hlow, hnat⟩ := halves_rate r
  constructor
  · rw [or_and_distrib, hhigh, UInt8.or_zero, UInt8.and_assoc, UInt8.and_self]
  · rw [or_and_distrib, hlow, UInt8.and_assoc, show (0xf0 : UInt8) &&& 0x0f = 0 by decide,
      UInt8.and_zero, UInt8.zero_or, hnat]

/-- `rtc_write` returns -1 and changes nothing unless the word is a power of two between 2 and
1024; then it returns 0 and puts the rate of this frequency into the lower half of register A.
The upper half stays, and two accepted frequencies never share a rate. -/
theorem rtcWrite_programs_rate (k : Kernel) (buf : ℕ → UInt8) :
    ((¬ ∃ e, 1 ≤ e ∧ e ≤ 10 ∧ word buf = 2 ^ e) → k.rtcWrite buf = (k, -1)) ∧
    ((∃ e, 1 ≤ e ∧ e ≤ 10 ∧ word buf = 2 ^ e) → ∃ r, 6 ≤ r ∧ r ≤ 15 ∧
      32768 >>> (r - 1) = word buf ∧
      k.rtcWrite buf = ({ k with rtcRegA := (k.rtcRegA &&& 0xf0) ||| .ofNat r }, 0)) ∧
    (k.rtcWrite buf).1.rtcRegA &&& 0xf0 = k.rtcRegA &&& 0xf0 ∧
    ∀ (k' : Kernel) (buf' : ℕ → UInt8), (k.rtcWrite buf).2 = 0 → (k'.rtcWrite buf').2 = 0 →
      word buf ≠ word buf' →
      (k.rtcWrite buf).1.rtcRegA &&& 0x0f ≠ (k'.rtcWrite buf').1.rtcRegA &&& 0x0f := by
  refine ⟨fun hno => rtcWrite_of_none ?_, ?_, ?_, ?_⟩
  · cases hr : rtcRate (word buf) with
    | none => rfl
    | some r =>
      obtain ⟨e, hlow, hhigh, hf, -⟩ := rtcRate_eq_some.mp hr
      exact absurd ⟨e, hlow, hhigh, hf⟩ hno
  · rintro ⟨e, hlow, hhigh, hf⟩
    have hr := rtcRate_eq_some.mpr ⟨e, hlow, hhigh, hf, rfl⟩
    exact ⟨16 - e, by omega, by omega, (shift_rate hlow hhigh).trans hf.symm, rtcWrite_of_rate hr⟩
  · cases hr : rtcRate (word buf) with
    | none => rw [rtcWrite_of_none hr]
    | some r =>
      obtain ⟨e, hlow, hhigh, -, rfl⟩ := rtcRate_eq_some.mp hr
      rw [rtcWrite_of_rate hr]
      exact (halves_of_rate k.rtcRegA ⟨16 - e, by omega⟩).1
  · intro k' buf' hzero hzero' hne hsame
    obtain ⟨r, hr⟩ := rtcRate_of_zero hzero
    obtain ⟨r', hr'⟩ := rtcRate_of_zero hzero'
    obtain ⟨e, hlow, hhigh, hf, rfl⟩ := rtcRate_eq_some.mp hr
    obtain ⟨e', hlow', hhigh', hf', rfl⟩ := rtcRate_eq_some.mp hr'
    rw [rtcWrite_of_rate hr, rtcWrite_of_rate hr'] at hsame
    have hrate := congrArg UInt8.toNat hsame
    rw [(halves_of_rate k.rtcRegA ⟨16 - e, by omega⟩).2,
      (halves_of_rate k'.rtcRegA ⟨16 - e', by omega⟩).2] at hrate
    have hexp : e = e' := by
      change 16 - e = 16 - e' at hrate
      omega
    exact hne (by rw [hf, hf', hexp])

end Kernel
end GalapagOS
