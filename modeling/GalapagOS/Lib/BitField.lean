import Mathlib.Data.BitVec

/-!
# Bit fields of machine words

C bit fields, as a compiler lays them out: a field is a run of `len` bits from bit
`lo` of the word, an assignment to it replaces exactly these bits, and two fields
that do not overlap do not see each other's assignments.

A word is a `BitVec n` of any width; the side conditions (`lo + len ≤ n`, disjoint
fields) are closed arithmetic facts for concrete layouts, so a chain of assignments
is read back with `simp (disch := decide)`.
-/

namespace BitField

/-- `len` bits from bit `lo` on. -/
structure Field where
  lo : ℕ
  len : ℕ

variable {n : ℕ}

/-- The bits of `f` in the word `w`. -/
def Field.get (f : Field) (w : BitVec n) : BitVec f.len :=
  w.extractLsb' f.lo f.len

/-- The word that has a one exactly at the bits of `f`. -/
def Field.mask (f : Field) (n : ℕ) : BitVec n :=
  (BitVec.allOnes f.len).setWidth n <<< f.lo

/-- The assignment `w.f = v`; like a C bit field it keeps the low `len` bits of `v`. -/
def Field.set (f : Field) (v : ℕ) (w : BitVec n) : BitVec n :=
  (w &&& ~~~f.mask n) ||| ((BitVec.ofNat f.len v).setWidth n <<< f.lo)

/-- The two fields share no bit. -/
def Field.Disjoint (f g : Field) : Prop :=
  f.lo + f.len ≤ g.lo ∨ g.lo + g.len ≤ f.lo

instance (f g : Field) : Decidable (f.Disjoint g) :=
  inferInstanceAs (Decidable (_ ∨ _))

/-- Bit `i` after an assignment: inside the field it comes from the value, outside it
is the old bit. -/
theorem getLsbD_set (f : Field) (v : ℕ) (w : BitVec n) (i : ℕ) (hi : i < n) :
    (f.set v w).getLsbD i =
      if f.lo ≤ i ∧ i < f.lo + f.len then (BitVec.ofNat f.len v).getLsbD (i - f.lo)
      else w.getLsbD i := by
  unfold Field.set Field.mask
  simp only [BitVec.getLsbD_or, BitVec.getLsbD_and, BitVec.getLsbD_not, BitVec.getLsbD_shiftLeft,
    BitVec.getLsbD_setWidth, BitVec.getLsbD_allOnes, hi, decide_true, Bool.true_and]
  by_cases hlo : f.lo ≤ i
  · by_cases hlen : i < f.lo + f.len
    · simp [hlo, hlen, show ¬ i < f.lo by omega, show i - f.lo < n by omega,
        show i - f.lo < f.len by omega]
    · have hout : (BitVec.ofNat f.len v).getLsbD (i - f.lo) = false :=
        BitVec.getLsbD_of_ge _ _ (by omega)
      simp [hlo, hlen, hout, show ¬ i < f.lo by omega, show ¬ i - f.lo < f.len by omega]
  · simp [hlo, show i < f.lo by omega]

/-- Reading the field just assigned. -/
@[simp] theorem get_set_self (f : Field) (v : ℕ) (w : BitVec n) (h : f.lo + f.len ≤ n) :
    f.get (f.set v w) = BitVec.ofNat f.len v := by
  apply BitVec.eq_of_getLsbD_eq
  intro i hi
  have hin : f.lo ≤ f.lo + i ∧ f.lo + i < f.lo + f.len := by omega
  rw [Field.get, BitVec.getLsbD_extractLsb', getLsbD_set f v w _ (by omega), if_pos hin]
  simp [hi]

/-- Reading a field that does not overlap the assigned one. -/
theorem get_set_of_disjoint (f g : Field) (v : ℕ) (w : BitVec n) (hg : g.lo + g.len ≤ n)
    (hfg : f.Disjoint g) : g.get (f.set v w) = g.get w := by
  apply BitVec.eq_of_getLsbD_eq
  intro i hi
  have hout : ¬ (f.lo ≤ g.lo + i ∧ g.lo + i < f.lo + f.len) := by
    rcases hfg with h | h <;> omega
  simp only [Field.get, BitVec.getLsbD_extractLsb', hi, decide_true, Bool.true_and]
  rw [getLsbD_set f v w _ (by omega), if_neg hout]

end BitField
