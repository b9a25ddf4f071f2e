import Mathlib.Data.Nat.Notation

/-!
# Switching on and off

Something is on for `a` ticks and off for `b` ticks, in turn. A tick either goes on in the same half of
the cycle or switches to the other one; where that leads after `t` ticks is a remainder.
-/

namespace Oscillator

variable {a b : ℕ}

/-- The half of the cycle, and how many ticks of it are over. -/
structure Phase where
  lit : Bool
  elapsed : ℕ
deriving DecidableEq

/-- How long a half lasts. -/
def half (a b : ℕ) (lit : Bool) : ℕ := if lit then a else b

def tick (a b : ℕ) (p : Phase) : Phase :=
  if p.elapsed + 1 < half a b p.lit then { p with elapsed := p.elapsed + 1 } else ⟨!p.lit, 0⟩

/-- The phase after `t` ticks. -/
def phase (a b t : ℕ) : Phase :=
  if t % (a + b) < a then ⟨true, t % (a + b)⟩ else ⟨false, t % (a + b) - a⟩

theorem phase_zero (ha : 0 < a) : phase a b 0 = ⟨true, 0⟩ := by
  rw [phase, Nat.zero_mod, if_pos ha]

theorem lit_phase (a b t : ℕ) : (phase a b t).lit = decide (t % (a + b) < a) := by
  unfold phase
  split
  · rename_i h
    exact (decide_eq_true h).symm
  · rename_i h
    exact (decide_eq_false h).symm

theorem elapsed_lt (ha : 0 < a) (hb : 0 < b) (t : ℕ) :
    (phase a b t).elapsed < half a b (phase a b t).lit := by
  have hlt : t % (a + b) < a + b := Nat.mod_lt _ (by omega)
  unfold phase
  split
  · rename_i h
    exact h
  · show t % (a + b) - a < b
    omega

/-- The formula steps as the ticks do. -/
theorem phase_succ (ha : 0 < a) (hb : 0 < b) (t : ℕ) :
    phase a b (t + 1) = tick a b (phase a b t) := by
  have hlt : t % (a + b) < a + b := Nat.mod_lt _ (by omega)
  have hone : 1 % (a + b) = 1 := Nat.mod_eq_of_lt (by omega)
  have hsucc : (t + 1) % (a + b) = if a + b ≤ t % (a + b) + 1 then 0 else t % (a + b) + 1 := by
    rw [Nat.add_mod_eq_ite, hone]
    split <;> omega
  unfold phase
  rw [hsucc]
  generalize t % (a + b) = m at hlt
  by_cases hon : m < a
  · rw [if_pos hon]
    unfold tick half
    dsimp only
    by_cases hnext : m + 1 < a
    · rw [if_neg (show ¬a + b ≤ m + 1 by omega), if_pos hnext, if_pos (by simpa using hnext)]
    · rw [if_neg (show ¬a + b ≤ m + 1 by omega), if_neg hnext, if_neg (by simpa using hnext)]
      have hzero : m + 1 - a = 0 := by omega
      rw [hzero]
      rfl
  · rw [if_neg hon]
    unfold tick half
    dsimp only
    by_cases hend : a + b ≤ m + 1
    · rw [if_pos hend, if_pos ha, if_neg (by simp; omega)]
      rfl
    · rw [if_neg hend, if_neg (by omega), if_pos (by simp; omega)]
      have hshift : m + 1 - a = m - a + 1 := by omega
      rw [hshift]

end Oscillator
