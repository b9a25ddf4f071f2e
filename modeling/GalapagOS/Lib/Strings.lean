import Mathlib.Data.List.Basic
import Mathlib.Data.List.GetD
import Mathlib.Data.Nat.Notation
import Mathlib.Logic.Function.Basic

/-!
# Strings in cells of fixed size

A cell of `n` values holds a string that is shorter than `n` if the string stands at the start and
zeros fill the rest. The length is the index of the first zero; a store there makes the string
longer, as long as a zero remains.
-/

namespace Strings

open Function

variable {β : Type*} [Zero β] {n : ℕ} {f g : ℕ → β} {s : List β}

/-- The `n` values of a cell are the string and zeros behind it. -/
structure Padded (n : ℕ) (f : ℕ → β) (s : List β) : Prop where
  length : s.length < n
  nonzero : (0 : β) ∉ s
  cells : ∀ i < n, f i = s.getD i 0

theorem Padded.congr (h : Padded n f s) (hg : ∀ i < n, g i = f i) : Padded n g s :=
  ⟨h.length, h.nonzero, fun i hi => (hg i hi).trans (h.cells i hi)⟩

theorem Padded.nil (hn : 0 < n) (hf : ∀ i < n, f i = 0) : Padded n f [] :=
  ⟨hn, List.not_mem_nil, fun i hi => by simpa using hf i hi⟩

/-- The same string in two cells. -/
theorem Padded.cells_eq (h : Padded n f s) (h' : Padded n g s) {i : ℕ} (hi : i < n) : f i = g i :=
  (h.cells i hi).trans (h'.cells i hi).symm

theorem Padded.lt_length (h : Padded n f s) {i : ℕ} (hi : i < s.length) : f i ≠ 0 := by
  rw [h.cells i (Nat.lt_trans hi h.length), List.getD_eq_getElem s 0 hi]
  exact fun he => h.nonzero (he ▸ List.getElem_mem hi)

theorem Padded.at_length (h : Padded n f s) : f s.length = 0 := by
  rw [h.cells _ h.length, List.getD_eq_default s 0 (Nat.le_refl _)]

/-- A value at the end of the string. -/
theorem Padded.snoc {b : β} (h : Padded n f s) (hb : b ≠ 0) (hlen : s.length + 1 < n) :
    Padded n (update f s.length b) (s ++ [b]) where
  length := by simpa using hlen
  nonzero := by
    rw [List.mem_append, List.mem_singleton]
    rintro (hs | hs)
    · exact h.nonzero hs
    · exact hb hs.symm
  cells i hi := by
    by_cases hlt : i < s.length
    · rw [update_of_ne (by omega), h.cells i hi, List.getD_append s [b] 0 i hlt]
    · rw [List.getD_append_right s [b] 0 i (Nat.not_lt.mp hlt)]
      by_cases heq : i = s.length
      · rw [heq, update_self, Nat.sub_self]
        rfl
      · rw [update_of_ne heq, h.cells i hi, List.getD_eq_default s 0 (by omega),
          List.getD_eq_default [b] 0 (by simp; omega)]

/-- A zero at the end changes nothing. -/
theorem Padded.update_zero (h : Padded n f s) : update f s.length 0 = f :=
  update_eq_self_iff.mpr h.at_length.symm

section Contents

variable [DecidableEq β]

/-- The string in a cell of `n` values. -/
def contents (n : ℕ) (f : ℕ → β) : List β := ((List.range n).map f).takeWhile (· ≠ 0)

/-- The index of the first zero among `n` values. -/
def firstZero (n : ℕ) (f : ℕ → β) : Option ℕ := (List.range n).find? fun i => f i = 0

theorem firstZero_eq {i : ℕ} (hi : i < n) (hzero : f i = 0) (hlt : ∀ j < i, f j ≠ 0) :
    firstZero n f = some i := by
  unfold firstZero
  rw [List.find?_range_eq_some]
  simp only [List.mem_range]
  exact ⟨by simpa using hzero, hi, fun j hj => by simpa using hlt j hj⟩

theorem Padded.contents_eq (h : Padded n f s) : contents n f = s := by
  have hcells : (List.range n).map f = s ++ List.replicate (n - s.length) 0 := by
    have hlen := h.length
    refine List.ext_getElem (by simp; omega) fun i hi _ => ?_
    rw [List.length_map, List.length_range] at hi
    rw [List.getElem_map, List.getElem_range, h.cells i hi]
    by_cases hlt : i < s.length
    · rw [List.getD_eq_getElem s 0 hlt, List.getElem_append_left hlt]
    · rw [List.getD_eq_default s 0 (Nat.not_lt.mp hlt), List.getElem_append_right (Nat.not_lt.mp hlt),
        List.getElem_replicate]
  have hkept : ∀ b ∈ s, decide (b ≠ 0) = true := by
    intro b hb
    exact decide_eq_true fun he => h.nonzero (he ▸ hb)
  rw [contents, hcells, List.takeWhile_append_of_pos hkept, List.takeWhile_replicate]
  simp

end Contents

end Strings
