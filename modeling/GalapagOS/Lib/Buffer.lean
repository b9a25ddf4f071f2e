import Mathlib.Logic.Function.Basic
import Mathlib.Data.Int.Notation
import Mathlib.Data.List.Basic
import Mathlib.Data.Nat.Notation

/-!
# Strings in buffers, and windows in rings of slots

A buffer is a function from integer indices to values. `Buffer.Holds f s` says that its cells from
index 0 on hold the string `s`; what the cells behind the string hold does not matter. A store at the
end makes the string longer, moving the end back makes it shorter, and stores outside the string
leave it alone.

A ring of `n` slots keeps the entries from `lo` on of a sequence that has no end: entry `k` is in
slot `k % n`. What a slot holds for an entry is a relation. The window moves on by one entry when the
slot of the oldest one is taken for the next.
-/

namespace Buffer

open Function

variable {β : Type*} {f g : ℤ → β} {s : List β}

/-- The cells from 0 on hold `s`. -/
def Holds (f : ℤ → β) (s : List β) : Prop := ∀ i (h : i < s.length), f i = s[i]

theorem Holds.nil (f : ℤ → β) : Holds f [] := fun i hi => absurd hi (Nat.not_lt_zero i)

theorem Holds.congr (h : Holds f s) (hg : ∀ i : ℕ, i < s.length → g i = f i) : Holds g s :=
  fun i hi => (hg i hi).trans (h i hi)

/-- A store behind the string. -/
theorem Holds.update_of_le (h : Holds f s) {n : ℤ} (hn : s.length ≤ n) (b : β) :
    Holds (update f n b) s := by
  refine h.congr fun i hi => ?_
  rw [update_of_ne (by omega)]

/-- A store at the end of the string. -/
theorem Holds.snoc (h : Holds f s) (b : β) : Holds (update f s.length b) (s ++ [b]) := by
  intro i hi
  rw [List.length_append, List.length_singleton] at hi
  by_cases hlt : i < s.length
  · rw [List.getElem_append_left hlt, update_of_ne (by omega), h i hlt]
  · obtain rfl : i = s.length := by omega
    rw [List.getElem_concat_length rfl, update_self]

/-- The end moves back. -/
theorem Holds.take (h : Holds f s) (n : ℕ) : Holds f (s.take n) := by
  intro i hi
  have hlt : i < s.length := by
    rw [List.length_take] at hi
    omega
  rw [List.getElem_take, h i hlt]

theorem Holds.dropLast (h : Holds f s) : Holds f s.dropLast := by
  rw [List.dropLast_eq_take]
  exact h.take _

/-- The string, read back. -/
theorem Holds.map_range (h : Holds f s) : (List.range s.length).map (fun i : ℕ => f i) = s := by
  refine List.ext_getElem (by simp) fun i hi _ => ?_
  rw [List.getElem_map, List.getElem_range]
  exact h i (by simpa using hi)

end Buffer

namespace Window

open Function

variable {α β : Type*} {R : α → β → Prop} {n lo k : ℕ} {slots : ℕ → α} {entries : ℕ → β}

/-- The entries of the window. -/
def Visible (n lo k : ℕ) : Prop := lo ≤ k ∧ k < lo + n

/-- The slots hold the entries of the window. -/
def Holds (R : α → β → Prop) (n lo : ℕ) (slots : ℕ → α) (entries : ℕ → β) : Prop :=
  ∀ k, Visible n lo k → R (slots (k % n)) (entries k)

/-- Two entries of the window have different slots. -/
theorem slot_inj {k' : ℕ} (h : Visible n lo k) (h' : Visible n lo k') (heq : k % n = k' % n) :
    k = k' := by
  have key : ∀ a b : ℕ, Visible n lo a → Visible n lo b → a % n = b % n → a ≤ b → a = b := by
    intro a b ha hb hab hle
    have hmod : (b - a) % n = 0 := (Nat.sub_mod_eq_zero_of_mod_eq hab.symm)
    have hlt : b - a < n := by
      unfold Visible at ha hb
      omega
    rw [Nat.mod_eq_of_lt hlt] at hmod
    omega
  rcases Nat.le_total k k' with hle | hle
  · exact key k k' h h' heq hle
  · exact (key k' k h' h heq.symm hle).symm

/-- Every slot belongs to an entry of the window. -/
theorem exists_visible {s : ℕ} (hs : s < n) (lo : ℕ) : ∃ k, Visible n lo k ∧ k % n = s := by
  have hn : 0 < n := Nat.zero_lt_of_lt hs
  have hlo := Nat.mod_lt lo hn
  have hsplit := Nat.div_add_mod lo n
  by_cases hle : lo % n ≤ s
  · refine ⟨n * (lo / n) + s, ⟨?_, ?_⟩, ?_⟩
    · omega
    · omega
    · rw [Nat.mul_add_mod, Nat.mod_eq_of_lt hs]
  · refine ⟨n * (lo / n) + n + s, ⟨?_, ?_⟩, ?_⟩
    · omega
    · omega
    · rw [Nat.add_assoc, Nat.mul_add_mod, Nat.add_mod_left, Nat.mod_eq_of_lt hs]

/-- Slots that hold the same. -/
theorem Holds.congr {slots' : ℕ → α} {entries' : ℕ → β} (h : Holds R n lo slots entries)
    (hR : ∀ k, Visible n lo k → R (slots (k % n)) (entries k) → R (slots' (k % n)) (entries' k)) :
    Holds R n lo slots' entries' :=
  fun k hk => hR k hk (h k hk)

end Window
