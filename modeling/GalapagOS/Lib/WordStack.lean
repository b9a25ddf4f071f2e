import Mathlib.Algebra.Group.Nat.Defs
import Mathlib.Logic.Function.Basic

/-!
# Stacks of words in memory

A stack of 32-bit words that grows down from a base address. `slot base i` is the address of the
`i`-th word below the base, so the word at the base itself is not part of the stack. `Holds` relates
a memory to the list of the words on the stack, the top first: the list forgets the addresses, and
its rules say which stores it survives.
-/

namespace WordStack

abbrev Word : Type := BitVec 32

variable {base : Word} {mem : Word → Word} {ws : List Word} {i j : ℕ}

/-- The address of the `i`-th word below `base`. -/
def slot (base : Word) (i : ℕ) : Word := base - BitVec.ofNat 32 (4 * i)

@[simp] theorem slot_zero (base : Word) : slot base 0 = base := by
  simp [slot]

theorem slot_sub (base : Word) (i n : ℕ) :
    slot base i - BitVec.ofNat 32 (4 * n) = slot base (i + n) := by
  unfold slot
  bv_omega

theorem slot_add (base : Word) (i n : ℕ) :
    slot base (i + n) + BitVec.ofNat 32 (4 * n) = slot base i := by
  unfold slot
  bv_omega

/-- Up to the size of the address space the slots are different words. -/
theorem slot_inj (hi : i < 2 ^ 30) (hj : j < 2 ^ 30) : slot base i = slot base j ↔ i = j := by
  unfold slot
  constructor
  · intro h
    bv_omega
  · intro h
    rw [h]

/-- A slot is below the base, unless the stack is too long for the address space. -/
theorem slot_toNat (h : 4 * i ≤ base.toNat) : (slot base i).toNat + 4 * i = base.toNat := by
  unfold slot
  bv_omega

/-- The words on the stack, the top first. -/
def Holds (mem : Word → Word) (base : Word) : List Word → Prop
  | [] => True
  | w :: ws => mem (slot base (ws.length + 1)) = w ∧ Holds mem base ws

/-- Only the words of the stack matter. -/
theorem Holds.congr {mem' : Word → Word} (h : Holds mem base ws)
    (heq : ∀ i, 1 ≤ i → i ≤ ws.length → mem' (slot base i) = mem (slot base i)) :
    Holds mem' base ws := by
  induction ws with
  | nil => trivial
  | cons w ws ih =>
    refine ⟨?_, ih h.2 fun i h₁ hi => heq i h₁ (Nat.le_succ_of_le hi)⟩
    rw [heq (ws.length + 1) (by omega) (by simp)]
    exact h.1

theorem Holds.of_append {us : List Word} (h : Holds mem base (us ++ ws)) : Holds mem base ws := by
  induction us with
  | nil => exact h
  | cons u us ih => exact ih h.2

/-- A store below the stack. -/
theorem Holds.store (h : Holds mem base ws) (hi : ws.length < i) (hlt : i < 2 ^ 30) (w : Word) :
    Holds (Function.update mem (slot base i) w) base ws := by
  refine h.congr fun j _ hj => ?_
  rw [Function.update_of_ne]
  rw [ne_eq, slot_inj (by omega) hlt]
  omega

/-- A push. -/
theorem Holds.push (h : Holds mem base ws) (hlt : ws.length + 1 < 2 ^ 30) (w : Word) :
    Holds (Function.update mem (slot base (ws.length + 1)) w) base (w :: ws) :=
  ⟨Function.update_self .., h.store (Nat.lt_succ_self _) hlt w⟩

end WordStack
