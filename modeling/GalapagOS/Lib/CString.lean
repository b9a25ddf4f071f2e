import Mathlib.Data.List.Basic
import Mathlib.Data.List.GetD
import Mathlib.Data.Nat.Find
import Mathlib.Data.Nat.Notation
import Mathlib.Logic.Function.Basic

/-!
# Terminated strings

`Text f s` says that the values of `f` from index 0 on are those of `s` with a zero behind them.
`loop` is the loop that visits the values up to the zero and gives each of them to its body; with
enough iterations it runs through the whole string (`loop_eq`). `copyLoop` copies a string with its
zero, also downwards over itself (`copyLoop_eq`). `swapLoop` exchanges the values between two
indices from the outside in, which reverses them (`swapLoop_eq`). `Reads f a s` is a range of values
without a zero behind it.
-/

namespace CString

open Function

variable {β σ : Type*}

/-! ## Ranges -/

section

variable {f g : ℕ → β} {s t : List β} {a : ℕ}

/-- The values from `a` on are those of `s`. -/
def Reads (f : ℕ → β) (a : ℕ) (s : List β) : Prop := ∀ i (h : i < s.length), f (a + i) = s[i]

theorem Reads.congr (h : Reads f a s) (hg : ∀ i, a ≤ i → i < a + s.length → g i = f i) :
    Reads g a s :=
  fun i hi => (hg (a + i) (Nat.le_add_right a i) (by omega)).trans (h i hi)

theorem Reads.append (h : Reads f a s) (h' : Reads f (a + s.length) t) : Reads f a (s ++ t) := by
  intro i hi
  rw [List.length_append] at hi
  by_cases hlt : i < s.length
  · rw [List.getElem_append_left hlt, h i hlt]
  · rw [List.getElem_append_right (Nat.not_lt.mp hlt), ← h' (i - s.length) (by omega)]
    congr 1
    omega

theorem Reads.left (h : Reads f a (s ++ t)) : Reads f a s := by
  intro i hi
  rw [h i (by rw [List.length_append]; omega), List.getElem_append_left hi]

theorem Reads.right (h : Reads f a (s ++ t)) : Reads f (a + s.length) t := by
  intro i hi
  rw [Nat.add_assoc, h (s.length + i) (by rw [List.length_append]; omega),
    List.getElem_append_right (Nat.le_add_right _ _)]
  simp only [Nat.add_sub_cancel_left]

end

/-! ## Strings -/

section

variable [Zero β] {f g : ℕ → β} {s s' : List β} {i : ℕ}

/-- The values from index 0 on are the string and a zero. -/
structure Text (f : ℕ → β) (s : List β) : Prop where
  nonzero : (0 : β) ∉ s
  cells : ∀ i ≤ s.length, f i = s.getD i 0

theorem Text.congr (h : Text f s) (hg : ∀ i ≤ s.length, g i = f i) : Text g s :=
  ⟨h.nonzero, fun i hi => (hg i hi).trans (h.cells i hi)⟩

theorem Text.getElem (h : Text f s) (hi : i < s.length) : f i = s[i] := by
  rw [h.cells i (Nat.le_of_lt hi), List.getD_eq_getElem s 0 hi]

theorem Text.ne_zero (h : Text f s) (hi : i < s.length) : f i ≠ 0 := by
  rw [h.getElem hi]
  exact fun he => h.nonzero (he ▸ List.getElem_mem hi)

theorem Text.at_length (h : Text f s) : f s.length = 0 := by
  rw [h.cells _ (Nat.le_refl _), List.getD_eq_default s 0 (Nat.le_refl _)]

/-- No zero comes before the end. -/
theorem Text.length_le (h : Text f s) (hi : f i = 0) : s.length ≤ i :=
  Nat.not_lt.mp fun hlt => h.ne_zero hlt hi

/-- There is only one string. -/
theorem Text.unique (h : Text f s) (h' : Text f s') : s = s' := by
  have hlen : s.length = s'.length :=
    Nat.le_antisymm (h.length_le h'.at_length) (h'.length_le h.at_length)
  refine List.ext_getElem hlen fun i hi hi' => ?_
  rw [← h.getElem hi, h'.getElem hi']

/-- The string behind its first value. -/
theorem Text.tail {b : β} (h : Text f (b :: s)) : Text (fun i => f (i + 1)) s where
  nonzero hmem := h.nonzero (List.mem_cons_of_mem b hmem)
  cells i hi := by
    rw [h.cells (i + 1) (by simpa using hi), List.getD_cons_succ]

/-- A string behind other values. -/
theorem Text.append {t : List β} (ht : (0 : β) ∉ t) (hcells : ∀ i (hi : i < t.length), f i = t[i])
    (h : Text (fun i => f (t.length + i)) s) : Text f (t ++ s) where
  nonzero hmem := (List.mem_append.mp hmem).elim ht h.nonzero
  cells i hi := by
    rw [List.length_append] at hi
    by_cases hlt : i < t.length
    · rw [hcells i hlt, List.getD_append t s 0 i hlt, List.getD_eq_getElem t 0 hlt]
    · obtain ⟨j, rfl⟩ : ∃ j, i = t.length + j := ⟨i - t.length, by omega⟩
      rw [h.cells j (by omega), List.getD_append_right t s 0 _ (Nat.le_add_right _ _),
        Nat.add_sub_cancel_left]

/-- A range with a zero behind it. -/
theorem Reads.text {a : ℕ} (h : Reads f a s) (hs : (0 : β) ∉ s) (hend : f (a + s.length) = 0) :
    Text (fun i => f (a + i)) s where
  nonzero := hs
  cells i hi := by
    rcases Nat.lt_or_eq_of_le hi with hi | rfl
    · rw [h i hi, List.getD_eq_getElem s 0 hi]
    · rw [hend, List.getD_eq_default s 0 (Nat.le_refl _)]

/-- The values up to the first zero are a string. -/
theorem text_of_zero {n : ℕ} (hzero : f n = 0) (hlt : ∀ i < n, f i ≠ 0) :
    Text f ((List.range n).map f) where
  nonzero hmem := by
    obtain ⟨i, hi, he⟩ := List.mem_map.mp hmem
    exact hlt i (List.mem_range.mp hi) he
  cells i hi := by
    rw [List.length_map, List.length_range] at hi
    rcases Nat.lt_or_eq_of_le hi with hi | rfl
    · rw [List.getD_eq_getElem _ 0 (by simpa using hi), List.getElem_map, List.getElem_range]
    · rw [List.getD_eq_default _ 0 (by simp), hzero]

/-- The string, read back. -/
theorem Text.map_range (h : Text f s) : (List.range s.length).map f = s := by
  refine List.ext_getElem (by simp) fun i hi _ => ?_
  rw [List.getElem_map, List.getElem_range, h.getElem (by simpa using hi)]

theorem Text.eq_nil_iff (h : Text f s) : f 0 = 0 ↔ s = [] := by
  refine ⟨fun he => List.length_eq_zero_iff.mp (Nat.le_zero.mp (h.length_le he)), ?_⟩
  rintro rfl
  exact h.at_length

/-- The values of a list, followed by zeros. -/
theorem text_getD (h : (0 : β) ∉ s) : Text (fun i => s.getD i 0) s := ⟨h, fun _ _ => rfl⟩

/-! ## The loop over a string -/

variable [DecidableEq β]

/-- The string within the first `n` values. -/
theorem Text.takeWhile_range (n : ℕ) :
    ∀ {f : ℕ → β} {s : List β}, Text f s →
      ((List.range n).map f).takeWhile (· ≠ 0) = s.take n := by
  induction n with
  | zero => simp
  | succ n ih =>
    intro f s h
    rw [List.range_succ_eq_map, List.map_cons, List.map_map]
    cases s with
    | nil =>
      have hend : f 0 = 0 := h.at_length
      simp [hend]
    | cons b s =>
      have hne : f 0 ≠ 0 := h.ne_zero (i := 0) (Nat.succ_pos _)
      have hfirst : f 0 = b := h.getElem (i := 0) (Nat.succ_pos _)
      have hrec := ih h.tail
      rw [List.takeWhile_cons_of_pos (by simpa using hne), hfirst, List.take_succ_cons]
      exact congrArg _ hrec

/-- Where there is a zero, there is a string before it. -/
theorem exists_text (h : ∃ n, f n = 0) : ∃ s, Text f s :=
  ⟨_, text_of_zero (Nat.find_spec h) fun _ hi => Nat.find_min h hi⟩

/-- `while (f[i] != 0) { body(f[i]); i++; }`, with the index at the end; `none` if the loop is still
running after `fuel` tests. -/
def loop (f : ℕ → β) (body : σ → β → σ) : ℕ → ℕ → σ → Option (ℕ × σ)
  | 0, _, _ => none
  | fuel + 1, i, x => if f i = 0 then some (i, x) else loop f body fuel (i + 1) (body x (f i))

theorem loop_from (h : Text f s) (body : σ → β → σ) (fuel : ℕ) :
    ∀ {i : ℕ} (x : σ), i ≤ s.length → s.length < i + fuel →
      loop f body fuel i x = some (s.length, (s.drop i).foldl body x) := by
  induction fuel with
  | zero =>
    intro i x hi hfuel
    omega
  | succ fuel ih =>
    intro i x hi hfuel
    rw [loop]
    rcases Nat.lt_or_eq_of_le hi with hlt | rfl
    · rw [if_neg (h.ne_zero hlt), ih _ hlt (by omega), h.getElem hlt, List.drop_eq_getElem_cons hlt,
        List.foldl_cons]
    · rw [if_pos h.at_length, List.drop_length, List.foldl_nil]

theorem loop_eq (h : Text f s) (body : σ → β → σ) {fuel : ℕ} (hfuel : s.length < fuel) (x : σ) :
    loop f body fuel 0 x = some (s.length, s.foldl body x) := by
  rw [loop_from h body fuel x (Nat.zero_le _) (by omega), List.drop_zero]

/-! ## Copying -/

/-- `while ((*dst++ = *src++) != 0);` -/
def copyLoop : ℕ → ℕ → ℕ → (ℕ → β) → Option (ℕ → β)
  | 0, _, _, _ => none
  | fuel + 1, dst, src, f =>
    if f src = 0 then some (update f dst (f src))
    else copyLoop fuel (dst + 1) (src + 1) (update f dst (f src))

/-- A string is copied to a lower place with its zero, and nothing else changes. -/
theorem copyLoop_eq (fuel : ℕ) :
    ∀ {dst src : ℕ} {f : ℕ → β} {s : List β}, Text (fun i => f (src + i)) s → dst < src →
      s.length < fuel → ∃ g, copyLoop fuel dst src f = some g ∧
        ∀ j, g j = if dst ≤ j ∧ j ≤ dst + s.length then f (src + (j - dst)) else f j := by
  induction fuel with
  | zero =>
    intro dst src f s _ _ hfuel
    omega
  | succ fuel ih =>
    intro dst src f s h hlt hfuel
    rw [copyLoop]
    cases s with
    | nil =>
      have hend : f src = 0 := h.at_length
      refine ⟨_, if_pos hend, fun j => ?_⟩
      by_cases hj : j = dst
      · rw [hj, update_self, if_pos ⟨Nat.le_refl _, Nat.le_refl _⟩, Nat.sub_self, Nat.add_zero]
      · rw [update_of_ne hj, if_neg (by rw [List.length_nil]; omega)]
    | cons b s =>
      have hne : f src ≠ 0 := h.ne_zero (i := 0) (Nat.succ_pos _)
      rw [List.length_cons] at hfuel ⊢
      -- the first value goes below everything that is still to be read
      have htail : Text (fun i => update f dst (f src) (src + 1 + i)) s := by
        refine h.tail.congr fun i _ => ?_
        rw [update_of_ne (by omega), Nat.add_assoc, Nat.add_comm 1]
      obtain ⟨g, hg, hcells⟩ := ih htail (show dst + 1 < src + 1 by omega) (by omega)
      refine ⟨g, by rw [if_neg hne, hg], fun j => ?_⟩
      rw [hcells]
      by_cases hj : j = dst
      · rw [hj, if_neg (by omega), update_self, if_pos (by omega), Nat.sub_self, Nat.add_zero]
      by_cases hin : dst ≤ j ∧ j ≤ dst + (s.length + 1)
      · rw [if_pos (by omega), if_pos hin, update_of_ne (by omega)]
        congr 1
        omega
      · rw [if_neg (by omega), if_neg hin, update_of_ne hj]

end

/-! ## Reversing in place -/

/-- `while (beg < end) { swap(f[beg], f[end]); beg++; end--; }` -/
def swapLoop : ℕ → ℤ → ℤ → (ℕ → β) → Option (ℕ → β)
  | 0, _, _, _ => none
  | fuel + 1, b, e, f =>
    if b < e then
      swapLoop fuel (b + 1) (e - 1) (update (update f e.toNat (f b.toNat)) b.toNat (f e.toNat))
    else some f

/-- One exchange, value by value. -/
theorem swap_apply {b e : ℤ} (hb : 0 ≤ b) (hlt : b < e) (f : ℕ → β) (i : ℕ) :
    update (update f e.toNat (f b.toNat)) b.toNat (f e.toNat) i
      = if (i : ℤ) = b ∨ (i : ℤ) = e then f (b + e - i).toNat else f i := by
  by_cases hib : (i : ℤ) = b
  · rw [if_pos (.inl hib), show b.toNat = i by omega, update_self]
    congr 1
    omega
  rw [update_of_ne (by omega)]
  by_cases hie : (i : ℤ) = e
  · rw [if_pos (.inr hie), show e.toNat = i by omega, update_self]
    congr 1
    omega
  · rw [update_of_ne (by omega), if_neg (by omega)]

/-- At most one value lies between the indices when the loop ends. -/
theorem reversed_of_le {b e : ℤ} (h : e ≤ b) (f : ℕ → β) (i : ℕ) :
    (if b ≤ i ∧ i ≤ e then f (b + e - i).toNat else f i) = f i := by
  by_cases hi : b ≤ i ∧ i ≤ e
  · rw [if_pos hi, show (b + e - i).toNat = i by omega]
  · rw [if_neg hi]

/-- The values between the two indices are reversed, the others stay. -/
theorem swapLoop_eq (fuel : ℕ) :
    ∀ {b e : ℤ} (f : ℕ → β), 0 ≤ b → e ≤ b + 2 * fuel → ∃ g, swapLoop (fuel + 1) b e f = some g ∧
      ∀ i : ℕ, g i = if b ≤ i ∧ i ≤ e then f (b + e - i).toNat else f i := by
  induction fuel with
  | zero =>
    intro b e f hb hfuel
    exact ⟨f, if_neg (by omega), fun i => (reversed_of_le (by omega) f i).symm⟩
  | succ fuel ih =>
    intro b e f hb hfuel
    rw [swapLoop]
    by_cases hlt : b < e
    · rw [if_pos hlt]
      obtain ⟨g, hg, hcells⟩ := ih (b := b + 1) (e := e - 1) _ (by omega) (by omega)
      refine ⟨g, hg, fun i => ?_⟩
      rw [hcells, swap_apply hb hlt, swap_apply hb hlt]
      by_cases hin : b + 1 ≤ i ∧ i ≤ e - 1
      · rw [if_pos hin, if_neg (by omega), if_pos (by omega)]
        congr 1
        omega
      · rw [if_neg hin]
        by_cases hend : (i : ℤ) = b ∨ (i : ℤ) = e
        · rw [if_pos hend, if_pos (by omega)]
        · rw [if_neg hend, if_neg (by omega)]
    · exact ⟨f, if_neg hlt, fun i => (reversed_of_le (by omega) f i).symm⟩

end CString
