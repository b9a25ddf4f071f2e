import GalapagOS.Lib.Memory

/-!
# Copying and filling memory (`lib.c`)

`memcpy` and `memset_word` as the accesses their inline assembly makes. `memcpy` moves single
bytes until the destination is aligned, then double words, then the remaining bytes, always
upwards; it is a move of the whole range when the destination lies below the source
or the ranges are disjoint (`applyAll_memcpy`). `strcpy` and `strncpy` as the stores of their loops.
-/

namespace GalapagOS

open Memory

/-- The code after `.memcpy_aligned`: `rep movsl`, then the loop `.memcpy_bottom`. -/
def memcpyAligned (dest src n : ℕ) : List (Op UInt8) :=
  moves 4 dest src (n / 4) ++ moves 1 (dest + n / 4 * 4) (src + n / 4 * 4) (n % 4)

/-- `memcpy`, for ranges that do not wrap around the address space. -/
def memcpy (dest src : ℕ) : ℕ → List (Op UInt8)
  | 0 => []
  | n + 1 =>
    if dest % 4 = 0 then memcpyAligned dest src (n + 1)
    else .move dest src 1 :: memcpy (dest + 1) (src + 1) n

/-- `memset_word`: `rep stosw` of the word with bytes `lo` and `hi`. -/
def memsetWord (s : ℕ) (lo hi : UInt8) : ℕ → List (Op UInt8)
  | 0 => []
  | n + 1 => .write s [lo, hi] :: memsetWord (s + 2) lo hi n

/-- `strcpy` of the string `src`. -/
def strcpy (dest : ℕ) : List UInt8 → List (Op UInt8)
  | [] => [.write dest [0]]
  | b :: src => .write dest [b] :: strcpy (dest + 1) src

/-- The second loop of `strncpy`, with `n` bytes left. -/
def strncpyFill (dest : ℕ) : ℕ → List (Op UInt8)
  | 0 => []
  | n + 1 => .write dest [0] :: strncpyFill (dest + 1) n

/-- `strncpy`, from the string `src` that is followed by a NUL. -/
def strncpy (dest : ℕ) : List UInt8 → ℕ → List (Op UInt8)
  | _, 0 => []
  | [], n + 1 => strncpyFill dest (n + 1)
  | b :: src, n + 1 =>
    if b = 0 then strncpyFill dest (n + 1) else .write dest [b] :: strncpy (dest + 1) src n

/-! ## `memcpy` moves the range -/

theorem applyAll_memcpyAligned {dest src n j : ℕ} (h : dest ≤ src ∨ src + (j + n) ≤ dest)
    (m : ℕ → UInt8) :
    applyAll (memcpyAligned (dest + j) (src + j) n) ((Op.move dest src j).apply m)
      = (Op.move dest src (j + n)).apply m := by
  have hsplit : j + n / 4 * 4 + n % 4 * 1 = j + n := by omega
  rw [memcpyAligned, applyAll_append, applyAll_moves m (by omega), Nat.add_assoc dest,
    Nat.add_assoc src, applyAll_moves m (by omega), hsplit]

/-- A `memcpy` that continues a move extends it. -/
theorem applyAll_memcpy_from {dest src : ℕ} (m : ℕ → UInt8) :
    ∀ {n j : ℕ}, dest ≤ src ∨ src + (j + n) ≤ dest →
      applyAll (memcpy (dest + j) (src + j) n) ((Op.move dest src j).apply m)
        = (Op.move dest src (j + n)).apply m
  | 0, j, _ => rfl
  | n + 1, j, h => by
    rw [memcpy]
    by_cases hal : (dest + j) % 4 = 0
    · rw [if_pos hal]
      exact applyAll_memcpyAligned h m
    · rw [if_neg hal, applyAll, List.foldl_cons, move_move (by omega)]
      have hrec : applyAll (memcpy (dest + (j + 1)) (src + (j + 1)) n)
          ((Op.move dest src (j + 1)).apply m) = (Op.move dest src (j + 1 + n)).apply m :=
        applyAll_memcpy_from m (by omega)
      rw [Nat.add_assoc j 1 n, Nat.add_comm 1 n] at hrec
      exact hrec

theorem applyAll_memcpy {dest src n : ℕ} (h : dest ≤ src ∨ src + n ≤ dest) (m : ℕ → UInt8) :
    applyAll (memcpy dest src n) m = (Op.move dest src n).apply m := by
  have hmove : applyAll (memcpy (dest + 0) (src + 0) n) ((Op.move dest src 0).apply m)
      = (Op.move dest src (0 + n)).apply m := applyAll_memcpy_from m (by omega)
  rwa [move_zero, Nat.zero_add] at hmove

/-! ## `memset_word` fills a range -/

/-- A fill, address by address. -/
theorem applyAll_memsetWord (lo hi : UInt8) (n : ℕ) :
    ∀ (s : ℕ) (m : ℕ → UInt8) (a : ℕ), applyAll (memsetWord s lo hi n) m a
      = if s ≤ a ∧ a < s + 2 * n then if (a - s) % 2 = 0 then lo else hi else m a := by
  induction n with
  | zero =>
    intro s m a
    rw [if_neg (by omega)]
    rfl
  | succ n ih =>
    intro s m a
    rw [memsetWord, applyAll, List.foldl_cons]
    show applyAll (memsetWord (s + 2) lo hi n) (place s [lo, hi] m) a = _
    rw [ih]
    by_cases hrest : s + 2 ≤ a ∧ a < s + 2 + 2 * n
    · have hparity : (a - (s + 2)) % 2 = (a - s) % 2 := by omega
      rw [if_pos hrest, if_pos (show s ≤ a ∧ a < s + 2 * (n + 1) by omega), hparity]
    · rw [if_neg hrest]
      by_cases hlo : a < s
      · rw [place_of_lt hlo, if_neg (by omega)]
      by_cases hhi : s + 2 ≤ a
      · rw [place_of_le _ hhi, if_neg (by omega)]
      · -- the word that is stored first
        obtain ⟨j, hj, rfl⟩ : ∃ j, j < 2 ∧ a = s + j := ⟨a - s, by omega, by omega⟩
        rw [if_pos (by omega), place_add hj, Nat.add_sub_cancel_left]
        obtain rfl | rfl : j = 0 ∨ j = 1 := by omega
        · rfl
        · rfl

/-! ## `strcpy` and `strncpy` copy a string -/

theorem applyAll_strcpy (src : List UInt8) :
    ∀ dest m, applyAll (strcpy dest src) m = place dest (src ++ [0]) m := by
  induction src with
  | nil => exact fun _ _ => rfl
  | cons b src ih => exact fun dest m => ih (dest + 1) (place dest [b] m)

/-- As many characters as are asked for, from a string that has them. -/
theorem applyAll_strncpy (src : List UInt8) :
    ∀ {n : ℕ}, n ≤ src.length → 0 ∉ src.take n →
      ∀ dest m, applyAll (strncpy dest src n) m = place dest (src.take n) m := by
  induction src with
  | nil =>
    intro n hn _ dest m
    obtain rfl : n = 0 := Nat.le_zero.mp hn
    rfl
  | cons b src ih =>
    intro n hn hnul dest m
    cases n with
    | zero => rfl
    | succ n =>
      rw [List.take_succ_cons] at hnul
      have hb : b ≠ 0 := fun he => hnul (by simp [he])
      rw [strncpy, if_neg hb]
      exact ih (by simpa using hn) (fun h => hnul (List.mem_cons_of_mem b h)) (dest + 1)
        (place dest [b] m)

/-! ## The addresses they touch -/

theorem write_within {S : Set ℕ} {a : ℕ} {b : UInt8} (h : a ∈ S) : (Op.write a [b]).Within S := by
  intro j hj
  obtain rfl : j = 0 := Nat.lt_one_iff.mp hj
  exact h

theorem strcpy_within {S : Set ℕ} {src : List UInt8} :
    ∀ {dest : ℕ}, (∀ j ≤ src.length, dest + j ∈ S) → ∀ op ∈ strcpy dest src, op.Within S := by
  induction src with
  | nil =>
    intro dest h op hop
    rw [List.mem_singleton.mp hop]
    exact write_within (h 0 le_rfl)
  | cons b src ih =>
    intro dest h op hop
    rcases List.mem_cons.mp hop with rfl | hop
    · exact write_within (h 0 (Nat.zero_le _))
    · refine ih (fun j hj => ?_) op hop
      rw [Nat.add_assoc, Nat.add_comm 1 j]
      exact h (j + 1) (by simpa using hj)

/-- The stores of a copy stay inside an array exactly if the string and its NUL fit. -/
theorem strcpy_within_iff {S : Set ℕ} {src : List UInt8} :
    ∀ {dest : ℕ}, (∀ op ∈ strcpy dest src, op.Within S) ↔ ∀ j ≤ src.length, dest + j ∈ S := by
  refine fun {dest} => ⟨?_, strcpy_within⟩
  induction src generalizing dest with
  | nil =>
    intro h j hj
    obtain rfl : j = 0 := Nat.le_zero.mp hj
    exact h _ List.mem_cons_self 0 Nat.one_pos
  | cons b src ih =>
    intro h j hj
    cases j with
    | zero => exact h _ List.mem_cons_self 0 Nat.one_pos
    | succ j =>
      have hrest := ih (fun op hop => h op (List.mem_cons_of_mem _ hop)) j (by simpa using hj)
      rwa [Nat.add_assoc, Nat.add_comm 1 j] at hrest

theorem strncpyFill_within {S : Set ℕ} {n : ℕ} :
    ∀ {dest : ℕ}, (∀ j < n, dest + j ∈ S) → ∀ op ∈ strncpyFill dest n, op.Within S := by
  induction n with
  | zero =>
    intro dest _ op hop
    simp [strncpyFill] at hop
  | succ n ih =>
    intro dest h op hop
    rcases List.mem_cons.mp hop with rfl | hop
    · exact write_within (h 0 (Nat.succ_pos n))
    · refine ih (fun j hj => ?_) op hop
      rw [Nat.add_assoc, Nat.add_comm 1 j]
      exact h (j + 1) (by omega)

theorem strncpy_within {S : Set ℕ} {src : List UInt8} :
    ∀ {n dest : ℕ}, (∀ j < n, dest + j ∈ S) → ∀ op ∈ strncpy dest src n, op.Within S := by
  induction src with
  | nil =>
    intro n dest h op hop
    cases n with
    | zero => simp [strncpy] at hop
    | succ n => exact strncpyFill_within h op hop
  | cons b src ih =>
    intro n dest h op hop
    cases n with
    | zero => simp [strncpy] at hop
    | succ n =>
      rw [strncpy] at hop
      split at hop
      · exact strncpyFill_within h op hop
      · rcases List.mem_cons.mp hop with rfl | hop
        · exact write_within (h 0 (Nat.succ_pos n))
        · refine ih (fun j hj => ?_) op hop
          rw [Nat.add_assoc, Nat.add_comm 1 j]
          exact h (j + 1) (by omega)

theorem moves_within {S : Set ℕ} {w : ℕ} :
    ∀ {k dest src : ℕ}, (∀ j < k * w, dest + j ∈ S ∧ src + j ∈ S) →
      ∀ op ∈ (moves w dest src k : List (Op UInt8)), op.Within S
  | 0, _, _, _, op, hop => by simp [moves] at hop
  | k + 1, dest, src, h, op, hop => by
    rw [Nat.succ_mul] at h
    rw [moves, List.mem_cons] at hop
    rcases hop with rfl | hop
    · exact fun j hj => h j (by omega)
    · refine moves_within (fun j hj => ?_) op hop
      simpa only [Nat.add_assoc] using h (w + j) (by omega)

theorem memcpy_within {S : Set ℕ} :
    ∀ {n dest src : ℕ}, (∀ j < n, dest + j ∈ S ∧ src + j ∈ S) →
      ∀ op ∈ memcpy dest src n, op.Within S
  | 0, _, _, _, op, hop => by simp [memcpy] at hop
  | n + 1, dest, src, h, op, hop => by
    rw [memcpy] at hop
    split at hop
    · rw [memcpyAligned, List.mem_append] at hop
      rcases hop with hop | hop
      · exact moves_within (fun j hj => h j (by omega)) op hop
      · refine moves_within (fun j hj => ?_) op hop
        simpa only [Nat.add_assoc] using h ((n + 1) / 4 * 4 + j) (by omega)
    · rw [List.mem_cons] at hop
      rcases hop with rfl | hop
      · exact fun j hj => h j (by omega)
      · refine memcpy_within (fun j hj => ?_) op hop
        simpa only [Nat.add_assoc] using h (1 + j) (by omega)

theorem memsetWord_within {S : Set ℕ} {lo hi : UInt8} {n : ℕ} :
    ∀ {s : ℕ}, (∀ j < 2 * n, s + j ∈ S) → ∀ op ∈ memsetWord s lo hi n, op.Within S := by
  induction n with
  | zero => exact fun _ op hop => absurd hop List.not_mem_nil
  | succ n ih =>
    intro s h op hop
    rw [memsetWord, List.mem_cons] at hop
    rcases hop with rfl | hop
    · intro j hj
      rw [List.length_cons, List.length_singleton] at hj
      exact h j (by omega)
    · refine ih (fun j hj => ?_) op hop
      rw [Nat.add_assoc]
      exact h (2 + j) (by omega)

end GalapagOS
