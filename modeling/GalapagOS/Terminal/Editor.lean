import GalapagOS.Terminal.Lines

/-!
# A plain line editor

The reference editor keeps the line as a list of characters. The driver keeps it in the cells of
the line buffer below `linelength`; every key takes the two to the same line again, and after a
newline `terminal_read` delivers the line.
-/

namespace GalapagOS
namespace Terminal

open Buffer Function

variable {l : Lines} {tm : Terminals} {t : ℤ} {c : UInt8} {s : List UInt8}

/-! ## The editor -/

/-- A key of the editor, on a line of at most 128 characters. -/
def edit (line : List UInt8) (c : UInt8) : List UInt8 :=
  if c = backspace then line.dropLast
  else if c = tab then line ++ List.replicate 8 asciiSpace
  else if line.length < 128 then line ++ [c] else line

/-- Printable characters, backspaces, and tabs that fit. -/
def IsKey (line : List UInt8) (c : UInt8) : Prop :=
  Printable c ∨ c = backspace ∨ c = tab ∧ line.length ≤ 120

instance (line : List UInt8) (c : UInt8) : Decidable (IsKey line c) :=
  inferInstanceAs (Decidable (_ ∨ _))

/-- A sequence of keys, typed from a line on. -/
def AreKeys : List UInt8 → List UInt8 → Prop
  | _, [] => True
  | line, c :: cs => IsKey line c ∧ AreKeys (edit line c) cs

instance decidableAreKeys : ∀ line cs, Decidable (AreKeys line cs)
  | _, [] => inferInstanceAs (Decidable True)
  | line, c :: cs =>
    have := decidableAreKeys (edit line c) cs
    inferInstanceAs (Decidable (_ ∧ _))

theorem length_edit_le (hs : s.length ≤ 128) (hc : IsKey s c) : (edit s c).length ≤ 128 := by
  unfold edit
  split
  · rw [List.length_dropLast]
    omega
  · split
    · rename_i hbs htab
      have hfit : s.length ≤ 120 := by
        rcases hc with hp | hb | ⟨-, hfit⟩
        · exact absurd (htab ▸ hp) tab_kind.2.2
        · exact absurd hb hbs
        · exact hfit
      rw [List.length_append, List.length_replicate]
      omega
    · split
      · rw [List.length_append, List.length_singleton]
        omega
      · exact hs

/-- No key puts a NUL on the line. -/
theorem zero_notMem_edit (hs : 0 ∉ s) (hc : IsKey s c) : 0 ∉ edit s c := by
  unfold edit
  split
  · exact fun h => hs ((List.dropLast_sublist s).subset h)
  · split
    · rw [List.mem_append, List.mem_replicate]
      rintro (h | ⟨-, h⟩)
      · exact hs h
      · exact absurd h (by decide)
    · split
      · rename_i hbs htab hlt
        have hp : Printable c := by
          rcases hc with hp | hb | ⟨ht, -⟩
          · exact hp
          · exact absurd hb hbs
          · exact absurd ht htab
        rw [List.mem_append, List.mem_singleton]
        rintro (h | rfl)
        · exact hs h
        · exact absurd hp (by decide)
      · exact hs

/-! ## The line in the buffer -/

/-- The line of terminal `t` is `s`. -/
structure Typed (l : Lines) (t : ℤ) (s : List UInt8) : Prop where
  length : l.linelength t = s.length
  holds : Holds (row t l.linebuffer) s

/-- Stores of the same character from the end of the line on. -/
theorem holds_store_line (h : Holds (row t l.linebuffer) s) (b : UInt8) (m : ℕ) :
    Holds (row t (l.store t ((List.range m).map fun j : ℕ => .line (s.length + j) b)).linebuffer)
      (s ++ List.replicate m b) := by
  induction m with
  | zero =>
    rw [List.replicate_zero, List.append_nil]
    exact h
  | succ m ih =>
    have hsnoc := ih.snoc b
    rw [List.length_append, List.length_replicate] at hsnoc
    rw [List.range_succ, List.map_append, Lines.store_append, List.replicate_succ',
      ← List.append_assoc]
    show Holds (row t (update _ (slot t (s.length + m)) b)) _
    rw [row_update_self]
    exact_mod_cast hsnoc

/-- A key takes the line to the line of the editor. -/
theorem Typed.key (h : Typed l t s) (hs : s.length ≤ 128) (hc : IsKey s c) :
    Typed (l.act t (newLength c) (lineStores c)) t (edit s c) := by
  have hlen := h.length
  have hnew : (l.act t (newLength c) (lineStores c)).linelength t
      = newLength c s.length := by
    show update l.linelength t _ t = _
    rw [update_self, hlen]
  have hbuf : (l.act t (newLength c) (lineStores c)).linebuffer
      = (l.store t (lineStores c s.length)).linebuffer := by
    unfold Lines.act
    rw [hlen]
  rcases hc with hp | rfl | ⟨rfl, hfit⟩
  · -- a printable character
    have hnl : c ≠ newLineChar := fun he => newLineChar_kind.2.2 (he ▸ hp)
    have hbs : c ≠ backspace := fun he => backspace_kind.2.2 (he ▸ hp)
    have htab : c ≠ tab := fun he => tab_kind.2.2 (he ▸ hp)
    by_cases hlt : s.length < 128
    · have hlt' : (s.length : ℤ) < bufferLimit := by
        unfold bufferLimit
        omega
      constructor
      · rw [hnew]
        simp [newLength, edit, hnl, hbs, htab, hp, hlt, hlt']
      · rw [hbuf]
        simp only [lineStores, edit, hnl, hbs, htab, hp, hlt, hlt', if_true, if_false]
        show Holds (row t (update l.linebuffer (slot t s.length) c)) (s ++ [c])
        rw [row_update_self]
        exact h.holds.snoc c
    · have hlt' : ¬(s.length : ℤ) < bufferLimit := by
        unfold bufferLimit
        omega
      constructor
      · rw [hnew]
        simp [newLength, edit, hnl, hbs, htab, hlt, hlt']
      · rw [hbuf]
        simp only [lineStores, edit, hnl, hbs, htab, hlt, hlt', if_false]
        exact h.holds
  · -- a backspace: the store is behind the shorter line
    have hdrop : (s.dropLast.length : ℤ) = if 0 < (s.length : ℤ) then (s.length : ℤ) - 1 else s.length := by
      rw [List.length_dropLast]
      split <;> omega
    constructor
    · rw [hnew]
      simp only [newLength, edit, backspace_kind, if_true, if_false, hdrop]
    · rw [hbuf]
      simp only [lineStores, edit, backspace_kind, if_true, if_false]
      show Holds (row t (update l.linebuffer (slot t _) 0)) s.dropLast
      rw [row_update_self]
      exact h.holds.dropLast.update_of_le hdrop.le 0
  · -- a tab
    have hlt' : (s.length : ℤ) < bufferLimit := by
      unfold bufferLimit
      omega
    constructor
    · rw [hnew]
      simp [newLength, edit, tab_kind, hlt']
    · rw [hbuf]
      simp only [lineStores, edit, tab_kind, if_true, if_false, hlt']
      exact holds_store_line h.holds asciiSpace 8

/-- Keys on the displayed terminal take its line to the line of the editor. -/
theorem Typed.keys {cs : List UInt8} :
    ∀ {tm : Terminals} {s : List UInt8}, Typed tm.lines tm.currTerminal s → s.length ≤ 128 →
      AreKeys s cs → Typed (tm.keys cs).lines tm.currTerminal (cs.foldl edit s) := by
  induction cs with
  | nil => exact fun h _ _ => h
  | cons c cs ih =>
    intro tm s h hs hkeys
    have hkey := h.key hs hkeys.1
    rw [← lines_key, ← currTerminal_key tm c] at hkey
    have hrec := ih hkey (length_edit_le hs hkeys.1) hkeys.2
    rw [currTerminal_key] at hrec
    exact hrec

theorem AreKeys.zero_notMem {cs : List UInt8} :
    ∀ {s : List UInt8}, 0 ∉ s → AreKeys s cs → 0 ∉ cs.foldl edit s := by
  induction cs with
  | nil => exact fun hs _ => hs
  | cons c cs ih => exact fun hs hkeys => ih (zero_notMem_edit hs hkeys.1) hkeys.2

/-! ## Entering and reading a line -/

/-- The line `s` of terminal `t` has been entered and not been read yet. -/
structure Entered (l : Lines) (t : ℤ) (s : List UInt8) : Prop where
  rd : l.rd t = 1
  length : l.lastlinelength t = s.length
  holds : Holds (row t l.lastlinebuffer) s
  empty : l.linelength t = 0

/-- The loop that moves the line: the first cells have arrived, the others still wait. -/
theorem holds_commits (h : Holds (row t l.linebuffer) s) {m : ℕ} (hm : m ≤ s.length) :
    let l' := l.store t ((List.range m).map fun j : ℕ => .commit j)
    Holds (row t l'.lastlinebuffer) (s.take m) ∧
      ∀ i (hi : i < s.length), m ≤ i → row t l'.linebuffer i = s[i] := by
  induction m with
  | zero => exact ⟨Holds.nil _, fun i hi _ => h i hi⟩
  | succ m ih =>
    obtain ⟨hmoved, hrest⟩ := ih (by omega)
    have hlen : (s.take m).length = m := by
      rw [List.length_take]
      omega
    have hcell := hrest m (by omega) le_rfl
    dsimp only at hmoved hcell hrest ⊢
    rw [List.range_succ, List.map_append, Lines.store_append]
    generalize l.store t ((List.range m).map fun j : ℕ => .commit j) = l₁ at *
    constructor
    · show Holds (row t (update l₁.lastlinebuffer (slot t m) (row t l₁.linebuffer m))) _
      have hsnoc := hmoved.snoc (row t l₁.linebuffer m)
      rw [hlen] at hsnoc
      rw [row_update_self, ← List.take_append_getElem (show m < s.length by omega), ← hcell]
      exact hsnoc
    · intro i hi hmi
      show row t (update l₁.linebuffer (slot t m) 0) i = _
      rw [row_update_self, update_of_ne (by omega), hrest i hi (by omega)]

theorem lastlinelength_commits (l : Lines) (t : ℤ) (m : ℕ) :
    (l.store t ((List.range m).map fun j : ℕ => .commit j)).lastlinelength = l.lastlinelength := by
  induction m with
  | zero => rfl
  | succ m ih =>
    rw [List.range_succ, List.map_append, Lines.store_append]
    exact ih

/-- A newline enters the line. -/
theorem Typed.enter (h : Typed l t s) :
    Entered (l.act t (newLength newLineChar) (lineStores newLineChar)) t (s ++ [newLineChar]) := by
  have hlen := h.length
  have hstores : lineStores newLineChar (l.linelength t) = enterStores newLineChar s.length := by
    rw [hlen]
    rfl
  have hcount : ((s.length : ℤ) + 1).toNat = (s ++ [newLineChar]).length := by
    rw [List.length_append, List.length_singleton]
    omega
  -- the newline is stored first
  obtain ⟨l₁, hl₁⟩ : ∃ l₁, l₁ = l.store t
      [.line s.length newLineChar, .lastlinelength (s.length + 1)] := ⟨_, rfl⟩
  have hrow : Holds (row t l₁.linebuffer) (s ++ [newLineChar]) := by
    rw [hl₁]
    show Holds (row t (update l.linebuffer (slot t s.length) newLineChar)) _
    rw [row_update_self]
    exact h.holds.snoc newLineChar
  have hmoved := (holds_commits hrow le_rfl).1
  rw [List.take_length, ← hcount] at hmoved
  have hstore : l.store t (enterStores newLineChar s.length)
      = (l₁.store t ((List.range ((s.length : ℤ) + 1).toNat).map fun j : ℕ => .commit j)).store t
          [.rd 1] := by
    rw [enterStores, Lines.store_append, Lines.store_append, ← hl₁]
  have hlast : l₁.lastlinelength t = s.length + 1 := by
    rw [hl₁]
    exact update_self ..
  refine ⟨?_, ?_, ?_, update_self ..⟩ <;> unfold Lines.act <;> rw [hstores, hstore]
  · exact update_self ..
  · show (l₁.store t _).lastlinelength t = _
    rw [lastlinelength_commits, hlast, List.length_append, List.length_singleton]
    omega
  · exact hmoved

/-- The copy loop of `terminal_read` on cells that hold `r`. -/
theorem readLine_eq (r : List UInt8) (t : ℤ) :
    ∀ (last : ℤ → UInt8) (i : ℤ), 0 ∉ r → (∀ j (h : j < r.length), last (slot t (i + j)) = r[j]) →
      (readLine last t r.length i).2 = r := by
  induction r with
  | nil => exact fun _ _ _ _ => rfl
  | cons b r ih =>
    intro last i hnul hcells
    have hb : last (slot t i) = b := by
      have h0 := hcells 0 (Nat.succ_pos _)
      rwa [show i + ((0 : ℕ) : ℤ) = i by omega] at h0
    have hne : b ≠ 0 := fun he => hnul (by simp [he])
    rw [List.length_cons, readLine, hb, if_neg hne]
    have hrec := ih (update last (slot t i) 0) (i + 1) (fun h => hnul (List.mem_cons_of_mem b h))
      fun j hj => by
        have hcell := hcells (j + 1) (by simpa using hj)
        rw [List.getElem_cons_succ] at hcell
        have hindex : i + 1 + (j : ℤ) = i + ((j + 1 : ℕ) : ℤ) := by omega
        rw [update_of_ne (by unfold slot; omega), hindex, hcell]
    exact congrArg (b :: ·) hrec

/-- `terminal_read` delivers the line that was entered, as far as it fits, and drops the rest. -/
theorem Entered.terminalRead (h : Entered tm.lines t s) (hnul : 0 ∉ s) (count : ℕ) :
    ∃ tm', terminalRead tm t count = some (tm', s.take count) ∧
      tm'.lines.linelength t = 0 ∧ tm'.lines.lastlinelength t = 0 ∧ tm'.lines.rd t = 0 := by
  have hrd : tm.rd t = 1 := h.rd
  have hlen : tm.lastlinelength t = s.length := h.length
  have hmin : (min (s.length : ℤ) count).toNat = (s.take count).length := by
    rw [List.length_take]
    omega
  have hread := readLine_eq (s.take count) t tm.lastlinebuffer 0
    (fun hm => hnul (List.mem_of_mem_take hm)) fun j hj => by
      rw [show (0 : ℤ) + j = j by omega]
      exact h.holds.take count j hj
  unfold Terminal.terminalRead
  rw [if_neg (not_not.mpr hrd)]
  dsimp only
  rw [hlen, hmin, hread]
  exact ⟨_, rfl, h.empty, update_self .., update_self ..⟩

end Terminal
end GalapagOS
