import GalapagOS.Terminal.Bounds

/-!
# Typing a recorded line again

A line can be recorded as the keys that made it, backspaces and tabs included. Typed again on an empty
line, the keys make the same line, because every prefix of them finds the line it found before. The
lines of all three terminals are followed together (`Lined`), as a key works on one of them and leaves
the others alone.
-/

namespace GalapagOS
namespace Terminal

open Buffer Function

variable {l l' : Lines} {tm tm' : Terminals} {t : ℤ} {c : UInt8} {s cmd : List UInt8}

/-! ## The pending line -/

/-- `linebuffer[t][0..linelength[t])` -/
def Lines.pending (l : Lines) (t : ℤ) : List UInt8 :=
  (List.range (l.linelength t).toNat).map fun i : ℕ => row t l.linebuffer i

theorem Typed.pending_eq (h : Typed l t s) : l.pending t = s := by
  have hlen : (l.linelength t).toNat = s.length := by
    rw [h.length]
    exact Int.toNat_natCast _
  rw [Lines.pending, hlen]
  exact h.holds.map_range

theorem Typed.nil (h : l.linelength t = 0) : Typed l t [] := ⟨h, Holds.nil _⟩

theorem Typed.congr (h : Typed l t s) (hs : s.length ≤ 128) (hsame : SameLine t l l') :
    Typed l' t s := by
  refine ⟨hsame.linelength.trans h.length, h.holds.congr fun i hi => ?_⟩
  exact hsame.linebuffer i ⟨by omega, by omega⟩

/-! ## Keys that are recorded -/

/-- A key on the line. Bytes that are no keys leave the line alone. -/
def retype (line : List UInt8) (c : UInt8) : List UInt8 :=
  if Printable c ∨ c = backspace ∨ c = tab then edit line c else line

/-- The line that some keys make. -/
def replay (cmd : List UInt8) : List UInt8 := cmd.foldl retype []

theorem replay_snoc (cmd : List UInt8) (c : UInt8) : replay (cmd ++ [c]) = retype (replay cmd) c :=
  List.foldl_append

theorem retype_zero (line : List UInt8) : retype line 0 = line := if_neg (by decide)

theorem isKey_of_fits (hkey : Printable c ∨ c = backspace ∨ c = tab)
    (htab : c = tab → s.length ≤ 120) : IsKey s c := by
  rcases hkey with hp | hb | ht
  · exact .inl hp
  · exact .inr (.inl hb)
  · exact .inr (.inr ⟨ht, htab ht⟩)

theorem length_retype_le (hs : s.length ≤ 128) (htab : c = tab → s.length ≤ 120) :
    (retype s c).length ≤ 128 := by
  unfold retype
  split
  · rename_i hkey
    exact length_edit_le hs (isKey_of_fits hkey htab)
  · exact hs

theorem zero_notMem_retype (hs : 0 ∉ s) (htab : c = tab → s.length ≤ 120) : 0 ∉ retype s c := by
  unfold retype
  split
  · rename_i hkey
    exact zero_notMem_edit hs (isKey_of_fits hkey htab)
  · exact hs

/-- A byte that is no key makes no store to the line. -/
theorem act_of_not_key (hnl : c ≠ newLineChar) (hkey : ¬(Printable c ∨ c = backspace ∨ c = tab))
    (l : Lines) (t : ℤ) : l.act t (newLength c) (lineStores c) = l := by
  rw [not_or, not_or] at hkey
  have hlen : ∀ n, newLength c n = n := by
    intro n
    simp [newLength, hnl, hkey]
  have hstores : ∀ n, lineStores c n = [] := by
    intro n
    simp [lineStores, hnl, hkey]
  unfold Lines.act
  rw [hlen, hstores, update_eq_self]
  rfl

/-- Any key but the newline. -/
theorem Typed.retype (h : Typed l t s) (hs : s.length ≤ 128) (hnl : c ≠ newLineChar)
    (htab : c = tab → s.length ≤ 120) :
    Typed (l.act t (newLength c) (lineStores c)) t (retype s c) := by
  unfold Terminal.retype
  split
  · rename_i hkey
    exact h.key hs (isKey_of_fits hkey htab)
  · rename_i hkey
    rw [act_of_not_key hnl hkey]
    exact h

/-- Keys without a newline, in which every tab finds room for eight characters. -/
inductive Recordable : List UInt8 → Prop
  | nil : Recordable []
  | snoc {cmd : List UInt8} {c : UInt8} : Recordable cmd → c ≠ newLineChar →
      (c = tab → (replay cmd).length ≤ 120) → Recordable (cmd ++ [c])

theorem Recordable.length_replay (h : Recordable cmd) : (replay cmd).length ≤ 128 := by
  induction h with
  | nil => exact Nat.zero_le _
  | snoc _ _ htab ih =>
    rw [replay_snoc]
    exact length_retype_le ih htab

theorem Recordable.zero_notMem (h : Recordable cmd) : 0 ∉ replay cmd := by
  induction h with
  | nil => exact List.not_mem_nil
  | snoc _ _ htab ih =>
    rw [replay_snoc]
    exact zero_notMem_retype ih htab

theorem keys_snoc (tm : Terminals) (cmd : List UInt8) (c : UInt8) :
    tm.keys (cmd ++ [c]) = (tm.keys cmd).key c :=
  List.foldl_append

/-- Recorded keys, typed on an empty line. -/
theorem Recordable.typed (h : Recordable cmd) (htm : Typed tm.lines tm.currTerminal []) :
    Typed (tm.keys cmd).lines tm.currTerminal (replay cmd) := by
  induction h with
  | nil => exact htm
  | snoc hcmd hnl htab ih =>
    have hkey := ih.retype hcmd.length_replay hnl htab
    rw [keys_snoc, replay_snoc, lines_key, currTerminal_keys]
    exact hkey

/-! ## The lines of all terminals -/

/-- The lines of the terminals are `ss`, and their lengths fit the buffers. -/
structure Lined (tm : Terminals) (ss : Fin 3 → List UInt8) : Prop where
  bounded : tm.lines.Bounded
  typed : ∀ t : Fin 3, Typed tm.lines t (ss t)

section Lined

variable {ss : Fin 3 → List UInt8} {t : Fin 3}

theorem Lined.length_le (h : Lined tm ss) (t : Fin 3) : (ss t).length ≤ 128 := by
  have hlen := (h.typed t).length
  have hle := (h.bounded t).1.2
  omega

/-- Only the lines of the driver count. -/
theorem Lined.of_lines (h : Lined tm ss) (hlines : tm'.lines = tm.lines) : Lined tm' ss := by
  refine ⟨?_, fun t => ?_⟩ <;> rw [hlines]
  · exact h.bounded
  · exact h.typed t

/-- A call for one terminal. -/
theorem Lined.kept {is : List ℤ} (h : Lined tm ss) (hkept : Kept tm t is tm')
    (hself : Typed tm'.lines t s) : Lined tm' (update ss t s) := by
  refine ⟨hkept.bounded, fun t' => ?_⟩
  by_cases ht : t' = t
  · rw [ht, update_self]
    exact hself
  · rw [update_of_ne ht]
    exact (h.typed t').congr (h.length_le t') (hkept.sameLine t' fun he => ht (by omega))

theorem Lined.key (h : Lined tm ss) (hnl : c ≠ newLineChar)
    (htab : c = tab → (ss tm.currTerminal).length ≤ 120) :
    Lined (tm.key c) (update ss tm.currTerminal (retype (ss tm.currTerminal) c)) := by
  have htyped := h.typed tm.currTerminal
  have hlen : (tm.vars tm.currTerminal).linelength = (ss tm.currTerminal).length := htyped.length
  refine h.kept (Kept.key h.bounded fun ht => .inl ?_) ?_
  · have := htab ht
    omega
  · rw [lines_key]
    exact htyped.retype (h.length_le _) hnl htab

/-- A newline empties the line. -/
theorem Lined.enter (h : Lined tm ss) : Lined (tm.key newLineChar) (update ss tm.currTerminal []) := by
  refine h.kept (Kept.key h.bounded fun ht => absurd ht newLineChar_kind.2.1) (Typed.nil ?_)
  rw [lines_key]
  exact (h.typed tm.currTerminal).enter.empty

/-- As many backspaces as the line has characters. -/
theorem Lined.erase {n : ℕ} : ∀ {tm : Terminals} {ss : Fin 3 → List UInt8}, Lined tm ss →
    (ss tm.currTerminal).length ≤ n →
      Lined (tm.keys (List.replicate n backspace)) (update ss tm.currTerminal []) := by
  induction n with
  | zero =>
    intro tm ss h hn
    rw [← List.length_eq_zero_iff.mp (Nat.le_zero.mp hn), update_eq_self]
    exact h
  | succ n ih =>
    intro tm ss h hn
    -- on an empty line a backspace changes nothing
    have hkey := h.key backspace_kind.1 fun ht => absurd ht backspace_kind.2.1
    have hshorter : retype (ss tm.currTerminal) backspace = (ss tm.currTerminal).dropLast := rfl
    rw [hshorter, ← currTerminal_key tm backspace] at hkey
    have hrest := ih hkey (by
      rw [update_self, List.length_dropLast, currTerminal_key]
      omega)
    rw [update_idem, currTerminal_key] at hrest
    exact hrest

/-- Recorded keys, typed on an empty line. -/
theorem Lined.replay (h : Lined tm ss) (hempty : ss tm.currTerminal = []) (hcmd : Recordable cmd) :
    Lined (tm.keys cmd) (update ss tm.currTerminal (replay cmd)) := by
  induction hcmd with
  | nil =>
    show Lined tm (update ss tm.currTerminal [])
    rw [← hempty, update_eq_self]
    exact h
  | @snoc cmd c _ hnl htab ih =>
    -- the last key finds the line that the keys before it have made
    have hself : update ss tm.currTerminal (Terminal.replay cmd) (tm.keys cmd).currTerminal
        = Terminal.replay cmd := by rw [currTerminal_keys, update_self]
    have hkey := ih.key hnl (by rwa [hself])
    rw [hself, currTerminal_keys, update_idem] at hkey
    rw [keys_snoc, replay_snoc]
    exact hkey

/-- `hist_copy_from`: the line is erased, and the recorded keys are typed. -/
theorem Lined.histCopyFrom (h : Lined tm ss) (hcmd : Recordable cmd) :
    Lined (tm.keys (List.replicate 128 backspace ++ cmd))
      (update ss tm.currTerminal (Terminal.replay cmd)) := by
  have herased := h.erase (h.length_le tm.currTerminal)
  have hcurr := currTerminal_keys (List.replicate 128 backspace) tm
  have htyped := herased.replay (by rw [hcurr, update_self]) hcmd
  rw [hcurr, update_idem] at htyped
  rw [Terminals.keys, List.foldl_append]
  exact htyped

/-- A cleared screen, if the length of the line stays. -/
theorem Lined.clearTerminal (h : Lined tm ss)
    (hlen : (Terminal.clearTerminal tm.currTerminal (tm.vars tm.currTerminal)).1.linelength
      = (tm.vars tm.currTerminal).linelength) :
    Lined (tm.run tm.currTerminal (Terminal.clearTerminal tm.currTerminal)).1 ss := by
  have hkept := Kept.clearTerminal h.bounded
  have htyped := h.typed tm.currTerminal
  have hself : Typed (tm.run tm.currTerminal (Terminal.clearTerminal tm.currTerminal)).1.lines
      tm.currTerminal (ss tm.currTerminal) := by
    rw [Terminals.lines_run]
    unfold Terminal.clearTerminal at hlen ⊢
    split at hlen
    · -- the cursor is off the screen, and nothing happens
      rename_i hoff
      simp only [if_pos hoff]
      exact ⟨(update_self ..).trans htyped.length, htyped.holds⟩
    · -- the line is empty
      rename_i hon
      simp only [if_neg hon]
      have hzero : ss tm.currTerminal = [] := by
        have hnat := htyped.length
        rw [← show (0 : ℤ) = tm.lines.linelength tm.currTerminal from hlen] at hnat
        exact List.length_eq_zero_iff.mp (by omega)
      rw [hzero]
      exact Typed.nil (update_self ..)
  have hall := h.kept hkept hself
  rwa [update_eq_self] at hall

theorem Lined.terminalRead {count : ℤ} {bytes : List UInt8} (h : Lined tm ss) (hcount : 0 ≤ count)
    (hread : terminalRead tm t count = some (tm', bytes)) : Lined tm' ss := by
  have hkept := Kept.terminalRead h.bounded hcount hread
  have hself : Typed tm'.lines t (ss t) := by
    -- only the last line is read
    have hlines := lines_terminalRead tm t count
    rw [hread, Lines.read] at hlines
    split at hlines
    · cases hlines
    · rw [show tm'.lines = _ from congrArg Prod.fst (Option.some.inj hlines)]
      exact ⟨(h.typed t).length, (h.typed t).holds⟩
  have hall := h.kept hkept hself
  rwa [update_eq_self] at hall

theorem terminalOpen_lined : Lined terminalOpen fun _ => [] :=
  ⟨terminalOpen_bounded, fun _ => Typed.nil rfl⟩

end Lined

end Terminal
end GalapagOS
