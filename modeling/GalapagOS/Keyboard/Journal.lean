import GalapagOS.Keyboard.Rows
import GalapagOS.Lib.Buffer

/-!
# The history as a journal

The journal of a terminal is the list of all commands committed on it, with a draft for every entry
and a position. The last eight commands and the line after them can be reached. The two rings and the
counters of the handler keep this window of the journal, and every key takes the journal where it
takes the rings.
-/

namespace GalapagOS
namespace Keyboard

open Function Strings

variable {h h' : History} {t : Fin 3}

/-! ## The journal -/

/-- All commands, a draft for each entry, and the entry that is being edited. Entry `k` is command
`k`; the entry behind the last command is the new line. -/
structure Journal where
  commands : List (List UInt8)
  drafts : ℕ → List UInt8
  pos : ℕ
  le_pos : commands.length - 8 ≤ pos
  pos_le : pos ≤ commands.length
  blank : ∀ k, commands.length < k → drafts k = []

namespace Journal

variable {j : Journal} {c : UInt8}

/-- The first entry that can be reached. -/
def oldest (j : Journal) : ℕ := j.commands.length - 8

/-- The line that is being edited. -/
def line (j : Journal) : List UInt8 := j.drafts j.pos

/-- No command yet. -/
def empty : Journal := ⟨[], fun _ => [], 0, Nat.zero_le _, Nat.le_refl _, fun _ _ => rfl⟩

def up (j : Journal) : Journal :=
  if hlt : j.oldest < j.pos then
    { j with
      pos := j.pos - 1
      le_pos := by unfold oldest at hlt; omega
      pos_le := by have := j.pos_le; omega }
  else j

def down (j : Journal) : Journal :=
  if hlt : j.pos < j.commands.length then
    { j with
      pos := j.pos + 1
      le_pos := by have := j.le_pos; omega
      pos_le := hlt }
  else j

theorem up_of_lt (hlt : j.oldest < j.pos) :
    j.up.commands = j.commands ∧ j.up.drafts = j.drafts ∧ j.up.pos = j.pos - 1 := by
  unfold up
  rw [dif_pos hlt]
  exact ⟨rfl, rfl, rfl⟩

theorem down_of_lt (hlt : j.pos < j.commands.length) :
    j.down.commands = j.commands ∧ j.down.drafts = j.drafts ∧ j.down.pos = j.pos + 1 := by
  unfold down
  rw [dif_pos hlt]
  exact ⟨rfl, rfl, rfl⟩

/-- A line that is not empty becomes a command, and all edits of other commands are dropped. -/
def enter (j : Journal) : Journal :=
  if j.line = [] then j
  else
    { commands := j.commands ++ [j.line]
      drafts := fun k => (j.commands ++ [j.line]).getD k []
      pos := j.commands.length + 1
      le_pos := by rw [List.length_append]; exact Nat.sub_le _ _
      pos_le := by rw [List.length_append]; exact Nat.le_refl _
      blank := fun k hk => List.getD_eq_default _ _ (Nat.le_of_lt hk) }

theorem enter_of_line (hline : j.line ≠ []) : j.enter.commands = j.commands ++ [j.line] ∧
    (j.enter.drafts = fun k => (j.commands ++ [j.line]).getD k []) ∧
    j.enter.pos = j.commands.length + 1 := by
  unfold enter
  rw [if_neg hline]
  exact ⟨rfl, rfl, rfl⟩

/-- A character at the end of the line. -/
def type (j : Journal) (c : UInt8) : Journal :=
  { j with
    drafts := update j.drafts j.pos (j.line ++ [c])
    blank := fun k hk => by
      have := j.pos_le
      rw [update_of_ne (by omega)]
      exact j.blank k hk }

theorem line_type (j : Journal) (c : UInt8) : (j.type c).line = j.line ++ [c] := update_self ..

/-- A key that walks through the journal or enters the line. -/
def turn (j : Journal) (sc : UInt8) : Journal :=
  if sc = Keyboard.up then j.up
  else if sc = Keyboard.down then j.down
  else if sc = Keyboard.enter then j.enter
  else j

/-- A key: its scan code, and the character that it appends, 0 if it appends none. -/
def press (j : Journal) (sc c : UInt8) : Journal :=
  if c = 0 then j.turn sc else (j.turn sc).type c

end Journal

/-! ## The rings keep the journal -/

/-- The rings and the counters of terminal `t` keep the end of the journal. -/
structure Keeps (h : History) (t : Fin 3) (j : Journal) : Prop where
  num : h.numHist t = j.commands.length
  curr : h.currHist t = j.pos
  min : h.minHist t = j.oldest
  line : Padded 128 (h.row t .currCmd) j.line
  drafts : Window.Holds (Padded 128) 9 j.oldest (fun slot => h.row t (.modifiedHist slot)) j.drafts
  commands : Window.Holds (Padded 128) 9 j.oldest (fun slot => h.row t (.hist slot))
    fun k => j.commands.getD k []

variable {j : Journal} {c : UInt8}

/-- The entries that can be reached are in the window. -/
theorem Journal.visible (j : Journal) {k : ℕ} (hk : j.oldest ≤ k) (hk' : k ≤ j.commands.length) :
    Window.Visible 9 j.oldest k := by
  unfold Window.Visible Journal.oldest at *
  omega

theorem Journal.visible_pos (j : Journal) : Window.Visible 9 j.oldest j.pos :=
  j.visible j.le_pos j.pos_le

/-- The same counters and the same strings. -/
theorem Keeps.congr (hk : Keeps h t j) (hnum : h'.numHist t = h.numHist t)
    (hcurr : h'.currHist t = h.currHist t) (hmin : h'.minHist t = h.minHist t)
    (hrow : ∀ r : Row, r.Ok → ∀ i < 128, h'.row t r i = h.row t r i) : Keeps h' t j where
  num := hnum.trans hk.num
  curr := hcurr.trans hk.curr
  min := hmin.trans hk.min
  line := hk.line.congr (hrow _ trivial)
  drafts := hk.drafts.congr fun k _ hp => hp.congr (hrow _ (mod_ring_lt k))
  commands := hk.commands.congr fun k _ hp => hp.congr (hrow _ (mod_ring_lt k))

/-- Another entry becomes the line. -/
theorem Keeps.recalled (hk : Keeps h t j) {j' : Journal} (hcommands : j'.commands = j.commands)
    (hdrafts : j'.drafts = j.drafts) :
    Keeps (History.apply { h with currHist := update h.currHist t j'.pos } t
      (recallStores (j'.pos % (maxHist + 1)))) t j' := by
  have holdest : j'.oldest = j.oldest := congrArg (fun cs => List.length cs - 8) hcommands
  have hkept : ∀ r : Row, r.Ok → r ≠ .currCmd → ∀ i < 128, (History.apply { h with
      currHist := update h.currHist t j'.pos } t (recallStores (j'.pos % (maxHist + 1)))).row t r i
        = h.row t r i := by
    intro r hr hne i hi
    rw [row_recall (mod_ring_lt _) hr hi, if_neg fun he => hne he.2]
    rfl
  refine ⟨?_, ?_, ?_, ?_, ?_, ?_⟩
  · rw [numHist_apply, hcommands]
    exact hk.num
  · rw [currHist_apply]
    exact update_self ..
  · rw [minHist_apply, holdest]
    exact hk.min
  · have hvisible := j'.visible_pos
    rw [holdest] at hvisible
    rw [Journal.line, hdrafts]
    refine (hk.drafts _ hvisible).congr fun i hi => ?_
    rw [row_recall (mod_ring_lt _) currCmd_ok hi, if_pos ⟨rfl, rfl⟩]
    rfl
  · rw [holdest, hdrafts]
    exact hk.drafts.congr fun k _ hp => hp.congr (hkept _ (mod_ring_lt k) nofun)
  · rw [holdest, hcommands]
    exact hk.commands.congr fun k _ hp => hp.congr (hkept _ (mod_ring_lt k) nofun)

/-- The ring after a commit: the line is the last command, and the slot after it is empty. -/
theorem Keeps.committed (hk : Keeps h t j) :
    Window.Holds (Padded 128) 9 (j.commands.length + 1 - 8)
      (fun slot => committed h t j.commands.length slot)
      fun k => (j.commands ++ [j.line]).getD k [] := by
  intro k hvisible
  have hlast : Window.Visible 9 (j.commands.length + 1 - 8) j.commands.length := by
    unfold Window.Visible
    omega
  have hnext : Window.Visible 9 (j.commands.length + 1 - 8) (j.commands.length + 1) := by
    unfold Window.Visible
    omega
  have hlen : (j.commands ++ [j.line]).length = j.commands.length + 1 := List.length_append
  unfold Keyboard.committed
  dsimp only
  by_cases hnew : k % 9 = (j.commands.length + 1) % (maxHist + 1)
  · obtain rfl := Window.slot_inj hvisible hnext hnew
    rw [if_pos hnew, List.getD_eq_default _ _ hlen.le]
    exact Padded.nil (by decide) fun _ _ => rfl
  rw [if_neg hnew]
  by_cases hold : k % 9 = j.commands.length % (maxHist + 1)
  · obtain rfl := Window.slot_inj hvisible hlast hold
    rw [if_pos hold, List.getD_append_right _ _ _ _ le_rfl, Nat.sub_self]
    exact hk.line
  rw [if_neg hold]
  -- the other commands stay where they are
  have hne : k ≠ j.commands.length ∧ k ≠ j.commands.length + 1 :=
    ⟨fun he => hold (by rw [he]; rfl), fun he => hnew (by rw [he]; rfl)⟩
  have hbefore : Window.Visible 9 j.oldest k := by
    unfold Window.Visible Journal.oldest at *
    omega
  have hsame : (j.commands ++ [j.line]).getD k [] = j.commands.getD k [] := by
    by_cases hlt : k < j.commands.length
    · exact List.getD_append _ _ _ _ hlt
    · rw [List.getD_eq_default _ _ (by omega), List.getD_eq_default _ _ (by omega)]
  rw [hsame]
  exact hk.commands k hbefore

/-- The line becomes a command. -/
theorem Keeps.enter (hk : Keeps h t j) (hline : j.line ≠ []) :
    Keeps ((h.counted t).apply t (commitStores (h.numHist t))) t j.enter := by
  have hnum := hk.num
  have hmin := hk.min
  obtain ⟨hcommands, hdrafts, hpos⟩ := Journal.enter_of_line hline
  have hlen : j.enter.commands.length = j.commands.length + 1 := by
    rw [hcommands]
    exact List.length_append
  have holdest : j.enter.oldest = j.commands.length + 1 - 8 := congrArg (· - 8) hlen
  have hrows : ∀ slot i, slot < maxHist + 1 → i < 128 → ∀ r : Row,
      (r = .hist slot ∨ r = .modifiedHist slot) →
      ((h.counted t).apply t (commitStores (h.numHist t))).row t r i
        = Keyboard.committed h t j.commands.length slot i := by
    intro slot i hslot hi r hr
    have hok : r.Ok := by
      rcases hr with rfl | rfl <;> exact hslot
    rw [row_commit _ hok hi, hnum]
    rcases hr with rfl | rfl <;> rfl
  refine ⟨?_, ?_, ?_, ?_, ?_, ?_⟩
  · rw [numHist_apply, hlen, ← hnum]
    exact update_self ..
  · rw [currHist_apply, hpos, ← hnum]
    exact update_self ..
  · rw [minHist_apply, holdest]
    show (if maxHist < h.numHist t + 1 then update h.minHist t (h.minHist t + 1) else h.minHist) t = _
    unfold Journal.oldest at hmin
    unfold maxHist
    split
    · rw [update_self]
      omega
    · omega
  · have hempty : j.enter.line = [] := by
      rw [Journal.line, hdrafts, hpos]
      exact List.getD_eq_default _ _ List.length_append.le
    rw [hempty]
    refine Padded.nil (by decide) fun i hi => ?_
    rw [row_commit _ currCmd_ok hi]
  · rw [holdest, hdrafts]
    exact hk.committed.congr fun k _ hp => hp.congr fun i hi =>
      hrows _ i (mod_ring_lt k) hi _ (.inr rfl)
  · rw [holdest, hcommands]
    exact hk.committed.congr fun k _ hp => hp.congr fun i hi =>
      hrows _ i (mod_ring_lt k) hi _ (.inl rfl)

/-- A byte is stored behind the line and behind its entry. -/
theorem row_characterStores {slot n : ℕ} (hslot : slot < maxHist + 1) (hn : n < 128) {r : Row}
    (hr : r.Ok) {i : ℕ} (hi : i < 128) :
    (h.apply t (characterStores (.modifiedHist slot) n n c)).row t r i
      = if r = .currCmd ∨ r = .modifiedHist slot then update (h.row t r) n c i
        else h.row t r i := by
  have hfirst : Store.Inside ⟨.currCmd, n, .byte c⟩ := ⟨trivial, hn⟩
  have hsecond : Store.Inside ⟨.modifiedHist slot, n, .byte c⟩ := ⟨hslot, hn⟩
  show (Store.apply t (Store.apply t h ⟨.currCmd, n, .byte c⟩)
    ⟨.modifiedHist slot, n, .byte c⟩).row t r i = _
  rw [hsecond.row_apply hr hi, hfirst.row_apply hr hi]
  by_cases hrow : r = .currCmd ∨ r = .modifiedHist slot
  · rw [if_pos hrow, update_apply]
    rcases hrow with rfl | rfl
    · rw [if_neg (by simp)]
      simp [Value.at]
    · simp [Value.at]
  · rw [if_neg hrow, if_neg fun he => hrow (.inr he.2.1), if_neg fun he => hrow (.inl he.2.1)]

/-- A character behind the line, or a NUL, which changes nothing. -/
theorem Keeps.character (hk : Keeps h t j) (hlen : c ≠ 0 → j.line.length < 127) :
    Keeps (h.apply t (characterStores (.modifiedHist (j.pos % (maxHist + 1))) j.line.length
      j.line.length c)) t (if c = 0 then j else j.type c) := by
  have hentry : Padded 128 (h.row t (.modifiedHist (j.pos % (maxHist + 1)))) j.line :=
    hk.drafts _ j.visible_pos
  have hrow := fun (r : Row) (hr : r.Ok) (i : ℕ) (hi : i < 128) =>
    row_characterStores (h := h) (t := t) (c := c) (mod_ring_lt j.pos) hk.line.length hr hi
  by_cases hc : c = 0
  · rw [if_pos hc]
    refine hk.congr (by rw [numHist_apply]) (by rw [currHist_apply]) (by rw [minHist_apply]) ?_
    intro r hr i hi
    rw [hrow r hr i hi, hc]
    split
    · rename_i hwhich
      rcases hwhich with rfl | rfl
      · rw [hk.line.update_zero]
      · rw [hentry.update_zero]
    · rfl
  · rw [if_neg hc]
    have hlt := hlen hc
    refine ⟨by rw [numHist_apply]; exact hk.num, by rw [currHist_apply]; exact hk.curr,
      by rw [minHist_apply]; exact hk.min, ?_, ?_, ?_⟩
    · rw [Journal.line_type]
      refine (hk.line.snoc hc (by omega)).congr fun i hi => ?_
      rw [hrow _ currCmd_ok i hi, if_pos (.inl rfl)]
    · intro k hvisible
      show Padded 128 _ (update j.drafts j.pos (j.line ++ [c]) k)
      by_cases hpos : k = j.pos
      · rw [hpos, update_self]
        refine (hentry.snoc hc (by omega)).congr fun i hi => ?_
        exact (hrow (.modifiedHist _) (mod_ring_lt j.pos) i hi).trans (if_pos (.inr rfl))
      · rw [update_of_ne hpos]
        refine (hk.drafts k hvisible).congr fun i hi => ?_
        refine (hrow (.modifiedHist _) (mod_ring_lt k) i hi).trans (if_neg ?_)
        rintro (he | he)
        · cases he
        · exact hpos (Window.slot_inj hvisible j.visible_pos (Row.modifiedHist.inj he))
    · intro k hvisible
      refine (hk.commands k hvisible).congr fun i hi => ?_
      exact (hrow (.hist _) (mod_ring_lt k) i hi).trans (if_neg (by simp))

end Keyboard
end GalapagOS
