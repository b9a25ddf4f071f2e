import GalapagOS.Keyboard.Runs

/-!
# The ends of the history strings

Every key appends its character at the position that `strlen` finds, in two strings of 128 bytes, and
nothing tests the position. While a line has fewer than 127 characters, every string keeps its NUL and
every store is inside its string. A line of 128 characters has lost its NUL, and the next key goes into
the line of the next terminal.
-/

namespace GalapagOS
namespace Keyboard

open Function Strings Terminal

variable {kb : Keyboard} {t : Fin 3}

theorem Keeps.terminated {h : History} {j : Journal} (hk : Keeps h t j) {r : Row} (hr : r.Ok) :
    ∃ i < 128, h.row t r i = 0 := by
  have hpadded : ∃ s, Padded 128 (h.row t r) s := by
    cases r with
    | currCmd => exact ⟨_, hk.line⟩
    | modifiedHist slot =>
      obtain ⟨k, hvisible, rfl⟩ := Window.exists_visible hr j.oldest
      exact ⟨_, hk.drafts k hvisible⟩
    | hist slot =>
      obtain ⟨k, hvisible, rfl⟩ := Window.exists_visible hr j.oldest
      exact ⟨_, hk.commands k hvisible⟩
  obtain ⟨s, hs⟩ := hpadded
  exact ⟨s.length, hs.length, hs.at_length⟩

/-- As long as every key that is appended leaves room for the NUL, every string keeps one, all
stores are inside their strings, and a key leaves the history of the other terminals alone. -/
theorem history_terminated (h : Run.Reach system Fits kb) :
    (∀ (t : Fin 3) (r : Row), r.Ok → ∃ i < 128, kb.history.row t r i = 0) ∧
    ∀ sc, Fits kb (.scanCode sc) → ∃ kb' stores, kb.keyboardInt sc = some (kb', stores) ∧
      (∀ s ∈ stores, s.Inside) ∧
      ∀ t, t ≠ kb.terms.currTerminal → ∀ r : Row, r.Ok → ∀ i < 128,
        kb'.history.row t r i = kb.history.row t r i := by
  obtain ⟨js, hk⟩ : ∃ js : Fin 3 → Journal, ∀ t, Keeps kb.history t (js t) := by
    refine h.invariant (I := fun kb => ∃ js : Fin 3 → Journal, ∀ t, Keeps kb.history t (js t)) ?_ ?_
    · intro kb hkb
      rw [hkb]
      exact ⟨_, start_keeps⟩
    · intro kb e kb' hI hok hstep
      obtain ⟨js, hk⟩ := hI
      exact ⟨_, (keeps_exec hk hok hstep).1⟩
  refine ⟨fun t r hr => (hk t).terminated hr, fun sc hok => ?_⟩
  by_cases hcopies : Copies kb sc
  · obtain ⟨kb', stores, hint, hinside, -, hothers, -⟩ := keyboardInt_spec hk hcopies hok
    exact ⟨kb', stores, hint, hinside, fun t ht => (hothers t ht).2⟩
  · -- a page fault before the first store
    exact ⟨_, _, keyboardInt_of_not_copies hcopies, fun s hs => absurd hs List.not_mem_nil,
      fun _ _ _ _ _ _ => rfl⟩

/-- The longest line that keeps its NUL. -/
theorem history_terminated_letters : ∃ kb,
    system.run start (List.replicate 127 (.scanCode 0x1e)) = some kb ∧
      ∃ i < 128, kb.history.row 0 .currCmd i = 0 := by
  obtain ⟨kb, js, hrun, hok, -⟩ :=
    keeps_letters (n := 127) start_plain start_keeps (by decide)
  have hinit : Run.Reach system Fits start := .init rfl
  exact ⟨kb, hrun, (history_terminated (hinit.run hok hrun)).1 0 .currCmd trivial⟩

/-! ## A line that is too long -/

/-- A string without a NUL, followed by an empty one. -/
theorem strlen_full {h : History} {r : Row} (hfull : ∀ i < 128, h.row t r i ≠ 0)
    (hnext : h.row t r 128 = 0) (hsize : r.base t + 128 < r.buffer.size) :
    strlen h t r = some 128 :=
  firstZero_eq (by omega) hnext hfull

/-- The line after the last byte of a string is the first byte of the next terminal's. -/
theorem row_overflow (h : History) (slot : ℕ) (c : UInt8) :
    (h.apply 0 (characterStores (.modifiedHist slot) 128 128 c)).row 1 .currCmd 0 = c := by
  have hline : (Store.apply 0 h ⟨.currCmd, 128, .byte c⟩).bytes .currCmd
      = update (h.bytes .currCmd) 128 c := by
    rw [Store.bytes_apply]
    exact update_self Buffer.currCmd _ _
  have hentry : ∀ h : History, (Store.apply 0 h ⟨.modifiedHist slot, 128, .byte c⟩).bytes .currCmd
      = h.bytes .currCmd := by
    intro h
    rw [Store.bytes_apply]
    exact update_of_ne (show Buffer.currCmd ≠ .modifiedHist from nofun) _ _
  show (Store.apply 0 (Store.apply 0 h ⟨.currCmd, 128, .byte c⟩)
    ⟨.modifiedHist slot, 128, .byte c⟩).bytes .currCmd 128 = c
  rw [hentry, hline, update_self]

/-- A letter behind 127 characters, before any command: the line and its entry have no NUL any more,
and what follows them in memory is as before. -/
theorem letter_fills {js : Fin 3 → Journal} (hplain : Plain kb) (hk : ∀ t, Keeps kb.history t (js t))
    (hlength : (js 0).line.length = 127) (hempty : (js 0).commands = []) :
    ∃ kb', system.step kb (.scanCode 0x1e) = some kb' ∧ Plain kb' ∧ kb'.entry = .modifiedHist 0 ∧
      (∀ r : Row, r = .currCmd ∨ r = .modifiedHist 0 → ∀ i < 128, kb'.history.row 0 r i ≠ 0) ∧
      kb'.history.row 0 (.modifiedHist 1) 0 = 0 ∧
      kb'.history.row 1 .currCmd 0 = kb.history.row 1 .currCmd 0 := by
  have hpos : (js 0).pos = 0 := by
    have := (js 0).pos_le
    rw [hempty] at this
    exact Nat.le_zero.mp this
  have hentry : kb.entry = .modifiedHist 0 := by
    rw [entry, (hk 0).curr, hpos]
    rfl
  have hvisible : ∀ k, k < 9 → Window.Visible 9 (js 0).oldest k := by
    intro k hk
    rw [Journal.oldest, hempty]
    exact ⟨Nat.zero_le k, hk⟩
  have hdraft : Padded 128 (kb.history.row 0 (.modifiedHist 0)) (js 0).line := by
    rw [Journal.line, hpos]
    exact (hk 0).drafts 0 (hvisible 0 (by decide))
  have hblank := (hk 0).drafts 1 (hvisible 1 (by decide))
  rw [(js 0).blank 1 (by rw [hempty]; decide)] at hblank
  have hint := keyboardInt_letter hplain (strlen_eq currCmd_ok (hk 0).line)
    (strlen_eq (hentry ▸ (by decide)) (hentry ▸ hdraft))
  rw [hentry, hlength] at hint
  refine ⟨_, congrArg (Option.map Prod.fst) hint, hplain.letter _, ?_, fun r hr i hi => ?_, ?_, ?_⟩
  · rw [← hentry, entry, entry, store, currHist_apply]
  · have hpadded : Padded 128 (kb.history.row 0 r) (js 0).line := by
      rcases hr with rfl | rfl
      · exact (hk 0).line
      · exact hdraft
    have hok : r.Ok := by rcases hr with rfl | rfl <;> decide
    rw [store, row_characterStores (by decide) (by decide) hok hi, if_pos hr, update_apply]
    split
    · decide
    · exact hpadded.lt_length (by omega)
  · rw [store, row_characterStores (by decide) (by decide) (by decide) (by decide), if_neg (by decide)]
    exact hblank.cells 0 (by decide)
  · rw [store]
    exact row_apply_other (characterStores_inside (by decide) (by decide) (by decide) _) (by decide)
      currCmd_ok (by decide) _

/-- 128 letters fill the line of the first terminal, and the next one goes into the line of the
second. -/
theorem history_overflow : ∃ kb kb' stores,
    system.run start (List.replicate 128 (.scanCode 0x1e)) = some kb ∧
      kb.terms.currTerminal = 0 ∧ (∀ i < 128, kb.history.row 0 .currCmd i ≠ 0) ∧
      kb.history.row 1 .currCmd 0 = 0 ∧ kb.keyboardInt 0x1e = some (kb', stores) ∧
      kb'.history.row 1 .currCmd 0 = 0x61 := by
  obtain ⟨kb, js, hrun, -, hplain, hk, hline, hempty, hothers⟩ :=
    keeps_letters (n := 127) start_plain start_keeps (by decide)
  have hlength : (js 0).line.length = 127 := by
    rw [hline]
    exact List.length_replicate
  obtain ⟨kb₁, hstep, hplain₁, hentry, hfull, hnext, hother⟩ :=
    letter_fills hplain hk hlength hempty
  have hzero : kb₁.history.row 1 .currCmd 0 = 0 := by
    have hblank := (hk 1).line
    rw [hothers 1 (by decide)] at hblank
    exact hother.trans (hblank.cells 0 (by decide))
  have hint := keyboardInt_letter hplain₁
    (strlen_full (hfull _ (.inl rfl)) hzero (by decide))
    (strlen_full (hentry ▸ hfull _ (.inr rfl)) (hentry ▸ hnext) (hentry ▸ (by decide)))
  rw [hentry] at hint
  refine ⟨kb₁, _, _, ?_, hplain₁.curr, hfull _ (.inl rfl), hzero, hint, row_overflow _ _ _⟩
  rw [show 128 = 127 + 1 from rfl, List.replicate_succ', Run.System.run_append hrun, Run.System.run,
    hstep]
  rfl

end Keyboard
end GalapagOS
