import GalapagOS.Keyboard.Runs
import GalapagOS.Terminal.Replay

/-!
# The history and the line

The handler keeps a line twice: the driver keeps its characters, and the history keeps the keys that
made it, backspaces and tabs included. A recall types the recorded keys on an empty line. The two stay
in step as long as no cleared screen and no output drops a line that is not empty, and no key faults;
then a recalled command is the line that was entered. Ctrl-L drops the line of the driver and keeps the
keys.
-/

namespace GalapagOS
namespace Keyboard

open Function Strings Terminal

variable {kb kb' : Keyboard} {t : Fin 3} {sc c : UInt8} {e : Event} {es : List Event} {j : Journal}
  {js : Fin 3 → Journal}

/-! ## Journals that can be typed again -/

/-- The keys of every draft and of every command can be typed again. -/
structure Journal.Replayable (j : Journal) : Prop where
  drafts : ∀ k, Recordable (j.drafts k)
  commands : ∀ cmd ∈ j.commands, Recordable cmd

namespace Journal

theorem Replayable.line (h : j.Replayable) : Recordable j.line := h.drafts _

theorem Replayable.turn (h : j.Replayable) (sc : UInt8) : (j.turn sc).Replayable := by
  unfold Journal.turn
  split
  · unfold up
    split
    · exact ⟨h.drafts, h.commands⟩
    · exact h
  split
  · unfold down
    split
    · exact ⟨h.drafts, h.commands⟩
    · exact h
  split
  · unfold enter
    split
    · exact h
    · have hcommands : ∀ cmd ∈ j.commands ++ [j.line], Recordable cmd := by
        intro cmd hcmd
        rcases List.mem_append.mp hcmd with hcmd | hcmd
        · exact h.commands cmd hcmd
        · rw [List.mem_singleton.mp hcmd]
          exact h.line
      refine ⟨fun k => ?_, hcommands⟩
      show Recordable ((j.commands ++ [j.line]).getD k [])
      by_cases hk : k < (j.commands ++ [j.line]).length
      · rw [List.getD_eq_getElem _ _ hk]
        exact hcommands _ (List.getElem_mem hk)
      · rw [List.getD_eq_default _ _ (by omega)]
        exact .nil
  · exact h

theorem Replayable.type (h : j.Replayable) (hnl : c ≠ newLineChar)
    (htab : c = tab → (replay j.line).length ≤ 120) : (j.type c).Replayable := by
  refine ⟨fun k => ?_, h.commands⟩
  show Recordable (update j.drafts j.pos (j.line ++ [c]) k)
  rw [update_apply]
  split
  · exact h.line.snoc hnl htab
  · exact h.drafts k

theorem Replayable.press (h : j.Replayable) (hnl : c ≠ newLineChar)
    (htab : c = tab → (replay (j.turn sc).line).length ≤ 120) : (j.press sc c).Replayable := by
  unfold Journal.press
  split
  · exact h.turn sc
  · exact (h.turn sc).type hnl htab

theorem replay_press (j : Journal) (sc c : UInt8) :
    replay (j.press sc c).line = retype (replay (j.turn sc).line) c := by
  unfold press
  split
  · rename_i hc
    rw [hc, retype_zero]
  · rw [line_type, replay_snoc]

theorem line_enter (j : Journal) : j.enter.line = [] := by
  by_cases hline : j.line = []
  · rw [enter, if_pos hline, hline]
  · obtain ⟨-, hdrafts, hpos⟩ := enter_of_line hline
    rw [line, hdrafts, hpos]
    exact List.getD_eq_default _ _ List.length_append.le

/-- The entry before the new line is the command that was entered last. -/
theorem drafts_enter (hline : j.line ≠ []) :
    j.enter.oldest < j.enter.pos ∧ j.enter.drafts (j.enter.pos - 1) = j.line := by
  obtain ⟨hcommands, hdrafts, hpos⟩ := enter_of_line hline
  constructor
  · rw [oldest, hcommands, hpos, List.length_append, List.length_singleton]
    omega
  · rw [hdrafts, hpos, Nat.add_sub_cancel]
    dsimp only
    rw [List.getD_append_right _ _ _ _ le_rfl, Nat.sub_self]
    rfl

end Journal

/-! ## One key -/

/-- The lines that the journals record. -/
def recorded (js : Fin 3 → Journal) : Fin 3 → List UInt8 := fun t => replay (js t).line

theorem recorded_update (js : Fin 3 → Journal) (t : Fin 3) (j : Journal) :
    recorded (update js t j) = update (recorded js) t (replay j.line) := by
  funext t'
  unfold recorded
  rw [update_apply, update_apply]
  split <;> rfl

/-- The history keeps journals that can be typed again, and the lines are what they record. -/
structure Replays (kb : Keyboard) (js : Fin 3 → Journal) : Prop where
  keeps : ∀ t, Keeps kb.history t (js t)
  replayable : ∀ t, (js t).Replayable
  lined : Lined kb.terms (recorded js)

theorem start_replays : Replays start fun _ => .empty :=
  ⟨start_keeps, fun _ => ⟨fun _ => .nil, fun _ hcmd => absurd hcmd List.not_mem_nil⟩,
    terminalOpen_lined⟩

theorem Replays.pending_eq (h : Replays kb js) (t : Fin 3) :
    kb.terms.lines.pending t = replay (js t).line :=
  (h.lined.typed t).pending_eq

theorem Replays.string_eq (h : Replays kb js) (t : Fin 3) :
    kb.history.string t .currCmd = (js t).line :=
  (h.keeps t).line.contents_eq

/-- `hist_copy_from` types the entry of the ring. -/
theorem Replays.recalled (h : Replays kb js) {k : ℕ} (hcurr : kb.terms.currTerminal = t)
    (hk : Window.Visible 9 (js t).oldest k) (hret : KeysReturn kb.terms (kb.recallKeys t k)) :
    Lined (kb.recallEntry t k).1.terms (update (recorded js) t (replay ((js t).drafts k))) := by
  have hentry : Padded 128 (kb.history.row t (.modifiedHist (k % (maxHist + 1)))) ((js t).drafts k) :=
    (h.keeps t).drafts k hk
  have hkeys : kb.recallKeys t k = List.replicate 128 backspace ++ (js t).drafts k := by
    have hall : ((List.range 128).map
        (kb.history.row t (.modifiedHist (k % (maxHist + 1))))).length ≤ 128 := by simp
    rw [recallKeys, histKeys, List.take_of_length_le hall]
    exact congrArg (List.replicate 128 backspace ++ ·) hentry.contents_eq
  rw [hkeys] at hret
  have hterms : (kb.recallEntry t k).1.terms
      = kb.terms.keys (List.replicate 128 backspace ++ (js t).drafts k) := by
    rw [recallEntry, hkeys]
    -- the 128 backspaces are not evaluated
    generalize List.replicate 128 backspace ++ (js t).drafts k = keys at hret
    rw [presses_of_returns hret]
  rw [hterms, ← hcurr]
  exact h.lined.histCopyFrom ((h.replayable _).drafts k)

/-- Only the arrows call the driver in the first part. -/
theorem First.terms_eq {r : Keyboard × List Store} (hf : First kb t sc r)
    (hsc : ¬(sc = up ∨ sc = down)) : r.1.terms = kb.terms := by
  cases hf with
  | older hup => exact absurd (.inl hup) hsc
  | newer hdown => exact absurd (.inr hdown) hsc
  | commit => rfl
  | flags _ hterms => exact hterms

/-- The first part of the handler, except for Enter. -/
theorem First.lined {r : Keyboard × List Store} (hf : First kb t sc r) (h : Replays kb js)
    (hcurr : kb.terms.currTerminal = t) (hcopies : Copies kb sc) (hsc : sc ≠ enter) :
    Lined r.1.terms (update (recorded js) t (replay ((js t).turn sc).line)) := by
  have hk := h.keeps t
  have hnum := hk.num
  have hpos := hk.curr
  have hmin := hk.min
  have hle := (js t).pos_le
  have hge : (js t).oldest ≤ (js t).pos := (js t).le_pos
  have hret : KeysReturn kb.terms (kb.copiedKeys t sc) := hcurr ▸ hcopies
  cases hf with
  | older hup hlt =>
    obtain ⟨-, hdrafts, hpos'⟩ := Journal.up_of_lt (j := js t) (by omega)
    rw [copiedKeys, if_pos ⟨hup, hlt⟩] at hret
    rw [Journal.turn, if_pos hup, Journal.line, hdrafts, hpos', hpos] at *
    exact h.recalled hcurr ((js t).visible (by omega) (by omega)) hret
  | newer hdown hlt =>
    obtain ⟨-, hdrafts, hpos'⟩ := Journal.down_of_lt (j := js t) (by omega)
    have hnot : sc ≠ up := by rw [hdown]; decide
    rw [copiedKeys, if_neg fun h => hnot h.1, if_pos ⟨hdown, hlt⟩] at hret
    rw [Journal.turn, if_neg hnot, if_pos hdown, Journal.line, hdrafts, hpos', hpos] at *
    exact h.recalled hcurr ((js t).visible (by omega) (by omega)) hret
  | commit henter => exact absurd henter hsc
  | @flags kb' _ hterms hup hdown henter =>
    show Lined kb'.terms _
    rw [turn_eq_self hk hup hdown henter, hterms,
      show replay (js t).line = recorded js t from rfl, update_eq_self]
    exact h.lined

/-! ## Events -/

/-- The character that a key types does not fault. -/
def KeyAction.Returns (v : Vars) : KeyAction → Prop
  | .character c => KeyReturns c v
  | _ => True

instance (v : Vars) : ∀ a : KeyAction, Decidable (a.Returns v)
  | .character _ => inferInstanceAs (Decidable (KeyReturns _ _))
  | .ignore | .switchTerminals _ | .clearTerminal => inferInstanceAs (Decidable True)

/-- Fewer than 128 keys on a line, and room for every tab. The screen is cleared, and output is
written, only where this drops no characters of a line. No key faults. -/
def InStep (kb : Keyboard) : Event → Prop
  | .scanCode sc =>
    let t := kb.terms.currTerminal
    let length := (kb.terms.vars t).linelength
    let action := (kb.modifiersAndHistory t sc).1.keyAction sc
    Fits kb (.scanCode sc) ∧
      -- `put_char` compares the length with 128 once for the eight blanks
      (kb.struck sc = tab → length ≤ 120) ∧
      -- `clear_terminal` empties the line, or returns when the cursor is off the screen
      (action = .clearTerminal → length = 0 ∨ ClearRefused (kb.terms.vars t)) ∧
      -- the keys of `hist_copy_from`, and the key itself
      Copies kb sc ∧ action.Returns (kb.terms.vars t)
  | .terminalRead _ _ => True
  | .terminalWrite t _ => (kb.terms.vars t).linelength = 0

instance (kb : Keyboard) : ∀ e, Decidable (InStep kb e)
  | .scanCode _ => inferInstanceAs (Decidable (_ ∧ (_ → _) ∧ (_ → _) ∧ _ ∧ _))
  | .terminalRead _ _ => inferInstanceAs (Decidable True)
  | .terminalWrite _ _ => inferInstanceAs (Decidable (_ = _))

theorem InStep.fits (h : InStep kb e) : Fits kb e := by
  cases e with
  | scanCode sc => exact h.1
  | terminalRead | terminalWrite => trivial

/-- The arrows are possible where their recalls return, and Enter always is. -/
theorem inStep_turn (kb : Keyboard) (sc : UInt8) (hsc : sc = up ∨ sc = down ∨ sc = enter)
    (hcopies : Copies kb sc) : InStep kb (.scanCode sc) := by
  have hzero : kb.struck sc = 0 := appended_eq_zero _ hsc
  obtain ⟨c, hquiet, haction⟩ : ∃ c, (c = newLineChar ∨ c = 0 ∨ c = tab) ∧
      (kb.modifiersAndHistory kb.terms.currTerminal sc).1.keyAction sc = .character c := by
    rcases or_assoc.mpr hsc with harrow | rfl
    · exact ⟨0, .inr (.inl rfl), keyAction_arrow _ harrow⟩
    · exact ⟨_, .inl rfl, keyAction_enter _⟩
  refine ⟨fun hne => absurd hzero hne, fun htab => absurd (hzero.symm.trans htab) (by decide),
    fun hclear => ?_, hcopies, ?_⟩
  · rw [haction] at hclear
    cases hclear
  · rw [haction]
    exact keyReturns_of_quiet hquiet _

/-- Enter: the driver drops its line, and the journal starts a new one. -/
theorem Replays.pressEnter (h : Replays kb js) :
    (js kb.terms.currTerminal).enter.Replayable ∧
      Lined (kb.terms.press newLineChar).1
        (update (recorded js) kb.terms.currTerminal
          (replay (js kb.terms.currTerminal).enter.line)) := by
  refine ⟨(h.replayable kb.terms.currTerminal).turn enter, ?_⟩
  rw [Journal.line_enter, press_of_returns (keyReturns_of_quiet (.inl rfl) _)]
  exact h.lined.enter

/-- The second part types no character behind a recall, so its character returns where it does so
before the first part. -/
theorem First.keyReturns {r : Keyboard × List Store} {c : UInt8} (hf : First kb t sc r)
    (haction : r.1.keyAction sc = .character c)
    (hreturns : KeyReturns c (kb.terms.vars kb.terms.currTerminal)) :
    KeyReturns c (r.1.terms.vars r.1.terms.currTerminal) := by
  by_cases harrow : sc = up ∨ sc = down
  · cases haction.symm.trans (keyAction_arrow r.1 harrow)
    exact keyReturns_of_quiet (.inr (.inl rfl)) _
  · rw [hf.terms_eq harrow]
    exact hreturns

/-- The driver after a scan code. -/
theorem Replays.scanCode (h : Replays kb js) (hok : InStep kb (.scanCode sc)) :
    ((js kb.terms.currTerminal).press sc (kb.struck sc)).Replayable ∧
    Lined (((kb.modifiersAndHistory kb.terms.currTerminal sc).1.keyAction sc).onTerminals
        (kb.modifiersAndHistory kb.terms.currTerminal sc).1.terms)
      (update (recorded js) kb.terms.currTerminal
        (replay ((js kb.terms.currTerminal).press sc (kb.struck sc)).line)) := by
  have hf := first_modifiersAndHistory kb kb.terms.currTerminal sc
  have hstruck : kb.struck sc
      = (kb.modifiersAndHistory kb.terms.currTerminal sc).1.appended sc := rfl
  obtain ⟨-, htab, hclear, hcopies, hreturns⟩ := hok
  have hlength : (kb.terms.vars kb.terms.currTerminal).linelength
      = (recorded js kb.terms.currTerminal).length := (h.lined.typed _).length
  generalize hr : kb.modifiersAndHistory kb.terms.currTerminal sc = r at *
  have hcurr := hf.currTerminal
  have hj := h.replayable kb.terms.currTerminal
  by_cases hsc : sc = enter
  · have hzero : kb.struck sc = 0 := hstruck.trans (appended_eq_zero _ (.inr (.inr hsc)))
    have hpress : (js kb.terms.currTerminal).press sc 0 = (js kb.terms.currTerminal).enter := by
      rw [hsc]
      rfl
    rw [hzero, hpress, hf.terms_eq (by rw [hsc]; decide), hsc, keyAction_enter]
    exact h.pressEnter
  -- the first part puts the line of the journal on the terminal, the second part types on it
  have hfirst := hf.lined h rfl hcopies hsc
  rw [Journal.replay_press]
  cases haction : r.1.keyAction sc with
  | character c =>
    rw [haction] at hreturns
    have hpress := press_of_returns (hf.keyReturns haction hreturns)
    have hc : kb.struck sc = c := by
      rw [hstruck, appended, haction]
      dsimp only
      rw [hpress]
      exact if_neg (not_or.mpr ⟨hsc, show ¬true = false by decide⟩)
    have hnl : c ≠ newLineChar := by
      obtain ⟨hle, m, hm⟩ := keyAction_character haction
      rw [hm]
      exact fun he => hsc ((kbdus_newLine m hle).mp he)
    have hroom : c = tab → (replay ((js kb.terms.currTerminal).turn sc).line).length ≤ 120 := by
      intro htab'
      -- a tab is no arrow, so the line is the same after the first part
      have hno : r.1.keyAction sc ≠ .character 0 := by
        rw [haction, htab']
        decide
      have harrow := not_or.mp (not_arrow_of_keyAction hno)
      rw [Journal.turn, if_neg harrow.1, if_neg harrow.2, if_neg hsc]
      have := htab (hc.trans htab')
      unfold recorded at hlength
      omega
    have hself : update (recorded js) kb.terms.currTerminal
        (replay ((js kb.terms.currTerminal).turn sc).line) r.1.terms.currTerminal
          = replay ((js kb.terms.currTerminal).turn sc).line := by rw [hcurr, update_self]
    have hkey := hfirst.key hnl (by rwa [hself])
    rw [hself, hcurr, update_idem] at hkey
    rw [hc]
    refine ⟨hj.press hnl hroom, ?_⟩
    show Lined (r.1.terms.press c).1 _
    rw [hpress]
    exact hkey
  | ignore | switchTerminals term =>
    have hzero : kb.struck sc = 0 := by rw [hstruck, appended, haction]
    rw [hzero, retype_zero]
    exact ⟨hj.turn sc, hfirst.of_lines rfl⟩
  | clearTerminal =>
    have hzero : kb.struck sc = 0 := by rw [hstruck, appended, haction]
    have hterms := hf.terms_eq (not_arrow_of_keyAction (by rw [haction]; decide))
    rw [hzero, retype_zero]
    refine ⟨hj.turn sc, hfirst.clearTerminal ?_⟩
    rw [hterms]
    exact linelength_clearTerminal (hclear haction) _

/-- One event. -/
theorem Replays.exec (h : Replays kb js) (hok : InStep kb e) (he : e.exec kb = some kb') :
    Replays kb' (Journal.next kb js e) := by
  have hkeeps := (keeps_exec h.keeps hok.fits he).1
  cases e with
  | scanCode sc =>
    obtain ⟨kb₁, stores, hint, -, -, -, hterms⟩ := keyboardInt_spec h.keeps hok.2.2.2.1 hok.fits
    obtain rfl : kb₁ = kb' := by
      rw [Event.exec, hint] at he
      exact Option.some.inj he
    obtain ⟨hpress, hlined⟩ := h.scanCode hok
    rw [Journal.next_scanCode js hok.2.2.2.1] at hkeeps ⊢
    refine ⟨hkeeps, fun t => ?_, ?_⟩
    · rw [update_apply]
      split
      · exact hpress
      · exact h.replayable t
    · rw [recorded_update, hterms]
      exact hlined
  | terminalRead t count =>
    obtain ⟨tm, htm, rfl⟩ := Option.map_eq_some_iff.mp (show kb.call _ = _ from he)
    refine ⟨hkeeps, h.replayable, ?_⟩
    rw [Terminal.Event.exec] at htm
    split at htm
    · cases htm
      exact h.lined
    · rename_i hcount
      obtain ⟨⟨tm₁, bytes⟩, hread, rfl⟩ := Option.map_eq_some_iff.mp htm
      exact h.lined.terminalRead (Int.not_lt.mp hcount) hread
  | terminalWrite t bytes =>
    obtain ⟨tm, htm, rfl⟩ := Option.map_eq_some_iff.mp (show kb.call _ = _ from he)
    cases htm
    exact ⟨hkeeps, h.replayable, h.lined.of_lines (lines_write hok bytes)⟩

theorem Reach.replays (h : Run.Reach system InStep kb) : ∃ js, Replays kb js := by
  refine h.invariant (I := fun kb => ∃ js, Replays kb js) ?_ ?_
  · intro kb hkb
    rw [hkb]
    exact ⟨_, start_replays⟩
  · intro kb e kb' hI hok hstep
    obtain ⟨js, h⟩ := hI
    exact ⟨_, h.exec hok hstep⟩

/-! ## Recalling a command -/

/-- The line that an event enters as a command on terminal `t`. -/
def textOf (t : Fin 3) (kb : Keyboard) (e : Event) : Option (List UInt8) :=
  (commandOf t kb e).map fun _ => kb.terms.lines.pending t

/-- The lines that a run enters as commands on terminal `t`, in order. -/
def texts (t : Fin 3) (kb : Keyboard) (es : List Event) : List (List UInt8) :=
  (system.labels (textOf t) kb es).filterMap id

theorem Replays.textOf_eq (h : Replays kb js) (t : Fin 3) (e : Event) :
    textOf t kb e = (commandOf t kb e).map replay := by
  unfold textOf
  refine Option.map_congr fun cmd hcmd => ?_
  have hstring : cmd = kb.history.string t .currCmd := by
    cases e with
    | scanCode sc =>
      rw [commandOf] at hcmd
      split at hcmd
      · exact (Option.some.inj hcmd).symm
      · cases hcmd
    | terminalRead | terminalWrite => cases hcmd
  rw [hstring, h.pending_eq, h.string_eq]

theorem texts_eq (hok : system.Allowed InStep start es) (t : Fin 3) :
    texts t start es = (commands t start es).map replay := by
  have hlabels : system.labels (textOf t) start es
      = (system.labels (commandOf t) start es).map (Option.map replay) := by
    refine Run.System.labels_map (commandOf t) (I := fun kb => ∃ js, Replays kb js) ?_ ?_
      ⟨_, start_replays⟩ hok
    · intro kb e kb' hI hok hstep
      obtain ⟨js, h⟩ := hI
      exact ⟨_, h.exec hok hstep⟩
    · intro kb e hI _
      obtain ⟨js, h⟩ := hI
      exact h.textOf_eq t e
  rw [texts, hlabels, commands, List.filterMap_map, List.map_filterMap]
  rfl

/-- Up puts the line of the entry before on the screen. -/
theorem Replays.up (h : Replays kb js) (hcopies : Copies kb Keyboard.up)
    (hlt : (js kb.terms.currTerminal).oldest < (js kb.terms.currTerminal).pos) :
    ∃ kb', system.step kb (.scanCode up) = some kb' ∧
      kb'.terms.lines.pending kb.terms.currTerminal
        = replay ((js kb.terms.currTerminal).drafts ((js kb.terms.currTerminal).pos - 1)) := by
  obtain ⟨kb', hstep, -, -⟩ := keeps_turn h.keeps Keyboard.up (.inl rfl) hcopies
  have h' := h.exec (inStep_turn kb Keyboard.up (.inl rfl) hcopies) hstep
  obtain ⟨-, hdrafts, hpos⟩ := Journal.up_of_lt hlt
  have hzero : kb.struck Keyboard.up = 0 := appended_eq_zero _ (.inl rfl)
  refine ⟨kb', hstep, ?_⟩
  rw [h'.pending_eq, Journal.next_scanCode js hcopies, update_self, hzero]
  show replay (js kb.terms.currTerminal).up.line = _
  rw [Journal.line, hdrafts, hpos]

/-- Enter: the journal starts a new line, and the driver keeps the old one for the process. -/
theorem Replays.enter (h : Replays kb js) :
    ∃ kb', system.step kb (.scanCode enter) = some kb' ∧
      kb'.terms.currTerminal = kb.terms.currTerminal ∧
      Replays kb' (update js kb.terms.currTerminal (js kb.terms.currTerminal).enter) ∧
      Entered kb'.terms.lines kb.terms.currTerminal
        (replay (js kb.terms.currTerminal).line ++ [newLineChar]) := by
  have hcopies := copies_enter kb
  have hok := inStep_turn kb Keyboard.enter (.inr (.inr rfl)) hcopies
  have hzero : kb.struck Keyboard.enter = 0 := appended_eq_zero _ (.inr (.inr rfl))
  obtain ⟨kb', stores, hint, -, -, -, hterms⟩ := keyboardInt_spec h.keeps hcopies hok.fits
  have hstep : system.step kb (.scanCode Keyboard.enter) = some kb' :=
    congrArg (Option.map Prod.fst) hint
  have h' := h.exec hok hstep
  rw [Journal.next_scanCode js hcopies, hzero] at h'
  rw [keyAction_enter, (first_modifiersAndHistory kb _ Keyboard.enter).terms_eq (by decide),
    KeyAction.onTerminals, press_of_returns (keyReturns_of_quiet (.inl rfl) _)] at hterms
  refine ⟨kb', hstep, ?_, h', ?_⟩ <;> rw [hterms]
  · exact currTerminal_key ..
  · rw [lines_key]
    exact (h.lined.typed _).enter

/-- Enter, on a line with keys: the process reads the line, and Up puts it back. -/
theorem Replays.commit (h : Replays kb js) (hrows : OnRows kb.terms)
    (hline : (js kb.terms.currTerminal).line ≠ []) :
    ∃ kb', system.step kb (.scanCode Keyboard.enter) = some kb' ∧ ∀ count : ℕ,
      ∃ tm, terminalRead kb'.terms kb.terms.currTerminal count = some (tm,
          (replay (js kb.terms.currTerminal).line ++ [newLineChar]).take count) ∧
        ∃ kb'', system.run kb' [.terminalRead kb.terms.currTerminal count, .scanCode Keyboard.up]
            = some kb'' ∧
          kb''.terms.lines.pending kb.terms.currTerminal
            = replay (js kb.terms.currTerminal).line := by
  obtain ⟨kb', hstep, hcurr, h', hentered⟩ := h.enter
  have hnul : 0 ∉ replay (js kb.terms.currTerminal).line ++ [newLineChar] := by
    rw [List.mem_append, List.mem_singleton, not_or]
    exact ⟨(h.replayable _).line.zero_notMem, by decide⟩
  refine ⟨kb', hstep, fun count => ?_⟩
  obtain ⟨tm, hread, -⟩ := hentered.terminalRead hnul count
  have hcall : system.step kb' (.terminalRead kb.terms.currTerminal count)
      = some { kb' with terms := tm } := by
    show (Terminal.Event.exec kb'.terms (.terminalRead kb.terms.currTerminal count)).map _ = _
    rw [Terminal.Event.exec, if_neg (by omega), hread]
    rfl
  have hread' := h'.exec (e := .terminalRead _ _) trivial hcall
  have hcurr' : tm.currTerminal = kb.terms.currTerminal :=
    (currTerminal_terminalRead hread).trans hcurr
  have hself : update js kb.terms.currTerminal (js kb.terms.currTerminal).enter tm.currTerminal
      = (js kb.terms.currTerminal).enter := by rw [hcurr', update_self]
  -- Enter has taken the cursor below the first row, so no backspace of the recall faults
  obtain ⟨hlt, hlast⟩ := Journal.drafts_enter hline
  have hroom : HasRoom { kb' with terms := tm } := (hasRoom_enter hrows hstep).terminalRead hread
  obtain ⟨kb'', hup, hpending⟩ := hread'.up (hroom.copies Keyboard.up) (by rwa [← hself] at hlt)
  refine ⟨tm, hread, kb'', ?_, ?_⟩
  · rw [Run.System.run, hcall, Option.bind_some, Run.System.run, hup]
    rfl
  · have hentry : kb''.terms.lines.pending tm.currTerminal = replay
        ((update js kb.terms.currTerminal (js kb.terms.currTerminal).enter tm.currTerminal).drafts
          ((update js kb.terms.currTerminal (js kb.terms.currTerminal).enter tm.currTerminal).pos - 1)) :=
      hpending
    rwa [hself, hlast, hcurr'] at hentry

/-- The history records the lines. In every run in which no characters of a line are dropped by a
cleared screen or by output, and no key faults, the keys of `curr_cmd` make the pending line again; a
line that is entered is read by the process and put back by Up, and later an entry that was not edited
puts back the line that was entered with it, where its recall returns. -/
theorem history_records_line (hok : system.Allowed InStep start es)
    (hrun : system.run start es = some kb) (t : Fin 3) :
    (∀ tm : Terminals, tm.lines.linelength tm.currTerminal = 0 →
      KeysReturn tm (kb.history.string t .currCmd) →
      (tm.presses (kb.history.string t .currCmd)).1.lines.pending tm.currTerminal
        = kb.terms.lines.pending t) ∧
    (kb.terms.currTerminal = t → kb.history.row t .currCmd 0 ≠ 0 →
      ∃ kb', system.step kb (.scanCode enter) = some kb' ∧ ∀ count : ℕ,
        ∃ tm, terminalRead kb'.terms t count
            = some (tm, (kb.terms.lines.pending t ++ [newLineChar]).take count) ∧
          ∃ kb'', system.run kb' [.terminalRead t count, .scanCode up] = some kb'' ∧
            kb''.terms.lines.pending t = kb.terms.lines.pending t) ∧
    (kb.terms.currTerminal = t → kb.history.minHist t < kb.history.currHist t →
      kb.history.string t (.modifiedHist ((kb.history.currHist t - 1) % 9))
        = kb.history.string t (.hist ((kb.history.currHist t - 1) % 9)) → Copies kb up →
      ∃ kb', system.step kb (.scanCode up) = some kb' ∧
        (texts t start es)[kb.history.currHist t - 1]? = some (kb'.terms.lines.pending t)) := by
  have hinit : Run.Reach system InStep start := .init rfl
  obtain ⟨js, h⟩ := Reach.replays (hinit.run hok hrun)
  have hk := h.keeps t
  refine ⟨fun tm htm hret => ?_, ?_, ?_⟩
  · rw [presses_of_returns hret, h.string_eq, h.pending_eq]
    exact ((h.replayable t).line.typed (Typed.nil htm)).pending_eq
  · rintro rfl hline
    rw [h.pending_eq]
    exact h.commit (onRows_run terminalOpen_onRows hrun) (hk.row_ne_zero_iff.mp hline)
  · rintro rfl hlt hunedited hcopies
    have hcurr := hk.curr
    have hmin := hk.min
    have hnum := hk.num
    have hle := (js kb.terms.currTerminal).pos_le
    -- the command is still in the ring
    obtain ⟨js', hk', hcommands⟩ := keeps_run start_keeps (hok.mono fun _ _ => InStep.fits) hrun
    have hring := (hk' kb.terms.currTerminal).ringHolds
    rw [show (js' kb.terms.currTerminal).commands = commands kb.terms.currTerminal start es
      from hcommands _] at hring
    have hcommand := hring.command (kb.history.currHist kb.terms.currTerminal - 1) (by omega) (by omega)
    obtain ⟨kb', hstep, hpending⟩ := h.up hcopies (by omega)
    have hdraft := (hk.drafts ((js kb.terms.currTerminal).pos - 1)
      ((js kb.terms.currTerminal).visible (by omega) (by omega))).contents_eq
    refine ⟨kb', hstep, ?_⟩
    rw [texts_eq hok, List.getElem?_map, hcommand, ← hunedited, Option.map_some, hpending, ← hdraft,
      hcurr]
    rfl

/-- A letter is entered, read and recalled. -/
theorem history_records_line_letter :
    ∃ kb kb' tm kb'', system.run start [.scanCode 0x1e] = some kb ∧
      kb.terms.lines.pending 0 = [0x61] ∧ system.step kb (.scanCode enter) = some kb' ∧
      terminalRead kb'.terms 0 128 = some (tm, [0x61, newLineChar]) ∧
      system.run kb' [.terminalRead 0 128, .scanCode up] = some kb'' ∧
      kb''.terms.lines.pending 0 = [0x61] := by
  have hok : system.Allowed InStep start [.scanCode 0x1e] := by
    rw [start_eq]
    decide +kernel
  have htyped : (system.run start [.scanCode 0x1e]).map (fun kb =>
      (kb.terms.lines.pending 0, kb.terms.currTerminal, kb.history.row 0 .currCmd 0))
        = some ([0x61], 0, 0x61) := by
    rw [start_eq]
    decide +kernel
  obtain ⟨kb, hrun, hkb⟩ := Option.map_eq_some_iff.mp htyped
  simp only [Prod.mk.injEq] at hkb
  obtain ⟨hpending, hcurr, hrow⟩ := hkb
  obtain ⟨kb', hstep, hread⟩ :=
    (history_records_line hok hrun 0).2.1 hcurr (by rw [hrow]; decide)
  obtain ⟨tm, htm, kb'', hup, hback⟩ := hread 128
  rw [show kb.terms.lines.pending (0 : Fin 3) = [0x61] from hpending] at htm hback
  exact ⟨kb, kb', tm, kb'', hrun, hpending, hstep, htm, hup, hback⟩

/-- Ctrl-L drops a letter from the line, and the history keeps it: after another letter and Enter the
process reads one letter, and Up puts two on the line. -/
theorem history_keeps_cleared :
    ∃ kb kb' tm kb'', system.run start [.scanCode 0x1e, .scanCode lctrl, .scanCode 0x26] = some kb ∧
      kb.history.string 0 .currCmd = [0x61] ∧ kb.terms.lines.pending 0 = [] ∧
      (terminalOpen.keys [0x61]).lines.pending 0 = [0x61] ∧
      system.run kb [.scanCode (lctrl + release), .scanCode 0x30, .scanCode enter] = some kb' ∧
      terminalRead kb'.terms 0 128 = some (tm, [0x62, newLineChar]) ∧
      system.run kb' [.terminalRead 0 128, .scanCode up] = some kb'' ∧
      kb''.terms.lines.pending 0 = [0x61, 0x62] := by
  have hall : ((system.run start [.scanCode 0x1e, .scanCode lctrl, .scanCode 0x26]).bind fun kb =>
      (system.run kb [.scanCode (lctrl + release), .scanCode 0x30, .scanCode enter]).bind fun kb' =>
        (terminalRead kb'.terms 0 128).bind fun r =>
          (system.run kb' [.terminalRead 0 128, .scanCode up]).map fun kb'' =>
            (kb.history.string 0 .currCmd, kb.terms.lines.pending 0, r.2,
              kb''.terms.lines.pending 0))
      = some ([0x61], [], [0x62, newLineChar], [0x61, 0x62]) := by
    rw [start_eq]
    decide +kernel
  obtain ⟨kb, hrun, hall⟩ := Option.bind_eq_some_iff.mp hall
  obtain ⟨kb', hrun', hall⟩ := Option.bind_eq_some_iff.mp hall
  obtain ⟨⟨tm, bytes⟩, hread, hall⟩ := Option.bind_eq_some_iff.mp hall
  obtain ⟨kb'', hup, hvalues⟩ := Option.map_eq_some_iff.mp hall
  simp only [Prod.mk.injEq] at hvalues
  obtain ⟨hstring, hpending, hbytes, hback⟩ := hvalues
  rw [hbytes] at hread
  exact ⟨kb, kb', tm, kb'', hrun, hstring, hpending, by decide, hrun', hread, hup, hback⟩

end Keyboard
end GalapagOS
