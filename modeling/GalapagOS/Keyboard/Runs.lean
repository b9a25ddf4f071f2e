import GalapagOS.Keyboard.Theorems
import GalapagOS.Terminal.Room

/-!
# The command history over whole runs

As long as every line stays shorter than 128 characters, the rings keep the last eight commands of
each terminal. After Enter the up arrow walks through them, and wherever `hist_copy_from` returns, the
down arrow takes back what the up arrow did. On a line that starts in the first row it may not return.
-/

namespace GalapagOS
namespace Keyboard

open Function Strings Terminal

variable {kb kb' : Keyboard} {t : Fin 3} {sc c : UInt8} {e : Event} {es : List Event}
  {js : Fin 3 → Journal}

/-! ## The start -/

theorem apply_static {stores : List Store} (hs : ∀ s ∈ stores, s.value = .byte 0) (t : Fin 3) :
    staticHistory.apply t stores = staticHistory := by
  induction stores with
  | nil => rfl
  | cons s stores ih =>
    have hzero : s.apply t staticHistory = staticHistory := by
      have hcell : ∀ (b : Buffer) (a : ℕ), update (staticHistory.bytes b) a 0 = staticHistory.bytes b :=
        fun b a => update_eq_self_iff.mpr rfl
      rw [Store.apply, hs s List.mem_cons_self, Value.at, hcell, update_eq_self]
    show (s.apply t staticHistory).apply t stores = _
    rw [hzero]
    exact ih fun s hs' => hs s (List.mem_cons_of_mem _ hs')

/-- `init_hist` finds everything at zero. -/
theorem history_start : start.history = staticHistory := by
  have hcmd : ∀ s ∈ rowStores .currCmd (.byte 0), s.value = .byte 0 := by
    intro s hs
    obtain ⟨i, -, rfl⟩ := List.mem_map.mp hs
    rfl
  have hslots : ∀ s ∈ (List.range (maxHist + 1)).map fun i => (⟨.hist i, 0, .byte 0⟩ : Store),
      s.value = .byte 0 := by
    intro s hs
    obtain ⟨i, -, rfl⟩ := List.mem_map.mp hs
    rfl
  have hfix : ∀ {f : History → Fin 3 → History}, (∀ j, f staticHistory j = staticHistory) →
      ∀ l : List (Fin 3), l.foldl f staticHistory = staticHistory := by
    intro f hf l
    induction l with
    | nil => rfl
    | cons j l ih => rw [List.foldl_cons, hf, ih]
  show initHist staticHistory = staticHistory
  rw [initHist, hfix fun j => apply_static hcmd j, hfix fun j => apply_static hslots j]

theorem start_eq : start = ⟨false, false, false, false, staticHistory, terminalOpen⟩ :=
  congrArg (fun h => (⟨false, false, false, false, h, terminalOpen⟩ : Keyboard)) history_start

theorem start_keeps (t : Fin 3) : Keeps start.history t .empty := by
  have hzero : ∀ r : Row, Padded 128 (staticHistory.row t r) [] := fun r =>
    Padded.nil (by decide) fun _ _ => rfl
  rw [history_start]
  exact ⟨rfl, rfl, rfl, hzero _, fun _ _ => hzero _, fun _ _ => hzero _⟩

/-! ## The commands of a run -/

/-- A string of the history. -/
def History.string (h : History) (t : Fin 3) (r : Row) : List UInt8 := contents 128 (h.row t r)

/-- The command that an event commits on terminal `t`. -/
def commandOf (t : Fin 3) (kb : Keyboard) : Event → Option (List UInt8)
  | .scanCode sc =>
    if kb.terms.currTerminal = t ∧ sc = enter ∧ kb.history.row t .currCmd 0 ≠ 0 then
      some (kb.history.string t .currCmd)
    else none
  | _ => none

/-- The commands that a run commits on terminal `t`, in order. -/
def commands (t : Fin 3) (kb : Keyboard) (es : List Event) : List (List UInt8) :=
  (system.labels (commandOf t) kb es).filterMap id

theorem Keeps.row_ne_zero_iff {h : History} {j : Journal} (hk : Keeps h t j) :
    h.row t .currCmd 0 ≠ 0 ↔ j.line ≠ [] := by
  constructor
  · intro hne hempty
    apply hne
    rw [hk.line.cells 0 (by decide), hempty]
    rfl
  · exact fun hne => hk.line.lt_length (List.length_pos_of_ne_nil hne)

theorem Journal.commands_press (j : Journal) (sc c : UInt8) :
    (j.press sc c).commands
      = j.commands ++ if sc = Keyboard.enter ∧ j.line ≠ [] then [j.line] else [] := by
  have hturn : (j.turn sc).commands
      = j.commands ++ if sc = Keyboard.enter ∧ j.line ≠ [] then [j.line] else [] := by
    unfold Journal.turn
    split
    · rename_i hsc
      rw [if_neg fun he => absurd (hsc.symm.trans he.1) (by decide), List.append_nil, Journal.up]
      split <;> rfl
    split
    · rename_i hsc
      rw [if_neg fun he => absurd (hsc.symm.trans he.1) (by decide), List.append_nil, Journal.down]
      split <;> rfl
    split
    · rename_i hsc
      by_cases hline : j.line = []
      · rw [if_neg fun he => he.2 hline, List.append_nil, Journal.enter, if_pos hline]
      · rw [if_pos ⟨hsc, hline⟩]
        exact (Journal.enter_of_line hline).1
    · rename_i hsc
      rw [if_neg fun he => hsc he.1, List.append_nil]
  unfold Journal.press
  split
  · exact hturn
  · exact hturn

/-- The journals after an event. -/
def Journal.next (kb : Keyboard) (js : Fin 3 → Journal) : Event → Fin 3 → Journal
  | .scanCode sc =>
    if Copies kb sc then
      update js kb.terms.currTerminal ((js kb.terms.currTerminal).press sc (kb.struck sc))
    else js
  | _ => js

theorem Journal.next_scanCode (js : Fin 3 → Journal) (h : Copies kb sc) :
    Journal.next kb js (.scanCode sc)
      = update js kb.terms.currTerminal ((js kb.terms.currTerminal).press sc (kb.struck sc)) :=
  if_pos h

/-- Enter recalls nothing. -/
theorem copies_enter (kb : Keyboard) : Copies kb enter := copies_of_ne_arrow kb (by decide)

/-- One event. -/
theorem keeps_exec (hk : ∀ t, Keeps kb.history t (js t)) (hok : Fits kb e)
    (he : e.exec kb = some kb') :
    (∀ t, Keeps kb'.history t (Journal.next kb js e t)) ∧
      ∀ t, (Journal.next kb js e t).commands = (js t).commands ++ (commandOf t kb e).toList := by
  cases e with
  | scanCode sc =>
    by_cases hcopies : Copies kb sc
    case neg =>
      -- the handler has not come past `hist_copy_from`, and the key is not Enter
      have hstep : (kb.keyboardInt sc).map Prod.fst = some kb' := he
      rw [keyboardInt_of_not_copies hcopies] at hstep
      cases hstep
      rw [Journal.next, if_neg hcopies]
      have hne : sc ≠ enter := by
        rintro rfl
        exact hcopies (copies_enter kb)
      refine ⟨hk, fun t => ?_⟩
      rw [commandOf, if_neg fun h => hne h.2.1]
      exact (List.append_nil _).symm
    obtain ⟨kb₁, stores, hint, -, hkeeps, hothers, -⟩ := keyboardInt_spec hk hcopies hok
    obtain rfl : kb₁ = kb' := by
      rw [Event.exec, hint] at he
      exact Option.some.inj he
    rw [Journal.next_scanCode js hcopies]
    constructor
    · intro t
      by_cases ht : t = kb.terms.currTerminal
      · rw [ht, update_self]
        exact hkeeps
      · rw [update_of_ne ht]
        exact (hothers t ht).1
    · intro t
      unfold commandOf
      dsimp only
      by_cases ht : t = kb.terms.currTerminal
      · have hline := (hk kb.terms.currTerminal).row_ne_zero_iff
        rw [ht, update_self, Journal.commands_press]
        by_cases hcommit : sc = enter ∧ (js kb.terms.currTerminal).line ≠ []
        · rw [if_pos hcommit, if_pos ⟨rfl, hcommit.1, hline.mpr hcommit.2⟩, History.string,
            (hk _).line.contents_eq]
          rfl
        · rw [if_neg hcommit, if_neg fun he => hcommit ⟨he.2.1, hline.mp he.2.2⟩]
          rfl
      · rw [update_of_ne ht, if_neg fun he => ht he.1.symm]
        exact (List.append_nil _).symm
  | terminalRead t count =>
    obtain ⟨tm, -, rfl⟩ := Option.map_eq_some_iff.mp (show kb.call _ = _ from he)
    exact ⟨hk, fun t => (List.append_nil _).symm⟩
  | terminalWrite t bytes =>
    obtain ⟨tm, -, rfl⟩ := Option.map_eq_some_iff.mp (show kb.call _ = _ from he)
    exact ⟨hk, fun t => (List.append_nil _).symm⟩

/-- A run: the rings keep journals whose commands are those of the run. -/
theorem keeps_run : ∀ {es : List Event} {kb : Keyboard} {js : Fin 3 → Journal},
    (∀ t, Keeps kb.history t (js t)) → system.Allowed Fits kb es → system.run kb es = some kb' →
      ∃ js' : Fin 3 → Journal, (∀ t, Keeps kb'.history t (js' t)) ∧
        ∀ t, (js' t).commands = (js t).commands ++ commands t kb es
  | [], kb, js, hk, _, hrun => by
    cases hrun
    exact ⟨js, hk, fun t => (List.append_nil _).symm⟩
  | e :: es, kb, js, hk, hok, hrun => by
    obtain ⟨kb₁, hkb₁, hrest⟩ := Option.bind_eq_some_iff.mp hrun
    obtain ⟨hk₁, hcommands₁⟩ := keeps_exec hk hok.1 hkb₁
    obtain ⟨js', hk', hcommands'⟩ := keeps_run hk₁ (hok.2 kb₁ hkb₁) hrest
    refine ⟨js', hk', fun t => ?_⟩
    have hlabels : commands t kb (e :: es) = (commandOf t kb e).toList ++ commands t kb₁ es := by
      unfold commands
      rw [Run.System.labels, show system.step kb e = some kb₁ from hkb₁]
      cases hc : commandOf t kb e <;> simp
    rw [hcommands', hcommands₁, hlabels, List.append_assoc]

/-! ## The rings -/

/-- The rings hold the last commands of terminal `t`. -/
structure RingHolds (h : History) (t : Fin 3) (cmds : List (List UInt8)) : Prop where
  num : h.numHist t = cmds.length
  min : h.minHist t = h.numHist t - 8
  min_le : h.minHist t ≤ h.currHist t
  le_num : h.currHist t ≤ h.numHist t
  command : ∀ k, h.minHist t ≤ k → k < h.numHist t →
    cmds[k]? = some (h.string t (.hist (k % 9)))
  next : h.string t (.hist (h.numHist t % 9)) = []
  line : h.string t .currCmd = h.string t (.modifiedHist (h.currHist t % 9))

theorem Keeps.ringHolds {h : History} {j : Journal} (hk : Keeps h t j) :
    RingHolds h t j.commands := by
  have hnum := hk.num
  have hcurr := hk.curr
  have hmin := hk.min
  refine ⟨hnum, by rw [hmin, hnum]; rfl, by rw [hmin, hcurr]; exact j.le_pos,
    by rw [hnum, hcurr]; exact j.pos_le, fun k hle hlt => ?_, ?_, ?_⟩
  · have hp := hk.commands k (j.visible (by omega) (by omega))
    have hlt' : k < j.commands.length := by omega
    rw [History.string, hp.contents_eq, List.getElem?_eq_getElem hlt']
    exact congrArg some (List.getD_eq_getElem _ _ hlt').symm
  · have hp := hk.commands _ (j.visible (Nat.sub_le _ _) le_rfl)
    rw [hnum, History.string, hp.contents_eq]
    exact List.getD_eq_default _ _ le_rfl
  · have hp := hk.drafts _ j.visible_pos
    rw [History.string, History.string, hk.line.contents_eq, hcurr, hp.contents_eq]
    rfl

/-! ## Walking through the history -/

theorem First.currTerminal {r : Keyboard × List Store} (hf : First kb t sc r) :
    r.1.terms.currTerminal = kb.terms.currTerminal := by
  cases hf with
  | older | newer => exact currTerminal_presses _ _
  | commit => rfl
  | flags _ hterms => rw [hterms]

/-- The arrows and Enter do not switch terminals. -/
theorem currTerminal_onTerminals (kb : Keyboard) (hsc : sc = up ∨ sc = down ∨ sc = enter)
    (tm : Terminals) : ((kb.keyAction sc).onTerminals tm).currTerminal = tm.currTerminal := by
  rcases or_assoc.mpr hsc with harrow | rfl
  · rw [keyAction_arrow kb harrow]
    exact currTerminal_press ..
  · rw [keyAction_enter]
    exact currTerminal_press ..

/-- An arrow or Enter takes one turn in the journal. -/
theorem keeps_turn (hk : ∀ t, Keeps kb.history t (js t)) (sc : UInt8)
    (hsc : sc = up ∨ sc = down ∨ sc = enter) (hcopies : Copies kb sc) :
    ∃ kb', system.step kb (.scanCode sc) = some kb' ∧
      kb'.terms.currTerminal = kb.terms.currTerminal ∧
      ∀ t, Keeps kb'.history t (update js kb.terms.currTerminal
        ((js kb.terms.currTerminal).turn sc) t) := by
  have hzero : kb.struck sc = 0 := appended_eq_zero _ hsc
  have hfits : Fits kb (.scanCode sc) := fun hne => absurd hzero hne
  obtain ⟨kb', stores, hint, -, hkeeps, hothers, hterms⟩ := keyboardInt_spec hk hcopies hfits
  refine ⟨kb', ?_, ?_, ?_⟩
  · show (kb.keyboardInt sc).map Prod.fst = some kb'
    rw [hint]
    rfl
  · rw [hterms, currTerminal_onTerminals _ hsc]
    exact (first_modifiersAndHistory kb _ sc).currTerminal
  · intro t
    by_cases ht : t = kb.terms.currTerminal
    · rw [hzero, Journal.press, if_pos rfl] at hkeeps
      rw [ht, update_self]
      exact hkeeps
    · rw [update_of_ne ht]
      exact (hothers t ht).1

/-! ## Keys that do not fault -/

/-- The displayed line has room for every key. -/
def HasRoom (kb : Keyboard) : Prop := Roomy (kb.terms.vars kb.terms.currTerminal)

theorem HasRoom.copies (h : HasRoom kb) (sc : UInt8) : Copies kb sc := (Roomy.keysReturn h).1

/-- The first part calls the driver with the keys of the entry. -/
theorem First.terms_presses {r : Keyboard × List Store} (hf : First kb t sc r) :
    r.1.terms = (kb.terms.presses (kb.copiedKeys t sc)).1 := by
  cases hf with
  | older hsc hlt => rw [copiedKeys, if_pos ⟨hsc, hlt⟩, recallEntry]
  | newer hsc hlt =>
    rw [copiedKeys, if_neg fun h => absurd (hsc.symm.trans h.1) (by decide), if_pos ⟨hsc, hlt⟩,
      recallEntry]
  | commit hsc =>
    rw [copiedKeys_eq_nil kb t (by rw [hsc]; decide)]
    rfl
  | flags _ hterms hup hdown =>
    rw [copiedKeys, if_neg fun h => hup h.1 h.2, if_neg fun h => hdown h.1 h.2, hterms]
    rfl

theorem HasRoom.press (h : HasRoom kb) (c : UInt8) :
    Roomy ((kb.terms.press c).1.vars kb.terms.currTerminal) := by
  rw [press_of_returns (h.keyReturns c), Terminals.key, vars_run_self]
  exact Roomy.putChar h _ c

/-- An arrow types on the line. -/
theorem HasRoom.arrow (h : HasRoom kb) (hsc : sc = up ∨ sc = down)
    (hstep : system.step kb (.scanCode sc) = some kb') : HasRoom kb' := by
  obtain ⟨r, hint, rfl⟩ := Option.map_eq_some_iff.mp
    (show (kb.keyboardInt sc).map Prod.fst = some kb' from hstep)
  obtain ⟨hret, hroomy⟩ : KeysReturn kb.terms (kb.copiedKeys kb.terms.currTerminal sc) ∧ _ :=
    Roomy.keysReturn h
  have hcopied : HasRoom { kb with
      terms := (kb.terms.presses (kb.copiedKeys kb.terms.currTerminal sc)).1 } := by
    unfold HasRoom
    dsimp only
    rw [currTerminal_presses, presses_of_returns hret]
    exact hroomy
  unfold HasRoom
  rcases terms_keyboardInt hint with hterms | hterms
  · rw [hterms]
    exact hcopied
  · rw [(first_modifiersAndHistory kb _ sc).terms_presses, keyAction_arrow _ hsc] at hterms
    have hpress := hcopied.press 0
    rw [hterms]
    show Roomy ((Terminals.press _ 0).1.vars (Terminals.press _ 0).1.currTerminal)
    rw [currTerminal_press]
    exact hpress

theorem HasRoom.terminalRead {count : ℤ} {tm : Terminals} {bytes : List UInt8} {t : ℤ}
    (h : HasRoom kb) (hread : terminalRead kb.terms t count = some (tm, bytes)) :
    HasRoom { kb with terms := tm } := by
  have hcurr := currTerminal_terminalRead hread
  unfold HasRoom at *
  dsimp only
  rw [hcurr]
  unfold Terminal.terminalRead at hread
  split at hread
  · cases hread
  · cases hread
    exact h

/-- No key moves a cursor above the first row, and no output does. -/
theorem onRows_exec (h : OnRows kb.terms) (he : e.exec kb = some kb') : OnRows kb'.terms := by
  cases e with
  | scanCode sc =>
    obtain ⟨r, hint, rfl⟩ := Option.map_eq_some_iff.mp
      (show (kb.keyboardInt sc).map Prod.fst = some kb' from he)
    have hcopied := h.presses (kb.copiedKeys kb.terms.currTerminal sc)
    rcases terms_keyboardInt hint with hterms | hterms
    · rw [hterms]
      exact hcopied
    · rw [hterms, (first_modifiersAndHistory kb _ sc).terms_presses]
      cases (kb.modifiersAndHistory kb.terms.currTerminal sc).1.keyAction sc with
      | ignore => exact hcopied
      | switchTerminals term => exact hcopied
      | clearTerminal => exact hcopied.run (clearTerminal_keepsRow _) _
      | character c => exact hcopied.press c
  | terminalRead t count =>
    obtain ⟨tm, htm, rfl⟩ := Option.map_eq_some_iff.mp (show kb.call _ = _ from he)
    rw [Terminal.Event.exec] at htm
    split at htm
    · cases htm
      exact h
    · obtain ⟨⟨tm₁, bytes⟩, hread, rfl⟩ := Option.map_eq_some_iff.mp htm
      exact h.terminalRead hread
  | terminalWrite t bytes =>
    obtain ⟨tm, htm, rfl⟩ := Option.map_eq_some_iff.mp (show kb.call _ = _ from he)
    cases htm
    exact h.run (terminalWrite_keepsRow _ bytes) _

theorem onRows_run : ∀ {es : List Event} {kb : Keyboard}, OnRows kb.terms →
    system.run kb es = some kb' → OnRows kb'.terms
  | [], _, h, hrun => by
    cases hrun
    exact h
  | e :: es, kb, h, hrun => by
    obtain ⟨kb₁, hkb₁, hrest⟩ := Option.bind_eq_some_iff.mp hrun
    exact onRows_run (onRows_exec h hkb₁) hrest

/-- Enter starts a line with room. -/
theorem hasRoom_enter (h : OnRows kb.terms) (hstep : system.step kb (.scanCode enter) = some kb') :
    HasRoom kb' := by
  obtain ⟨r, hint, rfl⟩ := Option.map_eq_some_iff.mp
    (show (kb.keyboardInt enter).map Prod.fst = some kb' from hstep)
  have hnone : kb.copiedKeys kb.terms.currTerminal enter = [] := copiedKeys_eq_nil kb _ (by decide)
  have hcopies := copies_enter kb
  unfold keyboardInt at hint
  dsimp only at hint
  rw [if_neg (by rw [presses_returns_iff.mpr hcopies]; decide)] at hint
  obtain ⟨second, hsecond, rfl⟩ := Option.map_eq_some_iff.mp hint
  have hterms := terms_execKey hsecond
  rw [keyAction_enter] at hterms
  have hfirst := (first_modifiersAndHistory kb kb.terms.currTerminal enter).terms_presses
  rw [hnone] at hfirst
  have hkey : second.1.terms = kb.terms.key newLineChar := by
    rw [hterms]
    show (Terminals.press _ newLineChar).1 = _
    rw [store, hfirst]
    show (kb.terms.press newLineChar).1 = _
    rw [press_of_returns (keyReturns_of_quiet (.inl rfl) _)]
  show Roomy (second.1.terms.vars second.1.terms.currTerminal)
  rw [hkey, currTerminal_key]
  exact h.roomy_enter

/-! ## Walking from the last command -/

/-- Up, some times, on a line with room. -/
theorem keeps_ups (hk : ∀ t, Keeps kb.history t (js t)) (hroom : HasRoom kb) {i : ℕ}
    (hi : (js kb.terms.currTerminal).oldest + i ≤ (js kb.terms.currTerminal).pos) :
    ∃ kb', system.run kb (List.replicate i (.scanCode up)) = some kb' ∧
      kb'.history.string kb.terms.currTerminal .currCmd
        = (js kb.terms.currTerminal).drafts ((js kb.terms.currTerminal).pos - i) := by
  induction i generalizing kb js with
  | zero =>
    refine ⟨kb, rfl, ?_⟩
    rw [History.string, (hk _).line.contents_eq]
    rfl
  | succ i ih =>
    obtain ⟨kb₁, hstep, hcurr, hk₁⟩ := keeps_turn hk up (.inl rfl) (hroom.copies up)
    obtain ⟨hcommands, hdrafts, hpos⟩ := Journal.up_of_lt (j := js kb.terms.currTerminal) (by omega)
    have holdest : (js kb.terms.currTerminal).up.oldest = (js kb.terms.currTerminal).oldest :=
      congrArg (fun cs => List.length cs - 8) hcommands
    have hself : update js kb.terms.currTerminal ((js kb.terms.currTerminal).turn up)
        kb₁.terms.currTerminal = (js kb.terms.currTerminal).up := by
      rw [hcurr, update_self]
      exact if_pos rfl
    obtain ⟨kb', hrun, hstring⟩ := ih hk₁ (hroom.arrow (.inl rfl) hstep)
      (by rw [hself, holdest, hpos]; omega)
    refine ⟨kb', ?_, ?_⟩
    · rw [List.replicate_succ, Run.System.run, hstep]
      exact hrun
    · rw [hself, hcurr, hdrafts, hpos] at hstring
      rw [hstring, Nat.sub_sub, Nat.add_comm 1 i]

/-- Enter on a line that is not empty: every edit is dropped, and Up goes back through the
commands. -/
theorem keeps_commit (hk : ∀ t, Keeps kb.history t (js t)) (hrows : OnRows kb.terms)
    (hline : (js kb.terms.currTerminal).line ≠ []) :
    ∃ kb', system.step kb (.scanCode enter) = some kb' ∧
      (∀ slot < 9, ∀ i < 128, kb'.history.row kb.terms.currTerminal (.modifiedHist slot) i
        = kb'.history.row kb.terms.currTerminal (.hist slot) i) ∧
      ∀ i, 1 ≤ i → i ≤ min (kb'.history.numHist kb.terms.currTerminal) 8 →
        ∃ kb'', system.run kb' (List.replicate i (.scanCode up)) = some kb'' ∧
          ((js kb.terms.currTerminal).commands ++ [(js kb.terms.currTerminal).line])[
            kb'.history.numHist kb.terms.currTerminal - i]?
              = some (kb''.history.string kb.terms.currTerminal .currCmd) := by
  obtain ⟨kb', hstep, hcurr, hk'⟩ := keeps_turn hk enter (.inr (.inr rfl)) (copies_enter kb)
  have hturn : (js kb.terms.currTerminal).turn enter = (js kb.terms.currTerminal).enter := rfl
  rw [hturn] at hk'
  have hself := hk' kb.terms.currTerminal
  rw [update_self] at hself
  obtain ⟨hcommands, hdrafts, hpos⟩ := Journal.enter_of_line hline
  have hlen : (js kb.terms.currTerminal).enter.commands.length
      = (js kb.terms.currTerminal).commands.length + 1 := by
    rw [hcommands]
    exact List.length_append
  have hnum := hself.num.trans hlen
  refine ⟨kb', hstep, fun slot hslot i hi => ?_, fun i hi hle => ?_⟩
  · -- both rings hold the commands
    obtain ⟨k, hvisible, rfl⟩ := Window.exists_visible hslot
      (js kb.terms.currTerminal).enter.oldest
    have hdraft := hself.drafts k hvisible
    have hcommand := hself.commands k hvisible
    dsimp only at hcommand hdraft
    rw [hcommands] at hcommand
    rw [hdrafts] at hdraft
    exact hdraft.cells_eq hcommand hi
  · have hentry : update js kb.terms.currTerminal (js kb.terms.currTerminal).enter
        kb'.terms.currTerminal = (js kb.terms.currTerminal).enter := by rw [hcurr, update_self]
    obtain ⟨kb'', hrun, hstring⟩ := keeps_ups hk' (hasRoom_enter hrows hstep) (i := i) (by
      rw [hentry, Journal.oldest, hlen, hpos]
      omega)
    refine ⟨kb'', hrun, ?_⟩
    rw [hentry, hcurr, hdrafts, hpos] at hstring
    have hlt : kb'.history.numHist kb.terms.currTerminal - i
        < ((js kb.terms.currTerminal).commands ++ [(js kb.terms.currTerminal).line]).length := by
      rw [← hcommands, hlen]
      omega
    rw [hstring, List.getElem?_eq_getElem hlt, ← List.getD_eq_getElem _ [] hlt, hnum]

/-- No recall faults. -/
def CopiesReturn (kb : Keyboard) : Event → Prop
  | .scanCode sc => Copies kb sc
  | _ => True

instance (kb : Keyboard) : ∀ e, Decidable (CopiesReturn kb e)
  | .scanCode _ => inferInstanceAs (Decidable (Copies _ _))
  | .terminalRead _ _ | .terminalWrite _ _ => inferInstanceAs (Decidable True)

/-- Up, and down again, if both recalls return. -/
theorem keeps_up_down (hk : ∀ t, Keeps kb.history t (js t))
    (hret : system.Allowed CopiesReturn kb [.scanCode up, .scanCode down])
    (hlt : (js kb.terms.currTerminal).oldest < (js kb.terms.currTerminal).pos) :
    ∃ kb', system.run kb [.scanCode up, .scanCode down] = some kb' ∧
      kb'.history.currHist kb.terms.currTerminal = kb.history.currHist kb.terms.currTerminal ∧
      ∀ i < 128, kb'.history.row kb.terms.currTerminal .currCmd i
        = kb.history.row kb.terms.currTerminal .currCmd i := by
  have hle := (js kb.terms.currTerminal).pos_le
  obtain ⟨hcommands, hdrafts, hpos⟩ := Journal.up_of_lt hlt
  obtain ⟨hcommands', hdrafts', hpos'⟩ :=
    Journal.down_of_lt (j := (js kb.terms.currTerminal).up) (by rw [hcommands, hpos]; omega)
  obtain ⟨kb₁, hstep₁, hcurr₁, hk₁⟩ := keeps_turn hk up (.inl rfl) hret.1
  obtain ⟨kb₂, hstep₂, hcurr₂, hk₂⟩ :=
    keeps_turn hk₁ down (.inr (.inl rfl)) (hret.2 kb₁ hstep₁).1
  -- in the journal Up and Down move the place and leave the drafts alone
  have hself := hk₂ kb.terms.currTerminal
  rw [hcurr₁, update_self, update_self] at hself
  have hturn : ((js kb.terms.currTerminal).turn up).turn down
      = (js kb.terms.currTerminal).up.down := rfl
  rw [hturn] at hself
  have hback : (js kb.terms.currTerminal).up.down.pos = (js kb.terms.currTerminal).pos := by
    rw [hpos', hpos]
    omega
  have hline : (js kb.terms.currTerminal).up.down.line = (js kb.terms.currTerminal).line := by
    rw [Journal.line, hdrafts', hdrafts, hback]
    rfl
  refine ⟨kb₂, ?_, ?_, fun i hi => ?_⟩
  · rw [Run.System.run, hstep₁, Option.bind_some, Run.System.run, hstep₂]
    rfl
  · rw [hself.curr, hback, (hk _).curr]
  · have hpadded := hself.line
    rw [hline] at hpadded
    exact hpadded.cells_eq (hk _).line hi

theorem commands_snoc {kb₀ : Keyboard} (hrun : system.run kb₀ es = some kb) (t : Fin 3) (e : Event) :
    commands t kb₀ (es ++ [e]) = commands t kb₀ es ++ (commandOf t kb e).toList := by
  unfold commands
  rw [Run.System.labels_append _ hrun, List.filterMap_append]
  congr 1
  have hone : system.labels (commandOf t) kb [e] = [commandOf t kb e] := by
    unfold Run.System.labels
    cases system.step kb e <;> rfl
  rw [hone]
  cases commandOf t kb e <;> rfl

/-! ## Typing a letter -/

/-- No modifier is on, and the first terminal is displayed, with its cursor not left of the screen. -/
structure Plain (kb : Keyboard) : Prop where
  shift : kb.shift = false
  ctrl : kb.ctrl = false
  capsLock : kb.capsLock = false
  alt : kb.alt = false
  curr : kb.terms.currTerminal = 0
  ahead : Ahead (kb.terms.vars 0)

/-- The entry of the ring that is edited on the first terminal. -/
def entry (kb : Keyboard) : Row := .modifiedHist (kb.history.currHist 0 % (maxHist + 1))

theorem Plain.keyAction_letter (h : Plain kb) : kb.keyAction 0x1e = .character 0x61 := by
  unfold keyAction
  rw [h.shift, h.ctrl, h.capsLock, h.alt]
  rfl

theorem Plain.press_letter (h : Plain kb) : kb.terms.press 0x61 = (kb.terms.key 0x61, true) := by
  refine press_of_returns ?_
  rw [h.curr]
  exact h.ahead.keyReturns (by decide)

/-- The letter a. -/
theorem keyboardInt_letter (h : Plain kb) {i j : ℕ} (hi : strlen kb.history 0 .currCmd = some i)
    (hj : strlen kb.history 0 kb.entry = some j) :
    kb.keyboardInt 0x1e = some (store { kb with terms := kb.terms.key 0x61 } 0
      (characterStores kb.entry i j 0x61), characterStores kb.entry i j 0x61) := by
  have hfirst : kb.modifiersAndHistory 0 0x1e = (kb, []) := rfl
  have hnone : kb.copiedKeys 0 0x1e = [] := copiedKeys_eq_nil kb 0 (by decide)
  have hcopied : kb.terms.presses [] = (kb.terms, true) := rfl
  have hpress := h.press_letter
  have haction := h.keyAction_letter
  have hstore : kb.store 0 [] = kb := rfl
  have hentry : Row.modifiedHist (kb.history.currHist 0 % (maxHist + 1)) = kb.entry := rfl
  unfold keyboardInt
  dsimp only
  rw [h.curr, hnone, hcopied, hfirst, if_neg (show ¬true = false by decide)]
  dsimp only
  rw [hstore, execKey, haction]
  dsimp only
  rw [hpress, if_neg (show ¬(0x1e = enter ∨ true = false) by decide), hi, hentry, hj]
  rfl

theorem Plain.letter (h : Plain kb) (stores : List Store) :
    Plain (store { kb with terms := kb.terms.key 0x61 } 0 stores) := by
  refine ⟨h.shift, h.ctrl, h.capsLock, h.alt, (currTerminal_key _ _).trans h.curr, ?_⟩
  show Ahead ((kb.terms.key 0x61).vars 0)
  have hcurr : ((kb.terms.currTerminal : ℕ) : ℤ) = 0 := by rw [h.curr]; rfl
  rw [Terminals.key, hcurr, vars_run_self]
  exact h.ahead.putChar (by decide) 0

theorem Plain.struck_letter (h : Plain kb) : kb.struck 0x1e = 0x61 := by
  unfold struck appended
  rw [show kb.modifiersAndHistory kb.terms.currTerminal 0x1e = (kb, []) from rfl,
    h.keyAction_letter]
  dsimp only
  rw [h.press_letter]
  rfl

/-- The letter a, some times, while the line has room. -/
theorem keeps_letters {n : ℕ} (h : Plain kb) (hk : ∀ t, Keeps kb.history t (js t))
    (hn : (js 0).line.length + n ≤ 127) : ∃ (kb' : Keyboard) (js' : Fin 3 → Journal),
    system.run kb (List.replicate n (.scanCode 0x1e)) = some kb' ∧
      system.Allowed Fits kb (List.replicate n (.scanCode 0x1e)) ∧ Plain kb' ∧
      (∀ t, Keeps kb'.history t (js' t)) ∧ (js' 0).line = (js 0).line ++ List.replicate n 0x61 ∧
      (js' 0).commands = (js 0).commands ∧ ∀ t, t ≠ 0 → js' t = js t := by
  induction n generalizing kb js with
  | zero => exact ⟨kb, js, rfl, trivial, h, hk, (List.append_nil _).symm, rfl, fun _ _ => rfl⟩
  | succ n ih =>
    have hline := (hk 0).line
    have hentry : Padded 128 (kb.history.row 0 kb.entry) (js 0).line := by
      rw [entry, (hk 0).curr]
      exact (hk 0).drafts _ (js 0).visible_pos
    have hint := keyboardInt_letter h (strlen_eq currCmd_ok hline) (strlen_eq (mod_ring_lt _) hentry)
    have hfits : Fits kb (.scanCode 0x1e) := by
      intro _
      rw [h.curr, hline.contents_eq]
      omega
    have hstep := congrArg (Option.map Prod.fst) hint
    have hk₁ := (keeps_exec hk hfits hstep).1
    have hcopies : Copies kb 0x1e := copies_of_ne_arrow kb (by decide)
    have hj : Journal.next kb js (.scanCode 0x1e) 0 = (js 0).type 0x61 := by
      rw [Journal.next_scanCode js hcopies, h.curr, update_self, h.struck_letter]
      rfl
    have hj' : (Journal.next kb js (.scanCode 0x1e) 0).line = (js 0).line ++ [0x61] := by
      rw [hj]
      exact Journal.line_type ..
    obtain ⟨kb', js', hrun, hok, hplain, hk', hline', hcommands, hothers⟩ := ih (h.letter _) hk₁ (by
      rw [hj', List.length_append, List.length_singleton]
      omega)
    rw [hj] at hcommands
    refine ⟨kb', js', ?_, ⟨hfits, fun kb₁ hkb₁ => ?_⟩, hplain, hk', ?_, hcommands, fun t ht => ?_⟩
    · exact (congrArg (Option.bind · _) hstep).trans hrun
    · cases Option.some.inj (hstep.symm.trans hkb₁)
      exact hok
    · rw [hline', hj', List.append_assoc]
      rfl
    · rw [hothers t ht, Journal.next_scanCode js hcopies]
      exact update_of_ne (h.curr ▸ ht) _ _

theorem start_plain : Plain start := ⟨rfl, rfl, rfl, rfl, rfl, ⟨le_rfl, le_rfl⟩⟩

/-! ## All keys -/

/-- The history of a terminal, in every run in which no command reaches 128 characters. Down takes back
what Up did if no backspace of their recalls goes before the first cell. -/
theorem history_ring (hok : system.Allowed Fits start es) (hrun : system.run start es = some kb)
    (t : Fin 3) :
    RingHolds kb.history t (commands t start es) ∧
    (kb.terms.currTerminal = t → kb.history.row t .currCmd 0 ≠ 0 →
      ∃ kb', system.step kb (.scanCode enter) = some kb' ∧
        (∀ slot < 9, ∀ i < 128,
          kb'.history.row t (.modifiedHist slot) i = kb'.history.row t (.hist slot) i) ∧
        ∀ i, 1 ≤ i → i ≤ min (kb'.history.numHist t) 8 →
          ∃ kb'', system.run kb' (List.replicate i (.scanCode up)) = some kb'' ∧
            (commands t start (es ++ [.scanCode enter]))[kb'.history.numHist t - i]?
              = some (kb''.history.string t .currCmd)) ∧
    (kb.terms.currTerminal = t → kb.history.minHist t < kb.history.currHist t →
      system.Allowed CopiesReturn kb [.scanCode up, .scanCode down] →
      ∃ kb', system.run kb [.scanCode up, .scanCode down] = some kb' ∧
        kb'.history.currHist t = kb.history.currHist t ∧
        ∀ i < 128, kb'.history.row t .currCmd i = kb.history.row t .currCmd i) := by
  obtain ⟨js, hk, hcommands⟩ := keeps_run start_keeps hok hrun
  have hcommands' : ∀ t, (js t).commands = commands t start es := hcommands
  refine ⟨hcommands' t ▸ (hk t).ringHolds, ?_, ?_⟩
  · rintro rfl hline
    have hcommit : commandOf kb.terms.currTerminal kb (.scanCode enter)
        = some (js kb.terms.currTerminal).line := by
      rw [commandOf, if_pos ⟨rfl, rfl, hline⟩, History.string, (hk _).line.contents_eq]
    rw [commands_snoc hrun, hcommit, ← hcommands']
    exact keeps_commit hk (onRows_run terminalOpen_onRows hrun) ((hk _).row_ne_zero_iff.mp hline)
  · rintro rfl hlt hret
    rw [(hk _).min, (hk _).curr] at hlt
    exact keeps_up_down hk hret hlt

/-- A letter and Enter, and the letter is recalled. -/
theorem history_ring_letter : ∃ kb kb' kb'', system.run start [.scanCode 0x1e] = some kb ∧
    system.step kb (.scanCode enter) = some kb' ∧ system.run kb' [.scanCode up] = some kb'' ∧
    kb''.history.string 0 .currCmd = [0x61] := by
  obtain ⟨kb, js, hrun, hok, hplain, hk, hline, hempty, -⟩ :=
    keeps_letters (n := 1) start_plain start_keeps (by decide)
  have hne : kb.history.row 0 .currCmd 0 ≠ 0 := (hk 0).row_ne_zero_iff.mpr (by rw [hline]; decide)
  obtain ⟨hring, hcommit, -⟩ := history_ring hok hrun 0
  obtain ⟨kb', hstep, -, hups⟩ := hcommit hplain.curr hne
  have hcommands : commands 0 start [.scanCode 0x1e] = [] := by
    refine List.length_eq_zero_iff.mp (hring.num.symm.trans ?_)
    rw [(hk 0).num, hempty]
    rfl
  have hcommand : commandOf 0 kb (.scanCode enter) = some [0x61] := by
    rw [commandOf, if_pos ⟨hplain.curr, rfl, hne⟩, History.string, (hk 0).line.contents_eq, hline]
    rfl
  have hnum : kb'.history.numHist 0 = 1 := by
    have hfits : Fits kb (.scanCode enter) := fun hstruck =>
      absurd (appended_eq_zero _ (.inr (.inr rfl))) hstruck
    obtain ⟨hk', hcommands'⟩ := keeps_exec hk hfits hstep
    rw [(hk' 0).num, hcommands', hcommand, hempty]
    rfl
  obtain ⟨kb'', hrun', hstring⟩ := hups 1 le_rfl (by rw [hnum]; decide)
  refine ⟨kb, kb', kb'', hrun, hstep, hrun', ?_⟩
  have hsnoc : commands 0 start (List.replicate 1 (.scanCode 0x1e) ++ [.scanCode enter])
      = commands 0 start [.scanCode 0x1e] ++ (commandOf 0 kb (.scanCode enter)).toList :=
    commands_snoc hrun 0 _
  rw [hsnoc, hcommands, hcommand, hnum] at hstring
  exact (Option.some.inj hstring).symm

/-- Nine tabs, four letters and a tab, which wraps and ends four cells short, Enter and Ctrl-L. -/
def shortOfCells : List Event :=
  List.replicate 9 (.scanCode 0x0f) ++ List.replicate 4 (.scanCode 0x1e) ++
    [.scanCode 0x0f, .scanCode enter, .scanCode lctrl, .scanCode 0x26, .scanCode (lctrl + release)]

/-- Up types the command again, on the first row. Down has 84 characters to erase and 80 cells to go
back, so it faults before it has restored anything. -/
theorem history_ring_fault :
    ∃ kb kb', system.Allowed Fits start shortOfCells ∧ system.run start shortOfCells = some kb ∧
      kb.terms.currTerminal = 0 ∧ kb.history.minHist 0 < kb.history.currHist 0 ∧
      system.run kb [.scanCode up, .scanCode down] = some kb' ∧
      kb.history.currHist 0 = 1 ∧ kb'.history.currHist 0 = 0 ∧
      kb.history.string 0 .currCmd = [] ∧ kb'.history.string 0 .currCmd ≠ [] := by
  have hok : system.Allowed Fits start shortOfCells := by
    rw [start_eq]
    decide +kernel
  have hall : ((system.run start shortOfCells).bind fun kb =>
      (system.run kb [.scanCode up, .scanCode down]).map fun kb' =>
        ((kb.terms.currTerminal, kb.history.minHist 0, kb.history.currHist 0),
          kb'.history.currHist 0, kb.history.string 0 .currCmd,
          (kb'.history.string 0 .currCmd).isEmpty))
      = some ((0, 0, 1), 0, [], false) := by
    rw [start_eq]
    decide +kernel
  obtain ⟨kb, hrun, hall⟩ := Option.bind_eq_some_iff.mp hall
  obtain ⟨kb', hrun', hvalues⟩ := Option.map_eq_some_iff.mp hall
  simp only [Prod.mk.injEq] at hvalues
  obtain ⟨⟨hcurr, hmin, hpos⟩, hpos', hstring, hstring'⟩ := hvalues
  refine ⟨kb, kb', hok, hrun, hcurr, by omega, hrun', hpos, hpos', hstring, fun hempty => ?_⟩
  rw [hempty] at hstring'
  cases hstring'

end Keyboard
end GalapagOS
