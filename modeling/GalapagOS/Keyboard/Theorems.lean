import GalapagOS.Keyboard.Journal

/-!
# `keyboard_int` on the history

What one scan code does: the first part of the handler recalls an entry, commits the line or changes
the modifiers, the second part types a character, clears the screen or switches terminals. On the
journals a key is a step up, down, an Enter or a character, on the displayed terminal only. A key that
faults in the driver leaves the journals alone.
-/

namespace GalapagOS
namespace Keyboard

open Function Strings Terminal

variable {kb kb' : Keyboard} {t : Fin 3} {sc c : UInt8} {stores : List Store}

/-! ## The key tables -/

/-- Enter is the newline of every table, and the only one. -/
theorem kbdus_newLine (m : Fin 4) (hsc : sc ≤ scanLimit) :
    kbdus m sc = newLineChar ↔ sc = enter := by
  have hall : ∀ (m : Fin 4) (i : Fin 81),
      kbdus m (UInt8.ofNat i.val) = newLineChar ↔ UInt8.ofNat i.val = enter := by
    decide +kernel
  have hlt : sc.toNat < 81 := by
    have := UInt8.le_iff_toNat_le.mp hsc
    rw [show scanLimit.toNat = 80 from rfl] at this
    omega
  have hsame := hall m ⟨sc.toNat, hlt⟩
  rwa [UInt8.ofNat_toNat] at hsame

/-! ## The first part -/

/-- What the first part of the handler can do. -/
inductive First (kb : Keyboard) (t : Fin 3) (sc : UInt8) : Keyboard × List Store → Prop
  | older : sc = up → kb.history.minHist t < kb.history.currHist t →
      First kb t sc (kb.recallEntry t (kb.history.currHist t - 1))
  | newer : sc = down → kb.history.currHist t < kb.history.numHist t →
      First kb t sc (kb.recallEntry t (kb.history.currHist t + 1))
  | commit : sc = enter → kb.history.row t .currCmd 0 ≠ 0 → First kb t sc (kb.commit t)
  | flags {kb' : Keyboard} : kb'.history = kb.history → kb'.terms = kb.terms →
      (sc = up → ¬kb.history.minHist t < kb.history.currHist t) →
      (sc = down → ¬kb.history.currHist t < kb.history.numHist t) →
      (sc = enter → kb.history.row t .currCmd 0 = 0) → First kb t sc (kb', [])

theorem first_modifiersAndHistory (kb : Keyboard) (t : Fin 3) (sc : UInt8) :
    First kb t sc (kb.modifiersAndHistory t sc) := by
  -- a modifier key is none of the others
  have hmod : ∀ kb' : Keyboard, kb'.history = kb.history → kb'.terms = kb.terms →
      sc ≠ up ∧ sc ≠ down ∧ sc ≠ enter → First kb t sc (kb', []) := fun kb' hh ht hne =>
    .flags hh ht (fun he => absurd he hne.1) (fun he => absurd he hne.2.1)
      fun he => absurd he hne.2.2
  show First kb t sc (if sc = lshift ∨ sc = rshift then _ else _)
  -- the chain of conditions, one after the other
  refine iteInduction (motive := First kb t sc) (fun hsc => ?_) fun _ => ?_
  · exact hmod _ rfl rfl (by rcases hsc with rfl | rfl <;> decide)
  refine iteInduction (motive := First kb t sc) (fun hsc => ?_) fun _ => ?_
  · exact hmod _ rfl rfl (by rcases hsc with rfl | rfl <;> decide)
  refine iteInduction (motive := First kb t sc) (fun hsc => ?_) fun _ => ?_
  · exact hmod _ rfl rfl (by rw [hsc]; decide)
  refine iteInduction (motive := First kb t sc) (fun hsc => ?_) fun _ => ?_
  · exact hmod _ rfl rfl (by rw [hsc]; decide)
  refine iteInduction (motive := First kb t sc) (fun hsc => ?_) fun _ => ?_
  · exact hmod _ rfl rfl (by rw [hsc.1]; decide)
  refine iteInduction (motive := First kb t sc) (fun hsc => ?_) fun _ => ?_
  · exact hmod _ rfl rfl (by rw [hsc.1]; decide)
  refine iteInduction (motive := First kb t sc) (fun hsc => ?_) fun _ => ?_
  · exact hmod _ rfl rfl (by rw [hsc]; decide)
  refine iteInduction (motive := First kb t sc) (fun hsc => ?_) fun _ => ?_
  · exact hmod _ rfl rfl (by rw [hsc]; decide)
  refine iteInduction (motive := First kb t sc) (fun hsc => ?_) fun hup => ?_
  · exact .older hsc.1 hsc.2
  refine iteInduction (motive := First kb t sc) (fun hsc => ?_) fun hdown => ?_
  · exact .newer hsc.1 hsc.2
  refine iteInduction (motive := First kb t sc) (fun hsc => ?_) fun henter => ?_
  · exact .commit hsc.1 hsc.2
  · exact .flags rfl rfl (fun he hlt => hup ⟨he, hlt⟩) (fun he hlt => hdown ⟨he, hlt⟩)
      fun he => by_contra fun hne => henter ⟨he, hne⟩

section FirstPart

variable {r : Keyboard × List Store} {j : Journal}

theorem First.inside (hf : First kb t sc r) : ∀ s ∈ r.2, s.Inside := by
  cases hf with
  | older => exact recallStores_inside _
  | newer => exact recallStores_inside _
  | commit => exact commitStores_inside _
  | flags => exact fun s hs => absurd hs List.not_mem_nil

theorem history_recall (kb : Keyboard) (t : Fin 3) (k : ℕ) :
    ((kb.recallEntry t k).1.store t (kb.recallEntry t k).2).history = History.apply { kb.history with
      currHist := update kb.history.currHist t k } t (recallStores (k % (maxHist + 1))) := by
  rw [recallEntry, store]

theorem history_commit (kb : Keyboard) (t : Fin 3) :
    ((kb.commit t).1.store t (kb.commit t).2).history
      = (kb.history.counted t).apply t (commitStores (kb.history.numHist t)) := by
  rw [commit, store]

/-- A key that finds no entry and no line to enter. -/
theorem turn_eq_self (hk : Keeps kb.history t j)
    (hup : sc = up → ¬kb.history.minHist t < kb.history.currHist t)
    (hdown : sc = down → ¬kb.history.currHist t < kb.history.numHist t)
    (henter : sc = enter → kb.history.row t .currCmd 0 = 0) : j.turn sc = j := by
  have hnum := hk.num
  have hcurr := hk.curr
  have hmin := hk.min
  unfold Journal.turn
  split
  · rename_i hsc
    have hlt := hup hsc
    exact dif_neg (by omega)
  split
  · rename_i hsc
    have hlt := hdown hsc
    exact dif_neg (by omega)
  split
  · rename_i hsc
    -- a line without characters
    refine if_pos (by_contra fun hne => ?_)
    exact hk.line.lt_length (List.length_pos_of_ne_nil hne) (henter hsc)
  · rfl

/-- The first part walks through the journal of the terminal, or enters its line. -/
theorem First.keeps (hf : First kb t sc r) (hk : Keeps kb.history t j) :
    Keeps (r.1.store t r.2).history t (j.turn sc) := by
  have hnum := hk.num
  have hcurr := hk.curr
  have hmin := hk.min
  cases hf with
  | older hsc hlt =>
    obtain ⟨hcommands, hdrafts, hpos⟩ := Journal.up_of_lt (j := j) (by omega)
    rw [Journal.turn, if_pos hsc, hcurr, ← hpos, history_recall]
    exact hk.recalled hcommands hdrafts
  | newer hsc hlt =>
    obtain ⟨hcommands, hdrafts, hpos⟩ := Journal.down_of_lt (j := j) (by omega)
    rw [Journal.turn, if_neg (by rw [hsc]; decide), if_pos hsc, hcurr, ← hpos, history_recall]
    exact hk.recalled hcommands hdrafts
  | commit hsc hline =>
    rw [Journal.turn, if_neg (by rw [hsc]; decide), if_neg (by rw [hsc]; decide), if_pos hsc,
      history_commit]
    refine hk.enter fun hempty => hline ?_
    rw [hk.line.cells 0 (by decide), hempty]
    rfl
  | @flags kb' hh _ hup hdown henter =>
    show Keeps kb'.history t (j.turn sc)
    rw [turn_eq_self hk hup hdown henter, hh]
    exact hk

/-- It leaves the counters of the other terminals alone. -/
theorem First.counters (hf : First kb t sc r) {t' : Fin 3} (ht : t' ≠ t) :
    r.1.history.numHist t' = kb.history.numHist t' ∧
      r.1.history.currHist t' = kb.history.currHist t' ∧
      r.1.history.minHist t' = kb.history.minHist t' ∧ r.1.history.bytes = kb.history.bytes := by
  cases hf with
  | older | newer => exact ⟨rfl, update_of_ne ht _ _, rfl, rfl⟩
  | commit =>
    refine ⟨update_of_ne ht _ _, update_of_ne ht _ _, ?_, rfl⟩
    show (if _ then update kb.history.minHist t _ else kb.history.minHist) t' = _
    split
    · exact update_of_ne ht _ _
    · rfl
  | flags hh =>
    rw [hh]
    exact ⟨rfl, rfl, rfl, rfl⟩

end FirstPart

/-! ## The second part -/

theorem keyAction_character (h : kb.keyAction sc = .character c) :
    sc ≤ scanLimit ∧ ∃ m, c = kbdus m sc := by
  unfold keyAction at h
  split at h
  · rename_i hsc
    refine ⟨hsc, ?_⟩
    split at h
    · cases h
    split at h
    · cases h
      exact ⟨1, rfl⟩
    split at h
    · cases h
      exact ⟨2, rfl⟩
    split at h
    · cases h
      exact ⟨3, rfl⟩
    split at h
    · cases h
    · cases h
      exact ⟨0, rfl⟩
  · cases h

/-- A key with the same character in every table types it, whatever the modifiers are. -/
theorem keyAction_of_kbdus (kb : Keyboard) (hsc : sc ≤ scanLimit)
    (hf : ¬(sc = f1 ∨ sc = f2 ∨ sc = f3)) (hc : ∀ m, kbdus m sc = c) (hl : c ≠ 0x6c) :
    kb.keyAction sc = .character c := by
  have hclear : ¬(kb.ctrl = true ∧ c = 0x6c) := fun h => hl h.2
  unfold keyAction
  rw [if_pos hsc, if_neg fun h => hf h.2]
  simp only [hc, if_neg hclear, ite_self]

theorem keyAction_enter (kb : Keyboard) : kb.keyAction enter = .character newLineChar :=
  kb.keyAction_of_kbdus (by decide) (by decide) (by decide) (by decide)

theorem keyAction_arrow (kb : Keyboard) (hsc : sc = up ∨ sc = down) :
    kb.keyAction sc = .character 0 := by
  rcases hsc with rfl | rfl
  · exact kb.keyAction_of_kbdus (by decide) (by decide) (by decide) (by decide)
  · exact kb.keyAction_of_kbdus (by decide) (by decide) (by decide) (by decide)

theorem not_arrow_of_keyAction (h : kb.keyAction sc ≠ .character 0) : ¬(sc = up ∨ sc = down) :=
  fun harrow => h (keyAction_arrow kb harrow)

/-- The character that the second part appends, 0 if it appends none. -/
def appended (kb : Keyboard) (sc : UInt8) : UInt8 :=
  match kb.keyAction sc with
  | .character c => if sc = enter ∨ (kb.terms.press c).2 = false then 0 else c
  | _ => 0

/-- The keys that walk through the history and Enter append nothing. -/
theorem appended_eq_zero (kb : Keyboard) (hsc : sc = up ∨ sc = down ∨ sc = enter) :
    kb.appended sc = 0 := by
  rcases or_assoc.mpr hsc with harrow | rfl
  · rw [appended, keyAction_arrow kb harrow]
    exact ite_self 0
  · rw [appended, keyAction_enter]
    rfl

/-- The driver after the second part. -/
def KeyAction.onTerminals (tm : Terminals) : KeyAction → Terminals
  | .ignore => tm
  | .switchTerminals term => { tm with currTerminal := term }
  | .clearTerminal => (tm.run tm.currTerminal (Terminal.clearTerminal tm.currTerminal)).1
  | .character c => (tm.press c).1

/-- The second part ends, and appends its character to the journal. -/
theorem execKey_spec {j : Journal} (hk : Keeps kb.history t j)
    (hfit : kb.appended sc ≠ 0 → j.line.length < 127) :
    ∃ kb' stores, kb.execKey t sc = some (kb', stores) ∧ (∀ s ∈ stores, s.Inside) ∧
      Keeps (kb'.store t stores).history t
        (if kb.appended sc = 0 then j else j.type (kb.appended sc)) ∧
      kb'.history = kb.history ∧ kb'.terms = (kb.keyAction sc).onTerminals kb.terms := by
  have hnone : ∀ s ∈ ([] : List Store), s.Inside := fun s hs => absurd hs List.not_mem_nil
  unfold execKey
  cases haction : kb.keyAction sc with
  | character c =>
    have happ : kb.appended sc = if sc = enter ∨ (kb.terms.press c).2 = false then 0 else c := by
      rw [appended, haction]
    rw [happ] at hfit ⊢
    dsimp only
    by_cases hsc : sc = enter ∨ (kb.terms.press c).2 = false
    · simp only [if_pos hsc]
      exact ⟨_, _, rfl, hnone, hk, rfl, rfl⟩
    · simp only [if_neg hsc] at hfit ⊢
      have hslot : (Row.modifiedHist (j.pos % (maxHist + 1))).Ok := mod_ring_lt _
      have hentry : Padded 128 (kb.history.row t (.modifiedHist (j.pos % (maxHist + 1)))) j.line :=
        hk.drafts _ j.visible_pos
      rw [hk.curr, strlen_eq currCmd_ok hk.line, strlen_eq hslot hentry]
      exact ⟨_, _, rfl, characterStores_inside hslot hk.line.length hk.line.length c,
        hk.character hfit, rfl, rfl⟩
  | _ =>
    have happ : kb.appended sc = 0 := by rw [appended, haction]
    rw [if_pos happ]
    exact ⟨_, _, rfl, hnone, hk, rfl, rfl⟩

/-- Whenever the second part ends, the driver is where its action takes it. -/
theorem terms_execKey {r : Keyboard × List Store} (h : kb.execKey t sc = some r) :
    r.1.terms = (kb.keyAction sc).onTerminals kb.terms := by
  unfold execKey at h
  cases haction : kb.keyAction sc with
  | character c =>
    rw [haction] at h
    dsimp only at h
    split at h
    · cases h
      rfl
    · obtain ⟨i, -, hi⟩ := Option.bind_eq_some_iff.mp h
      obtain ⟨j, -, rfl⟩ := Option.map_eq_some_iff.mp hi
      rfl
  | ignore | clearTerminal | switchTerminals term =>
    rw [haction] at h
    cases h
    rfl

/-! ## The handler -/

/-- The character that a scan code appends to the line of the displayed terminal. -/
def struck (kb : Keyboard) (sc : UInt8) : UInt8 :=
  (kb.modifiersAndHistory kb.terms.currTerminal sc).1.appended sc

/-- A character is appended only while its string has room for it and a NUL. -/
def Fits (kb : Keyboard) : Event → Prop
  | .scanCode sc => kb.struck sc ≠ 0 →
    (contents 128 (kb.history.row kb.terms.currTerminal .currCmd)).length < 127
  | _ => True

instance (kb : Keyboard) : ∀ e, Decidable (Fits kb e)
  | .scanCode _ => inferInstanceAs (Decidable (_ → _))
  | .terminalRead _ _ | .terminalWrite _ _ => inferInstanceAs (Decidable True)

/-- The second part, after the first one. -/
theorem First.second {r : Keyboard × List Store} {js : Fin 3 → Journal} (hf : First kb t sc r)
    (hk : ∀ t, Keeps kb.history t (js t))
    (hfit : r.1.appended sc ≠ 0 → (js t).line.length < 127) :
    ∃ kb' stores, (r.1.store t r.2).execKey t sc = some (kb', stores) ∧
      (∀ s ∈ r.2 ++ stores, s.Inside) ∧
      Keeps (kb'.store t stores).history t ((js t).press sc (r.1.appended sc)) ∧
      (∀ t', t' ≠ t → Keeps (kb'.store t stores).history t' (js t') ∧
        ∀ w : Row, w.Ok → ∀ i < 128,
          (kb'.store t stores).history.row t' w i = kb.history.row t' w i) ∧
      kb'.terms = (r.1.keyAction sc).onTerminals r.1.terms := by
  -- a key with a character does not walk through the journal
  have hroom : (r.1.store t r.2).appended sc ≠ 0 → ((js t).turn sc).line.length < 127 := by
    intro hc
    have hsc : ¬(sc = up ∨ sc = down ∨ sc = enter) := fun hsc => hc (appended_eq_zero _ hsc)
    rw [not_or, not_or] at hsc
    rw [Journal.turn, if_neg hsc.1, if_neg hsc.2.1, if_neg hsc.2.2]
    exact hfit hc
  obtain ⟨kb', stores, hexec, hinside, hkeeps, hhistory, hterms⟩ :=
    execKey_spec (hf.keeps (hk t)) hroom
  have hall : ∀ s ∈ r.2 ++ stores, s.Inside := by
    intro s hs
    rcases List.mem_append.mp hs with hs | hs
    · exact hf.inside s hs
    · exact hinside s hs
  have happly : (kb'.store t stores).history = r.1.history.apply t (r.2 ++ stores) := by
    rw [apply_append, store, hhistory]
    rfl
  refine ⟨kb', stores, hexec, hall, hkeeps, fun t' ht => ?_, hterms⟩
  obtain ⟨hnum, hcurr, hmin, hbytes⟩ := hf.counters ht
  have hrow : ∀ w : Row, w.Ok → ∀ i < 128,
      (kb'.store t stores).history.row t' w i = kb.history.row t' w i := by
    intro w hw i hi
    rw [happly, row_apply_other hall ht hw hi, History.row, hbytes]
    rfl
  refine ⟨(hk t').congr ?_ ?_ ?_ hrow, hrow⟩ <;> rw [happly]
  · rw [numHist_apply, hnum]
  · rw [currHist_apply, hcurr]
  · rw [minHist_apply, hmin]

/-- `hist_copy_from` returns, if the scan code recalls an entry. -/
def Copies (kb : Keyboard) (sc : UInt8) : Prop :=
  KeysReturn kb.terms (kb.copiedKeys kb.terms.currTerminal sc)

instance (kb : Keyboard) (sc : UInt8) : Decidable (Copies kb sc) :=
  inferInstanceAs (Decidable (KeysReturn _ _))

/-- Only the arrows recall an entry. -/
theorem copiedKeys_eq_nil (kb : Keyboard) (t : Fin 3) (hsc : ¬(sc = up ∨ sc = down)) :
    kb.copiedKeys t sc = [] := by
  unfold copiedKeys
  rw [if_neg fun h => hsc (.inl h.1), if_neg fun h => hsc (.inr h.1)]

theorem copies_of_ne_arrow (kb : Keyboard) (hsc : ¬(sc = up ∨ sc = down)) : Copies kb sc := by
  unfold Copies
  rw [copiedKeys_eq_nil kb _ hsc]
  trivial

/-- One scan code: the handler ends, all its stores are inside their strings, and the journals
follow. -/
theorem keyboardInt_spec {js : Fin 3 → Journal} (hk : ∀ t, Keeps kb.history t (js t))
    (hcopies : Copies kb sc) (hfit : Fits kb (.scanCode sc)) :
    ∃ kb' stores, kb.keyboardInt sc = some (kb', stores) ∧ (∀ s ∈ stores, s.Inside) ∧
      Keeps kb'.history kb.terms.currTerminal
        ((js kb.terms.currTerminal).press sc (kb.struck sc)) ∧
      (∀ t, t ≠ kb.terms.currTerminal → Keeps kb'.history t (js t) ∧
        ∀ r : Row, r.Ok → ∀ i < 128, kb'.history.row t r i = kb.history.row t r i) ∧
      kb'.terms = ((kb.modifiersAndHistory kb.terms.currTerminal sc).1.keyAction sc).onTerminals
        (kb.modifiersAndHistory kb.terms.currTerminal sc).1.terms := by
  have hroom : kb.struck sc ≠ 0 → (js kb.terms.currTerminal).line.length < 127 := by
    intro hc
    have hlen := hfit hc
    rwa [(hk _).line.contents_eq] at hlen
  obtain ⟨kb', stores, hexec, hrest⟩ :=
    (first_modifiersAndHistory kb kb.terms.currTerminal sc).second hk hroom
  refine ⟨kb'.store kb.terms.currTerminal stores, _, ?_, hrest⟩
  rw [keyboardInt]
  dsimp only
  rw [if_neg (by rw [presses_returns_iff.mpr hcopies]; decide), hexec]
  rfl

/-- The driver after a scan code. -/
theorem terms_keyboardInt {r : Keyboard × List Store} (h : kb.keyboardInt sc = some r) :
    r.1.terms = (kb.terms.presses (kb.copiedKeys kb.terms.currTerminal sc)).1 ∨
      r.1.terms = ((kb.modifiersAndHistory kb.terms.currTerminal sc).1.keyAction sc).onTerminals
        (kb.modifiersAndHistory kb.terms.currTerminal sc).1.terms := by
  unfold keyboardInt at h
  dsimp only at h
  split at h
  · cases h
    exact .inl rfl
  · obtain ⟨second, hsecond, rfl⟩ := Option.map_eq_some_iff.mp h
    have hterms := terms_execKey hsecond
    exact .inr hterms

/-- A page fault in `hist_copy_from`: only the driver has changed. -/
theorem keyboardInt_of_not_copies (h : ¬Copies kb sc) :
    kb.keyboardInt sc = some ({ kb with
      terms := (kb.terms.presses (kb.copiedKeys kb.terms.currTerminal sc)).1 }, []) := by
  rw [keyboardInt]
  exact if_pos (Bool.eq_false_of_not_eq_true fun hreturns => h (presses_returns_iff.mp hreturns))

end Keyboard
end GalapagOS
