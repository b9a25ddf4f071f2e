import GalapagOS.Terminal.Driver

/-!
# Lines on which no key faults

A backspace takes one character off the line and goes back one cell, so it comes before the first cell
only if the cursor has passed fewer cells than the line has characters. A tab that wraps does that: its
eight characters end at the next row. A line that starts in the first column can wrap once before it is
full, so below the first row there is always room, whatever is typed. Enter starts such a line.
-/

namespace GalapagOS
namespace Terminal

open Function

variable {tm tm' : Terminals} {t : ℤ} {c : UInt8} {v : Vars} {f g : Action}

/-- From variables that meet `P`, the function leads to `Q`. -/
def Leads (P : Vars → Prop) (f : Action) (Q : Vars → Prop) : Prop := ∀ v, P v → Q (f v).1

section Rules

variable {P Q R : Vars → Prop}

theorem Leads.seq (hf : Leads P f Q) (hg : Leads Q g R) : Leads P (f.seq g) R :=
  fun v hv => hg _ (hf v hv)

theorem Leads.when {cond : Vars → Prop} [DecidablePred cond]
    (hf : ∀ v, P v → cond v → Q (f v).1) (hskip : ∀ v, P v → ¬cond v → Q v) :
    Leads P (Action.when cond f) Q := by
  intro v hv
  unfold Action.when
  split
  · exact hf v hv ‹_›
  · exact hskip v hv ‹_›

end Rules

/-! ## Room for every key -/

/-- The cursor has passed a cell for each of at most `n` characters, below the first row. -/
def Unwrapped (n : ℤ) (v : Vars) : Prop :=
  v.currX = v.linelength ∧ 0 ≤ v.linelength ∧ v.linelength ≤ n ∧ 1 ≤ v.currY

/-- The cursor has wrapped, and has passed up to eight cells less than there are characters. -/
def WrappedOnce (v : Vars) : Prop :=
  v.currX + 80 ≤ v.linelength ∧ v.linelength ≤ v.currX + 88 ∧ 0 ≤ v.linelength ∧
    v.linelength ≤ 135 ∧ 2 ≤ v.currY

/-- The line starts in the first column, below the first row, and it has wrapped once at most. -/
def Roomy (v : Vars) : Prop := Unwrapped 80 v ∨ WrappedOnce v

theorem Roomy.keyReturns (h : Roomy v) (c : UInt8) : KeyReturns c v := by
  unfold Roomy Unwrapped WrappedOnce at h
  refine keyReturns_of_index (by omega) ?_ fun _ _ => ?_ <;>
    unfold index width <;> omega

/-- A tab may pass the last column, all other keys find less than a full line. -/
theorem typeTab_leads (c : UInt8) :
    Leads (fun v => Roomy v ∧ v.linelength < bufferLimit) (Action.when (fun _ => c = tab) typeTab)
      fun v => (Unwrapped 88 v ∨ WrappedOnce v) ∧ (c ≠ tab → v.linelength < 128) := by
  refine Leads.when (fun v hv hc => ⟨?_, fun hne => absurd hc hne⟩) fun v hv hc => ?_
  · obtain ⟨hroomy, hlt⟩ := hv
    unfold Roomy Unwrapped WrappedOnce bufferLimit at *
    unfold typeTab
    dsimp only
    omega
  · obtain ⟨hroomy, hlt⟩ := hv
    refine ⟨?_, fun _ => hlt⟩
    unfold Roomy Unwrapped WrappedOnce at *
    omega

theorem wrapLine_leads (c : UInt8) :
    Leads (fun v => (Unwrapped 88 v ∨ WrappedOnce v) ∧ (c ≠ tab → v.linelength < 128))
      (Action.when (fun v => width ≤ v.currX) wrapLine)
      fun v => (Unwrapped 79 v ∨ WrappedOnce v) ∧ (c ≠ tab → v.linelength < 128) := by
  refine Leads.when (fun v hv hx => ⟨?_, hv.2⟩) fun v hv hx => ⟨?_, hv.2⟩
  · have hline := hv.1
    unfold Unwrapped WrappedOnce width at *
    unfold wrapLine
    dsimp only
    omega
  · have hline := hv.1
    unfold Unwrapped WrappedOnce width at *
    omega

theorem typeChar_leads (t : ℤ) (c : UInt8) (data : ℤ) :
    Leads (fun v => Roomy v ∧ v.linelength < bufferLimit) (typeChar t c data) Roomy := by
  refine (typeTab_leads c).seq ((wrapLine_leads c).seq (Leads.when (fun v hv hp => ?_) fun v hv _ => ?_))
  · have hlt := hv.2 fun hc => tab_kind.2.2 (hc ▸ hp)
    have hline := hv.1
    unfold Roomy Unwrapped WrappedOnce at *
    unfold typePrintable
    dsimp only
    omega
  · have hline := hv.1
    unfold Roomy Unwrapped WrappedOnce at *
    omega

theorem eraseChar_leads (t : ℤ) : Leads Roomy (eraseChar t) Roomy := by
  intro v hv
  unfold Roomy Unwrapped WrappedOnce eraseChar at *
  dsimp only
  split <;> omega

/-- The next line starts below the first row, wherever the cursor was. -/
theorem enterLine_leads (c : UInt8) : Leads (fun v => 0 ≤ v.currY) (enterLine c) Roomy := by
  intro v hv
  unfold Roomy Unwrapped enterLine
  dsimp only
  omega

theorem scrollLine_leads (t : ℤ) : Leads Roomy (scrollLine t) Roomy := by
  intro v hv
  unfold Roomy Unwrapped WrappedOnce at *
  unfold scrollLine height
  dsimp only
  omega

theorem Roomy.putChar (h : Roomy v) (t : ℤ) (c : UInt8) : Roomy (putChar t c v).1 := by
  have hrow : ∀ v, Roomy v → 0 ≤ v.currY := by
    intro v hv
    unfold Roomy Unwrapped WrappedOnce at hv
    omega
  have htype : Leads Roomy (Action.when (fun v => v.linelength < bufferLimit)
      (typeChar t c (index v.currX v.currY))) Roomy :=
    Leads.when (fun v hv hlt => typeChar_leads t c _ v ⟨hv, hlt⟩) fun _ hv _ => hv
  have herase : Leads Roomy (Action.when (fun _ => c = backspace) (eraseChar t)) Roomy :=
    Leads.when (fun v hv _ => eraseChar_leads t v hv) fun _ hv _ => hv
  have henter : Leads Roomy (Action.when (fun _ => c = newLineChar) (enterLine c)) Roomy :=
    Leads.when (fun v hv _ => enterLine_leads c v (hrow v hv)) fun _ hv _ => hv
  have hscroll : Leads Roomy (Action.when (fun v => height ≤ v.currY) (scrollLine t)) Roomy :=
    Leads.when (fun v hv _ => scrollLine_leads t v hv) fun _ hv _ => hv
  exact htype.seq (herase.seq (henter.seq hscroll)) v h

theorem Roomy.keysReturn {cs : List UInt8} :
    ∀ {tm : Terminals}, Roomy (tm.vars tm.currTerminal) →
      KeysReturn tm cs ∧ Roomy ((tm.keys cs).vars tm.currTerminal) := by
  induction cs with
  | nil => exact fun h => ⟨trivial, h⟩
  | cons c cs ih =>
    intro tm h
    have hkey : Roomy ((tm.key c).vars (tm.key c).currTerminal) := by
      rw [currTerminal_key, Terminals.key, vars_run_self]
      exact h.putChar _ c
    obtain ⟨hret, hroomy⟩ := ih hkey
    rw [currTerminal_key] at hroomy
    exact ⟨⟨h.keyReturns c, hret⟩, hroomy⟩

/-! ## Lines without backspaces -/

/-- The cursor is not left of the screen. -/
def Ahead (v : Vars) : Prop := 0 ≤ v.currX ∧ 0 ≤ v.currY

theorem Ahead.keyReturns (h : Ahead v) (hc : c ≠ backspace) : KeyReturns c v := by
  unfold Ahead at h
  refine keyReturns_of_index h.2 ?_ fun hbs => absurd hbs hc
  unfold index width
  omega

/-- Only a backspace goes back. -/
theorem Ahead.putChar (h : Ahead v) (hc : c ≠ backspace) (t : ℤ) : Ahead (putChar t c v).1 := by
  have htab : Leads Ahead (Action.when (fun _ => c = tab) typeTab) Ahead :=
    Leads.when (fun v hv _ => ⟨by have := hv.1; show 0 ≤ v.currX + 8; omega, hv.2⟩) fun _ hv _ => hv
  have hwrap : Leads Ahead (Action.when (fun v => width ≤ v.currX) wrapLine) Ahead :=
    Leads.when (fun v hv _ => ⟨le_rfl, by have := hv.2; show 0 ≤ v.currY + 1; omega⟩) fun _ hv _ => hv
  have hprintable : Leads Ahead (Action.when (fun _ => asciiSpace ≤ c ∧ c < 0x80)
      (typePrintable t c (index v.currX v.currY))) Ahead :=
    Leads.when (fun v hv _ => ⟨by have := hv.1; show 0 ≤ v.currX + 1; omega, hv.2⟩) fun _ hv _ => hv
  have htype := htab.seq (hwrap.seq hprintable)
  have henter : Leads Ahead (Action.when (fun _ => c = newLineChar) (enterLine c)) Ahead :=
    Leads.when (fun v hv _ => ⟨le_rfl, by have := hv.2; show 0 ≤ v.currY + 1; omega⟩) fun _ hv _ => hv
  have hscroll : Leads Ahead (Action.when (fun v => height ≤ v.currY) (scrollLine t)) Ahead :=
    Leads.when (fun v hv _ => ⟨hv.1, by show (0 : ℤ) ≤ height - 1; decide⟩) fun _ hv _ => hv
  exact Leads.seq (Leads.when (fun v hv _ => htype v hv) fun _ hv _ => hv)
    (Leads.seq (Leads.when (fun v hv hbs => absurd hbs hc) fun _ hv _ => hv)
      (henter.seq hscroll)) v h

/-! ## Rows -/

/-- No cursor is above the first row. -/
def OnRows (tm : Terminals) : Prop := ∀ t, 0 ≤ (tm.vars t).currY

/-- The function does not go above the first row. -/
def KeepsRow (f : Action) : Prop := Leads (fun v => 0 ≤ v.currY) f fun v => 0 ≤ v.currY

theorem KeepsRow.seq (hf : KeepsRow f) (hg : KeepsRow g) : KeepsRow (f.seq g) := Leads.seq hf hg

theorem KeepsRow.when (hf : KeepsRow f) (cond : Vars → Prop) [DecidablePred cond] :
    KeepsRow (Action.when cond f) :=
  Leads.when (fun v hv _ => hf v hv) fun _ hv _ => hv

theorem wrapLine_keepsRow : KeepsRow wrapLine := fun v hv => by
  show 0 ≤ v.currY + 1
  omega

theorem scrollLine_keepsRow (t : ℤ) : KeepsRow (scrollLine t) := fun _ _ => by
  show (0 : ℤ) ≤ height - 1
  decide

theorem enterLine_keepsRow (c : UInt8) : KeepsRow (enterLine c) := fun v hv => by
  show 0 ≤ v.currY + 1
  omega

theorem drawChar_keepsRow (t : ℤ) (c : UInt8) (data : ℤ) : KeepsRow (drawChar t c data) := by
  intro v hv
  unfold drawChar
  split
  · show 0 ≤ v.currY + 1
    omega
  · exact hv

theorem typeChar_keepsRow (t : ℤ) (c : UInt8) (data : ℤ) : KeepsRow (typeChar t c data) := by
  have htab : KeepsRow typeTab := fun _ hv => hv
  have hprintable : KeepsRow (typePrintable t c data) := fun _ hv => hv
  exact (htab.when _).seq ((wrapLine_keepsRow.when _).seq (hprintable.when _))

theorem eraseChar_keepsRow (t : ℤ) : KeepsRow (eraseChar t) := fun _ hv => hv

theorem putChar_keepsRow (t : ℤ) (c : UInt8) : KeepsRow (putChar t c) := fun v hv =>
  ((typeChar_keepsRow t c (index v.currX v.currY)).when _).seq (((eraseChar_keepsRow t).when _).seq
    (((enterLine_keepsRow c).when _).seq ((scrollLine_keepsRow t).when _))) v hv

theorem putCharFault_keepsRow (c : UInt8) : KeepsRow (putCharFault c) := by
  have hline : KeepsRow fun v => (v, [.line v.linelength c]) := fun _ hv => hv
  have hback : KeepsRow fun v => ({ v with
      currX := if 0 < v.linelength then v.currX - 1 else v.currX }, []) := fun _ hv => hv
  exact (((wrapLine_keepsRow.when _).seq (hline.when _)).when _).seq (hback.when _)

theorem terminalWrite_keepsRow (t : ℤ) (bytes : List UInt8) : KeepsRow (terminalWrite t bytes) := by
  induction bytes with
  | nil => exact fun _ hv => hv
  | cons c bytes ih =>
    have hstart : KeepsRow fun v => (v, [.linestart 0]) := fun _ hv => hv
    have hout : KeepsRow (putCharOut t c) := fun v hv =>
      ((hstart.seq wrapLine_keepsRow).when _).seq
        ((drawChar_keepsRow t c (index v.currX v.currY)).seq ((scrollLine_keepsRow t).when _)) v hv
    unfold terminalWrite
    split
    · exact ih
    · exact hout.seq ih

theorem clearTerminal_keepsRow (t : ℤ) : KeepsRow (clearTerminal t) := by
  intro v hv
  unfold clearTerminal
  split
  · exact hv
  · exact le_rfl

theorem terminalOpen_onRows : OnRows terminalOpen := fun _ => le_rfl

theorem OnRows.run (h : OnRows tm) (hf : KeepsRow f) (t : ℤ) : OnRows (tm.run t f).1 := by
  intro t'
  show 0 ≤ (update tm.vars t (f (tm.vars t)).1 t').currY
  rw [update_apply]
  split
  · exact hf _ (h t)
  · exact h t'

theorem OnRows.terminalRead {count : ℤ} {bytes : List UInt8} (h : OnRows tm)
    (hread : terminalRead tm t count = some (tm', bytes)) : OnRows tm' := by
  unfold Terminal.terminalRead at hread
  split at hread
  · cases hread
  · cases hread
    exact h

theorem OnRows.press (h : OnRows tm) (c : UInt8) : OnRows (tm.press c).1 := by
  unfold Terminals.press
  split
  · exact h.run (putChar_keepsRow _ c) _
  · exact h.run (putCharFault_keepsRow c) _

theorem OnRows.presses (cs : List UInt8) :
    ∀ {tm : Terminals}, OnRows tm → OnRows (tm.presses cs).1 := by
  induction cs with
  | nil => exact fun h => h
  | cons c cs ih =>
    intro tm h
    rw [Terminals.presses]
    split
    · exact ih (h.press c)
    · exact h.press c

/-- Enter starts a line on which no key faults. -/
theorem OnRows.roomy_enter (h : OnRows tm) :
    Roomy ((tm.key newLineChar).vars tm.currTerminal) := by
  rw [Terminals.key, vars_run_self]
  have htype := fun data => (typeChar_keepsRow tm.currTerminal newLineChar data).when
    fun v => v.linelength < bufferLimit
  have herase := (eraseChar_keepsRow tm.currTerminal).when fun _ => newLineChar = backspace
  have henter : Leads (fun v => 0 ≤ v.currY)
      (Action.when (fun _ => newLineChar = newLineChar) (enterLine newLineChar)) Roomy :=
    Leads.when (fun v hv _ => enterLine_leads _ v hv) fun _ _ hne => absurd rfl hne
  have hscroll : Leads Roomy
      (Action.when (fun v => height ≤ v.currY) (scrollLine tm.currTerminal)) Roomy :=
    Leads.when (fun v hv _ => scrollLine_leads _ v hv) fun _ hv _ => hv
  exact Leads.seq (htype _) (Leads.seq herase (henter.seq hscroll)) _ (h tm.currTerminal)

end Terminal
end GalapagOS
