import GalapagOS.Terminal.Cursor
import GalapagOS.Terminal.Driver

/-!
# The cursor stays on the screen

Between two calls the cursor is on the screen or right behind the last column of a row, and the
driver draws on the 2000 cells of the screen, as long as two things do not happen. A backspace that
takes a character off the line must not come when the cursor is at the start of a row, where it is
after a wrap: it would leave column 0 to the left. And nothing must be drawn while the cursor is
behind the last cell of the last row, since the cell is computed before the row is scrolled.
-/

namespace GalapagOS
namespace Terminal

open Memory Function

variable {tm tm' : Terminals} {t : ℤ} {c : UInt8} {v : Vars} {e : Event}

/-! ## Keys and bytes that fit -/

/-- The cursor is on the screen or right behind the last column. -/
def InRange (v : Vars) : Prop := 0 ≤ v.currX ∧ v.currX ≤ 80 ∧ 0 ≤ v.currY ∧ v.currY ≤ 24

/-- The cursor is behind the last cell of the screen. -/
def AtCorner (v : Vars) : Prop := v.currX = 80 ∧ v.currY = 24

instance (v : Vars) : Decidable (AtCorner v) := inferInstanceAs (Decidable (_ ∧ _))

/-- A key of `put_char`: a backspace on the line finds a cell in the row of the cursor, also after
the wrap that comes first on a line that is not full, and what is drawn is not drawn behind the
last cell. -/
def KeyFits (c : UInt8) (v : Vars) : Prop :=
  (c = backspace → 0 < v.linelength → 0 < v.currX ∧ (v.currX < 80 ∨ 128 ≤ v.linelength)) ∧
  (c = backspace ∨ Printable c → v.linelength < 128 → ¬AtCorner v)

instance (c : UInt8) (v : Vars) : Decidable (KeyFits c v) :=
  inferInstanceAs (Decidable ((_ → _ → _) ∧ (_ → _ → _)))

/-- A byte of `put_char_out`. -/
def ByteFits (c : UInt8) (v : Vars) : Prop := c ≠ newLineChar → ¬AtCorner v

instance (c : UInt8) (v : Vars) : Decidable (ByteFits c v) := inferInstanceAs (Decidable (_ → _))

/-! ## `put_char` -/

/-- Nothing is drawn outside of the 2000 cells. -/
abbrev OnCells : List Effect → Prop := DrawBelow 4000

theorem onCells_append (es es' : List Effect) (h : OnCells es) (h' : OnCells es') :
    OnCells (es ++ es') :=
  h.append h'

theorem onCells_nil : OnCells [] := drawBelow_of_nil rfl

/-- The cursor when the tab has been typed. -/
def TabTyped (c : UInt8) (v : Vars) : Prop :=
  0 ≤ v.currX ∧ v.currX ≤ 88 ∧ 0 ≤ v.currY ∧ v.currY ≤ 24 ∧
    (c = backspace → v.currX ≤ 80 ∧ ¬AtCorner v ∧ (0 < v.linelength → 0 < v.currX ∧ v.currX < 80))

/-- The cursor when the row has been wrapped. -/
def RowWrapped (c : UInt8) (v : Vars) : Prop :=
  0 ≤ v.currX ∧ v.currX ≤ 79 ∧ 0 ≤ v.currY ∧ v.currY ≤ 25 ∧ (24 < v.currY → v.currX = 0) ∧
    (c = backspace → v.currY ≤ 24 ∧ (0 < v.linelength → 0 < v.currX))

/-- The cursor when the backspace branch comes. -/
def CharTyped (c : UInt8) (v : Vars) : Prop :=
  0 ≤ v.currX ∧ v.currX ≤ 80 ∧ 0 ≤ v.currY ∧ v.currY ≤ 25 ∧
    (c = backspace → v.currY ≤ 24 ∧ (0 < v.linelength → 0 < v.currX) ∧
      (v.linelength ≤ 0 → v.currX ≤ 79))

/-- The cursor up to `n` rows below the screen. -/
def RowsBelow (n : ℤ) (v : Vars) : Prop :=
  0 ≤ v.currX ∧ v.currX ≤ 80 ∧ 0 ≤ v.currY ∧ v.currY ≤ 24 + n

theorem typeTab_meets (c : UInt8) :
    Meets OnCells (fun v => (InRange v ∧ KeyFits c v) ∧ v.linelength < bufferLimit)
      (Action.when (fun _ => c = tab) typeTab) (TabTyped c) := by
  refine Meets.when onCells_nil (fun v hv => ⟨?_, drawBelow_of_nil rfl⟩) fun v hv _ => ?_
  · obtain ⟨⟨⟨hv, -⟩, -⟩, htab⟩ := hv
    have hne : c ≠ backspace := fun hc => tab_kind.2.1 (htab.symm.trans hc)
    refine ⟨?_, ?_, ?_, ?_, fun hc => absurd hc hne⟩ <;> unfold InRange at hv <;>
      dsimp only [typeTab] <;> omega
  · obtain ⟨⟨hv, herase, hdraw⟩, hlen⟩ := hv
    unfold InRange at hv
    unfold bufferLimit at hlen
    refine ⟨by omega, by omega, by omega, by omega, fun hc => ⟨by omega, hdraw (.inl hc) hlen, ?_⟩⟩
    intro hpos
    have hcell := herase hc hpos
    omega

theorem wrapLine_meets (c : UInt8) :
    Meets OnCells (TabTyped c) (Action.when (fun v => width ≤ v.currX) wrapLine) (RowWrapped c) := by
  refine Meets.when onCells_nil (fun v hv => ⟨?_, drawBelow_of_nil rfl⟩) fun v hv hlt => ?_
  · obtain ⟨⟨hx, hx', hy, hy', hback⟩, hwrap⟩ := hv
    unfold wrapLine RowWrapped
    unfold AtCorner at hback
    unfold width at hwrap
    dsimp only
    refine ⟨by omega, by omega, by omega, by omega, fun _ => rfl, fun hc => ?_⟩
    obtain ⟨hle, hcorner, hline⟩ := hback hc
    omega
  · obtain ⟨hx, hx', hy, hy', hback⟩ := hv
    unfold width at hlt
    refine ⟨hx, by omega, hy, by omega, by omega, fun hc => ⟨hy', fun hpos => ?_⟩⟩
    exact ((hback hc).2.2 hpos).1

theorem typePrintable_meets (t : ℤ) (c : UInt8) {data : ℤ}
    (hdata : Printable c → 0 ≤ data ∧ 2 * data + 2 ≤ (4000 : ℕ)) :
    Meets OnCells (RowWrapped c)
      (Action.when (fun _ => asciiSpace ≤ c ∧ c < 0x80) (typePrintable t c data)) (CharTyped c) := by
  refine Meets.when onCells_nil (fun v hv => ?_) fun v hv _ => ?_
  · obtain ⟨⟨hx, hx', hy, hy', -, -⟩, hp⟩ := hv
    have hne : c ≠ backspace := fun hc => backspace_kind.2.2 (hc ▸ hp)
    refine ⟨⟨?_, ?_, hy, hy', fun hc => absurd hc hne⟩, cellOps_below (hdata hp) t c⟩ <;>
      dsimp only [typePrintable] <;> omega
  · obtain ⟨hx, hx', hy, hy', -, hback⟩ := hv
    exact ⟨hx, by omega, hy, hy', fun hc => ⟨(hback hc).1, (hback hc).2, fun _ => hx'⟩⟩

theorem typeChar_meets (t : ℤ) (c : UInt8) {data : ℤ} (hv : InRange v ∧ KeyFits c v)
    (hdata : data = index v.currX v.currY) :
    CharTyped c (Action.when (fun v => v.linelength < bufferLimit) (typeChar t c data) v).1 ∧
      OnCells (Action.when (fun v => v.linelength < bufferLimit) (typeChar t c data) v).2 := by
  by_cases hlen : v.linelength < bufferLimit
  · -- the cell is on the screen, unless the cursor is behind the last one
    have hcell : Printable c → 0 ≤ data ∧ 2 * data + 2 ≤ (4000 : ℕ) := by
      intro hp
      have hcorner := hv.2.2 (.inr hp) hlen
      obtain ⟨hrange, -⟩ := hv
      unfold InRange at hrange
      unfold AtCorner at hcorner
      rw [hdata, index, width]
      omega
    rw [Action.when, if_pos hlen]
    exact Meets.seq onCells_append (typeTab_meets c)
      (Meets.seq onCells_append (wrapLine_meets c) (typePrintable_meets t c hcell)) v ⟨hv, hlen⟩
  · obtain ⟨⟨hx, hx', hy, hy'⟩, herase, -⟩ := hv
    rw [Action.when, if_neg hlen]
    show CharTyped c v ∧ OnCells []
    unfold bufferLimit at hlen
    refine ⟨⟨hx, hx', hy, by omega, fun hc => ⟨hy', fun hpos => (herase hc hpos).1, ?_⟩⟩,
      onCells_nil⟩
    intro hempty
    omega

theorem eraseChar_meets (t : ℤ) (c : UInt8) :
    Meets OnCells (CharTyped c) (Action.when (fun _ => c = backspace) (eraseChar t))
      (RowsBelow 1) := by
  refine Meets.when onCells_nil (fun v hv => ?_) fun v hv _ => ?_
  · obtain ⟨⟨hx, hx', hy, hy', hback⟩, hc⟩ := hv
    obtain ⟨hrow, hpos, hempty⟩ := hback hc
    -- the cell before the cursor, unless the line is empty
    have hcell : 0 ≤ (eraseChar t v).1.currX ∧ (eraseChar t v).1.currX ≤ 79 ∧
        (eraseChar t v).1.currY = v.currY := by
      unfold eraseChar
      dsimp only
      split <;> omega
    have hindex : 0 ≤ index (eraseChar t v).1.currX v.currY ∧
        2 * index (eraseChar t v).1.currX v.currY + 2 ≤ (4000 : ℕ) := by
      unfold index width
      omega
    exact ⟨⟨hcell.1, by omega, by omega, by omega⟩,
      (blankOps_below hindex t).append (drawBelow_of_nil rfl)⟩
  · obtain ⟨hx, hx', hy, hy', -⟩ := hv
    exact ⟨hx, hx', hy, hy'⟩

theorem enterLine_meets (c : UInt8) :
    Meets OnCells (RowsBelow 1) (Action.when (fun _ => c = newLineChar) (enterLine c))
      (RowsBelow 2) := by
  refine Meets.when onCells_nil (fun v hv => ⟨?_, drawBelow_of_nil (screenOps_enterLine c v)⟩)
    fun v hv _ => ?_
  · obtain ⟨hv, -⟩ := hv
    unfold enterLine RowsBelow at *
    dsimp only
    omega
  · unfold RowsBelow at *
    omega

/-- The rows below the screen are scrolled in. -/
theorem scroll_meets (t : ℤ) :
    Meets OnCells (RowsBelow 2) (Action.when (fun v => height ≤ v.currY) (scrollLine t))
      InRange := by
  refine Meets.when onCells_nil (fun v hv => ?_) fun v hv hlt => ?_
  · obtain ⟨⟨hx, hx', hy, hy'⟩, hge⟩ := hv
    have hrows : v.currY - height + 1 = 1 ∨ v.currY - height + 1 = 2 := by
      unfold height at *
      omega
    exact ⟨⟨hx, hx', show (0 : ℤ) ≤ 24 by decide, show (24 : ℤ) ≤ 24 by decide⟩,
      (scrollOps_below le_rfl hrows t).append (drawBelow_of_nil rfl)⟩
  · unfold RowsBelow height at *
    unfold InRange
    omega

theorem putChar_meets (t : ℤ) (c : UInt8) :
    Meets OnCells (fun v => InRange v ∧ KeyFits c v) (putChar t c) InRange := by
  intro v hv
  have htyped : Meets OnCells (fun v' => v' = v)
      (Action.when (fun v => v.linelength < bufferLimit) (typeChar t c (index v.currX v.currY)))
      (CharTyped c) := by
    intro v' hv'
    rw [hv']
    exact typeChar_meets t c hv rfl
  exact Meets.seq onCells_append htyped (Meets.seq onCells_append (eraseChar_meets t c)
    (Meets.seq onCells_append (enterLine_meets c) (scroll_meets t))) v rfl

/-! ## `put_char_out` -/

theorem wrapOut_meets :
    Meets OnCells InRange (Action.when (fun v => width ≤ v.currX)
      (Action.seq (fun v => (v, [.linestart 0])) wrapLine)) (RowWrapped 0) := by
  refine Meets.when onCells_nil (fun v hv => ⟨?_, drawBelow_of_nil rfl⟩) fun v hv hlt => ?_
  · obtain ⟨⟨hx, hx', hy, hy'⟩, hwrap⟩ := hv
    unfold Action.seq wrapLine RowWrapped
    dsimp only
    exact ⟨by omega, by omega, by omega, by omega, fun _ => rfl, nofun⟩
  · obtain ⟨hx, hx', hy, hy'⟩ := hv
    unfold width at hlt
    exact ⟨hx, by omega, hy, by omega, by omega, nofun⟩

theorem drawChar_meets (t : ℤ) (c : UInt8) {data : ℤ}
    (hdata : c ≠ newLineChar → 0 ≤ data ∧ 2 * data + 2 ≤ (4000 : ℕ)) :
    Meets OnCells (RowWrapped 0) (drawChar t c data) (RowsBelow 2) := by
  intro v hv
  obtain ⟨hx, hx', hy, hy', -, -⟩ := hv
  unfold drawChar
  split
  · refine ⟨?_, drawBelow_of_nil rfl⟩
    unfold RowsBelow
    dsimp only
    omega
  · rename_i hc
    refine ⟨?_, cellOps_below (hdata hc) t c⟩
    unfold RowsBelow
    dsimp only
    omega

theorem putCharOut_meets (t : ℤ) (c : UInt8) :
    Meets OnCells (fun v => InRange v ∧ ByteFits c v) (putCharOut t c) InRange := by
  intro v hv
  obtain ⟨hrange, hfits⟩ := hv
  have hcell : c ≠ newLineChar →
      0 ≤ index v.currX v.currY ∧ 2 * index v.currX v.currY + 2 ≤ (4000 : ℕ) := by
    intro hc
    have hcorner := hfits hc
    unfold InRange at hrange
    unfold AtCorner at hcorner
    unfold index width
    omega
  exact Meets.seq onCells_append wrapOut_meets
    (Meets.seq onCells_append (drawChar_meets t c hcell) (scroll_meets t)) v hrange

/-- Every byte of some output fits where it is written. -/
def OutputFits (t : ℤ) : Vars → List UInt8 → Prop
  | _, [] => True
  | v, c :: cs => if c = 0 then OutputFits t v cs else ByteFits c v ∧ OutputFits t (putCharOut t c v).1 cs

instance decidableOutputFits (t : ℤ) : ∀ v cs, Decidable (OutputFits t v cs)
  | _, [] => inferInstanceAs (Decidable True)
  | v, c :: cs =>
    have := decidableOutputFits t v cs
    have := decidableOutputFits t (putCharOut t c v).1 cs
    inferInstanceAs (Decidable (if c = 0 then _ else _ ∧ _))

theorem terminalWrite_meets (t : ℤ) (bytes : List UInt8) :
    Meets OnCells (fun v => InRange v ∧ OutputFits t v bytes) (terminalWrite t bytes) InRange := by
  induction bytes with
  | nil => exact fun v hv => ⟨hv.1, onCells_nil⟩
  | cons c bytes ih =>
    intro v hv
    obtain ⟨hrange, hfits⟩ := hv
    unfold OutputFits at hfits
    unfold terminalWrite
    by_cases hc : c = 0
    · rw [if_pos hc] at hfits ⊢
      exact ih v ⟨hrange, hfits⟩
    · rw [if_neg hc] at hfits ⊢
      obtain ⟨hout, hcells⟩ := putCharOut_meets t c v ⟨hrange, hfits.1⟩
      obtain ⟨hrest, hcells'⟩ := ih _ ⟨hout, hfits.2⟩
      exact ⟨hrest, hcells.append hcells'⟩

/-! ## All calls -/

/-- Every key of a sequence fits where it is typed. -/
def KeysFit : Terminals → List UInt8 → Prop
  | _, [] => True
  | tm, c :: cs => KeyFits c (tm.vars tm.currTerminal) ∧ KeysFit (tm.key c) cs

instance decidableKeysFit : ∀ tm cs, Decidable (KeysFit tm cs)
  | _, [] => inferInstanceAs (Decidable True)
  | tm, c :: cs =>
    have := decidableKeysFit (tm.key c) cs
    inferInstanceAs (Decidable (_ ∧ _))

/-- The keys and the output of a call fit. -/
def CellsFit (tm : Terminals) : Event → Prop
  | .putChar c => KeyFits c (tm.vars tm.currTerminal)
  | .terminalWrite t bytes => OutputFits t (tm.vars t) bytes
  | .histCopyFrom src => KeysFit tm (histKeys src)
  | .terminalRead _ _ | .clearTerminal | .switchTerminals _ => True

instance (tm : Terminals) : ∀ e, Decidable (CellsFit tm e)
  | .putChar _ => inferInstanceAs (Decidable (KeyFits _ _))
  | .terminalWrite _ _ => inferInstanceAs (Decidable (OutputFits _ _ _))
  | .histCopyFrom _ => inferInstanceAs (Decidable (KeysFit _ _))
  | .terminalRead _ _ | .clearTerminal | .switchTerminals _ => inferInstanceAs (Decidable True)

/-- The accesses to the screen of a sequence of keys that return. -/
def Terminals.keysDraw : Terminals → List UInt8 → List (Op UInt8)
  | _, [] => []
  | tm, c :: cs => (tm.run tm.currTerminal (putChar tm.currTerminal c)).2 ++ (tm.key c).keysDraw cs

/-- The accesses to the screen that a call makes through `put_char` and `put_char_out`, if it
returns. -/
def Event.draw (tm : Terminals) : Event → List (Op UInt8)
  | .putChar c => (tm.run tm.currTerminal (Terminal.putChar tm.currTerminal c)).2
  | .terminalWrite t bytes => (tm.run t (Terminal.terminalWrite t bytes)).2
  | .histCopyFrom src => tm.keysDraw (histKeys src)
  | .terminalRead _ _ | .clearTerminal | .switchTerminals _ => []

/-- Every cursor is in range. -/
def InRanges (tm : Terminals) : Prop := ∀ t, InRange (tm.vars t)

theorem terminalOpen_inRanges : InRanges terminalOpen := by
  intro t
  show (0 : ℤ) ≤ 0 ∧ (0 : ℤ) ≤ 80 ∧ (0 : ℤ) ≤ 0 ∧ (0 : ℤ) ≤ 24
  decide

theorem InRanges.run {f : Action} (h : InRanges tm) (hf : InRange (f (tm.vars t)).1) :
    InRanges (tm.run t f).1 := by
  intro t'
  show InRange (update tm.vars t (f (tm.vars t)).1 t')
  rw [update_apply]
  split
  · exact hf
  · exact h t'

theorem InRange.keyReturns {v : Vars} (h : InRange v) (hfits : KeyFits c v) : KeyReturns c v := by
  have hback := hfits.1
  unfold InRange at h
  refine keyReturns_of_index h.2.2.1 ?_ fun hc hlen => ?_
  · unfold index width
    omega
  · have := hback hc hlen
    unfold index width
    omega

theorem InRanges.key (h : InRanges tm) (hfits : KeyFits c (tm.vars tm.currTerminal)) :
    InRanges (tm.key c) :=
  h.run (putChar_meets _ c _ ⟨h _, hfits⟩).1

theorem InRanges.keys {cs : List UInt8} :
    ∀ {tm : Terminals}, InRanges tm → KeysFit tm cs →
      InRanges (tm.keys cs) ∧ ∀ op ∈ tm.keysDraw cs, op.Within (Set.Iio 4000) := by
  induction cs with
  | nil => exact fun h _ => ⟨h, fun op hop => absurd hop List.not_mem_nil⟩
  | cons c cs ih =>
    intro tm h hfits
    obtain ⟨hrest, hdraw⟩ := ih (h.key hfits.1) hfits.2
    refine ⟨hrest, fun op hop => ?_⟩
    rcases List.mem_append.mp hop with hop | hop
    · exact (putChar_meets _ c _ ⟨h _, hfits.1⟩).2 op hop
    · exact hdraw op hop

/-- Keys that fit do not fault. -/
theorem InRanges.keysReturn {cs : List UInt8} :
    ∀ {tm : Terminals}, InRanges tm → KeysFit tm cs → KeysReturn tm cs := by
  induction cs with
  | nil => exact fun _ _ => trivial
  | cons c cs ih => exact fun h hfits => ⟨(h _).keyReturns hfits.1, ih (h.key hfits.1) hfits.2⟩

theorem InRanges.clear (h : InRanges tm) (t : ℤ) : InRanges (tm.run t (clearTerminal t)).1 := by
  refine h.run ?_
  unfold clearTerminal
  split
  · exact h t
  · exact terminalOpen_inRanges t

theorem vars_terminalRead {count : ℤ} {bytes : List UInt8}
    (h : terminalRead tm t count = some (tm', bytes)) : tm'.vars = tm.vars := by
  unfold terminalRead at h
  split at h
  · cases h
  · cases h
    rfl

/-- A call that fits keeps every cursor in range. -/
theorem InRanges.exec (h : InRanges tm) (hok : CellsFit tm e) (he : e.exec tm = some tm') :
    InRanges tm' := by
  cases e with
  | putChar c =>
    rw [exec_putChar ((h _).keyReturns hok)] at he
    cases he
    exact h.key hok
  | terminalWrite t bytes =>
    cases he
    exact h.run (terminalWrite_meets t bytes _ ⟨h t, hok⟩).1
  | terminalRead t count =>
    simp only [Event.exec] at he
    split at he
    · cases he
      exact h
    · obtain ⟨⟨tm₁, bytes⟩, hread, rfl⟩ := Option.map_eq_some_iff.mp he
      intro t'
      rw [show tm₁.vars = tm.vars from vars_terminalRead hread]
      exact h t'
  | clearTerminal =>
    cases he
    exact h.clear _
  | histCopyFrom src =>
    rw [exec_histCopyFrom (h.keysReturn hok)] at he
    cases he
    exact (h.keys hok).1
  | switchTerminals term =>
    cases he
    exact h

/-- What it draws is on the screen. -/
theorem InRanges.draw (h : InRanges tm) (hok : CellsFit tm e) :
    ∀ op ∈ e.draw tm, op.Within (Set.Iio 4000) := by
  cases e with
  | putChar c => exact (putChar_meets _ c _ ⟨h _, hok⟩).2
  | terminalWrite t bytes => exact (terminalWrite_meets t bytes _ ⟨h t, hok⟩).2
  | histCopyFrom src => exact (h.keys hok).2
  | terminalRead t count => exact fun op hop => absurd hop List.not_mem_nil
  | clearTerminal => exact fun op hop => absurd hop List.not_mem_nil
  | switchTerminals term => exact fun op hop => absurd hop List.not_mem_nil

/-- After calls that fit, every cursor is on the screen or right behind the last column, and the next
call that fits draws on the 2000 cells of the screen only. -/
theorem cursor_on_screen (h : Run.Reach system CellsFit tm) :
    (∀ t, 0 ≤ (tm.vars t).currX ∧ (tm.vars t).currX ≤ 80 ∧
      0 ≤ (tm.vars t).currY ∧ (tm.vars t).currY ≤ 24) ∧
    ∀ e, CellsFit tm e → ∀ op ∈ e.draw tm, op.Within (Set.Iio 4000) := by
  have hranges : InRanges tm := by
    refine h.invariant ?_ fun tm e tm' hr hok he => hr.exec hok he
    intro tm hinit
    rw [show tm = terminalOpen from hinit]
    exact terminalOpen_inRanges
  exact ⟨hranges, fun e hok => hranges.draw hok⟩

/-- A tab and two letters, one of which is taken back. -/
theorem cursor_on_screen_tab :
    ∃ tm, system.run terminalOpen ([tab, 0x61, 0x62, backspace].map .putChar) = some tm ∧
      (tm.vars 0).currX ≤ 80 := by
  have hinit : Run.Reach system CellsFit terminalOpen := .init rfl
  have hreach := hinit.run (show system.Allowed CellsFit terminalOpen
    ([tab, 0x61, 0x62, backspace].map .putChar) by decide) rfl
  exact ⟨_, rfl, ((cursor_on_screen hreach).1 0).2.1⟩

/-- A backspace at the start of a row, after ten tabs, and a letter behind the last cell, at the end
of output that fills the last row. -/
theorem cursor_leaves_screen :
    (∃ tm, system.run terminalOpen ((List.replicate 10 tab ++ [backspace]).map .putChar) = some tm ∧
      (tm.vars 0).currX = -1) ∧
    ∃ tm, system.run terminalOpen
        [.terminalWrite 0 (List.replicate 24 newLineChar ++ List.replicate 80 0x61)] = some tm ∧
      Op.write 4000 [0x61] ∈ (Event.terminalWrite 0 [0x61]).draw tm := by
  have hvars : (terminalWrite 0 (List.replicate 24 newLineChar ++ List.replicate 80 0x61) {}).1
      = ⟨0, 80, 24⟩ := by
    decide +kernel
  have hdraw : ∀ tm : Terminals, tm.vars 0 = ⟨0, 80, 24⟩ →
      Op.write 4000 [0x61] ∈ (Event.terminalWrite 0 [0x61]).draw tm := by
    intro tm h
    show Op.write 4000 [0x61] ∈ screenOps (terminalWrite 0 [0x61] (tm.vars 0)).2
    rw [h]
    exact List.mem_cons_self
  have hret : KeysReturn terminalOpen (List.replicate 10 tab ++ [backspace]) := by decide +kernel
  refine ⟨⟨_, run_putChar hret, by decide +kernel⟩, _, rfl, hdraw _ ?_⟩
  exact (vars_run_self terminalOpen 0 _).trans hvars

end Terminal
end GalapagOS
