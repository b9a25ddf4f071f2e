import GalapagOS.Terminal.Driver

/-!
# The hardware cursor

The VGA registers hold one position, and each terminal has its own cursor. `put_char` and
`put_char_out` program the position of the terminal they work on whenever they move its cursor.
`put_char_out` also does so for a terminal that is not displayed, and `clear_terminal` and
`switch_terminals` do not program the registers at all; a key that faults has moved the cursor before.
The position is that of the displayed terminal as long as those make no difference.
-/

namespace GalapagOS
namespace Terminal

open Function

variable {tm tm' : Terminals} {t : ℤ} {c : UInt8} {v : Vars} {e : Event} {f g : Action}

/-! ## Functions that program what they move -/

/-- The position of a cursor, as `update_cursor` computes it. -/
def position (v : Vars) : ℕ := ((v.currY * width + v.currX) % 2 ^ 16).toNat

/-- The programmed position after some stores. -/
def cursorAfter (p : ℕ) (es : List Effect) : ℕ :=
  es.foldl (fun p e => match e with
    | .cursor row col => ((row * width + col) % 2 ^ 16).toNat
    | _ => p) p

theorem cursorAfter_append (p : ℕ) (es es' : List Effect) :
    cursorAfter p (es ++ es') = cursorAfter (cursorAfter p es) es' :=
  List.foldl_append

theorem cursor_run (tm : Terminals) (t : ℤ) (f : Action) :
    (tm.run t f).1.cursor = cursorAfter tm.cursor (f (tm.vars t)).2 := by
  have hfold : ∀ (es : List Effect) (tm : Terminals),
      (es.foldl (fun tm e => e.apply t tm) tm).cursor = cursorAfter tm.cursor es := by
    intro es
    induction es with
    | nil => exact fun _ => rfl
    | cons e es ih =>
      intro tm
      rw [List.foldl_cons, ih]
      cases e <;> rfl
  exact hfold _ tm

/-- Stores among which no position is programmed. -/
theorem cursorAfter_of_quiet {es : List Effect} (h : ∀ e ∈ es, ∀ row col, e ≠ .cursor row col)
    (p : ℕ) : cursorAfter p es = p := by
  induction es with
  | nil => rfl
  | cons e es ih =>
    have hrest := ih fun e he => h e (List.mem_cons_of_mem _ he)
    cases e with
    | cursor row col => exact absurd rfl (h _ List.mem_cons_self row col)
    | _ => exact hrest

/-- If the programmed position was right before the function, it is right after it. -/
def Tracks (f : Action) : Prop := ∀ v, cursorAfter (position v) (f v).2 = position (f v).1

theorem Tracks.seq (hf : Tracks f) (hg : Tracks g) : Tracks (f.seq g) := by
  intro v
  show cursorAfter (position v) ((f v).2 ++ (g (f v).1).2) = position (g (f v).1).1
  rw [cursorAfter_append, hf v, hg]

theorem Tracks.when (hf : Tracks f) (cond : Vars → Prop) [DecidablePred cond] :
    Tracks (Action.when cond f) := by
  intro v
  unfold Action.when
  split
  · exact hf v
  · rfl

/-- A function whose last store programs the position. -/
theorem tracks_of_last (es : Vars → List Effect)
    (h : ∀ v, (f v).2 = es v ++ [.cursor (f v).1.currY (f v).1.currX]) : Tracks f := by
  intro v
  rw [h, cursorAfter_append]
  rfl

theorem scrollLine_tracks (t : ℤ) : Tracks (scrollLine t) :=
  tracks_of_last (fun v => [.screen (scrollOps t (v.currY - height + 1))]) fun _ => rfl

theorem wrapLine_tracks : Tracks wrapLine := tracks_of_last (fun _ => []) fun _ => rfl

theorem typeTab_tracks : Tracks typeTab := fun _ => rfl

theorem typePrintable_tracks (t : ℤ) (c : UInt8) (data : ℤ) : Tracks (typePrintable t c data) :=
  fun _ => rfl

theorem eraseChar_tracks (t : ℤ) : Tracks (eraseChar t) := fun _ => rfl

theorem enterLine_tracks (c : UInt8) : Tracks (enterLine c) := by
  refine tracks_of_last (fun v => [.line v.linelength c,
    .lastlinelength (v.linelength + 1), .linestart 0] ++
      ((List.range (v.linelength + 1).toNat).map fun j : ℕ => Effect.commit j) ++ [.rd 1]) ?_
  intro v
  rw [List.append_assoc _ [Effect.rd 1]]
  rfl

theorem drawChar_tracks (t : ℤ) (c : UInt8) (data : ℤ) : Tracks (drawChar t c data) := by
  intro v
  unfold drawChar
  split <;> rfl

theorem putChar_tracks (t : ℤ) (c : UInt8) : Tracks (putChar t c) := by
  intro v
  have htype := fun data => (typeTab_tracks.when fun _ => c = tab).seq
    ((wrapLine_tracks.when fun v => width ≤ v.currX).seq
      ((typePrintable_tracks t c data).when fun _ => Printable c))
  exact ((htype (index v.currX v.currY)).when fun v => v.linelength < bufferLimit).seq
    (((eraseChar_tracks t).when fun _ => c = backspace).seq
      (((enterLine_tracks c).when fun _ => c = newLineChar).seq
        ((scrollLine_tracks t).when fun v => height ≤ v.currY))) v

theorem putCharOut_tracks (t : ℤ) (c : UInt8) : Tracks (putCharOut t c) := by
  intro v
  have hstart : Tracks fun v => (v, [.linestart 0]) := fun _ => rfl
  exact ((hstart.seq wrapLine_tracks).when fun v => width ≤ v.currX).seq
    ((drawChar_tracks t c (index v.currX v.currY)).seq
      ((scrollLine_tracks t).when fun v => height ≤ v.currY)) v

theorem terminalWrite_tracks (t : ℤ) (bytes : List UInt8) : Tracks (terminalWrite t bytes) := by
  induction bytes with
  | nil => exact fun _ => rfl
  | cons c bytes ih =>
    unfold terminalWrite
    split
    · exact ih
    · exact (putCharOut_tracks t c).seq ih

/-! ## The displayed terminal -/

/-- The registers hold the position of the displayed terminal. -/
def CursorShown (tm : Terminals) : Prop := tm.cursor = position (tm.vars tm.currTerminal)

theorem CursorShown.run (h : CursorShown tm) (hf : Tracks f) :
    CursorShown (tm.run tm.currTerminal f).1 := by
  unfold CursorShown at h ⊢
  rw [cursor_run, currTerminal_run, vars_run_self, h, hf]

theorem CursorShown.keys (cs : List UInt8) :
    ∀ {tm : Terminals}, CursorShown tm → CursorShown (tm.keys cs) := by
  induction cs with
  | nil => exact fun h => h
  | cons c cs ih => exact fun h => ih (h.run (putChar_tracks _ c))

/-- `clear_terminal` programs nothing. -/
theorem cursor_clearTerminal (tm : Terminals) (t : ℤ) :
    (tm.run t (clearTerminal t)).1.cursor = tm.cursor := by
  rw [cursor_run]
  apply cursorAfter_of_quiet
  unfold clearTerminal
  split
  · exact fun e he => absurd he List.not_mem_nil
  · intro e he row col
    rintro rfl
    simp at he

/-- Output of NULs draws nothing. -/
theorem terminalWrite_nuls {bytes : List UInt8} (h : ∀ b ∈ bytes, b = 0) (t : ℤ) :
    terminalWrite t bytes = fun v => ({ v with linelength := 0 }, []) := by
  induction bytes with
  | nil => rfl
  | cons c bytes ih =>
    unfold terminalWrite
    rw [if_pos (h c List.mem_cons_self)]
    exact ih fun b hb => h b (List.mem_cons_of_mem c hb)

theorem CursorShown.nuls (h : CursorShown tm) (t : ℤ) :
    CursorShown (tm.run t fun v => ({ v with linelength := 0 }, [])).1 := by
  show tm.cursor = position (update tm.vars t _ tm.currTerminal)
  rw [update_apply]
  split
  · rename_i ht
    rw [← ht]
    exact h
  · exact h

theorem CursorShown.terminalRead {count : ℤ} {bytes : List UInt8} (h : CursorShown tm)
    (hread : terminalRead tm t count = some (tm', bytes)) : CursorShown tm' := by
  unfold Terminal.terminalRead at hread
  split at hread
  · cases hread
  · cases hread
    exact h

/-- Output that is not only NULs comes from a process of the displayed terminal, the screen is cleared
while the cursor is at the first cell or off the screen, and the terminal that is switched to has its
cursor at the position of the one displayed before. No key faults. -/
def CursorKept (tm : Terminals) : Event → Prop
  | .putChar c => KeyReturns c (tm.vars tm.currTerminal)
  | .terminalWrite t bytes => t = tm.currTerminal ∨ ∀ b ∈ bytes, b = 0
  | .terminalRead _ _ => True
  | .clearTerminal =>
    ((tm.vars tm.currTerminal).currX = 0 ∧ (tm.vars tm.currTerminal).currY = 0) ∨
      ClearRefused (tm.vars tm.currTerminal)
  | .histCopyFrom src => KeysReturn tm (histKeys src)
  | .switchTerminals term => position (tm.vars term) = position (tm.vars tm.currTerminal)

instance (tm : Terminals) : ∀ e, Decidable (CursorKept tm e)
  | .putChar _ => inferInstanceAs (Decidable (KeyReturns _ _))
  | .terminalWrite _ _ | .clearTerminal => inferInstanceAs (Decidable (_ ∨ _))
  | .terminalRead _ _ => inferInstanceAs (Decidable True)
  | .histCopyFrom _ => inferInstanceAs (Decidable (KeysReturn _ _))
  | .switchTerminals _ => inferInstanceAs (Decidable (_ = _))

/-- A cleared screen has its cursor at the first cell. -/
theorem position_clearTerminal (h : (v.currX = 0 ∧ v.currY = 0) ∨ ClearRefused v) (t : ℤ) :
    position (clearTerminal t v).1 = position v := by
  by_cases hrefused : ClearRefused v
  · rw [clearTerminal_refused hrefused]
  · obtain ⟨hx, hy⟩ := h.resolve_right hrefused
    rw [vars_clearTerminal hrefused, position, position, hx, hy]

theorem CursorShown.exec (h : CursorShown tm) (hok : CursorKept tm e)
    (he : e.exec tm = some tm') : CursorShown tm' := by
  cases e with
  | putChar c =>
    rw [exec_putChar hok] at he
    cases he
    exact h.run (putChar_tracks _ c)
  | terminalWrite t bytes =>
    cases he
    rcases hok with ht | hnuls
    · rw [ht]
      exact h.run (terminalWrite_tracks _ bytes)
    · rw [terminalWrite_nuls hnuls]
      exact h.nuls t
  | terminalRead t count =>
    simp only [Event.exec] at he
    split at he
    · cases he
      exact h
    · obtain ⟨⟨tm₁, bytes⟩, hread, rfl⟩ := Option.map_eq_some_iff.mp he
      exact h.terminalRead hread
  | clearTerminal =>
    cases he
    unfold CursorShown
    rw [cursor_clearTerminal, currTerminal_run, vars_run_self, position_clearTerminal hok]
    exact h
  | histCopyFrom src =>
    rw [exec_histCopyFrom hok] at he
    cases he
    exact h.keys (histKeys src)
  | switchTerminals term =>
    cases he
    exact h.trans hok.symm

/-- The registers hold the position of the displayed terminal after every call. -/
theorem hardware_cursor (h : Run.Reach system CursorKept tm) :
    tm.cursor
      = (((tm.vars tm.currTerminal).currY * 80 + (tm.vars tm.currTerminal).currX) % 2 ^ 16).toNat := by
  refine h.invariant (I := CursorShown) ?_ ?_
  · rintro tm rfl
    rfl
  · exact fun tm e tm' hshown hok he => hshown.exec hok he

/-- A terminal is switched to before anything is typed, a command is typed on it, and its process
answers. -/
theorem hardware_cursor_switched :
    ∃ tm, Run.Reach system CursorKept tm ∧ tm.currTerminal = 1 ∧ tm.cursor = 81 := by
  have hinit : Run.Reach system CursorKept terminalOpen := .init rfl
  have hreach := hinit.run (show system.Allowed CursorKept terminalOpen
    [.switchTerminals 1, .putChar 0x61, .putChar newLineChar, .terminalWrite 1 [0x62]]
    by decide) rfl
  exact ⟨_, hreach, rfl, (hardware_cursor hreach).trans (by decide)⟩

/-- A process of a terminal that is not displayed prints; the screen is cleared; another terminal
is displayed. -/
theorem hardware_cursor_stale :
    (∃ tm, system.run terminalOpen [.terminalWrite 1 [0x61]] = some tm ∧
      tm.cursor = 1 ∧ position (tm.vars tm.currTerminal) = 0) ∧
    (∃ tm, system.run terminalOpen [.putChar 0x61, .clearTerminal] = some tm ∧
      tm.cursor = 1 ∧ position (tm.vars tm.currTerminal) = 0) ∧
    ∃ tm, system.run terminalOpen [.putChar 0x61, .switchTerminals 1] = some tm ∧
      tm.cursor = 1 ∧ position (tm.vars tm.currTerminal) = 0 := by
  refine ⟨⟨_, rfl, by decide, by decide⟩, ⟨_, rfl, ?_, ?_⟩, ⟨_, rfl, by decide, by decide⟩⟩
  · rw [cursor_clearTerminal]
    decide
  · rw [currTerminal_run, vars_run_self]
    decide

end Terminal
end GalapagOS
