import GalapagOS.Lib.Run
import GalapagOS.Terminal.Editor

/-!
# The driver as an event system

The calls of the driver in any order, from `terminal_open` on. A key whose store would go before the
first cell ends its call in a page fault. Output leaves the lines alone when it goes to a terminal whose
line is empty, and then the lines are those of the same calls without the output, as long as no key
faults.
-/

namespace GalapagOS
namespace Terminal

open Function

variable {tm tm' : Terminals} {t : ℤ}

/-! ## Calls -/

/-- The keys of `hist_copy_from`: the line is erased, and the stored line is typed up to its NUL. -/
def histKeys (src : List UInt8) : List UInt8 :=
  List.replicate 128 backspace ++ (src.take 128).takeWhile (· ≠ 0)

/-- A call of the driver. Keys go to the displayed terminal, `terminal_write` and `terminal_read` are
called by a process of terminal `t`. -/
inductive Event where
  | putChar (c : UInt8)
  | terminalWrite (t : Fin 3) (bytes : List UInt8)
  | terminalRead (t : Fin 3) (count : ℤ)
  | clearTerminal
  | histCopyFrom (src : List UInt8)
  | switchTerminals (term : Fin 3)

/-- The variables after a call; `terminal_read` waits for a line. A page fault ends `put_char` and
`hist_copy_from` where it happens, and its handler leaves the variables of the driver alone. -/
def Event.exec (tm : Terminals) : Event → Option Terminals
  | .putChar c => some (tm.press c).1
  | .terminalWrite t bytes => some (tm.run t (Terminal.terminalWrite t bytes)).1
  | .terminalRead t count =>
    if count < 0 then some tm else (Terminal.terminalRead tm t count).map Prod.fst
  | .clearTerminal => some (tm.run tm.currTerminal (Terminal.clearTerminal tm.currTerminal)).1
  | .histCopyFrom src => some (tm.presses (histKeys src)).1
  | .switchTerminals term => some { tm with currTerminal := term }

def system : Run.System Terminals Event where
  init tm := tm = terminalOpen
  step tm e := e.exec tm

/-- No key of a call faults. -/
def Event.Returns (tm : Terminals) : Event → Prop
  | .putChar c => KeyReturns c (tm.vars tm.currTerminal)
  | .histCopyFrom src => KeysReturn tm (histKeys src)
  | _ => True

instance (tm : Terminals) : ∀ e, Decidable (Event.Returns tm e)
  | .putChar _ => inferInstanceAs (Decidable (KeyReturns _ _))
  | .histCopyFrom _ => inferInstanceAs (Decidable (KeysReturn _ _))
  | .terminalWrite _ _ | .terminalRead _ _ | .clearTerminal | .switchTerminals _ =>
    inferInstanceAs (Decidable True)

theorem exec_putChar {c : UInt8} (h : Event.Returns tm (.putChar c)) :
    Event.exec tm (.putChar c) = some (tm.key c) := by
  rw [Event.exec, press_of_returns h]

theorem exec_histCopyFrom {src : List UInt8} (h : Event.Returns tm (.histCopyFrom src)) :
    Event.exec tm (.histCopyFrom src) = some (tm.keys (histKeys src)) := by
  rw [Event.exec, presses_of_returns h]

theorem run_putChar {cs : List UInt8} :
    ∀ {tm : Terminals}, KeysReturn tm cs → system.run tm (cs.map .putChar) = some (tm.keys cs) := by
  induction cs with
  | nil => exact fun _ => rfl
  | cons c cs ih =>
    intro tm h
    rw [List.map_cons, Run.System.run, show system.step tm (.putChar c) = _ from exec_putChar h.1]
    exact ih h.2

/-- The test at the start of `clear_terminal`: the cursor is off the screen. -/
def ClearRefused (v : Vars) : Prop :=
  v.currX < 0 ∨ width ≤ v.currX ∨ v.currY < 0 ∨ height ≤ v.currY

instance (v : Vars) : Decidable (ClearRefused v) := inferInstanceAs (Decidable (_ ∨ _ ∨ _ ∨ _))

theorem clearTerminal_refused {v : Vars} (h : ClearRefused v) (t : ℤ) :
    clearTerminal t v = (v, []) :=
  if_pos h

theorem vars_clearTerminal {v : Vars} (h : ¬ClearRefused v) (t : ℤ) : (clearTerminal t v).1 = {} := by
  rw [clearTerminal, if_neg (show ¬(_ ∨ _ ∨ _ ∨ _) from h)]

/-- No character is dropped from an empty line, or while the cursor is off the screen. -/
theorem linelength_clearTerminal {v : Vars} (h : v.linelength = 0 ∨ ClearRefused v) (t : ℤ) :
    (clearTerminal t v).1.linelength = v.linelength := by
  by_cases hrefused : ClearRefused v
  · rw [clearTerminal_refused hrefused]
  · rw [vars_clearTerminal hrefused]
    exact (h.resolve_right hrefused).symm

/-! ## Output and typed lines -/

/-- What the keys and the reads of a terminal depend on. -/
def Terminals.view (tm : Terminals) : Lines × Fin 3 := (tm.lines, tm.currTerminal)

/-- Every event but a write. -/
def Event.notWrite : Event → Bool
  | .terminalWrite _ _ => false
  | _ => true

/-- A write goes to a terminal on which nothing has been typed. -/
def WriteOk (tm : Terminals) : Event → Prop
  | .terminalWrite t _ => (tm.vars t).linelength = 0
  | _ => True

theorem lines_write (h : (tm.vars t).linelength = 0) (bytes : List UInt8) :
    (tm.run t (terminalWrite t bytes)).1.lines = tm.lines := by
  rw [(terminalWrite_line t bytes).lines_run]
  have hlen : update tm.lines.linelength t 0 = tm.lines.linelength := update_eq_self_iff.mpr h.symm
  show ({ tm.lines with linelength := update tm.lines.linelength t 0 } : Lines) = _
  rw [hlen]

theorem view_key (h : tm.view = tm'.view) (c : UInt8) : (tm.key c).view = (tm'.key c).view := by
  obtain ⟨hlines, hcurr⟩ := Prod.mk.injEq .. ▸ h
  unfold Terminals.view
  rw [lines_key, lines_key, currTerminal_key, currTerminal_key, hlines, hcurr]

theorem view_keys (cs : List UInt8) :
    ∀ {tm tm' : Terminals}, tm.view = tm'.view → (tm.keys cs).view = (tm'.keys cs).view := by
  induction cs with
  | nil => exact fun h => h
  | cons c cs ih => exact fun h => ih (view_key h c)

/-- The view decides what a call does to the view. A cleared screen is the exception, it looks at
the cursor, and so is a key that faults. -/
theorem view_exec {e : Event} (he : e ≠ .clearTerminal) (hret : e.Returns tm)
    (hret' : e.Returns tm') (h : tm.view = tm'.view) :
    (e.exec tm).map Terminals.view = (e.exec tm').map Terminals.view := by
  obtain ⟨hlines, hcurr⟩ := Prod.mk.injEq .. ▸ h
  cases e with
  | putChar c =>
    rw [exec_putChar hret, exec_putChar hret']
    exact congrArg some (view_key h c)
  | terminalWrite t bytes =>
    show some (_, _) = some (_, _)
    rw [(terminalWrite_line t bytes).lines_run, (terminalWrite_line t bytes).lines_run,
      currTerminal_run, currTerminal_run, hlines, hcurr]
  | terminalRead t count =>
    by_cases hneg : count < 0
    · rw [Event.exec, Event.exec, if_pos hneg, if_pos hneg]
      exact congrArg some h
    · have hview : ∀ tm : Terminals, ((terminalRead tm t count).map Prod.fst).map Terminals.view
          = (tm.lines.read t count).map fun r => (r.1, tm.currTerminal) := by
        intro tm
        rw [← lines_terminalRead, Option.map_map, Option.map_map]
        refine Option.map_congr fun r hr => ?_
        exact congrArg (Prod.mk r.1.lines) (currTerminal_terminalRead hr)
      rw [Event.exec, Event.exec, if_neg hneg, if_neg hneg, hview, hview, hlines, hcurr]
  | clearTerminal => exact absurd rfl he
  | histCopyFrom src =>
    rw [exec_histCopyFrom hret, exec_histCopyFrom hret']
    exact congrArg some (view_keys _ h)
  | switchTerminals term => exact congrArg (fun l => some (l, term)) hlines

theorem notWrite_eq_false {e : Event} (h : e.notWrite = false) :
    ∃ t bytes, e = .terminalWrite t bytes := by
  cases e with
  | terminalWrite t bytes => exact ⟨t, bytes, rfl⟩
  | _ => cases h

/-- Output to terminals on which nothing has been typed leaves every line as it is. So the calls
between the writes do what they do without them, if no key faults with the writes or without. -/
theorem output_keeps_input {es : List Event} (hclear : ∀ e ∈ es, e ≠ .clearTerminal)
    (hok : system.Allowed WriteOk tm es) (hret : system.Allowed Event.Returns tm es)
    (hret' : system.Allowed Event.Returns tm (es.filter Event.notWrite)) :
    (∀ (t : Fin 3) (bytes : List UInt8), WriteOk tm (.terminalWrite t bytes) →
      (tm.run t (terminalWrite t bytes)).1.lines = tm.lines) ∧
    (system.run tm es).map Terminals.view
      = (system.run tm (es.filter Event.notWrite)).map Terminals.view ∧
    ∀ tm₁ tm₂, system.run tm es = some tm₁ →
      system.run tm (es.filter Event.notWrite) = some tm₂ → ∀ (t : Fin 3) (count : ℤ),
        (terminalRead tm₁ t count).map Prod.snd = (terminalRead tm₂ t count).map Prod.snd := by
  have hviews : (system.run tm es).map Terminals.view
      = (system.run tm (es.filter Event.notWrite)).map Terminals.view := by
    refine Run.System.run_filter ?_ ?_ (hok.and hret) hret' rfl
    · -- a write cannot be seen
      intro e _ hwrite tm hok
      obtain ⟨t, bytes, rfl⟩ := notWrite_eq_false hwrite
      refine ⟨_, rfl, ?_⟩
      show (_, _) = (_, _)
      rw [lines_write hok.1, currTerminal_run]
    · exact fun e he _ tm tm' hok hret h => view_exec (hclear e he) hok.2 hret h
  refine ⟨fun t bytes h => lines_write h bytes, hviews, ?_⟩
  intro tm₁ tm₂ h₁ h₂ t count
  rw [h₁, h₂] at hviews
  have hlines : tm₁.lines = tm₂.lines := congrArg Prod.fst (Option.some.inj hviews)
  have hsnd : ∀ tm : Terminals, (terminalRead tm t count).map Prod.snd
      = (tm.lines.read t count).map Prod.snd := by
    intro tm
    rw [← lines_terminalRead, Option.map_map]
    rfl
  rw [hsnd, hsnd, hlines]

/-- The shell prints its prompt, a command is typed, and another shell prints its prompt. -/
def promptEvents : List Event :=
  [.terminalWrite 0 [0x24], .putChar 0x61, .terminalWrite 1 [0x24], .putChar newLineChar]

theorem output_keeps_input_prompt :
    ∃ tm, system.run terminalOpen promptEvents = some tm ∧
      (terminalRead tm 0 128).map Prod.snd = some [0x61, 0x0a] := by
  have hclear : ∀ e ∈ promptEvents, e ≠ .clearTerminal := by simp [promptEvents]
  have hok : system.Allowed WriteOk terminalOpen promptEvents := by
    refine ⟨rfl, fun _ h₁ => ⟨trivial, fun _ h₂ => ⟨?_, fun _ _ => ⟨trivial, fun _ _ => trivial⟩⟩⟩⟩
    cases h₁
    cases h₂
    rfl
  have hret : system.Allowed Event.Returns terminalOpen promptEvents := by decide
  have hret' : system.Allowed Event.Returns terminalOpen (promptEvents.filter Event.notWrite) := by
    decide
  exact ⟨_, rfl, ((output_keeps_input hclear hok hret hret').2.2 _ _ rfl rfl 0 128).trans rfl⟩

/-- A program prints while a line is being typed. -/
theorem output_drops_input :
    ∃ tm₁ tm₂, system.run terminalOpen [.putChar 0x61, .terminalWrite 0 [0x78], .putChar 0x62,
        .putChar newLineChar] = some tm₁ ∧
      system.run terminalOpen [.putChar 0x61, .putChar 0x62, .putChar newLineChar] = some tm₂ ∧
      (terminalRead tm₁ 0 128).map Prod.snd = some [0x62, 0x0a] ∧
      (terminalRead tm₂ 0 128).map Prod.snd = some [0x61, 0x62, 0x0a] :=
  ⟨_, _, rfl, rfl, by decide, by decide⟩

end Terminal
end GalapagOS
