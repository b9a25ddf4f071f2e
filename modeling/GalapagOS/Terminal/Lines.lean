import GalapagOS.Lib.Buffer
import GalapagOS.Terminal.Common

/-!
# The lines

The driver keeps the line that is being typed and the last line that was entered, for each
terminal. What a key or an output does to them depends on the length of the line only, not on the
cursor (`LineAction`), so the lines can be followed without the screen. A key changes the row of
its own terminal, as long as its stores stay inside the row.
-/

namespace GalapagOS
namespace Terminal

open Function

variable {tm : Terminals} {t : ℤ} {c : UInt8}

/-! ## The line variables -/

/-- The variables of the driver that hold lines. -/
structure Lines where
  linelength : ℤ → ℤ
  lastlinelength : ℤ → ℤ
  rd : ℤ → ℤ
  linebuffer : ℤ → UInt8
  lastlinebuffer : ℤ → UInt8

def Terminals.lines (tm : Terminals) : Lines where
  linelength t := (tm.vars t).linelength
  lastlinelength := tm.lastlinelength
  rd := tm.rd
  linebuffer := tm.linebuffer
  lastlinebuffer := tm.lastlinebuffer

/-- A store of the driver, as far as the lines go. -/
def Effect.onLines (t : ℤ) : Effect → Lines → Lines
  | .line i b, l => { l with linebuffer := update l.linebuffer (slot t i) b }
  | .commit i, l =>
    { l with
      lastlinebuffer := update l.lastlinebuffer (slot t i) (l.linebuffer (slot t i))
      linebuffer := update l.linebuffer (slot t i) 0 }
  | .lastlinelength n, l => { l with lastlinelength := update l.lastlinelength t n }
  | .rd n, l => { l with rd := update l.rd t n }
  | .screen _, l => l
  | .cursor _ _, l => l
  | .linestart _, l => l

/-- The stores that change a line. -/
def Effect.isLine : Effect → Bool
  | .line _ _ | .commit _ | .lastlinelength _ | .rd _ => true
  | _ => false

def lineEffects (es : List Effect) : List Effect := es.filter Effect.isLine

/-- Some stores, one after the other. -/
def Lines.store (l : Lines) (t : ℤ) (es : List Effect) : Lines :=
  es.foldl (fun l e => e.onLines t l) l

theorem lines_foldl (t : ℤ) (es : List Effect) :
    ∀ tm : Terminals, (es.foldl (fun tm e => e.apply t tm) tm).lines = tm.lines.store t es := by
  induction es with
  | nil => exact fun _ => rfl
  | cons e es ih =>
    intro tm
    have happly : (e.apply t tm).lines = e.onLines t tm.lines := by cases e <;> rfl
    rw [List.foldl_cons, ih, happly]
    rfl

theorem Lines.store_lineEffects (t : ℤ) (es : List Effect) :
    ∀ l : Lines, l.store t (lineEffects es) = l.store t es := by
  induction es with
  | nil => exact fun _ => rfl
  | cons e es ih =>
    intro l
    cases e <;> exact ih _

theorem Lines.store_append (l : Lines) (t : ℤ) (es es' : List Effect) :
    l.store t (es ++ es') = (l.store t es).store t es' :=
  List.foldl_append

/-- Any driver function, on the lines. -/
theorem Terminals.lines_run (tm : Terminals) (t : ℤ) (f : Action) :
    (tm.run t f).1.lines = { tm.lines.store t (f (tm.vars t)).2 with
      linelength := update tm.lines.linelength t (f (tm.vars t)).1.linelength } := by
  have hlen : (fun t' => (update tm.vars t (f (tm.vars t)).1 t').linelength)
      = update tm.lines.linelength t (f (tm.vars t)).1.linelength := by
    funext t'
    rw [update_apply, update_apply]
    split <;> rfl
  rw [← hlen, ← lines_foldl]
  rfl

/-! ## Rows -/

/-- The row of a terminal in a buffer. -/
def row (t : ℤ) (buf : ℤ → UInt8) : ℤ → UInt8 := fun i => buf (slot t i)

theorem row_update_self (t : ℤ) (buf : ℤ → UInt8) (i : ℤ) (b : UInt8) :
    row t (update buf (slot t i) b) = update (row t buf) i b := by
  funext j
  unfold row
  by_cases hj : j = i
  · rw [hj, update_self, update_self]
  · rw [update_of_ne hj, update_of_ne fun h => hj (by unfold slot at h; omega)]

/-- The indices of a row. -/
def InRow (i : ℤ) : Prop := 0 ≤ i ∧ i ≤ 128

/-- A store inside one row leaves the others alone. -/
theorem row_update_ne {t t' i j : ℤ} (ht : t' ≠ t) (hi : InRow i) (hj : InRow j)
    (buf : ℤ → UInt8) (b : UInt8) : row t' (update buf (slot t i) b) j = row t' buf j := by
  unfold InRow at hi hj
  refine update_of_ne (fun h => ht ?_) b buf
  unfold slot at h
  omega

/-! ## Driver functions on the lines -/

/-- What the function does to the lines depends on the length of the line: the new length, and the
stores. -/
structure LineAction (f : Action) (len : ℤ → ℤ) (stores : ℤ → List Effect) : Prop where
  length : ∀ v, (f v).1.linelength = len v.linelength
  stores : ∀ v, lineEffects (f v).2 = stores v.linelength

/-- The lines after such a function. -/
def Lines.act (l : Lines) (t : ℤ) (len : ℤ → ℤ) (stores : ℤ → List Effect) : Lines :=
  { l.store t (stores (l.linelength t)) with
    linelength := update l.linelength t (len (l.linelength t)) }

section LineAction

variable {f g : Action} {len len' : ℤ → ℤ} {stores stores' : ℤ → List Effect}

theorem LineAction.lines_run (h : LineAction f len stores) (tm : Terminals) (t : ℤ) :
    (tm.run t f).1.lines = tm.lines.act t len stores := by
  rw [Terminals.lines_run, ← Lines.store_lineEffects, h.stores, h.length]
  rfl

theorem LineAction.seq (hf : LineAction f len stores) (hg : LineAction g len' stores') :
    LineAction (f.seq g) (fun n => len' (len n)) fun n => stores n ++ stores' (len n) where
  length v := by
    show (g (f v).1).1.linelength = _
    rw [hg.length, hf.length]
  stores v := by
    show lineEffects ((f v).2 ++ (g (f v).1).2) = _
    rw [lineEffects, List.filter_append]
    show lineEffects _ ++ lineEffects _ = _
    rw [hf.stores, hg.stores, hf.length]

theorem LineAction.when (hf : LineAction f len stores) (p : ℤ → Prop) [DecidablePred p] :
    LineAction (Action.when (fun v => p v.linelength) f) (fun n => if p n then len n else n)
      fun n => if p n then stores n else [] where
  length v := by
    unfold Action.when
    split
    · exact hf.length v
    · rfl
  stores v := by
    unfold Action.when
    split
    · exact hf.stores v
    · rfl

/-- A function that leaves the lines alone may also depend on the cursor. -/
theorem LineAction.whenQuiet (hf : LineAction f (fun n => n) fun _ => []) (p : Vars → Prop)
    [DecidablePred p] : LineAction (Action.when p f) (fun n => n) fun _ => [] where
  length v := by
    unfold Action.when
    split
    · exact hf.length v
    · rfl
  stores v := by
    unfold Action.when
    split
    · exact hf.stores v
    · rfl

end LineAction

theorem wrapLine_line : LineAction wrapLine (fun n => n) fun _ => [] := ⟨fun _ => rfl, fun _ => rfl⟩

theorem scrollLine_line (t : ℤ) : LineAction (scrollLine t) (fun n => n) fun _ => [] :=
  ⟨fun _ => rfl, fun _ => rfl⟩

/-! ## Keys -/

/-- The bytes that are typed as they are. -/
def Printable (c : UInt8) : Prop := asciiSpace ≤ c ∧ c < 0x80

instance (c : UInt8) : Decidable (Printable c) := inferInstanceAs (Decidable (_ ∧ _))

/-- The length of the line after a key. -/
def newLength (c : UInt8) (n : ℤ) : ℤ :=
  if c = newLineChar then 0
  else if c = backspace then if 0 < n then n - 1 else n
  else if n < bufferLimit then if c = tab then n + 8 else if Printable c then n + 1 else n
  else n

/-- The stores of a newline on a line of length `n`. -/
def enterStores (c : UInt8) (n : ℤ) : List Effect :=
  [.line n c, .lastlinelength (n + 1)] ++
    ((List.range (n + 1).toNat).map fun j : ℕ => Effect.commit j) ++ [.rd 1]

/-- The stores of a key on a line of length `n`. -/
def lineStores (c : UInt8) (n : ℤ) : List Effect :=
  if c = newLineChar then enterStores c n
  else if c = backspace then [.line (if 0 < n then n - 1 else n) 0]
  else if n < bufferLimit then
    if c = tab then (List.range 8).map fun j : ℕ => .line (n + j) asciiSpace
    else if Printable c then [.line n c] else []
  else []

theorem typeTab_line : LineAction typeTab (fun n => n + 8)
    fun n => (List.range 8).map fun j : ℕ => .line (n + j) asciiSpace :=
  ⟨fun _ => rfl, fun _ => rfl⟩

theorem typePrintable_line (t : ℤ) (c : UInt8) (data : ℤ) :
    LineAction (typePrintable t c data) (fun n => n + 1) fun n => [.line n c] :=
  ⟨fun _ => rfl, fun _ => rfl⟩

theorem eraseChar_line (t : ℤ) : LineAction (eraseChar t) (fun n => if 0 < n then n - 1 else n)
    fun n => [.line (if 0 < n then n - 1 else n) 0] :=
  ⟨fun _ => rfl, fun _ => rfl⟩

theorem enterLine_line (c : UInt8) : LineAction (enterLine c) (fun _ => 0) (enterStores c) where
  length _ := rfl
  stores v := by
    have hcommits : lineEffects ((List.range (v.linelength + 1).toNat).map
        fun j : ℕ => Effect.commit j)
        = (List.range (v.linelength + 1).toNat).map fun j : ℕ => Effect.commit j := by
      rw [lineEffects, List.filter_eq_self]
      intro e he
      obtain ⟨j, -, rfl⟩ := List.mem_map.mp he
      rfl
    show lineEffects ([.line v.linelength c, .lastlinelength (v.linelength + 1),
      .linestart 0] ++ ((List.range (v.linelength + 1).toNat).map fun j : ℕ => Effect.commit j) ++
      [.rd 1, .cursor (v.currY + 1) 0]) = _
    unfold lineEffects at hcommits ⊢
    rw [List.filter_append, List.filter_append, hcommits]
    rfl

theorem newLineChar_kind :
    newLineChar ≠ backspace ∧ newLineChar ≠ tab ∧ ¬Printable newLineChar := by decide

theorem backspace_kind : backspace ≠ newLineChar ∧ backspace ≠ tab ∧ ¬Printable backspace := by decide

theorem tab_kind : tab ≠ newLineChar ∧ tab ≠ backspace ∧ ¬Printable tab := by decide

/-- The branch for a line that is not full. -/
theorem typeChar_line (t : ℤ) (c : UInt8) (data : ℤ) :
    LineAction (typeChar t c data)
      (fun n => if c = tab then n + 8 else if Printable c then n + 1 else n)
      fun n => if c = tab then (List.range 8).map fun j : ℕ => .line (n + j) asciiSpace
        else if Printable c then [.line n c] else [] := by
  have h := (typeTab_line.when fun _ => c = tab).seq ((wrapLine_line.whenQuiet
    fun v => width ≤ v.currX).seq ((typePrintable_line t c data).when fun _ => Printable c))
  refine ⟨fun v => (h.length v).trans ?_, fun v => (h.stores v).trans ?_⟩
  all_goals
    by_cases htab : c = tab
    · simp [htab, tab_kind]
    · by_cases hp : Printable c <;> simp [htab, hp]

theorem putChar_line (t : ℤ) (c : UInt8) : LineAction (putChar t c) (newLength c) (lineStores c) := by
  have h := fun data => ((typeChar_line t c data).when fun n => n < bufferLimit).seq
    (((eraseChar_line t).when fun _ => c = backspace).seq
      (((enterLine_line c).when fun _ => c = newLineChar).seq
        ((scrollLine_line t).whenQuiet fun v => height ≤ v.currY)))
  refine ⟨fun v => ((h (index v.currX v.currY)).length v).trans ?_,
    fun v => ((h (index v.currX v.currY)).stores v).trans ?_⟩ <;>
    dsimp only [newLength, lineStores]
  -- the kinds of keys exclude each other
  all_goals
    by_cases hnl : c = newLineChar
    · simp [hnl, newLineChar_kind]
    · by_cases hbs : c = backspace
      · simp [hbs, backspace_kind]
      · simp [hnl, hbs]

/-- `put_char`, on the displayed terminal. -/
def Terminals.key (tm : Terminals) (c : UInt8) : Terminals :=
  (tm.run tm.currTerminal (putChar tm.currTerminal c)).1

/-- Some keys, one after the other. -/
def Terminals.keys (tm : Terminals) (cs : List UInt8) : Terminals := cs.foldl Terminals.key tm

theorem currTerminal_key (tm : Terminals) (c : UInt8) :
    (tm.key c).currTerminal = tm.currTerminal :=
  currTerminal_run ..

theorem currTerminal_keys (cs : List UInt8) :
    ∀ tm : Terminals, (tm.keys cs).currTerminal = tm.currTerminal := by
  induction cs with
  | nil => exact fun _ => rfl
  | cons c cs ih => exact fun tm => (ih (tm.key c)).trans (currTerminal_key tm c)

theorem lines_key (tm : Terminals) (c : UInt8) :
    (tm.key c).lines = tm.lines.act tm.currTerminal (newLength c) (lineStores c) :=
  (putChar_line ..).lines_run ..

/-! ## Keys that fault -/

/-- `put_char` on the displayed terminal, and whether it returns. -/
def Terminals.press (tm : Terminals) (c : UInt8) : Terminals × Bool :=
  if KeyReturns c (tm.vars tm.currTerminal) then (tm.key c, true)
  else ((tm.run tm.currTerminal (putCharFault c)).1, false)

/-- Some keys, up to the first one that faults. -/
def Terminals.presses : Terminals → List UInt8 → Terminals × Bool
  | tm, [] => (tm, true)
  | tm, c :: cs => if (tm.press c).2 = true then (tm.press c).1.presses cs else tm.press c

/-- Every key of a sequence returns. -/
def KeysReturn : Terminals → List UInt8 → Prop
  | _, [] => True
  | tm, c :: cs => KeyReturns c (tm.vars tm.currTerminal) ∧ KeysReturn (tm.key c) cs

instance decidableKeysReturn : ∀ tm cs, Decidable (KeysReturn tm cs)
  | _, [] => inferInstanceAs (Decidable True)
  | tm, c :: cs =>
    have := decidableKeysReturn (tm.key c) cs
    inferInstanceAs (Decidable (_ ∧ _))

theorem press_of_returns (h : KeyReturns c (tm.vars tm.currTerminal)) :
    tm.press c = (tm.key c, true) :=
  if_pos h

theorem press_of_faults (h : ¬KeyReturns c (tm.vars tm.currTerminal)) :
    tm.press c = ((tm.run tm.currTerminal (putCharFault c)).1, false) :=
  if_neg h

theorem presses_of_returns {cs : List UInt8} :
    ∀ {tm : Terminals}, KeysReturn tm cs → tm.presses cs = (tm.keys cs, true) := by
  induction cs with
  | nil => exact fun _ => rfl
  | cons c cs ih =>
    intro tm h
    rw [Terminals.presses, press_of_returns h.1, if_pos rfl]
    exact ih h.2

theorem presses_returns_iff {cs : List UInt8} :
    ∀ {tm : Terminals}, (tm.presses cs).2 = true ↔ KeysReturn tm cs := by
  induction cs with
  | nil => exact ⟨fun _ => trivial, fun _ => rfl⟩
  | cons c cs ih =>
    intro tm
    rw [Terminals.presses]
    by_cases h : KeyReturns c (tm.vars tm.currTerminal)
    · rw [press_of_returns h, if_pos rfl, ih]
      exact ⟨fun hrest => ⟨h, hrest⟩, fun hkeys => hkeys.2⟩
    · rw [press_of_faults h, if_neg Bool.false_ne_true]
      exact ⟨fun hfalse => absurd hfalse Bool.false_ne_true, fun hkeys => absurd hkeys.1 h⟩

theorem currTerminal_press (tm : Terminals) (c : UInt8) :
    (tm.press c).1.currTerminal = tm.currTerminal := by
  unfold Terminals.press
  split
  · exact currTerminal_key tm c
  · exact currTerminal_run ..

theorem currTerminal_presses (cs : List UInt8) :
    ∀ tm : Terminals, (tm.presses cs).1.currTerminal = tm.currTerminal := by
  induction cs with
  | nil => exact fun _ => rfl
  | cons c cs ih =>
    intro tm
    rw [Terminals.presses]
    split
    · exact (ih _).trans (currTerminal_press tm c)
    · exact currTerminal_press tm c

/-- A newline stores nothing to the screen, nor does a key without a character. -/
theorem keyReturns_of_quiet (hc : c = newLineChar ∨ c = 0 ∨ c = tab) (v : Vars) : KeyReturns c v := by
  have hcell : keyCell c v = none := by
    rcases hc with rfl | rfl | rfl <;> simp [keyCell, newLineChar, backspace, tab, asciiSpace]
  intro i hi
  rw [hcell] at hi
  cases hi

/-- A cell at the cursor, and one before it for a backspace. -/
theorem keyReturns_of_index {v : Vars} (hy : 0 ≤ v.currY) (hcell : 0 ≤ index v.currX v.currY)
    (hback : c = backspace → 0 < v.linelength → 0 < index v.currX v.currY) : KeyReturns c v := by
  intro i hi
  unfold keyCell at hi
  split at hi
  · rename_i hc
    have hback := hback hc
    obtain rfl := Option.mem_some_iff.mp hi
    unfold Action.when wrapLine index width at *
    -- the cursor may wrap first, to a row that has one before it
    split <;> dsimp only <;> split <;> omega
  · split at hi
    · obtain rfl := Option.mem_some_iff.mp hi
      exact hcell
    · cases hi

/-- The stores of a key that faults: a character is on the line before it is drawn. -/
def faultStores (c : UInt8) (n : ℤ) : List Effect :=
  if n < bufferLimit ∧ Printable c then [.line n c] else []

theorem putCharFault_line (c : UInt8) :
    LineAction (putCharFault c) (fun n => n) (faultStores c) := by
  have hstore : LineAction (fun v => (v, [.line v.linelength c])) (fun n => n) fun n => [.line n c] :=
    ⟨fun _ => rfl, fun _ => rfl⟩
  have hback : LineAction (fun v => ({ v with
      currX := if 0 < v.linelength then v.currX - 1 else v.currX }, [])) (fun n => n) fun _ => [] :=
    ⟨fun _ => rfl, fun _ => rfl⟩
  have h := (((wrapLine_line.whenQuiet fun v => width ≤ v.currX).seq
    (hstore.when fun _ => Printable c)).when fun n => n < bufferLimit).seq
      (hback.whenQuiet fun _ => c = backspace)
  refine ⟨fun v => (h.length v).trans ?_, fun v => (h.stores v).trans ?_⟩
  · simp
  · unfold faultStores
    by_cases hlt : v.linelength < bufferLimit <;> by_cases hp : Printable c <;> simp [hlt, hp]

/-! ## Output -/

theorem putCharOut_line (t : ℤ) (c : UInt8) :
    LineAction (putCharOut t c) (fun n => if c = newLineChar then 0 else n + 1) fun _ => [] := by
  have hdraw : ∀ data, LineAction (drawChar t c data)
      (fun n => if c = newLineChar then 0 else n + 1) fun _ => [] := by
    intro data
    constructor <;> intro v <;> unfold drawChar <;> split <;> rfl
  have hstart : LineAction (fun v => (v, [.linestart 0])) (fun n => n) fun _ => [] :=
    ⟨fun _ => rfl, fun _ => rfl⟩
  have h := fun data => ((hstart.seq wrapLine_line).whenQuiet fun v => width ≤ v.currX).seq
    ((hdraw data).seq ((scrollLine_line t).whenQuiet fun v => height ≤ v.currY))
  exact ⟨fun v => (h (index v.currX v.currY)).length v, fun v => (h (index v.currX v.currY)).stores v⟩

/-- Output leaves the buffers alone and the line empty. -/
theorem terminalWrite_line (t : ℤ) (bytes : List UInt8) :
    LineAction (terminalWrite t bytes) (fun _ => 0) fun _ => [] := by
  induction bytes with
  | nil => exact ⟨fun _ => rfl, fun _ => rfl⟩
  | cons c bytes ih =>
    unfold terminalWrite
    split
    · exact ih
    · exact (putCharOut_line t c).seq ih

/-! ## Reading -/

/-- Stores of zero to some cells of a row. -/
def wipe (t : ℤ) (buf : ℤ → UInt8) (is : List ℤ) : ℤ → UInt8 :=
  is.foldl (fun buf i => update buf (slot t i) 0) buf

/-- The indices that the copy loop of `terminal_read` stores to, from `i` on. -/
def copyIndices (last : ℤ → UInt8) (t : ℤ) : ℕ → ℤ → List ℤ
  | 0, _ => []
  | n + 1, i =>
    if last (slot t i) = 0 then []
    else i :: copyIndices (update last (slot t i) 0) t n (i + 1)

/-- The indices that `terminal_read` stores to, in `lastlinebuffer[t]`. -/
def Lines.readIndices (l : Lines) (t count : ℤ) : List ℤ :=
  copyIndices l.lastlinebuffer t (min (l.lastlinelength t) count).toNat 0 ++
    (List.range (l.lastlinelength t - count).toNat).map fun j : ℕ => count + j

/-- `terminal_read`, on the lines. -/
def Lines.read (l : Lines) (t count : ℤ) : Option (Lines × List UInt8) :=
  if l.rd t ≠ 1 then none
  else some ({ l with
    lastlinebuffer := wipe t l.lastlinebuffer (l.readIndices t count)
    rd := update l.rd t 0
    lastlinelength := update l.lastlinelength t 0 },
    (readLine l.lastlinebuffer t (min (l.lastlinelength t) count).toNat 0).2)

theorem readLine_fst (t : ℤ) (n : ℕ) :
    ∀ (last : ℤ → UInt8) (i : ℤ), (readLine last t n i).1 = wipe t last (copyIndices last t n i) := by
  induction n with
  | zero => exact fun _ _ => rfl
  | succ n ih =>
    intro last i
    unfold readLine copyIndices
    split
    · rfl
    · exact ih _ _

theorem mem_copyIndices {t j : ℤ} {n : ℕ} :
    ∀ {last : ℤ → UInt8} {i : ℤ}, j ∈ copyIndices last t n i → i ≤ j ∧ j < i + n := by
  induction n with
  | zero => exact fun h => absurd h List.not_mem_nil
  | succ n ih =>
    intro last i h
    unfold copyIndices at h
    split at h
    · exact absurd h List.not_mem_nil
    · rcases List.mem_cons.mp h with hj | hj
      · omega
      · have := ih hj
        omega

theorem lines_terminalRead (tm : Terminals) (t count : ℤ) :
    (terminalRead tm t count).map (fun r => (r.1.lines, r.2)) = tm.lines.read t count := by
  have hwipe : wipe t tm.lines.lastlinebuffer (tm.lines.readIndices t count)
      = (List.range (tm.lastlinelength t - count).toNat).foldl
          (fun last (j : ℕ) => update last (slot t (count + j)) 0)
          (readLine tm.lastlinebuffer t (min (tm.lastlinelength t) count).toNat 0).1 := by
    rw [Lines.readIndices, wipe, List.foldl_append, List.foldl_map, readLine_fst]
    rfl
  have hread : tm.lines.read t count = if tm.rd t ≠ 1 then none else some (_, _) := rfl
  rw [hread, terminalRead]
  split
  · rfl
  · rw [hwipe]
    rfl

theorem currTerminal_terminalRead {tm' : Terminals} {count : ℤ} {bytes : List UInt8}
    (h : terminalRead tm t count = some (tm', bytes)) : tm'.currTerminal = tm.currTerminal := by
  unfold terminalRead at h
  split at h
  · cases h
  · cases h
    rfl

end Terminal
end GalapagOS
