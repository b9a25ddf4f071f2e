import GalapagOS.LibC
import Mathlib.Algebra.Group.Int.Defs
import Mathlib.Algebra.Group.Nat.Defs

/-!
# The terminal driver (`terminal.c`)

What `put_char`, `put_char_out` and `clear_terminal` do to a terminal depends only on its
line length and cursor, never on the text in its buffers. A driver function is therefore an
`Action`: the new values of these variables and the other stores it makes, in order. Stores
to the screen are accesses relative to the start of the video page; keyboard output runs them
at `INACTIVE_VID_MEM`, process output at `VID_MEM`.
-/

namespace GalapagOS
namespace Terminal

open Memory

/-! ## Constants -/

/-- For the numerals of the three terminals. -/
instance instNeZeroTerminals : @NeZero ℕ Zero.ofOfNat0 3 := ⟨nofun⟩

def width : ℤ := 80
def height : ℤ := 25
def bufferLimit : ℤ := 128
def asciiSpace : UInt8 := 32
def backspace : UInt8 := 0x08
def tab : UInt8 := 0x09
def newLineChar : UInt8 := 0x0a

/-- `INDEX(x, y)` -/
def index (x y : ℤ) : ℤ := x + width * y

/-! ## Variables and stores -/

/-- One terminal's entries of the arrays the driver functions read. -/
structure Vars where
  linelength : ℤ := 0
  currX : ℤ := 0
  currY : ℤ := 0
deriving DecidableEq, Repr

/-- A store of the driver, for the terminal it works on. -/
inductive Effect where
  /-- accesses to the video page -/
  | screen (ops : List (Op UInt8))
  /-- `linebuffer[t][i] = b` -/
  | line (i : ℤ) (b : UInt8)
  /-- `lastlinebuffer[t][i] = linebuffer[t][i]; linebuffer[t][i] = '\0'` -/
  | commit (i : ℤ)
  /-- `update_cursor(row, col)` -/
  | cursor (row col : ℤ)
  /-- `lastlinelength[t] = n` -/
  | lastlinelength (n : ℤ)
  /-- `linestart[t] = n` -/
  | linestart (n : ℤ)
  /-- `rd[t] = n` -/
  | rd (n : ℤ)

/-- A driver function: new variables, and stores in program order. -/
abbrev Action : Type := Vars → Vars × List Effect

/-- One after the other. -/
def Action.seq (f g : Action) : Action := fun v =>
  ((g (f v).1).1, (f v).2 ++ (g (f v).1).2)

/-- Under a condition on the variables. -/
def Action.when (c : Vars → Prop) [DecidablePred c] (f : Action) : Action := fun v =>
  if c v then f v else (v, [])

/-! ## Screen accesses -/

/-- The colour of a terminal; other numbers leave `fore` as it is. -/
def fore (t : ℤ) : Option UInt8 :=
  if t = 0 then some 0xe else if t = 1 then some 2 else if t = 2 then some 3 else none

/-- The offset of a cell in the video page, as a 32-bit number. -/
def cellOffset (idx : ℤ) : ℕ := (2 * idx % 2 ^ 32).toNat

/-- `data->character = c; data->fore = ..; data->back = BLACK;` -/
def cellOps (t : ℤ) (idx : ℤ) (c : UInt8) : List (Op UInt8) :=
  .write (cellOffset idx) [c] ::
    ((fore t).map fun f => Op.modify (cellOffset idx + 1) fun b => (b &&& 0xf0) ||| f).toList ++
    [.modify (cellOffset idx + 1) fun b => b &&& 0x0f]

/-- `*data = blank[t];` with the `blank` that `terminal_open` sets up. -/
def blankOps (t : ℤ) (idx : ℤ) : List (Op UInt8) :=
  [.write (cellOffset idx) [asciiSpace, (fore t).getD 0]]

/-- The copy and the fill of `scroll_line`, by `i` rows. -/
def scrollOps (t : ℤ) (i : ℤ) : List (Op UInt8) :=
  memcpy 0 (i * width * 2 % 2 ^ 32).toNat ((height - i) * width * 2 % 2 ^ 32).toNat ++
    memsetWord (2 * (height - i) * width % 2 ^ 32).toNat asciiSpace ((fore t).getD 0) 80

/-! ## The driver functions -/

/-- `scroll_line`, and the two statements after each of its calls. -/
def scrollLine (t : ℤ) : Action := fun v =>
  let i := v.currY - height + 1
  ({ v with currY := height - 1 },
    [.screen (scrollOps t i), .cursor (height - 1) v.currX])

/-- The start of a new row when the cursor has run past the last column. -/
def wrapLine : Action := fun v =>
  ({ v with currX := 0, currY := v.currY + 1 }, [.cursor (v.currY + 1) 0])

/-- A tab: eight blanks on the line, none on the screen. -/
def typeTab : Action := fun v =>
  ({ v with currX := v.currX + 8, linelength := v.linelength + 8 },
    (List.range 8).map (fun j : ℕ => .line (v.linelength + j) asciiSpace) ++
      [.cursor v.currY (v.currX + 8)])

/-- A printable character, drawn at the cell `data`. -/
def typePrintable (t : ℤ) (c : UInt8) (data : ℤ) : Action := fun v =>
  ({ v with currX := v.currX + 1, linelength := v.linelength + 1 },
    [.line v.linelength c, .screen (cellOps t data c), .cursor v.currY (v.currX + 1)])

/-- The branch of `put_char` for a line that is not full. `char` is signed, so bytes from
0x80 on are below `' '`. -/
def typeChar (t : ℤ) (c : UInt8) (data : ℤ) : Action :=
  (Action.when (fun _ => c = tab) typeTab).seq <|
  (Action.when (fun v => width ≤ v.currX) wrapLine).seq <|
  Action.when (fun _ => asciiSpace ≤ c ∧ c < 0x80) (typePrintable t c data)

/-- The backspace branch of `put_char`. -/
def eraseChar (t : ℤ) : Action := fun v =>
  let x := if 0 < v.linelength then v.currX - 1 else v.currX
  let len := if 0 < v.linelength then v.linelength - 1 else v.linelength
  ({ v with currX := x, linelength := len },
    [.screen (blankOps t (index x v.currY)), .line len 0, .cursor v.currY x])

/-- The newline branch of `put_char`: the line becomes the last line. -/
def enterLine (c : UInt8) : Action := fun v =>
  let last := v.linelength + 1
  ({ linelength := 0, currX := 0, currY := v.currY + 1 },
    [.line v.linelength c, .lastlinelength last, .linestart 0] ++
      ((List.range last.toNat).map fun j : ℕ => Effect.commit j) ++
      [.rd 1, .cursor (v.currY + 1) 0])

/-- `put_char` on terminal `t`. The cell is computed before the cursor wraps. -/
def putChar (t : ℤ) (c : UInt8) : Action := fun v =>
  ((Action.when (fun v => v.linelength < bufferLimit)
      (typeChar t c (index v.currX v.currY))).seq <|
    (Action.when (fun _ => c = backspace) (eraseChar t)).seq <|
    (Action.when (fun _ => c = newLineChar) (enterLine c)).seq <|
    Action.when (fun v => height ≤ v.currY) (scrollLine t)) v

/-- The cell that `put_char` stores to, if it stores to the screen. -/
def keyCell (c : UInt8) (v : Vars) : Option ℤ :=
  if c = backspace then
    let w := (Action.when (fun v => v.linelength < bufferLimit ∧ width ≤ v.currX) wrapLine v).1
    some (index (if 0 < w.linelength then w.currX - 1 else w.currX) w.currY)
  else if v.linelength < bufferLimit ∧ asciiSpace ≤ c ∧ c < 0x80 then some (index v.currX v.currY)
  else none

/-- The store is not before the first cell. `put_char` draws through 0xb7000, and the page before it
is not mapped. -/
def KeyReturns (c : UInt8) (v : Vars) : Prop := ∀ i ∈ keyCell c v, 0 ≤ i

instance (c : UInt8) (v : Vars) : Decidable (KeyReturns c v) :=
  inferInstanceAs (Decidable (∀ i ∈ keyCell c v, 0 ≤ i))

/-- `put_char` up to a store before the first cell, of a printable character or of a blank. -/
def putCharFault (c : UInt8) : Action :=
  (Action.when (fun v => v.linelength < bufferLimit)
    ((Action.when (fun v => width ≤ v.currX) wrapLine).seq <|
      Action.when (fun _ => asciiSpace ≤ c ∧ c < 0x80) fun v => (v, [.line v.linelength c]))).seq <|
  Action.when (fun _ => c = backspace) fun v =>
    ({ v with currX := if 0 < v.linelength then v.currX - 1 else v.currX }, [])

/-- The character branch of `put_char_out`. -/
def drawChar (t : ℤ) (c : UInt8) (data : ℤ) : Action := fun v =>
  if c = newLineChar then
    ({ v with linelength := 0, currX := 0, currY := v.currY + 1 }, [.cursor (v.currY + 1) 0])
  else
    ({ v with currX := v.currX + 1, linelength := v.linelength + 1 },
      [.screen (cellOps t data c), .linestart (v.currX + 1), .cursor v.currY (v.currX + 1)])

/-- `put_char_out` for a process of terminal `t`. -/
def putCharOut (t : ℤ) (c : UInt8) : Action := fun v =>
  ((Action.when (fun v => width ≤ v.currX) (Action.seq (fun v => (v, [.linestart 0])) wrapLine)).seq <|
    (drawChar t c (index v.currX v.currY)).seq <|
    Action.when (fun v => height ≤ v.currY) (scrollLine t)) v

/-- The loop of `terminal_write` and the statement after it. -/
def terminalWrite (t : ℤ) : List UInt8 → Action
  | [] => fun v => ({ v with linelength := 0 }, [])
  | c :: cs => if c = 0 then terminalWrite t cs else (putCharOut t c).seq (terminalWrite t cs)

/-- `clear_terminal` on terminal `t`: nothing happens when the cursor is off the screen. -/
def clearTerminal (t : ℤ) : Action := fun v =>
  if v.currX < 0 ∨ width ≤ v.currX ∨ v.currY < 0 ∨ height ≤ v.currY then (v, [])
  else
    ({},
      (List.range 2000).map (fun n : ℕ => .screen (cellOps t n asciiSpace)) ++
        (List.range 128).map (fun i : ℕ => .line i 0) ++
        [.linestart 0, .lastlinelength 0, .rd 0])

/-! ## All terminals -/

/-- The driver's variables. The rows of the buffers follow each other in memory, 129 bytes
each, so they are indexed through. -/
structure Terminals where
  currTerminal : Fin 3
  vars : ℤ → Vars
  lastlinelength : ℤ → ℤ
  linestart : ℤ → ℤ
  rd : ℤ → ℤ
  linebuffer : ℤ → UInt8
  lastlinebuffer : ℤ → UInt8
  /-- the position last programmed into the VGA registers -/
  cursor : ℕ

/-- The position of `linebuffer[t][i]`. -/
def slot (t i : ℤ) : ℤ := 129 * t + i

/-- A store for terminal `t`, except to the screen. -/
def Effect.apply (t : ℤ) : Effect → Terminals → Terminals
  | .screen _, tm => tm
  | .line i b, tm => { tm with linebuffer := Function.update tm.linebuffer (slot t i) b }
  | .commit i, tm =>
    { tm with
      lastlinebuffer :=
        Function.update tm.lastlinebuffer (slot t i) (tm.linebuffer (slot t i))
      linebuffer := Function.update tm.linebuffer (slot t i) 0 }
  | .cursor row col, tm => { tm with cursor := ((row * width + col) % 2 ^ 16).toNat }
  | .lastlinelength n, tm => { tm with lastlinelength := Function.update tm.lastlinelength t n }
  | .linestart n, tm => { tm with linestart := Function.update tm.linestart t n }
  | .rd n, tm => { tm with rd := Function.update tm.rd t n }

/-- The screen accesses among some stores. -/
def screenOps (es : List Effect) : List (Op UInt8) :=
  es.flatMap fun
    | .screen ops => ops
    | _ => []

/-- Runs a driver function on terminal `t`: the new variables, and the accesses to the
screen that remain to be made. -/
def Terminals.run (tm : Terminals) (t : ℤ) (f : Action) : Terminals × List (Op UInt8) :=
  let r := f (tm.vars t)
  let tm' := r.2.foldl (fun tm e => e.apply t tm) tm
  ({ tm' with vars := Function.update tm.vars t r.1 }, screenOps r.2)

/-- `terminal_open`, as far as its variables go. -/
def terminalOpen : Terminals where
  currTerminal := 0
  vars _ := {}
  lastlinelength _ := 0
  linestart _ := 0
  rd _ := 0
  linebuffer _ := 0
  lastlinebuffer _ := 0
  cursor := 0

/-- `terminal_close` for a process of terminal `t`. -/
def terminalClose (tm : Terminals) (t : ℤ) : Terminals :=
  { tm with
    vars := Function.update tm.vars t {}
    lastlinelength := Function.update tm.lastlinelength t 0
    linestart := Function.update tm.linestart t 0
    rd := Function.update tm.rd t 0 }

/-- The copy loop of `terminal_read` from index `i`, with `n` characters left at most. -/
def readLine (last : ℤ → UInt8) (t : ℤ) : ℕ → ℤ → (ℤ → UInt8) × List UInt8
  | 0, _ => (last, [])
  | n + 1, i =>
    if last (slot t i) = 0 then (last, [])
    else
      let r := readLine (Function.update last (slot t i) 0) t n (i + 1)
      (r.1, last (slot t i) :: r.2)

/-- `terminal_read` for a process of terminal `t`: the bytes stored in the buffer. It waits
until a line has been entered, and `none` says that it is still waiting. -/
def terminalRead (tm : Terminals) (t : ℤ) (count : ℤ) : Option (Terminals × List UInt8) :=
  if tm.rd t ≠ 1 then none
  else
    let len := tm.lastlinelength t
    let r := readLine tm.lastlinebuffer t (min len count).toNat 0
    -- the rest of a line that is too long is dropped
    let last := (List.range (len - count).toNat).foldl
      (fun last (j : ℕ) => Function.update last (slot t (count + j)) 0) r.1
    some ({ tm with
      lastlinebuffer := last
      rd := Function.update tm.rd t 0
      lastlinelength := Function.update tm.lastlinelength t 0 }, r.2)

/-! ## A driver function works on one terminal -/

theorem Effect.currTerminal_apply (t : ℤ) (e : Effect) (tm : Terminals) :
    (e.apply t tm).currTerminal = tm.currTerminal := by
  cases e <;> rfl

@[simp] theorem currTerminal_run (tm : Terminals) (t : ℤ) (f : Action) :
    (tm.run t f).1.currTerminal = tm.currTerminal := by
  have hfold : ∀ (es : List Effect) (tm : Terminals),
      (es.foldl (fun tm e => e.apply t tm) tm).currTerminal = tm.currTerminal := by
    intro es
    induction es with
    | nil => exact fun _ => rfl
    | cons e es ih =>
      intro tm
      rw [List.foldl_cons, ih, Effect.currTerminal_apply]
  exact hfold _ tm

theorem vars_run_self (tm : Terminals) (t : ℤ) (f : Action) :
    (tm.run t f).1.vars t = (f (tm.vars t)).1 :=
  Function.update_self ..

end Terminal
end GalapagOS
