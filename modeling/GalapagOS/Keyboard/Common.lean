import GalapagOS.Lib.Strings
import GalapagOS.Terminal.Driver
import Mathlib.Data.UInt

/-!
# The keyboard handler and the command history (`int_handlers.c`)

`keyboard_int` reads a scan code, keeps the modifier keys, recalls and commits commands, and then
passes the character of the key to the driver and appends it to two strings: the working line
`curr_cmd` and its entry in the ring `modified_hist`. The ring `hist` keeps the commands that were
committed. The strings of the three arrays follow each other in memory, 128 bytes each, so a store
behind the end of one goes into the next. A page fault of `put_char` ends the handler: what has been
stored stays, and nothing after it is reached.
-/

namespace GalapagOS

open Strings

namespace Keyboard

/-! ## Scan codes -/

def lshift : UInt8 := 0x2a
def rshift : UInt8 := 0x36
def lctrl : UInt8 := 0x1d
def caps : UInt8 := 0x3a
def lalt : UInt8 := 0x38
def up : UInt8 := 0x48
def down : UInt8 := 0x50
def enter : UInt8 := 0x1c
def f1 : UInt8 := 0x3b
def f2 : UInt8 := 0x3c
def f3 : UInt8 := 0x3d
def release : UInt8 := 0x80
def scanLimit : UInt8 := 80
def maxHist : ℕ := 8

/-- `kbdus[0]`, up to `SCAN_LIMIT`; all other entries are 0. -/
def kbdusPlain : List UInt8 :=
  [0, 0x1b, 0x31, 0x32, 0x33, 0x34, 0x35, 0x36, 0x37, 0x38, 0x39, 0x30, 0x2d, 0x3d,
   0x08, 0x09, 0x71, 0x77, 0x65, 0x72, 0x74, 0x79, 0x75, 0x69, 0x6f, 0x70, 0x5b, 0x5d, 0x0a, 0,
   0x61, 0x73, 0x64, 0x66, 0x67, 0x68, 0x6a, 0x6b, 0x6c, 0x3b, 0x27, 0x60, 0,
   0x5c, 0x7a, 0x78, 0x63, 0x76, 0x62, 0x6e, 0x6d, 0x2c, 0x2e, 0x2f, 0, 0x2a, 0, 0x20,
   0, 0, 0, 0, 0, 0, 0, 0, 0, 0, 0, 0, 0, 0, 0, 0, 0x2d, 0, 0, 0, 0x2b, 0, 0]

/-- `kbdus[1]`, with shift, up to `SCAN_LIMIT`; all other entries are 0. -/
def kbdusShift : List UInt8 :=
  [0, 0x1b, 0x21, 0x40, 0x23, 0x24, 0x25, 0x5e, 0x26, 0x2a, 0x28, 0x29, 0x5f, 0x2b,
   0x08, 0x09, 0x51, 0x57, 0x45, 0x52, 0x54, 0x59, 0x55, 0x49, 0x4f, 0x50, 0x7b, 0x7d, 0x0a, 0,
   0x41, 0x53, 0x44, 0x46, 0x47, 0x48, 0x4a, 0x4b, 0x4c, 0x3a, 0x22, 0x7e, 0,
   0x7c, 0x5a, 0x58, 0x43, 0x56, 0x42, 0x4e, 0x4d, 0x3c, 0x3e, 0x3f, 0, 0x2a, 0, 0x20,
   0, 0, 0, 0, 0, 0, 0, 0, 0, 0, 0, 0, 0, 0, 0, 0, 0, 0x2d, 0, 0, 0, 0x2b, 0]

/-- `kbdus[2]`, with caps lock, up to `SCAN_LIMIT`; all other entries are 0. -/
def kbdusCaps : List UInt8 :=
  [0, 0x1b, 0x31, 0x32, 0x33, 0x34, 0x35, 0x36, 0x37, 0x38, 0x39, 0x30, 0x2d, 0x3d,
   0x08, 0x09, 0x51, 0x57, 0x45, 0x52, 0x54, 0x59, 0x55, 0x49, 0x4f, 0x50, 0x5b, 0x5d, 0x0a, 0,
   0x41, 0x53, 0x44, 0x46, 0x47, 0x48, 0x4a, 0x4b, 0x4c, 0x3b, 0x27, 0x60, 0,
   0x5c, 0x5a, 0x58, 0x43, 0x56, 0x42, 0x4e, 0x4d, 0x2c, 0x2e, 0x2f, 0, 0x2a, 0, 0x20,
   0, 0, 0, 0, 0, 0, 0, 0, 0, 0, 0, 0, 0, 0, 0, 0, 0, 0x2d, 0, 0, 0, 0x2b, 0]

/-- `kbdus[3]`, with both, up to `SCAN_LIMIT`; all other entries are 0. -/
def kbdusBoth : List UInt8 :=
  [0, 0x1b, 0x21, 0x40, 0x23, 0x24, 0x25, 0x5e, 0x26, 0x2a, 0x28, 0x29, 0x5f, 0x2b,
   0x08, 0x09, 0x71, 0x77, 0x65, 0x72, 0x74, 0x79, 0x75, 0x69, 0x6f, 0x70, 0x5b, 0x5d, 0x0a, 0,
   0x61, 0x73, 0x64, 0x66, 0x67, 0x68, 0x6a, 0x6b, 0x6c, 0x3a, 0x22, 0x7e, 0,
   0x7c, 0x5a, 0x58, 0x43, 0x56, 0x42, 0x4e, 0x4d, 0x3c, 0x3e, 0x3f, 0, 0x2a, 0, 0x20,
   0, 0, 0, 0, 0, 0, 0, 0, 0, 0, 0, 0, 0, 0, 0, 0, 0, 0x2d, 0, 0, 0, 0x2b, 0]

/-- `kbdus[m][key_scancode]` -/
def kbdus (m : Fin 4) (sc : UInt8) : UInt8 :=
  let table := match m with
    | 0 => kbdusPlain
    | 1 => kbdusShift
    | 2 => kbdusCaps
    | 3 => kbdusBoth
  table.getD sc.toNat 0

/-! ## The arrays of the history -/

/-- `modified_hist`, `hist` and `curr_cmd`. -/
inductive Buffer where
  | modifiedHist
  | hist
  | currCmd
deriving DecidableEq

/-- One string of a terminal. -/
inductive Row where
  | modifiedHist (slot : ℕ)
  | hist (slot : ℕ)
  | currCmd
deriving DecidableEq

def Row.buffer : Row → Buffer
  | .modifiedHist _ => .modifiedHist
  | .hist _ => .hist
  | .currCmd => .currCmd

/-- The position of its first byte in the array. -/
def Row.base (t : Fin 3) : Row → ℕ
  | .modifiedHist slot | .hist slot => 128 * ((maxHist + 1) * t + slot)
  | .currCmd => 128 * t

/-- The number of bytes of an array. -/
def Buffer.size : Buffer → ℕ
  | .modifiedHist | .hist => 3 * (maxHist + 1) * 128
  | .currCmd => 3 * 128

/-- The variables of the history. -/
structure History where
  numHist : Fin 3 → ℕ
  currHist : Fin 3 → ℕ
  minHist : Fin 3 → ℕ
  bytes : Buffer → ℕ → UInt8

/-- A string of terminal `t`, from its first byte on. -/
def History.row (h : History) (t : Fin 3) (r : Row) : ℕ → UInt8 := fun i =>
  h.bytes r.buffer (r.base t + i)

/-- What is stored: a byte, or the byte of the same index in another string. -/
inductive Value where
  | byte (b : UInt8)
  | cell (src : Row)

def Value.at (h : History) (t : Fin 3) (i : ℕ) : Value → UInt8
  | .byte b => b
  | .cell src => h.row t src i

/-- A store of the handler, to byte `index` of a string of the terminal it works on. -/
structure Store where
  row : Row
  index : ℕ
  value : Value

def Store.apply (t : Fin 3) (h : History) (s : Store) : History :=
  { h with
    bytes := Function.update h.bytes s.row.buffer
      (Function.update (h.bytes s.row.buffer) (s.row.base t + s.index)
        (s.value.at h t s.index)) }

/-- Some stores, one after the other. -/
def History.apply (h : History) (t : Fin 3) (stores : List Store) : History :=
  stores.foldl (Store.apply t) h

/-- A loop over the 128 bytes of a string. -/
def rowStores (r : Row) (v : Value) : List Store := (List.range 128).map fun i => ⟨r, i, v⟩

/-- `strlen`; `none` if it runs past the end of the array. -/
def strlen (h : History) (t : Fin 3) (r : Row) : Option ℕ :=
  firstZero (r.buffer.size - r.base t) (h.row t r)

/-- Static variables start at zero. -/
def staticHistory : History := ⟨fun _ => 0, fun _ => 0, fun _ => 0, fun _ _ => 0⟩

/-- `init_hist` -/
def initHist (h : History) : History :=
  let cleared := (List.finRange 3).foldl (fun h j => h.apply j (rowStores .currCmd (.byte 0))) h
  (List.finRange 3).foldl (fun h j =>
    h.apply j ((List.range (maxHist + 1)).map fun i => ⟨.hist i, 0, .byte 0⟩)) cleared

/-- The stores of a recall: `curr_cmd` becomes the entry in a slot of `modified_hist`. -/
def recallStores (slot : ℕ) : List Store := rowStores .currCmd (.cell (.modifiedHist slot))

/-- The stores of Enter: `curr_cmd` is kept as command `n`, the slot of the next command becomes
empty, every edit is dropped, and `curr_cmd` becomes empty. -/
def commitStores (n : ℕ) : List Store :=
  rowStores (.hist (n % (maxHist + 1))) (.cell .currCmd) ++
    rowStores (.hist ((n + 1) % (maxHist + 1))) (.byte 0) ++
    (List.range (maxHist + 1)).flatMap
      (fun slot => rowStores (.modifiedHist slot) (.cell (.hist slot))) ++
    rowStores .currCmd (.byte 0)

/-- The counters after a commit. -/
def History.counted (h : History) (t : Fin 3) : History :=
  { h with
    numHist := Function.update h.numHist t (h.numHist t + 1)
    currHist := Function.update h.currHist t (h.numHist t + 1)
    minHist := if maxHist < h.numHist t + 1 then Function.update h.minHist t (h.minHist t + 1)
      else h.minHist }

/-- The stores of a character behind the line and behind its entry. -/
def characterStores (entry : Row) (i j : ℕ) (c : UInt8) : List Store :=
  [⟨.currCmd, i, .byte c⟩, ⟨entry, j, .byte c⟩]

end Keyboard

/-! ## The handler -/

/-- The modifier keys, the history and the driver. -/
structure Keyboard where
  shift : Bool
  ctrl : Bool
  capsLock : Bool
  alt : Bool
  history : Keyboard.History
  terms : Terminal.Terminals

namespace Keyboard

open Terminal

/-- The state after `terminal_open` and `init_hist`. -/
def start : Keyboard := ⟨false, false, false, false, initHist staticHistory, terminalOpen⟩

/-- The keys that `hist_copy_from` types for an entry of the history. -/
def recallKeys (kb : Keyboard) (t : Fin 3) (k : ℕ) : List UInt8 :=
  histKeys ((List.range 128).map (kb.history.row t (.modifiedHist (k % (maxHist + 1)))))

/-- An entry of the history becomes the line: `hist_copy_from`, and the copy to `curr_cmd` if it
returns. -/
def recallEntry (kb : Keyboard) (t : Fin 3) (k : ℕ) : Keyboard × List Store :=
  ({ kb with
    terms := (kb.terms.presses (kb.recallKeys t k)).1
    history := { kb.history with currHist := Function.update kb.history.currHist t k } },
    recallStores (k % (maxHist + 1)))

/-- Enter, on a line that is not empty. -/
def commit (kb : Keyboard) (t : Fin 3) : Keyboard × List Store :=
  ({ kb with history := kb.history.counted t }, commitStores (kb.history.numHist t))

/-- The first chain of conditions in `keyboard_int`: new variables, and the stores to the history. -/
def modifiersAndHistory (kb : Keyboard) (t : Fin 3) (sc : UInt8) : Keyboard × List Store :=
  let h := kb.history
  if sc = lshift ∨ sc = rshift then ({ kb with shift := true }, [])
  else if sc = lshift + release ∨ sc = rshift + release then ({ kb with shift := false }, [])
  else if sc = lctrl then ({ kb with ctrl := true }, [])
  else if sc = lctrl + release then ({ kb with ctrl := false }, [])
  else if sc = caps ∧ kb.capsLock = false then ({ kb with capsLock := true }, [])
  else if sc = caps ∧ kb.capsLock = true then ({ kb with capsLock := false }, [])
  else if sc = lalt then ({ kb with alt := true }, [])
  else if sc = lalt + release then ({ kb with alt := false }, [])
  else if sc = up ∧ h.minHist t < h.currHist t then kb.recallEntry t (h.currHist t - 1)
  else if sc = down ∧ h.currHist t < h.numHist t then kb.recallEntry t (h.currHist t + 1)
  else if sc = enter ∧ h.row t .currCmd 0 ≠ 0 then kb.commit t
  else (kb, [])

/-- The keys that the first part of `keyboard_int` passes to `put_char`, through `hist_copy_from`. -/
def copiedKeys (kb : Keyboard) (t : Fin 3) (sc : UInt8) : List UInt8 :=
  let h := kb.history
  if sc = up ∧ h.minHist t < h.currHist t then kb.recallKeys t (h.currHist t - 1)
  else if sc = down ∧ h.currHist t < h.numHist t then kb.recallKeys t (h.currHist t + 1)
  else []

/-- What the second part of `keyboard_int` does. -/
inductive KeyAction where
  | ignore
  | switchTerminals (term : Fin 3)
  | clearTerminal
  | character (c : UInt8)
deriving DecidableEq

/-- The second chain of conditions in `keyboard_int`. -/
def keyAction (kb : Keyboard) (sc : UInt8) : KeyAction :=
  if sc ≤ scanLimit then
    if kb.alt = true ∧ (sc = f1 ∨ sc = f2 ∨ sc = f3) then
      .switchTerminals (Fin.ofNat 3 (sc - f1).toNat)
    else if kb.shift = true ∧ kb.capsLock = false then .character (kbdus 1 sc)
    else if kb.shift = false ∧ kb.capsLock = true then .character (kbdus 2 sc)
    else if kb.shift = true ∧ kb.capsLock = true then .character (kbdus 3 sc)
    else if kb.ctrl = true ∧ kbdus 0 sc = 0x6c then .clearTerminal
    else .character (kbdus 0 sc)
  else .ignore

/-- The second part of `keyboard_int`. A character is passed to `put_char` and appended to
`curr_cmd` and to the entry of the ring, except by Enter and after a page fault. -/
def execKey (kb : Keyboard) (t : Fin 3) (sc : UInt8) : Option (Keyboard × List Store) :=
  match kb.keyAction sc with
  | .ignore => some (kb, [])
  | .switchTerminals term => some ({ kb with terms := { kb.terms with currTerminal := term } }, [])
  | .clearTerminal =>
    let curr := kb.terms.currTerminal
    some ({ kb with terms := (kb.terms.run curr (Terminal.clearTerminal curr)).1 }, [])
  | .character c =>
    let typed := { kb with terms := (kb.terms.press c).1 }
    if sc = enter ∨ (kb.terms.press c).2 = false then some (typed, [])
    else
      let entry := Row.modifiedHist (kb.history.currHist t % (maxHist + 1))
      (strlen kb.history t .currCmd).bind fun i =>
        (strlen kb.history t entry).map fun j => (typed, characterStores entry i j c)

/-- Some stores to the history. -/
def store (kb : Keyboard) (t : Fin 3) (stores : List Store) : Keyboard :=
  { kb with history := kb.history.apply t stores }

/-- `keyboard_int` for a scan code: the new state, and all stores to the history in order. -/
def keyboardInt (kb : Keyboard) (sc : UInt8) : Option (Keyboard × List Store) :=
  let t := kb.terms.currTerminal
  let copied := kb.terms.presses (kb.copiedKeys t sc)
  -- `hist_copy_from` comes before the stores of a recall, and may not return
  if copied.2 = false then some ({ kb with terms := copied.1 }, [])
  else
    let first := kb.modifiersAndHistory t sc
    ((first.1.store t first.2).execKey t sc).map fun second =>
      (second.1.store t second.2, first.2 ++ second.2)

/-! ## Runs -/

/-- A key, or a call of the driver by a process of terminal `t`. -/
inductive Event where
  | scanCode (sc : UInt8)
  | terminalRead (t : Fin 3) (count : ℤ)
  | terminalWrite (t : Fin 3) (bytes : List UInt8)

/-- A call of the driver. -/
def call (kb : Keyboard) (e : Terminal.Event) : Option Keyboard :=
  (e.exec kb.terms).map fun tm => { kb with terms := tm }

def Event.exec (kb : Keyboard) : Event → Option Keyboard
  | .scanCode sc => (kb.keyboardInt sc).map Prod.fst
  | .terminalRead t count => kb.call (.terminalRead t count)
  | .terminalWrite t bytes => kb.call (.terminalWrite t bytes)

def system : Run.System Keyboard Event where
  init kb := kb = start
  step kb e := e.exec kb

end Keyboard
end GalapagOS
