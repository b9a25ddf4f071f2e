import GalapagOS.Lib.SinglyLinked
import GalapagOS.Lib.Run
import Mathlib.Data.Int.Notation

/-!
# Blinking characters (`blink.S`, `fish.c`)

The program `fish` keeps its blinking characters in slots of `blink_array` and links them in a list
that starts at `mp1_list_head`. `mp1_ioctl` adds, removes, finds and synchronizes them;
`mp1_rtc_tasklet` runs through the list on every tick of the clock. A slot counts as free while
its `location` is 0.

Every loop over the list gets `fuel`; `none` means that it is still running when the fuel is used up,
or that it follows a null pointer. Structures of the caller are objects of their own.
-/

namespace GalapagOS
namespace Fish

open SinglyLinked Function

/-! ## The list -/

/-- A slot of `blink_array`. -/
abbrev Slot := Fin 2000

/-- `struct mp1_blink_struct` without its link. The link of a caller's structure is overwritten
before it is followed. -/
structure Blink where
  location : BitVec 16
  onChar : UInt8
  offChar : UInt8
  onLength : BitVec 16
  offLength : BitVec 16
  countdown : BitVec 16
  status : BitVec 16
deriving DecidableEq, Repr

/-- The structure in a slot. -/
structure Node extends Blink where
  next : Option Slot
deriving DecidableEq, Repr

/-- A slot after `ece391_memset`. -/
def Node.zero : Node := ⟨⟨0, 0, 0, 0, 0, 0, 0⟩, none⟩

/-- `mp1_list_head`, `blink_array`, and the page at `vmem_base_addr`. -/
structure State where
  head : Option Slot
  array : Slot → Node
  vmem : ℕ → UInt8

namespace State

def next (s : State) (i : Slot) : Option Slot := (s.array i).next

/-- Stores to one slot. -/
def modify (s : State) (i : Slot) (f : Node → Node) : State :=
  { s with array := update s.array i (f (s.array i)) }

/-- `NEXT(i) = q` -/
def setNext (s : State) (i : Slot) (q : Option Slot) : State := s.modify i fun n => { n with next := q }

/-- A store through a pointer to a link. -/
def storeCell (s : State) (q : Option Slot) : Option Slot → State
  | none => { s with head := q }
  | some b => s.setNext b q

/-- `mp1_poke` at a location of the screen. -/
def poke (s : State) (location : BitVec 16) (c : UInt8) : State :=
  { s with vmem := update s.vmem (2 * location.toNat) c }

/-- The loop of `mp1_malloc` from index `i`, with `n` slots left. -/
def mallocFrom (s : State) (i : ℕ) : ℕ → Option Slot
  | 0 => none
  | n + 1 =>
    if h : i < 2000 then
      if (s.array ⟨i, h⟩).location = 0 then some ⟨i, h⟩ else s.mallocFrom (i + 1) n
    else none

/-- `mp1_malloc` -/
def malloc (s : State) : Option Slot := s.mallocFrom 0 2000

/-- `mp1_free` -/
def free (s : State) (i : Slot) : State := s.modify i fun _ => .zero

/-- `mp1_find_helper` -/
def findHelper (s : State) (fuel : ℕ) (location : BitVec 16) : Option (Option Slot) :=
  search s.next (fun i => (s.array i).location = location) fuel s.head

/-! ## The commands -/

/-- A structure is copied to the slot `i`, which is put in front of the list. -/
def insert (s : State) (i : Slot) (b : Blink) : State :=
  { s.modify i fun _ => ⟨b, s.head⟩ with head := some i }

/-- `mp1_ioctl_add` -/
def ioctlAdd (s : State) (user : Blink) : State × ℤ :=
  if 2000 ≤ user.location.toNat then (s, -1)
  else
    -- the copy on the stack is changed, and only then is a slot looked for
    let user := { user with status := 1, countdown := user.onLength }
    match s.malloc with
    | none => (s, -1)
    | some i => ((s.insert i user).poke user.location user.onChar, 0)

/-- `mp1_ioctl_remove`; only the lower half of the argument is looked at. -/
def ioctlRemove (s : State) (fuel : ℕ) (arg : BitVec 32) : Option (State × ℤ) :=
  (s.findHelper fuel (arg.setWidth 16)).bind fun found =>
    match found with
    | none => some (s, -1)
    | some e =>
      -- `remove_find_prev` does not test for the end of the list
      (findCell s.next s.head e fuel none).map fun cell => ((s.storeCell (s.next e) cell).free e, 0)

/-- `mp1_ioctl_find`; the structure is copied to the caller. -/
def ioctlFind (s : State) (fuel : ℕ) (user : Blink) : Option (Option Node × ℤ) :=
  (s.findHelper fuel user.location).map fun found =>
    match found with
    | none => (none, -1)
    | some e => (some (s.array e), 0)

/-- The copies of `mp1_ioctl_sync`. After `testb $0x1` the `cmovl` never moves, so that `OFF_CHAR`
is drawn. -/
def syncCopy (s : State) (src dst : Slot) : State :=
  let n := s.array src
  let s := s.modify dst fun d =>
    { d with
      onLength := n.onLength, offLength := n.offLength, countdown := n.countdown, status := n.status }
  s.poke (s.array dst).location (s.array dst).offChar

/-- `mp1_ioctl_sync` -/
def ioctlSync (s : State) (fuel : ℕ) (arg : BitVec 32) : Option (State × ℤ) :=
  (s.findHelper fuel ((arg >>> 16).setWidth 16)).bind fun found =>
    match found with
    | none => some (s, -1)
    | some src =>
      (s.findHelper fuel ((arg &&& 0xffff).setWidth 16)).map fun found =>
        match found with
        | none => (s, -1)
        | some dst => (s.syncCopy src dst, 0)

/-! ## The tasklet -/

/-- The body of `tasklet_loop`. -/
def tick (s : State) (i : Slot) : State :=
  let s := s.modify i fun n => { n with countdown := n.countdown - 1 }
  let n := s.array i
  -- `jg` compares signed words
  if 0 < n.countdown.toInt then s
  else if n.status &&& 1 ≠ 0 then
    (s.poke n.location n.offChar).modify i fun n =>
      { n with countdown := n.offLength, status := n.status ^^^ 1 }
  else
    (s.poke n.location n.onChar).modify i fun n =>
      { n with countdown := n.onLength, status := n.status ^^^ 1 }

/-- `mp1_rtc_tasklet` -/
def rtcTasklet (s : State) (fuel : ℕ) : Option State := walk next tick fuel s.head s

end State

/-! ## Sessions -/

/-- The calls of the program. -/
inductive Event where
  | add (user : Blink)
  | remove (arg : BitVec 32)
  | find (user : Blink)
  | sync (arg : BitVec 32)
  | tasklet
deriving DecidableEq, Repr

/-- The list, with the number of calls of `RTC_ADD` and `RTC_REMOVE` that have returned 0. -/
structure Session where
  state : State
  adds : ℕ
  removes : ℕ

def Event.exec (fuel : ℕ) (x : Session) : Event → Option Session
  | .add user =>
    let r := x.state.ioctlAdd user
    some { x with state := r.1, adds := if r.2 = 0 then x.adds + 1 else x.adds }
  | .remove arg =>
    (x.state.ioctlRemove fuel arg).map fun r : State × ℤ =>
      { x with state := r.1, removes := if r.2 = 0 then x.removes + 1 else x.removes }
  | .find user => (x.state.ioctlFind fuel user).map fun _ => x
  | .sync arg => (x.state.ioctlSync fuel arg).map fun r => { x with state := r.1 }
  | .tasklet => (x.state.rtcTasklet fuel).map fun s => { x with state := s }

/-- `mp1_list_head` is `NULL` at first, and `main` clears the array. -/
def system (fuel : ℕ) : Run.System Session Event where
  init x := x.state.head = none ∧ (∀ i, x.state.array i = .zero) ∧ x.adds = 0 ∧ x.removes = 0
  step x e := e.exec fuel x

end Fish
end GalapagOS
