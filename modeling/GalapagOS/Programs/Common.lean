import GalapagOS.Grep.Common
import GalapagOS.Kernel.Isolation

/-!
# Programs that copy to the terminal (`ece391cat.c`, `ece391ls.c`)

`cat` and `ls` open something and then read from it and write to the terminal in a loop, until a read
returns 0. Here are the statements that they share, between their system calls, and what a process
that runs alone answers to these calls.
-/

namespace GalapagOS
namespace Programs

open FileSystem Function Kernel

/-! ## The statements -/

/-- Where `main` makes its next call, with the variables it needs from there on; `ι` are the calls
before the loop, and the text is that of a call of `ece391_fdputs` before `return`. -/
inductive Point (ι : Type) where
  | start (i : ι)
  | read (fd : ℤ)
  | write (fd cnt : ℤ)
  | fdputs (text : String) (status : ℤ)
  | returned (status : ℤ)
deriving DecidableEq

structure State (ι : Type) where
  buf : ℕ → UInt8
  point : Point ι

/-- `ece391_fdputs (1, text)` -/
def fdputs (text : String) : Request :=
  .call (.kwrite 1 (some (ofString (Grep.bytes text))) (Grep.bytes text).length)

section

variable {ι : Type}

/-- `if (-1 == (fd = ece391_open (..)))` with its branch, up to the loop. -/
def State.afterOpen (s : State ι) (text : String) (r : ReadResult) : State ι :=
  { s with point := if r.ret = -1 then .fdputs text 2 else .read r.ret }

/-- The condition of the loop and what follows up to the write; `edit` is what is done to the buffer
in between. -/
def State.afterRead (s : State ι) (fd : ℤ) (text : String) (edit : ℕ → (ℕ → UInt8) → ℕ → UInt8)
    (r : ReadResult) : State ι :=
  if r.ret = 0 then ⟨r.buffer s.buf, .returned 0⟩
  else if r.ret = -1 then ⟨r.buffer s.buf, .fdputs text 3⟩
  else ⟨edit r.ret.toNat (r.buffer s.buf), .write fd r.ret⟩

/-- `if (-1 == ece391_write (..)) return 3;` -/
def State.afterWrite (s : State ι) (fd : ℤ) (r : ReadResult) : State ι :=
  { s with point := if r.ret = -1 then .returned 3 else .read fd }

variable {s : State ι} {fd : ℤ} {text : String} {edit : ℕ → (ℕ → UInt8) → ℕ → UInt8} {r : ReadResult}

theorem State.afterOpen_of_ne (hr : r.ret ≠ -1) :
    s.afterOpen text r = { s with point := .read r.ret } := by
  rw [State.afterOpen, if_neg hr]

theorem State.afterRead_end (hr : r.ret = 0) :
    s.afterRead fd text edit r = ⟨r.buffer s.buf, .returned 0⟩ := if_pos hr

theorem State.afterRead_of_pos (hr : 0 < r.ret) :
    s.afterRead fd text edit r = ⟨edit r.ret.toNat (r.buffer s.buf), .write fd r.ret⟩ := by
  rw [State.afterRead, if_neg (by omega), if_neg (by omega)]

theorem State.afterWrite_of_ne (hr : r.ret ≠ -1) :
    s.afterWrite fd r = { s with point := .read fd } := by
  rw [State.afterWrite, if_neg hr]

end

/-! ## The answers -/

section

variable {img : Image} {args : List UInt8} {t : Proc}

/-- What is open on descriptor 2, and descriptor 1 is the terminal. -/
structure Holding (h : Handle) (t : Proc) : Prop where
  file : t.handles 2 = h
  stdout : t.handles 1 = .stdout

/-- What a new process opens gets descriptor 2. -/
theorem open_fresh {name : Option (ℕ → UInt8)} {d : Dentry} {h : Handle}
    (hname : readDentryByName img name = some d) (hopened : Proc.opened img d = some h) :
    ∃ t, (Proc.fresh args).exec img (.call (.kopen name)) = (t, some ⟨2, []⟩) ∧ Holding h t ∧
      t.out = [] := by
  have hslot : (Proc.fresh args).slot = some 2 := rfl
  have hopen : (Proc.fresh args).openFile img name
      = (⟨args, update (Proc.fresh args).handles 2 h, []⟩, 2) := by
    simp only [Proc.openFile, hslot, hname, Option.bind_some, hopened]
    rfl
  refine ⟨_, by rw [Proc.exec, hopen], ⟨?_, ?_⟩, rfl⟩
  · exact update_self (2 : Fin 8) h (Proc.fresh args).handles
  · show update (Proc.fresh args).handles 2 h 1 = .stdout
    rw [update_of_ne (by decide)]
    rfl

/-- A write to the terminal appends the bytes and does not fail. -/
theorem Holding.write {h : Handle} (ht : Holding h t) (img : Image) (buf : ℕ → UInt8) {nbytes : ℤ}
    (hn : 0 ≤ nbytes) :
    ∃ t' r, t.exec img (.call (.kwrite 1 (some buf) nbytes)) = (t', some r) ∧ r.ret ≠ -1 ∧
      Holding h t' ∧ t'.out = t.out ++ (List.range nbytes.toNat).map buf := by
  have hlookup : t.lookup 1 = .stdout := ht.stdout
  refine ⟨{ t with out := t.out ++ (List.range nbytes.toNat).map buf },
    ⟨(((List.range nbytes.toNat).map buf).filter (· ≠ 0)).length, []⟩, ?_, ?_, ⟨ht.file, ht.stdout⟩,
    rfl⟩
  · simp only [Proc.exec, Proc.writeFile, if_neg (not_lt.mpr hn), hlookup]
  · dsimp only
    omega

/-- An answer that depends on the process alone. -/
theorem eq_of_answer {o : Option ReadResult} {a r : ReadResult} (ho : o = some a)
    (hr : o = none ∨ o = some r) : r = a := by
  rw [ho] at hr
  rcases hr with hr | hr
  · cases hr
  · exact (Option.some.inj hr).symm

/-- The bytes of an answer in the buffer. -/
theorem range_map_buffer {l : List UInt8} (ret : ℤ) (old : ℕ → UInt8) :
    (List.range l.length).map ((⟨ret, l⟩ : ReadResult).buffer old) = l := by
  refine List.ext_getElem (by simp) fun j h₁ h₂ => ?_
  rw [List.getElem_map, List.getElem_range]
  exact List.getD_eq_getElem _ _ h₂

end

end Programs
end GalapagOS
