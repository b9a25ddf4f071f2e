import GalapagOS.Lib.CString
import GalapagOS.Lib.Lines
import GalapagOS.Lib.Memory
import Mathlib.Data.Int.Notation
import Mathlib.Data.List.Infix
import Mathlib.Data.UInt

/-!
# `grep` (`do_one_file` in `ece391grep.c`)

The program reads a file in pieces of at most 1024 bytes, cuts the buffer into lines and writes the
lines that contain the search string. What follows the last newline is slid to the front of the
buffer and completed by the next read.

Strings and the array `data` are functions of an index; loops whose length is not bounded by a
variable of the source get `fuel` and are `none` if they are still running when that is used up.
The bytes of each `write` to file descriptor 1 are recorded in order. `expected` is what the program
is for: the matching lines of a file.
-/

namespace GalapagOS
namespace Grep

open CString Lines Memory Function

/-! ## `ece391support.c` -/

/-- `ece391_strlen` -/
def strlen (fuel : ℕ) (s : ℕ → UInt8) : Option ℕ :=
  (loop s (fun len _ => len + 1) fuel 0 0).map (·.2)

/-- `ece391_strcpy` between two places of one array. -/
def strcpy (fuel dst src : ℕ) (m : ℕ → UInt8) : Option (ℕ → UInt8) := copyLoop fuel dst src m

/-- The bytes that `ece391_fdputs` hands to `ece391_write`. -/
def fdputs (fuel : ℕ) (s : ℕ → UInt8) : Option (List UInt8) :=
  (strlen fuel s).map fun len => slice s 0 len

/-- `ece391_strncmp` -/
def strncmp (s1 s2 : ℕ → UInt8) : ℕ → ℤ
  | 0 => 0
  | n + 1 =>
    if s1 0 = s2 0 then
      if s1 0 = 0 ∨ n = 0 then 0 else strncmp (fun i => s1 (i + 1)) (fun i => s2 (i + 1)) n
    else (s1 0).toNat - (s2 0).toNat

/-! ## `do_one_file` -/

/-- `BUFSIZE` -/
def bufSize : ℕ := 1024

def newline : UInt8 := '\n'.toUInt8

/-- The bytes of a text of the source. -/
def bytes (t : String) : List UInt8 := t.toList.map Char.toUInt8

/-- A string literal of the source. -/
def literal (t : String) (i : ℕ) : UInt8 := (bytes t).getD i 0

/-- The value of a `char` in a comparison with an `uint8_t`: it is signed. -/
def charValue (c : UInt8) : ℤ := c.toBitVec.toInt

/-- How the system calls answer; `file` is what `ece391_read` delivers. -/
structure Calls where
  opens : Bool
  /-- whether the read of this number fails -/
  readFails : ℕ → Bool
  closes : Bool
  file : List UInt8

/-- The variables of `do_one_file` that live from one read to the next, and what was written. -/
structure State where
  data : ℕ → UInt8
  last : ℕ
  written : List (List UInt8)

/-- `while (line_end < last && '\n' != data[line_end]) line_end++;` with `last - line_end` tests
left. -/
def findEnd (data : ℕ → UInt8) : ℕ → ℕ → ℕ
  | 0, lineEnd => lineEnd
  | n + 1, lineEnd => if data lineEnd ≠ newline then findEnd data n (lineEnd + 1) else lineEnd

section

variable (s fname : ℕ → UInt8) (fuel sLen : ℕ)

/-- Whether the loop over `check` finds the search string, with `line_end - check` tests left. -/
def found (data : ℕ → UInt8) : ℕ → ℕ → Bool
  | 0, _ => false
  | n + 1, check =>
    if charValue (s 0) = (data check).toNat ∧ strncmp (fun i => data (check + i)) s sLen = 0
    then true else found data n (check + 1)

/-- The search of one line: what it writes. -/
def searchLine (data : ℕ → UInt8) (lineStart lineEnd : ℕ) : Option (List (List UInt8)) :=
  if found s sLen data (lineEnd - lineStart) lineStart then do
    let name ← fdputs fuel fname
    let colon ← fdputs fuel (literal ":")
    let line ← fdputs fuel fun i => data (lineStart + i)
    let feed ← fdputs fuel (literal "\n")
    pure [name, colon, line, feed]
  else pure []

/-- The loop over the lines in the buffer. -/
def sweep (cnt : ℕ) : ℕ → ℕ → State → Option State
  | 0, _, _ => none
  | n + 1, lineStart, p =>
    let lineEnd := findEnd p.data (p.last - lineStart) lineStart
    let data := update p.data lineEnd 0
    if p.data lineEnd ≠ newline ∧ cnt ≠ 0 ∧ lineStart ≠ 0 then do
      -- copy from line_start to last down to 0 and fix last
      let data ← strcpy fuel 0 lineStart data
      pure { p with data := data, last := p.last - lineStart }
    else do
      let line ← searchLine s fname fuel sLen data lineStart lineEnd
      let p := { p with data := data, written := p.written ++ line }
      if p.last ≤ lineEnd + 1 then pure { p with last := 0 } else sweep cnt n (lineEnd + 1) p

/-- The loop over the reads: what was written and what is returned. The reads before this one are
counted by `k`; `file` is what they have left. -/
def readLoop (calls : Calls) : ℕ → ℕ → List UInt8 → State → Option (List (List UInt8) × ℤ)
  | 0, _, _, _ => none
  | n + 1, k, file, p =>
    if calls.readFails k then some (p.written ++ [bytes "file read failed\n"], -1)
    else do
      let chunk := file.take (bufSize - p.last)
      let p' ← sweep s fname fuel sLen chunk.length fuel 0
        { p with data := place p.last chunk p.data, last := p.last + chunk.length }
      if chunk.length ≠ 0 then readLoop calls n (k + 1) (file.drop (bufSize - p.last)) p'
      else if calls.closes then pure (p'.written, 0)
      else pure (p'.written ++ [bytes "file close failed\n"], -1)

end

/-- `do_one_file`; `data` is what the array holds before. -/
def doOneFile (calls : Calls) (fuel : ℕ) (s fname data : ℕ → UInt8) :
    Option (List (List UInt8) × ℤ) := do
  let sLen ← strlen fuel s
  if calls.opens then readLoop s fname fuel sLen calls fuel 0 calls.file ⟨data, 0, []⟩
  else pure ([bytes "file open failed\n"], -1)

/-! ## What it is for -/

section

variable (pat name : List UInt8)

/-- What is written for a line. -/
def report (line : List UInt8) : List (List UInt8) :=
  if pat <:+: line then [name, bytes ":", line, bytes "\n"] else []

/-- What is written for a file. -/
def expected (file : List UInt8) : List (List UInt8) :=
  (rawLines newline file).flatMap fun line => report pat name (line.takeWhile (· ≠ newline))

end

end Grep
end GalapagOS
