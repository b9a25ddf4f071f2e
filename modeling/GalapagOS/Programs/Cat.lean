import GalapagOS.FileSystem.Slices
import GalapagOS.Programs.Common

/-!
# `cat` (`ece391cat.c`)

The program between its system calls. As a process of the kernel, with anything going on around it,
it writes the file that its argument names, from the start and in order, and returns 0 when it has
written all of it.
-/

namespace GalapagOS
namespace Cat

open FileSystem Kernel CString Programs

/-- The calls before the loop. -/
inductive Start where
  | getargs
  | openFile
deriving DecidableEq

/-- `sizeof buf` -/
def bufSize : ℕ := 1024

/-- The call at a point; the array `buf` stands at `addr`. -/
def request (addr : ℕ) (s : State Start) : Option Request :=
  match s.point with
  | .start .getargs => some (.getArgs addr bufSize)
  | .start .openFile => some (.call (.kopen (some s.buf)))
  | .read fd => some (.call (.kread fd addr bufSize))
  | .write _ cnt => some (.call (.kwrite 1 (some s.buf) cnt))
  | .fdputs text _ => some (fdputs text)
  | .returned _ => none

/-- What follows the call. -/
def resume (s : State Start) (r : ReadResult) : State Start :=
  match s.point with
  | .start .getargs =>
    { buf := r.buffer s.buf
      point := if r.ret ≠ 0 then .fdputs "could not read arguments\n" 3 else .start .openFile }
  | .start .openFile => s.afterOpen "file not found\n" r
  | .read fd => s.afterRead fd "file read failed\n" (fun _ buf => buf) r
  | .write fd _ => s.afterWrite fd r
  | .fdputs _ status => { s with point := .returned status }
  | .returned _ => s

def program (addr : ℕ) : Program (State Start) where
  request := request addr
  resume := resume

section Alone

variable {img : Image} {addr i n j : ℕ} {args : List UInt8} {t : Proc}

/-- The file is open on descriptor 2 at a position. -/
abbrev Reading (img : Image) (i pos : ℕ) : Proc → Prop := Holding (.file (filePtr img i) pos)

/-- The process after `n` calls. The rounds of the loop are counted by `j`; only the last one can be
short. -/
inductive Inv (img : Image) (i : ℕ) (args : List UInt8) : ℕ → Proc × State Start → Prop
  | getargs {buf : ℕ → UInt8} : Inv img i args 0 (.fresh args, ⟨buf, .start .getargs⟩)
  | openFile {buf : ℕ → UInt8} : Text buf args →
      Inv img i args 1 (.fresh args, ⟨buf, .start .openFile⟩)
  | read {t : Proc} {buf : ℕ → UInt8} (j : ℕ) :
      Reading img i (min (bufSize * j) (contents img i).length) t →
      t.out = (contents img i).take (bufSize * j) →
      bufSize * j < (contents img i).length + bufSize →
      Inv img i args (2 * j + 2) (t, ⟨buf, .read 2⟩)
  | write {t : Proc} {buf : ℕ → UInt8} {cnt : ℕ} (j : ℕ) :
      Reading img i (min (bufSize * (j + 1)) (contents img i).length) t →
      t.out = (contents img i).take (bufSize * j) →
      bufSize * j < (contents img i).length →
      (List.range cnt).map buf = ((contents img i).drop (bufSize * j)).take bufSize →
      Inv img i args (2 * j + 3) (t, ⟨buf, .write 2 cnt⟩)
  | returned {t : Proc} {buf : ℕ → UInt8} (j : ℕ) :
      t.out = contents img i → (contents img i).length ≤ bufSize * j →
      bufSize * j < (contents img i).length + bufSize →
      Inv img i args (2 * j + 3) (t, ⟨buf, .returned 0⟩)

variable (hlook : readDentryByName img (some (ofString args)) = some (entry img i))
  (hreg : (entry img i).fileType = 2)

theorem getArgs_fresh (img : Image) (args : List UInt8) (haddr : addr ≠ 0) :
    (Proc.fresh args).exec img (.getArgs addr bufSize) = (.fresh args, some ⟨0, args ++ [0]⟩) := by
  have hgood : ¬(addr = 0 ∨ (bufSize : ℤ) < 0) := by omega
  simp only [Proc.exec, Proc.getArgs, if_neg hgood]
  rfl

/-- The buffer of `getargs` holds the argument. -/
theorem text_buffer {s : List UInt8} (hs : 0 ∉ s) (ret : ℤ) (old : ℕ → UInt8) :
    Text ((⟨ret, s ++ [0]⟩ : ReadResult).buffer old) s := by
  refine ⟨hs, fun j hj => ?_⟩
  unfold ReadResult.buffer
  by_cases hlt : j < s.length
  · rw [List.getD_append _ _ _ _ hlt, List.getD_eq_getElem _ _ hlt, List.getD_eq_getElem _ _ hlt]
  · obtain rfl : j = s.length := by omega
    rw [List.getD_append_right _ _ _ _ le_rfl, Nat.sub_self, List.getD_eq_default _ _ le_rfl]
    rfl

include hlook hreg in
/-- The file gets descriptor 2. -/
theorem openFile_fresh {buf : ℕ → UInt8} (hbuf : Text buf args) :
    ∃ t, (Proc.fresh args).exec img (.call (.kopen (some buf))) = (t, some ⟨2, []⟩) ∧
      Reading img i 0 t ∧ t.out = [] := by
  have hname : readDentryByName img (some buf) = some (entry img i) := by
    rw [← hlook]
    apply readDentryByName_congr
    rw [cname_of_text hbuf, cname_of_text (text_ofString hbuf.1)]
  have hopened : Proc.opened img (entry img i) = some (.file (filePtr img i) 0) := by
    simp only [Proc.opened, hreg]
    rfl
  exact open_fresh hname hopened

theorem length_contents_lt (img : Image) (i : ℕ) : (contents img i).length < 2 ^ 32 := by
  rw [contents, length_fileBytes]
  exact inodeLength_lt img _

/-- A read delivers the next bytes and moves the position. -/
theorem reading_read {pos : ℕ} (h : Reading img i pos t) (hpos : pos ≤ (contents img i).length)
    (haddr : addr ≠ 0) :
    ∃ t', t.exec img (.call (.kread 2 addr bufSize))
        = (t', some ⟨(((contents img i).drop pos).take bufSize).length,
            ((contents img i).drop pos).take bufSize⟩) ∧
      Reading img i (pos + (((contents img i).drop pos).take bufSize).length) t' ∧
      t'.out = t.out := by
  have hgood : ¬(addr = 0 ∨ (bufSize : ℤ) < 0) := by omega
  have hlookup : t.lookup 2 = .file (filePtr img i) pos := h.file
  have hlt := length_contents_lt img i
  have hread : t.readFile img 2 addr bufSize
      = (⟨t.args, fun j => (t.handles j).advance (filePtr img i)
              (((contents img i).drop pos).take bufSize).length, t.out⟩,
          some ⟨(((contents img i).drop pos).take bufSize).length,
            ((contents img i).drop pos).take bufSize⟩) := by
    simp only [Proc.readFile, if_neg hgood, hlookup]
    rfl
  refine ⟨_, hread, ⟨?_, ?_⟩, rfl⟩
  · show (t.handles 2).advance _ _ = _
    rw [h.file, Handle.advance, if_pos rfl, Nat.mod_eq_of_lt]
    simp only [List.length_take, List.length_drop]
    omega
  · show (t.handles 1).advance _ _ = _
    rw [h.stdout]
    rfl

include hlook hreg in
/-- One call. -/
theorem Inv.step (hargs : 0 ∉ args) (haddr : addr ≠ 0) {x x' : Proc × State Start} {r : ReadResult}
    (h : Inv img i args n x) (hstep : (program addr).alone img x (some r) = some x') :
    Inv img i args (n + 1) x' := by
  obtain ⟨q, hq, hr, rfl⟩ := Program.alone_eq_some hstep
  cases h with
  | getargs =>
    cases hq
    have he := getArgs_fresh img args haddr
    obtain rfl := eq_of_answer (congrArg Prod.snd he) hr
    rw [he]
    exact .openFile (text_buffer hargs _ _)
  | @openFile buf hbuf =>
    cases hq
    obtain ⟨t, he, hreading, hout⟩ := openFile_fresh hlook hreg hbuf
    obtain rfl := eq_of_answer (congrArg Prod.snd he) hr
    rw [he]
    dsimp only [program, resume]
    rw [State.afterOpen_of_ne (by decide)]
    refine .read 0 ?_ ?_ ?_
    · simpa using hreading
    · simpa using hout
    · unfold bufSize
      omega
  | @read t buf j hreading hout hj =>
    cases hq
    obtain ⟨t', he, hreading', hout'⟩ := reading_read hreading (Nat.min_le_right _ _) haddr
    obtain rfl := eq_of_answer (congrArg Prod.snd he) hr
    rw [he]
    dsimp only [program, resume]
    by_cases hend : (contents img i).length ≤ bufSize * j
    · -- everything has been read, and the answer is 0
      have hnil : ((contents img i).drop (min (bufSize * j) (contents img i).length)).take bufSize
          = [] := by
        rw [Nat.min_eq_right hend, List.drop_length, List.take_nil]
      rw [hnil, State.afterRead_end rfl]
      refine .returned j ?_ hend hj
      rw [hout', hout, List.take_of_length_le hend]
    · have hmin : min (bufSize * j) (contents img i).length = bufSize * j := by omega
      have hlen : (((contents img i).drop (bufSize * j)).take bufSize).length
          = min bufSize ((contents img i).length - bufSize * j) := by
        rw [List.length_take, List.length_drop]
      have hpos : bufSize * j + (((contents img i).drop (bufSize * j)).take bufSize).length
          = min (bufSize * (j + 1)) (contents img i).length := by
        rw [hlen, Nat.mul_succ]
        omega
      rw [hmin] at hreading' ⊢
      rw [hpos] at hreading'
      have hsome : 0 < (((contents img i).drop (bufSize * j)).take bufSize).length := by
        rw [hlen]
        unfold bufSize at hend ⊢
        omega
      rw [State.afterRead_of_pos (Int.natCast_pos.mpr hsome)]
      exact .write j hreading' (hout'.trans hout) (by omega) (range_map_buffer _ _)
  | @write t buf cnt j hreading hout hj hbytes =>
    cases hq
    obtain ⟨t', r', he, hwritten, hreading', hout'⟩ := hreading.write img buf (Int.natCast_nonneg cnt)
    obtain rfl := eq_of_answer (congrArg Prod.snd he) hr
    rw [he]
    dsimp only [program, resume]
    rw [State.afterWrite_of_ne hwritten]
    refine .read (j + 1) hreading' ?_ ?_
    · rw [hout', hout, Int.toNat_natCast, hbytes, Nat.mul_succ, List.take_add]
    · rw [Nat.mul_succ]
      omega
  | returned => cases hq

end Alone

/-! ## On the kernel -/

end Cat
end GalapagOS
