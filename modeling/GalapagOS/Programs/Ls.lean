import GalapagOS.Kernel.Listing
import GalapagOS.Programs.Common

/-!
# `ls` (`ece391ls.c`)

The program between its system calls. As a process of the kernel, while no other process reads the
directory, it writes the names of all entries, each on a line of its own and in the order of the
directory, and returns 0. `curr_file_number` is then at the start again.
-/

namespace GalapagOS
namespace Ls

open FileSystem Function Kernel Programs

/-- The call before the loop. -/
inductive Start where
  | openDir
deriving DecidableEq

/-- `SBUFSIZE` -/
def sbufSize : ℕ := 33

/-- The call at a point; the array `buf` stands at `addr`. -/
def request (addr : ℕ) (s : State Start) : Option Request :=
  match s.point with
  | .start .openDir => some (.call (.kopen (some (ofString (Grep.bytes ".")))))
  | .read fd => some (.call (.kread fd addr (sbufSize - 1)))
  | .write _ cnt => some (.call (.kwrite 1 (some s.buf) (cnt + 1)))
  | .fdputs text _ => some (fdputs text)
  | .returned _ => none

/-- What follows the call. -/
def resume (s : State Start) (r : ReadResult) : State Start :=
  match s.point with
  | .start .openDir => s.afterOpen "directory open failed\n" r
  | .read fd =>
    -- `buf[cnt] = '\n'`
    s.afterRead fd "directory entry read failed\n" (fun cnt buf => update buf cnt Grep.newline) r
  | .write fd _ => s.afterWrite fd r
  | .fdputs _ status => { s with point := .returned status }
  | .returned _ => s

def program (addr : ℕ) : Program (State Start) where
  request := request addr
  resume := resume

/-- The first `n` names, each on a line of its own. -/
def names (img : Image) (n : ℕ) : List UInt8 :=
  (List.range n).flatMap fun i => entryName img i ++ [Grep.newline]

theorem names_succ (img : Image) (n : ℕ) :
    names img (n + 1) = names img n ++ (entryName img n ++ [Grep.newline]) := by
  rw [names, List.range_succ, List.flatMap_append, List.flatMap_singleton]
  rfl

section Alone

variable {img : Image} {addr n : ℕ} {args : List UInt8} {t : Proc}

/-- The directory is open on descriptor 2. -/
abbrev Open : Proc → Prop := Holding .directory

/-- The process after `n` calls, with the place in the directory. -/
inductive Inv (img : Image) (args : List UInt8) : ℕ → (Proc × ℕ) × State Start → Prop
  | openDir {buf : ℕ → UInt8} : Inv img args 0 ((.fresh args, 0), ⟨buf, .start .openDir⟩)
  | read {t : Proc} {buf : ℕ → UInt8} (i : ℕ) : Open t → i ≤ numDirEntries img →
      t.out = names img i → Inv img args (2 * i + 1) ((t, i), ⟨buf, .read 2⟩)
  | write {t : Proc} {buf : ℕ → UInt8} (i : ℕ) : Open t → i < numDirEntries img →
      t.out = names img i →
      (List.range ((entryName img i).length + 1)).map buf = entryName img i ++ [Grep.newline] →
      Inv img args (2 * i + 2) ((t, i + 1), ⟨buf, .write 2 (entryName img i).length⟩)
  | returned {t : Proc} {buf : ℕ → UInt8} : t.out = names img (numDirEntries img) →
      Inv img args (2 * numDirEntries img + 2) ((t, 0), ⟨buf, .returned 0⟩)

/-- The directory gets descriptor 2. -/
theorem openDir_fresh {d : Dentry}
    (hdot : readDentryByName img (some (ofString (Grep.bytes "."))) = some d)
    (hdir : d.fileType = directoryType) (cursor : ℕ) :
    ∃ t, (Proc.fresh args).list img cursor (.call (.kopen (some (ofString (Grep.bytes ".")))))
        = ((t, cursor), some ⟨2, []⟩) ∧ Open t ∧ t.out = [] := by
  have hopened : Proc.opened img d = some .directory := by
    simp only [Proc.opened, hdir]
    rfl
  obtain ⟨t, he, hopen, hout⟩ := open_fresh hdot hopened
  refine ⟨t, ?_, hopen, hout⟩
  rw [Proc.list_of_none rfl, he]

/-- A read of the directory. -/
theorem open_read (h : Open t) (haddr : addr ≠ 0) (cursor : ℕ) :
    t.list img cursor (.call (.kread 2 addr (sbufSize - 1)))
      = ((t, (dirRead img cursor 32).1), some (dirRead img cursor 32).2) := by
  have hlookup : t.lookup 2 = .directory := h.file
  have hreq : t.dirRequest (.call (.kread 2 addr (sbufSize - 1))) = some 32 :=
    if_pos ⟨haddr, by decide, hlookup⟩
  rw [Proc.list, hreq]

/-- The buffer of a name, with a newline in the place of its end. -/
theorem range_map_line (l : List UInt8) (ret : ℤ) (old : ℕ → UInt8) (b : UInt8) :
    (List.range (l.length + 1)).map (update ((⟨ret, l⟩ : ReadResult).buffer old) l.length b)
      = l ++ [b] := by
  have hmap : (List.range l.length).map (update ((⟨ret, l⟩ : ReadResult).buffer old) l.length b)
      = (List.range l.length).map ((⟨ret, l⟩ : ReadResult).buffer old) := by
    apply List.map_congr_left
    intro j hj
    have hlt : j < l.length := List.mem_range.mp hj
    exact update_of_ne (by omega) _ _
  rw [List.range_succ, List.map_append, hmap, range_map_buffer, List.map_singleton, update_self]

/-- One call. -/
theorem Inv.step {d : Dentry} (hok : img.DirOk)
    (hdot : readDentryByName img (some (ofString (Grep.bytes "."))) = some d)
    (hdir : d.fileType = directoryType) (haddr : addr ≠ 0) {x x' : (Proc × ℕ) × State Start}
    {r : ReadResult} (h : Inv img args n x)
    (hstep : (program addr).listing img x (some r) = some x') : Inv img args (n + 1) x' := by
  obtain ⟨q, hq, hr, rfl⟩ := Program.listing_eq_some hstep
  cases h with
  | openDir =>
    cases hq
    obtain ⟨t, he, hopen, hout⟩ := openDir_fresh hdot hdir 0
    obtain rfl := eq_of_answer (congrArg Prod.snd he) hr
    dsimp only [program, resume]
    rw [he, State.afterOpen_of_ne (by decide)]
    exact .read 0 hopen (Nat.zero_le _) hout
  | @read t buf i hopen hi hout =>
    cases hq
    have he : t.list img i (.call (.kread 2 addr (sbufSize - 1)))
        = ((t, (dirRead img i 32).1), some (dirRead img i 32).2) := open_read hopen haddr i
    obtain rfl := eq_of_answer (congrArg Prod.snd he) hr
    dsimp only
    rw [he]
    dsimp only [program, resume]
    by_cases hend : i = numDirEntries img
    · -- the last read returns 0 and takes the place back to the start
      subst hend
      rw [dirRead_of_le le_rfl, State.afterRead_end rfl]
      exact .returned hout
    · have hlt : i < numDirEntries img := by omega
      have hlen : 0 < (entryName img i).length := List.length_pos_iff.mpr (hok.name_ne i hlt)
      rw [dirRead_of_lt hlt le_rfl, State.afterRead_of_pos (Int.natCast_pos.mpr hlen)]
      exact .write i hopen hlt hout (range_map_line _ _ _ _)
  | @write t buf i hopen hi hout hline =>
    cases hq
    have hn : (0 : ℤ) ≤ (entryName img i).length + 1 := by omega
    have hcnt : ((entryName img i).length + 1 : ℤ).toNat = (entryName img i).length + 1 := by omega
    obtain ⟨t', r', he, hwritten, hopen', hout'⟩ := hopen.write img buf hn
    have hlist : t.list img (i + 1) (.call (.kwrite 1 (some buf) ((entryName img i).length + 1)))
        = ((t', i + 1), some r') := by
      rw [Proc.list_of_none rfl, he]
    obtain rfl := eq_of_answer (congrArg Prod.snd hlist) hr
    dsimp only [program, resume]
    rw [hlist, State.afterWrite_of_ne hwritten]
    refine .read (i + 1) hopen' hi ?_
    rw [hout', hout, hcnt, hline, names_succ]
  | returned => cases hq

end Alone

/-! ## On the kernel -/

end Ls
end GalapagOS
