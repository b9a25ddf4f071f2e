import GalapagOS.Kernel.Buffers
import GalapagOS.Kernel.Reads

/-!
# File positions

`fs_read` does not know which descriptor it reads for. It moves every descriptor with the inode
pointer, by the number that `read_data` returned, which is -1 after an error. A read therefore
leaves another descriptor alone if that one has another inode, and a failed read leaves the table
alone if the error was found before `read_data`.
-/

namespace GalapagOS
namespace Kernel

open FileSystem

variable {k k' : Kernel} {p : Pid} {i j : Fin 8}

/-- A descriptor that is open on a regular file. -/
structure Regular (d : FileDescriptor) : Prop where
  inUse : d.InUse
  fileType : d.fileType = regularFileType

/-- The inode that the code finds for a directory entry. -/
def entryInode (img : Image) (e : Dentry) : ℕ := (inodes img + e.inodeNum * inodeSize) % 2 ^ 32

/-! ## Reads on a regular file -/

/-- The operations of a regular file, which is never descriptor 0 or 1. -/
theorem Regular.ops (h : Regular (k.table p i)) (hok : TableOk (k.table p)) :
    (k.table p i).fileOpTablePtr = some .fs := by
  have htype := h.fileType
  rcases hok.read_ops h.inUse (by rw [htype]; decide) with ⟨hin, -⟩ | ⟨hrtc, -, -⟩ | ⟨hdir, -, -⟩ | hfs
  · rw [htype] at hin
    exact absurd hin (by decide)
  · rw [htype] at hrtc
    exact absurd hrtc (by decide)
  · rw [htype] at hdir
    exact absurd hdir (by decide)
  · exact hfs.2

theorem Regular.two_le (h : Regular (k.table p i)) (hok : TableOk (k.table p)) : 2 ≤ i := by
  have htype := h.fileType
  refine two_le_iff.mpr ⟨?_, ?_⟩
  · rintro rfl
    rw [hok.stdin.2.1] at htype
    exact absurd htype (by decide)
  · rintro rfl
    rw [hok.stdout.2.1] at htype
    exact absurd htype (by decide)

/-- `kread` on a regular file is `fs_read`, if the buffer and the count are good. -/
theorem kread_regular (hp : k.desc = some p) (hok : TableOk (k.table p))
    (hi : Regular (k.table p i)) (buf : ℕ) (nbytes : ℤ) :
    k.kread i buf nbytes = if buf = 0 ∨ nbytes < 0 then some (k, ⟨-1, []⟩)
      else some (k.fsRead p (k.table p i).inodePtr (k.table p i).filePosition nbytes.toNat buf) := by
  have hcheck : checkFd (k.pcbs p).files readable i = some (k.table p i) :=
    checkFd_eq_some.mpr ⟨i, rfl, rfl, hi.inUse, by rw [hi.fileType]; decide⟩
  simp only [kread, hp, Option.bind_eq_bind, Option.bind_some, Option.pure_def, hcheck]
  rw [opRead, hi.ops hok]

/-! ## Positions -/

/-- Positions of open descriptors are 32-bit numbers. -/
def PositionsOk (f : FileArray) : Prop := ∀ i, 2 ≤ i → (f i).InUse → (f i).filePosition < 2 ^ 32

theorem PositionsOk.update {f : FileArray} (h : PositionsOk f) {d : FileDescriptor}
    (hd : d.InUse → d.filePosition < 2 ^ 32) : PositionsOk (Function.update f i d) := by
  intro j hj huse
  by_cases hji : j = i
  · subst hji
    rw [Function.update_self] at huse ⊢
    exact hd huse
  · rw [Function.update_of_ne hji] at huse ⊢
    exact h j hj huse

theorem PositionsOk.incrementPosition (h : PositionsOk (k.table p)) (inode : ℕ) (amt : ℤ) :
    PositionsOk ((k.incrementPosition p inode amt).table p) := by
  intro j hj huse
  rw [table_incrementPosition] at huse ⊢
  split at huse
  · rename_i hc
    rw [if_pos hc]
    show (_ % 2 ^ 32 : ℤ).toNat < 2 ^ 32
    omega
  · rename_i hc
    rw [if_neg hc]
    exact h j hj huse

/-- What a read of `nbytes` bytes does to the table of `p`: it is refused, it reads a device, a
directory or a line, or it reads a file and moves the descriptors on its inode. -/
inductive ReadCases (k : Kernel) (p : Pid) (fd : ℤ) (buf : ℕ) (nbytes : ℤ) : Kernel → ReadResult → Prop
  | refused : ReadCases k p fd buf nbytes k ⟨-1, []⟩
  | device {k' : Kernel} {r : ReadResult} : k'.table p = k.table p → 0 ≤ r.ret →
      ReadCases k p fd buf nbytes k' r
  | file {i : Fin 8} {e : Dentry} {r : ReadResult} : ¬(buf = 0 ∨ nbytes < 0) → fd = i →
      (k.table p i).InUse →
      (k.table p i).fileOpTablePtr = some .fs →
      readDentryByName k.img (returnDentryByPtr k.img (k.table p i).inodePtr) = some e →
      r = readData k.img (entryInode k.img e) (k.table p i).filePosition buf nbytes.toNat →
      ReadCases k p fd buf nbytes (k.incrementPosition p (k.table p i).inodePtr r.ret) r

theorem kread_cases {fd nbytes : ℤ} {buf : ℕ} {r : ReadResult} (hp : k.desc = some p)
    (h : k.kread fd buf nbytes = some (k', r)) : ReadCases k p fd buf nbytes k' r := by
  simp only [kread, hp, Option.bind_eq_bind, Option.bind_some, Option.pure_def] at h
  split at h
  · cases h
    exact .refused
  · rename_i hgood
    split at h
    · cases h
      exact .refused
    · rename_i d hfd
      obtain ⟨i, hi, rfl, huse, -⟩ := checkFd_eq_some.mp hfd
      unfold opRead at h
      split at h
      · cases h
      · cases h
        exact .device rfl (Int.le_refl 0)
      · cases h
        refine .device rfl ?_
        unfold dirRead
        split
        · exact Int.le_refl 0
        · exact Int.natCast_nonneg _
      · rename_i hops
        have hread := Option.some.inj h
        unfold fsRead at hread
        split at hread
        · cases hread
          exact .refused
        · rename_i e he
          cases hread
          exact .file hgood hi huse hops he rfl
      · obtain ⟨⟨tm, bytes⟩, -, he⟩ := Option.map_eq_some_iff.mp h
        cases he
        exact .device rfl (Int.natCast_nonneg _)

theorem Call.exec_positionsOk {c : Call} (h : c.exec k = some k') (hp : k.desc = some p)
    (hok : TableOk (k.table p)) (hpos : PositionsOk (k.table p)) : PositionsOk (k'.table p) := by
  cases c with
  | kopen name =>
    obtain ⟨k₁, r, hk₁, hspec⟩ := kopen_spec hp name
    rw [exec, hk₁] at h
    cases h
    by_cases hr : r = -1
    · rw [hspec.unchanged hr]
      exact hpos
    · obtain ⟨i, -, -, -, -, e, rfl, -, hzero, -⟩ := hspec.opened hr
      rw [table_modifyFile]
      exact hpos.update fun _ => by rw [hzero]; decide
  | kclose fd =>
    obtain ⟨k₁, r, hk₁, hspec⟩ := kclose_spec hp hok fd
    rw [exec, hk₁] at h
    cases h
    by_cases hr : r = 0
    · obtain ⟨i, hi, -⟩ := hspec.succeeds_iff.mp hr
      rw [hspec.freed i hi hr, table_modifyFile]
      exact hpos.update fun hu => absurd hu (by simp [FileDescriptor.InUse])
    · rw [(hspec.unchanged hr).2]
      exact hpos
  | kread fd buf nbytes =>
    obtain ⟨⟨k₁, r⟩, hk₁, rfl⟩ := Option.map_eq_some_iff.mp h
    cases kread_cases hp hk₁ with
    | refused => exact hpos
    | device htable _ =>
      rw [htable]
      exact hpos
    | file => exact hpos.incrementPosition _ _
  | kwrite fd buf nbytes =>
    obtain ⟨⟨k₁, r⟩, hk₁, rfl⟩ := Option.map_eq_some_iff.mp h
    rw [table, (kwrite_pcbs hk₁ hp).1]
    exact hpos

/-- In every state of a session the positions fit. -/
theorem Session.positionsOk (h : Session p k) : PositionsOk (k.table p) := by
  induction h with
  | start hstart =>
    simp only [openStdinStdout, setCurrentProcess, Option.map_some, Option.some.injEq] at hstart
    subst hstart
    intro i hi huse
    -- no descriptor from 2 on is in use yet
    obtain ⟨h0, h1⟩ := two_le_iff.mp hi
    simp [table, modifyFile, modifyPcb, clearFdarray, FileDescriptor.InUse, h0, h1] at huse
  | call c hsession hc ih => exact c.exec_positionsOk hc hsession.tableOk.2 hsession.tableOk.1 ih
  | other _ htable _ ih =>
    rw [htable]
    exact ih

/-! ## What a read moves -/

theorem positions_eq_nil_iff {img : Image} {inode offset n : ℕ} :
    positions img inode offset n = [] ↔ n = 0 ∨ inodeLength img inode ≤ offset := by
  unfold positions
  rw [List.range'_eq_nil_iff]
  omega

/-- The return value of `read_data` is -1 or the number of positions it was asked for. -/
theorem readData_ret_cases (img : Image) {offset : ℕ} (hlt : offset < 2 ^ 32) (inode buf n : ℕ) :
    (readData img inode offset buf n).ret = -1 ∧ positions img inode offset n ≠ [] ∨
      (readData img inode offset buf n).ret = (positions img inode offset n).length := by
  obtain ⟨hstored, hret⟩ := readData_index img hlt inode buf n
  by_cases hall : ((positions img inode offset n).all fun pos => IndexOk img inode pos) = true
  · rw [if_pos hall, hstored, List.length_map, List.takeWhile_eq_self_iff.mpr
      (List.all_eq_true.mp hall)] at hret
    exact .inr hret
  · rw [if_neg hall] at hret
    refine .inl ⟨hret, ?_⟩
    rintro hnil
    rw [hnil] at hall
    exact hall rfl

/-- Moving by a return value of `read_data` changes the position, unless nothing was delivered. -/
theorem moved_eq_self_iff {img : Image} {inode offset buf n x : ℕ} (hlt : offset < 2 ^ 32)
    (hx : x < 2 ^ 32) :
    ((x + (readData img inode offset buf n).ret) % 2 ^ 32).toNat = x ↔
      n = 0 ∨ inodeLength img inode ≤ offset := by
  have hmax := inodeLength_lt img inode
  have hlen : (positions img inode offset n).length ≤ inodeLength img inode := by
    unfold positions
    rw [List.length_range']
    omega
  rw [← positions_eq_nil_iff, ← List.length_eq_zero_iff]
  rcases readData_ret_cases img hlt inode buf n with ⟨hret, hne⟩ | hret
  · rw [hret]
    have := List.length_pos_iff.mpr hne
    omega
  · rw [hret]
    omega

/-- A pointer behind which a directory entry is found is not `NULL`. -/
theorem ptr_ne_zero_of_lookup {img : Image} {ptr : ℕ} {e : Dentry}
    (h : readDentryByName img (returnDentryByPtr img ptr) = some e) : ptr ≠ 0 := by
  rintro rfl
  rw [returnDentryByPtr, if_pos rfl] at h
  cases h

/-- It moves every descriptor with the inode pointer, unless it delivers nothing. -/
theorem table_fsRead_iff (hj : 2 ≤ j) (hpos : (k.table p j).filePosition < 2 ^ 32) {offset : ℕ}
    (hoffset : offset < 2 ^ 32) (count buf : ℕ) :
    (k.fsRead p (k.table p j).inodePtr offset count buf).1.table p j = k.table p j ↔
      ∀ e, readDentryByName k.img (returnDentryByPtr k.img (k.table p j).inodePtr) = some e →
        count = 0 ∨ inodeLength k.img (entryInode k.img e) ≤ offset := by
  unfold fsRead
  cases he : readDentryByName k.img (returnDentryByPtr k.img (k.table p j).inodePtr) with
  | none => exact ⟨fun _ e h => (by cases h), fun _ => rfl⟩
  | some e =>
    have hmoved := @moved_eq_self_iff k.img (entryInode k.img e) offset buf count _ hoffset hpos
    dsimp only
    rw [table_incrementPosition, if_pos ⟨ptr_ne_zero_of_lookup he, hj, rfl⟩]
    constructor
    · rintro hd e' ⟨⟩
      exact hmoved.mp (congrArg FileDescriptor.filePosition hd)
    · intro h
      rw [← entryInode, hmoved.mpr (h e rfl)]

/-- Every block index that a read of `n` bytes through the descriptor needs passes the test. -/
def Intact (img : Image) (d : FileDescriptor) (n : ℕ) : Prop :=
  ∀ e, readDentryByName img (returnDentryByPtr img d.inodePtr) = some e →
    ∀ pos ∈ positions img (entryInode img e) d.filePosition n, IndexOk img (entryInode img e) pos

/-- A read is refused before the file is looked at, or it is not a read of a regular file, or every
block index that it needs passes the test. -/
def FailsEarly (k : Kernel) (p : Pid) (fd : ℤ) (buf : ℕ) (nbytes : ℤ) : Prop :=
  buf = 0 ∨ nbytes < 0 ∨
    ∀ i : Fin 8, fd = i → Regular (k.table p i) → Intact k.img (k.table p i) nbytes.toNat

/-- A read that fails early changes nothing. -/
theorem FailsEarly.unchanged (h : Session p k) {fd nbytes : ℤ} {buf : ℕ} {r : ReadResult}
    (hearly : k.FailsEarly p fd buf nbytes) (hread : k.kread fd buf nbytes = some (k', r))
    (hfail : r.ret = -1) : k' = k := by
  obtain ⟨hok, hp⟩ := h.tableOk
  cases kread_cases hp hread with
  | refused => rfl
  | device _ hret => omega
  | @file i e _ hgood hi huse hops he hr =>
    exfalso
    have htwo : 2 ≤ i := by
      refine two_le_iff.mpr ⟨?_, ?_⟩
      · rintro rfl
        rw [hok.stdin.2.2] at hops
        cases hops
      · rintro rfl
        rw [hok.stdout.2.2] at hops
        cases hops
    have hregular : Regular (k.table p i) := by
      rcases hok.files i htwo huse with hrtc | hdir | hfs
      · rw [hops] at hrtc
        cases hrtc.2.1
      · rw [hops] at hdir
        cases hdir.2.1
      · exact ⟨huse, hfs.1⟩
    rw [hr, readData_ret_eq_neg_one k.img (h.positionsOk i htwo huse)] at hfail
    rcases hearly with hbuf | hneg | hintact
    · exact hgood (.inl hbuf)
    · exact hgood (.inr hneg)
    · exact hfail (hintact i hi hregular e he)

/-- A read that meets a bad block index fails and moves its own descriptor. -/
theorem kread_not_intact (h : Session p k) {buf : ℕ} {nbytes : ℤ} (hi : Regular (k.table p i))
    (hgood : ¬(buf = 0 ∨ nbytes < 0)) (hbad : ¬Intact k.img (k.table p i) nbytes.toNat) :
    ∃ k' r, k.kread i buf nbytes = some (k', r) ∧ r.ret = -1 ∧ k'.table p i ≠ k.table p i := by
  obtain ⟨hok, hp⟩ := h.tableOk
  have hpos := h.positionsOk i (hi.two_le hok) hi.inUse
  unfold Intact at hbad
  push Not at hbad
  obtain ⟨e, he, pos, hmem, hindex⟩ := hbad
  rw [kread_regular hp hok hi, if_neg hgood]
  refine ⟨_, _, rfl, ?_, fun hsame => ?_⟩
  · have hret := (readData_ret_eq_neg_one k.img hpos (entryInode k.img e) buf nbytes.toNat).mpr
      fun hall => hindex (hall pos hmem)
    rw [he]
    exact hret
  · -- an unmoved position means that there was no byte to come to
    have hnothing := (table_fsRead_iff (hi.two_le hok) hpos hpos _ _).mp hsame e he
    rw [positions_eq_nil_iff.mpr hnothing] at hmem
    cases hmem

/-- Every read that fails leaves the descriptor table as it was, exactly if the read fails early; and
then the whole kernel is as it was. -/
theorem failed_read_unchanged (h : Session p k) (fd : ℤ) (buf : ℕ) (nbytes : ℤ) :
    ((∀ k' r, k.kread fd buf nbytes = some (k', r) → r.ret = -1 → k'.table p = k.table p) ↔
      k.FailsEarly p fd buf nbytes) ∧
    (k.FailsEarly p fd buf nbytes →
      ∀ k' r, k.kread fd buf nbytes = some (k', r) → r.ret = -1 → k' = k) := by
  have hwhole : k.FailsEarly p fd buf nbytes →
      ∀ k' r, k.kread fd buf nbytes = some (k', r) → r.ret = -1 → k' = k :=
    fun hearly k' r hread hfail => hearly.unchanged h hread hfail
  refine ⟨⟨fun hsame => ?_, fun hearly k' r hread hfail => ?_⟩, hwhole⟩
  · by_contra hcond
    unfold FailsEarly at hcond
    push Not at hcond
    obtain ⟨hbuf, hneg, i, rfl, hi, hbad⟩ := hcond
    have hgood : ¬(buf = 0 ∨ nbytes < 0) := not_or.mpr ⟨hbuf, Int.not_lt.mpr hneg⟩
    obtain ⟨k', r, hread, hfail, hmoved⟩ := kread_not_intact h hi hgood hbad
    exact hmoved (congrFun (hsame k' r hread hfail) i)
  · rw [hwhole hearly k' r hread hfail]

/-- A negative count on the open file `abc`. -/
theorem failed_read_unchanged_count : ∃ k k' r,
    sampleSession sampleImage (openEntries sampleImage [1]) = some k ∧
      k.kread 2 1 (-1) = some (k', r) ∧ r.ret = -1 ∧ k' = k := by
  have heval : (sampleSession sampleImage (openEntries sampleImage [1])).map (fun k =>
      (k.kread 2 1 (-1)).any fun x => x.2.ret = -1) = some true := by
    decide +kernel
  obtain ⟨k, hk, hfacts⟩ := Option.map_eq_some_iff.mp heval
  simp only [Option.any_eq_true, decide_eq_true_eq] at hfacts
  obtain ⟨⟨k', r⟩, hread, hret⟩ := hfacts
  have hearly : k.FailsEarly 0 2 1 (-1) := .inr (.inl (by decide))
  exact ⟨k, k', r, hk, hread, hret,
    (failed_read_unchanged (sampleSession_session hk) 2 1 (-1)).2 hearly k' r hread hret⟩

/-- The sample image with a bad block index in `abc`. -/
def brokenImage : Image := patchedImage [(8196, 9)]

/-- The read fails and moves the position one byte back, to `2 ^ 32 - 1`; the next read finds the
end of the file there. -/
theorem failed_read_unchanged_broken :
    ∃ k, Session 0 k ∧ Regular (k.table 0 2) ∧ (k.table 0 2).filePosition = 0 ∧
      ∃ k' r, k.kread 2 1 3 = some (k', r) ∧ r.ret = -1 ∧
        (k'.table 0 2).filePosition = 2 ^ 32 - 1 ∧
        ∃ k'' r', k'.kread 2 1 3 = some (k'', r') ∧ r'.ret = 0 := by
  have heval : (sampleSession brokenImage (openEntries brokenImage [1])).map (fun k =>
      decide ((k.table 0 2).InUse ∧ (k.table 0 2).fileType = regularFileType ∧
        (k.table 0 2).filePosition = 0) &&
      (k.kread 2 1 3).any fun x => decide (x.2.ret = -1 ∧
        (x.1.table 0 2).filePosition = 2 ^ 32 - 1) && (x.1.kread 2 1 3).any fun y => y.2.ret = 0)
      = some true := by
    decide +kernel
  obtain ⟨k, hk, hfacts⟩ := Option.map_eq_some_iff.mp heval
  simp only [Bool.and_eq_true, decide_eq_true_eq, Option.any_eq_true] at hfacts
  obtain ⟨⟨huse, htype, hzero⟩, ⟨k', r⟩, hread, ⟨hret, hmoved⟩, ⟨k'', r'⟩, hread', hret'⟩ := hfacts
  exact ⟨k, sampleSession_session hk, ⟨huse, htype⟩, hzero, k', r, hread, hret, hmoved, k'', r',
    hread', hret'⟩

end Kernel
end GalapagOS
