import GalapagOS.FileSystem.Common
import Mathlib.Data.List.Basic
import Mathlib.Data.List.TakeWhile
import Mathlib.Tactic.Ring

/-!
# What the file system reads

A regular file is the list of bytes its inode describes (`fileBytes`). `read_data` keeps the index
of the current block in a variable of its own, which it advances when the next byte starts a
block. The loop lemma `readDataLoop_spec` says that this index is always the block of the next
byte; on an inode whose needed block indices are in range, `readData` delivers the requested
slice of the file. A name comparison is the equality of the two names as strings of at most 32 bytes, and on a
well-formed image the way from an inode pointer back to a name and on to a directory
entry ends at the same inode.
-/

namespace GalapagOS
namespace FileSystem

variable {img : Image}

theorem word_lt (b : ℕ → UInt8) : word b < 2 ^ 32 := by
  have h0 := (b 0).toNat_lt
  have h1 := (b 1).toNat_lt
  have h2 := (b 2).toNat_lt
  have h3 := (b 3).toNat_lt
  unfold word
  omega

theorem numDataBlocks_lt (img : Image) : numDataBlocks img < 2 ^ 32 := by
  unfold numDataBlocks Image.word
  exact word_lt _

theorem inodeLength_lt (img : Image) (inode : ℕ) : inodeLength img inode < 2 ^ 32 := by
  unfold inodeLength Image.word
  exact word_lt _

/-! ## File contents -/

/-- Byte `i` of a file, wherever its block is. -/
def fileByte (img : Image) (inode i : ℕ) : UInt8 :=
  img.byte (dataStart img + dataBlock img inode (i / blockSize) * blockSize + i % blockSize)

/-- The contents of a file. -/
def fileBytes (img : Image) (inode : ℕ) : List UInt8 :=
  (List.range (inodeLength img inode)).map (fileByte img inode)

@[simp] theorem length_fileBytes (inode : ℕ) :
    (fileBytes img inode).length = inodeLength img inode := by
  simp [fileBytes]

/-- The length fits the 1023 block indices, and every index that is needed is in range. -/
structure InodeOk (img : Image) (inode : ℕ) : Prop where
  length_le : inodeLength img inode ≤ 1023 * blockSize
  block_lt : ∀ j, j * blockSize < inodeLength img inode → dataBlock img inode j < numDataBlocks img

/-! ## `read_data` -/

/-- The index of the block of byte `pos` is in range. -/
def BlockOk (img : Image) (inode pos : ℕ) : Prop :=
  dataBlock img inode (pos / blockSize) < numDataBlocks img

instance (img : Image) (inode pos : ℕ) : Decidable (BlockOk img inode pos) :=
  inferInstanceAs (Decidable (_ < _))

/-- The positions that a read of `n` bytes from `pos` on delivers. -/
def positions (img : Image) (inode pos n : ℕ) : List ℕ :=
  List.range' pos (min n (inodeLength img inode - pos))

theorem positions_succ {inode pos : ℕ} (n : ℕ) (h : pos < inodeLength img inode) :
    positions img inode pos (n + 1) = pos :: positions img inode (pos + 1) n := by
  unfold positions
  have hmin : min (n + 1) (inodeLength img inode - pos)
      = min n (inodeLength img inode - (pos + 1)) + 1 := by omega
  rw [hmin, List.range'_succ]

theorem positions_of_le {inode pos : ℕ} (n : ℕ) (h : inodeLength img inode ≤ pos) :
    positions img inode pos n = [] := by
  unfold positions
  rw [Nat.sub_eq_zero_of_le h, Nat.min_zero, List.range'_zero]

/-- The block index of byte `pos` passes the test of `read_data`. The comparison is unsigned, and
`num_data_blocks - 1` wraps at 0. -/
def IndexOk (img : Image) (inode pos : ℕ) : Prop :=
  ¬(numDataBlocks img + (2 ^ 32 - 1)) % 2 ^ 32 < dataBlock img inode (pos / blockSize)

instance (img : Image) (inode pos : ℕ) : Decidable (IndexOk img inode pos) :=
  inferInstanceAs (Decidable (¬_))

/-- If there are data blocks at all, the test is the one that is meant. -/
theorem indexOk_iff (hblocks : 0 < numDataBlocks img) (inode pos : ℕ) :
    IndexOk img inode pos ↔ BlockOk img inode pos := by
  have hnum := numDataBlocks_lt img
  have hwrap : (numDataBlocks img + (2 ^ 32 - 1)) % 2 ^ 32 = numDataBlocks img - 1 := by omega
  unfold IndexOk BlockOk
  rw [hwrap]
  omega

/-- The block cursor goes to the block of the next byte. -/
theorem next_block {pos : ℕ} (h : pos + 1 < 2 ^ 32) :
    (if (pos + 1) % 2 ^ 32 % blockSize = 0 then pos / blockSize + 1 else pos / blockSize)
      = (pos + 1) / blockSize := by
  rw [Nat.mod_eq_of_lt h]
  unfold blockSize
  split <;> omega

/-- Byte `offset + i` needs block `blockIdx`; the loop does not wrap, because the last 32-bit
offset is never below a length. -/
theorem readDataLoop_spec (img : Image) (inode offset n : ℕ) :
    ∀ i, offset + i < 2 ^ 32 →
      readDataLoop img inode offset n i ((offset + i) / blockSize)
        = (((positions img inode (offset + i) n).takeWhile fun pos => IndexOk img inode pos).map
              (fileByte img inode),
            (positions img inode (offset + i) n).all fun pos => IndexOk img inode pos) := by
  induction n with
  | zero =>
    intro i _
    simp [readDataLoop, positions]
  | succ n ih =>
    intro i hlt
    have hmod : (offset + i) % 2 ^ 32 = offset + i := Nat.mod_eq_of_lt hlt
    have hlen := inodeLength_lt img inode
    rw [readDataLoop, hmod]
    by_cases hend : inodeLength img inode ≤ offset + i
    · rw [if_pos hend, positions_of_le _ hend]
      rfl
    · rw [if_neg hend, positions_succ n (by omega)]
      simp only [next_block (show offset + i + 1 < 2 ^ 32 by omega)]
      by_cases hok : IndexOk img inode (offset + i)
      · have hrec := ih (i + 1) (by omega)
        rw [← Nat.add_assoc] at hrec
        rw [if_neg hok, hrec]
        simp only [List.takeWhile_cons, List.all_cons, hok, decide_true, if_true, List.map_cons,
          Bool.true_and]
        rfl
      · rw [if_pos (not_not.mp hok)]
        simp [hok]

/-- `read_data` on any image: the bytes before the first bad block index, and whether there
is one. -/
theorem readData_index (img : Image) {offset : ℕ} (hlt : offset < 2 ^ 32) (inode buf n : ℕ) :
    (readData img inode offset buf n).stored
        = ((positions img inode offset n).takeWhile fun pos => IndexOk img inode pos).map
            (fileByte img inode) ∧
      (readData img inode offset buf n).ret
        = if (positions img inode offset n).all fun pos => IndexOk img inode pos then
            ((readData img inode offset buf n).stored.length : ℤ) else -1 := by
  have hloop := readDataLoop_spec img inode offset n 0 (by omega)
  rw [Nat.add_zero] at hloop
  unfold readData
  split
  · rename_i hnull
    simp [positions_of_le n hnull.2.le]
  · rw [hloop]
    exact ⟨rfl, rfl⟩

/-- `read_data` fails exactly when a byte it is asked for has a bad block index. -/
theorem readData_ret_eq_neg_one (img : Image) {offset : ℕ} (hlt : offset < 2 ^ 32)
    (inode buf n : ℕ) :
    (readData img inode offset buf n).ret = -1 ↔
      ¬∀ pos ∈ positions img inode offset n, IndexOk img inode pos := by
  have hall : ((positions img inode offset n).all fun pos => IndexOk img inode pos) = true ↔
      ∀ pos ∈ positions img inode offset n, IndexOk img inode pos := by
    simp only [List.all_eq_true, decide_eq_true_eq]
  rw [(readData_index img hlt inode buf n).2, ← hall]
  split
  · rename_i hgood
    refine ⟨fun hneg => ?_, fun hbad => absurd hgood hbad⟩
    omega
  · rename_i hbad
    exact ⟨fun _ => hbad, fun _ => rfl⟩

/-- `read_data` on an image with data blocks. -/
theorem readData_spec {inode offset : ℕ}
    (hblocks : 0 < inodeLength img inode → 0 < numDataBlocks img) (hlt : offset < 2 ^ 32)
    (buf n : ℕ) :
    (readData img inode offset buf n).stored
        = ((positions img inode offset n).takeWhile fun pos => BlockOk img inode pos).map
            (fileByte img inode) ∧
      (readData img inode offset buf n).ret
        = if (positions img inode offset n).all fun pos => BlockOk img inode pos then
            ((readData img inode offset buf n).stored.length : ℤ) else -1 := by
  have h := readData_index img hlt inode buf n
  by_cases hlen : 0 < inodeLength img inode
  · have htest : (fun pos => decide (IndexOk img inode pos)) = fun pos => decide (BlockOk img inode pos) :=
      funext fun pos => decide_eq_decide.mpr (indexOk_iff (hblocks hlen) inode pos)
    rw [htest] at h
    exact h
  · -- there is nothing to read
    rw [positions_of_le n (by omega)] at h ⊢
    rw [List.takeWhile_nil, List.all_nil] at h ⊢
    exact h

theorem map_positions (inode offset n : ℕ) :
    (positions img inode offset n).map (fileByte img inode)
      = ((fileBytes img inode).drop offset).take n := by
  unfold positions fileBytes
  have hmin : min (offset + n) (inodeLength img inode) - offset
      = min n (inodeLength img inode - offset) := by omega
  rw [← List.map_drop, ← List.map_take, List.take_drop, List.take_range, List.range_eq_range',
    List.drop_range', hmin, Nat.zero_add, Nat.mul_one]

/-- A read that does not fail returns the requested slice of the file. -/
theorem readData_complete {inode offset buf n : ℕ} (hlt : offset < 2 ^ 32)
    (h : (readData img inode offset buf n).ret ≠ -1) :
    readData img inode offset buf n
      = ⟨(((fileBytes img inode).drop offset).take n).length,
          ((fileBytes img inode).drop offset).take n⟩ := by
  have hgood : ∀ pos ∈ positions img inode offset n, IndexOk img inode pos := by
    rw [Ne, readData_ret_eq_neg_one img hlt, not_not] at h
    exact h
  obtain ⟨hstored, hret⟩ := readData_index img hlt inode buf n
  rw [List.takeWhile_eq_self_iff.mpr fun pos hpos => decide_eq_true (hgood pos hpos),
    map_positions] at hstored
  rw [if_pos (List.all_eq_true.mpr fun pos hpos => decide_eq_true (hgood pos hpos)), hstored] at hret
  calc readData img inode offset buf n
      = ⟨(readData img inode offset buf n).ret, (readData img inode offset buf n).stored⟩ := rfl
    _ = _ := by rw [hret, hstored]

/-- Every block index of the file passes the test. -/
def FileIntact (img : Image) (inode : ℕ) : Prop :=
  ∀ pos < inodeLength img inode, IndexOk img inode pos

/-- Reading an intact file. -/
theorem readData_intact {inode offset : ℕ} (h : FileIntact img inode) (hlt : offset < 2 ^ 32)
    (buf n : ℕ) :
    readData img inode offset buf n
      = ⟨(((fileBytes img inode).drop offset).take n).length,
          ((fileBytes img inode).drop offset).take n⟩ := by
  apply readData_complete hlt
  rw [Ne, readData_ret_eq_neg_one img hlt, not_not]
  intro pos hpos
  unfold positions at hpos
  rw [List.mem_range'_1] at hpos
  exact h pos (by omega)

theorem BlockOk.indexOk {inode pos : ℕ} (h : BlockOk img inode pos) : IndexOk img inode pos := by
  have hblocks : 0 < numDataBlocks img := (Nat.zero_le _).trans_lt h
  exact (indexOk_iff hblocks inode pos).mpr h

theorem InodeOk.intact {inode : ℕ} (hok : InodeOk img inode) : FileIntact img inode := by
  intro pos hpos
  have hblock : BlockOk img inode pos := by
    apply hok.block_lt
    have := Nat.div_mul_le_self pos blockSize
    omega
  exact hblock.indexOk

/-- `read_data` on a good inode returns the requested slice of the file. -/
theorem readData_eq {inode offset : ℕ} (hok : InodeOk img inode) (hlt : offset < 2 ^ 32)
    (buf n : ℕ) :
    readData img inode offset buf n
      = ⟨(((fileBytes img inode).drop offset).take n).length,
          ((fileBytes img inode).drop offset).take n⟩ :=
  readData_intact hok.intact hlt buf n

/-! ## Names -/

/-- The string of at most 32 bytes that starts a name field. -/
def cname (f : ℕ → UInt8) : List UInt8 :=
  ((List.range fnameSize).map f).takeWhile (· ≠ 0)

theorem cname_eq_nil (f : ℕ → UInt8) : cname f = [] ↔ f 0 = 0 := by
  have hrange : List.range fnameSize = 0 :: (List.range 31).map Nat.succ := List.range_succ_eq_map
  unfold cname
  rw [hrange, List.map_cons]
  by_cases h0 : f 0 = 0 <;> simp [h0]

/-- The name of an entry. -/
def entryName (img : Image) (i : ℕ) : List UInt8 := cname (entry img i).fileName

theorem checkFileNameLoop_iff (f g : ℕ → UInt8) :
    ∀ n i, checkFileNameLoop f g n i
      = decide (((List.range' i n).map f).takeWhile (· ≠ 0)
          = ((List.range' i n).map g).takeWhile (· ≠ 0))
  | 0, i => by simp [checkFileNameLoop]
  | n + 1, i => by
    rw [checkFileNameLoop, checkFileNameLoop_iff f g n (i + 1), List.range'_succ]
    by_cases hfg : f i = g i
    · by_cases hz : g i = 0
      · simp [hfg, hz]
      · simp [hfg, hz]
    · by_cases hz : f i = 0
      · have hg : g i ≠ 0 := fun h => hfg (hz.trans h.symm)
        simp [hz, hg, hg.symm]
      · by_cases hg : g i = 0
        · simp [hz, hg]
        · simp [hfg, hz, hg]

/-- A comparison succeeds exactly on equal names. -/
theorem checkFileName_iff (f : ℕ → UInt8) (e : Dentry) :
    checkFileName f e = true ↔ cname f = cname e.fileName := by
  rw [checkFileName, checkFileNameLoop_iff, decide_eq_true_iff, ← List.range_eq_range']
  rfl

/-- A successful lookup returns the first entry of that name. -/
theorem readDentryByName_eq_some {f : ℕ → UInt8} {d : Dentry}
    (h : readDentryByName img (some f) = some d) :
    f 0 ≠ 0 ∧ ∃ i < bootBlockEntries, d = entry img i ∧ cname f = cname d.fileName := by
  simp only [readDentryByName] at h
  by_cases h0 : f 0 = 0
  · simp [h0] at h
  · rw [if_neg h0, Option.map_eq_some_iff] at h
    obtain ⟨i, hfind, rfl⟩ := h
    refine ⟨h0, i, ?_, rfl, (checkFileName_iff _ _).mp (by simpa using List.find?_some hfind)⟩
    simpa using List.mem_of_find?_eq_some hfind

/-! ## Well-formed images -/

/-- The first entries are in use, with different non-empty names; the others have no name. -/
structure Image.DirOk (img : Image) : Prop where
  entries_le : numDirEntries img ≤ bootBlockEntries
  name_ne : ∀ i < numDirEntries img, entryName img i ≠ []
  name_inj : ∀ i < numDirEntries img, ∀ j < numDirEntries img,
    entryName img i = entryName img j → i = j
  unused : ∀ i < bootBlockEntries, numDirEntries img ≤ i → entryName img i = []

/-- A good directory: every inode is good as well, every regular file has one, and the image lies in
the address space. -/
structure Image.WellFormed (img : Image) : Prop extends DirOk img where
  inode_ok : ∀ m < numInodes img, InodeOk img (getInodePtr img m)
  inode_lt : ∀ i < numDirEntries img, (entry img i).fileType = 2 →
    (entry img i).inodeNum < numInodes img
  fits : inodes img + numInodes img * inodeSize + numDataBlocks img * blockSize ≤ 2 ^ 32

/-- The pointer of an inode of the image. -/
theorem getInodePtr_eq (hwf : img.WellFormed) {m : ℕ} (hm : m < numInodes img) :
    getInodePtr img m = inodes img + m * inodeSize := by
  have hfits := hwf.fits
  unfold getInodePtr inodes bootBlockSize inodeSize at *
  rw [if_neg (by omega), Nat.mod_eq_of_lt (by omega)]

theorem getInodePtr_ne_zero (hwf : img.WellFormed) {m : ℕ} (hm : m < numInodes img) :
    getInodePtr img m ≠ 0 := by
  rw [getInodePtr_eq hwf hm]
  unfold inodes bootBlockSize
  omega

theorem getInodePtr_inj (hwf : img.WellFormed) {m m' : ℕ} (hm : m < numInodes img)
    (hm' : m' < numInodes img) (h : getInodePtr img m = getInodePtr img m') : m = m' := by
  rw [getInodePtr_eq hwf hm, getInodePtr_eq hwf hm'] at h
  unfold inodeSize at h
  omega

/-- Looking up the name of an entry finds the entry. -/
theorem readDentryByName_entry (hwf : img.WellFormed) {i : ℕ} (hi : i < numDirEntries img) :
    readDentryByName img (some (entry img i).fileName) = some (entry img i) := by
  have hle := hwf.entries_le
  obtain ⟨d, hd⟩ : ∃ d, readDentryByName img (some (entry img i).fileName) = some d := by
    have hne : (entry img i).fileName 0 ≠ 0 := fun h0 => hwf.name_ne i hi ((cname_eq_nil _).mpr h0)
    rw [← Option.isSome_iff_exists, readDentryByName, if_neg hne, Option.isSome_map, List.find?_isSome]
    exact ⟨i, by simpa using lt_of_lt_of_le hi hle, (checkFileName_iff _ _).mpr rfl⟩
  obtain ⟨-, j, hj, rfl, hname⟩ := readDentryByName_eq_some hd
  -- an unused slot has an empty name and cannot match
  have hjn : j < numDirEntries img := by
    by_contra hge
    exact hwf.name_ne i hi (hname.trans (hwf.unused j hj (by omega)))
  rw [hd, ← hwf.name_inj i hi j hjn hname]

/-- From the pointer of a file back to a name and on to a directory entry: the entry has the
same inode. -/
theorem lookup_of_inodePtr (hwf : img.WellFormed) {i : ℕ} (hi : i < numDirEntries img)
    (htype : (entry img i).fileType = 2) :
    ∃ d, readDentryByName img (returnDentryByPtr img (getInodePtr img (entry img i).inodeNum))
        = some d ∧
      (inodes img + d.inodeNum * inodeSize) % 2 ^ 32 = getInodePtr img (entry img i).inodeNum := by
  have hm := hwf.inode_lt i hi htype
  have hle := hwf.entries_le
  have hptr := getInodePtr_eq hwf hm
  have hfits := hwf.fits
  unfold bootBlockEntries at hle
  have hnumber : (getInodePtr img (entry img i).inodeNum + (2 ^ 32 - inodes img % 2 ^ 32)) % 2 ^ 32
      / inodeSize = (entry img i).inodeNum := by
    rw [hptr]
    unfold inodes bootBlockSize inodeSize at *
    omega
  have hcount : (if numDirEntries img < 2 ^ 31 then numDirEntries img else 0) = numDirEntries img :=
    if_pos (by omega)
  obtain ⟨j, hj⟩ : ∃ j, (List.range (numDirEntries img)).find?
      (fun j => (entry img j).inodeNum = (entry img i).inodeNum) = some j := by
    rw [← Option.isSome_iff_exists, List.find?_isSome]
    exact ⟨i, by simpa using hi, by simp⟩
  have hjn : j < numDirEntries img := by simpa using List.mem_of_find?_eq_some hj
  have hnum : (entry img j).inodeNum = (entry img i).inodeNum := by
    simpa using List.find?_some hj
  refine ⟨entry img j, ?_, ?_⟩
  · rw [returnDentryByPtr, if_neg (getInodePtr_ne_zero hwf hm)]
    simp only [hnumber, hcount, hj, Option.map_some]
    exact readDentryByName_entry hwf hjn
  · rw [hnum, hptr]
    unfold inodeSize at *
    exact Nat.mod_eq_of_lt (by omega)

/-! ## A small image -/

/-- The bytes of an image with two files: `shell`, an executable of four bytes, and `abc`. -/
def sampleBytes : List (ℕ × UInt8) :=
  [(0, 2), (4, 2), (8, 2),
    (64, 0x73), (65, 0x68), (66, 0x65), (67, 0x6c), (68, 0x6c), (96, 2),
    (128, 0x61), (129, 0x62), (130, 0x63), (160, 2), (164, 1),
    (4096, 4), (8192, 3), (8196, 1),
    (12288, 0x7f), (12289, 0x45), (12290, 0x4c), (12291, 0x46),
    (16384, 0x61), (16385, 0x62), (16386, 0x63)]

def sampleImage : Image where
  mem a := ((sampleBytes.find? fun e => e.1 + 0x400000 = a).map Prod.snd).getD 0
  fileSystem := 0x400000

/-- The sample image with other bytes at some places, counted from the boot block. -/
def patchedImage (bytes : List (ℕ × UInt8)) : Image where
  mem a := (((bytes ++ sampleBytes).find? fun e => e.1 + 0x400000 = a).map Prod.snd).getD 0
  fileSystem := 0x400000

theorem sampleImage_wellFormed : sampleImage.WellFormed where
  entries_le := by decide
  name_ne := by decide
  name_inj := by decide
  unused := by decide +kernel
  inode_ok m hm := by
    have hcases : m = 0 ∨ m = 1 := by
      have : numInodes sampleImage = 2 := by decide
      omega
    rcases hcases with rfl | rfl
    · have hlen : inodeLength sampleImage (getInodePtr sampleImage 0) = 4 := by decide
      refine ⟨by rw [hlen]; decide, fun j hj => ?_⟩
      rw [hlen] at hj
      unfold blockSize at hj
      obtain rfl : j = 0 := by omega
      decide
    · have hlen : inodeLength sampleImage (getInodePtr sampleImage 1) = 3 := by decide
      refine ⟨by rw [hlen]; decide, fun j hj => ?_⟩
      rw [hlen] at hj
      unfold blockSize at hj
      obtain rfl : j = 0 := by omega
      decide
  inode_lt := by decide
  fits := by decide

end FileSystem
end GalapagOS
