import GalapagOS.FileSystem.Names

/-!
# What `read_data` returns and what it looks at

`read_data` stores the bytes of the requested slice up to the first byte whose block index is out
of range.

The second half records every access. The accesses stay inside the image exactly if the numbers that
the read takes from it are consistent; nothing in the code makes sure of it.
-/

namespace GalapagOS
namespace FileSystem

variable {img : Image}

/-! ## The slice -/

/-- The caller's buffer after a read, if it held `old` before. -/
def ReadResult.buffer (r : ReadResult) (old : ℕ → UInt8) (i : ℕ) : UInt8 := r.stored.getD i (old i)

/-- The part of an interval before the first number without a property. -/
theorem exists_takeWhile_range' (p : ℕ → Prop) [DecidablePred p] (k : ℕ) :
    ∀ start, ∃ b ≤ k, (List.range' start k).takeWhile (fun x => p x) = List.range' start b ∧
      (∀ i < b, p (start + i)) ∧ (b < k → ¬p (start + b)) := by
  induction k with
  | zero =>
    intro start
    exact ⟨0, le_rfl, rfl, by omega, by omega⟩
  | succ k ih =>
    intro start
    by_cases hp : p start
    · obtain ⟨b, hb, htake, hgood, hbad⟩ := ih (start + 1)
      have hshift : ∀ i, start + (i + 1) = start + 1 + i := by omega
      refine ⟨b + 1, by omega, ?_, fun i hi => ?_, fun hlt => ?_⟩
      · simp only [List.range'_succ, List.takeWhile_cons, hp, decide_true, if_true, htake]
      · cases i with
        | zero => exact hp
        | succ i => exact hshift i ▸ hgood i (by omega)
      · exact hshift b ▸ hbad (by omega)
    · exact ⟨0, by omega, by simp [List.range'_succ, hp], by omega, fun _ => hp⟩

theorem buffer_of_stored {r : ReadResult} {g : ℕ → UInt8} {start b : ℕ}
    (h : r.stored = (List.range' start b).map g) (old : ℕ → UInt8) (i : ℕ) :
    r.buffer old i = if i < b then g (start + i) else old i := by
  unfold ReadResult.buffer
  rw [h, List.getD_eq_getElem?_getD, List.getElem?_map]
  by_cases hi : i < b
  · rw [List.getElem?_range' hi, if_pos hi]
    simp
  · rw [List.getElem?_eq_none (by simpa using hi), if_neg hi]
    rfl

/-- `read_data` returns the requested slice of the file if all its blocks are in range, and
otherwise stores what lies before the first one that is not. -/
theorem readData_slice {inode offset : ℕ} (hlen : inodeLength img inode ≤ 1023 * blockSize)
    (hblocks : 1 ≤ numDataBlocks img) (hoffset : offset < 2 ^ 32) (buf n : ℕ) :
    let k := if offset < inodeLength img inode then min n (inodeLength img inode - offset) else 0
    let r := readData img inode offset buf n
    k ≤ 1023 * blockSize ∧
      if ∀ i < k, BlockOk img inode (offset + i) then
        r.ret = k ∧ ∀ old i,
          r.buffer old i = if i < k then fileByte img inode (offset + i) else old i
      else
        r.ret = -1 ∧ ∃ b < k, ¬BlockOk img inode (offset + b) ∧
          (∀ i < b, BlockOk img inode (offset + i)) ∧ ∀ old i,
            r.buffer old i = if i < b then fileByte img inode (offset + i) else old i := by
  intro k r
  have hk : k = min n (inodeLength img inode - offset) := by
    show (if _ then _ else _) = _
    split
    · rfl
    · rw [Nat.sub_eq_zero_of_le (by omega), Nat.min_zero]
  have hpos : positions img inode offset n = List.range' offset k := by rw [hk, positions]
  obtain ⟨hstored, hret⟩ := readData_spec (fun _ => hblocks) hoffset buf n
  obtain ⟨b, hb, htake, hgood, hbad⟩ := exists_takeWhile_range' (BlockOk img inode) k offset
  rw [hpos, htake] at hstored
  rw [hpos, hstored, List.length_map, List.length_range'] at hret
  have hbuffer := buffer_of_stored hstored
  refine ⟨by omega, ?_⟩
  split
  · rename_i hall
    -- no byte of the slice is bad, so the prefix is the slice
    have hbk : b = k := by
      by_contra hne
      exact hbad (by omega) (hall b (by omega))
    rw [hbk] at hbuffer hret
    refine ⟨hret.trans (if_pos ?_), hbuffer⟩
    simp only [List.all_eq_true, decide_eq_true_eq, List.mem_range'_1]
    intro pos hmem
    have hok := hall (pos - offset) (by omega)
    rwa [Nat.add_sub_cancel' hmem.1] at hok
  · rename_i hsome
    have hlt : b < k := by
      by_contra hge
      exact hsome fun i hi => hgood i (by omega)
    refine ⟨hret.trans (if_neg fun hall => ?_), b, hlt, hbad hlt, hgood, hbuffer⟩
    simp only [List.all_eq_true, decide_eq_true_eq, List.mem_range'_1] at hall
    exact hbad hlt (hall (offset + b) (by omega))

/-- Two of the three bytes of `abc`, from a request for five. -/
theorem readData_slice_abc :
    (readData sampleImage (getInodePtr sampleImage 1) 1 1 5).ret = 2 ∧
      ∀ old, (readData sampleImage (getInodePtr sampleImage 1) 1 1 5).buffer old 1 = 0x63 ∧
        (readData sampleImage (getInodePtr sampleImage 1) 1 1 5).buffer old 2 = old 2 := by
  obtain ⟨-, h⟩ := @readData_slice sampleImage (getInodePtr sampleImage 1) 1 (by decide) (by decide)
    (by decide) 1 5
  have hk : (if 1 < inodeLength sampleImage (getInodePtr sampleImage 1) then
      min 5 (inodeLength sampleImage (getInodePtr sampleImage 1) - 1) else 0) = 2 := by decide
  rw [hk, if_pos (by decide)] at h
  obtain ⟨hret, hbuffer⟩ := h
  refine ⟨hret, fun old => ⟨?_, hbuffer old 2⟩⟩
  rw [hbuffer old 1, if_pos (by decide)]
  decide

/-! ## Accesses -/

/-- What `fs_read_by_name` and `read_data` look at behind the boot block. -/
inductive Access where
  /-- `length` of the inode at an address -/
  | length (inode : ℕ)
  /-- an entry of `data_blocks` of the inode at an address -/
  | blockIndex (inode blockIdx : ℕ)
  /-- the byte at an address, for the data block of a number -/
  | data (dataIdx addr : ℕ)
deriving DecidableEq

/-- The address is that of an inode below `num_inodes`. -/
def IsInode (img : Image) (inode : ℕ) : Prop :=
  ∃ m < numInodes img, inode = (inodes img + m * inodeSize) % 2 ^ 32

/-- The access is inside the image: an inode below `num_inodes`, an entry that `data_blocks` has, a
byte of a data block below `num_data_blocks`. -/
def Access.InBounds (img : Image) : Access → Prop
  | .length inode => IsInode img inode
  | .blockIndex inode blockIdx => IsInode img inode ∧ blockIdx < 1023
  | .data dataIdx addr => dataIdx < numDataBlocks img ∧ ∃ j < blockSize,
    addr = inodes img + numInodes img * inodeSize + dataIdx * blockSize + j

/-- `readDataLoop`, with its accesses. -/
def readDataLoopTrace (img : Image) (inode offset : ℕ) :
    ℕ → ℕ → ℕ → List Access × List UInt8 × Bool
  | 0, _, _ => ([], [], true)
  | n + 1, i, blockIdx =>
    if inodeLength img inode ≤ (offset + i) % 2 ^ 32 then ([.length inode], [], true)
    else
      let dataIdx := dataBlock img inode blockIdx
      if (numDataBlocks img + (2 ^ 32 - 1)) % 2 ^ 32 < dataIdx then
        ([.length inode, .blockIndex inode blockIdx], [], false)
      else
        let addr := dataStart img + dataIdx * blockSize + (offset + i) % 2 ^ 32 % blockSize
        let next := if (offset + i + 1) % 2 ^ 32 % blockSize = 0 then blockIdx + 1 else blockIdx
        let rest := readDataLoopTrace img inode offset n (i + 1) next
        (.length inode :: .blockIndex inode blockIdx :: .data dataIdx addr :: rest.1,
          img.byte addr :: rest.2.1, rest.2.2)

/-- `readData`, with its accesses. -/
def readDataTrace (img : Image) (inode offset buf length : ℕ) : List Access × ReadResult :=
  let first : List Access := if buf = 0 ∨ inode = 0 then [.length inode] else []
  if (buf = 0 ∨ inode = 0) ∧ inodeLength img inode < offset then (first, ⟨0, []⟩)
  else
    let r := readDataLoopTrace img inode offset length 0 (offset / blockSize)
    (first ++ r.1, ⟨if r.2.2 then r.2.1.length else -1, r.2.1⟩)

/-- `fsReadByName`, with its accesses. -/
def fsReadByNameTrace (img : Image) (fname : Option (ℕ → UInt8)) (offset count buf : ℕ) :
    List Access × ReadResult :=
  match readDentryByName img fname with
  | none => ([], ⟨-1, []⟩)
  | some d => readDataTrace img ((inodes img + d.inodeNum * inodeSize) % 2 ^ 32) offset buf count

theorem readDataLoopTrace_snd (inode offset n : ℕ) :
    ∀ i blockIdx, (readDataLoopTrace img inode offset n i blockIdx).2
      = readDataLoop img inode offset n i blockIdx := by
  induction n with
  | zero => exact fun _ _ => rfl
  | succ n ih =>
    intro i blockIdx
    rw [readDataLoopTrace, readDataLoop]
    by_cases hend : inodeLength img inode ≤ (offset + i) % 2 ^ 32
    · rw [if_pos hend, if_pos hend]
    · rw [if_neg hend, if_neg hend]
      by_cases hbad : (numDataBlocks img + (2 ^ 32 - 1)) % 2 ^ 32 < dataBlock img inode blockIdx
      · simp only [if_pos hbad]
      · simp only [if_neg hbad, ih]

/-- The trace belongs to the read. -/
theorem fsReadByNameTrace_snd (fname : Option (ℕ → UInt8)) (offset count buf : ℕ) :
    (fsReadByNameTrace img fname offset count buf).2 = fsReadByName img fname offset count buf := by
  unfold fsReadByNameTrace fsReadByName
  cases readDentryByName img fname with
  | none => rfl
  | some d =>
    dsimp only
    rw [readDataTrace, readData]
    split
    · rfl
    · rw [← readDataLoopTrace_snd]

/-- The positions that the loop comes to: all up to the first whose block index is refused. -/
def reached (img : Image) (inode : ℕ) : List ℕ → List ℕ
  | [] => []
  | pos :: rest => pos :: if IndexOk img inode pos then reached img inode rest else []

theorem reached_of_indexOk {inode : ℕ} {ps : List ℕ} (h : ∀ pos ∈ ps, IndexOk img inode pos) :
    reached img inode ps = ps := by
  induction ps with
  | nil => rfl
  | cons pos ps ih =>
    rw [reached, if_pos (h pos List.mem_cons_self), ih fun q hq => h q (List.mem_cons_of_mem pos hq)]

theorem count_pos_of_reached {inode offset count pos : ℕ}
    (h : pos ∈ reached img inode (positions img inode offset count)) : 0 < count := by
  rcases Nat.eq_zero_or_pos count with rfl | hpos
  · simp [positions, reached] at h
  · exact hpos

/-- The accesses for one position. -/
def Access.At (img : Image) (inode pos : ℕ) (a : Access) : Prop :=
  a = .blockIndex inode (pos / blockSize) ∨
    IndexOk img inode pos ∧ a = .data (dataBlock img inode (pos / blockSize))
      (dataStart img + dataBlock img inode (pos / blockSize) * blockSize + pos % blockSize)

/-- The accesses of the loop: the length before every byte, and those for the positions that the loop
comes to. -/
theorem mem_readDataLoopTrace {inode : ℕ} (offset n : ℕ) :
    ∀ i, offset + i < 2 ^ 32 → ∀ a,
      a ∈ (readDataLoopTrace img inode offset n i ((offset + i) / blockSize)).1 ↔
        (0 < n ∧ a = .length inode) ∨
          ∃ pos ∈ reached img inode (positions img inode (offset + i) n), a.At img inode pos := by
  induction n with
  | zero =>
    intro i _ a
    simp [readDataLoopTrace, positions, reached]
  | succ n ih =>
    intro i hlt a
    have hmod : (offset + i) % 2 ^ 32 = offset + i := Nat.mod_eq_of_lt hlt
    have hmax := inodeLength_lt img inode
    rw [readDataLoopTrace, hmod]
    by_cases hend : inodeLength img inode ≤ offset + i
    · rw [if_pos hend, positions_of_le _ hend]
      simp [reached]
    · -- the length, the index of the block, and if that is accepted the byte and the rest of the loop
      rw [if_neg hend, positions_succ n (by omega), reached]
      simp only [next_block (show offset + i + 1 < 2 ^ 32 by omega)]
      by_cases hok : IndexOk img inode (offset + i)
      · have hrec := ih (i + 1) (by omega) a
        rw [← Nat.add_assoc] at hrec
        rw [if_neg hok, if_pos hok]
        simp only [List.mem_cons, hrec, exists_eq_or_imp]
        constructor
        · rintro (rfl | rfl | rfl | ⟨-, rfl⟩ | h)
          · exact .inl ⟨Nat.succ_pos n, rfl⟩
          · exact .inr (.inl (.inl rfl))
          · exact .inr (.inl (.inr ⟨hok, rfl⟩))
          · exact .inl ⟨Nat.succ_pos n, rfl⟩
          · exact .inr (.inr h)
        · rintro (⟨-, rfl⟩ | (rfl | ⟨-, rfl⟩) | h)
          · exact .inl rfl
          · exact .inr (.inl rfl)
          · exact .inr (.inr (.inl rfl))
          · exact .inr (.inr (.inr (.inr h)))
      · rw [if_pos (not_not.mp hok), if_neg hok]
        simp only [List.mem_cons, List.not_mem_nil, or_false, exists_eq_left, Access.At, hok,
          false_and, Nat.succ_pos, true_and]

/-- A read by name looks at nothing outside the image, and returns -1 when there is no such name or
when the bytes asked for need an inode, an entry of `data_blocks` or a data block that does not
exist. -/
structure StaysInImage (img : Image) (fname : Option (ℕ → UInt8)) (offset count buf : ℕ) : Prop where
  inBounds : ∀ a ∈ (fsReadByNameTrace img fname offset count buf).1, a.InBounds img
  no_name : readDentryByName img fname = none → (fsReadByName img fname offset count buf).ret = -1
  no_block : ∀ d, readDentryByName img fname = some d →
    let inode := (inodes img + d.inodeNum * inodeSize) % 2 ^ 32
    (0 < count ∧ ¬IsInode img inode) ∨
      (∃ pos ∈ positions img inode offset count, 1023 ≤ pos / blockSize ∨ ¬BlockOk img inode pos) →
    (fsReadByName img fname offset count buf).ret = -1

/-- The numbers that a read takes from the image without a check: the inode exists, if it is looked
at; the positions that the read comes to are those of the 1023 entries of `data_blocks`; and if the
index of one of them is accepted, there are data blocks, and `data` points to them. -/
structure Consistent (img : Image) (inode offset count buf : ℕ) : Prop where
  isInode : 0 < count ∨ buf = 0 ∨ inode = 0 → IsInode img inode
  index : ∀ pos ∈ reached img inode (positions img inode offset count), pos / blockSize < 1023
  block : ∀ pos ∈ reached img inode (positions img inode offset count), IndexOk img inode pos →
    0 < numDataBlocks img ∧ numInodes img < 2 ^ 31

/-- The accesses of `read_data`. -/
theorem mem_readDataTrace {inode offset : ℕ} (hoffset : offset < 2 ^ 32) (count buf : ℕ) (a : Access) :
    a ∈ (readDataTrace img inode offset buf count).1 ↔
      ((0 < count ∨ buf = 0 ∨ inode = 0) ∧ a = .length inode) ∨
        ∃ pos ∈ reached img inode (positions img inode offset count), a.At img inode pos := by
  have hloop := @mem_readDataLoopTrace img inode offset count 0 (by omega) a
  rw [Nat.add_zero] at hloop
  rw [readDataTrace]
  by_cases hnull : buf = 0 ∨ inode = 0
  · by_cases hend : inodeLength img inode < offset
    · rw [if_pos ⟨hnull, hend⟩, positions_of_le count hend.le]
      simp [hnull, reached]
    · rw [if_neg fun h => hend h.2, if_pos hnull]
      simp only [List.cons_append, List.nil_append, List.mem_cons, hloop, hnull, or_true, true_and]
      constructor
      · rintro (hlength | ⟨-, hlength⟩ | hat)
        · exact .inl hlength
        · exact .inl hlength
        · exact .inr hat
      · exact fun h => h.imp_right .inr
  · rw [if_neg fun h => hnull h.1, if_neg hnull]
    simp only [List.nil_append, hloop, hnull, or_false]

/-- `read_data` looks at nothing outside the image exactly if the numbers are consistent. -/
theorem readDataTrace_inBounds_iff {inode offset : ℕ} (hoffset : offset < 2 ^ 32) (count buf : ℕ) :
    (∀ a ∈ (readDataTrace img inode offset buf count).1, a.InBounds img) ↔
      Consistent img inode offset count buf := by
  constructor
  · intro hbounds
    have hmem := fun a => (@mem_readDataTrace img inode offset hoffset count buf a).mpr
    refine ⟨fun h => hbounds _ (hmem _ (.inl ⟨h, rfl⟩)), fun pos hpos => ?_, fun pos hpos hok => ?_⟩
    · exact (hbounds _ (hmem _ (.inr ⟨pos, hpos, .inl rfl⟩))).2
    · obtain ⟨hlt, j, hj, haddr⟩ := hbounds _ (hmem _ (.inr ⟨pos, hpos, .inr ⟨hok, rfl⟩⟩))
      refine ⟨by omega, Nat.not_le.mp fun hmany => ?_⟩
      -- `fs_init` has left `data` at 0
      have hstart : dataStart img = 0 := if_neg (by omega)
      have hmod := Nat.mod_lt pos (show 0 < blockSize by decide)
      rw [hstart] at haddr
      unfold inodes bootBlockSize blockSize at *
      omega
  · rintro ⟨hinode, hindex, hblock⟩ a ha
    rcases (mem_readDataTrace hoffset count buf a).mp ha with ⟨h, rfl⟩ | ⟨pos, hpos, rfl | ⟨hok, rfl⟩⟩
    · exact hinode h
    · exact ⟨hinode (.inl (count_pos_of_reached hpos)), hindex pos hpos⟩
    · obtain ⟨hblocks, hinodes⟩ := hblock pos hpos hok
      obtain ⟨m, hm, -⟩ := hinode (.inl (count_pos_of_reached hpos))
      have hstart : dataStart img = inodes img + numInodes img * inodeSize :=
        if_pos ⟨by omega, hinodes⟩
      exact ⟨(indexOk_iff hblocks _ pos).mp hok, _, Nat.mod_lt pos (by decide), by rw [hstart]⟩

/-- With consistent numbers, a read that needs what does not exist fails. -/
theorem Consistent.ret_eq_neg_one {inode offset count buf : ℕ} (hoffset : offset < 2 ^ 32)
    (h : Consistent img inode offset count buf)
    (hneeds : (0 < count ∧ ¬IsInode img inode) ∨
      ∃ pos ∈ positions img inode offset count, 1023 ≤ pos / blockSize ∨ ¬BlockOk img inode pos) :
    (readData img inode offset buf count).ret = -1 := by
  rw [readData_ret_eq_neg_one img hoffset]
  intro hall
  rcases hneeds with ⟨hcount, hno⟩ | ⟨pos, hpos, hbad⟩
  · exact hno (h.isInode (.inl hcount))
  · -- every position has been reached, so this one has been found good
    have hindex := h.index
    have hblock := h.block
    rw [reached_of_indexOk hall] at hindex hblock
    rcases hbad with hbad | hbad
    · have := hindex pos hpos
      omega
    · exact hbad ((indexOk_iff (hblock pos hpos (hall pos hpos)).1 _ pos).mp (hall pos hpos))

/-- A read by name stays inside the image exactly if the numbers that it takes from there are
consistent. -/
theorem fsReadByName_inBounds {offset : ℕ} (hoffset : offset < 2 ^ 32)
    (fname : Option (ℕ → UInt8)) (count buf : ℕ) :
    StaysInImage img fname offset count buf ↔
      ∀ d, readDentryByName img fname = some d →
        Consistent img ((inodes img + d.inodeNum * inodeSize) % 2 ^ 32) offset count buf := by
  cases hd : readDentryByName img fname with
  | none =>
    refine ⟨fun _ d he => (by cases he), fun _ => ⟨?_, fun _ => ?_, fun d he => ?_⟩⟩
    · rw [fsReadByNameTrace, hd]
      exact fun a ha => absurd ha List.not_mem_nil
    · rw [fsReadByName, hd]
    · rw [hd] at he
      cases he
  | some d =>
    have htrace : (fsReadByNameTrace img fname offset count buf).1
        = (readDataTrace img ((inodes img + d.inodeNum * inodeSize) % 2 ^ 32) offset buf count).1 := by
      rw [fsReadByNameTrace, hd]
    have hread : fsReadByName img fname offset count buf
        = readData img ((inodes img + d.inodeNum * inodeSize) % 2 ^ 32) offset buf count := by
      rw [fsReadByName, hd]
    have hiff := @readDataTrace_inBounds_iff img ((inodes img + d.inodeNum * inodeSize) % 2 ^ 32)
      offset hoffset count buf
    rw [← htrace] at hiff
    constructor
    · intro h d' he
      cases he
      exact hiff.mp h.inBounds
    · intro hcond
      have hcons := hcond d rfl
      refine ⟨hiff.mpr hcons, fun he => ?_, fun d' he hneeds => ?_⟩
      · rw [hd] at he
        cases he
      · rw [hd] at he
        cases he
        rw [hread]
        exact hcons.ret_eq_neg_one hoffset hneeds

/-- The numbers of the sample image are consistent. -/
theorem fsReadByName_inBounds_abc :
    (∀ a ∈ (fsReadByNameTrace sampleImage (some (ofString [0x61, 0x62, 0x63])) 0 3 1).1,
      a.InBounds sampleImage) ∧
      (fsReadByNameTrace sampleImage (some (ofString [0x61, 0x62, 0x63])) 0 3 1).2
        = ⟨3, [0x61, 0x62, 0x63]⟩ := by
  have hok : ∀ d, readDentryByName sampleImage (some (ofString [0x61, 0x62, 0x63])) = some d →
      Consistent sampleImage ((inodes sampleImage + d.inodeNum * inodeSize) % 2 ^ 32) 0 3 1 := by
    intro d hd
    have hnum : d.inodeNum = 1 := by
      have hmap : (readDentryByName sampleImage (some (ofString [0x61, 0x62, 0x63]))).map
        Dentry.inodeNum = some 1 := by decide +kernel
      rw [hd] at hmap
      exact Option.some.inj hmap
    rw [hnum]
    exact ⟨fun _ => ⟨1, by decide, rfl⟩, by decide, fun _ _ _ => by decide⟩
  refine ⟨((fsReadByName_inBounds (by decide) _ 3 1).mpr hok).inBounds, ?_⟩
  rw [fsReadByNameTrace_snd]
  decide +kernel

/-- With no data blocks the test of the index lets every block pass, an inode number is not tested
at all, and neither is the length of a file. -/
theorem fsReadByName_inBounds_malformed :
    (∃ a ∈ (fsReadByNameTrace (patchedImage [(8, 0)]) (some (ofString [0x61, 0x62, 0x63])) 0 3 1).1,
        ¬a.InBounds (patchedImage [(8, 0)])) ∧
      (fsReadByName (patchedImage [(8, 0)]) (some (ofString [0x61, 0x62, 0x63])) 0 3 1).ret = 3 ∧
      (∃ a ∈ (fsReadByNameTrace (patchedImage [(164, 9)]) (some (ofString [0x61, 0x62, 0x63])) 0 3
        1).1, ¬a.InBounds (patchedImage [(164, 9)])) ∧
      (fsReadByName (patchedImage [(164, 9)]) (some (ofString [0x61, 0x62, 0x63])) 0 3 1).ret = 0 ∧
      ∃ a ∈ (fsReadByNameTrace (patchedImage [(8195, 1)]) (some (ofString [0x61, 0x62, 0x63]))
        (1023 * blockSize) 1 1).1, ¬a.InBounds (patchedImage [(8195, 1)]) := by
  refine ⟨⟨.data 1 0x404000, by decide +kernel, ?_⟩, by decide +kernel,
    ⟨.length 0x40a000, by decide +kernel, ?_⟩, by decide +kernel,
    .blockIndex 0x402000 1023, by decide +kernel, ?_⟩
  · rintro ⟨hb, -⟩
    have hnone : numDataBlocks (patchedImage [(8, 0)]) = 0 := by decide
    omega
  · rintro ⟨m, hm, he⟩
    have htwo : numInodes (patchedImage [(164, 9)]) = 2 := by decide
    have hstart : inodes (patchedImage [(164, 9)]) = 0x401000 := by decide
    rw [hstart] at he
    unfold inodeSize at he
    omega
  · rintro ⟨-, hlt⟩
    omega

end FileSystem
end GalapagOS
