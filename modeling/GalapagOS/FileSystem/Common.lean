import Mathlib.Algebra.Group.Nat.Defs
import Mathlib.Data.Int.Notation

/-!
# The read-only file system (`file_system.c`, `file_system.h`)

The image is a region of memory: one boot block with 63 directory entries, then the inodes,
then the data blocks, 4 kB each. All functions read it through byte loads at 32-bit addresses,
as the code does; `uint32_t` values are natural numbers reduced modulo `2 ^ 32` where they
are computed.
-/

namespace GalapagOS
namespace FileSystem

/-! ## Constants -/

def blockSize : ℕ := 4096
def bootBlockSize : ℕ := 4096
def inodeSize : ℕ := 4096
def fnameSize : ℕ := 32
def bootBlockEntries : ℕ := 63

/-! ## The image in memory -/

/-- The memory that holds the image, and the address `file_system` of its boot block. A load outside of
the image gives what `mem` has there; in the machine it may also fault, where no page is mapped, so
results that depend on such loads take the condition that there are none. -/
structure Image where
  mem : ℕ → UInt8
  fileSystem : ℕ

/-- The byte at a 32-bit address. -/
def Image.byte (img : Image) (a : ℕ) : UInt8 := img.mem (a % 2 ^ 32)

/-- Four bytes, least significant first. -/
def word (b : ℕ → UInt8) : ℕ :=
  (b 0).toNat + 2 ^ 8 * (b 1).toNat + 2 ^ 16 * (b 2).toNat + 2 ^ 24 * (b 3).toNat

/-- The `uint32_t` at an address. -/
def Image.word (img : Image) (a : ℕ) : ℕ := FileSystem.word fun j => img.byte (a + j)

variable (img : Image)

/-- `boot_block->fs_info.num_dir_entries` -/
def numDirEntries : ℕ := img.word img.fileSystem

/-- `boot_block->fs_info.num_inodes` -/
def numInodes : ℕ := img.word (img.fileSystem + 4)

/-- `boot_block->fs_info.num_data_blocks` -/
def numDataBlocks : ℕ := img.word (img.fileSystem + 8)

/-- The address of the first inode. -/
def inodes : ℕ := img.fileSystem + bootBlockSize

/-- The address of the first data block, as `fs_init` sets it: it stays `NULL` unless
`num_inodes` is positive as an `int`. -/
def dataStart : ℕ :=
  if 0 < numInodes img ∧ numInodes img < 2 ^ 31 then inodes img + numInodes img * inodeSize
  else 0

/-- `get_inode_ptr`; a negative number gives the address -1. -/
def getInodePtr (inodeNum : ℕ) : ℕ :=
  if 2 ^ 31 ≤ inodeNum then 2 ^ 32 - 1
  else (inodes img + inodeNum * inodeSize) % 2 ^ 32

/-- `inode->length` -/
def inodeLength (inode : ℕ) : ℕ := img.word inode

/-- `inode->data_blocks[block_idx]` -/
def dataBlock (inode blockIdx : ℕ) : ℕ := img.word (inode + 4 + 4 * blockIdx)

/-! ## Directory entries -/

/-- `dentry_t` without its reserved bytes. The name is the bytes from `file_name` on. -/
structure Dentry where
  fileName : ℕ → UInt8
  fileType : ℕ
  inodeNum : ℕ

/-- `boot_block->entries[i]` -/
def entry (i : ℕ) : Dentry where
  fileName j := img.byte (img.fileSystem + 64 + 64 * i + j)
  fileType := img.word (img.fileSystem + 64 + 64 * i + 32)
  inodeNum := img.word (img.fileSystem + 64 + 64 * i + 36)

/-- The loop of `check_file_name` from index `i`, with `n` characters left to compare. -/
def checkFileNameLoop (fname name : ℕ → UInt8) : ℕ → ℕ → Bool
  | 0, _ => true
  | n + 1, i =>
    if fname i ≠ name i then false
    else if fname i = 0 ∧ name i = 0 then true
    else checkFileNameLoop fname name n (i + 1)

/-- `check_file_name`: `true` is the code's `SUCCESS`. -/
def checkFileName (fname : ℕ → UInt8) (e : Dentry) : Bool :=
  checkFileNameLoop fname e.fileName fnameSize 0

/-- `read_dentry_by_name`: `none` is the code's `ERROR`, and a `NULL` name is `none`. All 63
slots are searched, whatever the boot block says about their number. -/
def readDentryByName (fname : Option (ℕ → UInt8)) : Option Dentry :=
  match fname with
  | none => none
  | some fname =>
    if fname 0 = 0 then none
    else ((List.range bootBlockEntries).find? fun i => checkFileName fname (entry img i)).map
      (entry img)

/-- `return_dentry_by_ptr`: the name of the first entry with the inode's number. The bound is
an `int`, so a count of `2 ^ 31` or more searches nothing. -/
def returnDentryByPtr (inode : ℕ) : Option (ℕ → UInt8) :=
  if inode = 0 then none
  else
    let inodeNumber := (inode + (2 ^ 32 - inodes img % 2 ^ 32)) % 2 ^ 32 / inodeSize
    let numberDirEntries := if numDirEntries img < 2 ^ 31 then numDirEntries img else 0
    ((List.range numberDirEntries).find? fun i => (entry img i).inodeNum = inodeNumber).map
      fun i => (entry img i).fileName

/-! ## Reading -/

/-- What a read returns, and the bytes it stored from `buf[0]` on. -/
structure ReadResult where
  ret : ℤ
  stored : List UInt8
deriving DecidableEq

/-- The loop of `read_data` at index `i` with `n` iterations left: the bytes it stores, and
whether it ended without meeting a bad block index. -/
def readDataLoop (inode offset : ℕ) : ℕ → ℕ → ℕ → List UInt8 × Bool
  | 0, _, _ => ([], true)
  | n + 1, i, blockIdx =>
    if inodeLength img inode ≤ (offset + i) % 2 ^ 32 then ([], true)
    else
      let dataIdx := dataBlock img inode blockIdx
      -- the comparison is unsigned, and `num_data_blocks - 1` wraps at 0
      if (numDataBlocks img + (2 ^ 32 - 1)) % 2 ^ 32 < dataIdx then ([], false)
      else
        let dPtr := dataStart img + dataIdx * blockSize
        let next := if (offset + i + 1) % 2 ^ 32 % blockSize = 0 then blockIdx + 1 else blockIdx
        let rest := readDataLoop inode offset n (i + 1) next
        (img.byte (dPtr + (offset + i) % 2 ^ 32 % blockSize) :: rest.1, rest.2)

/-- `read_data`. The `NULL` checks guard only the test of the offset. -/
def readData (inode offset buf length : ℕ) : ReadResult :=
  if (buf = 0 ∨ inode = 0) ∧ inodeLength img inode < offset then ⟨0, []⟩
  else
    let r := readDataLoop img inode offset length 0 (offset / blockSize)
    ⟨if r.2 then r.1.length else -1, r.1⟩

/-- `fs_read_by_name` -/
def fsReadByName (fname : Option (ℕ → UInt8)) (offset count buf : ℕ) : ReadResult :=
  match readDentryByName img fname with
  | none => ⟨-1, []⟩
  | some d => readData img ((inodes img + d.inodeNum * inodeSize) % 2 ^ 32) offset buf count

/-- The name loop of `dir_read` from character `j`, with `n` characters left in the field. -/
def dirNameLoop (name : ℕ → UInt8) : ℕ → ℕ → ℤ → List UInt8
  | 0, _, _ => []
  | n + 1, j, temp =>
    if name j = 0 then []
    else if temp - 1 = 0 then [name j]
    else name j :: dirNameLoop name n (j + 1) (temp - 1)

/-- `dir_read`: the new `curr_file_number` and the result. `count` is overwritten with
`FNAME_SIZE` before it is compared with it, so the column of sizes is never printed, and the value of
the load of `ptr->length` is not used. -/
def dirRead (currFileNumber : ℕ) (count : ℤ) : ℕ × ReadResult :=
  if numDirEntries img ≤ currFileNumber then (0, ⟨0, []⟩)
  else
    let stored := dirNameLoop (entry img currFileNumber).fileName fnameSize 0 count
    (currFileNumber + 1, ⟨stored.length, stored⟩)

end FileSystem
end GalapagOS
