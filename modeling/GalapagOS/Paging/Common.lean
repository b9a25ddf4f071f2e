import GalapagOS.Lib.BitField

/-!
# Page directories and page tables (`paging.c`, `paging.h`)

The three table families of `paging.c` (`process_directories`, `page_tables`,
`vid_tables`) as arrays of 32-bit words, the bit fields of their entries, the code that
builds and changes them, and the two-level walk of the processor.
-/

namespace GalapagOS
namespace Paging

open BitField

/-! ## Constants -/

def numEnt : ℕ := 1024
def numTasks : ℕ := 7
def vidMem : ℕ := 0xb8000
def inactiveVidMem : ℕ := 0xb7000
def term1 : ℕ := 0xb9000
def term2 : ℕ := 0xba000
def term3 : ℕ := 0xbb000
def pageBits : ℕ := 12
def kernelDirEntry : ℕ := 1
def usrDirEntry : ℕ := 32
def vidmemDirEntry : ℕ := 0
def vidmemPageBase : ℕ := vidMem >>> pageBits
def inVidMemTableEntry : ℕ := (inactiveVidMem >>> 12) &&& 0x3ff
def term1TableEntry : ℕ := (term1 >>> pageBits) &&& 0x3ff
def term2TableEntry : ℕ := (term2 >>> pageBits) &&& 0x3ff
def term3TableEntry : ℕ := (term3 >>> pageBits) &&& 0x3ff
def virtVidMem : ℕ := 0xdeadb000
def virtVidmemDirEntry : ℕ := (virtVidMem >>> 22) &&& 0x3ff
def virtVidmemTableEntry : ℕ := (virtVidMem >>> 12) &&& 0x3ff

/-! ## Entry layouts -/

-- `page_table_entry_t`: entries for 4 kB pages
namespace Pte

abbrev present : Field := ⟨0, 1⟩
abbrev rW : Field := ⟨1, 1⟩
abbrev usrSu : Field := ⟨2, 1⟩
abbrev base : Field := ⟨12, 20⟩

end Pte

-- `page_dir_entry_small_t`: directory entries that point to a 4 kB page table
namespace PdeSmall

abbrev present : Field := ⟨0, 1⟩
abbrev readWrite : Field := ⟨1, 1⟩
abbrev super : Field := ⟨2, 1⟩
abbrev pageSize : Field := ⟨7, 1⟩
abbrev globalPage : Field := ⟨8, 1⟩
abbrev tableBase : Field := ⟨12, 20⟩

end PdeSmall

-- `page_dir_entry_big_t`: directory entries of 4 MB pages
namespace PdeBig

abbrev present : Field := ⟨0, 1⟩
abbrev readWrite : Field := ⟨1, 1⟩
abbrev super : Field := ⟨2, 1⟩
abbrev pageSize : Field := ⟨7, 1⟩
abbrev tableBase : Field := ⟨22, 10⟩

end PdeBig

/-! ## The tables -/

/-- One directory or table: 32-bit entries by index. -/
abbrev Row : Type := ℕ → BitVec 32

/-- `process_directories`, `page_tables` and `vid_tables`, by task number. -/
structure Tables where
  directories : ℕ → Row
  pageTables : ℕ → Row
  vidTables : ℕ → Row

/-- Where the linker put the tables. They are static arrays in the identity-mapped
kernel page, 4 kB aligned, and no two of them share an address. -/
structure Layout where
  pageTable : ℕ → ℕ
  vidTable : ℕ → ℕ
  pageTable_aligned : ∀ p, pageTable p % 4096 = 0
  vidTable_aligned : ∀ p, vidTable p % 4096 = 0
  pageTable_lt : ∀ p, pageTable p < 2 ^ 32
  vidTable_lt : ∀ p, vidTable p < 2 ^ 32
  pageTable_inj : ∀ p q, p < numTasks → q < numTasks → pageTable p = pageTable q → p = q
  vidTable_inj : ∀ p q, p < numTasks → q < numTasks → vidTable p = vidTable q → p = q
  disjoint : ∀ p q, p < numTasks → q < numTasks → pageTable p ≠ vidTable q

/-- The assignment `row[i].f = v`. -/
def writeField (row : Row) (i : ℕ) (f : Field) (v : ℕ) : Row :=
  Function.update row i (f.set v (row i))

@[simp] theorem writeField_self (row : Row) (i : ℕ) (f : Field) (v : ℕ) :
    writeField row i f v i = f.set v (row i) := by
  simp [writeField]

theorem writeField_ne (row : Row) {i j : ℕ} (f : Field) (v : ℕ) (h : j ≠ i) :
    writeField row i f v j = row j := by
  simp [writeField, h]

/-! ## `new_init` -/

/-- The initial loop of `new_init`: every directory and `vid_tables` entry is 2. -/
def clearedRow : Row := fun i => if i < numEnt then 2 else 0

/-- The initial loop of `new_init` on a page table: entry 2, `r_w` set, identity base. -/
def identityRow : Row := fun i =>
  if i < numEnt then Pte.base.set i (Pte.rW.set 1 2) else 0

/-- The directory of `pid` as `new_init` fills it in. -/
def initDirectory (lay : Layout) (pid : ℕ) : Row :=
  let row := clearedRow
  let row := writeField row vidmemDirEntry PdeSmall.present 1
  let row := writeField row vidmemDirEntry PdeSmall.readWrite 1
  let row := writeField row vidmemDirEntry PdeSmall.tableBase (lay.pageTable pid >>> pageBits)
  -- kernel at the second entry
  let row := writeField row kernelDirEntry PdeBig.tableBase 1
  let row := writeField row kernelDirEntry PdeBig.pageSize 1
  let row := writeField row kernelDirEntry PdeBig.super 0
  let row := writeField row kernelDirEntry PdeBig.readWrite 1
  let row := writeField row kernelDirEntry PdeBig.present 1
  let row := writeField row usrDirEntry PdeBig.tableBase (2 + pid)
  let row := writeField row usrDirEntry PdeBig.pageSize 1
  let row := writeField row usrDirEntry PdeBig.super 1
  let row := writeField row usrDirEntry PdeBig.readWrite 1
  let row := writeField row usrDirEntry PdeBig.present 1
  -- the user's video page: set up but not present
  let row := writeField row virtVidmemDirEntry PdeSmall.present 0
  let row := writeField row virtVidmemDirEntry PdeSmall.readWrite 1
  let row := writeField row virtVidmemDirEntry PdeSmall.tableBase (lay.vidTable pid >>> pageBits)
  let row := writeField row virtVidmemDirEntry PdeSmall.pageSize 0
  let row := writeField row virtVidmemDirEntry PdeSmall.super 1
  writeField row virtVidmemDirEntry PdeSmall.globalPage 1

/-- A kernel video page entry: supervisor, present, writable. -/
def kernelPage (row : Row) (i : ℕ) : Row :=
  let row := writeField row i Pte.usrSu 0
  let row := writeField row i Pte.present 1
  writeField row i Pte.rW 1

/-- The first page table of `pid` as `new_init` fills it in. -/
def initPageTable (pid : ℕ) : Row :=
  let row := identityRow
  let row :=
    if pid < 3 ∧ 0 < pid then writeField row (vidMem >>> pageBits) Pte.base (vidmemPageBase + pid + 1)
    else row
  let row := kernelPage row (vidMem >>> pageBits)
  let row := kernelPage row inVidMemTableEntry
  let row := writeField row inVidMemTableEntry Pte.base vidmemPageBase
  let row := kernelPage row term1TableEntry
  let row := kernelPage row term2TableEntry
  kernelPage row term3TableEntry

/-- The video table of a task as `new_init` fills it in. -/
def initVidTable : Row :=
  let row := clearedRow
  let row := writeField row virtVidmemTableEntry Pte.usrSu 1
  let row := writeField row virtVidmemTableEntry Pte.present 0
  let row := writeField row virtVidmemTableEntry Pte.rW 1
  writeField row virtVidmemTableEntry Pte.base ((vidMem >>> pageBits) &&& 0xfffff)

/-- `new_init`: the tables of the seven tasks. -/
def newInit (lay : Layout) : Tables where
  directories pid := if pid < numTasks then initDirectory lay pid else fun _ => 0
  pageTables pid := if pid < numTasks then initPageTable pid else fun _ => 0
  vidTables pid := if pid < numTasks then initVidTable else fun _ => 0

/-! ## The mutators -/

/-- The page table part of `new_paging`: the new task takes its parent's entry for the
video page, whole. -/
def newPaging (tb : Tables) (pid parentPid : ℕ) : Tables :=
  { tb with
    pageTables := Function.update tb.pageTables pid
      (Function.update (tb.pageTables pid) vidmemPageBase
        (tb.pageTables parentPid vidmemPageBase)) }

/-- `map_vid_memory` -/
def mapVidMemory (tb : Tables) (pid : ℕ) : Tables :=
  { tb with
    vidTables := Function.update tb.vidTables pid
      (writeField (tb.vidTables pid) virtVidmemTableEntry Pte.present 1)
    directories := Function.update tb.directories pid
      (writeField (tb.directories pid) virtVidmemDirEntry PdeSmall.present 1) }

/-- `unmap_vid_memory` -/
def unmapVidMemory (tb : Tables) (pid : ℕ) : Tables :=
  { tb with
    directories := Function.update tb.directories pid
      (writeField (tb.directories pid) virtVidmemDirEntry PdeSmall.present 0)
    vidTables := Function.update tb.vidTables pid
      (writeField (tb.vidTables pid) virtVidmemTableEntry Pte.present 0) }

/-- The common part of `switch_vid_mem_out` and `switch_vid_mem_in`: both video entries of
`pid` are pointed at the page `base`. -/
def pointVidMem (tb : Tables) (pid base : ℕ) : Tables :=
  { tb with
    pageTables := Function.update tb.pageTables pid
      (writeField (tb.pageTables pid) vidmemPageBase Pte.base base)
    vidTables := Function.update tb.vidTables pid
      (writeField (tb.vidTables pid) virtVidmemTableEntry Pte.base base) }

/-- `switch_vid_mem_out`: to the backing page of `term`. -/
def switchVidMemOut (tb : Tables) (pid term : ℕ) : Tables :=
  pointVidMem tb pid (vidmemPageBase + term + 1)

/-- `switch_vid_mem_in`: to the VGA page. -/
def switchVidMemIn (tb : Tables) (pid : ℕ) : Tables :=
  pointVidMem tb pid vidmemPageBase

/-- The page number in the kernel video entry of a task. -/
def videoBase (tb : Tables) (pid : ℕ) : ℕ :=
  (Pte.base.get (tb.pageTables pid vidmemPageBase)).toNat

/-- The page number in the user video entry of a task. -/
def vidmapBase (tb : Tables) (pid : ℕ) : ℕ :=
  (Pte.base.get (tb.vidTables pid virtVidmemTableEntry)).toNat

/-- The user video page of a task is present: `kvidmap` was called and not undone. -/
def vidmapPresent (tb : Tables) (pid : ℕ) : Prop :=
  Pte.present.get (tb.vidTables pid virtVidmemTableEntry) = 1

instance (tb : Tables) (pid : ℕ) : Decidable (vidmapPresent tb pid) :=
  inferInstanceAs (Decidable (_ = _))

/-! ## The processor's walk -/

/-- A translated address: the physical address, and whether user code may use it. -/
structure Access where
  phys : ℕ
  user : Bool
deriving DecidableEq, Repr

/-- The page table stored at a physical address. -/
def tableAt (lay : Layout) (tb : Tables) (addr : ℕ) : Option Row :=
  match (List.range numTasks).find? (fun q => lay.pageTable q = addr) with
  | some q => some (tb.pageTables q)
  | none =>
    ((List.range numTasks).find? (fun q => lay.vidTable q = addr)).map tb.vidTables

/-- The two-level walk from the directory of `pid` at a 32-bit virtual address. -/
def walk (lay : Layout) (tb : Tables) (pid v : ℕ) : Option Access :=
  let pde := tb.directories pid (v / 2 ^ 22)
  if PdeSmall.present.get pde = 0 then none
  else if PdeBig.pageSize.get pde = 1 then
    some ⟨(PdeBig.tableBase.get pde).toNat * 2 ^ 22 + v % 2 ^ 22, PdeBig.super.get pde = 1⟩
  else
    (tableAt lay tb ((PdeSmall.tableBase.get pde).toNat * 2 ^ 12)).bind fun table =>
      let pte := table (v / 2 ^ 12 % 2 ^ 10)
      if Pte.present.get pte = 0 then none
      else
        some ⟨(Pte.base.get pte).toNat * 2 ^ 12 + v % 2 ^ 12,
          PdeSmall.super.get pde = 1 && Pte.usrSu.get pte = 1⟩

end Paging
end GalapagOS
