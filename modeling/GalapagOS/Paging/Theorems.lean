import GalapagOS.Paging.Common
import Mathlib.Tactic.IntervalCases

/-!
# The tables keep their shape

`WellFormed` says what every directory, page table and video table looks like after
`new_init`; each mutator of `paging.c` keeps it. The walk is then determined by the
directory index alone (`walk_low`, `walk_kernel`, `walk_user`, `walk_vid`, `walk_rest`), and
isolation between processes is read off these five cases.
-/

namespace GalapagOS
namespace Paging

open BitField

/-! ## Numeric values of the constants -/

theorem virtVidmemDirEntry_eq : virtVidmemDirEntry = 890 := by decide

theorem virtVidmemTableEntry_eq : virtVidmemTableEntry = 731 := by decide

theorem vidmemPageBase_eq : vidmemPageBase = 0xb8 := by decide

theorem vidMem_page : vidMem >>> pageBits = 0xb8 := by decide

theorem inVidMemTableEntry_eq : inVidMemTableEntry = 0xb7 := by decide

theorem term1TableEntry_eq : term1TableEntry = 0xb9 := by decide

theorem term2TableEntry_eq : term2TableEntry = 0xba := by decide

theorem term3TableEntry_eq : term3TableEntry = 0xbb := by decide

/-! ## Well-formed tables -/

/-- A page directory as `new_init` leaves it, up to the present bit of the video entry. -/
structure DirectoryOk (lay : Layout) (pid : ℕ) (row : Row) : Prop where
  low_present : PdeSmall.present.get (row vidmemDirEntry) = 1
  low_super : PdeSmall.super.get (row vidmemDirEntry) = 0
  low_size : PdeSmall.pageSize.get (row vidmemDirEntry) = 0
  low_base : (PdeSmall.tableBase.get (row vidmemDirEntry)).toNat * 2 ^ 12 = lay.pageTable pid
  kernel_present : PdeBig.present.get (row kernelDirEntry) = 1
  kernel_super : PdeBig.super.get (row kernelDirEntry) = 0
  kernel_size : PdeBig.pageSize.get (row kernelDirEntry) = 1
  kernel_base : (PdeBig.tableBase.get (row kernelDirEntry)).toNat = 1
  user_present : PdeBig.present.get (row usrDirEntry) = 1
  user_super : PdeBig.super.get (row usrDirEntry) = 1
  user_size : PdeBig.pageSize.get (row usrDirEntry) = 1
  user_base : (PdeBig.tableBase.get (row usrDirEntry)).toNat = 2 + pid
  vid_super : PdeSmall.super.get (row virtVidmemDirEntry) = 1
  vid_size : PdeSmall.pageSize.get (row virtVidmemDirEntry) = 0
  vid_base : (PdeSmall.tableBase.get (row virtVidmemDirEntry)).toNat * 2 ^ 12 = lay.vidTable pid
  rest : ∀ i, i ≠ vidmemDirEntry → i ≠ kernelDirEntry → i ≠ usrDirEntry →
    i ≠ virtVidmemDirEntry → PdeSmall.present.get (row i) = 0

/-- The kernel's entry for virtual page `0xb8`: supervisor, present, one of the four video
pages. -/
structure VideoEntryOk (e : BitVec 32) : Prop where
  present : Pte.present.get e = 1
  base_ge : 0xb8 ≤ (Pte.base.get e).toNat
  base_le : (Pte.base.get e).toNat ≤ 0xbb

/-- A page table for the first 4 MB, as far as the kernel uses it. -/
structure PageTableOk (row : Row) : Prop where
  video : VideoEntryOk (row 0xb8)
  inactive_present : Pte.present.get (row 0xb7) = 1
  inactive_base : (Pte.base.get (row 0xb7)).toNat = 0xb8
  backing_present : ∀ t < 3, Pte.present.get (row (0xb9 + t)) = 1
  backing_base : ∀ t < 3, (Pte.base.get (row (0xb9 + t))).toNat = 0xb9 + t

/-- The table behind the user's video page: one user entry, nothing else present. -/
structure VidTableOk (row : Row) : Prop where
  user : Pte.usrSu.get (row virtVidmemTableEntry) = 1
  base_ge : 0xb8 ≤ (Pte.base.get (row virtVidmemTableEntry)).toNat
  base_le : (Pte.base.get (row virtVidmemTableEntry)).toNat ≤ 0xbb
  rest : ∀ i, i ≠ virtVidmemTableEntry → Pte.present.get (row i) = 0

/-- What holds of the tables of one task. -/
structure TaskOk (lay : Layout) (tb : Tables) (pid : ℕ) : Prop where
  directory : DirectoryOk lay pid (tb.directories pid)
  pageTable : PageTableOk (tb.pageTables pid)
  vidTable : VidTableOk (tb.vidTables pid)
  -- the two present bits of the user's video page move together
  agree : PdeSmall.present.get (tb.directories pid virtVidmemDirEntry) =
    Pte.present.get (tb.vidTables pid virtVidmemTableEntry)

/-- What holds of the tables of all tasks. -/
def WellFormed (lay : Layout) (tb : Tables) : Prop :=
  ∀ pid < numTasks, TaskOk lay tb pid

/-! ## `new_init` builds well-formed tables -/

/-- An aligned 32-bit address survives the 20-bit base field. -/
theorem base_of_aligned {a : ℕ} (hlt : a < 2 ^ 32) (hal : a % 4096 = 0) :
    (BitVec.ofNat 20 (a >>> pageBits)).toNat * 2 ^ 12 = a := by
  rw [pageBits, BitVec.toNat_ofNat, Nat.shiftRight_eq_div_pow]
  omega

theorem clearedRow_present (i : ℕ) : PdeSmall.present.get (clearedRow i) = 0 := by
  unfold clearedRow
  split <;> decide

theorem initDirectory_ok (lay : Layout) (pid : ℕ) (h : pid < numTasks) :
    DirectoryOk lay pid (initDirectory lay pid) := by
  have hpt := base_of_aligned (lay.pageTable_lt pid) (lay.pageTable_aligned pid)
  have hvt := base_of_aligned (lay.vidTable_lt pid) (lay.vidTable_aligned pid)
  have hbase : (BitVec.ofNat 10 (2 + pid)).toNat = 2 + pid := by
    rw [numTasks] at h
    rw [BitVec.toNat_ofNat]
    omega
  constructor
  case rest =>
    intro i h0 h1 h2 h3
    simp only [initDirectory, ne_eq, h0, h1, h2, h3, not_false_eq_true, writeField_ne,
      clearedRow_present]
  all_goals
    simp (disch := decide) only [initDirectory, vidmemDirEntry, kernelDirEntry, usrDirEntry,
      virtVidmemDirEntry_eq, writeField_self, writeField_ne, get_set_of_disjoint, get_set_self]
  case low_base => exact hpt
  case user_base => exact hbase
  case vid_base => exact hvt
  all_goals decide

/-- A conditional assignment to entry `i` does not show at another entry. -/
theorem ite_writeField_ne {c : Prop} [Decidable c] (row : Row) {i j : ℕ} (f : Field) (v : ℕ)
    (h : j ≠ i) : (if c then writeField row i f v else row) j = row j := by
  split_ifs
  · exact writeField_ne row f v h
  · rfl

@[simp] theorem kernelPage_ne (row : Row) {i j : ℕ} (h : j ≠ i) : kernelPage row i j = row j := by
  simp only [kernelPage, ne_eq, h, not_false_eq_true, writeField_ne]

theorem kernelPage_present (row : Row) (i : ℕ) : Pte.present.get (kernelPage row i i) = 1 := by
  simp (disch := decide) only [kernelPage, writeField_self, get_set_of_disjoint, get_set_self]
  rfl

theorem kernelPage_base (row : Row) (i : ℕ) :
    Pte.base.get (kernelPage row i i) = Pte.base.get (row i) := by
  simp (disch := decide) only [kernelPage, writeField_self, get_set_of_disjoint]

/-- `new_init` points the video page of shells 1 and 2 at their backing pages and that of
every other task at the VGA page. -/
theorem initPageTable_video (pid : ℕ) :
    (Pte.base.get (initPageTable pid 0xb8)).toNat =
      if pid < 3 ∧ 0 < pid then 0xb8 + pid + 1 else 0xb8 := by
  simp (disch := decide) only [initPageTable, vidMem_page, inVidMemTableEntry_eq,
    term1TableEntry_eq, term2TableEntry_eq, term3TableEntry_eq, kernelPage_ne, kernelPage_base,
    writeField_ne]
  split_ifs with h
  · rw [writeField_self, get_set_self _ _ _ (by decide), vidmemPageBase_eq, BitVec.toNat_ofNat]
    omega
  · decide

theorem initPageTable_ok (pid : ℕ) : PageTableOk (initPageTable pid) := by
  have hvideo := initPageTable_video pid
  constructor
  case video =>
    constructor
    · simp (disch := decide) only [initPageTable, vidMem_page, inVidMemTableEntry_eq,
        term1TableEntry_eq, term2TableEntry_eq, term3TableEntry_eq, kernelPage_ne,
        kernelPage_present, writeField_ne]
    · rw [hvideo]
      split_ifs <;> omega
    · rw [hvideo]
      split_ifs <;> omega
  case backing_present =>
    intro t ht
    interval_cases t <;>
      simp (disch := decide) only [initPageTable, inVidMemTableEntry_eq, term1TableEntry_eq,
        term2TableEntry_eq, term3TableEntry_eq, kernelPage_ne, kernelPage_present]
  case backing_base =>
    intro t ht
    interval_cases t <;>
      simp (disch := decide) only [initPageTable, vidMem_page, inVidMemTableEntry_eq,
        term1TableEntry_eq, term2TableEntry_eq, term3TableEntry_eq, kernelPage_ne,
        kernelPage_base, writeField_ne, ite_writeField_ne] <;> decide
  all_goals
    simp (disch := decide) only [initPageTable, inVidMemTableEntry_eq, term1TableEntry_eq,
      term2TableEntry_eq, term3TableEntry_eq, kernelPage_ne, writeField_self, get_set_self,
      get_set_of_disjoint, kernelPage_present]
  decide

theorem initVidTable_ok : VidTableOk initVidTable := by
  constructor
  case rest =>
    intro i hi
    simp only [initVidTable, ne_eq, hi, not_false_eq_true, writeField_ne]
    exact clearedRow_present i
  all_goals
    simp (disch := decide) only [initVidTable, writeField_self, get_set_of_disjoint, get_set_self]
    decide

theorem newInit_wellFormed (lay : Layout) : WellFormed lay (newInit lay) := by
  intro pid h
  refine ⟨?_, ?_, ?_, ?_⟩ <;> simp only [newInit, h, if_true]
  · exact initDirectory_ok lay pid h
  · exact initPageTable_ok pid
  · exact initVidTable_ok
  · simp (disch := decide) only [initDirectory, initVidTable, writeField_self,
      get_set_of_disjoint, get_set_self]

/-! ## The mutators keep the tables well formed -/

theorem DirectoryOk.setVidPresent {lay : Layout} {pid : ℕ} {row : Row}
    (h : DirectoryOk lay pid row) (v : ℕ) :
    DirectoryOk lay pid (writeField row virtVidmemDirEntry PdeSmall.present v) := by
  constructor
  case rest =>
    intro i h0 h1 h2 h3
    rw [writeField_ne row _ _ h3]
    exact h.rest i h0 h1 h2 h3
  all_goals
    simp (disch := decide) only [writeField_self, writeField_ne, get_set_of_disjoint, h.low_present,
      h.low_super, h.low_size, h.low_base, h.kernel_present, h.kernel_super, h.kernel_size,
      h.kernel_base, h.user_present, h.user_super, h.user_size, h.user_base, h.vid_super,
      h.vid_size, h.vid_base]

theorem VidTableOk.setPresent {row : Row} (h : VidTableOk row) (v : ℕ) :
    VidTableOk (writeField row virtVidmemTableEntry Pte.present v) := by
  constructor
  case rest =>
    intro i hi
    rw [writeField_ne row _ _ hi]
    exact h.rest i hi
  all_goals simp (disch := decide) only [writeField_self, get_set_of_disjoint, h.user, h.base_ge,
    h.base_le]

/-- A page number below `2^20` survives the base field. -/
theorem base_ofNat {b : ℕ} (h : b ≤ 0xbb) : (BitVec.ofNat 20 b).toNat = b := by
  rw [BitVec.toNat_ofNat]
  omega

theorem VidTableOk.setBase {row : Row} (h : VidTableOk row) {b : ℕ} (hge : 0xb8 ≤ b)
    (hle : b ≤ 0xbb) : VidTableOk (writeField row virtVidmemTableEntry Pte.base b) := by
  constructor
  case rest =>
    intro i hi
    rw [writeField_ne row _ _ hi]
    exact h.rest i hi
  case user => simp (disch := decide) only [writeField_self, get_set_of_disjoint, h.user]
  all_goals
    simp (disch := decide) only [writeField_self, get_set_self]
    rw [base_ofNat hle]
    assumption

/-- Replacing the video entry of a page table by another good one. -/
theorem PageTableOk.setVideo {row : Row} (h : PageTableOk row) {e : BitVec 32}
    (he : VideoEntryOk e) : PageTableOk (Function.update row 0xb8 e) := by
  have hne : ∀ j, j ≠ 0xb8 → Function.update row 0xb8 e j = row j :=
    fun j hj => Function.update_of_ne hj e row
  constructor
  · rw [Function.update_self]; exact he
  · rw [hne _ (by decide)]; exact h.inactive_present
  · rw [hne _ (by decide)]; exact h.inactive_base
  · intro t ht
    rw [hne _ (by omega)]; exact h.backing_present t ht
  · intro t ht
    rw [hne _ (by omega)]; exact h.backing_base t ht

theorem VideoEntryOk.setBase {e : BitVec 32} (h : VideoEntryOk e) {b : ℕ} (hge : 0xb8 ≤ b)
    (hle : b ≤ 0xbb) : VideoEntryOk (Pte.base.set b e) := by
  constructor
  · rw [get_set_of_disjoint _ _ _ _ (by decide) (by decide)]; exact h.present
  · rw [get_set_self _ _ _ (by decide), base_ofNat hle]; exact hge
  · rw [get_set_self _ _ _ (by decide), base_ofNat hle]; exact hle

variable {lay : Layout} {tb : Tables}

theorem newPaging_wellFormed (h : WellFormed lay tb) {pid parentPid : ℕ} (hp : pid < numTasks)
    (hq : parentPid < numTasks) : WellFormed lay (newPaging tb pid parentPid) := by
  intro q hqt
  have hpage : PageTableOk ((newPaging tb pid parentPid).pageTables q) := by
    simp only [newPaging, vidmemPageBase_eq]
    by_cases hqp : q = pid
    · subst hqp
      rw [Function.update_self]
      exact (h q hp).pageTable.setVideo (h parentPid hq).pageTable.video
    · rw [Function.update_of_ne hqp]
      exact (h q hqt).pageTable
  exact ⟨(h q hqt).directory, hpage, (h q hqt).vidTable, (h q hqt).agree⟩

/-- `map_vid_memory` and `unmap_vid_memory` write one bit in each of the two tables. -/
theorem setVidPresent_wellFormed (h : WellFormed lay tb) {pid : ℕ} (v : ℕ) :
    WellFormed lay { tb with
      vidTables := Function.update tb.vidTables pid
        (writeField (tb.vidTables pid) virtVidmemTableEntry Pte.present v)
      directories := Function.update tb.directories pid
        (writeField (tb.directories pid) virtVidmemDirEntry PdeSmall.present v) } := by
  intro q hqt
  by_cases hqp : q = pid
  · subst hqp
    refine ⟨?_, (h q hqt).pageTable, ?_, ?_⟩ <;> simp only [Function.update_self]
    · exact (h q hqt).directory.setVidPresent v
    · exact (h q hqt).vidTable.setPresent v
    · simp (disch := decide) only [writeField_self, get_set_self]
  · refine ⟨?_, (h q hqt).pageTable, ?_, ?_⟩ <;> simp only [Function.update_of_ne hqp]
    · exact (h q hqt).directory
    · exact (h q hqt).vidTable
    · exact (h q hqt).agree

theorem mapVidMemory_wellFormed (h : WellFormed lay tb) (pid : ℕ) :
    WellFormed lay (mapVidMemory tb pid) :=
  setVidPresent_wellFormed h 1

theorem unmapVidMemory_wellFormed (h : WellFormed lay tb) (pid : ℕ) :
    WellFormed lay (unmapVidMemory tb pid) :=
  setVidPresent_wellFormed h 0

theorem pointVidMem_wellFormed (h : WellFormed lay tb) (pid : ℕ) {b : ℕ} (hge : 0xb8 ≤ b)
    (hle : b ≤ 0xbb) : WellFormed lay (pointVidMem tb pid b) := by
  intro q hqt
  unfold pointVidMem
  by_cases hqp : q = pid
  · subst hqp
    refine ⟨(h q hqt).directory, ?_, ?_, ?_⟩ <;> simp only [Function.update_self]
    · rw [vidmemPageBase_eq]
      exact (h q hqt).pageTable.setVideo ((h q hqt).pageTable.video.setBase hge hle)
    · exact (h q hqt).vidTable.setBase hge hle
    · simp (disch := decide) only [writeField_self, get_set_of_disjoint]
      exact (h q hqt).agree
  · refine ⟨(h q hqt).directory, ?_, ?_, ?_⟩ <;> simp only [Function.update_of_ne hqp]
    · exact (h q hqt).pageTable
    · exact (h q hqt).vidTable
    · exact (h q hqt).agree

theorem switchVidMemOut_wellFormed (h : WellFormed lay tb) (pid : ℕ) {term : ℕ} (ht : term < 3) :
    WellFormed lay (switchVidMemOut tb pid term) :=
  pointVidMem_wellFormed h pid (by rw [vidmemPageBase_eq]; omega)
    (by rw [vidmemPageBase_eq]; omega)

theorem switchVidMemIn_wellFormed (h : WellFormed lay tb) (pid : ℕ) :
    WellFormed lay (switchVidMemIn tb pid) :=
  pointVidMem_wellFormed h pid (by decide) (by decide)

/-! ## The walk, by directory index -/

theorem tableAt_pageTable {pid : ℕ} (hp : pid < numTasks) :
    tableAt lay tb (lay.pageTable pid) = some (tb.pageTables pid) := by
  have hfind : (List.range numTasks).find? (fun q => lay.pageTable q = lay.pageTable pid)
      = some pid := by
    rw [List.find?_range_eq_some]
    refine ⟨by simp, List.mem_range.mpr hp, fun j hj => ?_⟩
    have : lay.pageTable j ≠ lay.pageTable pid := fun he =>
      absurd (lay.pageTable_inj j pid (by omega) hp he) (by omega)
    simpa using this
  rw [tableAt, hfind]

theorem tableAt_vidTable {pid : ℕ} (hp : pid < numTasks) :
    tableAt lay tb (lay.vidTable pid) = some (tb.vidTables pid) := by
  have hnone : (List.range numTasks).find? (fun q => lay.pageTable q = lay.vidTable pid)
      = none := by
    rw [List.find?_eq_none]
    intro q hq
    simpa using lay.disjoint q pid (List.mem_range.mp hq) hp
  have hfind : (List.range numTasks).find? (fun q => lay.vidTable q = lay.vidTable pid)
      = some pid := by
    rw [List.find?_range_eq_some]
    refine ⟨by simp, List.mem_range.mpr hp, fun j hj => ?_⟩
    have : lay.vidTable j ≠ lay.vidTable pid := fun he =>
      absurd (lay.vidTable_inj j pid (by omega) hp he) (by omega)
    simpa using this
  rw [tableAt, hnone, hfind]
  rfl

/-- A directory entry that is not present translates nothing. -/
theorem walk_of_not_present {pid v : ℕ}
    (h : PdeSmall.present.get (tb.directories pid (v / 2 ^ 22)) = 0) :
    walk lay tb pid v = none := by
  simp only [walk, h, if_true]

/-- In the first 4 MB the walk goes through the page table, for the kernel only. -/
theorem walk_low (h : WellFormed lay tb) {pid v : ℕ} (hp : pid < numTasks) (hv : v < 2 ^ 22) :
    walk lay tb pid v =
      if Pte.present.get (tb.pageTables pid (v / 2 ^ 12)) = 0 then none
      else some ⟨(Pte.base.get (tb.pageTables pid (v / 2 ^ 12))).toNat * 2 ^ 12 + v % 2 ^ 12,
        false⟩ := by
  have hd := (h pid hp).directory
  have hidx : v / 2 ^ 22 = vidmemDirEntry := by rw [vidmemDirEntry]; omega
  have htbl : v / 2 ^ 12 % 2 ^ 10 = v / 2 ^ 12 := by omega
  simp only [walk, hidx, hd.low_present, hd.low_size, hd.low_super, hd.low_base, htbl,
    tableAt_pageTable hp, Option.bind_some]
  simp

/-- The kernel page is a supervisor page. -/
theorem walk_kernel (h : WellFormed lay tb) {pid v : ℕ} (hp : pid < numTasks)
    (hv : v / 2 ^ 22 = kernelDirEntry) :
    walk lay tb pid v = some ⟨2 ^ 22 + v % 2 ^ 22, false⟩ := by
  have hd := (h pid hp).directory
  simp only [walk, hv, hd.kernel_present, hd.kernel_size, hd.kernel_super, hd.kernel_base]
  simp

/-- The user page is the frame of the task. -/
theorem walk_user (h : WellFormed lay tb) {pid v : ℕ} (hp : pid < numTasks)
    (hv : v / 2 ^ 22 = usrDirEntry) :
    walk lay tb pid v = some ⟨(2 + pid) * 2 ^ 22 + v % 2 ^ 22, true⟩ := by
  have hd := (h pid hp).directory
  simp only [walk, hv, hd.user_present, hd.user_size, hd.user_super, hd.user_base]
  simp

/-- Below the video directory entry only one page can be present. -/
theorem walk_vid (h : WellFormed lay tb) {pid v : ℕ} (hp : pid < numTasks)
    (hv : v / 2 ^ 22 = virtVidmemDirEntry) :
    walk lay tb pid v =
      if v / 2 ^ 12 % 2 ^ 10 = virtVidmemTableEntry ∧ vidmapPresent tb pid then
        some ⟨vidmapBase tb pid * 2 ^ 12 + v % 2 ^ 12, true⟩
      else none := by
  have hd := (h pid hp).directory
  have hvt := (h pid hp).vidTable
  by_cases hpres : vidmapPresent tb pid
  · have hdir : PdeSmall.present.get (tb.directories pid virtVidmemDirEntry) = 1 := by
      rw [(h pid hp).agree]; exact hpres
    simp only [walk, hv, hdir, hd.vid_size, hd.vid_super, hd.vid_base, tableAt_vidTable hp,
      Option.bind_some]
    rw [if_neg (by decide), if_neg (by decide)]
    by_cases hidx : v / 2 ^ 12 % 2 ^ 10 = virtVidmemTableEntry
    · have hpte : Pte.present.get (tb.vidTables pid virtVidmemTableEntry) = 1 := hpres
      rw [hidx, hpte, hvt.user, if_neg (by decide), if_pos ⟨rfl, hpres⟩]
      rfl
    · rw [if_pos (hvt.rest _ hidx), if_neg (fun hc => hidx hc.1)]
  · have hdir : PdeSmall.present.get (tb.directories pid virtVidmemDirEntry) = 0 := by
      rw [(h pid hp).agree]
      exact (BitVec.eq_zero_or_eq_one _).resolve_right hpres
    rw [if_neg (fun hc => hpres hc.2)]
    exact walk_of_not_present (by rw [hv]; exact hdir)

/-- No other directory entry is present. -/
theorem walk_rest (h : WellFormed lay tb) {pid v : ℕ} (hp : pid < numTasks)
    (h0 : v / 2 ^ 22 ≠ vidmemDirEntry) (h1 : v / 2 ^ 22 ≠ kernelDirEntry)
    (h2 : v / 2 ^ 22 ≠ usrDirEntry) (h3 : v / 2 ^ 22 ≠ virtVidmemDirEntry) :
    walk lay tb pid v = none :=
  walk_of_not_present ((h pid hp).directory.rest _ h0 h1 h2 h3)

end Paging
end GalapagOS
