import GalapagOS.Kernel.CommandLine
import GalapagOS.Kernel.Pages
import GalapagOS.Kernel.Positions

/-!
# What `kexecute` admits

A program is found by its name, tested for four bytes at its start, and read whole through the
directory of the new process. The page directory is switched before the file is read, so a
file that breaks off leaves it switched.
-/

namespace GalapagOS
namespace Kernel

open FileSystem Memory Paging CString

variable {k k' : Kernel} {chains : Fin 3 → List Pid} {ps : List Pid} {c n x : Pid}

/-! ## Loading -/

/-- The bytes from the program start to the end of the user page. -/
def programSpace : ℕ := 0x3b8000

/-- The physical address of the program of a process. -/
def programFrame (x : Pid) : ℕ := (2 + x) * 2 ^ 22 + 0x48000

theorem walk_program (hwf : WellFormed k.lay k.tables) (x : Pid) {i : ℕ} (hi : i < programSpace) :
    walk k.lay k.tables x (programStart + i) = some ⟨programFrame x + i, true⟩ := by
  have hxt : (x : ℕ) < numTasks := lt_of_lt_of_le x.isLt (by decide)
  unfold programSpace at hi
  have hdir : (programStart + i) / 2 ^ 22 = usrDirEntry := by
    unfold programStart usrDirEntry
    omega
  have hoff : (programStart + i) % 2 ^ 22 = 0x48000 + i := by
    unfold programStart
    omega
  rw [walk_user hwf hxt hdir, hoff, programFrame, Nat.add_assoc]

theorem translate_program (hwf : WellFormed k.lay k.tables) (hx : k.cr3 = some x) {i : ℕ}
    (hi : i < programSpace) : k.translate (programStart + i) = some (programFrame x + i) := by
  have hmod : (programStart + i) % 2 ^ 32 = programStart + i := by
    unfold programSpace at hi
    unfold programStart
    omega
  rw [translate, hx, Option.bind_some, hmod, walk_program hwf x hi]
  rfl

/-- A store of bytes that fit goes to the frame of the process. -/
theorem access_program (hwf : WellFormed k.lay k.tables) (hx : k.cr3 = some x) {bytes : List UInt8}
    (hlen : bytes.length ≤ programSpace) :
    ∃ m, k.access programStart [.write 0 bytes] = some { k with phys := m } ∧
      ∀ i (hi : i < bytes.length), m (programFrame x + i) = bytes[i] := by
  have hτ : ∀ off ∈ Set.Iio programSpace,
      k.translate (programStart + off) = some (programFrame x + off) :=
    fun off hoff => translate_program hwf hx hoff
  have hview : View (fun off => programFrame x + off) (Set.Iio programSpace) k.phys
      fun off => k.phys (programFrame x + off) := fun _ _ => rfl
  have hops : ∀ op ∈ [Op.write 0 bytes], op.Within (Set.Iio programSpace) := by
    intro op hop
    rw [List.mem_singleton.mp hop]
    intro j hj
    show 0 + j < programSpace
    omega
  obtain ⟨m, hm, hview', -⟩ :=
    execAll_view hτ (fun i _ j _ hij => by simpa using hij) hview hops
  refine ⟨m, by rw [access, hm]; rfl, fun i hi => ?_⟩
  rw [hview' i (lt_of_lt_of_le hi hlen)]
  have hplace : place 0 bytes (fun off => k.phys (programFrame x + off)) (0 + i) = bytes[i] :=
    place_add hi _
  rwa [Nat.zero_add] at hplace

/-- The whole of an intact file. -/
theorem readData_whole {img : Image} {inode : ℕ} (h : FileIntact img inode) (buf : ℕ) :
    readData img inode 0 buf (inodeLength img inode)
      = ⟨inodeLength img inode, fileBytes img inode⟩ := by
  rw [readData_intact h (by decide), List.drop_zero,
    List.take_of_length_le (length_fileBytes inode).le, length_fileBytes]

/-- A block index that the load of a file comes to, before it runs off the user page, is refused. -/
def LoadBreaks (img : Image) (inode : ℕ) : Prop :=
  ∃ pos ≤ programSpace, pos < inodeLength img inode ∧ ¬IndexOk img inode pos

/-- What the load stores: the bytes before the first index that is refused. -/
theorem stored_load (img : Image) (inode buf : ℕ) :
    ∃ b ≤ inodeLength img inode,
      (readData img inode 0 buf (inodeLength img inode)).stored.length = b ∧
      (∀ i < b, IndexOk img inode i) ∧ (b < inodeLength img inode → ¬IndexOk img inode b) := by
  obtain ⟨b, hb, htake, hgood, hbad⟩ :=
    exists_takeWhile_range' (IndexOk img inode) (inodeLength img inode) 0
  have hpos : positions img inode 0 (inodeLength img inode)
      = List.range' 0 (inodeLength img inode) := by
    rw [positions, Nat.sub_zero, Nat.min_self]
  refine ⟨b, hb, ?_, fun i hi => Nat.zero_add i ▸ hgood i hi, fun hlt => Nat.zero_add b ▸ hbad hlt⟩
  rw [(readData_index img (show 0 < 2 ^ 32 by decide) inode buf _).1, hpos, htake, List.length_map,
    List.length_range']

section Load

variable {inode : ℕ} (hwf : WellFormed k.lay k.tables) (hx : k.cr3 = some x)

include hwf hx

/-- A file that fits and is not broken is loaded whole. -/
theorem loadProgram_intact (hlen : inodeLength k.img inode ≤ programSpace)
    (h : FileIntact k.img inode) :
    ∃ m, k.loadProgram inode = some ({ k with phys := m }, true) ∧
      ∀ i < inodeLength k.img inode, m (programFrame x + i) = fileByte k.img inode i := by
  obtain ⟨m, hm, hbytes⟩ := access_program hwf hx
    (show (fileBytes k.img inode).length ≤ programSpace by rwa [length_fileBytes])
  refine ⟨m, ?_, fun i hi => ?_⟩
  · simp only [loadProgram, readData_whole h, hm, Option.map_some, decide_true]
  · rw [hbytes i (by rwa [length_fileBytes])]
    simp [fileBytes]

/-- A file that breaks off is loaded in part. -/
theorem loadProgram_broken (h : LoadBreaks k.img inode) :
    ∃ m, k.loadProgram inode = some ({ k with phys := m }, false) := by
  obtain ⟨pos, hspace, hpos, hindex⟩ := h
  have hfail : (readData k.img inode 0 programStart (inodeLength k.img inode)).ret = -1 := by
    rw [readData_ret_eq_neg_one k.img (by decide)]
    refine fun hgood => hindex (hgood pos ?_)
    unfold positions
    rw [List.mem_range'_1]
    omega
  obtain ⟨b, -, hstored, hgood, -⟩ := stored_load k.img inode programStart
  have hle : b ≤ pos := Nat.not_lt.mp fun hlt => hindex (hgood pos hlt)
  obtain ⟨m, hm, -⟩ := access_program hwf hx (hstored.trans_le (hle.trans hspace))
  refine ⟨m, ?_⟩
  have hne : ¬(-1 : ℤ) = inodeLength k.img inode := by omega
  simp only [loadProgram, hm, hfail, Option.map_some, hne, decide_false]

/-- A file that runs off the user page before it breaks off: the load faults. -/
theorem loadProgram_long (hlen : programSpace < inodeLength k.img inode)
    (h : ¬LoadBreaks k.img inode) : k.loadProgram inode = none := by
  obtain ⟨b, -, hstored, -, hbad⟩ := stored_load k.img inode programStart
  have hlong : programSpace < b := by
    by_contra hle
    exact h ⟨b, by omega, by omega, hbad (by omega)⟩
  cases hacc : k.access programStart
      [.write 0 (readData k.img inode 0 programStart (inodeLength k.img inode)).stored] with
  | none => simp only [loadProgram, hacc, Option.map_none]
  | some k' =>
    exfalso
    have hle := access_user_length hwf hx (by decide) hacc
    rw [hstored] at hle
    unfold programSpace at hlong
    unfold programStart at hle
    omega

end Load

theorem fileIntact_of_not_loadBreaks {img : Image} {inode : ℕ}
    (hlen : inodeLength img inode ≤ programSpace) (h : ¬LoadBreaks img inode) :
    FileIntact img inode := by
  intro pos hpos
  by_contra hindex
  exact h ⟨pos, by omega, hpos, hindex⟩

/-! ## The call after boot -/

section Call

variable {line : List UInt8} (st : Stale) {e : Dentry} (hcons : Consistent k chains ps c)
  (hpaged : Paged k c) (hfree : freePidIdx k.pidArr = some n)
  (hfind : findExecutable k.img (line.take (commandEnd line)) = some e)

include hpaged in
theorem entered_wellFormed (n : Pid) :
    WellFormed (entered k c n).lay (entered k c n).tables := by
  have hlt : ∀ p : Pid, (p : ℕ) < numTasks := fun p => lt_of_lt_of_le p.isLt (by decide)
  exact newPaging_wellFormed hpaged.wellFormed (hlt n) (hlt _)

include hcons hfree in
theorem enterPaging_entered : k.enterPaging n = some (entered k c n) := by
  have hn := two_lt_freePidIdx (fun p hp => hcons.live_root hp) hfree
  simp [enterPaging, hn, hcons.currProcess, entered]

include hcons hpaged hfree hfind

/-- A file that breaks off: the directory of the new process stays loaded. -/
theorem kexecute_broken (h : LoadBreaks k.img (getInodePtr k.img e.inodeNum)) :
    ∃ m, k.kexecute (some line) st = some ({ entered k c n with phys := m }, some (-1)) := by
  obtain ⟨m, hload⟩ := loadProgram_broken (k := entered k c n) (entered_wellFormed hpaged n) rfl h
  refine ⟨m, ?_⟩
  simp only [kexecute, hfree, hfind, enterPaging_entered hcons hfree, Option.bind_eq_bind,
    Option.bind_some, hload, Bool.false_eq_true, if_false, Option.pure_def]

/-- A file that is too long: the call faults. -/
theorem kexecute_long (hlen : programSpace < inodeLength k.img (getInodePtr k.img e.inodeNum))
    (h : ¬LoadBreaks k.img (getInodePtr k.img e.inodeNum)) :
    k.kexecute (some line) st = none := by
  have hload := loadProgram_long (k := entered k c n) (entered_wellFormed hpaged n) rfl hlen h
  simp only [kexecute, hfree, hfind, enterPaging_entered hcons hfree, Option.bind_eq_bind,
    Option.bind_some, hload, Option.bind_none]

/-- An intact file that fits: the new process is live, at the entry point of the file, with the file
in its memory. -/
theorem kexecute_intact (hlen : inodeLength k.img (getInodePtr k.img e.inodeNum) ≤ programSpace)
    (h : FileIntact k.img (getInodePtr k.img e.inodeNum)) :
    ∃ k', k.kexecute (some line) st = some (k', none) ∧ k'.Live n ∧
      (k'.pcbs n).instrPtr = readEip k.img (getInodePtr k.img e.inodeNum) st.eip ∧
      WellFormed k'.lay k'.tables ∧
      ∀ i < inodeLength k.img (getInodePtr k.img e.inodeNum),
        k'.phys (programFrame n + i) = fileByte k.img (getInodePtr k.img e.inodeNum) i := by
  have hn := two_lt_freePidIdx (fun p hp => hcons.live_root hp) hfree
  have hdead := not_live_of_free hfree
  have hnc : n ≠ c := fun he => hdead (he ▸ hcons.live)
  obtain ⟨m, hload, hbytes⟩ := loadProgram_intact (k := entered k c n)
    (entered_wellFormed hpaged n) rfl hlen h
  obtain ⟨k₁, hk₁⟩ : ∃ k₁, k₁ = { entered k c n with phys := m } := ⟨_, rfl⟩
  rw [← hk₁] at hload
  have himg : k₁.img = k.img := by rw [hk₁]; rfl
  have hcons₁ : Consistent k₁ chains ps c := by
    rw [hk₁]
    exact hcons.frame rfl rfl rfl rfl rfl rfl
  have hlive₁ : ¬k₁.Live n := by
    rw [hk₁]
    exact hdead
  obtain ⟨k₂, hk₂, hstart⟩ := startProcess_spec hcons₁.currProcess hn hnc
    (readEip k.img (getInodePtr k.img e.inodeNum) st.eip) (line.take (commandEnd line))
    (argsString line st)
  obtain ⟨t, ht⟩ := hcons₁.leaf
  obtain ⟨k', q, hpit, hsw, -⟩ := hstart.pitHandler hcons₁ hlive₁ ht
  have hother := hstart.openOtherShells (hcons₁.live_root (show (1 : Pid) ≤ 2 by decide))
  refine ⟨k', ?_, ?_, ?_, ?_, fun i hi => ?_⟩
  · simp only [kexecute, hfree, hfind, enterPaging_entered hcons hfree, Option.bind_eq_bind,
      Option.bind_some, hload, if_true, himg, hk₂, hother, hpit, Option.pure_def]
  · rw [Live, hsw.pidArr, hstart.pidArr, Function.update_self]
  · rw [hsw.pcbs]
    exact (startProcess_self hk₂).1
  · rw [hsw.lay, hsw.tables, hstart.lay, hstart.tables, hk₁]
    exact entered_wellFormed hpaged n
  · rw [hsw.phys, hstart.phys, hk₁]
    exact hbytes i hi

end Call

/-- A process number is free and the word finds an executable that is intact and fits. -/
def Starts (k : Kernel) (line : List UInt8) : Prop :=
  ∃ n e, freePidIdx k.pidArr = some n ∧
    findExecutable k.img (line.take (commandEnd line)) = some e ∧
    inodeLength k.img (getInodePtr k.img e.inodeNum) ≤ programSpace ∧
    FileIntact k.img (getInodePtr k.img e.inodeNum)

/-- Whether a process is started does not depend on the uninitialised locals. -/
theorem kexecute_starts_iff (h : Run.Reach system Run.Free k) (line : List UInt8) (st : Stale) :
    (∃ k', k.kexecute (some line) st = some (k', none)) ↔ Starts k line := by
  obtain ⟨chains, ps, c, hcons, hpaged⟩ := Reach.paged h
  constructor
  · rintro ⟨k', hk'⟩
    cases hfree : freePidIdx k.pidArr with
    | none =>
      simp only [kexecute, hfree] at hk'
      cases hk'
    | some n =>
      cases hfind : findExecutable k.img (line.take (commandEnd line)) with
      | none =>
        simp only [kexecute, hfree, hfind] at hk'
        cases hk'
      | some e =>
        by_cases hbreaks : LoadBreaks k.img (getInodePtr k.img e.inodeNum)
        · obtain ⟨m, hfail⟩ := kexecute_broken st hcons hpaged hfree hfind hbreaks
          cases hfail.symm.trans hk'
        by_cases hlen : inodeLength k.img (getInodePtr k.img e.inodeNum) ≤ programSpace
        · exact ⟨n, e, hfree, hfind, hlen, fileIntact_of_not_loadBreaks hlen hbreaks⟩
        · have hfault := kexecute_long st hcons hpaged hfree hfind (not_le.mp hlen) hbreaks
          cases hfault.symm.trans hk'
  · rintro ⟨n, e, hfree, hfind, hlen, hintact⟩
    obtain ⟨k', hk', -⟩ := kexecute_intact st hcons hpaged hfree hfind hlen hintact
    exact ⟨k', hk'⟩

/-! ## A failed call -/

/-- The process tree, the run queue, the current process and the page tables of the live
processes are as before. -/
structure Undisturbed (k k' : Kernel) : Prop where
  pidArr : k'.pidArr = k.pidArr
  pcbs : k'.pcbs = k.pcbs
  roots : k'.roots = k.roots
  queue : k'.queue = k.queue
  currProcess : k'.currProcess = k.currProcess
  desc : k'.desc = k.desc
  directories : ∀ p : Pid, k.Live p → k'.tables.directories p = k.tables.directories p
  pageTables : ∀ p : Pid, k.Live p → k'.tables.pageTables p = k.tables.pageTables p
  vidTables : ∀ p : Pid, k.Live p → k'.tables.vidTables p = k.tables.vidTables p

theorem Undisturbed.refl (k : Kernel) : Undisturbed k k :=
  ⟨rfl, rfl, rfl, rfl, rfl, rfl, fun _ _ => rfl, fun _ _ => rfl, fun _ _ => rfl⟩

/-- Entering the directory of a free slot writes the page table of that slot. -/
theorem entered_undisturbed (hn : ¬k.Live n) (m : ℕ → UInt8) :
    Undisturbed k { entered k c n with phys := m } := by
  refine ⟨rfl, rfl, rfl, rfl, rfl, rfl, fun _ _ => rfl, fun p hp => ?_, fun _ _ => rfl⟩
  have hne : (p : ℕ) ≠ n := fun he => hn (Fin.val_inj.mp he ▸ hp)
  exact Function.update_of_ne hne _ _

/-- The call finds an executable whose load breaks off, with a directory other than that of the new
process loaded. -/
def LoadFails (k : Kernel) (command : Option (List UInt8)) : Prop :=
  ∃ n line e, freePidIdx k.pidArr = some n ∧ k.cr3 ≠ some n ∧ command = some line ∧
    findExecutable k.img (line.take (commandEnd line)) = some e ∧
    LoadBreaks k.img (getInodePtr k.img e.inodeNum)

/-- A call that fails leaves the processes alone; the loaded directory stays the same exactly if the
load does not fail. -/
theorem failed_execute_unchanged (h : Run.Reach system Run.Free k) (command : Option (List UInt8))
    (st : Stale) :
    (∀ k', k.kexecute command st = some (k', some (-1)) → Undisturbed k k') ∧
      ((∀ k', k.kexecute command st = some (k', some (-1)) → k'.cr3 = k.cr3) ↔
        ¬LoadFails k command) := by
  obtain ⟨chains, ps, c, hcons, hpaged⟩ := Reach.paged h
  refine ⟨fun k' hfail => ?_, fun hsame => ?_, fun hload k' hfail => ?_⟩
  · have hcases := kexecute_cases hfail hcons.currProcess hcons.live fun p hp => hcons.live_root hp
    cases hcases with
    | unchanged => exact .refl k
    | failed hfree _ hacc =>
      obtain ⟨m, rfl⟩ := access_eq_some hacc
      exact entered_undisturbed (not_live_of_free hfree) m
  · rintro ⟨n, line, e, hfree, hcr3, rfl, hfind, hbreaks⟩
    obtain ⟨m, hk'⟩ := kexecute_broken st hcons hpaged hfree hfind hbreaks
    exact hcr3 (hsame _ hk').symm
  · -- the three ways past the tests are a process, a fault or a bad index
    cases command with
    | none =>
      cases hfail
      rfl
    | some line =>
      cases hfree : freePidIdx k.pidArr with
      | none =>
        simp only [kexecute, hfree] at hfail
        cases hfail
        rfl
      | some n =>
        cases hfind : findExecutable k.img (line.take (commandEnd line)) with
        | none =>
          simp only [kexecute, hfree, hfind] at hfail
          cases hfail
          rfl
        | some e =>
          by_cases hbreaks : LoadBreaks k.img (getInodePtr k.img e.inodeNum)
          · obtain ⟨m, hk'⟩ := kexecute_broken st hcons hpaged hfree hfind hbreaks
            cases hk'.symm.trans hfail
            by_contra hcr3
            exact hload ⟨n, line, e, hfree, fun he => hcr3 he.symm, rfl, hfind, hbreaks⟩
          · exfalso
            by_cases hlen : inodeLength k.img (getInodePtr k.img e.inodeNum) ≤ programSpace
            · obtain ⟨k₁, hk₁, -⟩ := kexecute_intact st hcons hpaged hfree hfind hlen
                (fileIntact_of_not_loadBreaks hlen hbreaks)
              cases hk₁.symm.trans hfail
            · have hfault := kexecute_long st hcons hpaged hfree hfind (not_le.mp hlen) hbreaks
              cases hfault.symm.trans hfail

/-- The kernel booted from an image. -/
def bootOf (img : Image) : Option Kernel :=
  boot packedLayout img (fun _ => default) 0 (fun _ => 0) ⟨0, [], fun _ => 0⟩

theorem bootOf_reach {img : Image} (h : bootOf img = some k) : Run.Reach system Run.Free k :=
  .init ⟨_, _, _, _, _, _, h⟩

/-- `abc` -/
def abcCommand : List UInt8 := [0x61, 0x62, 0x63]

/-- The first shell tries to execute a text file. -/
theorem failed_execute_unchanged_text : ∃ k k', bootOf sampleImage = some k ∧
    k.kexecute (some abcCommand) ⟨0, [], fun _ => 0⟩ = some (k', some (-1)) ∧
    Undisturbed k k' ∧ k'.cr3 = k.cr3 := by
  have heval : (bootOf sampleImage).map (fun k =>
      (findExecutable k.img (abcCommand.take (commandEnd abcCommand))).isNone &&
        (k.kexecute (some abcCommand) ⟨0, [], fun _ => 0⟩).any fun x => x.2 = some (-1))
      = some true := by
    decide +kernel
  obtain ⟨k, hk, hfacts⟩ := Option.map_eq_some_iff.mp heval
  simp only [Bool.and_eq_true, Option.any_eq_true, decide_eq_true_eq, Option.isNone_iff_eq_none]
    at hfacts
  obtain ⟨hnone, ⟨k', r⟩, hfail, hr⟩ := hfacts
  obtain rfl : r = some (-1) := hr
  obtain ⟨hsame, hcr3⟩ := failed_execute_unchanged (bootOf_reach hk) (some abcCommand)
    ⟨0, [], fun _ => 0⟩
  refine ⟨k, k', hk, hfail, hsame k' hfail, hcr3.mpr ?_ k' hfail⟩
  rintro ⟨n, line, e, -, -, hline, hfind, -⟩
  cases hline
  rw [hnone] at hfind
  cases hfind

/-- The sample image with `abc` an executable of 5000 bytes whose second block index is bad. -/
def truncatedImage : Image :=
  patchedImage [(8192, 0x88), (8193, 0x13), (8200, 9), (16384, 0x7f), (16385, 0x45), (16386, 0x4c),
    (16387, 0x46)]

/-- The call fails, and the directory of the unused process number 3 stays loaded. -/
theorem failed_execute_unchanged_truncated : ∃ k k', Run.Reach system Run.Free k ∧
    k.currProcess = some 0 ∧
    k.kexecute (some abcCommand) ⟨0, [], fun _ => 0⟩ = some (k', some (-1)) ∧
    k.cr3 = some 0 ∧ k'.cr3 = some 3 ∧ ¬k'.Live 3 := by
  have heval : (bootOf truncatedImage).map (fun k =>
      decide (k.currProcess = some 0 ∧ k.cr3 = some 0 ∧ freePidIdx k.pidArr = some 3) &&
        (findExecutable k.img (abcCommand.take (commandEnd abcCommand))).any fun e =>
          decide (4096 < inodeLength k.img (getInodePtr k.img e.inodeNum) ∧
            ¬IndexOk k.img (getInodePtr k.img e.inodeNum) 4096))
      = some true := by
    decide +kernel
  obtain ⟨k, hk, hfacts⟩ := Option.map_eq_some_iff.mp heval
  simp only [Bool.and_eq_true, Option.any_eq_true, decide_eq_true_eq] at hfacts
  obtain ⟨⟨hcurr, hcr3, hfree⟩, e, hfind, hpos, hbad⟩ := hfacts
  have hreach := bootOf_reach hk
  obtain ⟨chains, ps, c, hcons, hpaged⟩ := Reach.paged hreach
  obtain ⟨m, hfail⟩ := kexecute_broken ⟨0, [], fun _ => 0⟩ hcons hpaged hfree hfind
    ⟨4096, by decide, hpos, hbad⟩
  exact ⟨k, _, hreach, hcurr, hfail, hcr3, rfl, not_live_of_free hfree⟩

/-! ## What is admitted -/

/-- A regular file with valid blocks, with room for an entry point, that starts as an executable. -/
structure Executable (img : Image) (e : Dentry) : Prop where
  regular : e.fileType = regularFileType
  blocks : ∀ pos < inodeLength img (entryInode img e), BlockOk img (entryInode img e) pos
  length : 28 ≤ inodeLength img (entryInode img e)
  magic : (fileBytes img (entryInode img e)).take 4 = [0x7f, 0x45, 0x4c, 0x46]

instance (img : Image) (e : Dentry) : Decidable (Executable img e) :=
  decidable_of_iff (e.fileType = regularFileType ∧
      (∀ pos < inodeLength img (entryInode img e), BlockOk img (entryInode img e) pos) ∧
      28 ≤ inodeLength img (entryInode img e) ∧
      (fileBytes img (entryInode img e)).take 4 = [0x7f, 0x45, 0x4c, 0x46])
    ⟨fun ⟨h₁, h₂, h₃, h₄⟩ => ⟨h₁, h₂, h₃, h₄⟩, fun ⟨h₁, h₂, h₃, h₄⟩ => ⟨h₁, h₂, h₃, h₄⟩⟩

/-- A process number is free and the word of the command names an executable. -/
def Admissible (k : Kernel) (command : Option (List UInt8)) : Prop :=
  (∃ p, ¬k.Live p) ∧ ∃ line i, command = some line ∧ Names k.img (commandWord line) i ∧
    Executable k.img (entry k.img i)

/-- A live process at the entry point of a file, with the file in its memory. -/
structure Loaded (k : Kernel) (n : Pid) (img : Image) (inode : ℕ) : Prop where
  live : k.Live n
  instrPtr : (k.pcbs n).instrPtr = word fun j => fileByte img inode (24 + j)
  memory : ∀ i < inodeLength img inode, ∃ a,
    walk k.lay k.tables n (programStart + i) = some a ∧ k.phys a.phys = fileByte img inode i

/-- The numbers of an entry are those of the image: its inode is one of the inodes, and there are data
blocks, behind the inodes. The file is then read from the image and from nowhere else. -/
structure InImage (img : Image) (e : Dentry) : Prop where
  inodeNum : e.inodeNum < numInodes img
  inodes : numInodes img < 2 ^ 31
  blocks : 0 < numDataBlocks img

instance (img : Image) (e : Dentry) : Decidable (InImage img e) :=
  decidable_of_iff (e.inodeNum < numInodes img ∧ numInodes img < 2 ^ 31 ∧ 0 < numDataBlocks img)
    ⟨fun ⟨h₁, h₂, h₃⟩ => ⟨h₁, h₂, h₃⟩, fun ⟨h₁, h₂, h₃⟩ => ⟨h₁, h₂, h₃⟩⟩

theorem InImage.getInodePtr {img : Image} {e : Dentry} (h : InImage img e) :
    getInodePtr img e.inodeNum = entryInode img e := by
  have hnum := h.inodeNum
  have hinodes := h.inodes
  rw [FileSystem.getInodePtr, if_neg (by omega), entryInode]

/-- What `kexecute` takes for granted about an entry that it found by 32 characters of the word `s`
and that passed its test, unless the load breaks off: the word is no longer than that, the entry is a
regular file, and the file has an entry point and fits the user page. -/
structure Plain (img : Image) (s : List UInt8) (e : Dentry) : Prop where
  name : s.length ≤ fnameSize
  regular : e.fileType = regularFileType
  length : 28 ≤ inodeLength img (entryInode img e)
  fits : inodeLength img (entryInode img e) ≤ programSpace

instance (img : Image) (s : List UInt8) (e : Dentry) : Decidable (Plain img s e) :=
  decidable_of_iff (s.length ≤ fnameSize ∧ e.fileType = regularFileType ∧
      28 ≤ inodeLength img (entryInode img e) ∧ inodeLength img (entryInode img e) ≤ programSpace)
    ⟨fun ⟨h₁, h₂, h₃, h₄⟩ => ⟨h₁, h₂, h₃, h₄⟩, fun ⟨h₁, h₂, h₃, h₄⟩ => ⟨h₁, h₂, h₃, h₄⟩⟩

/-- What the two lookups of `kexecute` find. -/
theorem findExecutable_eq_some_iff {img : Image} {cmd : List UInt8} (hcmd : 0 ∉ cmd) {e : Dentry} :
    findExecutable img cmd = some e ↔ ∃ i, Names img (cmd.take fnameSize) i ∧ e = entry img i ∧
      readData img (entryInode img e) 0 1 4 = ⟨4, [0x7f, 0x45, 0x4c, 0x46]⟩ := by
  have hcheck : ∀ i, Names img (cmd.take fnameSize) i →
      (checkExecutable img (entry img i).fileName = true ↔
        readData img (entryInode img (entry img i)) 0 1 4 = ⟨4, [0x7f, 0x45, 0x4c, 0x46]⟩) := by
    intro i hi
    simp only [checkExecutable, fsReadByName, hi.lookup, decide_eq_true_eq]
    exact ⟨fun h => congrArg₂ ReadResult.mk h.1 h.2,
      fun h => ⟨congrArg ReadResult.ret h, congrArg ReadResult.stored h⟩⟩
  rw [findExecutable, Option.filter_eq_some_iff,
    show (some fun j => cmd.getD j 0) = some (ofString cmd) from rfl,
    readDentryByName_eq_some_iff (text_ofString hcmd)]
  constructor
  · rintro ⟨⟨i, hi, rfl⟩, hexec⟩
    exact ⟨i, hi, rfl, (hcheck i hi).mp hexec⟩
  · rintro ⟨i, hi, rfl, hread⟩
    exact ⟨⟨i, hi, rfl⟩, (hcheck i hi).mpr hread⟩

/-- An executable passes the test. -/
theorem Executable.readData {img : Image} {e : Dentry} (h : Executable img e) :
    readData img (entryInode img e) 0 1 4 = ⟨4, [0x7f, 0x45, 0x4c, 0x46]⟩ := by
  have hintact : FileIntact img (entryInode img e) := fun pos hpos => (h.blocks pos hpos).indexOk
  rw [readData_intact hintact (by decide), List.drop_zero, h.magic]
  rfl

/-- An admissible command, word for word: the lookup by 32 characters finds its entry. -/
theorem Admissible.find {line : List UInt8} (h : Admissible k (some line)) :
    ∃ i, Names k.img (commandWord line) i ∧ Executable k.img (entry k.img i) ∧
      (commandWord line).length ≤ fnameSize ∧
      findExecutable k.img (line.take (commandEnd line)) = some (entry k.img i) := by
  obtain ⟨-, line', i, hline, hi, hexec⟩ := h
  cases hline
  -- a name is at most 32 characters long, so the whole word is looked up
  have hlen : (commandWord line).length ≤ fnameSize := hi.name ▸ length_entryName_le k.img i
  have htake : (line.take (commandEnd line)).take fnameSize = commandWord line := by
    rw [take_commandEnd_eq (hlen.trans (by decide)), List.take_of_length_le hlen]
  refine ⟨i, hi, hexec, hlen, ?_⟩
  rw [findExecutable_eq_some_iff (zero_notMem_command line), htake]
  exact ⟨i, hi, rfl, hexec.readData⟩

section Admission

variable {line : List UInt8} (st : Stale) (h : Run.Reach system Run.Free k) {e : Dentry}
  (hfree : freePidIdx k.pidArr = some n)
  (hfind : findExecutable k.img (line.take (commandEnd line)) = some e) (hin : InImage k.img e)

include h hfree hfind hin

end Admission

end Kernel
end GalapagOS
