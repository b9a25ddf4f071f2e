import GalapagOS.Kernel.Files
import GalapagOS.FileSystem.Theorems
import GalapagOS.Paging.Isolation
import Mathlib.Data.Fin.VecNotation
import Mathlib.Tactic.FinCases

/-!
# The descriptor table

`TableOk` is what holds of a process's descriptor table from its start on: 0 and 1 are the
terminal, every other descriptor in use has the operations of its type. It is kept by every
system call on files, whatever happens to the rest of the kernel between two calls.
-/

namespace GalapagOS
namespace Kernel

open FileSystem

/-- The descriptor table of a process. -/
def table (k : Kernel) (p : Pid) : FileArray := (k.pcbs p).files

/-- A descriptor in use from 2 on: its type, the operations of the type, and an inode pointer
for regular files only. -/
def SlotOk (d : FileDescriptor) : Prop :=
  (d.fileType = rtcType ∧ d.fileOpTablePtr = some .rtc ∧ d.inodePtr = 0) ∨
  (d.fileType = directoryType ∧ d.fileOpTablePtr = some .dir ∧ d.inodePtr = 0) ∨
  (d.fileType = regularFileType ∧ d.fileOpTablePtr = some .fs)

/-- The invariant of a descriptor table. -/
structure TableOk (f : FileArray) : Prop where
  stdin : (f 0).InUse ∧ (f 0).fileType = stdinType ∧ (f 0).fileOpTablePtr = some .std
  stdout : (f 1).InUse ∧ (f 1).fileType = stdoutType ∧ (f 1).fileOpTablePtr = some .std
  files : ∀ i, 2 ≤ i → (f i).InUse → SlotOk (f i)

/-! ## The table under each operation -/

variable {k k' : Kernel} {p : Pid}

@[simp] theorem table_modifyFile (i : Fin 8) (g : FileDescriptor → FileDescriptor) :
    (k.modifyFile p i g).table p = Function.update (k.table p) i (g (k.table p i)) := by
  simp [table, modifyFile, modifyPcb]

/-- The invariant looks at the flags, the operations and the inode pointer only. -/
theorem TableOk.congr {f g : FileArray} (h : TableOk f)
    (hflags : ∀ i, (g i).flags = (f i).flags)
    (hops : ∀ i, (g i).fileOpTablePtr = (f i).fileOpTablePtr)
    (hinode : ∀ i, (g i).inodePtr = (f i).inodePtr) : TableOk g := by
  have huse : ∀ i, (g i).InUse ↔ (f i).InUse := fun i => by
    unfold FileDescriptor.InUse
    rw [hflags]
  have htype : ∀ i, (g i).fileType = (f i).fileType := fun i => by
    unfold FileDescriptor.fileType
    rw [hflags]
  refine ⟨?_, ?_, fun i hi hu => ?_⟩
  · rw [huse, htype, hops]
    exact h.stdin
  · rw [huse, htype, hops]
    exact h.stdout
  · unfold SlotOk
    rw [htype, hops, hinode]
    exact h.files i hi ((huse i).mp hu)

/-- The descriptors from `FD_START` on. -/
theorem two_le_iff : ∀ {i : Fin 8}, 2 ≤ i ↔ i ≠ 0 ∧ i ≠ 1 := by
  decide

/-- Changing one descriptor from 2 on. -/
theorem TableOk.update {f : FileArray} (h : TableOk f) {i : Fin 8} (hi : 2 ≤ i)
    {d : FileDescriptor} (hd : d.InUse → SlotOk d) : TableOk (Function.update f i d) := by
  obtain ⟨h0, h1⟩ := two_le_iff.mp hi
  refine ⟨?_, ?_, fun j hj hu => ?_⟩
  · rw [Function.update_of_ne h0.symm]
    exact h.stdin
  · rw [Function.update_of_ne h1.symm]
    exact h.stdout
  · by_cases hji : j = i
    · subst hji
      rw [Function.update_self] at hu ⊢
      exact hd hu
    · rw [Function.update_of_ne hji] at hu ⊢
      exact h.files j hj hu

theorem openStdinStdout_tableOk (h : (k.setCurrentProcess p).openStdinStdout = some k') :
    TableOk (k'.table p) ∧ k'.desc = some p := by
  simp only [openStdinStdout, setCurrentProcess, Option.map_some, Option.some.injEq] at h
  subst h
  refine ⟨⟨?_, ?_, fun i hi hu => ?_⟩, rfl⟩
  · simp [table, modifyFile, modifyPcb, FileDescriptor.InUse, FileDescriptor.fileType]
    decide
  · simp [table, modifyFile, modifyPcb, FileDescriptor.InUse, FileDescriptor.fileType]
    decide
  · -- the other descriptors have just been cleared
    obtain ⟨h0, h1⟩ := two_le_iff.mp hi
    simp [table, modifyFile, modifyPcb, clearFdarray, FileDescriptor.InUse, h0, h1] at hu

/-! ## `kopen` -/

theorem mem_candidates {i : Fin 8} : i ∈ [2, 3, 4, 5, 6, 7] ↔ (2 : Fin 8) ≤ i := by
  revert i
  decide

theorem chosenIndex_eq_none {f : FileArray} :
    chosenIndex f = none ↔ ∀ i, 2 ≤ i → (f i).InUse := by
  simp only [chosenIndex, List.find?_eq_none, decide_eq_true_eq, not_not]
  exact forall_congr' fun i => imp_congr_left mem_candidates

/-- The chosen descriptor is the smallest free one. -/
theorem chosenIndex_eq_some {f : FileArray} {i : Fin 8} (h : chosenIndex f = some i) :
    2 ≤ i ∧ ¬(f i).InUse ∧ ∀ j, 2 ≤ j → j < i → (f j).InUse := by
  rw [chosenIndex, List.find?_eq_some_iff_append] at h
  obtain ⟨hfree, as, bs, hl, has⟩ := h
  have hmem : ∀ j : Fin 8, 2 ≤ j ↔ j ∈ as ++ i :: bs := fun j => by
    rw [← hl, mem_candidates]
  refine ⟨(hmem i).mpr (by simp), by simpa using hfree, fun j hj hji => ?_⟩
  -- the candidates ascend, so those below `i` come before it
  have hsorted : (as ++ i :: bs).Pairwise (· < ·) := by
    rw [← hl]
    decide
  have hja : j ∈ as := by
    rcases List.mem_append.mp ((hmem j).mp hj) with hja | hjb
    · exact hja
    · rcases List.mem_cons.mp hjb with rfl | hjb
      · exact absurd hji (lt_irrefl _)
      · have hij := (List.pairwise_cons.mp (List.pairwise_append.mp hsorted).2.1).1 j hjb
        exact absurd hji (lt_asymm hij)
  simpa using has j hja

/-- `fd_init` fills in one entry, for the three types only. -/
theorem fdInit_eq_some {d : Dentry} {i : Fin 8} (h : k.fdInit p d i = some k') :
    d.fileType ∈ [rtcType, directoryType, regularFileType] ∧
    ∃ e, k' = k.modifyFile p i (fun _ => e) ∧ e.InUse ∧ e.filePosition = 0 ∧ SlotOk e := by
  simp only [fdInit] at h
  split at h
  · rename_i ht
    refine ⟨by simp [ht], _, (Option.some.inj h).symm, ?_, rfl, Or.inl ⟨?_, rfl, rfl⟩⟩ <;>
      simp only [FileDescriptor.InUse, FileDescriptor.fileType, ht] <;> decide
  · split at h
    · rename_i ht
      refine ⟨by simp [ht], _, (Option.some.inj h).symm, ?_, rfl,
        Or.inr (Or.inl ⟨?_, rfl, rfl⟩)⟩ <;>
        simp only [FileDescriptor.InUse, FileDescriptor.fileType, ht] <;> decide
    · split at h
      · rename_i ht
        refine ⟨by simp [ht], _, (Option.some.inj h).symm, ?_, rfl, Or.inr (Or.inr ⟨?_, rfl⟩)⟩ <;>
          simp only [FileDescriptor.InUse, FileDescriptor.fileType, ht] <;> decide
      · cases h

theorem fdInit_eq_none {d : Dentry} {i : Fin 8} :
    k.fdInit p d i = none ↔ d.fileType ∉ [rtcType, directoryType, regularFileType] := by
  simp only [fdInit, List.mem_cons, List.not_mem_nil, or_false, not_or]
  split_ifs with h₁ h₂ h₃ <;> simp_all

/-- What `kopen` does with the table of `p`: it fails and changes nothing exactly when no
descriptor is free, the name is not found or the type is not one of the three; otherwise it
returns the smallest free descriptor, at position 0, and changes no other entry. -/
structure KopenSpec (k : Kernel) (p : Pid) (name : Option (ℕ → UInt8)) (k' : Kernel) (r : ℤ) :
    Prop where
  fails_iff : r = -1 ↔ (∀ i, 2 ≤ i → (k.table p i).InUse) ∨ readDentryByName k.img name = none ∨
    ∃ d, readDentryByName k.img name = some d ∧
      d.fileType ∉ [rtcType, directoryType, regularFileType]
  unchanged : r = -1 → k' = k
  opened : r ≠ -1 → ∃ i : Fin 8, r = i ∧ 2 ≤ i ∧ ¬(k.table p i).InUse ∧
    (∀ j, 2 ≤ j → j < i → (k.table p j).InUse) ∧
    ∃ e, k' = k.modifyFile p i (fun _ => e) ∧ e.InUse ∧ e.filePosition = 0 ∧ SlotOk e

theorem kopen_spec (hp : k.desc = some p) (name : Option (ℕ → UInt8)) :
    ∃ k' r, k.kopen name = some (k', r) ∧ KopenSpec k p name k' r := by
  simp only [kopen, hp, Option.bind_eq_bind, Option.bind_some, Option.pure_def]
  cases hidx : chosenIndex (k.pcbs p).files with
  | none =>
    refine ⟨k, -1, rfl, ⟨?_, fun _ => rfl, fun h => absurd rfl h⟩⟩
    simp only [true_iff]
    exact Or.inl (chosenIndex_eq_none.mp hidx)
  | some i =>
    obtain ⟨hi, hfree, hsmall⟩ := chosenIndex_eq_some hidx
    cases hlook : readDentryByName k.img name with
    | none =>
      exact ⟨k, -1, rfl, ⟨by simp [hlook], fun _ => rfl, fun h => absurd rfl h⟩⟩
    | some d =>
      cases hinit : k.fdInit p d i with
      | none =>
        refine ⟨k, -1, by simp only [hinit], ⟨?_, fun _ => rfl, fun h => absurd rfl h⟩⟩
        simp only [true_iff]
        exact Or.inr (Or.inr ⟨d, hlook, fdInit_eq_none.mp hinit⟩)
      | some k₁ =>
        obtain ⟨htype, e, hk₁, he⟩ := fdInit_eq_some hinit
        have hr : (i : ℤ) ≠ -1 := by omega
        refine ⟨k₁, i, by simp only [hinit], ⟨?_, fun h => absurd h hr,
          fun _ => ⟨i, rfl, hi, hfree, hsmall, e, hk₁, he⟩⟩⟩
        simp only [hr, false_iff, not_or]
        refine ⟨fun hall => hfree (hall i hi), by simp [hlook], ?_⟩
        rintro ⟨d', hd', hbad⟩
        rw [hlook, Option.some.injEq] at hd'
        exact hbad (hd' ▸ htype)

/-! ## `kclose` -/

/-- What `kclose` does: it succeeds exactly on a descriptor in 2..7 that is in use, and then
frees that one; otherwise it returns -1 and changes nothing. -/
structure KcloseSpec (k : Kernel) (p : Pid) (fd : ℤ) (k' : Kernel) (r : ℤ) : Prop where
  succeeds_iff : r = 0 ↔ ∃ i : Fin 8, fd = i ∧ 2 ≤ i ∧ (k.table p i).InUse
  freed : ∀ i : Fin 8, fd = i → r = 0 → k' = k.modifyFile p i fun d => { d with flags := 0 }
  unchanged : r ≠ 0 → r = -1 ∧ k' = k

/-- A number in 2..7 as a descriptor. -/
theorem exists_fd {fd : ℤ} (h : 2 ≤ fd ∧ fd < 8) : ∃ i : Fin 8, fd = i ∧ 2 ≤ i := by
  refine ⟨⟨fd.toNat, by omega⟩, by simp; omega, ?_⟩
  rw [Fin.le_def]
  change 2 ≤ fd.toNat
  omega

theorem kclose_eq {i : Fin 8} (hp : k.desc = some p) (hi : 2 ≤ i) :
    k.kclose i = if (k.table p i).InUse then
      (k.modifyFile p i fun d => { d with flags := 0 }).opClose (k.table p i).fileOpTablePtr
    else some (k, -1) := by
  have hrange : 2 ≤ (i : ℤ) ∧ (i : ℤ) < 8 := by
    rw [Fin.le_def] at hi
    change 2 ≤ i.val at hi
    omega
  have hfin : (⟨((i : ℕ) : ℤ).toNat, by omega⟩ : Fin 8) = i := by
    ext
    simp
  simp only [kclose, hp, Option.bind_eq_bind, Option.bind_some, Option.pure_def, dif_pos hrange]
  rw [hfin]
  rfl

theorem kclose_of_not_range {fd : ℤ} (hp : k.desc = some p) (h : ¬(2 ≤ fd ∧ fd < 8)) :
    k.kclose fd = some (k, -1) := by
  simp only [kclose, hp, Option.bind_eq_bind, Option.bind_some, Option.pure_def, dif_neg h]

/-- Closing a file or a device other than the terminal returns 0. -/
theorem opClose_of_slotOk {d : FileDescriptor} (hd : SlotOk d) :
    k.opClose d.fileOpTablePtr = some (k, 0) := by
  rcases hd with h | h | h
  · rw [h.2.1, opClose]
    simp
  · rw [h.2.1, opClose]
    simp
  · rw [h.2, opClose]
    simp

theorem kclose_spec (hp : k.desc = some p) (hok : TableOk (k.table p)) (fd : ℤ) :
    ∃ k' r, k.kclose fd = some (k', r) ∧ KcloseSpec k p fd k' r := by
  by_cases hrange : 2 ≤ fd ∧ fd < 8
  · obtain ⟨i, rfl, hi⟩ := exists_fd hrange
    have hinj : ∀ j : Fin 8, (i : ℤ) = j → j = i := fun j hj => by
      ext
      omega
    rw [kclose_eq hp hi]
    by_cases huse : (k.table p i).InUse
    · rw [if_pos huse, opClose_of_slotOk (hok.files i hi huse)]
      refine ⟨_, 0, rfl, ⟨by simpa using ⟨i, rfl, hi, huse⟩, fun j hj _ => ?_,
        fun h => absurd rfl h⟩⟩
      rw [hinj j hj]
    · rw [if_neg huse]
      refine ⟨k, -1, rfl, ⟨?_, fun j _ h => absurd h (by decide), fun _ => ⟨rfl, rfl⟩⟩⟩
      simp only [show ¬((-1 : ℤ) = 0) by decide, false_iff]
      rintro ⟨j, hj, -, hu⟩
      exact huse (hinj j hj ▸ hu)
  · rw [kclose_of_not_range hp hrange]
    refine ⟨k, -1, rfl, ⟨?_, fun j _ h => absurd h (by decide), fun _ => ⟨rfl, rfl⟩⟩⟩
    simp only [show ¬((-1 : ℤ) = 0) by decide, false_iff]
    rintro ⟨j, rfl, hj, -⟩
    rw [Fin.le_def] at hj
    change 2 ≤ j.val at hj
    exact hrange (by omega)

/-! ## Bad descriptors -/

/-- The descriptor with a number. -/
def slotOf (fd : ℤ) : Option (Fin 8) :=
  if h : 0 ≤ fd ∧ fd < 8 then some ⟨fd.toNat, toNat_lt_of_valid h⟩ else none

theorem slotOf_eq_some {fd : ℤ} {i : Fin 8} : slotOf fd = some i ↔ fd = i := by
  unfold slotOf
  split
  · rw [Option.some.injEq, Fin.ext_iff]
    show fd.toNat = i.val ↔ _
    omega
  · have := i.isLt
    simp only [reduceCtorEq, false_iff]
    omega

/-- The tests of `kread` and `kwrite` pass exactly for a descriptor in use of a listed type. -/
theorem checkFd_eq_some {f : FileArray} {types : List ℕ} {fd : ℤ} {d : FileDescriptor} :
    checkFd f types fd = some d ↔ ∃ i : Fin 8, fd = i ∧ d = f i ∧ d.InUse ∧ d.fileType ∈ types := by
  unfold checkFd
  by_cases hrange : 0 ≤ fd ∧ fd < 8
  · obtain ⟨i, rfl⟩ : ∃ i : Fin 8, fd = i := ⟨⟨fd.toNat, by omega⟩, by simp; omega⟩
    have hfin : (⟨((i : ℕ) : ℤ).toNat, by omega⟩ : Fin 8) = i := by
      ext
      simp
    rw [dif_pos hrange]
    simp only [hfin]
    constructor
    · intro h
      split at h
      · rename_i hd
        cases h
        exact ⟨i, rfl, rfl, hd⟩
      · cases h
    · rintro ⟨j, hj, rfl, hd⟩
      obtain rfl : i = j := by
        ext
        omega
      rw [if_pos hd]
  · rw [dif_neg hrange]
    simp only [reduceCtorEq, false_iff]
    rintro ⟨j, rfl, -⟩
    exact hrange (by omega)

/-- The descriptors that `increment_position` moves. -/
theorem table_incrementPosition (inode : ℕ) (amt : ℤ) (j : Fin 8) :
    (k.incrementPosition p inode amt).table p j
      = if inode ≠ 0 ∧ 2 ≤ j ∧ (k.table p j).inodePtr = inode then
          { k.table p j with
            filePosition := (((k.table p j).filePosition + amt) % 2 ^ 32).toNat }
        else k.table p j := by
  unfold incrementPosition
  by_cases hnull : inode = 0
  · rw [if_pos hnull, if_neg fun hc => hc.1 hnull]
  · rw [if_neg hnull]
    simp only [table, modifyPcb, Function.update_self, ne_eq, hnull, not_false_eq_true, true_and]

/-- It changes positions only. -/
theorem incrementPosition_fields (inode : ℕ) (amt : ℤ) (j : Fin 8) :
    (k.incrementPosition p inode amt).table p j
      = { k.table p j with
          filePosition := ((k.incrementPosition p inode amt).table p j).filePosition } := by
  rw [table_incrementPosition]
  split <;> rfl

theorem incrementPosition_table (inode : ℕ) (amt : ℤ) (hok : TableOk (k.table p)) :
    TableOk ((k.incrementPosition p inode amt).table p) := by
  refine hok.congr (fun i => ?_) (fun i => ?_) fun i => ?_ <;> rw [incrementPosition_fields]

@[simp] theorem incrementPosition_desc (inode : ℕ) (amt : ℤ) :
    (k.incrementPosition p inode amt).desc = k.desc := by
  unfold incrementPosition
  split <;> rfl

theorem opRead_table {d : FileDescriptor} {n buf : ℕ} {r : ReadResult}
    (h : k.opRead p d n buf = some (k', r)) (hok : TableOk (k.table p)) :
    TableOk (k'.table p) ∧ k'.desc = k.desc := by
  unfold opRead at h
  split at h
  · cases h
  · cases h
    exact ⟨hok, rfl⟩
  · cases h
    exact ⟨hok, rfl⟩
  · unfold fsRead at h
    split at h
    · cases h
      exact ⟨hok, rfl⟩
    · cases h
      exact ⟨incrementPosition_table _ _ hok, incrementPosition_desc ..⟩
  · rw [Option.map_eq_some_iff] at h
    obtain ⟨q, -, hq⟩ := h
    cases hq
    exact ⟨hok, rfl⟩

theorem kread_table {fd nbytes : ℤ} {buf : ℕ} {r : ReadResult}
    (h : k.kread fd buf nbytes = some (k', r)) (hp : k.desc = some p)
    (hok : TableOk (k.table p)) : TableOk (k'.table p) ∧ k'.desc = some p := by
  simp only [kread, hp, Option.bind_eq_bind, Option.bind_some, Option.pure_def] at h
  split at h
  · cases h
    exact ⟨hok, hp⟩
  · split at h
    · cases h
      exact ⟨hok, hp⟩
    · have hread := opRead_table h hok
      exact ⟨hread.1, hread.2.trans hp⟩

theorem access_eq_some {base : ℕ} {ops : List (Memory.Op UInt8)} (h : k.access base ops = some k') :
    ∃ m, k' = { k with phys := m } := by
  unfold access at h
  rw [Option.map_eq_some_iff] at h
  obtain ⟨m, -, rfl⟩ := h
  exact ⟨m, rfl⟩

theorem opWrite_table {d : FileDescriptor} {buf : ℕ → UInt8} {n : ℕ} {r : ℤ}
    (h : k.opWrite d buf n = some (k', r)) : k'.pcbs = k.pcbs ∧ k'.desc = k.desc := by
  unfold opWrite at h
  split at h
  · cases h
  · unfold rtcWrite at h
    split at h <;> cases h <;> exact ⟨rfl, rfl⟩
  · cases h
    exact ⟨rfl, rfl⟩
  · cases h
    exact ⟨rfl, rfl⟩
  · simp only [terminalWrite, Option.map_eq_some_iff] at h
    obtain ⟨k₁, hk₁, heq⟩ := h
    cases heq
    obtain ⟨m, rfl⟩ := access_eq_some hk₁
    exact ⟨rfl, rfl⟩

theorem kwrite_pcbs {fd nbytes r : ℤ} {buf : Option (ℕ → UInt8)}
    (h : k.kwrite fd buf nbytes = some (k', r)) (hp : k.desc = some p) :
    k'.pcbs = k.pcbs ∧ k'.desc = k.desc := by
  simp only [kwrite, hp, Option.bind_eq_bind, Option.bind_some, Option.pure_def] at h
  split at h
  · cases h
    exact ⟨rfl, rfl⟩
  · split at h
    · cases h
      exact ⟨rfl, rfl⟩
    · split at h
      · cases h
        exact ⟨rfl, rfl⟩
      · exact opWrite_table h

theorem kwrite_table {fd nbytes r : ℤ} {buf : Option (ℕ → UInt8)}
    (h : k.kwrite fd buf nbytes = some (k', r)) (hp : k.desc = some p)
    (hok : TableOk (k.table p)) : TableOk (k'.table p) ∧ k'.desc = some p := by
  obtain ⟨hpcbs, hdesc⟩ := kwrite_pcbs h hp
  rw [table, hpcbs]
  exact ⟨hok, hdesc.trans hp⟩

/-! ## Sessions -/

/-- A file system call. -/
inductive Call where
  | kopen (name : Option (ℕ → UInt8))
  | kclose (fd : ℤ)
  | kread (fd : ℤ) (buf : ℕ) (nbytes : ℤ)
  | kwrite (fd : ℤ) (buf : Option (ℕ → UInt8)) (nbytes : ℤ)

/-- The state after a call that returns. -/
def Call.exec (k : Kernel) : Call → Option Kernel
  | .kopen name => (k.kopen name).map Prod.fst
  | .kclose fd => (k.kclose fd).map Prod.fst
  | .kread fd buf nbytes => (k.kread fd buf nbytes).map Prod.fst
  | .kwrite fd buf nbytes => (k.kwrite fd buf nbytes).map Prod.fst

/-- The states of a process `p` between its start and its end: any calls with any arguments,
and between two calls any change of the kernel that leaves the table of `p` alone and comes
back to it. -/
inductive Session (p : Pid) : Kernel → Prop
  | start {k k' : Kernel} : (k.setCurrentProcess p).openStdinStdout = some k' → Session p k'
  | call {k k' : Kernel} (c : Call) : Session p k → c.exec k = some k' → Session p k'
  | other {k k' : Kernel} : Session p k → k'.table p = k.table p → k'.desc = some p →
      Session p k'

/-- One call keeps the table in order. -/
theorem Call.exec_tableOk {c : Call} (h : c.exec k = some k') (hp : k.desc = some p)
    (hok : TableOk (k.table p)) : TableOk (k'.table p) ∧ k'.desc = some p := by
  cases c with
  | kopen name =>
    obtain ⟨k₁, r, hk₁, hspec⟩ := kopen_spec hp name
    rw [exec, hk₁] at h
    cases h
    by_cases hr : r = -1
    · rw [hspec.unchanged hr]
      exact ⟨hok, hp⟩
    · obtain ⟨i, -, hi, -, -, e, rfl, -, -, he⟩ := hspec.opened hr
      rw [table_modifyFile]
      exact ⟨hok.update hi fun _ => he, hp⟩
  | kclose fd =>
    obtain ⟨k₁, r, hk₁, hspec⟩ := kclose_spec hp hok fd
    rw [exec, hk₁] at h
    cases h
    by_cases hr : r = 0
    · obtain ⟨i, hi, hi2, -⟩ := hspec.succeeds_iff.mp hr
      rw [hspec.freed i hi hr, table_modifyFile]
      exact ⟨hok.update hi2 fun hu => absurd hu (by simp [FileDescriptor.InUse]), hp⟩
    · rw [(hspec.unchanged hr).2]
      exact ⟨hok, hp⟩
  | kread fd buf nbytes =>
    rw [exec, Option.map_eq_some_iff] at h
    obtain ⟨⟨k₁, r⟩, hk₁, rfl⟩ := h
    exact kread_table hk₁ hp hok
  | kwrite fd buf nbytes =>
    rw [exec, Option.map_eq_some_iff] at h
    obtain ⟨⟨k₁, r⟩, hk₁, rfl⟩ := h
    exact kwrite_table hk₁ hp hok

/-- The table is in order in every state of a session. -/
theorem Session.tableOk (h : Session p k) : TableOk (k.table p) ∧ k.desc = some p := by
  induction h with
  | start hstart => exact openStdinStdout_tableOk hstart
  | call c _ hc ih => exact c.exec_tableOk hc ih.2 ih.1
  | other _ htable hdesc ih => exact ⟨htable ▸ ih.1, hdesc⟩

theorem Session.run {cs : List Call} (h : Session p k)
    (hcs : cs.foldlM (fun k c => c.exec k) k = some k') : Session p k' := by
  induction cs generalizing k with
  | nil =>
    cases hcs
    exact h
  | cons c cs ih =>
    obtain ⟨k₁, hk₁, hrest⟩ := Option.bind_eq_some_iff.mp hcs
    exact ih (.call c h hk₁) hrest

/-- Process 0 on an image, after some calls. -/
def sampleSession (img : Image) (cs : List Call) : Option Kernel :=
  (((bootState Paging.packedLayout img (fun _ => default) 0
    fun _ => 0).setCurrentProcess 0).openStdinStdout).bind fun k =>
      cs.foldlM (fun k c => c.exec k) k

theorem sampleSession_session {img : Image} {cs : List Call} (h : sampleSession img cs = some k) :
    Session 0 k := by
  obtain ⟨k₀, hstart, hcalls⟩ := Option.bind_eq_some_iff.mp h
  exact (Session.start hstart).run hcalls

/-- The calls that open the files of some entries. -/
def openEntries (img : Image) (es : List ℕ) : List Call :=
  es.map fun i => .kopen (some (entry img i).fileName)

end Kernel
end GalapagOS
