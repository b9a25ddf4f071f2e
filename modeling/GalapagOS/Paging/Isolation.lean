import GalapagOS.Paging.Theorems

/-!
# Memory isolation between processes

Every history of page-table changes after `new_init`, and what user code can reach in the
state it leads to: its own 4 MB frame, and the video page while it is mapped.
-/

namespace GalapagOS
namespace Paging

/-- The calls that change a page table after boot. -/
inductive Op where
  | newPaging (pid parentPid : ℕ)
  | mapVidMemory (pid : ℕ)
  | unmapVidMemory (pid : ℕ)
  | switchVidMemOut (pid term : ℕ)
  | switchVidMemIn (pid : ℕ)

/-- The call names processes of `pid_arr` and one of the three terminals. -/
def Op.InRange : Op → Prop
  | newPaging pid parentPid => pid < 6 ∧ parentPid < 6
  | mapVidMemory pid => pid < 6
  | unmapVidMemory pid => pid < 6
  | switchVidMemOut pid term => pid < 6 ∧ term < 3
  | switchVidMemIn pid => pid < 6

/-- The tables after the call. -/
def Op.apply (tb : Tables) : Op → Tables
  | newPaging pid parentPid => Paging.newPaging tb pid parentPid
  | mapVidMemory pid => Paging.mapVidMemory tb pid
  | unmapVidMemory pid => Paging.unmapVidMemory tb pid
  | switchVidMemOut pid term => Paging.switchVidMemOut tb pid term
  | switchVidMemIn pid => Paging.switchVidMemIn tb pid

/-- `p`'s user code reaches the physical address `phys` at `v`. -/
def UserReaches (lay : Layout) (tb : Tables) (p v phys : ℕ) : Prop :=
  walk lay tb p v = some ⟨phys, true⟩

variable {lay : Layout} {tb : Tables}

theorem apply_wellFormed (h : WellFormed lay tb) {op : Op} (hop : op.InRange) :
    WellFormed lay (op.apply tb) := by
  cases op with
  | newPaging pid parentPid =>
    exact newPaging_wellFormed h (Nat.lt_succ_of_lt hop.1) (Nat.lt_succ_of_lt hop.2)
  | mapVidMemory pid => exact mapVidMemory_wellFormed h pid
  | unmapVidMemory pid => exact unmapVidMemory_wellFormed h pid
  | switchVidMemOut pid term => exact switchVidMemOut_wellFormed h pid hop.2
  | switchVidMemIn pid => exact switchVidMemIn_wellFormed h pid

/-- The tables are well formed after any sequence of calls. -/
theorem run_wellFormed (lay : Layout) {ops : List Op} (hops : ∀ op ∈ ops, op.InRange) :
    WellFormed lay (ops.foldl Op.apply (newInit lay)) := by
  have hrun : ∀ tb, WellFormed lay tb → WellFormed lay (ops.foldl Op.apply tb) := by
    induction ops with
    | nil => exact fun tb h => h
    | cons op ops ih =>
      intro tb h
      exact ih (fun o ho => hops o (List.mem_cons_of_mem _ ho)) _
        (apply_wellFormed h (hops op List.mem_cons_self))
  exact hrun _ (newInit_wellFormed lay)

/-! ## What user code reaches -/

/-- `v` lies in the 4 MB user page. -/
def InUserPage (v : ℕ) : Prop := 0x08000000 ≤ v ∧ v < 0x08400000

/-- `v` lies in the page at which `kvidmap` shows the screen. -/
def InVidmapPage (v : ℕ) : Prop := 0xdeadb000 ≤ v ∧ v < 0xdeadc000

theorem inUserPage_iff (v : ℕ) : InUserPage v ↔ v / 2 ^ 22 = usrDirEntry := by
  rw [InUserPage, usrDirEntry]
  omega

theorem inVidmapPage_iff {v : ℕ} (hv : v < 2 ^ 32) :
    InVidmapPage v ↔ v / 2 ^ 22 = virtVidmemDirEntry ∧ v / 2 ^ 12 % 2 ^ 10 = virtVidmemTableEntry := by
  rw [InVidmapPage, virtVidmemDirEntry_eq, virtVidmemTableEntry_eq]
  omega

/-- The two places user code can reach, with the frames behind them. -/
theorem userReaches_iff (h : WellFormed lay tb) {p v phys : ℕ} (hp : p < numTasks)
    (hv : v < 2 ^ 32) :
    UserReaches lay tb p v phys ↔
      (InUserPage v ∧ phys = (2 + p) * 2 ^ 22 + (v - 0x08000000)) ∨
      (InVidmapPage v ∧ vidmapPresent tb p ∧
        phys = vidmapBase tb p * 2 ^ 12 + (v - 0xdeadb000)) := by
  rw [UserReaches]
  -- one case for each kind of directory entry
  by_cases hu : v / 2 ^ 22 = usrDirEntry
  · have hin : InUserPage v := (inUserPage_iff v).mpr hu
    have hout : ¬ InVidmapPage v := by rw [InVidmapPage]; rw [InUserPage] at hin; omega
    have hoff : v % 2 ^ 22 = v - 0x08000000 := by rw [InUserPage] at hin; omega
    rw [walk_user h hp hu, hoff]
    simp [hin, hout, eq_comm]
  have hnu : ¬ InUserPage v := fun hc => hu ((inUserPage_iff v).mp hc)
  by_cases hvid : v / 2 ^ 22 = virtVidmemDirEntry
  · rw [walk_vid h hp hvid]
    by_cases hidx : v / 2 ^ 12 % 2 ^ 10 = virtVidmemTableEntry
    · have hin : InVidmapPage v := (inVidmapPage_iff hv).mpr ⟨hvid, hidx⟩
      have hoff : v % 2 ^ 12 = v - 0xdeadb000 := by rw [InVidmapPage] at hin; omega
      by_cases hpres : vidmapPresent tb p
      · rw [if_pos ⟨hidx, hpres⟩, hoff]
        simp [hnu, hin, hpres, eq_comm]
      · rw [if_neg (fun hc => hpres hc.2)]
        simp [hnu, hpres]
    · have hout : ¬ InVidmapPage v := fun hc => hidx ((inVidmapPage_iff hv).mp hc).2
      rw [if_neg (fun hc => hidx hc.1)]
      simp [hnu, hout]
  have hnv : ¬ InVidmapPage v := fun hc => hvid ((inVidmapPage_iff hv).mp hc).1
  have hnone : walk lay tb p v ≠ some ⟨phys, true⟩ := by
    by_cases hk : v / 2 ^ 22 = kernelDirEntry
    · rw [walk_kernel h hp hk]; simp
    by_cases hl : v / 2 ^ 22 = vidmemDirEntry
    · rw [walk_low h hp (by rw [vidmemDirEntry] at hl; omega)]
      split_ifs <;> simp
    · rw [walk_rest h hp hl hk hu hvid]; simp
  simp [hnone, hnu, hnv]

theorem vidmapBase_range (h : WellFormed lay tb) {p : ℕ} (hp : p < numTasks) :
    0xb8 ≤ vidmapBase tb p ∧ vidmapBase tb p ≤ 0xbb :=
  ⟨(h p hp).vidTable.base_ge, (h p hp).vidTable.base_le⟩

/-- The physical bytes user code reaches lie in the task's own frame or in a video page. -/
theorem userReaches_phys (h : WellFormed lay tb) {p v phys : ℕ} (hp : p < numTasks)
    (hv : v < 2 ^ 32) (hr : UserReaches lay tb p v phys) :
    ((2 + p) * 2 ^ 22 ≤ phys ∧ phys < (3 + p) * 2 ^ 22) ∨ (0xb8000 ≤ phys ∧ phys < 0xbc000) := by
  have hb := vidmapBase_range h hp
  rcases (userReaches_iff h hp hv).mp hr with ⟨hin, hphys⟩ | ⟨hin, -, hphys⟩
  · left
    rw [InUserPage] at hin
    omega
  · right
    rw [InVidmapPage] at hin
    omega

/-- **Isolation.** After any history of page-table changes, user code of `p` reaches its own
frame through the user page and, while its video page is mapped, one of the four video
pages; nothing else. Two processes share video bytes only, and the kernel's 4-8 MB are out of
reach, as virtual and as physical addresses. -/
theorem memory_isolation (lay : Layout) (ops : List Op) (hops : ∀ op ∈ ops, op.InRange)
    (p v : ℕ) (hp : p < 6) (hv : v < 2 ^ 32) :
    let tb := ops.foldl Op.apply (newInit lay)
    ((∃ phys, UserReaches lay tb p v phys) ↔
        InUserPage v ∨ (InVidmapPage v ∧ vidmapPresent tb p)) ∧
      (InUserPage v → UserReaches lay tb p v ((2 + p) * 2 ^ 22 + (v - 0x08000000))) ∧
      (InVidmapPage v → vidmapPresent tb p → ∃ page, 0xb8 ≤ page ∧ page ≤ 0xbb ∧
        UserReaches lay tb p v (page * 2 ^ 12 + (v - 0xdeadb000))) ∧
      (∀ q w phys, q < 6 → q ≠ p → w < 2 ^ 32 → UserReaches lay tb p v phys →
        UserReaches lay tb q w phys → 0xb8000 ≤ phys ∧ phys < 0xbc000) ∧
      (∀ phys, UserReaches lay tb p v phys →
        ¬ (2 ^ 22 ≤ v ∧ v < 2 ^ 23) ∧ ¬ (2 ^ 22 ≤ phys ∧ phys < 2 ^ 23)) := by
  intro tb
  have hwf : WellFormed lay tb := run_wellFormed lay hops
  have hpt : p < numTasks := Nat.lt_succ_of_lt hp
  have hb := vidmapBase_range hwf hpt
  refine ⟨⟨?_, ?_⟩, ?_, ?_, ?_, ?_⟩
  · rintro ⟨phys, hr⟩
    rcases (userReaches_iff hwf hpt hv).mp hr with ⟨hin, -⟩ | ⟨hin, hpres, -⟩
    · exact Or.inl hin
    · exact Or.inr ⟨hin, hpres⟩
  · rintro (hin | ⟨hin, hpres⟩)
    · exact ⟨_, (userReaches_iff hwf hpt hv).mpr (Or.inl ⟨hin, rfl⟩)⟩
    · exact ⟨_, (userReaches_iff hwf hpt hv).mpr (Or.inr ⟨hin, hpres, rfl⟩)⟩
  · intro hin
    exact (userReaches_iff hwf hpt hv).mpr (Or.inl ⟨hin, rfl⟩)
  · intro hin hpres
    exact ⟨_, hb.1, hb.2, (userReaches_iff hwf hpt hv).mpr (Or.inr ⟨hin, hpres, rfl⟩)⟩
  · intro q w phys hq hqp hw hrp hrq
    -- the two frames do not meet, so the common byte is a video byte
    have h1 := userReaches_phys hwf hpt hv hrp
    have h2 := userReaches_phys hwf (Nat.lt_succ_of_lt hq) hw hrq
    omega
  · intro phys hr
    have hphys := userReaches_phys hwf hpt hv hr
    refine ⟨?_, by omega⟩
    rcases (userReaches_iff hwf hpt hv).mp hr with ⟨hin, -⟩ | ⟨hin, -⟩
    · rw [InUserPage] at hin; omega
    · rw [InVidmapPage] at hin; omega

/-! Every second page from a start belongs to a process. -/

theorem packed_aligned (n p : ℕ) : (4096 * n + 8192 * (p % 7)) % 4096 = 0 := by omega

theorem packed_lt {start : ℕ} (h : start ≤ 0x501000) (p : ℕ) : start + 8192 * (p % 7) < 2 ^ 32 := by
  omega

theorem packed_inj (start : ℕ) {p q : ℕ} (hp : p < numTasks) (hq : q < numTasks)
    (h : start + 8192 * (p % 7) = start + 8192 * (q % 7)) : p = q := by
  rw [numTasks] at hp hq
  omega

theorem packed_disjoint (p q : ℕ) : 0x500000 + 8192 * (p % 7) ≠ 0x501000 + 8192 * (q % 7) := by
  omega

/-- A layout with the fourteen tables one after the other from `0x500000`. -/
def packedLayout : Layout where
  pageTable p := 0x500000 + 8192 * (p % 7)
  vidTable p := 0x501000 + 8192 * (p % 7)
  pageTable_aligned p := packed_aligned 0x500 p
  vidTable_aligned p := packed_aligned 0x501 p
  pageTable_lt p := packed_lt (Nat.le_of_ble_eq_true rfl) p
  vidTable_lt p := packed_lt (Nat.le_of_ble_eq_true rfl) p
  pageTable_inj _ _ hp hq h := packed_inj 0x500000 hp hq h
  vidTable_inj _ _ hp hq h := packed_inj 0x501000 hp hq h
  disjoint p q _ _ := packed_disjoint p q

/-- The history in which process 3 takes over the screen of shell 1 and maps it. -/
theorem memory_isolation_vidmap :
    let ops : List Op := [.newPaging 3 1, .mapVidMemory 3, .switchVidMemOut 3 1]
    (∀ op ∈ ops, op.InRange) ∧ vidmapPresent (ops.foldl Op.apply (newInit packedLayout)) 3 ∧
      ∃ phys, UserReaches packedLayout (ops.foldl Op.apply (newInit packedLayout)) 3 0xdeadb010
        phys := by
  intro ops
  have hops : ∀ op ∈ ops, op.InRange := by
    simp [ops, Op.InRange]
  have hpres : vidmapPresent (ops.foldl Op.apply (newInit packedLayout)) 3 := by decide
  have h := memory_isolation packedLayout ops hops 3 0xdeadb010 (by decide) (by decide)
  exact ⟨hops, hpres, h.1.mpr (Or.inr ⟨by unfold InVidmapPage; omega, hpres⟩)⟩

end Paging
end GalapagOS
