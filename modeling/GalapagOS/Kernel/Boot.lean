import GalapagOS.Kernel.Steps

/-!
# The state after boot

Boot starts the first shell with `kexecute`, which opens the two others, and ends with the
first interrupt. `Booted` collects what the kernel variables then hold.
-/

namespace GalapagOS
namespace Kernel

open FileSystem Paging

variable {k k' : Kernel} {i : Pid}

/-! ## The terminal of a control block -/

theorem terminal_setTerminal (b : Pcb) {t : ℕ} (ht : t < 2 ^ 31) : (b.setTerminal t).terminal = t := by
  have hbyte : ∀ j (hj : j < 4), (b.setTerminal t).tail (Pcb.terminalOffset + j)
      = (Pcb.intBytes t)[j] := fun j hj => Memory.place_add (by simpa [Pcb.intBytes] using hj) _
  have hword : word (fun j => (b.setTerminal t).tail (Pcb.terminalOffset + j)) = t := by
    have h0 := hbyte 0 (by decide)
    have h1 := hbyte 1 (by decide)
    have h2 := hbyte 2 (by decide)
    have h3 := hbyte 3 (by decide)
    simp only [word, h0, h1, h2, h3]
    simp [Pcb.intBytes]
    omega
  rw [Pcb.terminal, hword]
  exact if_pos ht

/-! ## Starting a shell -/

/-- What starting the shell `i` writes: its control block, and its node at the end of the
queue. -/
structure ShellStarted (k : Kernel) (i : Pid) (k' : Kernel) : Prop where
  lay : k'.lay = k.lay
  img : k'.img = k.img
  pcbs_ne : ∀ p, p ≠ i → k'.pcbs p = k.pcbs p
  pid : (k'.pcbs i).pid = i
  kernelStack : (k'.pcbs i).kernelStack = getKstackAddress i
  parent : (k'.pcbs i).parent = none
  child : (k'.pcbs i).child = none
  files : TableOk (k'.table i)
  currProcess : k'.currProcess = some i
  queue : k'.queue = Schedule.schedule k.queue i none
  tables : k'.tables = k.tables
  terms : k'.terms = k.terms

/-- `pcb_init` for a shell changes nothing but its control block. -/
theorem pcbInit_shell (hi : ¬2 < i) (eip : ℕ) (cmd args : List UInt8) :
    ∃ b : Pcb, k.pcbInit i eip cmd args = { k with pcbs := Function.update k.pcbs i b } ∧
      b.pid = i ∧ b.kernelStack = getKstackAddress i ∧ b.parent = k.currProcess ∧
      b.child = none := by
  have hshell : k.pcbInit i eip cmd args
      = (k.modifyPcb i fun c =>
          { c with
            pid := i, kernelStack := getKstackAddress i, userStack := 0x83ffffc, instrPtr := eip
            parent := k.currProcess, child := none }).modifyPcb i
          fun c => (c.setTerminal (if 3 ≤ i then k.getCurrTerminal.val else i.val)).copyStrings
            cmd args := by
    unfold pcbInit
    cases k.currProcess with
    | none => rfl
    | some cur => simp only [if_neg hi]
  refine ⟨(k.pcbInit i eip cmd args).pcbs i, ?_, ?_⟩
  · rw [hshell]
    simp only [modifyPcb, Function.update_self, Function.update_idem]
  · rw [hshell]
    simp only [modifyPcb, Function.update_self]
    exact ⟨rfl, rfl, rfl, rfl⟩

theorem startProcess_shell (hk : k.currProcess = none) (eip : ℕ) (cmd args : List UInt8) :
    ∃ k', k.startProcess 0 eip cmd args = some k' ∧ ShellStarted k 0 k' ∧
      k'.pidArr = Function.update k.pidArr 0 true ∧
      k'.roots = Function.update k.roots 0 (some 0) := by
  obtain ⟨b, hb, hpid, hstack, hparent, hchild⟩ :=
    pcbInit_shell (k := k.markPid 0 true) (i := 0) (by decide) eip cmd args
  replace hparent : b.parent = none := hparent.trans hk
  obtain ⟨f, hf, hstd⟩ := openStdinStdout_setCurrentProcess
    ((k.markPid 0 true).pcbInit 0 eip cmd args) 0
  rw [hb] at hstd
  refine ⟨_, by rw [startProcess, hb, hstd, Option.map_some], ?_⟩
  have hnone : ({ b with files := f } : Pcb).parent = none := hparent
  simp only [modifyPcb, Function.update_self, Function.update_idem, restoreParent, hnone,
    Kernel.schedule, Option.map_none, setRoot, assignRoot]
  constructor
  · constructor
    case pcbs_ne =>
      intro p hp
      simp [hp, markPid]
    case files => simpa [table] using hf
    all_goals simp [markPid, hpid, hstack, hparent, hchild]
  · simp [markPid]

/-- The first shell's terminal and root are assigned once more. -/
theorem ShellStarted.setTerminal {t : ℕ} {root : Fin 3} {p : Option Pid}
    (h : ShellStarted k i k') :
    ShellStarted k i ((k'.modifyPcb i fun c => c.setTerminal t).assignRoot root p) := by
  have hi : ((k'.modifyPcb i fun c => c.setTerminal t).assignRoot root p).pcbs i
      = (k'.pcbs i).setTerminal t := by simp [modifyPcb, assignRoot]
  constructor
  case pcbs_ne =>
    intro q hq
    rw [← h.pcbs_ne q hq]
    simp [modifyPcb, assignRoot, hq]
  case pid => exact (congrArg Pcb.pid hi).trans h.pid
  case kernelStack => exact (congrArg Pcb.kernelStack hi).trans h.kernelStack
  case parent => exact (congrArg Pcb.parent hi).trans h.parent
  case child => exact (congrArg Pcb.child hi).trans h.child
  case files =>
    rw [table, hi]
    exact h.files
  case lay => exact h.lay
  case img => exact h.img
  case currProcess => exact h.currProcess
  case queue => exact h.queue
  case tables => exact h.tables
  case terms => exact h.terms

/-- The assignments of `open_shells` after `set_current_process` could stand before it. -/
theorem setCurrentProcess_setTerminal (k : Kernel) (i : Pid) (root : Fin 3) :
    ((k.setCurrentProcess i).assignRoot root (some i)).modifyPcb i
        (fun c => ({ c with parent := none }).setTerminal i)
      = ((k.assignRoot root (some i)).modifyPcb i
          fun c => ({ c with parent := none }).setTerminal i).setCurrentProcess i := by
  simp [setCurrentProcess, modifyPcb, Pcb.setTerminal, assignRoot]

theorem openShell_spec {root : Fin 3} {eip inode : ℕ} {cmd args : List UInt8} (hi : ¬2 < i)
    (h : k.openShell i root eip inode cmd args = some (k', true)) :
    ShellStarted k i k' ∧ k'.pidArr = k.pidArr ∧
      k'.roots = Function.update k.roots root (some i) ∧ (k'.pcbs i).terminal = i := by
  unfold openShell at h
  obtain ⟨⟨k₁, ok⟩, hload, h⟩ := Option.bind_eq_some_iff.mp h
  obtain ⟨bytes, hacc⟩ := loadProgram_eq_some hload
  obtain ⟨m, rfl⟩ := access_eq_some hacc
  cases ok with
  | false => cases h
  | true =>
    obtain ⟨b, hb, hpid, hstack, -, hchild⟩ :=
      pcbInit_shell (k := { k.switchPaging i with phys := m }) hi eip cmd args
    have hcurr : ∀ k : Kernel, (k.setCurrentProcess i).currProcess = some i := fun _ => rfl
    obtain ⟨k₁, hk₁⟩ : ∃ k₁ : Kernel, k₁ = { k.switchPaging i with phys := m } := ⟨_, rfl⟩
    rw [← hk₁] at h hb
    simp only [if_true, hcurr, setCurrentProcess_setTerminal] at h
    obtain ⟨f, hf, hstd⟩ := openStdinStdout_setCurrentProcess
      (((k₁.pcbInit i eip cmd args).assignRoot root (some i)).modifyPcb i
          fun c => ({ c with parent := none }).setTerminal i) i
    rw [hstd, Option.bind_eq_bind, Option.bind_some] at h
    cases h
    have hterm : (({ b with parent := none } : Pcb).setTerminal i).terminal = i :=
      terminal_setTerminal _ (lt_of_lt_of_le i.isLt (by decide))
    clear hstd hload hacc
    rw [hb, hk₁]
    constructor
    · constructor
      case pcbs_ne =>
        intro p hp
        simp [hp, modifyPcb, Kernel.schedule, assignRoot, switchPaging]
      case files => simpa [table, modifyPcb, Kernel.schedule] using hf
      all_goals simp [modifyPcb, Kernel.schedule, Pcb.setTerminal, assignRoot, switchPaging, hpid, hstack,
        hchild]
    · refine ⟨rfl, rfl, ?_⟩
      simp only [Kernel.schedule, modifyPcb, assignRoot, Function.update_self]
      exact hterm

/-! ## Boot -/

/-- The process number of the shell of a terminal. -/
def rootPid (t : Fin 3) : Pid := t.castLE (by decide)

/-- The shells `ps` have been started, and nothing has run yet. -/
structure Shells (k : Kernel) (ps : List Pid) : Prop where
  pid : ∀ p ∈ ps, (k.pcbs p).pid = p
  kernelStack : ∀ p ∈ ps, (k.pcbs p).kernelStack = getKstackAddress p
  parent : ∀ p ∈ ps, (k.pcbs p).parent = none
  child : ∀ p ∈ ps, (k.pcbs p).child = none
  terminal : ∀ p ∈ ps, (k.pcbs p).terminal = p
  files : ∀ p ∈ ps, TableOk (k.table p)
  roots : ∀ t, rootPid t ∈ ps → k.roots t = some (rootPid t)
  queue : Schedule.IsQueue k.queue ps
  running : ∀ p ∈ ps, (k.queue.node (.task p)).running = .running
  currNode : k.queue.currNode = .sentinel
  firstShell : k.queue.firstShell = true
  tables : k.tables = newInit k.lay
  terms : k.terms = Terminal.terminalOpen

/-- Before the first shell. -/
theorem shells_nil {lay : Layout} {img : Image} {pcbs : Pid → Pcb} {regA : UInt8}
    {phys' : ℕ → UInt8} (phys : ℕ → UInt8) :
    Shells { (bootState lay img pcbs regA phys').switchPaging 0 with phys := phys } [] where
  pid := by simp
  kernelStack := by simp
  parent := by simp
  child := by simp
  terminal := by simp
  files := by simp
  roots := by simp
  queue := Schedule.schedInit_isQueue
  running := by simp
  currNode := rfl
  firstShell := rfl
  tables := rfl
  terms := rfl

/-- One more shell. -/
theorem Shells.start {ps : List Pid} (h : Shells k ps) (root : Fin 3) (hi : rootPid root ∉ ps)
    (hs : ShellStarted k (rootPid root) k')
    (hroots : k'.roots = Function.update k.roots root (some (rootPid root)))
    (hterm : (k'.pcbs (rootPid root)).terminal = rootPid root) :
    Shells k' (ps ++ [rootPid root]) := by
  have hmem : ∀ p ∈ ps ++ [rootPid root], p ∈ ps ∧ p ≠ rootPid root ∨ p = rootPid root := by
    intro p hp
    rcases List.mem_append.mp hp with hp | hp
    · exact .inl ⟨hp, fun he => hi (he ▸ hp)⟩
    · exact .inr (by simpa using hp)
  constructor
  case pid =>
    intro p hp
    rcases hmem p hp with ⟨hp, hne⟩ | rfl
    · rw [hs.pcbs_ne p hne, h.pid p hp]
    · exact hs.pid
  case kernelStack =>
    intro p hp
    rcases hmem p hp with ⟨hp, hne⟩ | rfl
    · rw [hs.pcbs_ne p hne, h.kernelStack p hp]
    · exact hs.kernelStack
  case parent =>
    intro p hp
    rcases hmem p hp with ⟨hp, hne⟩ | rfl
    · rw [hs.pcbs_ne p hne, h.parent p hp]
    · exact hs.parent
  case child =>
    intro p hp
    rcases hmem p hp with ⟨hp, hne⟩ | rfl
    · rw [hs.pcbs_ne p hne, h.child p hp]
    · exact hs.child
  case terminal =>
    intro p hp
    rcases hmem p hp with ⟨hp, hne⟩ | rfl
    · rw [hs.pcbs_ne p hne, h.terminal p hp]
    · exact hterm
  case files =>
    intro p hp
    rcases hmem p hp with ⟨hp, hne⟩ | rfl
    · rw [table, hs.pcbs_ne p hne]
      exact h.files p hp
    · exact hs.files
  case roots =>
    intro t ht
    rw [hroots, Function.update_apply]
    split
    · rename_i he
      rw [he]
    · rename_i hne
      rcases hmem _ ht with ⟨ht, -⟩ | he
      · exact h.roots t ht
      · exact absurd (Fin.castLE_injective _ he) hne
  case queue =>
    rw [hs.queue]
    exact h.queue.schedule hi none
  case running =>
    intro p hp
    rw [hs.queue, Schedule.running_schedule, if_neg (by simp)]
    rcases hmem p hp with ⟨hp, hne⟩ | rfl
    · rw [if_neg hne, h.running p hp]
    · rw [if_pos rfl]
  case currNode => rw [hs.queue, Schedule.currNode_schedule, h.currNode]
  case firstShell => rw [hs.queue, Schedule.firstShell_schedule, h.firstShell]
  case tables => rw [hs.tables, hs.lay, h.tables]
  case terms => rw [hs.terms, h.terms]

/-- The loop of `open_shells`, and what follows it. -/
theorem openShells_spec {eip inode : ℕ} {cmd args : List UInt8} (h : Shells k [0])
    (hopen : k.openShells eip inode cmd args = some (k', true)) :
    ∃ k₂, Shells k₂ [0, 1, 2] ∧ k₂.pidArr = k.pidArr ∧
      k' = (((k₂.markPid 1 true).markPid 2 true).switchPaging 0).resetCurrProcess 0 := by
  unfold openShells at hopen
  obtain ⟨⟨k₁, ok₁⟩, h₁, hopen⟩ := Option.bind_eq_some_iff.mp hopen
  cases ok₁ with
  | false => cases hopen
  | true =>
    simp only [if_true] at hopen
    obtain ⟨⟨k₂, ok₂⟩, h₂, hopen⟩ := Option.bind_eq_some_iff.mp hopen
    cases ok₂ with
    | false => cases hopen
    | true =>
      cases hopen
      obtain ⟨hs₁, hpid₁, hroots₁, hterm₁⟩ := openShell_spec (by decide) h₁
      obtain ⟨hs₂, hpid₂, hroots₂, hterm₂⟩ := openShell_spec (by decide) h₂
      have hk₁ : Shells k₁ ([0] ++ [rootPid 1]) := h.start 1 (by decide) hs₁ hroots₁ hterm₁
      have hk₂ := hk₁.start 2 (by decide) hs₂ hroots₂ hterm₂
      exact ⟨k₂, hk₂, hpid₂.trans hpid₁, rfl⟩

/-- What the kernel variables hold after boot. -/
structure Booted (k : Kernel) : Prop where
  pidArr : ∀ p, k.pidArr p = true ↔ p ≤ 2
  pid : ∀ p ≤ 2, (k.pcbs p).pid = p
  kernelStack : ∀ p ≤ 2, (k.pcbs p).kernelStack = getKstackAddress p
  parent : ∀ p ≤ 2, (k.pcbs p).parent = none
  child : ∀ p ≤ 2, (k.pcbs p).child = none
  terminal : ∀ p ≤ 2, (k.pcbs p).terminal = p
  files : ∀ p ≤ 2, TableOk (k.table p)
  roots : ∀ t, k.roots t = some (rootPid t)
  queue : Schedule.IsQueue k.queue [0, 1, 2]
  running : ∀ p ≤ 2, (k.queue.node (.task p)).running = .running
  currNode : k.queue.currNode = .task 0
  currProcess : k.currProcess = some 0
  desc : k.desc = some 0
  esp0 : k.esp0 = (k.pcbs 0).kernelStack
  cr3 : k.cr3 = some 0
  tables : k.tables = newInit k.lay
  terms : k.terms = Terminal.terminalOpen

theorem mem_shells {p : Pid} : p ∈ [0, 1, 2] ↔ p ≤ 2 := by
  revert p
  decide

/-- The first timer interrupt goes from the sentinel to the first shell. -/
theorem pitHandler_first {ps : List Pid} (hq : Schedule.IsQueue k.queue (0 :: ps))
    (hfirst : k.queue.firstShell = true) (hcurr : k.queue.currNode = .sentinel) :
    k.pitHandler = some ((k.resetCurrProcess 0).pitCommit (.task 0)) := by
  have hnext : k.queue.next .sentinel = some (.task 0) :=
    (hq.ring.linked_of_append [] (ps.map .task ++ [.sentinel]) rfl).1
  have hproc := hq.process 0 (by simp)
  simp [pitHandler, pitSelect, hfirst, hcurr, hnext, hproc]

/-- `kexecute` at boot opens the three shells. -/
theorem kexecute_boot {lay : Layout} {img : Image} {pcbs : Pid → Pcb} {regA : UInt8}
    {phys : ℕ → UInt8} {command : List UInt8} {st : Stale}
    (h : (bootState lay img pcbs regA phys).kexecute (some command) st = some (k', none)) :
    ∃ k₂, Shells k₂ [0, 1, 2] ∧ k₂.pidArr = Function.update (fun _ => false) 0 true ∧
      ((((k₂.markPid 1 true).markPid 2 true).switchPaging 0).resetCurrProcess 0).pitHandler
        = some k' := by
  have hfree : freePidIdx (bootState lay img pcbs regA phys).pidArr = some 0 := rfl
  simp only [kexecute, hfree] at h
  split at h
  · cases h
  · rename_i data _
    have henter : (bootState lay img pcbs regA phys).enterPaging 0
        = some ((bootState lay img pcbs regA phys).switchPaging 0) := rfl
    simp only [henter, Option.bind_eq_bind, Option.bind_some] at h
    obtain ⟨⟨k₀, ok⟩, hload, h⟩ := Option.bind_eq_some_iff.mp h
    obtain ⟨bytes, hacc⟩ := loadProgram_eq_some hload
    obtain ⟨m, rfl⟩ := access_eq_some hacc
    cases ok with
    | false => cases h
    | true =>
      simp only [if_true] at h
      obtain ⟨k₁, hk₁, h⟩ := Option.bind_eq_some_iff.mp h
      obtain ⟨k₁', hk₁', hs, hpidArr, hroots⟩ := startProcess_shell
        (k := { (bootState lay img pcbs regA phys).switchPaging 0 with phys := m }) rfl
        (readEip img (getInodePtr img data.inodeNum) st.eip)
        (command.take (commandEnd command)) (argsString command st)
      obtain rfl : k₁' = k₁ := Option.some.inj (hk₁'.symm.trans hk₁)
      have hcond : k₁'.pidArr 0 = true ∧ ¬k₁'.pidArr 1 = true ∧ ¬k₁'.pidArr 2 = true := by
        rw [hpidArr]
        simp [bootState, switchPaging]
      obtain ⟨⟨k₂, ok⟩, hopen, h⟩ := Option.bind_eq_some_iff.mp h
      rw [openOtherShells, if_pos hcond] at hopen
      cases ok with
      | false => cases h
      | true =>
        simp only [if_true] at h
        obtain ⟨k₃, hpit, h⟩ := Option.bind_eq_some_iff.mp h
        cases h
        have hshell : Shells ((k₁'.modifyPcb 0 fun c => c.setTerminal 0).assignRoot 0
            k₁'.currProcess) [0] := by
          refine (shells_nil m).start 0 (by decide) hs.setTerminal ?_ ?_
          · rw [hs.currProcess]
            change Function.update k₁'.roots 0 (some 0) = _
            rw [hroots, Function.update_idem]
            rfl
          · change ((k₁'.modifyPcb 0 fun c => c.setTerminal 0).pcbs 0).terminal = _
            rw [pcbs_modifyPcb, if_pos rfl]
            exact terminal_setTerminal _ (by decide)
        obtain ⟨k₄, hk₄, hpid₄, rfl⟩ := openShells_spec hshell hopen
        exact ⟨k₄, hk₄, hpid₄.trans hpidArr, hpit⟩

/-- The state in which the first shell goes on. -/
theorem pitCommit_first (k : Kernel) :
    (((k.switchPaging 0).resetCurrProcess 0).resetCurrProcess 0).pitCommit (.task 0) =
      { k with
        queue := { k.queue with
          currNode := .task 0, firstShell := k.queue.firstShell && k.queue.currNode ≠ .sentinel }
        currProcess := some 0
        desc := some 0
        esp0 := (k.pcbs 0).kernelStack
        cr3 := some (k.pcbs 0).pid } :=
  rfl

theorem boot_spec {lay : Layout} {img : Image} {pcbs : Pid → Pcb} {regA : UInt8}
    {phys : ℕ → UInt8} {st : Stale} (h : boot lay img pcbs regA phys st = some k) :
    Booted k := by
  unfold boot at h
  split at h
  · rename_i k₀ hexec
    cases h
    obtain ⟨k₂, hs, hpidArr, hpit⟩ := kexecute_boot hexec
    have hfirst := pitHandler_first
      (k := (((k₂.markPid 1 true).markPid 2 true).switchPaging 0).resetCurrProcess 0)
      hs.queue hs.firstShell hs.currNode
    cases hfirst.symm.trans hpit
    -- what the assignments leave, field by field
    rw [pitCommit_first]
    constructor
    case pidArr =>
      show ∀ p, Function.update (Function.update k₂.pidArr 1 true) 2 true p = true ↔ p ≤ 2
      rw [hpidArr]
      decide
    case pid => exact fun p hp => hs.pid p (mem_shells.mpr hp)
    case kernelStack => exact fun p hp => hs.kernelStack p (mem_shells.mpr hp)
    case parent => exact fun p hp => hs.parent p (mem_shells.mpr hp)
    case child => exact fun p hp => hs.child p (mem_shells.mpr hp)
    case terminal => exact fun p hp => hs.terminal p (mem_shells.mpr hp)
    case files => exact fun p hp => hs.files p (mem_shells.mpr hp)
    case roots =>
      have hmem : ∀ t, rootPid t ∈ [0, 1, 2] := by decide
      exact fun t => hs.roots t (hmem t)
    case queue => exact hs.queue.withCurr _ _
    case running => exact fun p hp => hs.running p (mem_shells.mpr hp)
    case cr3 => exact congrArg some (hs.pid 0 (by simp))
    case tables => exact hs.tables
    case terms => exact hs.terms
    all_goals rfl
  · cases h

end Kernel
end GalapagOS
