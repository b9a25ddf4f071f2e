import GalapagOS.Kernel.Process
import GalapagOS.Schedule.Theorems

/-!
# What the events do

For each stage of `kexecute` and `khalt`, and for the timer handler, the fields of the kernel
it writes. The invariants of the process tree, the page tables and the terminals are derived
from these facts alone.
-/

namespace GalapagOS
namespace Kernel

open FileSystem Paging

variable {k k' k₁ k₂ : Kernel} {c n p q : Pid}

theorem pcbs_modifyPcb (k : Kernel) (p q : Pid) (f : Pcb → Pcb) :
    (k.modifyPcb p f).pcbs q = if q = p then f (k.pcbs p) else k.pcbs q := by
  by_cases h : q = p
  · subst h
    simp [modifyPcb]
  · simp [modifyPcb, h]

/-- A field of the control blocks that an assignment leaves alone. -/
theorem field_modifyPcb {α : Type*} (g : Pcb → α) {f : Pcb → Pcb} (hf : ∀ c, g (f c) = g c) :
    g ((k.modifyPcb p f).pcbs q) = g (k.pcbs q) := by
  rw [pcbs_modifyPcb]
  split
  · rename_i h
    rw [hf, h]
  · rfl

/-! ## Free process numbers -/

theorem freePidIdx_eq_some {pidArr : Pid → Bool} (h : freePidIdx pidArr = some n) :
    pidArr n = false ∧ ∀ m < n, pidArr m = true := by
  rw [freePidIdx, List.find?_eq_some_iff_append] at h
  obtain ⟨hn, as, bs, hl, has⟩ := h
  refine ⟨by simpa using hn, fun m hm => ?_⟩
  have hsorted : (as ++ n :: bs).Pairwise (· < ·) := by
    rw [← hl]
    decide
  have hmem : m ∈ as ++ n :: bs := by
    rw [← hl]
    have hall : ∀ m : Pid, m ∈ [0, 1, 2, 3, 4, 5] := by decide
    exact hall m
  rcases List.mem_append.mp hmem with hmem | hmem
  · simpa using has m hmem
  · rcases List.mem_cons.mp hmem with rfl | hmem
    · exact absurd hm (lt_irrefl _)
    · have hlt := (List.pairwise_cons.mp (List.pairwise_append.mp hsorted).2.1).1 m hmem
      exact absurd hm (lt_asymm hlt)

/-! ## Starting a process -/

/-- The state after `new_paging(n, curr_process->pid)`. -/
def entered (k : Kernel) (c n : Pid) : Kernel :=
  { k with tables := newPaging k.tables n (k.pcbs c).pid, cr3 := some n }

/-- What the statements of `kexecute` from `pid_arr[n] = ON` on write, when process `c` starts
the program `n`. -/
structure Started (k : Kernel) (c n : Pid) (cmd args : List UInt8) (k' : Kernel) : Prop where
  lay : k'.lay = k.lay
  img : k'.img = k.img
  pidArr : k'.pidArr = Function.update k.pidArr n true
  pid : ∀ p, (k'.pcbs p).pid = if p = n then n else (k.pcbs p).pid
  parent : ∀ p, (k'.pcbs p).parent = if p = n then some c else (k.pcbs p).parent
  child : ∀ p, (k'.pcbs p).child
    = if p = n then none else if p = c then some n else (k.pcbs p).child
  currProcess : k'.currProcess = some n
  roots : k'.roots = k.roots
  queue : k'.queue = Schedule.schedule k.queue n (some (k.pcbs c).pid)
  tables : k'.tables = k.tables
  cr3 : k'.cr3 = some (k.pcbs c).pid
  terms : k'.terms = k.terms
  phys : k'.phys = k.phys
  tail : ∀ p, (k'.pcbs p).tail = if p = n then
    (((k.pcbs n).setTerminal k.getCurrTerminal).copyStrings cmd args).tail else (k.pcbs p).tail
  files : TableOk (k'.table n)
  files_ne : ∀ p, p ≠ n → k'.table p = k.table p

theorem three_le_of_two_lt (hn : 2 < n) : 3 ≤ n ∧ ¬n.val < 3 := by
  rw [Fin.lt_def] at hn
  change 2 < n.val at hn
  refine ⟨?_, by omega⟩
  rw [Fin.le_def]
  change 3 ≤ n.val
  omega

theorem pcbs_pcbInit (hc : k.currProcess = some c) (hn : 2 < n) (hne : n ≠ c) (eip : ℕ)
    (cmd args : List UInt8) (p : Pid) : (k.pcbInit n eip cmd args).pcbs p
      = if p = n then
          (({ k.pcbs n with
              pid := n, kernelStack := getKstackAddress n, userStack := 0x83ffffc, instrPtr := eip
              parent := some c, child := none } : Pcb).setTerminal
            k.getCurrTerminal).copyStrings cmd args
        else if p = c then { k.pcbs c with child := some n } else k.pcbs p := by
  simp only [pcbInit, hc, if_pos hn, pcbs_modifyPcb, if_pos (three_le_of_two_lt hn).1]
  split_ifs <;> simp_all

/-- The terminal that `pcb_init` gives a process. -/
def firstTerminal (k : Kernel) (n : Pid) : ℕ := if 3 ≤ n then k.getCurrTerminal else n

/-- The control block that `pcb_init` fills in, whatever the state. -/
theorem pcbInit_self (k : Kernel) (n : Pid) (eip : ℕ) (cmd args : List UInt8) :
    ((k.pcbInit n eip cmd args).pcbs n).instrPtr = eip ∧
      ((k.pcbInit n eip cmd args).pcbs n).parent = k.currProcess ∧
      ((k.pcbInit n eip cmd args).pcbs n).tail
        = (((k.pcbs n).setTerminal (firstTerminal k n)).copyStrings cmd args).tail := by
  unfold pcbInit firstTerminal
  dsimp only
  rw [pcbs_modifyPcb, if_pos rfl]
  split
  · rw [pcbs_modifyPcb, if_pos rfl]
    exact ⟨rfl, rfl, rfl⟩
  · split
    · rw [pcbs_modifyPcb]
      -- a process that is its own parent would only get another child
      split
      · rename_i cur _ hcur
        rw [← hcur, pcbs_modifyPcb, if_pos rfl]
        exact ⟨rfl, rfl, rfl⟩
      · rw [pcbs_modifyPcb, if_pos rfl]
        exact ⟨rfl, rfl, rfl⟩
    · rw [pcbs_modifyPcb, if_pos rfl]
      exact ⟨rfl, rfl, rfl⟩

/-- `pcb_init` changes nothing but control blocks. -/
theorem pcbInit_rest (k : Kernel) (n : Pid) (eip : ℕ) (cmd args : List UInt8) :
    k.pcbInit n eip cmd args = { k with pcbs := (k.pcbInit n eip cmd args).pcbs } := by
  have h : ∃ b, k.pcbInit n eip cmd args = { k with pcbs := b } := by
    unfold pcbInit
    dsimp only
    split
    · exact ⟨_, rfl⟩
    · split <;> exact ⟨_, rfl⟩
  obtain ⟨b, hb⟩ := h
  rw [hb]

/-- `set_current_process` and `open_stdin_stdout` replace the descriptor table. -/
theorem openStdinStdout_setCurrentProcess (k : Kernel) (p : Pid) :
    ∃ f, TableOk f ∧ (k.setCurrentProcess p).openStdinStdout
      = some { k.modifyPcb p (fun c => { c with files := f }) with
          currProcess := some p, desc := some p, esp0 := (k.pcbs p).kernelStack } := by
  obtain ⟨k', hk'⟩ : ∃ k', (k.setCurrentProcess p).openStdinStdout = some k' := ⟨_, rfl⟩
  refine ⟨k'.table p, (openStdinStdout_tableOk hk').1, ?_⟩
  rw [hk']
  simp only [openStdinStdout, setCurrentProcess, Option.map_some, Option.some.injEq] at hk'
  subst hk'
  simp [modifyFile, modifyPcb, table]

/-- The last statements of `startProcess` leave the control blocks alone. -/
theorem pcbs_restoreParent (k : Kernel) (n : Pid) :
    (((k.restoreParent n).schedule n).setRoot n).pcbs = k.pcbs := by
  have hparent : (k.restoreParent n).pcbs = k.pcbs := by
    unfold restoreParent
    split <;> rfl
  unfold setRoot
  split <;> exact hparent

/-- The new control block after `startProcess`, whatever the state. -/
theorem startProcess_self {eip : ℕ} {cmd args : List UInt8}
    (h : k.startProcess n eip cmd args = some k') :
    (k'.pcbs n).instrPtr = eip ∧
      (k'.pcbs n).tail
        = (((k.pcbs n).setTerminal (firstTerminal k n)).copyStrings cmd args).tail := by
  obtain ⟨f, -, hstd⟩ := openStdinStdout_setCurrentProcess
    ((k.markPid n true).pcbInit n eip cmd args) n
  rw [startProcess, hstd, Option.map_some] at h
  cases h
  rw [pcbs_restoreParent]
  dsimp only
  rw [pcbs_modifyPcb, if_pos rfl]
  obtain ⟨heip, -, htail⟩ := pcbInit_self (k.markPid n true) n eip cmd args
  exact ⟨heip, htail⟩

theorem startProcess_spec (hc : k.currProcess = some c) (hn : 2 < n) (hne : n ≠ c) (eip : ℕ)
    (cmd args : List UInt8) :
    ∃ k', k.startProcess n eip cmd args = some k' ∧ Started k c n cmd args k' := by
  have hpcbs := pcbs_pcbInit (k := k.markPid n true) hc hn hne eip cmd args
  obtain ⟨f, hf, hstd⟩ := openStdinStdout_setCurrentProcess
    ((k.markPid n true).pcbInit n eip cmd args) n
  obtain ⟨b, hb⟩ : ∃ b, (k.markPid n true).pcbInit n eip cmd args
      = { k.markPid n true with pcbs := b } := ⟨_, pcbInit_rest ..⟩
  rw [hb] at hpcbs hstd
  dsimp only at hpcbs
  have hbn := hpcbs n
  have hbc := hpcbs c
  rw [if_pos rfl] at hbn
  rw [if_neg hne.symm, if_pos rfl] at hbc
  refine ⟨_, by rw [startProcess, hb, hstd, Option.map_some], ?_⟩
  have hparent : (Function.update b n { b n with files := f } n).parent = some c := by
    simp [hbn, Pcb.copyStrings, Pcb.setTerminal]
  have hcpid : (Function.update b n { b n with files := f } c).pid = (k.pcbs c).pid := by
    simp [hne.symm, hbc, markPid]
  simp only [modifyPcb, restoreParent, hparent, hcpid, switchPaging, Kernel.schedule, setRoot,
    dif_neg (three_le_of_two_lt hn).2, Option.map_some]
  constructor
  case files => simpa [table] using hf
  case files_ne =>
    intro p hp
    simp only [table, Function.update_of_ne hp, hpcbs, if_neg hp]
    split_ifs with hpc
    · subst hpc
      rfl
    · rfl
  all_goals first
    | rfl
    | (intro p
       by_cases hp : p = n
       · subst hp
         simp [hbn, Pcb.copyStrings, Pcb.setTerminal, markPid, getCurrTerminal]
       · simp only [Function.update_of_ne hp, hpcbs, if_neg hp]
         by_cases hpc : p = c
         · subst hpc
           simp [markPid]
         · simp [hpc, markPid])

/-- Shell 1 is live, so the other shells are not opened again. -/
theorem Started.openOtherShells {cmd args : List UInt8} (hs : Started k c n cmd args k')
    (h : k.pidArr 1 = true) (m : Pid) (eip inode : ℕ) (cmd' args' : List UInt8) :
    k'.openOtherShells m eip inode cmd' args' = some (k', true) := by
  have h1 : k'.pidArr 1 = true := by
    rw [hs.pidArr, Function.update_apply]
    split
    · rfl
    · exact h
  rw [Kernel.openOtherShells, if_neg fun hcond => hcond.2.1 h1]

/-- What a call of `kexecute` does after boot: it fails with at most the page tables entered
and a part of the file loaded, or it loads the program, starts it and yields. -/
inductive Executed (k : Kernel) (c : Pid) (command : Option (List UInt8)) (st : Stale) :
    Kernel → Option ℤ → Prop
  | unchanged : Executed k c command st k (some (-1))
  | failed {n : Pid} {bytes : List UInt8} {k₁ : Kernel} :
      freePidIdx k.pidArr = some n → 2 < n →
      (entered k c n).access programStart [.write 0 bytes] = some k₁ →
      Executed k c command st k₁ (some (-1))
  | started {n : Pid} {bytes line : List UInt8} {k₁ k₂ k' : Kernel} :
      freePidIdx k.pidArr = some n → 2 < n →
      (entered k c n).access programStart [.write 0 bytes] = some k₁ →
      command = some line →
      (findExecutable k.img (line.take (commandEnd line))).isSome →
      Started k₁ c n (line.take (commandEnd line)) (argsString line st) k₂ →
      k₂.pitHandler = some k' →
      Executed k c command st k' none

theorem loadProgram_eq_some {inode : ℕ} {ok : Bool} (h : k.loadProgram inode = some (k', ok)) :
    ∃ bytes, k.access programStart [.write 0 bytes] = some k' := by
  simp only [loadProgram, Option.map_eq_some_iff, Prod.mk.injEq] at h
  obtain ⟨k₁, hk₁, rfl, -⟩ := h
  exact ⟨_, hk₁⟩

/-- Once the three shells are live, a program gets a number above theirs. -/
theorem two_lt_freePidIdx (hlive : ∀ p ≤ 2, k.pidArr p = true) (h : freePidIdx k.pidArr = some n) :
    2 < n := by
  by_contra hn
  have hlive' := hlive n (not_lt.mp hn)
  rw [(freePidIdx_eq_some h).1] at hlive'
  cases hlive'

theorem kexecute_cases {command : Option (List UInt8)} {st : Stale} {r : Option ℤ}
    (h : k.kexecute command st = some (k', r)) (hc : k.currProcess = some c)
    (hcl : k.pidArr c = true) (hlive : ∀ p ≤ 2, k.pidArr p = true) :
    Executed k c command st k' r := by
  unfold kexecute at h
  split at h
  · rename_i line n hfree
    have hn := two_lt_freePidIdx hlive hfree
    have hnc : n ≠ c := by
      rintro rfl
      rw [(freePidIdx_eq_some hfree).1] at hcl
      cases hcl
    dsimp only at h
    split at h
    · cases h
      exact .unchanged
    · rename_i data hfind
      have henter : k.enterPaging n = some (entered k c n) := by
        simp [enterPaging, hn, hc, entered]
      simp only [henter, Option.bind_eq_bind, Option.bind_some] at h
      obtain ⟨⟨k₁, ok⟩, hload, h⟩ := Option.bind_eq_some_iff.mp h
      obtain ⟨bytes, hacc⟩ := loadProgram_eq_some hload
      cases ok with
      | false =>
        cases h
        exact .failed hfree hn hacc
      | true =>
        obtain ⟨m, rfl⟩ := access_eq_some hacc
        obtain ⟨k₂, hk₂, hstart⟩ := startProcess_spec (k := { entered k c n with phys := m }) hc hn hnc
          (readEip k.img (getInodePtr k.img data.inodeNum) st.eip)
          (line.take (commandEnd line)) (argsString line st)
        have hother := hstart.openOtherShells (hlive 1 (by decide))
        simp only [if_true] at h
        obtain ⟨k₃, hk₃, h⟩ := Option.bind_eq_some_iff.mp h
        obtain rfl : k₂ = k₃ := Option.some.inj (hk₂.symm.trans hk₃)
        rw [hother, Option.bind_some] at h
        obtain ⟨k₄, hk₄, h⟩ := Option.bind_eq_some_iff.mp h
        cases h
        exact .started hfree hn hacc rfl (by rw [hfind]; rfl) hstart hk₄
  · cases h
    exact .unchanged

/-! ## The timer -/

/-- What the timer handler does when it finds process `n`. -/
structure Switched (k : Kernel) (n : Pid) (k' : Kernel) : Prop where
  currNode : k'.queue.currNode = .task n
  eq : k' = { k with
    queue := k'.queue, currProcess := some n, desc := some n
    esp0 := (k.pcbs n).kernelStack, cr3 := some (k.pcbs n).pid }

theorem Switched.lay (h : Switched k n k') : k'.lay = k.lay := by rw [h.eq]

theorem Switched.pidArr (h : Switched k n k') : k'.pidArr = k.pidArr := by rw [h.eq]

theorem Switched.pcbs (h : Switched k n k') : k'.pcbs = k.pcbs := by rw [h.eq]

theorem Switched.roots (h : Switched k n k') : k'.roots = k.roots := by rw [h.eq]

theorem Switched.tables (h : Switched k n k') : k'.tables = k.tables := by rw [h.eq]

theorem Switched.terms (h : Switched k n k') : k'.terms = k.terms := by rw [h.eq]

theorem Switched.phys (h : Switched k n k') : k'.phys = k.phys := by rw [h.eq]

theorem Switched.currProcess (h : Switched k n k') : k'.currProcess = some n := by rw [h.eq]

theorem Switched.cr3 (h : Switched k n k') : k'.cr3 = some (k.pcbs n).pid := by rw [h.eq]

/-- The handler changes the current process and the queue only. -/
theorem pitHandler_eq_some (h : k.pitHandler = some k') :
    k' = { k with
      queue := k'.queue, currProcess := k'.currProcess, desc := k'.desc, esp0 := k'.esp0
      cr3 := k'.cr3 } := by
  obtain ⟨⟨k₁, n⟩, hsel, rfl⟩ := Option.map_eq_some_iff.mp h
  unfold pitSelect at hsel
  split at hsel
  · obtain ⟨_, -, hsel⟩ := Option.bind_eq_some_iff.mp hsel
    obtain ⟨_, -, hsel⟩ := Option.bind_eq_some_iff.mp hsel
    cases hsel
    rfl
  · obtain ⟨_, -, hsel⟩ := Option.bind_eq_some_iff.mp hsel
    obtain ⟨_, -, hsel⟩ := Option.bind_eq_some_iff.mp hsel
    obtain ⟨_, -, hsel⟩ := Option.bind_eq_some_iff.mp hsel
    cases hsel
    rfl

/-- The handler selects a running task, and takes a finished current one out of the queue. -/
theorem pitSelect_spec {ps : List Pid} (hq : Schedule.IsQueue k.queue ps)
    (hcurr : k.queue.currNode = .task c) (hc : c ∈ ps)
    (hrun : ∃ p ∈ ps, (k.queue.node (.task p)).running = .running) :
    ∃ q n, k.pitSelect = some (({ k with queue := q } : Kernel).resetCurrProcess n, .task n) ∧
      n ∈ ps ∧ (k.queue.node (.task n)).running = .running ∧
      Schedule.IsQueue q (Schedule.staying k.queue ps c) ∧
      (∀ m, (q.node m).running = (k.queue.node m).running) ∧
      (∀ m, (q.node m).process = (k.queue.node m).process) ∧ q.currNode = k.queue.currNode := by
  obtain ⟨q, n, hsel, hq', hn, hnr, hrunning, hproc, hcn, hfs⟩ := hq.selectTask hcurr hc hrun
  have hbranch : ¬(k.queue.firstShell = true ∧ k.queue.currNode = .sentinel) := by
    rw [hcurr]
    simp
  have hcproc : (q.node q.currNode).process = some c := by
    rw [hproc, hcn, hcurr, hq.process c hc]
  have hnproc : (q.node (.task n)).process = some n := by
    rw [hproc, hq.process n hn]
  refine ⟨q, n, ?_, hn, hnr, hq', hrunning, hproc, hcn⟩
  rw [pitSelect, if_neg hbranch, hsel]
  simp only [Option.bind_eq_bind, Option.bind_some, hcproc, hnproc, Option.pure_def]

/-- If the handler selects a task at all, some task is running. -/
theorem exists_running_of_pitSelect {ps : List Pid} {r : Kernel × Schedule.Node}
    (hq : Schedule.IsQueue k.queue ps) (hcurr : k.queue.currNode = .task c) (hc : c ∈ ps)
    (h : k.pitSelect = some r) : ∃ p ∈ ps, (k.queue.node (.task p)).running = .running := by
  have hbranch : ¬(k.queue.firstShell = true ∧ k.queue.currNode = .sentinel) := by
    rw [hcurr]
    simp
  rw [pitSelect, if_neg hbranch] at h
  obtain ⟨x, hsel, -⟩ := Option.bind_eq_some_iff.mp h
  exact hq.exists_running hcurr hc hsel

/-- The handler as a whole. -/
theorem pitHandler_spec {ps : List Pid} (hq : Schedule.IsQueue k.queue ps)
    (hcurr : k.queue.currNode = .task c) (hc : c ∈ ps)
    (hrun : ∃ p ∈ ps, (k.queue.node (.task p)).running = .running) :
    ∃ k' n, k.pitHandler = some k' ∧ Switched k n k' ∧ n ∈ ps ∧
      (k.queue.node (.task n)).running = .running ∧
      Schedule.IsQueue k'.queue (Schedule.staying k.queue ps c) ∧
      ∀ m, (k'.queue.node m).running = (k.queue.node m).running := by
  obtain ⟨q, n, hsel, hn, hnr, hq', hrunning, -, -⟩ := pitSelect_spec hq hcurr hc hrun
  exact ⟨_, n, by rw [pitHandler, hsel, Option.map_some], ⟨rfl, rfl⟩, hn, hnr, hq'.withCurr _ _,
    hrunning⟩

/-- On the queue the handler is the one of `schedule.c`. -/
theorem queue_pitHandler (k : Kernel) :
    k.pitHandler.map (·.queue) = Schedule.pitHandler k.queue := by
  unfold pitHandler pitSelect Schedule.pitHandler
  by_cases hfirst : k.queue.firstShell = true ∧ k.queue.currNode = .sentinel
  · rw [if_pos hfirst, if_pos hfirst]
    cases hn : k.queue.next k.queue.currNode with
    | none => rfl
    | some n =>
      cases hp : (k.queue.node n).process with
      | none => simp [hp]
      | some p => simp [hp, pitCommit, resetCurrProcess, hfirst.2]
  · rw [if_neg hfirst, if_neg hfirst]
    cases hsel : Schedule.selectTask k.queue with
    | none => rfl
    | some r =>
      obtain ⟨q, n⟩ := r
      cases hc : (q.node q.currNode).process with
      | none => simp [hc]
      | some c =>
        cases hp : (q.node n).process with
        | none => simp [hc, hp]
        | some p =>
          -- `first_shell` can only be set while the sentinel is current
          obtain ⟨-, hcn, hfs⟩ := Schedule.selectTask_process hsel
          have hkeep : q.firstShell = true → q.currNode ≠ .sentinel := by
            intro hset hcurr
            exact hfirst ⟨hfs.symm.trans hset, hcn.symm.trans hcurr⟩
          simpa [hc, hp, pitCommit, resetCurrProcess] using hkeep

/-! ## Ending a process -/

/-- Closing the descriptors of a process with a good table changes that table only. -/
theorem closeIfOpen_spec (fd : Fin 8) (hd : k.desc = some p) (hok : TableOk (k.table p)) :
    ∃ f, TableOk f ∧ k.closeIfOpen fd = some (k.modifyPcb p fun c => { c with files := f }) := by
  have hsame : k = k.modifyPcb p fun c => { c with files := k.table p } := by
    simp [modifyPcb, table]
  simp only [closeIfOpen, hd, Option.bind_eq_bind, Option.bind_some]
  split
  · obtain ⟨k', r, hk', hspec⟩ := kclose_spec hd hok fd
    have hok' := (Call.exec_tableOk (c := .kclose fd) (by rw [Call.exec, hk', Option.map_some]) hd hok).1
    rw [hk', Option.map_some]
    by_cases hr : r = 0
    · rw [hspec.freed fd rfl hr] at hok' ⊢
      exact ⟨_, hok', by simp [table, modifyFile, modifyPcb]⟩
    · rw [(hspec.unchanged hr).2]
      exact ⟨_, hok, congrArg some hsame⟩
  · exact ⟨_, hok, congrArg some hsame⟩

theorem closeAll_spec (hd : k.desc = some p) (hok : TableOk (k.table p)) :
    ∃ f, TableOk f ∧ k.closeAll = some (k.modifyPcb p fun c => { c with files := f }) := by
  suffices h : ∀ (fds : List (Fin 8)) (k : Kernel), k.desc = some p → TableOk (k.table p) →
      ∃ f, TableOk f ∧
        fds.foldlM closeIfOpen k = some (k.modifyPcb p fun c => { c with files := f }) from
    h _ k hd hok
  intro fds
  induction fds with
  | nil =>
    intro k _ hok
    exact ⟨k.table p, hok, by simp [modifyPcb, table]⟩
  | cons fd fds ih =>
    intro k hd hok
    obtain ⟨f, hf, hk₁⟩ := closeIfOpen_spec fd hd hok
    obtain ⟨g, hg, heq⟩ := ih (k.modifyPcb p fun c => { c with files := f }) hd
      (by simpa [table, modifyPcb] using hf)
    refine ⟨g, hg, ?_⟩
    rw [List.foldlM_cons, hk₁]
    exact heq.trans (by simp [modifyPcb])

theorem terminal_setRetStatus (b : Pcb) (s : UInt8) : (b.setRetStatus s).terminal = b.terminal := by
  have hbyte : ∀ j, (b.setRetStatus s).tail (Pcb.terminalOffset + j)
      = b.tail (Pcb.terminalOffset + j) := by
    intro j
    have hle : Pcb.retStatusOffset + [s].length ≤ Pcb.terminalOffset + j :=
      Nat.le_add_right 142 j
    exact Memory.place_of_le [s] hle _
  simp only [Pcb.terminal, hbyte]

theorem detach_eq (hq : (k.pcbs c).parent = some q) (status : UInt8) : k.detach c status
    = ((k.modifyPcb c fun b => b.setRetStatus status).modifyPcb q
        fun b => { b with child := none }).modifyPcb c fun b => { b with parent := none } := by
  have hparent : ((k.modifyPcb c fun b => b.setRetStatus status).pcbs c).parent = some q := by
    rw [pcbs_modifyPcb, if_pos rfl]
    exact hq
  simp only [detach, hparent]

/-- The fields the assignments of `detach` leave alone. -/
theorem field_detach {α : Type*} (g : Pcb → α) (hs : ∀ b s, g (b.setRetStatus s) = g b)
    (hp : ∀ b : Pcb, g { b with parent := none } = g b)
    (hc : ∀ b : Pcb, g { b with child := none } = g b) (hq : (k.pcbs c).parent = some q)
    (status : UInt8) : g ((k.detach c status).pcbs p) = g (k.pcbs p) := by
  rw [detach_eq hq, field_modifyPcb g hp, field_modifyPcb g hc, field_modifyPcb g (hs · _)]

theorem parent_detach (hq : (k.pcbs c).parent = some q) (status : UInt8) :
    ((k.detach c status).pcbs p).parent = if p = c then none else (k.pcbs p).parent := by
  have hs : ∀ (b : Pcb) s, (b.setRetStatus s).parent = b.parent := fun _ _ => rfl
  have hc : ∀ b : Pcb, ({ b with child := none } : Pcb).parent = b.parent := fun _ => rfl
  rw [detach_eq hq, pcbs_modifyPcb, apply_ite Pcb.parent, field_modifyPcb Pcb.parent hc,
    field_modifyPcb Pcb.parent (hs · _)]

theorem child_detach (hq : (k.pcbs c).parent = some q) (status : UInt8) :
    ((k.detach c status).pcbs p).child = if p = q then none else (k.pcbs p).child := by
  have hs : ∀ (b : Pcb) s, (b.setRetStatus s).child = b.child := fun _ _ => rfl
  have hp : ∀ b : Pcb, ({ b with parent := none } : Pcb).child = b.child := fun _ => rfl
  rw [detach_eq hq, field_modifyPcb Pcb.child hp, pcbs_modifyPcb, apply_ite Pcb.child,
    field_modifyPcb Pcb.child (hs · _)]

theorem pcbs_detach_ne (hq : (k.pcbs c).parent = some q) (hp : p ≠ c) (status : UInt8) :
    (k.detach c status).pcbs p = if p = q then { k.pcbs p with child := none } else k.pcbs p := by
  rw [detach_eq hq, pcbs_modifyPcb, if_neg hp, pcbs_modifyPcb]
  split
  · rename_i he
    rw [pcbs_modifyPcb, if_neg (he ▸ hp), he]
  · rw [pcbs_modifyPcb, if_neg hp]

theorem field_deliver {α : Type*} (g : Pcb → α) (hs : ∀ b s, g (b.setRetStatus s) = g b)
    (status : UInt8) : g ((k.deliver q status).pcbs p) = g (k.pcbs p) :=
  field_modifyPcb g (hs · _)

theorem retStatus_setRetStatus (b : Pcb) (s : UInt8) : (b.setRetStatus s).retStatus = s := by
  simp [Pcb.retStatus, Pcb.setRetStatus, Memory.place]

theorem retStatus_deliver (status : UInt8) :
    ((k.deliver q status).pcbs q).retStatus = .ofNat (haltValue status) := by
  rw [deliver, pcbs_modifyPcb, if_pos rfl, retStatus_setRetStatus]

/-- What `khalt` writes before its `int $32`, when the program `c` with parent `q` ends. -/
structure Halted (k : Kernel) (c q : Pid) (status : UInt8) (k' : Kernel) : Prop where
  lay : k'.lay = k.lay
  img : k'.img = k.img
  pidArr : k'.pidArr = Function.update k.pidArr c false
  pid : ∀ p, (k'.pcbs p).pid = (k.pcbs p).pid
  parent : ∀ p, (k'.pcbs p).parent = if p = c then none else (k.pcbs p).parent
  child : ∀ p, (k'.pcbs p).child = if p = q then none else (k.pcbs p).child
  currProcess : k'.currProcess = k.currProcess
  roots : k'.roots = k.roots
  queue : k'.queue = Schedule.unschedule k.queue c (k.pcbs q).pid
  tables : k'.tables = unmapVidMemory k.tables c
  cr3 : k'.cr3 = k.cr3
  terms : k'.terms = k.terms
  phys : k'.phys = k.phys
  terminal : ∀ p, (k'.pcbs p).terminal = (k.pcbs p).terminal
  retStatus : (k'.pcbs q).retStatus = .ofNat (haltValue status)
  files_ne : ∀ p, p ≠ c → k'.table p = k.table p

/-- What a call of `khalt` does: a shell only restarts, a program leaves and yields. -/
theorem khalt_cases {status : UInt8} (h : k.khalt status = some k') (hc : k.currProcess = some c)
    (hpid : (k.pcbs c).pid = c) (hd : k.desc = some c) (hok : TableOk (k.table c)) :
    ¬2 < c ∧ k' = k ∨
    2 < c ∧ ∃ q k₁, (k.pcbs c).parent = some q ∧ Halted k c q status k₁ ∧
      k₁.pitHandler = some k' := by
  simp only [khalt, hc, hpid, Option.bind_eq_bind, Option.bind_some] at h
  split at h
  · rename_i hlt
    refine .inr ⟨hlt, ?_⟩
    obtain ⟨q, hq, h⟩ := Option.bind_eq_some_iff.mp h
    obtain ⟨f, -, hf⟩ := closeAll_spec
      (k := { k.markPid c false with tables := unmapVidMemory k.tables c }) hd hok
    rw [show (k.markPid c false).tables = k.tables from rfl, hf, Option.bind_some] at h
    obtain ⟨k₂, hk₂⟩ : ∃ k₂, k₂ = modifyPcb
        { k.markPid c false with tables := unmapVidMemory k.tables c } c
        fun b => { b with files := f } := ⟨_, rfl⟩
    rw [← hk₂] at h
    -- closing the descriptors leaves every other field of the control blocks alone
    have hpcbs : ∀ p, k₂.pcbs p = { k.pcbs p with files := (k₂.pcbs p).files } := by
      intro p
      rw [hk₂, pcbs_modifyPcb]
      split
      · rename_i hp
        rw [hp]
        rfl
      · rfl
    have hfiles : ∀ p, p ≠ c → (k₂.pcbs p).files = (k.pcbs p).files := by
      intro p hp
      rw [hk₂, pcbs_modifyPcb, if_neg hp]
      rfl
    have hrest : k₂ = { k with
        pidArr := Function.update k.pidArr c false, tables := unmapVidMemory k.tables c
        pcbs := k₂.pcbs } := by
      rw [hk₂]
      rfl
    have hq₂ : (k₂.pcbs c).parent = some q := by rw [hpcbs c, ← hq]
    clear hk₂ hf
    refine ⟨q, _, hq, ?_, h⟩
    constructor
    case pid =>
      intro p
      dsimp only
      rw [field_deliver Pcb.pid (fun _ _ => rfl),
        field_detach Pcb.pid (fun _ _ => rfl) (fun _ => rfl) (fun _ => rfl) hq₂, hpcbs p]
    case parent =>
      intro p
      dsimp only
      rw [field_deliver Pcb.parent (fun _ _ => rfl), parent_detach hq₂, hpcbs p]
    case child =>
      intro p
      dsimp only
      rw [field_deliver Pcb.child (fun _ _ => rfl), child_detach hq₂, hpcbs p]
    case queue =>
      change Schedule.unschedule (k₂.detach c status).queue c (k₂.pcbs q).pid = _
      rw [detach_eq hq₂, hpcbs q, hrest]
      rfl
    case terminal =>
      intro p
      dsimp only
      rw [field_deliver Pcb.terminal terminal_setRetStatus,
        field_detach Pcb.terminal terminal_setRetStatus (fun _ => rfl) (fun _ => rfl) hq₂, hpcbs p]
      rfl
    case retStatus =>
      dsimp only
      exact retStatus_deliver status
    case files_ne =>
      intro p hp
      dsimp only [table]
      rw [field_deliver Pcb.files (fun _ _ => rfl),
        field_detach Pcb.files (fun _ _ => rfl) (fun _ => rfl) (fun _ => rfl) hq₂, hfiles p hp]
    all_goals
      rw [detach_eq hq₂, hrest]
      rfl
  · rename_i hlt
    cases h
    exact .inl ⟨hlt, rfl⟩

/-- A field of the control blocks that has nothing to do with descriptors, the exit status and the
tree stays. -/
theorem field_khalt {α : Type*} (g : Pcb → α) (hs : ∀ b s, g (b.setRetStatus s) = g b)
    (hp : ∀ b : Pcb, g { b with parent := none } = g b)
    (hchild : ∀ b : Pcb, g { b with child := none } = g b)
    (hf : ∀ (b : Pcb) f, g { b with files := f } = g b) {status : UInt8}
    (h : k.khalt status = some k') (hc : k.currProcess = some c) (hd : k.desc = some c)
    (hok : TableOk (k.table c)) (p : Pid) : g (k'.pcbs p) = g (k.pcbs p) := by
  simp only [khalt, hc, Option.bind_eq_bind, Option.bind_some] at h
  split at h
  · obtain ⟨q, hq, h⟩ := Option.bind_eq_some_iff.mp h
    obtain ⟨k₁, hclose, h⟩ := Option.bind_eq_some_iff.mp h
    obtain ⟨f, -, hf'⟩ := closeAll_spec
      (k := { k.markPid (k.pcbs c).pid false with
        tables := unmapVidMemory k.tables (k.pcbs c).pid }) hd hok
    cases hf'.symm.trans hclose
    rw [pitHandler_eq_some h]
    dsimp only
    rw [field_deliver g hs, field_detach g hs hp hchild (q := q) (by
      rw [pcbs_modifyPcb, if_pos rfl]
      exact hq), field_modifyPcb g fun b => hf b f]
    rfl
  · cases h
    rfl

/-! ## Calls on files -/

/-- The bytes that a call sends to the terminal. -/
def Call.terminalBytes (k : Kernel) : Call → Option (List UInt8)
  | .kwrite fd (some buf) nbytes => k.desc.bind fun p =>
      if nbytes < 0 then none
      else (checkFd (k.pcbs p).files writable fd).bind fun d =>
        if d.fileOpTablePtr = some .std then some ((List.range nbytes.toNat).map buf) else none
  | _ => none

/-- What a call on files by process `p` does: it changes descriptors and driver variables other
than the cursor, or it is a write to the terminal. -/
inductive Called (k : Kernel) (p : Pid) : Option (List UInt8) → Kernel → Prop
  | quiet {k' : Kernel} : k'.terms.vars = k.terms.vars → k'.terms.currTerminal = k.terms.currTerminal →
      k' = { k.modifyPcb p (fun b => { b with files := k'.table p }) with
        terms := k'.terms, currFileNumber := k'.currFileNumber, rtcRegA := k'.rtcRegA } →
      Called k p none k'
  | wrote {k' : Kernel} {bytes : List UInt8} {r : ℤ} : k.terminalWrite bytes = some (k', r) →
      Called k p (some bytes) k'

theorem terminalWrite_eq_some {bytes : List UInt8} {r : ℤ}
    (h : k.terminalWrite bytes = some (k', r)) :
    ∃ m, k' = { k with
      terms := (k.terms.run k.getCurrProcessTerminal
        (Terminal.terminalWrite k.getCurrProcessTerminal bytes)).1
      phys := m } := by
  simp only [terminalWrite, Option.map_eq_some_iff, Prod.mk.injEq] at h
  obtain ⟨k₁, hacc, rfl, -⟩ := h
  obtain ⟨m, rfl⟩ := access_eq_some hacc
  exact ⟨m, rfl⟩

/-- A call changes no field of a control block but the descriptors. -/
theorem Called.field {α : Type*} (g : Pcb → α) (hg : ∀ (b : Pcb) f, g { b with files := f } = g b)
    {out : Option (List UInt8)} (h : Called k p out k') (q : Pid) : g (k'.pcbs q) = g (k.pcbs q) := by
  cases h with
  | quiet _ _ heq =>
    rw [heq]
    dsimp only
    exact field_modifyPcb g fun b => hg b _
  | wrote hwrite =>
    obtain ⟨m, rfl⟩ := terminalWrite_eq_some hwrite
    rfl

theorem Called.pidArr {out : Option (List UInt8)} (h : Called k p out k') : k'.pidArr = k.pidArr := by
  cases h with
  | quiet _ _ heq => rw [heq]; rfl
  | wrote hwrite =>
    obtain ⟨m, rfl⟩ := terminalWrite_eq_some hwrite
    rfl

theorem Called.table_ne {out : Option (List UInt8)} (h : Called k p out k') {q : Pid} (hne : q ≠ p) :
    k'.table q = k.table q := by
  cases h with
  | quiet _ _ heq =>
    rw [table, heq]
    dsimp only
    rw [pcbs_modifyPcb, if_neg hne]
    rfl
  | wrote hwrite =>
    obtain ⟨m, rfl⟩ := terminalWrite_eq_some hwrite
    rfl

theorem Called.unchanged (k : Kernel) (p : Pid) : Called k p none k := by
  refine .quiet rfl rfl ?_
  simp [modifyPcb, table]

theorem Called.modifyFile (k : Kernel) (p : Pid) (i : Fin 8)
    (g : FileDescriptor → FileDescriptor) : Called k p none (k.modifyFile p i g) := by
  refine .quiet rfl rfl ?_
  simp [Kernel.modifyFile, modifyPcb, table]

theorem Called.incrementPosition (k : Kernel) (p : Pid) (inode : ℕ) (amt : ℤ) :
    Called k p none (k.incrementPosition p inode amt) := by
  unfold Kernel.incrementPosition
  split
  · exact .unchanged k p
  · refine .quiet rfl rfl ?_
    simp [modifyPcb, table]

theorem kread_called {fd nbytes : ℤ} {buf : ℕ} {r : ReadResult}
    (h : k.kread fd buf nbytes = some (k', r)) (hd : k.desc = some p) : Called k p none k' := by
  simp only [kread, hd, Option.bind_eq_bind, Option.bind_some, Option.pure_def] at h
  split at h
  · cases h
    exact .unchanged k p
  · split at h
    · cases h
      exact .unchanged k p
    · unfold opRead at h
      split at h
      · cases h
      · cases h
        exact .unchanged k p
      · cases h
        refine .quiet rfl rfl ?_
        simp [modifyPcb, table]
      · unfold fsRead at h
        split at h
        · cases h
          exact .unchanged k p
        · cases h
          exact .incrementPosition k p _ _
      · rw [Option.map_eq_some_iff] at h
        obtain ⟨⟨tm, bytes⟩, htm, heq⟩ := h
        cases heq
        -- a line is read: `linelength` and the cursor stay
        unfold Terminal.terminalRead at htm
        split at htm
        · cases htm
        · cases htm
          refine .quiet rfl rfl ?_
          simp [modifyPcb, table]

theorem kwrite_called {fd nbytes r : ℤ} {buf : Option (ℕ → UInt8)}
    (h : k.kwrite fd buf nbytes = some (k', r)) (hd : k.desc = some p) :
    Called k p (Call.terminalBytes k (.kwrite fd buf nbytes)) k' := by
  cases buf with
  | none =>
    simp only [kwrite, hd, Option.bind_eq_bind, Option.bind_some, Option.pure_def] at h
    cases h
    exact .unchanged k p
  | some buf =>
    simp only [kwrite, hd, Option.bind_eq_bind, Option.bind_some, Option.pure_def] at h
    simp only [Call.terminalBytes, hd, Option.bind_some]
    by_cases hneg : nbytes < 0
    · rw [if_pos hneg] at h ⊢
      cases h
      exact .unchanged k p
    · rw [if_neg hneg] at h ⊢
      cases hfd : checkFd (k.pcbs p).files writable fd with
      | none =>
        rw [hfd] at h
        cases h
        exact .unchanged k p
      | some d =>
        rw [hfd] at h
        simp only [opWrite] at h
        rw [Option.bind_some]
        split at h
        · cases h
        · rename_i hop
          rw [hop, if_neg (by simp)]
          unfold rtcWrite at h
          split at h
          · cases h
            exact .unchanged k p
          · cases h
            refine .quiet rfl rfl ?_
            simp [modifyPcb, table]
        · rename_i hop
          rw [hop, if_neg (by simp)]
          cases h
          exact .unchanged k p
        · rename_i hop
          rw [hop, if_neg (by simp)]
          cases h
          exact .unchanged k p
        · rename_i hop
          rw [hop, if_pos rfl]
          exact .wrote h

theorem Call.exec_called {c : Call} (h : c.exec k = some k') (hd : k.desc = some p)
    (hok : TableOk (k.table p)) : Called k p (c.terminalBytes k) k' := by
  cases c with
  | kopen name =>
    obtain ⟨k₁, r, hk₁, hspec⟩ := kopen_spec hd name
    rw [exec, hk₁] at h
    cases h
    by_cases hr : r = -1
    · rw [hspec.unchanged hr]
      exact .unchanged k p
    · obtain ⟨i, -, -, -, -, e, rfl, -⟩ := hspec.opened hr
      exact .modifyFile k p i fun _ => e
  | kclose fd =>
    obtain ⟨k₁, r, hk₁, hspec⟩ := kclose_spec hd hok fd
    rw [exec, hk₁] at h
    cases h
    by_cases hr : r = 0
    · obtain ⟨i, hi, -⟩ := hspec.succeeds_iff.mp hr
      rw [hspec.freed i hi hr]
      exact .modifyFile k p i fun d => { d with flags := 0 }
    · rw [(hspec.unchanged hr).2]
      exact .unchanged k p
  | kread fd buf nbytes =>
    obtain ⟨⟨k₁, r⟩, hk₁, rfl⟩ := Option.map_eq_some_iff.mp h
    exact kread_called hk₁ hd
  | kwrite fd buf nbytes =>
    obtain ⟨⟨k₁, r⟩, hk₁, rfl⟩ := Option.map_eq_some_iff.mp h
    exact kwrite_called hk₁ hd

/-! ## Video -/

theorem kvidmap_cases {a : ℕ} {r : ℤ} (h : k.kvidmap a = some (k', r))
    (hc : k.currProcess = some c) (hpid : (k.pcbs c).pid = c) :
    k' = k ∨ (a >>> 22) &&& 0x3ff = usrDirEntry ∧
      ({ k with tables := mapVidMemory k.tables c, cr3 := some c } : Kernel).access a
        [.write 0 (Pcb.intBytes virtVidMem)] = some k' := by
  unfold kvidmap at h
  obtain ⟨c', hc', h⟩ := Option.bind_eq_some_iff.mp h
  cases hc.symm.trans hc'
  rw [hpid] at h
  split at h
  · cases h
    exact .inl rfl
  · rename_i ha
    obtain ⟨k₁, hacc, heq⟩ := Option.bind_eq_some_iff.mp h
    cases heq
    exact .inr ⟨not_not.mp ha, hacc⟩

end Kernel
end GalapagOS
