import GalapagOS.Machine.Sound

/-!
# Exclusive ownership of process numbers

As long as no tick comes inside a window, every process number is held by one process at a time:
it is not chosen again before its owner has halted and has been taken out of the run queue, and it
is never scheduled while its node is linked. With a tick after `free_pid_idx` two calls can choose
the same number.
-/

namespace GalapagOS
namespace Machine

open Kernel

variable {value : Ending → ℕ} {m m' : Machine} {s : Slots} {c : Calls} {ps : List Pid} {p n : Pid}

/-! ## Separate processes -/

/-- `run_queue[p]` is linked. -/
def Linked (m : Machine) (p : Pid) : Prop := (m.k.queue.next (.task p)).isSome

/-- The calls of process `p` that have not returned. -/
def callsOf (m : Machine) (p : Pid) : List Frame :=
  if p = m.stack then m.frames else (m.saved p).2

/-- A `kexecute` of `p` has chosen the number `n` and not scheduled it yet. -/
def Holds (m : Machine) (p n : Pid) : Prop :=
  ∃ call pc, .exec call pc ∈ m.callsOf p ∧ call.pid = n ∧ phase pc ≠ .started

/-- The processor is in `pit_handler`. -/
def InHandler (m : Machine) : Prop := ∃ x b fs, m.frames = .pit x b :: fs

/-- No two processes share a control block, a kernel stack or a page directory. -/
structure Separate (m : Machine) : Prop where
  /-- a chosen number belongs to no process and to no other call -/
  chosen : ∀ p n, m.Linked p → m.Holds p n →
    ¬m.Linked n ∧ ∀ q, m.Linked q → m.Holds q n → q = p
  pcb : ∀ p, m.Linked p → (m.k.pcbs p).pid = p
  kernelStack : ∀ p q, m.Linked p → m.Linked q →
    (m.k.pcbs p).kernelStack = (m.k.pcbs q).kernelStack → p = q
  /-- what is saved for a process is on its own stack -/
  saved : ∀ p, m.Linked p → p ≠ m.stack → (m.saved p).1 = p
  directory : ∀ p, m.Linked p → p ≠ m.stack → ¬m.InHandler → m.k.cr3 ≠ some p
  /-- in user mode the processor has the control block and the kernel stack of the process -/
  user : m.frames = [] →
    m.Linked m.stack ∧ m.k.currProcess = some m.stack ∧ m.k.esp0 = getKstackAddress m.stack

theorem getKstackAddress_injective : Function.Injective getKstackAddress := by decide

/-- A number that a call holds is in its slot. -/
theorem ProcOk.slot_of_mem {k : Kernel} {fs : List Frame} {call : ExecCall} {pc : ExecPc}
    (h : ProcOk value k s c p fs) (hmem : .exec call pc ∈ fs) (hpc : phase pc ≠ .started) :
    s call.pid = .chosen p := by
  cases h with
  | user => cases hmem
  | chosen _ _ hs | marked _ hs | created _ _ hs =>
    cases List.mem_singleton.mp hmem
    exact hs
  | waiting _ hst | resumed _ hst =>
    cases List.mem_singleton.mp hmem
    exact absurd hst hpc
  | scan | halt | clear | left | dead => cases List.mem_singleton.mp hmem

theorem Running.linked_iff (h : Running value m s c ps) : m.Linked p ↔ p ∈ ps :=
  h.queue.mem_iff.symm

theorem Running.procOk (h : Running value m s c ps) (hp : p ∈ ps) :
    ProcOk value m.k s c p (m.callsOf p) := by
  unfold callsOf
  split
  · rename_i he
    rw [he]
    exact h.current
  · rename_i hne
    exact (h.parked p hp hne).2.ok

/-- Slots keep the holders apart. -/
theorem chosen_of_slots (hlinked : ∀ p, m.Linked p → s p = .live ∨ s p = .ended)
    (hslot : ∀ p n, m.Linked p → m.Holds p n → s n = .chosen p) (hp : m.Linked p)
    (hn : m.Holds p n) : ¬m.Linked n ∧ ∀ q, m.Linked q → m.Holds q n → q = p := by
  have hs := hslot p n hp hn
  refine ⟨fun hl => ?_, fun q hq hqn => ?_⟩
  · rcases hlinked n hl with he | he <;> rw [hs] at he <;> cases he
  · have hs' := hslot q n hq hqn
    rw [hs] at hs'
    cases hs'
    rfl

theorem Running.separate (h : Running value m s c ps) : m.Separate where
  chosen p n := chosen_of_slots (fun q hq => (h.linked q).mp (h.linked_iff.mp hq))
    fun q i hq ⟨_, _, hmem, hi, hpc⟩ => hi ▸ (h.procOk (h.linked_iff.mp hq)).slot_of_mem hmem hpc
  pcb p hp := h.pid p (h.linked_iff.mp hp)
  kernelStack p q hp hq he := by
    rw [h.kernelStack p (h.linked_iff.mp hp), h.kernelStack q (h.linked_iff.mp hq)] at he
    exact getKstackAddress_injective he
  saved p hp hne := (h.parked p (h.linked_iff.mp hp) hne).1
  directory p hp hne _ := h.directory p (h.linked_iff.mp hp) hne
  user hf := by
    have hown := h.own (by simp [hf])
    exact ⟨h.linked_iff.mpr h.mem, hown.1.1, hown.2.trans (h.kernelStack _ h.mem)⟩

/-- What `pit_handler` still has to do changes `curr_node` and what runs. -/
theorem Running.load_spec (h : Running value m' s c ps)
    (hload : (∃ x, (m.pitCommit x).pitLoad = some m') ∨ m.pitLoad = some m') :
    m'.k.queue.next = m.k.queue.next ∧ m'.k.pcbs = m.k.pcbs ∧ m'.saved = m.saved ∧
      m.saved m'.stack = (m'.stack, m'.frames) := by
  have hproc := h.queue.process _ h.mem
  rw [← h.currNode] at hproc
  rcases hload with ⟨x, hload⟩ | hload
  all_goals
    obtain ⟨p, hp, he⟩ := Option.bind_eq_some_iff.mp hload
    cases he
    have hstack : p = (m.saved p).1 := Option.some.inj (hp.symm.trans hproc)
    refine ⟨rfl, rfl, rfl, ?_⟩
    change m.saved (m.saved p).1 = m.saved p
    rw [← hstack]

/-- In `pit_handler` the processes are as separate as in the state it leads to. -/
theorem Running.separate_of_load (h : Running value m' s c ps)
    (hload : (∃ x, (m.pitCommit x).pitLoad = some m') ∨ m.pitLoad = some m')
    {x : Schedule.Node} {b : Bool} {fs : List Frame} (hf : m.frames = .pit x b :: fs)
    (hfs : ∀ call pc, .exec call pc ∈ fs → phase pc = .started) : m.Separate := by
  obtain ⟨hnext, hpcbs, hsaved, hstack⟩ := h.load_spec hload
  have hlinked : ∀ p, m.Linked p ↔ p ∈ ps := by
    intro p
    rw [Linked, ← hnext]
    exact h.linked_iff
  have hslot : ∀ p n, m.Linked p → m.Holds p n → s n = .chosen p := by
    rintro p n hp ⟨call, pc, hmem, rfl, hpc⟩
    unfold callsOf at hmem
    split at hmem
    · -- the interrupted call has scheduled its number
      rw [hf] at hmem
      exact absurd (hfs call pc (by simpa using hmem)) hpc
    · have hok := h.procOk ((hlinked p).mp hp)
      have hcalls : m'.callsOf p = (m.saved p).2 := by
        unfold callsOf
        split
        · rename_i he
          rw [he, hstack]
        · rw [hsaved]
      rw [hcalls] at hok
      exact hok.slot_of_mem hmem hpc
  constructor
  case chosen =>
    exact fun p n => chosen_of_slots (fun q hq => (h.linked q).mp ((hlinked q).mp hq)) hslot
  case pcb =>
    intro p hp
    rw [← hpcbs]
    exact h.pid p ((hlinked p).mp hp)
  case kernelStack =>
    intro p q hp hq he
    rw [← hpcbs, h.kernelStack p ((hlinked p).mp hp), h.kernelStack q ((hlinked q).mp hq)] at he
    exact getKstackAddress_injective he
  case saved =>
    intro p hp _
    by_cases hne : p = m'.stack
    · rw [hne, hstack]
    · rw [← hsaved]
      exact (h.parked p ((hlinked p).mp hp) hne).1
  case directory => exact fun p _ _ hin => absurd ⟨x, b, fs, hf⟩ hin
  case user =>
    intro he
    rw [hf] at he
    cases he

theorem Sound.separate (h : Sound value m s c) : m.Separate := by
  rcases h with ⟨ps, h⟩ | h
  · exact h.separate
  · cases h with
    | entered hf hfs hload hrun => exact hrun.separate_of_load (.inl ⟨_, hload⟩) hf hfs
    | committed hf hfs hload hrun => exact hrun.separate_of_load (.inr hload) hf hfs

/-! ## Runs -/

/-- In every run without a tick inside a window, a number that one `kexecute` has chosen is not
chosen again until it is free, `schedule` is not called for a linked node, and processes are
separate. -/
theorem pid_ownership {m₀ m : Machine} {es : List Event} (hinit : system.init m₀)
    (hok : system.Allowed NoTickInWindow m₀ es) (hrun : system.run m₀ es = some m) :
    Exclusive (system.labels label m₀ es) ∧
      (∀ p n, some (.scheduled p n true) ∉ system.labels label m₀ es) ∧ m.Separate := by
  have hstep : ∀ m e m' s, (∃ c, Sound (fun e => (returnedByte e).toNat) m s c) →
      NoTickInWindow m e → system.step m e = some m' →
      ∃ s', s.next (label m e) = some s' ∧
        ∃ c, Sound (fun e => (returnedByte e).toNat) m' s' c := by
    rintro m e m' s ⟨c, hsound⟩ hwin hs
    obtain ⟨r, hr, rfl⟩ := Option.map_eq_some_iff.mp hs
    obtain ⟨s', c', hs', -, hsound'⟩ := hsound.exec hwin (fun _ _ _ => rfl) hr
    refine ⟨s', ?_, c', hsound'⟩
    rw [label, hr]
    exact hs'
  obtain ⟨s, hs, c, hsound⟩ :=
    Run.System.simulates label hstep ⟨_, .inl ⟨_, running_boot hinit⟩⟩ hok hrun
  exact ⟨Slots.exclusive_of_foldlM hs, Slots.notMem_of_foldlM hs, hsound.separate⟩

/-- A shell starts a program, the program halts, and the shell starts the next one, which gets the
same number. -/
def reuseRun : List Event :=
  execShell :: List.replicate 17 .statement ++ [.tick, .tick, .khalt (.halt 7)] ++
    List.replicate 11 .statement ++ execShell :: List.replicate 4 .statement

theorem pid_ownership_reuse : ∃ m₀ m, system.init m₀ ∧ system.run m₀ reuseRun = some m ∧
    (some (.unlinked 3) ∈ system.labels label m₀ reuseRun ∧
      (system.labels label m₀ reuseRun).count (some (.chose 0 3)) = 2) ∧
    Exclusive (system.labels label m₀ reuseRun) ∧
      (∀ p n, some (.scheduled p n true) ∉ system.labels label m₀ reuseRun) ∧ m.Separate := by
  have heval : sampleMachine.map (fun m₀ => decide ((system.run m₀ reuseRun).isSome ∧
      system.Allowed NoTickInWindow m₀ reuseRun ∧
      some (.unlinked 3) ∈ system.labels label m₀ reuseRun ∧
      (system.labels label m₀ reuseRun).count (some (.chose 0 3)) = 2)) = some true := by
    decide +kernel
  obtain ⟨m₀, hm₀, hfacts⟩ := Option.map_eq_some_iff.mp heval
  obtain ⟨hsome, hok, hlabels⟩ := of_decide_eq_true hfacts
  obtain ⟨m, hm⟩ := Option.isSome_iff_exists.mp hsome
  have hinit := sampleMachine_init hm₀
  exact ⟨m₀, m, hinit, hm, hlabels, pid_ownership hinit hok hm⟩

/-- A tick right after `free_pid_idx` lets the shell of another terminal choose the same number. -/
def stolenRun : List Event :=
  execShell :: List.replicate 4 .statement ++ .tick :: execShell :: List.replicate 4 .statement

theorem pid_ownership_stolen : ∃ m₀ m, system.init m₀ ∧ system.run m₀ stolenRun = some m ∧
    ¬Exclusive (system.labels label m₀ stolenRun) := by
  have heval : sampleMachine.map (fun m₀ => decide ((system.run m₀ stolenRun).isSome ∧
      system.labels label m₀ stolenRun = List.replicate 4 none ++
        some (.chose 0 3) :: (List.replicate 5 none ++ [some (.chose 1 3)]))) = some true := by
    decide
  obtain ⟨m₀, hm₀, hfacts⟩ := Option.map_eq_some_iff.mp heval
  obtain ⟨hsome, hlabels⟩ := of_decide_eq_true hfacts
  obtain ⟨m, hm⟩ := Option.isSome_iff_exists.mp hsome
  refine ⟨m₀, m, sampleMachine_init hm₀, hm, fun hex => ?_⟩
  rcases hex _ _ [] 0 1 3 hlabels with hmem | ⟨e, hsub⟩
  · simp at hmem
  · have hmem := hsub.subset List.mem_cons_self
    simp at hmem

end Machine
end GalapagOS
