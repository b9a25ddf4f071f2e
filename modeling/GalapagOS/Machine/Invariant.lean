import GalapagOS.Kernel.Boot
import GalapagOS.Machine.Protocol

/-!
# What holds while calls are in progress

`ProcOk` says what is true of a linked process at each statement of its call, `Calm` that all of
them are as they should be, and `Running` adds what the processor holds for the one that runs. The
processes that do not run are at statements where a tick may leave them.
-/

namespace GalapagOS
namespace Machine

open Kernel

variable {value : Ending → ℕ} {k k' : Kernel} {m m' : Machine} {s s' : Slots} {c c' : Calls}
  {ps : List Pid} {p q n : Pid} {fs : List Frame}

/-! ## Where ticks do harm -/

/-- How far a `kexecute` has come with the number it has chosen. -/
inductive Phase where
  /-- `pid_arr` is not marked yet -/
  | choosing
  /-- `pid_arr` is marked -/
  | marked
  /-- the control block is written -/
  | creating
  /-- the child is scheduled -/
  | started
deriving DecidableEq

def phase : ExecPc → Phase
  | .parse | .enterPaging | .load | .mark => .choosing
  | .pcbInit => .marked
  | .setCurrent | .openStd | .restoreParent | .schedule => .creating
  | .openShells | .int32 | .ret => .started

/-- `pid_arr` is cleared and the task is not marked `TASK_FINISHED` yet. -/
def leaving : HaltPc → Bool
  | .unmap | .close | .detach | .deliver | .unschedule => true
  | _ => false

/-- The stretches of the code where interrupts would have to be off: from the choice of a free
number to its mark, from `set_current_process` to `schedule`, from the cleared mark to `unschedule`,
and in `pit_handler` after an `int $32` from `sti` until the stack is changed. -/
def Window : List Frame → Prop
  | .exec _ pc :: _ => phase pc = .choosing ∨ pc = .openStd ∨ pc = .restoreParent ∨ pc = .schedule
  | .halting _ _ pc :: _ => leaving pc
  | .pit _ _ :: _ => True
  | _ => False

instance : DecidablePred Window
  | .exec _ pc :: _ =>
    inferInstanceAs
      (Decidable (phase pc = .choosing ∨ pc = .openStd ∨ pc = .restoreParent ∨ pc = .schedule))
  | .halting _ _ pc :: _ => inferInstanceAs (Decidable (leaving pc = true))
  | .pit _ _ :: _ => isTrue trivial
  | [] | .scan _ _ _ :: _ | .halt _ :: _ => isFalse id

/-! ## One process -/

/-- The process is marked, and its parent waits for it if it is not a shell. -/
structure Alive (k : Kernel) (s : Slots) (c : Calls) (p : Pid) : Prop where
  mark : k.pidArr p = true
  slot : s p = .live
  parent : 2 < p → ∃ q, (k.pcbs p).parent = some q ∧ c q = .waiting p

/-- The process waits for no child. -/
structure Active (k : Kernel) (s : Slots) (c : Calls) (p : Pid) : Prop extends Alive k s c p where
  idle : c p = .idle
  running : (k.queue.node (.task p)).running = .running

/-- The byte that the parent's `kexecute` returns. -/
def returnedByte (e : Ending) : UInt8 := .ofNat (haltValue e.code)

/-- What is true of process `p` when `fs` are its calls in progress. -/
inductive ProcOk (value : Ending → ℕ) (k : Kernel) (s : Slots) (c : Calls) (p : Pid) :
    List Frame → Prop
  | user : Active k s c p → ProcOk value k s c p []
  | scan {command : Option (List UInt8)} {st : Stale} {idx : ℕ} : Active k s c p →
      ProcOk value k s c p [.scan command st idx]
  | chosen {call : ExecCall} {pc : ExecPc} : Active k s c p → phase pc = .choosing →
      s call.pid = .chosen p → k.pidArr call.pid = false → ProcOk value k s c p [.exec call pc]
  | marked {call : ExecCall} : Active k s c p → s call.pid = .chosen p →
      k.pidArr call.pid = true → ProcOk value k s c p [.exec call .pcbInit]
  | created {call : ExecCall} {pc : ExecPc} : Active k s c p → phase pc = .creating →
      s call.pid = .chosen p → k.pidArr call.pid = true → (k.pcbs call.pid).pid = call.pid →
      (k.pcbs call.pid).kernelStack = getKstackAddress call.pid →
      (k.pcbs call.pid).parent = some p → ProcOk value k s c p [.exec call pc]
  | waiting {call : ExecCall} {pc : ExecPc} : Alive k s c p → phase pc = .started → 2 < call.pid →
      c p = .waiting call.pid → s call.pid = .live →
      (k.queue.node (.task p)).running = .inactive → ProcOk value k s c p [.exec call pc]
  | resumed {call : ExecCall} {pc : ExecPc} {e : Ending} : Alive k s c p → phase pc = .started →
      2 < call.pid → c p = .ended e → (k.pcbs p).retStatus.toNat = value e →
      (k.queue.node (.task p)).running = .running → ProcOk value k s c p [.exec call pc]
  | halt {e : Ending} : Active k s c p → (2 < p → (returnedByte e).toNat = value e) →
      ProcOk value k s c p [.halt e]
  | clear {e : Ending} {q : Pid} : Active k s c p → 2 < p → (returnedByte e).toNat = value e →
      (k.pcbs p).parent = some q → ProcOk value k s c p [.halting e (some q) .clear]
  | left {e : Ending} {q : Pid} {pc : HaltPc} : leaving pc → 2 < p → s p = .live → c p = .idle →
      k.pidArr p = false → (k.queue.node (.task p)).running = .running →
      (returnedByte e).toNat = value e → c q = .waiting p →
      (pc = .unmap ∨ pc = .close ∨ pc = .detach → (k.pcbs p).parent = some q) →
      (pc = .unschedule → (k.pcbs q).retStatus.toNat = value e) →
      ProcOk value k s c p [.halting e (some q) pc]
  | dead {e : Ending} {q : Option Pid} {pc : HaltPc} : pc = .int32 ∨ pc = .ret → 2 < p →
      s p = .ended → c p = .idle → k.pidArr p = false → (k.queue.node (.task p)).running = .finished →
      ProcOk value k s c p [.halting e q pc]

/-- A process that a tick may leave as it is. -/
structure Parked (value : Ending → ℕ) (k : Kernel) (s : Slots) (c : Calls) (p : Pid)
    (fs : List Frame) : Prop where
  ok : ProcOk value k s c p fs
  window : ¬Window fs
  slot : s p ≠ .ended

theorem Parked.alive (h : Parked value k s c p fs) : Alive k s c p := by
  obtain ⟨hok, hw, hs⟩ := h
  cases hok with
  | user h | scan h | chosen h | marked h | created h | halt h | clear h => exact h.toAlive
  | waiting h | resumed h => exact h
  | left hpc => exact absurd hpc hw
  | dead _ _ he => exact absurd he hs

/-! ## Steps of others -/

/-- The fields of process `n` that its own statements rely on. -/
structure Kept (k k' : Kernel) (n : Pid) : Prop where
  mark : k'.pidArr n = k.pidArr n
  pid : (k'.pcbs n).pid = (k.pcbs n).pid
  kernelStack : (k'.pcbs n).kernelStack = (k.pcbs n).kernelStack
  parent : (k'.pcbs n).parent = (k.pcbs n).parent
  files : TableOk (k.table n) → TableOk (k'.table n)

theorem Kept.refl (k : Kernel) (n : Pid) : Kept k k n := ⟨rfl, rfl, rfl, rfl, id⟩

theorem Alive.kept (h : Alive k s c p) (hp : Kept k k' p) (hsp : s' p = s p)
    (hwait : ∀ q, c q = .waiting p → c' q = .waiting p) : Alive k' s' c' p where
  mark := hp.mark.trans h.mark
  slot := hsp.trans h.slot
  parent hlt := by
    obtain ⟨q, hq, hcq⟩ := h.parent hlt
    exact ⟨q, hp.parent.trans hq, hwait q hcq⟩

theorem Active.kept (h : Active k s c p) (hp : Kept k k' p)
    (hrun : (k'.queue.node (.task p)).running = (k.queue.node (.task p)).running)
    (hsp : s' p = s p) (hcp : c' p = c p) (hwait : ∀ q, c q = .waiting p → c' q = .waiting p) :
    Active k' s' c' p :=
  ⟨h.toAlive.kept hp hsp hwait, hcp.trans h.idle, hrun.trans h.running⟩

/-- A waiting process does not notice what others do elsewhere. -/
theorem Parked.kept (h : Parked value k s c p fs) (hp : Kept k k' p)
    (hrun : (k'.queue.node (.task p)).running = (k.queue.node (.task p)).running)
    (hret : ∀ e, c p = .ended e → (k'.pcbs p).retStatus = (k.pcbs p).retStatus)
    (hsp : s' p = s p) (hcp : c' p = c p) (hwait : ∀ q, c q = .waiting p → c' q = .waiting p)
    (hchild : ∀ n, s n = .chosen p → s' n = s n ∧ Kept k k' n)
    (hlive : ∀ n, c p = .waiting n → s n = .live → s' n = .live) :
    Parked value k' s' c' p fs := by
  obtain ⟨hok, hw, hs⟩ := h
  refine ⟨?_, hw, by rwa [hsp]⟩
  cases hok with
  | user h => exact .user (h.kept hp hrun hsp hcp hwait)
  | scan h => exact .scan (h.kept hp hrun hsp hcp hwait)
  | halt h hv => exact .halt (h.kept hp hrun hsp hcp hwait) hv
  | clear h hlt hv hq => exact .clear (h.kept hp hrun hsp hcp hwait) hlt hv (hp.parent.trans hq)
  | chosen _ hpc => exact absurd (.inl hpc) hw
  | marked h hch hmark =>
    obtain ⟨hsn, hn⟩ := hchild _ hch
    exact .marked (h.kept hp hrun hsp hcp hwait) (hsn.trans hch) (hn.mark.trans hmark)
  | created h hpc hch hmark hpid hstack hparent =>
    obtain ⟨hsn, hn⟩ := hchild _ hch
    exact .created (h.kept hp hrun hsp hcp hwait) hpc (hsn.trans hch) (hn.mark.trans hmark)
      (hn.pid.trans hpid) (hn.kernelStack.trans hstack) (hn.parent.trans hparent)
  | waiting h hpc hlt hcall hln hin =>
    exact .waiting (h.kept hp hsp hwait) hpc hlt (hcp.trans hcall) (hlive _ hcall hln) (hrun.trans hin)
  | resumed h hpc hlt hcall hval hr =>
    refine .resumed (h.kept hp hsp hwait) hpc hlt (hcp.trans hcall) ?_ (hrun.trans hr)
    rw [hret _ hcall]
    exact hval
  | left hpc => exact absurd hpc hw
  | dead _ _ he => exact absurd he hs

/-! ## All processes -/

/-- Process numbers that are held without a mark in `pid_arr`. -/
def Unmarked (stack : Pid) : List Frame → Pid → Prop
  | .exec call pc :: _, p => phase pc = .choosing ∧ p = call.pid
  | .halting _ _ pc :: _, p => pc ≠ .clear ∧ p = stack
  | _, _ => False

/-- The queue `ps` holds the live processes, and each is where its slot and its call say. -/
structure Calm (value : Ending → ℕ) (m : Machine) (s : Slots) (c : Calls) (ps : List Pid) :
    Prop where
  queue : Schedule.IsQueue m.k.queue ps
  currNode : m.k.queue.currNode = .task m.stack
  mem : m.stack ∈ ps
  shells : ∀ p ≤ 2, p ∈ ps
  linked : ∀ p, p ∈ ps ↔ s p = .live ∨ s p = .ended
  marks : ∀ p, m.k.pidArr p = false → s p = .free ∨ Unmarked m.stack m.frames p
  idle : ∀ p, p ∉ ps → c p = .idle
  unique : ∀ p q n, c p = .waiting n → c q = .waiting n → p = q
  pid : ∀ p ∈ ps, (m.k.pcbs p).pid = p
  kernelStack : ∀ p ∈ ps, (m.k.pcbs p).kernelStack = getKstackAddress p
  files : ∀ p ∈ ps, TableOk (m.k.table p)
  current : ProcOk value m.k s c m.stack m.frames
  parked : ∀ p ∈ ps, p ≠ m.stack → (m.saved p).1 = p ∧ Parked value m.k s c p (m.saved p).2

/-- `curr_process` and `desc` point to the control block of `p`. -/
def Points (k : Kernel) (p : Pid) : Prop := k.currProcess = some p ∧ k.desc = some p

/-- The processor holds the control block, the descriptors and the kernel stack of the running
process. -/
def Own (m : Machine) : Prop :=
  Points m.k m.stack ∧ m.k.esp0 = (m.k.pcbs m.stack).kernelStack

/-- What the processor holds in `kexecute`: from `set_current_process` on these belong to the
child, until the next switch. -/
def ExecOnCpu (m : Machine) (call : ExecCall) : ExecPc → Prop
  | .openStd => ∃ k₀ : Kernel, m.k = k₀.setCurrentProcess call.pid
  | .restoreParent => Points m.k call.pid ∧ TableOk (m.k.table call.pid)
  | .schedule => Points m.k call.pid ∧ TableOk (m.k.table call.pid) ∧ m.k.cr3 = some m.stack
  | .openShells => True
  | .int32 => True
  | .ret => Own m ∧ (m.k.queue.node (.task m.stack)).running = .running
  | _ => Own m

/-- What the processor holds for the running process. A finished one is not resumed. -/
def OnCpu (m : Machine) : Prop :=
  match m.frames with
  | .exec call pc :: _ => ExecOnCpu m call pc
  | .halting _ _ .ret :: _ => False
  | _ => Own m

structure Running (value : Ending → ℕ) (m : Machine) (s : Slots) (c : Calls) (ps : List Pid) :
    Prop extends Calm value m s c ps where
  onCpu : OnCpu m
  directory : ∀ p ∈ ps, p ≠ m.stack → m.k.cr3 ≠ some p

/-! ## Statements of the running process -/

/-- Process numbers that the running process does not write to. -/
def Foreign (s : Slots) (stack n : Pid) : Prop := n ≠ stack ∧ s n ≠ .free ∧ s n ≠ .chosen stack

theorem Calm.slot_stack (h : Calm value m s c ps) : s m.stack = .live ∨ s m.stack = .ended :=
  (h.linked m.stack).mp h.mem

theorem Calm.foreign (h : Calm value m s c ps) (hp : p ∈ ps) (hne : p ≠ m.stack) :
    Foreign s m.stack p := by
  refine ⟨hne, ?_, ?_⟩ <;>
    rcases (h.linked p).mp hp with he | he <;> simp [he]

/-- A statement that leaves the queue alone: what it changes are the running process, the numbers
it has chosen and the free ones. -/
theorem Calm.step (h : Calm value m s c ps) (hqueue : k'.queue = m.k.queue)
    (hstack : s' m.stack = s m.stack)
    (hforeign : ∀ n, Foreign s m.stack n → s' n = s n ∧ Kept m.k k' n ∧
      ∀ e, c n = .ended e → (k'.pcbs n).retStatus = (m.k.pcbs n).retStatus)
    (hnew : ∀ n, n ≠ m.stack → ¬Foreign s m.stack n → s' n = .free ∨ s' n = .chosen m.stack)
    (hwait : ∀ p n, c' p = .waiting n ↔ c p = .waiting n) (hcalls : ∀ p, p ≠ m.stack → c' p = c p)
    (hmarks : ∀ p, k'.pidArr p = false → s' p = .free ∨ Unmarked m.stack fs p)
    (hpid : (k'.pcbs m.stack).pid = (m.k.pcbs m.stack).pid)
    (hkernelStack : (k'.pcbs m.stack).kernelStack = (m.k.pcbs m.stack).kernelStack)
    (hfiles : TableOk (k'.table m.stack)) (hcurrent : ProcOk value k' s' c' m.stack fs) :
    Calm value (m.goto k' fs) s' c' ps := by
  have hlinked : ∀ p, (s' p = .live ∨ s' p = .ended) ↔ (s p = .live ∨ s p = .ended) := by
    intro p
    by_cases hp : p = m.stack
    · rw [hp, hstack]
    · by_cases hf : Foreign s m.stack p
      · rw [(hforeign p hf).1]
      · have hold : s p = .free ∨ s p = .chosen m.stack := by
          unfold Foreign at hf
          tauto
        rcases hold with ho | ho <;> rcases hnew p hp hf with hn | hn <;> simp [ho, hn]
  have hother : ∀ p ∈ ps, p ≠ m.stack → Kept m.k k' p :=
    fun p hp hne => (hforeign p (h.foreign hp hne)).2.1
  constructor
  case queue => exact hqueue ▸ h.queue
  case currNode => exact (congrArg _ hqueue).trans h.currNode
  case mem => exact h.mem
  case shells => exact h.shells
  case linked => exact fun p => (h.linked p).trans (hlinked p).symm
  case marks => exact hmarks
  case idle =>
    intro p hp
    rw [hcalls p fun he => hp (he ▸ h.mem), h.idle p hp]
  case unique => exact fun p q n hp hq => h.unique p q n ((hwait p n).mp hp) ((hwait q n).mp hq)
  case pid =>
    intro p hp
    by_cases hne : p = m.stack
    · rw [hne]
      exact hpid.trans (h.pid _ h.mem)
    · exact (hother p hp hne).pid.trans (h.pid p hp)
  case kernelStack =>
    intro p hp
    by_cases hne : p = m.stack
    · rw [hne]
      exact hkernelStack.trans (h.kernelStack _ h.mem)
    · exact (hother p hp hne).kernelStack.trans (h.kernelStack p hp)
  case files =>
    intro p hp
    by_cases hne : p = m.stack
    · rw [hne]
      exact hfiles
    · exact (hother p hp hne).files (h.files p hp)
  case current => exact hcurrent
  case parked =>
    intro p hp hne
    replace hne : p ≠ m.stack := hne
    obtain ⟨hsaved, hparked⟩ := h.parked p hp hne
    obtain ⟨hsp, hkept, hret⟩ := hforeign p (h.foreign hp hne)
    have hrun : (k'.queue.node (.task p)).running = (m.k.queue.node (.task p)).running := by
      rw [hqueue]
    refine ⟨hsaved, hparked.kept hkept hrun hret hsp (hcalls p hne) (fun q => (hwait q p).mpr)
      ?_ ?_⟩
    · intro n hn
      have hf : Foreign s m.stack n := by
        refine ⟨?_, by simp [hn], by simp [hn, hne]⟩
        rintro rfl
        rcases h.slot_stack with he | he <;> rw [hn] at he <;> cases he
      exact ⟨(hforeign n hf).1, (hforeign n hf).2.1⟩
    · intro n _ hn
      by_cases he : n = m.stack
      · rw [he, hstack, ← he, hn]
      · rw [(hforeign n ⟨he, by simp [hn], by simp [hn]⟩).1, hn]

/-- A statement that changes nothing but the running process and the number it has chosen. -/
theorem Calm.local (h : Calm value m s c ps) (hqueue : k'.queue = m.k.queue)
    (hkept : ∀ n, Foreign s m.stack n → Kept m.k k' n ∧
      ∀ e, c n = .ended e → (k'.pcbs n).retStatus = (m.k.pcbs n).retStatus)
    (hmarks : ∀ p, k'.pidArr p = false → s p = .free ∨ Unmarked m.stack fs p)
    (hpid : (k'.pcbs m.stack).pid = (m.k.pcbs m.stack).pid)
    (hkernelStack : (k'.pcbs m.stack).kernelStack = (m.k.pcbs m.stack).kernelStack)
    (hfiles : TableOk (k'.table m.stack)) (hcurrent : ProcOk value k' s c m.stack fs) :
    Calm value (m.goto k' fs) s c ps := by
  refine h.step hqueue rfl (fun n hn => ⟨rfl, hkept n hn⟩) (fun n hne hn => ?_) (fun _ _ => .rfl)
    (fun _ _ => rfl) hmarks hpid hkernelStack hfiles hcurrent
  unfold Foreign at hn
  tauto

/-- A statement that leaves control blocks, marks and the queue alone. -/
theorem Calm.quiet (h : Calm value m s c ps) (hpidArr : k'.pidArr = m.k.pidArr)
    (hpcbs : k'.pcbs = m.k.pcbs) (hqueue : k'.queue = m.k.queue)
    (hmarks : ∀ p, k'.pidArr p = false → s p = .free ∨ Unmarked m.stack fs p)
    (hcurrent : ProcOk value k' s c m.stack fs) : Calm value (m.goto k' fs) s c ps := by
  have htable : ∀ p, k'.table p = m.k.table p := fun p => by rw [table, hpcbs]; rfl
  refine h.local hqueue (fun n _ => ⟨⟨by rw [hpidArr], by rw [hpcbs], by rw [hpcbs], by rw [hpcbs],
    fun hn => by rwa [htable]⟩, fun _ _ => by rw [hpcbs]⟩) hmarks (by rw [hpcbs]) (by rw [hpcbs]) ?_
    hcurrent
  rw [htable]
  exact h.files _ h.mem

/-- A statement that only goes on in the code. -/
theorem Calm.goOn (h : Calm value m s c ps) (fs : List Frame)
    (hmarks : ∀ p, m.k.pidArr p = false → s p = .free ∨ Unmarked m.stack fs p)
    (hcurrent : ProcOk value m.k s c m.stack fs) : Calm value (m.goto m.k fs) s c ps :=
  h.quiet rfl rfl rfl hmarks hcurrent

end Machine
end GalapagOS
