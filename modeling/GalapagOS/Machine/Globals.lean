import GalapagOS.Kernel.Boot
import GalapagOS.Kernel.Frame
import GalapagOS.Machine.Common

/-!
# The scheduler's variables after a switch

`pit_handler` has to change `curr_process`, `desc`, `tss.esp0`, `cr3`, `curr_node` and the stack
together. A hardware tick changes them in one go. After an `int $32` interrupts are on before
`curr_node` and the stack follow, and a tick at that place stores a half finished handler. And
`kexecute` stores its own stack pointers in the block of `curr_process->parent`, which is the block of
another process if a tick came after `pcb_init`. The invariant here holds in every run without ticks
at these two places; others where a tick does harm are not excluded.
-/

namespace GalapagOS
namespace Machine

open Kernel

variable {k k' : Kernel} {m m' : Machine} {p q : Pid}

/-! ## The invariant -/

/-- From `set_current_process(child)` to `int $32` the kernel works for the child. -/
def forChild : ExecPc → Bool
  | .openStd | .restoreParent | .schedule | .openShells | .int32 => true
  | _ => false

/-- The innermost call is a `kexecute` at such a statement. -/
def ForChild : List Frame → Prop
  | .exec _ pc :: _ => forChild pc
  | _ => False

/-- The child that a call works for. -/
def childOf : Frame → Option Pid
  | .exec c pc => if forChild pc then some c.pid else none
  | _ => none

theorem forChild_cons {f : Frame} {fs : List Frame} : ForChild (f :: fs) ↔ childOf f ≠ none := by
  cases f with
  | exec c pc => simp [ForChild, childOf]
  | _ => simp [ForChild, childOf]

theorem childOf_eq_none {f : Frame} : childOf f = none ↔ ¬ForChild [f] := by
  rw [forChild_cons, not_not]

/-- What a call on the stack of `p` relies on. No handler is interrupted. -/
def FrameOk (k : Kernel) (p : Pid) : Frame → Prop
  | .exec c .setCurrent => (k.pcbs c.pid).pid = c.pid
  | .halting _ _ _ => 2 < p
  | .pit _ _ => False
  | _ => True

theorem FrameOk.mono {f : Frame} (h : FrameOk k p f)
    (hpid : ∀ n, (k.pcbs n).pid = n → (k'.pcbs n).pid = n) : FrameOk k' p f := by
  cases f with
  | exec c pc =>
    cases pc with
    | setCurrent => exact hpid c.pid h
    | _ => trivial
  | halting e parent pc => exact h
  | pit n b => exact h
  | scan command st idx => trivial
  | halt e => trivial

/-- From `pcb_init` to the stores of `get_esp_and_ebp`. -/
def linksParent : ExecPc → Bool
  | .setCurrent | .openStd | .restoreParent => true
  | _ => false

/-- The innermost call is a `kexecute` that has still to store its stack pointers in the block of the
new process's parent. -/
def LinksParent : List Frame → Prop
  | .exec _ pc :: _ => linksParent pc
  | _ => False

instance : DecidablePred LinksParent
  | .exec _ pc :: _ => inferInstanceAs (Decidable (linksParent pc = true))
  | [] | .scan _ _ _ :: _ | .halt _ :: _ | .halting _ _ _ :: _ | .pit _ _ :: _ => isFalse id

/-- At these statements the parent is the process that runs. -/
def ParentOk (m : Machine) : Prop :=
  match m.frames with
  | .exec c .setCurrent :: _ => (m.k.pcbs c.pid).parent = some m.stack
  | .exec _ .openStd :: _ | .exec _ .restoreParent :: _ =>
    ∀ cur, m.k.currProcess = some cur → (m.k.pcbs cur).parent = some m.stack
  | _ => True

theorem parentOk_of_not_linksParent (h : ¬LinksParent m.frames) : ParentOk m := by
  unfold ParentOk
  split
  · rename_i hm
    rw [hm] at h
    exact absurd rfl h
  · rename_i hm
    rw [hm] at h
    exact absurd rfl h
  · rename_i hm
    rw [hm] at h
    exact absurd rfl h
  · trivial

/-- Saved stack pointers from which process `p` can go on: they are on its own stack. -/
structure Resumable (k : Kernel) (p : Pid) (s : Pid × List Frame) : Prop where
  stack : s.1 = p
  frames : ∀ f ∈ s.2, FrameOk k p f
  single : s.2.tail = []
  whole : ¬LinksParent s.2

theorem Resumable.mono {s : Pid × List Frame} (h : Resumable k p s)
    (hpid : ∀ n, (k.pcbs n).pid = n → (k'.pcbs n).pid = n) : Resumable k' p s :=
  { h with frames := fun f hf => (h.frames f hf).mono hpid }

/-- A process that is in no call. -/
theorem resumable_nil (k : Kernel) (p : Pid) : Resumable k p (p, []) :=
  ⟨rfl, fun _ hf => absurd hf List.not_mem_nil, rfl, id⟩

/-- The shells are never given up, and the saved stack of a process is its own. -/
structure Backed (m : Machine) : Prop where
  registered : m.k.Registered
  shells : ∀ p ≤ 2, m.k.pidArr p = true
  saved : ∀ p, Resumable m.k p (m.saved p)

/-- The processor is on the stack of the current node, in at most one call. -/
structure Stacked (m : Machine) : Prop extends Backed m where
  currNode : m.k.queue.currNode = .task m.stack
  frames : ∀ f ∈ m.frames, FrameOk m.k m.stack f
  single : m.frames.tail = []

/-- The current process is the one whose stack it is, unless `kexecute` works for a child. -/
structure Settled (m : Machine) : Prop extends Stacked m where
  current : ¬ForChild m.frames → m.k.currProcess = some m.stack ∧ m.k.desc = some m.stack
  currPid : ∀ c, m.k.currProcess = some c → (m.k.pcbs c).pid = c
  parent : ParentOk m

/-- The variables that `reset_curr_process` assigns are those of `p`. -/
structure Selected (k : Kernel) (p : Pid) : Prop where
  currProcess : k.currProcess = some p
  desc : k.desc = some p
  esp0 : k.esp0 = (k.pcbs p).kernelStack
  cr3 : k.cr3 = some p

/-- In the handler after an `int $32`, on the way to process `q`. -/
structure Handling (m : Machine) (q : Pid) (b : Bool) : Prop extends Backed m where
  frames : ∃ rest, m.frames = .pit (.task q) b :: rest
  process : (m.k.queue.node (.task q)).process = some q
  selected : Selected m.k q
  committed : b = true → m.k.queue.currNode = .task q

/-! ## The handler -/

/-- The next process is made current, and the stack pointers go to the block of the old one. -/
theorem Stacked.pitEnter (h : Stacked m) (hl : ¬LinksParent m.frames) {x : Schedule.Node}
    (he : m.pitEnter = some (m', x)) :
    ∃ q, x = .task q ∧ Backed m' ∧ (m'.k.queue.node (.task q)).process = some q ∧
      Selected m'.k q ∧ m'.frames = m.frames := by
  obtain ⟨⟨k₁, n⟩, hsel, he⟩ := Option.bind_eq_some_iff.mp he
  obtain ⟨p, hp, he⟩ := Option.bind_eq_some_iff.mp he
  cases he
  rw [h.currNode] at hp
  obtain ⟨rfl, -⟩ := h.registered.process m.stack p hp
  have hsteady := steady_pitSelect hsel
  have hpidArr : k₁.pidArr = m.k.pidArr ∧ ∃ q, x = .task q ∧
      (k₁.queue.node (.task q)).process = some q ∧ Selected k₁ q := by
    -- the other branch is that of the first tick, before any process runs
    have hbranch : ¬(m.k.queue.firstShell = true ∧ m.k.queue.currNode = .sentinel) := by
      rw [h.currNode]
      simp
    rw [pitSelect, if_neg hbranch] at hsel
    obtain ⟨⟨q', x'⟩, hq', hsel⟩ := Option.bind_eq_some_iff.mp hsel
    obtain ⟨_, -, hsel⟩ := Option.bind_eq_some_iff.mp hsel
    obtain ⟨p', hp', hsel⟩ := Option.bind_eq_some_iff.mp hsel
    cases hsel
    have hprocess := (Schedule.selectTask_process hq').1
    refine ⟨rfl, ?_⟩
    cases x with
    | sentinel =>
      have hnone := h.registered.sentinel
      rw [hprocess, hnone] at hp'
      cases hp'
    | task n =>
      have hn := hp'
      rw [hprocess] at hn
      obtain ⟨rfl, hpid⟩ := h.registered.process n p' hn
      exact ⟨p', rfl, hp', rfl, rfl, rfl, congrArg some hpid⟩
  obtain ⟨hpidArr, q, hx, hprocess, hselected⟩ := hpidArr
  refine ⟨q, hx, ⟨hsteady.registered h.registered, fun p hp => ?_, fun p => ?_⟩, hprocess,
    hselected, rfl⟩
  · show k₁.pidArr p = true
    rw [hpidArr]
    exact h.shells p hp
  · by_cases hps : p = m.stack
    · subst hps
      simp only [Function.update_self]
      exact ⟨rfl, fun f hf => (h.frames f hf).mono hsteady.pid, h.single, hl⟩
    · simp only [Function.update_of_ne hps]
      exact (h.saved p).mono hsteady.pid

/-- The calls of the process of `curr_node` go on. -/
theorem Backed.pitLoad (h : Backed m) (hcurr : m.k.queue.currNode = .task q)
    (hprocess : (m.k.queue.node (.task q)).process = some q) (hselected : Selected m.k q)
    (hload : m.pitLoad = some m') : Settled m' ∧ m'.stack = q ∧ m'.k = m.k := by
  obtain ⟨p, hp, hload⟩ := Option.bind_eq_some_iff.mp hload
  rw [hcurr, hprocess] at hp
  cases hp
  cases hload
  obtain ⟨hstack, hframes, hsingle, hwhole⟩ := h.saved q
  refine ⟨⟨⟨⟨h.registered, h.shells, h.saved⟩, ?_, ?_, hsingle⟩, fun _ => ?_, fun c hc => ?_,
    parentOk_of_not_linksParent hwhole⟩, hstack, rfl⟩
  · rw [hcurr, hstack]
  · rw [hstack]
    exact hframes
  · rw [hstack]
    exact ⟨hselected.currProcess, hselected.desc⟩
  · rw [hselected.currProcess] at hc
    cases hc
    exact (h.registered.process q q hprocess).2

/-- All five variables are those of `p`. -/
structure Agrees (k : Kernel) (p : Pid) : Prop extends Selected k p where
  currNode : k.queue.currNode = .task p

/-- `curr_node = new_task` changes nothing else that matters here. -/
theorem Backed.pitCommit (h : Backed m) (x : Schedule.Node) : Backed (m.pitCommit x) :=
  ⟨⟨h.registered.sentinel, h.registered.process⟩, h.shells, fun p => (h.saved p).mono fun _ => id⟩

/-- A hardware tick, where no handler is interrupted. -/
theorem Stacked.tick (h : Stacked m) (hl : ¬LinksParent m.frames) (ht : m.tick = some m') :
    Settled m' ∧ Agrees m'.k m'.stack := by
  obtain ⟨⟨m₁, x⟩, henter, hload⟩ := Option.bind_eq_some_iff.mp ht
  obtain ⟨q, rfl, hbacked, hprocess, hsel, -⟩ := h.pitEnter hl henter
  have hselected : Selected (m₁.pitCommit (.task q)).k q :=
    ⟨hsel.currProcess, hsel.desc, hsel.esp0, hsel.cr3⟩
  obtain ⟨hsettled, hstack, hk⟩ := (hbacked.pitCommit (.task q)).pitLoad rfl hprocess hselected hload
  refine ⟨hsettled, ?_⟩
  rw [hk, hstack]
  exact ⟨hselected, rfl⟩

theorem Stacked.int32 (h : Stacked m) (hl : ¬LinksParent m.frames) {l : Option Label}
    (hi : m.int32 = some (m', l)) :
    ∃ q, Handling m' q false := by
  obtain ⟨⟨m₁, x⟩, henter, hi⟩ := Option.bind_eq_some_iff.mp hi
  cases hi
  obtain ⟨q, rfl, hbacked, hprocess, hselected, -⟩ := h.pitEnter hl henter
  exact ⟨q, ⟨hbacked.registered, hbacked.shells, hbacked.saved⟩, ⟨_, rfl⟩, hprocess, hselected,
    fun hb => absurd hb (by decide)⟩

/-- The rest of the handler: first `curr_node`, then the stack. -/
theorem Handling.next {b : Bool} (h : Handling m q b) {l : Option Label}
    (hn : m.next = some (m', l)) :
    (b = false → Handling m' q true) ∧ (b = true → Settled m' ∧ Agrees m'.k m'.stack) := by
  obtain ⟨rest, hframes⟩ := h.frames
  unfold Machine.next at hn
  rw [hframes] at hn
  cases b with
  | false =>
    cases hn
    have hbacked := h.toBacked.pitCommit (.task q)
    refine ⟨fun _ => ⟨⟨hbacked.registered, hbacked.shells, hbacked.saved⟩, ⟨rest, rfl⟩, h.process, ?_,
      fun _ => rfl⟩, fun hb => absurd hb (by decide)⟩
    exact ⟨h.selected.currProcess, h.selected.desc, h.selected.esp0, h.selected.cr3⟩
  | true =>
    obtain ⟨m₁, hload, heq⟩ := Option.map_eq_some_iff.mp hn
    cases heq
    refine ⟨fun hb => absurd hb (by decide), fun _ => ?_⟩
    have hcurr := h.committed rfl
    obtain ⟨hsettled, hstack, hk⟩ := h.toBacked.pitLoad hcurr h.process h.selected hload
    refine ⟨hsettled, ?_⟩
    rw [hk, hstack]
    exact ⟨h.selected, hcurr⟩

/-! ## Statements -/

/-- A statement that leaves the scheduler's variables alone. -/
structure Tame (k k' : Kernel) : Prop where
  pid : ∀ n, (k.pcbs n).pid = n → (k'.pcbs n).pid = n
  registered : k.Registered → k'.Registered
  shells : ∀ p ≤ 2, k.pidArr p = true → k'.pidArr p = true
  currNode : k'.queue.currNode = k.queue.currNode
  currProcess : k'.currProcess = k.currProcess
  desc : k'.desc = k.desc

theorem Tame.refl (k : Kernel) : Tame k k := ⟨fun _ h => h, id, fun _ _ h => h, rfl, rfl, rfl⟩

theorem Tame.of_steady (h : Steady k k') (hpidArr : k'.pidArr = k.pidArr)
    (hnode : k'.queue.currNode = k.queue.currNode) (hcur : k'.currProcess = k.currProcess)
    (hdesc : k'.desc = k.desc) : Tame k k' :=
  ⟨h.pid, h.registered, fun p _ hp => by rwa [hpidArr], hnode, hcur, hdesc⟩

theorem Tame.trans {k₁ : Kernel} (h : Tame k k₁) (h' : Tame k₁ k') : Tame k k' where
  pid n hn := h'.pid n (h.pid n hn)
  registered hk := h'.registered (h.registered hk)
  shells p hp hm := h'.shells p hp (h.shells p hp hm)
  currNode := h'.currNode.trans h.currNode
  currProcess := h'.currProcess.trans h.currProcess
  desc := h'.desc.trans h.desc

/-- The calls that a statement leaves on the stack. -/
theorem Stacked.rest (h : Stacked m) {f : Frame} {fs : List Frame} (hm : m.frames = f :: fs)
    (hpid : ∀ n, (m.k.pcbs n).pid = n → (k'.pcbs n).pid = n) {f' : Frame}
    (hf' : FrameOk k' m.stack f') : ∀ g ∈ f' :: fs, FrameOk k' m.stack g := by
  intro g hg
  rcases List.mem_cons.mp hg with rfl | hg
  · exact hf'
  · refine (h.frames g ?_).mono hpid
    rw [hm]
    exact List.mem_cons_of_mem _ hg

theorem Settled.goto (h : Settled m) {fs : List Frame} (ht : Tame m.k k')
    (hfs : ∀ f ∈ fs, FrameOk k' m.stack f) (hsingle : fs.tail = [])
    (hchild : ForChild m.frames → ForChild fs) (hparent : ParentOk (m.goto k' fs)) :
    Settled (m.goto k' fs) where
  registered := ht.registered h.registered
  shells p hp := ht.shells p hp (h.shells p hp)
  saved p := (h.saved p).mono ht.pid
  currNode := ht.currNode.trans h.currNode
  frames := hfs
  single := hsingle
  parent := hparent
  current hn := by
    obtain ⟨hcur, hdesc⟩ := h.current fun hc => hn (hchild hc)
    exact ⟨ht.currProcess.trans hcur, ht.desc.trans hdesc⟩
  currPid c hc := by
    change k'.currProcess = some c at hc
    rw [ht.currProcess] at hc
    exact ht.pid c (h.currPid c hc)

theorem Stacked.rest_eq_nil (h : Stacked m) {f : Frame} {fs : List Frame}
    (hm : m.frames = f :: fs) : fs = [] := by
  have hsingle := h.single
  rw [hm] at hsingle
  exact hsingle

/-- The common case: the innermost call goes on. -/
theorem Settled.advance (h : Settled m) {f f' : Frame} {fs : List Frame} (hm : m.frames = f :: fs)
    (ht : Tame m.k k') (hf' : FrameOk k' m.stack f') (hchild : childOf f' = childOf f)
    (hparent : ParentOk (m.goto k' (f' :: fs))) : Settled (m.goto k' (f' :: fs)) := by
  refine h.goto ht (h.toStacked.rest hm ht.pid hf') (h.rest_eq_nil hm) (fun hc => ?_) hparent
  rw [hm, forChild_cons] at hc
  rw [forChild_cons]
  exact fun hnone => hc (hchild ▸ hnone)

/-- The innermost call returns. -/
theorem Settled.return (h : Settled m) {f : Frame} {fs : List Frame} (hm : m.frames = f :: fs)
    (ht : Tame m.k k') (hchild : ¬ForChild [f]) : Settled (m.goto k' fs) := by
  have hrest := h.rest_eq_nil hm
  refine h.goto ht (fun g hg => ?_) (by rw [hrest]; rfl) (fun hc => ?_) (by rw [hrest]; trivial)
  · refine (h.frames g ?_).mono ht.pid
    rw [hm]
    exact List.mem_cons_of_mem _ hg
  · rw [hm, forChild_cons] at hc
    exact absurd (childOf_eq_none.mpr hchild) hc

/-- The process of a call that works for no child. -/
theorem Settled.current_pid (h : Settled m) (hn : ¬ForChild m.frames) {cur : Pid}
    (hcur : m.k.currProcess = some cur) : (m.k.pcbs cur).pid = m.stack := by
  have hstack := (h.current hn).1
  rw [hcur] at hstack
  cases hstack
  exact h.currPid _ hcur

theorem tame_access {base : ℕ} {ops : List (Memory.Op UInt8)} (h : k.access base ops = some k') :
    Tame k k' := by
  obtain ⟨m, rfl⟩ := access_eq_some h
  exact .of_steady (steady_access h) rfl rfl rfl rfl

theorem tame_enterPaging {n : Pid} (h : k.enterPaging n = some k') : Tame k k' := by
  have hsteady := steady_enterPaging h
  unfold enterPaging at h
  split at h
  · obtain ⟨_, -, rfl⟩ := Option.map_eq_some_iff.mp h
    exact .of_steady hsteady rfl rfl rfl rfl
  · cases h
    exact .of_steady hsteady rfl rfl rfl rfl

theorem tame_loadProgram {inode : ℕ} {ok : Bool} (h : k.loadProgram inode = some (k', ok)) :
    Tame k k' := by
  obtain ⟨k₁, hacc, heq⟩ := Option.map_eq_some_iff.mp h
  cases heq
  exact tame_access hacc

theorem tame_markPid (k : Kernel) (n : Pid) : Tame k (k.markPid n true) := by
  have hsteady : Steady k (k.markPid n true) := steady_of_eq rfl rfl rfl rfl
  refine ⟨hsteady.pid, hsteady.registered, fun p _ hp => ?_, rfl, rfl, rfl⟩
  show Function.update k.pidArr n true p = true
  by_cases hpn : p = n
  · rw [hpn, Function.update_self]
  · rw [Function.update_of_ne hpn]
    exact hp

theorem tame_pcbInit (k : Kernel) (n : Pid) (eip : ℕ) (cmd args : List UInt8) :
    Tame k (k.pcbInit n eip cmd args) := by
  have hsteady := (steady_pcbInit k n eip cmd args).1
  rw [pcbInit_rest] at hsteady ⊢
  exact .of_steady hsteady rfl rfl rfl rfl

theorem tame_openStdinStdout (h : k.openStdinStdout = some k') : Tame k k' := by
  have hsteady := steady_openStdinStdout h
  obtain ⟨p, -, rfl⟩ := Option.map_eq_some_iff.mp h
  exact .of_steady hsteady rfl rfl rfl rfl

theorem tame_restoreParent (k : Kernel) (p : Pid) : Tame k (k.restoreParent p) := by
  unfold restoreParent
  split
  · exact .refl k
  · exact .of_steady (steady_of_eq rfl rfl rfl rfl) rfl rfl rfl rfl

theorem tame_setRoot (k : Kernel) (p : Pid) : Tame k (k.setRoot p) := by
  unfold setRoot
  split
  · exact .of_steady (steady_of_eq rfl rfl rfl rfl) rfl rfl rfl rfl
  · exact .refl k

/-- The other shells are open already. -/
theorem openOtherShells_eq (h : k.pidArr 1 = true) (n : Pid) (eip inode : ℕ)
    (cmd args : List UInt8) : k.openOtherShells n eip inode cmd args = some (k, true) := by
  unfold openOtherShells
  rw [if_neg]
  rintro ⟨-, h1, -⟩
  exact h1 h

theorem tame_kclose {fd r : ℤ} (h : k.kclose fd = some (k', r)) : Tame k k' := by
  have hsteady := steady_kclose h
  obtain ⟨p, hp, h⟩ := Option.bind_eq_some_iff.mp h
  by_cases hrange : 2 ≤ fd ∧ fd < 8
  · rw [dif_pos hrange] at h
    dsimp only at h
    split at h
    · unfold opClose at h
      split at h
      · cases h
      · cases h
        exact .of_steady hsteady rfl rfl rfl rfl
      · cases h
        exact .of_steady hsteady rfl rfl rfl rfl
    · cases h
      exact .refl k
  · rw [dif_neg hrange] at h
    cases h
    exact .refl k

theorem tame_closeAll (h : k.closeAll = some k') : Tame k k' :=
  closeAll_rel Tame.refl (fun _ _ _ => Tame.trans) (fun _ _ _ _ => tame_kclose) h

theorem tame_detach (k : Kernel) (p : Pid) (status : UInt8) : Tame k (k.detach p status) := by
  have hsteady := steady_detach k p status
  unfold detach at hsteady ⊢
  dsimp only at hsteady ⊢
  split at hsteady <;> exact .of_steady hsteady rfl rfl rfl rfl

theorem tame_unschedule (k : Kernel) (n parent : Pid) :
    Tame k { k with queue := Schedule.unschedule k.queue n parent } := by
  refine .of_steady (steady_unschedule k n parent) rfl ?_ rfl rfl
  show (Schedule.unschedule k.queue n parent).currNode = _
  unfold Schedule.unschedule
  split <;> rfl

/-! ## The two calls -/

/-- `set_current_process(child)` -/
theorem Settled.setCurrent (h : Settled m) {c : ExecCall} {fs : List Frame}
    (hm : m.frames = .exec c .setCurrent :: fs) :
    Settled (m.goto (m.k.setCurrentProcess c.pid) (.exec c .openStd :: fs)) := by
  have hsteady := steady_setCurrentProcess m.k c.pid
  have hpid : (m.k.pcbs c.pid).pid = c.pid :=
    h.frames (.exec c .setCurrent) (by rw [hm]; exact List.mem_cons_self)
  have hparent := h.parent
  rw [ParentOk, hm] at hparent
  exact
    { registered := hsteady.registered h.registered
      shells := h.shells
      saved := fun p => (h.saved p).mono hsteady.pid
      currNode := h.currNode
      frames := h.toStacked.rest hm hsteady.pid trivial
      single := h.rest_eq_nil hm
      parent := fun cur hcur => by
        cases hcur
        have hkept : ((m.k.modifyPcb c.pid fun b => { b with files := clearFdarray b.files }).pcbs
            c.pid).parent = (m.k.pcbs c.pid).parent := field_modifyPcb Pcb.parent fun _ => rfl
        exact hkept.trans hparent
      current := fun hn => absurd rfl hn
      currPid := fun n hn => by
        cases hn
        exact hsteady.pid _ hpid }

/-- `get_esp_and_ebp` writes to the block of the process that runs. -/
theorem Settled.restoreParent (h : Settled m) {c : ExecCall} {fs : List Frame} {cur : Pid}
    (hm : m.frames = .exec c .restoreParent :: fs) (hcur : m.k.currProcess = some cur) :
    Settled { m.goto (m.k.restoreParent cur) (.exec c .schedule :: fs) with
      saved := m.saveParent cur fs } := by
  have ht := tame_restoreParent m.k cur
  have hgoto : Settled (m.goto (m.k.restoreParent cur) (.exec c .schedule :: fs)) :=
    h.advance hm ht trivial rfl trivial
  have hparent := h.parent
  rw [ParentOk, hm] at hparent
  have hsaved := saveParent_of_parent (hparent cur hcur) fs
  rw [h.rest_eq_nil hm] at hsaved hgoto ⊢
  rw [hsaved]
  refine { hgoto with saved := fun p => ?_ }
  by_cases hp : p = m.stack
  · subst hp
    simp only [Function.update_self]
    exact resumable_nil _ _
  · simp only [Function.update_of_ne hp]
    exact hgoto.saved p

/-- `schedule(curr_process->pid)` -/
theorem Settled.schedule (h : Settled m) {c : ExecCall} {fs : List Frame} {cur : Pid}
    (hm : m.frames = .exec c .schedule :: fs) (hcur : m.k.currProcess = some cur) :
    Settled { m.goto (m.k.schedule (m.k.pcbs cur).pid) (.exec c .openShells :: fs) with
      saved := Function.update m.saved (m.k.pcbs cur).pid ((m.k.pcbs cur).pid, []) } := by
  rw [h.currPid cur hcur]
  have hsteady := steady_schedule m.k (h.currPid cur hcur)
  exact
    { registered := hsteady.registered h.registered
      shells := h.shells
      saved := fun p => by
        by_cases hp : p = cur
        · subst hp
          simp only [Function.update_self]
          exact resumable_nil _ _
        · simp only [Function.update_of_ne hp]
          exact (h.saved p).mono hsteady.pid
      currNode := by
        show (Schedule.schedule m.k.queue cur _).currNode = _
        rw [Schedule.currNode_schedule]
        exact h.currNode
      frames := h.toStacked.rest hm hsteady.pid trivial
      single := h.rest_eq_nil hm
      parent := trivial
      current := fun hn => absurd rfl hn
      currPid := h.currPid }

/-- What the next statement of a call can do. -/
inductive Moves (m : Machine) : Machine → Prop
  /-- the innermost call goes on -/
  | advance {f f' : Frame} {fs : List Frame} {k' : Kernel} (hm : m.frames = f :: fs)
      (ht : Tame m.k k') (hf' : FrameOk k' m.stack f') (hchild : childOf f' = childOf f)
      (hparent : ParentOk (m.goto k' (f' :: fs))) : Moves m (m.goto k' (f' :: fs))
  /-- it returns -/
  | finish {f : Frame} {fs : List Frame} {k' : Kernel} (hm : m.frames = f :: fs)
      (ht : Tame m.k k') (hchild : ¬ForChild [f]) : Moves m (m.goto k' fs)
  | setCurrent {c : ExecCall} {fs : List Frame} (hm : m.frames = .exec c .setCurrent :: fs) :
      Moves m (m.goto (m.k.setCurrentProcess c.pid) (.exec c .openStd :: fs))
  | restoreParent {c : ExecCall} {fs : List Frame} {cur : Pid}
      (hm : m.frames = .exec c .restoreParent :: fs) (hcur : m.k.currProcess = some cur) :
      Moves m { m.goto (m.k.restoreParent cur) (.exec c .schedule :: fs) with
        saved := m.saveParent cur fs }
  | schedule {c : ExecCall} {fs : List Frame} {cur : Pid} (hm : m.frames = .exec c .schedule :: fs)
      (hcur : m.k.currProcess = some cur) :
      Moves m { m.goto (m.k.schedule (m.k.pcbs cur).pid) (.exec c .openShells :: fs) with
        saved := Function.update m.saved (m.k.pcbs cur).pid ((m.k.pcbs cur).pid, []) }
  | int32 {f f' : Frame} {fs : List Frame} {m' : Machine} {l : Option Label}
      (hm : m.frames = f :: fs) (hf' : FrameOk m.k m.stack f') (hchild : ¬ForChild [f'])
      (hlinks : ¬LinksParent [f']) (hi : (m.goto m.k (f' :: fs)).int32 = some (m', l)) : Moves m m'

theorem Settled.execNext (h : Settled m) {c : ExecCall} {fs : List Frame} {pc : ExecPc}
    {l : Option Label} (hm : m.frames = .exec c pc :: fs)
    (hn : m.execNext c fs pc = some (m', l)) : Moves m m' := by
  cases pc with
  | parse =>
    simp only [Machine.execNext] at hn
    split at hn
    · cases hn
      exact .finish hm (.refl _) Bool.false_ne_true
    · cases hn
      exact .advance hm (.refl _) trivial rfl trivial
  | enterPaging =>
    obtain ⟨k₁, hk₁, hn⟩ := Option.bind_eq_some_iff.mp hn
    cases hn
    exact .advance hm (tame_enterPaging hk₁) trivial rfl trivial
  | load =>
    obtain ⟨⟨k₁, ok⟩, hk₁, hn⟩ := Option.bind_eq_some_iff.mp hn
    have htame := tame_loadProgram hk₁
    dsimp only at hn
    split at hn
    · cases hn
      exact .advance hm htame trivial rfl trivial
    · cases hn
      exact .finish hm htame Bool.false_ne_true
  | mark =>
    cases hn
    exact .advance hm (tame_markPid _ _) trivial rfl trivial
  | pcbInit =>
    cases hn
    -- the parent is the current process, which is the one that runs
    have hcur := (h.current (by rw [hm]; exact Bool.false_ne_true)).1
    refine .advance hm (tame_pcbInit ..) (steady_pcbInit m.k c.pid _ _ _).2 rfl ?_
    exact (pcbInit_self m.k c.pid _ _ _).2.1.trans hcur
  | setCurrent =>
    cases hn
    exact .setCurrent hm
  | openStd =>
    obtain ⟨k₁, hk₁, hn⟩ := Option.bind_eq_some_iff.mp hn
    cases hn
    have hparent := h.parent
    rw [ParentOk, hm] at hparent
    have htame := tame_openStdinStdout hk₁
    refine .advance hm htame trivial rfl fun cur hcur => ?_
    have hold := hparent cur (htame.currProcess.symm.trans hcur)
    have hkept : (k₁.pcbs cur).parent = (m.k.pcbs cur).parent := by
      obtain ⟨p, -, rfl⟩ := Option.map_eq_some_iff.mp hk₁
      have hmodify : ∀ (k : Kernel) (i : Fin 8) (f : FileDescriptor → FileDescriptor),
          ((k.modifyFile p i f).pcbs cur).parent = (k.pcbs cur).parent :=
        fun _ _ _ => field_modifyPcb Pcb.parent fun _ => rfl
      exact (hmodify _ _ _).trans (hmodify _ _ _)
    exact hkept.trans hold
  | restoreParent =>
    obtain ⟨cur, hcur, hn⟩ := Option.bind_eq_some_iff.mp hn
    cases hn
    exact .restoreParent hm hcur
  | schedule =>
    obtain ⟨cur, hcur, hn⟩ := Option.bind_eq_some_iff.mp hn
    cases hn
    exact .schedule hm hcur
  | openShells =>
    -- the other shells run since boot, so no shell is opened
    have hopen : (m.k.setRoot c.pid).pidArr 1 = true :=
      (tame_setRoot m.k c.pid).shells 1 (by decide) (h.shells 1 (by decide))
    simp only [Machine.execNext, openOtherShells_eq hopen, Option.bind_eq_bind, Option.bind_some] at hn
    cases hn
    exact .advance hm (tame_setRoot _ _) trivial rfl trivial
  | int32 =>
    refine .int32 hm ?_ ?_ ?_ hn
    · exact trivial
    · exact Bool.false_ne_true
    · exact Bool.false_ne_true
  | ret =>
    obtain ⟨cur, -, hn⟩ := Option.bind_eq_some_iff.mp hn
    cases hn
    exact .finish hm (.refl _) Bool.false_ne_true

theorem Settled.haltNext (h : Settled m) {e : Ending} {parent : Option Pid} {fs : List Frame}
    {pc : HaltPc} {l : Option Label} (hm : m.frames = .halting e parent pc :: fs)
    (hn : m.haltNext e parent fs pc = some (m', l)) : Moves m m' := by
  have hlt : 2 < m.stack :=
    h.frames (.halting e parent pc) (by rw [hm]; exact List.mem_cons_self)
  have hgo : ∀ {k' : Kernel} {pc' : HaltPc}, Tame m.k k' →
      Moves m (m.goto k' (.halting e parent pc' :: fs)) := fun ht => .advance hm ht hlt rfl trivial
  cases pc with
  | clear =>
    obtain ⟨cur, hcur, hn⟩ := Option.bind_eq_some_iff.mp hn
    cases hn
    have hstack := h.current_pid (by rw [hm]; exact id) hcur
    have hsteady : Steady m.k (m.k.markPid (m.k.pcbs cur).pid false) := steady_of_eq rfl rfl rfl rfl
    refine hgo ⟨hsteady.pid, hsteady.registered, fun p hp hmark => ?_, rfl, rfl, rfl⟩
    -- the process that ends is not a shell
    show Function.update m.k.pidArr _ false p = true
    rw [hstack, Function.update_of_ne (ne_of_lt (lt_of_le_of_lt hp hlt))]
    exact hmark
  | unmap =>
    obtain ⟨cur, -, hn⟩ := Option.bind_eq_some_iff.mp hn
    cases hn
    exact hgo (.of_steady (steady_of_eq rfl rfl rfl rfl) rfl rfl rfl rfl)
  | close =>
    obtain ⟨k₁, hk₁, hn⟩ := Option.bind_eq_some_iff.mp hn
    cases hn
    exact hgo (tame_closeAll hk₁)
  | detach =>
    obtain ⟨cur, -, hn⟩ := Option.bind_eq_some_iff.mp hn
    obtain ⟨_, -, hn⟩ := Option.bind_eq_some_iff.mp hn
    cases hn
    exact hgo (tame_detach _ _ _)
  | deliver =>
    obtain ⟨q, -, hn⟩ := Option.bind_eq_some_iff.mp hn
    cases hn
    refine hgo (.of_steady ?_ rfl rfl rfl rfl)
    exact (Steady.refl m.k).files fun _ => ⟨rfl, Or.inl rfl⟩
  | unschedule =>
    obtain ⟨cur, -, hn⟩ := Option.bind_eq_some_iff.mp hn
    obtain ⟨q, -, hn⟩ := Option.bind_eq_some_iff.mp hn
    cases hn
    exact hgo (tame_unschedule _ _ _)
  | int32 =>
    refine .int32 hm ?_ ?_ ?_ hn
    · exact hlt
    · exact id
    · exact id
  | ret =>
    cases hn
    exact .finish hm (.refl _) id

theorem Settled.next (h : Settled m) {l : Option Label} (hn : m.next = some (m', l)) :
    Moves m m' := by
  unfold Machine.next at hn
  split at hn
  · cases hn
  · rename_i command st idx fs hm
    have hscan := Option.some.inj hn
    unfold Machine.scanNext at hscan
    split at hscan
    · split at hscan
      · cases hscan
        exact .advance hm (.refl _) trivial rfl trivial
      · cases hscan
        exact .advance hm (.refl _) trivial rfl trivial
    · cases hscan
      exact .finish hm (.refl _) id
  · rename_i c pc fs hm
    exact h.execNext hm hn
  · rename_i e fs hm
    obtain ⟨cur, hcur, hn⟩ := Option.bind_eq_some_iff.mp hn
    split at hn
    · rename_i hlt
      cases hn
      rw [h.current_pid (by rw [hm]; exact id) hcur] at hlt
      exact .advance hm (.refl _) hlt rfl trivial
    · cases hn
      exact .finish hm (.refl _) id
  · rename_i e parent pc fs hm
    exact h.haltNext hm hn
  · rename_i x fs hm
    exact absurd (h.frames (.pit x false) (by rw [hm]; exact List.mem_cons_self)) id
  · rename_i x fs hm
    exact absurd (h.frames (.pit x true) (by rw [hm]; exact List.mem_cons_self)) id

/-- What an event leads to. -/
def Next (m : Machine) : Prop := Settled m ∨ ∃ q, Handling m q false

theorem Settled.moves (h : Settled m) (hmoves : Moves m m') : Next m' := by
  cases hmoves with
  | advance hm ht hf' hchild hparent => exact .inl (h.advance hm ht hf' hchild hparent)
  | finish hm ht hchild => exact .inl (h.return hm ht hchild)
  | setCurrent hm => exact .inl (h.setCurrent hm)
  | restoreParent hm hcur => exact .inl (h.restoreParent hm hcur)
  | schedule hm hcur => exact .inl (h.schedule hm hcur)
  | @int32 f f' fs _ l hm hf' hchild hlinks hi =>
    have hstacked : Stacked (m.goto m.k (f' :: fs)) :=
      { registered := h.registered
        shells := h.shells
        saved := h.saved
        currNode := h.currNode
        frames := h.toStacked.rest hm (fun _ hp => hp) hf'
        single := h.rest_eq_nil hm }
    refine .inr (hstacked.int32 ?_ hi)
    cases f' with
    | exec c pc => exact hlinks
    | _ => exact id

theorem Settled.call (h : Settled m) {f : Frame} {l : Option Label}
    (hn : m.call f = some (m', l)) (hf : FrameOk m.k m.stack f) (hl : ¬LinksParent [f]) :
    Settled m' := by
  obtain ⟨hempty, heq⟩ := Option.ite_none_right_eq_some.mp hn
  cases heq
  refine h.goto (.refl _) (fun g hg => ?_) rfl (fun hc => ?_) (parentOk_of_not_linksParent hl)
  · rw [List.mem_singleton.mp hg]
    exact hf
  · rw [List.isEmpty_iff.mp hempty] at hc
    exact absurd hc id

/-! ## Runs -/

/-- The processor is in `pit_handler` after an `int $32`. -/
def Handles : List Frame → Prop
  | .pit _ _ :: _ => True
  | _ => False

instance : DecidablePred Handles
  | .pit _ _ :: _ => isTrue trivial
  | [] | .scan _ _ _ :: _ | .exec _ _ :: _ | .halt _ :: _ | .halting _ _ _ :: _ => isFalse id

/-- No hardware tick comes inside the handler, nor in `kexecute` from `pcb_init` to
`get_esp_and_ebp`. -/
def TicksOutside (m : Machine) : Event → Prop
  | .tick => ¬Handles m.frames ∧ ¬LinksParent m.frames
  | _ => True

instance (m : Machine) (e : Event) : Decidable (TicksOutside m e) := by
  cases e <;> unfold TicksOutside <;> infer_instance

/-- The handler has only the stack left to change. -/
def Committed : List Frame → Prop
  | .pit _ true :: _ => True
  | _ => False

instance : DecidablePred Committed
  | .pit _ true :: _ => isTrue trivial
  | [] | .scan _ _ _ :: _ | .exec _ _ :: _ | .halt _ :: _ | .halting _ _ _ :: _
  | .pit _ false :: _ => isFalse id

/-- An activation of `pit_handler` ends with this event. -/
def Finishes (m : Machine) : Event → Prop
  | .tick => True
  | .statement => Committed m.frames
  | _ => False

instance (m : Machine) (e : Event) : Decidable (Finishes m e) := by
  cases e <;> unfold Finishes <;> infer_instance

/-- The invariant. -/
def Orderly (m : Machine) : Prop := Settled m ∨ ∃ q b, Handling m q b

theorem Next.orderly (h : Next m) : Orderly m :=
  h.imp_right fun ⟨q, hq⟩ => ⟨q, false, hq⟩

theorem Handling.handles {b : Bool} (h : Handling m q b) : Handles m.frames := by
  obtain ⟨rest, hframes⟩ := h.frames
  rw [hframes]
  trivial

theorem Orderly.exec (h : Orderly m) {e : Event} {r : Machine × Option Label}
    (hok : TicksOutside m e) (hr : m.exec e = some r) :
    Orderly r.1 ∧ (Finishes m e → Agrees r.1.k r.1.stack) := by
  obtain ⟨m', l⟩ := r
  rcases h with h | ⟨q, b, h⟩
  · -- no handler is under way: a tick runs one from its start to its end
    cases e with
    | tick =>
      obtain ⟨m₁, ht, heq⟩ := Option.map_eq_some_iff.mp hr
      cases heq
      obtain ⟨hsettled, hagrees⟩ := h.toStacked.tick hok.2 ht
      exact ⟨.inl hsettled, fun _ => hagrees⟩
    | statement =>
      refine ⟨(h.moves (h.next hr)).orderly, fun hcommitted => ?_⟩
      change Committed m.frames at hcommitted
      unfold Committed at hcommitted
      split at hcommitted
      · rename_i x rest hm
        exact absurd (h.frames (.pit x true) (by rw [hm]; exact List.mem_cons_self)) id
      · cases hcommitted
    | kexecute command st => exact ⟨.inl (h.call hr trivial id), fun hf => absurd hf id⟩
    | khalt e => exact ⟨.inl (h.call hr trivial id), fun hf => absurd hf id⟩
  · -- inside the handler of an `int $32`: its statements are the only events left
    obtain ⟨rest, hframes⟩ := h.frames
    cases e with
    | tick => exact absurd h.handles hok.1
    | statement =>
      obtain ⟨hfirst, hlast⟩ := h.next hr
      cases b with
      | false =>
        refine ⟨.inr ⟨q, true, hfirst rfl⟩, fun hcommitted => ?_⟩
        change Committed m.frames at hcommitted
        rw [hframes] at hcommitted
        exact absurd hcommitted id
      | true => exact ⟨.inl (hlast rfl).1, fun _ => (hlast rfl).2⟩
    | kexecute command st =>
      obtain ⟨hempty, -⟩ := Option.ite_none_right_eq_some.mp hr
      rw [hframes] at hempty
      cases hempty
    | khalt e =>
      obtain ⟨hempty, -⟩ := Option.ite_none_right_eq_some.mp hr
      rw [hframes] at hempty
      cases hempty

theorem settled_boot (h : system.init m) : Settled m := by
  obtain ⟨⟨lay, img, pcbs, regA, phys, st, hboot⟩, hstack, hframes, hsaved⟩ := h
  have hbooted := boot_spec hboot
  have hregistered : m.k.Registered := by
    unfold boot at hboot
    split at hboot
    · rename_i hexec
      cases hboot
      refine (steady_kexecute hexec).registered ⟨rfl, fun n p hp => ?_⟩
      cases hp
    · cases hboot
  exact
    { registered := hregistered
      shells := fun p hp => (hbooted.pidArr p).mpr hp
      saved := fun p => by
        rw [hsaved p]
        exact resumable_nil _ _
      currNode := by rw [hstack, hbooted.currNode]
      frames := fun f hf => by
        rw [hframes] at hf
        exact absurd hf List.not_mem_nil
      single := by rw [hframes]; rfl
      parent := parentOk_of_not_linksParent (by rw [hframes]; exact id)
      current := fun _ => by
        rw [hstack]
        exact ⟨hbooted.currProcess, hbooted.desc⟩
      currPid := fun c hc => by
        rw [hbooted.currProcess] at hc
        cases hc
        exact hbooted.pid 0 (by decide) }

theorem orderly_of_reach (h : Run.Reach system TicksOutside m) : Orderly m := by
  refine h.invariant (fun m hm => .inl (settled_boot hm)) fun m e m' hinv hok hstep => ?_
  obtain ⟨r, hr, rfl⟩ := Option.map_eq_some_iff.mp hstep
  exact (hinv.exec hok hr).1

/-- Whenever an activation of `pit_handler` ends and a process goes on, `curr_node`, `curr_process`,
`desc`, `tss.esp0` and the page directory are those of the process, in every run without ticks at the
two places. -/
theorem globals_agree (h : Run.Reach system TicksOutside m) {e : Event} (hok : TicksOutside m e)
    (hf : Finishes m e) (hstep : system.step m e = some m') : Agrees m'.k m'.stack := by
  obtain ⟨r, hr, rfl⟩ := Option.map_eq_some_iff.mp hstep
  exact ((orderly_of_reach h).exec hok hr).2 hf

/-- A machine that the sample machine reaches. -/
theorem sampleMachine_reach {ok : Machine → Event → Prop} {m₀ : Machine} {es : List Event}
    (h : sampleMachine = some m₀) (hall : system.Allowed ok m₀ es)
    (hrun : system.run m₀ es = some m) : Run.Reach system ok m :=
  (Run.Reach.init (sampleMachine_init h)).run hall hrun

/-- A shell starts a program; its `int $32` goes through without a tick. -/
def startRun : List Event := execShell :: List.replicate 16 .statement

theorem globals_agree_start : ∃ m m', Run.Reach system TicksOutside m ∧
    system.step m .statement = some m' ∧ m'.stack = 1 ∧ Agrees m'.k m'.stack := by
  have heval : sampleMachine.map (fun m₀ => decide (system.Allowed TicksOutside m₀ startRun) &&
      (system.run m₀ startRun).any fun m => decide (Finishes m .statement) &&
        (system.step m .statement).any fun m' => m'.stack = (1 : Pid)) = some true := by
    decide +kernel
  obtain ⟨m₀, hm₀, hfacts⟩ := Option.map_eq_some_iff.mp heval
  simp only [Bool.and_eq_true, decide_eq_true_eq, Option.any_eq_true] at hfacts
  obtain ⟨hall, m, hm, hfin, m', hm', hstack⟩ := hfacts
  have hreach := sampleMachine_reach hm₀ hall hm
  have hok : TicksOutside m .statement := trivial
  exact ⟨m, m', hreach, hm', hstack, globals_agree hreach hok hfin hm'⟩

/-- A tick right after the `sti` of `switch_paging` in the `int $32` of `kexecute`. The program runs
and ends, and then the shell goes on in its handler. -/
def nestedRun : List Event :=
  execShell :: List.replicate 15 .statement ++ [.tick, .tick, .tick, .khalt (.halt 0)] ++
    List.replicate 11 .statement

/-- The handler hands the processor to process 1, but process 0 is current. -/
theorem globals_agree_nested : ∃ m m', Run.Reach system Run.Free m ∧ Finishes m .statement ∧
    system.step m .statement = some m' ∧ m'.stack = 1 ∧ m'.k.queue.currNode = .task 1 ∧
    m'.k.currProcess = some 0 ∧ m'.k.desc = some 0 ∧ m'.k.cr3 = some 0 ∧
    m'.k.esp0 = (m'.k.pcbs 0).kernelStack ∧ m'.k.esp0 ≠ (m'.k.pcbs 1).kernelStack := by
  have heval : sampleMachine.map (fun m₀ => (system.run m₀ nestedRun).any fun m =>
      decide (Finishes m .statement) && (system.step m .statement).any fun m' =>
        decide (m'.stack = (1 : Pid) ∧ m'.k.queue.currNode = .task 1 ∧
          m'.k.currProcess = some (0 : Pid) ∧ m'.k.desc = some (0 : Pid) ∧
          m'.k.cr3 = some (0 : Pid) ∧ m'.k.esp0 = (m'.k.pcbs 0).kernelStack ∧
          m'.k.esp0 ≠ (m'.k.pcbs 1).kernelStack)) = some true := by
    decide +kernel
  obtain ⟨m₀, hm₀, hfacts⟩ := Option.map_eq_some_iff.mp heval
  simp only [Bool.and_eq_true, decide_eq_true_eq, Option.any_eq_true] at hfacts
  obtain ⟨m, hm, hfin, m', hm', hvalues⟩ := hfacts
  exact ⟨m, m', sampleMachine_reach hm₀ (system.allowed_free _ _) hm, hfin, hm', hvalues⟩

end Machine
end GalapagOS
