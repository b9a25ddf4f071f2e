import GalapagOS.Machine.FileCalls
import GalapagOS.Machine.Globals

/-!
# System calls under preemption

The machine together with the file calls that processes are in. When the scheduler comes back to
a process, `curr_process` and `desc` are those of the process. So a call finds them as it left
them, if it was working for its own process: file calls always do, and `kexecute` does except
from `pcb_init` to its `int $32`.
-/

namespace GalapagOS
namespace Machine

open Kernel

variable {k k' : Kernel} {m m' : Machine} {p q : Pid}

/-! ## The machine with file calls -/

/-- The machine, and the file call that each process is in. -/
structure Preemptible where
  m : Machine
  files : Pid → Option FileFrame

namespace Preemptible

/-- An event of the machine, or of a file call of the running process. -/
inductive Event where
  | machine (e : Machine.Event)
  | fileCall (c : Call)
  | fileStatement

/-- What is left of a file call. -/
def remaining : Progress → Option FileFrame
  | .goOn f => some f
  | .done _ => none

/-- A process in a file call makes no other call. The tick does not ask. -/
def exec (s : Preemptible) : Event → Option Preemptible
  | .machine .tick => s.m.tick.map fun m' => { s with m := m' }
  | .machine e =>
    if (s.files s.m.stack).isNone then (s.m.exec e).map fun r => { s with m := r.1 } else none
  | .fileCall c =>
    if s.m.frames.isEmpty ∧ (s.files s.m.stack).isNone then
      some { s with files := Function.update s.files s.m.stack (some (.start c)) }
    else none
  | .fileStatement =>
    if s.m.frames.isEmpty then do
      let f ← s.files s.m.stack
      let (k', prog) ← f.next s.m.k
      pure { m := { s.m with k := k' },
             files := Function.update s.files s.m.stack (remaining prog) }
    else none

def system : Run.System Preemptible Event where
  init s := Machine.system.init s.m ∧ ∀ p, s.files p = none
  step s e := s.exec e

/-- No tick comes inside the handler, or in `kexecute` from `pcb_init` to its `int $32`. -/
def Careful (s : Preemptible) : Event → Prop
  | .machine .tick => ¬Handles s.m.frames ∧ ¬LinksParent s.m.frames ∧ ¬ForChild s.m.frames
  | _ => True

end Preemptible

instance : DecidablePred ForChild
  | .exec _ pc :: _ => inferInstanceAs (Decidable (forChild pc = true))
  | [] | .scan _ _ _ :: _ | .halt _ :: _ | .halting _ _ _ :: _ | .pit _ _ :: _ => isFalse id

instance (s : Preemptible) (e : Preemptible.Event) : Decidable (s.Careful e) := by
  unfold Preemptible.Careful
  split <;> infer_instance

/-! ## File statements -/

/-- Changes of descriptors, drivers and memory. -/
theorem Tame.of_files (hpidArr : k'.pidArr = k.pidArr) (hqueue : k'.queue = k.queue)
    (hcur : k'.currProcess = k.currProcess) (hdesc : k'.desc = k.desc)
    (hpid : ∀ n, (k'.pcbs n).pid = (k.pcbs n).pid) : Tame k k' where
  pid n hn := (hpid n).trans hn
  registered h := by
    refine ⟨by rw [hqueue]; exact h.sentinel, fun n p hp => ?_⟩
    rw [hqueue] at hp
    rw [hpid]
    exact h.process n p hp
  shells p _ hp := by rwa [hpidArr]
  currNode := by rw [hqueue]
  currProcess := hcur
  desc := hdesc

theorem tame_modifyFile (k : Kernel) (p : Pid) (i : Fin 8) (f : FileDescriptor → FileDescriptor) :
    Tame k (k.modifyFile p i f) :=
  .of_files rfl rfl rfl rfl fun _ => field_modifyPcb Pcb.pid fun _ => rfl

theorem tame_incrementPosition (k : Kernel) (p : Pid) (inode : ℕ) (amt : ℤ) :
    Tame k (k.incrementPosition p inode amt) := by
  unfold incrementPosition
  split
  · exact .refl k
  · exact .of_files rfl rfl rfl rfl fun _ => field_modifyPcb Pcb.pid fun _ => rfl

theorem tame_opRead {d : FileDescriptor} {n buf : ℕ} {r : FileSystem.ReadResult}
    (h : k.opRead p d n buf = some (k', r)) : Tame k k' := by
  unfold opRead at h
  split at h
  · cases h
  · cases h
    exact .refl k
  · cases h
    exact .of_files rfl rfl rfl rfl fun _ => rfl
  · unfold fsRead at h
    split at h
    · cases h
      exact .refl k
    · cases h
      exact tame_incrementPosition k p _ _
  · obtain ⟨x, -, heq⟩ := Option.map_eq_some_iff.mp h
    cases heq
    exact .of_files rfl rfl rfl rfl fun _ => rfl

theorem tame_opWrite {d : FileDescriptor} {buf : ℕ → UInt8} {n : ℕ} {r : ℤ}
    (h : k.opWrite d buf n = some (k', r)) : Tame k k' := by
  unfold opWrite at h
  split at h
  · cases h
  · unfold rtcWrite at h
    split at h <;> cases h <;> exact .of_files rfl rfl rfl rfl fun _ => rfl
  · cases h
    exact .refl k
  · cases h
    exact .refl k
  · obtain ⟨m, rfl⟩ := terminalWrite_eq_some h
    exact .of_files rfl rfl rfl rfl fun _ => rfl

theorem tame_opClose {ops : Option OpTable} {r : ℤ} (h : k.opClose ops = some (k', r)) :
    Tame k k' := by
  unfold opClose at h
  split at h
  · cases h
  · cases h
    exact .of_files rfl rfl rfl rfl fun _ => rfl
  · cases h
    exact .refl k

/-- No statement of a file call touches what the scheduler uses, `curr_process` or `desc`. -/
theorem FileFrame.tame {f : FileFrame} {prog : Progress} (h : f.next k = some (k', prog)) :
    Tame k k' := by
  cases f with
  | openScan name i =>
    obtain ⟨p, -, h⟩ := Option.bind_eq_some_iff.mp h
    split at h
    · split at h <;> cases h <;> exact .refl k
    · cases h
      exact .refl k
  | openLookup name i =>
    simp only [FileFrame.next] at h
    split at h <;> cases h <;> exact .refl k
  | openInit data i =>
    obtain ⟨p, -, h⟩ := Option.bind_eq_some_iff.mp h
    split at h
    · cases h
      exact .refl k
    · rename_i k₁ hinit
      cases h
      obtain ⟨-, e, rfl, -⟩ := fdInit_eq_some hinit
      exact tame_modifyFile k p i _
  | readCheck fd buf nbytes =>
    obtain ⟨p, -, h⟩ := Option.bind_eq_some_iff.mp h
    split at h
    · cases h
      exact .refl k
    · split at h <;> cases h <;> exact .refl k
  | readCall i buf nbytes =>
    obtain ⟨p, -, h⟩ := Option.bind_eq_some_iff.mp h
    dsimp only at h
    split at h
    · cases h
      exact .refl k
    · cases h
      exact .refl k
    · obtain ⟨x, hx, heq⟩ := Option.map_eq_some_iff.mp h
      cases heq
      exact tame_opRead hx
  | fsData ptr offset count buf =>
    simp only [FileFrame.next] at h
    split at h <;> cases h <;> exact .refl k
  | fsPosition ptr r =>
    obtain ⟨p, -, h⟩ := Option.bind_eq_some_iff.mp h
    cases h
    exact tame_incrementPosition k p _ _
  | terminalLine terminal count =>
    obtain ⟨x, -, heq⟩ := Option.map_eq_some_iff.mp h
    cases heq
    exact .of_files rfl rfl rfl rfl fun _ => rfl
  | writeCheck fd buf nbytes =>
    obtain ⟨p, -, h⟩ := Option.bind_eq_some_iff.mp h
    split at h
    · cases h
      exact .refl k
    · split at h
      · cases h
        exact .refl k
      · split at h <;> cases h <;> exact .refl k
  | writeCall i buf nbytes =>
    obtain ⟨p, -, h⟩ := Option.bind_eq_some_iff.mp h
    obtain ⟨x, hx, heq⟩ := Option.map_eq_some_iff.mp h
    cases heq
    exact tame_opWrite hx
  | closeCheck fd =>
    obtain ⟨p, -, h⟩ := Option.bind_eq_some_iff.mp h
    split at h
    · split at h
      · split at h <;> cases h <;> exact .refl k
      · cases h
        exact .refl k
    · cases h
      exact .refl k
  | closeFree i =>
    obtain ⟨p, -, h⟩ := Option.bind_eq_some_iff.mp h
    cases h
    exact tame_modifyFile k p i _
  | closeCall operations =>
    obtain ⟨x, hx, heq⟩ := Option.map_eq_some_iff.mp h
    cases heq
    exact tame_opClose hx

/-! ## Working for the child -/

/-- While `kexecute` works for the child, the child is current; and no call that works for a child
is left waiting. -/
structure Working (m : Machine) : Prop where
  child : ∀ c pc rest, m.frames = .exec c pc :: rest → forChild pc = true →
    m.k.currProcess = some c.pid ∧ m.k.desc = some c.pid
  below : ∀ f ∈ m.frames.tail, ¬ForChild [f]
  saved : ∀ p, ∀ f ∈ (m.saved p).2, ¬ForChild [f]

variable {f f' : Frame} {fs : List Frame}

theorem Working.rest (h : Working m) (hm : m.frames = f :: fs) : ∀ g ∈ fs, ¬ForChild [g] := by
  have hbelow := h.below
  rw [hm] at hbelow
  exact hbelow

theorem Working.current (h : Working m) (hm : m.frames = f :: fs) {n : Pid}
    (hn : childOf f = some n) : m.k.currProcess = some n ∧ m.k.desc = some n := by
  cases f with
  | exec c pc =>
    obtain ⟨hpc, heq⟩ := Option.ite_none_right_eq_some.mp hn
    cases heq
    exact h.child c pc fs hm hpc
  | _ => cases hn

/-- A call at the top of the stack, over calls that work for no child. -/
theorem Working.goto (h : Working m) (hfs : ∀ g ∈ fs, ¬ForChild [g])
    (hchild : ∀ n, childOf f = some n → k'.currProcess = some n ∧ k'.desc = some n) :
    Working (m.goto k' (f :: fs)) where
  child c pc rest hframes hpc := by
    cases hframes
    exact hchild c.pid (if_pos hpc)
  below := hfs
  saved := h.saved

theorem Working.return (h : Working m) (hm : m.frames = f :: fs) : Working (m.goto k' fs) := by
  refine ⟨fun c pc rest hframes hpc => ?_, fun g hg => h.rest hm g (List.mem_of_mem_tail hg), h.saved⟩
  change fs = _ at hframes
  exact absurd hpc (h.rest hm (.exec c pc) (by rw [hframes]; exact List.mem_cons_self))

/-- The stack that the handler leaves holds no call that works for a child. -/
theorem Working.pitEnter {x : Schedule.Node} (h : Working m)
    (hframes : ∀ f ∈ m.frames, ¬ForChild [f]) (he : m.pitEnter = some (m', x)) :
    m'.frames = m.frames ∧ ∀ p, ∀ f ∈ (m'.saved p).2, ¬ForChild [f] := by
  obtain ⟨_, -, he⟩ := Option.bind_eq_some_iff.mp he
  obtain ⟨q, -, he⟩ := Option.bind_eq_some_iff.mp he
  cases he
  refine ⟨rfl, fun p => ?_⟩
  by_cases hp : p = q
  · subst hp
    simp only [Function.update_self]
    exact hframes
  · simp only [Function.update_of_ne hp]
    exact h.saved p

theorem working_pitLoad (hsaved : ∀ p, ∀ f ∈ (m.saved p).2, ¬ForChild [f])
    (hload : m.pitLoad = some m') : Working m' := by
  obtain ⟨q, -, hload⟩ := Option.bind_eq_some_iff.mp hload
  cases hload
  refine ⟨fun c pc rest hframes hpc => ?_, fun f hf => hsaved q f (List.mem_of_mem_tail hf), hsaved⟩
  change (m.saved q).2 = _ at hframes
  exact absurd hpc (hsaved q (.exec c pc) (by rw [hframes]; exact List.mem_cons_self))

theorem Working.tick (h : Working m) (hframes : ¬ForChild m.frames) (ht : m.tick = some m') :
    Working m' := by
  obtain ⟨⟨m₁, x⟩, henter, hload⟩ := Option.bind_eq_some_iff.mp ht
  have hall : ∀ f ∈ m.frames, ¬ForChild [f] := by
    intro g hg
    have hbelow := h.below
    cases hm : m.frames with
    | nil =>
      rw [hm] at hg
      cases hg
    | cons f fs =>
      rw [hm] at hg hbelow hframes
      rcases List.mem_cons.mp hg with rfl | hg
      · cases g with
        | exec c pc => exact hframes
        | _ => exact id
      · exact hbelow g hg
  have hload' : (m₁.pitCommit x).pitLoad = some m' := hload
  refine working_pitLoad ?_ hload'
  exact (h.pitEnter hall henter).2

theorem Working.int32 (h : Working m) (hm : m.frames = f :: fs) (hf' : ¬ForChild [f'])
    {l : Option Label} (hi : (m.goto m.k (f' :: fs)).int32 = some (m', l)) : Working m' := by
  obtain ⟨⟨m₁, x⟩, henter, hi⟩ := Option.bind_eq_some_iff.mp hi
  cases hi
  have hall : ∀ g ∈ f' :: fs, ¬ForChild [g] := by
    intro g hg
    rcases List.mem_cons.mp hg with rfl | hg
    · exact hf'
    · exact h.rest hm g hg
  have hgoto : Working (m.goto m.k (f' :: fs)) := by
    refine h.goto (h.rest hm) fun n hn => ?_
    rw [childOf_eq_none.mpr hf'] at hn
    cases hn
  obtain ⟨hframes, hsaved⟩ := hgoto.pitEnter hall henter
  refine ⟨fun c pc rest hcons _ => ?_, ?_, hsaved⟩
  · cases hcons
  · show ∀ g ∈ m₁.frames, ¬ForChild [g]
    rw [hframes]
    exact hall

theorem Working.moves (h : Working m) (hmoves : Moves m m') : Working m' := by
  cases hmoves with
  | advance hm ht _ hchild _ =>
    refine h.goto (h.rest hm) fun n hn => ?_
    obtain ⟨hcur, hdesc⟩ := h.current hm (hchild.symm.trans hn)
    exact ⟨ht.currProcess.trans hcur, ht.desc.trans hdesc⟩
  | finish hm _ _ => exact h.return hm
  | @setCurrent c fs hm =>
    refine h.goto (h.rest hm) fun n hn => ?_
    cases hn
    exact ⟨rfl, rfl⟩
  | @restoreParent c fs cur hm hcur =>
    have ht := tame_restoreParent m.k cur
    have hgoto : Working (m.goto (m.k.restoreParent cur) (.exec c .schedule :: fs)) :=
      h.goto (h.rest hm) fun n hn => by
        obtain ⟨hcur', hdesc⟩ := h.current hm hn
        exact ⟨ht.currProcess.trans hcur', ht.desc.trans hdesc⟩
    refine ⟨hgoto.child, hgoto.below, fun p g hg => ?_⟩
    change g ∈ (m.saveParent cur fs p).2 at hg
    -- whichever block is stored to, the calls below this one are of no child
    rcases m.saveParent_cases cur fs p with hsaved | hsaved
    · rw [hsaved] at hg
      exact h.saved p g hg
    · rw [hsaved] at hg
      exact h.rest hm g hg
  | @schedule c fs cur hm _ =>
    have hgoto : Working (m.goto (m.k.schedule (m.k.pcbs cur).pid) (.exec c .openShells :: fs)) :=
      h.goto (h.rest hm) fun n hn => h.current hm hn
    refine ⟨hgoto.child, hgoto.below, fun p g hg => ?_⟩
    by_cases hp : p = (m.k.pcbs cur).pid
    · subst hp
      simp at hg
    · simp only [Function.update_of_ne hp] at hg
      exact h.saved p g hg
  | int32 hm _ hchild _ hi => exact h.int32 hm hchild hi

theorem Working.next (h : Working m) (hs : Orderly m) {l : Option Label}
    (hn : m.next = some (m', l)) : Working m' := by
  rcases hs with hs | ⟨q, b, hs⟩
  · exact h.moves (hs.next hn)
  · obtain ⟨rest, hm⟩ := hs.frames
    unfold Machine.next at hn
    rw [hm] at hn
    cases b with
    | false =>
      cases hn
      exact h.goto (h.rest hm) fun n hn => nomatch hn
    | true =>
      obtain ⟨m₁, hload, heq⟩ := Option.map_eq_some_iff.mp hn
      cases heq
      exact working_pitLoad h.saved hload

theorem Working.call (h : Working m) {l : Option Label} (hf : ¬ForChild [f])
    (hn : m.call f = some (m', l)) : Working m' := by
  obtain ⟨-, heq⟩ := Option.ite_none_right_eq_some.mp hn
  cases heq
  refine ⟨fun c pc rest hframes hpc => ?_, fun g hg => absurd hg List.not_mem_nil, h.saved⟩
  cases hframes
  exact absurd hpc hf

theorem Working.exec (h : Working m) (hs : Orderly m) {e : Event} {r : Machine × Option Label}
    (hok : e = .tick → ¬ForChild m.frames) (hr : m.exec e = some r) : Working r.1 := by
  obtain ⟨m', l⟩ := r
  cases e with
  | tick =>
    obtain ⟨m₁, ht, heq⟩ := Option.map_eq_some_iff.mp hr
    cases heq
    exact h.tick (hok rfl) ht
  | statement => exact h.next hs hr
  | kexecute command st => exact h.call id hr
  | khalt e => exact h.call id hr

/-! ## Runs -/

namespace Preemptible

variable {s s' : Preemptible}

/-- The invariant. -/
structure Ok (s : Preemptible) : Prop where
  orderly : Orderly s.m
  working : Working s.m

theorem ok_of_init (h : system.init s) : s.Ok := by
  have hsettled := settled_boot h.1
  obtain ⟨⟨-, -, hframes, hsaved⟩, -⟩ := h
  refine ⟨.inl hsettled, fun c pc rest hcons => ?_, fun f hf => ?_, fun p f hf => ?_⟩
  · rw [hframes] at hcons
    cases hcons
  · rw [hframes] at hf
    cases hf
  · rw [hsaved p] at hf
    cases hf

/-- An event of the machine, and what the scheduler has done if it ends an activation. -/
theorem Ok.machine (h : s.Ok) {e : Machine.Event} (hok : s.Careful (.machine e))
    (hstep : s.exec (.machine e) = some s') :
    s'.Ok ∧ (Finishes s.m e → Agrees s'.m.k s'.m.stack) := by
  obtain ⟨r, hr, rfl⟩ : ∃ r, s.m.exec e = some r ∧ s' = { s with m := r.1 } := by
    cases e with
    | tick =>
      obtain ⟨m', ht, rfl⟩ := Option.map_eq_some_iff.mp hstep
      exact ⟨(m', s.m.pitLabel), by rw [Machine.exec, ht, Option.map_some], rfl⟩
    | statement | kexecute | khalt =>
      obtain ⟨-, hstep⟩ := Option.ite_none_right_eq_some.mp hstep
      obtain ⟨r, hr, rfl⟩ := Option.map_eq_some_iff.mp hstep
      exact ⟨r, hr, rfl⟩
  have houtside : TicksOutside s.m e := by
    cases e with
    | tick => exact ⟨hok.1, hok.2.1⟩
    | _ => trivial
  have hchild : e = .tick → ¬ForChild s.m.frames := by
    rintro rfl
    exact hok.2.2
  obtain ⟨horderly, hagrees⟩ := h.orderly.exec houtside hr
  exact ⟨⟨horderly, h.working.exec h.orderly hchild hr⟩, hagrees⟩

/-- A statement of a file call. -/
theorem Ok.fileStatement (h : s.Ok) (hframes : s.m.frames = []) {f : FileFrame} {prog : Progress}
    (hf : f.next s.m.k = some (k', prog)) :
    Orderly { s.m with k := k' } ∧ Working { s.m with k := k' } := by
  have ht := f.tame hf
  constructor
  · rcases h.orderly with hs | ⟨q, b, hs⟩
    · refine .inl (hs.goto ht (fun g hg => ?_) hs.single id
        (parentOk_of_not_linksParent (by rw [goto, hframes]; exact id)))
      exact (hs.frames g hg).mono ht.pid
    · obtain ⟨rest, hcons⟩ := hs.frames
      rw [hframes] at hcons
      cases hcons
  · refine ⟨fun c pc rest hcons => ?_, h.working.below, h.working.saved⟩
    rw [hframes] at hcons
    cases hcons

theorem Ok.exec (h : s.Ok) {e : Event} (hok : s.Careful e) (hstep : s.exec e = some s') : s'.Ok := by
  cases e with
  | machine e => exact (h.machine hok hstep).1
  | fileCall c =>
    obtain ⟨-, heq⟩ := Option.ite_none_right_eq_some.mp hstep
    cases heq
    exact ⟨h.orderly, h.working⟩
  | fileStatement =>
    obtain ⟨hempty, hstep⟩ := Option.ite_none_right_eq_some.mp hstep
    obtain ⟨f, -, hstep⟩ := Option.bind_eq_some_iff.mp hstep
    obtain ⟨⟨k', prog⟩, hf, hstep⟩ := Option.bind_eq_some_iff.mp hstep
    cases hstep
    obtain ⟨horderly, hworking⟩ := h.fileStatement (List.isEmpty_iff.mp hempty) hf
    exact ⟨horderly, hworking⟩

theorem ok_of_reach (h : Run.Reach system Careful s) : s.Ok :=
  h.invariant (fun _ hs => ok_of_init hs) fun _ _ _ hs hok hstep => hs.exec hok hstep

/-- Where a tick may come, the current process is the one that runs. -/
theorem Ok.current (h : s.Ok) (hok : s.Careful (.machine .tick)) :
    s.m.k.currProcess = some s.m.stack ∧ s.m.k.desc = some s.m.stack := by
  rcases h.orderly with hs | ⟨q, b, hs⟩
  · exact hs.current hok.2.2
  · exact absurd hs.handles hok.1

/-- A process is at any point of a call where a tick comes, and later some activation of the handler
hands it the processor again: then `curr_process` and `desc` are what they were. And as long as
`kexecute` works for a child, the child is current. Both hold in every run in which no tick comes
inside the handler, or in `kexecute` from `pcb_init` to its `int $32`. -/
theorem call_survives_preemption (h : Run.Reach system Careful s) :
    (s.Careful (.machine .tick) → ∀ es t e t', system.Allowed Careful s es →
      system.run s es = some t → t.Careful (.machine e) → Finishes t.m e →
      system.step t (.machine e) = some t' → t'.m.stack = s.m.stack →
      t'.m.k.currProcess = s.m.k.currProcess ∧ t'.m.k.desc = s.m.k.desc) ∧
    ∀ c pc rest, s.m.frames = .exec c pc :: rest → forChild pc = true →
      s.m.k.currProcess = some c.pid ∧ s.m.k.desc = some c.pid := by
  have hs := ok_of_reach h
  refine ⟨fun htick es t e t' hall hrun hok hfin hstep hsame => ?_, hs.working.child⟩
  obtain ⟨hcur, hdesc⟩ := hs.current htick
  have ht := ok_of_reach (h.run hall hrun)
  obtain ⟨-, hagrees⟩ := ht.machine hok hstep
  have hagrees := hagrees hfin
  rw [hcur, hdesc, hagrees.currProcess, hagrees.desc, hsame]
  exact ⟨rfl, rfl⟩

/-- The sample machine, with no file call. -/
def sample : Option Preemptible := sampleMachine.map fun m => ⟨m, fun _ => none⟩

theorem sample_reach {ok : Preemptible → Event → Prop} {s₀ : Preemptible} {es : List Event}
    (h : sample = some s₀) (hall : system.Allowed ok s₀ es) (hrun : system.run s₀ es = some s) :
    Run.Reach system ok s := by
  obtain ⟨m, hm, rfl⟩ := Option.map_eq_some_iff.mp h
  have hinit : system.init ⟨m, fun _ => none⟩ := ⟨sampleMachine_init hm, fun _ => rfl⟩
  exact (Run.Reach.init hinit).run hall hrun

/-- A process has found a free descriptor in `kopen`. -/
def openingRun : List Event :=
  [.fileCall (.kopen (some (FileSystem.entry FileSystem.sampleImage 1).fileName)), .fileStatement]

def twoTicks : List Event := [.machine .tick, .machine .tick]

/-- Three ticks later it goes on. -/
theorem call_survives_preemption_open : ∃ s t t', Run.Reach system Careful s ∧
    (s.files 0).isSome ∧ system.run s twoTicks = some t ∧
    system.step t (.machine .tick) = some t' ∧ t'.m.stack = s.m.stack ∧
    t'.m.k.currProcess = s.m.k.currProcess ∧ t'.m.k.desc = s.m.k.desc := by
  have heval : sample.map (fun s₀ => decide (system.Allowed Careful s₀ openingRun) &&
      (system.run s₀ openingRun).any fun s => decide ((s.files 0).isSome ∧
        s.Careful (.machine .tick) ∧ system.Allowed Careful s twoTicks) &&
        (system.run s twoTicks).any fun t => decide (t.Careful (.machine .tick)) &&
          (system.step t (.machine .tick)).any fun t' => t'.m.stack = s.m.stack) = some true := by
    decide +kernel
  obtain ⟨s₀, hs₀, hfacts⟩ := Option.map_eq_some_iff.mp heval
  simp only [Bool.and_eq_true, decide_eq_true_eq, Option.any_eq_true] at hfacts
  obtain ⟨hall, s, hs, ⟨hfile, htick, hticks⟩, t, ht, hok, t', ht', hsame⟩ := hfacts
  have hreach := sample_reach hs₀ hall hs
  exact ⟨s, t, t', hreach, hfile, ht, ht', hsame, (call_survives_preemption hreach).1 htick
    twoTicks t .tick t' hticks ht hok trivial ht' hsame⟩

/-- `kexecute` has made the child current. -/
def childRun : List Event :=
  .machine execShell :: List.replicate 10 (.machine .statement)

/-- The child and the next statement of the innermost call, if it is `kexecute`. -/
def executing : List Frame → Option (Pid × ExecPc)
  | .exec c pc :: _ => some (c.pid, pc)
  | _ => none

/-- Three ticks later `kexecute` goes on, at the call of `open_stdin_stdout` for the child, with the
parent as the current process. -/
theorem call_survives_preemption_child : ∃ s t t', Run.Reach system Run.Free s ∧
    executing s.m.frames = some (3, .openStd) ∧ s.m.k.currProcess = some 3 ∧
    s.m.k.desc = some 3 ∧ system.run s twoTicks = some t ∧
    system.step t (.machine .tick) = some t' ∧ t'.m.stack = s.m.stack ∧
    executing t'.m.frames = some (3, .openStd) ∧ t'.m.k.currProcess = some 0 ∧
    t'.m.k.desc = some 0 := by
  have heval : sample.map (fun s₀ => (system.run s₀ childRun).any fun s =>
      decide (executing s.m.frames = some (3, .openStd) ∧ s.m.k.currProcess = some (3 : Pid) ∧
        s.m.k.desc = some (3 : Pid)) && (system.run s twoTicks).any fun t =>
          (system.step t (.machine .tick)).any fun t' => decide (t'.m.stack = s.m.stack ∧
            executing t'.m.frames = some (3, .openStd) ∧ t'.m.k.currProcess = some (0 : Pid) ∧
            t'.m.k.desc = some (0 : Pid))) = some true := by
    decide +kernel
  obtain ⟨s₀, hs₀, hfacts⟩ := Option.map_eq_some_iff.mp heval
  simp only [Bool.and_eq_true, decide_eq_true_eq, Option.any_eq_true] at hfacts
  obtain ⟨s, hs, ⟨hat, hcur, hdesc⟩, t, ht, t', ht', hsame, hvalues⟩ := hfacts
  exact ⟨s, t, t', sample_reach hs₀ (system.allowed_free _ _) hs, hat, hcur, hdesc, ht, ht', hsame,
    hvalues⟩

end Preemptible

end Machine
end GalapagOS
