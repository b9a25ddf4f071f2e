import GalapagOS.Kernel.Process
import GalapagOS.Schedule.Theorems

/-!
# What the events leave alone

No event but a read of the directory moves `curr_file_number`, and none but `kopen` makes a
descriptor of another kind. The nodes of the run queue and the control blocks keep naming each other.
-/

namespace GalapagOS
namespace Kernel

open FileSystem

variable {k k' k₁ : Kernel} {p : Pid}

/-! ## What a statement leaves alone -/

/-- The node of a process points to its control block, which has its number. -/
structure Registered (k : Kernel) : Prop where
  sentinel : (k.queue.node .sentinel).process = none
  process : ∀ n p, (k.queue.node (.task n)).process = some p → p = n ∧ (k.pcbs n).pid = n

/-- The image and `curr_file_number` stay, the descriptors from 2 on that are in use afterwards
were in use before, with the same operations, and processes stay registered. -/
structure Steady (k k' : Kernel) : Prop where
  img : k'.img = k.img
  cursor : k'.currFileNumber = k.currFileNumber
  slot : ∀ p (i : Fin 8), 2 ≤ i → (k'.table p i).InUse →
    (k'.table p i).flags = (k.table p i).flags ∧
      (k'.table p i).fileOpTablePtr = (k.table p i).fileOpTablePtr
  pid : ∀ p, (k.pcbs p).pid = p → (k'.pcbs p).pid = p
  registered : k.Registered → k'.Registered

/-- Changes of the links and states of the queue, and of other variables. -/
theorem steady_of_process (himg : k'.img = k.img) (hcursor : k'.currFileNumber = k.currFileNumber)
    (hpcbs : k'.pcbs = k.pcbs)
    (hprocess : ∀ x, (k'.queue.node x).process = (k.queue.node x).process) : Steady k k' where
  img := himg
  cursor := hcursor
  slot p i _ _ := by
    rw [table, table, hpcbs]
    exact ⟨rfl, rfl⟩
  pid p hp := by rwa [hpcbs]
  registered h := by
    refine ⟨(hprocess _).trans h.sentinel, fun n p hn => ?_⟩
    rw [hprocess] at hn
    rw [hpcbs]
    exact h.process n p hn

theorem steady_of_eq (himg : k'.img = k.img) (hcursor : k'.currFileNumber = k.currFileNumber)
    (hpcbs : k'.pcbs = k.pcbs) (hqueue : k'.queue = k.queue) : Steady k k' :=
  steady_of_process himg hcursor hpcbs fun x => by rw [hqueue]

theorem Steady.refl (k : Kernel) : Steady k k := steady_of_eq rfl rfl rfl rfl

theorem Steady.trans (h : Steady k k₁) (h' : Steady k₁ k') : Steady k k' where
  img := h'.img.trans h.img
  cursor := h'.cursor.trans h.cursor
  slot p i hi huse := by
    obtain ⟨hflags', hops'⟩ := h'.slot p i hi huse
    have huse₁ : (k₁.table p i).InUse := by
      unfold FileDescriptor.InUse at huse ⊢
      rwa [← hflags']
    obtain ⟨hflags, hops⟩ := h.slot p i hi huse₁
    exact ⟨hflags'.trans hflags, hops'.trans hops⟩
  pid p hp := h'.pid p (h.pid p hp)
  registered hk := h'.registered (h.registered hk)

/-- An assignment to one control block that leaves it its number, or writes it. -/
theorem Steady.modifyPcb (k : Kernel) (p : Pid) {f : Pcb → Pcb}
    (hf : ∀ c (i : Fin 8), 2 ≤ i → ((f c).files i).InUse →
      ((f c).files i).flags = (c.files i).flags ∧
        ((f c).files i).fileOpTablePtr = (c.files i).fileOpTablePtr)
    (hpid : ∀ c, (f c).pid = c.pid ∨ (f c).pid = p) : Steady k (k.modifyPcb p f) := by
  have hother : ∀ q, q ≠ p → (k.modifyPcb p f).pcbs q = k.pcbs q :=
    fun q hq => Function.update_of_ne hq _ _
  have hself : (k.modifyPcb p f).pcbs p = f (k.pcbs p) := Function.update_self ..
  have hown : ∀ q, (k.pcbs q).pid = q → ((k.modifyPcb p f).pcbs q).pid = q := by
    intro q hq
    by_cases hqp : q = p
    · subst hqp
      rw [hself]
      exact (hpid _).elim (fun h => h.trans hq) id
    · rw [hother q hqp]
      exact hq
  refine ⟨rfl, rfl, fun q i hi huse => ?_, hown, fun h => ⟨h.sentinel, fun n q hn => ?_⟩⟩
  · by_cases hq : q = p
    · subst hq
      rw [table, hself] at huse ⊢
      exact hf _ i hi huse
    · rw [table, table, hother q hq]
      exact ⟨rfl, rfl⟩
  · obtain ⟨hqn, hn'⟩ := h.process n q hn
    exact ⟨hqn, hown n hn'⟩

/-- After an assignment that does not touch the descriptors. -/
theorem Steady.files {f : Pcb → Pcb} (h : Steady k k₁)
    (hf : ∀ c, (f c).files = c.files ∧ ((f c).pid = c.pid ∨ (f c).pid = p)) :
    Steady k (k₁.modifyPcb p f) := by
  refine h.trans (Steady.modifyPcb k₁ p (fun c i _ _ => ?_) fun c => (hf c).2)
  rw [(hf c).1]
  exact ⟨rfl, rfl⟩

/-- An assignment to a standard descriptor, or one that frees a descriptor. -/
theorem Steady.modifyFile (k : Kernel) (p : Pid) {j : Fin 8} {f : FileDescriptor → FileDescriptor}
    (hf : j < 2 ∨ ∀ d, ¬(f d).InUse) : Steady k (k.modifyFile p j f) := by
  refine Steady.modifyPcb k p (fun c i hi huse => ?_) fun c => Or.inl rfl
  dsimp only at huse ⊢
  by_cases hij : i = j
  · subst hij
    rcases hf with hlt | hfree
    · exact absurd hi (not_le.mpr hlt)
    · rw [Function.update_self] at huse
      exact absurd huse (hfree _)
  · rw [Function.update_of_ne hij]
    exact ⟨rfl, rfl⟩

theorem steady_access {base : ℕ} {ops : List (Memory.Op UInt8)} (h : k.access base ops = some k') :
    Steady k k' := by
  obtain ⟨m, rfl⟩ := access_eq_some h
  exact steady_of_eq rfl rfl rfl rfl

theorem steady_pitSelect {r : Kernel × Schedule.Node} (h : k.pitSelect = some r) : Steady k r.1 := by
  unfold pitSelect at h
  split at h
  · obtain ⟨_, -, h⟩ := Option.bind_eq_some_iff.mp h
    obtain ⟨_, -, h⟩ := Option.bind_eq_some_iff.mp h
    cases h
    exact steady_of_eq rfl rfl rfl rfl
  · obtain ⟨⟨q, n⟩, hsel, h⟩ := Option.bind_eq_some_iff.mp h
    obtain ⟨_, -, h⟩ := Option.bind_eq_some_iff.mp h
    obtain ⟨_, -, h⟩ := Option.bind_eq_some_iff.mp h
    cases h
    exact steady_of_process rfl rfl rfl (Schedule.selectTask_process hsel).1

theorem steady_pitHandler (h : k.pitHandler = some k') : Steady k k' := by
  obtain ⟨⟨k₁, n⟩, hsel, rfl⟩ := Option.map_eq_some_iff.mp h
  exact (steady_pitSelect hsel).trans (steady_of_process rfl rfl rfl fun _ => rfl)

/-! ## Starting a process -/

theorem steady_enterPaging {pid : Pid} (h : k.enterPaging pid = some k') : Steady k k' := by
  unfold enterPaging at h
  split at h
  · obtain ⟨_, -, rfl⟩ := Option.map_eq_some_iff.mp h
    exact steady_of_eq rfl rfl rfl rfl
  · cases h
    exact steady_of_eq rfl rfl rfl rfl

theorem steady_loadProgram {inode : ℕ} {ok : Bool} (h : k.loadProgram inode = some (k', ok)) :
    Steady k k' := by
  obtain ⟨k₁, hacc, heq⟩ := Option.map_eq_some_iff.mp h
  cases heq
  exact steady_access hacc

/-- `pcb_init` gives the block its number. -/
theorem steady_pcbInit (k : Kernel) (pid : Pid) (eip : ℕ) (cmd args : List UInt8) :
    Steady k (k.pcbInit pid eip cmd args) ∧ ((k.pcbInit pid eip cmd args).pcbs pid).pid = pid := by
  unfold pcbInit
  dsimp only
  split
  · refine ⟨Steady.files (Steady.files (Steady.refl k) ?_) ?_, ?_⟩
    · exact fun _ => ⟨rfl, Or.inr rfl⟩
    · exact fun _ => ⟨rfl, Or.inl rfl⟩
    · simp [Kernel.modifyPcb, Pcb.copyStrings, Pcb.setTerminal]
  · rename_i cur _
    split
    · refine ⟨Steady.files (Steady.files (Steady.files (Steady.refl k) ?_) ?_) ?_, ?_⟩
      · exact fun _ => ⟨rfl, Or.inr rfl⟩
      · exact fun _ => ⟨rfl, Or.inl rfl⟩
      · exact fun _ => ⟨rfl, Or.inl rfl⟩
      · by_cases hcur : pid = cur
        · subst hcur
          simp [Kernel.modifyPcb, Pcb.copyStrings, Pcb.setTerminal]
        · simp [Kernel.modifyPcb, Pcb.copyStrings, Pcb.setTerminal, hcur]
    · refine ⟨Steady.files (Steady.files (Steady.refl k) ?_) ?_, ?_⟩
      · exact fun _ => ⟨rfl, Or.inr rfl⟩
      · exact fun _ => ⟨rfl, Or.inl rfl⟩
      · simp [Kernel.modifyPcb, Pcb.copyStrings, Pcb.setTerminal]

theorem steady_setCurrentProcess (k : Kernel) (p : Pid) : Steady k (k.setCurrentProcess p) := by
  have hclear : Steady k (k.modifyPcb p fun c => { c with files := clearFdarray c.files }) := by
    refine Steady.modifyPcb k p (fun c i _ huse => ?_) fun c => Or.inl rfl
    simp [clearFdarray, FileDescriptor.InUse] at huse
  exact hclear.trans (steady_of_eq rfl rfl rfl rfl)

theorem steady_openStdinStdout (h : k.openStdinStdout = some k') : Steady k k' := by
  obtain ⟨p, -, rfl⟩ := Option.map_eq_some_iff.mp h
  exact (Steady.modifyFile k p (Or.inl (by decide))).trans (Steady.modifyFile _ p (Or.inl (by decide)))

theorem steady_restoreParent (k : Kernel) (p : Pid) : Steady k (k.restoreParent p) := by
  unfold restoreParent
  split
  · exact Steady.refl k
  · exact steady_of_eq rfl rfl rfl rfl

theorem steady_setRoot (k : Kernel) (p : Pid) : Steady k (k.setRoot p) := by
  unfold setRoot
  split
  · exact steady_of_eq rfl rfl rfl rfl
  · exact Steady.refl k

/-- `schedule` for a control block that has its number. -/
theorem steady_schedule (k : Kernel) {pid : Pid} (hpid : (k.pcbs pid).pid = pid) :
    Steady k (k.schedule pid) := by
  refine ⟨rfl, rfl, fun p i _ _ => ⟨rfl, rfl⟩, fun _ hp => hp, fun h => ⟨?_, fun n p hn => ?_⟩⟩
  · show ((Schedule.schedule k.queue pid _).node .sentinel).process = none
    rw [Schedule.process_schedule, if_neg (by simp)]
    exact h.sentinel
  · change ((Schedule.schedule k.queue pid _).node (.task n)).process = some p at hn
    rw [Schedule.process_schedule] at hn
    by_cases hnp : n = pid
    · subst hnp
      rw [if_pos rfl] at hn
      cases hn
      exact ⟨rfl, hpid⟩
    · rw [if_neg (by simpa using hnp)] at hn
      exact h.process n p hn

theorem steady_startProcess {pid : Pid} {eip : ℕ} {cmd args : List UInt8}
    (h : k.startProcess pid eip cmd args = some k') : Steady k k' := by
  obtain ⟨k₁, hstd, rfl⟩ := Option.map_eq_some_iff.mp h
  obtain ⟨hinit, hpid⟩ := steady_pcbInit (k.markPid pid true) pid eip cmd args
  have hmark : Steady k (k.markPid pid true) := steady_of_eq rfl rfl rfl rfl
  have hrest := ((steady_setCurrentProcess _ pid).trans (steady_openStdinStdout hstd)).trans
    (steady_restoreParent k₁ pid)
  have hsched := steady_schedule (k₁.restoreParent pid) (hrest.pid pid hpid)
  exact (((hmark.trans hinit).trans hrest).trans hsched).trans (steady_setRoot _ pid)

theorem steady_openShell {i : Pid} {root : Fin 3} {eip inode : ℕ} {cmd args : List UInt8}
    {ok : Bool} (h : k.openShell i root eip inode cmd args = some (k', ok)) : Steady k k' := by
  obtain ⟨⟨k₁, ok₁⟩, hload, h⟩ := Option.bind_eq_some_iff.mp h
  have hswitch : Steady k (k.switchPaging i) := steady_of_eq rfl rfl rfl rfl
  have hloaded := hswitch.trans (steady_loadProgram hload)
  dsimp only at h
  split at h
  · obtain ⟨k₂, hstd, h⟩ := Option.bind_eq_some_iff.mp h
    cases h
    obtain ⟨hinit, hpid⟩ := steady_pcbInit k₁ i eip cmd args
    have hassign : Steady (k₁.pcbInit i eip cmd args)
        (((k₁.pcbInit i eip cmd args).setCurrentProcess i).assignRoot root
          ((k₁.pcbInit i eip cmd args).setCurrentProcess i).currProcess) :=
      (steady_setCurrentProcess _ i).trans (steady_of_eq rfl rfl rfl rfl)
    have hopen : Steady (k₁.pcbInit i eip cmd args) k₂ := by
      refine Steady.trans (Steady.files hassign ?_) (steady_openStdinStdout hstd)
      exact fun _ => ⟨rfl, Or.inl rfl⟩
    exact ((hloaded.trans hinit).trans hopen).trans (steady_schedule k₂ (hopen.pid i hpid))
  · cases h
    exact hloaded

theorem steady_openShells {eip inode : ℕ} {cmd args : List UInt8} {ok : Bool}
    (h : k.openShells eip inode cmd args = some (k', ok)) : Steady k k' := by
  obtain ⟨⟨k₁, ok₁⟩, hfirst, h⟩ := Option.bind_eq_some_iff.mp h
  dsimp only at h
  split at h
  · obtain ⟨⟨k₂, ok₂⟩, hsecond, h⟩ := Option.bind_eq_some_iff.mp h
    have hboth := (steady_openShell hfirst).trans (steady_openShell hsecond)
    dsimp only at h
    split at h
    · cases h
      exact hboth.trans (steady_of_eq rfl rfl rfl rfl)
    · cases h
      exact hboth
  · cases h
    exact steady_openShell hfirst

theorem steady_openOtherShells {pid : Pid} {eip inode : ℕ} {cmd args : List UInt8} {ok : Bool}
    (h : k.openOtherShells pid eip inode cmd args = some (k', ok)) : Steady k k' := by
  unfold openOtherShells at h
  split at h
  · have hterm : Steady k (k.modifyPcb pid fun c => c.setTerminal 0) :=
      (Steady.refl k).files fun _ => ⟨rfl, Or.inl rfl⟩
    refine Steady.trans ?_ (steady_openShells h)
    exact hterm.trans (steady_of_eq rfl rfl rfl rfl)
  · cases h
    exact Steady.refl k

theorem steady_kexecute {command : Option (List UInt8)} {st : Stale} {r : Option ℤ}
    (h : k.kexecute command st = some (k', r)) : Steady k k' := by
  unfold kexecute at h
  split at h
  · dsimp only at h
    split at h
    · cases h
      exact Steady.refl k
    · obtain ⟨k₁, henter, h⟩ := Option.bind_eq_some_iff.mp h
      obtain ⟨⟨k₂, ok⟩, hload, h⟩ := Option.bind_eq_some_iff.mp h
      have hloaded := (steady_enterPaging henter).trans (steady_loadProgram hload)
      dsimp only at h
      split at h
      · obtain ⟨k₃, hstart, h⟩ := Option.bind_eq_some_iff.mp h
        obtain ⟨⟨k₄, ok₄⟩, hshells, h⟩ := Option.bind_eq_some_iff.mp h
        have hstarted := (hloaded.trans (steady_startProcess hstart)).trans
          (steady_openOtherShells hshells)
        dsimp only at h
        split at h
        · obtain ⟨k₅, hpit, h⟩ := Option.bind_eq_some_iff.mp h
          cases h
          exact hstarted.trans (steady_pitHandler hpit)
        · cases h
          exact hstarted
      · cases h
        exact hloaded
  · cases h
    exact Steady.refl k

/-! ## Ending a process -/

theorem steady_opClose {ops : Option OpTable} {r : ℤ} (h : k.opClose ops = some (k', r)) :
    Steady k k' := by
  unfold opClose at h
  split at h
  · cases h
  · cases h
    exact steady_of_eq rfl rfl rfl rfl
  · cases h
    exact Steady.refl k

theorem steady_kclose {fd r : ℤ} (h : k.kclose fd = some (k', r)) : Steady k k' := by
  obtain ⟨p, hp, h⟩ := Option.bind_eq_some_iff.mp h
  by_cases hrange : 2 ≤ fd ∧ fd < 8
  · rw [dif_pos hrange] at h
    dsimp only at h
    split at h
    · refine (Steady.modifyFile k p (Or.inr fun d => ?_)).trans (steady_opClose h)
      simp [FileDescriptor.InUse]
    · cases h
      exact Steady.refl k
  · rw [dif_neg hrange] at h
    cases h
    exact Steady.refl k

/-- What every `kclose` does to the kernel, the loop of `khalt` does. -/
theorem closeAll_rel {R : Kernel → Kernel → Prop} (hrefl : ∀ k, R k k)
    (htrans : ∀ k₁ k₂ k₃, R k₁ k₂ → R k₂ k₃ → R k₁ k₃)
    (hclose : ∀ k k' fd r, k.kclose fd = some (k', r) → R k k') (h : k.closeAll = some k') :
    R k k' := by
  have hall : ∀ (fds : List (Fin 8)) (k : Kernel), fds.foldlM closeIfOpen k = some k' → R k k' := by
    intro fds
    induction fds with
    | nil =>
      intro k h
      cases h
      exact hrefl _
    | cons fd fds ih =>
      intro k h
      rw [List.foldlM_cons] at h
      obtain ⟨k₁, hfirst, hrest⟩ := Option.bind_eq_some_iff.mp h
      obtain ⟨p, hp, hfirst⟩ := Option.bind_eq_some_iff.mp hfirst
      refine htrans k k₁ k' ?_ (ih k₁ hrest)
      split at hfirst
      · obtain ⟨⟨k₂, r⟩, hk₂, rfl⟩ := Option.map_eq_some_iff.mp hfirst
        exact hclose k k₂ fd r hk₂
      · cases hfirst
        exact hrefl k
  exact hall _ k h

theorem steady_closeAll (h : k.closeAll = some k') : Steady k k' :=
  closeAll_rel Steady.refl (fun _ _ _ => Steady.trans) (fun _ _ _ _ => steady_kclose) h

theorem steady_detach (k : Kernel) (p : Pid) (status : UInt8) : Steady k (k.detach p status) := by
  unfold detach
  dsimp only
  split
  · refine Steady.files (Steady.files (Steady.refl k) ?_) ?_ <;> exact fun _ => ⟨rfl, Or.inl rfl⟩
  · refine Steady.files (Steady.files (Steady.files (Steady.refl k) ?_) ?_) ?_ <;>
      exact fun _ => ⟨rfl, Or.inl rfl⟩

theorem steady_unschedule (k : Kernel) (pid parent : Pid) :
    Steady k { k with queue := Schedule.unschedule k.queue pid parent } := by
  refine steady_of_process rfl rfl rfl fun x => ?_
  show ((Schedule.unschedule k.queue pid parent).node x).process = _
  unfold Schedule.unschedule
  split
  · rw [Schedule.process_setRunning, Schedule.process_setRunning]
  · rw [Schedule.process_setRunning]

theorem steady_khalt {status : UInt8} (h : k.khalt status = some k') : Steady k k' := by
  obtain ⟨cur, -, h⟩ := Option.bind_eq_some_iff.mp h
  dsimp only at h
  split at h
  · obtain ⟨parent, -, h⟩ := Option.bind_eq_some_iff.mp h
    obtain ⟨k₁, hclose, hpit⟩ := Option.bind_eq_some_iff.mp h
    have hunmap : Steady k { k.markPid (k.pcbs cur).pid false with
        tables := Paging.unmapVidMemory k.tables (k.pcbs cur).pid } := steady_of_eq rfl rfl rfl rfl
    have hdetach := (hunmap.trans (steady_closeAll hclose)).trans (steady_detach _ cur status)
    have hdeliver : Steady k ((k₁.detach cur status).deliver parent status) :=
      hdetach.files fun _ => ⟨rfl, Or.inl rfl⟩
    refine Steady.trans ?_ (steady_pitHandler hpit)
    exact hdeliver.trans (steady_unschedule _ _ _)
  · cases h
    exact Steady.refl k

/-! ## Terminals -/

theorem steady_kvidmap {a : ℕ} {r : ℤ} (h : k.kvidmap a = some (k', r)) : Steady k k' := by
  obtain ⟨cur, -, h⟩ := Option.bind_eq_some_iff.mp h
  dsimp only at h
  split at h
  · cases h
    exact Steady.refl k
  · obtain ⟨k₁, hacc, h⟩ := Option.bind_eq_some_iff.mp h
    cases h
    refine Steady.trans ?_ (steady_access hacc)
    exact steady_of_eq rfl rfl rfl rfl

theorem steady_switchTerminals {term : Fin 3} (h : k.switchTerminals term = some k') : Steady k k' := by
  unfold switchTerminals at h
  dsimp only at h
  split at h
  · cases h
    exact Steady.refl k
  · obtain ⟨k₁, hout, h⟩ := Option.bind_eq_some_iff.mp h
    obtain ⟨k₂, hin, h⟩ := Option.bind_eq_some_iff.mp h
    obtain ⟨k₃, hswap, h⟩ := Option.bind_eq_some_iff.mp h
    cases h
    have hcopied := (steady_access hout).trans (steady_access hin)
    obtain ⟨cur, -, hswap⟩ := Option.bind_eq_some_iff.mp hswap
    obtain ⟨tb, -, hswap⟩ := Option.bind_eq_some_iff.mp hswap
    obtain ⟨tb', -, hswap⟩ := Option.bind_eq_some_iff.mp hswap
    cases hswap
    exact hcopied.trans (steady_of_eq rfl rfl rfl rfl)

theorem steady_keyboardOutput {f : ℤ → Terminal.Action} (h : k.keyboardOutput f = some k') :
    Steady k k' := by
  unfold keyboardOutput at h
  refine Steady.trans ?_ (steady_access h)
  exact steady_of_eq rfl rfl rfl rfl

/-! ## File calls -/

theorem steady_kwrite {fd nbytes r : ℤ} {buf : Option (ℕ → UInt8)}
    (h : k.kwrite fd buf nbytes = some (k', r)) : Steady k k' := by
  obtain ⟨p, -, h⟩ := Option.bind_eq_some_iff.mp h
  split at h
  · cases h
    exact Steady.refl k
  · split at h
    · cases h
      exact Steady.refl k
    · split at h
      · cases h
        exact Steady.refl k
      · unfold opWrite at h
        split at h
        · cases h
        · unfold rtcWrite at h
          split at h <;> cases h <;> exact steady_of_eq rfl rfl rfl rfl
        · cases h
          exact Steady.refl k
        · cases h
          exact Steady.refl k
        · obtain ⟨k₁, hacc, heq⟩ := Option.map_eq_some_iff.mp h
          cases heq
          refine Steady.trans ?_ (steady_access hacc)
          exact steady_of_eq rfl rfl rfl rfl

theorem steady_incrementPosition (k : Kernel) (p : Pid) (inode : ℕ) (amt : ℤ) :
    Steady k (k.incrementPosition p inode amt) := by
  unfold incrementPosition
  split
  · exact Steady.refl k
  · refine Steady.modifyPcb k p (fun c i _ _ => ?_) fun c => Or.inl rfl
    dsimp only
    split <;> exact ⟨rfl, rfl⟩

/-- Reads other than those of a directory. -/
theorem steady_opRead {d : FileDescriptor} {n buf : ℕ} {r : ReadResult}
    (h : k.opRead p d n buf = some (k', r)) (hops : d.fileOpTablePtr ≠ some .dir) : Steady k k' := by
  unfold opRead at h
  split at h
  · cases h
  · cases h
    exact Steady.refl k
  · rename_i hdir
    exact absurd hdir hops
  · unfold fsRead at h
    split at h
    · cases h
      exact Steady.refl k
    · cases h
      exact steady_incrementPosition k p _ _
  · obtain ⟨x, -, heq⟩ := Option.map_eq_some_iff.mp h
    cases heq
    exact steady_of_eq rfl rfl rfl rfl

end Kernel
end GalapagOS
