import GalapagOS.Machine.Switch

/-!
# The invariant over whole runs

Every event keeps the invariant and is accepted by both protocols, as long as no tick comes inside
a window. Between the two steps that `pit_handler` still has to make after an `int $32`, the
invariant is that of the state they lead to.
-/

namespace GalapagOS
namespace Machine

open Kernel

variable {value : Ending → ℕ} {m m' : Machine} {s : Slots} {c : Calls} {ps : List Pid} {p : Pid}
  {r : Machine × Option Label}

/-! ## The invariant of whole runs -/

/-- In `pit_handler` after an `int $32`: what is left to do leads to a state with the invariant. -/
inductive Switching (value : Ending → ℕ) (m : Machine) (s : Slots) (c : Calls) : Prop
  | entered {x : Schedule.Node} {fs : List Frame} {m' : Machine} {ps : List Pid} :
      m.frames = .pit x false :: fs → (∀ call pc, .exec call pc ∈ fs → phase pc = .started) →
      (m.pitCommit x).pitLoad = some m' → Running value m' s c ps → Switching value m s c
  | committed {x : Schedule.Node} {fs : List Frame} {m' : Machine} {ps : List Pid} :
      m.frames = .pit x true :: fs → (∀ call pc, .exec call pc ∈ fs → phase pc = .started) →
      m.pitLoad = some m' → Running value m' s c ps → Switching value m s c

/-- The invariant. -/
def Sound (value : Ending → ℕ) (m : Machine) (s : Slots) (c : Calls) : Prop :=
  (∃ ps, Running value m s c ps) ∨ Switching value m s c

/-- What every event keeps: the protocols accept the label and the invariant holds again. -/
def Keeps (value : Ending → ℕ) (s : Slots) (c : Calls) (l : Option Label) (m : Machine) : Prop :=
  ∃ s' c', s.next l = some s' ∧ c.next value l = some c' ∧ Sound value m s' c'

theorem Advances.keeps {l : Option Label} (h : Advances value s c l m) : Keeps value s c l m := by
  obtain ⟨s', c', ps, hs, hc, hrun⟩ := h
  exact ⟨s', c', hs, hc, .inl ⟨ps, hrun⟩⟩

/-! ## Events -/

theorem Calm.int32 (h : Calm value m s c ps) (hw : ¬Window m.frames)
    (hfs : ∀ call pc, .exec call pc ∈ m.frames → phase pc = .started) (hr : m.int32 = some r) :
    Keeps value s c r.2 r.1 := by
  obtain ⟨⟨m₁, x⟩, hpit, he⟩ := Option.bind_eq_some_iff.mp hr
  cases he
  obtain ⟨q, n, rfl, rfl, hload, hrun, -⟩ := h.pitEnter hw hpit
  exact ⟨_, c, h.pitLabel.1, h.pitLabel.2, .inr (.entered rfl hfs hload hrun)⟩

/-- `kexecute` after its `int $32`. -/
theorem Running.calm_ret (h : Running value m s c ps) {call : ExecCall}
    (hf : m.frames = [.exec call .int32]) : Calm value (m.goto m.k [.exec call .ret]) s c ps := by
  have hcur := h.current
  rw [hf] at hcur
  have hmarks : ∀ p, m.k.pidArr p = false → s p = .free ∨ Unmarked m.stack [.exec call .ret] p :=
    fun p hp => .inl (h.marks_of (by simp [hf, Unmarked, phase]) hp)
  have hret : ProcOk value m.k s c m.stack [.exec call .ret] := by
    cases hcur with
    | chosen _ hpc | created _ hpc => cases hpc
    | waiting hal _ hlt hw hlive hin => exact .waiting hal rfl hlt hw hlive hin
    | resumed hal _ hlt he hval hrun => exact .resumed hal rfl hlt he hval hrun
  exact h.toCalm.goOn _ hmarks hret

theorem Running.execInt32 (h : Running value m s c ps) {call : ExecCall}
    (hf : m.frames = [.exec call .int32]) (hr : m.execNext call [] .int32 = some r) :
    Keeps value s c r.2 r.1 :=
  (h.calm_ret hf).int32 (by simp [goto, Window, phase]) (by simp [goto, phase]) hr

theorem Running.haltInt32 (h : Running value m s c ps) {e : Ending} {parent : Option Pid}
    (hf : m.frames = [.halting e parent .int32]) (hr : m.haltNext e parent [] .int32 = some r) :
    Keeps value s c r.2 r.1 := by
  have hcur := h.current
  rw [hf] at hcur
  have hmarks : ∀ p, m.k.pidArr p = false → s p = .free ∨
      Unmarked m.stack [.halting e parent .ret] p := by
    intro p hp
    have hold := h.marks p hp
    rw [hf] at hold
    exact hold.imp_right fun hun => ⟨by simp, hun.2⟩
  have hret : ProcOk value m.k s c m.stack [.halting e parent .ret] := by
    cases hcur with
    | left hpc => cases hpc
    | dead _ hlt hs hc hmark hfin => exact .dead (.inr rfl) hlt hs hc hmark hfin
  exact (h.toCalm.goOn _ hmarks hret).int32 (by simp [goto, Window, leaving]) (by simp [goto]) hr

/-- The statements of `kexecute`. -/
theorem Running.execNext (h : Running value m s c ps) {call : ExecCall} {pc : ExecPc}
    (hf : m.frames = [.exec call pc]) (hr : m.execNext call [] pc = some r) :
    Keeps value s c r.2 r.1 := by
  cases pc with
  | parse => exact (h.execParse hf hr).keeps
  | enterPaging => exact (h.execEnterPaging hf hr).keeps
  | load => exact (h.execLoad hf hr).keeps
  | mark => exact (h.execMark hf hr).keeps
  | pcbInit => exact (h.execPcbInit hf hr).keeps
  | setCurrent => exact (h.execSetCurrent hf hr).keeps
  | openStd => exact (h.execOpenStd hf hr).keeps
  | restoreParent => exact (h.execRestoreParent hf hr).keeps
  | schedule => exact (h.execSchedule hf hr).keeps
  | openShells => exact (h.execOpenShells hf hr).keeps
  | int32 => exact h.execInt32 hf hr
  | ret => exact (h.execRet hf hr).keeps

/-- The statements of `khalt`. -/
theorem Running.haltNext (h : Running value m s c ps) {e : Ending} {parent : Option Pid}
    {pc : HaltPc} (hf : m.frames = [.halting e parent pc])
    (hr : m.haltNext e parent [] pc = some r) : Keeps value s c r.2 r.1 := by
  cases pc with
  | clear => exact (h.haltClear hf hr).keeps
  | unmap => exact (h.haltUnmap hf hr).keeps
  | close => exact (h.haltClose hf hr).keeps
  | detach => exact (h.haltDetach hf hr).keeps
  | deliver => exact (h.haltDeliver hf hr).keeps
  | unschedule => exact (h.haltUnschedule hf hr).keeps
  | int32 => exact h.haltInt32 hf hr
  | ret =>
    have hcpu := h.onCpu
    rw [OnCpu, hf] at hcpu
    exact hcpu.elim

theorem Running.next (h : Running value m s c ps) (hr : m.next = some r) :
    Keeps value s c r.2 r.1 := by
  have hcur := h.current
  have hnext := hr
  unfold Machine.next at hr
  -- a process has at most one call in progress, so `ProcOk` leaves one frame
  generalize hfs : m.frames = fs at hcur hr
  cases hcur with
  | user => cases hr
  | scan =>
    cases hr
    exact (h.scanNext hfs).keeps
  | chosen | marked | created | waiting | resumed => exact h.execNext hfs hr
  | halt => exact (h.halt hfs hnext).keeps
  | clear | left | dead => exact h.haltNext hfs hr

/-- The end of `pit_handler` after an `int $32`. -/
theorem Switching.next (h : Switching value m s c) (hr : m.next = some r) :
    Keeps value s c r.2 r.1 := by
  cases h with
  | entered hf hfs hload hrun =>
    simp only [Machine.next, hf] at hr
    cases hr
    exact ⟨s, c, rfl, rfl, .inr (.committed rfl hfs hload hrun)⟩
  | committed hf hfs hload hrun =>
    simp only [Machine.next, hf, hload, Option.map_some] at hr
    cases hr
    exact ⟨s, c, rfl, rfl, .inl ⟨_, hrun⟩⟩

/-- A call from user mode. -/
theorem Running.call (h : Running value m s c ps) {f : Frame} (hr : m.call f = some r)
    (hf : (∃ command st, f = .scan command st 0) ∨
      ∃ e, f = .halt e ∧ (2 < m.stack → (returnedByte e).toNat = value e)) :
    Keeps value s c r.2 r.1 := by
  unfold Machine.call at hr
  split at hr
  · rename_i hempty
    cases hr
    have hfs : m.frames = [] := by simpa using hempty
    have hcur := h.current
    have hown := h.own (by simp [hfs])
    have hmarks : ∀ p, m.k.pidArr p = false → s p = .free :=
      fun p => h.marks_of (by simp [hfs, Unmarked])
    rw [hfs] at hcur
    cases hcur with
    | user hact =>
      rcases hf with ⟨command, st, rfl⟩ | ⟨e, rfl, hval⟩
      · have hcalm := h.toCalm.goOn [.scan command st 0] (fun p hp => .inl (hmarks p hp))
          (.scan hact)
        exact ⟨s, c, rfl, rfl, .inl ⟨ps, hcalm, hown, h.directory⟩⟩
      · have hcalm := h.toCalm.goOn [.halt e] (fun p hp => .inl (hmarks p hp)) (.halt hact hval)
        exact ⟨s, c, rfl, rfl, .inl ⟨ps, hcalm, hown, h.directory⟩⟩
  · cases hr

theorem Running.tick (h : Running value m s c ps) (hw : ¬Window m.frames)
    (hr : m.exec .tick = some r) : Keeps value s c r.2 r.1 := by
  obtain ⟨m', htick, rfl⟩ := Option.map_eq_some_iff.mp hr
  obtain ⟨⟨m₁, x⟩, hpit, hload⟩ := Option.bind_eq_some_iff.mp htick
  obtain ⟨q, n, rfl, rfl, hload', hrun, -⟩ := h.pitEnter hw hpit
  cases hload'.symm.trans hload
  exact ⟨_, c, h.pitLabel.1, h.pitLabel.2, .inl ⟨_, hrun⟩⟩

/-- No tick comes inside a window. -/
def NoTickInWindow (m : Machine) (e : Event) : Prop := e = .tick → ¬Window m.frames

instance (m : Machine) : ∀ e, Decidable (NoTickInWindow m e)
  | .tick => decidable_of_iff (¬Window m.frames) ⟨fun h _ => h, fun h => h rfl⟩
  | .statement | .kexecute _ _ | .khalt _ => isTrue (by rintro ⟨⟩)

/-- A program that ends hands `value` to its parent. -/
def EndsWith (value : Ending → ℕ) (m : Machine) (e : Event) : Prop :=
  ∀ x, e = .khalt x → 2 < m.stack → (returnedByte x).toNat = value x

theorem Switching.frames_ne_nil (h : Switching value m s c) : m.frames ≠ [] := by
  cases h with
  | entered hf | committed hf => simp [hf]

theorem Switching.window (h : Switching value m s c) : Window m.frames := by
  cases h with
  | entered hf | committed hf =>
    rw [hf]
    trivial

theorem Sound.exec (h : Sound value m s c) {e : Event} (hwin : NoTickInWindow m e)
    (hend : EndsWith value m e) (hr : m.exec e = some r) : Keeps value s c r.2 r.1 := by
  rcases h with ⟨ps, h⟩ | h
  · cases e with
    | tick => exact h.tick (hwin rfl) hr
    | statement => exact h.next hr
    | kexecute command st => exact h.call hr (.inl ⟨command, st, rfl⟩)
    | khalt x => exact h.call hr (.inr ⟨x, rfl, hend x rfl⟩)
  · cases e with
    | tick => exact absurd h.window (hwin rfl)
    | statement => exact h.next hr
    | kexecute | khalt =>
      simp only [Machine.exec, Machine.call] at hr
      rw [if_neg (by simpa using h.frames_ne_nil)] at hr
      cases hr

/-! ## Boot -/

theorem boot_slot {p : Pid} : Slots.boot p = .live ∨ Slots.boot p = .ended ↔ p ≤ 2 := by
  unfold Slots.boot
  split <;> simp_all

/-- The invariant holds after boot. -/
theorem running_boot (h : system.init m) : Running value m Slots.boot Calls.boot [0, 1, 2] := by
  obtain ⟨⟨_, _, _, _, _, _, hboot⟩, hstack, hframes, hsaved⟩ := h
  have hb := boot_spec hboot
  have huser : ∀ p ≤ 2, ProcOk value m.k Slots.boot Calls.boot p [] := by
    intro p hp
    exact .user ⟨⟨(hb.pidArr p).mpr hp, if_pos hp, fun hlt => absurd hp (not_le.mpr hlt)⟩, rfl,
      hb.running p hp⟩
  have hzero : m.stack ≤ 2 := by simp [hstack]
  refine ⟨?_, ?_, ?_⟩
  · constructor
    case queue => exact hb.queue
    case currNode => rw [hb.currNode, hstack]
    case mem => exact mem_shells.mpr hzero
    case shells => exact fun p => mem_shells.mpr
    case linked => exact fun p => mem_shells.trans boot_slot.symm
    case marks =>
      intro p hp
      have hnot : ¬p ≤ 2 := fun hle => by simp [(hb.pidArr p).mpr hle] at hp
      exact .inl (if_neg hnot)
    case idle => exact fun _ _ => rfl
    case unique => exact fun _ _ _ hp => by cases hp
    case pid => exact fun p hp => hb.pid p (mem_shells.mp hp)
    case kernelStack => exact fun p hp => hb.kernelStack p (mem_shells.mp hp)
    case files => exact fun p hp => hb.files p (mem_shells.mp hp)
    case current =>
      rw [hframes]
      exact huser _ hzero
    case parked =>
      intro p hp _
      have hle := mem_shells.mp hp
      rw [hsaved]
      exact ⟨rfl, huser p hle, id, by simp [Slots.boot, hle]⟩
  · rw [OnCpu, hframes]
    simp only [Own, Points, hstack]
    exact ⟨⟨hb.currProcess, hb.desc⟩, hb.esp0⟩
  · intro p _ hne
    rw [hb.cr3]
    rintro ⟨⟩
    exact hne hstack.symm

end Machine
end GalapagOS
