import GalapagOS.Machine.Execute

/-!
# The statements of `khalt`
-/

namespace GalapagOS
namespace Machine

open Kernel FileSystem Paging

variable {value : Ending → ℕ} {k k' : Kernel} {m m' : Machine} {s s' : Slots} {c c' : Calls}
  {ps : List Pid} {p q n : Pid} {fs : List Frame} {e : Ending} {r : Machine × Option Label}

/-! ## Up to the cleared mark -/

theorem Running.own (h : Running value m s c ps) (hf : ∀ call pc fs, m.frames ≠ .exec call pc :: fs) :
    Own m := by
  have hcpu := h.onCpu
  unfold OnCpu at hcpu
  split at hcpu
  · rename_i call pc fs hfs
    exact absurd hfs (hf call pc fs)
  · exact hcpu.elim
  · exact hcpu

theorem Running.halt (h : Running value m s c ps) (hf : m.frames = [.halt e])
    (hr : m.next = some r) : Advances value s c r.2 r.1 := by
  have hcur := h.current
  have hown := h.own (by simp [hf])
  have hmarks : ∀ p, m.k.pidArr p = false → s p = .free :=
    fun p => h.marks_of (by simp [hf, Unmarked])
  rw [hf] at hcur
  simp only [next, hf, hown.1.1, Option.bind_eq_bind, Option.bind_some, h.pid _ h.mem] at hr
  cases hcur with
  | halt hact hval =>
    split at hr
    · rename_i hlt
      obtain ⟨q, hq, -⟩ := hact.parent hlt
      rw [hq] at hr
      cases hr
      have hcalm := h.toCalm.goOn _ (fun p hp => .inl (hmarks p hp))
        (.clear hact hlt (hval hlt) hq)
      exact Running.advances ⟨hcalm, hown, h.directory⟩
    · cases hr
      have hcalm := h.toCalm.goOn [] (fun p hp => .inl (hmarks p hp)) (.user hact)
      exact Running.advances ⟨hcalm, hown, h.directory⟩

theorem Running.haltClear (h : Running value m s c ps) {parent : Option Pid}
    (hf : m.frames = [.halting e parent .clear]) (hr : m.haltNext e parent [] .clear = some r) :
    Advances value s c r.2 r.1 := by
  have hcur := h.current
  have hown := h.own (by simp [hf])
  rw [hf] at hcur
  simp only [haltNext, hown.1.1, Option.bind_eq_bind, Option.bind_some, h.pid _ h.mem] at hr
  cases hr
  cases hcur with
  | left hpc => cases hpc
  | dead hpc => rcases hpc with hpc | hpc <;> cases hpc
  | clear hact hlt hval hq =>
    rename_i q
    obtain ⟨q', hq', hw⟩ := hact.parent hlt
    obtain rfl : q = q' := Option.some.inj (hq.symm.trans hq')
    have hmarks : ∀ p, (m.k.markPid m.stack false).pidArr p = false → s p = .free ∨
        Unmarked m.stack [.halting e (some q) .unmap] p := by
      intro p hp
      by_cases hps : p = m.stack
      · exact .inr ⟨by simp, hps⟩
      · have hold := h.marks p ((kept_markPid hps).mark.symm.trans hp)
        rw [hf] at hold
        exact .inl (hold.resolve_right fun hun => hun.1 rfl)
    have hleft : ProcOk value (m.k.markPid m.stack false) s c m.stack
        [.halting e (some q) .unmap] :=
      .left rfl hlt hact.slot hact.idle (Function.update_self ..) hact.running hval hw
        (fun _ => hq) (by simp)
    have hcalm : Calm value (m.goto (m.k.markPid m.stack false) _) s c ps :=
      h.toCalm.local rfl (fun p hp => ⟨kept_markPid hp.1, fun _ _ => rfl⟩) hmarks rfl rfl
        (h.files _ h.mem) hleft
    exact Running.advances ⟨hcalm, hown, h.directory⟩

/-! ## Leaving -/

/-- What is left of the running process after it has cleared its mark. -/
structure Left (value : Ending → ℕ) (m : Machine) (s : Slots) (c : Calls) (e : Ending) (q : Pid) :
    Prop where
  program : 2 < m.stack
  slot : s m.stack = .live
  idle : c m.stack = .idle
  mark : m.k.pidArr m.stack = false
  running : (m.k.queue.node (.task m.stack)).running = .running
  returned : (returnedByte e).toNat = value e
  waiting : c q = .waiting m.stack

theorem Running.left (h : Running value m s c ps) {parent : Option Pid} {pc : HaltPc}
    (hf : m.frames = [.halting e parent pc]) (hpc : leaving pc) :
    ∃ q, parent = some q ∧ Left value m s c e q ∧
      (pc = .unmap ∨ pc = .close ∨ pc = .detach → (m.k.pcbs m.stack).parent = some q) ∧
      (pc = .unschedule → (m.k.pcbs q).retStatus.toNat = value e) := by
  have hcur := h.current
  rw [hf] at hcur
  cases hcur with
  | clear => cases hpc
  | dead hpc' => rcases hpc' with rfl | rfl <;> cases hpc
  | left _ hlt hslot hidle hmark hrun hval hw hparent hret =>
    exact ⟨_, rfl, ⟨hlt, hslot, hidle, hmark, hrun, hval, hw⟩, hparent, hret⟩

/-- A statement on the way out. -/
theorem Running.leave (h : Running value m s c ps) {parent : Option Pid} {pc : HaltPc}
    (hf : m.frames = [.halting e parent pc]) (k' : Kernel) (pc' : HaltPc) (hpc' : leaving pc')
    (hl : Left value m s c e q) (hpidArr : k'.pidArr = m.k.pidArr)
    (hqueue : k'.queue = m.k.queue)
    (hkept : ∀ n, n ≠ m.stack → Kept m.k k' n ∧
      ∀ e, c n = .ended e → (k'.pcbs n).retStatus = (m.k.pcbs n).retStatus)
    (hpid : (k'.pcbs m.stack).pid = (m.k.pcbs m.stack).pid)
    (hstack : (k'.pcbs m.stack).kernelStack = (m.k.pcbs m.stack).kernelStack)
    (hfiles : TableOk (k'.table m.stack))
    (hcpu : k'.currProcess = m.k.currProcess ∧ k'.desc = m.k.desc ∧ k'.esp0 = m.k.esp0)
    (hcr3 : k'.cr3 = m.k.cr3)
    (hparent : pc' = .unmap ∨ pc' = .close ∨ pc' = .detach → (k'.pcbs m.stack).parent = some q)
    (hret : pc' = .unschedule → (k'.pcbs q).retStatus.toNat = value e) :
    Running value (m.goto k' [.halting e (some q) pc']) s c ps := by
  have hown := h.own (by simp [hf])
  have hmarks : ∀ p, k'.pidArr p = false → s p = .free ∨
      Unmarked m.stack [.halting e (some q) pc'] p := by
    intro p hp
    have hold := h.marks p (by rwa [← hpidArr])
    rw [hf] at hold
    refine hold.imp_right fun hun => ⟨?_, hun.2⟩
    rintro rfl
    cases hpc'
  have hcalm := h.toCalm.local hqueue (fun p hp => hkept p hp.1) hmarks hpid hstack hfiles
    (.left hpc' hl.program hl.slot hl.idle (by rw [hpidArr, hl.mark]) (by rw [hqueue, hl.running])
      hl.returned hl.waiting hparent hret)
  have hown' : Own (m.goto k' [.halting e (some q) pc']) := by
    change (k'.currProcess = some m.stack ∧ k'.desc = some m.stack) ∧
      k'.esp0 = (k'.pcbs m.stack).kernelStack
    rw [hcpu.1, hcpu.2.1, hcpu.2.2, hstack]
    exact hown
  refine ⟨hcalm, ?_, ?_⟩
  · cases pc' <;> first | exact hown' | cases hpc'
  · change ∀ p ∈ ps, p ≠ m.stack → k'.cr3 ≠ some p
    rw [hcr3]
    exact h.directory

theorem Running.haltUnmap (h : Running value m s c ps) {parent : Option Pid}
    (hf : m.frames = [.halting e parent .unmap]) (hr : m.haltNext e parent [] .unmap = some r) :
    Advances value s c r.2 r.1 := by
  obtain ⟨q, rfl, hl, hparent, -⟩ := h.left hf rfl
  obtain ⟨cur, -, hr⟩ := Option.bind_eq_some_iff.mp hr
  cases hr
  exact Running.advances (h.leave hf _ .close rfl hl rfl rfl
    (fun _ _ => ⟨⟨rfl, rfl, rfl, rfl, id⟩, fun _ _ => rfl⟩) rfl rfl (h.files _ h.mem)
    ⟨rfl, rfl, rfl⟩ rfl (fun _ => hparent (.inl rfl)) (by simp))

theorem Running.haltClose (h : Running value m s c ps) {parent : Option Pid}
    (hf : m.frames = [.halting e parent .close]) (hr : m.haltNext e parent [] .close = some r) :
    Advances value s c r.2 r.1 := by
  obtain ⟨q, rfl, hl, hparent, -⟩ := h.left hf rfl
  have hown := h.own (by simp [hf])
  obtain ⟨f, hok, hclose⟩ := closeAll_spec hown.1.2 (h.files _ h.mem)
  simp only [haltNext, hclose, Option.bind_eq_bind, Option.bind_some] at hr
  cases hr
  have hself : (m.k.modifyPcb m.stack fun b => { b with files := f }).pcbs m.stack
      = { m.k.pcbs m.stack with files := f } := Function.update_self ..
  have hne : ∀ p, p ≠ m.stack →
      (m.k.modifyPcb m.stack fun b => { b with files := f }).pcbs p = m.k.pcbs p :=
    fun p hp => Function.update_of_ne hp _ _
  exact Running.advances (h.leave hf _ .detach rfl hl rfl rfl
    (fun p hp => ⟨kept_of_pcb rfl (hne p hp), fun _ _ => by rw [hne p hp]⟩) (by rw [hself])
    (by rw [hself]) (by rw [table, hself]; exact hok) ⟨rfl, rfl, rfl⟩ rfl
    (fun _ => by rw [hself]; exact hparent (.inr (.inl rfl))) (by simp))

theorem Running.haltDetach (h : Running value m s c ps) {parent : Option Pid}
    (hf : m.frames = [.halting e parent .detach]) (hr : m.haltNext e parent [] .detach = some r) :
    Advances value s c r.2 r.1 := by
  obtain ⟨q, rfl, hl, hparent, -⟩ := h.left hf rfl
  have hown := h.own (by simp [hf])
  have hq := hparent (.inr (.inr rfl))
  simp only [haltNext, hown.1.1, Option.bind_eq_bind, Option.bind_some] at hr
  cases hr
  have hne : ∀ p, p ≠ m.stack → Kept m.k (m.k.detach m.stack e.code) p ∧ ∀ e', c p = .ended e' →
      ((m.k.detach m.stack e.code).pcbs p).retStatus = (m.k.pcbs p).retStatus := by
    intro p hp
    have hpcb := pcbs_detach_ne hq hp e.code
    split at hpcb
    · refine ⟨⟨by rw [detach_eq hq]; rfl, by rw [hpcb], by rw [hpcb], by rw [hpcb], fun hok => ?_⟩,
        fun _ _ => by rw [hpcb]; rfl⟩
      rw [table, hpcb]
      exact hok
    · exact ⟨kept_of_pcb (by rw [detach_eq hq]; rfl) hpcb, fun _ _ => by rw [hpcb]⟩
  refine Running.advances (h.leave hf _ .deliver rfl hl (by rw [detach_eq hq]; rfl)
    (by rw [detach_eq hq]; rfl) hne ?_ ?_ ?_ (by rw [detach_eq hq]; exact ⟨rfl, rfl, rfl⟩)
    (by rw [detach_eq hq]; rfl) (by simp) (by simp))
  · rw [field_detach Pcb.pid (fun _ _ => rfl) (fun _ => rfl) (fun _ => rfl) hq]
  · rw [field_detach Pcb.kernelStack (fun _ _ => rfl) (fun _ => rfl) (fun _ => rfl) hq]
  · rw [table, field_detach Pcb.files (fun _ _ => rfl) (fun _ => rfl) (fun _ => rfl) hq]
    exact h.files _ h.mem

theorem Left.ne (hl : Left value m s c e q) : q ≠ m.stack := by
  rintro rfl
  cases hl.idle.symm.trans hl.waiting

theorem Running.haltDeliver (h : Running value m s c ps) {parent : Option Pid}
    (hf : m.frames = [.halting e parent .deliver]) (hr : m.haltNext e parent [] .deliver = some r) :
    Advances value s c r.2 r.1 := by
  obtain ⟨q, rfl, hl, -, -⟩ := h.left hf rfl
  simp only [haltNext, Option.bind_eq_bind, Option.bind_some] at hr
  cases hr
  have hfield : ∀ {α : Type} (g : Pcb → α), (∀ b s, g (b.setRetStatus s) = g b) → ∀ p,
      g ((m.k.deliver q e.code).pcbs p) = g (m.k.pcbs p) := fun g hg p => field_deliver g hg _
  refine Running.advances (h.leave hf _ .unschedule rfl hl rfl rfl (fun p hp => ⟨⟨rfl,
      hfield Pcb.pid (fun _ _ => rfl) p, hfield Pcb.kernelStack (fun _ _ => rfl) p,
      hfield Pcb.parent (fun _ _ => rfl) p, fun hok => ?_⟩, fun e' he' => ?_⟩)
    (hfield Pcb.pid (fun _ _ => rfl) _) (hfield Pcb.kernelStack (fun _ _ => rfl) _) ?_
    ⟨rfl, rfl, rfl⟩ rfl (by simp) fun _ => ?_)
  · rw [table, hfield Pcb.files (fun _ _ => rfl)]
    exact hok
  · -- the parent still waits, so its status does not count yet
    have hpq : p ≠ q := by
      rintro rfl
      cases hl.waiting.symm.trans he'
    rw [deliver, pcbs_modifyPcb, if_neg hpq]
  · rw [table, hfield Pcb.files (fun _ _ => rfl)]
    exact h.files _ h.mem
  · rw [retStatus_deliver]
    exact hl.returned

/-! ## `unschedule` -/

theorem running_unschedule (x : Schedule.RunQueue) (hp : 2 < p) (n : Pid) :
    ((Schedule.unschedule x p q).node (.task n)).running = if n = q then .running
      else if n = p then .finished else (x.node (.task n)).running := by
  rw [Schedule.unschedule, if_pos (three_le_of_two_lt hp).1]
  simp [Schedule.running_setRunning]

/-- Calls that wait for another process keep waiting when `p` ends. -/
theorem waiting_ended {x : Pid} (hx : x ≠ p) (hw : c q = .waiting x) :
    (if c q = .waiting p then .ended e else c q) = .waiting x := by
  rw [if_neg, hw]
  rw [hw]
  exact fun he => hx (CallState.waiting.inj he)

/-- The parent has been waiting, and may go on. -/
theorem ProcOk.resume (hok : ProcOk value k s c q fs) (hw : c q = .waiting p) (hqp : q ≠ p)
    (hret : (k.pcbs q).retStatus.toNat = value e) {x : Schedule.RunQueue}
    (hrun : (x.node (.task q)).running = .running) :
    ProcOk value { k with queue := x } (Function.update s p .ended)
      (fun r => if c r = .waiting p then .ended e else c r) q fs := by
  cases hok with
  | user h | scan h | chosen h | marked h | created h | halt h | clear h =>
    cases h.idle.symm.trans hw
  | resumed _ _ _ he => cases he.symm.trans hw
  | left _ _ _ hidle | dead _ _ _ hidle => cases hidle.symm.trans hw
  | waiting hal hpc hlt hcall _ _ =>
    have halive : Alive { k with queue := x } (Function.update s p .ended)
        (fun r => if c r = .waiting p then .ended e else c r) q :=
      hal.kept ⟨rfl, rfl, rfl, rfl, id⟩ (Function.update_of_ne hqp _ _)
        fun _ => waiting_ended hqp
    exact .resumed halive hpc hlt (if_pos hw) hret hrun

/-- The other processes do not notice, but for the parent. -/
theorem Calm.parked_unschedule (h : Calm value m s c ps) (hl : Left value m s c e q)
    (hret : (m.k.pcbs q).retStatus.toNat = value e) (hp : p ∈ ps) (hne : p ≠ m.stack) :
    Parked value { m.k with queue := Schedule.unschedule m.k.queue m.stack q }
      (Function.update s m.stack .ended)
      (fun r => if c r = .waiting m.stack then .ended e else c r) p (m.saved p).2 := by
  have hrun := running_unschedule m.k.queue hl.program (q := q)
  have hparked := (h.parked p hp hne).2
  by_cases hpq : p = q
  · subst hpq
    obtain ⟨hok, hw, hs⟩ := hparked
    refine ⟨hok.resume hl.waiting hne hret ((hrun p).trans (if_pos rfl)), hw, ?_⟩
    rwa [Function.update_of_ne hne]
  · have hcp : c p ≠ .waiting m.stack := fun he => hpq (h.unique _ _ _ he hl.waiting)
    refine hparked.kept ⟨rfl, rfl, rfl, rfl, id⟩ ?_ (fun _ _ => rfl)
      (Function.update_of_ne hne _ _) (if_neg hcp) (fun r => waiting_ended hne) ?_ ?_
    · exact (hrun p).trans ((if_neg hpq).trans (if_neg hne))
    · intro n hn
      refine ⟨Function.update_of_ne ?_ _ _, ⟨rfl, rfl, rfl, rfl, id⟩⟩
      rintro rfl
      cases hl.slot.symm.trans hn
    · intro n hcn hn
      have hns : n ≠ m.stack := by
        rintro rfl
        exact hcp hcn
      rw [Function.update_of_ne hns, hn]

/-- The child is marked finished, and its parent may go on. -/
theorem Calm.unschedule (h : Calm value m s c ps) (hl : Left value m s c e q)
    (hret : (m.k.pcbs q).retStatus.toNat = value e)
    (hmarks : ∀ p, m.k.pidArr p = false → s p = .free ∨ p = m.stack) :
    Calm value (m.goto { m.k with queue := Schedule.unschedule m.k.queue m.stack q }
        [.halting e (some q) .int32])
      (Function.update s m.stack .ended)
      (fun r => if c r = .waiting m.stack then .ended e else c r) ps := by
  have hrun := running_unschedule m.k.queue hl.program (q := q)
  have hqueue : Schedule.IsQueue (Schedule.unschedule m.k.queue m.stack q) ps := by
    rw [Schedule.unschedule, if_pos (three_le_of_two_lt hl.program).1]
    exact (h.queue.setRunning _ _).setRunning _ _
  constructor
  case queue => exact hqueue
  case currNode =>
    change (Schedule.unschedule m.k.queue m.stack q).currNode = _
    rw [Schedule.unschedule, if_pos (three_le_of_two_lt hl.program).1]
    exact h.currNode
  case mem => exact h.mem
  case shells => exact h.shells
  case linked =>
    intro p
    rw [h.linked, Function.update_apply]
    split
    · rename_i he
      rw [he]
      simp [hl.slot]
    · rfl
  case marks =>
    intro p hp
    rcases hmarks p hp with hfree | he
    · have hps : p ≠ m.stack := by
        rintro rfl
        cases hl.slot.symm.trans hfree
      rw [Function.update_of_ne hps]
      exact .inl hfree
    · exact .inr ⟨by simp, he⟩
  case idle =>
    intro p hp
    simp [h.idle p hp]
  case unique =>
    intro p r n hp hr
    split at hp
    · cases hp
    · split at hr
      · cases hr
      · exact h.unique p r n hp hr
  case pid => exact h.pid
  case kernelStack => exact h.kernelStack
  case files => exact h.files
  case current =>
    refine .dead (.inl rfl) hl.program (Function.update_self ..) ?_ hl.mark ?_
    · simp [goto, hl.idle]
    · exact (hrun _).trans ((if_neg hl.ne.symm).trans (if_pos rfl))
  case parked =>
    intro p hp hne
    exact ⟨(h.parked p hp hne).1, h.parked_unschedule hl hret hp hne⟩

theorem Running.haltUnschedule (h : Running value m s c ps) {parent : Option Pid}
    (hf : m.frames = [.halting e parent .unschedule])
    (hr : m.haltNext e parent [] .unschedule = some r) : Advances value s c r.2 r.1 := by
  obtain ⟨q, rfl, hl, -, hret⟩ := h.left hf rfl
  have hown := h.own (by simp [hf])
  have hq : q ∈ ps := by
    by_contra hq
    cases (h.idle q hq).symm.trans hl.waiting
  obtain ⟨cur, hcur, hr⟩ := Option.bind_eq_some_iff.mp hr
  cases hown.1.1.symm.trans hcur
  simp only [Option.bind_eq_bind, Option.bind_some, h.pid _ h.mem, h.pid _ hq] at hr
  cases hr
  have hmarks : ∀ p, m.k.pidArr p = false → s p = .free ∨ p = m.stack := by
    intro p hp
    have hold := h.marks p hp
    rw [hf] at hold
    exact hold.imp_right And.right
  exact ⟨_, _, ps, Slots.move_eq hl.slot, if_pos ⟨q, hl.waiting⟩,
    h.toCalm.unschedule hl (hret rfl) hmarks, hown, h.directory⟩

end Machine
end GalapagOS
