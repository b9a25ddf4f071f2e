import GalapagOS.Machine.Invariant

/-!
# The statements of `kexecute`

Each statement of the running process leads from a state with the invariant to one with the
invariant again, and both protocols accept what the observer notes.
-/

namespace GalapagOS
namespace Machine

open Kernel FileSystem Paging

variable {value : Ending → ℕ} {k k' : Kernel} {m m' : Machine} {s s' : Slots} {c c' : Calls}
  {ps : List Pid} {p q n : Pid} {fs : List Frame} {call : ExecCall} {e : Ending}

/-- A state that the protocols lead to by the label `l`. -/
def Advances (value : Ending → ℕ) (s : Slots) (c : Calls) (l : Option Label) (m : Machine) : Prop :=
  ∃ s' c' ps, s.next l = some s' ∧ c.next value l = some c' ∧ Running value m s' c' ps

theorem Running.advances (h : Running value m s c ps) : Advances value s c none m :=
  ⟨s, c, ps, rfl, rfl, h⟩

theorem Slots.move_eq {old new : Slot} (h : s n = old) :
    s.move n old new = some (Function.update s n new) :=
  if_pos h

/-! ## What the invariant says about numbers -/

theorem Calm.marks_of (h : Calm value m s c ps) (hun : ∀ p, ¬Unmarked m.stack m.frames p)
    (hp : m.k.pidArr p = false) : s p = .free :=
  (h.marks p hp).resolve_right (hun p)

/-- A number that is neither live nor ended is not linked. -/
theorem Calm.notMem (h : Calm value m s c ps) (hn : ¬(s n = .live ∨ s n = .ended)) : n ∉ ps :=
  fun hmem => hn ((h.linked n).mp hmem)

theorem Calm.notMem_of_chosen (h : Calm value m s c ps) (hn : s n = .chosen p) : n ∉ ps :=
  h.notMem (by simp [hn])

theorem Calm.notMem_of_free (h : Calm value m s c ps) (hn : s n = .free) : n ∉ ps :=
  h.notMem (by simp [hn])

theorem Calm.ne_stack (h : Calm value m s c ps) (hn : n ∉ ps) : n ≠ m.stack :=
  fun he => hn (he ▸ h.mem)

theorem Calm.two_lt (h : Calm value m s c ps) (hn : n ∉ ps) : 2 < n :=
  not_le.mp fun hle => hn (h.shells n hle)

theorem ProcOk.mark_shell (h : ProcOk value k s c p fs) (hp : p ≤ 2) : k.pidArr p = true := by
  cases h with
  | user h | scan h | chosen h | marked h | created h | halt h | clear h => exact h.mark
  | waiting h | resumed h => exact h.mark
  | left _ hlt => exact absurd hlt (not_lt.mpr hp)
  | dead _ hlt => exact absurd hlt (not_lt.mpr hp)

/-- The shells keep their marks. -/
theorem Calm.mark_shell (h : Calm value m s c ps) (hp : p ≤ 2) : m.k.pidArr p = true := by
  by_cases hne : p = m.stack
  · rw [hne] at hp ⊢
    exact h.current.mark_shell hp
  · exact (h.parked p (h.shells p hp) hne).2.alive.mark

theorem Active.congr (h : Active k s c p) (hpidArr : k'.pidArr = k.pidArr)
    (hpcbs : k'.pcbs = k.pcbs) (hqueue : k'.queue = k.queue) : Active k' s c p := by
  refine ⟨⟨by rw [hpidArr, h.mark], h.slot, fun hlt => ?_⟩, h.idle, by rw [hqueue, h.running]⟩
  rw [hpcbs]
  exact h.parent hlt

/-- Another slot changes. -/
theorem Active.update_slot (h : Active k s c p) (hne : n ≠ p) (new : Slot) :
    Active k (Function.update s n new) c p :=
  ⟨⟨h.mark, (Function.update_of_ne hne.symm new s).trans h.slot, h.parent⟩, h.idle, h.running⟩

/-- A slot that the running process chooses or gives back. -/
theorem Calm.update_slot (h : Calm value m s c ps) {new : Slot}
    (hn : s n = .free ∨ s n = .chosen m.stack) (hnew : new = .free ∨ new = .chosen m.stack)
    (hpidArr : k'.pidArr = m.k.pidArr) (hpcbs : k'.pcbs = m.k.pcbs) (hqueue : k'.queue = m.k.queue)
    (hmarks : ∀ p, m.k.pidArr p = false → Function.update s n new p = .free ∨
      Unmarked m.stack fs p)
    (hcurrent : ProcOk value k' (Function.update s n new) c m.stack fs) :
    Calm value (m.goto k' fs) (Function.update s n new) c ps := by
  have hns : n ≠ m.stack := by
    rintro rfl
    rcases h.slot_stack with he | he <;> rcases hn with hn | hn <;> rw [hn] at he <;> cases he
  have htable : ∀ p, k'.table p = m.k.table p := fun p => by rw [table, hpcbs]; rfl
  refine h.step hqueue (Function.update_of_ne hns.symm _ _) (fun p hp => ?_) (fun p hps hp => ?_)
    (fun _ _ => .rfl) (fun _ _ => rfl) (by rwa [hpidArr]) (by rw [hpcbs]) (by rw [hpcbs]) ?_ hcurrent
  · have hpn : p ≠ n := by
      rintro rfl
      rcases hn with hn | hn
      · exact hp.2.1 hn
      · exact hp.2.2 hn
    exact ⟨Function.update_of_ne hpn _ _, ⟨by rw [hpidArr], by rw [hpcbs], by rw [hpcbs],
      by rw [hpcbs], fun h => by rwa [htable]⟩, fun _ _ => by rw [hpcbs]⟩
  · rw [Function.update_apply]
    split
    · exact hnew
    · unfold Foreign at hp
      tauto
  · rw [htable]
    exact h.files _ h.mem

/-! ## Choosing a number -/

section Choose

variable {command : Option (List UInt8)} {st : Stale} {idx : ℕ}

theorem Running.scanNext (h : Running value m s c ps) (hf : m.frames = [.scan command st idx]) :
    Advances value s c (m.scanNext command st idx []).2 (m.scanNext command st idx []).1 := by
  have hcur := h.current
  have hcpu := h.onCpu
  simp only [OnCpu, hf] at hcpu
  have hmarks : ∀ p, m.k.pidArr p = false → s p = .free :=
    fun p => h.marks_of (by simp [hf, Unmarked])
  rw [hf] at hcur
  cases hcur with
  | scan hact =>
    unfold Machine.scanNext
    split
    · rename_i hlt
      split
      · have hcalm := h.toCalm.goOn [.scan command st (idx + 1)]
          (fun p hp => .inl (hmarks p hp)) (.scan hact)
        exact Running.advances ⟨hcalm, hcpu, h.directory⟩
      · -- the first number without a mark is free
        rename_i hfalse
        obtain ⟨n, rfl⟩ : ∃ n : Pid, n.val = idx := ⟨⟨idx, hlt⟩, rfl⟩
        have hmark : m.k.pidArr n = false := by simpa using hfalse
        have hfree := hmarks n hmark
        have hns := h.ne_stack (h.notMem_of_free hfree)
        have hmarks' : ∀ p, m.k.pidArr p = false →
            Function.update s n (.chosen m.stack) p = .free ∨
              Unmarked m.stack [.exec ⟨command, st, n, 0⟩ .parse] p := by
          intro p hp
          by_cases hpn : p = n
          · exact .inr ⟨rfl, hpn⟩
          · rw [Function.update_of_ne hpn]
            exact .inl (hmarks p hp)
        have hcalm : Calm value (m.goto m.k [.exec ⟨command, st, n, 0⟩ .parse])
            (Function.update s n (.chosen m.stack)) c ps :=
          h.toCalm.update_slot (.inl hfree) (.inr rfl) rfl rfl rfl hmarks'
            (.chosen (hact.update_slot hns _) rfl (Function.update_self ..) hmark)
        exact ⟨_, c, ps, Slots.move_eq hfree, rfl, ⟨hcalm, hcpu, h.directory⟩⟩
    · have hcalm := h.toCalm.goOn [] (fun p hp => .inl (hmarks p hp)) (.user hact)
      exact Running.advances ⟨hcalm, hcpu, h.directory⟩

end Choose

/-! ## `kexecute` before the mark -/

theorem execOnCpu_choosing {pc : ExecPc} (hpc : phase pc = .choosing) :
    ExecOnCpu m call pc ↔ Own m := by
  cases pc <;> first | exact .rfl | cases hpc

/-- What a chosen number is for the running process. -/
theorem Running.chosen (h : Running value m s c ps) {pc : ExecPc} (hf : m.frames = [.exec call pc])
    (hpc : phase pc = .choosing) : Active m.k s c m.stack ∧ s call.pid = .chosen m.stack ∧
      m.k.pidArr call.pid = false ∧ Own m := by
  have hcur := h.current
  have hcpu := h.onCpu
  rw [hf] at hcur
  simp only [OnCpu, hf, execOnCpu_choosing hpc] at hcpu
  cases hcur with
  | chosen hact _ hch hmark => exact ⟨hact, hch, hmark, hcpu⟩
  | marked => cases hpc
  | created _ hpc' | waiting _ hpc' | resumed _ hpc' => cases hpc.symm.trans hpc'

/-- Changes that leave the current process alone. -/
theorem Own.congr (h : Own m) (hpcbs : k'.pcbs = m.k.pcbs)
    (hcpu : k'.currProcess = m.k.currProcess ∧ k'.desc = m.k.desc ∧ k'.esp0 = m.k.esp0) :
    Own (m.goto k' fs) := by
  change (k'.currProcess = some m.stack ∧ k'.desc = some m.stack) ∧
    k'.esp0 = (k'.pcbs m.stack).kernelStack
  rw [hcpu.1, hcpu.2.1, hcpu.2.2, hpcbs]
  exact h

/-- The call returns `ERROR` and gives the number back. -/
theorem Running.abandon (h : Running value m s c ps) {pc : ExecPc} (hf : m.frames = [.exec call pc])
    (hpc : phase pc = .choosing) (k' : Kernel) (hpidArr : k'.pidArr = m.k.pidArr)
    (hpcbs : k'.pcbs = m.k.pcbs) (hqueue : k'.queue = m.k.queue)
    (hcpu : k'.currProcess = m.k.currProcess ∧ k'.desc = m.k.desc ∧ k'.esp0 = m.k.esp0)
    (hcr3 : k'.cr3 = m.k.cr3) :
    Advances value s c (some (.abandoned m.stack call.pid)) (m.goto k' []) := by
  obtain ⟨hact, hch, -, hown⟩ := h.chosen hf hpc
  have hns := h.ne_stack (h.notMem_of_chosen hch)
  have hmarks : ∀ p, m.k.pidArr p = false → Function.update s call.pid .free p = .free ∨
      Unmarked m.stack [] p := by
    intro p hp
    by_cases hpn : p = call.pid
    · rw [hpn]
      exact .inl (Function.update_self ..)
    · rw [Function.update_of_ne hpn]
      have hmark := h.marks p hp
      rw [hf] at hmark
      exact .inl (hmark.resolve_right fun hun => hpn hun.2)
  have hcalm := h.toCalm.update_slot (.inr hch) (.inl rfl) hpidArr hpcbs hqueue hmarks
    (.user ((hact.congr hpidArr hpcbs hqueue).update_slot hns _))
  refine ⟨_, c, ps, Slots.move_eq hch, rfl, hcalm, hown.congr hpcbs hcpu, fun p hp hne => ?_⟩
  change k'.cr3 ≠ some p
  rw [hcr3]
  exact h.directory p hp hne

/-- A statement before the mark. -/
theorem Running.choosing (h : Running value m s c ps) {pc : ExecPc}
    (hf : m.frames = [.exec call pc]) (hpc : phase pc = .choosing) (k' : Kernel) (call' : ExecCall)
    (pc' : ExecPc) (hpc' : phase pc' = .choosing) (hcall : call'.pid = call.pid)
    (hpidArr : k'.pidArr = m.k.pidArr) (hpcbs : k'.pcbs = m.k.pcbs) (hqueue : k'.queue = m.k.queue)
    (hcpu : k'.currProcess = m.k.currProcess ∧ k'.desc = m.k.desc ∧ k'.esp0 = m.k.esp0)
    (hcr3 : k'.cr3 = m.k.cr3 ∨ k'.cr3 = some call.pid) :
    Running value (m.goto k' [.exec call' pc']) s c ps := by
  obtain ⟨hact, hch, hmark, hown⟩ := h.chosen hf hpc
  have hmarks : ∀ p, k'.pidArr p = false → s p = .free ∨
      Unmarked m.stack [.exec call' pc'] p := by
    intro p hp
    have hold := h.marks p (by rwa [← hpidArr])
    rw [hf] at hold
    exact hold.imp_right fun hun => ⟨hpc', hun.2.trans hcall.symm⟩
  have hcalm := h.toCalm.quiet hpidArr hpcbs hqueue hmarks (.chosen
    (hact.congr hpidArr hpcbs hqueue) hpc' (by rwa [hcall]) (by rw [hcall, hpidArr, hmark]))
  refine ⟨hcalm, (execOnCpu_choosing hpc').mpr (hown.congr hpcbs hcpu), fun p hp hne => ?_⟩
  change k'.cr3 ≠ some p
  rcases hcr3 with he | he
  · rw [he]
    exact h.directory p hp hne
  · rw [he]
    intro heq
    exact h.notMem_of_chosen hch (Option.some.inj heq ▸ hp)

variable {r : Machine × Option Label}

theorem Running.execParse (h : Running value m s c ps) (hf : m.frames = [.exec call .parse])
    (hr : m.execNext call [] .parse = some r) : Advances value s c r.2 r.1 := by
  simp only [execNext] at hr
  split at hr
  · cases hr
    exact h.abandon hf rfl m.k rfl rfl rfl ⟨rfl, rfl, rfl⟩ rfl
  · cases hr
    exact Running.advances
      (h.choosing hf rfl m.k _ .enterPaging rfl rfl rfl rfl rfl ⟨rfl, rfl, rfl⟩ (.inl rfl))

theorem Running.execEnterPaging (h : Running value m s c ps)
    (hf : m.frames = [.exec call .enterPaging])
    (hr : m.execNext call [] .enterPaging = some r) : Advances value s c r.2 r.1 := by
  obtain ⟨k', hk', he⟩ := Option.bind_eq_some_iff.mp hr
  cases he
  unfold enterPaging at hk'
  split at hk'
  · obtain ⟨cur, -, hk'⟩ := Option.map_eq_some_iff.mp hk'
    subst hk'
    exact Running.advances
      (h.choosing hf rfl _ call .load rfl rfl rfl rfl rfl ⟨rfl, rfl, rfl⟩ (.inr rfl))
  · cases hk'
    exact Running.advances
      (h.choosing hf rfl _ call .load rfl rfl rfl rfl rfl ⟨rfl, rfl, rfl⟩ (.inr rfl))

theorem Running.execLoad (h : Running value m s c ps) (hf : m.frames = [.exec call .load])
    (hr : m.execNext call [] .load = some r) : Advances value s c r.2 r.1 := by
  obtain ⟨⟨k', ok⟩, hk', he⟩ := Option.bind_eq_some_iff.mp hr
  obtain ⟨bytes, hacc⟩ := loadProgram_eq_some hk'
  obtain ⟨phys, rfl⟩ := access_eq_some hacc
  cases ok with
  | false =>
    cases he
    exact h.abandon hf rfl _ rfl rfl rfl ⟨rfl, rfl, rfl⟩ rfl
  | true =>
    cases he
    exact Running.advances
      (h.choosing hf rfl _ call .mark rfl rfl rfl rfl rfl ⟨rfl, rfl, rfl⟩ (.inl rfl))

/-! ## `kexecute` from the mark to `schedule` -/

theorem kept_markPid {b : Bool} (hne : p ≠ n) : Kept k (k.markPid n b) p :=
  ⟨Function.update_of_ne hne _ _, rfl, rfl, rfl, id⟩

/-- A control block that is not written. -/
theorem kept_of_pcb (hpidArr : k'.pidArr = k.pidArr) (hpcb : k'.pcbs p = k.pcbs p) :
    Kept k k' p := by
  refine ⟨by rw [hpidArr], by rw [hpcb], by rw [hpcb], by rw [hpcb], fun h => ?_⟩
  rw [table, hpcb]
  exact h

theorem Foreign.ne_chosen (h : Foreign s p q) (hn : s n = .chosen p) : q ≠ n := by
  rintro rfl
  exact h.2.2 hn

theorem Running.execMark (h : Running value m s c ps) (hf : m.frames = [.exec call .mark])
    (hr : m.execNext call [] .mark = some r) : Advances value s c r.2 r.1 := by
  obtain ⟨hact, hch, hmark, hown⟩ := h.chosen hf rfl
  have hns := h.ne_stack (h.notMem_of_chosen hch)
  cases hr
  have hmarks : ∀ p, (m.k.markPid call.pid true).pidArr p = false → s p = .free ∨
      Unmarked m.stack [.exec call .pcbInit] p := by
    intro p hp
    have hpn : p ≠ call.pid := by
      rintro rfl
      simp [markPid] at hp
    have hold := h.marks p ((kept_markPid hpn).mark.symm.trans hp)
    rw [hf] at hold
    exact .inl (hold.resolve_right fun hun => hpn hun.2)
  have hcalm : Calm value (m.goto (m.k.markPid call.pid true) [.exec call .pcbInit]) s c ps :=
    h.toCalm.local rfl (fun p hp => ⟨kept_markPid (hp.ne_chosen hch), fun _ _ => rfl⟩) hmarks rfl
      rfl (h.files _ h.mem) (.marked (hact.kept (kept_markPid hns.symm) rfl rfl rfl fun _ => id) hch
        (Function.update_self ..))
  exact Running.advances ⟨hcalm, hown, h.directory⟩

theorem Running.execPcbInit (h : Running value m s c ps) (hf : m.frames = [.exec call .pcbInit])
    (hr : m.execNext call [] .pcbInit = some r) : Advances value s c r.2 r.1 := by
  have hcur := h.current
  have hown : Own m := by
    have hcpu := h.onCpu
    rwa [OnCpu, hf] at hcpu
  rw [hf] at hcur
  cases hr
  cases hcur with
  | chosen _ hpc | created _ hpc | waiting _ hpc | resumed _ hpc => cases hpc
  | marked hact hch hmark =>
    have hnot := h.notMem_of_chosen hch
    have hns := h.ne_stack hnot
    obtain ⟨k', hk'⟩ : ∃ k', k' = m.k.pcbInit call.pid (readEip m.k.img call.inode call.st.eip)
      call.cmd call.args := ⟨_, rfl⟩
    have hpcbs := pcbs_pcbInit hown.1.1 (h.two_lt hnot) hns
      (readEip m.k.img call.inode call.st.eip) call.cmd call.args
    have hrest := pcbInit_rest m.k call.pid (readEip m.k.img call.inode call.st.eip)
      call.cmd call.args
    rw [← hk'] at hpcbs hrest
    have hself := hpcbs m.stack
    have hnew := hpcbs call.pid
    rw [if_neg hns.symm, if_pos rfl] at hself
    rw [if_pos rfl] at hnew
    have hkept : ∀ p, p ≠ call.pid → Kept m.k k' p := by
      intro p hpn
      have hp := hpcbs p
      rw [if_neg hpn] at hp
      by_cases hps : p = m.stack
      · subst hps
        refine ⟨by rw [hrest], by rw [hself], by rw [hself], by rw [hself], fun hok => ?_⟩
        rw [table, hself]
        exact hok
      · rw [if_neg hps] at hp
        exact kept_of_pcb (by rw [hrest]) hp
    have hret : ∀ p, p ≠ call.pid → (k'.pcbs p).retStatus = (m.k.pcbs p).retStatus := by
      intro p hpn
      rw [hpcbs p, if_neg hpn]
      split
      · rename_i he
        rw [he]
        rfl
      · rfl
    have hmarks : ∀ p, k'.pidArr p = false → s p = .free ∨
        Unmarked m.stack [.exec call .setCurrent] p := by
      intro p hp
      have hold := h.marks p (by rwa [hrest] at hp)
      rw [hf] at hold
      exact .inl (hold.resolve_right fun hun => by cases hun.1)
    have hcreated : ProcOk value k' s c m.stack [.exec call .setCurrent] :=
      .created (hact.kept (hkept _ hns.symm) (by rw [hrest]) rfl rfl fun _ => id) rfl hch
        (by rw [hrest]; exact hmark) (by rw [hnew]; rfl) (by rw [hnew]; rfl) (by rw [hnew]; rfl)
    have hcalm := h.toCalm.local (by rw [hrest])
      (fun p hp => ⟨hkept p (hp.ne_chosen hch), fun _ _ => hret p (hp.ne_chosen hch)⟩) hmarks
      (hkept _ hns.symm).pid (hkept _ hns.symm).kernelStack
      ((hkept _ hns.symm).files (h.files _ h.mem)) hcreated
    refine Running.advances ⟨by rwa [← hk'], ?_, ?_⟩
    · rw [← hk']
      change (k'.currProcess = some m.stack ∧ k'.desc = some m.stack) ∧
        k'.esp0 = (k'.pcbs m.stack).kernelStack
      rw [(hkept _ hns.symm).kernelStack, hrest]
      exact hown
    · rw [← hk']
      change ∀ p ∈ ps, p ≠ m.stack → k'.cr3 ≠ some p
      rw [hrest]
      exact h.directory

/-- What the running process has created. -/
theorem Running.created (h : Running value m s c ps) {pc : ExecPc} (hf : m.frames = [.exec call pc])
    (hpc : phase pc = .creating) : Active m.k s c m.stack ∧ s call.pid = .chosen m.stack ∧
      m.k.pidArr call.pid = true ∧ (m.k.pcbs call.pid).pid = call.pid ∧
      (m.k.pcbs call.pid).kernelStack = getKstackAddress call.pid ∧
      (m.k.pcbs call.pid).parent = some m.stack := by
  have hcur := h.current
  rw [hf] at hcur
  cases hcur with
  | created hact _ hch hmark hpid hstack hparent => exact ⟨hact, hch, hmark, hpid, hstack, hparent⟩
  | marked => cases hpc
  | chosen _ hpc' | waiting _ hpc' | resumed _ hpc' => cases hpc.symm.trans hpc'

/-- A statement that writes to the new control block. -/
theorem Running.creating (h : Running value m s c ps) {pc : ExecPc}
    (hf : m.frames = [.exec call pc]) (hpc : phase pc = .creating) (k' : Kernel) (pc' : ExecPc)
    (hpc' : phase pc' = .creating) (hpidArr : k'.pidArr = m.k.pidArr)
    (hqueue : k'.queue = m.k.queue) (hne : ∀ p, p ≠ call.pid → k'.pcbs p = m.k.pcbs p)
    (hnew : (k'.pcbs call.pid).pid = (m.k.pcbs call.pid).pid ∧
      (k'.pcbs call.pid).kernelStack = (m.k.pcbs call.pid).kernelStack ∧
      (k'.pcbs call.pid).parent = (m.k.pcbs call.pid).parent)
    (hcpu : ExecOnCpu (m.goto k' [.exec call pc']) call pc')
    (hcr3 : k'.cr3 = m.k.cr3 ∨ k'.cr3 = some m.stack) :
    Running value (m.goto k' [.exec call pc']) s c ps := by
  obtain ⟨hact, hch, hmark, hpid, hstack, hparent⟩ := h.created hf hpc
  have hns := h.ne_stack (h.notMem_of_chosen hch)
  have hkept : ∀ p, p ≠ call.pid → Kept m.k k' p := fun p hp => kept_of_pcb hpidArr (hne p hp)
  have hmarks : ∀ p, k'.pidArr p = false → s p = .free ∨ Unmarked m.stack [.exec call pc'] p := by
    intro p hp
    have hold := h.marks p (by rwa [← hpidArr])
    rw [hf] at hold
    exact .inl (hold.resolve_right fun hun => by cases hpc.symm.trans hun.1)
  have hcalm := h.toCalm.local hqueue
    (fun p hp => ⟨hkept p (hp.ne_chosen hch), fun _ _ => by rw [hne p (hp.ne_chosen hch)]⟩) hmarks
    (hkept _ hns.symm).pid (hkept _ hns.symm).kernelStack
    ((hkept _ hns.symm).files (h.files _ h.mem))
    (.created (hact.kept (hkept _ hns.symm) (by rw [hqueue]) rfl rfl fun _ => id) hpc' hch
      (by rw [hpidArr, hmark]) (hnew.1.trans hpid) (hnew.2.1.trans hstack) (hnew.2.2.trans hparent))
  refine ⟨hcalm, hcpu, fun p hp hps => ?_⟩
  change k'.cr3 ≠ some p
  rcases hcr3 with he | he
  · rw [he]
    exact h.directory p hp hps
  · rw [he]
    exact fun heq => hps (Option.some.inj heq).symm

theorem Running.execSetCurrent (h : Running value m s c ps)
    (hf : m.frames = [.exec call .setCurrent]) (hr : m.execNext call [] .setCurrent = some r) :
    Advances value s c r.2 r.1 := by
  cases hr
  have hnew : (m.k.setCurrentProcess call.pid).pcbs call.pid
      = { m.k.pcbs call.pid with files := clearFdarray (m.k.pcbs call.pid).files } :=
    Function.update_self ..
  exact Running.advances (h.creating hf rfl _ .openStd rfl rfl rfl
    (fun p hp => Function.update_of_ne hp _ _) (by rw [hnew]; exact ⟨rfl, rfl, rfl⟩) ⟨m.k, rfl⟩
    (.inl rfl))

theorem Running.execOpenStd (h : Running value m s c ps) (hf : m.frames = [.exec call .openStd])
    (hr : m.execNext call [] .openStd = some r) : Advances value s c r.2 r.1 := by
  have hcpu := h.onCpu
  rw [OnCpu, hf] at hcpu
  obtain ⟨k₀, hk₀⟩ := hcpu
  obtain ⟨f, hok, hstd⟩ := openStdinStdout_setCurrentProcess k₀ call.pid
  simp only [execNext, hk₀, hstd, Option.bind_eq_bind, Option.bind_some] at hr
  cases hr
  refine Running.advances (h.creating hf rfl _ .restoreParent rfl (by rw [hk₀]; rfl)
    (by rw [hk₀]; rfl) (fun p hp => ?_) ?_ ⟨⟨rfl, rfl⟩, ?_⟩ (.inl (by rw [hk₀]; rfl)))
  · rw [hk₀]
    simp [setCurrentProcess, modifyPcb, hp]
  · rw [hk₀]
    simp [setCurrentProcess, modifyPcb]
  · simpa [goto, table, modifyPcb] using hok

/-- The stack pointers in the block of the running process are not looked at. -/
theorem Running.saveOwn (h : Running value m s c ps) (x : Pid × List Frame) :
    Running value { m with saved := Function.update m.saved m.stack x } s c ps := by
  refine ⟨{ h.toCalm with parked := fun p hp hne => ?_ }, h.onCpu, h.directory⟩
  have hsame : Function.update m.saved m.stack x p = m.saved p := Function.update_of_ne hne ..
  show (Function.update m.saved m.stack x p).1 = p ∧
    Parked value m.k s c p (Function.update m.saved m.stack x p).2
  rw [hsame]
  exact h.parked p hp hne

theorem Running.execRestoreParent (h : Running value m s c ps)
    (hf : m.frames = [.exec call .restoreParent])
    (hr : m.execNext call [] .restoreParent = some r) : Advances value s c r.2 r.1 := by
  obtain ⟨-, -, -, -, -, hparent⟩ := h.created hf rfl
  have hcpu := h.onCpu
  rw [OnCpu, hf] at hcpu
  obtain ⟨⟨hcurr, hdesc⟩, hok⟩ := hcpu
  have hk' : m.k.restoreParent call.pid = m.k.switchPaging m.stack := by
    simp only [restoreParent, hparent, h.pid _ h.mem]
  -- the parent of the child is the process that runs
  have hsaved := saveParent_of_parent hparent []
  simp only [execNext, hcurr, Option.bind_eq_bind, Option.bind_some, hk', hsaved] at hr
  cases hr
  have hgoto : Running value (m.goto (m.k.switchPaging m.stack) [.exec call .schedule]) s c ps :=
    h.creating hf rfl _ .schedule rfl rfl rfl (fun _ _ => rfl) ⟨rfl, rfl, rfl⟩
      ⟨⟨hcurr, hdesc⟩, hok, rfl⟩ (.inr rfl)
  exact Running.advances (hgoto.saveOwn (m.stack, []))

/-! ## `schedule` -/

theorem ProcOk.slot_of_waiting (h : ProcOk value k s c p fs) (hw : c p = .waiting n) :
    s n = .live := by
  cases h with
  | user h | scan h | chosen h | marked h | created h | halt h | clear h =>
    rw [h.idle] at hw
    cases hw
  | waiting _ _ _ hcall hlive =>
    cases hcall.symm.trans hw
    exact hlive
  | resumed _ _ _ hcall => cases hcall.symm.trans hw
  | left _ _ _ hidle | dead _ _ _ hidle => cases hidle.symm.trans hw

/-- A call waits for a live child only. -/
theorem Calm.slot_of_waiting (h : Calm value m s c ps) (hw : c p = .waiting n) : s n = .live := by
  have hp : p ∈ ps := by
    by_contra hp
    rw [h.idle p hp] at hw
    cases hw
  by_cases hne : p = m.stack
  · rw [hne] at hw
    exact h.current.slot_of_waiting hw
  · exact (h.parked p hp hne).2.ok.slot_of_waiting hw

/-- Other calls keep waiting. -/
theorem waiting_update {x : Pid} {new : CallState} (hx : ∀ n, c x ≠ .waiting n)
    (hw : c q = .waiting p) : Function.update c x new q = .waiting p := by
  have hne : q ≠ x := by
    rintro rfl
    exact hx p hw
  rw [Function.update_of_ne hne, hw]

/-- `schedule(n)` for a child of the running process. -/
theorem Calm.queue_schedule (h : Calm value m s c ps)
    (hparent : (m.k.pcbs n).parent = some m.stack) :
    (m.k.schedule n).queue = Schedule.schedule m.k.queue n (some m.stack) := by
  simp only [Kernel.schedule, hparent, Option.map_some, h.pid _ h.mem]

theorem Calm.running_schedule (h : Calm value m s c ps)
    (hparent : (m.k.pcbs n).parent = some m.stack) (p : Pid) :
    ((m.k.schedule n).queue.node (.task p)).running
      = if p = m.stack then .inactive else if p = n then .running
        else (m.k.queue.node (.task p)).running := by
  rw [h.queue_schedule hparent, Schedule.running_schedule]
  simp only [Option.some.injEq, eq_comm]

/-- The new waiting call is the only one for its child. -/
theorem Calm.unique_schedule (h : Calm value m s c ps) (hch : s n = .chosen m.stack) {p q i : Pid}
    (hp : Function.update c m.stack (.waiting n) p = .waiting i)
    (hq : Function.update c m.stack (.waiting n) q = .waiting i) : p = q := by
  have hnone : ∀ q, c q ≠ .waiting n := by
    intro q hq
    have hlive := h.slot_of_waiting hq
    rw [hch] at hlive
    cases hlive
  rw [Function.update_apply] at hp hq
  split at hp <;> split at hq
  · rename_i hps hqs
    rw [hps, hqs]
  · cases hp
    exact absurd hq (hnone q)
  · cases hq
    exact absurd hp (hnone p)
  · exact h.unique p q i hp hq

/-- The other processes do not notice the new one. -/
theorem Calm.parked_schedule (h : Calm value m s c ps) (hidle : c m.stack = .idle)
    (hch : s n = .chosen m.stack) (hparent : (m.k.pcbs n).parent = some m.stack) (hp : p ∈ ps)
    (hne : p ≠ m.stack) :
    (m.saved p).1 = p ∧ Parked value (m.k.schedule n) (Function.update s n .live)
      (Function.update c m.stack (.waiting n)) p (m.saved p).2 := by
  have hpn : p ≠ n := fun he => h.notMem_of_chosen hch (he ▸ hp)
  obtain ⟨hsaved, hparked⟩ := h.parked p hp hne
  refine ⟨hsaved, hparked.kept ⟨rfl, rfl, rfl, rfl, id⟩ ?_ (fun _ _ => rfl)
    (Function.update_of_ne hpn _ _) (Function.update_of_ne hne _ _)
    (fun q hw => waiting_update (by simp [hidle]) hw) ?_ ?_⟩
  · exact (h.running_schedule hparent p).trans ((if_neg hne).trans (if_neg hpn))
  · intro i hi
    refine ⟨Function.update_of_ne ?_ _ _, ⟨rfl, rfl, rfl, rfl, id⟩⟩
    rintro rfl
    rw [hch] at hi
    exact hne (Slot.chosen.inj hi).symm
  · intro i _ hi
    rw [Function.update_apply]
    split
    · rfl
    · exact hi

/-- `schedule(n)` links the new process and makes the running one inactive. -/
theorem Calm.schedule (h : Calm value m s c ps) (hact : Active m.k s c m.stack)
    (hch : s call.pid = .chosen m.stack) (hmark : m.k.pidArr call.pid = true)
    (hpid : (m.k.pcbs call.pid).pid = call.pid)
    (hstack : (m.k.pcbs call.pid).kernelStack = getKstackAddress call.pid)
    (hparent : (m.k.pcbs call.pid).parent = some m.stack) (hfiles : TableOk (m.k.table call.pid))
    (hun : ∀ p, ¬Unmarked m.stack m.frames p) :
    Calm value { m.goto (m.k.schedule call.pid) [.exec call .openShells] with
        saved := Function.update m.saved call.pid (call.pid, []) }
      (Function.update s call.pid .live) (Function.update c m.stack (.waiting call.pid))
      (ps ++ [call.pid]) := by
  have hnot := h.notMem_of_chosen hch
  have hns := h.ne_stack hnot
  have hqueue := h.queue_schedule hparent
  have hrun := h.running_schedule hparent
  have hmem : ∀ p, p ∈ ps ++ [call.pid] ↔ p ∈ ps ∨ p = call.pid := by simp
  constructor
  case queue =>
    change Schedule.IsQueue (m.k.schedule call.pid).queue _
    rw [hqueue]
    exact h.queue.schedule hnot _
  case currNode =>
    change (m.k.schedule call.pid).queue.currNode = _
    rw [hqueue, Schedule.currNode_schedule, h.currNode]
    rfl
  case mem => exact (hmem _).mpr (.inl h.mem)
  case shells => exact fun p hp => (hmem p).mpr (.inl (h.shells p hp))
  case linked =>
    intro p
    rw [hmem, h.linked, Function.update_apply]
    split
    · rename_i he
      simp [he]
    · rename_i hne
      simp [hne]
  case marks =>
    intro p hp
    have hfree : s p = .free := h.marks_of hun hp
    have hpn : p ≠ call.pid := by
      rintro rfl
      rw [hch] at hfree
      cases hfree
    rw [Function.update_of_ne hpn]
    exact .inl hfree
  case idle =>
    intro p hp
    rw [hmem, not_or] at hp
    rw [Function.update_of_ne (h.ne_stack hp.1), h.idle p hp.1]
  case unique => exact fun _ _ _ hp hq => h.unique_schedule hch hp hq
  case pid =>
    intro p hp
    rcases (hmem p).mp hp with hp | rfl
    · exact h.pid p hp
    · exact hpid
  case kernelStack =>
    intro p hp
    rcases (hmem p).mp hp with hp | rfl
    · exact h.kernelStack p hp
    · exact hstack
  case files =>
    intro p hp
    rcases (hmem p).mp hp with hp | rfl
    · exact h.files p hp
    · exact hfiles
  case current =>
    have halive : Alive (m.k.schedule call.pid) (Function.update s call.pid .live)
        (Function.update c m.stack (.waiting call.pid)) m.stack :=
      hact.toAlive.kept ⟨rfl, rfl, rfl, rfl, id⟩ (Function.update_of_ne hns.symm _ _)
        fun q hw => waiting_update (by simp [hact.idle]) hw
    refine .waiting halive rfl (h.two_lt hnot) (Function.update_self ..) (Function.update_self ..) ?_
    exact (hrun _).trans (if_pos rfl)
  case parked =>
    intro p hp hne
    rcases (hmem p).mp hp with hp | rfl
    · have hpn : p ≠ call.pid := fun he => hnot (he ▸ hp)
      dsimp only
      rw [Function.update_of_ne hpn]
      exact h.parked_schedule hact.idle hch hparent hp hne
    · -- the child starts in user mode
      dsimp only
      rw [Function.update_self]
      refine ⟨rfl, .user ⟨⟨hmark, Function.update_self .., fun _ => ?_⟩, ?_, ?_⟩, id, ?_⟩
      · exact ⟨m.stack, hparent, Function.update_self ..⟩
      · rw [Function.update_of_ne hns, h.idle _ hnot]
      · exact (hrun _).trans ((if_neg hns).trans (if_pos rfl))
      · rw [Function.update_self]
        simp

theorem Running.execSchedule (h : Running value m s c ps) (hf : m.frames = [.exec call .schedule])
    (hr : m.execNext call [] .schedule = some r) : Advances value s c r.2 r.1 := by
  obtain ⟨hact, hch, hmark, hpid, hstack, hparent⟩ := h.created hf rfl
  have hnot := h.notMem_of_chosen hch
  have hcpu := h.onCpu
  rw [OnCpu, hf] at hcpu
  obtain ⟨⟨hcurr, -⟩, hok, hcr3⟩ := hcpu
  simp only [execNext, hcurr, Option.bind_eq_bind, Option.bind_some, hpid,
    h.queue.unlinked _ hnot] at hr
  cases hr
  have hidle : c m.stack = .idle ∧ ∀ q, c q ≠ .waiting call.pid := by
    refine ⟨hact.idle, fun q hq => ?_⟩
    have hlive := h.slot_of_waiting hq
    rw [hch] at hlive
    cases hlive
  have hcalm := h.toCalm.schedule hact hch hmark hpid hstack hparent hok (by simp [hf, Unmarked, phase])
  refine ⟨_, _, _, Slots.move_eq hch, if_pos hidle, hcalm, trivial, fun p hp hne => ?_⟩
  change m.k.cr3 ≠ some p
  rw [hcr3]
  exact fun he => hne (Option.some.inj he).symm

/-! ## `kexecute` after `schedule` -/

/-- The three shells have been started already. -/
theorem Running.openShells_eq (h : Running value m s c ps)
    (hf : m.frames = [.exec call .openShells]) :
    m.execNext call [] .openShells = some (m.goto m.k [.exec call .int32], none) := by
  have hcur := h.current
  rw [hf] at hcur
  have hcall : 2 < call.pid := by
    cases hcur with
    | chosen _ hpc | created _ hpc => cases hpc
    | waiting _ _ hlt | resumed _ _ hlt => exact hlt
  have hroot : m.k.setRoot call.pid = m.k := dif_neg (three_le_of_two_lt hcall).2
  have hshells : ∀ eip inode cmd args,
      m.k.openOtherShells call.pid eip inode cmd args = some (m.k, true) := by
    intro eip inode cmd args
    rw [openOtherShells, if_neg fun hcond => hcond.2.1 (h.mark_shell (by decide))]
  simp only [execNext, hroot, hshells, Option.bind_eq_bind, Option.bind_some, if_true,
    Option.pure_def]

theorem Running.execOpenShells (h : Running value m s c ps)
    (hf : m.frames = [.exec call .openShells])
    (hr : m.execNext call [] .openShells = some r) : Advances value s c r.2 r.1 := by
  have hcur := h.current
  rw [hf] at hcur
  cases (h.openShells_eq hf).symm.trans hr
  have hmarks : ∀ p, m.k.pidArr p = false → s p = .free ∨
      Unmarked m.stack [.exec call .int32] p :=
    fun p hp => .inl (h.marks_of (by simp [hf, Unmarked, phase]) hp)
  cases hcur with
  | chosen _ hpc | created _ hpc => cases hpc
  | waiting hal _ hlt hw hlive hin =>
    have hcalm := h.toCalm.goOn _ hmarks (.waiting hal rfl hlt hw hlive hin)
    exact Running.advances ⟨hcalm, trivial, h.directory⟩
  | resumed hal _ hlt he hval hrun =>
    have hcalm := h.toCalm.goOn _ hmarks (.resumed hal rfl hlt he hval hrun)
    exact Running.advances ⟨hcalm, trivial, h.directory⟩

/-- The return value is what the child left. -/
theorem Running.execRet (h : Running value m s c ps) (hf : m.frames = [.exec call .ret])
    (hr : m.execNext call [] .ret = some r) : Advances value s c r.2 r.1 := by
  have hcur := h.current
  have hcpu := h.onCpu
  rw [hf] at hcur
  rw [OnCpu, hf] at hcpu
  obtain ⟨hown, hrun⟩ := hcpu
  simp only [execNext, hown.1.1, Option.bind_eq_bind, Option.bind_some] at hr
  cases hr
  cases hcur with
  | chosen _ hpc | created _ hpc => cases hpc
  | waiting _ _ _ _ _ hin =>
    rw [hrun] at hin
    cases hin
  | resumed hal _ _ he hval _ =>
    have hx : ∀ n, c m.stack ≠ .waiting n := by simp [he]
    have hwait : ∀ p n, Function.update c m.stack .idle p = .waiting n ↔ c p = .waiting n := by
      intro p n
      by_cases hp : p = m.stack
      · simp [hp, he]
      · rw [Function.update_of_ne hp]
    have huser : ProcOk value m.k s (Function.update c m.stack .idle) m.stack [] :=
      .user ⟨hal.kept (Kept.refl _ _) rfl fun q hq => waiting_update hx hq,
        Function.update_self .., hrun⟩
    have hcalm := h.toCalm.step rfl rfl (fun n _ => ⟨rfl, Kept.refl _ _, fun _ _ => rfl⟩)
      (fun n hne hn => by unfold Foreign at hn; tauto) hwait
      (fun p hp => Function.update_of_ne hp _ _)
      (fun p hp => .inl (h.marks_of (by simp [hf, Unmarked, phase]) hp)) rfl rfl (h.files _ h.mem)
      huser
    refine ⟨s, _, ps, rfl, ?_, hcalm, hown, h.directory⟩
    simp only [Calls.next, he, hval, if_true]

end Machine
end GalapagOS
