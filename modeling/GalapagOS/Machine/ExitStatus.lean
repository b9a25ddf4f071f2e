import GalapagOS.Machine.Ownership

/-!
# Exit status

A call of `kexecute` that has started a child returns when its own child has ended, with the value
that `khalt` left in `ret_status`. That field is a byte: the status of a child that called `halt`
fits, unless it is the one that stands for an exception, but 256 does not.

`Running.returns` is the other half: a call whose child has ended does return, with ticks and with
statements of its own.
-/

namespace GalapagOS
namespace Machine

open Kernel

variable {value : Ending → ℕ} {m m' : Machine} {s : Slots} {c : Calls} {ps : List Pid} {p n : Pid}
  {e : Ending} {call : ExecCall}

/-! ## The value in the control block -/

/-- The byte is the promised value exactly for a `halt` whose status is not `EHALT`. -/
theorem returnedByte_eq_status (e : Ending) :
    (returnedByte e).toNat = e.status ↔ ∃ status, e = .halt status ∧ status ≠ ehalt := by
  cases e with
  | halt status =>
    by_cases hs : status = ehalt
    · subst hs
      exact iff_of_false (by decide) (by simp)
    · have hmod : status.toNat &&& 0xff = status.toNat % 2 ^ 8 :=
        Nat.and_two_pow_sub_one_eq_mod status.toNat 8
      simp [returnedByte, haltValue, Ending.code, Ending.status, hs, hmod]
  | exception => exact iff_of_false (by decide) (by simp)

/-! ## Ticks lead to a process that runs -/

/-- Some ticks and statements make the call of `p` return `v`. -/
def Returns (m : Machine) (p : Pid) (v : ℕ) : Prop :=
  ∃ es m', (∀ x ∈ es, x = .tick ∨ x = .statement) ∧ system.Allowed NoTickInWindow m es ∧
    system.run m es = some m' ∧ some (.returned p v) ∈ system.labels label m es

theorem Returns.step {x : Event} {l : Option Label} {v : ℕ} (hx : x = .tick ∨ x = .statement)
    (hwin : NoTickInWindow m x) (hexec : m.exec x = some (m', l)) (h : Returns m' p v) :
    Returns m p v := by
  obtain ⟨es, m₁, hes, hok, hrun, hmem⟩ := h
  have hstep : system.step m x = some m' := by simp [system, hexec]
  refine ⟨x :: es, m₁, ?_, ⟨hwin, fun m'' hm'' => ?_⟩, ?_, ?_⟩
  · simpa using ⟨hx, hes⟩
  · cases hstep.symm.trans hm''
    exact hok
  · simpa [Run.System.run, hstep] using hrun
  · simp [Run.System.labels, hstep, hmem]

theorem Returns.statement {l : Option Label} {v : ℕ} (hexec : m.next = some (m', l))
    (h : Returns m' p v) : Returns m p v :=
  h.step (.inr rfl) (by rintro ⟨⟩) hexec

theorem Returns.now {v : ℕ} (hexec : m.next = some (m', some (.returned p v))) :
    Returns m p v := by
  have hstep : system.step m .statement = some m' := by simp [system, exec, hexec]
  refine ⟨[.statement], m', by simp, ⟨by rintro ⟨⟩, fun _ _ => trivial⟩, ?_, ?_⟩
  · simp [Run.System.run, hstep]
  · simp [Run.System.labels, label, exec, hexec]

/-- A tick in a state where some process runs. -/
theorem Running.exists_tick (h : Running value m s c ps) (hw : ¬Window m.frames)
    (hrun : ∃ p ∈ ps, (m.k.queue.node (.task p)).running = .running) :
    ∃ q n, m.exec .tick = some (m.switchTo q n, m.pitLabel) ∧
      Running value (m.switchTo q n) (unlinkSlot m s) c
        (Schedule.staying m.k.queue ps m.stack) ∧
      ¬Window (m.switchTo q n).frames ∧
      (∀ x, (q.node x).running = (m.k.queue.node x).running) ∧
      (m.k.queue.node (.task n)).running = .running ∧
      ∀ y, ¬(m.k.queue.node (.task m.stack)).running = .finished →
        m.k.queue.next (.task m.stack) = some y → q = m.k.queue ∧
          Ring.search q.next q.isRunning Schedule.searchFuel y = some (.task n) := by
  obtain ⟨⟨m₁, x⟩, hpit⟩ := h.exists_pitEnter hrun
  obtain ⟨q, n, rfl, rfl, hload, hrun', hrunning, hnrun⟩ := h.pitEnter hw hpit
  refine ⟨q, n, ?_, hrun', (h.parked_all hw hrun'.mem).2.window, hrunning, hnrun, ?_⟩
  · simp only [Machine.exec, Machine.tick, hpit, Option.bind_eq_bind, Option.bind_some, hload, Option.map_some]
  · intro y hfin hnext
    obtain ⟨hq, hsearch⟩ := h.pitEnter_search hfin hnext hpit
    have hq' : q = m.k.queue := hq
    rw [hq']
    exact ⟨rfl, hsearch⟩

/-- Ticks lead to every process that runs, and its calls are where they were. -/
theorem Running.returns_of_parked {v : ℕ} (h : Running value m s c ps) (hw : ¬Window m.frames)
    (hcur : (m.k.queue.node (.task m.stack)).running = .running) (hp : p ∈ ps)
    (hprun : (m.k.queue.node (.task p)).running = .running) (hne : p ≠ m.stack)
    (hback : ∀ m', Running value m' s c ps → m'.stack = p → m'.frames = (m.saved p).2 →
      Returns m' p v) : Returns m p v := by
  obtain ⟨y, hy, hnext⟩ := h.queue.ring.next_mem (Schedule.mem_map_task.mpr h.mem)
  obtain ⟨d, hd⟩ := h.queue.exists_way hy hp
  -- the way from the node after the current one to `p` gets shorter with every tick
  induction d using Nat.strong_induction_on generalizing m y with
  | h d ih =>
    have hfin : ¬(m.k.queue.node (.task m.stack)).running = .finished := by simp [hcur]
    obtain ⟨q, n, hexec, hrun, hwin, hrunning, hnrun, hsel⟩ := h.exists_tick hw ⟨p, hp, hprun⟩
    obtain ⟨rfl, hsearch⟩ := hsel y hfin hnext
    rw [unlinkSlot, if_neg hfin, Schedule.staying_of_not_finished hfin] at hrun
    have hsaved : savedAt m p = m.saved p := Function.update_of_ne hne _ _
    refine Returns.step (.inl rfl) (fun _ => hw) hexec ?_
    by_cases hnp : n = p
    · subst hnp
      exact hback _ hrun rfl (congrArg Prod.snd hsaved)
    · have hstop : m.k.queue.isRunning (.task p) = true := by
        simpa [Schedule.RunQueue.isRunning] using hprun
      obtain ⟨d', hlt, y', hnext', hd'⟩ := (Ring.search_closer hstop hsearch hd).resolve_left
        fun he => hnp (Schedule.Node.task.inj he)
      obtain ⟨y'', hy'', hnext''⟩ := hrun.queue.ring.next_mem (Schedule.mem_map_task.mpr hrun.mem)
      cases hnext''.symm.trans hnext'
      refine ih d' hlt hrun hwin hnrun hprun (fun he => hnp he.symm) (fun m' hm' hs hf => ?_) _ hy''
        hnext' hd'
      exact hback m' hm' hs (hf.trans (congrArg Prod.snd hsaved))

/-! ## The rest of the call -/

/-- A call whose child has ended. -/
theorem ProcOk.of_ended {k : Kernel} {fs : List Frame} (h : ProcOk value k s c p fs)
    (he : c p = .ended e) :
    ∃ call pc, fs = [.exec call pc] ∧ phase pc = .started ∧
      (k.pcbs p).retStatus.toNat = value e ∧ (k.queue.node (.task p)).running = .running := by
  cases h with
  | user h | scan h | chosen h | marked h | created h | halt h | clear h =>
    cases h.idle.symm.trans he
  | waiting _ _ _ hc => cases hc.symm.trans he
  | left _ _ _ hc | dead _ _ _ hc => cases hc.symm.trans he
  | resumed _ hpc _ hc hval hrun =>
    cases hc.symm.trans he
    exact ⟨_, _, rfl, hpc, hval, hrun⟩

/-- The last statement. -/
theorem Running.returns_ret (h : Running value m s c ps) (he : c m.stack = .ended e)
    (hf : m.frames = [.exec call .ret]) : Returns m m.stack (value e) := by
  obtain ⟨_, _, _, _, hval, _⟩ := h.current.of_ended he
  have hcpu := h.onCpu
  rw [OnCpu, hf] at hcpu
  have hnext : m.next = some (m.goto m.k [], some (.returned m.stack (value e))) := by
    simp only [Machine.next, hf, Machine.execNext, hcpu.1.1.1, Option.bind_eq_bind,
      Option.bind_some, Option.pure_def, hval]
  exact .now hnext

/-- `int $32` leaves the processor to another process, and ticks lead back. -/
theorem Calm.returns_int32 (h : Calm value m s c ps) (he : c m.stack = .ended e)
    (hf : m.frames = [.exec call .ret]) :
    ∃ r, m.int32 = some r ∧ Returns r.1 m.stack (value e) := by
  obtain ⟨_, _, _, _, hval, hcur⟩ := h.current.of_ended he
  have hw : ¬Window m.frames := by simp [hf, Window, phase]
  have hfin : ¬(m.k.queue.node (.task m.stack)).running = .finished := by simp [hcur]
  obtain ⟨⟨m₁, x⟩, hpit⟩ := h.exists_pitEnter ⟨m.stack, h.mem, hcur⟩
  obtain ⟨q, n, rfl, hm₁, hload, hrun, hrunning, hnrun⟩ := h.pitEnter hw hpit
  have hwin := (h.parked_all hw hrun.mem).2.window
  rw [unlinkSlot, if_neg hfin, Schedule.staying_of_not_finished hfin] at hrun
  have hframes : (savedAt m m.stack).2 = [.exec call .ret] := by
    rw [savedAt, Function.update_self, hf]
  refine ⟨({ m₁ with frames := .pit (.task n) false :: m₁.frames }, m.pitLabel), ?_, ?_⟩
  · simp only [Machine.int32, hpit, Option.bind_eq_bind, Option.bind_some, Option.pure_def]
  -- two statements of the handler are left
  have hlast : Machine.next { m₁.pitCommit (.task n) with
      frames := .pit (.task n) true :: m₁.frames } = some (m.switchTo q n, none) :=
    congrArg (Option.map fun m' => (m', none)) hload
  refine .statement (l := none) rfl (.statement hlast ?_)
  by_cases hn : n = m.stack
  · subst hn
    exact hrun.returns_ret he hframes
  · refine hrun.returns_of_parked hwin ((hrunning _).trans hnrun) h.mem ((hrunning _).trans hcur)
      (fun heq => hn heq.symm) fun m' hm' hs hf' => ?_
    rw [← hs] at he ⊢
    exact hm'.returns_ret he (hf'.trans hframes)

/-- A call whose child has ended returns, from the statement it is at. -/
theorem Running.returns_of_stack (h : Running value m s c ps) (he : c m.stack = .ended e) :
    Returns m m.stack (value e) := by
  have hint : ∀ {m : Machine} {s : Slots} {ps : List Pid} {call : ExecCall},
      Running value m s c ps → c m.stack = .ended e → m.frames = [.exec call .int32] →
      Returns m m.stack (value e) := by
    intro m s ps call h he hf
    obtain ⟨⟨m', l⟩, hr, hret⟩ := (h.calm_ret hf).returns_int32 he rfl
    have hnext : m.next = some (m', l) := by
      simpa only [Machine.next, hf, Machine.execNext] using hr
    exact .statement hnext hret
  obtain ⟨call, pc, hf, hpc, -⟩ := h.current.of_ended he
  cases pc with
  | openShells =>
    have hnext : m.next = some (m.goto m.k [.exec call .int32], none) := by
      simpa only [Machine.next, hf] using h.openShells_eq hf
    obtain ⟨s', c', ps', hs', hc', hrun⟩ := h.execOpenShells hf (h.openShells_eq hf)
    cases hc'
    exact .statement hnext (hint hrun he rfl)
  | int32 => exact hint h he hf
  | ret => exact h.returns_ret he hf
  | parse | enterPaging | load | mark | pcbInit | setCurrent | openStd | restoreParent | schedule =>
    cases hpc

/-- A call whose child has ended returns. -/
theorem Running.returns (h : Running value m s c ps) (hw : ¬Window m.frames)
    (he : c p = .ended e) : Returns m p (value e) := by
  have hp : p ∈ ps := by
    by_contra hp
    cases (h.idle p hp).symm.trans he
  obtain ⟨_, _, _, _, _, hprun⟩ := (h.procOk hp).of_ended he
  by_cases hne : p = m.stack
  · rw [hne] at he ⊢
    exact h.returns_of_stack he
  · -- after one tick a process is on the processor that runs
    obtain ⟨q, n, hexec, hrun, hwin, hrunning, hnrun, -⟩ := h.exists_tick hw ⟨p, hp, hprun⟩
    refine Returns.step (.inl rfl) (fun _ => hw) hexec ?_
    by_cases hn : p = n
    · subst hn
      exact hrun.returns_of_stack he
    · refine hrun.returns_of_parked hwin ((hrunning _).trans hnrun)
        (Schedule.mem_staying_of_running hp hprun) ((hrunning _).trans hprun) hn
        fun m' hm' hs _ => ?_
      rw [← hs] at he ⊢
      exact hm'.returns_of_stack he

/-! ## Runs -/

/-- No tick comes inside a window, and programs end by `halt` with a status other than `EHALT`. -/
def HaltsOnly (m : Machine) (e : Event) : Prop :=
  NoTickInWindow m e ∧
    ∀ x, e = .khalt x → 2 < m.stack → ∃ status, x = .halt status ∧ status ≠ ehalt

instance (m : Machine) : ∀ e, Decidable (HaltsOnly m e)
  | .tick => decidable_of_iff (NoTickInWindow m .tick) ⟨fun h => ⟨h, by rintro _ ⟨⟩⟩, And.left⟩
  | .statement | .kexecute _ _ => isTrue ⟨by rintro ⟨⟩, by rintro _ ⟨⟩⟩
  | .khalt (.halt status) =>
    decidable_of_iff (2 < m.stack → status ≠ ehalt)
      ⟨fun h => ⟨by rintro ⟨⟩, by rintro _ ⟨⟩ hlt; exact ⟨status, rfl, h hlt⟩⟩, fun h hlt => by
        obtain ⟨_, he, hne⟩ := h.2 _ rfl hlt
        cases he
        exact hne⟩
  | .khalt .exception =>
    decidable_of_iff (¬2 < m.stack)
      ⟨fun h => ⟨by rintro ⟨⟩, by rintro _ ⟨⟩ hlt; exact absurd hlt h⟩, fun h hlt => by
        obtain ⟨_, he, _⟩ := h.2 _ rfl hlt
        cases he⟩

/-- In every run under that condition a call of `kexecute` returns only when its own child has
ended, and then the status of the child; and when the child has ended it does return. -/
theorem exit_status {m₀ m : Machine} {es : List Event} (hinit : system.init m₀)
    (hok : system.Allowed HaltsOnly m₀ es) (hrun : system.run m₀ es = some m) :
    ∃ c, (system.labels label m₀ es).foldlM (Calls.next Ending.status) Calls.boot = some c ∧
      ∀ p e, c p = .ended e → ¬Window m.frames → Returns m p e.status := by
  have hstep : ∀ m e m' c, (∃ s, Sound Ending.status m s c) → HaltsOnly m e →
      system.step m e = some m' →
      ∃ c', c.next Ending.status (label m e) = some c' ∧ ∃ s, Sound Ending.status m' s c' := by
    rintro m e m' c ⟨s, hsound⟩ ⟨hwin, hend⟩ hs
    obtain ⟨r, hr, rfl⟩ := Option.map_eq_some_iff.mp hs
    have hval : EndsWith Ending.status m e :=
      fun x hx hlt => (returnedByte_eq_status x).mpr (hend x hx hlt)
    obtain ⟨s', c', -, hc', hsound'⟩ := hsound.exec hwin hval hr
    refine ⟨c', ?_, s', hsound'⟩
    rw [label, hr]
    exact hc'
  obtain ⟨c, hc, s, hsound⟩ :=
    Run.System.simulates label hstep ⟨_, .inl ⟨_, running_boot hinit⟩⟩ hok hrun
  refine ⟨c, hc, fun p e he hw => ?_⟩
  rcases hsound with ⟨ps, hrun⟩ | hsw
  · exact hrun.returns hw he
  · exact absurd hsw.window hw

/-- A shell starts a program, and the program ends. -/
def endingRun (e : Ending) : List Event :=
  execShell :: List.replicate 17 .statement ++ [.tick, .tick, .khalt e] ++
    List.replicate 7 .statement

theorem exit_status_seven : ∃ m₀ m, system.init m₀ ∧ system.run m₀ (endingRun (.halt 7)) = some m ∧
    some (.ended 3 (.halt 7)) ∈ system.labels label m₀ (endingRun (.halt 7)) ∧ Returns m 0 7 := by
  have heval : sampleMachine.map (fun m₀ =>
      decide (system.Allowed HaltsOnly m₀ (endingRun (.halt 7)) ∧
        some (.ended 3 (.halt 7)) ∈ system.labels label m₀ (endingRun (.halt 7))) &&
      (system.run m₀ (endingRun (.halt 7))).any (fun m => ¬Window m.frames) &&
      ((system.labels label m₀ (endingRun (.halt 7))).foldlM (Calls.next Ending.status)
        Calls.boot).any fun c => c 0 = .ended (.halt 7)) = some true := by
    decide +kernel
  obtain ⟨m₀, hm₀, hfacts⟩ := Option.map_eq_some_iff.mp heval
  simp only [Bool.and_eq_true, decide_eq_true_eq, Option.any_eq_true] at hfacts
  obtain ⟨⟨⟨hok, hended⟩, m, hm, hw⟩, c', hc', hcall⟩ := hfacts
  have hinit := sampleMachine_init hm₀
  obtain ⟨c, hc, hret⟩ := exit_status hinit hok hm
  cases hc.symm.trans hc'
  exact ⟨m₀, m, hinit, hm, hended, hret 0 _ hcall hw⟩

/-- After an exception the call of the parent returns 0, and so it does after `halt(239)`. -/
theorem exit_status_confused : ∃ m₀, system.init m₀ ∧ ∀ e ∈ [.exception, .halt 239],
    ∃ m, system.run m₀ (endingRun e ++ List.replicate 4 .statement) = some m ∧
      system.Allowed NoTickInWindow m₀ (endingRun e ++ List.replicate 4 .statement) ∧
      some (.ended 3 e) ∈ system.labels label m₀ (endingRun e ++ List.replicate 4 .statement) ∧
      some (.returned 0 0) ∈ system.labels label m₀ (endingRun e ++ List.replicate 4 .statement) ∧
      (system.labels label m₀ (endingRun e ++ List.replicate 4 .statement)).foldlM
        (Calls.next Ending.status) Calls.boot = none := by
  have heval : sampleMachine.map (fun m₀ => decide (∀ e ∈ [.exception, .halt 239],
      (system.run m₀ (endingRun e ++ List.replicate 4 .statement)).isSome ∧
      system.Allowed NoTickInWindow m₀ (endingRun e ++ List.replicate 4 .statement) ∧
      some (.ended 3 e) ∈ system.labels label m₀ (endingRun e ++ List.replicate 4 .statement) ∧
      some (.returned 0 0) ∈ system.labels label m₀ (endingRun e ++ List.replicate 4 .statement) ∧
      ((system.labels label m₀ (endingRun e ++ List.replicate 4 .statement)).foldlM
        (Calls.next Ending.status) Calls.boot).isNone)) = some true := by
    decide +kernel
  obtain ⟨m₀, hm₀, hfacts⟩ := Option.map_eq_some_iff.mp heval
  refine ⟨m₀, sampleMachine_init hm₀, fun e he => ?_⟩
  obtain ⟨hsome, hok, hended, hret, hnone⟩ := of_decide_eq_true hfacts e he
  obtain ⟨m, hm⟩ := Option.isSome_iff_exists.mp hsome
  exact ⟨m, hm, hok, hended, hret, Option.isNone_iff_eq_none.mp hnone⟩

end Machine
end GalapagOS
