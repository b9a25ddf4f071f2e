import GalapagOS.Machine.Halt

/-!
# Switching to another process

`pit_handler` leaves the running process where a tick may leave it, takes it out of the queue if it
has finished, and goes on with a process that runs.
-/

namespace GalapagOS
namespace Machine

open Kernel

variable {value : Ending → ℕ} {k k' : Kernel} {m m' : Machine} {s s' : Slots} {c : Calls}
  {ps : List Pid} {p n : Pid} {fs : List Frame}

/-! ## The process that is left -/

/-- A process that holds a number without a mark outside the windows has finished. -/
theorem ProcOk.finished_of_unmarked (h : ProcOk value k s c p fs) (hw : ¬Window fs)
    (hun : Unmarked p fs n) : n = p ∧ (k.queue.node (.task p)).running = .finished := by
  cases h with
  | user | scan | halt => exact hun.elim
  | chosen _ hpc => exact absurd (.inl hpc) hw
  | marked => cases hun.1
  | created _ hpc | waiting _ hpc | resumed _ hpc => cases hpc.symm.trans hun.1
  | clear => exact absurd rfl hun.1
  | left hpc => exact absurd hpc hw
  | dead _ _ _ _ _ hfin => exact ⟨hun.2, hfin⟩

/-- A finished process has halted. -/
theorem ProcOk.dead_of_finished (h : ProcOk value k s c p fs)
    (hfin : (k.queue.node (.task p)).running = .finished) : 2 < p ∧ s p = .ended ∧ c p = .idle := by
  cases h with
  | user h | scan h | chosen h | marked h | created h | halt h | clear h =>
    cases h.running.symm.trans hfin
  | waiting _ _ _ _ _ hrun | resumed _ _ _ _ _ hrun | left _ _ _ _ _ hrun =>
    cases hrun.symm.trans hfin
  | dead _ hlt hs hc _ _ => exact ⟨hlt, hs, hc⟩

theorem ProcOk.slot_ne_ended (h : ProcOk value k s c p fs)
    (hfin : ¬(k.queue.node (.task p)).running = .finished) : s p ≠ .ended := by
  intro he
  cases h with
  | user h | scan h | chosen h | marked h | created h | halt h | clear h => cases h.slot.symm.trans he
  | waiting h | resumed h => cases h.slot.symm.trans he
  | left _ _ hs => cases hs.symm.trans he
  | dead _ _ _ _ _ hrun => exact hfin hrun

/-- The slots after `pit_handler` has looked at the current node. -/
def unlinkSlot (m : Machine) (s : Slots) : Slots :=
  if (m.k.queue.node (.task m.stack)).running = .finished then Function.update s m.stack .free else s

theorem Calm.pitLabel (h : Calm value m s c ps) :
    s.next m.pitLabel = some (unlinkSlot m s) ∧ c.next value m.pitLabel = some c := by
  unfold Machine.pitLabel unlinkSlot
  rw [h.currNode]
  dsimp only
  split
  · rename_i hfin
    exact ⟨Slots.move_eq (h.current.dead_of_finished hfin).2.1, rfl⟩
  · exact ⟨rfl, rfl⟩

/-- Only the slot of a finished process changes. -/
theorem Calm.unlinkSlot_eq (h : Calm value m s c ps) (hp : s p ≠ .ended) :
    unlinkSlot m s p = s p := by
  unfold unlinkSlot
  split
  · rename_i hfin
    refine Function.update_of_ne ?_ _ _
    rintro rfl
    exact hp (h.current.dead_of_finished hfin).2.1
  · rfl

/-- What is saved when the running process is left. -/
def savedAt (m : Machine) : Pid → Pid × List Frame :=
  Function.update m.saved m.stack (m.stack, m.frames)

/-- Every process that stays in the queue is parked. -/
theorem Calm.parked_all (h : Calm value m s c ps) (hw : ¬Window m.frames)
    (hp : p ∈ Schedule.staying m.k.queue ps m.stack) :
    (savedAt m p).1 = p ∧ Parked value m.k s c p (savedAt m p).2 := by
  have hmem := Schedule.mem_of_mem_staying hp
  by_cases hps : p = m.stack
  · rw [hps, savedAt, Function.update_self]
    refine ⟨rfl, h.current, hw, h.current.slot_ne_ended fun hfin => ?_⟩
    rw [hps, Schedule.staying_of_finished hfin, h.queue.nodup.mem_erase_iff] at hp
    exact hp.1 rfl
  · rw [savedAt, Function.update_of_ne hps]
    exact h.parked p hmem hps

/-! ## The process that goes on -/

theorem Parked.onCpu (h : Parked value k s c p m.frames) (hown : Own m)
    (hrun : (m.k.queue.node (.task m.stack)).running = .running) : OnCpu m := by
  obtain ⟨hok, hw, hs⟩ := h
  unfold OnCpu
  split
  · rename_i call pc fs hfs
    rw [hfs] at hw
    cases pc
    case openStd => exact absurd (.inr (.inl rfl)) hw
    case restoreParent => exact absurd (.inr (.inr (.inl rfl))) hw
    case schedule => exact absurd (.inr (.inr (.inr rfl))) hw
    case openShells => trivial
    case int32 => trivial
    case ret => exact ⟨hown, hrun⟩
    all_goals exact hown
  · rename_i hfs
    rw [hfs] at hok
    cases hok with
    | left hpc => cases hpc
    | dead _ _ he => exact hs he
  · exact hown

/-- The state after a switch to process `n`, when the queue has become `q`. -/
def switchTo (m : Machine) (q : Schedule.RunQueue) (n : Pid) : Machine where
  k := (({ m.k with queue := q } : Kernel).resetCurrProcess n).pitCommit (.task n)
  stack := n
  frames := (savedAt m n).2
  saved := savedAt m

/-- The invariant after a switch. -/
theorem Calm.switchTo (h : Calm value m s c ps) (hw : ¬Window m.frames) {q : Schedule.RunQueue}
    (hq : Schedule.IsQueue q (Schedule.staying m.k.queue ps m.stack))
    (hrunning : ∀ x, (q.node x).running = (m.k.queue.node x).running) (hn : n ∈ ps)
    (hnrun : (m.k.queue.node (.task n)).running = .running) :
    Running value (m.switchTo q n) (unlinkSlot m s) c (Schedule.staying m.k.queue ps m.stack) := by
  have hmem : ∀ p, p ∈ Schedule.staying m.k.queue ps m.stack → p ∈ ps :=
    fun p => Schedule.mem_of_mem_staying
  have hn' : n ∈ Schedule.staying m.k.queue ps m.stack := Schedule.mem_staying_of_running hn hnrun
  have hall : ∀ p ∈ Schedule.staying m.k.queue ps m.stack, (savedAt m p).1 = p ∧
      Parked value (m.switchTo q n).k (unlinkSlot m s) c p (savedAt m p).2 := by
    intro p hp
    obtain ⟨hsaved, hparked⟩ := h.parked_all hw hp
    refine ⟨hsaved, hparked.kept ⟨rfl, rfl, rfl, rfl, id⟩ (hrunning _) (fun _ _ => rfl)
      (h.unlinkSlot_eq hparked.slot) rfl (fun _ => id) (fun x hx => ?_) fun x _ hx => ?_⟩
    · exact ⟨h.unlinkSlot_eq (by simp [hx]), ⟨rfl, rfl, rfl, rfl, id⟩⟩
    · rw [h.unlinkSlot_eq (by simp [hx]), hx]
  -- a process that is not in the queue any more is the finished one
  have hgone : ∀ p ∈ ps, p ∉ Schedule.staying m.k.queue ps m.stack →
      p = m.stack ∧ (m.k.queue.node (.task m.stack)).running = .finished := by
    intro p hp hnot
    by_cases hfin : (m.k.queue.node (.task m.stack)).running = .finished
    · rw [Schedule.staying_of_finished hfin, h.queue.nodup.mem_erase_iff] at hnot
      exact ⟨by tauto, hfin⟩
    · rw [Schedule.staying_of_not_finished hfin] at hnot
      exact absurd hp hnot
  refine ⟨?_, (hall n hn').2.onCpu ⟨⟨rfl, rfl⟩, rfl⟩ ((hrunning _).trans hnrun), ?_⟩
  · constructor
    case queue => exact hq.withCurr _ _
    case currNode => rfl
    case mem => exact hn'
    case shells =>
      intro p hp
      by_contra hnot
      obtain ⟨rfl, hfin⟩ := hgone p (h.shells p hp) hnot
      exact absurd (h.current.dead_of_finished hfin).1 (not_lt.mpr hp)
    case linked =>
      intro p
      by_cases hp : p ∈ Schedule.staying m.k.queue ps m.stack
      · rw [h.unlinkSlot_eq (h.parked_all hw hp).2.slot]
        exact ⟨fun _ => (h.linked p).mp (hmem p hp), fun _ => hp⟩
      · refine ⟨fun he => absurd he hp, fun he => ?_⟩
        by_cases hps : p ∈ ps
        · obtain ⟨rfl, hfin⟩ := hgone p hps hp
          rw [unlinkSlot, if_pos hfin, Function.update_self] at he
          rcases he with he | he <;> cases he
        · have hne : s p ≠ .ended := fun hend => hps ((h.linked p).mpr (.inr hend))
          rw [h.unlinkSlot_eq hne] at he
          exact absurd ((h.linked p).mpr he) hps
    case marks =>
      intro p hp
      left
      rcases h.marks p hp with hfree | hun
      · rw [h.unlinkSlot_eq (by simp [hfree]), hfree]
      · obtain ⟨rfl, hfin⟩ := h.current.finished_of_unmarked hw hun
        rw [unlinkSlot, if_pos hfin, Function.update_self]
    case idle =>
      intro p hp
      by_cases hps : p ∈ ps
      · obtain ⟨rfl, hfin⟩ := hgone p hps hp
        exact (h.current.dead_of_finished hfin).2.2
      · exact h.idle p hps
    case unique => exact h.unique
    case pid => exact fun p hp => h.pid p (hmem p hp)
    case kernelStack => exact fun p hp => h.kernelStack p (hmem p hp)
    case files => exact fun p hp => h.files p (hmem p hp)
    case current => exact (hall n hn').2.ok
    case parked => exact fun p hp _ => hall p hp
  · intro p _ hp
    change some (m.k.pcbs n).pid ≠ some p
    rw [h.pid n hn]
    exact fun he => hp (Option.some.inj he).symm

/-- What `pit_handler` does in a state with the invariant. -/
theorem Calm.pitEnter (h : Calm value m s c ps) (hw : ¬Window m.frames) {x : Schedule.Node}
    (hpit : m.pitEnter = some (m', x)) :
    ∃ q n, x = .task n ∧
      m' = { m with
        k := ({ m.k with queue := q } : Kernel).resetCurrProcess n, saved := savedAt m } ∧
      (m'.pitCommit x).pitLoad = some (m.switchTo q n) ∧
      Running value (m.switchTo q n) (unlinkSlot m s) c
        (Schedule.staying m.k.queue ps m.stack) ∧
      (∀ x, (q.node x).running = (m.k.queue.node x).running) ∧
      (m.k.queue.node (.task n)).running = .running := by
  obtain ⟨⟨k₁, x₁⟩, hsel, hrest⟩ := Option.bind_eq_some_iff.mp hpit
  have hrun := exists_running_of_pitSelect h.queue h.currNode h.mem hsel
  obtain ⟨q, n, hsel', hn, hnrun, hq, hrunning, hproc, hcurr⟩ :=
    pitSelect_spec h.queue h.currNode h.mem hrun
  cases hsel'.symm.trans hsel
  have hstack : (m.k.queue.node m.k.queue.currNode).process = some m.stack := by
    rw [h.currNode, h.queue.process _ h.mem]
  simp only [hstack, Option.bind_eq_bind, Option.bind_some] at hrest
  cases hrest
  refine ⟨q, n, rfl, rfl, ?_, h.switchTo hw hq hrunning hn hnrun, hrunning, hnrun⟩
  have hload : (q.node (.task n)).process = some n := by rw [hproc, h.queue.process n hn]
  have hsaved := (h.parked_all hw (Schedule.mem_staying_of_running hn hnrun)).1
  unfold savedAt at hsaved
  change ((q.node (.task n)).process.bind fun p => _) = _
  rw [hload, Option.bind_some]
  simp only [pitCommit, hsaved]
  rfl

/-- If some process runs, `pit_handler` finds one. -/
theorem Calm.exists_pitEnter (h : Calm value m s c ps)
    (hrun : ∃ p ∈ ps, (m.k.queue.node (.task p)).running = .running) :
    ∃ r, m.pitEnter = some r := by
  obtain ⟨q, n, hsel, -⟩ := pitSelect_spec h.queue h.currNode h.mem hrun
  have hstack : (m.k.queue.node m.k.queue.currNode).process = some m.stack := by
    rw [h.currNode, h.queue.process _ h.mem]
  simp only [Machine.pitEnter, hsel, hstack, Option.bind_eq_bind, Option.bind_some,
    Option.pure_def]
  exact ⟨_, rfl⟩

/-- A process that has not finished stays, and `pit_handler` searches from the one after it. -/
theorem Calm.pitEnter_search (h : Calm value m s c ps) {x y : Schedule.Node}
    (hfin : ¬(m.k.queue.node (.task m.stack)).running = .finished)
    (hnext : m.k.queue.next (.task m.stack) = some y) (hpit : m.pitEnter = some (m', x)) :
    m'.k.queue = m.k.queue ∧
      Ring.search m.k.queue.next m.k.queue.isRunning Schedule.searchFuel y = some x := by
  rw [← h.currNode] at hfin hnext
  obtain ⟨⟨k₁, x₁⟩, hpsel, hrest⟩ := Option.bind_eq_some_iff.mp hpit
  have hbranch : ¬(m.k.queue.firstShell = true ∧ m.k.queue.currNode = .sentinel) := by
    rw [h.currNode]
    simp
  rw [pitSelect, if_neg hbranch] at hpsel
  obtain ⟨⟨q, z⟩, hsel, hpsel⟩ := Option.bind_eq_some_iff.mp hpsel
  obtain ⟨hq, hsearch⟩ := Schedule.selectTask_of_not_finished hfin hnext hsel
  obtain ⟨_, -, hpsel⟩ := Option.bind_eq_some_iff.mp hpsel
  obtain ⟨_, -, hpsel⟩ := Option.bind_eq_some_iff.mp hpsel
  cases hpsel
  obtain ⟨_, -, hrest⟩ := Option.bind_eq_some_iff.mp hrest
  cases hrest
  exact ⟨hq, hsearch⟩

end Machine
end GalapagOS
