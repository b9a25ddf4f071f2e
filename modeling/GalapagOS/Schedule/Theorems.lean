import GalapagOS.Schedule.Common
import Mathlib.Data.List.Nodup
import Mathlib.Data.Fintype.Card

/-!
# The run queue is a ring

`IsQueue q ps` says that the linked nodes are the sentinel and the nodes of the pids `ps`, in
this order. Linking appends a pid, unlinking removes one, and the search of the timer
handler ends at a running task whenever the queue has one.
-/

namespace GalapagOS
namespace Schedule

open Ring

/-- The queue holds exactly the tasks of `ps`, in this order. -/
structure IsQueue (q : RunQueue) (ps : List Pid) : Prop where
  ring : IsRing q.next q.prev .sentinel (ps.map .task)
  head : q.head = .sentinel
  tail : (Node.sentinel :: ps.map .task).getLast? = some q.tail
  sentinel : (q.node .sentinel).running = .sentinel
  process : ∀ p ∈ ps, (q.node (.task p)).process = some p
  unlinked : ∀ p, p ∉ ps → q.next (.task p) = none

/-! ## What the operations write -/

section Fields

variable {q : RunQueue} {n m : Node}

theorem node_modify (q : RunQueue) (n m : Node) (f : RunQueueNode → RunQueueNode) :
    (q.modify n f).node m = if m = n then f (q.node n) else q.node m := by
  by_cases h : m = n
  · subst h
    simp [RunQueue.modify]
  · simp [RunQueue.modify, h]

/-- A field that an assignment leaves alone. -/
theorem field_modify {α : Type*} (g : RunQueueNode → α) {f : RunQueueNode → RunQueueNode}
    (hf : ∀ d, g (f d) = g d) : g ((q.modify n f).node m) = g (q.node m) := by
  rw [node_modify]
  split
  · rename_i h
    rw [hf, h]
  · rfl

@[simp] theorem next_setRunning (s : TaskState) : (q.setRunning n s).next m = q.next m :=
  field_modify (·.nextTask) fun _ => rfl

@[simp] theorem prev_setRunning (s : TaskState) : (q.setRunning n s).prev m = q.prev m :=
  field_modify (·.prevTask) fun _ => rfl

@[simp] theorem process_setRunning (s : TaskState) :
    ((q.setRunning n s).node m).process = (q.node m).process :=
  field_modify (·.process) fun _ => rfl

theorem running_setRunning (s : TaskState) :
    ((q.setRunning n s).node m).running = if m = n then s else (q.node m).running := by
  rw [RunQueue.setRunning, node_modify]
  split <;> rfl

theorem next_setNext (x : Option Node) :
    (q.setNext n x).next m = if m = n then x else q.next m := by
  rw [RunQueue.next, RunQueue.setNext, node_modify]
  split <;> rfl

theorem prev_setPrev (x : Option Node) :
    (q.setPrev n x).prev m = if m = n then x else q.prev m := by
  rw [RunQueue.prev, RunQueue.setPrev, node_modify]
  split <;> rfl

@[simp] theorem prev_setNext (x : Option Node) : (q.setNext n x).prev m = q.prev m :=
  field_modify (·.prevTask) fun _ => rfl

@[simp] theorem next_setPrev (x : Option Node) : (q.setPrev n x).next m = q.next m :=
  field_modify (·.nextTask) fun _ => rfl

@[simp] theorem running_setNext (x : Option Node) :
    ((q.setNext n x).node m).running = (q.node m).running :=
  field_modify (·.running) fun _ => rfl

@[simp] theorem running_setPrev (x : Option Node) :
    ((q.setPrev n x).node m).running = (q.node m).running :=
  field_modify (·.running) fun _ => rfl

@[simp] theorem process_setNext (x : Option Node) :
    ((q.setNext n x).node m).process = (q.node m).process :=
  field_modify (·.process) fun _ => rfl

@[simp] theorem process_setPrev (x : Option Node) :
    ((q.setPrev n x).node m).process = (q.node m).process :=
  field_modify (·.process) fun _ => rfl

end Fields

section Link

variable (q : RunQueue) (pid : Pid) (m : Node)

theorem next_link : (link q pid).next m
    = if m = q.tail then some (.task pid) else if m = .task pid then q.next q.tail
      else q.next m := by
  simp only [link, next_setPrev]
  change (RunQueue.setNext _ _ _).next m = _
  rw [next_setNext, RunQueue.next, node_modify]
  split_ifs <;> rfl

theorem prev_link : (link q pid).prev m
    = if m = q.head then some (.task pid) else if m = .task pid then some q.tail
      else q.prev m := by
  simp only [link, prev_setPrev]
  change (if m = q.head then _ else (RunQueue.setNext _ _ _).prev m) = _
  rw [prev_setNext, RunQueue.prev, node_modify]
  split_ifs <;> rfl

theorem running_link : ((link q pid).node m).running
    = if m = .task pid then .running else (q.node m).running := by
  simp only [link, running_setPrev]
  rw [running_setNext, node_modify]
  split_ifs <;> rfl

theorem process_link : ((link q pid).node m).process
    = if m = .task pid then some pid else (q.node m).process := by
  simp only [link, process_setPrev]
  rw [process_setNext, node_modify]
  split_ifs <;> rfl

end Link

section Unlink

variable (q : RunQueue) (curr prev newTask m : Node)

theorem node_unlink : (unlink q curr prev newTask).node
    = (((q.setNext prev (some newTask)).setPrev newTask (some prev)).modify curr
        fun d => { d with prevTask := none, nextTask := none }).node := by
  unfold unlink
  dsimp only
  split <;> rfl

theorem next_unlink : (unlink q curr prev newTask).next m
    = if m = curr then none else if m = prev then some newTask else q.next m := by
  rw [RunQueue.next, node_unlink, node_modify]
  split_ifs with h₁ h₂
  · rfl
  · exact (next_setPrev _).trans ((next_setNext _).trans (if_pos h₂))
  · exact (next_setPrev _).trans ((next_setNext _).trans (if_neg h₂))

theorem prev_unlink : (unlink q curr prev newTask).prev m
    = if m = curr then none else if m = newTask then some prev else q.prev m := by
  rw [RunQueue.prev, node_unlink, node_modify]
  split_ifs with h₁ h₂
  · rfl
  · exact (prev_setPrev _).trans (if_pos h₂)
  · exact (prev_setPrev _).trans ((if_neg h₂).trans (prev_setNext _))

@[simp] theorem running_unlink :
    ((unlink q curr prev newTask).node m).running = (q.node m).running := by
  rw [node_unlink, field_modify (·.running), running_setPrev, running_setNext]
  intro d
  rfl

@[simp] theorem process_unlink :
    ((unlink q curr prev newTask).node m).process = (q.node m).process := by
  rw [node_unlink, field_modify (·.process), process_setPrev, process_setNext]
  intro d
  rfl

@[simp] theorem head_unlink : (unlink q curr prev newTask).head = q.head := by
  unfold unlink
  dsimp only
  split <;> rfl

@[simp] theorem currNode_unlink : (unlink q curr prev newTask).currNode = q.currNode := by
  unfold unlink
  dsimp only
  split <;> rfl

@[simp] theorem firstShell_unlink : (unlink q curr prev newTask).firstShell = q.firstShell := by
  unfold unlink
  dsimp only
  split <;> rfl

theorem tail_unlink : (unlink q curr prev newTask).tail
    = if curr = q.tail then prev else q.tail := by
  unfold unlink
  dsimp only
  split
  · rename_i h
    rw [if_pos (show curr = q.tail from h)]
  · rename_i h
    rw [if_neg (show ¬curr = q.tail from h)]
    rfl

end Unlink

/-! ## The queue under each operation -/

variable {q : RunQueue} {ps : List Pid}

theorem schedInit_isQueue : IsQueue schedInit [] where
  ring := IsRing.nil rfl rfl
  head := rfl
  tail := rfl
  sentinel := rfl
  process := by simp
  unlinked _ _ := rfl

/-- The queue does not depend on which node is current. -/
theorem IsQueue.withCurr (h : IsQueue q ps) (n : Node) (b : Bool) :
    IsQueue { q with currNode := n, firstShell := b } ps :=
  ⟨h.ring, h.head, h.tail, h.sentinel, h.process, h.unlinked⟩

theorem IsQueue.nodup (h : IsQueue q ps) : ps.Nodup :=
  List.Nodup.of_map _ (List.nodup_cons.mp h.ring.nodup).2

theorem IsQueue.setRunning (h : IsQueue q ps) (p : Pid) (s : TaskState) :
    IsQueue (q.setRunning (.task p) s) ps where
  ring := h.ring.congr (fun _ _ => next_setRunning s) fun _ _ => prev_setRunning s
  head := h.head
  tail := h.tail
  sentinel := by
    rw [running_setRunning, if_neg (by simp)]
    exact h.sentinel
  process p hp := (process_setRunning s).trans (h.process p hp)
  unlinked p hp := (next_setRunning s).trans (h.unlinked p hp)

theorem mem_map_task {p : Pid} : Node.task p ∈ Node.sentinel :: ps.map Node.task ↔ p ∈ ps := by
  simp

/-- The linked nodes are those that have a successor. -/
theorem IsQueue.mem_iff (h : IsQueue q ps) {p : Pid} : p ∈ ps ↔ (q.next (.task p)).isSome := by
  constructor
  · intro hp
    obtain ⟨n, -, hn⟩ := h.ring.next_mem (mem_map_task.mpr hp)
    rw [hn]
    rfl
  · intro hp
    by_contra hnot
    rw [h.unlinked p hnot] at hp
    cases hp

/-- The tail is a linked node. -/
theorem IsQueue.tail_mem (h : IsQueue q ps) : q.tail ∈ Node.sentinel :: ps.map .task :=
  List.mem_of_getLast? h.tail

/-- Linking a task that is not in the queue puts it at the end. -/
theorem IsQueue.link (h : IsQueue q ps) {p : Pid} (hp : p ∉ ps) :
    IsQueue (link q p) (ps ++ [p]) where
  ring := by
    have hmem : Node.task p ∉ Node.sentinel :: ps.map .task := mt mem_map_task.mp hp
    have htail : q.tail ≠ .task p := fun he => hmem (he ▸ h.tail_mem)
    rw [List.map_append]
    refine h.ring.append hmem h.tail ?_ ?_ ?_ ?_ (fun a ha hat => ?_) (fun a ha => ?_)
    · rw [next_link, if_pos rfl]
    · rw [next_link, if_neg htail.symm, if_pos rfl, (h.ring.last_linked h.tail).1]
    · rw [prev_link, h.head, if_neg (by simp), if_pos rfl]
    · rw [prev_link, h.head, if_pos rfl]
    · rw [next_link, if_neg hat, if_neg fun he : a = .task p => hmem (he ▸ ha)]
    · have hs : a ≠ .sentinel := fun he => (List.nodup_cons.mp h.ring.nodup).1 (he ▸ ha)
      rw [prev_link, h.head, if_neg hs,
        if_neg fun he : a = .task p => hmem (he ▸ List.mem_cons_of_mem _ ha)]
  head := h.head
  tail := by
    rw [List.map_append, ← List.cons_append]
    exact List.getLast?_concat
  sentinel := by
    rw [running_link, if_neg (by simp)]
    exact h.sentinel
  process a ha := by
    rw [process_link]
    split
    · rename_i he
      rw [Node.task.inj he]
    · rename_i hne
      refine h.process a ?_
      have hmem : a ∈ ps ∨ a = p := by simpa using ha
      exact hmem.resolve_right fun he => hne (congrArg _ he)
  unlinked a ha := by
    rw [List.mem_append, List.mem_singleton, not_or] at ha
    have htail : Node.task a ≠ q.tail := fun he => ha.1 (mem_map_task.mp (he ▸ h.tail_mem))
    rw [next_link, if_neg htail, if_neg fun he => ha.2 (Node.task.inj he)]
    exact h.unlinked a ha.1

/-- Scheduling a new task appends it. -/
theorem IsQueue.schedule (h : IsQueue q ps) {p : Pid} (hp : p ∉ ps) (parent : Option Pid) :
    IsQueue (schedule q p parent) (ps ++ [p]) := by
  have hlink := h.link hp
  cases parent with
  | none =>
    exact ⟨hlink.ring, hlink.head, hlink.tail, hlink.sentinel, hlink.process, hlink.unlinked⟩
  | some c =>
    have hq := hlink.setRunning c .inactive
    exact ⟨hq.ring, hq.head, hq.tail, hq.sentinel, hq.process, hq.unlinked⟩

theorem running_schedule (q : RunQueue) (p : Pid) (parent : Option Pid) (m : Pid) :
    ((Schedule.schedule q p parent).node (.task m)).running
      = if parent = some m then .inactive else if m = p then .running
        else (q.node (.task m)).running := by
  cases parent with
  | none =>
    change ((Schedule.link q p).node (.task m)).running = _
    simp [running_link]
  | some c =>
    change (((Schedule.link q p).setRunning (.task c) .inactive).node (.task m)).running = _
    rw [running_setRunning, running_link]
    simp [eq_comm]

theorem process_schedule (q : RunQueue) (p : Pid) (parent : Option Pid) (m : Node) :
    ((schedule q p parent).node m).process = if m = .task p then some p else (q.node m).process := by
  unfold schedule
  dsimp only
  cases parent with
  | none => exact process_link q p m
  | some q' => rw [process_setRunning, process_link]

theorem currNode_schedule (q : RunQueue) (p : Pid) (parent : Option Pid) :
    (Schedule.schedule q p parent).currNode = q.currNode := by
  cases parent <;> rfl

theorem firstShell_schedule (q : RunQueue) (p : Pid) (parent : Option Pid) :
    (Schedule.schedule q p parent).firstShell = q.firstShell := by
  cases parent <;> rfl

/-- The neighbours of a task in the queue. -/
theorem IsQueue.neighbours {as bs : List Pid} {c : Pid} (h : IsQueue q (as ++ c :: bs)) :
    ∃ p n, (Node.sentinel :: as.map .task).getLast? = some p ∧
      (bs.map Node.task ++ [Node.sentinel]).head? = some n ∧
      q.prev (.task c) = some p ∧ q.next (.task c) = some n := by
  have hring := h.ring
  rw [List.map_append, List.map_cons] at hring
  obtain ⟨p, hp⟩ : ∃ p, (Node.sentinel :: as.map .task).getLast? = some p :=
    ⟨_, List.getLast?_eq_some_getLast (by simp)⟩
  obtain ⟨n, hn⟩ : ∃ n, (bs.map Node.task ++ [Node.sentinel]).head? = some n :=
    ⟨_, List.head?_eq_some_head (by simp)⟩
  obtain ⟨hpc, hcn⟩ := hring.neighbours hp hn
  exact ⟨p, n, hp, hn, hpc.2, hcn.1⟩

/-- A task occurs once in the queue. -/
theorem IsQueue.notMem {as bs : List Pid} {c : Pid} (h : IsQueue q (as ++ c :: bs)) :
    c ∉ as ++ bs := by
  have hnd := h.nodup
  simp only [List.nodup_append, List.nodup_cons, List.mem_cons] at hnd
  rw [List.mem_append]
  rintro (hmem | hmem)
  · exact hnd.2.2 c hmem c (Or.inl rfl) rfl
  · exact hnd.2.1.1 hmem

/-- Taking out the task at some place of the queue. -/
theorem IsQueue.unlink {as bs : List Pid} {c : Pid} {p n : Node} (h : IsQueue q (as ++ c :: bs))
    (hp : (Node.sentinel :: as.map .task).getLast? = some p)
    (hn : (bs.map Node.task ++ [Node.sentinel]).head? = some n) :
    IsQueue (unlink q (.task c) p n) (as ++ bs) := by
  have hc : ∀ a ∈ Node.sentinel :: (as ++ bs).map .task, a ≠ .task c := by
    rintro a ha rfl
    exact h.notMem (mem_map_task.mp ha)
  have hpmem : p ∈ Node.sentinel :: (as ++ bs).map .task := by
    have hmem := List.mem_of_getLast? hp
    rw [List.map_append]
    exact List.mem_append_left (bs.map Node.task) hmem
  have hnmem : n ∈ Node.sentinel :: (as ++ bs).map .task := by
    have hmem := List.mem_of_head? hn
    rw [List.map_append]
    simp only [List.mem_cons, List.mem_append, List.not_mem_nil, or_false] at hmem ⊢
    tauto
  constructor
  · have hring := h.ring
    rw [List.map_append, List.map_cons] at hring
    rw [List.map_append] at hc hpmem hnmem ⊢
    refine hring.remove hp hn ?_ ?_ (fun a ha hap => ?_) (fun a ha han => ?_)
    · rw [next_unlink, if_neg (hc p hpmem), if_pos rfl]
    · rw [prev_unlink, if_neg (hc n hnmem), if_pos rfl]
    · rw [next_unlink, if_neg (hc a ha), if_neg hap]
    · rw [prev_unlink, if_neg (hc a ha), if_neg han]
  · rw [head_unlink, h.head]
  · have htail := h.tail
    cases bs with
    | nil =>
      have hct : Node.task c = q.tail := by
        rw [List.map_append, ← List.cons_append, List.map_singleton, List.getLast?_concat] at htail
        exact Option.some.inj htail
      rw [tail_unlink, if_pos hct, List.append_nil]
      exact hp
    | cons b bs =>
      have hlast : (Node.sentinel :: (as ++ b :: bs).map .task).getLast? = some q.tail := by
        rw [← htail]
        simp [List.getLast?_cons, List.getLast?_append]
      rw [tail_unlink, if_neg fun he => hc q.tail (List.mem_of_getLast? hlast) he.symm]
      exact hlast
  · rw [running_unlink, h.sentinel]
  · intro a ha
    rw [process_unlink]
    refine h.process a ?_
    simp only [List.mem_append, List.mem_cons] at ha ⊢
    tauto
  · intro a ha
    rw [next_unlink]
    split_ifs with hac hap
    · rfl
    · exact absurd (mem_map_task.mp (hap ▸ hpmem)) ha
    · refine h.unlinked a fun hmem => ha ?_
      have hne : a ≠ c := fun he => hac (congrArg Node.task he)
      simp only [List.mem_append, List.mem_cons] at hmem ⊢
      tauto

/-! ## The search -/

/-- There are at most six tasks, so the fuel covers the whole ring. -/
theorem IsQueue.length_le (h : IsQueue q ps) :
    (Node.sentinel :: ps.map Node.task).length ≤ searchFuel := by
  have hcard : ps.length ≤ 6 := by simpa using List.Nodup.length_le_card h.nodup
  rw [List.length_cons, List.length_map, searchFuel]
  omega

/-- The search from a linked node ends at a running task of the queue. -/
theorem IsQueue.search (h : IsQueue q ps) {n : Node} (hn : n ∈ Node.sentinel :: ps.map .task)
    (hrun : ∃ p ∈ ps, (q.node (.task p)).running = .running) :
    ∃ p ∈ ps, (q.node (.task p)).running = .running ∧
      Ring.search q.next q.isRunning searchFuel n = some (.task p) := by
  obtain ⟨p, hp, hpr⟩ := hrun
  obtain ⟨z, hz, hzr, hsearch⟩ := h.ring.search_mem (p := q.isRunning) hn
    ⟨.task p, mem_map_task.mpr hp, by simpa [RunQueue.isRunning] using hpr⟩ h.length_le
  have hzr' : (q.node z).running = .running := by simpa [RunQueue.isRunning] using hzr
  cases z with
  | sentinel =>
    rw [h.sentinel] at hzr'
    cases hzr'
  | task z => exact ⟨z, mem_map_task.mp hz, hzr', hsearch⟩

/-- The tasks that stay in the queue when `pit_handler` has looked at the current node. -/
def staying (q : RunQueue) (ps : List Pid) (c : Pid) : List Pid :=
  if (q.node (.task c)).running = .finished then ps.erase c else ps

theorem staying_of_finished {c : Pid} (h : (q.node (.task c)).running = .finished) :
    staying q ps c = ps.erase c :=
  if_pos h

theorem staying_of_not_finished {c : Pid} (h : ¬(q.node (.task c)).running = .finished) :
    staying q ps c = ps :=
  if_neg h

theorem mem_of_mem_staying {c p : Pid} (h : p ∈ staying q ps c) : p ∈ ps := by
  unfold staying at h
  split at h
  · exact List.mem_of_mem_erase h
  · exact h

theorem mem_staying_of_running {c p : Pid} (hp : p ∈ ps)
    (hrun : (q.node (.task p)).running = .running) : p ∈ staying q ps c := by
  unfold staying
  split
  · rename_i hfin
    refine (List.mem_erase_of_ne ?_).mpr hp
    rintro rfl
    rw [hfin] at hrun
    cases hrun
  · exact hp

/-- The current task at its place in the queue, unless it has finished. -/
def kept (q : RunQueue) (c : Pid) : List Pid :=
  if (q.node (.task c)).running = .finished then [] else [c]

theorem staying_eq {as bs : List Pid} {c : Pid} (h : IsQueue q (as ++ c :: bs)) :
    staying q (as ++ c :: bs) c = as ++ kept q c ++ bs := by
  unfold staying kept
  split
  · have hnc := h.notMem
    rw [List.mem_append, not_or] at hnc
    rw [List.erase_append_right _ hnc.1, List.erase_cons_head, List.append_nil]
  · rw [List.append_assoc, List.singleton_append]

/-- `pit_handler` takes a finished current node out, and searches from the node after it. -/
theorem IsQueue.selectTask_split {as bs : List Pid} {c : Pid} (h : IsQueue q (as ++ c :: bs))
    (hcurr : q.currNode = .task c) :
    ∃ q' a, (bs.map Node.task ++ [Node.sentinel]).head? = some a ∧
      Schedule.selectTask q
        = (Ring.search q'.next q'.isRunning searchFuel a).map (fun n => (q', n)) ∧
      IsQueue q' (as ++ kept q c ++ bs) ∧
      (∀ m, (q'.node m).running = (q.node m).running) ∧
      (∀ m, (q'.node m).process = (q.node m).process) ∧
      q'.currNode = q.currNode ∧ q'.firstShell = q.firstShell ∧
      (¬(q.node (.task c)).running = .finished → q' = q) := by
  obtain ⟨p, n, hp, hn, hprev, hnext⟩ := h.neighbours
  unfold kept
  by_cases hfin : (q.node (.task c)).running = .finished
  · rw [if_pos hfin, List.append_nil]
    refine ⟨_, n, hn, ?_, h.unlink hp hn, fun _ => running_unlink .., fun _ => process_unlink ..,
      currNode_unlink .., firstShell_unlink .., fun hnot => absurd hfin hnot⟩
    simp [Schedule.selectTask, hcurr, hnext, hprev, hfin, Option.map_eq_bind]
  · rw [if_neg hfin, List.append_assoc, List.singleton_append]
    refine ⟨q, n, hn, ?_, h, fun _ => rfl, fun _ => rfl, rfl, rfl, fun _ => rfl⟩
    simp [Schedule.selectTask, hcurr, hnext, hfin, Option.map_eq_bind]

theorem IsQueue.selectTask_eq {c : Pid} (h : IsQueue q ps) (hcurr : q.currNode = .task c)
    (hc : c ∈ ps) :
    ∃ q' a, Schedule.selectTask q
        = (Ring.search q'.next q'.isRunning searchFuel a).map (fun n => (q', n)) ∧
      IsQueue q' (staying q ps c) ∧ a ∈ Node.sentinel :: (staying q ps c).map .task ∧
      (∀ m, (q'.node m).running = (q.node m).running) ∧
      (∀ m, (q'.node m).process = (q.node m).process) ∧
      q'.currNode = q.currNode ∧ q'.firstShell = q.firstShell := by
  obtain ⟨as, bs, rfl⟩ := List.append_of_mem hc
  obtain ⟨q', a, ha, hsel, hq', hrunning, hproc, hcn, hfs, -⟩ := h.selectTask_split hcurr
  rw [staying_eq h]
  refine ⟨q', a, hsel, hq', ?_, hrunning, hproc, hcn, hfs⟩
  have hmem := List.mem_of_head? ha
  simp only [List.map_append, List.mem_cons, List.mem_append, List.not_mem_nil, or_false] at hmem ⊢
  tauto

/-- The choice of the next task changes links only. -/
theorem selectTask_process {r : RunQueue × Node} (h : selectTask q = some r) :
    (∀ m, (r.1.node m).process = (q.node m).process) ∧ r.1.currNode = q.currNode ∧
      r.1.firstShell = q.firstShell := by
  obtain ⟨newTask, -, h⟩ := Option.bind_eq_some_iff.mp h
  dsimp only at h
  split at h
  · obtain ⟨prev, -, h⟩ := Option.bind_eq_some_iff.mp h
    simp only [pure_bind] at h
    obtain ⟨n, -, h⟩ := Option.bind_eq_some_iff.mp h
    cases h
    exact ⟨fun m => process_unlink q q.currNode prev newTask m, currNode_unlink ..,
      firstShell_unlink ..⟩
  · simp only [pure_bind] at h
    obtain ⟨n, -, h⟩ := Option.bind_eq_some_iff.mp h
    cases h
    exact ⟨fun _ => rfl, rfl, rfl⟩

/-- A current task that has not finished stays, and the search starts after it. -/
theorem selectTask_of_not_finished {n : Node} {r : RunQueue × Node}
    (hfin : ¬(q.node q.currNode).running = .finished) (hnext : q.next q.currNode = some n)
    (hsel : Schedule.selectTask q = some r) :
    r.1 = q ∧ Ring.search q.next q.isRunning searchFuel n = some r.2 := by
  simp only [Schedule.selectTask, hnext, if_neg hfin, Option.bind_eq_bind, Option.bind_some,
    Option.pure_def] at hsel
  obtain ⟨z, hz, he⟩ := Option.bind_eq_some_iff.mp hsel
  cases he
  exact ⟨rfl, hz⟩

/-- The way from a linked node to a linked task. -/
theorem IsQueue.exists_way (h : IsQueue q ps) {n : Node} {p : Pid}
    (hn : n ∈ Node.sentinel :: ps.map .task) (hp : p ∈ ps) :
    ∃ d, Ring.search q.next (fun x => x = .task p) d n = some (.task p) := by
  obtain ⟨z, -, hz, hsearch⟩ := h.ring.search_mem (p := fun x => x = .task p) hn
    ⟨.task p, mem_map_task.mpr hp, by simp⟩ le_rfl
  cases of_decide_eq_true hz
  exact ⟨_, hsearch⟩

/-- `pit_handler` finds a task to run; the current one is taken out if it has finished. -/
theorem IsQueue.selectTask {c : Pid} (h : IsQueue q ps) (hcurr : q.currNode = .task c)
    (hc : c ∈ ps) (hrun : ∃ p ∈ ps, (q.node (.task p)).running = .running) :
    ∃ q' n, selectTask q = some (q', .task n) ∧ IsQueue q' (staying q ps c) ∧
      n ∈ ps ∧ (q.node (.task n)).running = .running ∧
      (∀ m, (q'.node m).running = (q.node m).running) ∧
      (∀ m, (q'.node m).process = (q.node m).process) ∧
      q'.currNode = q.currNode ∧ q'.firstShell = q.firstShell := by
  obtain ⟨q', a, hsel, hq', ha, hrunning, hproc, hcn, hfs⟩ := h.selectTask_eq hcurr hc
  -- a running task is not the finished one, so it is still there
  obtain ⟨r, hr, hrr⟩ := hrun
  have hstay : r ∈ staying q ps c := mem_staying_of_running hr hrr
  obtain ⟨z, hz, hzr, hsearch⟩ := hq'.search ha ⟨r, hstay, by rwa [hrunning]⟩
  exact ⟨q', z, by rw [hsel, hsearch, Option.map_some], hq', mem_of_mem_staying hz,
    by rwa [hrunning] at hzr, hrunning, hproc, hcn, hfs⟩

/-- If `pit_handler` finds a node at all, some task is running. -/
theorem IsQueue.exists_running {c : Pid} {r : RunQueue × Node} (h : IsQueue q ps)
    (hcurr : q.currNode = .task c) (hc : c ∈ ps) (hsel : Schedule.selectTask q = some r) :
    ∃ p ∈ ps, (q.node (.task p)).running = .running := by
  obtain ⟨q', a, hsel', hq', ha, hrunning, -, -, -⟩ := h.selectTask_eq hcurr hc
  obtain ⟨z, hsearch, -⟩ := Option.map_eq_some_iff.mp (hsel'.symm.trans hsel)
  obtain ⟨hz, hzr⟩ := hq'.ring.search_spec ha hsearch
  have hzr' : (q'.node z).running = .running := by simpa [RunQueue.isRunning] using hzr
  cases z with
  | sentinel =>
    rw [hq'.sentinel] at hzr'
    cases hzr'
  | task z => exact ⟨z, mem_of_mem_staying (mem_map_task.mp hz), by rw [← hrunning, hzr']⟩

end Schedule
end GalapagOS
