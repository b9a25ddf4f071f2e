import GalapagOS.Schedule.Theorems
import GalapagOS.Lib.Run

/-!
# Runs of the run queue

The queue under any sequence of `schedule` on unlinked nodes, `unschedule` of the current node and
ticks. Its links always represent a list of pids, and each event changes that list in its own way.

A tick is described by the list as well: read from behind the current task, once around, the tasks
that are running come up one after the other.
-/

namespace GalapagOS
namespace Schedule

variable {q q' : RunQueue} {ps : List Pid}

/-! ## The list that the links represent -/

/-- What the links look like from outside. -/
structure Represents (q : RunQueue) (ps : List Pid) : Prop where
  /-- following `next_task` from the sentinel visits the nodes of `ps` and then the sentinel -/
  visits : (Node.sentinel :: ps.map .task ++ [Node.sentinel]).IsChain fun a b => q.next a = some b
  once : ps.Nodup
  linked : ∀ p, p ∈ ps ↔ q.next (.task p) ≠ none
  inverse : ∀ a ∈ Node.sentinel :: ps.map .task, ∀ b ∈ Node.sentinel :: ps.map .task,
    (q.next a = some b ↔ q.prev b = some a)
  tail_eq : q.prev .sentinel = some q.tail
  tail_next : q.next q.tail = some .sentinel

theorem IsQueue.represents (h : IsQueue q ps) : Represents q ps where
  visits := h.ring.chain.imp fun _ _ hab => hab.1
  once := h.nodup
  linked p := by
    rw [h.mem_iff, Option.isSome_iff_ne_none]
  inverse _ ha _ hb := h.ring.next_eq_iff ha hb
  tail_eq := (h.ring.last_linked h.tail).2
  tail_next := (h.ring.last_linked h.tail).1

/-! ## Events -/

inductive Event where
  /-- `schedule`, with the pid of the parent in the control block -/
  | schedule (pid : Pid) (parentPid : Option Pid)
  | unschedule (pid parentPid : Pid)
  | tick
deriving DecidableEq, Repr

def Event.exec (q : RunQueue) : Event → Option RunQueue
  | .schedule pid parentPid => some (Schedule.schedule q pid parentPid)
  | .unschedule pid parentPid => some (Schedule.unschedule q pid parentPid)
  | .tick => pitHandler q

def system : Run.System RunQueue Event where
  init q := q = schedInit
  step q e := e.exec q

/-- The sequences of events that the kernel makes. -/
def Proper (q : RunQueue) : Event → Prop
  | .schedule pid _ => q.next (.task pid) = none
  | .unschedule pid _ => q.currNode = .task pid
  | .tick => ∃ p : Pid, q.next (.task p) ≠ none ∧ (q.node (.task p)).running = .running

instance (q : RunQueue) : ∀ e, Decidable (Proper q e)
  | .schedule _ _ => inferInstanceAs (Decidable (_ = _))
  | .unschedule _ _ => inferInstanceAs (Decidable (_ = _))
  | .tick => inferInstanceAs (Decidable (∃ p : Pid, q.next (.task p) ≠ none ∧ _))

/-- The list after an event: a new task comes last, and a tick removes the current task if it has
finished. -/
def after (q : RunQueue) (ps : List Pid) : Event → List Pid
  | .schedule pid _ => ps ++ [pid]
  | .unschedule _ _ => ps
  | .tick =>
    match q.currNode with
    | .sentinel => ps
    | .task c => staying q ps c

/-- The current node is linked; it is the sentinel exactly until the first tick. -/
structure Tracked (q : RunQueue) (ps : List Pid) : Prop where
  queue : IsQueue q ps
  current : q.currNode ∈ Node.sentinel :: ps.map .task
  first : q.firstShell = true ↔ q.currNode = .sentinel

theorem unschedule_links (q : RunQueue) (p parent : Pid) (n : Node) :
    (unschedule q p parent).next n = q.next n ∧ (unschedule q p parent).prev n = q.prev n := by
  unfold unschedule
  split
  · exact ⟨by rw [next_setRunning, next_setRunning], by rw [prev_setRunning, prev_setRunning]⟩
  · exact ⟨next_setRunning _, prev_setRunning _⟩

theorem Tracked.schedule (h : Tracked q ps) {p : Pid} (hp : q.next (.task p) = none)
    (parent : Option Pid) : Tracked (Schedule.schedule q p parent) (ps ++ [p]) := by
  have hnot : p ∉ ps := by
    rw [h.queue.mem_iff, hp]
    simp
  refine ⟨h.queue.schedule hnot parent, ?_, ?_⟩
  · rw [currNode_schedule, List.map_append, ← List.cons_append]
    exact List.mem_append_left _ h.current
  · rw [currNode_schedule, firstShell_schedule]
    exact h.first

theorem Tracked.unschedule (h : Tracked q ps) (p parent : Pid) :
    Tracked (Schedule.unschedule q p parent) ps := by
  have hq : IsQueue (q.setRunning (.task p) .finished) ps := h.queue.setRunning p .finished
  unfold Schedule.unschedule
  split
  · exact ⟨hq.setRunning parent .running, h.current, h.first⟩
  · exact ⟨hq, h.current, h.first⟩

/-- A tick after the first one, as `selectTask`. -/
theorem pitHandler_of_current {c : Pid} (hcurr : q.currNode = .task c) {n : Node}
    (hsel : selectTask q = some (q', n)) (hcp : (q'.node q'.currNode).process ≠ none)
    (hnp : (q'.node n).process ≠ none) :
    pitHandler q = some { q' with currNode := n } := by
  have hnot : ¬(q.firstShell = true ∧ q.currNode = .sentinel) := by
    rw [hcurr]
    simp
  obtain ⟨x, hx⟩ := Option.ne_none_iff_exists'.mp hcp
  obtain ⟨y, hy⟩ := Option.ne_none_iff_exists'.mp hnp
  simp [pitHandler, hnot, hsel, hx, hy]

/-- The first tick takes the first node. -/
theorem pitHandler_of_first (hfirst : q.firstShell = true) (hcurr : q.currNode = .sentinel)
    {n : Node} (hn : q.next .sentinel = some n) (hnp : (q.node n).process ≠ none) :
    pitHandler q = some { q with currNode := n, firstShell := false } := by
  obtain ⟨y, hy⟩ := Option.ne_none_iff_exists'.mp hnp
  simp [pitHandler, hfirst, hcurr, hn, hy]

/-- A tick finds a node, when some linked node is running. -/
theorem Tracked.tick (h : Tracked q ps)
    (hrun : ∃ p : Pid, q.next (.task p) ≠ none ∧ (q.node (.task p)).running = .running) :
    ∃ q', pitHandler q = some q' ∧ Tracked q' (after q ps .tick) := by
  obtain ⟨r, hr, hrr⟩ := hrun
  have hmem : r ∈ ps := (h.queue.represents.linked r).mpr hr
  unfold after
  cases hcurr : q.currNode with
  | sentinel =>
    -- the queue is not empty, so the node after the sentinel is a task
    obtain ⟨a, as, rfl⟩ := List.exists_cons_of_ne_nil (List.ne_nil_of_mem hmem)
    have hnext : q.next .sentinel = some (.task a) :=
      (List.isChain_cons_cons.mp h.queue.represents.visits).1
    have hproc : (q.node (.task a)).process ≠ none := by
      rw [h.queue.process a List.mem_cons_self]
      simp
    refine ⟨_, pitHandler_of_first (h.first.mpr hcurr) hcurr hnext hproc,
      h.queue.withCurr (.task a) false, ?_, ?_⟩
    · exact mem_map_task.mpr List.mem_cons_self
    · simp
  | task c =>
    have hc : c ∈ ps := mem_map_task.mp (hcurr ▸ h.current)
    obtain ⟨q', n, hsel, hq', hn, hnr, hrunning, hproc, hcn, hfs⟩ :=
      h.queue.selectTask hcurr hc ⟨r, hmem, hrr⟩
    have hcp : (q'.node q'.currNode).process ≠ none := by
      rw [hcn, hcurr, hproc, h.queue.process c hc]
      simp
    have hnp : (q'.node (.task n)).process ≠ none := by
      rw [hproc, h.queue.process n hn]
      simp
    have hfirst : q'.firstShell = false := by
      rw [hfs, Bool.eq_false_iff, ne_eq, h.first, hcurr]
      simp
    refine ⟨_, pitHandler_of_current hcurr hsel hcp hnp, hq'.withCurr (.task n) q'.firstShell,
      ?_, ?_⟩
    · exact mem_map_task.mpr (mem_staying_of_running hn hnr)
    · simp [hfirst]

/-- Every proper event can happen, and changes the list as described. -/
theorem Tracked.exec (h : Tracked q ps) {e : Event} (he : Proper q e) :
    ∃ q', e.exec q = some q' ∧ Tracked q' (after q ps e) := by
  cases e with
  | schedule pid parentPid => exact ⟨_, rfl, h.schedule he parentPid⟩
  | unschedule pid parentPid => exact ⟨_, rfl, h.unschedule pid parentPid⟩
  | tick => exact h.tick he

theorem schedInit_tracked : Tracked schedInit [] :=
  ⟨schedInit_isQueue, List.mem_cons_self, by simp [schedInit]⟩

theorem tracked_of_reach (h : Run.Reach system Proper q) : ∃ ps, Tracked q ps := by
  apply h.invariant (I := fun q => ∃ ps, Tracked q ps)
  · intro q hq
    rw [show q = schedInit from hq]
    exact ⟨[], schedInit_tracked⟩
  · intro q e q' hq he hstep
    obtain ⟨ps, hps⟩ := hq
    obtain ⟨q₁, hq₁, htracked⟩ := hps.exec he
    obtain rfl : q₁ = q' := Option.some.inj (hq₁.symm.trans hstep)
    exact ⟨_, htracked⟩

/-- A tick on a current node that has not finished does not touch the links. -/
theorem pitHandler_links (h : pitHandler q = some q')
    (hfin : ¬(q.node q.currNode).running = .finished) :
    q'.next = q.next ∧ q'.prev = q.prev ∧ q'.tail = q.tail := by
  unfold pitHandler at h
  split at h
  · obtain ⟨n, -, h⟩ := Option.bind_eq_some_iff.mp h
    obtain ⟨p, -, h⟩ := Option.bind_eq_some_iff.mp h
    cases h
    exact ⟨rfl, rfl, rfl⟩
  · obtain ⟨r, hsel, h⟩ := Option.bind_eq_some_iff.mp h
    obtain ⟨p, -, h⟩ := Option.bind_eq_some_iff.mp h
    obtain ⟨p', -, h⟩ := Option.bind_eq_some_iff.mp h
    cases h
    obtain ⟨n, hn, -⟩ := Option.bind_eq_some_iff.mp hsel
    obtain ⟨hr, -⟩ := selectTask_of_not_finished hfin hn hsel
    rw [← hr]
    exact ⟨rfl, rfl, rfl⟩

/-- Following the links from the sentinel visits every linked node once, `prev_task` is the inverse
of `next_task` and the tail is the node before the sentinel; a new node comes last, a tick takes a
finished current node out and nothing else, and any other tick leaves the links as they are. -/
theorem queue_representation (h : Run.Reach system Proper q) :
    ∃ ps, Represents q ps ∧ q.currNode ∈ Node.sentinel :: ps.map .task ∧
      (∀ pid parentPid, Proper q (.schedule pid parentPid) →
        Represents (schedule q pid parentPid) (ps ++ [pid])) ∧
      (∀ pid parentPid, Proper q (.unschedule pid parentPid) →
        Represents (unschedule q pid parentPid) ps ∧
        (unschedule q pid parentPid).next = q.next ∧
        (unschedule q pid parentPid).prev = q.prev) ∧
      (Proper q .tick → ∃ q', pitHandler q = some q' ∧
        (∀ c, q.currNode = .task c → (q.node (.task c)).running = .finished →
          Represents q' (ps.erase c)) ∧
        (¬(q.node q.currNode).running = .finished →
          Represents q' ps ∧ q'.next = q.next ∧ q'.prev = q.prev ∧ q'.tail = q.tail)) := by
  obtain ⟨ps, hps⟩ := tracked_of_reach h
  refine ⟨ps, hps.queue.represents, hps.current, fun pid parentPid hp => ?_,
    fun pid parentPid hp => ?_, fun hp => ?_⟩
  · exact (hps.schedule hp parentPid).queue.represents
  · refine ⟨(hps.unschedule pid parentPid).queue.represents, ?_, ?_⟩
    · exact funext fun n => (unschedule_links q pid parentPid n).1
    · exact funext fun n => (unschedule_links q pid parentPid n).2
  · obtain ⟨q', hq', htracked⟩ := hps.tick hp
    refine ⟨q', hq', fun c hc hfin => ?_, fun hfin => ⟨?_, pitHandler_links hq' hfin⟩⟩
    · have hafter : after q ps .tick = ps.erase c := by
        simp only [after, hc, staying_of_finished hfin]
      rw [← hafter]
      exact htracked.queue.represents
    · have hafter : after q ps .tick = ps := by
        unfold after
        cases hcurr : q.currNode with
        | sentinel => rfl
        | task c => exact staying_of_not_finished (hcurr ▸ hfin)
      rw [← hafter]
      exact htracked.queue.represents

/-- The first of two shells is current and has been taken off the queue. -/
theorem queue_representation_finished :
    ∃ q ps, system.run schedInit [.schedule 0 none, .schedule 1 none, .tick, .unschedule 0 0]
        = some q ∧ Represents q ps ∧
      ∃ q', pitHandler q = some q' ∧ Represents q' (ps.erase 0) := by
  have hinit : Run.Reach system Proper schedInit := .init rfl
  have hreach := hinit.run (show system.Allowed Proper schedInit
    [.schedule 0 none, .schedule 1 none, .tick, .unschedule 0 0] by decide) rfl
  obtain ⟨ps, hps, -, -, -, htick⟩ := queue_representation hreach
  obtain ⟨q', hq', hfin, -⟩ := htick (by decide)
  exact ⟨_, ps, rfl, hps, q', hq', hfin 0 rfl rfl⟩

/-! ## Round robin -/

/-- The nodes that `n` ticks select, and the queue after them. -/
def ticks : ℕ → RunQueue → Option (List Node × RunQueue)
  | 0, q => some ([], q)
  | n + 1, q => do
    let q₁ ← pitHandler q
    let (ns, q₂) ← ticks n q₁
    pure (q₁.currNode :: ns, q₂)

/-- `ds` are the running tasks, read from behind the current task. -/
def Turn (q : RunQueue) (ds : List Pid) : Prop :=
  ∃ as c bs, IsQueue q (as ++ c :: bs) ∧ q.currNode = .task c ∧
    (bs ++ as ++ [c]).filter (fun p => q.isRunning (.task p)) = ds

/-- A task that has finished is not running, so it does not matter whether it is still there. -/
theorem filter_kept (q : RunQueue) (c : Pid) :
    (kept q c).filter (fun p => q.isRunning (.task p))
      = [c].filter (fun p => q.isRunning (.task p)) := by
  unfold kept
  split
  · rename_i hfin
    simp [RunQueue.isRunning, hfin]
  · rfl

/-- The search goes once around the ring and finds the first task of the turn. -/
theorem IsQueue.search_turn {xs bs ds : List Pid} {d : Pid} {a : Node}
    (h : IsQueue q (xs ++ bs)) (ha : (bs.map Node.task ++ [Node.sentinel]).head? = some a)
    (hds : (bs ++ xs).filter (fun p => q.isRunning (.task p)) = d :: ds) :
    Ring.search q.next q.isRunning searchFuel a = some (.task d) := by
  obtain ⟨l, hl⟩ : ∃ l, bs.map Node.task ++ Node.sentinel :: xs.map .task = a :: l := by
    obtain ⟨l, hl⟩ := List.head?_eq_some_iff.mp ha
    refine ⟨l ++ xs.map .task, ?_⟩
    rw [← List.cons_append, ← hl]
    simp
  have hring := h.ring
  rw [List.map_append] at hring
  have hpath := hring.path_from_gap
  rw [hl] at hpath
  have hlen := h.length_le
  have hsame : (a :: l).length = (Node.sentinel :: (xs ++ bs).map Node.task).length := by
    rw [← hl]
    simp only [List.length_append, List.length_cons, List.length_map]
    omega
  refine Ring.search_eq_find hpath ?_ (by omega)
  -- the sentinel is never running
  have hsentinel : q.isRunning .sentinel = false := by simp [RunQueue.isRunning, h.sentinel]
  have hfilter : (a :: l).filter q.isRunning
      = ((bs ++ xs).filter fun p => q.isRunning (.task p)).map .task := by
    rw [← hl, List.filter_append, List.filter_cons_of_neg (by simp [hsentinel]), List.filter_append,
      List.map_append, List.filter_map, List.filter_map]
    rfl
  rw [← List.head?_filter, hfilter, hds]
  rfl

/-- One tick: the first task of the turn is selected, and is the last of the next turn. -/
theorem Turn.tick {d : Pid} {ds : List Pid} (h : Turn q (d :: ds)) :
    ∃ q', pitHandler q = some q' ∧ q'.currNode = .task d ∧ Turn q' (ds ++ [d]) ∧
      ∀ m, (q'.node m).running = (q.node m).running := by
  obtain ⟨as, c, bs, hq, hcurr, hds⟩ := h
  obtain ⟨q₁, a, ha, hsel, hq₁, hrunning, hproc, hcn, -⟩ := hq.selectTask_split hcurr
  have hsame : (fun p => q₁.isRunning (.task p)) = fun p => q.isRunning (.task p) := by
    funext p
    simp only [RunQueue.isRunning, hrunning]
  have hturn : (bs ++ (as ++ kept q c)).filter (fun p => q₁.isRunning (.task p)) = d :: ds := by
    rw [hsame, ← List.append_assoc, List.filter_append, filter_kept, ← List.filter_append, hds]
  have hsearch := hq₁.search_turn ha hturn
  rw [hsearch, Option.map_some] at hsel
  obtain ⟨as', bs', hsplit, hnext⟩ := Ring.exists_turn hturn
  have hd : d ∈ as ++ c :: bs := by
    have hmem : d ∈ (bs ++ as ++ [c]).filter fun p => q.isRunning (.task p) :=
      hds ▸ List.mem_cons_self
    have hmem' := List.mem_of_mem_filter hmem
    simp only [List.mem_append, List.mem_cons, List.not_mem_nil, or_false] at hmem' ⊢
    tauto
  have hcp : (q₁.node q₁.currNode).process ≠ none := by
    rw [hcn, hcurr, hproc, hq.process c (by simp)]
    simp
  have hdp : (q₁.node (.task d)).process ≠ none := by
    rw [hproc, hq.process d hd]
    simp
  refine ⟨_, pitHandler_of_current hcurr hsel hcp hdp, rfl, ⟨as', d, bs', ?_, rfl, hnext⟩,
    hrunning⟩
  rw [← hsplit]
  exact hq₁.withCurr (.task d) q₁.firstShell

/-- Any number of ticks, up to once around. -/
theorem Turn.ticks {ds es : List Pid} (h : Turn q (ds ++ es)) :
    ∃ q', Schedule.ticks ds.length q = some (ds.map .task, q') ∧ Turn q' (es ++ ds) := by
  induction ds generalizing q es with
  | nil => exact ⟨q, rfl, by simpa using h⟩
  | cons d ds ih =>
    obtain ⟨q₁, hq₁, hcurr, hturn, -⟩ := h.tick
    have hturn' : Turn q₁ (ds ++ (es ++ [d])) := by simpa using hturn
    obtain ⟨q₂, hq₂, hlast⟩ := ih hturn'
    refine ⟨q₂, ?_, by simpa using hlast⟩
    simp [Schedule.ticks, hq₁, hq₂, hcurr]

/-- As many ticks as there are running tasks select each of them once, in the order of the queue
from behind the current task, and nothing else. -/
theorem round_robin {as bs : List Pid} {c : Pid} (h : IsQueue q (as ++ c :: bs))
    (hcurr : q.currNode = .task c) :
    ∃ ns q', ticks ((as ++ c :: bs).countP fun p => q.isRunning (.task p)) q = some (ns, q') ∧
      ns = ((bs ++ as ++ [c]).filter fun p => q.isRunning (.task p)).map .task ∧
      ns.Nodup ∧
      ∀ n, n ∈ ns ↔ ∃ p ∈ as ++ c :: bs, n = .task p ∧ (q.node (.task p)).running = .running := by
  generalize hds : (bs ++ as ++ [c]).filter (fun p => q.isRunning (.task p)) = ds
  have hperm : (as ++ c :: bs).Perm (bs ++ as ++ [c]) := by
    rw [List.append_cons, List.append_assoc bs]
    exact List.perm_append_comm
  have hlen : (as ++ c :: bs).countP (fun p => q.isRunning (.task p)) = ds.length := by
    rw [hperm.countP_eq, List.countP_eq_length_filter, hds]
  have hturn : Turn q (ds ++ []) := ⟨as, c, bs, h, hcurr, by rw [hds, List.append_nil]⟩
  obtain ⟨q', hticks, -⟩ := hturn.ticks
  have hnodup : ds.Nodup := hds ▸ (hperm.nodup_iff.mp h.nodup).filter _
  refine ⟨ds.map .task, q', hlen ▸ hticks, rfl, hnodup.map fun _ _ => Node.task.inj, fun n => ?_⟩
  rw [List.mem_map]
  constructor
  · rintro ⟨p, hp, rfl⟩
    rw [← hds, List.mem_filter, ← hperm.mem_iff] at hp
    exact ⟨p, hp.1, rfl, of_decide_eq_true hp.2⟩
  · rintro ⟨p, hp, rfl, hrun⟩
    refine ⟨p, ?_, rfl⟩
    rw [← hds, List.mem_filter, ← hperm.mem_iff]
    exact ⟨hp, decide_eq_true hrun⟩

/-- Two shells and a program that the first of them waits for; the program is current. -/
def waitingShell : RunQueue :=
  { schedule (schedule (schedule schedInit 0 none) 1 none) 3 (some 0) with
    currNode := .task 3, firstShell := false }

theorem waitingShell_isQueue : IsQueue waitingShell ([0, 1] ++ 3 :: []) :=
  (((schedInit_isQueue.schedule (p := 0) (by decide) none).schedule (p := 1) (by decide)
    none).schedule (p := 3) (by decide) (some 0)).withCurr (.task 3) false

theorem round_robin_waitingShell :
    ∃ q', ticks 2 waitingShell = some ([.task 1, .task 3], q') := by
  obtain ⟨ns, q', hticks, hns, -⟩ := round_robin waitingShell_isQueue rfl
  rw [hns] at hticks
  exact ⟨q', hticks⟩

end Schedule
end GalapagOS
