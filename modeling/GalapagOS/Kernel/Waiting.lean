import GalapagOS.Kernel.Tree
import GalapagOS.Schedule.Runs

/-!
# No process starves

The timer handler goes around the run queue while `kexecute` appends to it and `khalt` takes nodes
out. A task that waits to run comes nearer with every choice of the handler, but for the tasks
that are appended in front of it; these use up process numbers, so a weight of two for a place in the
queue and one for a free number goes down with every choice.
-/

namespace GalapagOS
namespace Schedule

variable {q : RunQueue} {ps : List Pid} {c p : Pid} {d : ℕ}

/-- `d` tasks stand between the current task `c` and the task `p`. -/
def Behind (ps : List Pid) (c p : Pid) (d : ℕ) : Prop :=
  ∃ as bs xs ys, ps = as ++ c :: bs ∧ bs ++ as = xs ++ p :: ys ∧ xs.length = d

theorem Behind.mem (h : Behind ps c p d) : c ∈ ps ∧ p ∈ ps := by
  obtain ⟨as, bs, xs, ys, rfl, hsplit, -⟩ := h
  have hp : p ∈ bs ++ as := by rw [hsplit]; simp
  simp only [List.mem_append, List.mem_cons] at hp ⊢
  tauto

theorem Behind.lt_length (h : Behind ps c p d) : d + 2 ≤ ps.length := by
  obtain ⟨as, bs, xs, ys, rfl, hsplit, rfl⟩ := h
  have hlen := congrArg List.length hsplit
  simp only [List.length_append, List.length_cons] at hlen ⊢
  omega

theorem Behind.ne (h : Behind ps c p d) (hnodup : ps.Nodup) : p ≠ c := by
  obtain ⟨as, bs, xs, ys, rfl, hsplit, -⟩ := h
  rintro rfl
  have hp : p ∈ bs ++ as := by rw [hsplit]; simp
  have hrest : p ∉ as ++ bs := (List.nodup_middle.mp hnodup).notMem
  exact hrest (List.mem_append.mpr (List.mem_append.mp hp).symm)

/-- A new task at the tail may come in between. -/
theorem Behind.append (h : Behind ps c p d) (n : Pid) : ∃ d' ≤ d + 1, Behind (ps ++ [n]) c p d' := by
  obtain ⟨as, bs, xs, ys, rfl, hsplit, rfl⟩ := h
  have hassoc : as ++ c :: bs ++ [n] = as ++ c :: (bs ++ [n]) := by simp
  rcases List.append_eq_append_iff.mp hsplit with ⟨m, hxs, has⟩ | ⟨m, hbs, hrest⟩
  · refine ⟨_, ?_, as, bs ++ [n], bs ++ n :: m, ys, hassoc, by simp [has], rfl⟩
    have hlen := congrArg List.length hxs
    simp only [List.length_append, List.length_cons] at hlen ⊢
    omega
  · cases m with
    | nil =>
      rw [List.nil_append] at hrest
      rw [List.append_nil] at hbs
      refine ⟨_, ?_, as, bs ++ [n], xs ++ [n], ys, hassoc, by simp [hbs, ← hrest], rfl⟩
      simp
    | cons a m =>
      rw [List.cons_append, List.cons.injEq] at hrest
      obtain ⟨rfl, rfl⟩ := hrest
      exact ⟨_, Nat.le_succ _, as, bs ++ [n], xs, m ++ n :: as, hassoc, by simp [hbs], rfl⟩

/-- One choice of the timer handler: it takes the waiting task, or the task comes nearer. -/
theorem IsQueue.pitHandler_closer (h : IsQueue q ps) (hcurr : q.currNode = .task c)
    (hp : (q.node (.task p)).running = .running) (hd : Behind ps c p d) :
    ∃ q' n, pitHandler q = some q' ∧ q'.currNode = .task n ∧ IsQueue q' (staying q ps c) ∧
      (∀ m, (q'.node m).running = (q.node m).running) ∧
      (n = p ∨ ∃ d' < d, Behind (staying q ps c) n p d') := by
  obtain ⟨as, bs, xs, ys, rfl, hsplit, rfl⟩ := hd
  obtain ⟨q₁, a, ha, hsel, hq₁, hrunning, hproc, hcn, -⟩ := h.selectTask_split hcurr
  have hsplit' : bs ++ (as ++ kept q c) = xs ++ p :: (ys ++ kept q c) := by
    rw [← List.append_assoc, hsplit]
    simp
  have hp₁ : q₁.isRunning (.task p) = true := by simp [RunQueue.isRunning, hrunning, hp]
  obtain ⟨n, hn⟩ : ∃ n, (bs ++ (as ++ kept q c)).find? (fun p => q₁.isRunning (.task p)) = some n := by
    rw [← Option.isSome_iff_exists, List.find?_isSome]
    exact ⟨p, by rw [hsplit']; simp, hp₁⟩
  obtain ⟨ds, hds⟩ : ∃ ds,
      (bs ++ (as ++ kept q c)).filter (fun p => q₁.isRunning (.task p)) = n :: ds := by
    rw [← List.head?_filter] at hn
    exact List.head?_eq_some_iff.mp hn
  rw [hq₁.search_turn ha hds, Option.map_some] at hsel
  -- both nodes belong to tasks of the queue, so the handler reads their processes
  have hmem : n ∈ as ++ kept q c ++ bs := by
    have hmem := List.mem_of_find?_eq_some hn
    simp only [List.mem_append] at hmem ⊢
    tauto
  have hcp : (q₁.node q₁.currNode).process ≠ none := by
    rw [hcn, hcurr, hproc, h.process c (by simp)]
    simp
  have hnp : (q₁.node (.task n)).process ≠ none := by
    rw [hq₁.process n hmem]
    simp
  rw [staying_eq h]
  refine ⟨_, n, pitHandler_of_current hcurr hsel hcp hnp, rfl, hq₁.withCurr (.task n) _, hrunning, ?_⟩
  rcases Ring.turn_closer hn hp₁ hsplit' with hnp | ⟨as', bs', xs', ys', hq', hway, hlt⟩
  · exact .inl hnp
  · exact .inr ⟨xs'.length, hlt, as', bs', xs', ys', hq', hway, rfl⟩

end Schedule

namespace Kernel

variable {k k' k₁ : Kernel} {chains : Fin 3 → List Pid} {ps : List Pid} {c p : Pid} {w : ℕ}

/-- The event ends in a run of the timer handler: a tick, a `kexecute` that has started a program, or a
`khalt` of a program. -/
def Event.yields (k : Kernel) : Event → Bool
  | .tick => true
  | .kexecute command st => (k.kexecute command st).any fun r => r.2.isNone
  | .khalt _ => k.currProcess.any fun c => 2 < (k.pcbs c).pid
  | _ => false

/-- The process that the timer handler chooses in this event. -/
def Event.chosen (k : Kernel) (e : Event) : Option Pid :=
  if e.yields k then (e.exec k).bind (·.currProcess) else none

/-- The processes that the timer handler chooses in a run, one after the other. -/
def choices (k : Kernel) (es : List Event) : List Pid :=
  (system.labels Event.chosen k es).reduceOption

/-- The process waits to run, with weight at most `w`. -/
structure Waiting (k : Kernel) (p : Pid) (w : ℕ) : Prop where
  running : (k.queue.node (.task p)).running = .running
  queue : ∃ ps c d, Schedule.IsQueue k.queue ps ∧ k.queue.currNode = .task c ∧
    Schedule.Behind ps c p d ∧ 2 * d + 6 ≤ w + ps.length

theorem Waiting.congr (h : Waiting k p w) (hqueue : k'.queue = k.queue) : Waiting k' p w := by
  obtain ⟨hrun, ps, c, d, hq, hcurr, hd, hw⟩ := h
  exact ⟨hqueue ▸ hrun, ps, c, d, hqueue ▸ hq, hqueue ▸ hcurr, hd, hw⟩

/-- The timer handler on a queue `ps` with current task `c` chooses the waiting process, or the process
comes at least one place nearer; the weight may have been one too large, for a task that was appended
or is taken out. -/
theorem pitHandler_waiting {d : ℕ} (hq : Schedule.IsQueue k.queue ps)
    (hcurr : k.queue.currNode = .task c) (hrun : (k.queue.node (.task p)).running = .running)
    (hd : Schedule.Behind ps c p d)
    (hw : 2 * d + 6 ≤ w + 1 + (Schedule.staying k.queue ps c).length)
    (hpit : k.pitHandler = some k') :
    k'.currProcess = some p ∨ ∃ w' < w, Waiting k' p w' := by
  obtain ⟨q', n, hq', hcurr', hqueue, hrunning, hn⟩ := hq.pitHandler_closer hcurr hrun hd
  have hk' : k'.queue = q' := by
    have hmap := queue_pitHandler k
    rw [hpit, hq'] at hmap
    exact Option.some.inj hmap
  obtain ⟨k₂, m, hpit₂, hsw, -⟩ := pitHandler_spec hq hcurr hd.mem.1 ⟨p, hd.mem.2, hrun⟩
  cases hpit.symm.trans hpit₂
  rcases hn with rfl | ⟨d', hlt, hd'⟩
  · left
    have hm : Schedule.Node.task n = .task m := by rw [← hcurr', ← hk', hsw.currNode]
    rw [hsw.currProcess, Schedule.Node.task.inj hm]
  · right
    have hlen : (Schedule.staying k.queue ps c).length ≤ 6 := by
      simpa using List.Nodup.length_le_card hqueue.nodup
    refine ⟨w - 1, by omega, ?_, _, n, d', ?_, ?_, hd', by omega⟩
    · rw [hk', hrunning, hrun]
    · rw [hk']
      exact hqueue
    · rw [hk', hcurr']

theorem Called.queue {out : Option (List UInt8)} (h : Called k c out k') : k'.queue = k.queue := by
  cases h with
  | wrote hwrite =>
    obtain ⟨m, rfl⟩ := terminalWrite_eq_some hwrite
    rfl
  | quiet _ _ heq =>
    rw [heq]
    rfl

/-- The other system calls, the keyboard and the terminal switch leave the queue alone. -/
theorem Step.queue_eq {e : Event} {chains' : Fin 3 → List Pid} (h : Step k chains c e k' chains')
    (hexec : ∀ command st, e ≠ .kexecute command st) (hhalt : ∀ status, e ≠ .khalt status)
    (htick : e ≠ .tick) : k'.queue = k.queue := by
  cases h with
  | kexecuteError => rfl
  | kexecuteFailed => exact absurd rfl (hexec _ _)
  | kexecuted => exact absurd rfl (hexec _ _)
  | restarted => rfl
  | khalted => exact absurd rfl (hhalt _)
  | kvidmapError => rfl
  | kvidmapped _ hacc =>
    obtain ⟨m, rfl⟩ := access_eq_some hacc
    rfl
  | fileCall hcall => exact hcall.queue
  | tick => exact absurd rfl htick
  | sameTerminal => rfl
  | switchTerminals _ h₁ h₂ =>
    obtain ⟨m₁, rfl⟩ := access_eq_some h₁
    obtain ⟨m₂, rfl⟩ := access_eq_some h₂
    rfl
  | putChar hput =>
    obtain ⟨m, rfl⟩ := keyboardOutput_eq_some hput
    rfl
  | clearTerminal hclear =>
    obtain ⟨m, rfl⟩ := keyboardOutput_eq_some hclear
    rfl

/-- `kexecute`: a program that is started is appended to the queue, and the handler runs. -/
theorem Waiting.kexecute {command : Option (List UInt8)} {st : Stale} {r : Option ℤ}
    (h : Waiting k p w) (hcons : Consistent k chains ps c)
    (hexec : k.kexecute command st = some (k', r)) :
    (r ≠ none ∧ Waiting k' p w) ∨
      (r = none ∧ (k'.currProcess = some p ∨ ∃ w' < w, Waiting k' p w')) := by
  have hwait := h
  obtain ⟨hrun, qs, c', d, hq, hcurr, hd, hw⟩ := h
  obtain rfl : c' = c := Schedule.Node.task.inj (hcurr.symm.trans hcons.currNode)
  cases kexecute_cases hexec hcons.currProcess hcons.live fun p hp => hcons.live_root hp with
  | unchanged => exact .inl ⟨nofun, hwait⟩
  | failed _ _ hacc =>
    obtain ⟨m, rfl⟩ := access_eq_some hacc
    exact .inl ⟨nofun, hwait.congr rfl⟩
  | started hfree hlt hacc hline hfind hs hpit =>
    rename_i n bytes line k₁ k₂
    obtain ⟨m, rfl⟩ := access_eq_some hacc
    have hqueue := hs.queue
    -- the new task is not linked yet
    have hn : n ∉ qs := by
      intro hmem
      have hlinked : n ∈ ps := by
        rw [hcons.queue.mem_iff]
        exact hq.mem_iff.mp hmem
      exact not_live_of_free hfree ((hcons.linked n).mp hlinked)
    have hq₂ : Schedule.IsQueue k₂.queue (qs ++ [n]) := by
      rw [hqueue]
      exact hq.schedule hn _
    have hpn : p ≠ n := fun he => hn (he ▸ hd.mem.2)
    have hpid : (k.pcbs c').pid = c' := hcons.pid c' hcons.live
    have hrun₂ : (k₂.queue.node (.task p)).running = .running := by
      rw [hs.running hpid, if_neg (hd.ne hq.nodup), if_neg hpn]
      exact hrun
    have hfin : ¬(k₂.queue.node (.task c')).running = .finished := by
      rw [hs.running hpid, if_pos rfl]
      simp
    obtain ⟨d₂, hd₂, hbehind⟩ := hd.append n
    refine .inr ⟨rfl, pitHandler_waiting hq₂ ?_ hrun₂ hbehind ?_ hpit⟩
    · rw [hqueue, Schedule.currNode_schedule]
      exact hcurr
    · rw [Schedule.staying_of_not_finished hfin, List.length_append, List.length_singleton]
      omega

/-- `khalt`: a program that ends is taken out by the handler. -/
theorem Waiting.khalt {status : UInt8} (h : Waiting k p w) (hcons : Consistent k chains ps c)
    (hhalt : k.khalt status = some k') :
    (¬2 < c ∧ Waiting k' p w) ∨
      (2 < c ∧ (k'.currProcess = some p ∨ ∃ w' < w, Waiting k' p w')) := by
  have hwait := h
  obtain ⟨hrun, qs, c', d, hq, hcurr, hd, hw⟩ := h
  obtain rfl : c' = c := Schedule.Node.task.inj (hcurr.symm.trans hcons.currNode)
  rcases khalt_cases hhalt hcons.currProcess (hcons.pid c' hcons.live) hcons.desc
      (hcons.files c' hcons.live) with ⟨hc, rfl⟩ | ⟨hc, r, k₁, hparent, hs, hpit⟩
  · exact .inl ⟨hc, hwait⟩
  · obtain ⟨t, ht⟩ := hcons.leaf
    obtain ⟨l, hl⟩ := hcons.forest.parent_eq ht hparent
    have hrlive : k.Live r := hcons.forest.live_of_mem (show r ∈ chains t by rw [hl]; simp)
    have hpid : (k.pcbs r).pid = r := hcons.pid r hrlive
    have hq₁ : Schedule.IsQueue k₁.queue qs := by
      rw [hs.queue, Schedule.unschedule, if_pos (three_le_of_two_lt hc).1]
      exact (hq.setRunning _ _).setRunning _ _
    have hrun₁ : (k₁.queue.node (.task p)).running = .running := by
      rw [hs.running hpid hc, if_neg (hd.ne hq.nodup)]
      split
      · rfl
      · exact hrun
    have hfin : (k₁.queue.node (.task c')).running = .finished := by
      rw [hs.running hpid hc, if_neg (hcons.forest.ne_of_split hl).symm, if_pos rfl]
    refine .inr ⟨hc, pitHandler_waiting hq₁ ?_ hrun₁ hd ?_ hpit⟩
    · rw [hs.queue, Schedule.unschedule, if_pos (three_le_of_two_lt hc).1]
      exact hcurr
    · rw [Schedule.staying_of_finished hfin, List.length_erase_of_mem hd.mem.1]
      omega

/-- An event that does not yield leaves the queue alone; one that does chooses the waiting process or
makes its weight smaller. -/
theorem Waiting.step {e : Event} (h : Waiting k p w) (hcons : Consistent k chains ps c)
    (he : e.exec k = some k') :
    (e.chosen k = none ∧ Waiting k' p w) ∨
      ∃ n, e.chosen k = some n ∧ (n = p ∨ ∃ w' < w, Waiting k' p w') := by
  obtain ⟨chains', ps', n, hstep, hcons'⟩ := hcons.step he
  have hquiet : (∀ command st, e ≠ .kexecute command st) → (∀ status, e ≠ .khalt status) →
      e ≠ .tick → Waiting k' p w := fun h₁ h₂ h₃ => h.congr (hstep.queue_eq h₁ h₂ h₃)
  -- what is left to show for an event that yields
  have hyield : e.yields k = true →
      (k'.currProcess = some p ∨ ∃ w' < w, Waiting k' p w') →
      ∃ n, e.chosen k = some n ∧ (n = p ∨ ∃ w' < w, Waiting k' p w') := by
    intro hy hnext
    refine ⟨n, by simp [Event.chosen, hy, he, hcons'.currProcess], hnext.imp_left fun hn => ?_⟩
    exact Option.some.inj (hcons'.currProcess.symm.trans hn)
  cases e with
  | tick =>
    obtain ⟨hrun, qs, c', d, hq, hcurr, hd, hw⟩ := h
    obtain rfl : c' = c := Schedule.Node.task.inj (hcurr.symm.trans hcons.currNode)
    obtain ⟨t, ht⟩ := hcons.leaf
    have hfin : ¬(k.queue.node (.task c')).running = .finished := by
      rw [hcons.state t c' (List.mem_of_getLast? ht)]
      exact chainState_ne_finished _ _
    refine .inr (hyield rfl (pitHandler_waiting hq hcurr hrun hd ?_ he))
    rw [Schedule.staying_of_not_finished hfin]
    omega
  | kexecute command st =>
    obtain ⟨⟨k₀, r⟩, hexec, rfl⟩ := Option.map_eq_some_iff.mp he
    rcases h.kexecute hcons hexec with ⟨hr, hwait⟩ | ⟨rfl, hnext⟩
    · left
      have hno : (Event.kexecute command st).yields k = false := by
        simpa [Event.yields, hexec, Option.isSome_iff_ne_none] using hr
      exact ⟨by simp [Event.chosen, hno], hwait⟩
    · exact .inr (hyield (by simp [Event.yields, hexec]) hnext)
  | khalt status =>
    have hpid : (k.pcbs c).pid = c := hcons.pid c hcons.live
    rcases h.khalt hcons he with ⟨hc, hwait⟩ | ⟨hc, hnext⟩
    · left
      exact ⟨by simp [Event.chosen, Event.yields, hcons.currProcess, hpid, hc], hwait⟩
    · exact .inr (hyield (by simpa [Event.yields, hcons.currProcess, hpid] using hc) hnext)
  | kvidmap a => exact .inl ⟨rfl, hquiet nofun nofun nofun⟩
  | fileCall call => exact .inl ⟨rfl, hquiet nofun nofun nofun⟩
  | switchTerminals term => exact .inl ⟨rfl, hquiet nofun nofun nofun⟩
  | putChar b => exact .inl ⟨rfl, hquiet nofun nofun nofun⟩
  | clearTerminal => exact .inl ⟨rfl, hquiet nofun nofun nofun⟩

/-! ## Runs -/

theorem choices_cons {e : Event} {es : List Event} (he : e.exec k = some k') :
    choices k (e :: es) = (e.chosen k).toList ++ choices k' es := by
  have hstep : system.step k e = some k' := he
  unfold choices
  rw [Run.System.labels, hstep, Option.map_some, Option.getD_some]
  cases e.chosen k <;> rfl

/-- A process of weight `w` is chosen before the handler has chosen `w + 1` times. -/
theorem Waiting.run {es : List Event} (h : Waiting k p w) (hcons : Consistent k chains ps c)
    (hrun : system.run k es = some k') (hlen : w < (choices k es).length) :
    p ∈ (choices k es).take (w + 1) := by
  induction es generalizing k chains ps c w with
  | nil => exact absurd hlen (Nat.not_lt_zero w)
  | cons e es ih =>
    obtain ⟨k₁, he, hrest⟩ := Option.bind_eq_some_iff.mp hrun
    obtain ⟨chains', ps', c', -, hcons'⟩ := hcons.step he
    rw [choices_cons he] at hlen ⊢
    rcases h.step hcons he with ⟨hnone, hwait⟩ | ⟨n, hn, hnext⟩
    · rw [hnone] at hlen ⊢
      exact ih hwait hcons' hrest hlen
    · rw [hn] at hlen ⊢
      rcases hnext with rfl | ⟨w', hlt, hwait⟩
      · exact List.mem_cons_self
      · have hlen' : (choices k₁ es).length + 1 = ((some n).toList ++ choices k₁ es).length :=
          rfl
        have hmem := ih hwait hcons' hrest (by omega)
        exact List.mem_cons_of_mem _ (List.take_subset_take_left _ (by omega) hmem)

end Kernel
end GalapagOS
