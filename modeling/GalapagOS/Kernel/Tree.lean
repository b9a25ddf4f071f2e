import GalapagOS.Kernel.Boot
import GalapagOS.Lib.Forest

/-!
# The process tree and the run queue

`Consistent` ties the four structures together that `kexecute`, `khalt` and the timer handler
update: the marks in `pid_arr`, the parent and child pointers, the links of the run queue and the
task states. `Step` says what an event does in a consistent state; it leads to a consistent
state again. The invariants of the page tables and the terminals start from `Step`.
-/

namespace GalapagOS
namespace Kernel

open FileSystem Paging

variable {k k' k₁ k₂ : Kernel} {chains : Fin 3 → List Pid} {ps : List Pid} {c n : Pid}

/-! ## The invariant -/

/-- The process is marked `ON` in `pid_arr`. -/
def Live (k : Kernel) (p : Pid) : Prop := k.pidArr p = true

theorem not_live_of_free (h : freePidIdx k.pidArr = some n) : ¬k.Live n := by
  rw [Live, (freePidIdx_eq_some h).1]
  exact Bool.false_ne_true

/-- The task state that a process on a chain has: the last one runs, the others wait for
their child. -/
def chainState (l : List Pid) (p : Pid) : Schedule.TaskState :=
  if l.getLast? = some p then .running else .inactive

/-- The live processes form a chain for each root, and their task states follow it. -/
structure Chained (k : Kernel) (chains : Fin 3 → List Pid) : Prop where
  forest : Forest.IsForest (fun p => (k.pcbs p).child) (fun p => (k.pcbs p).parent) k.Live
    rootPid chains
  roots : ∀ t, k.roots t = some (rootPid t)
  pid : ∀ p, k.Live p → (k.pcbs p).pid = p
  state : ∀ t, ∀ p ∈ chains t, (k.queue.node (.task p)).running = chainState (chains t) p
  files : ∀ p, k.Live p → TableOk (k.table p)

/-- The queue `ps` holds the live processes, and `c` is the current one. -/
structure Consistent (k : Kernel) (chains : Fin 3 → List Pid) (ps : List Pid) (c : Pid) : Prop
    extends Chained k chains where
  queue : Schedule.IsQueue k.queue ps
  linked : ∀ p, p ∈ ps ↔ k.Live p
  currNode : k.queue.currNode = .task c
  currProcess : k.currProcess = some c
  desc : k.desc = some c
  leaf : ∃ t, (chains t).getLast? = some c

theorem chainState_ne_finished (l : List Pid) (p : Pid) : chainState l p ≠ .finished := by
  unfold chainState
  split <;> simp

theorem chainState_eq_running {l : List Pid} {p : Pid} :
    chainState l p = .running ↔ l.getLast? = some p := by
  unfold chainState
  split <;> simp_all

/-- The invariant looks at these fields only. -/
theorem Chained.congr (h : Chained k chains) (hlive : ∀ p, k'.Live p ↔ k.Live p)
    (hpcbs : ∀ p, k.Live p → (k'.pcbs p).pid = (k.pcbs p).pid ∧
      (k'.pcbs p).parent = (k.pcbs p).parent ∧ (k'.pcbs p).child = (k.pcbs p).child)
    (hroots : k'.roots = k.roots) (hnode : ∀ m, (k'.queue.node m).running = (k.queue.node m).running)
    (hfiles : ∀ p, k.Live p → TableOk (k'.table p)) : Chained k' chains where
  forest := h.forest.congr (fun p hp => (hpcbs p hp).2.2) (fun p hp => (hpcbs p hp).2.1) hlive
  roots t := by rw [hroots, h.roots t]
  pid p hp := by rw [(hpcbs p ((hlive p).mp hp)).1, h.pid p ((hlive p).mp hp)]
  state t p hp := by rw [hnode, h.state t p hp]
  files p hp := hfiles p ((hlive p).mp hp)

theorem Consistent.live (h : Consistent k chains ps c) : k.Live c := by
  obtain ⟨t, ht⟩ := h.leaf
  exact h.forest.live_of_mem (List.mem_of_getLast? ht)

theorem Chained.live_root (h : Chained k chains) {p : Pid} (hp : p ≤ 2) : k.Live p := by
  have hroot : ∀ p : Pid, p ≤ 2 → ∃ t, rootPid t = p := by decide
  obtain ⟨t, rfl⟩ := hroot p hp
  exact h.forest.live_of_mem (h.forest.root_mem t)

/-! ## The timer -/

/-- The timer handler from a state that is consistent but for the current process: the queue
holds the live processes and perhaps a finished current one. -/
theorem Chained.pitHandler (h : Chained k chains) (hq : Schedule.IsQueue k.queue ps)
    (hcurr : k.queue.currNode = .task c) (hc : c ∈ ps)
    (hlinked : ∀ p, p ∈ Schedule.staying k.queue ps c ↔ k.Live p) :
    ∃ k' n, k.pitHandler = some k' ∧ Switched k n k' ∧
      Consistent k' chains (Schedule.staying k.queue ps c) n := by
  have hsub : ∀ p, k.Live p → p ∈ ps := fun p hp =>
    Schedule.mem_of_mem_staying ((hlinked p).mpr hp)
  obtain ⟨r, hr⟩ := h.forest.exists_leaf 0
  have hrmem := List.mem_of_getLast? hr
  have hrun : ∃ p ∈ ps, (k.queue.node (.task p)).running = .running :=
    ⟨r, hsub r (h.forest.live_of_mem hrmem), by
      rw [h.state 0 r hrmem, chainState_eq_running.mpr hr]⟩
  obtain ⟨k', n, hpit, hsw, hn, hnr, hq', hrunning⟩ := pitHandler_spec hq hcurr hc hrun
  have hnlive : k.Live n := (hlinked n).mp (Schedule.mem_staying_of_running hn hnr)
  have hlive : ∀ p, k'.Live p ↔ k.Live p := fun p => by rw [Live, hsw.pidArr]; rfl
  obtain ⟨t, ht⟩ := (h.forest.live_iff n).mp hnlive
  refine ⟨k', n, hpit, hsw, ⟨h.congr hlive (fun p _ => ?_) hsw.roots hrunning fun p hp => ?_, hq',
    fun p => (hlinked p).trans (hlive p).symm, hsw.currNode, hsw.currProcess, ?_, t, ?_⟩⟩
  · rw [hsw.pcbs]
    exact ⟨rfl, rfl, rfl⟩
  · rw [table, hsw.pcbs]
    exact h.files p hp
  · rw [hsw.eq]
  · rw [h.state t n ht, chainState_eq_running] at hnr
    exact hnr

/-! ## Starting and ending a process -/

/-- Changes outside the process tree and the queue. -/
theorem Consistent.frame (h : Consistent k chains ps c) (hpidArr : k'.pidArr = k.pidArr)
    (hpcbs : k'.pcbs = k.pcbs) (hroots : k'.roots = k.roots) (hqueue : k'.queue = k.queue)
    (hcurr : k'.currProcess = k.currProcess) (hdesc : k'.desc = k.desc) :
    Consistent k' chains ps c := by
  have hlive : ∀ p, k'.Live p ↔ k.Live p := fun p => by rw [Live, hpidArr]; rfl
  refine ⟨h.congr hlive (fun p _ => by rw [hpcbs]; exact ⟨rfl, rfl, rfl⟩) hroots
      (fun m => by rw [hqueue]) (fun p hp => by rw [table, hpcbs]; exact h.files p hp),
    hqueue ▸ h.queue, fun p => (h.linked p).trans (hlive p).symm, hqueue ▸ h.currNode,
    hcurr.trans h.currProcess, hdesc.trans h.desc, h.leaf⟩

section Start

variable {cmd args : List UInt8} {t : Fin 3}

theorem Started.live_iff (hs : Started k c n cmd args k') (p : Pid) :
    k'.Live p ↔ k.Live p ∨ p = n := by
  rw [Live, hs.pidArr, Function.update_apply]
  split
  · rename_i he
    simp [he]
  · rename_i hne
    simp [hne, Live]

theorem Started.running (hs : Started k c n cmd args k') (hpid : (k.pcbs c).pid = c) (p : Pid) :
    (k'.queue.node (.task p)).running = if p = c then .inactive else if p = n then .running
      else (k.queue.node (.task p)).running := by
  rw [hs.queue, Schedule.running_schedule, hpid]
  simp [eq_comm]

theorem Started.chained (hs : Started k c n cmd args k') (h : Consistent k chains ps c)
    (hn : ¬k.Live n) (ht : (chains t).getLast? = some c) :
    Chained k' (Function.update chains t (chains t ++ [n])) := by
  have hnc : n ≠ c := fun he => hn (he ▸ h.live)
  have hne : ∀ p, k.Live p → p ≠ n := fun p hp he => hn (he ▸ hp)
  constructor
  case forest =>
    refine h.forest.grow ht hn ?_ ?_ ?_ (fun p hp hpc => ?_) (fun p hp => ?_) hs.live_iff
    · simp [hs.child, hnc.symm]
    · simp [hs.parent]
    · simp [hs.child]
    · simp [hs.child, hne p hp, hpc]
    · simp [hs.parent, hne p hp]
  case roots =>
    intro t
    rw [hs.roots, h.roots t]
  case pid =>
    intro p hp
    rw [hs.pid]
    split
    · rename_i he
      rw [he]
    · rename_i hpn
      exact h.pid p (((hs.live_iff p).mp hp).resolve_right hpn)
  case files =>
    intro p hp
    by_cases hpn : p = n
    · rw [hpn]
      exact hs.files
    · rw [hs.files_ne p hpn]
      exact h.files p (((hs.live_iff p).mp hp).resolve_right hpn)
  case state =>
    intro t' p hp
    rw [hs.running (h.pid c h.live)]
    rw [Function.update_apply] at hp ⊢
    split at hp
    · rename_i he
      rw [if_pos he]
      rcases List.mem_append.mp hp with hp | hp
      · have hpn := hne p (h.forest.live_of_mem hp)
        have hold := h.state t p hp
        rw [chainState, ht] at hold
        by_cases hpc : p = c
        · simp [chainState, hpc, hnc]
        · rw [if_neg hpc, if_neg hpn, hold]
          simp [chainState, hpn.symm, Ne.symm hpc]
      · obtain rfl : p = n := by simpa using hp
        simp [chainState, hnc]
    · rename_i hne'
      have hpc : p ≠ c := by
        rintro rfl
        exact hne' (h.forest.disjoint t' t p hp (List.mem_of_getLast? ht))
      rw [if_neg hne', if_neg hpc, if_neg (hne p (h.forest.live_of_mem hp)), h.state t' p hp]

/-- The new process is linked and the timer handler runs. -/
theorem Started.pitHandler (hs : Started k c n cmd args k₁) (h : Consistent k chains ps c)
    (hn : ¬k.Live n) (ht : (chains t).getLast? = some c) :
    ∃ k' m, k₁.pitHandler = some k' ∧ Switched k₁ m k' ∧
      Consistent k' (Function.update chains t (chains t ++ [n])) (ps ++ [n]) m := by
  have hq : Schedule.IsQueue k₁.queue (ps ++ [n]) := by
    rw [hs.queue]
    exact h.queue.schedule (fun hmem => hn ((h.linked n).mp hmem)) _
  have hfin : ¬(k₁.queue.node (.task c)).running = .finished := by
    rw [hs.running (h.pid c h.live), if_pos rfl]
    simp
  obtain ⟨k', m, hpit, hsw, hcons⟩ := (hs.chained h hn ht).pitHandler hq
    (by rw [hs.queue, Schedule.currNode_schedule, h.currNode])
    (List.mem_append_left _ ((h.linked c).mpr h.live)) (by
      intro p
      rw [Schedule.staying_of_not_finished hfin, hs.live_iff, List.mem_append, h.linked]
      simp)
  rw [Schedule.staying_of_not_finished hfin] at hcons
  exact ⟨k', m, hpit, hsw, hcons⟩

theorem Started.consistent (hs : Started k c n cmd args k₁) (h : Consistent k chains ps c)
    (hn : ¬k.Live n) (ht : (chains t).getLast? = some c) (hpit : k₁.pitHandler = some k') :
    ∃ m, Switched k₁ m k' ∧
      Consistent k' (Function.update chains t (chains t ++ [n])) (ps ++ [n]) m := by
  obtain ⟨k'', m, hpit', hsw, hcons⟩ := hs.pitHandler h hn ht
  cases hpit'.symm.trans hpit
  exact ⟨m, hsw, hcons⟩

end Start

section Halt

variable {status : UInt8} {t : Fin 3} {q : Pid} {l : List Pid}

theorem Halted.live_iff (hs : Halted k c q status k') (p : Pid) :
    k'.Live p ↔ k.Live p ∧ p ≠ c := by
  rw [Live, hs.pidArr, Function.update_apply]
  split
  · rename_i he
    simp [he]
  · rename_i hne
    simp [hne, Live]

theorem Halted.running (hs : Halted k c q status k') (hpid : (k.pcbs q).pid = q) (hc : 2 < c)
    (p : Pid) : (k'.queue.node (.task p)).running = if p = q then .running
      else if p = c then .finished else (k.queue.node (.task p)).running := by
  rw [hs.queue, Schedule.unschedule, hpid, if_pos (three_le_of_two_lt hc).1]
  simp [Schedule.running_setRunning]

theorem Halted.chained (hs : Halted k c q status k') (h : Consistent k chains ps c) (hc : 2 < c)
    (ht : chains t = l ++ [q, c]) : Chained k' (Function.update chains t (l ++ [q])) := by
  have hqmem : q ∈ chains t := by rw [ht]; simp
  have hqlive := h.forest.live_of_mem hqmem
  have hsplit : chains t = (l ++ [q]) ++ [c] := by rw [ht]; simp
  constructor
  case forest =>
    refine h.forest.shrink ht ?_ (fun p _ hp => ?_) (fun p _ hp => ?_) hs.live_iff
    · simp [hs.child]
    · simp [hs.child, hp]
    · simp [hs.parent, hp]
  case roots =>
    intro t
    rw [hs.roots, h.roots t]
  case pid =>
    intro p hp
    rw [hs.pid, h.pid p ((hs.live_iff p).mp hp).1]
  case files =>
    intro p hp
    obtain ⟨hp, hpc⟩ := (hs.live_iff p).mp hp
    rw [hs.files_ne p hpc]
    exact h.files p hp
  case state =>
    intro t' p hp
    rw [hs.running (h.pid q hqlive) hc]
    rw [Function.update_apply] at hp ⊢
    split at hp
    · rename_i he
      rw [if_pos he]
      by_cases hpq : p = q
      · simp [chainState, hpq]
      · have hpl : p ∈ l := (List.mem_append.mp hp).resolve_right fun hmem => hpq (by simpa using hmem)
        have hpc : p ≠ c := fun he => h.forest.notMem_init hsplit (he ▸ hp)
        have hold := h.state t p (by rw [ht]; exact List.mem_append_left _ hpl)
        rw [if_neg hpq, if_neg hpc, hold, ht]
        simp [chainState, Ne.symm hpq, Ne.symm hpc]
    · rename_i hne
      have hother : ∀ r ∈ chains t, p ≠ r := by
        rintro r hr rfl
        exact hne (h.forest.disjoint t' t p hp hr)
      rw [if_neg hne, if_neg (hother q hqmem), if_neg (hother c (by rw [ht]; simp)),
        h.state t' p hp]

/-- The finished process is unlinked by the timer handler. -/
theorem Halted.consistent (hs : Halted k c q status k₁) (h : Consistent k chains ps c) (hc : 2 < c)
    (ht : chains t = l ++ [q, c]) (hpit : k₁.pitHandler = some k') :
    ∃ m, Switched k₁ m k' ∧
      Consistent k' (Function.update chains t (l ++ [q])) (ps.erase c) m := by
  have hqlive : k.Live q := h.forest.live_of_mem (show q ∈ chains t by rw [ht]; simp)
  have hq : Schedule.IsQueue k₁.queue ps := by
    rw [hs.queue, Schedule.unschedule, if_pos (three_le_of_two_lt hc).1]
    exact (h.queue.setRunning _ _).setRunning _ _
  have hcurr : k₁.queue.currNode = .task c := by
    rw [hs.queue, Schedule.unschedule, if_pos (three_le_of_two_lt hc).1]
    exact h.currNode
  have hfin : (k₁.queue.node (.task c)).running = .finished := by
    rw [hs.running (h.pid q hqlive) hc, if_neg (h.forest.ne_of_split ht).symm,
      if_pos rfl]
  obtain ⟨k'', m, hpit', hsw, hcons⟩ := (hs.chained h hc ht).pitHandler hq hcurr
    ((h.linked c).mpr h.live) (by
      intro p
      rw [Schedule.staying_of_finished hfin, hs.live_iff, h.queue.nodup.mem_erase_iff, h.linked]
      tauto)
  rw [Schedule.staying_of_finished hfin] at hcons
  cases hpit'.symm.trans hpit
  exact ⟨m, hsw, hcons⟩

end Halt

/-! ## The walks of the terminal switch -/

/-- Along a chain whose last block has no child the walk visits every process once. -/
theorem walkChain_eq {pcbs : Pid → Pcb} {f : Tables → Pid → Tables} :
    ∀ {l : List Pid} {fuel : ℕ} {tb : Tables}, l.IsChain (fun a b => (pcbs a).child = some b) →
      (∀ a, l.getLast? = some a → (pcbs a).child = none) → (∀ a ∈ l, (pcbs a).pid = a) →
      l.length ≤ fuel → walkChain pcbs f fuel l.head? tb = some (l.foldl f tb)
  | [], fuel, tb, _, _, _, _ => by cases fuel <;> rfl
  | a :: l, 0, tb, _, _, _, hfuel => by simp at hfuel
  | a :: l, fuel + 1, tb, hchain, hlast, hpid, hfuel => by
    have hchild : (pcbs a).child = l.head? := by
      cases l with
      | nil => exact hlast a rfl
      | cons b l => exact (List.isChain_cons_cons.mp hchain).1
    have hrec : walkChain pcbs f fuel l.head? (f tb a) = some (l.foldl f (f tb a)) := by
      refine walkChain_eq hchain.tail (fun b hb => hlast b ?_)
        (fun b hb => hpid b (List.mem_cons_of_mem _ hb)) (by simpa using hfuel)
      rw [List.getLast?_cons, hb]
      rfl
    rw [List.head?_cons, walkChain, hchild, hpid a List.mem_cons_self, hrec, List.foldl_cons]

theorem Chained.walkChain (h : Chained k chains) (f : Tables → Pid → Tables) (t : Fin 3)
    (tb : Tables) :
    walkChain k.pcbs f chainFuel (k.roots t) tb = some ((chains t).foldl f tb) := by
  rw [h.roots t, ← h.forest.head t]
  refine walkChain_eq ((h.forest.linked t).imp fun a b hab => hab.1)
    (fun a ha => h.forest.child_leaf t a ha)
    (fun a ha => h.pid a (h.forest.live_of_mem ha)) ?_
  simpa [chainFuel] using (h.forest.nodup t).length_le_card

/-- The page tables after the chain `out` has been pointed to the backing page of terminal `old`
and the chain `into` to the screen. -/
def swapTables (tb : Tables) (old : Fin 3) (out into : List Pid) : Tables :=
  into.foldl (fun tb (p : Pid) => switchVidMemIn tb p)
    (out.foldl (fun tb (p : Pid) => switchVidMemOut tb p old) tb)

theorem Chained.swapVidMem (h : Chained k chains) (hc : k.currProcess = some c) (hlive : k.Live c)
    (old new : Fin 3) : k.swapVidMem old new = some { k with
      tables := swapTables k.tables old (chains old) (chains new), cr3 := some c } := by
  simp only [Kernel.swapVidMem, hc, Option.bind_eq_bind, Option.bind_some, h.walkChain,
    h.pid c hlive, Option.pure_def, swapTables]

/-! ## Events -/

/-- What each event does in a consistent state with chains `chains` and current process `c`, and
the chains it leads to. -/
inductive Step (k : Kernel) (chains : Fin 3 → List Pid) (c : Pid) :
    Event → Kernel → (Fin 3 → List Pid) → Prop
  | kexecuteError {command : Option (List UInt8)} {st : Stale} :
      Step k chains c (.kexecute command st) k chains
  | kexecuteFailed {command : Option (List UInt8)} {st : Stale} {n : Pid} {bytes : List UInt8}
      {k' : Kernel} : freePidIdx k.pidArr = some n → 2 < n →
      (entered k c n).access programStart [.write 0 bytes] = some k' →
      Step k chains c (.kexecute command st) k' chains
  | kexecuted {line : List UInt8} {st : Stale} {t : Fin 3} {n m : Pid} {bytes : List UInt8}
      {k₁ k₂ k' : Kernel} : (chains t).getLast? = some c →
      freePidIdx k.pidArr = some n → 2 < n →
      (entered k c n).access programStart [.write 0 bytes] = some k₁ →
      (findExecutable k.img (line.take (commandEnd line))).isSome →
      Started k₁ c n (line.take (commandEnd line)) (argsString line st) k₂ →
      Switched k₂ m k' →
      Step k chains c (.kexecute (some line) st) k'
        (Function.update chains t (chains t ++ [n]))
  | restarted {status : UInt8} : Step k chains c (.khalt status) k chains
  | khalted {status : UInt8} {t : Fin 3} {l : List Pid} {q m : Pid} {k₁ k' : Kernel} :
      chains t = l ++ [q, c] → Halted k c q status k₁ → Switched k₁ m k' →
      Step k chains c (.khalt status) k' (Function.update chains t (l ++ [q]))
  | kvidmapError {a : ℕ} : Step k chains c (.kvidmap a) k chains
  | kvidmapped {a : ℕ} {k' : Kernel} : (a >>> 22) &&& 0x3ff = usrDirEntry →
      ({ k with tables := mapVidMemory k.tables c, cr3 := some c } : Kernel).access a
        [.write 0 (Pcb.intBytes virtVidMem)] = some k' →
      Step k chains c (.kvidmap a) k' chains
  | fileCall {call : Call} {k' : Kernel} : Called k c (call.terminalBytes k) k' →
      Step k chains c (.fileCall call) k' chains
  | tick {m : Pid} {k' : Kernel} : Switched k m k' → Step k chains c .tick k' chains
  | sameTerminal : Step k chains c (.switchTerminals k.getCurrTerminal) k chains
  | switchTerminals {term : Fin 3} {k₁ k₂ : Kernel} : term ≠ k.getCurrTerminal →
      k.access 0 (memcpy (backingPage k.getCurrTerminal) inactiveVidMem 4096) = some k₁ →
      k₁.access 0 (memcpy inactiveVidMem (backingPage term) 4096) = some k₂ →
      Step k chains c (.switchTerminals term)
        { k₂ with
          tables := swapTables k.tables k.getCurrTerminal (chains k.getCurrTerminal) (chains term)
          cr3 := some c
          terms := { k.terms with currTerminal := term } } chains
  | putChar {b : UInt8} {k' : Kernel} : k.putChar b = some k' → Step k chains c (.putChar b) k' chains
  | clearTerminal {k' : Kernel} : k.clearTerminal = some k' →
      Step k chains c .clearTerminal k' chains

theorem keyboardOutput_eq_some {f : ℤ → Terminal.Action} (h : k.keyboardOutput f = some k') :
    ∃ m, k' = { k with
      terms := (k.terms.run k.getCurrTerminal.val (f k.getCurrTerminal.val)).1, phys := m } := by
  obtain ⟨m, rfl⟩ := access_eq_some h
  exact ⟨m, rfl⟩

theorem Called.consistent {out : Option (List UInt8)} (hs : Called k c out k') (h : Consistent k chains ps c)
    (hok : TableOk (k'.table c)) : Consistent k' chains ps c := by
  cases hs with
  | wrote hwrite =>
    obtain ⟨m, rfl⟩ := terminalWrite_eq_some hwrite
    exact h.frame rfl rfl rfl rfl rfl rfl
  | quiet hvars hterm heq =>
    have hcall : Called k c none k' := .quiet hvars hterm heq
    have hlive : ∀ p, k'.Live p ↔ k.Live p := fun p => by rw [Live, hcall.pidArr]; rfl
    have hqueue : k'.queue = k.queue := by rw [heq]; rfl
    refine ⟨h.congr hlive (fun p _ => ⟨hcall.field Pcb.pid (fun _ _ => rfl) p,
        hcall.field Pcb.parent (fun _ _ => rfl) p, hcall.field Pcb.child (fun _ _ => rfl) p⟩)
        (by rw [heq]; rfl) (fun m => by rw [hqueue]) (fun p hp => ?_),
      hqueue ▸ h.queue, fun p => (h.linked p).trans (hlive p).symm, hqueue ▸ h.currNode,
      by rw [heq]; exact h.currProcess, by rw [heq]; exact h.desc, h.leaf⟩
    by_cases hpc : p = c
    · rw [hpc]
      exact hok
    · rw [table, heq]
      dsimp only
      rw [pcbs_modifyPcb, if_neg hpc]
      exact h.files p hp

/-- Every event takes a consistent state to a consistent state, in the way `Step` says. -/
theorem Consistent.step {e : Event} (h : Consistent k chains ps c) (he : e.exec k = some k') :
    ∃ chains' ps' c', Step k chains c e k' chains' ∧ Consistent k' chains' ps' c' := by
  obtain ⟨t, ht⟩ := h.leaf
  cases e with
  | kexecute command st =>
    obtain ⟨⟨k₀, r⟩, hexec, rfl⟩ := Option.map_eq_some_iff.mp he
    cases kexecute_cases hexec h.currProcess h.live fun p hp => h.live_root hp with
    | unchanged => exact ⟨chains, ps, c, .kexecuteError, h⟩
    | failed hfree hn hacc =>
      refine ⟨chains, ps, c, .kexecuteFailed hfree hn hacc, ?_⟩
      obtain ⟨m, rfl⟩ := access_eq_some hacc
      exact h.frame rfl rfl rfl rfl rfl rfl
    | started hfree hn hacc hline hfind hs hpit =>
      rename_i n bytes line k₁ k₂
      subst hline
      obtain ⟨m', hm'⟩ := access_eq_some hacc
      have hk₁ : Consistent k₁ chains ps c := by
        rw [hm']
        exact h.frame rfl rfl rfl rfl rfl rfl
      have hdead : ¬k₁.Live n := by
        rw [hm']
        exact not_live_of_free hfree
      obtain ⟨m, hsw, hcons⟩ := hs.consistent hk₁ hdead ht hpit
      exact ⟨_, _, m, .kexecuted ht hfree hn hacc hfind hs hsw, hcons⟩
  | khalt status =>
    rcases khalt_cases he h.currProcess (h.pid c h.live) h.desc (h.files c h.live) with
      ⟨-, rfl⟩ | ⟨hlt, q, k₁, hparent, hs, hpit⟩
    · exact ⟨chains, ps, c, .restarted, h⟩
    · obtain ⟨l, hl⟩ := h.forest.parent_eq ht hparent
      obtain ⟨m, hsw, hcons⟩ := hs.consistent h hlt hl hpit
      exact ⟨_, _, m, .khalted hl hs hsw, hcons⟩
  | kvidmap a =>
    obtain ⟨⟨k₀, r⟩, hmap, rfl⟩ := Option.map_eq_some_iff.mp he
    rcases kvidmap_cases hmap h.currProcess (h.pid c h.live) with rfl | ⟨ha, hacc⟩
    · exact ⟨chains, ps, c, .kvidmapError, h⟩
    · refine ⟨chains, ps, c, .kvidmapped ha hacc, ?_⟩
      obtain ⟨m, rfl⟩ := access_eq_some hacc
      exact h.frame rfl rfl rfl rfl rfl rfl
  | fileCall call =>
    have hok := h.files c h.live
    have hs := Call.exec_called he h.desc hok
    exact ⟨chains, ps, c, .fileCall hs, hs.consistent h (Call.exec_tableOk he h.desc hok).1⟩
  | tick =>
    have hfin : ¬(k.queue.node (.task c)).running = .finished := by
      rw [h.state t c (List.mem_of_getLast? ht)]
      exact chainState_ne_finished _ _
    obtain ⟨k₁, m, hpit, hsw, hcons⟩ := h.toChained.pitHandler h.queue h.currNode
      ((h.linked c).mpr h.live) (by rw [Schedule.staying_of_not_finished hfin]; exact h.linked)
    rw [Schedule.staying_of_not_finished hfin] at hcons
    cases hpit.symm.trans he
    exact ⟨chains, ps, m, .tick hsw, hcons⟩
  | switchTerminals term =>
    simp only [Event.exec, Kernel.switchTerminals] at he
    split at he
    · rename_i hterm
      cases he
      rw [hterm]
      exact ⟨chains, ps, c, .sameTerminal, h⟩
    · rename_i hterm
      obtain ⟨k₁, h₁, he⟩ := Option.bind_eq_some_iff.mp he
      obtain ⟨k₂, h₂, he⟩ := Option.bind_eq_some_iff.mp he
      obtain ⟨m₁, hm₁⟩ := access_eq_some h₁
      obtain ⟨m₂, hm₂⟩ := access_eq_some h₂
      have hk₂ : Consistent k₂ chains ps c := by
        rw [hm₂, hm₁]
        exact h.frame rfl rfl rfl rfl rfl rfl
      rw [hk₂.swapVidMem hk₂.currProcess hk₂.live] at he
      have htables : k₂.tables = k.tables ∧ k₂.terms = k.terms := by
        rw [hm₂, hm₁]
        exact ⟨rfl, rfl⟩
      cases he
      simp only [htables]
      exact ⟨chains, ps, c, .switchTerminals hterm h₁ h₂, hk₂.frame rfl rfl rfl rfl rfl rfl⟩
  | putChar b =>
    refine ⟨chains, ps, c, .putChar he, ?_⟩
    have hkey : k.keyboardOutput (fun t => Terminal.putChar t b) = some k' := he
    obtain ⟨m, rfl⟩ := keyboardOutput_eq_some hkey
    exact h.frame rfl rfl rfl rfl rfl rfl
  | clearTerminal =>
    refine ⟨chains, ps, c, .clearTerminal he, ?_⟩
    have hkey : k.keyboardOutput Terminal.clearTerminal = some k' := he
    obtain ⟨m, rfl⟩ := keyboardOutput_eq_some hkey
    exact h.frame rfl rfl rfl rfl rfl rfl

/-! ## Runs -/

/-- After boot every shell is a chain of its own. -/
theorem Booted.consistent (h : Booted k) : Consistent k (fun t => [rootPid t]) [0, 1, 2] 0 := by
  have hroot : ∀ t, rootPid t ≤ 2 := by decide
  have hroots : ∀ p : Pid, p ≤ 2 ↔ ∃ t, p ∈ [rootPid t] := by decide
  refine ⟨⟨⟨fun t => rfl, fun t => .singleton _, fun t => h.parent _ (hroot t), fun t p hp => ?_,
      fun p => (h.pidArr p).trans (hroots p), fun t => List.nodup_singleton _, fun t t' p hp hp' => ?_⟩,
      h.roots, fun p hp => h.pid p ((h.pidArr p).mp hp), fun t p hp => ?_,
      fun p hp => h.files p ((h.pidArr p).mp hp)⟩,
    h.queue, fun p => mem_shells.trans (h.pidArr p).symm, h.currNode, h.currProcess, h.desc,
    0, rfl⟩
  · cases hp
    exact h.child _ (hroot t)
  · rw [List.mem_singleton] at hp hp'
    exact Fin.castLE_injective _ (hp.symm.trans hp')
  · obtain rfl := List.mem_singleton.mp hp
    rw [h.running _ (hroot t)]
    exact (chainState_eq_running.mpr rfl).symm

/-- The induction over runs for invariants that speak about the chains and the current process:
what holds after boot and is kept by every `Step` between consistent states holds in every
reachable state, which is consistent. -/
theorem Reach.along {ok : Kernel → Event → Prop} {I : Kernel → (Fin 3 → List Pid) → Pid → Prop}
    (h : Run.Reach system ok k) (hinit : ∀ k, Booted k → I k (fun t => [rootPid t]) 0)
    (hstep : ∀ {k chains ps c e k' chains' ps' c'}, Consistent k chains ps c → I k chains c →
      ok k e → Step k chains c e k' chains' → Consistent k' chains' ps' c' → I k' chains' c') :
    ∃ chains ps c, Consistent k chains ps c ∧ I k chains c := by
  refine h.invariant (I := fun k => ∃ chains ps c, Consistent k chains ps c ∧ I k chains c) ?_ ?_
  · rintro k ⟨lay, img, pcbs, regA, phys, st, hboot⟩
    have hb := boot_spec hboot
    exact ⟨_, _, _, hb.consistent, hinit k hb⟩
  · rintro k e k' ⟨chains, ps, c, hcons, hI⟩ hok he
    obtain ⟨chains', ps', c', hs, hcons'⟩ := hcons.step he
    exact ⟨chains', ps', c', hcons', hstep hcons hI hok hs hcons'⟩

/-- Every reachable state is consistent. -/
theorem Reach.consistent {ok : Kernel → Event → Prop} (h : Run.Reach system ok k) :
    ∃ chains ps c, Consistent k chains ps c := by
  obtain ⟨chains, ps, c, hcons, -⟩ := Reach.along (I := fun _ _ _ => True) h (fun _ _ => trivial)
    fun _ _ _ _ _ => trivial
  exact ⟨chains, ps, c, hcons⟩

/-- The process tree and the run queue agree, and the loops that follow them end. -/
structure ProcessTree (k : Kernel) : Prop where
  consistent : ∃ chains ps c, Consistent k chains ps c
  shells : ∀ p ≤ 2, k.Live p
  current : (k.queue.node k.queue.currNode).process = k.currProcess
  search : k.pitHandler.isSome
  walks : ∀ old new, (k.swapVidMem old new).isSome

theorem process_tree (h : Run.Reach system Run.Free k) : ProcessTree k := by
  obtain ⟨chains, ps, c, hcons⟩ := Reach.consistent h
  refine ⟨⟨chains, ps, c, hcons⟩, fun p hp => hcons.live_root hp, ?_, ?_, fun old new => ?_⟩
  · rw [hcons.currNode, hcons.currProcess, hcons.queue.process c ((hcons.linked c).mpr hcons.live)]
  · obtain ⟨t, ht⟩ := hcons.leaf
    have hfin : ¬(k.queue.node (.task c)).running = .finished := by
      rw [hcons.state t c (List.mem_of_getLast? ht)]
      exact chainState_ne_finished _ _
    obtain ⟨k', m, hpit, -⟩ := hcons.toChained.pitHandler hcons.queue hcons.currNode
      ((hcons.linked c).mpr hcons.live) (by rw [Schedule.staying_of_not_finished hfin]; exact hcons.linked)
    rw [hpit]
    rfl
  · rw [hcons.swapVidMem hcons.currProcess hcons.live]
    rfl

/-- A shell starts another shell, which ends after three ticks. -/
theorem process_tree_sample : ∃ k,
    sampleRun [.kexecute (some shellCommand) ⟨0, [], fun _ => 0⟩, .tick, .tick, .tick, .khalt 3]
      = some k ∧ ProcessTree k := by
  obtain ⟨k, hk⟩ := Option.isSome_iff_exists.mp (show (sampleRun
    [.kexecute (some shellCommand) ⟨0, [], fun _ => 0⟩, .tick, .tick, .tick, .khalt 3]).isSome by
    decide)
  exact ⟨k, hk, process_tree (sampleRun_reach (fun k₀ _ => system.allowed_free _ k₀) hk)⟩

end Kernel
end GalapagOS
