import GalapagOS.Terminal.Bounds

/-!
# Reading with interrupts enabled

`terminal_read` waits and copies with interrupts enabled, only the reset at its end is protected.
Between two of its statements the keyboard handler can type, and the timer can switch to a process
that writes or reads on another terminal. `Reader` is the function statement by statement. As long as
no line is entered and no screen cleared under a reader that is copying, every read does in the end
what `terminalRead` does in one step at the moment of its reset.
-/

namespace GalapagOS
namespace Terminal
namespace Reading

open Buffer Function

/-! ## `terminal_read`, statement by statement -/

/-- The statements between which an interrupt can come. -/
inductive Point where
  /-- `if (rd[terminal] == 1) break;` -/
  | wait
  /-- `i < lastlinelength[terminal] && i < count` -/
  | testLength
  /-- `lastlinebuffer[terminal][i] != '\0'` -/
  | testByte
  /-- `buf[i] = lastlinebuffer[terminal][i];` -/
  | load
  /-- `lastlinebuffer[terminal][i] = '\0'; ret++; i++` -/
  | zero
  /-- `i < lastlinelength[terminal]`, in the second loop -/
  | testRest
  /-- `lastlinebuffer[terminal][i] = '\0'; i++`, in the second loop -/
  | zeroRest
  /-- `cli(); rd[terminal] = 0; lastlinelength[terminal] = 0; sti(); return ret;` -/
  | reset
deriving DecidableEq

/-- The local variables of a call. The bytes that are stored from `buf[0]` on are a list, and `ret` is
its length. -/
structure Reader where
  count : ℤ
  point : Point := .wait
  i : ℤ := 0
  buf : List UInt8 := []

/-- One statement. No reader is left after the last one. -/
def Reader.next (tm : Terminals) (t : ℤ) (r : Reader) : Terminals × Option Reader :=
  match r.point with
  | .wait => (tm, some (if tm.rd t = 1 then { r with point := .testLength } else r))
  | .testLength =>
    (tm, some (if r.i < tm.lastlinelength t ∧ r.i < r.count then { r with point := .testByte }
      else { r with point := .testRest, i := r.count }))
  | .testByte =>
    (tm, some (if tm.lastlinebuffer (slot t r.i) ≠ 0 then { r with point := .load }
      else { r with point := .testRest, i := r.count }))
  | .load =>
    (tm, some { r with point := .zero, buf := r.buf ++ [tm.lastlinebuffer (slot t r.i)] })
  | .zero =>
    ({ tm with lastlinebuffer := update tm.lastlinebuffer (slot t r.i) 0 },
      some { r with point := .testLength, i := r.i + 1 })
  | .testRest =>
    (tm, some (if r.i < tm.lastlinelength t then { r with point := .zeroRest }
      else { r with point := .reset }))
  | .zeroRest =>
    ({ tm with lastlinebuffer := update tm.lastlinebuffer (slot t r.i) 0 },
      some { r with point := .testRest, i := r.i + 1 })
  | .reset =>
    ({ tm with rd := update tm.rd t 0, lastlinelength := update tm.lastlinelength t 0 }, none)

/-- The driver, and the call of `terminal_read` on each terminal. There is at most one: a process that
has started another one waits in `kexecute`. -/
structure State where
  terms : Terminals
  reader : Fin 3 → Option Reader

/-- The reader of a terminal is past its wait. -/
def State.busy (s : State) (t : Fin 3) : Bool := (s.reader t).any fun r => r.point ≠ .wait

inductive Move where
  /-- a call that runs with interrupts disabled -/
  | call (e : Event)
  /-- a process calls `terminal_read` -/
  | start (t : Fin 3) (count : ℤ)
  /-- the reader of a terminal executes one statement -/
  | reader (t : Fin 3)

/-- `terminal_read` is no such call, and `hist_copy_from` is one for each of its keys. -/
def Move.exec (s : State) : Move → Option State
  | .call (.terminalRead _ _) | .call (.histCopyFrom _) => none
  | .call e => (e.exec s.terms).map fun tm => { s with terms := tm }
  | .start t count =>
    if count < 0 then some s
    else if (s.reader t).isSome then none
    else some { s with reader := update s.reader t (some { count }) }
  | .reader t => (s.reader t).map fun r =>
    { terms := (r.next s.terms t).1, reader := update s.reader t (r.next s.terms t).2 }

def start : State := ⟨terminalOpen, fun _ => none⟩

def system : Run.System State Move where
  init s := s = start
  step s m := m.exec s

/-- Every tab fits on its line, and nothing happens to the last line of a terminal while its reader
copies it. -/
def Undisturbed (s : State) : Move → Prop
  | .call (.putChar c) =>
    TabFits c (s.terms.vars s.terms.currTerminal).linelength ∧
      (c = newLineChar → s.busy s.terms.currTerminal = false)
  | .call .clearTerminal => s.busy s.terms.currTerminal = false
  | _ => True

instance (s : State) : (m : Move) → Decidable (Undisturbed s m)
  | .call (.putChar c) =>
    have : Decidable (TabFits c (s.terms.vars s.terms.currTerminal).linelength) :=
      inferInstanceAs (Decidable (_ → _))
    inferInstanceAs (Decidable (_ ∧ _))
  | .call .clearTerminal => inferInstanceAs (Decidable (_ = _))
  | .call (.terminalWrite _ _) | .call (.terminalRead _ _) | .call (.histCopyFrom _)
  | .call (.switchTerminals _) | .start _ _ | .reader _ => inferInstanceAs (Decidable True)

/-! ## What an observer sees -/

inductive Label where
  | call (e : Event)
  /-- a read returns -/
  | read (t : Fin 3) (count : ℤ) (bytes : List UInt8)

/-- Calls, and the returns of reads. -/
def observe (s : State) : Move → Option Label
  | .call e => some (.call e)
  | .start _ _ => none
  | .reader t => (s.reader t).bind fun r =>
    if r.point = .reset then some (.read t r.count r.buf) else none

/-- The driver whose reads are one step each. It rejects a read with a different result. -/
def atomic (tm : Terminals) : Option Label → Option Terminals
  | none => some tm
  | some (.call e) => e.exec tm
  | some (.read t count bytes) => (terminalRead tm t count).bind fun r =>
    if r.2 = bytes then some r.1 else none

/-! ## A read in progress -/

variable {s s' : State} {tm tm' : Terminals} {t t' : Fin 3} {r : Reader} {f : Action} {e : Effect}

/-- The reader has copied some bytes of the line, none of which is NUL. -/
structure Copied (tm : Terminals) (t : ℤ) (r : Reader) : Prop where
  rd : tm.rd t = 1
  fits : tm.lastlinelength t ≤ 129
  holds : Holds (row t tm.lastlinebuffer) r.buf
  nonzero : 0 ∉ r.buf
  le_length : r.buf.length ≤ tm.lastlinelength t
  le_count : r.buf.length ≤ r.count

/-- The first loop has come to its end. -/
def Stopped (tm : Terminals) (t : ℤ) (r : Reader) : Prop :=
  r.buf.length = tm.lastlinelength t ∨ r.buf.length = r.count ∨
    row t tm.lastlinebuffer r.buf.length = 0

/-- How far a reader is, by the driver whose reads are one step. -/
def Progress (tm : Terminals) (t : ℤ) (r : Reader) : Prop :=
  match r.point with
  | .wait => r.i = 0 ∧ r.buf = [] ∧ 0 ≤ r.count
  | .testLength => Copied tm t r ∧ r.i = r.buf.length
  | .testByte => Copied tm t r ∧ r.i = r.buf.length ∧ r.i < tm.lastlinelength t ∧ r.i < r.count
  | .load => Copied tm t r ∧ r.i = r.buf.length ∧ r.i < tm.lastlinelength t ∧ r.i < r.count ∧
      row t tm.lastlinebuffer r.i ≠ 0
  | .zero => Copied tm t r ∧ r.i + 1 = r.buf.length ∧ 0 ≤ r.i
  | .testRest => Copied tm t r ∧ Stopped tm t r ∧ r.count ≤ r.i ∧
      r.i ≤ max r.count (tm.lastlinelength t)
  | .zeroRest => Copied tm t r ∧ Stopped tm t r ∧ r.count ≤ r.i ∧ r.i < tm.lastlinelength t
  | .reset => Copied tm t r ∧ Stopped tm t r ∧ r.i = max r.count (tm.lastlinelength t)

/-- The cells of the last line that the reader has set to zero. -/
def Reader.zeroed (r : Reader) (j : ℤ) : Prop :=
  match r.point with
  | .wait => False
  | .testLength | .testByte | .load | .zero => 0 ≤ j ∧ j < r.i
  | .testRest | .zeroRest | .reset => (0 ≤ j ∧ j < r.buf.length) ∨ (r.count ≤ j ∧ j < r.i)

theorem busy_eq_false (hbusy : s.busy t = false) (hr : s.reader t = some r) : r.point = .wait := by
  simpa [State.busy, hr] using hbusy

theorem Progress.copied (h : Progress tm t r) (hpoint : r.point ≠ .wait) : Copied tm t r := by
  unfold Progress at h
  split at h
  case h_1 => exact absurd ‹_› hpoint
  all_goals exact h.1

/-- Only cells of the line are set to zero. -/
theorem Progress.inRow (h : Progress tm t r) {j : ℤ} (hj : r.zeroed j) :
    InRow j ∧ j < tm.lastlinelength t := by
  have hcopied : Copied tm t r := h.copied fun hwait => by
    unfold Reader.zeroed at hj
    rw [hwait] at hj
    exact hj
  have hfits := hcopied.fits
  have hlength := hcopied.le_length
  have hcount := hcopied.le_count
  unfold InRow
  unfold Progress at h
  unfold Reader.zeroed at hj
  split at h <;> simp only [‹r.point = _›] at hj <;> omega

/-- A read depends on the last line of its terminal only. -/
theorem Progress.congr (h : Progress tm t r) (hrd : tm'.rd t = tm.rd t)
    (hlength : tm'.lastlinelength t = tm.lastlinelength t)
    (hrow : ∀ j, InRow j → row t tm'.lastlinebuffer j = row t tm.lastlinebuffer j) :
    Progress tm' t r := by
  by_cases hpoint : r.point = .wait
  · unfold Progress at h ⊢
    rw [hpoint] at h ⊢
    exact h
  have hc := h.copied hpoint
  have hcopied : Copied tm' t r := by
    refine ⟨hrd.trans hc.rd, hlength ▸ hc.fits, ?_, hc.nonzero, hlength ▸ hc.le_length, hc.le_count⟩
    refine hc.holds.congr fun i hi => hrow i ?_
    have := hc.fits
    have := hc.le_length
    unfold InRow
    omega
  have hstopped : Stopped tm t r → Stopped tm' t r := by
    unfold Stopped
    rw [hlength]
    rintro (hstop | hstop | hstop)
    · exact .inl hstop
    · exact .inr (.inl hstop)
    · -- the byte behind the copied ones is in the row, unless the whole row has been copied
      by_cases hall : (r.buf.length : ℤ) = tm.lastlinelength t
      · exact .inl hall
      · refine .inr (.inr ((hrow _ ?_).trans hstop))
        have := hc.fits
        have := hc.le_length
        unfold InRow
        omega
  have hbyte : r.i = r.buf.length → r.i < tm.lastlinelength t → InRow r.i := by
    have := hc.fits
    unfold InRow
    omega
  unfold Progress at h ⊢
  rw [hlength]
  split at h
  · exact h
  · exact ⟨hcopied, h.2⟩
  · exact ⟨hcopied, h.2⟩
  · exact ⟨hcopied, h.2.1, h.2.2.1, h.2.2.2.1, hrow r.i (hbyte h.2.1 h.2.2.1) ▸ h.2.2.2.2⟩
  · exact ⟨hcopied, h.2⟩
  · exact ⟨hcopied, hstopped h.2.1, h.2.2⟩
  · exact ⟨hcopied, hstopped h.2.1, h.2.2⟩
  · exact ⟨hcopied, hstopped h.2.1, h.2.2⟩

/-! ## The driver and the driver with reads of one step -/

/-- The reader of terminal `t` has set the cell `j` of its row to zero. -/
def State.zeroedBy (s : State) (t : Fin 3) (j : ℤ) : Prop := ∃ r, s.reader t = some r ∧ r.zeroed j

/-- Some reader has set the cell to zero. -/
def State.zeroed (s : State) (p : ℤ) : Prop :=
  ∃ (t : Fin 3) (j : ℤ), s.zeroedBy t j ∧ p = slot t j

/-- The drivers differ in the cells that a reader has set to zero. -/
structure Follows (s : State) (tm : Terminals) : Prop where
  terms : s.terms = { tm with lastlinebuffer := s.terms.lastlinebuffer }
  zero : ∀ p, s.zeroed p → s.terms.lastlinebuffer p = 0
  same : ∀ p, ¬s.zeroed p → s.terms.lastlinebuffer p = tm.lastlinebuffer p
  progress : ∀ t r, s.reader t = some r → Progress tm t r

theorem Follows.vars (h : Follows s tm) : s.terms.vars = tm.vars := by rw [h.terms]

theorem Follows.currTerminal (h : Follows s tm) : s.terms.currTerminal = tm.currTerminal := by
  rw [h.terms]

theorem Follows.rd (h : Follows s tm) : s.terms.rd = tm.rd := by rw [h.terms]

theorem Follows.lastlinelength (h : Follows s tm) : s.terms.lastlinelength = tm.lastlinelength := by
  rw [h.terms]

/-- The cells of different rows are different. -/
theorem slot_inj {i j : ℤ} (hi : InRow i) (hj : InRow j) (h : slot t i = slot t' j) :
    t = t' ∧ i = j := by
  unfold InRow at hi hj
  unfold slot at h
  constructor
  · apply Fin.ext
    omega
  · have ht : (t : ℤ) = t' := by omega
    omega

/-- A cell of the row of `t` is set to zero by the reader of `t` only. -/
theorem Follows.zeroed_slot (h : Follows s tm) {j : ℤ} (hj : InRow j) (hz : s.zeroed (slot t j)) :
    s.zeroedBy t j := by
  obtain ⟨t', i, ⟨r, hr, hi⟩, hslot⟩ := hz
  obtain ⟨ht, hij⟩ := slot_inj hj ((h.progress t' r hr).inRow hi).1 hslot
  subst ht hij
  exact ⟨r, hr, hi⟩

theorem not_zeroed_of_wait (hpoint : r.point = .wait) (j : ℤ) :
    ¬r.zeroed j := by
  unfold Reader.zeroed
  rw [hpoint]
  exact id

/-- A cell that its reader has not reached yet. -/
theorem Follows.row_eq (h : Follows s tm) (hr : s.reader t = some r) {j : ℤ} (hj : InRow j)
    (hz : ¬r.zeroed j) : row t s.terms.lastlinebuffer j = row t tm.lastlinebuffer j := by
  apply h.same
  intro hzero
  obtain ⟨r', hr', hz'⟩ := h.zeroed_slot hj hzero
  rw [hr, Option.some.injEq] at hr'
  exact hz (hr' ▸ hz')

/-! ## Calls -/

/-- The store leaves the last line alone. -/
def quiet : Effect → Prop
  | .commit _ | .lastlinelength _ | .rd _ => False
  | _ => True

/-- A store of a driver function. A line that is being read is left alone. -/
theorem Follows.apply (h : Follows s tm) (he : e.InBounds) (hquiet : s.busy t = true → quiet e) :
    Follows { s with terms := e.apply t s.terms } (e.apply t tm) := by
  -- the readers of other terminals do not see a store to the last line of `t`
  have hprogress : s.busy t = false → ∀ tm' : Terminals,
      (∀ t' : ℤ, t' ≠ t → tm'.rd t' = tm.rd t' ∧ tm'.lastlinelength t' = tm.lastlinelength t' ∧
        ∀ j, InRow j → row t' tm'.lastlinebuffer j = row t' tm.lastlinebuffer j) →
      ∀ t' r, s.reader t' = some r → Progress tm' t' r := by
    intro hbusy tm' hsame t' r hr
    by_cases ht : t' = t
    · have hwait := h.progress t' r hr
      unfold Progress at hwait ⊢
      rw [busy_eq_false hbusy (ht ▸ hr)] at hwait ⊢
      exact hwait
    · obtain ⟨hrd, hlength, hrow⟩ := hsame t' fun heq => ht (Fin.ext (by omega))
      exact (h.progress t' r hr).congr hrd hlength hrow
  have hidle : ¬quiet e → s.busy t = false := fun hne => by
    cases hb : s.busy t with
    | false => rfl
    | true => exact absurd (hquiet hb) hne
  cases e with
  | screen | line | cursor | linestart =>
    refine ⟨?_, h.zero, h.same, fun t' r hr => (h.progress t' r hr).congr rfl rfl fun _ _ => rfl⟩
    dsimp only [Effect.apply]
    rw [h.terms]
  | lastlinelength n =>
    refine ⟨?_, h.zero, h.same, hprogress (hidle id) _ fun t' ht =>
      ⟨rfl, update_of_ne ht _ _, fun _ _ => rfl⟩⟩
    dsimp only [Effect.apply]
    rw [h.terms]
  | rd n =>
    refine ⟨?_, h.zero, h.same, hprogress (hidle id) _ fun t' ht =>
      ⟨update_of_ne ht _ _, rfl, fun _ _ => rfl⟩⟩
    dsimp only [Effect.apply]
    rw [h.terms]
  | commit i =>
    have hbusy := hidle id
    have hline : s.terms.linebuffer = tm.linebuffer := by rw [h.terms]
    -- the cell belongs to no reader
    have hcell : ∀ p, s.zeroed p → p ≠ slot t i := by
      rintro p hp rfl
      obtain ⟨r, hr, hz⟩ := h.zeroed_slot he hp
      exact not_zeroed_of_wait (busy_eq_false hbusy hr) i hz
    refine ⟨?_, fun p hp => ?_, fun p hp => ?_, hprogress hbusy _ fun t' ht => ⟨rfl, rfl, ?_⟩⟩
    · dsimp only [Effect.apply]
      rw [h.terms]
    · show update s.terms.lastlinebuffer (slot t i) _ p = 0
      rw [update_of_ne (hcell p hp)]
      exact h.zero p hp
    · show update s.terms.lastlinebuffer (slot t i) _ p = update tm.lastlinebuffer (slot t i) _ p
      rw [hline, update_apply, update_apply]
      split
      · rfl
      · exact h.same p hp
    · intro j hj
      exact row_update_ne ht he hj _ _

theorem Follows.foldl {es : List Effect} (hes : ∀ e ∈ es, e.InBounds)
    (hquiet : s.busy t = true → ∀ e ∈ es, quiet e) :
    ∀ {terms tm : Terminals}, Follows { s with terms } tm →
      Follows { s with terms := es.foldl (fun tm e => e.apply t tm) terms }
        (es.foldl (fun tm e => e.apply t tm) tm) := by
  induction es with
  | nil => exact fun h => h
  | cons e es ih =>
    intro terms tm h
    refine ih (fun e he => hes e (List.mem_cons_of_mem _ he))
      (fun hb e he => hquiet hb e (List.mem_cons_of_mem _ he)) ?_
    exact h.apply (hes e List.mem_cons_self) fun hb => hquiet hb e List.mem_cons_self

/-- A driver function. -/
theorem Follows.run (h : Follows s tm) (hes : ∀ e ∈ (f (tm.vars t)).2, e.InBounds)
    (hquiet : s.busy t = true → ∀ e ∈ (f (tm.vars t)).2, quiet e) :
    Follows { s with terms := (s.terms.run t f).1 } (tm.run t f).1 := by
  have hfold := Follows.foldl hes hquiet h
  -- the variables are the same, so the stores are
  have hrun : ∀ terms : Terminals, terms.vars = tm.vars → (terms.run t f).1
      = { (f (tm.vars t)).2.foldl (fun tm e => e.apply t tm) terms with
          vars := update tm.vars t (f (tm.vars t)).1 } := by
    intro terms hvars
    dsimp only [Terminals.run]
    rw [hvars]
  rw [hrun s.terms h.vars, hrun tm rfl]
  refine ⟨?_, hfold.zero, hfold.same, fun t' r hr =>
    (hfold.progress t' r hr).congr rfl rfl fun _ _ => rfl⟩
  have hterms := hfold.terms
  dsimp only at hterms ⊢
  rw [hterms]

theorem LineAction.quiet {len : ℤ → ℤ} {stores : ℤ → List Effect} (h : LineAction f len stores)
    {v : Vars} (hstores : ∀ e ∈ stores v.linelength, quiet e) : ∀ e ∈ (f v).2, Reading.quiet e := by
  intro e he
  cases hline : e.isLine with
  | true =>
    apply hstores
    rw [← h.stores]
    exact List.mem_filter.mpr ⟨he, hline⟩
  | false =>
    cases e with
    | screen | cursor | linestart | line => trivial
    | _ => cases hline

/-- Every key but a newline leaves the last line alone. -/
theorem lineStores_quiet {c : UInt8} (hc : c ≠ newLineChar) (n : ℤ) :
    ∀ e ∈ lineStores c n, quiet e := by
  unfold lineStores
  rw [if_neg hc]
  intro e he
  split at he
  · rw [List.mem_singleton] at he
    subst he
    trivial
  · split at he
    · split at he
      · obtain ⟨j, -, rfl⟩ := List.mem_map.mp he
        trivial
      · split at he
        · rw [List.mem_singleton] at he
          subst he
          trivial
        · exact absurd he List.not_mem_nil
    · exact absurd he List.not_mem_nil

theorem faultStores_quiet (c : UInt8) (n : ℤ) : ∀ e ∈ faultStores c n, quiet e := by
  unfold faultStores
  split
  · intro e he
    rw [List.mem_singleton.mp he]
    trivial
  · exact fun e he => absurd he List.not_mem_nil

/-- A key does the same to both drivers, and so does one that faults. -/
theorem Follows.press {c : UInt8} (h : Follows s tm) (hbounded : tm.lines.Bounded)
    (hfit : TabFits c (tm.vars tm.currTerminal).linelength)
    (hnew : c = newLineChar → s.busy tm.currTerminal = false) :
    Follows { s with terms := (s.terms.press c).1 } (tm.press c).1 := by
  have hlength := (hbounded tm.currTerminal).1
  have hsame : KeyReturns c (s.terms.vars s.terms.currTerminal)
      = KeyReturns c (tm.vars tm.currTerminal) := by rw [h.vars, h.currTerminal]
  by_cases hret : KeyReturns c (tm.vars tm.currTerminal)
  · have hline := putChar_line tm.currTerminal c
    have hrun := h.run (hline.inBounds (lineStores_inBounds hlength hfit)) fun hbusy =>
      LineAction.quiet hline (lineStores_quiet (fun hc => by
        rw [hnew hc] at hbusy
        cases hbusy) _)
    rw [press_of_returns hret, press_of_returns (hsame ▸ hret)]
    unfold Terminals.key
    rw [h.currTerminal]
    exact hrun
  · have hline := putCharFault_line c
    have hrun := h.run (hline.inBounds (faultStores_inBounds hlength)) fun _ =>
      LineAction.quiet hline (faultStores_quiet c _)
    rw [press_of_faults hret, press_of_faults (hsame ▸ hret), h.currTerminal]
    exact hrun

/-- A call with interrupts disabled does the same to both drivers. -/
theorem Follows.call {ev : Event} (h : Follows s tm) (hbounded : tm.lines.Bounded)
    (hok : Undisturbed s (.call ev)) (hstep : system.step s (.call ev) = some s') :
    ∃ tm', ev.exec tm = some tm' ∧ tm'.lines.Bounded ∧ Follows s' tm' := by
  cases ev with
  | putChar c =>
    cases hstep
    obtain ⟨hfit, hnew⟩ := hok
    rw [h.vars, h.currTerminal] at hfit
    rw [h.currTerminal] at hnew
    exact ⟨_, rfl, (Kept.press hbounded hfit).bounded, h.press hbounded hfit hnew⟩
  | terminalWrite t bytes =>
    cases hstep
    refine ⟨_, rfl, (Kept.terminalWrite hbounded t bytes).bounded, h.run ?_ fun _ => ?_⟩
    · exact (terminalWrite_line t bytes).inBounds fun e he => absurd he List.not_mem_nil
    · exact LineAction.quiet (terminalWrite_line t bytes) fun e he => absurd he List.not_mem_nil
  | terminalRead t count => cases hstep
  | clearTerminal =>
    cases hstep
    refine ⟨_, rfl, (Kept.clearTerminal hbounded).bounded, ?_⟩
    -- `rd` and `lastlinelength` are cleared, but no reader is copying
    have hidle : s.busy tm.currTerminal = false := h.currTerminal ▸ hok
    have hrun := h.run (f := Terminal.clearTerminal tm.currTerminal)
      (clearTerminal_inBounds _ (tm.vars tm.currTerminal)) fun hbusy => by
        rw [hidle] at hbusy
        cases hbusy
    rw [h.currTerminal]
    exact hrun
  | histCopyFrom src => cases hstep
  | switchTerminals term =>
    cases hstep
    refine ⟨_, rfl, hbounded, ?_, h.zero, h.same, fun t r hr =>
      (h.progress t r hr).congr rfl rfl fun _ _ => rfl⟩
    dsimp only
    rw [h.terms]

/-! ## The read of one step -/

/-- The copy loop stops behind the bytes `b`. -/
theorem readLine_stops (t : ℤ) {b : List UInt8} :
    ∀ {last : ℤ → UInt8} {i : ℤ} {n : ℕ}, 0 ∉ b →
      (∀ j (h : j < b.length), last (slot t (i + j)) = b[j]) → b.length ≤ n →
      (b.length = n ∨ last (slot t (i + b.length)) = 0) →
      (readLine last t n i).2 = b ∧ ∀ j, j ∈ copyIndices last t n i ↔ i ≤ j ∧ j < i + b.length := by
  induction b with
  | nil =>
    intro last i n _ _ _ hstop
    rw [List.length_nil, Int.natCast_zero, Int.add_zero] at hstop ⊢
    have hnone : ∀ j, ¬(i ≤ j ∧ j < i) := fun j => by omega
    cases n with
    | zero => exact ⟨rfl, fun j => by simp [copyIndices, hnone]⟩
    | succ n =>
      have hzero := hstop.resolve_left (by omega)
      rw [readLine, copyIndices, if_pos hzero, if_pos hzero]
      exact ⟨rfl, fun j => by simp [hnone]⟩
  | cons c b ih =>
    intro last i n hnul hcells hle hstop
    rw [List.length_cons] at hle hstop
    obtain ⟨n, rfl⟩ : ∃ m, n = m + 1 := ⟨n - 1, by omega⟩
    have hc : last (slot t i) = c := by
      have h0 := hcells 0 (Nat.succ_pos _)
      rwa [Int.natCast_zero, Int.add_zero] at h0
    have hne : last (slot t i) ≠ 0 := fun hz => hnul (by rw [← hz, hc]; exact List.mem_cons_self)
    -- the cells behind `i` are as they were
    have hrest : ∀ m : ℕ, update last (slot t i) 0 (slot t (i + 1 + m))
        = last (slot t (i + (m + 1 : ℕ))) := by
      intro m
      rw [update_of_ne (by unfold slot; omega)]
      congr 2
      omega
    obtain ⟨hbytes, hindices⟩ := @ih (update last (slot t i) 0) (i + 1) n
      (fun hz => hnul (List.mem_cons_of_mem c hz))
      (fun j hj => (hrest j).trans (hcells (j + 1) (Nat.succ_lt_succ hj))) (by omega)
      (hstop.imp (by omega) fun hz => (hrest _).trans hz)
    rw [readLine, copyIndices, if_neg hne, if_neg hne]
    refine ⟨by rw [hc]; exact congrArg (c :: ·) hbytes, fun j => ?_⟩
    rw [List.mem_cons, hindices, List.length_cons]
    omega

theorem wipe_of_mem {t : ℤ} {p : ℤ} {is : List ℤ} :
    ∀ {buf : ℤ → UInt8}, (∃ i ∈ is, p = slot t i) ∨ buf p = 0 → wipe t buf is p = 0 := by
  induction is with
  | nil =>
    intro buf h
    exact h.resolve_left (by simp)
  | cons i is ih =>
    intro buf h
    refine ih ?_
    dsimp only
    rw [update_apply]
    split
    · exact .inr rfl
    · simp only [List.mem_cons, exists_eq_or_imp, or_assoc] at h
      exact h.resolve_left ‹_›

theorem wipe_of_notMem {t : ℤ} {p : ℤ} {is : List ℤ} :
    ∀ {buf : ℤ → UInt8}, (∀ i ∈ is, p ≠ slot t i) → wipe t buf is p = buf p := by
  induction is with
  | nil => exact fun _ => rfl
  | cons i is ih =>
    intro buf h
    refine (ih fun j hj => h j (List.mem_cons_of_mem _ hj)).trans ?_
    exact update_of_ne (h i List.mem_cons_self) ..

/-- At the end of a read, `terminalRead` gives the bytes in the buffer, and sets the same cells to
zero. -/
theorem terminalRead_of_stopped (hcopied : Copied tm t r) (hstopped : Stopped tm t r) :
    ∃ is : List ℤ,
      (∀ j, j ∈ is ↔ (0 ≤ j ∧ j < r.buf.length) ∨ (r.count ≤ j ∧ j < tm.lastlinelength t)) ∧
      terminalRead tm t r.count = some ({ tm with
        lastlinebuffer := wipe t tm.lastlinebuffer is
        rd := update tm.rd t 0
        lastlinelength := update tm.lastlinelength t 0 }, r.buf) := by
  have hlength := hcopied.le_length
  have hcount := hcopied.le_count
  -- the bytes in the buffer end at one of the bounds, or at a NUL
  have hend : r.buf.length = (min (tm.lastlinelength t) r.count).toNat ∨
      tm.lastlinebuffer (slot t (0 + r.buf.length)) = 0 := by
    rw [Int.zero_add]
    rcases hstopped with hstop | hstop | hstop
    · exact .inl (by omega)
    · exact .inl (by omega)
    · exact .inr hstop
  have hcells : ∀ j (h : j < r.buf.length), tm.lastlinebuffer (slot t (0 + j)) = r.buf[j] := by
    intro j hj
    rw [Int.zero_add]
    exact hcopied.holds j hj
  obtain ⟨hbytes, hindices⟩ := readLine_stops t hcopied.nonzero hcells (by omega) hend
  refine ⟨copyIndices tm.lastlinebuffer t (min (tm.lastlinelength t) r.count).toNat 0 ++
    (List.range (tm.lastlinelength t - r.count).toNat).map fun j : ℕ => r.count + j, ?_, ?_⟩
  · intro j
    rw [List.mem_append, hindices, List.mem_map, Int.zero_add]
    refine or_congr_right ⟨?_, fun hj => ⟨(j - r.count).toNat, ?_, by omega⟩⟩
    · rintro ⟨m, hm, rfl⟩
      rw [List.mem_range] at hm
      omega
    · rw [List.mem_range]
      omega
  · unfold terminalRead
    rw [if_neg (not_not.mpr hcopied.rd), wipe, List.foldl_append, List.foldl_map]
    dsimp only
    rw [hbytes, readLine_fst]
    rfl

/-! ## Statements of a reader -/

theorem zeroedBy_update {o : Option Reader} {t' : Fin 3} {j : ℤ} :
    State.zeroedBy ⟨tm, update s.reader t o⟩ t' j ↔
      if t' = t then ∃ r, o = some r ∧ r.zeroed j else s.zeroedBy t' j := by
  unfold State.zeroedBy
  dsimp only
  rw [update_apply]
  split <;> rfl

theorem Follows.progress_update (h : Follows s tm) {r' : Reader} (hprogress : Progress tm t r') :
    ∀ t' r₁, update s.reader t (some r') t' = some r₁ → Progress tm t' r₁ := by
  intro t' r₁ hr₁
  by_cases ht : t' = t
  · subst ht
    rw [update_self, Option.some.injEq] at hr₁
    exact hr₁ ▸ hprogress
  · rw [update_of_ne ht] at hr₁
    exact h.progress t' r₁ hr₁

/-- A reader goes on, and the cells that it has set to zero are the same. -/
theorem Follows.of_zeroedBy (h : Follows s tm) {r' : Reader}
    (hzeroed : ∀ j, r'.zeroed j ↔ s.zeroedBy t j) (hprogress : Progress tm t r') :
    Follows ⟨s.terms, update s.reader t (some r')⟩ tm := by
  have hby : ∀ t' j, State.zeroedBy ⟨s.terms, update s.reader t (some r')⟩ t' j ↔
      s.zeroedBy t' j := by
    intro t' j
    rw [zeroedBy_update]
    split
    · subst t'
      simp [hzeroed]
    · rfl
  have hsame : ∀ p, State.zeroed ⟨s.terms, update s.reader t (some r')⟩ p ↔ s.zeroed p := by
    simp only [State.zeroed, hby, implies_true]
  refine ⟨h.terms, fun p hp => h.zero p ((hsame p).mp hp),
    fun p hp => h.same p fun hz => hp ((hsame p).mpr hz), ?_⟩
  exact h.progress_update hprogress

/-- A statement that only changes the local variables. -/
theorem Follows.local (h : Follows s tm) (hr : s.reader t = some r) {r' : Reader}
    (hzeroed : ∀ j, r'.zeroed j ↔ r.zeroed j) (hprogress : Progress tm t r') :
    Follows ⟨s.terms, update s.reader t (some r')⟩ tm := by
  apply h.of_zeroedBy _ hprogress
  intro j
  simp [State.zeroedBy, hr, hzeroed]

/-- A cell of the line is set to zero. -/
theorem Follows.store (h : Follows s tm) (hr : s.reader t = some r) (r' : Reader)
    (hzeroed : ∀ j, r'.zeroed j ↔ r.zeroed j ∨ j = r.i) (hprogress : Progress tm t r') :
    Follows ⟨{ s.terms with lastlinebuffer := update s.terms.lastlinebuffer (slot t r.i) 0 },
      update s.reader t (some r')⟩ tm := by
  have hby : ∀ tm' t' j, State.zeroedBy ⟨tm', update s.reader t (some r')⟩ t' j ↔
      s.zeroedBy t' j ∨ t' = t ∧ j = r.i := by
    intro tm' t' j
    rw [zeroedBy_update]
    split
    · subst t'
      simp [State.zeroedBy, hr, hzeroed]
    · rw [or_iff_left fun hz => ‹¬_› hz.1]
  have hcell : ∀ tm' p, State.zeroed ⟨tm', update s.reader t (some r')⟩ p ↔
      s.zeroed p ∨ p = slot t r.i := by
    intro tm' p
    simp only [State.zeroed, hby, or_and_right, exists_or]
    refine or_congr_right ⟨?_, fun hp => ⟨t, r.i, ⟨rfl, rfl⟩, hp⟩⟩
    rintro ⟨t', j, ⟨rfl, rfl⟩, hp⟩
    exact hp
  refine ⟨?_, fun p hp => ?_, fun p hp => ?_, h.progress_update hprogress⟩
  · dsimp only
    rw [h.terms]
  · show update s.terms.lastlinebuffer (slot t r.i) 0 p = 0
    rw [update_apply]
    split
    · rfl
    · exact h.zero p (((hcell _ p).mp hp).resolve_right ‹_›)
  · rw [hcell, not_or] at hp
    show update s.terms.lastlinebuffer (slot t r.i) 0 p = _
    rw [update_of_ne hp.2]
    exact h.same p hp.1

/-- The reset at the end. -/
theorem Follows.reset (h : Follows s tm) (hbounded : tm.lines.Bounded) (hr : s.reader t = some r)
    (hpoint : r.point = .reset) : ∃ tm', terminalRead tm t r.count = some (tm', r.buf) ∧
      tm'.lines.Bounded ∧
      Follows ⟨{ s.terms with
        rd := update s.terms.rd t 0
        lastlinelength := update s.terms.lastlinelength t 0 }, update s.reader t none⟩ tm' := by
  have hprogress := h.progress t r hr
  unfold Progress at hprogress
  rw [hpoint] at hprogress
  obtain ⟨hcopied, hstopped, hi⟩ := hprogress
  obtain ⟨is, his, hread⟩ := terminalRead_of_stopped hcopied hstopped
  have hnonneg : 0 ≤ r.count := by
    have := hcopied.le_count
    omega
  have hkept := Kept.terminalRead hbounded hnonneg hread
  refine ⟨_, hread, hkept.bounded, ?_⟩
  -- what the reader has set to zero is what `terminalRead` sets to zero
  have hmem : ∀ j, r.zeroed j ↔ j ∈ is := by
    intro j
    rw [his]
    unfold Reader.zeroed
    rw [hpoint]
    dsimp only
    omega
  have hby : ∀ tm' t' j, State.zeroedBy ⟨tm', update s.reader t none⟩ t' j ↔
      t' ≠ t ∧ s.zeroedBy t' j := by
    intro tm' t' j
    rw [zeroedBy_update]
    split
    · simp [‹t' = t›]
    · exact (and_iff_right ‹_›).symm
  refine ⟨?_, fun p hp => ?_, fun p hp => ?_, fun t' r' hr' => ?_⟩
  · dsimp only
    rw [h.terms]
  · obtain ⟨t', j, hj, hslot⟩ := hp
    exact h.zero p ⟨t', j, ((hby _ t' j).mp hj).2, hslot⟩
  · show s.terms.lastlinebuffer p = wipe t tm.lastlinebuffer is p
    by_cases hcell : ∃ i ∈ is, p = slot t i
    · rw [wipe_of_mem (.inl hcell)]
      obtain ⟨i, hi, hslot⟩ := hcell
      exact h.zero p ⟨t, i, ⟨r, hr, (hmem i).mpr hi⟩, hslot⟩
    · rw [wipe_of_notMem fun i hi hslot => hcell ⟨i, hi, hslot⟩]
      apply h.same
      rintro ⟨t', j, hj, hslot⟩
      by_cases ht : t' = t
      · subst ht
        obtain ⟨r', hr', hz⟩ := hj
        rw [hr, Option.some.injEq] at hr'
        exact hcell ⟨j, (hmem j).mp (hr' ▸ hz), hslot⟩
      · exact hp ⟨t', j, (hby _ t' j).mpr ⟨ht, hj⟩, hslot⟩
  · have ht : t' ≠ t := by
      rintro rfl
      cases (update_self t' none s.reader).symm.trans hr'
    replace hr' := (update_of_ne ht none s.reader).symm.trans hr'
    have hline := hkept.sameLine t' fun heq => ht (Fin.ext (by omega))
    exact (h.progress t' r' hr').congr hline.rd hline.lastlinelength hline.lastlinebuffer

theorem Copied.congr {r' : Reader} (h : Copied tm t r) (hbuf : r'.buf = r.buf)
    (hcount : r'.count = r.count) : Copied tm t r' :=
  ⟨h.rd, h.fits, hbuf ▸ h.holds, hbuf ▸ h.nonzero, hbuf ▸ h.le_length,
    hbuf ▸ hcount ▸ h.le_count⟩

/-- The first loop ends. -/
theorem Copied.testRest (h : Copied tm t r) (hstopped : Stopped tm t r) :
    Progress tm t { r with point := .testRest, i := r.count } :=
  ⟨h.congr rfl rfl, hstopped, Int.le_refl _, Int.le_max_left ..⟩

/-- The next byte of the line. -/
theorem Copied.snoc (h : Copied tm t r) (hi : r.i = r.buf.length)
    (hlength : r.i < tm.lastlinelength t) (hcount : r.i < r.count)
    (hbyte : row t tm.lastlinebuffer r.i ≠ 0) :
    Copied tm t { r with point := .zero, buf := r.buf ++ [row t tm.lastlinebuffer r.i] } := by
  have hlen : ((r.buf ++ [row t tm.lastlinebuffer r.i]).length : ℤ) = r.i + 1 := by
    rw [List.length_append, List.length_singleton]
    omega
  refine ⟨h.rd, h.fits, ?_, ?_, by dsimp only; omega, by dsimp only; omega⟩
  · have hsnoc := h.holds.snoc (row t tm.lastlinebuffer r.i)
    rwa [hi, update_eq_self, ← hi] at hsnoc
  · rw [List.mem_append, List.mem_singleton]
    rintro (hz | hz)
    · exact h.nonzero hz
    · exact hbyte hz.symm

/-- The byte that a reader looks at is the byte of the line. -/
theorem Follows.byte_eq (h : Follows s tm) (hr : s.reader t = some r) (hcopied : Copied tm t r)
    (hpoint : r.point = .testByte ∨ r.point = .load) (hi : r.i = r.buf.length)
    (hlength : r.i < tm.lastlinelength t) :
    s.terms.lastlinebuffer (slot t r.i) = row t tm.lastlinebuffer r.i := by
  have hfits := hcopied.fits
  refine h.row_eq hr ?_ ?_
  · unfold InRow
    omega
  · unfold Reader.zeroed
    rcases hpoint with hpoint | hpoint <;> rw [hpoint] <;> dsimp only <;> omega

/-- The statements before the reset. -/
theorem Follows.next (h : Follows s tm) (hbounded : tm.lines.Bounded) (hr : s.reader t = some r)
    (hpoint : r.point ≠ .reset) :
    Follows ⟨(r.next s.terms t).1, update s.reader t (r.next s.terms t).2⟩ tm := by
  have hprogress := h.progress t r hr
  unfold Progress at hprogress
  unfold Reader.next
  cases hp : r.point <;> rw [hp] at hprogress <;> dsimp only at hprogress ⊢
  case wait =>
    obtain ⟨hi, hbuf, hcount⟩ := hprogress
    rw [h.rd]
    split
    · refine h.local hr (fun j => ?_) ⟨⟨‹_›, (hbounded t).2.2, ?_, ?_, ?_, ?_⟩, ?_⟩
      · simp only [Reader.zeroed, hp, iff_false]
        omega
      all_goals simp only [hbuf, List.length_nil, List.not_mem_nil, not_false_eq_true]
      · exact Holds.nil _
      · exact (hbounded t).2.1
      · exact hcount
      · exact hi
    · exact h.local hr (fun j => Iff.rfl) (h.progress t r hr)
  case testLength =>
    obtain ⟨hcopied, hi⟩ := hprogress
    rw [h.lastlinelength]
    split
    · exact h.local hr (fun j => by simp only [Reader.zeroed, hp])
        ⟨hcopied.congr rfl rfl, hi, ‹_ ∧ _›⟩
    · refine h.local hr (fun j => ?_) (hcopied.testRest ?_)
      · simp only [Reader.zeroed, hp]
        omega
      · have := hcopied.le_length
        have := hcopied.le_count
        unfold Stopped
        omega
  case testByte =>
    obtain ⟨hcopied, hi, hlength, hcount⟩ := hprogress
    rw [h.byte_eq hr hcopied (.inl hp) hi hlength]
    split
    · exact h.local hr (fun j => by simp only [Reader.zeroed, hp])
        ⟨hcopied.congr rfl rfl, hi, hlength, hcount, ‹_›⟩
    · refine h.local hr (fun j => ?_) (hcopied.testRest ?_)
      · simp only [Reader.zeroed, hp]
        omega
      · exact .inr (.inr (hi ▸ not_not.mp ‹_›))
  case load =>
    obtain ⟨hcopied, hi, hlength, hcount, hbyte⟩ := hprogress
    rw [h.byte_eq hr hcopied (.inr hp) hi hlength]
    refine h.local hr (fun j => by simp only [Reader.zeroed, hp])
      ⟨hcopied.snoc hi hlength hcount hbyte, ?_, ?_⟩
    · dsimp only
      rw [List.length_append, List.length_singleton]
      omega
    · dsimp only
      omega
  case zero =>
    obtain ⟨hcopied, hi, hnonneg⟩ := hprogress
    refine h.store hr { r with point := .testLength, i := r.i + 1 } (fun j => ?_)
      ⟨hcopied.congr rfl rfl, hi⟩
    simp only [Reader.zeroed, hp]
    omega
  case testRest =>
    obtain ⟨hcopied, hstopped, hcount, hmax⟩ := hprogress
    rw [h.lastlinelength]
    split
    · exact h.local hr (fun j => by simp only [Reader.zeroed, hp])
        ⟨hcopied.congr rfl rfl, hstopped, hcount, ‹_›⟩
    · refine h.local hr (fun j => by simp only [Reader.zeroed, hp])
        ⟨hcopied.congr rfl rfl, hstopped, ?_⟩
      dsimp only
      omega
  case zeroRest =>
    obtain ⟨hcopied, hstopped, hcount, hlength⟩ := hprogress
    refine h.store hr { r with point := .testRest, i := r.i + 1 } (fun j => ?_)
      ⟨hcopied.congr rfl rfl, hstopped, ?_, ?_⟩
    · simp only [Reader.zeroed, hp]
      omega
    · dsimp only
      omega
    · dsimp only
      omega
  case reset => exact absurd hp hpoint

/-- A statement of a reader: the reset is a read of the other driver, at the others it stands
still. -/
theorem Follows.reader (h : Follows s tm) (hbounded : tm.lines.Bounded)
    (hstep : system.step s (.reader t) = some s') :
    ∃ tm', atomic tm (observe s (.reader t)) = some tm' ∧ tm'.lines.Bounded ∧ Follows s' tm' := by
  obtain ⟨r, hr, rfl⟩ := Option.map_eq_some_iff.mp hstep
  have hobserve : observe s (.reader t)
      = if r.point = .reset then some (.read t r.count r.buf) else none := by
    show (s.reader t).bind _ = _
    rw [hr, Option.bind_some]
  rw [hobserve]
  split
  case isTrue hpoint =>
    obtain ⟨tm', hread, hbounded', hfollows⟩ := h.reset hbounded hr hpoint
    refine ⟨tm', ?_, hbounded', ?_⟩
    · simp [atomic, hread]
    · unfold Reader.next
      rw [hpoint]
      exact hfollows
  case isFalse hpoint => exact ⟨tm, rfl, hbounded, h.next hbounded hr hpoint⟩

/-- A process calls `terminal_read`. -/
theorem Follows.start {count : ℤ} (h : Follows s tm)
    (hstep : system.step s (.start t count) = some s') : Follows s' tm := by
  simp only [system, Move.exec] at hstep
  split at hstep
  · cases hstep
    exact h
  · split at hstep
    · cases hstep
    · cases hstep
      have hnone : s.reader t = none := by simpa using ‹¬(s.reader t).isSome = true›
      apply h.of_zeroedBy
      · intro j
        simp [State.zeroedBy, hnone, Reader.zeroed]
      · exact ⟨rfl, rfl, not_lt.mp ‹_›⟩

/-! ## Runs -/

/-- One move, and what the other driver does for it. -/
theorem Follows.step {m : Move} (h : Follows s tm) (hbounded : tm.lines.Bounded)
    (hok : Undisturbed s m) (hstep : system.step s m = some s') :
    ∃ tm', atomic tm (observe s m) = some tm' ∧ tm'.lines.Bounded ∧ Follows s' tm' := by
  cases m with
  | call ev => exact h.call hbounded hok hstep
  | start t count => exact ⟨tm, rfl, hbounded, h.start hstep⟩
  | reader t => exact h.reader hbounded hstep

end Reading
end Terminal
end GalapagOS
