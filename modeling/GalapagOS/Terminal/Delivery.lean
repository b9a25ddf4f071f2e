import GalapagOS.Lib.Mailbox
import GalapagOS.Terminal.Reader

/-!
# Lines are delivered once, in order

To a process, a terminal is a mailbox for one line: Enter puts the typed line in, `terminal_read` takes
it out. As long as the next line is entered after the last one has been read, no line is lost, read
twice or mixed with another one, however the keys, the output of all processes and the statements of the
readers are interleaved; and a reader whose line has been entered comes to its end.
-/

namespace GalapagOS
namespace Terminal
namespace Reading

open Buffer Function

variable {s s' : State} {tm tm' : Terminals} {l l' : Lines} {t : Fin 3} {r : Reader}
  {box : Fin 3 → Option (List UInt8)} {line : List UInt8}

/-! ## What an observer sees of the lines -/

/-- The line that has been typed so far. -/
def typed (tm : Terminals) (t : ℤ) : List UInt8 :=
  (List.range (tm.vars t).linelength.toNat).map fun i : ℕ => row t tm.linebuffer i

/-- Lines are put into the mailbox of the displayed terminal by Enter, and taken out when a read
returns. -/
def observeLines (s : State) : Move → Option (Mailbox.Op (Fin 3) (List UInt8) (ℤ × List UInt8))
  | .call (.putChar c) =>
    if c = newLineChar then
      some (.put s.terms.currTerminal (typed s.terms s.terms.currTerminal ++ [newLineChar]))
    else none
  | .reader t => (s.reader t).bind fun r =>
    if r.point = .reset then some (.get t (r.count, r.buf)) else none
  | _ => none

/-- A read returns the line as far as `count` allows. -/
def Delivers (line : List UInt8) (r : ℤ × List UInt8) : Prop := r.2 = line.take r.1.toNat

instance (line : List UInt8) (r : ℤ × List UInt8) : Decidable (Delivers line r) :=
  inferInstanceAs (Decidable (_ = _))

/-- Every tab fits on its line, and a line is entered, or the screen cleared, when the last line of the
terminal has been read. -/
def OneLine (s : State) : Move → Prop
  | .call (.putChar c) =>
    TabFits c (s.terms.vars s.terms.currTerminal).linelength ∧
      (c = newLineChar → s.terms.rd s.terms.currTerminal ≠ 1)
  | .call .clearTerminal => s.terms.rd s.terms.currTerminal ≠ 1
  | _ => True

instance (s : State) : (m : Move) → Decidable (OneLine s m)
  | .call (.putChar c) =>
    have : Decidable (TabFits c (s.terms.vars s.terms.currTerminal).linelength) :=
      inferInstanceAs (Decidable (_ → _))
    inferInstanceAs (Decidable (_ ∧ _))
  | .call .clearTerminal => inferInstanceAs (Decidable (_ ≠ _))
  | .call (.terminalWrite _ _) | .call (.terminalRead _ _) | .call (.histCopyFrom _)
  | .call (.switchTerminals _) | .start _ _ | .reader _ => inferInstanceAs (Decidable True)

/-- A reader that copies has its line. -/
theorem Follows.rd_of_busy (h : Follows s tm) (hbusy : s.busy t = true) : s.terms.rd t = 1 := by
  cases hr : s.reader t with
  | none => simp [State.busy, hr] at hbusy
  | some r =>
    have hpoint : r.point ≠ .wait := by simpa [State.busy, hr] using hbusy
    rw [h.rd]
    exact ((h.progress t r hr).copied hpoint).rd

theorem Follows.undisturbed {m : Move} (h : Follows s tm) (hok : OneLine s m) :
    Undisturbed s m := by
  have hidle : s.terms.rd s.terms.currTerminal ≠ 1 → s.busy s.terms.currTerminal = false := by
    intro hrd
    cases hbusy : s.busy s.terms.currTerminal with
    | false => rfl
    | true => exact absurd (h.rd_of_busy hbusy) hrd
  cases m with
  | call ev =>
    cases ev with
    | putChar c => exact ⟨hok.1, fun hc => hidle (hok.2 hc)⟩
    | clearTerminal => exact hidle hok
    | terminalWrite | terminalRead | histCopyFrom | switchTerminals => trivial
  | start t count => trivial
  | reader t => trivial

/-! ## The line in the mailbox -/

/-- The line has been entered and not been read to the end yet. -/
structure Pending (l : Lines) (t : ℤ) (line : List UInt8) : Prop where
  rd : l.rd t = 1
  length : l.lastlinelength t = line.length
  holds : Holds (row t l.lastlinebuffer) line
  nonzero : 0 ∉ line

/-- What the mailbox of a terminal holds. -/
def Boxed (l : Lines) (t : ℤ) : Option (List UInt8) → Prop
  | none => l.rd t ≠ 1
  | some line => Pending l t line

/-- A typed line has no NUL. -/
def Clean (l : Lines) (t : ℤ) : Prop := ∃ str, Typed l t str ∧ 0 ∉ str ∧ str.length ≤ 128

theorem Boxed.congr {o : Option (List UInt8)} (h : Boxed l t o) (hfits : l.lastlinelength t ≤ 129)
    (hrd : l'.rd t = l.rd t) (hlength : l'.lastlinelength t = l.lastlinelength t)
    (hrow : ∀ i, InRow i → row t l'.lastlinebuffer i = row t l.lastlinebuffer i) :
    Boxed l' t o := by
  cases o with
  | none =>
    show l'.rd t ≠ 1
    rw [hrd]
    exact h
  | some line =>
    have hline := h.length
    refine ⟨hrd.trans h.rd, hlength.trans h.length, h.holds.congr fun i hi => hrow i ?_, h.nonzero⟩
    unfold InRow
    omega

theorem Clean.congr (h : Clean l t) (hlength : l'.linelength t = l.linelength t)
    (hrow : ∀ i, InRow i → row t l'.linebuffer i = row t l.linebuffer i) : Clean l' t := by
  obtain ⟨str, htyped, hnul, hle⟩ := h
  refine ⟨str, ⟨hlength.trans htyped.length, htyped.holds.congr fun i hi => hrow i ?_⟩, hnul, hle⟩
  unfold InRow
  omega

theorem clean_nil (h : l.linelength t = 0) : Clean l t :=
  ⟨[], ⟨h, Holds.nil _⟩, List.not_mem_nil, Nat.zero_le _⟩

/-- Quiet stores leave the last lines alone. -/
theorem store_quiet {es : List Effect} (t : ℤ) :
    ∀ {l : Lines}, (∀ e ∈ es, quiet e) → (l.store t es).rd = l.rd ∧
      (l.store t es).lastlinelength = l.lastlinelength ∧
      (l.store t es).lastlinebuffer = l.lastlinebuffer := by
  induction es with
  | nil => exact fun _ => ⟨rfl, rfl, rfl⟩
  | cons e es ih =>
    intro l hquiet
    have he := hquiet e List.mem_cons_self
    obtain ⟨hrd, hlength, hlast⟩ := @ih (e.onLines t l) fun e he =>
      hquiet e (List.mem_cons_of_mem _ he)
    cases e with
    | screen | line | cursor | linestart => exact ⟨hrd, hlength, hlast⟩
    | commit | lastlinelength | rd => exact absurd he id

/-- A key keeps the typed line free of NULs. -/
theorem Clean.key {c : UInt8} (h : Clean l t) (hc : c ≠ newLineChar)
    (hfit : TabFits c (l.linelength t)) : Clean (l.act t (newLength c) (lineStores c)) t := by
  obtain ⟨str, htyped, hnul, hle⟩ := h
  by_cases hkey : IsKey str c
  · exact ⟨edit str c, htyped.key hle hkey, zero_notMem_edit hnul hkey, length_edit_le hle hkey⟩
  · -- the key is ignored: a control character, or a tab on a full line
    have hlen := htyped.length
    unfold IsKey at hkey
    rw [not_or, not_or] at hkey
    obtain ⟨hp, hbs, htab⟩ := hkey
    have hfull : c = tab → ¬l.linelength t < bufferLimit := by
      intro htab'
      have hroom := hfit htab'
      have hlong : ¬str.length ≤ 120 := fun hle => htab ⟨htab', hle⟩
      unfold bufferLimit
      omega
    have hignored : newLength c (l.linelength t) = l.linelength t ∧
        lineStores c (l.linelength t) = [] := by
      unfold newLength lineStores
      rw [if_neg hc, if_neg hbs, if_neg hc, if_neg hbs]
      by_cases htab' : c = tab
      · simp [hfull htab']
      · simp [htab', hp]
    refine ⟨str, ⟨?_, ?_⟩, hnul, hle⟩
    · unfold Lines.act
      dsimp only
      rw [update_self, hignored.1, hlen]
    · unfold Lines.act
      rw [hignored.2]
      exact htyped.holds

/-- A key that faults leaves the length, and stores behind the line at most. -/
theorem Clean.fault (h : Clean l t) (c : UInt8) : Clean (l.act t (fun n => n) (faultStores c)) t := by
  obtain ⟨str, htyped, hnul, hle⟩ := h
  refine ⟨str, ⟨(update_self ..).trans htyped.length, ?_⟩, hnul, hle⟩
  unfold Lines.act faultStores
  split
  · show Holds (row t (update l.linebuffer (slot t (l.linelength t)) c)) str
    rw [row_update_self, htyped.length]
    exact htyped.holds.update_of_le le_rfl c
  · exact htyped.holds

/-! ## Calls -/

/-- The driver with reads of one step, and the mailboxes. -/
structure Mailed (tm : Terminals) (box : Fin 3 → Option (List UInt8)) : Prop where
  boxed : ∀ t : Fin 3, Boxed tm.lines t (box t)
  clean : ∀ t : Fin 3, Clean tm.lines t

/-- `rd` says whether there is a line in the mailbox. -/
theorem Mailed.box_eq_none (h : Mailed tm box) (hrd : tm.rd t ≠ 1) : box t = none := by
  have hboxed := h.boxed t
  cases hb : box t with
  | none => rfl
  | some line =>
    rw [hb] at hboxed
    exact absurd hboxed.rd hrd

theorem Mailed.box_eq_some (h : Mailed tm box) (hrd : tm.rd t = 1) :
    ∃ line, box t = some line ∧ Pending tm.lines t line := by
  have hboxed := h.boxed t
  cases hb : box t with
  | none =>
    rw [hb] at hboxed
    exact absurd hrd hboxed
  | some line =>
    rw [hb] at hboxed
    exact ⟨line, rfl, hboxed⟩

/-- A call for terminal `t` leaves the mailboxes of the others alone. -/
theorem Mailed.kept {is : List ℤ} {o : Option (List UInt8)} (h : Mailed tm box)
    (hbounded : tm.lines.Bounded) (hkept : Kept tm t is tm') (hboxed : Boxed tm'.lines t o)
    (hclean : Clean tm'.lines t) : Mailed tm' (update box t o) := by
  have hother : ∀ t' : Fin 3, t' ≠ t → SameLine t' tm.lines tm'.lines := by
    intro t' ht
    exact hkept.sameLine t' fun heq => ht (Fin.ext (by omega))
  constructor
  · intro t'
    by_cases ht : t' = t
    · subst ht
      rw [update_self]
      exact hboxed
    · have hline := hother t' ht
      rw [update_of_ne ht]
      exact (h.boxed t').congr (hbounded t').2.2 hline.rd hline.lastlinelength hline.lastlinebuffer
  · intro t'
    by_cases ht : t' = t
    · exact ht ▸ hclean
    · have hline := hother t' ht
      exact (h.clean t').congr hline.linelength hline.linebuffer

/-- A call that does nothing to the mailbox of its terminal either. -/
theorem Mailed.kept_box {is : List ℤ} (h : Mailed tm box) (hbounded : tm.lines.Bounded)
    (hkept : Kept tm t is tm') (hboxed : Boxed tm'.lines t (box t)) (hclean : Clean tm'.lines t) :
    Mailed tm' box := by
  rw [← update_eq_self t box]
  exact h.kept hbounded hkept hboxed hclean

/-- A function of the displayed terminal that leaves the last line alone. -/
theorem Mailed.quiet {f : Action} {len : ℤ → ℤ} {stores : ℤ → List Effect} {is : List ℤ}
    (h : Mailed tm box) (hbounded : tm.lines.Bounded) (hline : LineAction f len stores)
    (hkept : Kept tm tm.currTerminal is (tm.run tm.currTerminal f).1)
    (hquiet : ∀ e ∈ stores (tm.lines.linelength tm.currTerminal), quiet e)
    (hclean : Clean (tm.lines.act tm.currTerminal len stores) tm.currTerminal) :
    Mailed (tm.run tm.currTerminal f).1 box := by
  refine h.kept_box hbounded hkept ?_ ?_
  · obtain ⟨hrd, hlength, hlast⟩ := store_quiet (l := tm.lines) tm.currTerminal hquiet
    rw [hline.lines_run]
    refine (h.boxed tm.currTerminal).congr (hbounded _).2.2 (congrFun hrd _) (congrFun hlength _) ?_
    intro i _
    unfold Lines.act
    dsimp only
    rw [hlast]
  · rw [hline.lines_run]
    exact hclean

/-- Every key but a newline leaves the mailboxes alone, and so does one that faults. -/
theorem Mailed.press {c : UInt8} (h : Mailed tm box) (hbounded : tm.lines.Bounded)
    (hc : c ≠ newLineChar) (hfit : TabFits c (tm.vars tm.currTerminal).linelength) :
    Mailed (tm.press c).1 box := by
  have hclean := h.clean tm.currTerminal
  have hkept := Kept.press hbounded hfit
  by_cases hret : KeyReturns c (tm.vars tm.currTerminal)
  · rw [press_of_returns hret] at hkept ⊢
    exact h.quiet hbounded (putChar_line ..) hkept (lineStores_quiet hc _) (hclean.key hc hfit)
  · rw [press_of_faults hret] at hkept ⊢
    exact h.quiet hbounded (putCharFault_line c) hkept (faultStores_quiet c _) (hclean.fault c)

/-- Enter puts the typed line into the mailbox. -/
theorem Mailed.enter (h : Mailed tm box) (hbounded : tm.lines.Bounded) :
    Mailed (tm.key newLineChar) (update box tm.currTerminal
      (some (typed tm tm.currTerminal ++ [newLineChar]))) := by
  obtain ⟨str, htyped, hnul, -⟩ := h.clean tm.currTerminal
  have hlength : (tm.vars tm.currTerminal).linelength = str.length := htyped.length
  have hstr : typed tm tm.currTerminal = str := by
    unfold typed
    rw [hlength, Int.toNat_natCast]
    exact htyped.holds.map_range
  have hentered := htyped.enter
  rw [← lines_key, ← hstr] at hentered
  refine h.kept hbounded (Kept.key hbounded fun htab => absurd htab (by decide))
    ⟨hentered.rd, hentered.length, hentered.holds, ?_⟩ (clean_nil hentered.empty)
  rw [hstr, List.mem_append, List.mem_singleton]
  rintro (hz | hz)
  · exact hnul hz
  · exact absurd hz (by decide)

theorem Mailed.terminalWrite (h : Mailed tm box) (hbounded : tm.lines.Bounded)
    (bytes : List UInt8) : Mailed (tm.run t (terminalWrite t bytes)).1 box := by
  have hlines := (terminalWrite_line t bytes).lines_run tm t
  refine h.kept_box hbounded (Kept.terminalWrite hbounded t bytes) ?_ (clean_nil ?_)
  · rw [hlines]
    exact (h.boxed t).congr (hbounded t).2.2 rfl rfl fun _ _ => rfl
  · rw [hlines]
    exact update_self ..

/-- `clear_terminal` does nothing, or ends with an empty line and no last line. -/
theorem clearTerminal_cases (t : ℤ) (v : Vars) : clearTerminal t v = (v, []) ∨
    ∃ es, clearTerminal t v = ({}, es ++ [.rd 0]) := by
  unfold clearTerminal
  split
  · exact .inl rfl
  · refine .inr ⟨(List.range 2000).map (fun n : ℕ => .screen (cellOps t n asciiSpace)) ++
      (List.range 128).map (fun i : ℕ => .line i 0) ++ [.linestart 0, .lastlinelength 0], ?_⟩
    exact congrArg (Prod.mk _)
      (List.append_assoc _ [Effect.linestart 0, Effect.lastlinelength 0] [Effect.rd 0]).symm

/-- `clear_terminal` on a terminal whose mailbox is empty. -/
theorem Mailed.clearTerminal (h : Mailed tm box) (hbounded : tm.lines.Bounded)
    (hrd : tm.rd tm.currTerminal ≠ 1) :
    Mailed (tm.run tm.currTerminal (clearTerminal tm.currTerminal)).1 box := by
  have hbox := h.box_eq_none hrd
  refine h.kept_box hbounded (Kept.clearTerminal hbounded) ?_ ?_
  · rw [hbox, Terminals.lines_run]
    rcases clearTerminal_cases tm.currTerminal (tm.vars tm.currTerminal) with hclear | ⟨es, hclear⟩
    · rw [hclear]
      exact hrd
    · rw [hclear, Lines.store_append]
      show update _ (tm.currTerminal : ℤ) 0 (tm.currTerminal : ℤ) ≠ 1
      rw [update_self]
      decide
  · rw [Terminals.lines_run]
    rcases clearTerminal_cases tm.currTerminal (tm.vars tm.currTerminal) with hclear | ⟨es, hclear⟩
    · rw [hclear]
      exact (h.clean tm.currTerminal).congr (update_self ..) fun _ _ => rfl
    · rw [hclear]
      exact clean_nil (update_self ..)

theorem Mailed.switchTerminals (h : Mailed tm box) (term : Fin 3) :
    Mailed { tm with currTerminal := term } box :=
  ⟨h.boxed, h.clean⟩

/-! ## Reads -/

/-- At its end a reader has the line that was entered, as far as it fits. -/
theorem Pending.delivers (h : Pending tm.lines t line) (hcopied : Copied tm t r)
    (hstopped : Stopped tm t r) : Delivers line (r.count, r.buf) := by
  have hlength : tm.lastlinelength t = line.length := h.length
  have hle := hcopied.le_length
  have hcount := hcopied.le_count
  -- the line has no NUL, so the copy stopped at one of the two bounds
  have hend : r.buf.length = (line.take r.count.toNat).length := by
    rw [List.length_take]
    rcases hstopped with hstop | hstop | hstop
    · omega
    · omega
    · by_cases hall : r.buf.length < line.length
      · have hcell := h.holds r.buf.length hall
        exact absurd (hcell.symm.trans hstop ▸ List.getElem_mem hall) h.nonzero
      · omega
  refine List.ext_getElem hend fun i hi hi' => ?_
  rw [← hcopied.holds i hi]
  exact h.holds.take r.count.toNat i hi'

/-- The reset empties the mailbox. -/
theorem Mailed.read (h : Mailed tm box) (hbounded : tm.lines.Bounded) (hcopied : Copied tm t r)
    (hread : terminalRead tm t r.count = some (tm', r.buf)) : Mailed tm' (update box t none) := by
  have hnonneg : 0 ≤ r.count := by
    have := hcopied.le_count
    omega
  have hrd : tm.lines.rd t = 1 := hcopied.rd
  have hlines := lines_terminalRead tm t r.count
  rw [hread, Lines.read, if_neg (not_not.mpr hrd), Option.map_some, Option.some.injEq,
    Prod.mk.injEq] at hlines
  refine h.kept hbounded (Kept.terminalRead hbounded hnonneg hread) ?_ ?_
  · show tm'.lines.rd t ≠ 1
    rw [hlines.1]
    show update _ (t : ℤ) 0 (t : ℤ) ≠ 1
    rw [update_self]
    decide
  · rw [hlines.1]
    exact (h.clean t).congr rfl fun _ _ => rfl

/-! ## Runs -/

/-- The state follows a driver with reads of one step, whose lines are in the mailboxes. -/
def Delivering (s : State) (box : Fin 3 → Option (List UInt8)) : Prop :=
  ∃ tm, tm.lines.Bounded ∧ Follows s tm ∧ Mailed tm box

/-- A call, seen by the mailboxes. -/
theorem Mailed.call {ev : Event} (h : Mailed tm box) (hbounded : tm.lines.Bounded)
    (hfollows : Follows s tm) (hok : OneLine s (.call ev))
    (hstep : system.step s (.call ev) = some s') (hexec : ev.exec tm = some tm') :
    ∃ box', Mailbox.next Delivers box (observeLines s (.call ev)) = some box' ∧
      Mailed tm' box' := by
  cases ev with
  | putChar c =>
    cases hexec
    obtain ⟨hfit, hrd⟩ := hok
    rw [hfollows.vars, hfollows.currTerminal] at hfit
    by_cases hc : c = newLineChar
    · -- the line is put into the mailbox, which is empty since `rd` is not 1
      subst hc
      have hline : typed s.terms s.terms.currTerminal = typed tm tm.currTerminal := by
        unfold typed
        rw [hfollows.terms]
      have hobserve : observeLines s (.call (.putChar newLineChar))
          = some (.put tm.currTerminal (typed tm tm.currTerminal ++ [newLineChar])) := by
        show some (Mailbox.Op.put s.terms.currTerminal (_ ++ [newLineChar])) = _
        rw [hline, hfollows.currTerminal]
      have hempty : box tm.currTerminal = none := by
        rw [hfollows.rd, hfollows.currTerminal] at hrd
        exact h.box_eq_none (hrd rfl)
      rw [press_of_returns (keyReturns_of_quiet (.inl rfl) _)]
      refine ⟨_, ?_, h.enter hbounded⟩
      simp only [hobserve, Mailbox.next, hempty]
    · refine ⟨box, ?_, h.press hbounded hc hfit⟩
      simp only [observeLines, if_neg hc, Mailbox.next]
  | terminalWrite t bytes =>
    cases hexec
    exact ⟨box, rfl, h.terminalWrite hbounded bytes⟩
  | terminalRead t count => cases hstep
  | clearTerminal =>
    cases hexec
    refine ⟨box, rfl, h.clearTerminal hbounded ?_⟩
    rw [← hfollows.rd, ← hfollows.currTerminal]
    exact hok
  | histCopyFrom src => cases hstep
  | switchTerminals term =>
    cases hexec
    exact ⟨box, rfl, h.switchTerminals term⟩

/-- A statement of a reader, seen by the mailboxes. -/
theorem Mailed.reader (h : Mailed tm box) (hbounded : tm.lines.Bounded) (hfollows : Follows s tm)
    (hatomic : atomic tm (observe s (.reader t)) = some tm') (hr : s.reader t = some r) :
    ∃ box', Mailbox.next Delivers box (observeLines s (.reader t)) = some box' ∧
      Mailed tm' box' := by
  have hobserve : observe s (.reader t)
      = if r.point = .reset then some (.read t r.count r.buf) else none := by
    show (s.reader t).bind _ = _
    rw [hr, Option.bind_some]
  have hlines : observeLines s (.reader t)
      = if r.point = .reset then some (.get t (r.count, r.buf)) else none := by
    show (s.reader t).bind _ = _
    rw [hr, Option.bind_some]
  rw [hobserve] at hatomic
  rw [hlines]
  by_cases hpoint : r.point = .reset
  · have hprogress := hfollows.progress t r hr
    unfold Progress at hprogress
    rw [hpoint] at hprogress
    obtain ⟨hcopied, hstopped, -⟩ := hprogress
    obtain ⟨line, hbox, hpending⟩ := h.box_eq_some hcopied.rd
    have hread : terminalRead tm t r.count = some (tm', r.buf) := by
      rw [if_pos hpoint] at hatomic
      obtain ⟨res, hread, hbytes⟩ := Option.bind_eq_some_iff.mp hatomic
      split at hbytes
      · rw [Option.some.injEq] at hbytes
        rw [hread, ← hbytes, ← ‹res.2 = r.buf›]
      · cases hbytes
    refine ⟨_, ?_, h.read hbounded hcopied hread⟩
    simp only [if_pos hpoint, Mailbox.next, hbox, if_pos (hpending.delivers hcopied hstopped)]
  · rw [if_neg hpoint] at hatomic ⊢
    cases hatomic
    exact ⟨box, rfl, h⟩

/-- One move. -/
theorem Delivering.step {m : Move} (h : Delivering s box) (hok : OneLine s m)
    (hstep : system.step s m = some s') :
    ∃ box', Mailbox.next Delivers box (observeLines s m) = some box' ∧ Delivering s' box' := by
  obtain ⟨tm, hbounded, hfollows, hmailed⟩ := h
  obtain ⟨tm', hatomic, hbounded', hfollows'⟩ :=
    hfollows.step hbounded (hfollows.undisturbed hok) hstep
  have hmailed' : ∃ box', Mailbox.next Delivers box (observeLines s m) = some box' ∧
      Mailed tm' box' := by
    cases m with
    | call ev => exact hmailed.call hbounded hfollows hok hstep hatomic
    | start t count =>
      cases hatomic
      exact ⟨box, rfl, hmailed⟩
    | reader t =>
      obtain ⟨r, hr, -⟩ := Option.map_eq_some_iff.mp hstep
      exact hmailed.reader hbounded hfollows hatomic hr
  obtain ⟨box', hnext, hmailed'⟩ := hmailed'
  exact ⟨box', hnext, tm', hbounded', hfollows', hmailed'⟩

/-- A line that is entered while the one before it is being copied is lost: two lines go in, and the
read that returns one of them leaves none behind. -/
example :
    let moves : List Move := [.call (.putChar 0x61), .call (.putChar newLineChar), .start 0 128] ++
      List.replicate 9 (.reader 0) ++ [.call (.putChar 0x62), .call (.putChar newLineChar)] ++
      List.replicate 3 (.reader 0)
    (Mailbox.messages 0 (system.labels observeLines start moves)).length = 2 ∧
      (Mailbox.results 0 (system.labels observeLines start moves)).length = 1 ∧
      (system.run start moves).map (fun s => s.terms.rd 0) = some 0 := by
  decide

/-! ## Reads return -/

/-- At most so many statements are left to a reader, when the line has `n` bytes. -/
def Reader.left (r : Reader) (n : ℤ) : ℕ :=
  match r.point with
  | .wait => 6 * n.toNat + 5
  | .testLength => 4 * (n - r.i).toNat + 2 * n.toNat + 4
  | .testByte => 4 * (n - r.i).toNat + 2 * n.toNat + 3
  | .load => 4 * (n - r.i).toNat + 2 * n.toNat + 2
  | .zero => 4 * (n - r.i).toNat + 2 * n.toNat + 1
  | .testRest => 2 * (n - r.i).toNat + 2
  | .zeroRest => 2 * (n - r.i).toNat + 1
  | .reset => 1

theorem Reader.left_le (hprogress : Progress tm t r) (hfits : tm.lastlinelength t ≤ 129) :
    r.left (tm.lastlinelength t) ≤ 779 := by
  have hcopied := hprogress.copied
  unfold Progress at hprogress
  unfold Reader.left
  cases hp : r.point <;> rw [hp] at hprogress hcopied <;> dsimp only at hprogress ⊢
  case wait => omega
  all_goals
    have := (hcopied (by decide)).le_count
    omega

end Reading
end Terminal
end GalapagOS
