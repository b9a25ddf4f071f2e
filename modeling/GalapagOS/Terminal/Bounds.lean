import GalapagOS.Terminal.Driver

/-!
# The bounds of the line buffers

The length of a line is tested once for each key, but a tab adds eight characters. As long as every
tab fits on its line, the lengths stay within the buffers, every store is inside the row of the
terminal it is for, and no call changes the line of another terminal.
-/

namespace GalapagOS
namespace Terminal

open Function

variable {l l' : Lines} {tm tm' : Terminals} {t t' : ℤ} {c : UInt8} {f : Action} {e : Effect}
  {es : List Effect}

/-! ## Stores -/

/-- The lengths of the lines fit the buffers. -/
def Lines.Bounded (l : Lines) : Prop :=
  ∀ t : Fin 3, (0 ≤ l.linelength t ∧ l.linelength t ≤ 128) ∧
    0 ≤ l.lastlinelength t ∧ l.lastlinelength t ≤ 129

/-- The line of terminal `t`, typed and entered, is the same. -/
structure SameLine (t : ℤ) (l l' : Lines) : Prop where
  linelength : l'.linelength t = l.linelength t
  lastlinelength : l'.lastlinelength t = l.lastlinelength t
  rd : l'.rd t = l.rd t
  linebuffer : ∀ i, InRow i → row t l'.linebuffer i = row t l.linebuffer i
  lastlinebuffer : ∀ i, InRow i → row t l'.lastlinebuffer i = row t l.lastlinebuffer i

theorem SameLine.refl (t : ℤ) (l : Lines) : SameLine t l l :=
  ⟨rfl, rfl, rfl, fun _ _ => rfl, fun _ _ => rfl⟩

theorem SameLine.trans {l'' : Lines} (h : SameLine t l l') (h' : SameLine t l' l'') :
    SameLine t l l'' where
  linelength := h'.linelength.trans h.linelength
  lastlinelength := h'.lastlinelength.trans h.lastlinelength
  rd := h'.rd.trans h.rd
  linebuffer i hi := (h'.linebuffer i hi).trans (h.linebuffer i hi)
  lastlinebuffer i hi := (h'.lastlinebuffer i hi).trans (h.lastlinebuffer i hi)

/-- The index of a store to one of the buffers. -/
def Effect.storeIndex : Effect → Option ℤ
  | .line i _ | .commit i => some i
  | _ => none

/-- The store is inside its row, and a length it sets fits. -/
def Effect.InBounds : Effect → Prop
  | .line i _ | .commit i => InRow i
  | .lastlinelength n => 0 ≤ n ∧ n ≤ 129
  | _ => True

theorem Effect.InBounds.inRow {i : ℤ} (h : e.InBounds) (hi : e.storeIndex = some i) : InRow i := by
  cases e with
  | line j b =>
    cases hi
    exact h
  | commit j =>
    cases hi
    exact h
  | _ => cases hi

/-- One store inside its row leaves the other lines alone. -/
theorem Effect.InBounds.sameLine (h : e.InBounds) (ht : t' ≠ t) (l : Lines) :
    SameLine t' l (e.onLines t l) := by
  cases e with
  | line i b =>
    exact ⟨rfl, rfl, rfl, fun j hj => row_update_ne ht h hj _ _, fun _ _ => rfl⟩
  | commit i =>
    exact ⟨rfl, rfl, rfl, fun j hj => row_update_ne ht h hj _ _,
      fun j hj => row_update_ne ht h hj _ _⟩
  | lastlinelength n => exact ⟨rfl, update_of_ne ht _ _, rfl, fun _ _ => rfl, fun _ _ => rfl⟩
  | rd n => exact ⟨rfl, rfl, update_of_ne ht _ _, fun _ _ => rfl, fun _ _ => rfl⟩
  | screen | cursor | linestart => exact .refl t' l

theorem Effect.InBounds.lastlinelength (h : e.InBounds)
    (hl : 0 ≤ l.lastlinelength t' ∧ l.lastlinelength t' ≤ 129) :
    0 ≤ (e.onLines t l).lastlinelength t' ∧ (e.onLines t l).lastlinelength t' ≤ 129 := by
  cases e with
  | lastlinelength n =>
    show 0 ≤ update l.lastlinelength t n t' ∧ update l.lastlinelength t n t' ≤ 129
    rw [update_apply]
    split
    · exact h
    · exact hl
  | _ => exact hl

theorem Lines.store_sameLine (hes : ∀ e ∈ es, e.InBounds) (ht : t' ≠ t) :
    ∀ l : Lines, SameLine t' l (l.store t es) := by
  induction es with
  | nil => exact SameLine.refl t'
  | cons e es ih =>
    intro l
    have hrest := ih (fun e he => hes e (List.mem_cons_of_mem _ he)) (e.onLines t l)
    exact ((hes e List.mem_cons_self).sameLine ht l).trans hrest

theorem Lines.store_lastlinelength (hes : ∀ e ∈ es, e.InBounds) :
    ∀ l : Lines, 0 ≤ l.lastlinelength t' ∧ l.lastlinelength t' ≤ 129 →
      0 ≤ (l.store t es).lastlinelength t' ∧ (l.store t es).lastlinelength t' ≤ 129 := by
  induction es with
  | nil => exact fun _ h => h
  | cons e es ih =>
    intro l h
    exact ih (fun e he => hes e (List.mem_cons_of_mem _ he)) (e.onLines t l)
      ((hes e List.mem_cons_self).lastlinelength h)

/-- A driver function whose stores are in bounds leaves the other lines alone. -/
theorem sameLine_run (hes : ∀ e ∈ (f (tm.vars t)).2, e.InBounds) (ht : t' ≠ t) :
    SameLine t' tm.lines (tm.run t f).1.lines := by
  rw [Terminals.lines_run]
  have hstore := Lines.store_sameLine hes ht tm.lines
  exact ⟨update_of_ne ht _ _, hstore.lastlinelength, hstore.rd, hstore.linebuffer,
    hstore.lastlinebuffer⟩

/-- It keeps the bounds, if the new length is in bounds too. -/
theorem Lines.Bounded.run (h : tm.lines.Bounded) (hes : ∀ e ∈ (f (tm.vars t)).2, e.InBounds)
    (hlen : 0 ≤ (f (tm.vars t)).1.linelength ∧ (f (tm.vars t)).1.linelength ≤ 128) :
    (tm.run t f).1.lines.Bounded := by
  rw [Terminals.lines_run]
  intro t'
  refine ⟨?_, Lines.store_lastlinelength hes tm.lines (h t').2⟩
  show 0 ≤ update tm.lines.linelength t _ t' ∧ update tm.lines.linelength t _ t' ≤ 128
  rw [update_apply]
  split
  · exact hlen
  · exact (h t').1

theorem LineAction.inBounds {len : ℤ → ℤ} {stores : ℤ → List Effect} (h : LineAction f len stores)
    {v : Vars} (hstores : ∀ e ∈ stores v.linelength, e.InBounds) : ∀ e ∈ (f v).2, e.InBounds := by
  rw [← h.stores] at hstores
  intro e he
  cases hline : e.isLine with
  | true => exact hstores e (List.mem_filter.mpr ⟨he, hline⟩)
  | false =>
    cases e with
    | screen | cursor | linestart => trivial
    | _ => cases hline

/-! ## Keys -/

/-- A tab fits on the line, or the line is full. -/
def TabFits (c : UInt8) (n : ℤ) : Prop := c = tab → n ≤ 120 ∨ 128 ≤ n

theorem newLength_bounds {n : ℤ} (hn : 0 ≤ n ∧ n ≤ 128) (hfit : TabFits c n) :
    0 ≤ newLength c n ∧ newLength c n ≤ 128 := by
  unfold newLength bufferLimit
  split
  · omega
  · split
    · split <;> omega
    · split
      · split
        · -- a tab is tested like one character, but adds eight
          rename_i htab
          have := hfit htab
          omega
        · split <;> omega
      · exact hn

theorem enterStores_inBounds {n : ℤ} (hn : 0 ≤ n ∧ n ≤ 128) : ∀ e ∈ enterStores c n, e.InBounds := by
  intro e he
  rcases List.mem_append.mp he with he | he
  · rcases List.mem_append.mp he with he | he
    · simp only [List.mem_cons, List.not_mem_nil, or_false] at he
      rcases he with rfl | rfl
      · exact hn
      · show 0 ≤ n + 1 ∧ n + 1 ≤ 129
        omega
    · obtain ⟨j, hj, rfl⟩ := List.mem_map.mp he
      rw [List.mem_range] at hj
      show 0 ≤ (j : ℤ) ∧ (j : ℤ) ≤ 128
      omega
  · rw [List.mem_singleton.mp he]
    trivial

theorem lineStores_inBounds {n : ℤ} (hn : 0 ≤ n ∧ n ≤ 128) (hfit : TabFits c n) :
    ∀ e ∈ lineStores c n, e.InBounds := by
  unfold lineStores bufferLimit
  split
  · exact enterStores_inBounds hn
  · split
    · -- a backspace
      intro e he
      rw [List.mem_singleton.mp he]
      show 0 ≤ (if 0 < n then n - 1 else n) ∧ (if 0 < n then n - 1 else n) ≤ 128
      split <;> omega
    · split
      · split
        · -- a tab
          rename_i htab
          have hle := hfit htab
          intro e he
          obtain ⟨j, hj, rfl⟩ := List.mem_map.mp he
          rw [List.mem_range] at hj
          show 0 ≤ n + (j : ℤ) ∧ n + (j : ℤ) ≤ 128
          omega
        · split
          · intro e he
            rw [List.mem_singleton.mp he]
            exact hn
          · exact fun e he => absurd he List.not_mem_nil
      · exact fun e he => absurd he List.not_mem_nil

theorem faultStores_inBounds {n : ℤ} (hn : 0 ≤ n ∧ n ≤ 128) : ∀ e ∈ faultStores c n, e.InBounds := by
  unfold faultStores
  split
  · intro e he
    rw [List.mem_singleton.mp he]
    exact hn
  · exact fun e he => absurd he List.not_mem_nil

/-! ## Calls -/

/-- A call for terminal `t` that stores to the indices `is`: the lengths are within the buffers
afterwards, the stores are inside the row, and the other terminals keep their lines. -/
structure Kept (tm : Terminals) (t : ℤ) (is : List ℤ) (tm' : Terminals) : Prop where
  bounded : tm'.lines.Bounded
  inRow : ∀ i ∈ is, InRow i
  sameLine : ∀ t', t' ≠ t → SameLine t' tm.lines tm'.lines

/-- The indices in the buffers that some stores go to. -/
def storeIndices (es : List Effect) : List ℤ := es.filterMap Effect.storeIndex

theorem Kept.run (h : tm.lines.Bounded) (hes : ∀ e ∈ (f (tm.vars t)).2, e.InBounds)
    (hlen : 0 ≤ (f (tm.vars t)).1.linelength ∧ (f (tm.vars t)).1.linelength ≤ 128) :
    Kept tm t (storeIndices (f (tm.vars t)).2) (tm.run t f).1 where
  bounded := h.run hes hlen
  inRow i hi := by
    obtain ⟨e, he, hei⟩ := List.mem_filterMap.mp hi
    exact (hes e he).inRow hei
  sameLine _ ht := sameLine_run hes ht

/-- The indices that a key stores to, if it does not fault. -/
def Terminals.keyIndices (tm : Terminals) (c : UInt8) : List ℤ :=
  storeIndices (putChar tm.currTerminal c (tm.vars tm.currTerminal)).2

theorem Kept.key (h : tm.lines.Bounded)
    (hfit : TabFits c (tm.vars tm.currTerminal).linelength) :
    Kept tm tm.currTerminal (tm.keyIndices c) (tm.key c) := by
  have hline := putChar_line tm.currTerminal c
  have hn := (h tm.currTerminal).1
  refine Kept.run h (hline.inBounds (lineStores_inBounds hn hfit)) ?_
  rw [hline.length]
  exact newLength_bounds hn hfit

/-- The indices that a key stores to. -/
def Terminals.pressIndices (tm : Terminals) (c : UInt8) : List ℤ :=
  if KeyReturns c (tm.vars tm.currTerminal) then tm.keyIndices c
  else storeIndices (putCharFault c (tm.vars tm.currTerminal)).2

theorem Kept.press (h : tm.lines.Bounded)
    (hfit : TabFits c (tm.vars tm.currTerminal).linelength) :
    Kept tm tm.currTerminal (tm.pressIndices c) (tm.press c).1 := by
  unfold Terminals.pressIndices Terminals.press
  split
  · exact Kept.key h hfit
  · have hline := putCharFault_line c
    have hn := (h tm.currTerminal).1
    refine Kept.run h (hline.inBounds (faultStores_inBounds hn)) ?_
    rw [hline.length]
    exact hn

/-- The indices that some keys store to, up to one that faults. -/
def Terminals.pressesIndices : Terminals → List UInt8 → List ℤ
  | _, [] => []
  | tm, c :: cs =>
    tm.pressIndices c ++ if (tm.press c).2 = true then (tm.press c).1.pressesIndices cs else []

/-- Every tab among some keys fits on the line where it is typed. -/
def TabsFit : Terminals → List UInt8 → Prop
  | _, [] => True
  | tm, c :: cs => TabFits c (tm.vars tm.currTerminal).linelength ∧
    ((tm.press c).2 = true → TabsFit (tm.press c).1 cs)

theorem Kept.presses {cs : List UInt8} : ∀ {tm : Terminals}, tm.lines.Bounded → TabsFit tm cs →
    Kept tm tm.currTerminal (tm.pressesIndices cs) (tm.presses cs).1 := by
  induction cs with
  | nil => exact fun h _ => ⟨h, fun i hi => absurd hi List.not_mem_nil, fun t' _ => .refl t' _⟩
  | cons c cs ih =>
    intro tm h hfit
    have hkey := Kept.press h hfit.1
    rw [Terminals.pressesIndices, Terminals.presses]
    split
    · rename_i hreturns
      have hrest := ih hkey.bounded (hfit.2 hreturns)
      rw [currTerminal_press] at hrest
      refine ⟨hrest.bounded, fun i hi => ?_, fun t' ht => (hkey.sameLine t' ht).trans
        (hrest.sameLine t' ht)⟩
      rcases List.mem_append.mp hi with hi | hi
      · exact hkey.inRow i hi
      · exact hrest.inRow i hi
    · rw [List.append_nil]
      exact hkey

theorem Kept.terminalWrite (h : tm.lines.Bounded) (t : ℤ) (bytes : List UInt8) :
    Kept tm t (storeIndices (terminalWrite t bytes (tm.vars t)).2)
      (tm.run t (Terminal.terminalWrite t bytes)).1 := by
  have hline := terminalWrite_line t bytes
  refine Kept.run h (hline.inBounds fun e he => absurd he List.not_mem_nil) ?_
  rw [hline.length]
  omega

theorem clearTerminal_inBounds (t : ℤ) (v : Vars) : ∀ e ∈ (clearTerminal t v).2, e.InBounds := by
  intro e he
  unfold clearTerminal at he
  split at he
  · exact absurd he List.not_mem_nil
  · rcases List.mem_append.mp he with he | he
    · rcases List.mem_append.mp he with he | he
      · obtain ⟨n, -, rfl⟩ := List.mem_map.mp he
        trivial
      · obtain ⟨i, hi, rfl⟩ := List.mem_map.mp he
        rw [List.mem_range] at hi
        show 0 ≤ (i : ℤ) ∧ (i : ℤ) ≤ 128
        omega
    · simp only [List.mem_cons, List.not_mem_nil, or_false] at he
      rcases he with rfl | rfl | rfl
      · trivial
      · show (0 : ℤ) ≤ 0 ∧ (0 : ℤ) ≤ 129
        omega
      · trivial

theorem Kept.clearTerminal (h : tm.lines.Bounded) :
    Kept tm tm.currTerminal
      (storeIndices (clearTerminal tm.currTerminal (tm.vars tm.currTerminal)).2)
      (tm.run tm.currTerminal (Terminal.clearTerminal tm.currTerminal)).1 := by
  refine Kept.run h (clearTerminal_inBounds _ _) ?_
  unfold Terminal.clearTerminal
  split
  · exact (h tm.currTerminal).1
  · show (0 : ℤ) ≤ 0 ∧ (0 : ℤ) ≤ 128
    omega

theorem row_wipe {is : List ℤ} (ht : t' ≠ t) (his : ∀ i ∈ is, InRow i) {j : ℤ} (hj : InRow j) :
    ∀ buf : ℤ → UInt8, row t' (wipe t buf is) j = row t' buf j := by
  induction is with
  | nil => exact fun _ => rfl
  | cons i is ih =>
    intro buf
    have hrest := ih (fun i hi => his i (List.mem_cons_of_mem _ hi)) (update buf (slot t i) 0)
    exact hrest.trans (row_update_ne ht (his i List.mem_cons_self) hj buf 0)

theorem readIndices_inRow {count : ℤ} (hlast : l.lastlinelength t ≤ 129) (hcount : 0 ≤ count) :
    ∀ i ∈ l.readIndices t count, InRow i := by
  intro i hi
  unfold InRow
  -- the bytes that are delivered, and those that are dropped
  rcases List.mem_append.mp hi with hi | hi
  · have := mem_copyIndices hi
    omega
  · obtain ⟨j, hj, rfl⟩ := List.mem_map.mp hi
    rw [List.mem_range] at hj
    omega

theorem Kept.terminalRead {t : Fin 3} {count : ℤ} {bytes : List UInt8} (h : tm.lines.Bounded)
    (hcount : 0 ≤ count) (hread : terminalRead tm t count = some (tm', bytes)) :
    Kept tm t (tm.lines.readIndices t count) tm' := by
  have his := readIndices_inRow (h t).2.2 hcount
  have hlines := lines_terminalRead tm t count
  rw [hread, Lines.read] at hlines
  split at hlines
  · cases hlines
  · have hl : tm'.lines = _ := congrArg Prod.fst (Option.some.inj hlines)
    refine ⟨fun t' => ?_, his, fun t' ht => ?_⟩ <;> rw [hl]
    · refine ⟨(h t').1, ?_⟩
      show 0 ≤ update tm.lines.lastlinelength t 0 t' ∧ update tm.lines.lastlinelength t 0 t' ≤ 129
      rw [update_apply]
      split
      · omega
      · exact (h t').2
    · exact ⟨rfl, update_of_ne ht _ _, update_of_ne ht _ _, fun _ _ => rfl,
        fun j hj => row_wipe ht his hj _⟩

/-! ## Runs -/

/-- The terminal whose line a call works on. -/
def Event.terminal (tm : Terminals) : Event → Fin 3
  | .terminalWrite t _ => t
  | .terminalRead t _ => t
  | _ => tm.currTerminal

/-- The indices of all stores that a call makes to `linebuffer[t]` and `lastlinebuffer[t]`. -/
def Event.indices (tm : Terminals) : Event → List ℤ
  | .putChar c => tm.pressIndices c
  | .terminalWrite t bytes => storeIndices (Terminal.terminalWrite t bytes (tm.vars t)).2
  | .terminalRead t count => if count < 0 then [] else tm.lines.readIndices t count
  | .clearTerminal =>
    storeIndices (Terminal.clearTerminal tm.currTerminal (tm.vars tm.currTerminal)).2
  | .histCopyFrom src => tm.pressesIndices (histKeys src)
  | .switchTerminals _ => []

/-- Every tab, typed or copied from the history, fits on its line or finds it full. -/
def TabOk (tm : Terminals) : Event → Prop
  | .putChar c => TabsFit tm [c]
  | .histCopyFrom src => TabsFit tm (histKeys src)
  | _ => True

theorem Kept.unchanged (h : tm.lines.Bounded) (hlines : tm'.lines = tm.lines) (t : ℤ) :
    Kept tm t [] tm' := by
  refine ⟨?_, fun i hi => absurd hi List.not_mem_nil, fun t' _ => ?_⟩ <;> rw [hlines]
  · exact h
  · exact .refl t' _

/-- One call. -/
theorem Lines.Bounded.exec {e : Event} (h : tm.lines.Bounded) (hok : TabOk tm e)
    (he : e.exec tm = some tm') : Kept tm (e.terminal tm) (e.indices tm) tm' := by
  cases e with
  | putChar c =>
    cases he
    exact Kept.press h hok.1
  | terminalWrite t bytes =>
    cases he
    exact Kept.terminalWrite h t bytes
  | terminalRead t count =>
    -- a negative count returns before anything is stored
    by_cases hneg : count < 0
    · rw [Event.exec, if_pos hneg] at he
      cases he
      rw [Event.indices, if_pos hneg]
      exact Kept.unchanged h rfl _
    · rw [Event.exec, if_neg hneg] at he
      obtain ⟨⟨tm₁, bytes⟩, hread, rfl⟩ := Option.map_eq_some_iff.mp he
      rw [Event.indices, if_neg hneg]
      exact Kept.terminalRead h (not_lt.mp hneg) hread
  | clearTerminal =>
    cases he
    exact Kept.clearTerminal h
  | histCopyFrom src =>
    cases he
    exact Kept.presses h hok
  | switchTerminals term =>
    cases he
    refine Kept.unchanged h ?_ _
    rfl

theorem terminalOpen_bounded : terminalOpen.lines.Bounded := by
  intro t
  show ((0 : ℤ) ≤ 0 ∧ (0 : ℤ) ≤ 128) ∧ (0 : ℤ) ≤ 0 ∧ (0 : ℤ) ≤ 129
  omega

theorem Reach.bounded (h : Run.Reach system TabOk tm) : tm.lines.Bounded := by
  refine h.invariant (I := fun tm => tm.lines.Bounded) ?_ ?_
  · intro tm htm
    rw [htm]
    exact terminalOpen_bounded
  · intro tm e tm' h hok hstep
    exact (h.exec hok hstep).bounded

/-- The lengths stay within the buffers, every store is inside its row, and a call for one terminal
leaves the lines of the others alone. -/
theorem lines_in_bounds (h : Run.Reach system TabOk tm) :
    (∀ t : Fin 3, (0 ≤ (tm.vars t).linelength ∧ (tm.vars t).linelength ≤ 128) ∧
      0 ≤ tm.lastlinelength t ∧ tm.lastlinelength t ≤ 129) ∧
    ∀ (e : Event) (tm' : Terminals), TabOk tm e → system.step tm e = some tm' →
      (∀ i ∈ e.indices tm, 0 ≤ i ∧ i ≤ 128) ∧
      ∀ t : Fin 3, t ≠ e.terminal tm → SameLine t tm.lines tm'.lines := by
  have hbounded := Reach.bounded h
  refine ⟨hbounded, fun e tm' hok hstep => ?_⟩
  have hkept := hbounded.exec hok hstep
  refine ⟨hkept.inRow, fun t ht => hkept.sameLine t fun he => ht ?_⟩
  omega

theorem allowed_putChar {cs : List UInt8} :
    ∀ {tm : Terminals}, KeysReturn tm cs → TabsFit tm cs →
      system.Allowed TabOk tm (cs.map .putChar) := by
  induction cs with
  | nil => exact fun _ _ => trivial
  | cons c cs ih =>
    intro tm hret h
    have hrest := h.2
    rw [press_of_returns hret.1] at hrest
    refine ⟨⟨h.1, fun _ => trivial⟩, fun tm' hstep => ?_⟩
    rw [show system.step tm (.putChar c) = _ from exec_putChar hret.1] at hstep
    cases hstep
    exact ih hret.2 (hrest rfl)

/-- A newline after a letter and a tab. -/
theorem lines_in_bounds_tab :
    (∀ t : Fin 3, ((terminalOpen.keys [0x61, tab]).vars t).linelength ≤ 128) ∧
      ∀ i ∈ (Event.putChar newLineChar).indices (terminalOpen.keys [0x61, tab]),
        0 ≤ i ∧ i ≤ 128 := by
  have hret : KeysReturn terminalOpen [0x61, tab] := by decide
  have hfit : TabsFit terminalOpen [0x61, tab] :=
    ⟨fun h => absurd h (by decide), fun _ => ⟨fun _ => .inl (by decide), fun _ => trivial⟩⟩
  have hreach : Run.Reach system TabOk (terminalOpen.keys [0x61, tab]) :=
    (Run.Reach.init rfl).run (allowed_putChar hret hfit) (run_putChar hret)
  obtain ⟨hlengths, hcalls⟩ := lines_in_bounds hreach
  have hok : TabOk (terminalOpen.keys [0x61, tab]) (.putChar newLineChar) :=
    ⟨fun h => absurd h newLineChar_kind.2.1, fun _ => trivial⟩
  exact ⟨fun t => (hlengths t).1.2, (hcalls (.putChar newLineChar) _ hok rfl).1⟩

theorem storeIndices_lineEffects (es : List Effect) :
    storeIndices (lineEffects es) = storeIndices es := by
  induction es with
  | nil => rfl
  | cons e es ih =>
    cases e with
    | line i b => exact congrArg (i :: ·) ih
    | commit i => exact congrArg (i :: ·) ih
    | _ => exact ih

theorem keyIndices_eq (tm : Terminals) (c : UInt8) :
    tm.keyIndices c = storeIndices (lineStores c (tm.vars tm.currTerminal).linelength) := by
  rw [← (putChar_line tm.currTerminal c).stores, storeIndices_lineEffects]
  rfl

/-- A tab on a line of terminal 0 that has 127 characters. -/
theorem tab_at_end (hcurr : tm.currTerminal = 0) (hlen : (tm.vars 0).linelength = 127) :
    134 ∈ tm.keyIndices tab ∧ ((tm.key tab).vars 0).linelength = 135 ∧
      (tm.key tab).linebuffer (slot 1 0) = asciiSpace := by
  have hlen' : tm.lines.linelength 0 = 127 := hlen
  have hlines := lines_key tm tab
  rw [hcurr, Lines.act] at hlines
  refine ⟨?_, ?_, ?_⟩
  · rw [keyIndices_eq, hcurr]
    show 134 ∈ storeIndices (lineStores tab (tm.vars 0).linelength)
    rw [hlen]
    decide
  · show (tm.key tab).lines.linelength 0 = 135
    rw [hlines]
    show update tm.lines.linelength 0 (newLength tab (tm.lines.linelength 0)) 0 = 135
    rw [update_self, hlen']
    rfl
  · show (tm.key tab).lines.linebuffer (slot 1 0) = asciiSpace
    rw [hlines]
    show (tm.lines.store 0 (lineStores tab (tm.lines.linelength 0))).linebuffer (slot 1 0) = _
    rw [hlen']
    rfl

/-- A line of 127 letters. -/
def longLine : List UInt8 := List.replicate 127 0x61

theorem longLine_typed : Typed (terminalOpen.keys longLine).lines 0 longLine := by
  have hopen : Typed terminalOpen.lines terminalOpen.currTerminal [] := ⟨rfl, Buffer.Holds.nil _⟩
  have hkeys : AreKeys [] longLine := by decide +kernel
  have hline : longLine.foldl edit [] = longLine := by decide +kernel
  have htyped := hopen.keys (Nat.zero_le _) hkeys
  rw [hline] at htyped
  exact htyped

theorem tabsFit_of_forall_ne {cs : List UInt8} (h : ∀ c ∈ cs, c ≠ tab) :
    ∀ tm : Terminals, TabsFit tm cs := by
  induction cs with
  | nil => exact fun _ => trivial
  | cons c cs ih =>
    intro tm
    exact ⟨fun he => absurd he (h c List.mem_cons_self),
      fun _ => ih (fun c hc => h c (List.mem_cons_of_mem _ hc)) _⟩

/-- A tab after 127 letters runs over the end of the row, into the line of terminal 1. -/
theorem tab_overflows :
    ∃ tm tm', Run.Reach system Run.Free tm ∧ tm.currTerminal = 0 ∧
      system.step tm (.putChar tab) = some tm' ∧ 134 ∈ (Event.putChar tab).indices tm ∧
      (tm'.vars 0).linelength = 135 ∧ tm.linebuffer (slot 1 0) = 0 ∧
      tm'.linebuffer (slot 1 0) = asciiSpace := by
  have hcurr : (terminalOpen.keys longLine).currTerminal = 0 := currTerminal_keys _ terminalOpen
  have htyped := longLine_typed
  have hret : KeysReturn terminalOpen longLine := by decide +kernel
  have hreach : Run.Reach system Run.Free (terminalOpen.keys longLine) :=
    (Run.Reach.init rfl).run (system.allowed_free _ _) (run_putChar hret)
  have hletters : ∀ c ∈ longLine, c ≠ tab := by
    intro c hc
    rw [List.eq_of_mem_replicate hc]
    decide
  have hkept := Kept.presses terminalOpen_bounded (tabsFit_of_forall_ne hletters terminalOpen)
  rw [presses_of_returns hret] at hkept
  -- the letters are not evaluated any further
  generalize terminalOpen.keys longLine = tm at hcurr htyped hreach hkept
  have hlen : (tm.vars 0).linelength = 127 := by
    refine htyped.length.trans ?_
    rw [longLine, List.length_replicate]
    rfl
  have hother : tm.linebuffer (slot 1 0) = 0 :=
    (hkept.sameLine 1 (by decide)).linebuffer 0 (by unfold InRow; omega)
  obtain ⟨hindex, hlong, hspace⟩ := tab_at_end hcurr hlen
  have htab : KeyReturns tab (tm.vars tm.currTerminal) := keyReturns_of_quiet (.inr (.inr rfl)) _
  refine ⟨tm, tm.key tab, hreach, hcurr, exec_putChar htab, ?_, hlong, hother, hspace⟩
  show 134 ∈ tm.pressIndices tab
  rw [Terminals.pressIndices, if_pos htab]
  exact hindex

end Terminal
end GalapagOS
