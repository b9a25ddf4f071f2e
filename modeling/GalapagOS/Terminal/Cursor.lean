import GalapagOS.Terminal.Lines
import Mathlib.Order.Interval.Set.Defs

/-!
# The cursor and the video page

The cursor may stand left of the first column: a backspace steps back over the start of a row. The
driver draws inside the video page as long as the cell at the cursor is on the page (`OnScreen`),
and every driver function keeps this, except a backspace at the first cell of the screen.
-/

namespace GalapagOS
namespace Terminal

open Memory Function

variable {tm : Terminals} {t : ℤ} {c : UInt8} {v : Vars} {f g : Action}

/-! ## Drawing inside the page -/

/-- Some stores draw in the first `n` bytes of the video page. -/
def DrawBelow (n : ℕ) (es : List Effect) : Prop := ∀ op ∈ screenOps es, op.Within (Set.Iio n)

theorem DrawBelow.append {n : ℕ} {es es' : List Effect} (h : DrawBelow n es)
    (h' : DrawBelow n es') : DrawBelow n (es ++ es') := by
  intro op hop
  rw [screenOps, List.flatMap_append] at hop
  rcases List.mem_append.mp hop with hop | hop
  · exact h op hop
  · exact h' op hop

/-- No accesses to the screen. -/
theorem drawBelow_of_nil {n : ℕ} {es : List Effect} (h : screenOps es = []) : DrawBelow n es := by
  intro op hop
  rw [h] at hop
  exact absurd hop List.not_mem_nil

/-- Some stores draw inside the video page. -/
abbrev InVideoPage : List Effect → Prop := DrawBelow 4096

/-! ## Rules for the driver functions -/

/-- From variables that meet `P`, the function makes stores that meet `E` and leads to `Q`. -/
def Meets (E : List Effect → Prop) (P : Vars → Prop) (f : Action) (Q : Vars → Prop) : Prop :=
  ∀ v, P v → Q (f v).1 ∧ E (f v).2

/-- From variables that meet `P`, the function draws inside the page and leads to `Q`. -/
def Draws (P : Vars → Prop) (f : Action) (Q : Vars → Prop) : Prop :=
  ∀ v, P v → Q (f v).1 ∧ InVideoPage (f v).2

section Rules

variable {E : List Effect → Prop} {P Q R : Vars → Prop}

theorem Meets.seq (happend : ∀ es es', E es → E es' → E (es ++ es')) (hf : Meets E P f Q)
    (hg : Meets E Q g R) : Meets E P (f.seq g) R := by
  intro v hv
  obtain ⟨hQ, hE⟩ := hf v hv
  obtain ⟨hR, hE'⟩ := hg _ hQ
  exact ⟨hR, happend _ _ hE hE'⟩

theorem Meets.when (hnil : E []) {cond : Vars → Prop} [DecidablePred cond]
    (hf : Meets E (fun v => P v ∧ cond v) f Q) (hskip : ∀ v, P v → ¬cond v → Q v) :
    Meets E P (Action.when cond f) Q := by
  intro v hv
  unfold Action.when
  split
  · rename_i hcond
    exact hf v ⟨hv, hcond⟩
  · rename_i hcond
    exact ⟨hskip v hv hcond, hnil⟩

theorem Draws.seq (hf : Draws P f Q) (hg : Draws Q g R) : Draws P (f.seq g) R :=
  Meets.seq (fun _ _ => DrawBelow.append) hf hg

theorem Draws.when {cond : Vars → Prop} [DecidablePred cond]
    (hf : Draws (fun v => P v ∧ cond v) f Q) (hskip : ∀ v, P v → ¬cond v → Q v) :
    Draws P (Action.when cond f) Q :=
  Meets.when (drawBelow_of_nil rfl) hf hskip

end Rules

/-! ## Cells and rows -/

/-- The cells of the page. -/
def OnPage (idx : ℤ) : Prop := 0 ≤ idx ∧ idx < 2048

section Cells

variable {n : ℕ} {idx : ℤ} (hidx : 0 ≤ idx ∧ 2 * idx + 2 ≤ n)

include hidx in
theorem cellOffset_lt : cellOffset idx + 1 < n := by
  unfold cellOffset
  omega

include hidx in
theorem cellOps_below (t : ℤ) (c : UInt8) : DrawBelow n [.screen (cellOps t idx c)] := by
  have hlt := cellOffset_lt hidx
  intro op hop
  rw [screenOps, List.flatMap_singleton, cellOps, List.mem_append, List.mem_cons,
    Option.mem_toList, Option.map_eq_some_iff, List.mem_singleton] at hop
  rcases hop with (rfl | ⟨_, -, rfl⟩) | rfl
  · exact write_within (show cellOffset idx < n by omega)
  · exact hlt
  · exact hlt

include hidx in
theorem blankOps_below (t : ℤ) : DrawBelow n [.screen (blankOps t idx)] := by
  have hlt := cellOffset_lt hidx
  intro op hop
  rw [screenOps, List.flatMap_singleton, blankOps, List.mem_singleton] at hop
  rw [hop]
  intro j hj
  show cellOffset idx + j < n
  rw [List.length_cons, List.length_singleton] at hj
  omega

end Cells

theorem cellOps_onPage {idx : ℤ} (h : OnPage idx) (t : ℤ) (c : UInt8) :
    InVideoPage [.screen (cellOps t idx c)] := by
  unfold OnPage at h
  exact cellOps_below (show 0 ≤ idx ∧ 2 * idx + 2 ≤ (4096 : ℕ) by omega) t c

/-- Scrolling by one or two rows. -/
theorem scrollOps_below {n : ℕ} (hn : 4000 ≤ n) {i : ℤ} (h : i = 1 ∨ i = 2) (t : ℤ) :
    DrawBelow n [.screen (scrollOps t i)] := by
  have hsrc : (i * width * 2 % 2 ^ 32).toNat + ((height - i) * width * 2 % 2 ^ 32).toNat ≤ 4000 := by
    rcases h with rfl | rfl <;> decide
  have hdst : (2 * (height - i) * width % 2 ^ 32).toNat + 160 ≤ 4000 := by
    rcases h with rfl | rfl <;> decide
  intro op hop
  rw [screenOps, List.flatMap_singleton, scrollOps, List.mem_append] at hop
  generalize (i * width * 2 % 2 ^ 32).toNat = src at hop hsrc
  generalize ((height - i) * width * 2 % 2 ^ 32).toNat = len at hop hsrc
  generalize (2 * (height - i) * width % 2 ^ 32).toNat = dst at hop hdst
  rcases hop with hop | hop
  · refine memcpy_within (fun j hj => ?_) op hop
    rw [Set.mem_Iio, Set.mem_Iio]
    omega
  · refine memsetWord_within (fun j hj => ?_) op hop
    rw [Set.mem_Iio]
    omega

/-- Handing over a line touches no cell. -/
theorem screenOps_enterLine (c : UInt8) (v : Vars) : screenOps (enterLine c v).2 = [] := by
  have hcommits : ∀ n : ℕ, screenOps ((List.range n).map fun j : ℕ => Effect.commit j) = [] := by
    intro n
    rw [screenOps, List.flatMap_map]
    exact List.flatMap_eq_nil_iff.mpr fun _ _ => rfl
  unfold enterLine
  dsimp only
  rw [screenOps, List.flatMap_append, List.flatMap_append]
  exact congrArg ([] ++ · ++ []) (hcommits _)

/-! ## The cursor -/

/-- The cursor is on the screen or up to `n` rows below it, and there next to the first column. -/
def Below (n : ℤ) (v : Vars) : Prop :=
  v.currX ≤ 80 ∧ 0 ≤ v.currY ∧ v.currY ≤ 24 + n ∧ 0 ≤ index v.currX v.currY ∧
    (24 < v.currY → -1 ≤ v.currX ∧ v.currX ≤ 1)

/-- The cell at the cursor is on the screen, or the cursor is right behind the last column. -/
def OnScreen (v : Vars) : Prop := Below 0 v

instance : DecidablePred OnScreen := fun v => by
  unfold OnScreen Below
  infer_instance

/-- The cursor where the next character goes, after the start of a new row. -/
def Wrapped (v : Vars) : Prop :=
  v.currX ≤ 79 ∧ 0 ≤ v.currY ∧ v.currY ≤ 25 ∧ 0 ≤ index v.currX v.currY ∧
    (24 < v.currY → v.currX = 0)

/-- A backspace that takes a character off the line finds a cell before the cursor. -/
def BackspaceFits (c : UInt8) (v : Vars) : Prop :=
  c = backspace → 0 < v.linelength → 0 < index v.currX v.currY

instance (c : UInt8) (v : Vars) : Decidable (BackspaceFits c v) :=
  inferInstanceAs (Decidable (_ → _ → _))

theorem OnScreen.onPage (h : OnScreen v) : OnPage (index v.currX v.currY) := by
  unfold OnScreen Below at h
  unfold OnPage index width at *
  omega

theorem scrollLine_draws (t : ℤ) :
    Draws (fun v => Below 2 v ∧ height ≤ v.currY) (scrollLine t) OnScreen := by
  intro v hv
  unfold Below height at hv
  refine ⟨?_, DrawBelow.append (scrollOps_below (by decide) ?_ t)
    (drawBelow_of_nil rfl)⟩
  · unfold OnScreen Below scrollLine index width height
    dsimp only
    omega
  · unfold height
    omega

/-- The rows below the screen are scrolled in. -/
theorem scroll_draws (t : ℤ) :
    Draws (Below 2) (Action.when (fun v => height ≤ v.currY) (scrollLine t)) OnScreen := by
  refine (scrollLine_draws t).when fun v hv hlt => ?_
  unfold Below height at *
  unfold OnScreen Below
  omega

/-! ## Keys -/

/-- The cursor after the tab of `put_char`: it may be past the last column. -/
def AfterTab (c : UInt8) (v : Vars) : Prop :=
  v.currX ≤ 88 ∧ 0 ≤ v.currY ∧ v.currY ≤ 24 ∧ 0 ≤ index v.currX v.currY ∧ BackspaceFits c v

/-- The cursor before the backspace branch. -/
def BeforeErase (c : UInt8) (v : Vars) : Prop :=
  Below 1 v ∧ (c = backspace → 24 < v.currY → v.currX = 0) ∧ BackspaceFits c v

theorem typeTab_draws (c : UInt8) :
    Draws (fun v => OnScreen v ∧ BackspaceFits c v) (Action.when (fun _ => c = tab) typeTab)
      (AfterTab c) := by
  refine Draws.when (fun v hv => ⟨?_, drawBelow_of_nil rfl⟩) fun v hv _ => ?_
  · obtain ⟨⟨hv, -⟩, htab⟩ := hv
    have hfits : BackspaceFits c (typeTab v).1 := fun hc => absurd (htab.symm.trans hc) tab_kind.2.1
    refine ⟨?_, ?_, ?_, ?_, hfits⟩ <;> unfold OnScreen Below index width at * <;>
      dsimp only [typeTab] <;> omega
  · obtain ⟨hv, hfits⟩ := hv
    refine ⟨?_, ?_, ?_, ?_, hfits⟩ <;> unfold OnScreen Below at hv <;> omega

theorem wrapLine_draws (c : UInt8) :
    Draws (AfterTab c) (Action.when (fun v => width ≤ v.currX) wrapLine)
      (fun v => Wrapped v ∧ BackspaceFits c v) := by
  refine Draws.when (fun v hv => ⟨?_, drawBelow_of_nil rfl⟩) fun v hv hlt => ?_
  · obtain ⟨⟨-, hy, hy', -, -⟩, -⟩ := hv
    refine ⟨?_, fun _ _ => ?_⟩ <;> unfold wrapLine <;> dsimp only [Wrapped, index, width] <;> omega
  · obtain ⟨-, hy, hy', hindex, hfits⟩ := hv
    refine ⟨?_, hfits⟩
    unfold Wrapped
    unfold width at hlt
    omega

theorem typePrintable_draws (t : ℤ) (c : UInt8) {data : ℤ} (hdata : OnPage data) :
    Draws (fun v => Wrapped v ∧ BackspaceFits c v)
      (Action.when (fun _ => asciiSpace ≤ c ∧ c < 0x80) (typePrintable t c data))
      (BeforeErase c) := by
  refine Draws.when (fun v hv => ⟨?_, cellOps_onPage hdata t c⟩) fun v hv _ => ?_
  · -- `data` is the cell of the cursor before it wrapped, the same one or the first of the next row
    obtain ⟨⟨hv, -⟩, hp⟩ := hv
    have hbs : c ≠ backspace := fun hc => backspace_kind.2.2 (hc ▸ hp)
    refine ⟨?_, fun hc => absurd hc hbs, fun hc => absurd hc hbs⟩
    unfold typePrintable Below Wrapped index width at *
    dsimp only
    omega
  · obtain ⟨hv, hfits⟩ := hv
    unfold Wrapped at hv
    refine ⟨?_, fun _ => hv.2.2.2.2, hfits⟩
    unfold Below
    omega

theorem typeChar_draws (t : ℤ) (c : UInt8) {data : ℤ} (hdata : OnPage data) :
    Draws (fun v => OnScreen v ∧ BackspaceFits c v)
      (Action.when (fun v => v.linelength < bufferLimit) (typeChar t c data)) (BeforeErase c) := by
  have htype : Draws (fun v => OnScreen v ∧ BackspaceFits c v) (typeChar t c data) (BeforeErase c) :=
    (typeTab_draws c).seq ((wrapLine_draws c).seq (typePrintable_draws t c hdata))
  refine Draws.when (fun v hv => htype v hv.1) fun v hv _ => ?_
  obtain ⟨hv, hfits⟩ := hv
  refine ⟨?_, fun _ hy => ?_, hfits⟩ <;> unfold OnScreen Below at * <;> omega

theorem eraseChar_draws (t : ℤ) (c : UInt8) :
    Draws (BeforeErase c) (Action.when (fun _ => c = backspace) (eraseChar t)) (Below 1) := by
  refine Draws.when (fun v hv => ?_) fun v hv _ => hv.1
  obtain ⟨⟨hbelow, hcol, hfits⟩, hc⟩ := hv
  have hcol := hcol hc
  have hfits := hfits hc
  -- the cell before the cursor, unless the line is empty
  have hcell : Below 1 (eraseChar t v).1 ∧
      OnPage (index (eraseChar t v).1.currX (eraseChar t v).1.currY) := by
    unfold eraseChar Below OnPage index width at *
    dsimp only
    split <;> omega
  refine ⟨hcell.1, ?_⟩
  exact DrawBelow.append (blankOps_below ⟨hcell.2.1, by have := hcell.2.2; omega⟩ t)
    (drawBelow_of_nil rfl)

theorem enterLine_draws (c : UInt8) :
    Draws (Below 1) (Action.when (fun _ => c = newLineChar) (enterLine c)) (Below 2) := by
  refine Draws.when (fun v hv => ⟨?_, drawBelow_of_nil (screenOps_enterLine c v)⟩) fun v hv _ => ?_
  · obtain ⟨hv, -⟩ := hv
    unfold enterLine Below index width at *
    dsimp only
    omega
  · unfold Below at *
    omega

/-- A key draws inside the page and leaves the cursor on the screen. -/
theorem putChar_draws (t : ℤ) (c : UInt8) :
    Draws (fun v => OnScreen v ∧ BackspaceFits c v) (putChar t c) OnScreen := by
  intro v hv
  exact (typeChar_draws t c hv.1.onPage).seq ((eraseChar_draws t c).seq
    ((enterLine_draws c).seq (scroll_draws t))) v hv

/-! ## Output -/

theorem wrapOut_draws :
    Draws OnScreen (Action.when (fun v => width ≤ v.currX)
      (Action.seq (fun v => (v, [.linestart 0])) wrapLine)) Wrapped := by
  refine Draws.when (fun v hv => ⟨?_, drawBelow_of_nil rfl⟩) fun v hv hlt => ?_
  · obtain ⟨hv, -⟩ := hv
    unfold Action.seq wrapLine OnScreen Below Wrapped index width at *
    dsimp only
    omega
  · unfold OnScreen Below Wrapped index width at *
    omega

theorem drawChar_draws (t : ℤ) (c : UInt8) {data : ℤ} (hdata : OnPage data) :
    Draws Wrapped (drawChar t c data) (Below 2) := by
  intro v hv
  unfold drawChar
  split
  · refine ⟨?_, drawBelow_of_nil rfl⟩
    unfold Below Wrapped index width at *
    dsimp only
    omega
  · refine ⟨?_, cellOps_onPage hdata t c⟩
    unfold Below Wrapped index width at *
    dsimp only
    omega

theorem putCharOut_draws (t : ℤ) (c : UInt8) : Draws OnScreen (putCharOut t c) OnScreen := by
  intro v hv
  exact wrapOut_draws.seq ((drawChar_draws t c hv.onPage).seq (scroll_draws t)) v hv

theorem terminalWrite_draws (t : ℤ) (bytes : List UInt8) :
    Draws OnScreen (terminalWrite t bytes) OnScreen := by
  induction bytes with
  | nil => exact fun v hv => ⟨hv, drawBelow_of_nil rfl⟩
  | cons c bytes ih =>
    unfold terminalWrite
    split
    · exact ih
    · exact (putCharOut_draws t c).seq ih

/-! ## All terminals -/

/-- Every cursor is on the screen. -/
def OnScreens (tm : Terminals) : Prop := ∀ t, OnScreen (tm.vars t)

theorem terminalOpen_onScreens : OnScreens terminalOpen := by
  intro t
  show (0 : ℤ) ≤ 80 ∧ (0 : ℤ) ≤ 0 ∧ (0 : ℤ) ≤ 24 + 0 ∧ (0 : ℤ) ≤ index 0 0 ∧
    ((24 : ℤ) < 0 → (-1 : ℤ) ≤ 0 ∧ (0 : ℤ) ≤ 1)
  decide

theorem OnScreens.run (h : OnScreens tm) (hf : OnScreen (f (tm.vars t)).1) :
    OnScreens (tm.run t f).1 := by
  intro t'
  show OnScreen (update tm.vars t (f (tm.vars t)).1 t')
  rw [update_apply]
  split
  · exact hf
  · exact h t'

/-- Every backspace among some keys typed on terminal `t` finds a cell before the cursor. -/
def BackspacesFit (t : ℤ) : Vars → List UInt8 → Prop
  | _, [] => True
  | v, c :: cs => BackspaceFits c v ∧ BackspacesFit t (putChar t c v).1 cs

instance decidableBackspacesFit (t : ℤ) : ∀ v cs, Decidable (BackspacesFit t v cs)
  | _, [] => inferInstanceAs (Decidable True)
  | v, c :: cs =>
    have := decidableBackspacesFit t (putChar t c v).1 cs
    inferInstanceAs (Decidable (_ ∧ _))

/-- The cursor and the length of the displayed terminal after some keys. -/
theorem vars_keys (cs : List UInt8) :
    ∀ tm : Terminals, (tm.keys cs).vars tm.currTerminal
      = cs.foldl (fun v c => (putChar tm.currTerminal c v).1) (tm.vars tm.currTerminal) := by
  induction cs with
  | nil => exact fun _ => rfl
  | cons c cs ih =>
    intro tm
    have hrec := ih (tm.key c)
    have hkey : (tm.key c).vars tm.currTerminal
        = (putChar tm.currTerminal c (tm.vars tm.currTerminal)).1 := update_self ..
    rw [currTerminal_key, hkey] at hrec
    exact hrec

theorem clearTerminal_onScreen (t : ℤ) (h : OnScreen v) : OnScreen (clearTerminal t v).1 := by
  unfold clearTerminal
  split
  · exact h
  · exact terminalOpen_onScreens t

end Terminal
end GalapagOS
