import GalapagOS.Kernel.Pages
import GalapagOS.Terminal.Cursor
import GalapagOS.Terminal.Editor

/-!
# Typing a line

The keys of a line reach the driver through the page tables, so a key that draws outside the video
page faults. The cursor does not follow a backspace back to the end of the previous row; as long as
no backspace steps over the first cell of the screen, every cursor stays on the screen, no key
faults, and the line is that of the plain editor.
-/

namespace GalapagOS
namespace Kernel

open Memory Paging
open Terminal (OnScreen OnScreens BackspaceFits Typed AreKeys edit backspace newLineChar slot tab)

variable {k k' : Kernel} {chains chains' : Fin 3 → List Pid} {ps : List Pid} {c : Pid} {e : Event}

/-! ## The cursors along a run -/

/-- A backspace that takes a character off the line finds a cell before the cursor. -/
def BackspaceOk (k : Kernel) : Event → Prop
  | .putChar b => BackspaceFits b (k.terms.vars k.getCurrTerminal)
  | _ => True

theorem onScreens_of_vars (h : OnScreens k.terms) (hvars : k'.terms.vars = k.terms.vars) :
    OnScreens k'.terms := by
  intro t
  rw [hvars]
  exact h t

/-- One event. -/
theorem onScreens_step (h : OnScreens k.terms) (hok : BackspaceOk k e)
    (hs : Step k chains c e k' chains') : OnScreens k'.terms := by
  cases hs with
  | kexecuteError => exact h
  | kexecuteFailed _ _ hacc =>
    obtain ⟨m, rfl⟩ := access_eq_some hacc
    exact h
  | kexecuted _ _ _ hacc _ hs hsw =>
    obtain ⟨m, rfl⟩ := access_eq_some hacc
    refine onScreens_of_vars h ?_
    rw [hsw.terms, hs.terms]
    rfl
  | restarted => exact h
  | khalted _ hs hsw =>
    refine onScreens_of_vars h ?_
    rw [hsw.terms, hs.terms]
  | kvidmapError => exact h
  | kvidmapped _ hacc =>
    obtain ⟨m, rfl⟩ := access_eq_some hacc
    exact h
  | @fileCall call _ hcall =>
    generalize call.terminalBytes k = out at hcall
    cases hcall with
    | quiet hvars => exact onScreens_of_vars h hvars
    | wrote hwrite =>
      obtain ⟨m, rfl⟩ := terminalWrite_eq_some hwrite
      exact h.run (Terminal.terminalWrite_draws _ _ _ (h _)).1
  | tick hsw => exact onScreens_of_vars h (by rw [hsw.terms])
  | sameTerminal => exact h
  | switchTerminals => exact h
  | putChar hkey =>
    obtain ⟨m, rfl⟩ := keyboardOutput_eq_some hkey
    exact h.run (Terminal.putChar_draws _ _ _ ⟨h _, hok⟩).1
  | clearTerminal hkey =>
    obtain ⟨m, rfl⟩ := keyboardOutput_eq_some hkey
    exact h.run (Terminal.clearTerminal_onScreen _ (h _))

theorem Reach.onScreens (h : Run.Reach system BackspaceOk k) : OnScreens k.terms := by
  have hboot : ∀ k, Booted k → OnScreens k.terms := by
    intro k hb
    rw [hb.terms]
    exact Terminal.terminalOpen_onScreens
  obtain ⟨-, -, -, -, hscreens⟩ := Reach.along (I := fun k _ _ => OnScreens k.terms) h hboot
    fun _ hscreens hok hs _ => onScreens_step hscreens hok hs
  exact hscreens

/-! ## Keys do not fault -/

theorem exists_putChar (h : Run.Reach system BackspaceOk k) {b : UInt8}
    (hok : BackspaceOk k (.putChar b)) :
    ∃ m, k.putChar b = some { k with terms := k.terms.key b, phys := m } := by
  obtain ⟨chains, ps, c, -, hpaged⟩ := Reach.paged h
  obtain ⟨x, hx, -⟩ := hpaged.loaded
  -- keys draw at `INACTIVE_VID_MEM`, which every directory maps to the VGA page
  have hdraws := (Terminal.putChar_draws k.getCurrTerminal b _ ⟨Reach.onScreens h _, hok⟩).2
  obtain ⟨m, hm, -⟩ := exists_access_page (k := { k with terms := k.terms.key b }) (n := 0xb8)
    (fun off hoff => translate_inactive (k := { k with terms := k.terms.key b })
      hpaged.wellFormed hx hoff) hdraws
  exact ⟨m, hm⟩

/-- Keys that keep to the screen are all taken by the driver. -/
theorem exists_run_keys {bs : List UInt8} :
    ∀ {k : Kernel}, Run.Reach system BackspaceOk k →
      system.Allowed BackspaceOk k (bs.map .putChar) →
      ∃ m, system.run k (bs.map .putChar) = some { k with terms := k.terms.keys bs, phys := m } ∧
        Run.Reach system BackspaceOk { k with terms := k.terms.keys bs, phys := m } := by
  induction bs with
  | nil => exact fun h _ => ⟨_, rfl, h⟩
  | cons b bs ih =>
    intro k h hok
    obtain ⟨m₁, hk₁⟩ := exists_putChar h hok.1
    have hstep : system.step k (.putChar b) = some _ := hk₁
    -- the state after the key is reached under the same condition
    obtain ⟨m, hrun, hreach⟩ := ih (h.step hok.1 hstep) (hok.2 _ hstep)
    refine ⟨m, ?_, hreach⟩
    rw [List.map_cons, Run.System.run, hstep]
    exact hrun

theorem allowed_keys {bs : List UInt8} :
    ∀ {k : Kernel}, Terminal.BackspacesFit k.getCurrTerminal (k.terms.vars k.getCurrTerminal) bs →
      system.Allowed BackspaceOk k (bs.map .putChar) := by
  induction bs with
  | nil => exact fun _ => trivial
  | cons b bs ih =>
    intro k h
    refine ⟨h.1, fun k' hk' => ih ?_⟩
    have hkey : k.keyboardOutput (fun t => Terminal.putChar t b) = some k' := hk'
    obtain ⟨m, rfl⟩ := keyboardOutput_eq_some hkey
    have hcurr : (k.terms.key b).currTerminal = k.terms.currTerminal := Terminal.currTerminal_key ..
    have hvars : (k.terms.key b).vars k.terms.currTerminal
        = (Terminal.putChar k.terms.currTerminal b (k.terms.vars k.terms.currTerminal)).1 :=
      Function.update_self ..
    show Terminal.BackspacesFit (k.terms.key b).currTerminal
      ((k.terms.key b).vars (k.terms.key b).currTerminal) bs
    rw [hcurr, hvars]
    exact h.2

/-! ## The line -/

/-- From an empty line, every sequence of keys that keeps to the screen leads to the line of the
plain editor, and a newline hands it to `terminal_read`. -/
theorem line_editing (h : Run.Reach system BackspaceOk k)
    (hempty : (k.terms.vars k.getCurrTerminal).linelength = 0) {keys : List UInt8}
    (hkeys : AreKeys [] keys) (hok : system.Allowed BackspaceOk k (keys.map .putChar)) :
    ∃ k', system.run k (keys.map .putChar) = some k' ∧
      (k'.terms.vars k.getCurrTerminal).linelength = (keys.foldl edit []).length ∧
      (List.range (keys.foldl edit []).length).map
        (fun i : ℕ => k'.terms.linebuffer (slot k.getCurrTerminal i)) = keys.foldl edit [] ∧
      ∃ k'', system.step k' (.putChar newLineChar) = some k'' ∧ ∀ count : ℕ,
        ∃ tm, Terminal.terminalRead k''.terms k.getCurrTerminal count
            = some (tm, (keys.foldl edit [] ++ [newLineChar]).take count) ∧
          (tm.vars k.getCurrTerminal).linelength = 0 ∧ tm.lastlinelength k.getCurrTerminal = 0 ∧
          tm.rd k.getCurrTerminal = 0 := by
  obtain ⟨m, hrun, hreach⟩ := exists_run_keys h hok
  have hstart : Typed k.terms.lines k.terms.currTerminal [] := ⟨hempty, Buffer.Holds.nil _⟩
  have htyped := hstart.keys (Nat.zero_le _) hkeys
  refine ⟨_, hrun, htyped.length, htyped.holds.map_range, ?_⟩
  -- the newline is no backspace
  obtain ⟨m', hk'⟩ := exists_putChar hreach (b := newLineChar)
    fun hc => absurd hc Terminal.newLineChar_kind.1
  have hcurr : (k.terms.keys keys).currTerminal = k.terms.currTerminal :=
    Terminal.currTerminal_keys ..
  have hentered := htyped.enter
  rw [← hcurr, ← Terminal.lines_key, hcurr] at hentered
  have hnul : 0 ∉ keys.foldl edit [] ++ [newLineChar] := by
    rw [List.mem_append, List.mem_singleton]
    rintro (hmem | hmem)
    · exact hkeys.zero_notMem List.not_mem_nil hmem
    · exact absurd hmem (by decide)
  exact ⟨_, hk', fun count => hentered.terminalRead hnul count⟩

/-- The keys a, backspace, b and tab after boot, and a read of four bytes. -/
theorem line_editing_tab :
    ∃ k k' k'' tm, sampleBoot = some k ∧
      system.run k ([0x61, backspace, 0x62, tab].map .putChar) = some k' ∧
      system.step k' (.putChar newLineChar) = some k'' ∧
      Terminal.terminalRead k''.terms k.getCurrTerminal 4
        = some (tm, [0x62, 0x20, 0x20, 0x20]) := by
  obtain ⟨k, hk⟩ := Option.isSome_iff_exists.mp (show sampleBoot.isSome by decide)
  have hb := boot_spec hk
  have hreach : Run.Reach system BackspaceOk k := .init ⟨_, _, _, _, _, _, hk⟩
  have hempty : (k.terms.vars k.getCurrTerminal).linelength = 0 := by
    rw [hb.terms]
    rfl
  have hfit : Terminal.BackspacesFit k.getCurrTerminal (k.terms.vars k.getCurrTerminal)
      [0x61, backspace, 0x62, tab] := by
    rw [getCurrTerminal, hb.terms]
    decide
  obtain ⟨k', hrun, -, -, k'', hk'', hread⟩ :=
    line_editing hreach hempty (by decide) (allowed_keys hfit)
  obtain ⟨tm, htm, -⟩ := hread 4
  exact ⟨k, k', k'', tm, hk, hrun, hk'', htm⟩

/-! ## A backspace over the first cell -/

/-- The cell before the first one lies on a page that `new_init` leaves out. -/
theorem translate_before_screen (htables : k.tables = newInit k.lay) (hcr3 : k.cr3 = some 0) :
    k.translate (inactiveVidMem + Terminal.cellOffset (-1)) = none := by
  have haddr : (inactiveVidMem + Terminal.cellOffset (-1)) % 2 ^ 32 = 0xb6ffe := by decide
  have habsent : Pte.present.get ((newInit k.lay).pageTables 0 0xb6) = 0 := by
    show Pte.present.get (initPageTable 0 0xb6) = 0
    decide
  have hwalk := walk_low (newInit_wellFormed k.lay) (show 0 < numTasks by decide)
    (show 0xb6ffe < 2 ^ 22 by decide)
  rw [translate, hcr3, Option.bind_some, haddr, htables]
  exact congrArg (Option.map Access.phys) (hwalk.trans (if_pos habsent))

theorem putChar_fault (htables : k.tables = newInit k.lay) (hcr3 : k.cr3 = some 0)
    (hcurr : k.getCurrTerminal = 0) (hvars : k.terms.vars 0 = ⟨4, -80, 1⟩) :
    k.putChar backspace = none := by
  have hops : Terminal.screenOps (Terminal.putChar 0 backspace ⟨4, -80, 1⟩).2
      = [.write (Terminal.cellOffset (-1)) [0x20, 0xe]] := rfl
  have hkey : k.putChar backspace
      = ({ k with terms := k.terms.key backspace } : Kernel).access inactiveVidMem
          (Terminal.screenOps (Terminal.putChar k.getCurrTerminal backspace
            (k.terms.vars k.getCurrTerminal)).2) := rfl
  have hfault : ({ k with terms := k.terms.key backspace } : Kernel).translate
      (inactiveVidMem + Terminal.cellOffset (-1)) = none := translate_before_screen htables hcr3
  rw [hkey, hcurr]
  show ({ k with terms := k.terms.key backspace } : Kernel).access inactiveVidMem
    (Terminal.screenOps (Terminal.putChar 0 backspace (k.terms.vars 0)).2) = none
  rw [hvars, hops, access, execAll, List.foldlM_cons, Op.exec, writeBytes, hfault]
  rfl

/-- 76 letters, a tab that goes to the next row, and backspaces back to the first cell. -/
def backToFirstCell : List UInt8 :=
  List.replicate 76 0x61 ++ [tab] ++ List.replicate 80 backspace

/-- One more backspace faults, with four characters left on the line. -/
theorem line_editing_fault :
    ∃ k k', system.init k ∧ (k.terms.vars k.getCurrTerminal).linelength = 0 ∧
      AreKeys [] (backToFirstCell ++ [backspace]) ∧
      system.run k (backToFirstCell.map .putChar) = some k' ∧
      (k'.terms.vars k.getCurrTerminal).linelength = 4 ∧
      system.step k' (.putChar backspace) = none ∧
      ((backToFirstCell ++ [backspace]).foldl edit []).length = 3 := by
  obtain ⟨k, hk⟩ := Option.isSome_iff_exists.mp (show sampleBoot.isSome by decide)
  have hb := boot_spec hk
  have hinit : system.init k := ⟨_, _, _, _, _, _, hk⟩
  have hcurr : k.getCurrTerminal = 0 := by
    rw [getCurrTerminal, hb.terms]
    rfl
  have hvars : k.terms.vars k.getCurrTerminal = {} := by
    rw [hb.terms]
    rfl
  have hfit : Terminal.BackspacesFit 0 {} backToFirstCell := by decide +kernel
  have hlast : backToFirstCell.foldl (fun v b => (Terminal.putChar 0 b v).1) {} = ⟨4, -80, 1⟩ := by
    decide +kernel
  have hok : system.Allowed BackspaceOk k (backToFirstCell.map .putChar) := by
    refine allowed_keys ?_
    rw [hvars, hcurr]
    exact hfit
  obtain ⟨m, hrun, -⟩ := exists_run_keys (.init hinit) hok
  have hvars' : (k.terms.keys backToFirstCell).vars k.getCurrTerminal = ⟨4, -80, 1⟩ := by
    refine (Terminal.vars_keys backToFirstCell k.terms).trans ?_
    show backToFirstCell.foldl (fun v b => (Terminal.putChar k.getCurrTerminal b v).1)
      (k.terms.vars k.getCurrTerminal) = _
    rw [hvars, hcurr]
    exact hlast
  have hcurr' : (k.terms.keys backToFirstCell).currTerminal = 0 :=
    (Terminal.currTerminal_keys ..).trans hcurr
  generalize k.terms.keys backToFirstCell = tm at hrun hvars' hcurr'
  refine ⟨k, _, hinit, by rw [hvars], by decide +kernel, hrun, by rw [hvars'], ?_, by decide +kernel⟩
  rw [hcurr] at hvars'
  exact putChar_fault (k := { k with terms := tm, phys := m }) hb.tables hb.cr3 hcurr' hvars'

end Kernel
end GalapagOS
