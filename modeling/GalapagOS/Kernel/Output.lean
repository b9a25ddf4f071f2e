import GalapagOS.Kernel.Pages
import GalapagOS.Terminal.Reference

/-!
# `terminal_write` and the reference terminal

A process writes through the video page of the tables in `cr3`. Whatever page that is, `terminal_write`
draws on it what the reference terminal draws, and returns the number of characters.
-/

namespace GalapagOS
namespace Kernel

open Memory Paging

variable {k : Kernel} {x : Pid} {bytes : List UInt8}

/-! ## The page of the running process -/

/-- The physical page that a process writes its output to, under the tables of `x`. -/
def outputPage (k : Kernel) (x : Pid) : ℕ → UInt8 := pageOf k.phys (videoBase k.tables x)

/-- The variables of the terminal of the running process. -/
def outputVars (k : Kernel) : Terminal.Vars := k.terms.vars k.getCurrProcessTerminal

/-- Output from a cursor on the screen does not fault, and is drawn on the page. -/
theorem exists_terminalWrite (hwf : WellFormed k.lay k.tables) (hx : k.cr3 = some x)
    (hv : Terminal.InRange k.outputVars) (bytes : List UInt8) :
    ∃ k' : Kernel, k.terminalWrite bytes = some (k', ((bytes.countP (· ≠ 0) : ℕ) : ℤ)) ∧
      k'.outputPage x = Terminal.drawn (Terminal.terminalWrite k.getCurrProcessTerminal bytes)
        (k.outputPage x) k.outputVars ∧
      k'.outputVars = (Terminal.terminalWrite k.getCurrProcessTerminal bytes k.outputVars).1 ∧
      k'.tables = k.tables ∧ k'.cr3 = k.cr3 ∧ k'.lay = k.lay := by
  have hscreen : Terminal.OnScreen k.outputVars := by
    unfold Terminal.InRange at hv
    unfold Terminal.OnScreen Terminal.Below Terminal.index Terminal.width
    omega
  have hops := (Terminal.terminalWrite_draws k.getCurrProcessTerminal bytes _ hscreen).2
  obtain ⟨m, hacc, hpage, -⟩ := exists_access_page
    (k := { k with terms := (k.terms.run k.getCurrProcessTerminal
      (Terminal.terminalWrite k.getCurrProcessTerminal bytes)).1 })
    (fun off hoff => translate_video hwf hx hoff) hops
  refine ⟨{ k with
    terms := (k.terms.run k.getCurrProcessTerminal
      (Terminal.terminalWrite k.getCurrProcessTerminal bytes)).1
    phys := m }, ?_, hpage, Terminal.vars_run_self .., rfl, rfl, rfl⟩
  rw [List.countP_eq_length_filter]
  show (access _ vidMem _).map _ = _
  rw [show vidMem = 0xb8 * 4096 from rfl]
  exact congrArg (Option.map _) hacc

/-! ## The reference terminal -/

/-- Output returns the number of its characters, and the characters on the screen and the cursor are
those of the reference terminal. -/
def WritesAsReference (k : Kernel) (x : Pid) (r : Terminal.Reference) (bytes : List UInt8) : Prop :=
  ∃ k' : Kernel, k.terminalWrite bytes = some (k', ((bytes.countP (· ≠ 0) : ℕ) : ℤ)) ∧
    Terminal.Shows (k'.outputPage x) k'.outputVars (r.write bytes)

/-- For every content of the screen, every cursor and every output, exactly if what a byte behind the
last cell leaves wrong is covered by the bytes after it. -/
theorem terminal_write_reference (hwf : WellFormed k.lay k.tables) (hx : k.cr3 = some x)
    (hv : Terminal.InRange k.outputVars) (bytes : List UInt8) :
    let r := Terminal.screenOf (k.outputPage x) k.outputVars hv
    WritesAsReference k x r bytes ↔ r.Faithful bytes := by
  intro r
  obtain ⟨k', hwrite, hpage, hvars, -⟩ := exists_terminalWrite hwf hx hv bytes
  have hscreen : Terminal.Shows (k.outputPage x) k.outputVars r := Terminal.shows_screenOf hv
  have hshows := hscreen.write_iff k.getCurrProcessTerminal bytes
  rw [← hpage, ← hvars] at hshows
  rw [← hshows]
  constructor
  · rintro ⟨k'', hwrite', h⟩
    cases hwrite.symm.trans hwrite'
    exact h
  · exact fun h => ⟨k', hwrite, h⟩

/-- After boot the first shell writes on the page of its own terminal, from the first cell on. -/
theorem Booted.outputVars (h : Booted k) : k.outputVars = {} := by
  unfold Kernel.outputVars
  rw [h.terms]
  rfl

/-- The first shell prints two letters and a newline. -/
theorem terminal_write_reference_start : ∃ k₀ k' : Kernel, sampleBoot = some k₀ ∧
    k₀.terminalWrite [0x68, 0, 0x69, 0x0a] = some (k', 3) ∧
    k'.outputVars.currX = 0 ∧ k'.outputVars.currY = 1 ∧
    Terminal.cells (k'.outputPage 0) 0 1 = 0x69 := by
  obtain ⟨k₀, hk₀⟩ := Option.isSome_iff_exists.mp (show sampleBoot.isSome by decide)
  have hb := boot_spec hk₀
  have hv : Terminal.InRange k₀.outputVars := by
    rw [hb.outputVars]
    exact Terminal.terminalOpen_inRanges 0
  have hr : Terminal.screenOf (k₀.outputPage 0) k₀.outputVars hv
      = ⟨Terminal.cells (k₀.outputPage 0), 0, 0⟩ :=
    (Terminal.shows_screenOf hv).eq ⟨rfl, congrArg Terminal.Vars.currX hb.outputVars,
      congrArg Terminal.Vars.currY hb.outputVars⟩
  have hbytes : (Terminal.screenOf (k₀.outputPage 0) k₀.outputVars hv).Faithful
      [0x68, 0, 0x69, 0x0a] := by
    rw [hr]
    exact of_decide_eq_true rfl
  obtain ⟨k', hwrite, hshows⟩ :=
    (terminal_write_reference hb.paged.wellFormed hb.cr3 hv _).mpr hbytes
  rw [hr] at hshows
  exact ⟨k₀, k', hk₀, hwrite, hshows.x, hshows.y, congrFun (congrFun hshows.chars 0) 1⟩

/-- The last row is filled up to its last cell. Then a letter and another letter, or a letter and a
newline are printed. -/
theorem terminal_write_corner : ∃ (k₀ k k₁ k₂ : Kernel) (hv : Terminal.InRange k.outputVars),
    sampleBoot = some k₀ ∧
    k₀.terminalWrite (List.replicate 24 0x0a ++ List.replicate 79 0x61) = some (k, 103) ∧
    k.terminalWrite [0x62, 0x63] = some (k₁, 2) ∧
    Terminal.cells (k₁.outputPage 0) 24 0 = 0x20 ∧
    ((Terminal.screenOf (k.outputPage 0) k.outputVars hv).write [0x62, 0x63]).chars 24 0 = 0x63 ∧
    k.terminalWrite [0x62, 0x0a] = some (k₂, 2) ∧
    Terminal.cells (k₂.outputPage 0) 24 79 = 0x62 ∧
    ((Terminal.screenOf (k.outputPage 0) k.outputVars hv).write [0x62, 0x0a]).chars 24 79 = 0x20 := by
  obtain ⟨k₀, hk₀⟩ := Option.isSome_iff_exists.mp (show sampleBoot.isSome by decide)
  have hb := boot_spec hk₀
  have hv₀ : Terminal.InRange k₀.outputVars := by
    rw [hb.outputVars]
    exact Terminal.terminalOpen_inRanges 0
  have hwf := hb.paged.wellFormed
  obtain ⟨k, hwrite, -, hvars, htables, hcr3, hlay⟩ := exists_terminalWrite hwf hb.cr3 hv₀
    (List.replicate 24 0x0a ++ List.replicate 79 0x61)
  have hterm : k₀.getCurrProcessTerminal = 0 := by
    rw [getCurrProcessTerminal, hb.currProcess]
    exact hb.terminal 0 (by decide)
  have hvars' : k.outputVars = ⟨0, 79, 24⟩ := by
    rw [hvars, hb.outputVars, hterm]
    decide +kernel
  have hv : Terminal.InRange k.outputVars := by
    rw [hvars']
    exact ⟨by decide, by decide, by decide, by decide⟩
  rw [← htables, ← hlay] at hwf
  have hr : Terminal.screenOf (k.outputPage 0) k.outputVars hv
      = ⟨Terminal.cells (k.outputPage 0), 79, 24⟩ :=
    (Terminal.shows_screenOf hv).eq ⟨rfl, congrArg Terminal.Vars.currX hvars',
      congrArg Terminal.Vars.currY hvars'⟩
  have hshows : Terminal.Shows (k.outputPage 0) k.outputVars _ := Terminal.shows_screenOf hv
  rw [hr] at hshows
  obtain ⟨k₁, hwrite₁, hpage₁, -⟩ := exists_terminalWrite hwf (hcr3.trans hb.cr3) hv [0x62, 0x63]
  obtain ⟨k₂, hwrite₂, hpage₂, -⟩ := exists_terminalWrite hwf (hcr3.trans hb.cr3) hv [0x62, 0x0a]
  refine ⟨k₀, k, k₁, k₂, hv, hk₀, hwrite, hwrite₁, ?_, ?_, hwrite₂, ?_, ?_⟩
  · rw [hpage₁, (hshows.terminalWrite _ _).chars]
    rfl
  · rw [hr]
    rfl
  · rw [hpage₂, (hshows.terminalWrite _ _).chars]
    rfl
  · rw [hr]
    rfl

end Kernel
end GalapagOS
