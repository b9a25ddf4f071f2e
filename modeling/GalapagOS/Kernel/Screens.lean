import GalapagOS.Kernel.Pages
import GalapagOS.Terminal.Cursor

/-!
# Three private screens

The abstract machine has a page and a cursor for each terminal and takes outputs to one of them.
The kernel has one VGA page and three backing pages, copies between them when the terminal is
switched, and writes through page tables; it refines the abstract machine.
-/

namespace GalapagOS
namespace Kernel

open Memory Paging

variable {k k' : Kernel} {chains chains' : Fin 3 → List Pid} {ps : List Pid} {c : Pid} {e : Event}

/-! ## The abstract machine -/

/-- What one terminal shows, and the driver variables that decide where it writes next. -/
structure Screen where
  page : ℕ → UInt8
  vars : Terminal.Vars

/-- Output to a terminal: a key, a cleared screen, or bytes written by a process. -/
inductive Output where
  | key (c : UInt8)
  | clear
  | write (bytes : List UInt8)

/-- The driver function for an output to terminal `t`. -/
def Output.action (t : ℤ) : Output → Terminal.Action
  | .key c => Terminal.putChar t c
  | .clear => Terminal.clearTerminal t
  | .write bytes => Terminal.terminalWrite t bytes

/-- The driver on a page of its own. -/
def Screen.output (s : Screen) (t : Fin 3) (o : Output) : Screen where
  page := applyAll (Terminal.screenOps (o.action t s.vars).2) s.page
  vars := (o.action t s.vars).1

/-- Three screens. -/
abbrev Screens : Type := Fin 3 → Screen

/-- An output changes the screen of its terminal. -/
def Screens.next (s : Screens) : Option (Fin 3 × Output) → Screens
  | none => s
  | some (t, o) => Function.update s t ((s t).output t o)

/-! ## The abstraction -/

/-- The logical screens of the kernel. -/
def screens (k : Kernel) : Screens := fun t =>
  ⟨pageOf k.phys (screenPage k.getCurrTerminal t), k.terms.vars t⟩

open Classical in
/-- The terminal from whose root the process descends. -/
noncomputable def ownTerminal (k : Kernel) (p : Pid) : Fin 3 :=
  Classical.epsilon fun t => OnChain k t p

/-- The output an event makes: keys go to the displayed terminal, writes of the running process
to its own, and no other event is an output. -/
noncomputable def outputOf (k : Kernel) : Event → Option (Fin 3 × Output)
  | .putChar c => some (k.getCurrTerminal, .key c)
  | .clearTerminal => some (k.getCurrTerminal, .clear)
  | .fileCall call => k.currProcess.bind fun p =>
      (call.terminalBytes k).map fun bytes => (k.ownTerminal p, .write bytes)
  | _ => none

/-- Every process has the terminal of its chain, and the cells that the output draws lie in the
page. -/
structure InPage (k : Kernel) (e : Event) : Prop where
  terminal : ∀ t p, OnChain k t p → (k.pcbs p).terminal = t
  cells : ∀ t o, outputOf k e = some (t, o) →
    ∀ op ∈ Terminal.screenOps (o.action t (k.terms.vars t)).2, op.Within (Set.Iio 4096)

theorem ownTerminal_eq (h : Chained k chains) {t : Fin 3} {p : Pid} (hp : p ∈ chains t) :
    k.ownTerminal p = t := by
  have hex : OnChain k (k.ownTerminal p) p :=
    Classical.epsilon_spec (p := fun t => OnChain k t p) ⟨t, h.onChain_iff.mpr hp⟩
  exact h.forest.disjoint _ _ p (h.mem_of_onChain hex) hp

theorem screenPage_inj {curr t t' : Fin 3} (h : screenPage curr t = screenPage curr t') : t = t' := by
  unfold screenPage at h
  split_ifs at h <;> omega

theorem screenPage_lt (curr t : Fin 3) : screenPage curr t < 0xbc := by
  unfold screenPage
  split_ifs <;> omega

/-! ## Events that are no output -/

/-- The screens depend on memory below 8 MB, the displayed terminal and the cursors. -/
theorem screens_congr (hcurr : k'.getCurrTerminal = k.getCurrTerminal)
    (hvars : k'.terms.vars = k.terms.vars) (hphys : ∀ a < 2 ^ 23, k'.phys a = k.phys a) :
    k'.screens = k.screens := by
  funext t
  have hlt := screenPage_lt k.getCurrTerminal t
  simp only [screens, hcurr, hvars]
  rw [pageOf_congr fun a ha => hphys a (by omega)]

/-! ## Output -/

/-- Output to terminal `t` through a virtual page that is mapped to its logical screen. -/
theorem screens_output {t : Fin 3} {o : Output} {base : ℕ}
    (hτ : ∀ off < 4096,
      k.translate (base + off) = some (screenPage k.getCurrTerminal t * 4096 + off))
    (hops : ∀ op ∈ Terminal.screenOps (o.action t (k.terms.vars t)).2, op.Within (Set.Iio 4096))
    (h : ({ k with terms := (k.terms.run t (o.action t)).1 } : Kernel).access base
      (k.terms.run t (o.action t)).2 = some k') :
    k'.screens = k.screens.next (some (t, o)) := by
  obtain ⟨hpage, hframe⟩ := access_page
    (k := { k with terms := (k.terms.run t (o.action t)).1 }) hτ hops h
  obtain ⟨m, rfl⟩ := access_eq_some h
  have hcurr : (k.terms.run t (o.action t)).1.currTerminal = k.terms.currTerminal :=
    Terminal.currTerminal_run _ _ _
  funext t'
  simp only [screens, Screens.next, getCurrTerminal, hcurr]
  rw [Function.update_apply]
  split
  · rename_i ht
    subst ht
    simp only [Screen.output, Terminal.Terminals.run, Function.update_self]
    exact congrArg (fun page => (⟨page, _⟩ : Screen)) hpage
  · rename_i ht
    have hne : (t' : ℤ) ≠ t := fun he => ht (by omega)
    have hsame : pageOf m (screenPage k.terms.currTerminal t')
        = pageOf k.phys (screenPage k.terms.currTerminal t') :=
      pageOf_congr fun a ha => hframe a (by rw [ha]; exact fun he => ht (screenPage_inj he))
    have hvars : (k.terms.run t (o.action t)).1.vars t' = k.terms.vars t' :=
      Function.update_of_ne hne _ _
    rw [hsame, hvars]
    rfl

/-! ## The terminal switch -/

theorem backingPage_eq (t : Fin 3) : backingPage t = (0xb9 + t) * 4096 := by
  rw [backingPage, vidMem]
  omega

/-- The two copies of a switch: the screen to the backing page of the old terminal, and that of the
new one to the screen. -/
theorem Paged.copies (h : Paged k c) (term : Fin 3) : ∃ m₁ m₂,
    k.access 0 (memcpy (backingPage k.getCurrTerminal) inactiveVidMem 4096)
      = some { k with phys := m₁ } ∧
    ({ k with phys := m₁ } : Kernel).access 0 (memcpy inactiveVidMem (backingPage term) 4096)
      = some { k with phys := m₂ } ∧
    (pageOf m₁ (0xb9 + k.getCurrTerminal) = pageOf k.phys 0xb8 ∧
      ∀ n, n ≠ 0xb9 + (k.getCurrTerminal : ℕ) → pageOf m₁ n = pageOf k.phys n) ∧
    (pageOf m₂ 0xb8 = pageOf m₁ (0xb9 + term) ∧ ∀ n, n ≠ 0xb8 → pageOf m₂ n = pageOf m₁ n) := by
  obtain ⟨x, hx, -⟩ := h.loaded
  have hvga : inactiveVidMem = 0xb7 * 4096 := rfl
  rw [backingPage_eq, backingPage_eq, hvga]
  obtain ⟨m₁, hm₁, hpage₁, hframe₁⟩ := access_memcpy (k := k) (d := 0xb9 + k.getCurrTerminal)
    (s := 0xb7) (by omega) (by omega)
    (fun off hoff => translate_backing h.wellFormed hx k.getCurrTerminal hoff)
    (fun off hoff => translate_inactive h.wellFormed hx hoff)
  obtain ⟨m₂, hm₂, hpage₂, hframe₂⟩ := access_memcpy (k := { k with phys := m₁ }) (d := 0xb7)
    (s := 0xb9 + term) (by omega) (by omega)
    (fun off hoff => translate_inactive (k := { k with phys := m₁ }) h.wellFormed hx hoff)
    (fun off hoff => translate_backing (k := { k with phys := m₁ }) h.wellFormed hx term hoff)
  refine ⟨m₁, m₂, hm₁, hm₂, ⟨hpage₁, fun n hn => ?_⟩, hpage₂, fun n hn => ?_⟩
  · exact pageOf_congr fun a ha => hframe₁ a (by rw [ha]; exact hn)
  · exact pageOf_congr fun a ha => hframe₂ a (by rw [ha]; exact hn)

theorem screens_switch {term : Fin 3} {k₁ k₂ : Kernel} (hpaged : Paged k c)
    (hne : term ≠ k.getCurrTerminal)
    (h₁ : k.access 0 (memcpy (backingPage k.getCurrTerminal) inactiveVidMem 4096) = some k₁)
    (h₂ : k₁.access 0 (memcpy inactiveVidMem (backingPage term) 4096) = some k₂)
    (hphys : k'.phys = k₂.phys) (hterms : k'.terms = { k.terms with currTerminal := term }) :
    k'.screens = k.screens := by
  obtain ⟨m₁, m₂, hm₁, hm₂, ⟨hpage₁, hother₁⟩, hpage₂, hother₂⟩ := hpaged.copies term
  obtain rfl := Option.some.inj (hm₁.symm.trans h₁)
  obtain rfl := Option.some.inj (hm₂.symm.trans h₂)
  have hvne : (term : ℕ) ≠ k.getCurrTerminal := fun he => hne (Fin.val_inj.mp he)
  have hpages : ∀ t, pageOf m₂ (screenPage term t)
      = pageOf k.phys (screenPage k.getCurrTerminal t) := by
    intro t
    by_cases ht : t = term
    · -- the new terminal moves to the VGA page
      have hk : screenPage k.getCurrTerminal t = 0xb9 + term := by
        rw [screenPage, ht, if_neg hne]
        omega
      rw [screenPage, if_pos ht, hpage₂, hk]
      exact hother₁ _ (by omega)
    · have hk' : screenPage term t = 0xb9 + t := by
        rw [screenPage, if_neg ht]
        omega
      rw [hk', hother₂ _ (by omega)]
      by_cases htc : t = k.getCurrTerminal
      · -- the old one moves to its backing page
        rw [screenPage, if_pos htc, htc]
        exact hpage₁
      · have hk : screenPage k.getCurrTerminal t = 0xb9 + t := by
          rw [screenPage, if_neg htc]
          omega
        have hvt : (t : ℕ) ≠ k.getCurrTerminal := fun he => htc (Fin.val_inj.mp he)
        rw [hk, hother₁ _ (by omega)]
  have hcurr : k'.getCurrTerminal = term := by rw [getCurrTerminal, hterms]
  funext t
  simp only [screens, hcurr, hphys, hterms, hpages t]

/-- A switch returns. -/
theorem Paged.exists_switchTerminals (h : Paged k c) (hcons : Consistent k chains ps c) (term : Fin 3) :
    ∃ k', k.switchTerminals term = some k' := by
  unfold switchTerminals
  by_cases hterm : term = k.getCurrTerminal
  · exact ⟨k, if_pos hterm⟩
  · obtain ⟨m₁, m₂, hm₁, hm₂, -⟩ := h.copies term
    have hcons₂ : Consistent { k with phys := m₂ } chains ps c :=
      hcons.frame rfl rfl rfl rfl rfl rfl
    rw [if_neg hterm, hm₁, Option.bind_eq_bind, Option.bind_some, hm₂, Option.bind_some,
      hcons₂.swapVidMem hcons₂.currProcess hcons₂.live]
    exact ⟨_, rfl⟩

/-! ## Keys, writes and loading -/

/-- Keys go through page `0xb7`, which is the screen of the displayed terminal. -/
theorem Paged.screens_key (hpaged : Paged k c) {o : Output}
    (hops : ∀ op ∈ Terminal.screenOps
      (o.action k.getCurrTerminal (k.terms.vars k.getCurrTerminal)).2, op.Within (Set.Iio 4096))
    (h : k.keyboardOutput (fun t => o.action t) = some k') :
    k'.screens = k.screens.next (some (k.getCurrTerminal, o)) := by
  obtain ⟨x, hx, -⟩ := hpaged.loaded
  have hpage : screenPage k.getCurrTerminal k.getCurrTerminal = 0xb8 := if_pos rfl
  refine screens_output (fun off hoff => ?_) hops h
  rw [hpage]
  exact translate_inactive hpaged.wellFormed hx hoff

/-- A process writes through its own page tables, which lead to the screen of its chain. -/
theorem Paged.screens_write (hpaged : Paged k c) (hvideo : VideoFollows k chains) {t : Fin 3}
    (hmem : c ∈ chains t) (hterm : k.getCurrProcessTerminal = t) {bytes : List UInt8} {r : ℤ}
    (hops : ∀ op ∈ Terminal.screenOps ((Output.write bytes).action t (k.terms.vars t)).2,
      op.Within (Set.Iio 4096))
    (h : k.terminalWrite bytes = some (k', r)) :
    k'.screens = k.screens.next (some (t, .write bytes)) := by
  simp only [terminalWrite, hterm, Option.map_eq_some_iff, Prod.mk.injEq] at h
  obtain ⟨k₁, hacc, rfl, -⟩ := h
  refine screens_output (fun off hoff => ?_) hops hacc
  obtain ⟨x, hx, hbase⟩ := hpaged.loaded
  rw [← hvideo t c hmem trivial, ← hbase]
  exact translate_video hpaged.wellFormed hx hoff

/-- A program is loaded above the pages of the screens. -/
theorem Paged.phys_load (hpaged : Paged k c) {n : Pid} {bytes : List UInt8}
    (h : (entered k c n).access programStart [.write 0 bytes] = some k') {a : ℕ} (ha : a < 2 ^ 23) :
    k'.phys a = k.phys a := by
  have hlt : ∀ p : Pid, (p : ℕ) < numTasks := fun p => lt_of_lt_of_le p.isLt (by decide)
  have hwf : WellFormed (entered k c n).lay (entered k c n).tables :=
    newPaging_wellFormed hpaged.wellFormed (hlt n) (hlt _)
  exact access_user hwf rfl (by decide) h ha

/-! ## Runs -/

/-- One event, on the logical screens. -/
theorem screens_step (hcons : Consistent k chains ps c) (hvideo : VideoFollows k chains)
    (hpaged : Paged k c) (hok : InPage k e) (hs : Step k chains c e k' chains') :
    k'.screens = k.screens.next (outputOf k e) := by
  cases hs with
  | kexecuteError => rfl
  | kexecuteFailed _ _ hacc =>
    have hphys : ∀ a < 2 ^ 23, k'.phys a = k.phys a := fun a ha => hpaged.phys_load hacc ha
    obtain ⟨m, rfl⟩ := access_eq_some hacc
    exact screens_congr rfl rfl hphys
  | @kexecuted _ _ _ n _ _ k₁ k₂ _ _ _ _ hacc _ hs hsw =>
    have hphys : ∀ a < 2 ^ 23, k₁.phys a = k.phys a := fun a ha => hpaged.phys_load hacc ha
    have hterms : k'.terms = k.terms := by
      obtain ⟨m, rfl⟩ := access_eq_some hacc
      rw [hsw.terms, hs.terms]
      rfl
    refine screens_congr (by rw [getCurrTerminal, hterms]; rfl) (by rw [hterms]) fun a ha => ?_
    rw [hsw.phys, hs.phys, hphys a ha]
  | restarted => rfl
  | khalted _ hs hsw =>
    have hterms : k'.terms = k.terms := by rw [hsw.terms, hs.terms]
    refine screens_congr (by rw [getCurrTerminal, hterms]; rfl) (by rw [hterms]) fun a _ => ?_
    rw [hsw.phys, hs.phys]
  | kvidmapError => rfl
  | @kvidmapped a _ ha hacc =>
    have hbase : a % 2 ^ 32 / 2 ^ 22 = usrDirEntry := (dirEntry_eq a).symm.trans ha
    have hwf : WellFormed k.lay (mapVidMemory k.tables c) :=
      mapVidMemory_wellFormed hpaged.wellFormed c
    have hphys : ∀ b < 2 ^ 23, k'.phys b = k.phys b := fun b hb =>
      access_user (k := { k with tables := mapVidMemory k.tables c, cr3 := some c }) hwf rfl hbase
        hacc hb
    obtain ⟨m, rfl⟩ := access_eq_some hacc
    exact screens_congr rfl rfl hphys
  | @fileCall call _ hcall =>
    have hout : outputOf k (.fileCall call)
        = (call.terminalBytes k).map fun bytes => (k.ownTerminal c, .write bytes) := by
      simp only [outputOf, hcons.currProcess, Option.bind_some]
    have hcells := hok.cells
    rw [hout] at hcells ⊢
    generalize call.terminalBytes k = out at hcall hcells ⊢
    cases hcall with
    | quiet hvars hterm heq =>
      refine screens_congr hterm hvars fun a _ => ?_
      rw [heq]
      rfl
    | @wrote _ bytes r hwrite =>
      obtain ⟨t, ht⟩ := hcons.leaf
      have hmem := List.mem_of_getLast? ht
      have hown : k.ownTerminal c = t := ownTerminal_eq hcons.toChained hmem
      have hterm : k.getCurrProcessTerminal = t := by
        rw [getCurrProcessTerminal, hcons.currProcess]
        exact hok.terminal t c (hcons.toChained.onChain_iff.mpr hmem)
      rw [hown] at hcells
      rw [Option.map_some, hown]
      exact hpaged.screens_write hvideo hmem hterm (hcells t (.write bytes) rfl) hwrite
  | tick hsw =>
    refine screens_congr ?_ (by rw [hsw.terms]) fun a _ => by rw [hsw.phys]
    rw [getCurrTerminal, hsw.terms]
    rfl
  | sameTerminal => rfl
  | switchTerminals hne h₁ h₂ => exact screens_switch hpaged hne h₁ h₂ rfl rfl
  | @putChar b _ hacc => exact hpaged.screens_key (o := .key b) (hok.cells _ _ rfl) hacc
  | clearTerminal hacc => exact hpaged.screens_key (o := .clear) (hok.cells _ _ rfl) hacc

/-- The kernel refines three private screens: every event acts on the logical screens as its
output acts on the abstract machine, and so does every run. -/
theorem private_screens {k₀ k : Kernel} {es : List Event} (hinit : system.init k₀)
    (hok : system.Allowed InPage k₀ es) (hrun : system.run k₀ es = some k) :
    k.screens = (system.labels outputOf k₀ es).foldl Screens.next k₀.screens ∧
    ∀ e k', InPage k e → system.step k e = some k' → k'.screens = k.screens.next (outputOf k e) := by
  let I : Kernel → Prop := fun k =>
    ∃ chains ps c, Consistent k chains ps c ∧ VideoFollows k chains ∧ Paged k c
  have hstep : ∀ k e k', I k → InPage k e → system.step k e = some k' →
      I k' ∧ k'.screens = k.screens.next (outputOf k e) := by
    rintro k e k' ⟨chains, ps, c, hcons, hvideo, hpaged⟩ hin hk'
    obtain ⟨chains', ps', c', hs, hcons'⟩ := hcons.step hk'
    exact ⟨⟨chains', ps', c', hcons', hvideo.step hcons hs, hpaged.step hcons hs hcons'⟩,
      screens_step hcons hvideo hpaged hin hs⟩
  have hstart : I k₀ := by
    obtain ⟨lay, img, pcbs, regA, phys, st, hboot⟩ := hinit
    have hb := boot_spec hboot
    exact ⟨_, _, _, hb.consistent, hb.videoFollows, hb.paged⟩
  obtain ⟨hI, hscreens⟩ := Run.System.refines outputOf hstep hstart hok hrun
  exact ⟨hscreens, fun e k' hin hk' => (hstep k e k' hI hin hk').2⟩

/-- Only shells run, each on its terminal, and the cursors are on their screens. -/
structure ShellsOnly (k : Kernel) : Prop where
  shell : ∀ t p, k.roots t = some p → (k.pcbs p).terminal = t ∧ (k.pcbs p).child = none
  cursor : ∀ t : Fin 3, Terminal.OnScreen (k.terms.vars t)

instance : DecidablePred ShellsOnly := fun _ =>
  decidable_of_iff (_ ∧ _) ⟨fun h => ⟨h.1, h.2⟩, fun h => ⟨h.shell, h.cursor⟩⟩

theorem ShellsOnly.roots_eq (h : ShellsOnly k) {t : Fin 3} {p : Pid} (hp : OnChain k t p) :
    k.roots t = some p := by
  induction hp with
  | root hroot => exact hroot
  | child _ hchild ih =>
    rw [(h.shell t _ ih).2] at hchild
    cases hchild

theorem ShellsOnly.ownTerminal (h : ShellsOnly k) {t : Fin 3} {p : Pid} (hroot : k.roots t = some p) :
    k.ownTerminal p = t := by
  have hex : OnChain k (k.ownTerminal p) p :=
    Classical.epsilon_spec (p := fun t => OnChain k t p) ⟨t, .root hroot⟩
  have hown := (h.shell _ p (h.roots_eq hex)).1
  rw [(h.shell t p hroot).1] at hown
  omega

/-- The output of shells and any key but a backspace stay inside the page. -/
theorem ShellsOnly.inPage (h : ShellsOnly k) (hkey : ∀ b, e = .putChar b → b ≠ Terminal.backspace)
    (hclear : e ≠ .clearTerminal) : InPage k e where
  terminal t p hp := (h.shell t p (h.roots_eq hp)).1
  cells t o hout := by
    cases e with
    | putChar b =>
      cases hout
      exact (Terminal.putChar_draws _ b _ ⟨h.cursor _, fun hb => absurd hb (hkey b rfl)⟩).2
    | clearTerminal => exact absurd rfl hclear
    | fileCall call =>
      obtain ⟨p, -, hbytes⟩ := Option.bind_eq_some_iff.mp hout
      obtain ⟨bytes, -, heq⟩ := Option.map_eq_some_iff.mp hbytes
      cases heq
      exact (Terminal.terminalWrite_draws _ bytes _ (h.cursor _)).2
    | _ => cases hout

/-- `hi` to the standard output. -/
def sampleWrite : Call := .kwrite 1 (some fun i => if i = 0 then 0x68 else 0x69) 2

/-- The shell of terminal 1 writes while terminal 0 is displayed, a key is typed, and terminal 1 is
displayed. -/
theorem private_screens_background : ∃ k₀ k, sampleBoot = some k₀ ∧
    system.run k₀ [.tick, .fileCall sampleWrite, .putChar 0x61, .switchTerminals 1] = some k ∧
    k.screens = (k₀.screens.next (some (1, .write [0x68, 0x69]))).next (some (0, .key 0x61)) := by
  have heval : sampleBoot.any fun k₀ => (system.step k₀ .tick).any fun k₁ =>
      (system.step k₁ (.fileCall sampleWrite)).any fun k₂ => (system.step k₂ (.putChar 0x61)).any
        fun k₃ => decide ((ShellsOnly k₀ ∧ ShellsOnly k₁ ∧ ShellsOnly k₂ ∧ ShellsOnly k₃) ∧
          k₁.currProcess = some 1 ∧ k₁.roots 1 = some 1 ∧
          sampleWrite.terminalBytes k₁ = some [0x68, 0x69] ∧ k₂.getCurrTerminal = 0) := by
    decide +kernel
  obtain ⟨k₀, hk₀, heval⟩ := (Option.any_eq_true _ _).mp heval
  obtain ⟨k₁, hk₁, heval⟩ := (Option.any_eq_true _ _).mp heval
  obtain ⟨k₂, hk₂, heval⟩ := (Option.any_eq_true _ _).mp heval
  obtain ⟨k₃, hk₃, heval⟩ := (Option.any_eq_true _ _).mp heval
  obtain ⟨⟨h₀, h₁, h₂, h₃⟩, hcurr, hroot, hbytes, hterm⟩ := of_decide_eq_true heval
  have hinit : system.init k₀ := ⟨_, _, _, _, _, _, hk₀⟩
  have hreach : Run.Reach system Run.Free k₃ :=
    (((Run.Reach.init hinit).step trivial hk₁).step trivial hk₂).step trivial hk₃
  -- the copies of the switch are too many to be evaluated
  obtain ⟨chains, ps, c, hcons, hpaged⟩ := Reach.paged hreach
  obtain ⟨k, hk⟩ := hpaged.exists_switchTerminals hcons 1
  have hk' : system.step k₃ (.switchTerminals 1) = some k := hk
  have hok : system.Allowed InPage k₀ [.tick, .fileCall sampleWrite, .putChar 0x61,
      .switchTerminals 1] := by
    refine ⟨h₀.inPage nofun nofun, fun k hk => ?_⟩
    obtain rfl := Option.some.inj (hk.symm.trans hk₁)
    refine ⟨h₁.inPage nofun nofun, fun k hk => ?_⟩
    obtain rfl := Option.some.inj (hk.symm.trans hk₂)
    refine ⟨h₂.inPage (fun b hb => ?_) nofun, fun k hk => ?_⟩
    · cases hb
      decide
    · obtain rfl := Option.some.inj (hk.symm.trans hk₃)
      exact ⟨h₃.inPage nofun nofun, fun _ _ => trivial⟩
  have hrun : system.run k₀ [.tick, .fileCall sampleWrite, .putChar 0x61, .switchTerminals 1]
      = some k := by
    simp only [Run.System.run, hk₁, hk₂, hk₃, hk', Option.bind_some]
  have hwrite : outputOf k₁ (.fileCall sampleWrite) = some (1, .write [0x68, 0x69]) := by
    rw [outputOf, hcurr, Option.bind_some, hbytes, h₁.ownTerminal hroot]
    rfl
  have hkey : outputOf k₂ (.putChar 0x61) = some (0, .key 0x61) := by
    rw [outputOf, hterm]
  refine ⟨k₀, k, hk₀, hrun, ?_⟩
  have hscreens := (private_screens hinit hok hrun).1
  simp only [Run.System.labels, hk₁, hk₂, hk₃, hk', hwrite, hkey, Option.map_some, Option.getD_some,
    List.foldl_cons, List.foldl_nil] at hscreens
  exact hscreens

end Kernel
end GalapagOS
