import GalapagOS.Kernel.Video

/-!
# The terminal of a process

`pcb_init` takes the terminal of a program from the display, not from the parent, and copies the
argument string in front of it without a bound. The field agrees with the chain of the process
as long as programs are started on the displayed terminal with arguments that fit.
-/

namespace GalapagOS
namespace Kernel

open FileSystem Memory

variable {k k' : Kernel} {chains chains' : Fin 3 → List Pid} {ps : List Pid} {c : Pid} {e : Event}

/-! ## The bytes of the field -/

theorem terminal_congr {b b' : Pcb} (h : ∀ j < 4, b'.tail (Pcb.terminalOffset + j)
    = b.tail (Pcb.terminalOffset + j)) : b'.terminal = b.terminal := by
  have hword : word (fun j => b'.tail (Pcb.terminalOffset + j))
      = word fun j => b.tail (Pcb.terminalOffset + j) := by
    simp only [word, h 0 (by decide), h 1 (by decide), h 2 (by decide), h 3 (by decide)]
  rw [Pcb.terminal, Pcb.terminal, hword]

/-- Strings that end before the field leave it alone. -/
theorem terminal_copyStrings (b : Pcb) {cmd args : List UInt8} (hcmd : cmd.length ≤ 141)
    (hargs : args.length ≤ 108) : (b.copyStrings cmd args).terminal = b.terminal := by
  refine terminal_congr fun j _ => ?_
  have hc : 0 + (cmd ++ [0]).length ≤ Pcb.terminalOffset + j := by
    simp only [List.length_append, List.length_singleton, Pcb.terminalOffset]
    omega
  have ha : Pcb.argsOffset + (args ++ [0]).length ≤ Pcb.terminalOffset + j := by
    simp only [List.length_append, List.length_singleton, Pcb.terminalOffset, Pcb.argsOffset]
    omega
  rw [Pcb.copyStrings]
  dsimp only
  rw [place_of_le _ ha, place_of_le _ hc]

theorem length_command_le (line : List UInt8) : (line.take (commandEnd line)).length ≤ 128 := by
  rw [List.length_take]
  have hle : commandEnd line ≤ (line.take 128).length :=
    List.Sublist.length_le (List.takeWhile_sublist _)
  rw [List.length_take] at hle
  omega

/-! ## Along a run -/

/-- Every process on a chain has the terminal of the chain. -/
def Owned (k : Kernel) (chains : Fin 3 → List Pid) : Prop :=
  ∀ t, ∀ p ∈ chains t, (k.pcbs p).terminal = t

/-- Programs are started by a process whose terminal is displayed, and their arguments end
before the field `terminal` of the control block. -/
def StartsInView (k : Kernel) : Event → Prop
  | .kexecute (some line) st => ∀ c, k.currProcess = some c → (freePidIdx k.pidArr).isSome →
      (findExecutable k.img (line.take (commandEnd line))).isSome →
      (k.pcbs c).terminal = k.getCurrTerminal ∧ (argsString line st).length ≤ 108
  | _ => True

theorem Owned.congr (h : Owned k chains) (hpcbs : ∀ p, (k'.pcbs p).terminal = (k.pcbs p).terminal) :
    Owned k' chains := by
  intro t p hp
  rw [hpcbs p, h t p hp]

/-- The terminal of a new process. -/
theorem Started.terminal {n : Pid} {cmd args : List UInt8} (hs : Started k c n cmd args k')
    (hcmd : cmd.length ≤ 141) (hargs : args.length ≤ 108) (p : Pid) :
    (k'.pcbs p).terminal = if p = n then (k.getCurrTerminal : ℤ) else (k.pcbs p).terminal := by
  split
  · rename_i hp
    have htail := hs.tail p
    rw [if_pos hp] at htail
    have hterm : (k'.pcbs p).terminal
        = (((k.pcbs n).setTerminal k.getCurrTerminal).copyStrings cmd args).terminal :=
      terminal_congr fun j _ => by rw [htail]
    rw [hterm, terminal_copyStrings _ hcmd hargs]
    exact terminal_setTerminal _ (lt_trans k.getCurrTerminal.isLt (by decide))
  · rename_i hp
    have htail := hs.tail p
    rw [if_neg hp] at htail
    exact terminal_congr fun j _ => by rw [htail]

theorem Owned.step (h : Owned k chains) (hcons : Consistent k chains ps c)
    (hok : StartsInView k e) (hs : Step k chains c e k' chains') : Owned k' chains' := by
  cases hs with
  | kexecuteError => exact h
  | kexecuteFailed _ _ hacc =>
    obtain ⟨m, rfl⟩ := access_eq_some hacc
    exact h
  | @kexecuted line st t n m bytes k₁ k₂ _ ht hn _ hacc hfind hs hsw =>
    have hmem := List.mem_of_getLast? ht
    obtain ⟨hview, hargs⟩ := hok c hcons.currProcess (by rw [hn]; rfl) hfind
    rw [h t c hmem] at hview
    obtain ⟨m', rfl⟩ := access_eq_some hacc
    have hterm := hs.terminal (le_trans (length_command_le line) (by decide)) hargs
    intro t' p hp
    rw [hsw.pcbs, hterm p]
    rcases Forest.IsForest.mem_update_concat.mp hp with hp | ⟨hpn, he⟩
    · have hpn : p ≠ n := fun he => not_live_of_free hn (he ▸ hcons.forest.live_of_mem hp)
      rw [if_neg hpn]
      exact h t' p hp
    · rw [if_pos hpn, he]
      exact hview.symm
  | restarted => exact h
  | @khalted status t l q m k₁ _ hl hs hsw =>
    intro t' p hp
    rw [hsw.pcbs, hs.terminal p]
    have hsplit : chains t = (l ++ [q]) ++ [c] := by rw [hl]; simp
    exact h t' p ((hcons.forest.mem_update_init hsplit).mp hp).1
  | kvidmapError => exact h
  | kvidmapped _ hacc =>
    obtain ⟨m, rfl⟩ := access_eq_some hacc
    exact h
  | fileCall hcall => exact h.congr (hcall.field Pcb.terminal fun _ _ => rfl)
  | tick hsw => exact h.congr fun p => by rw [hsw.pcbs]
  | sameTerminal => exact h
  | switchTerminals _ h₁ h₂ =>
    obtain ⟨m₁, rfl⟩ := access_eq_some h₁
    obtain ⟨m₂, rfl⟩ := access_eq_some h₂
    exact h
  | putChar hkey =>
    obtain ⟨m, rfl⟩ := keyboardOutput_eq_some hkey
    exact h
  | clearTerminal hkey =>
    obtain ⟨m, rfl⟩ := keyboardOutput_eq_some hkey
    exact h

/-- A process has the terminal of its chain, which is also its parent's. -/
theorem terminal_of_chain (h : Run.Reach system StartsInView k) (t : Fin 3) (p : Pid)
    (hp : OnChain k t p) : (k.pcbs p).terminal = t ∧
      ∀ q, (k.pcbs p).parent = some q → (k.pcbs p).terminal = (k.pcbs q).terminal := by
  have hboot : ∀ k, Booted k → Owned k fun t => [rootPid t] := by
    intro k hb t p hp
    have hroot : ∀ t, rootPid t ≤ 2 := by decide
    rw [List.mem_singleton.mp hp, hb.terminal _ (hroot t)]
    rfl
  obtain ⟨chains, ps, c, hcons, howned⟩ := Reach.along (I := fun k chains _ => Owned k chains)
    h hboot fun hcons howned hok hs _ => howned.step hcons hok hs
  have hmem := hcons.toChained.mem_of_onChain hp
  refine ⟨howned t p hmem, fun q hq => ?_⟩
  rw [howned t p hmem, howned t q (hcons.forest.parent_mem hmem hq)]

/-- A program of the displayed terminal. -/
theorem terminal_of_chain_foreground :
    ∃ k, Run.Reach system StartsInView k ∧ OnChain k 0 3 ∧ (k.pcbs 3).terminal = 0 := by
  have hrun : sampleBoot.bind (fun k => ((Event.kexecute (some shellCommand)
      ⟨0, [], fun _ => 0⟩).exec k).map fun k' => decide (k.currProcess = some 0 ∧
        (k.pcbs 0).terminal = k.getCurrTerminal ∧ k'.roots 0 = some 0 ∧
        (k'.pcbs 0).child = some 3)) = some true := by decide
  obtain ⟨k₀, hk₀, hrun⟩ := Option.bind_eq_some_iff.mp hrun
  obtain ⟨k, hk, hfields⟩ := Option.map_eq_some_iff.mp hrun
  obtain ⟨hcurr, hview, hroot, hchild⟩ := of_decide_eq_true hfields
  have hinit : system.init k₀ := ⟨_, _, _, _, _, _, hk₀⟩
  have hok : StartsInView k₀ (.kexecute (some shellCommand) ⟨0, [], fun _ => 0⟩) := by
    intro c hc _ _
    rw [← Option.some.inj (hcurr.symm.trans hc)]
    exact ⟨hview, by decide⟩
  have hreach : Run.Reach system StartsInView k := (Run.Reach.init hinit).step hok hk
  have hchain : OnChain k 0 3 := .child (.root hroot) hchild
  exact ⟨k, hreach, hchain, (terminal_of_chain hreach 0 3 hchain).1⟩

/-- A program that shell 1 starts while terminal 0 is displayed. -/
theorem terminal_of_chain_background :
    ∃ k, Run.Reach system Run.Free k ∧ OnChain k 1 3 ∧ (k.pcbs 3).terminal ≠ 1 := by
  have hrun : (sampleRun backgroundStart).map (fun k => decide (k.roots 1 = some 1 ∧
      (k.pcbs 1).child = some 3 ∧ (k.pcbs 3).terminal ≠ 1)) = some true := by decide
  obtain ⟨k, hk, hfields⟩ := Option.map_eq_some_iff.mp hrun
  obtain ⟨hroot, hchild, hterm⟩ := of_decide_eq_true hfields
  exact ⟨k, sampleRun_reach (fun k₀ _ => system.allowed_free _ k₀) hk,
    .child (.root hroot) hchild, hterm⟩

end Kernel
end GalapagOS
