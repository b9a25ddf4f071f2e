import GalapagOS.Kernel.Admission
import GalapagOS.Kernel.Buffers

/-!
# Arguments on the way to the program

`kexecute` cuts the command line into a word and an argument text and copies both into the control
block of the new process, where `kget_args` finds them. The copies have no bounds of their own:
a text of more than 99 characters runs into the fields behind `args`. They reach the program
unchanged and stay until it halts.
-/

namespace GalapagOS
namespace Kernel

open FileSystem Memory CString

variable {k k' : Kernel} {chains : Fin 3 → List Pid} {ps : List Pid} {c n : Pid}
  {line : List UInt8} {st st' : Stale}

/-! ## The strings in the control block -/

/-- The two copies of `pcb_init` are the stores of two calls of `strcpy`. -/
theorem tail_copyStrings (b : Pcb) (cmd args : List UInt8) :
    (b.copyStrings cmd args).tail
      = applyAll (strcpy 0 cmd ++ strcpy Pcb.argsOffset args) b.tail := by
  rw [applyAll_append, applyAll_strcpy, applyAll_strcpy]
  rfl

theorem args_copyStrings (b : Pcb) (cmd : List UInt8) {args : List UInt8} (hargs : 0 ∉ args) :
    Text (fun j => (b.copyStrings cmd args).tail (Pcb.argsOffset + j)) args :=
  text_place hargs Pcb.argsOffset _

theorem command_copyStrings (b : Pcb) {cmd : List UInt8} (args : List UInt8) (hcmd : 0 ∉ cmd)
    (hlen : cmd.length ≤ 32) : Text (b.copyStrings cmd args).tail cmd := by
  have hcopied := text_place hcmd 0 b.tail
  refine ⟨hcmd, fun i hi => ?_⟩
  have hlt : i < Pcb.argsOffset := by
    unfold Pcb.argsOffset
    omega
  show place Pcb.argsOffset (args ++ [0]) (place 0 (cmd ++ [0]) b.tail) i = _
  rw [place_of_lt hlt]
  simpa only [Nat.zero_add] using hcopied.2 i hi

/-- The control block of a process that was started after boot. -/
theorem kexecute_tail (h : Run.Reach system Run.Free k)
    (hexec : k.kexecute (some line) st = some (k', none)) :
    ∃ n, freePidIdx k.pidArr = some n ∧ k'.Live n ∧ (k'.pcbs n).tail
      = (((k.pcbs n).setTerminal k.getCurrTerminal).copyStrings (line.take (commandEnd line))
          (argsString line st)).tail := by
  obtain ⟨chains, ps, c, hcons⟩ := Reach.consistent h
  have hcases := kexecute_cases hexec hcons.currProcess hcons.live fun p hp => hcons.live_root hp
  cases hcases with
  | @started n bytes line' k₁ k₂ _ hfree hn hacc hline hfind hstart hpit =>
    cases hline
    obtain ⟨m, rfl⟩ := access_eq_some hacc
    refine ⟨n, hfree, ?_, ?_⟩
    · rw [Live, pitHandler_eq_some hpit]
      dsimp only
      rw [hstart.pidArr, Function.update_self]
    · rw [pitHandler_eq_some hpit]
      dsimp only
      rw [hstart.tail, if_pos rfl]
      rfl

/-! ## Until the process halts -/

/-- The event is not `khalt` of process `n`. -/
def NotHalted (n : Pid) (k : Kernel) (e : Event) : Prop :=
  ∀ status, e = .khalt status → k.currProcess ≠ some n

/-- The strings of a live process stay, as far as they lie in `command` and `args`: behind them the
stack pointers of the process are saved. -/
theorem Consistent.strings_step (hcons : Consistent k chains ps c) {e : Event}
    (he : e.exec k = some k') (hlive : k.Live n) (hok : NotHalted n k e) :
    k'.Live n ∧ ∀ off < Pcb.espOffset, (k'.pcbs n).tail off = (k.pcbs n).tail off := by
  have hsame : k'.pidArr = k.pidArr → k'.pcbs = k.pcbs →
      k'.Live n ∧ ∀ off < Pcb.espOffset, (k'.pcbs n).tail off = (k.pcbs n).tail off := by
    intro hpidArr hpcbs
    refine ⟨?_, fun off _ => by rw [hpcbs]⟩
    rw [Live, hpidArr]
    exact hlive
  obtain ⟨chains', ps', c', hs, -⟩ := hcons.step he
  cases hs with
  | kexecuteError => exact hsame rfl rfl
  | kexecuteFailed _ _ hacc =>
    obtain ⟨m, rfl⟩ := access_eq_some hacc
    exact hsame rfl rfl
  | @kexecuted _ _ _ n' _ _ k₁ k₂ _ _ hfree _ hacc _ hs hsw =>
    obtain ⟨m, rfl⟩ := access_eq_some hacc
    -- the new process gets a number that was free
    have hne : n ≠ n' := fun heq => not_live_of_free hfree (heq ▸ hlive)
    constructor
    · rw [Live, hsw.pidArr]
      exact (hs.live_iff n).mpr (.inl hlive)
    · intro off _
      rw [hsw.pcbs, hs.tail, if_neg hne]
      rfl
  | restarted => exact hsame rfl rfl
  | @khalted status _ _ _ _ _ _ _ hs hsw =>
    have hne : n ≠ c := fun heq => hok status rfl (heq ▸ hcons.currProcess)
    constructor
    · rw [Live, hsw.pidArr]
      exact (hs.live_iff n).mpr ⟨hlive, hne⟩
    · intro off hoff
      refine field_khalt (fun b => b.tail off) (fun b s => ?_) (fun _ => rfl) (fun _ => rfl)
        (fun _ _ => rfl) he hcons.currProcess hcons.desc (hcons.files c hcons.live) n
      exact place_of_lt (lt_trans hoff (by decide)) [s] b.tail
  | kvidmapError => exact hsame rfl rfl
  | kvidmapped _ hacc =>
    obtain ⟨m, rfl⟩ := access_eq_some hacc
    exact hsame rfl rfl
  | fileCall hcall =>
    constructor
    · rw [Live, hcall.pidArr]
      exact hlive
    · exact fun off _ => hcall.field (fun b => b.tail off) (fun _ _ => rfl) n
  | tick hsw => exact hsame hsw.pidArr hsw.pcbs
  | sameTerminal => exact hsame rfl rfl
  | switchTerminals _ h₁ h₂ =>
    obtain ⟨m₁, rfl⟩ := access_eq_some h₁
    obtain ⟨m₂, rfl⟩ := access_eq_some h₂
    exact hsame rfl rfl
  | putChar hkey =>
    obtain ⟨m, rfl⟩ := keyboardOutput_eq_some hkey
    exact hsame rfl rfl
  | clearTerminal hkey =>
    obtain ⟨m, rfl⟩ := keyboardOutput_eq_some hkey
    exact hsame rfl rfl

/-- They stay along every run in which the process does not halt. -/
theorem strings_run {k'' : Kernel} (hreach : Run.Reach system Run.Free k') (hlive : k'.Live n)
    (h : Run.Reach (system.startingAt k') (NotHalted n) k'') :
    ∀ off < Pcb.espOffset, (k''.pcbs n).tail off = (k'.pcbs n).tail off := by
  suffices hinv : Run.Reach system Run.Free k'' ∧ k''.Live n ∧
      ∀ off < Pcb.espOffset, (k''.pcbs n).tail off = (k'.pcbs n).tail off from hinv.2.2
  refine h.invariant (I := fun k => Run.Reach system Run.Free k ∧ k.Live n ∧
    ∀ off < Pcb.espOffset, (k.pcbs n).tail off = (k'.pcbs n).tail off) ?_ ?_
  · rintro _ rfl
    exact ⟨hreach, hlive, fun _ _ => rfl⟩
  · rintro k e k₁ ⟨hk, hkn, htail⟩ hok he
    obtain ⟨chains, ps, c, hcons⟩ := Reach.consistent hk
    obtain ⟨hlive₁, htail₁⟩ := hcons.strings_step he hkn hok
    exact ⟨hk.step trivial he, hlive₁, fun off hoff => (htail₁ off hoff).trans (htail off hoff)⟩

/-! ## What the program gets -/

/-- The new process has the word as its command and the text as its arguments, and gets the text
from `kget_args` as long as it runs. -/
theorem arguments_delivered (h : Run.Reach system Run.Free k)
    (hexec : k.kexecute (some line) st = some (k', none)) (hlen : line.length < 128)
    (hword : (commandWord line).length ≤ 32) (htext : argumentText line ≠ [])
    (hfit : (argumentText line).length ≤ 99) :
    ∃ n, ¬k.Live n ∧ k'.Live n ∧ Text (k'.pcbs n).tail (commandWord line) ∧
      Text (fun j => (k'.pcbs n).tail (Pcb.argsOffset + j)) (argumentText line) ∧
      ∀ k'' buf nbytes, Run.Reach (system.startingAt k') (NotHalted n) k'' →
        k''.currProcess = some n → buf ≠ 0 → ((argumentText line).length : ℤ) < nbytes →
        k''.kgetArgs buf nbytes = some ⟨0, argumentText line ++ [0]⟩ := by
  have hword' : (commandWord line).length ≤ 128 := by omega
  have hend := argsStart_add_le hword'
  have hargs : argsString line st = argumentText line :=
    argsString_eq hword' (.inl (getD_argsStart hword' htext)) (by omega)
  have hnul := zero_notMem_argumentText line
  obtain ⟨n, hfree, hlive, htail⟩ := kexecute_tail h hexec
  rw [take_commandEnd_eq hword', hargs] at htail
  have hstored : Text (fun j => (k'.pcbs n).tail (Pcb.argsOffset + j)) (argumentText line) := by
    rw [htail]
    exact args_copyStrings _ _ hnul
  refine ⟨n, not_live_of_free hfree, hlive, ?_, hstored, fun k'' buf nbytes hrun hcurr hbuf hn => ?_⟩
  · rw [htail]
    exact command_copyStrings _ _ (zero_notMem_commandWord line) hword
  · have hstep : system.step k (.kexecute (some line) st) = some k' := by
      show (k.kexecute (some line) st).map Prod.fst = some k'
      rw [hexec, Option.map_some]
    have hreach : Run.Reach system Run.Free k' := h.step trivial hstep
    have hkept := strings_run hreach hlive hrun
    apply kgetArgs_eq hbuf (by omega) hcurr _ (by omega)
    refine ⟨hnul, fun i hi => ?_⟩
    show (k''.pcbs n).tail (Pcb.argsOffset + i) = _
    rw [hkept _ (by unfold Pcb.argsOffset Pcb.espOffset; omega)]
    exact hstored.2 i hi

/-- `shell  a b` and a newline. -/
def shellArguments : List UInt8 := shellCommand ++ [0x20, 0x20, 0x61, 0x20, 0x62, 0x0a]

/-- The new shell is the only new process; two ticks later it runs and asks for its arguments. -/
theorem arguments_delivered_shell : ∃ k k' k'', sampleBoot = some k ∧
    k.kexecute (some shellArguments) ⟨0, [], fun _ => 0⟩ = some (k', none) ∧
    system.run k' [.tick, .tick] = some k'' ∧
    k''.kgetArgs 1 4 = some ⟨0, [0x61, 0x20, 0x62, 0]⟩ := by
  have heval : sampleBoot.map (fun k =>
      (k.kexecute (some shellArguments) ⟨0, [], fun _ => 0⟩).any fun x => x.2 = none &&
        decide (∀ p, k.pidArr p = false → x.1.pidArr p = true → p = 3) &&
        (system.run x.1 [.tick, .tick]).any fun k'' => k''.currProcess = some 3)
      = some true := by
    decide +kernel
  obtain ⟨k, hk, hfacts⟩ := Option.map_eq_some_iff.mp heval
  simp only [Bool.and_eq_true, decide_eq_true_eq, Option.any_eq_true] at hfacts
  obtain ⟨⟨k', r⟩, hexec, ⟨hr, honly⟩, k'', hrun, hcurr⟩ := hfacts
  obtain rfl : r = none := hr
  have hreach : Run.Reach system Run.Free k := .init ⟨_, _, _, _, _, _, hk⟩
  obtain ⟨n, hfree, hlive, -, -, hargs⟩ := arguments_delivered hreach hexec (by decide) (by decide)
    (by decide) (by decide)
  obtain rfl : n = 3 := honly n (by simpa [Live] using hfree) hlive
  have hlater : Run.Reach (system.startingAt k') (NotHalted 3) k'' := by
    have hrun' : (system.startingAt k').run k' [.tick, .tick] = some k'' := hrun
    refine (Run.Reach.init rfl).run ?_ hrun'
    refine (system.startingAt k').allowed_of_forall (fun e he s status heq => ?_) k'
    rw [heq] at he
    simp at he
  exact ⟨k, k', k'', hk, hexec, hrun, hargs k'' 1 4 hlater hcurr (by decide) (by decide)⟩

/-! ## What it depends on -/

/-- Two runs of the call with different uninitialised locals: if they start a process, it has the same
arguments in both, and none if the command has no text. -/
def SameArguments (k : Kernel) (line : List UInt8) (st st' : Stale) : Prop :=
  ∀ n k₁ k₂, freePidIdx k.pidArr = some n → k.kexecute (some line) st = some (k₁, none) →
    k.kexecute (some line) st' = some (k₂, none) →
    ∃ s, Text (fun j => (k₁.pcbs n).tail (Pcb.argsOffset + j)) s ∧
      Text (fun j => (k₂.pcbs n).tail (Pcb.argsOffset + j)) s ∧ (argumentText line = [] → s = [])

/-- Text or a newline follows the word and its spaces, or the locals are clear by chance: `no_args` is
0, or `args` starts with a NUL. -/
def ClearLocals (line : List UInt8) (st : Stale) : Prop :=
  line.getD (argsStart line) 0 ≠ 0 ∨ st.noArgs = 0 ∨ st.args.headD 0 = 0

theorem takeWhile_ne_zero_eq_nil {l : List UInt8} : l.takeWhile (· ≠ 0) = [] ↔ l.headD 0 = 0 := by
  cases l with
  | nil => simp
  | cons b l => simp [List.takeWhile_cons]

/-- The arguments that the new process finds. -/
theorem text_args (h : Run.Reach system Run.Free k)
    (hexec : k.kexecute (some line) st = some (k', none)) (hfree : freePidIdx k.pidArr = some n) :
    Text (fun j => (k'.pcbs n).tail (Pcb.argsOffset + j)) (argsString line st) := by
  obtain ⟨n', hfree', -, htail⟩ := kexecute_tail h hexec
  cases hfree.symm.trans hfree'
  rw [htail]
  exact args_copyStrings _ _ (zero_notMem_argsString line st)

section

variable (hlen : line.length < 128)

include hlen

/-- The arguments are the text exactly if the locals do not matter. -/
theorem argsString_eq_iff : argsString line st = argumentText line ↔ ClearLocals line st := by
  have hword : (commandWord line).length ≤ 128 :=
    (List.takeWhile_prefix _).length_le.trans hlen.le
  have hend := argsStart_add_le hword
  by_cases hflag : line.getD (argsStart line) 0 ≠ 0 ∨ st.noArgs = 0
  · exact ⟨fun _ => hflag.imp_right .inl, fun _ => argsString_eq hword hflag (by omega)⟩
  · have htext : argumentText line = [] := by
      by_contra htext
      exact hflag (.inl (getD_argsStart hword htext))
    rw [argsString_of_stale hflag, htext, takeWhile_ne_zero_eq_nil]
    refine ⟨fun h => .inr (.inr h), ?_⟩
    rintro (h | h | h)
    · exact absurd (.inl h) hflag
    · exact absurd (.inr h) hflag
    · exact h

theorem argsString_ne_nil (h : ¬ClearLocals line st) :
    argumentText line = [] ∧ argsString line st ≠ [] := by
  have hword : (commandWord line).length ≤ 128 :=
    (List.takeWhile_prefix _).length_le.trans hlen.le
  have htext : argumentText line = [] := by
    by_contra htext
    exact h (.inl (getD_argsStart hword htext))
  refine ⟨htext, fun hnil => h ((argsString_eq_iff hlen).mp ?_)⟩
  rw [hnil, htext]

/-- From every state after boot, two calls that differ in what `no_args` and `args` held before give
the new process the same arguments, none if there is no text, exactly if no process is started or the
locals do not matter in either run. -/
theorem arguments_from_command (h : Run.Reach system Run.Free k) (st st' : Stale) :
    SameArguments k line st st' ↔
      (Starts k line → ClearLocals line st ∧ ClearLocals line st') := by
  constructor
  · intro hsame hstarts
    obtain ⟨k₁, hk₁⟩ := (kexecute_starts_iff h line st).mpr hstarts
    obtain ⟨k₂, hk₂⟩ := (kexecute_starts_iff h line st').mpr hstarts
    obtain ⟨n, e, hfree, -⟩ := hstarts
    obtain ⟨s, hs₁, hs₂, hempty⟩ := hsame n k₁ k₂ hfree hk₁ hk₂
    have h₁ : s = argsString line st := hs₁.unique (text_args h hk₁ hfree)
    have h₂ : s = argsString line st' := hs₂.unique (text_args h hk₂ hfree)
    constructor
    · by_contra hclear
      obtain ⟨htext, hne⟩ := argsString_ne_nil hlen hclear
      exact hne (h₁ ▸ hempty htext)
    · by_contra hclear
      obtain ⟨htext, hne⟩ := argsString_ne_nil hlen hclear
      exact hne (h₂ ▸ hempty htext)
  · intro hcond n k₁ k₂ hfree hk₁ hk₂
    obtain ⟨hclear, hclear'⟩ := hcond ((kexecute_starts_iff h line st).mp ⟨k₁, hk₁⟩)
    refine ⟨argumentText line, ?_, ?_, id⟩
    · rw [← (argsString_eq_iff hlen).mpr hclear]
      exact text_args h hk₁ hfree
    · rw [← (argsString_eq_iff hlen).mpr hclear']
      exact text_args h hk₂ hfree

end

/-- With a newline the bytes on the stack do not matter. -/
theorem arguments_from_command_newline : ∃ k, sampleBoot = some k ∧
    SameArguments k (shellCommand ++ [0x0a]) ⟨1, [0x61], fun _ => 0⟩ ⟨1, [0x62], fun _ => 0⟩ := by
  obtain ⟨k, hk⟩ := Option.isSome_iff_exists.mp (show sampleBoot.isSome by decide +kernel)
  have hreach : Run.Reach system Run.Free k := .init ⟨_, _, _, _, _, _, hk⟩
  exact ⟨k, hk, (arguments_from_command (by decide) hreach _ _).mpr fun _ =>
    ⟨.inl (by decide), .inl (by decide)⟩⟩

/-- Without it the program gets them: the command `shell`, once with `a` and once with `b` in the
place of `args`. -/
theorem arguments_from_command_stale : ∃ k, Run.Reach system Run.Free k ∧
    argumentText shellCommand = [] ∧
    (∃ k', k.kexecute (some shellCommand) ⟨1, [0x61], fun _ => 0⟩ = some (k', none) ∧
      ¬k.Live 3 ∧ k'.Live 3 ∧ (k'.pcbs 3).tail Pcb.argsOffset = 0x61) ∧
    ∃ k', k.kexecute (some shellCommand) ⟨1, [0x62], fun _ => 0⟩ = some (k', none) ∧
      ¬k.Live 3 ∧ k'.Live 3 ∧ (k'.pcbs 3).tail Pcb.argsOffset = 0x62 := by
  have heval : sampleBoot.map (fun k => decide (k.pidArr 3 = false) &&
      ((k.kexecute (some shellCommand) ⟨1, [0x61], fun _ => 0⟩).any fun x => decide
        (x.2 = none ∧ x.1.pidArr 3 = true ∧ (x.1.pcbs 3).tail Pcb.argsOffset = 0x61)) &&
      (k.kexecute (some shellCommand) ⟨1, [0x62], fun _ => 0⟩).any fun x => decide
        (x.2 = none ∧ x.1.pidArr 3 = true ∧ (x.1.pcbs 3).tail Pcb.argsOffset = 0x62))
      = some true := by
    decide +kernel
  obtain ⟨k, hk, hfacts⟩ := Option.map_eq_some_iff.mp heval
  simp only [Bool.and_eq_true, decide_eq_true_eq, Option.any_eq_true] at hfacts
  obtain ⟨⟨hfree, ⟨k₁, r₁⟩, hk₁, hr₁, hlive₁, ha⟩, ⟨k₂, r₂⟩, hk₂, hr₂, hlive₂, hb⟩ := hfacts
  obtain rfl : r₁ = none := hr₁
  obtain rfl : r₂ = none := hr₂
  have hdead : ¬k.Live 3 := by
    rw [Live, hfree]
    exact Bool.false_ne_true
  exact ⟨k, .init ⟨_, _, _, _, _, _, hk⟩, by decide, ⟨k₁, hk₁, hdead, hlive₁, ha⟩, k₂, hk₂, hdead,
    hlive₂, hb⟩

/-! ## Where it is stored -/

/-- The bytes of `command`, of `args`, and of the fields from `esp` to `ret_status`. -/
def commandBytes : Set ℕ := Set.Iio 33

def argsBytes : Set ℕ := Set.Ico 33 133

def savedBytes : Set ℕ := Set.Ico 133 142

/-- Every store of the parser and of the two copies stays inside its array, `args` is terminated when
it is copied, and the copies leave the fields behind `args` as they are; the terminal of the new
process is the one that `pcb_init` gives it. -/
structure StoresFit (k : Kernel) (line : List UInt8) (st : Stale) (k' : Kernel) : Prop where
  cmd : ∀ op ∈ cmdStores line, op.Within (Set.Iio (commandEnd line + 1))
  args : ∀ op ∈ argsStores line st, op.Within (Set.Iio (128 - argsStart line))
  terminated : ∃ j < 128 - argsStart line, applyAll (argsStores line st) (ofString st.args) j = 0
  command : ∀ op ∈ strcpy 0 (line.take (commandEnd line)), op.Within commandBytes
  arguments : ∀ op ∈ strcpy Pcb.argsOffset (argsString line st), op.Within argsBytes
  fields : ∃ n, ¬k.Live n ∧ k'.Live n ∧ (∀ b : Pcb, ∀ off ∈ savedBytes,
      (b.copyStrings (line.take (commandEnd line)) (argsString line st)).tail off = b.tail off) ∧
    (k'.pcbs n).terminal = k.getCurrTerminal

/-- The string that is left in `args`: the text, or what the stack held if the NUL follows the word and
`no_args` happens to be set. -/
def leftInArgs (line : List UInt8) (st : Stale) : List UInt8 :=
  if line.getD (argsStart line) 0 ≠ 0 ∨ st.noArgs = 0 then argumentText line
  else st.args.takeWhile (· ≠ 0)

/-- The word has at most 32 characters, the string in `args` at most 99, and it ends inside the
array. -/
structure FitsPcb (line : List UInt8) (st : Stale) : Prop where
  word : (commandWord line).length ≤ 32
  length : (leftInArgs line st).length ≤ 99
  ends : argsStart line + (leftInArgs line st).length < 128

/-- The string ends inside the array exactly if it is the one that is left there. -/
theorem argsString_ends_iff (hword : (commandWord line).length ≤ 128) :
    argsStart line + (argsString line st).length < 128 ↔
      argsString line st = leftInArgs line st ∧
        argsStart line + (leftInArgs line st).length < 128 := by
  unfold leftInArgs
  by_cases hflag : line.getD (argsStart line) 0 ≠ 0 ∨ st.noArgs = 0
  · rw [if_pos hflag]
    by_cases hend : argsStart line + (argumentText line).length < 128
    · rw [argsString_eq hword hflag hend]
      exact ⟨fun h => ⟨rfl, h⟩, fun h => h.2⟩
    · have hover := le_length_argsString hword hflag hend
      exact ⟨fun h => absurd h (by omega), fun h => absurd h.2 hend⟩
  · rw [if_neg hflag, argsString_of_stale hflag]
    exact ⟨fun h => ⟨rfl, h⟩, fun h => h.2⟩

/-- `args` is terminated exactly if the string ends inside it. -/
theorem terminated_iff :
    (∃ j < 128 - argsStart line, applyAll (argsStores line st) (ofString st.args) j = 0) ↔
      argsStart line + (argsString line st).length < 128 := by
  have hstring := applyAll_argsStores line st
  constructor
  · rintro ⟨j, hj, hzero⟩
    have := hstring.length_le hzero
    omega
  · exact fun h => ⟨_, by omega, hstring.at_length⟩

/-- Copies that stay inside the two arrays leave the bytes behind them. -/
theorem copyStrings_of_within {cmd args : List UInt8}
    (hcmd : ∀ op ∈ strcpy 0 cmd, op.Within commandBytes)
    (hargs : ∀ op ∈ strcpy Pcb.argsOffset args, op.Within argsBytes) (b : Pcb) {off : ℕ}
    (hoff : 133 ≤ off) : (b.copyStrings cmd args).tail off = b.tail off := by
  rw [tail_copyStrings]
  refine applyAll_of_notMem (S := Set.Iio 133) (fun op hop => ?_) _ (by simpa using hoff)
  rcases List.mem_append.mp hop with hop | hop
  · exact Op.within_mono (Set.Iio_subset_Iio (by decide)) (hcmd op hop)
  · exact Op.within_mono Set.Ico_subset_Iio_self (hargs op hop)

/-- For a command that is accepted, every store stays inside its array and the fields behind `args`
keep their values, exactly if the word and the string in `args` fit. -/
theorem stores_fit (h : Run.Reach system Run.Free k)
    (hexec : k.kexecute (some line) st = some (k', none)) :
    StoresFit k line st k' ↔ FitsPcb line st := by
  constructor
  · intro hfit
    have hcommand : commandEnd line ≤ 32 := by
      have hlast := strcpy_within_iff.mp hfit.command _ (Nat.le_refl _)
      have hlt : 0 + (line.take (commandEnd line)).length < 33 := hlast
      rw [List.length_take, min_eq_left (commandEnd_le_length line)] at hlt
      omega
    have hword : (commandWord line).length ≤ 32 := by
      rw [commandEnd_eq_min] at hcommand
      omega
    obtain ⟨hleft, hends⟩ :=
      (argsString_ends_iff (by omega)).mp (terminated_iff.mp hfit.terminated)
    have hlast := strcpy_within_iff.mp hfit.arguments _ (Nat.le_refl _)
    rw [hleft] at hlast
    have hlt : 33 + (leftInArgs line st).length < 133 := hlast.2
    exact ⟨hword, by omega, hends⟩
  · rintro ⟨hword, hlength, hends⟩
    have hword' : (commandWord line).length ≤ 128 := by omega
    -- the string in `args` is what is left there
    have hleft : argsString line st = leftInArgs line st := by
      by_cases hflag : line.getD (argsStart line) 0 ≠ 0 ∨ st.noArgs = 0
      · rw [leftInArgs, if_pos hflag] at hends ⊢
        exact argsString_eq hword' hflag hends
      · rw [leftInArgs, if_neg hflag, argsString_of_stale hflag]
    have hcommand : ∀ op ∈ strcpy 0 (line.take (commandEnd line)), op.Within commandBytes := by
      rw [take_commandEnd_eq hword']
      refine strcpy_within fun j hj => ?_
      show 0 + j < 33
      omega
    have hcopied : ∀ op ∈ strcpy Pcb.argsOffset (argsString line st), op.Within argsBytes := by
      rw [hleft]
      refine strcpy_within fun j hj => ?_
      show 33 ≤ 33 + j ∧ 33 + j < 133
      omega
    obtain ⟨n, hfree, hlive, htail⟩ := kexecute_tail h hexec
    refine ⟨cmdStores_within line, argsStores_within line st, ?_, hcommand, hcopied, n,
      not_live_of_free hfree, hlive, fun b off hoff => copyStrings_of_within hcommand hcopied b hoff.1,
      ?_⟩
    · rw [terminated_iff, hleft]
      exact hends
    · have hterm := terminal_setTerminal (k.pcbs n) (t := k.getCurrTerminal) (by omega)
      rw [← hterm]
      have hbytes : ∀ j, (k'.pcbs n).tail (Pcb.terminalOffset + j)
          = ((k.pcbs n).setTerminal k.getCurrTerminal).tail (Pcb.terminalOffset + j) := by
        intro j
        rw [htail]
        exact copyStrings_of_within hcommand hcopied _ (by unfold Pcb.terminalOffset; omega)
      simp only [Pcb.terminal, hbytes]

/-- A short text keeps the terminal of the new process. -/
theorem stores_fit_shell : ∃ k k' n, sampleBoot = some k ∧
    k.kexecute (some shellArguments) ⟨0, [], fun _ => 0⟩ = some (k', none) ∧ ¬k.Live n ∧ k'.Live n ∧
    (k'.pcbs n).terminal = k.getCurrTerminal := by
  have heval : sampleBoot.map (fun k =>
      (k.kexecute (some shellArguments) ⟨0, [], fun _ => 0⟩).any fun x => x.2 = none) = some true := by
    decide +kernel
  obtain ⟨k, hk, hfacts⟩ := Option.map_eq_some_iff.mp heval
  simp only [decide_eq_true_eq, Option.any_eq_true] at hfacts
  obtain ⟨⟨k', r⟩, hexec, hr⟩ := hfacts
  obtain rfl : r = none := hr
  have hreach : Run.Reach system Run.Free k := .init ⟨_, _, _, _, _, _, hk⟩
  obtain ⟨n, hfree, hlive, -, hterm⟩ :=
    ((stores_fit hreach hexec).mpr ⟨by decide, by decide, by decide⟩).fields
  exact ⟨k, k', n, hk, hexec, hfree, hlive, hterm⟩

/-- `shell` and 110 characters of text. -/
def longArguments : List UInt8 := shellCommand ++ 0x20 :: List.replicate 110 0x61

/-- The last characters of the text are stored behind `args`, and the new process belongs to
terminal 97. -/
theorem stores_fit_long : longArguments.length ≤ 128 ∧ 0 ∉ longArguments ∧
    ∃ k k', Run.Reach system Run.Free k ∧
      k.kexecute (some longArguments) ⟨0, [], fun _ => 0⟩ = some (k', none) ∧
      (∃ op ∈ strcpy Pcb.argsOffset (argsString longArguments ⟨0, [], fun _ => 0⟩),
        ¬op.Within argsBytes) ∧
      ¬k.Live 3 ∧ k'.Live 3 ∧ k.getCurrTerminal = 0 ∧ (k'.pcbs 3).terminal = 97 := by
  have heval : sampleBoot.map (fun k =>
      decide (k.pidArr 3 = false ∧ k.getCurrTerminal = 0) &&
      (k.kexecute (some longArguments) ⟨0, [], fun _ => 0⟩).any fun x => decide
        (x.2 = none ∧ x.1.pidArr 3 = true ∧ (x.1.pcbs 3).terminal = 97)) = some true := by
    decide +kernel
  obtain ⟨k, hk, hfacts⟩ := Option.map_eq_some_iff.mp heval
  simp only [Bool.and_eq_true, decide_eq_true_eq, Option.any_eq_true] at hfacts
  obtain ⟨⟨hfree, hcurr⟩, ⟨k', r⟩, hexec, hr, hlive, hterm⟩ := hfacts
  obtain rfl : r = none := hr
  refine ⟨by decide, by decide, k, k', .init ⟨_, _, _, _, _, _, hk⟩, hexec, ?_, ?_, hlive, hcurr,
    hterm⟩
  · by_contra hall
    push Not at hall
    -- byte 142 would not be written
    have hkept := applyAll_of_notMem hall (fun _ => 0) (show 142 ∉ argsBytes from fun h =>
      absurd h.2 (by decide))
    rw [applyAll_strcpy] at hkept
    exact absurd hkept (by decide +kernel)
  · rw [Live, hfree]
    exact Bool.false_ne_true

end Kernel
end GalapagOS
