import GalapagOS.FileSystem.Names
import GalapagOS.Kernel.Process

/-!
# The command line

A command is a word, a run of spaces and the argument text. `kexecute` scans it with two loops that
share one index; on a line that fits its limit of 128 characters they find the word and the text.
What the program gets as arguments is the text, unless neither text nor newline follows the word:
then the flag `no_args` is read without having been set.
-/

namespace GalapagOS
namespace Kernel

open FileSystem Memory CString

variable {line : List UInt8} {st : Stale}

/-! ## The two parts -/

/-- The characters before the first space, newline or NUL. -/
def commandWord (line : List UInt8) : List UInt8 :=
  line.takeWhile fun b => b ≠ 0x20 ∧ b ≠ 0 ∧ b ≠ 0x0a

/-- What follows the word and its spaces. -/
def afterWord (line : List UInt8) : List UInt8 :=
  (line.drop (commandWord line).length).dropWhile (· = 0x20)

/-- The argument text, up to the first newline or NUL. -/
def argumentText (line : List UInt8) : List UInt8 :=
  (afterWord line).takeWhile fun b => b ≠ 0 ∧ b ≠ 0x0a

theorem take_length_takeWhile {α : Type*} (p : α → Bool) (l : List α) :
    l.take (l.takeWhile p).length = l.takeWhile p :=
  (List.prefix_iff_eq_take.mp (List.takeWhile_prefix p)).symm

theorem drop_length_takeWhile {α : Type*} (p : α → Bool) (l : List α) :
    l.drop (l.takeWhile p).length = l.dropWhile p := by
  have hsplit : l.takeWhile p ++ l.dropWhile p = l := List.takeWhile_append_dropWhile
  have hdrop := congrArg (List.drop (l.takeWhile p).length) hsplit
  rw [List.drop_left] at hdrop
  exact hdrop.symm

theorem zero_notMem_commandWord (line : List UInt8) : 0 ∉ commandWord line := by
  intro h
  have hp := List.mem_takeWhile_imp h
  simp at hp

theorem zero_notMem_argumentText (line : List UInt8) : 0 ∉ argumentText line := by
  intro h
  have hp := List.mem_takeWhile_imp h
  simp at hp

/-! ## Strings in memory -/

/-- A string that was copied with its NUL. -/
theorem text_place {s : List UInt8} (hs : 0 ∉ s) (d : ℕ) (m : ℕ → UInt8) :
    Text (fun j => place d (s ++ [0]) m (d + j)) s := by
  refine ⟨hs, fun j hj => ?_⟩
  have hlt : j < (s ++ [0]).length := by
    rw [List.length_append, List.length_singleton]
    omega
  show place d (s ++ [0]) m (d + j) = s.getD j 0
  rw [place_add hlt m]
  rcases hj.lt_or_eq with hj | rfl
  · rw [List.getElem_append_left hj, List.getD_eq_getElem]
  · rw [List.getElem_concat_length rfl, List.getD_eq_default _ _ le_rfl]

/-- Characters that were copied without a NUL run on into what follows. -/
theorem text_place_append {s r : List UInt8} {m : ℕ → UInt8} (hs : 0 ∉ s)
    (hr : Text (fun j => m (s.length + j)) r) : Text (place 0 s m) (s ++ r) := by
  refine Text.append hs (fun i hi => ?_) (hr.congr fun i _ => place_of_le s (by omega) m)
  have hplace : place 0 s m (0 + i) = s[i] := place_add hi m
  rwa [Nat.zero_add] at hplace

/-- The string that starts some bytes. -/
theorem text_takeWhile (l : List UInt8) : Text (ofString l) (l.takeWhile (· ≠ 0)) := by
  induction l with
  | nil => exact ⟨by simp, fun _ _ => rfl⟩
  | cons b l ih =>
    by_cases hb : b = 0
    · rw [List.takeWhile_cons_of_neg (by simp [hb])]
      refine ⟨by simp, fun i hi => ?_⟩
      obtain rfl : i = 0 := Nat.le_zero.mp hi
      exact hb
    · rw [List.takeWhile_cons_of_pos (by simp [hb])]
      refine ⟨fun h => (List.mem_cons.mp h).elim (fun he => hb he.symm) ih.1, fun i hi => ?_⟩
      cases i with
      | zero => rfl
      | succ i => exact ih.2 i (by simpa using hi)

/-! ## The two loops -/

theorem commandEnd_eq_min (line : List UInt8) : commandEnd line = min 128 (commandWord line).length := by
  unfold commandEnd commandWord
  rw [← List.take_takeWhile, List.length_take]

theorem commandEnd_le_length (line : List UInt8) : commandEnd line ≤ line.length := by
  rw [commandEnd_eq_min]
  exact (min_le_right _ _).trans (List.takeWhile_prefix _).length_le

/-- The command that is looked up. -/
theorem take_commandEnd (line : List UInt8) :
    line.take (commandEnd line) = (commandWord line).take 128 := by
  rw [commandEnd_eq_min, ← List.take_take]
  exact congrArg (List.take 128) (take_length_takeWhile _ line)

/-- It is a string. -/
theorem zero_notMem_command (line : List UInt8) : 0 ∉ line.take (commandEnd line) := by
  rw [take_commandEnd]
  exact fun h => zero_notMem_commandWord line (List.mem_of_mem_take h)

/-- No spaces are skipped before a newline. -/
theorem argsStart_of_newline (h : line.getD (commandEnd line) 0 = 0x0a) :
    argsStart line = commandEnd line := by
  have hhead : (line.drop (commandEnd line)).head? = (line)[commandEnd line]? := List.head?_drop
  rw [List.getD_eq_getElem?_getD, ← hhead] at h
  unfold argsStart
  cases hrest : line.drop (commandEnd line) with
  | nil => rfl
  | cons b rest =>
    rw [hrest] at h
    obtain rfl : b = 0x0a := h
    rfl

/-- Where the NUL follows the word and its spaces, the flag is not set. -/
theorem noArgs_of_nul (h : line.getD (argsStart line) 0 = 0) : noArgs line st = st.noArgs := by
  -- the word ends in a space or at the NUL
  have hnl : line.getD (commandEnd line) 0 ≠ 0x0a := by
    intro hnl
    rw [argsStart_of_newline hnl, hnl] at h
    exact absurd h (by decide)
  rw [noArgs, if_neg (not_not.mpr h), if_neg hnl]

/-- Text or a newline clears the flag. -/
theorem noArgs_eq_zero (h : line.getD (argsStart line) 0 ≠ 0 ∨ st.noArgs = 0) :
    noArgs line st = 0 := by
  by_cases hnext : line.getD (argsStart line) 0 ≠ 0
  · rw [noArgs, if_pos hnext]
  · rw [noArgs_of_nul (not_not.mp hnext), h.resolve_left hnext]

/-- Without either, and with the flag set, `args` is what the stack held. -/
theorem argsString_of_stale (h : ¬(line.getD (argsStart line) 0 ≠ 0 ∨ st.noArgs = 0)) :
    argsString line st = st.args.takeWhile (· ≠ 0) := by
  obtain ⟨hnul, hflag⟩ := not_or.mp h
  rw [argsString, noArgs_of_nul (not_not.mp hnul), if_neg hflag]

section Short

variable (hword : (commandWord line).length ≤ 128)

include hword

theorem commandEnd_eq : commandEnd line = (commandWord line).length := by
  rw [commandEnd_eq_min, min_eq_right hword]

theorem take_commandEnd_eq : line.take (commandEnd line) = commandWord line := by
  rw [take_commandEnd, List.take_of_length_le hword]

theorem drop_argsStart : line.drop (argsStart line) = afterWord line := by
  unfold argsStart afterWord
  rw [← List.drop_drop, drop_length_takeWhile, commandEnd_eq hword]

/-- What the loop copies of the text. -/
theorem copied_eq :
    ((line.drop (argsStart line)).take (128 - argsStart line)).takeWhile
      (fun b => b ≠ 0 ∧ b ≠ 0x0a) = (argumentText line).take (128 - argsStart line) := by
  rw [drop_argsStart hword, ← List.take_takeWhile]
  rfl

/-- The string in `args`, if the flag says that there are arguments and their end is in reach. -/
theorem argsString_eq (hflag : line.getD (argsStart line) 0 ≠ 0 ∨ st.noArgs = 0)
    (hend : argsStart line + (argumentText line).length < 128) :
    argsString line st = argumentText line := by
  rw [argsString, if_pos (noArgs_eq_zero hflag)]
  dsimp only
  rw [copied_eq hword, List.take_of_length_le (by omega), if_pos (by omega)]

/-- Otherwise the string runs over the end of the array. -/
theorem le_length_argsString (hflag : line.getD (argsStart line) 0 ≠ 0 ∨ st.noArgs = 0)
    (hend : ¬argsStart line + (argumentText line).length < 128) :
    128 ≤ argsStart line + (argsString line st).length := by
  have hlen : ((argumentText line).take (128 - argsStart line)).length = 128 - argsStart line := by
    rw [List.length_take]
    omega
  rw [argsString, if_pos (noArgs_eq_zero hflag)]
  dsimp only
  rw [copied_eq hword, if_neg (by omega), List.length_append]
  omega

/-- The text ends where the line ends, or before. -/
theorem argsStart_add_le : argsStart line + (argumentText line).length ≤ line.length := by
  have htext : (argumentText line).length ≤ (afterWord line).length :=
    (List.takeWhile_prefix _).length_le
  have hspaces : ((line.drop (commandEnd line)).takeWhile (· = 0x20)).length
      ≤ (line.drop (commandEnd line)).length := (List.takeWhile_prefix _).length_le
  have hend := commandEnd_le_length line
  have hstart : argsStart line ≤ line.length := by
    rw [List.length_drop] at hspaces
    unfold argsStart
    omega
  rw [← drop_argsStart hword, List.length_drop] at htext
  omega

theorem getD_argsStart (h : argumentText line ≠ []) : line.getD (argsStart line) 0 ≠ 0 := by
  have hhead : (line.drop (argsStart line)).head? = (line)[argsStart line]? := List.head?_drop
  rw [List.getD_eq_getElem?_getD, ← hhead, drop_argsStart hword]
  unfold argumentText at h
  cases hrest : afterWord line with
  | nil => simp [hrest] at h
  | cons b rest =>
    intro hb
    obtain rfl : b = 0 := hb
    simp [hrest] at h

end Short

/-! ## The stores of the parser -/

/-- `strncpy(cmd, command, i); cmd[i] = '\0';` -/
def cmdStores (line : List UInt8) : List (Op UInt8) :=
  strncpy 0 line (commandEnd line) ++ [.write (commandEnd line) [0]]

/-- The loop that fills `args`, from index `j` with `n` rounds left; `rest` is the command from
`command[i + j]` on. -/
def argsLoop : ℕ → ℕ → List UInt8 → List (Op UInt8)
  | 0, _, _ => []
  | _ + 1, j, [] => [.write j [0]]
  | n + 1, j, b :: rest =>
    if b = 0 ∨ b = 0x0a then [.write j [0]] else .write j [b] :: argsLoop n (j + 1) rest

/-- The stores into `args`. -/
def argsStores (line : List UInt8) (st : Stale) : List (Op UInt8) :=
  if noArgs line st = 0 then argsLoop (128 - argsStart line) 0 (line.drop (argsStart line)) else []

/-- After the stores `cmd` holds the command. -/
theorem applyAll_cmdStores (line : List UInt8) (m : ℕ → UInt8) :
    Text (applyAll (cmdStores line) m) (line.take (commandEnd line)) := by
  have hend := commandEnd_le_length line
  have hlen : (line.take (commandEnd line)).length = commandEnd line := by
    rw [List.length_take, min_eq_left hend]
  refine ⟨zero_notMem_command line, fun i hi => ?_⟩
  rw [hlen] at hi
  rw [cmdStores, applyAll_append, applyAll_strncpy line hend (zero_notMem_command line)]
  show place (commandEnd line) [0] (place 0 (line.take (commandEnd line)) m) i = _
  rcases hi.lt_or_eq with hlt | rfl
  · have hplace : place 0 (line.take (commandEnd line)) m (0 + i) = _ :=
      place_add (by rwa [hlen]) m
    rw [Nat.zero_add] at hplace
    rw [place_of_lt hlt, hplace, List.getD_eq_getElem]
  · rw [List.getD_eq_default _ _ hlen.le]
    exact place_add (show 0 < [(0 : UInt8)].length by decide) _

theorem applyAll_argsLoop (n : ℕ) :
    ∀ j rest m, applyAll (argsLoop n j rest) m
      = place j (if ((rest.take n).takeWhile fun b => b ≠ 0 ∧ b ≠ 0x0a).length < n then
          (rest.take n).takeWhile (fun b => b ≠ 0 ∧ b ≠ 0x0a) ++ [0]
        else (rest.take n).takeWhile fun b => b ≠ 0 ∧ b ≠ 0x0a) m := by
  induction n with
  | zero => exact fun _ _ _ => rfl
  | succ n ih =>
    intro j rest m
    cases rest with
    | nil => rfl
    | cons b rest =>
      rw [argsLoop, List.take_succ_cons, List.takeWhile_cons]
      by_cases hb : b = 0 ∨ b = 0x0a
      · have hstop : ¬(b ≠ 0 ∧ b ≠ 0x0a) := by tauto
        rw [if_pos hb]
        simp only [hstop, decide_false, Bool.false_eq_true, if_false, List.length_nil,
          Nat.succ_pos, if_true, List.nil_append]
        rfl
      · have hgo : b ≠ 0 ∧ b ≠ 0x0a := by tauto
        rw [if_neg hb]
        simp only [hgo, ne_eq, not_false_eq_true, and_self, decide_true, if_true, List.length_cons,
          Nat.add_lt_add_iff_right]
        have hrec := ih (j + 1) rest (place j [b] m)
        split at hrec
        · rename_i hlt
          rw [if_pos hlt]
          exact hrec
        · rename_i hge
          rw [if_neg hge]
          exact hrec

/-- What `args` holds when it is copied: the string starts in the array and may end behind it. -/
theorem applyAll_argsStores (line : List UInt8) (st : Stale) :
    Text (applyAll (argsStores line st) (ofString st.args)) (argsString line st) := by
  have hstring : argsString line st = if noArgs line st = 0 then
      let copied := ((line.drop (argsStart line)).take (128 - argsStart line)).takeWhile
        fun b => b ≠ 0 ∧ b ≠ 0x0a
      if copied.length < 128 - argsStart line then copied
      else copied ++ (st.args.drop (128 - argsStart line)).takeWhile (· ≠ 0)
    else st.args.takeWhile (· ≠ 0) := rfl
  rw [hstring, argsStores]
  split
  · generalize hcopied : ((line.drop (argsStart line)).take (128 - argsStart line)).takeWhile
      (fun b => b ≠ 0 ∧ b ≠ 0x0a) = copied
    have hnul : 0 ∉ copied := by
      intro h
      rw [← hcopied] at h
      have hp := List.mem_takeWhile_imp h
      simp at hp
    have hle : copied.length ≤ 128 - argsStart line := by
      rw [← hcopied]
      exact (List.takeWhile_prefix _).length_le.trans (List.length_take_le _ _)
    rw [applyAll_argsLoop, hcopied]
    dsimp only
    split
    · have hplace := text_place hnul 0 (ofString st.args)
      simpa only [Nat.zero_add] using hplace
    · refine text_place_append hnul ?_
      obtain hfull : copied.length = 128 - argsStart line := by omega
      rw [hfull]
      have hrest := text_takeWhile (st.args.drop (128 - argsStart line))
      have hshift : (fun j => ofString st.args (128 - argsStart line + j))
          = ofString (st.args.drop (128 - argsStart line)) := by
        funext j
        simp [ofString, List.getD_eq_getElem?_getD, List.getElem?_drop]
      rwa [hshift]
  · exact text_takeWhile st.args

theorem zero_notMem_argsString (line : List UInt8) (st : Stale) : 0 ∉ argsString line st :=
  (applyAll_argsStores line st).nonzero

/-! ## The addresses they touch -/

theorem cmdStores_within (line : List UInt8) :
    ∀ op ∈ cmdStores line, op.Within (Set.Iio (commandEnd line + 1)) := by
  intro op hop
  rcases List.mem_append.mp hop with hop | hop
  · refine strncpy_within (fun j hj => ?_) op hop
    show 0 + j < commandEnd line + 1
    omega
  · rw [List.mem_singleton.mp hop]
    exact write_within (Nat.lt_succ_self _)

theorem argsLoop_within (n : ℕ) :
    ∀ j rest, ∀ op ∈ argsLoop n j rest, op.Within (Set.Iio (j + n)) := by
  induction n with
  | zero =>
    intro j rest op hop
    simp [argsLoop] at hop
  | succ n ih =>
    intro j rest op hop
    have hj : j ∈ Set.Iio (j + (n + 1)) := Nat.lt_add_of_pos_right (Nat.succ_pos n)
    cases rest with
    | nil =>
      rw [List.mem_singleton.mp hop]
      exact write_within hj
    | cons b rest =>
      rw [argsLoop] at hop
      split at hop
      · rw [List.mem_singleton.mp hop]
        exact write_within hj
      · rcases List.mem_cons.mp hop with rfl | hop
        · exact write_within hj
        · have hrec := ih (j + 1) rest op hop
          rwa [Nat.add_right_comm] at hrec

theorem argsStores_within (line : List UInt8) (st : Stale) :
    ∀ op ∈ argsStores line st, op.Within (Set.Iio (128 - argsStart line)) := by
  intro op hop
  rw [argsStores] at hop
  split at hop
  · have h := argsLoop_within _ 0 _ op hop
    rwa [Nat.zero_add] at h
  · simp at hop

end Kernel
end GalapagOS
