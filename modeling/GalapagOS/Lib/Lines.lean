import Mathlib.Data.List.Basic

/-!
# Lines of a text

`rawLines nl s` cuts a text behind every newline; the last line may lack one.
-/

namespace Lines

variable {β : Type*} [DecidableEq β] {nl : β} {l s : List β}

/-- The lines of a text with their newlines. -/
def rawLines (nl : β) : List β → List (List β)
  | [] => []
  | b :: s =>
    if b = nl then [b] :: rawLines nl s
    else
      match rawLines nl s with
      | [] => [[b]]
      | l :: ls => (b :: l) :: ls

theorem rawLines_append (h : nl ∉ l) (s : List β) :
    rawLines nl (l ++ nl :: s) = (l ++ [nl]) :: rawLines nl s := by
  induction l with
  | nil => exact if_pos rfl
  | cons b l ih =>
    have hb : b ≠ nl := fun he => h (he ▸ List.mem_cons_self)
    rw [List.cons_append, rawLines, if_neg hb, ih fun hl => h (List.mem_cons_of_mem b hl)]
    rfl

/-- A text that is not empty has a first line, and this is longer than what comes before its
newline. -/
theorem exists_rawLines (h : nl ∉ l) (hs : s ≠ []) :
    ∃ first rest, rawLines nl (l ++ s) = first :: rest ∧ l.length < first.length := by
  induction l with
  | nil =>
    cases s with
    | nil => exact absurd rfl hs
    | cons b s =>
      rw [List.nil_append, rawLines]
      split
      · exact ⟨_, _, rfl, Nat.one_pos⟩
      · cases rawLines nl s with
        | nil => exact ⟨_, _, rfl, Nat.one_pos⟩
        | cons first rest => exact ⟨_, _, rfl, Nat.succ_pos _⟩
  | cons b l ih =>
    have hb : b ≠ nl := fun he => h (he ▸ List.mem_cons_self)
    obtain ⟨first, rest, hlines, hlen⟩ := ih fun hl => h (List.mem_cons_of_mem b hl)
    refine ⟨b :: first, rest, ?_, by simpa using hlen⟩
    rw [List.cons_append, rawLines, if_neg hb, hlines]

/-- A text without newline is one line. -/
theorem rawLines_of_notMem (h : nl ∉ l) (hne : l ≠ []) : rawLines nl l = [l] := by
  induction l with
  | nil => exact absurd rfl hne
  | cons b l ih =>
    have hb : b ≠ nl := fun he => h (he ▸ List.mem_cons_self)
    rw [rawLines, if_neg hb]
    cases l with
    | nil => rfl
    | cons c l => rw [ih (fun hl => h (List.mem_cons_of_mem b hl)) (List.cons_ne_nil c l)]

/-- A line is not longer than the text. -/
theorem length_le_of_mem (h : l ∈ rawLines nl s) : l.length ≤ s.length := by
  induction s generalizing l with
  | nil => exact absurd h List.not_mem_nil
  | cons b s ih =>
    rw [rawLines] at h
    split at h
    · rcases List.mem_cons.mp h with rfl | hl
      · exact Nat.succ_le_succ (Nat.zero_le _)
      · exact Nat.le_succ_of_le (ih hl)
    · cases hs : rawLines nl s with
      | nil =>
        rw [hs] at h
        rw [List.mem_singleton.mp h]
        exact Nat.succ_le_succ (Nat.zero_le _)
      | cons first rest =>
        rw [hs] at h
        rcases List.mem_cons.mp h with rfl | hl
        · exact Nat.succ_le_succ (ih (hs ▸ List.mem_cons_self))
        · exact Nat.le_succ_of_le (ih (hs ▸ List.mem_cons_of_mem first hl))

/-- A line of the end of a text is a line of the text or the end of one. -/
theorem exists_length_le_of_mem (t : List β) (h : l ∈ rawLines nl s) :
    ∃ l' ∈ rawLines nl (t ++ s), l.length ≤ l'.length := by
  induction t with
  | nil => exact ⟨l, h, Nat.le_refl _⟩
  | cons b t ih =>
    obtain ⟨l', hl', hlen⟩ := ih
    rw [List.cons_append, rawLines]
    split
    · exact ⟨l', List.mem_cons_of_mem _ hl', hlen⟩
    · cases hlines : rawLines nl (t ++ s) with
      | nil =>
        rw [hlines] at hl'
        exact absurd hl' List.not_mem_nil
      | cons first rest =>
        rw [hlines] at hl'
        rcases List.mem_cons.mp hl' with rfl | hl'
        · exact ⟨_, List.mem_cons_self, Nat.le_succ_of_le hlen⟩
        · exact ⟨l', List.mem_cons_of_mem _ hl', hlen⟩

end Lines
