import Mathlib.Data.List.Forall2
import Mathlib.Logic.Function.Basic

/-!
# Mailboxes for one message

Each of some boxes holds at most one message. A message is put into an empty box, and taken out of
a full one; `rel` says which results a taker may get for a message. Over a history that the boxes
accept, every message but the one still in its box has been taken exactly once, in the order in which
the messages were put.
-/

namespace Mailbox

variable {ι α β : Type*} [DecidableEq ι]

inductive Op (ι α β : Type*) where
  | put (i : ι) (a : α)
  | get (i : ι) (b : β)

/-- What is put into a box. -/
def Op.message (i : ι) : Op ι α β → Option α
  | .put j a => if j = i then some a else none
  | .get _ _ => none

/-- What is taken out of a box. -/
def Op.result (i : ι) : Op ι α β → Option β
  | .put _ _ => none
  | .get j b => if j = i then some b else none

variable (rel : α → β → Prop) [∀ a b, Decidable (rel a b)]

/-- The boxes after an operation; nothing happens at `none`. -/
def next (box : ι → Option α) : Option (Op ι α β) → Option (ι → Option α)
  | none => some box
  | some (.put i a) =>
    match box i with
    | none => some (Function.update box i (some a))
    | some _ => none
  | some (.get i b) =>
    match box i with
    | none => none
    | some a => if rel a b then some (Function.update box i none) else none

/-- The messages of a history for one box, and the results of its takers. -/
def messages (i : ι) (ops : List (Option (Op ι α β))) : List α :=
  ops.filterMap fun o => o.bind (Op.message i)

def results (i : ι) (ops : List (Option (Op ι α β))) : List β :=
  ops.filterMap fun o => o.bind (Op.result i)

theorem messages_cons (i : ι) (o : Option (Op ι α β)) (ops : List (Option (Op ι α β))) :
    messages i (o :: ops) = (o.bind (Op.message i)).toList ++ messages i ops := by
  unfold messages
  rw [List.filterMap_cons]
  cases o.bind (Op.message i) <;> rfl

theorem results_cons (i : ι) (o : Option (Op ι α β)) (ops : List (Option (Op ι α β))) :
    results i (o :: ops) = (o.bind (Op.result i)).toList ++ results i ops := by
  unfold results
  rw [List.filterMap_cons]
  cases o.bind (Op.result i) <;> rfl

variable {rel} {box box' : ι → Option α} {i : ι}

/-- One operation. -/
theorem next_cases {o : Option (Op ι α β)} (h : next rel box o = some box') :
    (o.bind (Op.message i) = none ∧ o.bind (Op.result i) = none ∧ box' i = box i) ∨
    (∃ a, o.bind (Op.message i) = some a ∧ o.bind (Op.result i) = none ∧ box i = none ∧
      box' i = some a) ∨
    ∃ a b, o.bind (Op.message i) = none ∧ o.bind (Op.result i) = some b ∧ box i = some a ∧
      box' i = none ∧ rel a b := by
  match o with
  | none =>
    cases h
    exact .inl ⟨rfl, rfl, rfl⟩
  | some (.put j a) =>
    unfold next at h
    cases hj : box j with
    | some a' => simp [hj] at h
    | none =>
      simp only [hj, Option.some.injEq] at h
      subst h
      by_cases hi : j = i
      · subst hi
        exact .inr (.inl ⟨a, by simp [Op.message], rfl, hj, Function.update_self ..⟩)
      · refine .inl ⟨by simp [Op.message, hi], rfl, Function.update_of_ne (Ne.symm hi) ..⟩
  | some (.get j b) =>
    unfold next at h
    cases hj : box j with
    | none => simp [hj] at h
    | some a =>
      simp only [hj] at h
      split at h
      · rw [Option.some.injEq] at h
        subst h
        by_cases hi : j = i
        · subst hi
          exact .inr (.inr ⟨a, b, rfl, by simp [Op.result], hj, Function.update_self .., ‹_›⟩)
        · refine .inl ⟨rfl, by simp [Op.result, hi], Function.update_of_ne (Ne.symm hi) ..⟩
      · cases h

/-- Every message is taken once, in order; the one that is left is still in the box. -/
theorem history {ops : List (Option (Op ι α β))} :
    ∀ {box : ι → Option α}, ops.foldlM (next rel) box = some box' →
      ∃ taken, (box i).toList ++ messages i ops = taken ++ (box' i).toList ∧
        List.Forall₂ rel taken (results i ops) := by
  induction ops with
  | nil =>
    intro box h
    cases h
    exact ⟨[], by simp [messages], .nil⟩
  | cons o ops ih =>
    intro box h
    rw [List.foldlM_cons] at h
    obtain ⟨box₁, hnext, hrest⟩ := Option.bind_eq_some_iff.mp h
    obtain ⟨taken, htaken, hrel⟩ := ih hrest
    rw [messages_cons, results_cons]
    rcases next_cases (i := i) hnext with ⟨hm, hr, hbox⟩ | ⟨a, hm, hr, hbox, hbox₁⟩ |
      ⟨a, b, hm, hr, hbox, hbox₁, hab⟩
    · rw [hm, hr, ← hbox]
      exact ⟨taken, htaken, hrel⟩
    · rw [hbox₁] at htaken
      rw [hm, hr, hbox]
      exact ⟨taken, htaken, hrel⟩
    · rw [hbox₁] at htaken
      rw [hm, hr, hbox]
      exact ⟨a :: taken, congrArg (a :: ·) htaken, .cons hab hrel⟩

end Mailbox
