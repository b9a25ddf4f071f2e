import GalapagOS.Machine.Common

/-!
# What process numbers and calls are for

Two protocols over what the observer notes. A process number is free, then chosen by one
`kexecute`, then the number of a process in the run queue, and free again when that process has
halted and its node has been taken out. A call of `kexecute` that has started a child waits for it,
and returns when it has ended, with a value that depends on how.
-/

namespace GalapagOS

/-- What `execute` promises to return: the status of the child, or 256 after an exception. -/
def Ending.status : Ending → ℕ
  | .halt status => status.toNat
  | .exception => Kernel.exceptionReturn

namespace Machine

/-! ## Process numbers -/

/-- Who holds a process number. -/
inductive Slot where
  | free
  /-- a `kexecute` of `p` has chosen it and not scheduled it yet -/
  | chosen (p : Pid)
  | live
  /-- its process has halted and its node is still linked -/
  | ended
deriving DecidableEq, Repr

abbrev Slots : Type := Pid → Slot

namespace Slots

/-- After boot the three shells are live. -/
def boot : Slots := fun p => if p ≤ 2 then .live else .free

/-- One slot goes from `old` to `new`; it is an error if it is not in `old`. -/
def move (s : Slots) (n : Pid) (old new : Slot) : Option Slots :=
  if s n = old then some (Function.update s n new) else none

/-- The protocol: `none` if a number is chosen while another process holds it, or scheduled while
its node is linked. -/
def next (s : Slots) : Option Label → Option Slots
  | some (.chose p n) => s.move n .free (.chosen p)
  | some (.abandoned p n) => s.move n (.chosen p) .free
  | some (.scheduled p n linked) => if linked then none else s.move n (.chosen p) .live
  | some (.ended n _) => s.move n .live .ended
  | some (.unlinked n) => s.move n .ended .free
  | some (.returned _ _) => some s
  | none => some s

end Slots

/-- What a label does to the slot of `n`. -/
inductive Slot.Step (n : Pid) : Slot → Option Label → Slot → Prop
  | chose (p : Pid) : Slot.Step n .free (some (.chose p n)) (.chosen p)
  | abandoned (p : Pid) : Slot.Step n (.chosen p) (some (.abandoned p n)) .free
  | scheduled (p : Pid) : Slot.Step n (.chosen p) (some (.scheduled p n false)) .live
  | ended (e : Ending) : Slot.Step n .live (some (.ended n e)) .ended
  | unlinked : Slot.Step n .ended (some (.unlinked n)) .free

/-- The labels that take the slot of `n` from one state to another. -/
inductive Slot.Path (n : Pid) : Slot → List (Option Label) → Slot → Prop
  | nil (a : Slot) : Slot.Path n a [] a
  | cons {a b c : Slot} {l : Option Label} {ls : List (Option Label)} :
      Slot.Step n a l b → Slot.Path n b ls c → Slot.Path n a (l :: ls) c

namespace Slots

variable {s s' : Slots} {ls : List (Option Label)}

theorem move_apply {i : Pid} {old new : Slot} (h : s.move i old new = some s') (n : Pid) :
    s' n = s n ∨ i = n ∧ s n = old ∧ s' n = new := by
  unfold move at h
  split at h
  · rename_i hold
    cases h
    by_cases hn : n = i
    · subst hn
      exact .inr ⟨rfl, hold, Function.update_self ..⟩
    · exact .inl (Function.update_of_ne hn _ _)
  · cases h

theorem next_step {l : Option Label} (h : s.next l = some s') (n : Pid) :
    s' n = s n ∨ Slot.Step n (s n) l (s' n) := by
  unfold next at h
  split at h
  case h_3 =>
    split at h
    · cases h
    · rename_i hlinked
      rcases move_apply h n with he | ⟨rfl, hs, hs'⟩
      · exact .inl he
      · rw [hs, hs', Bool.eq_false_of_not_eq_true hlinked]
        exact .inr (.scheduled _)
  case h_6 | h_7 =>
    cases h
    exact .inl rfl
  all_goals
    rcases move_apply h n with he | ⟨rfl, hs, hs'⟩
    · exact .inl he
    · rw [hs, hs']
      exact .inr (by constructor)

/-- The labels of a run that concern `n` take its slot from the first to the last state. -/
theorem path_of_foldlM (n : Pid) (h : ls.foldlM next s = some s') :
    ∃ ms, ms.Sublist ls ∧ Slot.Path n (s n) ms (s' n) := by
  induction ls generalizing s with
  | nil =>
    cases h
    exact ⟨[], .slnil, .nil _⟩
  | cons l ls ih =>
    rw [List.foldlM_cons] at h
    obtain ⟨s₁, hs₁, hrest⟩ := Option.bind_eq_some_iff.mp h
    obtain ⟨ms, hsub, hpath⟩ := ih hrest
    rcases next_step hs₁ n with he | hstep
    · exact ⟨ms, hsub.cons l, he ▸ hpath⟩
    · exact ⟨l :: ms, hsub.cons_cons l, .cons hstep hpath⟩

end Slots

/-- Between two choices of a number the call that made the first one gives it back, or schedules
it, and then its process halts and its node is taken out of the queue. -/
def Exclusive (ls : List (Option Label)) : Prop :=
  ∀ pre mid post p q n, ls = pre ++ some (.chose p n) :: (mid ++ some (.chose q n) :: post) →
    some (.abandoned p n) ∈ mid ∨
      ∃ e, [some (.scheduled p n false), some (.ended n e), some (.unlinked n)].Sublist mid

namespace Slots

variable {s s' : Slots} {ls : List (Option Label)}

/-- The protocol gives exclusive numbers. -/
theorem exclusive_of_foldlM (h : ls.foldlM next s = some s') : Exclusive ls := by
  rintro pre mid post p q n rfl
  simp only [List.foldlM_append, List.foldlM_cons, Option.bind_eq_bind,
    Option.bind_eq_some_iff] at h
  obtain ⟨s₁, -, s₂, hfirst, s₃, hmid, s₄, hsecond, -⟩ := h
  have hs₂ : s₂ n = .chosen p := by
    obtain ⟨-, he⟩ := Option.ite_none_right_eq_some.mp hfirst
    cases he
    exact Function.update_self ..
  have hs₃ : s₃ n = .free := (Option.ite_none_right_eq_some.mp hsecond).1
  obtain ⟨ms, hsub, hpath⟩ := path_of_foldlM n hmid
  rw [hs₂, hs₃] at hpath
  -- the slot goes from `chosen p` to `free`, and there are two ways
  cases hpath with
  | cons hstep hrest =>
    cases hstep with
    | abandoned => exact .inl (hsub.subset List.mem_cons_self)
    | scheduled =>
      cases hrest with
      | cons hstep hrest =>
        cases hstep with
        | ended e =>
          cases hrest with
          | cons hstep hrest =>
            cases hstep
            refine .inr ⟨e, List.Sublist.trans ?_ hsub⟩
            exact ((List.nil_sublist _).cons_cons _).cons_cons _ |>.cons_cons _

/-- The protocol accepts no `schedule` of a linked node. -/
theorem notMem_of_foldlM (h : ls.foldlM next s = some s') (p n : Pid) :
    some (.scheduled p n true) ∉ ls := by
  intro hmem
  obtain ⟨pre, post, rfl⟩ := List.append_of_mem hmem
  simp only [List.foldlM_append, List.foldlM_cons, Option.bind_eq_bind,
    Option.bind_eq_some_iff] at h
  obtain ⟨s₁, -, s₂, hnext, -⟩ := h
  simp [next] at hnext

end Slots

/-! ## Calls -/

/-- What the `kexecute` of a process waits for. -/
inductive CallState where
  | idle
  /-- it has started the child `n` -/
  | waiting (n : Pid)
  /-- the child has ended -/
  | ended (e : Ending)
deriving DecidableEq, Repr

abbrev Calls : Type := Pid → CallState

namespace Calls

/-- After boot no call waits. -/
def boot : Calls := fun _ => .idle

/-- The protocol, for calls that return `value e` after the ending `e` of their child: `none` if a
call returns before its own child has ended, or returns another value. -/
def next (value : Ending → ℕ) (c : Calls) : Option Label → Option Calls
  | some (.scheduled p n _) =>
    if c p = .idle ∧ ∀ q, c q ≠ .waiting n then some (Function.update c p (.waiting n)) else none
  | some (.ended n e) =>
    if ∃ q, c q = .waiting n then some fun q => if c q = .waiting n then .ended e else c q else none
  | some (.returned p v) =>
    match c p with
    | .ended e => if v = value e then some (Function.update c p .idle) else none
    | _ => none
  | _ => some c

end Calls

end Machine
end GalapagOS
