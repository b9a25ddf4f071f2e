import GalapagOS.Lib.Run
import Mathlib.Data.Fintype.Basic

/-!
# Returning from a system call (`assembly_linkage.S`)

`popal` overwrites the result in `eax`, so `system_call_linkage` keeps it in the static variable
`retval` meanwhile. Vector 128 is a trap gate: a process may lose the processor between any two
instructions, and the variable is the same for all of them.
-/

namespace GalapagOS
namespace Linkage

/-! ## The instructions -/

/-- The instructions between the handler and user mode. -/
inductive Instr where
  /-- `movl %eax, retval` -/
  | storeEax
  /-- `movl $-1, retval` -/
  | storeError
  | popal
  /-- `movl retval, %eax` -/
  | loadEax
  | popfl
  | iret
deriving DecidableEq, Repr

/-- The end of `system_call_linkage`. -/
def validReturn : List Instr := [.storeEax, .popal, .loadEax, .popfl, .iret]

/-- `invalid_syscall_num` -/
def invalidReturn : List Instr := [.storeError, .popal, .popfl, .loadEax, .iret]

/-- Where a process is. -/
inductive Place where
  | user
  | handler
  | returning (rest : List Instr)
deriving DecidableEq, Repr

/-- A process. -/
structure Thread where
  eax : BitVec 32
  /-- `eax` in the frame of `pushal` -/
  frame : BitVec 32
  place : Place
  /-- what an observer has seen: the value that the handler of the process returned, or -1 if its
  number was refused -/
  due : BitVec 32
deriving DecidableEq, Repr

/-- The effect of an instruction on `retval` and the registers. -/
def Instr.exec : Instr → BitVec 32 × Thread → BitVec 32 × Thread
  | .storeEax, (_, t) => (t.eax, t)
  | .storeError, (_, t) => (-1, t)
  | .popal, (r, t) => (r, { t with eax := t.frame })
  | .loadEax, (r, t) => (r, { t with eax := r })
  | .popfl, x => x
  | .iret, x => x

/-- `cmpl $MIN_SYS_CALL,%eax; jl ..; cmpl $MAX_SYS_CALL,%eax; jg ..`; the comparisons are signed. -/
def ValidNumber (n : BitVec 32) : Prop := 1 ≤ n.toInt ∧ n.toInt ≤ 10

instance : DecidablePred ValidNumber := fun _ => inferInstanceAs (Decidable (_ ∧ _))

/-! ## Interleavings -/

/-- The static variable and the processes. -/
structure State (ι : Type*) where
  retval : BitVec 32
  thread : ι → Thread

/-- `int $0x80`, the return of a handler, or the next instruction, in some process. -/
inductive Event (ι : Type*) where
  | call (p : ι) (number : BitVec 32)
  | handled (p : ι) (value : BitVec 32)
  | step (p : ι)

section

variable {ι : Type*} [DecidableEq ι]

/-- `int $0x80` up to the jump: the frame is pushed and the number is tested. -/
def Thread.call (t : Thread) (number : BitVec 32) : Thread :=
  let t := { t with eax := number, frame := number }
  if ValidNumber number then { t with place := .handler }
  else { t with place := .returning invalidReturn, due := -1 }

def Event.exec (s : State ι) : Event ι → Option (State ι)
  | .call p number =>
    if (s.thread p).place = .user then
      some { s with thread := Function.update s.thread p ((s.thread p).call number) }
    else none
  | .handled p value =>
    if (s.thread p).place = .handler then
      some { s with
        thread := Function.update s.thread p
          { s.thread p with eax := value, place := .returning validReturn, due := value } }
    else none
  | .step p =>
    match (s.thread p).place with
    | .returning (i :: rest) =>
      let x := i.exec (s.retval, s.thread p)
      let place := if rest = [] then .user else .returning rest
      some { retval := x.1, thread := Function.update s.thread p { x.2 with place := place } }
    | _ => none

/-- Any number of processes, all of them in user mode at first. -/
def system : Run.System (State ι) (Event ι) where
  init s := ∀ p, (s.thread p).place = .user
  step s e := e.exec s

end

/-! ## What the rest of a return does -/

/-- `eax` after the instructions, if nobody else comes in between. -/
def finish (rest : List Instr) (r : BitVec 32) (t : Thread) : BitVec 32 :=
  (rest.foldl (fun x i => i.exec x) (r, t)).2.eax

/-- The instructions read `retval` before they write it. -/
def Reads : List Instr → Prop
  | [] => False
  | .storeEax :: _ => False
  | .storeError :: _ => False
  | .loadEax :: _ => True
  | .popal :: rest => Reads rest
  | .popfl :: rest => Reads rest
  | .iret :: rest => Reads rest

instance decidableReads : DecidablePred Reads
  | [] => inferInstanceAs (Decidable False)
  | .storeEax :: _ => inferInstanceAs (Decidable False)
  | .storeError :: _ => inferInstanceAs (Decidable False)
  | .loadEax :: _ => inferInstanceAs (Decidable True)
  | .popal :: rest => decidableReads rest
  | .popfl :: rest => decidableReads rest
  | .iret :: rest => decidableReads rest

/-- Other values of `retval` make no difference, if it is not read. -/
theorem finish_of_not_reads {rest : List Instr} (r r' : BitVec 32) (t : Thread)
    (h : ¬Reads rest) : finish rest r t = finish rest r' t := by
  induction rest generalizing t with
  | nil => rfl
  | cons i rest ih =>
    cases i with
    | storeEax => rfl
    | storeError => rfl
    | loadEax => exact absurd trivial h
    | popal => exact ih { t with eax := t.frame } h
    | popfl => exact ih t h
    | iret => exact ih t h

/-- The rest of a return does not look at the place and the note of the observer. -/
theorem finish_place (rest : List Instr) (r : BitVec 32) (t : Thread) (place : Place) :
    finish rest r { t with place := place } = finish rest r t := by
  induction rest generalizing r t with
  | nil => rfl
  | cons i rest ih =>
    cases i with
    | storeEax => exact ih t.eax t
    | storeError => exact ih (-1) t
    | loadEax => exact ih r { t with eax := r }
    | popal => exact ih r { t with eax := t.frame }
    | popfl => exact ih r t
    | iret => exact ih r t

/-- The observer's note stays. -/
theorem Instr.exec_due (i : Instr) (r : BitVec 32) (t : Thread) : (i.exec (r, t)).2.due = t.due := by
  cases i <;> rfl

/-- An instruction that does not write `retval`. -/
theorem Instr.exec_fst {i : Instr} (hi : i ≠ .storeEax ∧ i ≠ .storeError) (r : BitVec 32)
    (t : Thread) : (i.exec (r, t)).1 = r := by
  cases i with
  | storeEax => exact absurd rfl hi.1
  | storeError => exact absurd rfl hi.2
  | loadEax => rfl
  | popal => rfl
  | popfl => rfl
  | iret => rfl

/-! ## Every process gets its own result -/

section

variable {ι : Type*} [DecidableEq ι] {s : State ι}

/-- The process is between its store to `retval` and its load. -/
def Thread.Pending (t : Thread) : Prop :=
  match t.place with
  | .returning rest => Reads rest
  | _ => False

instance (t : Thread) : Decidable t.Pending := by
  unfold Thread.Pending
  split <;> infer_instance

/-- The next instruction of the process writes `retval`. -/
def Thread.Stores (t : Thread) : Prop :=
  match t.place with
  | .returning (i :: _) => i = .storeEax ∨ i = .storeError
  | _ => False

instance (t : Thread) : Decidable t.Stores := by
  unfold Thread.Stores
  split <;> infer_instance

/-- Nobody stores a result while another process is between its store and its load. -/
def Apart (s : State ι) : Event ι → Prop
  | .step q => (s.thread q).Stores → ∀ p, p ≠ q → ¬(s.thread p).Pending
  | _ => True

instance [Fintype ι] (s : State ι) (e : Event ι) : Decidable (Apart s e) := by
  unfold Apart
  split <;> infer_instance

/-- Left alone, a process that returns ends with the value it is due. -/
def Thread.Due (t : Thread) (r : BitVec 32) : Prop :=
  ∀ rest, t.place = .returning rest → finish rest r t = t.due

def Due (s : State ι) : Prop := ∀ p, (s.thread p).Due s.retval

theorem Due.update (h : Due s) {p : ι} {t : Thread} (ht : t.Due s.retval) :
    Due { s with thread := Function.update s.thread p t } := by
  intro q
  by_cases hqp : q = p
  · subst hqp
    simp only [Function.update_self]
    exact ht
  · simp only [Function.update_of_ne hqp]
    exact h q

theorem Thread.due_call (t : Thread) (number r : BitVec 32) : (t.call number).Due r := by
  intro rest hrest
  unfold Thread.call at hrest ⊢
  by_cases hnumber : ValidNumber number
  · rw [if_pos hnumber] at hrest
    cases hrest
  · rw [if_neg hnumber] at hrest ⊢
    cases hrest
    rfl

theorem Thread.due_handled (t : Thread) (value r : BitVec 32) :
    Thread.Due { t with eax := value, place := .returning validReturn, due := value } r := by
  intro rest hrest
  cases hrest
  rfl

/-- An instruction of `p`: its own return goes on, and the others do not notice. -/
theorem Due.step (h : Due s) {p : ι} {i : Instr} {rest : List Instr}
    (hp : (s.thread p).place = .returning (i :: rest)) (hapart : Apart s (.step p)) (place : Place)
    (hplace : ∀ rest', place = .returning rest' → rest' = rest) :
    Due { retval := (i.exec (s.retval, s.thread p)).1,
          thread := Function.update s.thread p
            { (i.exec (s.retval, s.thread p)).2 with place := place } } := by
  intro q rest' hq
  by_cases hqp : q = p
  · subst hqp
    simp only [Function.update_self] at hq ⊢
    rw [hplace rest' hq, finish_place, Instr.exec_due]
    exact h q (i :: rest) hp
  · simp only [Function.update_of_ne hqp] at hq ⊢
    rw [← h q rest' hq]
    by_cases hstore : i = .storeEax ∨ i = .storeError
    · have hstores : (s.thread p).Stores := by
        rw [Thread.Stores, hp]
        exact hstore
      have hpending := hapart hstores q hqp
      rw [Thread.Pending, hq] at hpending
      exact finish_of_not_reads _ _ _ hpending
    · rw [Instr.exec_fst (not_or.mp hstore)]

theorem due_of_reach (h : Run.Reach system Apart s) : Due s := by
  refine h.invariant (fun s hs p rest hp => ?_) fun s e s' hdue hapart hstep => ?_
  · rw [hs p] at hp
    cases hp
  · cases e with
    | call p number =>
      obtain ⟨-, heq⟩ := Option.ite_none_right_eq_some.mp hstep
      cases heq
      exact hdue.update (Thread.due_call _ number _)
    | handled p value =>
      obtain ⟨-, heq⟩ := Option.ite_none_right_eq_some.mp hstep
      cases heq
      exact hdue.update (Thread.due_handled _ value _)
    | step p =>
      simp only [system, Event.exec] at hstep
      split at hstep
      · rename_i i rest hp
        cases hstep
        refine hdue.step hp hapart _ fun rest' hplace => ?_
        split at hplace
        · cases hplace
        · exact (Place.returning.inj hplace).symm
      · cases hstep

/-- At `iret` a process has the value that its own handler returned, or -1 if its number was not
in 1..10, in every interleaving in which no result is stored between a store and the load
of another process. -/
theorem system_call_result (h : Run.Reach system Apart s) {p : ι}
    (hp : (s.thread p).place = .returning [.iret]) : (s.thread p).eax = (s.thread p).due :=
  due_of_reach h p [.iret] hp

end

/-- Two processes in user mode. -/
def idle : State (Fin 2) := ⟨0, fun _ => ⟨0, 0, .user, 0⟩⟩

theorem idle_reach {ok : State (Fin 2) → Event (Fin 2) → Prop} {es : List (Event (Fin 2))}
    {s : State (Fin 2)} (hall : system.Allowed ok idle es) (h : system.run idle es = some s) :
    Run.Reach system ok s :=
  (Run.Reach.init fun _ => rfl).run hall h

/-- The steps of process 0 up to its load, and then those of process 1 with a bad number. -/
def inTurn : List (Event (Fin 2)) :=
  [.call 0 3, .call 1 11, .handled 0 7, .step 0, .step 0, .step 0, .step 1, .step 0, .step 1,
    .step 1, .step 1]

theorem system_call_result_apart : ∃ s, system.run idle inTurn = some s ∧
    (s.thread 0).eax = (s.thread 0).due ∧ (s.thread 0).due = 7 ∧
    (s.thread 1).eax = (s.thread 1).due ∧ (s.thread 1).due = -1 := by
  have hall : system.Allowed Apart idle inTurn := by decide +kernel
  have heval : (system.run idle inTurn).map (fun s => decide
      ((s.thread 0).place = .returning [.iret] ∧ (s.thread 1).place = .returning [.iret] ∧
        (s.thread 0).due = 7 ∧ (s.thread 1).due = -1)) = some true := by
    decide +kernel
  obtain ⟨s, hs, hfacts⟩ := Option.map_eq_some_iff.mp heval
  obtain ⟨h0, h1, hdue0, hdue1⟩ := of_decide_eq_true hfacts
  have hreach := idle_reach hall hs
  exact ⟨s, hs, system_call_result hreach h0, hdue0, system_call_result hreach h1, hdue1⟩

/-- Process 1 stores its result between the store and the load of process 0. -/
def crossed : List (Event (Fin 2)) :=
  [.call 0 3, .call 1 3, .handled 0 7, .handled 1 5, .step 0, .step 1, .step 0, .step 0, .step 0]

theorem system_call_result_crossed : ∃ s : State (Fin 2), Run.Reach system Run.Free s ∧
    (s.thread 0).place = .returning [.iret] ∧ (s.thread 0).due = 7 ∧ (s.thread 0).eax = 5 := by
  have heval : (system.run idle crossed).map (fun s => decide
      ((s.thread 0).place = .returning [.iret] ∧ (s.thread 0).due = 7 ∧ (s.thread 0).eax = 5))
        = some true := by
    decide +kernel
  obtain ⟨s, hs, hfacts⟩ := Option.map_eq_some_iff.mp heval
  exact ⟨s, idle_reach (system.allowed_free _ _) hs, of_decide_eq_true hfacts⟩

end Linkage
end GalapagOS
