import GalapagOS.Kernel.Process
import GalapagOS.Lib.Run

/-!
# Losing the processor and getting it back (`assembly_linkage.S`, `schedule.c`)

The registers of a preempted process are in three places: the frame that the processor pushes, the
frame of `pushfl` and `pushal` in `pit_int_linkage`, and `esp` and `ebp` in the control block, which
`pit_handler` stores for one process and loads for the next. The stub ends, from `pit_ret` on, on
the stack of the process that is selected.

`pit_int_linkage` needs the address of the iret frame for `pit_handler`, and puts it in `ebx` before
`pushal` saves that register. Every other register comes back.

One activation of the stub and of `pit_handler`, up to the change of the stack, is one event here.
That is so for a tick, since IRQ 0 is in service until `send_eoi`. A tick inside a handler that was
entered by `int $32` is not part of this model (see `Machine.Globals`). The instructions from
`pit_ret` on are separate events, and the next tick may come between any two of them.
-/

namespace GalapagOS
namespace Linkage
namespace Timer

/-! ## The processor -/

abbrev Word : Type := BitVec 32

/-- The general registers except `esp`. -/
structure Regs where
  eax : Word
  ecx : Word
  edx : Word
  ebx : Word
  ebp : Word
  esi : Word
  edi : Word
deriving DecidableEq, Repr

/-- Where `esp` points. A process in user mode has nothing on its kernel stack. -/
inductive Mode where
  | user (esp ss : Word)
  /-- the words on the kernel stack, the top first -/
  | kernel (stack : List Word)
deriving DecidableEq, Repr

/-- What code of a process can see of the processor. -/
structure Context where
  regs : Regs
  eflags : Word
  eip : Word
  mode : Mode
deriving DecidableEq, Repr

/-- `KERNEL_CS` -/
def kernelCs : Word := 0x10

/-- `USER_CS` -/
def userCs : Word := 0x23

/-- `USER_DS` -/
def userDs : Word := 0x2b

/-- `STACK_FLAGS` -/
def stackFlags : Word := 0x202

/-- The kernel stack after the processor has pushed its frame: from user mode the frame is the first
thing on the stack, from kernel mode it has no `esp` and `ss`. -/
def Context.iretFrame (c : Context) : List Word :=
  match c.mode with
  | .user esp ss => [c.eip, userCs, c.eflags, esp, ss]
  | .kernel stack => c.eip :: kernelCs :: c.eflags :: stack

/-- An interrupt gate clears TF, IF, NT, RF and VM after the push. -/
def gateFlags (eflags : Word) : Word := eflags &&& ~~~0x34300

/-- The frame of `pushal`. `popal` skips the word of `esp`. -/
def pushal (r : Regs) (esp : Word) : List Word :=
  [r.edi, r.esi, r.ebp, esp, r.ebx, r.edx, r.ecx, r.eax]

/-- The instructions from `pit_ret` on. -/
inductive Tail where
  /-- `addl $4,%esp`, the argument of `pit_handler` -/
  | dropArg
  /-- `pushl $0` -/
  | pushIrq
  /-- `call send_eoi` -/
  | sendEoi
  /-- `addl $4,%esp`, the argument of `send_eoi` -/
  | dropIrq
  | popal
  | popfl
  | iret
deriving DecidableEq, Repr

def pitRet : List Tail := [.dropArg, .pushIrq, .sendEoi, .dropIrq, .popal, .popfl, .iret]

/-- An instruction and those after it. -/
def Tail.rest (t : Tail) : List Tail := pitRet.dropWhile (· ≠ t)

/-- Where things are in the memory of the kernel. -/
structure Layout (ι : Type) where
  /-- `kernel_stack` in the control block of a process, and `tss.esp0` while it runs -/
  kernelStack : ι → Word
  address : Tail → Word
  injective : Function.Injective address

/-- What a compiled function leaves in the registers that it need not restore. -/
structure Scratch where
  regs : Regs
  eflags : Word
deriving DecidableEq, Repr

section

variable {ι : Type} (L : Layout ι)

/-- `esp` while these words are on the kernel stack of `p`. -/
def Layout.esp (p : ι) (stack : List Word) : Word :=
  L.kernelStack p - BitVec.ofNat 32 (4 * stack.length)

/-- The instruction of the stub that comes next, if the process is there. The page of the kernel is
not accessible in user mode. -/
def Layout.place (c : Context) : Option Tail :=
  match c.mode with
  | .user _ _ => none
  | .kernel _ => pitRet.find? fun t => L.address t = c.eip

/-- `iret` with this stack. -/
def Context.iret (c : Context) : List Word → Option Context
  | eip :: cs :: eflags :: stack =>
    if cs = userCs then
      match stack with
      | esp :: ss :: _ => some { c with eflags := eflags, eip := eip, mode := .user esp ss }
      | _ => none
    else some { c with eflags := eflags, eip := eip, mode := .kernel stack }
  | _ => none

/-- One instruction of the stub with this stack. -/
def Layout.execOn (v : Scratch) (c : Context) : Tail → List Word → Option Context
  | .dropArg, _ :: stack => some { c with eip := L.address .pushIrq, mode := .kernel stack }
  | .pushIrq, stack => some { c with eip := L.address .sendEoi, mode := .kernel (0 :: stack) }
  | .sendEoi, stack =>
    some { c with
      regs := { c.regs with eax := v.regs.eax, ecx := v.regs.ecx, edx := v.regs.edx }
      eflags := v.eflags
      eip := L.address .dropIrq
      mode := .kernel stack }
  | .dropIrq, _ :: stack => some { c with eip := L.address .popal, mode := .kernel stack }
  | .popal, edi :: esi :: ebp :: _ :: ebx :: edx :: ecx :: eax :: stack =>
    some { c with
      regs := ⟨eax, ecx, edx, ebx, ebp, esi, edi⟩
      eip := L.address .popfl
      mode := .kernel stack }
  | .popfl, eflags :: stack =>
    some { c with eflags := eflags, eip := L.address .iret, mode := .kernel stack }
  | .iret, stack => c.iret stack
  -- a stack that is too short
  | _, _ => none

def Layout.exec (v : Scratch) (c : Context) (t : Tail) : Option Context :=
  match c.mode with
  | .user _ _ => none
  | .kernel stack => L.execOn v c t stack

/-! ## `pit_int_linkage`, `pit_handler` and `schedule` -/

/-- The kernel stack down to `esp` in the control block, and the number of its words from the one at
`ebp` on. -/
structure Saved where
  stack : List Word
  ebp : ℕ
deriving DecidableEq, Repr

/-- The stub up to `call pit_handler`, and `pit_handler` up to the two stores. `locals` is what the
function has on the stack below its frame pointer. -/
def Layout.interrupt (p : ι) (c : Context) (locals : List Word) : Saved :=
  let stack := c.iretFrame
  -- movl %esp,%ebx
  let regs := { c.regs with ebx := L.esp p stack }
  -- pushfl
  let stack := gateFlags c.eflags :: stack
  -- pushal
  let stack := pushal regs (L.esp p stack) ++ stack
  -- pushl %ebx; call pit_handler
  let stack := L.address .dropArg :: regs.ebx :: stack
  -- pushl %ebp; movl %esp,%ebp
  let stack := regs.ebp :: stack
  ⟨locals ++ stack, stack.length⟩

/-- The loads of `ebp` and `esp`, `leave` and `ret`. -/
def Saved.resume (s : Saved) (v : Scratch) : Option Context :=
  match s.stack.drop (s.stack.length - s.ebp) with
  | ebp :: eip :: stack =>
    some { regs := { v.regs with ebp := ebp }, eflags := v.eflags, eip := eip,
           mode := .kernel stack }
  | _ => none

/-- A program at its first instruction. Nobody sets the registers. -/
def firstContext (eip esp : Word) (garbage : Regs) : Context :=
  { regs := garbage, eflags := stackFlags, eip := eip, mode := .user esp userDs }

/-- The stack that `schedule` builds: `task->ebp` and `task->esp` are the lowest of 17 words. It
writes `iesp` of the registers only, and not the word of the argument. -/
def Layout.schedule (q : ι) (eip esp : Word) (garbage : Regs) (arg : Word) : Saved :=
  let iret := [eip, userCs, stackFlags, esp, userDs]
  let flags := stackFlags :: iret
  let regs := pushal garbage (L.esp q flags) ++ flags
  let stack := L.kernelStack q :: L.address .dropArg :: arg :: regs
  ⟨stack, stack.length⟩

end

/-! ## Interleavings -/

/-- The processor and the control blocks. -/
structure State (ι : Type) where
  /-- the process of `curr_node` -/
  current : ι
  running : Context
  /-- `none` for a number that was never scheduled -/
  saved : ι → Option Saved
  /-- what an observer has seen: the contexts of a process at the interrupts that it has not
  returned from, the latest first, or the one it starts with -/
  pending : ι → List Context

inductive Event (ι : Type) where
  /-- code of the current process, outside of the stub -/
  | work (c : Context)
  | schedule (q : ι) (eip esp : Word) (garbage : Regs) (arg : Word)
  /-- an interrupt, after which `q` is selected -/
  | tick (q : ι) (locals : List Word) (v : Scratch)
  /-- the next instruction of the stub -/
  | step (v : Scratch)

section

variable {ι : Type} [DecidableEq ι] (L : Layout ι)

def Event.exec (s : State ι) : Event ι → Option (State ι)
  | .work c =>
    if L.place s.running = none ∧ L.place c = none then some { s with running := c } else none
  | .schedule q eip esp garbage arg =>
    if q = s.current then none
    else some { s with
      saved := Function.update s.saved q (some (L.schedule q eip esp garbage arg))
      pending := Function.update s.pending q [firstContext eip esp garbage] }
  | .tick q locals v => do
    let p := s.current
    -- the stores come before the loads, so a process may be selected again at once
    let saved := Function.update s.saved p (some (L.interrupt p s.running locals))
    let r ← saved q
    let c ← r.resume v
    some {
      current := q
      running := c
      saved := saved
      pending := Function.update s.pending p (s.running :: s.pending p) }
  | .step v => do
    let t ← L.place s.running
    let c ← L.exec v s.running t
    some { s with
      running := c
      pending :=
        if t = .iret then Function.update s.pending s.current (s.pending s.current).tail
        else s.pending }

/-- The first tick has started a process. The other shells are scheduled by the first events. -/
def system : Run.System (State ι) (Event ι) where
  init s := L.place s.running = none ∧ (∀ q, s.saved q = none) ∧ ∀ q, s.pending q = []
  step s e := e.exec L s

end

/-! ## What the rest of the stub does -/

section

variable {ι : Type} {L : Layout ι} {b : Prop} {c d x y : Context} {t : Tail} {ts : List Tail}

def Context.withEbx (c : Context) (w : Word) : Context :=
  { c with regs := { c.regs with ebx := w } }

/-- The contexts differ in `ebx` at most, and not even there if `b` holds. -/
def Same (b : Prop) (x y : Context) : Prop := ∃ w, y = x.withEbx w ∧ (b → w = x.regs.ebx)

theorem Same.refl (x : Context) : Same b x x := ⟨x.regs.ebx, rfl, fun _ => rfl⟩

theorem Same.trans (hxy : Same b x y) (hyc : Same b y c) : Same b x c := by
  obtain ⟨w, rfl, hw⟩ := hxy
  obtain ⟨w', rfl, hw'⟩ := hyc
  exact ⟨w', rfl, fun hb => (hw' hb).trans (hw hb)⟩

theorem Same.eq (h : Same b x y) (hb : b) : y = x := by
  obtain ⟨w, rfl, hw⟩ := h
  rw [hw hb]
  rfl

theorem Same.place (h : Same b x y) : L.place y = L.place x := by
  obtain ⟨w, rfl, -⟩ := h
  rfl

theorem Same.iret (h : Same b x y) {stack : List Word} {x' : Context}
    (hx : x.iret stack = some x') : ∃ y', y.iret stack = some y' ∧ Same b x' y' := by
  obtain ⟨w, rfl, hw⟩ := h
  revert hx
  fun_cases Context.iret x stack with
  | case1 eip eflags esp ss =>
    rintro ⟨⟩
    exact ⟨_, rfl, w, rfl, hw⟩
  | case2 => exact nofun
  | case3 eip cs eflags stack hcs =>
    rintro ⟨⟩
    exact ⟨_, if_neg hcs, w, rfl, hw⟩
  | case4 => exact nofun

/-- Every instruction but `popal` leaves `ebx` alone, and `popal` does not look at it. -/
theorem Same.execOn (h : Same b x y) {v : Scratch} {stack : List Word} {x' : Context}
    (hx : L.execOn v x t stack = some x') :
    ∃ y', L.execOn v y t stack = some y' ∧ Same b x' y' := by
  obtain ⟨w, rfl, hw⟩ := h
  revert hx
  fun_cases Layout.execOn L v x t stack with
  | case5 edi esi ebp _ ebx edx ecx eax stack =>
    rintro ⟨⟩
    exact ⟨_, rfl, Same.refl _⟩
  | case7 => exact fun hx => Same.iret ⟨w, rfl, hw⟩ hx
  | case8 => exact nofun
  | case1 | case2 | case3 | case4 | case6 =>
    rintro ⟨⟩
    exact ⟨_, rfl, w, rfl, hw⟩

theorem Same.exec (h : Same b x y) {v : Scratch} {x' : Context} (hx : L.exec v x t = some x') :
    ∃ y', L.exec v y t = some y' ∧ Same b x' y' := by
  have hmode : y.mode = x.mode := by
    obtain ⟨w, rfl, -⟩ := h
    rfl
  unfold Layout.exec at hx ⊢
  rw [hmode]
  split at hx
  · cases hx
  · exact h.execOn hx

/-- Left alone, these instructions take `x` to a context like `c`. -/
def Layout.Leads (L : Layout ι) (b : Prop) : List Tail → Context → Context → Prop
  | [], x, c => Same b c x
  | t :: ts, x, c =>
    L.place x = some t ∧ ∀ v, ∃ x', L.exec v x t = some x' ∧ L.Leads b ts x' c

theorem Layout.Leads.same (h : L.Leads b ts x c) (hxy : Same b x y) : L.Leads b ts y c := by
  -- `ebx` may differ until `popal`, and from there on it is carried to the end
  induction ts generalizing x y with
  | nil => exact Same.trans h hxy
  | cons t ts ih =>
    obtain ⟨hplace, hexec⟩ := h
    refine ⟨hxy.place.trans hplace, fun v => ?_⟩
    obtain ⟨x', hx', hleads⟩ := hexec v
    obtain ⟨y', hy', hsame⟩ := hxy.exec hx'
    exact ⟨y', hy', ih hleads hsame⟩

/-- The process in context `x` returns from its interrupts one after the other, to these contexts,
and is outside of the stub in the end. -/
def Layout.Due (L : Layout ι) (b : Prop) : Context → List Context → Prop
  | x, [] => L.place x = none
  | x, c :: rest => (∃ t : Tail, L.Leads b t.rest x c) ∧ L.Due b c rest

theorem Layout.Due.same {cs : List Context} (h : L.Due b x cs) (hxy : Same b x y) :
    L.Due b y cs := by
  cases cs with
  | nil => exact hxy.place.trans h
  | cons c rest =>
    obtain ⟨⟨t, hleads⟩, hrest⟩ := h
    exact ⟨⟨t, hleads.same hxy⟩, hrest⟩

theorem Tail.rest_eq (t : Tail) : ∃ ts, t.rest = t :: ts ∧
    ((t = .iret ∧ ts = []) ∨ t ≠ .iret ∧ ∃ t' : Tail, ts = t'.rest) := by
  cases t with
  | dropArg => exact ⟨_, rfl, .inr ⟨nofun, .pushIrq, rfl⟩⟩
  | pushIrq => exact ⟨_, rfl, .inr ⟨nofun, .sendEoi, rfl⟩⟩
  | sendEoi => exact ⟨_, rfl, .inr ⟨nofun, .dropIrq, rfl⟩⟩
  | dropIrq => exact ⟨_, rfl, .inr ⟨nofun, .popal, rfl⟩⟩
  | popal => exact ⟨_, rfl, .inr ⟨nofun, .popfl, rfl⟩⟩
  | popfl => exact ⟨_, rfl, .inr ⟨nofun, .iret, rfl⟩⟩
  | iret => exact ⟨_, rfl, .inl ⟨rfl, rfl⟩⟩

/-- Inside of the stub there is an interrupt to return from. -/
theorem Layout.Due.of_place {cs : List Context} (h : L.Due b x cs) (ht : L.place x = some t) :
    ∃ c rest, cs = c :: rest ∧ L.Leads b t.rest x c ∧ L.Due b c rest := by
  cases cs with
  | nil => exact absurd (ht.symm.trans h) nofun
  | cons c rest =>
    obtain ⟨⟨t', hleads⟩, hrest⟩ := h
    obtain ⟨ts, hts, -⟩ := t'.rest_eq
    have htt' : t = t' := by
      rw [hts] at hleads
      exact Option.some.inj (ht.symm.trans hleads.1)
    subst htt'
    exact ⟨c, rest, rfl, hleads, hrest⟩

/-- Outside of it there is none. -/
theorem Layout.Due.eq_nil {cs : List Context} (h : L.Due b x cs) (hx : L.place x = none) :
    cs = [] := by
  cases cs with
  | nil => rfl
  | cons c rest =>
    obtain ⟨⟨t, hleads⟩, -⟩ := h
    obtain ⟨ts, hts, -⟩ := t.rest_eq
    rw [hts] at hleads
    exact absurd (hx.symm.trans hleads.1) nofun

theorem Layout.place_address (L : Layout ι) (r : Regs) (f : Word) (t : Tail) (stack : List Word) :
    L.place ⟨r, f, L.address t, .kernel stack⟩ = some t := by
  show (pitRet.find? fun t' => L.address t' = L.address t) = some t
  simp only [L.injective.eq_iff]
  cases t <;> rfl

/-- `iret` undoes the push of the processor. -/
theorem Context.iret_iretFrame (x c : Context) :
    x.iret c.iretFrame = some { c with regs := x.regs } := by
  obtain ⟨regs, eflags, eip, mode⟩ := c
  cases mode <;> rfl

/-- From `pit_ret` on the stub restores what `pushfl` and `pushal` and the processor have saved. -/
theorem Layout.leads_pitRet (L : Layout ι) (r₀ r : Regs) (f₀ f arg esp : Word) (c : Context)
    (h : Same b c { c with regs := r }) :
    L.Leads b pitRet
      ⟨r₀, f₀, L.address .dropArg, .kernel (arg :: (pushal r esp ++ f :: c.iretFrame))⟩ c := by
  -- the argument goes, and `send_eoi` leaves the stack as it was
  refine ⟨L.place_address _ _ _ _, fun _ => ⟨_, rfl, ?_⟩⟩
  refine ⟨L.place_address _ _ _ _, fun _ => ⟨_, rfl, ?_⟩⟩
  refine ⟨L.place_address _ _ _ _, fun _ => ⟨_, rfl, ?_⟩⟩
  refine ⟨L.place_address _ _ _ _, fun _ => ⟨_, rfl, ?_⟩⟩
  -- `popal` and `popfl`; the flags are replaced once more by `iret`
  refine ⟨L.place_address _ _ _ _, fun _ => ⟨_, rfl, ?_⟩⟩
  refine ⟨L.place_address _ _ _ _, fun _ => ⟨_, rfl, ?_⟩⟩
  exact ⟨L.place_address _ _ _ _, fun _ => ⟨_, Context.iret_iretFrame _ c, h⟩⟩

/-! ## Stores and loads of `pit_handler` -/

/-- `leave` and `ret` on a frame, whatever is below it. -/
theorem Saved.resume_frame (locals stack : List Word) (ebp eip : Word) (v : Scratch) :
    Saved.resume ⟨locals ++ ebp :: eip :: stack, (ebp :: eip :: stack).length⟩ v =
      some ⟨{ v.regs with ebp := ebp }, v.eflags, eip, .kernel stack⟩ := by
  have hdrop : (locals ++ ebp :: eip :: stack).drop
      ((locals ++ ebp :: eip :: stack).length - (ebp :: eip :: stack).length) =
        ebp :: eip :: stack := by
    rw [List.length_append, Nat.add_sub_cancel, List.drop_left]
  simp only [Saved.resume, hdrop]

/-- What is saved leads back to these contexts when it is loaded. -/
def Layout.Resumes (L : Layout ι) (b : Prop) (r : Saved) (cs : List Context) : Prop :=
  ∀ v, ∃ x, r.resume v = some x ∧ L.Due b x cs

/-- The saved `ebx` is the address of the iret frame. -/
theorem Layout.resumes_interrupt {p : ι} {cs : List Context} (h : L.Due b c cs)
    (hb : b → c.regs.ebx = L.esp p c.iretFrame) (locals : List Word) :
    L.Resumes b (L.interrupt p c locals) (c :: cs) := by
  intro v
  refine ⟨_, Saved.resume_frame locals _ _ _ v, ⟨.dropArg, ?_⟩, h⟩
  exact L.leads_pitRet _ _ _ _ _ _ c ⟨_, rfl, fun hb' => (hb hb').symm⟩

theorem Layout.resumes_schedule (L : Layout ι) (q : ι) (eip esp : Word) (garbage : Regs)
    (arg : Word) :
    L.Resumes b (L.schedule q eip esp garbage arg) [firstContext eip esp garbage] := by
  intro v
  refine ⟨_, Saved.resume_frame [] _ _ _ v, ⟨.dropArg, ?_⟩, rfl⟩
  exact L.leads_pitRet _ garbage _ _ _ _ (firstContext eip esp garbage) (Same.refl _)

end

/-! ## Every process gets its registers back -/

section

variable {ι : Type} [DecidableEq ι] {L : Layout ι} {track : ι → Prop} {s s' : State ι}

/-- Every process returns to the contexts that the observer has noted. `ebx` counts for those
processes only that `track` selects. -/
structure Kept (L : Layout ι) (track : ι → Prop) (s : State ι) : Prop where
  running : L.Due (track s.current) s.running (s.pending s.current)
  saved : ∀ q, q ≠ s.current → ∀ r, s.saved q = some r → L.Resumes (track q) r (s.pending q)

/-- When `p` is interrupted its `ebx` has the address of the iret frame already. -/
def Careful (L : Layout ι) (p : ι) (s : State ι) : Event ι → Prop
  | .tick _ _ _ => s.current = p → s.running.regs.ebx = L.esp p s.running.iretFrame
  | _ => True

instance (p : ι) (s : State ι) (e : Event ι) : Decidable (Careful L p s e) := by
  cases e <;> unfold Careful <;> infer_instance

omit [DecidableEq ι] in
theorem Kept.work (h : Kept L track s) {c : Context} (hplace : L.place s.running = none)
    (hc : L.place c = none) : Kept L track { s with running := c } := by
  refine ⟨?_, h.saved⟩
  show L.Due _ c (s.pending s.current)
  rw [h.running.eq_nil hplace]
  exact hc

theorem Kept.schedule (h : Kept L track s) {q : ι} (hq : q ≠ s.current) (eip esp : Word)
    (garbage : Regs) (arg : Word) :
    Kept L track { s with
      saved := Function.update s.saved q (some (L.schedule q eip esp garbage arg))
      pending := Function.update s.pending q [firstContext eip esp garbage] } := by
  constructor
  · show L.Due _ _ (Function.update s.pending q _ s.current)
    rw [Function.update_of_ne hq.symm]
    exact h.running
  · intro p hp r hr
    by_cases hpq : p = q
    · subst hpq
      simp only [Function.update_self, Option.some.injEq] at hr ⊢
      rw [← hr]
      exact L.resumes_schedule p eip esp garbage arg
    · simp only [Function.update_of_ne hpq] at hr ⊢
      exact h.saved p hp r hr

/-- After the stores of `pit_handler` every process can be loaded. -/
theorem Kept.resumes (h : Kept L track s) (locals : List Word)
    (hok : track s.current → s.running.regs.ebx = L.esp s.current s.running.iretFrame) {q : ι}
    {r : Saved}
    (hr : Function.update s.saved s.current (some (L.interrupt s.current s.running locals)) q
      = some r) :
    L.Resumes (track q) r
      (Function.update s.pending s.current (s.running :: s.pending s.current) q) := by
  by_cases hq : q = s.current
  · subst hq
    simp only [Function.update_self, Option.some.injEq] at hr ⊢
    rw [← hr]
    exact Layout.resumes_interrupt h.running hok locals
  · rw [Function.update_of_ne hq] at hr ⊢
    exact h.saved q hq r hr

/-- The state after an instruction of the stub. -/
theorem Event.exec_step {t : Tail} {v : Scratch} {c : Context} (ht : L.place s.running = some t)
    (hc : L.exec v s.running t = some c) :
    (Event.step v).exec L s = some { s with
      running := c
      pending :=
        if t = .iret then Function.update s.pending s.current (s.pending s.current).tail
        else s.pending } := by
  simp only [Event.exec, ht, Option.bind_eq_bind, Option.bind_some, hc]

theorem Kept.step (h : Kept L track s) {v : Scratch} (hs : (Event.step v).exec L s = some s') :
    Kept L track s' := by
  obtain ⟨t, ht, -⟩ := Option.bind_eq_some_iff.mp hs
  obtain ⟨c, rest, hpending, hleads, hrest⟩ := h.running.of_place ht
  obtain ⟨ts, hts, hcases⟩ := t.rest_eq
  rw [hts] at hleads
  obtain ⟨x, hx, hnext⟩ := hleads.2 v
  cases hs.symm.trans (Event.exec_step ht hx)
  rcases hcases with ⟨rfl, rfl⟩ | ⟨hiret, t', rfl⟩
  · -- the process is back in `c`
    constructor
    · simp only [if_pos, Function.update_self, hpending, List.tail_cons]
      exact hrest.same hnext
    · intro q hq r hr
      simp only [if_pos, Function.update_of_ne hq]
      exact h.saved q hq r hr
  · simp only [if_neg hiret]
    refine ⟨?_, h.saved⟩
    show L.Due _ x (s.pending s.current)
    rw [hpending]
    exact ⟨⟨t', hnext⟩, hrest⟩

theorem Kept.exec (h : Kept L track s) {e : Event ι} (hok : ∀ p, track p → Careful L p s e)
    (hs : e.exec L s = some s') : Kept L track s' := by
  cases e with
  | work c =>
    obtain ⟨⟨hplace, hc⟩, heq⟩ := Option.ite_none_right_eq_some.mp hs
    cases heq
    exact h.work hplace hc
  | schedule q eip esp garbage arg =>
    obtain ⟨hq, heq⟩ := Option.ite_none_left_eq_some.mp hs
    cases heq
    exact h.schedule hq eip esp garbage arg
  | tick q locals v =>
    obtain ⟨r, hr, hrest⟩ := Option.bind_eq_some_iff.mp hs
    obtain ⟨x, hx, heq⟩ := Option.bind_eq_some_iff.mp hrest
    cases heq
    have hebx : track s.current → s.running.regs.ebx = L.esp s.current s.running.iretFrame :=
      fun htrack => hok s.current htrack rfl
    constructor
    · obtain ⟨y, hy, hdue⟩ := h.resumes locals hebx hr v
      cases hx.symm.trans hy
      exact hdue
    · exact fun q' _ r' hr' => h.resumes locals hebx hr'
  | step v => exact h.step hs

theorem kept_of_reach {ok : State ι → Event ι → Prop} (h : Run.Reach (system L) ok s)
    (hok : ∀ p, track p → ∀ s e, ok s e → Careful L p s e) : Kept L track s := by
  refine h.invariant (fun s hs => ?_) fun s e s' hkept he hstep => ?_
  · obtain ⟨hplace, hsaved, hpending⟩ := hs
    constructor
    · rw [hpending]
      exact hplace
    · intro q _ r hr
      rw [hsaved] at hr
      cases hr
  · exact hkept.exec (fun p hp => hok p hp s e he) hstep

/-- A process that is left alone goes through the rest of the stub. -/
theorem Layout.Leads.run {b : Prop} {ts : List Tail} {c : Context}
    (h : L.Leads b ts s.running c) (v : Tail → Scratch) :
    ∃ s', (system L).run s (ts.map fun t => .step (v t)) = some s' ∧
      s'.current = s.current ∧ Same b c s'.running := by
  induction ts generalizing s with
  | nil => exact ⟨s, rfl, rfl, h⟩
  | cons t ts ih =>
    obtain ⟨hplace, hexec⟩ := h
    obtain ⟨x, hx, hleads⟩ := hexec (v t)
    have hstep := Event.exec_step hplace hx
    obtain ⟨s', hrun, hcurrent, hsame⟩ := ih (s := { s with running := x, pending := _ }) hleads
    exact ⟨s', Option.bind_eq_some_iff.mpr ⟨_, hstep, hrun⟩, hcurrent, hsame⟩

/-- A process at `pit_ret`, or anywhere after it, gets to the context `c` of its latest interrupt:
`eip`, `eflags`, `esp` and all words on its stack, and the general registers other than `ebx`. It
gets `ebx` back as well in those runs where its `ebx` has the address of the iret frame whenever it
is interrupted. -/
theorem preempted_registers {ok : State ι → Event ι → Prop} (h : Run.Reach (system L) ok s)
    {t : Tail} (ht : L.place s.running = some t) (v : Tail → Scratch) :
    ∃ c rest s', s.pending s.current = c :: rest ∧
      (system L).run s (t.rest.map fun i => .step (v i)) = some s' ∧ s'.current = s.current ∧
      (∃ ebx, s'.running = { c with regs := { c.regs with ebx := ebx } }) ∧
      ((∀ s₀ e, ok s₀ e → Careful L s.current s₀ e) → s'.running = c) := by
  have hkept : Kept L (fun _ => False) s := kept_of_reach h nofun
  obtain ⟨c, rest, hpending, hleads, -⟩ := hkept.running.of_place ht
  obtain ⟨s', hrun, hcurrent, w, hw, -⟩ := hleads.run v
  refine ⟨c, rest, s', hpending, hrun, hcurrent, ⟨w, hw⟩, fun hok => ?_⟩
  -- the same run, with `ebx` of the process
  have hkept : Kept L (fun p => p = s.current) s := by
    refine kept_of_reach h fun p hp s₀ e he => ?_
    subst hp
    exact hok s₀ e he
  obtain ⟨d, rest', hpending', hleads', -⟩ := hkept.running.of_place ht
  obtain ⟨s'', hrun', -, hsame⟩ := hleads'.run v
  cases hpending.symm.trans hpending'
  cases hrun.symm.trans hrun'
  exact hsame.eq rfl

end

/-- The six kernel stacks, and a place for the stub. -/
def sampleLayout : Layout Pid where
  kernelStack p := BitVec.ofNat 32 (Kernel.getKstackAddress p)
  address
    | .dropArg => 0x401000
    | .pushIrq => 0x401003
    | .sendEoi => 0x401005
    | .dropIrq => 0x40100a
    | .popal => 0x40100d
    | .popfl => 0x40100e
    | .iret => 0x40100f
  injective := by
    intro t t' h
    cases t <;> cases t' <;> first | rfl | exact absurd h (by decide)

/-- A program in user mode. -/
def userContext (ebx : Word) : Context where
  regs := ⟨1, 2, 3, ebx, 5, 6, 7⟩
  eflags := stackFlags
  eip := 0x8048100
  mode := .user 0x83fff00 userDs

/-- Process 0 has started. -/
def started (ebx : Word) : State Pid where
  current := 0
  running := userContext ebx
  saved _ := none
  pending _ := []

theorem started_reach {ok : State Pid → Event Pid → Prop} {es : List (Event Pid)} {ebx : Word}
    {s : State Pid} (hall : (system sampleLayout).Allowed ok (started ebx) es)
    (h : (system sampleLayout).run (started ebx) es = some s) :
    Run.Reach (system sampleLayout) ok s := by
  have hinit : (system sampleLayout).init (started ebx) := ⟨rfl, fun _ => rfl, fun _ => rfl⟩
  exact (Run.Reach.init hinit).run hall h

def sampleScratch : Scratch := ⟨⟨0, 0, 0, 0, 0, 0, 0⟩, 0⟩

/-- Process 1 is scheduled and runs for a while between two ticks. -/
def otherRuns : List (Event Pid) :=
  [.schedule 1 0x8048200 0x83ffffc ⟨0, 0, 0, 0, 0, 0, 0⟩ 0, .tick 1 [0, 0] sampleScratch] ++
    pitRet.map (fun _ => .step sampleScratch) ++
    [.work (userContext 9), .tick 0 [0, 0, 0] sampleScratch]

theorem preempted_registers_frame : ∃ s s' : State Pid,
    (system sampleLayout).run (started 0x7fffe8) otherRuns = some s ∧
      (system sampleLayout).run s (pitRet.map fun _ => .step sampleScratch) = some s' ∧
      s'.running = userContext 0x7fffe8 := by
  have hall : (system sampleLayout).Allowed (Careful sampleLayout 0) (started 0x7fffe8)
      otherRuns := by
    decide +kernel
  have heval : ((system sampleLayout).run (started 0x7fffe8) otherRuns).map (fun s => decide
      (s.current = 0 ∧ sampleLayout.place s.running = some .dropArg ∧
        s.pending 0 = [userContext 0x7fffe8])) = some true := by
    decide +kernel
  obtain ⟨s, hs, hfacts⟩ := Option.map_eq_some_iff.mp heval
  obtain ⟨hcurrent, hplace, hpending⟩ := of_decide_eq_true hfacts
  obtain ⟨c, rest, s', hc, hrun, -, -, hsame⟩ :=
    preempted_registers (started_reach hall hs) hplace fun _ => sampleScratch
  rw [hcurrent] at hc hsame
  cases hpending.symm.trans hc
  exact ⟨s, s', hs, hrun, hsame fun _ _ hok => hok⟩

theorem preempted_registers_ebx : ∃ s s' : State Pid,
    Run.Reach (system sampleLayout) Run.Free s ∧ s.current = 0 ∧
      s.pending 0 = [userContext 4] ∧
      (system sampleLayout).run s (pitRet.map fun _ => .step sampleScratch) = some s' ∧
      s'.running = userContext 0x7fffe8 := by
  have heval : ((system sampleLayout).run (started 4) otherRuns).map (fun s => decide
      (s.current = 0 ∧ s.pending 0 = [userContext 4]) &&
        ((system sampleLayout).run s (pitRet.map fun _ => .step sampleScratch)).any fun s' =>
          decide (s'.running = userContext 0x7fffe8)) = some true := by
    decide +kernel
  obtain ⟨s, hs, hfacts⟩ := Option.map_eq_some_iff.mp heval
  simp only [Bool.and_eq_true, decide_eq_true_eq, Option.any_eq_true] at hfacts
  obtain ⟨⟨hcurrent, hpending⟩, s', hrun, hebx⟩ := hfacts
  exact ⟨s, s', started_reach (Run.System.allowed_free _ _ _) hs, hcurrent, hpending, hrun, hebx⟩

end Timer
end Linkage
end GalapagOS
