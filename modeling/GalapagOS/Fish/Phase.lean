import GalapagOS.Fish.BlinkList
import GalapagOS.Lib.Oscillator

/-!
# What blinks, and when

The tasklet counts every character of the list down and draws it in its other form when the count is
used up. After `t` ticks a character is in the phase that an oscillator has after `t` ticks, with the
two lengths as the code understands them: the count is decremented before it is tested, as a signed
word. This holds for every character of a session, whatever is done to the others.
-/

namespace GalapagOS
namespace Fish

open SinglyLinked Function Oscillator

variable {s s' : State} {l : List Slot} {i j e : Slot} {fuel : ℕ} {b : Blink} {t : ℕ}

/-! ## One character -/

/-- The ticks that a length stands for. -/
def ticks (length : BitVec 16) : ℕ :=
  if length = 0 ∨ 0x8000 < length.toNat then 1 else length.toNat

theorem ticks_pos (length : BitVec 16) : 0 < ticks length := by
  unfold ticks
  split
  · exact Nat.one_pos
  · rename_i h
    have hne : length.toNat ≠ 0 := fun hz => h (.inl (BitVec.eq_of_toNat_eq hz))
    omega

/-- The test of the tasklet after `m` ticks. -/
theorem countdown_pos {length : BitVec 16} {m : ℕ} (hm : m < ticks length) :
    0 < (length - BitVec.ofNat 16 m - 1).toInt ↔ m + 1 < ticks length := by
  unfold ticks at *
  have hlt := length.isLt
  have hone : (1 : BitVec 16).toNat = 1 := rfl
  rw [BitVec.toInt_eq_toNat_cond]
  split at hm
  · rename_i h
    obtain rfl : m = 0 := by omega
    rw [if_pos h]
    rcases h with rfl | h
    · decide
    · simp only [BitVec.toNat_sub, BitVec.toNat_ofNat, hone, Nat.reducePow]
      split <;> omega
  · rename_i h
    rw [if_neg h]
    rw [not_or] at h
    simp only [BitVec.toNat_sub, BitVec.toNat_ofNat, hone, Nat.reducePow]
    split <;> omega

/-- The phase of a character after `t` ticks. -/
def Blink.phase (b : Blink) (t : ℕ) : Phase := Oscillator.phase (ticks b.onLength) (ticks b.offLength) t

/-- The length of a half. -/
def Blink.length (b : Blink) (lit : Bool) : BitVec 16 := if lit then b.onLength else b.offLength

/-- What is drawn in a half. -/
def Blink.char (b : Blink) (lit : Bool) : UInt8 := if lit then b.onChar else b.offChar

theorem Blink.half_eq (b : Blink) (lit : Bool) :
    half (ticks b.onLength) (ticks b.offLength) lit = ticks (b.length lit) := by
  cases lit <;> rfl

/-- A node has the place, the forms and the lengths of a character. -/
structure Carries (n : Node) (b : Blink) : Prop where
  location : n.location = b.location
  onChar : n.onChar = b.onChar
  offChar : n.offChar = b.offChar
  onLength : n.onLength = b.onLength
  offLength : n.offLength = b.offLength

/-- Slot `i` holds the character `b`, which was added `t` ticks ago, and the screen shows it. -/
structure Blinks (s : State) (i : Slot) (b : Blink) (t : ℕ) : Prop where
  carries : Carries (s.array i) b
  status : (s.array i).status = if (b.phase t).lit then 1 else 0
  countdown : (s.array i).countdown
    = b.length (b.phase t).lit - BitVec.ofNat 16 (b.phase t).elapsed
  shown : s.vmem (2 * b.location.toNat) = b.char (b.phase t).lit

/-- What a character does not depend on. -/
theorem Blinks.congr (h : Blinks s i b t) (hnode : (s'.array i).toBlink = (s.array i).toBlink)
    (hvmem : s'.vmem (2 * b.location.toNat) = s.vmem (2 * b.location.toNat)) : Blinks s' i b t where
  carries := by
    obtain ⟨h₁, h₂, h₃, h₄, h₅⟩ := h.carries
    exact ⟨(congrArg Blink.location hnode).trans h₁, (congrArg Blink.onChar hnode).trans h₂,
      (congrArg Blink.offChar hnode).trans h₃, (congrArg Blink.onLength hnode).trans h₄,
      (congrArg Blink.offLength hnode).trans h₅⟩
  status := (congrArg Blink.status hnode).trans h.status
  countdown := (congrArg Blink.countdown hnode).trans h.countdown
  shown := hvmem.trans h.shown

/-- A half that begins. -/
theorem blinks_of_start (lit : Bool) (hphase : b.phase t = ⟨lit, 0⟩)
    (hcarries : Carries (s.array i) b)
    (hstatus : (s.array i).status = if lit then 1 else 0)
    (hcountdown : (s.array i).countdown = b.length lit)
    (hshown : s.vmem (2 * b.location.toNat) = b.char lit) : Blinks s i b t where
  carries := hcarries
  status := by rw [hphase, hstatus]
  countdown := by
    rw [hphase, hcountdown]
    exact (BitVec.sub_zero _).symm
  shown := by rw [hphase, hshown]

theorem vmem_poke_ne (s : State) {location : BitVec 16} {a : ℕ} (h : a ≠ 2 * location.toNat)
    (c : UInt8) : (s.poke location c).vmem a = s.vmem a := update_of_ne h ..

theorem two_mul_toNat_ne {x y : BitVec 16} (h : x ≠ y) : 2 * x.toNat ≠ 2 * y.toNat := by
  intro he
  exact h (BitVec.eq_of_toNat_eq (by omega))

theorem array_modify_self (s : State) (i : Slot) (f : Node → Node) :
    (s.modify i f).array i = f (s.array i) := update_self ..

theorem array_modify_ne (s : State) (h : j ≠ i) (f : Node → Node) :
    (s.modify i f).array j = s.array j := update_of_ne h ..

theorem array_poke (s : State) (location : BitVec 16) (c : UInt8) :
    (s.poke location c).array = s.array := rfl

/-- The tasklet leaves the other slots and the other places of the screen alone. -/
theorem tick_ne (s : State) (h : j ≠ i) : (s.tick i).array j = s.array j := by
  unfold State.tick
  dsimp only
  split
  · exact array_modify_ne s h _
  · split
    · rw [array_modify_ne _ h, array_poke, array_modify_ne s h]
    · rw [array_modify_ne _ h, array_poke, array_modify_ne s h]

theorem vmem_tick_ne (s : State) {a : ℕ} (h : a ≠ 2 * (s.array i).location.toNat) :
    (s.tick i).vmem a = s.vmem a := by
  have hlocation : ((s.modify i fun n => { n with countdown := n.countdown - 1 }).array i).location
      = (s.array i).location := by
    rw [array_modify_self]
  unfold State.tick
  dsimp only
  split
  · rfl
  · split
    · rw [hlocation]
      exact vmem_poke_ne _ h _
    · rw [hlocation]
      exact vmem_poke_ne _ h _

theorem sub_ofNat_succ (x : BitVec 16) (m : ℕ) :
    x - BitVec.ofNat 16 (m + 1) = x - BitVec.ofNat 16 m - 1 := by
  have hone : (1 : BitVec 16).toNat = 1 := rfl
  apply BitVec.eq_of_toNat_eq
  simp only [BitVec.toNat_sub, BitVec.toNat_ofNat, hone, Nat.reducePow]
  omega

theorem Blink.phase_succ (b : Blink) (t : ℕ) :
    b.phase (t + 1) = if (b.phase t).elapsed + 1 < ticks (b.length (b.phase t).lit)
      then ⟨(b.phase t).lit, (b.phase t).elapsed + 1⟩ else ⟨!(b.phase t).lit, 0⟩ := by
  unfold Blink.phase
  rw [Oscillator.phase_succ (ticks_pos _) (ticks_pos _), Oscillator.tick, b.half_eq]

/-- One tick of its own. -/
theorem Blinks.tick (h : Blinks s i b t) : Blinks (s.tick i) i b (t + 1) := by
  have hnext := b.phase_succ t
  have helapsed : (b.phase t).elapsed < ticks (b.length (b.phase t).lit) := by
    rw [← b.half_eq]
    exact elapsed_lt (ticks_pos _) (ticks_pos _) t
  have hcount := countdown_pos helapsed
  rw [← h.countdown] at hcount
  unfold State.tick
  dsimp only
  rw [array_modify_self]
  dsimp only
  by_cases hpos : 0 < ((s.array i).countdown - 1).toInt
  · rw [if_pos (hcount.mp hpos)] at hnext
    rw [if_pos hpos]
    constructor
    · rw [array_modify_self]
      exact ⟨h.carries.1, h.carries.2, h.carries.3, h.carries.4, h.carries.5⟩
    · rw [array_modify_self, hnext]
      exact h.status
    · rw [array_modify_self, hnext, sub_ofNat_succ, ← h.countdown]
    · rw [hnext]
      exact h.shown
  · rw [if_neg fun hlt => hpos (hcount.mpr hlt)] at hnext
    rw [if_neg hpos, h.status]
    cases hlit : (b.phase t).lit with
    | true =>
      rw [hlit] at hnext
      rw [if_pos (by decide)]
      apply blinks_of_start false hnext
      · rw [array_modify_self, array_poke, array_modify_self]
        exact ⟨h.carries.1, h.carries.2, h.carries.3, h.carries.4, h.carries.5⟩
      · rw [array_modify_self, array_poke, array_modify_self]
        show (s.array i).status ^^^ 1 = 0
        rw [h.status, hlit]
        rfl
      · rw [array_modify_self, array_poke, array_modify_self]
        exact h.carries.offLength
      · show update s.vmem (2 * (s.array i).location.toNat) (s.array i).offChar _ = b.offChar
        rw [h.carries.location, update_self, h.carries.offChar]
    | false =>
      rw [hlit] at hnext
      rw [if_neg (by decide)]
      apply blinks_of_start true hnext
      · rw [array_modify_self, array_poke, array_modify_self]
        exact ⟨h.carries.1, h.carries.2, h.carries.3, h.carries.4, h.carries.5⟩
      · rw [array_modify_self, array_poke, array_modify_self]
        show (s.array i).status ^^^ 1 = 1
        rw [h.status, hlit]
        rfl
      · rw [array_modify_self, array_poke, array_modify_self]
        exact h.carries.onLength
      · show update s.vmem (2 * (s.array i).location.toNat) (s.array i).onChar _ = b.onChar
        rw [h.carries.location, update_self, h.carries.onChar]

/-! ## The list -/

/-- No two slots of the list have the same location. -/
def Apart (s : State) (l : List Slot) : Prop :=
  ∀ i ∈ l, ∀ j ∈ l, (s.array i).location = (s.array j).location → i = j

theorem Apart.congr (h : Apart s l) (hs : Same s s') : Apart s' l := by
  intro i hi j hj he
  rw [hs.location, hs.location] at he
  exact h i hi j hj he

/-- A tick of another slot. -/
theorem Blinks.tick_ne (h : Blinks s i b t) (hne : i ≠ j)
    (hlocation : (s.array i).location ≠ (s.array j).location) : Blinks (s.tick j) i b t := by
  refine h.congr (congrArg Node.toBlink (Fish.tick_ne s hne)) (vmem_tick_ne s (two_mul_toNat_ne ?_))
  rw [← h.carries.location]
  exact hlocation

theorem blinks_foldl_notMem {l : List Slot} :
    ∀ {s : State}, Blinks s i b t → i ∉ l → (∀ j ∈ l, (s.array i).location ≠ (s.array j).location) →
      Blinks (l.foldl State.tick s) i b t := by
  induction l with
  | nil => exact fun h _ _ => h
  | cons j l ih =>
    intro s h hi hl
    rw [List.mem_cons, not_or] at hi
    refine ih (h.tick_ne hi.1 (hl j List.mem_cons_self)) hi.2 fun k hk => ?_
    rw [(same_tick s j).location, (same_tick s j).location]
    exact hl k (List.mem_cons_of_mem j hk)

/-- The tasklet ticks every slot of the list once. -/
theorem blinks_foldl {l : List Slot} :
    ∀ {s : State}, Apart s l → l.Nodup → i ∈ l → Blinks s i b t →
      Blinks (l.foldl State.tick s) i b (t + 1) := by
  induction l with
  | nil => exact fun _ _ hi => absurd hi List.not_mem_nil
  | cons j l ih =>
    intro s hapart hnodup hi h
    obtain ⟨hj, hl⟩ := List.nodup_cons.mp hnodup
    have hothers : Apart (s.tick j) l := by
      refine Apart.congr (fun i hi k hk => ?_) (same_tick s j)
      exact hapart i (List.mem_cons_of_mem j hi) k (List.mem_cons_of_mem j hk)
    rw [List.foldl_cons]
    rcases List.mem_cons.mp hi with rfl | hmem
    · refine blinks_foldl_notMem h.tick hj fun k hk => ?_
      rw [(same_tick s i).location, (same_tick s i).location]
      intro he
      exact hj (hapart i hi k (List.mem_cons_of_mem i hk) he ▸ hk)
    · have hne : i ≠ j := fun he => hj (he ▸ hmem)
      refine ih hothers hl hmem (h.tick_ne hne fun he => ?_)
      exact hne (hapart i hi j List.mem_cons_self he)

/-! ## Whole sessions -/

/-- A session, and for each location the character that was added there and the number of ticks
since. A character that was synchronized with another one is no longer watched. -/
structure Watched where
  session : Session
  since : BitVec 16 → Option (Blink × ℕ)

/-- What is watched after a call that led to the session `y`. -/
def Watched.next (x : Watched) (y : Session) : Event → BitVec 16 → Option (Blink × ℕ)
  | .add user =>
    if y.adds = x.session.adds then x.since else update x.since user.location (some (user, 0))
  | .remove arg =>
    if y.removes = x.session.removes then x.since else update x.since (arg.setWidth 16) none
  | .find _ => x.since
  | .sync arg => update x.since ((arg &&& 0xffff).setWidth 16) none
  | .tasklet => fun location => (x.since location).map fun w => (w.1, w.2 + 1)

def watching (fuel : ℕ) : Run.System Watched Event where
  init x := (system fuel).init x.session ∧ ∀ location, x.since location = none
  step x ev := (ev.exec fuel x.session).map fun y => ⟨y, x.next y ev⟩

/-- Characters are added at places that are not in use, and not at location 0. -/
def Fresh (fuel : ℕ) (x : Watched) : Event → Prop
  | .add user => user.location ≠ 0 ∧ x.session.state.findHelper fuel user.location = some none
  | _ => True

instance (fuel : ℕ) (x : Watched) : DecidablePred (Fresh fuel x)
  | .add user => inferInstanceAs (Decidable (user.location ≠ 0 ∧
      x.session.state.findHelper fuel user.location = some none))
  | .remove _ => inferInstanceAs (Decidable True)
  | .find _ => inferInstanceAs (Decidable True)
  | .sync _ => inferInstanceAs (Decidable True)
  | .tasklet => inferInstanceAs (Decidable True)

/-- The list of a session with characters that blink. -/
structure Animated (s : State) (since : BitVec 16 → Option (Blink × ℕ)) (l : List Slot) : Prop
    extends Listed s l where
  apart : Apart s l
  blinks : ∀ location b t, since location = some (b, t) →
    b.location = location ∧ ∃ i ∈ l, Blinks s i b t

section Animated

variable {since : BitVec 16 → Option (Blink × ℕ)}

/-- A new character. -/
theorem Animated.insert {user : Blink} (h : Animated s since l) (hne : user.location ≠ 0)
    (hunused : ∀ i ∈ l, (s.array i).location ≠ user.location) (hmalloc : s.malloc = some i) :
    Animated ((s.insert i { user with status := 1, countdown := user.onLength }).poke user.location
        user.onChar)
      (update since user.location (some (user, 0))) (i :: l) := by
  have hi : i ∉ l := h.malloc_notMem hmalloc
  have hself : (s.insert i { user with status := 1, countdown := user.onLength }).array i
      = ⟨{ user with status := 1, countdown := user.onLength }, s.head⟩ := update_self ..
  have hother : ∀ j ∈ l,
      (s.insert i { user with status := 1, countdown := user.onLength }).array j = s.array j := by
    intro j hj
    have hne : j ≠ i := fun he => hi (he ▸ hj)
    exact update_of_ne hne _ _
  have hlisted : Listed (s.insert i { user with status := 1, countdown := user.onLength }) (i :: l) :=
    h.toListed.insert hi hne
  refine ⟨hlisted.congr (same_poke _ _ _), ?_, ?_⟩
  · intro j hj k hk he
    rw [array_poke] at he
    rcases List.mem_cons.mp hj with hji | hjl <;> rcases List.mem_cons.mp hk with hki | hkl
    · rw [hji, hki]
    · rw [hji, hself, hother k hkl] at he
      exact absurd he.symm (hunused k hkl)
    · rw [hki, hself, hother j hjl] at he
      exact absurd he (hunused j hjl)
    · rw [hother j hjl, hother k hkl] at he
      exact h.apart j hjl k hkl he
  · intro location b t hw
    by_cases hlocation : location = user.location
    · rw [hlocation, update_self] at hw
      cases hw
      refine ⟨hlocation.symm, i, List.mem_cons_self, ?_⟩
      apply blinks_of_start true (phase_zero (ticks_pos _))
      · rw [array_poke, hself]
        exact ⟨rfl, rfl, rfl, rfl, rfl⟩
      · rw [array_poke, hself]
        rfl
      · rw [array_poke, hself]
        rfl
      · exact update_self ..
    · rw [update_of_ne hlocation] at hw
      obtain ⟨rfl, j, hj, hblinks⟩ := h.blinks location b t hw
      refine ⟨rfl, j, List.mem_cons_of_mem i hj, hblinks.congr ?_ (vmem_poke_ne _ (two_mul_toNat_ne hlocation) _)⟩
      rw [array_poke, hother j hj]

/-- A call that returns 0 has put the character in front of the list. -/
theorem Animated.ioctlAdd {user : Blink} (h : Animated s since l) (hne : user.location ≠ 0)
    (hunused : ∀ i ∈ l, (s.array i).location ≠ user.location) :
    s.ioctlAdd user = (s, -1) ∨ (s.ioctlAdd user).2 = 0 ∧
      ∃ i, Animated (s.ioctlAdd user).1 (update since user.location (some (user, 0))) (i :: l) := by
  unfold State.ioctlAdd
  split
  · exact .inl rfl
  · cases hmalloc : s.malloc with
    | none => exact .inl rfl
    | some i => exact .inr ⟨rfl, i, h.insert hne hunused hmalloc⟩

theorem Animated.forget (h : Animated s since l) (location : BitVec 16) :
    Animated s (update since location none) l := by
  refine ⟨h.toListed, h.apart, fun location' b t hw => h.blinks location' b t ?_⟩
  by_cases he : location' = location
  · rw [he, update_self] at hw
    cases hw
  · rwa [update_of_ne he] at hw

/-- The slot of a watched character at another location is another slot. -/
theorem Animated.of_forgotten (h : Animated s since l) {location : BitVec 16}
    (hw : update since (s.array e).location none location = some (b, t)) :
    b.location = location ∧ location ≠ (s.array e).location ∧ ∃ i ∈ l, i ≠ e ∧ Blinks s i b t := by
  have hne : location ≠ (s.array e).location := by
    intro he
    rw [he, update_self] at hw
    cases hw
  rw [update_of_ne hne] at hw
  obtain ⟨rfl, i, hi, hblinks⟩ := h.blinks location b t hw
  refine ⟨rfl, hne, i, hi, fun he => hne ?_, hblinks⟩
  rw [← hblinks.carries.location, he]

/-- A character that is removed. -/
theorem Animated.unlink {l₁ l₂ : List Slot} (h : Animated s since (l₁ ++ e :: l₂)) :
    Animated ((s.storeCell (s.next e) l₁.getLast?).free e)
      (update since (s.array e).location none) (l₁ ++ l₂) := by
  have hmem : ∀ j, j ∈ l₁ ++ e :: l₂ ↔ j = e ∨ j ∈ l₁ ++ l₂ := by
    intro j
    rw [List.mem_append, List.mem_cons, List.mem_append]
    tauto
  have he : e ∉ l₁ ++ l₂ := (List.nodup_cons.mp (List.nodup_middle.mp h.nodup)).1
  have hkept : ∀ j, j ≠ e → (((s.storeCell (s.next e) l₁.getLast?).free e).array j).toBlink
      = (s.array j).toBlink := by
    intro j hj
    have hfree : ((s.storeCell (s.next e) l₁.getLast?).free e).array j
        = (s.storeCell (s.next e) l₁.getLast?).array j := update_of_ne hj _ _
    rw [hfree]
    cases l₁.getLast? with
    | none => rfl
    | some a =>
      show ((s.setNext a (s.next e)).array j).toBlink = _
      by_cases hja : j = a
      · rw [hja, State.setNext, array_modify_self]
      · rw [State.setNext, array_modify_ne s hja]
  refine ⟨h.toListed.unlink, fun i hi j hj heq => ?_, fun location b t hw => ?_⟩
  · have hie : i ≠ e := fun hie => he (hie ▸ hi)
    have hje : j ≠ e := fun hje => he (hje ▸ hj)
    rw [hkept i hie, hkept j hje] at heq
    exact h.apart i ((hmem i).mpr (.inr hi)) j ((hmem j).mpr (.inr hj)) heq
  · obtain ⟨hlocation, -, i, hi, hie, hblinks⟩ := h.of_forgotten hw
    refine ⟨hlocation, i, ((hmem i).mp hi).resolve_left hie, hblinks.congr (hkept i hie) ?_⟩
    cases l₁.getLast? <;> rfl

theorem Animated.ioctlRemove (h : Animated s since l) (hfuel : 2000 < fuel) (arg : BitVec 32) :
    s.ioctlRemove fuel arg = some (s, -1) ∨
      ∃ s' l', s.ioctlRemove fuel arg = some (s', 0) ∧
        Animated s' (update since (arg.setWidth 16) none) l' := by
  rw [State.ioctlRemove, h.findHelper_eq hfuel, Option.bind_some]
  cases hfind : l.find? fun i => (s.array i).location = arg.setWidth 16 with
  | none => exact .inl rfl
  | some e =>
    have hlocation : (s.array e).location = arg.setWidth 16 := by simpa using List.find?_some hfind
    obtain ⟨l₁, l₂, rfl, he⟩ := List.eq_append_cons_of_mem (List.mem_of_find?_eq_some hfind)
    have hlen := h.length_le
    rw [List.length_append, List.length_cons] at hlen
    have hcell : findCell s.next s.head e fuel none = some l₁.getLast? := by
      rw [findCell_eq (c := none) h.visits he (by omega), Option.or_none]
    refine .inr ⟨_, l₁ ++ l₂, ?_, hlocation ▸ h.unlink⟩
    dsimp only
    rw [hcell, Option.map_some]

/-- A character that is synchronized; the screen changes at its place only. -/
theorem Animated.syncCopy (h : Animated s since l) (src dst : Slot) :
    Animated (s.syncCopy src dst) (update since (s.array dst).location none) l := by
  have hsame := same_syncCopy s src dst
  refine ⟨h.toListed.congr hsame, h.apart.congr hsame, fun location b t hw => ?_⟩
  obtain ⟨rfl, hne, i, hi, hie, hblinks⟩ := h.of_forgotten hw
  refine ⟨rfl, i, hi, hblinks.congr ?_ ?_⟩
  · rw [State.syncCopy, array_poke, array_modify_ne s hie]
  · refine (vmem_poke_ne _ (two_mul_toNat_ne ?_) _).trans rfl
    rw [array_modify_self]
    exact hne

theorem Animated.ioctlSync (h : Animated s since l) (hfuel : 2000 < fuel) {arg : BitVec 32}
    {r : State × ℤ} (hr : s.ioctlSync fuel arg = some r) :
    Animated r.1 (update since ((arg &&& 0xffff).setWidth 16) none) l := by
  rw [State.ioctlSync, h.findHelper_eq hfuel, h.findHelper_eq hfuel, Option.bind_some] at hr
  split at hr
  · cases hr
    exact h.forget _
  · rename_i src _
    obtain rfl := Option.some.inj hr
    dsimp only
    split
    · exact h.forget _
    · rename_i dst hdst
      have hlocation : (s.array dst).location = (arg &&& 0xffff).setWidth 16 := by
        simpa using List.find?_some hdst
      exact hlocation ▸ h.syncCopy src dst

theorem Animated.tasklet (h : Animated s since l) :
    Animated (l.foldl State.tick s)
      (fun location => (since location).map fun w => (w.1, w.2 + 1)) l where
  toListed := h.toListed.congr (same_ticks l s)
  apart := h.apart.congr (same_ticks l s)
  blinks location b t hw := by
    obtain ⟨⟨b', t'⟩, hw', he⟩ := Option.map_eq_some_iff.mp hw
    cases he
    obtain ⟨hlocation, i, hi, hblinks⟩ := h.blinks location b' t' hw'
    exact ⟨hlocation, i, hi, blinks_foldl h.apart h.nodup hi hblinks⟩

end Animated

/-- Every call keeps the animation. -/
theorem Animated.step {x : Watched} {ev : Event} {y : Session} (hfuel : 2000 < fuel)
    (h : Animated x.session.state x.since l) (hok : Fresh fuel x ev)
    (hs : ev.exec fuel x.session = some y) : ∃ l', Animated y.state (x.next y ev) l' := by
  cases ev with
  | add user =>
    obtain rfl := Option.some.inj hs
    obtain ⟨hne, hfind⟩ := hok
    rw [h.findHelper_eq hfuel, Option.some.injEq, List.find?_eq_none] at hfind
    rcases h.ioctlAdd hne (by simpa using hfind) with hfail | ⟨hzero, i, hanimated⟩
    · refine ⟨l, ?_⟩
      rw [Watched.next, hfail, if_pos (show (if (-1 : ℤ) = 0 then _ else _) = _ from if_neg (by decide))]
      exact h
    · refine ⟨i :: l, ?_⟩
      have hadds : (if (x.session.state.ioctlAdd user).2 = 0 then x.session.adds + 1
          else x.session.adds) ≠ x.session.adds := by
        rw [if_pos hzero]
        omega
      rw [Watched.next, if_neg hadds]
      exact hanimated
  | remove arg =>
    obtain ⟨r, hr, rfl⟩ := Option.map_eq_some_iff.mp hs
    rcases h.ioctlRemove hfuel arg with hfail | ⟨s', l', hzero, hanimated⟩
    · obtain rfl := Option.some.inj (hr.symm.trans hfail)
      refine ⟨l, ?_⟩
      rw [Watched.next, if_pos (show (if (-1 : ℤ) = 0 then _ else _) = _ from if_neg (by decide))]
      exact h
    · obtain rfl := Option.some.inj (hr.symm.trans hzero)
      refine ⟨l', ?_⟩
      have hremoves : (if (0 : ℤ) = 0 then x.session.removes + 1 else x.session.removes)
          ≠ x.session.removes := by
        rw [if_pos rfl]
        omega
      rw [Watched.next, if_neg hremoves]
      exact hanimated
  | find user =>
    obtain ⟨_, -, rfl⟩ := Option.map_eq_some_iff.mp hs
    exact ⟨l, h⟩
  | sync arg =>
    obtain ⟨r, hr, rfl⟩ := Option.map_eq_some_iff.mp hs
    exact ⟨l, h.ioctlSync hfuel hr⟩
  | tasklet =>
    obtain ⟨s', hs', rfl⟩ := Option.map_eq_some_iff.mp hs
    obtain rfl := Option.some.inj (hs'.symm.trans (h.rtcTasklet_eq hfuel))
    exact ⟨l, h.tasklet⟩

theorem animated_of_reach {x : Watched} (hfuel : 2000 < fuel)
    (h : Run.Reach (watching fuel) (Fresh fuel) x) : ∃ l, Animated x.session.state x.since l := by
  refine h.invariant (I := fun x => ∃ l, Animated x.session.state x.since l) ?_ ?_
  · rintro x ⟨⟨hhead, -⟩, hnone⟩
    refine ⟨[], ⟨hhead, List.nodup_nil, fun i hi => absurd hi List.not_mem_nil⟩,
      fun i hi => absurd hi List.not_mem_nil, fun location b t hw => ?_⟩
    rw [hnone] at hw
    cases hw
  · rintro x ev x' ⟨l, hx⟩ hok hs
    obtain ⟨y, hy, rfl⟩ := Option.map_eq_some_iff.mp hs
    exact hx.step hfuel hok hy

/-- In every session in which characters are added at unused places other than 0: a character that has
not been removed or synchronized shows its first form exactly in the first part of each cycle since
it was added, and its second form in the rest. -/
theorem blink_phase {x : Watched} (hfuel : 2000 < fuel)
    (h : Run.Reach (watching fuel) (Fresh fuel) x) {location : BitVec 16} {b : Blink} {t : ℕ}
    (hw : x.since location = some (b, t)) :
    x.session.state.vmem (2 * location.toNat)
      = if t % (ticks b.onLength + ticks b.offLength) < ticks b.onLength then b.onChar
        else b.offChar := by
  obtain ⟨l, hx⟩ := animated_of_reach hfuel h
  obtain ⟨rfl, i, -, hblinks⟩ := hx.blinks location b t hw
  rw [hblinks.shown, Blink.char, Blink.phase, lit_phase]
  simp only [decide_eq_true_eq]

/-- Two characters, the second one added after 5 ticks; the first is synchronized with it. -/
def samplePhases : List Event :=
  [.add (sampleBlink 40)] ++ List.replicate 5 .tasklet ++
    [.add (sampleBlink 540), .sync 0x21c0028] ++ List.replicate 8 .tasklet

/-- After 8 more ticks the second character is in its second half. -/
theorem blink_phase_sample :
    ∃ x, (watching 2001).run ⟨cleared, fun _ => none⟩ samplePhases = some x ∧
      x.since 40 = none ∧ x.since 540 = some (sampleBlink 540, 8) ∧
      x.session.state.vmem 1080 = 0x4d := by
  have hinit : Run.Reach (watching 2001) (Fresh 2001) ⟨cleared, fun _ => none⟩ :=
    .init ⟨⟨rfl, fun _ => rfl, rfl, rfl⟩, fun _ => rfl⟩
  have heval : ((watching 2001).run ⟨cleared, fun _ => none⟩ samplePhases).any fun x =>
      x.since 40 = none ∧ x.since 540 = some (sampleBlink 540, 8) := by
    decide +kernel
  have hok : (watching 2001).Allowed (Fresh 2001) ⟨cleared, fun _ => none⟩ samplePhases := by
    decide +kernel
  obtain ⟨x, hx, hsince⟩ := (Option.any_eq_true _ _).mp heval
  obtain ⟨hfirst, hsecond⟩ := of_decide_eq_true hsince
  refine ⟨x, hx, hfirst, hsecond, ?_⟩
  exact blink_phase (by decide) (hinit.run hok hx) hsecond

end Fish
end GalapagOS
