import GalapagOS.Fish.Blink
import Mathlib.Data.Fintype.Card

/-!
# The blink list stays a list

`Listed s l` says that the list at `mp1_list_head` runs through the slots `l`, no slot occurs twice,
and `mp1_malloc` takes none of them for free. Adding and removing keep this, the other calls
do not touch links and locations at all. It rests on one condition: a character at location 0 makes
its slot look free.
-/

namespace GalapagOS
namespace Fish

open SinglyLinked Function

variable {s s' : State} {l : List Slot} {i e : Slot} {fuel : ℕ}

/-! ## Links and locations -/

theorem State.next_modify (s : State) (i : Slot) (f : Node → Node) :
    (s.modify i f).next = update s.next i (f (s.array i)).next := by
  funext j
  by_cases hj : j = i
  · subst hj
    simp [State.next, State.modify]
  · simp [State.next, State.modify, update_of_ne hj]

theorem State.location_modify (s : State) {f : Node → Node} (i j : Slot)
    (hf : (f (s.array i)).location = (s.array i).location) :
    ((s.modify i f).array j).location = (s.array j).location := by
  by_cases hj : j = i
  · subst hj
    simpa [State.modify] using hf
  · simp [State.modify, update_of_ne hj]

/-- The links and the locations are the same in two states. -/
structure Same (s s' : State) : Prop where
  head : s'.head = s.head
  next : s'.next = s.next
  location : ∀ i, (s'.array i).location = (s.array i).location

theorem Same.trans {s₁ s₂ s₃ : State} (h : Same s₁ s₂) (h' : Same s₂ s₃) : Same s₁ s₃ :=
  ⟨h'.head.trans h.head, h'.next.trans h.next, fun i => (h'.location i).trans (h.location i)⟩

theorem same_modify {f : Node → Node} (s : State) (i : Slot)
    (hnext : (f (s.array i)).next = (s.array i).next)
    (hlocation : (f (s.array i)).location = (s.array i).location) : Same s (s.modify i f) where
  head := rfl
  next := by
    rw [State.next_modify, hnext]
    exact update_eq_self i s.next
  location j := s.location_modify i j hlocation

theorem same_poke (s : State) (location : BitVec 16) (c : UInt8) : Same s (s.poke location c) :=
  ⟨rfl, rfl, fun _ => rfl⟩

theorem same_tick (s : State) (i : Slot) : Same s (s.tick i) := by
  unfold State.tick
  have hdec := same_modify (f := fun n => { n with countdown := n.countdown - 1 }) s i rfl rfl
  refine hdec.trans ?_
  -- every branch behind it draws a character and sets the countdown and the status
  generalize s.modify i _ = s₁
  dsimp only
  split
  · exact ⟨rfl, rfl, fun _ => rfl⟩
  split
  · exact (same_poke s₁ _ _).trans (same_modify _ i rfl rfl)
  · exact (same_poke s₁ _ _).trans (same_modify _ i rfl rfl)

theorem same_ticks (l : List Slot) (s : State) : Same s (l.foldl State.tick s) := by
  induction l generalizing s with
  | nil => exact ⟨rfl, rfl, fun _ => rfl⟩
  | cons i l ih => exact (same_tick s i).trans (ih _)

theorem same_syncCopy (s : State) (src dst : Slot) : Same s (s.syncCopy src dst) :=
  (same_modify s dst rfl rfl).trans (same_poke _ _ _)

/-! ## The list -/

/-- The list runs through the slots `l`, each of them once, and all of them look taken. -/
structure Listed (s : State) (l : List Slot) : Prop where
  visits : Visits s.next s.head l
  nodup : l.Nodup
  taken : ∀ i ∈ l, (s.array i).location ≠ 0

theorem Listed.congr (h : Listed s l) (hs : Same s s') : Listed s' l where
  visits := by
    rw [hs.head, hs.next]
    exact h.visits
  nodup := h.nodup
  taken i hi := by
    rw [hs.location]
    exact h.taken i hi

theorem Listed.length_le (h : Listed s l) : l.length ≤ 2000 := by
  have hcard := h.nodup.length_le_card
  rwa [Fintype.card_fin] at hcard

theorem Listed.findHelper_eq (h : Listed s l) (hfuel : 2000 < fuel) (location : BitVec 16) :
    s.findHelper fuel location = some (l.find? fun i => (s.array i).location = location) :=
  search_eq h.visits (h.length_le.trans_lt hfuel)

theorem Listed.rtcTasklet_eq (h : Listed s l) (hfuel : 2000 < fuel) :
    s.rtcTasklet fuel = some (l.foldl State.tick s) :=
  walk_eq (fun s i => (same_tick s i).next) h.visits (h.length_le.trans_lt hfuel)

/-! ## Adding -/

theorem location_of_mallocFrom (n : ℕ) :
    ∀ {i : ℕ} {j : Slot}, s.mallocFrom i n = some j → (s.array j).location = 0 := by
  induction n with
  | zero =>
    intro i j h
    cases h
  | succ n ih =>
    intro i j h
    rw [State.mallocFrom] at h
    by_cases hi : i < 2000
    · rw [dif_pos hi] at h
      by_cases hfree : (s.array ⟨i, hi⟩).location = 0
      · rw [if_pos hfree] at h
        exact Option.some.inj h ▸ hfree
      · rw [if_neg hfree] at h
        exact ih h
    · rw [dif_neg hi] at h
      cases h

/-- `mp1_malloc` never takes a slot of the list. -/
theorem Listed.malloc_notMem (h : Listed s l) (hmalloc : s.malloc = some i) : i ∉ l :=
  fun hi => h.taken i hi (location_of_mallocFrom 2000 hmalloc)

theorem Listed.insert (h : Listed s l) (hi : i ∉ l) {b : Blink} (hlocation : b.location ≠ 0) :
    Listed (s.insert i b) (i :: l) where
  visits := by
    have hnext : (s.insert i b).next = update s.next i s.head :=
      s.next_modify i fun _ => ⟨b, s.head⟩
    rw [hnext]
    exact h.visits.push hi
  nodup := List.nodup_cons.mpr ⟨hi, h.nodup⟩
  taken j hj := by
    show (update s.array i ⟨b, s.head⟩ j).location ≠ 0
    by_cases hji : j = i
    · rw [hji, update_self]
      exact hlocation
    · rw [update_of_ne hji]
      exact h.taken j ((List.mem_cons.mp hj).resolve_left hji)

/-- A call that returns 0 has put a slot in front of the list; otherwise nothing has changed. -/
theorem Listed.ioctlAdd (h : Listed s l) {user : Blink} (hlocation : user.location ≠ 0) :
    s.ioctlAdd user = (s, -1) ∨
      ∃ i, (s.ioctlAdd user).2 = 0 ∧ Listed (s.ioctlAdd user).1 (i :: l) := by
  unfold State.ioctlAdd
  split
  · exact .inl rfl
  · cases hmalloc : s.malloc with
    | none => exact .inl rfl
    | some i =>
      have hlisted := h.insert (h.malloc_notMem hmalloc) (b := { user with
        status := 1, countdown := user.onLength }) hlocation
      exact .inr ⟨i, rfl, hlisted.congr (same_poke _ _ _)⟩

/-! ## Removing -/

theorem storeCell_eq (s : State) (q c : Option Slot) :
    (s.storeCell q c).head = (writeCell s.next s.head q c).1 ∧
      (s.storeCell q c).next = (writeCell s.next s.head q c).2 ∧
      ∀ j, ((s.storeCell q c).array j).location = (s.array j).location := by
  cases c with
  | none => exact ⟨rfl, rfl, fun _ => rfl⟩
  | some b =>
    refine ⟨rfl, s.next_modify b fun n => { n with next := q }, fun j => ?_⟩
    exact s.location_modify (f := fun n => { n with next := q }) b j rfl

/-- The cell before the element gets its link, and the element is freed. -/
theorem Listed.unlink {l₁ l₂ : List Slot} (h : Listed s (l₁ ++ e :: l₂)) :
    Listed ((s.storeCell (s.next e) l₁.getLast?).free e) (l₁ ++ l₂) := by
  obtain ⟨hhead, hnext, hlocation⟩ := storeCell_eq s (s.next e) l₁.getLast?
  have hnodup := List.nodup_middle.mp h.nodup
  have he : e ∉ l₁ ++ l₂ := (List.nodup_cons.mp hnodup).1
  refine ⟨?_, (List.nodup_cons.mp hnodup).2, fun j hj => ?_⟩
  · -- the element is off the list before its link is cleared
    rw [State.free, State.next_modify, hnext]
    show Visits _ (s.storeCell _ _).head _
    rw [hhead]
    exact (h.visits.splice h.nodup).store he _
  · have hje : j ≠ e := fun hje => he (hje ▸ hj)
    have hmem : j ∈ l₁ ++ e :: l₂ := by
      rcases List.mem_append.mp hj with hj | hj
      · exact List.mem_append_left _ hj
      · exact List.mem_append_right _ (List.mem_cons_of_mem e hj)
    have hkept : ((s.storeCell (s.next e) l₁.getLast?).free e).array j
        = (s.storeCell (s.next e) l₁.getLast?).array j := update_of_ne hje _ _
    rw [hkept, hlocation]
    exact h.taken j hmem

/-- The call ends. If it returns 0, the list is one slot shorter; otherwise nothing has changed. -/
theorem Listed.ioctlRemove (h : Listed s l) (hfuel : 2000 < fuel) (arg : BitVec 32) :
    s.ioctlRemove fuel arg = some (s, -1) ∨
      ∃ s' l', s.ioctlRemove fuel arg = some (s', 0) ∧ Listed s' l' ∧ l'.length + 1 = l.length := by
  rw [State.ioctlRemove, h.findHelper_eq hfuel, Option.bind_some]
  cases hfind : l.find? fun i => (s.array i).location = arg.setWidth 16 with
  | none => exact .inl rfl
  | some e =>
    -- the search for the cell ends, since the element is in the list
    obtain ⟨l₁, l₂, rfl, he⟩ := List.eq_append_cons_of_mem (List.mem_of_find?_eq_some hfind)
    have hlen := h.length_le
    rw [List.length_append, List.length_cons] at hlen
    have hcell : findCell s.next s.head e fuel none = some l₁.getLast? := by
      rw [findCell_eq (c := none) h.visits he (by omega), Option.or_none]
    refine .inr ⟨_, l₁ ++ l₂, ?_, h.unlink, ?_⟩
    · dsimp only
      rw [hcell, Option.map_some]
    · rw [List.length_append, List.length_append, List.length_cons, Nat.add_assoc]

/-! ## Whole sessions -/

/-- No character is added at location 0. -/
def Event.Nonzero : Event → Prop
  | .add user => user.location ≠ 0
  | _ => True

instance : DecidablePred Event.Nonzero
  | .add user => inferInstanceAs (Decidable (user.location ≠ 0))
  | .remove _ => inferInstanceAs (Decidable True)
  | .find _ => inferInstanceAs (Decidable True)
  | .sync _ => inferInstanceAs (Decidable True)
  | .tasklet => inferInstanceAs (Decidable True)

/-- The states of the sessions in which no character is added at location 0. -/
def Reached (fuel : ℕ) (x : Session) : Prop := Run.Reach (system fuel) (fun _ ev => ev.Nonzero) x

/-- The list has one slot for every character that has been added and not been removed. -/
def Counted (x : Session) : Prop := ∃ l, Listed x.state l ∧ l.length + x.removes = x.adds

theorem Counted.congr {x : Session} (h : Counted x) {s' : State} (hs : Same x.state s') :
    Counted { x with state := s' } := by
  obtain ⟨l, hl, hcount⟩ := h
  exact ⟨l, hl.congr hs, hcount⟩

theorem Counted.sync {x x' : Session} {arg : BitVec 32} (h : Counted x)
    (hs : Event.exec fuel x (.sync arg) = some x') : Counted x' := by
  have hsame : ∀ r, x.state.ioctlSync fuel arg = some r → Same x.state r.1 := by
    intro r hr
    obtain ⟨found, -, hr⟩ := Option.bind_eq_some_iff.mp hr
    cases found with
    | none =>
      cases hr
      exact ⟨rfl, rfl, fun _ => rfl⟩
    | some src =>
      obtain ⟨found, -, rfl⟩ := Option.map_eq_some_iff.mp hr
      cases found with
      | none => exact ⟨rfl, rfl, fun _ => rfl⟩
      | some dst => exact same_syncCopy x.state src dst
  obtain ⟨r, hr, rfl⟩ := Option.map_eq_some_iff.mp hs
  exact h.congr (hsame r hr)

theorem Counted.step {x x' : Session} {ev : Event} (hfuel : 2000 < fuel) (h : Counted x)
    (hok : ev.Nonzero) (hs : ev.exec fuel x = some x') : Counted x' := by
  obtain ⟨l, hl, hcount⟩ := h
  cases ev with
  | add user =>
    obtain rfl := Option.some.inj hs
    rcases hl.ioctlAdd hok with hfail | ⟨i, hzero, hlisted⟩
    · rw [hfail]
      exact ⟨l, hl, hcount⟩
    · refine ⟨i :: l, hlisted, ?_⟩
      show (i :: l).length + x.removes = if (x.state.ioctlAdd user).2 = 0 then _ else _
      rw [hzero, if_pos rfl, List.length_cons]
      omega
  | remove arg =>
    obtain ⟨r, hr, rfl⟩ := Option.map_eq_some_iff.mp hs
    rcases hl.ioctlRemove hfuel arg with hfail | ⟨s', l', hzero, hlisted, hlen⟩
    · obtain rfl := Option.some.inj (hr.symm.trans hfail)
      exact ⟨l, hl, hcount⟩
    · obtain rfl := Option.some.inj (hr.symm.trans hzero)
      refine ⟨l', hlisted, ?_⟩
      show l'.length + (x.removes + 1) = x.adds
      omega
  | find user =>
    obtain ⟨_, -, rfl⟩ := Option.map_eq_some_iff.mp hs
    exact ⟨l, hl, hcount⟩
  | sync arg => exact Counted.sync ⟨l, hl, hcount⟩ hs
  | tasklet =>
    obtain ⟨s', hs', rfl⟩ := Option.map_eq_some_iff.mp hs
    obtain rfl := Option.some.inj (hs'.symm.trans (hl.rtcTasklet_eq hfuel))
    exact Counted.congr ⟨l, hl, hcount⟩ (same_ticks l x.state)

theorem counted_of_reached {x : Session} (hfuel : 2000 < fuel) (h : Reached fuel x) : Counted x := by
  refine h.invariant ?_ fun x ev x' hx hok hs => hx.step hfuel hok hs
  rintro x ⟨hhead, -, hadds, hremoves⟩
  refine ⟨[], ⟨hhead, List.nodup_nil, fun i hi => absurd hi List.not_mem_nil⟩, ?_⟩
  rw [hadds, hremoves]
  rfl

/-- In every session without a character at location 0 the list ends, visits no slot twice, and has
one slot for every character that has been added and not been removed; `mp1_malloc` takes none of
them. So the loops over the list end after at most 2000 elements. -/
theorem blink_list_ends {x : Session} (hfuel : 2000 < fuel) (h : Reached fuel x) :
    (∃ l, Visits x.state.next x.state.head l ∧ l.Nodup ∧ l.length + x.removes = x.adds ∧
      ∀ i, x.state.malloc = some i → i ∉ l) ∧
    (x.state.rtcTasklet fuel).isSome ∧ (∀ location, (x.state.findHelper fuel location).isSome) ∧
    ∀ arg, (x.state.ioctlRemove fuel arg).isSome := by
  obtain ⟨l, hl, hcount⟩ := counted_of_reached hfuel h
  refine ⟨⟨l, hl.visits, hl.nodup, hcount, fun i hi => hl.malloc_notMem hi⟩, ?_, fun location => ?_,
    fun arg => ?_⟩
  · rw [hl.rtcTasklet_eq hfuel, Option.isSome_some]
  · rw [hl.findHelper_eq hfuel, Option.isSome_some]
  · rcases hl.ioctlRemove hfuel arg with hfail | ⟨s', l', hzero, -⟩
    · rw [hfail, Option.isSome_some]
    · rw [hzero, Option.isSome_some]

/-! ## Sample sessions -/

/-- The cleared array. -/
def cleared : Session := ⟨⟨none, fun _ => .zero, fun _ => 0⟩, 0, 0⟩

/-- A character at a location. -/
def sampleBlink (location : BitVec 16) : Blink := ⟨location, 0x49, 0x4d, 7, 6, 0, 0⟩

/-- Three characters, two of them at the same place; the middle one is removed. -/
def sampleEvents : List Event :=
  [.add (sampleBlink 40), .add (sampleBlink 540), .add (sampleBlink 40), .sync 0x28021c, .tasklet,
    .remove 540, .find (sampleBlink 540)]

theorem blink_list_ends_sample :
    ∃ x, (system 2001).run cleared sampleEvents = some x ∧
      (∃ l, Visits x.state.next x.state.head l ∧ l.Nodup ∧ l.length + x.removes = x.adds ∧
        ∀ i, x.state.malloc = some i → i ∉ l) ∧
      (x.state.rtcTasklet 2001).isSome ∧
      (∀ location, (x.state.findHelper 2001 location).isSome) ∧
      ∀ arg, (x.state.ioctlRemove 2001 arg).isSome := by
  have hinit : Reached 2001 cleared := .init ⟨rfl, fun _ => rfl, rfl, rfl⟩
  have hnonzero : ∀ ev ∈ sampleEvents, ev.Nonzero := by decide
  obtain ⟨x, hx⟩ : ∃ x, (system 2001).run cleared sampleEvents = some x :=
    Option.isSome_iff_exists.mp (by decide +kernel)
  have hreached : Reached 2001 x :=
    hinit.run ((system 2001).allowed_of_forall (fun ev hev _ => hnonzero ev hev) cleared) hx
  exact ⟨x, hx, blink_list_ends (by decide) hreached⟩

/-- The slot of a character at location 0 is taken for free and linked to itself. After that the
list never ends, and neither does the tasklet. -/
theorem blink_list_loops :
    ∃ x, (system 2001).run cleared [.add (sampleBlink 0), .add (sampleBlink 540)] = some x ∧
      (∀ l, ¬ Visits x.state.next x.state.head l) ∧ ∀ fuel, x.state.rtcTasklet fuel = none := by
  refine ⟨_, rfl, fun l => ?_, fun fuel => ?_⟩
  · exact not_visits_of_self (a := 0) rfl
  · exact walk_eq_none (a := 0) (fun s i => (same_tick s i).next) fuel rfl

end Fish
end GalapagOS
