import Mathlib.Data.List.Chain
import Mathlib.Data.List.Nodup

/-!
# Circular doubly linked lists

A heap of nodes with two partial link functions `next` and `prev`, and the circular lists
they form through a sentinel. `IsRing next prev s xs` says that following `next` from `s`
visits `xs` in this order and comes back to `s`, that `prev` runs the same way backwards, and
that no node is visited twice.

The rules are about the links *before* and *after* an update, so that they apply to any
representation of the heap: `IsRing.congr` (links of other nodes), `IsRing.append` (insertion
before the sentinel), `IsRing.remove`. `search` follows `next` up to a node with a
property; on a ring it finds the first one in ring order.
-/

namespace Ring

variable {α : Type*} {next prev next' prev' : α → Option α} {s : α} {xs : List α}

/-- `a` points to `b` and `b` points back. -/
def Linked (next prev : α → Option α) (a b : α) : Prop :=
  next a = some b ∧ prev b = some a

/-- The circular list through the sentinel `s` and then `xs`. -/
structure IsRing (next prev : α → Option α) (s : α) (xs : List α) : Prop where
  nodup : (s :: xs).Nodup
  chain : (s :: xs ++ [s]).IsChain (Linked next prev)

/-! ## Links of other nodes -/

/-- A chain uses `next` of all its nodes but the last, and `prev` of all but the first. -/
theorem isChain_congr {l : List α} (h : l.IsChain (Linked next prev))
    (hnext : ∀ a ∈ l.dropLast, next' a = next a) (hprev : ∀ b ∈ l.tail, prev' b = prev b) :
    l.IsChain (Linked next' prev') := by
  induction l with
  | nil => exact .nil
  | cons a l ih =>
    cases l with
    | nil => exact .singleton a
    | cons b l =>
      rw [List.isChain_cons_cons] at h ⊢
      have ha : next' a = next a := hnext a (by simp)
      have hb : prev' b = prev b := hprev b (by simp)
      refine ⟨⟨ha ▸ h.1.1, hb ▸ h.1.2⟩, ih h.2 (fun x hx => ?_) (fun x hx => ?_)⟩
      · exact hnext x (by rw [List.dropLast_cons_cons]; exact List.mem_cons_of_mem _ hx)
      · exact hprev x (List.mem_of_mem_tail hx)

theorem IsRing.congr (h : IsRing next prev s xs) (hnext : ∀ a ∈ s :: xs, next' a = next a)
    (hprev : ∀ a ∈ s :: xs, prev' a = prev a) : IsRing next' prev' s xs := by
  refine ⟨h.nodup, isChain_congr h.chain (fun a ha => hnext a ?_) (fun b hb => hprev b ?_)⟩
  · rwa [List.dropLast_concat] at ha
  · have hmem : b ∈ xs ∨ b = s := by simpa using hb
    rcases hmem with hb | rfl
    · exact List.mem_cons_of_mem _ hb
    · exact List.mem_cons_self

/-- The ring with nothing but the sentinel. -/
theorem IsRing.nil (hnext : next s = some s) (hprev : prev s = some s) :
    IsRing next prev s [] :=
  ⟨List.nodup_singleton s, List.isChain_pair.mpr ⟨hnext, hprev⟩⟩

/-! ## Neighbours -/

theorem IsRing.linked_of_append {a b : α} (h : IsRing next prev s xs) (as bs : List α)
    (hl : s :: xs ++ [s] = as ++ a :: b :: bs) : Linked next prev a b := by
  have hc := h.chain
  rw [hl, List.isChain_append_cons_cons] at hc
  exact hc.2.1

/-- Both neighbours of a node inside the ring. -/
theorem IsRing.neighbours {as bs : List α} {c p q : α} (h : IsRing next prev s (as ++ c :: bs))
    (hp : (s :: as).getLast? = some p) (hq : (bs ++ [s]).head? = some q) :
    Linked next prev p c ∧ Linked next prev c q := by
  obtain ⟨as', has⟩ := List.getLast?_eq_some_iff.mp hp
  obtain ⟨bs', hbs⟩ := List.head?_eq_some_iff.mp hq
  constructor
  · refine h.linked_of_append as' (bs ++ [s]) ?_
    rw [← List.cons_append, has]
    simp
  · refine h.linked_of_append (s :: as) bs' ?_
    simp only [List.cons_append, List.append_assoc, hbs]

/-- The last node of the ring points back to the sentinel. -/
theorem IsRing.last_linked {t : α} (h : IsRing next prev s xs)
    (ht : (s :: xs).getLast? = some t) : Linked next prev t s := by
  obtain ⟨ys, hys⟩ := List.getLast?_eq_some_iff.mp ht
  refine h.linked_of_append ys [] ?_
  rw [hys]
  simp

/-- Every node of the ring is linked to a successor in it. -/
theorem IsRing.linked_next {a : α} (h : IsRing next prev s xs) (ha : a ∈ s :: xs) :
    ∃ b ∈ s :: xs, Linked next prev a b := by
  obtain ⟨as, bs, hl⟩ := List.append_of_mem ha
  cases bs with
  | nil =>
    have hlast : (s :: xs).getLast? = some a := by rw [hl]; simp
    exact ⟨s, List.mem_cons_self, h.last_linked hlast⟩
  | cons b bs =>
    refine ⟨b, by rw [hl]; simp, h.linked_of_append as (bs ++ [s]) ?_⟩
    rw [hl]
    simp

theorem IsRing.next_mem {a : α} (h : IsRing next prev s xs) (ha : a ∈ s :: xs) :
    ∃ b ∈ s :: xs, next a = some b := by
  obtain ⟨b, hb, hab⟩ := h.linked_next ha
  exact ⟨b, hb, hab.1⟩

/-- Every node of the ring is linked to a predecessor in it. -/
theorem IsRing.linked_prev {b : α} (h : IsRing next prev s xs) (hb : b ∈ s :: xs) :
    ∃ a ∈ s :: xs, Linked next prev a b := by
  rcases List.mem_cons.mp hb with rfl | hb
  · obtain ⟨t, ht⟩ : ∃ t, (b :: xs).getLast? = some t :=
      ⟨_, List.getLast?_eq_some_getLast (by simp)⟩
    exact ⟨t, List.mem_of_getLast? ht, h.last_linked ht⟩
  · obtain ⟨as, bs, rfl⟩ := List.append_of_mem hb
    obtain ⟨p, hp⟩ : ∃ p, (s :: as).getLast? = some p :=
      ⟨_, List.getLast?_eq_some_getLast (by simp)⟩
    obtain ⟨q, hq⟩ : ∃ q, (bs ++ [s]).head? = some q := ⟨_, List.head?_eq_some_head (by simp)⟩
    have hmem : p ∈ s :: (as ++ b :: bs) :=
      List.mem_append_left (b :: bs) (List.mem_of_getLast? hp)
    exact ⟨p, hmem, (h.neighbours hp hq).1⟩

/-- On the ring `prev` is the inverse of `next`. -/
theorem IsRing.next_eq_iff {a b : α} (h : IsRing next prev s xs) (ha : a ∈ s :: xs)
    (hb : b ∈ s :: xs) : next a = some b ↔ prev b = some a := by
  constructor
  · intro hab
    obtain ⟨b', -, hlink⟩ := h.linked_next ha
    obtain rfl : b = b' := Option.some.inj (hab.symm.trans hlink.1)
    exact hlink.2
  · intro hba
    obtain ⟨a', -, hlink⟩ := h.linked_prev hb
    obtain rfl : a = a' := Option.some.inj (hba.symm.trans hlink.2)
    exact hlink.1

/-! ## Insertion and removal -/

/-- In a list without repetition the last element does not occur earlier. -/
theorem ne_of_mem_dropLast {l : List α} {a t : α} (hl : l.Nodup) (ht : l.getLast? = some t)
    (ha : a ∈ l.dropLast) : a ≠ t := by
  obtain ⟨ys, rfl⟩ := List.getLast?_eq_some_iff.mp ht
  rw [List.dropLast_concat] at ha
  rintro rfl
  exact (List.nodup_append.mp hl).2.2 a ha a (by simp) rfl

/-- Linking a new node between the last node and the sentinel. -/
theorem IsRing.append {n t : α} (h : IsRing next prev s xs) (hn : n ∉ s :: xs)
    (ht : (s :: xs).getLast? = some t) (htn : next' t = some n) (hns : next' n = some s)
    (hpn : prev' n = some t) (hps : prev' s = some n)
    (hnext : ∀ a ∈ s :: xs, a ≠ t → next' a = next a)
    (hprev : ∀ a ∈ xs, prev' a = prev a) : IsRing next' prev' s (xs ++ [n]) := by
  constructor
  · rw [← List.cons_append]
    exact List.nodup_append.mpr ⟨h.nodup, List.nodup_singleton n, fun a ha b hb hab => by
      rw [List.mem_singleton] at hb
      exact hn (hb ▸ hab ▸ ha)⟩
  · have hold : (s :: xs).IsChain (Linked next' prev') :=
      isChain_congr h.chain.left_of_append
        (fun a ha => hnext a (List.dropLast_subset _ ha) (ne_of_mem_dropLast h.nodup ht ha))
        (fun b hb => hprev b hb)
    have hnew : (s :: xs ++ [n, s]).IsChain (Linked next' prev') := by
      refine hold.append (List.isChain_pair.mpr ⟨hns, hps⟩) fun x hx y hy => ?_
      have hxt : x = t := by
        rw [ht] at hx
        exact (Option.mem_some_iff.mp hx).symm
      have hyn : n = y := by simpa using hy
      subst hxt hyn
      exact ⟨htn, hpn⟩
    simpa using hnew

/-- Unlinking a node. -/
theorem IsRing.remove {as bs : List α} {c p q : α} (h : IsRing next prev s (as ++ c :: bs))
    (hp : (s :: as).getLast? = some p) (hq : (bs ++ [s]).head? = some q)
    (hpq : next' p = some q) (hqp : prev' q = some p)
    (hnext : ∀ a ∈ s :: (as ++ bs), a ≠ p → next' a = next a)
    (hprev : ∀ a ∈ s :: (as ++ bs), a ≠ q → prev' a = prev a) :
    IsRing next' prev' s (as ++ bs) := by
  have hnd : (s :: as ++ bs).Nodup :=
    h.nodup.sublist (((List.sublist_cons_self c bs).append_left as).cons_cons s)
  have hc := h.chain
  rw [show s :: (as ++ c :: bs) ++ [s] = (s :: as) ++ ([c] ++ (bs ++ [s])) by simp] at hc
  have hleft : (s :: as).IsChain (Linked next' prev') := by
    refine isChain_congr hc.left_of_append (fun a ha => hnext a ?_ ?_) (fun b hb => hprev b ?_ ?_)
    · have := List.dropLast_subset _ ha
      simp only [List.mem_cons, List.mem_append] at this ⊢
      tauto
    · exact ne_of_mem_dropLast (hnd.sublist (List.sublist_append_left _ _)) hp ha
    · simp only [List.tail_cons] at hb
      simp [hb]
    · -- `q` is the first node after `as`, or the sentinel
      simp only [List.tail_cons] at hb
      rintro rfl
      cases bs with
      | nil =>
        have : s = b := by simpa using hq
        subst this
        exact (List.nodup_cons.mp hnd).1 (by simp [hb])
      | cons y bs =>
        have : y = b := by simpa using hq
        subst this
        exact (List.nodup_append.mp (List.nodup_cons.mp hnd).2).2.2 y hb y (by simp) rfl
  have hright : (bs ++ [s]).IsChain (Linked next' prev') := by
    refine isChain_congr hc.right_of_append.right_of_append (fun a ha => hnext a ?_ ?_)
      (fun b hb => hprev b ?_ ?_)
    · rw [List.dropLast_concat] at ha
      simp [ha]
    · rw [List.dropLast_concat] at ha
      rintro rfl
      have hmem : a ∈ s :: as := List.mem_of_getLast? hp
      exact (List.nodup_append.mp hnd).2.2 a hmem a ha rfl
    · have := List.mem_of_mem_tail hb
      simp only [List.mem_append, List.mem_cons] at this ⊢
      tauto
    · rintro rfl
      obtain ⟨ys, hys⟩ := List.head?_eq_some_iff.mp hq
      have hrot : (bs ++ [s]).Nodup := by
        have hsub : (bs ++ [s]).Perm (s :: bs) := by simp
        exact hsub.nodup_iff.mpr (hnd.sublist (by simp))
      rw [hys] at hrot hb
      exact (List.nodup_cons.mp hrot).1 hb
  constructor
  · exact hnd
  · rw [show s :: (as ++ bs) ++ [s] = (s :: as) ++ (bs ++ [s]) by simp]
    refine hleft.append hright fun x hx y hy => ?_
    rw [hp] at hx
    rw [hq] at hy
    rw [← Option.mem_some_iff.mp hx, ← Option.mem_some_iff.mp hy]
    exact ⟨hpq, hqp⟩

/-! ## Searching along `next` -/

/-- `while (!p(a)) a = a->next`, for at most `fuel` nodes. -/
def search (next : α → Option α) (p : α → Bool) : ℕ → α → Option α
  | 0, _ => none
  | fuel + 1, a => if p a then some a else (next a).bind (search next p fuel)

/-- On a path the search finds the first node with the property. -/
theorem search_eq_find {p : α → Bool} {z : α} :
    ∀ {l : List α} {a : α} {fuel : ℕ}, (a :: l).IsChain (fun x y => next x = some y) →
      (a :: l).find? p = some z → (a :: l).length ≤ fuel → search next p fuel a = some z
  | l, a, 0, _, _, hfuel => by simp at hfuel
  | [], a, fuel + 1, _, hfind, _ => by
    by_cases ha : p a
    · simpa [search, ha] using hfind
    · simp [ha] at hfind
  | b :: l, a, fuel + 1, hc, hfind, hfuel => by
    by_cases ha : p a
    · simpa [search, ha] using hfind
    · rw [List.isChain_cons_cons] at hc
      have hrec : search next p fuel b = some z :=
        search_eq_find hc.2 (by simpa [ha] using hfind) (by simpa using hfuel)
      simp [search, ha, hc.1, hrec]

/-- The path once around the ring from one of its nodes. -/
theorem IsRing.path {as bs : List α} {a : α} (h : IsRing next prev s xs)
    (hl : s :: xs = as ++ a :: bs) : (a :: bs ++ as).IsChain (fun x y => next x = some y) := by
  have hc : (s :: xs ++ [s]).IsChain (fun x y => next x = some y) :=
    h.chain.imp fun x y hxy => hxy.1
  rw [hl, List.append_assoc] at hc
  cases as with
  | nil => simpa using hc.right_of_append.left_of_append
  | cons b as =>
    have hb : s = b := by simpa using congrArg List.head? hl
    subst hb
    refine hc.right_of_append.left_of_append.append hc.left_of_append fun x hx y hy => ?_
    have hy : s = y := by simpa using hy
    subst hy
    exact (List.isChain_append.mp hc.right_of_append).2.2 x hx s (by simp)

/-- The path once around the ring from one of its gaps. -/
theorem IsRing.path_from_gap {as bs : List α} (h : IsRing next prev s (as ++ bs)) :
    (bs ++ s :: as).IsChain (fun x y => next x = some y) := by
  cases bs with
  | nil =>
    have hpath := h.path (show s :: (as ++ []) = [] ++ s :: (as ++ []) from rfl)
    simpa using hpath
  | cons b bs => exact h.path (show s :: (as ++ b :: bs) = (s :: as) ++ b :: bs from rfl)

/-- A ring is read from the gap between `xs` and `bs`, and the first node with the property is `d`.
Read from behind `d`, the others with the property come in the same order and `d` is the last. -/
theorem exists_turn {p : α → Bool} {xs bs ds : List α} {d : α}
    (h : (bs ++ xs).filter p = d :: ds) :
    ∃ as' bs', xs ++ bs = as' ++ d :: bs' ∧ (bs' ++ as' ++ [d]).filter p = ds ++ [d] := by
  have hd : p d = true := List.of_mem_filter (h ▸ List.mem_cons_self)
  rw [List.filter_append] at h
  rcases List.append_eq_cons_iff.mp h with ⟨hbs, hxs⟩ | ⟨ds', hbs, hds⟩
  · obtain ⟨l₁, l₂, rfl, hl₁, -, hl₂⟩ := List.filter_eq_cons_iff.mp hxs
    have hnone : l₁.filter p = [] := List.filter_eq_nil_iff.mpr hl₁
    refine ⟨l₁, l₂ ++ bs, by simp, ?_⟩
    simp [hnone, hbs, hl₂, hd]
  · obtain ⟨l₁, l₂, rfl, hl₁, -, hl₂⟩ := List.filter_eq_cons_iff.mp hbs
    have hnone : l₁.filter p = [] := List.filter_eq_nil_iff.mpr hl₁
    refine ⟨xs ++ l₁, l₂, by simp, ?_⟩
    simp [hnone, hl₂, hd, hds]

/-- A ring is read from the gap between `as` and `bs`, and `n` is the first node with the property.
Another node `z` with the property is nearer to `n` than it was to the gap. -/
theorem turn_closer {p : α → Bool} {as bs xs ys : List α} {n z : α}
    (hn : (bs ++ as).find? p = some n) (hz : p z = true) (hsplit : bs ++ as = xs ++ z :: ys) :
    n = z ∨ ∃ as' bs' xs' ys', as ++ bs = as' ++ n :: bs' ∧ bs' ++ as' = xs' ++ z :: ys' ∧
      xs'.length < xs.length := by
  obtain ⟨-, l₁, l₂, hl, hl₁⟩ := List.find?_eq_some_iff_append.mp hn
  -- the same gap, seen from behind `n`
  have hturn : ∃ as' bs', as ++ bs = as' ++ n :: bs' ∧ bs' ++ as' = l₂ ++ l₁ := by
    rcases List.append_eq_append_iff.mp hl with ⟨a₁, hl₁', has⟩ | ⟨b₂, hbs, hrest⟩
    · exact ⟨a₁, l₂ ++ bs, by simp [has], by simp [hl₁']⟩
    · cases b₂ with
      | nil =>
        rw [List.nil_append] at hrest
        rw [List.append_nil] at hbs
        exact ⟨[], l₂ ++ bs, by simp [← hrest], by simp [hbs]⟩
      | cons b b₂ =>
        rw [List.cons_append, List.cons.injEq] at hrest
        obtain ⟨rfl, rfl⟩ := hrest
        exact ⟨as ++ l₁, b₂, by simp [hbs], by simp⟩
  obtain ⟨as', bs', hsame, hpath⟩ := hturn
  rcases List.append_eq_append_iff.mp (hl.symm.trans hsplit) with ⟨m, hxs, hrest⟩ | ⟨m, hl₁', hrest⟩
  · cases m with
    | nil =>
      left
      rw [List.nil_append, List.cons.injEq] at hrest
      exact hrest.1
    | cons a m =>
      right
      rw [List.cons_append, List.cons.injEq] at hrest
      obtain ⟨rfl, rfl⟩ := hrest
      refine ⟨as', bs', m, ys ++ l₁, hsame, by simp [hpath], ?_⟩
      rw [hxs, List.length_append, List.length_cons]
      omega
  · cases m with
    | nil =>
      left
      rw [List.nil_append, List.cons.injEq] at hrest
      exact hrest.1.symm
    | cons a m =>
      -- `z` would have been found before `n`
      rw [List.cons_append, List.cons.injEq] at hrest
      obtain ⟨rfl, -⟩ := hrest
      have hzn := hl₁ z (by rw [hl₁']; simp)
      simp [hz] at hzn

/-- From any node of a ring in which some node has the property, the search ends at one. -/
theorem IsRing.search_mem {p : α → Bool} {a : α} {fuel : ℕ} (h : IsRing next prev s xs)
    (ha : a ∈ s :: xs) (hp : ∃ b ∈ s :: xs, p b) (hfuel : (s :: xs).length ≤ fuel) :
    ∃ z ∈ s :: xs, p z ∧ search next p fuel a = some z := by
  obtain ⟨as, bs, hl⟩ := List.append_of_mem ha
  have hmem : ∀ x, x ∈ a :: bs ++ as ↔ x ∈ s :: xs := by
    intro x
    rw [hl]
    simp only [List.mem_append, List.mem_cons]
    tauto
  obtain ⟨b, hb, hpb⟩ := hp
  obtain ⟨z, hz⟩ : ∃ z, (a :: bs ++ as).find? p = some z := by
    rw [← Option.isSome_iff_exists, List.find?_isSome]
    exact ⟨b, (hmem b).mpr hb, hpb⟩
  refine ⟨z, (hmem z).mp (List.mem_of_find?_eq_some hz), List.find?_some hz, ?_⟩
  have hpath : (a :: (bs ++ as)).IsChain (fun x y => next x = some y) := h.path hl
  refine search_eq_find hpath hz ?_
  have hlen : (s :: xs).length = (a :: (bs ++ as)).length := by
    rw [hl]
    simp only [List.length_append, List.length_cons]
    omega
  omega

/-- What the search finds is a node of the ring and has the property. -/
theorem IsRing.search_spec {p : α → Bool} {z : α} (h : IsRing next prev s xs) :
    ∀ {fuel : ℕ} {a : α}, a ∈ s :: xs → search next p fuel a = some z → z ∈ s :: xs ∧ p z = true
  | 0, a, _, hsearch => by cases hsearch
  | fuel + 1, a, ha, hsearch => by
    by_cases hp : p a
    · simp only [search, hp, if_true] at hsearch
      cases hsearch
      exact ⟨ha, hp⟩
    · obtain ⟨b, hb, hnext⟩ := h.next_mem ha
      simp only [search, hp, hnext, Option.bind_some] at hsearch
      exact h.search_spec hb hsearch

/-- A search does not pass over `z` if `z` has the property: it stops there, or at a node from
which the way to `z` is shorter. -/
theorem search_closer [DecidableEq α] {p : α → Bool} {b z : α} (hz : p z = true) :
    ∀ {fuel d : ℕ} {a : α}, search next p fuel a = some b →
      search next (fun x => x = z) d a = some z →
      b = z ∨ ∃ d' < d, ∃ a', next b = some a' ∧ search next (fun x => x = z) d' a' = some z
  | 0, _, _, hb, _ => by cases hb
  | _ + 1, 0, _, _, hd => by cases hd
  | fuel + 1, d + 1, a, hb, hd => by
    by_cases haz : a = z
    · subst haz
      left
      simpa [search, hz] using hb.symm
    · simp only [search, haz, decide_false, Bool.false_eq_true, if_false] at hd
      obtain ⟨a', hnext, hd⟩ := Option.bind_eq_some_iff.mp hd
      by_cases hp : p a
      · simp only [search, hp, if_true, Option.some.injEq] at hb
        subst hb
        exact .inr ⟨d, by omega, a', hnext, hd⟩
      · simp only [search, hp, hnext, Option.bind_some] at hb
        rcases search_closer hz hb hd with he | ⟨d', hlt, hrest⟩
        · exact .inl he
        · exact .inr ⟨d', by omega, hrest⟩

end Ring
