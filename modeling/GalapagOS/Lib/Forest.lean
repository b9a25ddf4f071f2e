import GalapagOS.Lib.Ring

/-!
# Forests of chains

A heap of nodes with partial `child` and `parent` links in which every node has at most one
child. `IsForest child parent live root chains` says that the live nodes are partitioned into
one chain for each root, that the two links are inverse along a chain, and that they end where
the chain ends.

A new leaf is linked with `IsForest.grow`, a leaf is taken off with `IsForest.shrink`.
-/

namespace Forest

open Ring

variable {α ι : Type*} {child parent child' parent' : α → Option α} {live live' : α → Prop}
  {root : ι → α} {chains : ι → List α}

/-- The live nodes form the given chains, each from its root on. -/
structure IsForest (child parent : α → Option α) (live : α → Prop) (root : ι → α)
    (chains : ι → List α) : Prop where
  head : ∀ i, (chains i).head? = some (root i)
  linked : ∀ i, (chains i).IsChain (Linked child parent)
  parent_root : ∀ i, parent (root i) = none
  child_leaf : ∀ i a, (chains i).getLast? = some a → child a = none
  live_iff : ∀ a, live a ↔ ∃ i, a ∈ chains i
  nodup : ∀ i, (chains i).Nodup
  disjoint : ∀ i j a, a ∈ chains i → a ∈ chains j → i = j

namespace IsForest

theorem live_of_mem (h : IsForest child parent live root chains) {i : ι} {a : α}
    (ha : a ∈ chains i) : live a :=
  (h.live_iff a).mpr ⟨i, ha⟩

theorem root_mem (h : IsForest child parent live root chains) (i : ι) : root i ∈ chains i :=
  List.mem_of_head? (h.head i)

theorem exists_leaf (h : IsForest child parent live root chains) (i : ι) :
    ∃ a, (chains i).getLast? = some a := by
  have hne : chains i ≠ [] := List.ne_nil_of_mem (h.root_mem i)
  exact ⟨_, List.getLast?_eq_some_getLast hne⟩

/-- The forest depends on the links of live nodes only. -/
theorem congr (h : IsForest child parent live root chains)
    (hchild : ∀ a, live a → child' a = child a) (hparent : ∀ a, live a → parent' a = parent a)
    (hlive : ∀ a, live' a ↔ live a) : IsForest child' parent' live' root chains where
  head := h.head
  linked i := isChain_congr (h.linked i)
    (fun a ha => hchild a (h.live_of_mem (List.dropLast_subset _ ha)))
    (fun a ha => hparent a (h.live_of_mem (List.mem_of_mem_tail ha)))
  parent_root i := (hparent _ (h.live_of_mem (h.root_mem i))).trans (h.parent_root i)
  child_leaf i a ha :=
    (hchild a (h.live_of_mem (List.mem_of_getLast? ha))).trans (h.child_leaf i a ha)
  live_iff a := (hlive a).trans (h.live_iff a)
  nodup := h.nodup
  disjoint := h.disjoint

/-- The parent of a node stands right before it. -/
theorem parent_split (h : IsForest child parent live root chains) {i : ι} {l r : List α} {a b : α}
    (hi : chains i = l ++ a :: r) (hb : parent a = some b) : ∃ l', l = l' ++ [b] := by
  rcases List.eq_nil_or_concat' l with rfl | ⟨l', c, rfl⟩
  · have hroot : a = root i := by
      have hhead := h.head i
      rw [hi] at hhead
      exact Option.some.inj hhead
    rw [hroot, h.parent_root i] at hb
    cases hb
  · have hlinked := h.linked i
    rw [hi, List.append_assoc, List.singleton_append, List.isChain_append_cons_cons] at hlinked
    exact ⟨l', by rw [Option.some.inj (hb.symm.trans hlinked.2.1.2)]⟩

/-- A leaf with a parent is not a root: its chain ends in the two. -/
theorem parent_eq (h : IsForest child parent live root chains) {i : ι} {a b : α}
    (ha : (chains i).getLast? = some a) (hb : parent a = some b) :
    ∃ l, chains i = l ++ [b, a] := by
  obtain ⟨l, hl⟩ := List.getLast?_eq_some_iff.mp ha
  obtain ⟨l', rfl⟩ := h.parent_split hl hb
  exact ⟨l', by rw [hl, List.append_assoc, List.singleton_append]⟩

/-- The parent of a node is on the same chain. -/
theorem parent_mem (h : IsForest child parent live root chains) {i : ι} {a b : α}
    (ha : a ∈ chains i) (hb : parent a = some b) : b ∈ chains i := by
  obtain ⟨l, r, hl⟩ := List.append_of_mem ha
  obtain ⟨l', rfl⟩ := h.parent_split hl hb
  rw [hl]
  simp

theorem ne_of_split (h : IsForest child parent live root chains) {i : ι} {l : List α} {b c : α}
    (hi : chains i = l ++ [b, c]) : b ≠ c := by
  have hnd := h.nodup i
  rw [hi] at hnd
  have hpair := (List.nodup_append.mp hnd).2.1
  simpa using hpair

/-- Every node of a chain but the last is not a leaf of any chain. -/
theorem leaf_iff (h : IsForest child parent live root chains) {i j : ι} {a : α}
    (ha : a ∈ chains i) (hj : (chains j).getLast? = some a) : (chains i).getLast? = some a := by
  rwa [h.disjoint i j a ha (List.mem_of_getLast? hj)]

theorem notMem_init (h : IsForest child parent live root chains) {i : ι} {l : List α} {c : α}
    (hi : chains i = l ++ [c]) : c ∉ l := by
  have hnd := h.nodup i
  rw [hi] at hnd
  intro hmem
  exact (List.nodup_append.mp hnd).2.2 c hmem c (by simp) rfl

/-- A leaf that is not alone on its chain is no root. -/
theorem root_ne (h : IsForest child parent live root chains) {i : ι} {l : List α} {c : α}
    (hi : chains i = l ++ [c]) (hl : l ≠ []) (j : ι) : root j ≠ c := by
  intro he
  obtain rfl := h.disjoint j i c (he ▸ h.root_mem j) (by simp [hi])
  have hhead := h.head j
  rw [hi, List.head?_append_of_ne_nil _ hl] at hhead
  exact h.notMem_init hi (he ▸ List.mem_of_head? hhead)

section Update

variable [DecidableEq ι]

theorem mem_update_concat {i j : ι} {a n : α} :
    a ∈ Function.update chains i (chains i ++ [n]) j ↔ a ∈ chains j ∨ a = n ∧ j = i := by
  rw [Function.update_apply]
  split
  · rename_i hj
    subst hj
    simp
  · rename_i hj
    simp [hj]

/-- A new node `n` becomes the child of the leaf `c`. -/
theorem grow (h : IsForest child parent live root chains) {i : ι} {c n : α}
    (hc : (chains i).getLast? = some c) (hn : ¬live n) (hcn : child' c = some n)
    (hnc : parent' n = some c) (hleaf : child' n = none)
    (hchild : ∀ a, live a → a ≠ c → child' a = child a)
    (hparent : ∀ a, live a → parent' a = parent a) (hlive : ∀ a, live' a ↔ live a ∨ a = n) :
    IsForest child' parent' live' root (Function.update chains i (chains i ++ [n])) where
  head j := by
    rw [Function.update_apply]
    split
    · rename_i hj
      rw [hj, List.head?_append, h.head i]
      rfl
    · exact h.head j
  linked j := by
    have hold : ∀ j, (chains j).IsChain (Linked child' parent') := by
      intro j
      refine isChain_congr (h.linked j) (fun a ha => ?_) (fun a ha => ?_)
      · have hmem := List.dropLast_subset _ ha
        refine hchild a (h.live_of_mem hmem) ?_
        rintro rfl
        exact ne_of_mem_dropLast (h.nodup j) (h.leaf_iff hmem hc) ha rfl
      · exact hparent a (h.live_of_mem (List.mem_of_mem_tail ha))
    rw [Function.update_apply]
    split
    · refine (hold i).append (.singleton n) fun x hx y hy => ?_
      rw [hc] at hx
      have hyn : n = y := by simpa using hy
      rw [← Option.mem_some_iff.mp hx, ← hyn]
      exact ⟨hcn, hnc⟩
    · exact hold j
  parent_root j := (hparent _ (h.live_of_mem (h.root_mem j))).trans (h.parent_root j)
  child_leaf j a ha := by
    rw [Function.update_apply] at ha
    split at ha
    · rw [List.getLast?_concat] at ha
      rw [← Option.some.inj ha, hleaf]
    · rename_i hj
      have hmem := List.mem_of_getLast? ha
      rw [hchild a (h.live_of_mem hmem), h.child_leaf j a ha]
      rintro rfl
      exact hj (h.disjoint j i a hmem (List.mem_of_getLast? hc))
  live_iff a := by
    rw [hlive, h.live_iff]
    simp only [mem_update_concat, exists_or, exists_eq_right]
  nodup j := by
    rw [Function.update_apply]
    split
    · refine (h.nodup i).append (List.nodup_singleton n) fun a ha hb => hn ?_
      rw [← List.mem_singleton.mp hb]
      exact h.live_of_mem ha
    · exact h.nodup j
  disjoint j j' a hj hj' := by
    -- the new node is in chain `i` only, every other one is where it was
    rcases mem_update_concat.mp hj with hj | ⟨ha, hj⟩ <;>
      rcases mem_update_concat.mp hj' with hj' | ⟨ha', hj'⟩
    · exact h.disjoint j j' a hj hj'
    · exact absurd (h.live_of_mem (ha' ▸ hj)) hn
    · exact absurd (h.live_of_mem (ha ▸ hj')) hn
    · rw [hj, hj']

/-- The chains without the leaf `c`. -/
theorem mem_update_init (h : IsForest child parent live root chains) {i j : ι} {l : List α}
    {a c : α} (hi : chains i = l ++ [c]) :
    a ∈ Function.update chains i l j ↔ a ∈ chains j ∧ a ≠ c := by
  have hc : c ∈ chains i := by simp [hi]
  rw [Function.update_apply]
  split
  · rename_i hj
    rw [hj, hi]
    constructor
    · intro ha
      exact ⟨List.mem_append_left _ ha, fun he => h.notMem_init hi (he ▸ ha)⟩
    · rintro ⟨ha, hne⟩
      exact (List.mem_append.mp ha).resolve_right fun he => hne (by simpa using he)
  · rename_i hj
    exact ⟨fun ha => ⟨ha, fun he => hj (h.disjoint j i c (he ▸ ha) hc)⟩, And.left⟩

/-- The leaf `c` is taken off its parent `b`. -/
theorem shrink (h : IsForest child parent live root chains) {i : ι} {l : List α} {b c : α}
    (hi : chains i = l ++ [b, c]) (hb : child' b = none)
    (hchild : ∀ a, live a → a ≠ b → child' a = child a)
    (hparent : ∀ a, live a → a ≠ c → parent' a = parent a)
    (hlive : ∀ a, live' a ↔ live a ∧ a ≠ c) :
    IsForest child' parent' live' root (Function.update chains i (l ++ [b])) := by
  have hsplit : chains i = (l ++ [b]) ++ [c] := by rw [hi]; simp
  have hinit : l ++ [b] ≠ [] := by simp
  have hbmem : b ∈ chains i := by rw [hi]; simp
  have hnd : ∀ j, (Function.update chains i (l ++ [b]) j).Nodup := by
    intro j
    rw [Function.update_apply]
    split
    · have hnd := h.nodup i
      rw [hsplit] at hnd
      exact (List.nodup_append.mp hnd).1
    · exact h.nodup j
  constructor
  case head =>
    intro j
    rw [Function.update_apply]
    split
    · rename_i hj
      have hhead := h.head i
      rw [hsplit, List.head?_append_of_ne_nil _ hinit] at hhead
      rw [hj, hhead]
    · exact h.head j
  case linked =>
    intro j
    have hold : (Function.update chains i (l ++ [b]) j).IsChain (Linked child parent) := by
      rw [Function.update_apply]
      split
      · have hlinked := h.linked i
        rw [hsplit] at hlinked
        exact hlinked.left_of_append
      · exact h.linked j
    refine isChain_congr hold (fun a ha => ?_) (fun a ha => ?_)
    · obtain ⟨hmem, -⟩ := (h.mem_update_init hsplit).mp (List.dropLast_subset _ ha)
      refine hchild a (h.live_of_mem hmem) ?_
      rintro rfl
      obtain rfl := h.disjoint j i a hmem hbmem
      refine ne_of_mem_dropLast (hnd j) ?_ ha rfl
      rw [Function.update_self, List.getLast?_concat]
    · obtain ⟨hmem, hne⟩ := (h.mem_update_init hsplit).mp (List.mem_of_mem_tail ha)
      exact hparent a (h.live_of_mem hmem) hne
  case parent_root =>
    intro j
    rw [hparent _ (h.live_of_mem (h.root_mem j)) (h.root_ne hsplit hinit j), h.parent_root j]
  case child_leaf =>
    intro j a ha
    rw [Function.update_apply] at ha
    split at ha
    · rw [List.getLast?_concat] at ha
      rw [← Option.some.inj ha, hb]
    · rename_i hj
      have hmem := List.mem_of_getLast? ha
      rw [hchild a (h.live_of_mem hmem), h.child_leaf j a ha]
      rintro rfl
      exact hj (h.disjoint j i a hmem hbmem)
  case live_iff =>
    intro a
    rw [hlive, h.live_iff]
    simp only [h.mem_update_init hsplit, exists_and_right]
  case nodup => exact hnd
  case disjoint =>
    intro j j' a hj hj'
    exact h.disjoint j j' a ((h.mem_update_init hsplit).mp hj).1 ((h.mem_update_init hsplit).mp hj').1

end Update

end IsForest
end Forest
