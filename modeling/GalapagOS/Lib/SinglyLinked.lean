import Mathlib.Data.List.Nodup
import Mathlib.Data.Nat.Notation
import Mathlib.Logic.Function.Basic

/-!
# Lists linked by one pointer

`next` gives the pointer stored in a node; `none` is the null pointer. `Visits next p l` says that
following the pointers from `p` visits the nodes of `l` and ends. A node put in front and a node
cut out keep such a list, if no node occurs twice. The loops that search a list, run through it,
and look for the cell that points to a node all end, and give what the list says.
-/

namespace SinglyLinked

open Function

variable {P σ : Type*} {next next' : P → Option P} {p head : Option P} {l l₁ l₂ : List P} {a e : P}

/-- Following `next` from `p` visits the nodes of the list, in this order, and then ends. -/
def Visits (next : P → Option P) : Option P → List P → Prop
  | p, [] => p = none
  | p, a :: l => p = some a ∧ Visits next (next a) l

theorem Visits.congr (h : Visits next p l) (hnext : ∀ a ∈ l, next' a = next a) : Visits next' p l := by
  induction l generalizing p with
  | nil => exact h
  | cons a l ih =>
    refine ⟨h.1, ?_⟩
    rw [hnext a List.mem_cons_self]
    exact ih h.2 fun b hb => hnext b (List.mem_cons_of_mem a hb)

/-- A node that points to itself is in no list. -/
theorem not_visits_of_self (h : next a = some a) : ¬ Visits next (some a) l := by
  induction l with
  | nil => exact fun hnone => Option.some_ne_none a hnone
  | cons b l ih =>
    rintro ⟨hb, hrest⟩
    obtain rfl := Option.some.inj hb
    rw [h] at hrest
    exact ih hrest

section

variable [DecidableEq P]

/-- A pointer of a node outside the list. -/
theorem Visits.store (h : Visits next p l) (ha : a ∉ l) (q : Option P) :
    Visits (update next a q) p l := by
  refine h.congr fun b hb => update_of_ne ?_ _ _
  rintro rfl
  exact ha hb

/-- A new node in front. -/
theorem Visits.push (h : Visits next p l) (ha : a ∉ l) :
    Visits (update next a p) (some a) (a :: l) := by
  refine ⟨rfl, ?_⟩
  rw [update_self]
  exact h.store ha p

/-! ## Cells -/

/-- The pointer in a cell: `none` stands for the head, a node for its `next`. -/
def readCell (next : P → Option P) (head : Option P) : Option P → Option P
  | none => head
  | some b => next b

/-- The head and the pointers after a store to a cell. -/
def writeCell (next : P → Option P) (head : Option P) (q : Option P) :
    Option P → Option P × (P → Option P)
  | none => (q, next)
  | some b => (head, update next b q)

/-- A node is cut out by a store to the cell that points to it. -/
theorem Visits.splice (h : Visits next head (l₁ ++ e :: l₂)) (hl : (l₁ ++ e :: l₂).Nodup) :
    let w := writeCell next head (next e) l₁.getLast?
    Visits w.2 w.1 (l₁ ++ l₂) := by
  induction l₁ generalizing head with
  | nil => exact h.2
  | cons a l₁ ih =>
    rw [List.cons_append, List.nodup_cons] at hl
    obtain ⟨rfl, hrest⟩ := h
    cases hlast : l₁.getLast? with
    | none =>
      -- `a` comes right before `e`
      obtain rfl := List.getLast?_eq_none_iff.mp hlast
      have ha : a ∉ l₂ := fun hmem => hl.1 (List.mem_cons_of_mem e hmem)
      refine ⟨rfl, ?_⟩
      show Visits (update next a (next e)) (update next a (next e) a) l₂
      rw [update_self]
      exact hrest.2.store ha (next e)
    | some b =>
      have hb : b ∈ l₁ := List.mem_of_getLast? hlast
      have hab : a ≠ b := fun he => hl.1 (List.mem_append_left _ (he ▸ hb))
      have htail := ih hrest hl.2
      rw [hlast] at htail
      rw [List.getLast?_cons, hlast]
      refine ⟨rfl, ?_⟩
      show Visits _ (update next b (next e) a) _
      rw [update_of_ne hab]
      exact htail

/-- `while (*cell != e) cell = &(*cell)->next;` -/
def findCell (next : P → Option P) (head : Option P) (e : P) : ℕ → Option P → Option (Option P)
  | 0, _ => none
  | fuel + 1, c =>
    match readCell next head c with
    | none => none
    | some b => if b = e then some c else findCell next head e fuel (some b)

/-- The cell that points to a node of the list is that of the node before it. -/
theorem findCell_eq {fuel : ℕ} {c : Option P} (h : Visits next (readCell next head c) (l₁ ++ e :: l₂))
    (he : e ∉ l₁) (hfuel : l₁.length < fuel) :
    findCell next head e fuel c = some (l₁.getLast?.or c) := by
  induction l₁ generalizing c fuel with
  | nil =>
    obtain ⟨fuel, rfl⟩ : ∃ n, fuel = n + 1 := ⟨fuel - 1, by simp at hfuel; omega⟩
    rw [findCell, h.1]
    exact if_pos rfl
  | cons a l₁ ih =>
    rw [List.length_cons] at hfuel
    obtain ⟨fuel, rfl⟩ : ∃ n, fuel = n + 1 := ⟨fuel - 1, by omega⟩
    have hae : a ≠ e := fun hae => he (hae ▸ List.mem_cons_self)
    rw [findCell, h.1]
    show (if a = e then some c else findCell next head e fuel (some a)) = _
    rw [if_neg hae, ih (c := some a) h.2 (fun hmem => he (List.mem_cons_of_mem a hmem)) (by omega),
      List.getLast?_cons]
    cases l₁.getLast? <;> rfl

end

/-! ## Loops -/

/-- `while (p != NULL && !test(p)) p = p->next;` -/
def search (next : P → Option P) (test : P → Bool) : ℕ → Option P → Option (Option P)
  | 0, _ => none
  | _ + 1, none => some none
  | fuel + 1, some a => if test a then some (some a) else search next test fuel (next a)

theorem search_eq {test : P → Bool} {fuel : ℕ} (h : Visits next p l) (hfuel : l.length < fuel) :
    search next test fuel p = some (l.find? test) := by
  induction l generalizing p fuel with
  | nil =>
    obtain ⟨fuel, rfl⟩ : ∃ n, fuel = n + 1 := ⟨fuel - 1, by simp at hfuel; omega⟩
    obtain rfl : p = none := h
    rfl
  | cons a l ih =>
    rw [List.length_cons] at hfuel
    obtain ⟨fuel, rfl⟩ : ∃ n, fuel = n + 1 := ⟨fuel - 1, by omega⟩
    obtain ⟨rfl, hrest⟩ := h
    rw [search, List.find?_cons]
    cases test a with
    | true => rfl
    | false => exact ih hrest (by omega)

/-- `for (; p != NULL; p = p->next) body(p);`, where the pointers are part of the state. -/
def walk (next : σ → P → Option P) (body : σ → P → σ) : ℕ → Option P → σ → Option σ
  | 0, _, _ => none
  | _ + 1, none, s => some s
  | fuel + 1, some a, s => walk next body fuel (next (body s a) a) (body s a)

theorem walk_eq {next : σ → P → Option P} {body : σ → P → σ} {fuel : ℕ} {s : σ}
    (hbody : ∀ s a, next (body s a) = next s) (h : Visits (next s) p l) (hfuel : l.length < fuel) :
    walk next body fuel p s = some (l.foldl body s) := by
  induction l generalizing p fuel s with
  | nil =>
    obtain ⟨fuel, rfl⟩ : ∃ n, fuel = n + 1 := ⟨fuel - 1, by simp at hfuel; omega⟩
    obtain rfl : p = none := h
    rfl
  | cons a l ih =>
    rw [List.length_cons] at hfuel
    obtain ⟨fuel, rfl⟩ : ∃ n, fuel = n + 1 := ⟨fuel - 1, by omega⟩
    obtain ⟨rfl, hrest⟩ := h
    rw [walk, hbody, List.foldl_cons]
    exact ih (by rw [hbody]; exact hrest) (by omega)

/-- A run through the list does not leave a node that points to itself. -/
theorem walk_eq_none {next : σ → P → Option P} {body : σ → P → σ}
    (hbody : ∀ s a, next (body s a) = next s) (fuel : ℕ) :
    ∀ {s : σ}, next s a = some a → walk next body fuel (some a) s = none := by
  induction fuel with
  | zero => exact fun _ => rfl
  | succ fuel ih =>
    intro s h
    rw [walk, hbody, h]
    exact ih (by rw [hbody, h])

end SinglyLinked
