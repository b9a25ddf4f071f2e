import Mathlib.Data.Set.Function

/-!
# Stores through an address translation

Memories are functions from addresses to values. A program is a list of elementary accesses
`Op` at virtual addresses; `exec` runs it on a physical memory through a translation `τ` that
may fault, `apply` runs it on a private memory of its own.

The main rule is `execAll_view`: on a set of addresses that the translation maps injectively,
a program acts on the physical memory exactly as it acts on a private copy, and it changes
nothing outside the image of the set. `move_move` lets successive moves be merged into one,
also when source and destination overlap downwards.
-/

namespace Memory

open Function

variable {β γ : Type*}

/-! ## Elementary accesses -/

/-- One access: store consecutive values, update one value in place, or move `len` values, all
of them read before the first is written. -/
inductive Op (β : Type*) where
  | write (dst : ℕ) (bs : List β)
  | modify (dst : ℕ) (f : β → β)
  | move (dst src len : ℕ)

/-- The addresses an access touches. -/
def Op.Within (S : Set ℕ) : Op β → Prop
  | .write dst bs => ∀ j < bs.length, dst + j ∈ S
  | .modify dst _ => dst ∈ S
  | .move dst src len => ∀ j < len, dst + j ∈ S ∧ src + j ∈ S

theorem Op.within_mono {S S' : Set ℕ} (hS : S ⊆ S') {op : Op β} (h : op.Within S) :
    op.Within S' := by
  cases op with
  | write dst bs => exact fun j hj => hS (h j hj)
  | modify dst f => exact hS h
  | move dst src len => exact fun j hj => ⟨hS (h j hj).1, hS (h j hj).2⟩

/-! ## On a private memory -/

/-- Overwrites the values from `dst` on. -/
def place (dst : ℕ) : List β → (ℕ → β) → ℕ → β
  | [], m => m
  | b :: bs, m => place (dst + 1) bs (update m dst b)

/-- `len` consecutive values. -/
def slice (m : ℕ → β) (src len : ℕ) : List β :=
  (List.range len).map fun j => m (src + j)

/-- The effect of an access on a private memory. -/
def Op.apply : Op β → (ℕ → β) → ℕ → β
  | .write dst bs, m => place dst bs m
  | .modify dst f, m => update m dst (f (m dst))
  | .move dst src len, m => place dst (slice m src len) m

/-- A program on a private memory. -/
def applyAll (ops : List (Op β)) (m : ℕ → β) : ℕ → β :=
  ops.foldl (fun m op => op.apply m) m

theorem place_of_lt {dst a : ℕ} (h : a < dst) (bs : List β) (m : ℕ → β) :
    place dst bs m a = m a := by
  induction bs generalizing dst m with
  | nil => rfl
  | cons b bs ih =>
    rw [place, ih (Nat.lt_succ_of_lt h), update_of_ne (Nat.ne_of_lt h)]

theorem place_of_le {dst a : ℕ} (bs : List β) (h : dst + bs.length ≤ a) (m : ℕ → β) :
    place dst bs m a = m a := by
  induction bs generalizing dst m with
  | nil => rfl
  | cons b bs ih =>
    rw [List.length_cons] at h
    rw [place, ih (by omega), update_of_ne (by omega)]

theorem place_add {dst j : ℕ} {bs : List β} (h : j < bs.length) (m : ℕ → β) :
    place dst bs m (dst + j) = bs[j] := by
  induction bs generalizing dst j m with
  | nil => simp at h
  | cons b bs ih =>
    cases j with
    | zero =>
      change place (dst + 1) bs (update m dst b) dst = b
      rw [place_of_lt (Nat.lt_add_one dst), update_self]
    | succ j =>
      rw [place, show dst + (j + 1) = dst + 1 + j by omega, ih (by simpa using h)]
      rfl

@[simp] theorem length_slice (m : ℕ → β) (src len : ℕ) : (slice m src len).length = len := by
  simp [slice]

/-- A move, address by address. -/
theorem apply_move (dst src len : ℕ) (m : ℕ → β) (a : ℕ) :
    (Op.move dst src len).apply m a
      = if dst ≤ a ∧ a < dst + len then m (src + (a - dst)) else m a := by
  rw [Op.apply]
  by_cases hlo : a < dst
  · rw [place_of_lt hlo, if_neg (by omega)]
  by_cases hhi : dst + len ≤ a
  · rw [place_of_le _ (by simpa using hhi), if_neg (by omega)]
  · obtain ⟨j, rfl⟩ : ∃ j, a = dst + j := ⟨a - dst, by omega⟩
    rw [place_add (by rw [length_slice]; omega), if_pos (by omega)]
    simp [slice]

/-- Two successive moves are one, when the destination does not run ahead into the source. -/
theorem move_move {dst src n k : ℕ} (h : dst ≤ src ∨ src + (n + k) ≤ dst) (m : ℕ → β) :
    (Op.move (dst + n) (src + n) k).apply ((Op.move dst src n).apply m)
      = (Op.move dst src (n + k)).apply m := by
  funext a
  simp only [apply_move]
  by_cases h₂ : dst + n ≤ a ∧ a < dst + n + k
  · -- the second move reads above what the first one wrote
    rw [if_pos h₂, if_neg (by omega), if_pos (by omega)]
    congr 1
    omega
  · rw [if_neg h₂]
    by_cases h₁ : dst ≤ a ∧ a < dst + n
    · rw [if_pos h₁, if_pos (by omega)]
    · rw [if_neg h₁, if_neg (by omega)]

/-- `k` successive moves of `w` values. -/
def moves (w dst src : ℕ) : ℕ → List (Op β)
  | 0 => []
  | k + 1 => .move dst src w :: moves w (dst + w) (src + w) k

theorem applyAll_append (ops ops' : List (Op β)) (m : ℕ → β) :
    applyAll (ops ++ ops') m = applyAll ops' (applyAll ops m) :=
  List.foldl_append

theorem move_zero (dst src : ℕ) (m : ℕ → β) : (Op.move dst src 0).apply m = m := rfl

theorem applyAll_moves {w : ℕ} (m : ℕ → β) :
    ∀ {k dst src n : ℕ}, dst ≤ src ∨ src + (n + k * w) ≤ dst →
      applyAll (moves w (dst + n) (src + n) k) ((Op.move dst src n).apply m)
        = (Op.move dst src (n + k * w)).apply m
  | 0, dst, src, n, _ => by simp [moves, applyAll]
  | k + 1, dst, src, n, h => by
    rw [Nat.succ_mul] at h
    have hstep : (Op.move (dst + n) (src + n) w).apply ((Op.move dst src n).apply m)
        = (Op.move dst src (n + w)).apply m := move_move (by omega) m
    have hrec : applyAll (moves w (dst + (n + w)) (src + (n + w)) k)
        ((Op.move dst src (n + w)).apply m) = (Op.move dst src (n + w + k * w)).apply m :=
      applyAll_moves m (by omega)
    rw [moves, applyAll, List.foldl_cons, hstep]
    rw [show n + (k + 1) * w = n + w + k * w by rw [Nat.succ_mul]; omega, ← hrec]
    simp only [applyAll, Nat.add_assoc]

/-- An access changes nothing outside the addresses it touches. -/
theorem Op.apply_of_notMem {S : Set ℕ} {op : Op β} (h : op.Within S) (m : ℕ → β) {a : ℕ}
    (ha : a ∉ S) : op.apply m a = m a := by
  have hplace : ∀ {bs : List β} {dst : ℕ} {m : ℕ → β}, (∀ j < bs.length, dst + j ∈ S) →
      place dst bs m a = m a := by
    intro bs dst m hmem
    by_cases hlo : a < dst
    · exact place_of_lt hlo bs m
    · refine place_of_le bs (not_lt.mp fun hhi => ha ?_) m
      have hj := hmem (a - dst) (by omega)
      rwa [Nat.add_sub_of_le (not_lt.mp hlo)] at hj
  cases op with
  | write dst bs => exact hplace h
  | modify dst f => exact update_of_ne (fun he : a = dst => ha (he ▸ h)) _ _
  | move dst src len => exact hplace fun j hj => (h j (by simpa using hj)).1

theorem applyAll_of_notMem {S : Set ℕ} {ops : List (Op β)} (h : ∀ op ∈ ops, op.Within S)
    (m : ℕ → β) {a : ℕ} (ha : a ∉ S) : applyAll ops m a = m a := by
  induction ops generalizing m with
  | nil => rfl
  | cons op ops ih =>
    have hrest := ih (fun op' hop' => h op' (List.mem_cons_of_mem _ hop')) (op.apply m)
    exact hrest.trans (op.apply_of_notMem (h op List.mem_cons_self) m ha)

/-! ## Through a translation -/

section Translation

variable [DecidableEq γ] (τ : ℕ → Option γ)

/-- Reads consecutive virtual addresses; `none` is a fault. -/
def readBytes (m : γ → β) : ℕ → ℕ → Option (List β)
  | _, 0 => some []
  | src, n + 1 => (τ src).bind fun a => (readBytes m (src + 1) n).map (m a :: ·)

/-- Writes consecutive virtual addresses, one after the other. -/
def writeBytes : ℕ → List β → (γ → β) → Option (γ → β)
  | _, [], m => some m
  | dst, b :: bs, m => (τ dst).bind fun a => writeBytes (dst + 1) bs (update m a b)

/-- An access at virtual addresses, on the physical memory. -/
def Op.exec : Op β → (γ → β) → Option (γ → β)
  | .write dst bs, m => writeBytes τ dst bs m
  | .modify dst f, m => (τ dst).map fun a => update m a (f (m a))
  | .move dst src len, m => (readBytes τ m src len).bind fun bs => writeBytes τ dst bs m

/-- A program at virtual addresses, on the physical memory. -/
def execAll (ops : List (Op β)) (m : γ → β) : Option (γ → β) :=
  ops.foldlM (fun m op => op.exec τ m) m

end Translation

/-- A write that does not fault stores at the translations of its addresses only. -/
theorem writeBytes_eq_some [DecidableEq γ] {τ : ℕ → Option γ} :
    ∀ {bs : List β} {dst : ℕ} {m m' : γ → β}, writeBytes τ dst bs m = some m' →
      (∀ j < bs.length, (τ (dst + j)).isSome) ∧
      ∀ c, (∀ j < bs.length, τ (dst + j) ≠ some c) → m' c = m c
  | [], dst, m, m', h => by
    cases h
    simp
  | b :: bs, dst, m, m', h => by
    obtain ⟨a, ha, hrest⟩ := Option.bind_eq_some_iff.mp h
    obtain ⟨hsome, hframe⟩ := writeBytes_eq_some hrest
    refine ⟨fun j hj => ?_, fun c hc => ?_⟩
    · cases j with
      | zero => exact Option.isSome_of_eq_some ha
      | succ j =>
        rw [show dst + (j + 1) = dst + 1 + j by omega]
        exact hsome j (by simpa using hj)
    · have hrec := hframe c fun j hj => by
        rw [show dst + 1 + j = dst + (j + 1) by omega]
        exact hc (j + 1) (by simpa using hj)
      rw [hrec]
      refine update_of_ne ?_ b m
      rintro rfl
      exact hc 0 (by simp) ha

/-- Through `t`, the addresses of `S` show the private memory `v`. -/
def View (t : ℕ → γ) (S : Set ℕ) (m : γ → β) (v : ℕ → β) : Prop :=
  ∀ a ∈ S, m (t a) = v a

/-- The two memories agree outside the image of `S`. -/
def Frame (t : ℕ → γ) (S : Set ℕ) (m m' : γ → β) : Prop :=
  ∀ c, (∀ a ∈ S, t a ≠ c) → m' c = m c

theorem Frame.trans {t : ℕ → γ} {S : Set ℕ} {m₁ m₂ m₃ : γ → β} (h₁ : Frame t S m₁ m₂)
    (h₂ : Frame t S m₂ m₃) : Frame t S m₁ m₃ :=
  fun c hc => (h₂ c hc).trans (h₁ c hc)

section Simulation

variable [DecidableEq γ] {τ : ℕ → Option γ} {t : ℕ → γ} {S : Set ℕ}
  (hτ : ∀ a ∈ S, τ a = some (t a)) (hinj : S.InjOn t)

include hinj in
theorem View.update {m : γ → β} {v : ℕ → β} (h : View t S m v) {dst : ℕ} (hd : dst ∈ S) (b : β) :
    View t S (Function.update m (t dst) b) (Function.update v dst b) := by
  intro a ha
  by_cases hab : a = dst
  · rw [hab, update_self, update_self]
  · rw [update_of_ne hab, update_of_ne (fun heq => hab (hinj ha hd heq)), h a ha]

theorem Frame.update (m : γ → β) {dst : ℕ} (hd : dst ∈ S) (b : β) :
    Frame t S m (Function.update m (t dst) b) :=
  fun _ hc => update_of_ne (Ne.symm (hc dst hd)) b m

omit [DecidableEq γ] in
include hτ in
theorem readBytes_view {m : γ → β} {v : ℕ → β} (h : View t S m v) :
    ∀ {n src : ℕ}, (∀ j < n, src + j ∈ S) → readBytes τ m src n = some (slice v src n)
  | 0, _, _ => rfl
  | n + 1, src, hmem => by
    have hsrc : src ∈ S := hmem 0 (Nat.succ_pos n)
    have hrec : readBytes τ m (src + 1) n = some (slice v (src + 1) n) :=
      readBytes_view h fun j hj => by
        simpa [Nat.add_assoc, Nat.add_comm 1 j] using hmem (j + 1) (by omega)
    rw [readBytes, hτ src hsrc, Option.bind_some, hrec, Option.map_some, h src hsrc]
    simp [slice, List.range_succ_eq_map, Nat.add_comm, Nat.add_left_comm, Function.comp_def]

include hτ hinj in
theorem writeBytes_view :
    ∀ {bs : List β} {dst : ℕ} {m : γ → β} {v : ℕ → β}, View t S m v →
      (∀ j < bs.length, dst + j ∈ S) →
      ∃ m', writeBytes τ dst bs m = some m' ∧ View t S m' (place dst bs v) ∧ Frame t S m m'
  | [], _, m, _, h, _ => ⟨m, rfl, h, fun _ _ => rfl⟩
  | b :: bs, dst, m, v, h, hmem => by
    have hd : dst ∈ S := hmem 0 (by simp)
    have hrest : ∀ j < bs.length, dst + 1 + j ∈ S := fun j hj => by
      simpa [Nat.add_assoc, Nat.add_comm 1 j] using hmem (j + 1) (by simpa using hj)
    obtain ⟨m', hm', hview, hframe⟩ := writeBytes_view (View.update hinj h hd b) hrest
    refine ⟨m', ?_, hview, (Frame.update m hd b).trans hframe⟩
    rw [writeBytes, hτ dst hd, Option.bind_some, hm']

include hτ hinj in
theorem Op.exec_view {op : Op β} {m : γ → β} {v : ℕ → β} (h : View t S m v)
    (hop : op.Within S) :
    ∃ m', op.exec τ m = some m' ∧ View t S m' (op.apply v) ∧ Frame t S m m' := by
  cases op with
  | write dst bs => exact writeBytes_view hτ hinj h hop
  | modify dst f =>
    refine ⟨_, ?_, View.update hinj h hop (f (v dst)), Frame.update m hop _⟩
    rw [Op.exec, hτ dst hop, Option.map_some, h dst hop]
  | move dst src len =>
    rw [Op.exec, readBytes_view hτ h fun j hj => (hop j hj).2, Option.bind_some]
    exact writeBytes_view hτ hinj h fun j hj => (hop j (by simpa using hj)).1

include hτ hinj in
/-- A program inside `S` does not fault, acts on the view as on a private memory, and changes
nothing else. -/
theorem execAll_view {ops : List (Op β)} {m : γ → β} {v : ℕ → β} (h : View t S m v)
    (hops : ∀ op ∈ ops, op.Within S) :
    ∃ m', execAll τ ops m = some m' ∧ View t S m' (applyAll ops v) ∧ Frame t S m m' := by
  induction ops generalizing m v with
  | nil => exact ⟨m, rfl, h, fun _ _ => rfl⟩
  | cons op ops ih =>
    obtain ⟨m₁, hm₁, hv₁, hf₁⟩ := op.exec_view hτ hinj h (hops op (by simp))
    obtain ⟨m₂, hm₂, hv₂, hf₂⟩ := ih hv₁ fun op' hop' => hops op' (by simp [hop'])
    refine ⟨m₂, ?_, hv₂, hf₁.trans hf₂⟩
    rw [execAll, List.foldlM_cons, hm₁]
    exact hm₂

end Simulation

end Memory
