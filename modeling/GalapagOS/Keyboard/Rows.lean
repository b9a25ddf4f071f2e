import GalapagOS.Keyboard.Common

/-!
# Stores to the history, string by string

A store inside its string changes one byte of that string and nothing else. The loops of the handler
fill whole strings, and `strlen` finds the end of a string that is shorter than 128 bytes.
-/

namespace GalapagOS
namespace Keyboard

open Function Strings

variable {h : History} {t t' : Fin 3} {r r' : Row} {i j : ℕ} {v : Value} {s : Store}

/-! ## Bytes inside their strings -/

/-- A string that the arrays have. -/
def Row.Ok : Row → Prop
  | .modifiedHist slot | .hist slot => slot < maxHist + 1
  | .currCmd => True

instance : DecidablePred Row.Ok
  | .modifiedHist slot | .hist slot => inferInstanceAs (Decidable (slot < maxHist + 1))
  | .currCmd => inferInstanceAs (Decidable True)

theorem currCmd_ok : Row.currCmd.Ok := trivial

/-- The store is inside the 128 bytes of its string. -/
def Store.Inside (s : Store) : Prop := s.row.Ok ∧ s.index < 128

/-- Different bytes have different positions. -/
theorem Row.base_inj (hr : r.Ok) (hr' : r'.Ok) (hi : i < 128) (hj : j < 128)
    (hbuffer : r.buffer = r'.buffer) (h : r.base t + i = r'.base t' + j) :
    t = t' ∧ r = r' ∧ i = j := by
  have ht := t.isLt
  have ht' := t'.isLt
  cases r <;> cases r' <;> cases hbuffer <;> unfold Row.base Row.Ok maxHist at * <;>
    dsimp only at hr hr' h
  case modifiedHist.modifiedHist a b =>
    exact ⟨Fin.ext (by omega), by rw [show a = b by omega], by omega⟩
  case hist.hist a b =>
    exact ⟨Fin.ext (by omega), by rw [show a = b by omega], by omega⟩
  case currCmd.currCmd => exact ⟨Fin.ext (by omega), rfl, by omega⟩

theorem Store.bytes_apply (s : Store) (t : Fin 3) (h : History) :
    (s.apply t h).bytes = update h.bytes s.row.buffer
      (update (h.bytes s.row.buffer) (s.row.base t + s.index) (s.value.at h t s.index)) :=
  rfl

/-- One store. -/
theorem Store.Inside.row_apply (hs : s.Inside) (hr : r.Ok) (hj : j < 128) :
    (s.apply t h).row t' r j
      = if t' = t ∧ r = s.row ∧ j = s.index then s.value.at h t s.index else h.row t' r j := by
  unfold History.row
  rw [Store.bytes_apply]
  by_cases hsame : t' = t ∧ r = s.row ∧ j = s.index
  · rw [if_pos hsame]
    obtain ⟨rfl, rfl, rfl⟩ := hsame
    rw [update_self, update_self]
  · rw [if_neg hsame]
    by_cases hbuffer : r.buffer = s.row.buffer
    · have hne : r.base t' + j ≠ s.row.base t + s.index := fun he =>
        hsame (Row.base_inj hr hs.1 hj hs.2 hbuffer he)
      rw [hbuffer, update_self, update_of_ne hne]
    · rw [update_of_ne hbuffer]

/-- Stores leave the counters alone. -/
theorem apply_counters (t : Fin 3) (stores : List Store) :
    ∀ h : History, h.apply t stores = { h with bytes := (h.apply t stores).bytes } := by
  induction stores with
  | nil => exact fun _ => rfl
  | cons s stores ih =>
    intro h
    show (s.apply t h).apply t stores = _
    rw [ih (s.apply t h)]
    rfl

@[simp] theorem numHist_apply (h : History) (t : Fin 3) (stores : List Store) :
    (h.apply t stores).numHist = h.numHist := by
  rw [apply_counters]

@[simp] theorem currHist_apply (h : History) (t : Fin 3) (stores : List Store) :
    (h.apply t stores).currHist = h.currHist := by
  rw [apply_counters]

@[simp] theorem minHist_apply (h : History) (t : Fin 3) (stores : List Store) :
    (h.apply t stores).minHist = h.minHist := by
  rw [apply_counters]

theorem apply_append (h : History) (t : Fin 3) (ss ss' : List Store) :
    h.apply t (ss ++ ss') = (h.apply t ss).apply t ss' :=
  List.foldl_append

/-- Stores inside their strings leave the other terminals alone. -/
theorem row_apply_other {stores : List Store} (hs : ∀ s ∈ stores, s.Inside) (ht : t' ≠ t)
    (hr : r.Ok) (hj : j < 128) : ∀ h : History, (h.apply t stores).row t' r j = h.row t' r j := by
  induction stores with
  | nil => exact fun _ => rfl
  | cons s stores ih =>
    intro h
    have hrest := ih (fun s hs' => hs s (List.mem_cons_of_mem _ hs')) (s.apply t h)
    rw [(hs s List.mem_cons_self).row_apply hr hj, if_neg fun he => ht he.1] at hrest
    exact hrest

/-! ## Loops -/

/-- The bytes that fill a string are not read from it. -/
def Value.Foreign (r : Row) : Value → Prop
  | .byte _ => True
  | .cell src => src ≠ r ∧ src.Ok

theorem Value.Foreign.at_congr {h' : History} (hv : v.Foreign r)
    (hsame : ∀ r', r' ≠ r → r'.Ok → h'.row t r' i = h.row t r' i) : v.at h' t i = v.at h t i := by
  cases v with
  | byte b => rfl
  | cell src => exact hsame src hv.1 hv.2

/-- The first `n` rounds of a loop. -/
theorem row_rounds (hr : r.Ok) (hv : v.Foreign r) {n : ℕ} (hn : n ≤ 128) :
    ∀ {t' : Fin 3} {r' : Row} {j : ℕ}, r'.Ok → j < 128 →
      (h.apply t ((List.range n).map fun i => ⟨r, i, v⟩)).row t' r' j
        = if t' = t ∧ r' = r ∧ j < n then v.at h t j else h.row t' r' j := by
  induction n with
  | zero =>
    intro t' r' j _ _
    rw [if_neg (by omega)]
    rfl
  | succ n ih =>
    intro t' r' j hr' hj
    have hbefore := fun {t' r' j} => @ih (by omega) t' r' j
    have hinside : Store.Inside ⟨r, n, v⟩ := ⟨hr, hn⟩
    rw [List.range_succ, List.map_append, apply_append]
    show (Store.apply t _ ⟨r, n, v⟩).row t' r' j = _
    rw [hinside.row_apply hr' hj, hbefore hr' hj]
    dsimp only
    by_cases hlast : t' = t ∧ r' = r ∧ j = n
    · -- what is read has not been stored to
      rw [if_pos hlast, if_pos ⟨hlast.1, hlast.2.1, by omega⟩, hlast.2.2]
      refine hv.at_congr fun r'' hne hr'' => ?_
      rw [hbefore hr'' hn, if_neg fun he => hne he.2.1]
    · rw [if_neg hlast]
      by_cases hrow : t' = t ∧ r' = r ∧ j < n
      · rw [if_pos hrow, if_pos ⟨hrow.1, hrow.2.1, by omega⟩]
      · rw [if_neg hrow, if_neg]
        exact fun he => hlast ⟨he.1, he.2.1, by_contra fun hne => hrow ⟨he.1, he.2.1, by omega⟩⟩

/-- A string is filled. -/
theorem row_rowStores (hr : r.Ok) (hv : v.Foreign r) (hr' : r'.Ok) (hj : j < 128) :
    (h.apply t (rowStores r v)).row t' r' j
      = if t' = t ∧ r' = r then v.at h t j else h.row t' r' j := by
  rw [rowStores, row_rounds hr hv le_rfl hr' hj]
  by_cases hsame : t' = t ∧ r' = r
  · rw [if_pos hsame, if_pos ⟨hsame.1, hsame.2, hj⟩]
  · rw [if_neg hsame, if_neg fun he => hsame ⟨he.1, he.2.1⟩]

theorem rowStores_inside (hs : s ∈ rowStores r v) (hr : r.Ok) : s.Inside := by
  obtain ⟨i, hi, rfl⟩ := List.mem_map.mp hs
  exact ⟨hr, List.mem_range.mp hi⟩

/-- Every edit is dropped: the first `n` entries of `modified_hist` become those of `hist`. -/
theorem row_refresh {n : ℕ} (hn : n ≤ maxHist + 1) :
    ∀ {t' : Fin 3} {r : Row} {j : ℕ}, r.Ok → j < 128 →
      (h.apply t ((List.range n).flatMap fun slot =>
          rowStores (.modifiedHist slot) (.cell (.hist slot)))).row t' r j
        = match r with
          | .modifiedHist slot => if t' = t ∧ slot < n then h.row t (.hist slot) j
            else h.row t' (.modifiedHist slot) j
          | r => h.row t' r j := by
  induction n with
  | zero =>
    intro t' r j _ _
    cases r with
    | modifiedHist slot =>
      dsimp only
      rw [if_neg (by omega)]
      rfl
    | _ => rfl
  | succ n ih =>
    intro t' r j hr hj
    have hslot : (Row.hist n).Ok := hn
    have hentry : (Row.modifiedHist n).Ok := hn
    have hforeign : (Value.cell (.hist n)).Foreign (.modifiedHist n) := ⟨nofun, hslot⟩
    have hbefore := fun {t' r j} => @ih (by omega) t' r j
    rw [List.range_succ, List.flatMap_append, apply_append, List.flatMap_singleton,
      row_rowStores hentry hforeign hr hj]
    cases r with
    | modifiedHist slot =>
      dsimp only
      by_cases hlast : t' = t ∧ slot = n
      · rw [if_pos ⟨hlast.1, congrArg Row.modifiedHist hlast.2⟩, if_pos ⟨hlast.1, by omega⟩, hlast.2]
        exact hbefore hslot hj
      · have hne : ¬(t' = t ∧ Row.modifiedHist slot = .modifiedHist n) := fun he =>
          hlast ⟨he.1, Row.modifiedHist.inj he.2⟩
        rw [if_neg hne, hbefore hr hj]
        dsimp only
        by_cases hlt : t' = t ∧ slot < n
        · rw [if_pos hlt, if_pos ⟨hlt.1, by omega⟩]
        · rw [if_neg hlt, if_neg]
          exact fun he => hlast ⟨he.1, by_contra fun hs => hlt ⟨he.1, by omega⟩⟩
    | hist slot =>
      rw [if_neg (by simp)]
      exact hbefore hr hj
    | currCmd =>
      rw [if_neg (by simp)]
      exact hbefore hr hj

/-! ## Recalling and committing -/

theorem recallStores_inside (slot : ℕ) : ∀ s ∈ recallStores slot, s.Inside :=
  fun _ hs => rowStores_inside hs trivial

theorem row_recall {slot : ℕ} (hslot : slot < maxHist + 1) (hr : r.Ok) (hj : j < 128) :
    (h.apply t (recallStores slot)).row t' r j
      = if t' = t ∧ r = .currCmd then h.row t (.modifiedHist slot) j else h.row t' r j :=
  row_rowStores (v := .cell (.modifiedHist slot)) trivial ⟨nofun, hslot⟩ hr hj

theorem mod_ring_lt (n : ℕ) : n % (maxHist + 1) < maxHist + 1 := Nat.mod_lt _ (Nat.succ_pos _)

theorem characterStores_inside {entry : Row} {i j : ℕ} (hentry : entry.Ok) (hi : i < 128)
    (hj : j < 128) (c : UInt8) : ∀ s ∈ characterStores entry i j c, s.Inside := by
  intro s hs
  rcases List.mem_cons.mp hs with rfl | hs
  · exact ⟨trivial, hi⟩
  · rw [List.mem_singleton.mp hs]
    exact ⟨hentry, hj⟩

theorem commitStores_inside (n : ℕ) : ∀ s ∈ commitStores n, s.Inside := by
  intro s hs
  rw [commitStores, List.mem_append, List.mem_append, List.mem_append] at hs
  rcases hs with ((hs | hs) | hs) | hs
  · exact rowStores_inside hs (mod_ring_lt n)
  · exact rowStores_inside hs (mod_ring_lt (n + 1))
  · obtain ⟨slot, hslot, hs⟩ := List.mem_flatMap.mp hs
    exact rowStores_inside hs (List.mem_range.mp hslot)
  · exact rowStores_inside hs trivial

/-- The string that slot `slot` of `hist` holds after command `n` has been committed. -/
def committed (h : History) (t : Fin 3) (n slot : ℕ) : ℕ → UInt8 :=
  if slot = (n + 1) % (maxHist + 1) then fun _ => 0
  else if slot = n % (maxHist + 1) then h.row t .currCmd
  else h.row t (.hist slot)

/-- The strings after Enter. -/
theorem row_commit (n : ℕ) (hr : r.Ok) (hj : j < 128) :
    (h.apply t (commitStores n)).row t r j = match r with
      | .currCmd => 0
      | .hist slot | .modifiedHist slot => committed h t n slot j := by
  have hn : (Row.hist (n % (maxHist + 1))).Ok := mod_ring_lt n
  have hnext : (Row.hist ((n + 1) % (maxHist + 1))).Ok := mod_ring_lt (n + 1)
  obtain ⟨h₂, hh₂⟩ : ∃ h₂, h₂ = (h.apply t (rowStores (.hist (n % (maxHist + 1)))
      (.cell .currCmd))).apply t (rowStores (.hist ((n + 1) % (maxHist + 1))) (.byte 0)) := ⟨_, rfl⟩
  -- the two strings of `hist` that are stored
  have hhist : ∀ slot, slot < maxHist + 1 → h₂.row t (.hist slot) j = committed h t n slot j := by
    intro slot hslot
    have hok : (Row.hist slot).Ok := hslot
    rw [hh₂, row_rowStores (v := .byte 0) hnext trivial hok hj,
      row_rowStores (v := .cell .currCmd) hn ⟨nofun, currCmd_ok⟩ hok hj]
    unfold committed
    by_cases hnew : slot = (n + 1) % (maxHist + 1)
    · rw [if_pos ⟨rfl, congrArg Row.hist hnew⟩, if_pos hnew]
      rfl
    · rw [if_neg fun he => hnew (Row.hist.inj he.2), if_neg hnew]
      by_cases hold : slot = n % (maxHist + 1)
      · rw [if_pos ⟨rfl, congrArg Row.hist hold⟩, if_pos hold]
        rfl
      · rw [if_neg fun he => hold (Row.hist.inj he.2), if_neg hold]
  rw [commitStores, apply_append, apply_append, apply_append, ← hh₂,
    row_rowStores (v := .byte 0) currCmd_ok trivial hr hj]
  cases r with
  | currCmd =>
    rw [if_pos ⟨rfl, rfl⟩]
    rfl
  | hist slot =>
    rw [if_neg (by simp), row_refresh le_rfl hr hj]
    exact hhist slot hr
  | modifiedHist slot =>
    rw [if_neg (by simp), row_refresh le_rfl hr hj]
    dsimp only
    rw [if_pos ⟨rfl, hr⟩]
    exact hhist slot hr

/-! ## The end of a string -/

/-- The next string, or the end of the array, is at least 128 bytes away. -/
theorem base_add_le (t : Fin 3) (hr : r.Ok) : r.base t + 128 ≤ r.buffer.size := by
  have ht := t.isLt
  cases r <;> unfold Row.base Row.Ok Row.buffer Buffer.size maxHist at * <;> dsimp only at * <;> omega

theorem strlen_eq {str : List UInt8} (hr : r.Ok) (h' : Padded 128 (h.row t r) str) :
    strlen h t r = some str.length := by
  have hbase := base_add_le t hr
  have hlen := h'.length
  exact firstZero_eq (by omega) h'.at_length fun j hj => h'.lt_length hj

end Keyboard
end GalapagOS
