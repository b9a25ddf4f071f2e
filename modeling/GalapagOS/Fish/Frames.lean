import GalapagOS.Fish.Phase

/-!
# The two frames (`add_frames` and the loops of `main` in `fish.c`)

`add_frames` reads two files side by side, a byte of each at a time, and adds a blinking character
wherever one of them has something else than a space. A file that has reached the end of its line
waits for the other one. The tasklet then shows the first file and the second one in turn.

The bytes of the two files are lists; a read at the end of a list returns 0. Both loops get `fuel`.
-/

namespace GalapagOS
namespace Fish

open SinglyLinked Function Oscillator

/-! ## The code -/

def newline : UInt8 := 0x0a
def space : UInt8 := 0x20

/-- One of the two files: what has not been read of it, its last character (`c0`, `c1`), and whether
its end was met (`eof0`, `eof1`). -/
structure Side where
  rest : List UInt8
  c : UInt8
  eof : Bool
deriving DecidableEq

/-- A file at the start. -/
def Side.start (file : List UInt8) : Side := ⟨file, '0'.toUInt8, false⟩

/-- The next character, unless the file waits at the end of its line. -/
def Side.read (x : Side) : Side :=
  if x.c ≠ newline then
    match x.rest with
    | [] => { x with c := newline, eof := true }
    | b :: rest => { x with c := b, rest := rest }
  else x

/-- What follows a row. -/
def Side.endRow (x : Side) : Side :=
  if x.eof then { x with c := newline } else { x with c := '0'.toUInt8 }

/-- `blink_struct` for a place of the frames; what else it holds was never set. -/
def frameBlink (stale : Blink) (row col : ℕ) (c0 c1 : UInt8) : Blink :=
  { stale with
    location := BitVec.ofNat 16 (row * 80 + col + 40)
    onChar := if c0 = newline then space else c0
    offChar := if c1 = newline then space else c1
    onLength := 15
    offLength := 15 }

/-- The inner loop of `add_frames`, from column `col` on. -/
def addRow (stale : Blink) (row : ℕ) : ℕ → ℕ → State → Side → Side → Option (State × Side × Side)
  | 0, _, _, _, _ => none
  | fuel + 1, col, s, x, y =>
    let x := x.read
    let y := y.read
    if x.c = newline ∧ y.c = newline then some (s, x, y)
    else
      let s :=
        if (x.c ≠ space ∧ x.c ≠ newline) ∨ (y.c ≠ space ∧ y.c ≠ newline) then
          (s.ioctlAdd (frameBlink stale row col x.c y.c)).1
        else s
      addRow stale row fuel (col + 1) s x y

/-- The outer loop, from row `row` on. -/
def addRows (stale : Blink) (fuel : ℕ) : ℕ → ℕ → State → Side → Side → Option State
  | 0, _, _, _, _ => none
  | n + 1, row, s, x, y =>
    if x.eof = false ∨ y.eof = false then
      (addRow stale row fuel 0 s x y).bind fun r =>
        addRows stale fuel n (row + 1) r.1 r.2.1.endRow r.2.2.endRow
    else some s

/-- `add_frames`, when both files could be opened. -/
def addFrames (fuel : ℕ) (stale : Blink) (s : State) (file0 file1 : List UInt8) : Option State :=
  addRows stale fuel fuel 0 s (.start file0) (.start file1)

/-- A loop of `main` that waits for `n` ticks of the clock and calls the tasklet after each. -/
def State.wait (fuel : ℕ) : ℕ → State → Option State
  | 0, s => some s
  | n + 1, s => (s.rtcTasklet fuel).bind (wait fuel n)

/-! ## The frames -/

/-- A character of a frame; what a line lacks is blank. -/
def cell (file : List UInt8) (row col : ℕ) : UInt8 :=
  ((file.splitOn newline).getD row []).getD col space

/-- The place of a character on the screen. -/
def place (row col : ℕ) : ℕ := row * 80 + col + 40

/-- Both frames are blank at a place. -/
def Blank (file0 file1 : List UInt8) (row col : ℕ) : Prop :=
  cell file0 row col = space ∧ cell file1 row col = space

/-- A file inside a row: what is left of the line, and the lines that follow. -/
inductive At (x : Side) : List UInt8 → List (List UInt8) → Prop
  | reading {l : List UInt8} {ls : List (List UInt8)} : x.c ≠ newline → x.eof = false →
      x.rest.splitOn newline = l :: ls → At x l ls
  | ended {ls : List (List UInt8)} : x.c = newline → x.eof = false →
      x.rest.splitOn newline = ls → At x [] ls
  | finished : x.c = newline → x.eof = true → At x [] []

theorem splitOn_cons (b : UInt8) (rest : List UInt8) :
    (b :: rest).splitOn newline = if b = newline then [] :: rest.splitOn newline
      else (rest.splitOn newline).modifyHead (List.cons b) := by
  rw [List.splitOn, List.splitOnP_cons_eq_if_modifyHead]
  simp only [beq_iff_eq]
  rfl

theorem At.read {x : Side} {l : List UInt8} {ls : List (List UInt8)} (h : At x l ls) :
    x.read.c = l.headD newline ∧ (∀ b ∈ l.head?, b ≠ newline) ∧ At x.read l.tail ls := by
  obtain ⟨rest, c, eof⟩ := x
  cases h with
  | reading hc heof hrest =>
    have hread : (⟨rest, c, eof⟩ : Side).read = match rest with
        | [] => ⟨rest, newline, true⟩
        | b :: rest => ⟨rest, b, eof⟩ := by
      unfold Side.read
      rw [if_pos hc]
      cases rest <;> rfl
    dsimp only at hc heof hrest
    cases rest with
    | nil =>
      rw [List.splitOn_nil] at hrest
      cases hrest
      rw [hread]
      exact ⟨rfl, by simp, .finished rfl rfl⟩
    | cons b rest =>
      rw [splitOn_cons] at hrest
      rw [hread]
      split at hrest
      · rename_i hb
        cases hrest
        exact ⟨hb, by simp, .ended hb heof rfl⟩
      · rename_i hb
        cases hsplit : rest.splitOn newline with
        | nil => exact absurd hsplit (List.splitOnP_ne_nil _ _)
        | cons first others =>
          rw [hsplit] at hrest
          cases hrest
          exact ⟨rfl, by simpa using hb, .reading hb heof hsplit⟩
  | ended hc heof hrest =>
    have hread : (⟨rest, c, eof⟩ : Side).read = ⟨rest, c, eof⟩ := if_neg (fun hne => hne hc)
    rw [hread]
    exact ⟨hc, by simp, .ended hc heof hrest⟩
  | finished hc heof =>
    have hread : (⟨rest, c, eof⟩ : Side).read = ⟨rest, c, eof⟩ := if_neg (fun hne => hne hc)
    rw [hread]
    exact ⟨hc, by simp, .finished hc heof⟩

/-- A file before a row: the lines that are left. -/
inductive Ahead (x : Side) : List (List UInt8) → Prop
  | lines {l : List UInt8} {ls : List (List UInt8)} : x.c ≠ newline → x.eof = false →
      x.rest.splitOn newline = l :: ls → Ahead x (l :: ls)
  | finished : x.c = newline → x.eof = true → Ahead x []

theorem ahead_start (file : List UInt8) : Ahead (.start file) (file.splitOn newline) := by
  cases hsplit : file.splitOn newline with
  | nil => exact absurd hsplit (List.splitOnP_ne_nil _ _)
  | cons l ls => exact .lines (show '0'.toUInt8 ≠ newline by decide) rfl hsplit

theorem Ahead.at {x : Side} {ls : List (List UInt8)} (h : Ahead x ls) : At x (ls.headD []) ls.tail := by
  cases h with
  | lines hc heof hrest => exact .reading hc heof hrest
  | finished hc heof => exact .finished hc heof

theorem Ahead.eof_iff {x : Side} {ls : List (List UInt8)} (h : Ahead x ls) :
    x.eof = false ↔ ls ≠ [] := by
  cases h with
  | lines hc heof hrest => simp [heof]
  | finished hc heof => simp [heof]

/-- After a row the file is before the next one. -/
theorem At.endRow {x : Side} {ls : List (List UInt8)} (h : At x [] ls) (hc : x.c = newline) :
    Ahead x.endRow ls := by
  obtain ⟨rest, c, eof⟩ := x
  cases h with
  | reading hne => exact absurd hc hne
  | ended _ heof hrest =>
    dsimp only at heof
    subst heof
    cases ls with
    | nil => exact absurd hrest (List.splitOnP_ne_nil _ _)
    | cons l ls => exact .lines (show '0'.toUInt8 ≠ newline by decide) rfl hrest
  | finished _ heof =>
    dsimp only at heof
    subst heof
    exact .finished rfl rfl

/-! ## The list while the frames are added -/

variable {s : State} {since : BitVec 16 → Option (Blink × ℕ)} {l : List Slot}
  {file0 file1 : List UInt8} {screen : ℕ → UInt8} {bound row col fuel : ℕ}

/-- The frames have been added up to the place `bound`, on a screen that showed `screen`. -/
structure Drawn (file0 file1 : List UInt8) (screen : ℕ → UInt8) (bound : ℕ) (s : State)
    (since : BitVec 16 → Option (Blink × ℕ)) (l : List Slot) : Prop extends Animated s since l where
  below : ∀ i ∈ l, (s.array i).location.toNat < bound
  free : ∀ i, i ∉ l → (s.array i).location = 0
  cells : ∀ row col, col < 40 → place row col < bound → ¬Blank file0 file1 row col →
    ∃ b : Blink, since (BitVec.ofNat 16 (place row col)) = some (b, 0) ∧
      b.onChar = cell file0 row col ∧ b.offChar = cell file1 row col ∧
      b.onLength = 15 ∧ b.offLength = 15
  placed : ∀ i ∈ l, ∃ row col, col < 40 ∧ ¬Blank file0 file1 row col ∧
    (s.array i).location.toNat = place row col
  others : ∀ a, (∀ row col, col < 40 → ¬Blank file0 file1 row col → a ≠ 2 * place row col) →
    s.vmem a = screen a

/-- Blank places need nothing. -/
theorem Drawn.mono {bound' : ℕ} (h : Drawn file0 file1 screen bound s since l) (hle : bound ≤ bound')
    (hblank : ∀ row col, col < 40 → bound ≤ place row col → place row col < bound' →
      Blank file0 file1 row col) : Drawn file0 file1 screen bound' s since l where
  toAnimated := h.toAnimated
  below i hi := (h.below i hi).trans_le hle
  free := h.free
  cells row col hcol hlt hne := by
    by_cases hb : place row col < bound
    · exact h.cells row col hcol hb hne
    · exact absurd (hblank row col hcol (by omega) hlt) hne
  placed := h.placed
  others := h.others

theorem mallocFrom_isSome {i : Slot} (hfree : (s.array i).location = 0) :
    ∀ n j, j ≤ i.val → i.val < j + n → (s.mallocFrom j n).isSome := by
  intro n
  induction n with
  | zero =>
    intro j hle hlt
    omega
  | succ n ih =>
    intro j hle hlt
    have hi := i.isLt
    rw [State.mallocFrom, dif_pos (by omega)]
    split
    · rfl
    · rename_i htaken
      have hne : j ≠ i.val := by
        rintro rfl
        exact htaken hfree
      exact ih (j + 1) (by omega) (by omega)

/-- There is a free slot while there is a place. -/
theorem Drawn.malloc (h : Drawn file0 file1 screen bound s since l) (hbound : bound < 2000) :
    ∃ i, s.malloc = some i := by
  have hfree : ∃ i, i ∉ l := by
    -- otherwise the locations of the 2000 slots are different numbers between 1 and 1999
    by_contra hall
    have hmem : ∀ i, i ∈ l := fun i => by_contra fun hi => hall ⟨i, hi⟩
    have hpos : ∀ i, (s.array i).location.toNat ≠ 0 :=
      fun i hz => h.taken i (hmem i) (BitVec.eq_of_toNat_eq hz)
    let f : Slot → Fin 1999 := fun i => ⟨(s.array i).location.toNat - 1, by
      have hlt := h.below i (hmem i)
      have hp := hpos i
      omega⟩
    have hinj : f.Injective := by
      intro i j hij
      have hval : (s.array i).location.toNat - 1 = (s.array j).location.toNat - 1 :=
        congrArg Fin.val hij
      have hpi := hpos i
      have hpj := hpos j
      exact h.apart i (hmem i) j (hmem j) (BitVec.eq_of_toNat_eq (by omega))
    have hcard := Fintype.card_le_of_injective f hinj
    rw [Fintype.card_fin, Fintype.card_fin] at hcard
    omega
  obtain ⟨i, hi⟩ := hfree
  exact Option.isSome_iff_exists.mp
    (mallocFrom_isSome (h.free i hi) 2000 0 (Nat.zero_le _) (by have := i.isLt; omega))

theorem toNat_ofNat_place (hp : place row col < 2000) :
    (BitVec.ofNat 16 (place row col)).toNat = place row col := by
  rw [BitVec.toNat_ofNat]
  omega

theorem place_inj {row' col' : ℕ} (hcol : col < 40) (hcol' : col' < 40)
    (h : place row' col' = place row col) : row' = row ∧ col' = col := by
  unfold place at h
  omega

/-- A place where one of the frames is not blank. -/
theorem Drawn.add (h : Drawn file0 file1 screen (place row col) s since l)
    (hp : place row col < 2000) (hcol : col < 40) (hne : ¬Blank file0 file1 row col) {b : Blink}
    (hlocation : b.location = BitVec.ofNat 16 (place row col))
    (hb : b.onChar = cell file0 row col ∧ b.offChar = cell file1 row col ∧
      b.onLength = 15 ∧ b.offLength = 15) :
    ∃ since' l', Drawn file0 file1 screen (place row col + 1) (s.ioctlAdd b).1 since' l' := by
  have htoNat : b.location.toNat = place row col := by
    rw [hlocation, toNat_ofNat_place hp]
  have hzero : b.location ≠ 0 := by
    intro hz
    have hpos : 0 < place row col := Nat.succ_pos _
    rw [← htoNat, hz] at hpos
    exact absurd hpos (by decide)
  have hunused : ∀ i ∈ l, (s.array i).location ≠ b.location := by
    intro i hi he
    have hlt := h.below i hi
    rw [he, htoNat] at hlt
    omega
  obtain ⟨i, hmalloc⟩ := h.malloc hp
  have hadd : (s.ioctlAdd b).1
      = (s.insert i { b with status := 1, countdown := b.onLength }).poke b.location b.onChar := by
    rw [State.ioctlAdd, if_neg (by omega), hmalloc]
  have hself : (s.insert i { b with status := 1, countdown := b.onLength }).array i
      = ⟨{ b with status := 1, countdown := b.onLength }, s.head⟩ := update_self ..
  have hother : ∀ j, j ≠ i →
      (s.insert i { b with status := 1, countdown := b.onLength }).array j = s.array j :=
    fun j hj => update_of_ne hj _ _
  have hnotMem : i ∉ l := h.malloc_notMem hmalloc
  have hmem : ∀ j ∈ l, j ≠ i := fun j hj he => hnotMem (he ▸ hj)
  refine ⟨_, i :: l, hadd ▸ h.insert hzero hunused hmalloc, ?_, ?_, ?_, ?_, ?_⟩
  · intro j hj
    rw [hadd, array_poke]
    rcases List.mem_cons.mp hj with rfl | hj
    · rw [hself]
      exact htoNat.trans_lt (Nat.lt_succ_self _)
    · rw [hother j (hmem j hj)]
      exact (h.below j hj).trans (Nat.lt_succ_self _)
  · intro j hj
    rw [List.mem_cons, not_or] at hj
    rw [hadd, array_poke, hother j hj.1]
    exact h.free j hj.2
  · intro row' col' hcol' hlt hne'
    by_cases he : place row' col' = place row col
    · obtain ⟨rfl, rfl⟩ := place_inj hcol hcol' he
      refine ⟨b, ?_, hb⟩
      rw [hlocation, update_self]
    · obtain ⟨b', hsince, hb'⟩ := h.cells row' col' hcol' (by omega) hne'
      refine ⟨b', ?_, hb'⟩
      rw [update_of_ne, hsince]
      intro heq
      rw [hlocation] at heq
      have heq := congrArg BitVec.toNat heq
      rw [toNat_ofNat_place (by omega), toNat_ofNat_place hp] at heq
      exact he heq
  · intro j hj
    rw [hadd, array_poke]
    rcases List.mem_cons.mp hj with rfl | hj
    · rw [hself]
      exact ⟨row, col, hcol, hne, htoNat⟩
    · rw [hother j (hmem j hj)]
      exact h.placed j hj
  · intro a ha
    rw [hadd]
    refine (vmem_poke_ne _ ?_ _).trans (h.others a ha)
    rw [htoNat]
    exact ha row col hcol hne

/-! ## The loops -/

/-- A line of a file. -/
def line (file : List UInt8) (row : ℕ) : List UInt8 := (file.splitOn newline).getD row []

theorem cell_eq (file : List UInt8) (row col : ℕ) :
    cell file row col = ((line file row).drop col).headD space := by
  rw [cell, line, List.headD_eq_head?_getD, List.head?_drop, List.getD_eq_getElem?_getD]

/-- What is drawn for the character that was read. -/
theorem char_eq {file l : List UInt8} {x : Side} {ls : List (List UInt8)} (h : At x l ls)
    (hl : l = (line file row).drop col) :
    (if x.read.c = newline then space else x.read.c) = cell file row col := by
  obtain ⟨hc, hne, -⟩ := h.read
  rw [cell_eq, ← hl, hc]
  cases l with
  | nil => rfl
  | cons b l => exact if_neg (hne b rfl)

/-- The test of the code, for one of the files. -/
theorem blank_iff {file l : List UInt8} {x : Side} {ls : List (List UInt8)} (h : At x l ls)
    (hl : l = (line file row).drop col) :
    (x.read.c ≠ space ∧ x.read.c ≠ newline) ↔ cell file row col ≠ space := by
  rw [← char_eq h hl]
  split
  · rename_i hc
    exact ⟨fun hn => absurd hc hn.2, fun hn => absurd rfl hn⟩
  · rename_i hc
    exact ⟨fun hn => hn.1, fun hn => ⟨hn, hc⟩⟩

theorem At.read_newline_iff {x : Side} {l : List UInt8} {ls : List (List UInt8)} (h : At x l ls) :
    x.read.c = newline ↔ l = [] := by
  obtain ⟨hc, hne, -⟩ := h.read
  rw [hc]
  cases l with
  | nil => exact ⟨fun _ => rfl, fun _ => rfl⟩
  | cons b l => exact ⟨fun hb => absurd hb (hne b rfl), fun hn => absurd hn (List.cons_ne_nil b l)⟩

theorem cell_of_length_le {file : List UInt8} (h : (line file row).length ≤ col) :
    cell file row col = space := by
  rw [cell_eq, List.drop_eq_nil_of_le h]
  rfl

/-- One place: it is skipped if both frames are blank there. -/
theorem Drawn.column (stale : Blink) {x y : Side} {l0 l1 : List UInt8} {ls0 ls1 : List (List UInt8)}
    (h : Drawn file0 file1 screen (place row col) s since l) (hrow : row < 25) (hcol : col < 40)
    (hx : At x l0 ls0) (hy : At y l1 ls1) (hl0 : l0 = (line file0 row).drop col)
    (hl1 : l1 = (line file1 row).drop col) :
    ∃ since' l', Drawn file0 file1 screen (place row (col + 1))
      (if (x.read.c ≠ space ∧ x.read.c ≠ newline) ∨ (y.read.c ≠ space ∧ y.read.c ≠ newline) then
        (s.ioctlAdd (frameBlink stale row col x.read.c y.read.c)).1 else s) since' l' := by
  have hp : place row col < 2000 := by
    unfold place
    omega
  have hnext : place row (col + 1) = place row col + 1 := by
    unfold place
    omega
  rw [hnext]
  by_cases hblank : Blank file0 file1 row col
  · rw [if_neg]
    · refine ⟨since, l, h.mono (Nat.le_succ _) fun row' col' hcol' hge hlt => ?_⟩
      have heq : place row' col' = place row col := by omega
      obtain ⟨rfl, rfl⟩ := place_inj hcol hcol' heq
      exact hblank
    · rw [blank_iff hx hl0, blank_iff hy hl1, not_or, not_not, not_not]
      exact hblank
  · rw [if_pos]
    · exact h.add hp hcol hblank rfl ⟨char_eq hx hl0, char_eq hy hl1, rfl, rfl⟩
    · rw [blank_iff hx hl0, blank_iff hy hl1]
      exact not_and_or.mp hblank

/-- One row: both files end behind its newline. -/
theorem Drawn.addRow (stale : Blink) (hrow : row < 25) (hcols0 : (line file0 row).length ≤ 40)
    (hcols1 : (line file1 row).length ≤ 40) {ls0 ls1 : List (List UInt8)} :
    ∀ {fuel col : ℕ} {s : State} {since : BitVec 16 → Option (Blink × ℕ)} {l : List Slot}
      {x y : Side} {l0 l1 : List UInt8}, col ≤ 40 →
      Drawn file0 file1 screen (place row col) s since l → At x l0 ls0 → At y l1 ls1 →
      l0 = (line file0 row).drop col → l1 = (line file1 row).drop col →
      l0.length < fuel → l1.length < fuel →
      ∃ s' x' y' since' l', Fish.addRow stale row fuel col s x y = some (s', x', y') ∧
        Drawn file0 file1 screen (place (row + 1) 0) s' since' l' ∧
        (At x' [] ls0 ∧ x'.c = newline) ∧ At y' [] ls1 ∧ y'.c = newline := by
  intro fuel
  induction fuel with
  | zero => exact fun _ _ _ _ _ _ hfuel => absurd hfuel (Nat.not_lt_zero _)
  | succ fuel ih =>
    intro col s since l x y l0 l1 hle h hx hy hl0 hl1 hfuel0 hfuel1
    rw [Fish.addRow]
    dsimp only
    by_cases hend : l0 = [] ∧ l1 = []
    · -- the rest of the row is blank
      rw [if_pos ⟨hx.read_newline_iff.mpr hend.1, hy.read_newline_iff.mpr hend.2⟩]
      obtain ⟨rfl, rfl⟩ := hend
      have hlen0 := List.drop_eq_nil_iff.mp hl0.symm
      have hlen1 := List.drop_eq_nil_iff.mp hl1.symm
      refine ⟨s, x.read, y.read, since, l, rfl, h.mono ?_ ?_, ⟨hx.read.2.2, hx.read.1⟩,
        hy.read.2.2, hy.read.1⟩
      · unfold place
        omega
      · intro row' col' hcol' hge hlt
        obtain ⟨rfl, hcol⟩ : row' = row ∧ col ≤ col' := by
          unfold place at hge hlt
          omega
        exact ⟨cell_of_length_le (hlen0.trans hcol), cell_of_length_le (hlen1.trans hcol)⟩
    · have hnot : ¬(x.read.c = newline ∧ y.read.c = newline) := fun hn =>
        hend ⟨hx.read_newline_iff.mp hn.1, hy.read_newline_iff.mp hn.2⟩
      rw [if_neg hnot]
      have hlen0 : l0.length = (line file0 row).length - col := by rw [hl0, List.length_drop]
      have hlen1 : l1.length = (line file1 row).length - col := by rw [hl1, List.length_drop]
      have hmore : l0.length ≠ 0 ∨ l1.length ≠ 0 := by
        rw [← not_and_or, List.length_eq_zero_iff, List.length_eq_zero_iff]
        exact hend
      obtain ⟨since', l', hdrawn⟩ := h.column stale hrow (by omega) hx hy hl0 hl1
      refine ih (by omega) hdrawn hx.read.2.2 hy.read.2.2 ?_ ?_ ?_ ?_
      · rw [hl0, List.tail_drop]
      · rw [hl1, List.tail_drop]
      · rw [List.length_tail]
        omega
      · rw [List.length_tail]
        omega

theorem headD_drop_lines (file : List UInt8) (row : ℕ) :
    ((file.splitOn newline).drop row).headD [] = line file row := by
  rw [line, List.headD_eq_head?_getD, List.head?_drop, List.getD_eq_getElem?_getD]

theorem cell_of_lines_le {file : List UInt8} (h : (file.splitOn newline).length ≤ row) (col : ℕ) :
    cell file row col = space := by
  apply cell_of_length_le
  rw [← headD_drop_lines, List.drop_eq_nil_of_le h]
  exact Nat.zero_le _

theorem line_length_le {file : List UInt8} (hcols : ∀ l ∈ file.splitOn newline, l.length ≤ 40)
    (row : ℕ) : (line file row).length ≤ 40 := by
  rw [line, List.getD_eq_getElem?_getD]
  cases hl : (file.splitOn newline)[row]? with
  | none => exact Nat.zero_le _
  | some l => exact hcols l (List.mem_of_getElem? hl)

/-- All rows, and the places behind them. -/
theorem Drawn.addRows (stale : Blink) (hfuel : 40 < fuel) (hrows0 : (file0.splitOn newline).length ≤ 25)
    (hrows1 : (file1.splitOn newline).length ≤ 25)
    (hcols0 : ∀ l ∈ file0.splitOn newline, l.length ≤ 40)
    (hcols1 : ∀ l ∈ file1.splitOn newline, l.length ≤ 40) :
    ∀ {n row : ℕ} {s : State} {since : BitVec 16 → Option (Blink × ℕ)} {l : List Slot} {x y : Side},
      Drawn file0 file1 screen (place row 0) s since l →
      Ahead x ((file0.splitOn newline).drop row) → Ahead y ((file1.splitOn newline).drop row) →
      25 < n + row → row ≤ 25 →
      ∃ s' since' l', Fish.addRows stale fuel n row s x y = some s' ∧
        Drawn file0 file1 screen (place 25 0) s' since' l' := by
  intro n
  induction n with
  | zero =>
    intro row s since l x y _ _ _ hn hle
    omega
  | succ n ih =>
    intro row s since l x y h hx hy hn hle
    have hmore : (x.eof = false ∨ y.eof = false) ↔
        row < (file0.splitOn newline).length ∨ row < (file1.splitOn newline).length := by
      rw [hx.eof_iff, hy.eof_iff, ne_eq, ne_eq, List.drop_eq_nil_iff, List.drop_eq_nil_iff, not_le,
        not_le]
    rw [Fish.addRows]
    split
    · rename_i heof
      rw [hmore] at heof
      have hrow : row < 25 := by omega
      have hx' := hx.at
      have hy' := hy.at
      rw [headD_drop_lines, List.tail_drop] at hx' hy'
      have hlen0 := line_length_le hcols0 row
      have hlen1 := line_length_le hcols1 row
      obtain ⟨s', x', y', since', l', heq, hdrawn, ⟨hat0, hc0⟩, hat1, hc1⟩ :=
        Drawn.addRow stale hrow hlen0 hlen1 (Nat.zero_le _) h hx' hy' rfl rfl
          (show (line file0 row).length < fuel by omega) (show (line file1 row).length < fuel by omega)
      rw [heq, Option.bind_some]
      exact ih hdrawn (hat0.endRow hc0) (hat1.endRow hc1) (by omega) hrow
    · rename_i heof
      rw [hmore] at heof
      refine ⟨s, since, l, rfl, h.mono ?_ ?_⟩
      · unfold place
        omega
      · intro row' col hcol hge _
        have hrow : row ≤ row' := by
          unfold place at hge
          omega
        exact ⟨cell_of_lines_le (by omega) col, cell_of_lines_le (by omega) col⟩

/-! ## The clock -/

/-- The tasklet draws at the places of the list only. -/
theorem vmem_foldl_tick {a : ℕ} (l : List Slot) :
    ∀ {s : State}, (∀ i ∈ l, a ≠ 2 * (s.array i).location.toNat) →
      (l.foldl State.tick s).vmem a = s.vmem a := by
  induction l with
  | nil => exact fun _ => rfl
  | cons i l ih =>
    intro s h
    rw [List.foldl_cons, ih, vmem_tick_ne s (h i List.mem_cons_self)]
    intro j hj
    rw [(same_tick s i).location]
    exact h j (List.mem_cons_of_mem i hj)

/-- `n` ticks. -/
theorem Animated.wait (hfuel : 2000 < fuel) (n : ℕ) :
    ∀ {s : State} {since : BitVec 16 → Option (Blink × ℕ)}, Animated s since l →
      ∃ s', s.wait fuel n = some s' ∧
        Animated s' (fun location => (since location).map fun w => (w.1, w.2 + n)) l ∧
        ∀ a, (∀ i ∈ l, a ≠ 2 * (s.array i).location.toNat) → s'.vmem a = s.vmem a := by
  induction n with
  | zero =>
    intro s since h
    refine ⟨s, rfl, ?_, fun _ _ => rfl⟩
    simpa using h
  | succ n ih =>
    intro s since h
    obtain ⟨s', hs', hanimated, hvmem⟩ := ih h.tasklet
    refine ⟨s', ?_, ?_, fun a ha => ?_⟩
    · rw [State.wait, h.rtcTasklet_eq hfuel, Option.bind_some, hs']
    · convert hanimated using 2 with location
      rw [Option.map_map]
      congr 1
      funext w
      show (w.1, w.2 + (n + 1)) = (w.1, w.2 + 1 + n)
      rw [Nat.add_right_comm, Nat.add_assoc]
    · rw [hvmem, vmem_foldl_tick l ha]
      intro i hi
      rw [(same_ticks l s).location]
      exact ha i hi

theorem Drawn.shown (h : Drawn file0 file1 screen (place 25 0) s since l) (hfuel : 2000 < fuel)
    (n : ℕ) :
    ∃ s', s.wait fuel n = some s' ∧
      (∀ row col, row < 25 → col < 40 → ¬Blank file0 file1 row col →
        s'.vmem (2 * place row col)
          = if n % 30 < 15 then cell file0 row col else cell file1 row col) ∧
      ∀ a, (∀ row col, col < 40 → ¬Blank file0 file1 row col → a ≠ 2 * place row col) →
        s'.vmem a = screen a := by
  obtain ⟨s', hs', hanimated, hvmem⟩ := h.toAnimated.wait hfuel n
  refine ⟨s', hs', fun row col hrow hcol hne => ?_, fun a ha => ?_⟩
  · have hp : place row col < 2000 := by
      unfold place
      omega
    have hp' : place row col < place 25 0 := by
      unfold place at *
      omega
    obtain ⟨b, hsince, hon, hoff, honLength, hoffLength⟩ := h.cells row col hcol hp' hne
    have hmap : (fun location => (since location).map fun w => (w.1, w.2 + n))
        (BitVec.ofNat 16 (place row col)) = some (b, n) := by
      dsimp only
      rw [hsince, Option.map_some, Nat.zero_add]
    obtain ⟨hlocation, i, -, hblinks⟩ := hanimated.blinks _ b n hmap
    have hticks : ticks 15 = 15 := by decide
    have hshown := hblinks.shown
    rw [hlocation, toNat_ofNat_place hp, Blink.char, Blink.phase, lit_phase, honLength, hoffLength,
      hticks, hon, hoff] at hshown
    simpa only [decide_eq_true_eq] using hshown
  · rw [hvmem a, h.others a ha]
    intro i hi
    obtain ⟨row, col, hcol, hne, hplace⟩ := h.placed i hi
    rw [hplace]
    exact ha row col hcol hne

theorem drawn_init (file0 file1 : List UInt8) (hhead : s.head = none)
    (hzero : ∀ i, s.array i = .zero) :
    Drawn file0 file1 s.vmem (place 0 0) s (fun _ => none) [] where
  visits := hhead
  nodup := List.nodup_nil
  taken i hi := absurd hi List.not_mem_nil
  apart i hi := absurd hi List.not_mem_nil
  blinks location b t hw := by cases hw
  below i hi := absurd hi List.not_mem_nil
  free i _ := by
    rw [hzero]
    rfl
  cells row col _ hlt _ := by
    unfold place at hlt
    omega
  placed i hi := absurd hi List.not_mem_nil
  others a _ := rfl

/-- Two files of at most 25 lines of at most 40 characters, where a line is what stands between two
newlines and a newline at the end begins one more: `add_frames` returns, and `n` ticks later every
place that is not blank in both of them shows the first file in the first half of each 30 ticks and
the second file in the other half. The rest of the screen has not changed. -/
theorem frames_alternate (hfuel : 2000 < fuel) (hhead : s.head = none)
    (hzero : ∀ i, s.array i = .zero) (hrows0 : (file0.splitOn newline).length ≤ 25)
    (hrows1 : (file1.splitOn newline).length ≤ 25)
    (hcols0 : ∀ l ∈ file0.splitOn newline, l.length ≤ 40)
    (hcols1 : ∀ l ∈ file1.splitOn newline, l.length ≤ 40) (stale : Blink) :
    ∃ s₁, addFrames fuel stale s file0 file1 = some s₁ ∧ ∀ n, ∃ s₂, s₁.wait fuel n = some s₂ ∧
      (∀ row col, col < 40 → ¬Blank file0 file1 row col →
        s₂.vmem (2 * place row col)
          = if n % 30 < 15 then cell file0 row col else cell file1 row col) ∧
      ∀ a, (∀ row col, col < 40 → ¬Blank file0 file1 row col → a ≠ 2 * place row col) →
        s₂.vmem a = s.vmem a := by
  obtain ⟨s₁, since, l, hs₁, hdrawn⟩ :=
    Drawn.addRows stale (show 40 < fuel by omega) hrows0 hrows1 hcols0 hcols1
      (drawn_init file0 file1 hhead hzero) (ahead_start file0) (ahead_start file1)
      (show 25 < fuel + 0 by omega) (Nat.zero_le _)
  refine ⟨s₁, hs₁, fun n => ?_⟩
  obtain ⟨s₂, hs₂, hcells, hothers⟩ := hdrawn.shown hfuel n
  refine ⟨s₂, hs₂, fun row col hcol hne => hcells row col ?_ hcol hne, hothers⟩
  by_contra hrow
  exact hne ⟨cell_of_lines_le (by omega) col, cell_of_lines_le (by omega) col⟩

/-- Two small frames; the second one has a shorter first line and a line less. -/
def sampleFrames : List UInt8 × List UInt8 :=
  ([0x3c, 0x20, 0x3e, 0x0a, 0x2f], [0x20, 0x28])

/-- The first line ends earlier in the second frame, so that its place goes blank there. -/
theorem frames_alternate_sample :
    ∃ s₁, addFrames 2001 (sampleBlink 0) cleared.state sampleFrames.1 sampleFrames.2 = some s₁ ∧
      (∃ s₂, s₁.wait 2001 14 = some s₂ ∧ s₂.vmem 84 = 0x3e) ∧
      ∃ s₂, s₁.wait 2001 200 = some s₂ ∧ s₂.vmem 84 = 0x20 ∧ s₂.vmem 82 = 0x28 := by
  have hcells : cell sampleFrames.1 0 2 = 0x3e ∧ cell sampleFrames.2 0 2 = space ∧
      cell sampleFrames.1 0 1 = space ∧ cell sampleFrames.2 0 1 = 0x28 := by decide +kernel
  obtain ⟨h₁, h₂, h₃, h₄⟩ := hcells
  have hne₂ : ¬Blank sampleFrames.1 sampleFrames.2 0 2 := by
    intro hblank
    exact absurd (h₁.symm.trans hblank.1) (by decide)
  have hne₁ : ¬Blank sampleFrames.1 sampleFrames.2 0 1 := by
    intro hblank
    exact absurd (h₄.symm.trans hblank.2) (by decide)
  obtain ⟨s₁, hs₁, hwait⟩ := frames_alternate (show 2000 < 2001 by decide)
    (show cleared.state.head = none from rfl) (fun _ => rfl)
    (show (sampleFrames.1.splitOn newline).length ≤ 25 by decide +kernel)
    (show (sampleFrames.2.splitOn newline).length ≤ 25 by decide +kernel)
    (by decide +kernel) (by decide +kernel) (sampleBlink 0)
  obtain ⟨s₂, hs₂, hshown, -⟩ := hwait 14
  obtain ⟨s₃, hs₃, hshown', -⟩ := hwait 200
  refine ⟨s₁, hs₁, ⟨s₂, hs₂, ?_⟩, s₃, hs₃, ?_, ?_⟩
  · exact (hshown 0 2 (by decide) hne₂).trans h₁
  · exact (hshown' 0 2 (by decide) hne₂).trans h₂
  · exact (hshown' 0 1 (by decide) hne₁).trans h₄

end Fish
end GalapagOS
