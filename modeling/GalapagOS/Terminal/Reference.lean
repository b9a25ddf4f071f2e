import GalapagOS.Terminal.Position

/-!
# A reference terminal for output

The reference terminal keeps 25 rows of 80 characters and a cursor, and moves all rows up each time
the cursor comes below the last one. `put_char_out` computes the cell of a character before it wraps
the row, and scrolls once when it is done with the byte. The two draw the same, except at one place:
when a byte comes while the cursor is behind the last cell of the last row, the character is drawn
below the screen, and a newline leaves the last row as it was. Whether that is seen when the output
is complete depends on what follows: the cells may be written over or scrolled off the screen.
-/

namespace GalapagOS
namespace Terminal

open Memory Function

variable {t : ℤ} {c : UInt8} {v : Vars} {page : ℕ → UInt8} {bytes : List UInt8}

/-! ## The terminal -/

/-- The characters on the screen, and the cursor. It may stand right behind the last column. -/
structure Reference where
  chars : Fin 25 → Fin 80 → UInt8
  x : Fin 81
  y : Fin 25

namespace Reference

/-- Column 0 of the next row; below the last row all rows move up. -/
def nextRow (r : Reference) : Reference :=
  if h : r.y.val + 1 < 25 then { r with x := 0, y := ⟨r.y + 1, h⟩ }
  else
    { chars := fun i j => if h : i.val + 1 < 25 then r.chars ⟨i + 1, h⟩ j else asciiSpace
      x := 0
      y := 24 }

/-- From behind the last column the cursor goes to the next row. -/
def wrap (r : Reference) : Reference := if r.x.val < 80 then r else r.nextRow

theorem nextRow_x (r : Reference) : r.nextRow.x = 0 := by
  unfold nextRow
  split <;> rfl

theorem wrap_x_lt (r : Reference) : r.wrap.x.val < 80 := by
  unfold wrap
  split
  · assumption
  · rw [nextRow_x]
    decide

/-- A character at the cursor. -/
def place (r : Reference) (hx : r.x.val < 80) (c : UInt8) : Reference :=
  { r with
    chars := update r.chars r.y (update (r.chars r.y) ⟨r.x, hx⟩ c)
    x := ⟨r.x + 1, by omega⟩ }

/-- One byte of output. -/
def byte (r : Reference) (c : UInt8) : Reference :=
  if c = newLineChar then r.wrap.nextRow else r.wrap.place r.wrap_x_lt c

/-- Some output; NULs are passed over. -/
def write (r : Reference) (bytes : List UInt8) : Reference :=
  (bytes.filter (· ≠ 0)).foldl byte r

/-- The cursor is behind the last cell of the screen. -/
def AtEnd (r : Reference) : Prop := r.x.val = 80 ∧ r.y.val = 24

instance (r : Reference) : Decidable r.AtEnd := inferInstanceAs (Decidable (_ ∧ _))

/-- One byte of output as `put_char_out` handles it. Behind the last cell a character is lost, and a
newline moves the rows up by two but leaves the last one as it is. -/
def putCharOut (r : Reference) (c : UInt8) : Reference :=
  if r.AtEnd then
    if c = newLineChar then
      { chars := fun i j =>
          if h : i.val + 2 < 25 then r.chars ⟨i + 2, h⟩ j
          else if i.val + 2 = 25 then asciiSpace else r.chars i j
        x := 0
        y := 24 }
    else
      { chars := fun i j => if h : i.val + 1 < 25 then r.chars ⟨i + 1, h⟩ j else asciiSpace
        x := 1
        y := 24 }
  else r.byte c

/-- Some output as `terminal_write` handles it. -/
def terminalWrite (r : Reference) (bytes : List UInt8) : Reference :=
  (bytes.filter (· ≠ 0)).foldl putCharOut r

/-- The rows that some output enters, from column `x` on. -/
def rows : ℕ → List UInt8 → ℕ
  | _, [] => 0
  | x, c :: cs =>
    if c = 0 then rows x cs
    else if c = newLineChar then (if x < 80 then 1 else 2) + rows 0 cs
    else if x < 80 then rows (x + 1) cs else 1 + rows 1 cs

/-- The characters that some output has before its first newline. -/
def rowLength (bytes : List UInt8) : ℕ :=
  ((bytes.filter (· ≠ 0)).takeWhile (· ≠ newLineChar)).length

/-- Some output from column `x` of the last row on moves the cell off the screen or writes over it. -/
def Covers (x : ℕ) (bytes : List UInt8) (i : Fin 25) (j : Fin 80) : Prop :=
  i.val < rows x bytes ∨ i.val = 24 ∧ x ≤ j.val ∧ j.val < x + rowLength bytes

instance (x : ℕ) (bytes : List UInt8) (i : Fin 25) (j : Fin 80) : Decidable (Covers x bytes i j) :=
  inferInstanceAs (Decidable (_ ∨ _))

/-- What a byte behind the last cell leaves wrong is covered by the output that follows: the cell of
the lost character, unless that is a space, or what the last row holds. -/
def Hidden (r : Reference) (c : UInt8) (bytes : List UInt8) : Prop :=
  if c = newLineChar then ∀ j, r.chars 24 j ≠ asciiSpace → Covers 0 bytes 24 j
  else c ≠ asciiSpace → Covers 1 bytes 24 0

instance (r : Reference) (c : UInt8) (bytes : List UInt8) : Decidable (r.Hidden c bytes) :=
  inferInstanceAs (Decidable (if c = newLineChar then _ else _))

/-- Each byte that comes when the cursor is behind the last cell is hidden by those after it. -/
def Faithful : Reference → List UInt8 → Prop
  | _, [] => True
  | r, c :: cs =>
    if c = 0 then r.Faithful cs else (r.AtEnd → r.Hidden c cs) ∧ (r.putCharOut c).Faithful cs

instance decidableFaithful : ∀ (r : Reference) (cs : List UInt8), Decidable (r.Faithful cs)
  | _, [] => inferInstanceAs (Decidable True)
  | r, c :: cs =>
    have := decidableFaithful r cs
    have := decidableFaithful (r.putCharOut c) cs
    inferInstanceAs (Decidable (if c = 0 then _ else _ ∧ _))

end Reference

variable {r : Reference}

/-! ## The characters of a page -/

/-- The characters of the cells of the screen. -/
def cells (page : ℕ → UInt8) : Fin 25 → Fin 80 → UInt8 := fun i j => page (2 * (80 * i + j))

/-- The page and the variables show what is on the reference terminal. -/
structure Shows (page : ℕ → UInt8) (v : Vars) (r : Reference) : Prop where
  chars : cells page = r.chars
  x : v.currX = r.x.val
  y : v.currY = r.y.val

/-- What is on the screen, as a reference terminal. -/
def screenOf (page : ℕ → UInt8) (v : Vars) (h : InRange v) : Reference where
  chars := cells page
  x := ⟨v.currX.toNat, by unfold InRange at h; omega⟩
  y := ⟨v.currY.toNat, by unfold InRange at h; omega⟩

theorem shows_screenOf (h : InRange v) : Shows page v (screenOf page v h) where
  chars := rfl
  x := by
    unfold InRange at h
    show v.currX = (v.currX.toNat : ℤ)
    omega
  y := by
    unfold InRange at h
    show v.currY = (v.currY.toNat : ℤ)
    omega

theorem Shows.eq {r' : Reference} (h : Shows page v r) (h' : Shows page v r') : r = r' := by
  have hx : r.x = r'.x := Fin.ext (by have := h.x; have := h'.x; omega)
  have hy : r.y = r'.y := Fin.ext (by have := h.y; have := h'.y; omega)
  calc r = ⟨r.chars, r.x, r.y⟩ := rfl
    _ = ⟨r'.chars, r'.x, r'.y⟩ := by rw [← h.chars, h'.chars, hx, hy]

theorem cellOffset_natCast {n : ℕ} (hn : n < 2 ^ 31) : cellOffset n = 2 * n := by
  unfold cellOffset
  omega

/-- A cell is drawn: its character, and an attribute that is no character. -/
theorem applyAll_cellOps {n : ℕ} (hn : n < 2 ^ 31) (t : ℤ) (c : UInt8) (page : ℕ → UInt8) (m : ℕ) :
    applyAll (cellOps t n c) page (2 * m) = if m = n then c else page (2 * m) := by
  have hodd : 2 * m ≠ 2 * n + 1 := by omega
  have hwrite : place (2 * n) [c] page (2 * m) = if m = n then c else page (2 * m) := by
    show update page (2 * n) c (2 * m) = _
    rw [update_apply]
    by_cases hm : m = n
    · rw [if_pos (by omega), if_pos hm]
    · rw [if_neg (by omega), if_neg hm]
  unfold cellOps
  rw [cellOffset_natCast hn]
  cases fore t with
  | none =>
    show update (place (2 * n) [c] page) (2 * n + 1) _ (2 * m) = _
    rw [update_of_ne hodd, hwrite]
  | some f =>
    show update (update (place (2 * n) [c] page) (2 * n + 1) _) (2 * n + 1) _ (2 * m) = _
    rw [update_of_ne hodd, update_of_ne hodd, hwrite]

/-- `m` rows move up by `n`. -/
theorem scrollOps_eq (t : ℤ) {n m : ℕ} (h : n + m = 25) :
    scrollOps t n = memcpy 0 (160 * n) (160 * m) ++
      memsetWord (160 * m) asciiSpace ((fore t).getD 0) 80 := by
  have hheight : height - n = m := by
    unfold height
    omega
  have hsrc : ((n : ℤ) * width * 2 % 2 ^ 32).toNat = 160 * n := by
    unfold width
    omega
  have hlen : ((m : ℤ) * width * 2 % 2 ^ 32).toNat = 160 * m := by
    unfold width
    omega
  have hfill : (2 * (m : ℤ) * width % 2 ^ 32).toNat = 160 * m := by
    unfold width
    omega
  rw [scrollOps, hheight, hsrc, hlen, hfill]

/-- The screen moves up by `n` rows, and the first of the rows that come in is filled. -/
theorem cells_scrollOps (t : ℤ) {n : ℕ} (hn : 0 < n ∧ n ≤ 25) (page : ℕ → UInt8) (i : Fin 25)
    (j : Fin 80) :
    cells (applyAll (scrollOps t n) page) i j
      = if h : i.val + n < 25 then cells page ⟨i + n, h⟩ j
        else if i.val + n = 25 then asciiSpace else cells page i j := by
  obtain ⟨m, hm⟩ : ∃ m, n + m = 25 := ⟨25 - n, by omega⟩
  unfold cells
  rw [scrollOps_eq t hm, applyAll_append, applyAll_memsetWord,
    applyAll_memcpy (.inl (Nat.zero_le _)), apply_move]
  by_cases hmoved : i.val + n < 25
  · rw [dif_pos hmoved, if_neg (by omega), if_pos (by omega)]
    congr 1
    dsimp only
    omega
  · rw [dif_neg hmoved]
    by_cases hfilled : i.val + n = 25
    · rw [if_pos hfilled, if_pos (by omega), if_pos (by omega)]
    · rw [if_neg hfilled, if_neg (by omega), if_neg (by omega)]

/-! ## One byte -/

/-- The page after a driver function. -/
def drawn (f : Action) (page : ℕ → UInt8) (v : Vars) : ℕ → UInt8 := applyAll (screenOps (f v).2) page

theorem screenOps_screen (ops : List (Op UInt8)) (es : List Effect) :
    screenOps (.screen ops :: es) = ops ++ screenOps es :=
  rfl

theorem drawn_seq (f g : Action) (page : ℕ → UInt8) (v : Vars) :
    drawn (f.seq g) page v = drawn g (drawn f page v) (f v).1 := by
  show applyAll (screenOps ((f v).2 ++ (g (f v).1).2)) page = _
  rw [screenOps, List.flatMap_append, applyAll_append]
  rfl

/-- The first statement of `put_char_out`. -/
def wrapOut : Action :=
  Action.when (fun v => width ≤ v.currX) (Action.seq (fun v => (v, [.linestart 0])) wrapLine)

/-- The last statement of `put_char_out`. -/
def scrollOut (t : ℤ) : Action := Action.when (fun v => height ≤ v.currY) (scrollLine t)

theorem putCharOut_eq (t : ℤ) (c : UInt8) (v : Vars) :
    putCharOut t c v
      = wrapOut.seq ((drawChar t c (index v.currX v.currY)).seq (scrollOut t)) v :=
  rfl

/-- The rows below the screen are scrolled in. -/
theorem scrollOut_of_below {n : ℕ} (hn : 0 < n) (hv : v.currY = 24 + n) (t : ℤ)
    (page : ℕ → UInt8) :
    drawn (scrollOut t) page v = applyAll (scrollOps t n) page ∧
      (scrollOut t v).1 = { v with currY := 24 } := by
  have hf : scrollOut t v = scrollLine t v := if_pos (by unfold height; omega)
  have hrows : v.currY - height + 1 = n := by
    unfold height
    omega
  constructor
  · rw [drawn, hf, scrollLine, hrows, screenOps_screen]
    exact congrArg (applyAll · page) (List.append_nil _)
  · rw [hf]
    rfl

/-- The row is wrapped, unless it is the last one. The cell of the character stays the same. -/
theorem Shows.wrap (h : Shows page v r) (hr : ¬r.AtEnd) :
    Shows (drawn wrapOut page v) (wrapOut v).1 r.wrap ∧
      index (wrapOut v).1.currX (wrapOut v).1.currY = index v.currX v.currY := by
  have hx := h.x
  have hy := h.y
  have hx' := r.x.isLt
  by_cases hwrap : width ≤ v.currX
  · have hf : wrapOut v = ({ v with currX := 0, currY := v.currY + 1 },
        [.linestart 0, .cursor (v.currY + 1) 0]) := if_pos hwrap
    unfold width at hwrap
    have hrow : r.y.val + 1 < 25 := by
      unfold Reference.AtEnd at hr
      have := r.y.isLt
      omega
    have hr' : r.wrap = { r with x := 0, y := ⟨r.y + 1, hrow⟩ } := by
      unfold Reference.wrap Reference.nextRow
      rw [if_neg (by omega), dif_pos hrow]
    rw [hr', drawn, hf]
    refine ⟨⟨h.chars, rfl, ?_⟩, ?_⟩
    · show v.currY + 1 = ((r.y.val + 1 : ℕ) : ℤ)
      omega
    · unfold index width
      dsimp only
      omega
  · have hf : wrapOut v = (v, []) := if_neg hwrap
    unfold width at hwrap
    have hr' : r.wrap = r := if_pos (by omega)
    rw [hr', drawn, hf]
    exact ⟨h, rfl⟩

/-- The cursor goes to the next row, and the screen is scrolled when there is none. -/
theorem Shows.nextRow (h : Shows page v r) (t : ℤ) {v' : Vars} (hx : v'.currX = 0)
    (hy : v'.currY = v.currY + 1) :
    Shows (drawn (scrollOut t) page v') (scrollOut t v').1 r.nextRow := by
  have hrow := h.y
  by_cases hscroll : height ≤ v'.currY
  · unfold height at hscroll
    have hlt := r.y.isLt
    obtain ⟨hpage, hvars⟩ := scrollOut_of_below (n := 1) (v := v') Nat.one_pos (by omega) t page
    have hr : r.nextRow = ⟨_, _, _⟩ := dif_neg (by omega)
    rw [hr, hpage, hvars]
    refine ⟨?_, hx, rfl⟩
    funext i j
    rw [cells_scrollOps t (by decide), h.chars]
    show _ = if h : i.val + 1 < 25 then r.chars ⟨i + 1, h⟩ j else asciiSpace
    by_cases hi : i.val + 1 < 25
    · rw [dif_pos hi, dif_pos hi]
    · rw [dif_neg hi, dif_neg hi, if_pos (by omega)]
  · have hf : scrollOut t v' = (v', []) := if_neg hscroll
    unfold height at hscroll
    have hr : r.nextRow = { r with x := 0, y := ⟨r.y + 1, by omega⟩ } := dif_pos (by omega)
    rw [hr, drawn, hf]
    refine ⟨h.chars, hx, ?_⟩
    show v'.currY = ((r.y.val + 1 : ℕ) : ℤ)
    omega

/-- A character is drawn at the cursor, and the cursor stays on its row. -/
theorem Shows.place (h : Shows page v r) (hx : r.x.val < 80) (hc : c ≠ newLineChar) (t : ℤ) :
    let f := (drawChar t c (index v.currX v.currY)).seq (scrollOut t)
    Shows (drawn f page v) (f v).1 (r.place hx c) := by
  have hvx := h.x
  have hvy := h.y
  have hry := r.y.isLt
  have hindex : index v.currX v.currY = ((80 * r.y.val + r.x.val : ℕ) : ℤ) := by
    unfold index width
    omega
  have hstay : scrollOut t { v with currX := v.currX + 1, linelength := v.linelength + 1 }
      = ({ v with currX := v.currX + 1, linelength := v.linelength + 1 }, []) := by
    refine if_neg ?_
    unfold height
    dsimp only
    omega
  intro f
  have hf : f v = ({ v with currX := v.currX + 1, linelength := v.linelength + 1 },
      [.screen (cellOps t (80 * r.y.val + r.x.val : ℕ) c), .linestart (v.currX + 1),
        .cursor v.currY (v.currX + 1)]) := by
    show Action.seq (drawChar t c (index v.currX v.currY)) (scrollOut t) v = _
    rw [hindex, Action.seq, drawChar, if_neg hc]
    dsimp only
    rw [hstay]
    rfl
  have hpage : drawn f page v = applyAll (cellOps t (80 * r.y.val + r.x.val : ℕ) c) page := by
    rw [drawn, hf, screenOps_screen]
    exact congrArg (applyAll · page) (List.append_nil _)
  rw [hpage, hf]
  refine ⟨?_, ?_, hvy⟩
  · funext i j
    unfold cells
    rw [applyAll_cellOps (by omega), show page (2 * (80 * i + j)) = r.chars i j from
      congrFun (congrFun h.chars i) j]
    -- one cell of one row changes
    by_cases hi : i = r.y
    · by_cases hj : j.val = r.x.val
      · rw [if_pos (by omega), hi, show j = ⟨r.x, hx⟩ from Fin.ext hj]
        show c = update r.chars r.y _ r.y _
        rw [update_self, update_self]
      · rw [if_neg (by omega), hi]
        show _ = update r.chars r.y _ r.y j
        rw [update_self, update_of_ne (fun he => hj (congrArg Fin.val he))]
    · rw [if_neg (fun he => hi (Fin.ext (by omega)))]
      show _ = update r.chars r.y _ i j
      rw [update_of_ne hi]
  · show v.currX + 1 = ((r.x.val + 1 : ℕ) : ℤ)
    omega

/-- A byte that does not come behind the last cell. -/
theorem Shows.byte (h : Shows page v r) (hr : ¬r.AtEnd) (t : ℤ) (c : UInt8) :
    Shows (drawn (putCharOut t c) page v) (putCharOut t c v).1 (r.byte c) := by
  obtain ⟨hwrapped, hindex⟩ := h.wrap hr
  have hpage : drawn (putCharOut t c) page v = drawn
      (wrapOut.seq ((drawChar t c (index v.currX v.currY)).seq (scrollOut t))) page v := rfl
  rw [hpage, putCharOut_eq, drawn_seq, Reference.byte, ← hindex]
  generalize drawn wrapOut page v = page₁ at *
  show Shows _ (Action.seq _ _ (wrapOut v).1).1 _
  generalize (wrapOut v).1 = v₁ at *
  by_cases hc : c = newLineChar
  · -- nothing is drawn, and the cursor goes down
    have hdraw : drawChar t c (index v₁.currX v₁.currY) v₁ = (⟨0, 0, v₁.currY + 1⟩,
        [.cursor (v₁.currY + 1) 0]) := if_pos hc
    have hsame : drawn (drawChar t c (index v₁.currX v₁.currY)) page₁ v₁ = page₁ := by
      rw [drawn, hdraw]
      rfl
    rw [if_pos hc, drawn_seq, hsame]
    refine hwrapped.nextRow t ?_ ?_ <;> rw [hdraw]
  · rw [if_neg hc]
    exact hwrapped.place r.wrap_x_lt hc t

/-! ## Behind the last cell -/

/-- The row below the screen is entered before the byte is handled. -/
theorem drawn_corner (hx : v.currX = 80) (hy : v.currY = 24) (t : ℤ) (c : UInt8)
    (page : ℕ → UInt8) :
    let f := (drawChar t c 2000).seq (scrollOut t)
    drawn (putCharOut t c) page v = drawn f page ⟨v.linelength, 0, 25⟩ ∧
      (putCharOut t c v).1 = (f ⟨v.linelength, 0, 25⟩).1 := by
  have hf : wrapOut v = (⟨v.linelength, 0, 25⟩, [.linestart 0, .cursor 25 0]) := by
    rw [wrapOut, Action.when, if_pos (by rw [hx]; decide)]
    show (({ v with currX := 0, currY := v.currY + 1 } : Vars),
      [Effect.linestart 0, .cursor (v.currY + 1) 0]) = _
    rw [hy]
    rfl
  have hindex : index v.currX v.currY = 2000 := by
    rw [hx, hy]
    rfl
  intro f
  constructor
  · show drawn (wrapOut.seq ((drawChar t c (index v.currX v.currY)).seq (scrollOut t))) page v = _
    rw [hindex, drawn_seq]
    show drawn _ (applyAll (screenOps (wrapOut v).2) page) (wrapOut v).1 = _
    rw [hf]
    rfl
  · rw [putCharOut_eq, hindex]
    show (f (wrapOut v).1).1 = _
    rw [hf]

/-- A character is drawn below the screen, and the row that comes in is blank. -/
theorem Shows.lost (h : Shows page v r) (hr : r.AtEnd) (hc : c ≠ newLineChar) (t : ℤ) :
    Shows (drawn (putCharOut t c) page v) (putCharOut t c v).1 (r.putCharOut c) := by
  have hdraw : drawChar t c 2000 ⟨v.linelength, 0, 25⟩ = (⟨v.linelength + 1, 1, 25⟩,
      [.screen (cellOps t 2000 c), .linestart 1, .cursor 25 1]) := if_neg hc
  have hcell : cells (drawn (drawChar t c 2000) page ⟨v.linelength, 0, 25⟩) = r.chars := by
    rw [drawn, hdraw, screenOps_screen]
    funext i j
    show applyAll (cellOps t (2000 : ℕ) c ++ []) page (2 * (80 * i + j)) = _
    rw [List.append_nil, applyAll_cellOps (by decide), if_neg (by omega)]
    exact congrFun (congrFun h.chars i) j
  obtain ⟨hpage, hvars⟩ := drawn_corner (by rw [h.x, hr.1]; rfl) (by rw [h.y, hr.2]; rfl) t c page
  have hscroll := scrollOut_of_below (v := (drawChar t c 2000 ⟨v.linelength, 0, 25⟩).1) Nat.one_pos
    (by rw [hdraw]; rfl) t (drawn (drawChar t c 2000) page ⟨v.linelength, 0, 25⟩)
  have hvars' : (putCharOut t c v).1 = ⟨v.linelength + 1, 1, 24⟩ := by
    rw [hvars]
    show (scrollOut t (drawChar t c 2000 ⟨v.linelength, 0, 25⟩).1).1 = _
    rw [hscroll.2, hdraw]
  rw [hvars', Reference.putCharOut, if_pos hr, if_neg hc]
  refine ⟨?_, rfl, rfl⟩
  rw [hpage, drawn_seq, hscroll.1]
  funext i j
  rw [cells_scrollOps t (by decide), hcell]
  dsimp only
  by_cases hi : i.val + 1 < 25
  · rw [dif_pos hi, dif_pos hi]
  · rw [dif_neg hi, dif_neg hi, if_pos (by omega)]

/-- A newline scrolls two rows, and the last row stays. -/
theorem Shows.kept (h : Shows page v r) (hr : r.AtEnd) (t : ℤ) :
    Shows (drawn (putCharOut t newLineChar) page v) (putCharOut t newLineChar v).1
      (r.putCharOut newLineChar) := by
  obtain ⟨hpage, hvars⟩ := drawn_corner (by rw [h.x, hr.1]; rfl) (by rw [h.y, hr.2]; rfl) t
    newLineChar page
  have hscroll := scrollOut_of_below (v := (drawChar t newLineChar 2000 ⟨v.linelength, 0, 25⟩).1)
    Nat.two_pos rfl t (drawn (drawChar t newLineChar 2000) page ⟨v.linelength, 0, 25⟩)
  have hvars' : (putCharOut t newLineChar v).1 = ⟨0, 0, 24⟩ := by
    rw [hvars]
    show (scrollOut t (drawChar t newLineChar 2000 ⟨v.linelength, 0, 25⟩).1).1 = _
    rw [hscroll.2]
    rfl
  rw [hvars', Reference.putCharOut, if_pos hr, if_pos rfl]
  refine ⟨?_, rfl, rfl⟩
  rw [hpage, drawn_seq, hscroll.1]
  funext i j
  rw [cells_scrollOps t (by decide)]
  show dite (i.val + 2 < 25) (fun hi => cells page ⟨i + 2, hi⟩ j)
    (fun _ => if i.val + 2 = 25 then asciiSpace else cells page i j) = _
  rw [h.chars]

/-- `put_char_out` on the page is the byte on the screen. -/
theorem Shows.putCharOut (h : Shows page v r) (t : ℤ) (c : UInt8) :
    Shows (drawn (putCharOut t c) page v) (putCharOut t c v).1 (r.putCharOut c) := by
  by_cases hr : r.AtEnd
  · by_cases hc : c = newLineChar
    · rw [hc]
      exact h.kept hr t
    · exact h.lost hr hc t
  · rw [Reference.putCharOut, if_neg hr]
    exact h.byte hr t c

/-! ## The output -/

theorem Reference.write_cons (r : Reference) (c : UInt8) (cs : List UInt8) :
    r.write (c :: cs) = if c = 0 then r.write cs else (r.byte c).write cs := by
  unfold Reference.write
  by_cases hc : c = 0
  · rw [if_pos hc, List.filter_cons_of_neg (by simpa using hc)]
  · rw [if_neg hc, List.filter_cons_of_pos (by simpa using hc), List.foldl_cons]

theorem Reference.terminalWrite_cons (r : Reference) (c : UInt8) (cs : List UInt8) :
    r.terminalWrite (c :: cs)
      = if c = 0 then r.terminalWrite cs else (r.putCharOut c).terminalWrite cs := by
  unfold Reference.terminalWrite
  by_cases hc : c = 0
  · rw [if_pos hc, List.filter_cons_of_neg (by simpa using hc)]
  · rw [if_neg hc, List.filter_cons_of_pos (by simpa using hc), List.foldl_cons]

theorem drawn_terminalWrite (hc : c ≠ 0) (t : ℤ) (cs : List UInt8) (page : ℕ → UInt8) (v : Vars) :
    drawn (terminalWrite t (c :: cs)) page v
      = drawn (terminalWrite t cs) (drawn (putCharOut t c) page v) (putCharOut t c v).1 := by
  rw [terminalWrite, if_neg hc, drawn_seq]

theorem Shows.terminalWrite (t : ℤ) (bytes : List UInt8) :
    ∀ {page v r}, Shows page v r →
      Shows (drawn (terminalWrite t bytes) page v) (terminalWrite t bytes v).1
        (r.terminalWrite bytes) := by
  induction bytes with
  | nil => exact fun h => ⟨h.chars, h.x, h.y⟩
  | cons c bytes ih =>
    intro page v r h
    rw [Reference.terminalWrite_cons]
    by_cases hc : c = 0
    · rw [if_pos hc, Terminal.terminalWrite, if_pos hc]
      exact ih h
    · rw [if_neg hc, drawn_terminalWrite hc, Terminal.terminalWrite, if_neg hc]
      exact ih (h.putCharOut t c)

/-! ## When the two agree in the end -/

namespace Reference

variable {q : Reference} {cs : List UInt8} {x n : ℕ} {i : Fin 25} {j : Fin 80}

theorem ext_chars (hx : q.x = r.x) (hy : q.y = r.y) (hchars : ∀ i j, q.chars i j = r.chars i j) :
    q = r := by
  obtain ⟨chars, x, y⟩ := q
  obtain rfl : x = r.x := hx
  obtain rfl : y = r.y := hy
  congr
  funext i j
  exact hchars i j

theorem rowLength_cons (hc : c ≠ 0) :
    rowLength (c :: cs) = if c = newLineChar then 0 else rowLength cs + 1 := by
  unfold rowLength
  rw [List.filter_cons_of_pos (by simpa using hc), List.takeWhile_cons]
  by_cases hn : c = newLineChar <;> simp [hn]

theorem covers_zero : Covers x (0 :: cs) i j ↔ Covers x cs i j := by
  have hlen : rowLength (0 :: cs) = rowLength cs := by
    unfold rowLength
    rw [List.filter_cons_of_neg (by simp)]
  unfold Covers
  rw [hlen, rows, if_pos rfl]

/-- A character on the row covers its own cell. -/
theorem covers_char (hc : c ≠ 0) (hn : c ≠ newLineChar) (hx : x < 80) :
    Covers x (c :: cs) i j ↔ (i.val = 24 ∧ j.val = x) ∨ Covers (x + 1) cs i j := by
  unfold Covers
  rw [rowLength_cons hc, if_neg hn, rows, if_neg hc, if_neg hn, if_pos hx]
  omega

/-- A byte that enters rows covers only what is scrolled off. -/
theorem covers_enter (hc : c ≠ 0) (h : c = newLineChar ∨ ¬x < 80) (hrows : rows x (c :: cs) = n) :
    Covers x (c :: cs) i j ↔ i.val < n := by
  unfold Covers
  rw [rowLength_cons hc, hrows]
  rcases h with h | h
  · rw [if_pos h]
    omega
  · omega

/-- All rows move up by `n`; the rows that come in are given. -/
def shift (r : Reference) (n : ℕ) (rest : Fin 25 → Fin 80 → UInt8) : Fin 25 → Fin 80 → UInt8 :=
  fun i j => if h : i.val + n < 25 then r.chars ⟨i + n, h⟩ j else rest i j

/-- The differences between two screens move up with their rows, and those of the new rows are added. -/
theorem shift_covers_iff {f g : Fin 25 → Fin 80 → UInt8} (hn : 0 < n) :
    (∀ i j, q.shift n f i j ≠ r.shift n g i j → Covers x cs i j) ↔
      (∀ i j, q.chars i j ≠ r.chars i j → i.val < n + rows x cs) ∧
        ∀ i j, 25 ≤ i.val + n → f i j ≠ g i j → Covers x cs i j := by
  constructor
  · intro h
    constructor
    · intro i j hij
      by_cases hi : i.val < n
      · omega
      · -- the cell has moved up by `n`, and is not on the last row
        have hlt : i.val - n + n < 25 := by omega
        have hcell : (⟨i.val - n + n, hlt⟩ : Fin 25) = i := Fin.ext (by simp; omega)
        have hcov := h ⟨i.val - n, by omega⟩ j (by
          unfold shift
          rw [dif_pos hlt, dif_pos hlt]
          simpa only [hcell] using hij)
        unfold Covers at hcov
        dsimp only at hcov
        omega
    · intro i j hi hij
      refine h i j ?_
      unfold shift
      rwa [dif_neg (by omega), dif_neg (by omega)]
  · rintro ⟨hold, hnew⟩ i j hij
    unfold shift at hij
    by_cases hi : i.val + n < 25
    · rw [dif_pos hi, dif_pos hi] at hij
      have := hold _ j hij
      dsimp only at this
      exact .inl (by omega)
    · rw [dif_neg hi, dif_neg hi] at hij
      exact hnew i j (by omega) hij

/-- A byte on the last row, before the last column is filled. -/
theorem byte_char (hy : r.y = 24) (hx : r.x.val < 80) (hn : c ≠ newLineChar) :
    r.byte c = ⟨update r.chars 24 (update (r.chars 24) ⟨r.x, hx⟩ c), ⟨r.x + 1, by omega⟩, 24⟩ := by
  have hwrap : r.wrap = r := if_pos hx
  have hplace : ∀ (r' : Reference) (hr' : r'.x.val < 80), r' = r → r'.place hr' c = r.place hx c := by
    rintro _ _ rfl
    rfl
  rw [byte, if_neg hn, hplace _ _ hwrap, place, hy]

theorem nextRow_last (hy : r.y = 24) : r.nextRow = ⟨r.shift 1 fun _ _ => asciiSpace, 0, 24⟩ :=
  dif_neg (by rw [hy]; decide)

theorem byte_newline (hy : r.y = 24) (hx : r.x.val < 80) :
    r.byte newLineChar = ⟨r.shift 1 fun _ _ => asciiSpace, 0, 24⟩ := by
  have hwrap : r.wrap = r := if_pos hx
  rw [byte, if_pos rfl, hwrap, nextRow_last hy]

/-- Behind the last cell the rows move up for the character. -/
theorem byte_char_atEnd (hr : r.AtEnd) (hn : c ≠ newLineChar) :
    r.byte c = ⟨r.shift 1 fun _ j => if j = 0 then c else asciiSpace, 1, 24⟩ := by
  have hwrap : r.wrap = ⟨r.shift 1 fun _ _ => asciiSpace, 0, 24⟩ :=
    (if_neg (by rw [hr.1]; decide)).trans (nextRow_last (Fin.ext hr.2))
  have hplace : ∀ (r' : Reference) (hr' : r'.x.val < 80), r' = ⟨r.shift 1 fun _ _ => asciiSpace, 0, 24⟩ →
      r'.place hr' c = ⟨r.shift 1 fun _ j => if j = 0 then c else asciiSpace, 1, 24⟩ := by
    rintro _ _ rfl
    refine ext_chars rfl rfl fun i j => ?_
    let chars := r.shift 1 fun _ _ => asciiSpace
    show update chars 24 (update (chars 24) 0 c) i j = _
    by_cases hi : i = 24
    · rw [hi, update_self]
      show update (chars 24) 0 c j = if j = 0 then c else asciiSpace
      by_cases hj : j = 0
      · rw [hj, update_self, if_pos rfl]
      · rw [update_of_ne hj, if_neg hj]
        rfl
    · have hlt : i.val + 1 < 25 := by
        have := Fin.val_ne_of_ne hi
        change i.val ≠ 24 at this
        omega
      rw [update_of_ne hi]
      show dite _ _ _ = dite _ _ _
      rw [dif_pos hlt, dif_pos hlt]
  rw [byte, if_neg hn]
  exact hplace _ _ hwrap

/-- Behind the last cell a newline moves the rows up twice. -/
theorem byte_newline_atEnd (hr : r.AtEnd) :
    r.byte newLineChar = ⟨r.shift 2 fun _ _ => asciiSpace, 0, 24⟩ := by
  have hwrap : r.wrap = ⟨r.shift 1 fun _ _ => asciiSpace, 0, 24⟩ :=
    (if_neg (by rw [hr.1]; decide)).trans (nextRow_last (Fin.ext hr.2))
  rw [byte, if_pos rfl, hwrap, nextRow_last rfl]
  refine ext_chars rfl rfl fun i j => ?_
  unfold shift
  dsimp only
  by_cases hi : i.val + 2 < 25
  · rw [dif_pos hi, dif_pos (by omega), dif_pos (by omega)]
  · rw [dif_neg hi]
    split_ifs <;> rfl

theorem putCharOut_char_atEnd (hr : r.AtEnd) (hn : c ≠ newLineChar) :
    r.putCharOut c = ⟨r.shift 1 fun _ _ => asciiSpace, 1, 24⟩ := by
  rw [putCharOut, if_pos hr, if_neg hn]
  rfl

theorem putCharOut_newline_atEnd (hr : r.AtEnd) : r.putCharOut newLineChar
    = ⟨r.shift 2 fun i j => if i.val + 2 = 25 then asciiSpace else r.chars i j, 0, 24⟩ := by
  rw [putCharOut, if_pos hr, if_pos rfl]
  rfl

/-- Two screens with the cursor at one place of the last row. -/
structure Abreast (q r : Reference) : Prop where
  x : q.x = r.x
  left : q.y = 24
  right : r.y = 24

/-- The cells in which two screens differ are covered. -/
def Mends (q r : Reference) (cs : List UInt8) : Prop :=
  ∀ i j, q.chars i j ≠ r.chars i j → Covers q.x cs i j

/-- On the row the two handle a character in the same way. -/
theorem Abreast.char (h : Abreast q r) (hc : c ≠ 0) (hn : c ≠ newLineChar) (hx : q.x.val < 80) :
    Abreast (q.byte c) (r.byte c) ∧ (Mends (q.byte c) (r.byte c) cs ↔ Mends q r (c :: cs)) := by
  have hx' : r.x.val < 80 := h.x ▸ hx
  have hpos : (⟨r.x.val, hx'⟩ : Fin 80) = ⟨q.x.val, hx⟩ :=
    Fin.ext (show r.x.val = q.x.val by rw [h.x])
  rw [byte_char h.left hx hn, byte_char h.right hx' hn, hpos]
  refine ⟨⟨Fin.ext (by simp [h.x]), rfl, rfl⟩, forall_congr' fun i => forall_congr' fun j => ?_⟩
  rw [covers_char hc hn hx]
  dsimp only
  by_cases hi : i = 24
  · subst hi
    rw [update_self, update_self]
    by_cases hj : j = ⟨q.x, hx⟩
    · subst hj
      rw [update_self, update_self]
      exact ⟨fun _ _ => .inl ⟨rfl, rfl⟩, fun _ hij => absurd rfl hij⟩
    · have hne : j.val ≠ q.x.val := fun h => hj (Fin.ext h)
      rw [update_of_ne hj, update_of_ne hj]
      simp [hne]
  · have hne : i.val ≠ 24 := fun h => hi (Fin.ext h)
    rw [update_of_ne hi, update_of_ne hi]
    simp [hne]

/-- So do they with a newline. -/
theorem Abreast.newline (h : Abreast q r) (hx : q.x.val < 80) :
    Abreast (q.byte newLineChar) (r.byte newLineChar) ∧
      (Mends (q.byte newLineChar) (r.byte newLineChar) cs ↔ Mends q r (newLineChar :: cs)) := by
  have hrows : rows q.x (newLineChar :: cs) = 1 + rows 0 cs := by
    rw [rows, if_neg (by decide), if_pos rfl, if_pos hx]
  rw [byte_newline h.left hx, byte_newline h.right (h.x ▸ hx)]
  refine ⟨⟨rfl, rfl, rfl⟩, (shift_covers_iff Nat.one_pos).trans ?_⟩
  refine (and_iff_left fun i j _ hij => absurd rfl hij).trans ?_
  exact forall_congr' fun i => forall_congr' fun j => imp_congr_right fun _ =>
    (covers_enter (by decide) (.inl rfl) hrows).symm

/-- Behind the last cell a character is missing. -/
theorem Abreast.char_atEnd (h : Abreast q r) (hc : c ≠ 0) (hn : c ≠ newLineChar) (hq : q.AtEnd) :
    Abreast (q.putCharOut c) (r.byte c) ∧ (Mends (q.putCharOut c) (r.byte c) cs ↔
      Mends q r (c :: cs) ∧ q.Hidden c cs) := by
  have hx : ¬q.x.val < 80 := by rw [hq.1]; decide
  have hr : r.AtEnd := ⟨by rw [← h.x, hq.1], by rw [h.right]; rfl⟩
  have hrows : rows q.x (c :: cs) = 1 + rows 1 cs := by
    rw [rows, if_neg hc, if_neg hn, if_neg hx]
  rw [putCharOut_char_atEnd hq hn, byte_char_atEnd hr hn]
  refine ⟨⟨rfl, rfl, rfl⟩, (shift_covers_iff Nat.one_pos).trans (and_congr ?_ ?_)⟩
  · exact forall_congr' fun i => forall_congr' fun j => imp_congr_right fun _ =>
      (covers_enter hc (.inr hx) hrows).symm
  · rw [Hidden, if_neg hn]
    constructor
    · exact fun h hne => h 24 0 (by decide) (by rw [if_pos rfl]; exact hne.symm)
    · intro h i j hi hij
      obtain rfl : i = 24 := Fin.ext (show i.val = 24 by omega)
      by_cases hj : j = 0
      · rw [if_pos hj] at hij
        rw [hj]
        exact h hij.symm
      · rw [if_neg hj] at hij
        exact absurd rfl hij

/-- Behind the last cell a newline leaves the last row. -/
theorem Abreast.newline_atEnd (h : Abreast q r) (hq : q.AtEnd) :
    Abreast (q.putCharOut newLineChar) (r.byte newLineChar) ∧
      (Mends (q.putCharOut newLineChar) (r.byte newLineChar) cs ↔
        Mends q r (newLineChar :: cs) ∧ q.Hidden newLineChar cs) := by
  have hx : ¬q.x.val < 80 := by rw [hq.1]; decide
  have hr : r.AtEnd := ⟨by rw [← h.x, hq.1], by rw [h.right]; rfl⟩
  have hrows : rows q.x (newLineChar :: cs) = 2 + rows 0 cs := by
    rw [rows, if_neg (by decide), if_pos rfl, if_neg hx]
  rw [putCharOut_newline_atEnd hq, byte_newline_atEnd hr]
  refine ⟨⟨rfl, rfl, rfl⟩, (shift_covers_iff Nat.two_pos).trans (and_congr ?_ ?_)⟩
  · exact forall_congr' fun i => forall_congr' fun j => imp_congr_right fun _ =>
      (covers_enter (by decide) (.inl rfl) hrows).symm
  · rw [Hidden, if_pos rfl]
    constructor
    · exact fun h j hne => h 24 j (by decide) hne
    · intro h i j hi hij
      by_cases hi' : i.val + 2 = 25
      · rw [if_pos hi'] at hij
        exact absurd rfl hij
      · obtain rfl : i = 24 := Fin.ext (show i.val = 24 by omega)
        rw [if_neg hi'] at hij
        exact h j hij

theorem Abreast.step (h : Abreast q r) (hc : c ≠ 0) (cs : List UInt8) :
    Abreast (q.putCharOut c) (r.byte c) ∧ (Mends (q.putCharOut c) (r.byte c) cs ↔
      Mends q r (c :: cs) ∧ (q.AtEnd → q.Hidden c cs)) := by
  by_cases hq : q.AtEnd
  · simp only [hq, true_implies]
    by_cases hn : c = newLineChar
    · rw [hn]
      exact h.newline_atEnd hq
    · exact h.char_atEnd hc hn hq
  · have hx : q.x.val < 80 := by
      have hlast : q.y.val = 24 := by rw [h.left]; rfl
      unfold AtEnd at hq
      omega
    have hout : q.putCharOut c = q.byte c := if_neg hq
    simp only [hq, false_implies, and_true, hout]
    by_cases hn : c = newLineChar
    · rw [hn]
      exact h.newline hx
    · exact h.char hc hn hx

/-- The output makes two such screens the same exactly if it covers their differences, and what its own
bytes leave wrong. -/
theorem Abreast.terminalWrite_eq_iff (cs : List UInt8) :
    ∀ {q r : Reference}, Abreast q r →
      (q.terminalWrite cs = r.write cs ↔ Mends q r cs ∧ q.Faithful cs) := by
  induction cs with
  | nil =>
    intro q r h
    have hnone : ∀ i j, ¬Covers q.x [] i j := by
      intro i j hcov
      unfold Covers rows rowLength at hcov
      simp at hcov
      omega
    constructor
    · intro (heq : q = r)
      rw [heq]
      exact ⟨fun i j hij => absurd rfl hij, trivial⟩
    · rintro ⟨hmends, -⟩
      exact ext_chars h.x (h.left.trans h.right.symm) fun i j =>
        by_contra fun hij => hnone i j (hmends i j hij)
  | cons c cs ih =>
    intro q r h
    rw [terminalWrite_cons, write_cons]
    unfold Faithful
    by_cases hc : c = 0
    · subst hc
      rw [if_pos rfl, if_pos rfl, if_pos rfl, ih h]
      simp only [Mends, covers_zero]
    · obtain ⟨hstep, hmends⟩ := h.step hc cs
      rw [if_neg hc, if_neg hc, if_neg hc, ih hstep, hmends, and_assoc]

/-- From one screen `terminal_write` ends as the reference terminal does exactly if each byte behind
the last cell is hidden. -/
theorem faithful_iff (cs : List UInt8) :
    ∀ r : Reference, r.terminalWrite cs = r.write cs ↔ r.Faithful cs := by
  induction cs with
  | nil => exact fun r => ⟨fun _ => trivial, fun _ => rfl⟩
  | cons c cs ih =>
    intro r
    by_cases hr : r.AtEnd
    · have hy : r.y = 24 := Fin.ext hr.2
      rw [Abreast.terminalWrite_eq_iff _ ⟨rfl, hy, hy⟩]
      exact ⟨fun h => h.2, fun h => ⟨fun i j hij => absurd rfl hij, h⟩⟩
    · have hout : r.putCharOut c = r.byte c := if_neg hr
      rw [terminalWrite_cons, write_cons]
      unfold Faithful
      by_cases hc : c = 0
      · rw [if_pos hc, if_pos hc, if_pos hc]
        exact ih r
      · rw [if_neg hc, if_neg hc, if_neg hc, hout, ih]
        exact ⟨fun h => ⟨fun he => absurd he hr, h⟩, fun h => h.2⟩

end Reference

/-- The characters and the cursor after `terminal_write` are those of the reference terminal. -/
theorem Shows.write_iff (h : Shows page v r) (t : ℤ) (bytes : List UInt8) :
    Shows (drawn (Terminal.terminalWrite t bytes) page v) (Terminal.terminalWrite t bytes v).1
      (r.write bytes) ↔ r.Faithful bytes := by
  have hcode := Shows.terminalWrite t bytes h
  rw [← Reference.faithful_iff]
  constructor
  · exact fun href => hcode.eq href
  · intro heq
    rw [← heq]
    exact hcode

end Terminal
end GalapagOS
