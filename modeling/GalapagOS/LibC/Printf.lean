import GalapagOS.LibC.Numbers

/-!
# `printf` (`lib.c`)

The format is read at 32-bit addresses of a flat memory, which also holds the strings of `%s`; the
arguments are the words above the format on the stack. `seen` records the place of every character
of the format that the parser looks at. `render` is the text that a format stands for.

The parser tests for the NUL only before a character and before a `%`. A format that ends within a
conversion is left behind its NUL; all others are read to the NUL and no further (`run_eq`).
-/

namespace GalapagOS
namespace LibC

open CString Memory Function

/-! ## The console -/

/-- `screen_x`, `screen_y`, and the bytes from `video_mem` on. -/
structure Console where
  screenX : ℤ
  screenY : ℤ
  video : ℤ → UInt8

/-- `putc` -/
def putc (k : Console) (c : UInt8) : Console :=
  if c = '\n'.toUInt8 ∨ c = '\r'.toUInt8 then { k with screenY := k.screenY + 1, screenX := 0 }
  else
    let cell := 2 * (80 * k.screenY + k.screenX)
    let screenX := (k.screenX + 1).tmod 80
    { screenX := screenX
      screenY := (k.screenY + screenX.tdiv 80).tmod 25
      video := update (update k.video cell c) (cell + 1) 7 }

/-- The characters of a text, one `putc` after the other. -/
def Console.print (k : Console) (t : List UInt8) : Console := t.foldl putc k

/-- `puts`; the number of characters is returned. -/
def puts (fuel : ℕ) (s : ℕ → UInt8) (k : Console) : Option (ℕ × Console) := loop s putc fuel 0 k

/-! ## Numbers -/

/-- `while(i < 8) { conv_buf[i] = '0'; i++; }` -/
def padZeros : ℕ → ℕ → (ℕ → UInt8) → Option (ℕ → UInt8)
  | 0, _, _ => none
  | fuel + 1, i, m => if i < 8 then padZeros fuel (i + 1) (update m i '0'.toUInt8) else some m

/-- The case `'x'`; `convBuf` is what `conv_buf` held before. -/
def printHex (fuel : ℕ) (alternate : Bool) (v : BitVec 32) (convBuf : ℕ → UInt8) (k : Console) :
    Option Console :=
  if alternate = false then do
    let m ← itoa fuel v.toNat 0 16 convBuf
    let (_, k) ← puts fuel m k
    pure k
  else do
    let m ← itoa fuel v.toNat 8 16 convBuf
    let startingIndex ← strlen fuel fun i => m (8 + i)
    let m ← padZeros fuel startingIndex m
    let (_, k) ← puts fuel (fun i => m (startingIndex + i)) k
    pure k

/-- The case `'u'`. -/
def printUnsigned (fuel : ℕ) (v : BitVec 32) (convBuf : ℕ → UInt8) (k : Console) :
    Option Console := do
  let m ← itoa fuel v.toNat 0 10 convBuf
  let (_, k) ← puts fuel m k
  pure k

/-- The case `'d'`; the negation wraps around. -/
def printSigned (fuel : ℕ) (v : BitVec 32) (convBuf : ℕ → UInt8) (k : Console) :
    Option Console := do
  let m ←
    if v.toInt < 0 then itoa fuel (-v).toNat 1 10 (update convBuf 0 '-'.toUInt8)
    else itoa fuel v.toNat 0 10 convBuf
  let (_, k) ← puts fuel m k
  pure k

/-! ## The parser -/

/-- The arguments of a call and what it finds in memory. -/
structure Call where
  mem : BitVec 32 → UInt8
  format : BitVec 32
  /-- the words behind `format` on the stack -/
  args : ℕ → BitVec 32
  /-- what `conv_buf` holds when the conversion at an offset of the format begins -/
  convBuf : ℕ → ℕ → UInt8

/-- The bytes from an address on. -/
def Call.bytes (c : Call) (p : BitVec 32) (i : ℕ) : UInt8 := c.mem (p + .ofNat 32 i)

/-- The variables of `printf`; `buf` and `esp` count from the format and from the first argument. -/
structure Progress where
  buf : ℕ
  esp : ℕ
  console : Console
  /-- the offsets that have been read -/
  seen : List ℕ

/-- `switch(*buf)` after `format_char_switch`, without the case `'#'`. -/
def convert (c : Call) (fuel : ℕ) (alternate : Bool) (ch : UInt8) (p : Progress) :
    Option Progress :=
  let arg := c.args p.esp
  let next (k : Console) : Progress := { p with esp := p.esp + 1, console := k }
  if ch = '%'.toUInt8 then some { p with console := putc p.console '%'.toUInt8 }
  else if ch = 'x'.toUInt8 then
    (printHex fuel alternate arg (c.convBuf p.buf) p.console).map next
  else if ch = 'u'.toUInt8 then (printUnsigned fuel arg (c.convBuf p.buf) p.console).map next
  else if ch = 'd'.toUInt8 then (printSigned fuel arg (c.convBuf p.buf) p.console).map next
  else if ch = 'c'.toUInt8 then some (next (putc p.console (.ofNat (arg.toNat % 256))))
  else if ch = 's'.toUInt8 then (puts fuel (c.bytes arg) p.console).map fun r => next r.2
  else some p

/-- Where the parser is: before a character of the text, or at `format_char_switch`. -/
inductive Mode where
  | text
  | conversion (alternate : Bool)
deriving DecidableEq, Repr

/-- The loop of `printf`; `fuel` bounds the loops inside. -/
def Call.run (c : Call) (fuel : ℕ) : ℕ → Mode → Progress → Option Progress
  | 0, _, _ => none
  | n + 1, .text, p =>
    let ch := c.bytes c.format p.buf
    let p := { p with seen := p.buf :: p.seen }
    if ch = 0 then some p
    else if ch = '%'.toUInt8 then c.run fuel n (.conversion false) { p with buf := p.buf + 1 }
    else c.run fuel n .text { p with console := putc p.console ch, buf := p.buf + 1 }
  | n + 1, .conversion alternate, p =>
    let ch := c.bytes c.format p.buf
    let p := { p with seen := p.buf :: p.seen }
    if ch = '#'.toUInt8 then c.run fuel n (.conversion true) { p with buf := p.buf + 1 }
    else
      (convert c fuel alternate ch p).bind fun p => c.run fuel n .text { p with buf := p.buf + 1 }

/-- `printf` -/
def printf (c : Call) (fuel : ℕ) (k : Console) : Option Progress :=
  c.run fuel fuel .text ⟨0, 0, k, []⟩

/-- `buf - format` -/
def Progress.result (p : Progress) : BitVec 32 := .ofNat 32 p.buf

/-! ## What a format stands for -/

/-- The signed value in decimal. -/
def signed (v : BitVec 32) : List UInt8 :=
  if v.toInt < 0 then '-'.toUInt8 :: numeral 10 v.toInt.natAbs else numeral 10 v.toInt.natAbs

/-- Eight hexadecimal digits. -/
def hex8 (v : BitVec 32) : List UInt8 :=
  List.replicate (8 - (numeral 16 v.toNat).length) '0'.toUInt8 ++ numeral 16 v.toNat

/-- The text of a conversion of the argument `v`; `string` is the text that `%s` finds there. -/
def conversionText (alternate : Bool) (ch : UInt8) (v : BitVec 32) (string : List UInt8) :
    List UInt8 :=
  if ch = '%'.toUInt8 then ['%'.toUInt8]
  else if ch = 'x'.toUInt8 then if alternate then hex8 v else numeral 16 v.toNat
  else if ch = 'u'.toUInt8 then numeral 10 v.toNat
  else if ch = 'd'.toUInt8 then signed v
  else if ch = 'c'.toUInt8 then [.ofNat (v.toNat % 256)]
  else if ch = 's'.toUInt8 then string
  else []

/-- The number of arguments a conversion takes. -/
def conversionArgs (ch : UInt8) : ℕ :=
  if ch = 'x'.toUInt8 ∨ ch = 'u'.toUInt8 ∨ ch = 'd'.toUInt8 ∨ ch = 'c'.toUInt8 ∨ ch = 's'.toUInt8
  then 1 else 0

/-- The text of the rest of a format, with the arguments from `esp` on. -/
def render (args : ℕ → BitVec 32) (strings : BitVec 32 → List UInt8) :
    Mode → ℕ → List UInt8 → List UInt8
  | _, _, [] => []
  | .text, esp, ch :: s =>
    if ch = '%'.toUInt8 then render args strings (.conversion false) esp s
    else ch :: render args strings .text esp s
  | .conversion alternate, esp, ch :: s =>
    if ch = '#'.toUInt8 then render args strings (.conversion true) esp s
    else
      conversionText alternate ch (args esp) (strings (args esp)) ++
        render args strings .text (esp + conversionArgs ch) s

/-- Where the parser is behind a character. -/
def Mode.after : Mode → UInt8 → Mode
  | .text, ch => if ch = '%'.toUInt8 then .conversion false else .text
  | .conversion _, ch => if ch = '#'.toUInt8 then .conversion true else .text

/-- The format does not end between a `%` and its conversion character. -/
def complete : Mode → List UInt8 → Bool
  | .text, [] => true
  | .conversion _, [] => false
  | .text, ch :: s => if ch = '%'.toUInt8 then complete (.conversion false) s else complete .text s
  | .conversion _, ch :: s =>
    if ch = '#'.toUInt8 then complete (.conversion true) s else complete .text s

theorem complete_cons (mode : Mode) (ch : UInt8) (s : List UInt8) :
    complete mode (ch :: s) = complete (mode.after ch) s := by
  cases mode with
  | text =>
    rw [complete, Mode.after]
    split <;> rfl
  | conversion alternate =>
    rw [complete, Mode.after]
    split <;> rfl

/-! ## The conversions -/

theorem Console.print_append (k : Console) (t t' : List UInt8) :
    k.print (t ++ t') = (k.print t).print t' :=
  List.foldl_append

/-- The place in video memory of the `i`-th character from the cursor on. A full row goes on in its
own first column, since `putc` divides by the width after it has taken the remainder. -/
def Console.cell (k : Console) (i : ℕ) : ℤ := 2 * (80 * k.screenY + (k.screenX + i) % 80)

/-- From `k` to `k'` the characters of `t` have been drawn in their cells, and nothing else. -/
structure Drawn (k k' : Console) (t : List UInt8) : Prop where
  screenX : k'.screenX = (k.screenX + t.length) % 80
  screenY : k'.screenY = k.screenY
  cells : ∀ i, (hi : i < t.length) → k'.video (k.cell i) = t[i] ∧ k'.video (k.cell i + 1) = 7
  frame : ∀ a, (∀ i < t.length, a ≠ k.cell i ∧ a ≠ k.cell i + 1) → k'.video a = k.video a

/-- The cursor is on the screen. -/
def Console.OnScreen (k : Console) : Prop :=
  (0 ≤ k.screenX ∧ k.screenX < 80) ∧ 0 ≤ k.screenY ∧ k.screenY < 25

/-- At most a row of characters, none of which moves the cursor to another row. -/
def FitsRow (t : List UInt8) : Prop :=
  t.length ≤ 80 ∧ ∀ ch ∈ t, ch ≠ '\n'.toUInt8 ∧ ch ≠ '\r'.toUInt8

/-- One more character in the row. -/
theorem Drawn.putc {k k' : Console} {t : List UInt8} (h : Drawn k k' t) (hk : k.OnScreen)
    (hlen : t.length < 80) {ch : UInt8} (hch : ch ≠ '\n'.toUInt8 ∧ ch ≠ '\r'.toUInt8) :
    Drawn k (LibC.putc k' ch) (t ++ [ch]) := by
  obtain ⟨⟨hx, hx'⟩, hy, hy'⟩ := hk
  have hcell : 2 * (80 * k'.screenY + k'.screenX) = k.cell t.length := by
    rw [h.screenX, h.screenY, Console.cell]
  have hput : LibC.putc k' ch
      = { screenX := (k'.screenX + 1).tmod 80
          screenY := (k'.screenY + ((k'.screenX + 1).tmod 80).tdiv 80).tmod 25
          video := update (update k'.video (k.cell t.length) ch) (k.cell t.length + 1) 7 } := by
    rw [LibC.putc, if_neg (by simp only [hch, or_self, not_false_eq_true]), hcell]
  have hlast := h.screenX
  have hrow : (k'.screenX + 1).tmod 80 = (k'.screenX + 1) % 80 :=
    Int.tmod_eq_emod_of_nonneg (by omega)
  -- within a row no cell is drawn twice
  have hne : ∀ i < t.length, k.cell i ≠ k.cell t.length ∧ k.cell i ≠ k.cell t.length + 1 ∧
      k.cell i + 1 ≠ k.cell t.length := by
    intro i hi
    simp only [Console.cell]
    omega
  rw [hput]
  refine ⟨?_, ?_, fun i hi => ?_, fun a ha => ?_⟩
  · show (k'.screenX + 1).tmod 80 = _
    rw [hrow, List.length_append, List.length_singleton]
    omega
  · show (k'.screenY + ((k'.screenX + 1).tmod 80).tdiv 80).tmod 25 = _
    rw [hrow, Int.tdiv_eq_zero_of_lt (by omega) (by omega), Int.add_zero, h.screenY,
      Int.tmod_eq_of_lt hy hy']
  · rw [List.length_append, List.length_singleton] at hi
    rcases Nat.lt_or_eq_of_le (Nat.le_of_lt_succ hi) with hi | rfl
    · obtain ⟨h₁, h₂, h₃⟩ := hne i hi
      obtain ⟨hchar, hattrib⟩ := h.cells i hi
      rw [List.getElem_append_left hi]
      refine ⟨?_, ?_⟩
      · show update (update _ _ _) _ _ _ = _
        rw [update_of_ne h₂, update_of_ne h₁, hchar]
      · show update (update _ _ _) _ _ _ = _
        rw [update_of_ne (by omega), update_of_ne h₃, hattrib]
    · rw [List.getElem_append_right (Nat.le_refl _)]
      refine ⟨?_, update_self ..⟩
      show update (update _ _ _) _ _ _ = _
      rw [update_of_ne (by omega), update_self]
      simp only [Nat.sub_self, List.getElem_cons_zero]
  · have hend := ha t.length (by rw [List.length_append, List.length_singleton]; omega)
    show update (update _ _ _) _ _ _ = _
    rw [update_of_ne hend.2, update_of_ne hend.1]
    refine h.frame a fun i hi => ha i ?_
    rw [List.length_append]
    omega

/-- A text of at most a row is drawn as it is. -/
theorem Console.print_drawn {k : Console} (hk : k.OnScreen) (t : List UInt8) (ht : FitsRow t) :
    Drawn k (k.print t) t := by
  induction t using List.reverseRecOn with
  | nil =>
    refine ⟨?_, rfl, fun i hi => absurd hi (Nat.not_lt_zero i), fun _ _ => rfl⟩
    obtain ⟨⟨hx, hx'⟩, -⟩ := hk
    show k.screenX = (k.screenX + 0) % 80
    omega
  | append_singleton t ch ih =>
    obtain ⟨hlen, hplain⟩ := ht
    rw [List.length_append, List.length_singleton] at hlen
    have hinit : FitsRow t :=
      ⟨by omega, fun c hc => hplain c (List.mem_append_left _ hc)⟩
    rw [Console.print_append]
    exact (ih hinit).putc hk (by omega) (hplain ch (by simp))

theorem puts_eq {fuel : ℕ} {s : ℕ → UInt8} {t : List UInt8} (h : Text s t) (hfuel : t.length < fuel)
    (k : Console) : puts fuel s k = some (t.length, k.print t) :=
  loop_eq h putc hfuel k

section

variable {fuel : ℕ} {k : Console}

/-- A number at an offset of `conv_buf`. -/
theorem itoa_text (radix buf : ℕ) (hlow : 2 ≤ radix) (hhigh : radix ≤ 36) {v : ℕ} (hv : v < 2 ^ 32)
    (hfuel : 33 ≤ fuel) (m : ℕ → UInt8) :
    ∃ m', itoa fuel v buf radix m = some m' ∧ Text (fun i => m' (buf + i)) (numeral radix v) ∧
      (numeral radix v).length + 1 ≤ fuel ∧ ∀ i < buf, m' i = m i := by
  obtain ⟨m', hitoa, hwritten⟩ := itoa_eq hlow hhigh hv hfuel buf m
  have hlen := length_numeral (n := 32) hlow (by omega) (hv.trans_le (Nat.pow_le_pow_left hlow 32))
  exact ⟨m', hitoa, hwritten.text, by omega, fun i hi => hwritten.frame i (.inl hi)⟩

/-- `itoa` to the start of `conv_buf`, then `puts`. -/
theorem print_itoa (radix : ℕ) (hlow : 2 ≤ radix) (hhigh : radix ≤ 36) {v : ℕ} (hv : v < 2 ^ 32)
    (hfuel : 33 ≤ fuel) (m : ℕ → UInt8) :
    ((itoa fuel v 0 radix m).bind fun m => (puts fuel m k).bind fun r => some r.2)
      = some (k.print (numeral radix v)) := by
  obtain ⟨m', hitoa, htext, hlen, -⟩ := itoa_text radix 0 hlow hhigh hv hfuel m
  simp only [Nat.zero_add] at htext
  rw [hitoa, Option.bind_some, puts_eq htext hlen, Option.bind_some]

theorem printUnsigned_eq (hfuel : 33 ≤ fuel) (v : BitVec 32) (convBuf : ℕ → UInt8) :
    printUnsigned fuel v convBuf k = some (k.print (numeral 10 v.toNat)) :=
  print_itoa 10 (by omega) (by omega) v.isLt hfuel convBuf

theorem natAbs_toInt (v : BitVec 32) :
    v.toInt.natAbs = if v.toInt < 0 then (-v).toNat else v.toNat := by
  have hlt := v.isLt
  rw [BitVec.toNat_neg, BitVec.toInt_eq_toNat_cond]
  split <;> split <;> omega

theorem printSigned_eq (hfuel : 34 ≤ fuel) (v : BitVec 32) (convBuf : ℕ → UInt8) :
    printSigned fuel v convBuf k = some (k.print (signed v)) := by
  rw [printSigned, signed, natAbs_toInt]
  by_cases hneg : v.toInt < 0
  · obtain ⟨m, hitoa, htext, -, hframe⟩ := itoa_text 10 1 (by omega) (by omega) (-v).isLt
      (show 33 ≤ fuel by omega) (update convBuf 0 '-'.toUInt8)
    have hlen := length_numeral (n := 10) (show 2 ≤ 10 by omega) (by omega)
      ((-v).isLt.trans (by decide))
    have hsign : Text m ('-'.toUInt8 :: numeral 10 (-v).toNat) := by
      refine Text.append (t := ['-'.toUInt8]) (by decide) (fun i hi => ?_) htext
      obtain rfl : i = 0 := Nat.lt_one_iff.mp hi
      rw [hframe 0 (by omega), update_self]
      rfl
    simp only [if_pos hneg, hitoa, Option.bind_eq_bind, Option.bind_some, Option.pure_def]
    rw [puts_eq hsign (by rw [List.length_cons]; omega), Option.bind_some]
  · simp only [if_neg hneg]
    exact print_itoa 10 (by omega) (by omega) v.isLt (by omega) convBuf

theorem padZeros_eq (fuel : ℕ) :
    ∀ (i : ℕ) (m : ℕ → UInt8), 8 ≤ i + fuel → ∃ m', padZeros (fuel + 1) i m = some m' ∧
      ∀ j, m' j = if i ≤ j ∧ j < 8 then '0'.toUInt8 else m j := by
  induction fuel with
  | zero =>
    intro i m hi
    exact ⟨m, if_neg (by omega), fun j => by rw [if_neg (by omega)]⟩
  | succ fuel ih =>
    intro i m hfuel
    rw [padZeros]
    by_cases hi : i < 8
    · obtain ⟨m', hm', hcells⟩ := ih (i + 1) (update m i '0'.toUInt8) (by omega)
      refine ⟨m', by rw [if_pos hi, hm'], fun j => ?_⟩
      rw [hcells]
      by_cases hj : j = i
      · rw [hj, if_neg (by omega), if_pos (by omega), update_self]
      · rw [update_of_ne hj]
        by_cases hin : i ≤ j ∧ j < 8
        · rw [if_pos (by omega), if_pos hin]
        · rw [if_neg (by omega), if_neg hin]
    · exact ⟨m, if_neg hi, fun j => by rw [if_neg (by omega)]⟩

theorem length_hex (v : BitVec 32) :
    1 ≤ (numeral 16 v.toNat).length ∧ (numeral 16 v.toNat).length ≤ 8 :=
  length_numeral (by omega) (by omega) (v.isLt.trans_le (by decide))

theorem length_hex8 (v : BitVec 32) : (hex8 v).length = 8 := by
  have hlen := length_hex v
  rw [hex8, List.length_append, List.length_replicate]
  omega

theorem printHex_eq (hfuel : 33 ≤ fuel) (alternate : Bool) (v : BitVec 32) (convBuf : ℕ → UInt8) :
    printHex fuel alternate v convBuf k
      = some (k.print (if alternate then hex8 v else numeral 16 v.toNat)) := by
  cases alternate with
  | false => exact print_itoa 16 (by omega) (by omega) v.isLt hfuel convBuf
  | true =>
    obtain ⟨m, hitoa, htext, hlen, -⟩ := itoa_text 16 8 (by omega) (by omega) v.isLt hfuel convBuf
    obtain ⟨n, rfl⟩ : ∃ n, fuel = n + 1 := ⟨fuel - 1, by omega⟩
    obtain ⟨m', hpad, hcells⟩ := padZeros_eq n (numeral 16 v.toNat).length m (by omega)
    have hle := length_hex v
    -- the zeros end where the digits begin
    have height : Text (fun i => m' ((numeral 16 v.toNat).length + i)) (hex8 v) := by
      have hzeros := List.length_replicate (n := 8 - (numeral 16 v.toNat).length) (a := '0'.toUInt8)
      refine Text.append (fun hmem => absurd (List.eq_of_mem_replicate hmem) (by decide))
        (fun i hi => ?_) ?_
      · rw [List.getElem_replicate, hcells, if_pos (by omega)]
      · refine htext.congr fun i hi => ?_
        rw [hcells, if_neg (by omega)]
        congr 1
        omega
    simp only [printHex, hitoa, strlen_eq htext hlen, hpad, Bool.true_eq_false, if_false, if_true,
      Option.bind_eq_bind, Option.bind_some, Option.pure_def]
    rw [puts_eq height (by rw [length_hex8]; omega), Option.bind_some]

/-- Every conversion prints its text and moves on behind its arguments. -/
theorem convert_eq {c : Call} {strings : BitVec 32 → List UInt8} (hfuel : 34 ≤ fuel)
    (hstrings : ∀ a, Text (c.bytes a) (strings a) ∧ (strings a).length < fuel) (alternate : Bool)
    (ch : UInt8) (p : Progress) :
    convert c fuel alternate ch p
      = some { p with
          esp := p.esp + conversionArgs ch
          console := p.console.print
            (conversionText alternate ch (c.args p.esp) (strings (c.args p.esp))) } := by
  unfold convert conversionText conversionArgs
  by_cases hpercent : ch = '%'.toUInt8
  · subst hpercent
    rfl
  by_cases hx : ch = 'x'.toUInt8
  · subst hx
    simp only [printHex_eq (show 33 ≤ fuel by omega)]
    rfl
  by_cases hu : ch = 'u'.toUInt8
  · subst hu
    simp only [printUnsigned_eq (show 33 ≤ fuel by omega)]
    rfl
  by_cases hd : ch = 'd'.toUInt8
  · subst hd
    simp only [printSigned_eq hfuel]
    rfl
  by_cases hc : ch = 'c'.toUInt8
  · subst hc
    rfl
  by_cases hs : ch = 's'.toUInt8
  · subst hs
    simp only [puts_eq (hstrings (c.args p.esp)).1 (hstrings (c.args p.esp)).2]
    rfl
  · simp only [hpercent, hx, hu, hd, hc, hs, if_false, or_self]
    rfl

/-! ## Running through a format -/

/-- From `p` to `p'` the parser has read `n` characters, printed `t`, and looked at nothing behind
the character at which it stands. -/
structure Parsed (p p' : Progress) (n : ℕ) (t : List UInt8) : Prop where
  buf : p'.buf = p.buf + n
  console : p'.console = p.console.print t
  seen : ∀ j ∈ p'.seen, j ∈ p.seen ∨ j ≤ p.buf + n

/-- One character before the others. -/
theorem Parsed.cons {p p₁ p' : Progress} {n : ℕ} {t t' : List UInt8} (h : Parsed p₁ p' n t')
    (hbuf : p₁.buf = p.buf + 1) (hseen : p₁.seen = p.buf :: p.seen)
    (hconsole : p₁.console = p.console.print t) : Parsed p p' (n + 1) (t ++ t') where
  buf := by
    have hend := h.buf
    omega
  console := by rw [h.console, hconsole, Console.print_append]
  seen j hj := by
    rcases h.seen j hj with hj | hj
    · rw [hseen] at hj
      rcases List.mem_cons.mp hj with rfl | hj
      · exact .inr (by omega)
      · exact .inl hj
    · exact .inr (by omega)

/-- At the NUL the parser stops. -/
theorem run_nil {c : Call} {p : Progress} (htext : Text (fun i => c.bytes c.format (p.buf + i)) [])
    (n : ℕ) : ∃ p', c.run fuel (n + 1) .text p = some p' ∧ Parsed p p' 0 [] := by
  refine ⟨{ p with seen := p.buf :: p.seen }, if_pos htext.at_length, rfl, rfl, fun j hj => ?_⟩
  rcases List.mem_cons.mp hj with rfl | hj
  · exact .inr (Nat.le_refl _)
  · exact .inl hj

/-- From any point of a complete format the parser comes to the NUL and prints the text that is
left. -/
theorem run_eq {c : Call} {strings : BitVec 32 → List UInt8} (hfuel : 34 ≤ fuel)
    (hstrings : ∀ a, Text (c.bytes a) (strings a) ∧ (strings a).length < fuel) (s : List UInt8) :
    ∀ {n : ℕ} {mode : Mode} {p : Progress}, Text (fun i => c.bytes c.format (p.buf + i)) s →
      complete mode s = true → s.length < n →
      ∃ p', c.run fuel n mode p = some p' ∧
        Parsed p p' s.length (render c.args strings mode p.esp s) := by
  induction s with
  | nil =>
    intro n mode p htext hcomplete hn
    obtain ⟨n, rfl⟩ : ∃ m, n = m + 1 := ⟨n - 1, by omega⟩
    cases mode with
    | conversion alternate => cases hcomplete
    | text => exact run_nil htext n
  | cons ch s ih =>
    intro n mode p htext hcomplete hn
    obtain ⟨n, rfl⟩ : ∃ m, n = m + 1 := ⟨n - 1, by omega⟩
    rw [List.length_cons] at hn
    have hch : c.bytes c.format p.buf = ch := htext.getElem (i := 0) (Nat.succ_pos _)
    have hzero : ch ≠ 0 := fun he => htext.nonzero (he ▸ List.mem_cons_self)
    -- whatever the character does, the parser goes on behind it
    have hnext (mode : Mode) (p₁ : Progress) (t : List UInt8) (hbuf : p₁.buf = p.buf + 1)
        (hseen : p₁.seen = p.buf :: p.seen) (hconsole : p₁.console = p.console.print t)
        (hcomplete : complete mode s = true) :
        ∃ p', c.run fuel n mode p₁ = some p' ∧
          Parsed p p' (ch :: s).length (t ++ render c.args strings mode p₁.esp s) := by
      have htail : Text (fun i => c.bytes c.format (p₁.buf + i)) s := by
        refine htext.tail.congr fun i _ => ?_
        rw [hbuf, Nat.add_assoc, Nat.add_comm 1]
      obtain ⟨p', hrun, hparsed⟩ := ih (n := n) (p := p₁) htail hcomplete (by omega)
      exact ⟨p', hrun, hparsed.cons hbuf hseen hconsole⟩
    cases mode with
    | text =>
      simp only [Call.run, hch, if_neg hzero, render]
      by_cases hpercent : ch = '%'.toUInt8
      · simp only [complete, if_pos hpercent] at hcomplete ⊢
        exact hnext _ _ [] rfl rfl rfl hcomplete
      · simp only [complete, if_neg hpercent] at hcomplete ⊢
        exact hnext _ _ [ch] rfl rfl rfl hcomplete
    | conversion alternate =>
      simp only [Call.run, hch, render]
      by_cases hsharp : ch = '#'.toUInt8
      · simp only [complete, if_pos hsharp] at hcomplete ⊢
        exact hnext _ _ [] rfl rfl rfl hcomplete
      · simp only [complete, if_neg hsharp] at hcomplete ⊢
        rw [convert_eq hfuel hstrings, Option.bind_some]
        exact hnext _ _ _ rfl rfl rfl hcomplete

/-- A conversion prints; it does not move in the format. -/
theorem convert_kept {c : Call} {alternate : Bool} {ch : UInt8} {p p' : Progress}
    (h : convert c fuel alternate ch p = some p') : p'.buf = p.buf ∧ p'.seen = p.seen := by
  simp only [convert] at h
  split_ifs at h
  all_goals
    first
    | cases h
      exact ⟨rfl, rfl⟩
    | obtain ⟨k, -, rfl⟩ := Option.map_eq_some_iff.mp h
      exact ⟨rfl, rfl⟩

/-- The next step of the parser, if it is not at the NUL of the text: it has looked at the character
and stands behind it. -/
theorem run_succ {c : Call} {n : ℕ} {mode : Mode} {p p' : Progress}
    (h : c.run fuel (n + 1) mode p = some p') :
    (mode = .text ∧ c.bytes c.format p.buf = 0 ∧ p' = { p with seen := p.buf :: p.seen }) ∨
    ∃ p₁ mode', p₁.buf = p.buf + 1 ∧ p₁.seen = p.buf :: p.seen ∧
      mode' = mode.after (c.bytes c.format p.buf) ∧ c.run fuel n mode' p₁ = some p' := by
  cases mode with
  | text =>
    simp only [Call.run] at h
    by_cases hzero : c.bytes c.format p.buf = 0
    · rw [if_pos hzero] at h
      cases h
      exact .inl ⟨rfl, hzero, rfl⟩
    · rw [if_neg hzero] at h
      by_cases hpercent : c.bytes c.format p.buf = '%'.toUInt8
      · rw [if_pos hpercent] at h
        exact .inr ⟨_, _, rfl, rfl, (if_pos hpercent).symm, h⟩
      · rw [if_neg hpercent] at h
        exact .inr ⟨_, _, rfl, rfl, (if_neg hpercent).symm, h⟩
  | conversion alternate =>
    simp only [Call.run] at h
    by_cases hsharp : c.bytes c.format p.buf = '#'.toUInt8
    · rw [if_pos hsharp] at h
      exact .inr ⟨_, _, rfl, rfl, (if_pos hsharp).symm, h⟩
    · rw [if_neg hsharp] at h
      obtain ⟨p₁, hconvert, hrun⟩ := Option.bind_eq_some_iff.mp h
      obtain ⟨hbuf, hseen⟩ := convert_kept hconvert
      refine .inr ⟨{ p₁ with buf := p₁.buf + 1 }, _, ?_, hseen, (if_neg hsharp).symm, hrun⟩
      exact congrArg (· + 1) hbuf

/-- What the parser has looked at it has looked at, and if it ends, it has looked at the character
it stands at. -/
theorem run_seen {c : Call} (n : ℕ) :
    ∀ {mode : Mode} {p p' : Progress}, c.run fuel n mode p = some p' →
      ∀ j ∈ p.buf :: p.seen, j ∈ p'.seen := by
  induction n with
  | zero => exact fun h => nomatch h
  | succ n ih =>
    intro mode p p' h j hj
    obtain ⟨-, -, rfl⟩ | ⟨p₁, mode', -, hseen, -, hrun⟩ := run_succ h
    · exact hj
    · exact ih hrun j (List.mem_cons_of_mem _ (hseen ▸ hj))

/-- A parser that comes to the NUL within a conversion looks behind it. -/
theorem run_incomplete {c : Call} (s : List UInt8) :
    ∀ {n : ℕ} {mode : Mode} {p p' : Progress},
      Text (fun i => c.bytes c.format (p.buf + i)) s → complete mode s = false →
      c.run fuel n mode p = some p' → p.buf + s.length + 1 ∈ p'.seen := by
  induction s with
  | nil =>
    intro n mode p p' htext hcomplete h
    cases n with
    | zero => cases h
    | succ n =>
      obtain ⟨rfl, -⟩ | ⟨p₁, mode', hbuf, -, -, hrun⟩ := run_succ h
      · cases hcomplete
      · exact run_seen n hrun _ (hbuf ▸ List.mem_cons_self)
  | cons ch s ih =>
    intro n mode p p' htext hcomplete h
    have hch : c.bytes c.format p.buf = ch := htext.getElem (i := 0) (Nat.succ_pos _)
    cases n with
    | zero => cases h
    | succ n =>
      obtain ⟨-, hzero, -⟩ | ⟨p₁, mode', hbuf, -, hmode, hrun⟩ := run_succ h
      · exact absurd (hch.symm.trans hzero) fun he => htext.nonzero (he ▸ List.mem_cons_self)
      · have htail : Text (fun i => c.bytes c.format (p₁.buf + i)) s := by
          refine htext.tail.congr fun i _ => ?_
          rw [hbuf, Nat.add_assoc, Nat.add_comm 1]
        rw [hch] at hmode
        have hseen := ih htail (by rw [hmode, ← complete_cons, hcomplete]) hrun
        rwa [hbuf, Nat.add_assoc p.buf, Nat.add_comm 1] at hseen

end

section

variable {c : Call} {s : List UInt8}

/-- The string at an address. -/
noncomputable def Call.stringAt (c : Call) (a : BitVec 32) : List UInt8 :=
  open Classical in if h : ∃ t, Text (c.bytes a) t then h.choose else []

/-- A string is shorter than the address space, since it would meet its own NUL again. -/
theorem length_lt_of_text {a : BitVec 32} (h : Text (c.bytes a) s) : s.length < 2 ^ 32 := by
  have hagain : c.bytes a (s.length % 2 ^ 32) = 0 := by
    have hword : BitVec.ofNat 32 (s.length % 2 ^ 32) = .ofNat 32 s.length := by
      apply BitVec.eq_of_toNat_eq
      rw [BitVec.toNat_ofNat, BitVec.toNat_ofNat, Nat.mod_mod]
    rw [Call.bytes, hword]
    exact h.at_length
  have := h.length_le hagain
  omega

/-- From every address the NUL of the format, or another one, is found. -/
theorem text_stringAt (h : Text (c.bytes c.format) s) (a : BitVec 32) :
    Text (c.bytes a) (c.stringAt a) := by
  have hnul : c.bytes a (c.format + .ofNat 32 s.length - a).toNat = 0 := by
    rw [Call.bytes, BitVec.ofNat_toNat, BitVec.setWidth_eq, BitVec.add_comm, BitVec.sub_add_cancel]
    exact h.at_length
  have hex := exists_text ⟨_, hnul⟩
  rw [Call.stringAt, dif_pos hex]
  exact hex.choose_spec

/-- A complete format is read to its NUL, and its text is printed. -/
theorem printf_eq (h : Text (c.bytes c.format) s) (hcomplete : complete .text s = true)
    {fuel : ℕ} (hfuel : 2 ^ 32 ≤ fuel) (k : Console) :
    ∃ p, printf c fuel k = some p ∧ p.buf = s.length ∧
      p.console = k.print (render c.args c.stringAt .text 0 s) ∧ ∀ j ∈ p.seen, j ≤ s.length := by
  have hlen := length_lt_of_text h
  have hstrings (a : BitVec 32) :
      Text (c.bytes a) (c.stringAt a) ∧ (c.stringAt a).length < fuel :=
    ⟨text_stringAt h a, (length_lt_of_text (text_stringAt h a)).trans_le hfuel⟩
  obtain ⟨p, hrun, hparsed⟩ := run_eq (n := fuel) (p := ⟨0, 0, k, []⟩) (by omega)
    hstrings s (by simpa only [Nat.zero_add] using h) hcomplete (by omega)
  refine ⟨p, hrun, hparsed.buf.trans (Nat.zero_add _), hparsed.console, fun j hj => ?_⟩
  rcases hparsed.seen j hj with hj | hj
  · exact absurd hj List.not_mem_nil
  · exact hj.trans_eq (Nat.zero_add _)

/-- Leading zeros do not change the value. -/
theorem valueOf_replicate_append (radix n : ℕ) (t : List UInt8) :
    valueOf radix (List.replicate n '0'.toUInt8 ++ t) = valueOf radix t := by
  induction n with
  | zero => rfl
  | succ n ih =>
    rw [← ih, List.replicate_succ, List.cons_append, valueOf, List.foldl_cons, Nat.zero_mul]
    rfl

theorem isDigits_hex8 (v : BitVec 32) : IsDigits 16 (hex8 v) := by
  intro ch hch
  rcases List.mem_append.mp hch with hzero | hdigit
  · exact ⟨0, by omega, List.eq_of_mem_replicate hzero⟩
  · exact (isNumeral_numeral (by omega) (by omega) v.toNat).digits ch hdigit

/-- A call whose format stands at address 0, with the argument -2147483648; what follows the
listed bytes is zero. -/
def sampleCall (bytes : List UInt8) : Call :=
  ⟨fun a => bytes.getD a.toNat 0, 0, fun _ => 0x80000000, fun _ _ => 0xcc⟩

/-- A clear screen. -/
def sampleConsole : Console := ⟨0, 0, fun _ => 0⟩

theorem text_sampleCall {bytes : List UInt8} (hlt : bytes.length < 2 ^ 32)
    (hnul : 0 ∉ bytes) : Text ((sampleCall bytes).bytes (sampleCall bytes).format) bytes := by
  refine ⟨hnul, fun i hi => ?_⟩
  show bytes.getD (0#32 + BitVec.ofNat 32 i).toNat 0 = _
  rw [BitVec.zero_add, BitVec.toNat_ofNat, Nat.mod_eq_of_lt (by omega)]

/-- 2147483648 -/
def minDigits : List UInt8 := ['2', '1', '4', '7', '4', '8', '3', '6', '4', '8'].map Char.toUInt8

/-- `itoa` writes the digits of every 32-bit value in every radix. `printf` hands the text of its
format to `putc`, which draws it from the cursor on; in that text `%u` and `%x` are the unsigned value,
`%d` is the signed one, and `%#x` is eight hexadecimal digits of the unsigned one. -/
theorem numbers_exact :
    (∀ (v : BitVec 32) (radix buf fuel : ℕ) (m : ℕ → UInt8), 2 ≤ radix → radix ≤ 36 → 33 ≤ fuel →
      ∃ m' t, itoa fuel v.toNat buf radix m = some m' ∧ Written m m' buf t ∧
        IsNumeral radix t v.toNat) ∧
    (∀ (c : Call) (s : List UInt8) (k : Console), Text (c.bytes c.format) s →
      complete .text s = true → ∃ n, ∀ fuel ≥ n, ∃ p, printf c fuel k = some p ∧
        p.console = k.print (render c.args c.stringAt .text 0 s) ∧
        (k.OnScreen → FitsRow (render c.args c.stringAt .text 0 s) →
          Drawn k p.console (render c.args c.stringAt .text 0 s))) ∧
    ∀ (v : BitVec 32) (string : List UInt8),
      (∀ alternate, IsNumeral 10 (conversionText alternate 'u'.toUInt8 v string) v.toNat) ∧
      IsNumeral 16 (conversionText false 'x'.toUInt8 v string) v.toNat ∧
      (∀ alternate, ∃ t, IsNumeral 10 t v.toInt.natAbs ∧
        conversionText alternate 'd'.toUInt8 v string
          = if v.toInt < 0 then '-'.toUInt8 :: t else t) ∧
      (conversionText true 'x'.toUInt8 v string).length = 8 ∧
      IsDigits 16 (conversionText true 'x'.toUInt8 v string) ∧
      valueOf 16 (conversionText true 'x'.toUInt8 v string) = v.toNat := by
  refine ⟨?_, ?_, ?_⟩
  · intro v radix buf fuel m hlow hhigh hfuel
    obtain ⟨m', hitoa, hwritten⟩ := itoa_eq hlow hhigh v.isLt hfuel buf m
    exact ⟨m', _, hitoa, hwritten, isNumeral_numeral hlow hhigh _⟩
  · intro c s k htext hcomplete
    refine ⟨2 ^ 32, fun fuel hfuel => ?_⟩
    obtain ⟨p, hp, -, hconsole, -⟩ := printf_eq htext hcomplete hfuel k
    exact ⟨p, hp, hconsole, fun hk hfits => hconsole ▸ Console.print_drawn hk _ hfits⟩
  · intro v string
    have hdecimal := isNumeral_numeral (show 2 ≤ 10 by omega) (by omega)
    have hhex := isNumeral_numeral (show 2 ≤ 16 by omega) (by omega) v.toNat
    refine ⟨fun _ => hdecimal v.toNat, hhex, fun _ => ⟨_, hdecimal _, rfl⟩, length_hex8 v,
      isDigits_hex8 v, ?_⟩
    show valueOf 16 (hex8 v) = _
    rw [hex8, valueOf_replicate_append, hhex.value]

/-- The smallest number, whose negation is itself: `itoa` writes its ten digits and the NUL, and `%d`
draws the sign and the digits in the first row. -/
theorem numbers_exact_min :
    (∃ m' t, itoa 33 0x80000000 0 10 (fun _ => 0xcc) = some m' ∧ IsNumeral 10 t 0x80000000 ∧
      Written (fun _ => 0xcc) m' 0 t ∧ (List.range 11).map m' = minDigits ++ [0]) ∧
    ∃ n, ∀ fuel ≥ n, ∃ p, printf (sampleCall [0x25, 0x64]) fuel sampleConsole = some p ∧
      p.console.screenX = 11 ∧
      (List.range 11).map (fun i : ℕ => p.console.video (2 * i)) = '-'.toUInt8 :: minDigits := by
  refine ⟨?_, ?_⟩
  · obtain ⟨m', t, hitoa, hwritten, hnumeral⟩ :=
      numbers_exact.1 0x80000000 10 0 33 (fun _ => 0xcc) (by decide) (by decide) (by decide)
    have hrun : (itoa 33 0x80000000 0 10 fun _ => 0xcc).map (fun m => (List.range 11).map m)
        = some (minDigits ++ [0]) := by decide +kernel
    refine ⟨m', t, hitoa, hnumeral, hwritten, ?_⟩
    rw [show itoa 33 0x80000000 0 10 (fun _ => 0xcc) = some m' from hitoa] at hrun
    exact Option.some.inj hrun
  · obtain ⟨n, hn⟩ := numbers_exact.2.1 (sampleCall [0x25, 0x64]) [0x25, 0x64] sampleConsole
      (text_sampleCall (by decide) (by decide)) (by decide)
    refine ⟨n, fun fuel hfuel => ?_⟩
    obtain ⟨p, hp, hconsole, -⟩ := hn fuel hfuel
    have hrender : render (sampleCall [0x25, 0x64]).args (sampleCall [0x25, 0x64]).stringAt .text 0
        [0x25, 0x64] = '-'.toUInt8 :: minDigits := by
      show signed 0x80000000 ++ [] = _
      decide +kernel
    rw [hrender] at hconsole
    refine ⟨p, hp, ?_, ?_⟩
    · rw [hconsole]
      decide +kernel
    · rw [hconsole]
      decide +kernel

/-- `printf` ends, returns the length of the format `s` and looks at no character behind its NUL. -/
def StopsAtNul (c : Call) (s : List UInt8) (k : Console) : Prop :=
  ∃ n, ∀ fuel ≥ n, ∃ p, printf c fuel k = some p ∧ p.result.toNat = s.length ∧
    ∀ j ∈ p.seen, j ≤ s.length

/-- `printf` stops at the NUL of its format exactly if the format does not end within a conversion,
whatever the arguments are. -/
theorem printf_stops_at_nul (h : Text (c.bytes c.format) s) (k : Console) :
    StopsAtNul c s k ↔ complete .text s = true := by
  constructor
  · rintro ⟨n, hn⟩
    by_contra hcomplete
    obtain ⟨p, hp, -, hseen⟩ := hn n (Nat.le_refl n)
    -- the character behind the NUL has been looked at
    have hbehind := run_incomplete s (by simpa only [Nat.zero_add] using h)
      (Bool.eq_false_of_not_eq_true hcomplete) hp
    have := hseen _ hbehind
    omega
  · intro hcomplete
    refine ⟨2 ^ 32, fun fuel hfuel => ?_⟩
    obtain ⟨p, hp, hbuf, -, hseen⟩ := printf_eq h hcomplete hfuel k
    refine ⟨p, hp, ?_, hseen⟩
    rw [Progress.result, hbuf, BitVec.toNat_ofNat, Nat.mod_eq_of_lt (length_lt_of_text h)]

/-- The format `%##d%z!`, and the format `%#`. -/
theorem printf_stops_at_nul_sharps :
    StopsAtNul (sampleCall [0x25, 0x23, 0x23, 0x64, 0x25, 0x7a, 0x21])
      [0x25, 0x23, 0x23, 0x64, 0x25, 0x7a, 0x21] sampleConsole ∧
    ¬StopsAtNul (sampleCall [0x25, 0x23]) [0x25, 0x23] sampleConsole :=
  ⟨(printf_stops_at_nul (text_sampleCall (by decide) (by decide)) sampleConsole).mpr (by decide),
    fun h => absurd
      ((printf_stops_at_nul (text_sampleCall (by decide) (by decide)) sampleConsole).mp h)
      (by decide)⟩

/-- The format `%`, with an `A` behind its NUL: the parser steps over the NUL, prints the `A`, and
returns 3. -/
theorem printf_runs_past_nul :
    Text ((sampleCall [0x25, 0, 0x41]).bytes 0) [0x25] ∧
      (printf (sampleCall [0x25, 0, 0x41]) 5 sampleConsole).map (fun p => (p.seen, p.result.toNat))
        = some ([3, 2, 1, 0], 3) := by
  refine ⟨⟨by decide, fun i hi => ?_⟩, rfl⟩
  have hi : i ≤ 1 := hi
  obtain rfl | rfl : i = 0 ∨ i = 1 := by omega
  · rfl
  · rfl

end

end LibC
end GalapagOS
