import GalapagOS.Lib.CString
import GalapagOS.Lib.Memory
import Mathlib.Data.Nat.Digits.Lemmas
import Mathlib.Data.UInt

/-!
# Numbers as text (`itoa`, `strrev`, `strlen` in `lib.c`)

`itoa` stores the digits of a number from the lowest on, puts a NUL behind them and reverses the
string in place. Strings are read at addresses of a memory that holds the buffer; each loop gets
`fuel` and is `none` if it is still running when that is used up. `itoa_eq` says that 33 tests are
enough for any 32-bit value in any radix, and what the buffer holds then.
-/

namespace GalapagOS
namespace LibC

open CString Memory Function

/-! ## The functions -/

/-- `strlen` -/
def strlen (fuel : ℕ) (s : ℕ → UInt8) : Option ℕ :=
  (loop s (fun (_ : Unit) _ => ()) fuel 0 ()).map Prod.fst

/-- `strrev`, with `beg` and `end` counted from the start of memory. -/
def strrev (fuel s : ℕ) (m : ℕ → UInt8) : Option (ℕ → UInt8) :=
  (strlen fuel fun i => m (s + i)).bind fun len => swapLoop fuel s (s + len - 1) m

/-- `lookup`, with its NUL. -/
def lookup : List UInt8 :=
  ['0', '1', '2', '3', '4', '5', '6', '7', '8', '9', 'A', 'B', 'C', 'D', 'E', 'F', 'G', 'H', 'I',
    'J', 'K', 'L', 'M', 'N', 'O', 'P', 'Q', 'R', 'S', 'T', 'U', 'V', 'W', 'X', 'Y', 'Z'].map
      Char.toUInt8 ++ [0]

/-- `lookup[i]` -/
def digit (i : ℕ) : UInt8 := lookup.getD i 0

/-- The loop of `itoa`, with `newbuf` at the end. -/
def itoaLoop (radix : ℕ) : ℕ → ℕ → ℕ → (ℕ → UInt8) → Option (ℕ × (ℕ → UInt8))
  | 0, _, _, _ => none
  | fuel + 1, newval, newbuf, m =>
    if newval > 0 then
      itoaLoop radix fuel (newval / radix) (newbuf + 1) (update m newbuf (digit (newval % radix)))
    else some (newbuf, m)

/-- `itoa`; its result is `buf`. -/
def itoa (fuel value buf radix : ℕ) (m : ℕ → UInt8) : Option (ℕ → UInt8) :=
  if value = 0 then some (update (update m buf '0'.toUInt8) (buf + 1) 0)
  else
    (itoaLoop radix fuel value buf m).bind fun (newbuf, m) => strrev fuel buf (update m newbuf 0)

/-! ## What a numeral says -/

/-- The value of a digit. -/
def digitValue (c : UInt8) : ℕ := if c ≤ '9'.toUInt8 then c.toNat - 0x30 else c.toNat - 0x37

/-- The value of a string of digits. -/
def valueOf (radix : ℕ) (t : List UInt8) : ℕ := t.foldl (fun n c => n * radix + digitValue c) 0

/-- Every character is a digit below the radix. -/
def IsDigits (radix : ℕ) (t : List UInt8) : Prop := ∀ c ∈ t, ∃ d < radix, c = digit d

/-- `t` is the number `v`, without leading zeros. -/
structure IsNumeral (radix : ℕ) (t : List UInt8) (v : ℕ) : Prop where
  digits : IsDigits radix t
  value : valueOf radix t = v
  leading : t = ['0'.toUInt8] ∨ ∃ c rest, t = c :: rest ∧ c ≠ '0'.toUInt8

/-- The text of a number. -/
def numeral (radix v : ℕ) : List UInt8 :=
  if v = 0 then ['0'.toUInt8] else ((Nat.digits radix v).map digit).reverse

theorem digitValue_digit : ∀ d < 36, digitValue (digit d) = d := by
  decide

theorem digit_ne_zero : ∀ d < 36, digit d ≠ 0 := by
  decide

theorem digit_eq_zero : ∀ d < 36, digit d = '0'.toUInt8 → d = 0 := by
  decide

theorem valueOf_digits {radix : ℕ} {ds : List ℕ} (h : ∀ d ∈ ds, d < 36) :
    valueOf radix (ds.map digit).reverse = Nat.ofDigits radix ds := by
  unfold valueOf
  rw [List.foldl_reverse]
  induction ds with
  | nil => rfl
  | cons d ds ih =>
    rw [List.map_cons, List.foldr_cons, ih fun e he => h e (List.mem_cons_of_mem d he),
      digitValue_digit d (h d List.mem_cons_self), Nat.ofDigits_cons, Nat.mul_comm,
      Nat.add_comm]

theorem isNumeral_numeral {radix : ℕ} (hlow : 2 ≤ radix) (hhigh : radix ≤ 36) (v : ℕ) :
    IsNumeral radix (numeral radix v) v := by
  unfold numeral
  by_cases hv : v = 0
  · rw [if_pos hv]
    refine ⟨fun c hc => ⟨0, by omega, List.mem_singleton.mp hc⟩, ?_, .inl rfl⟩
    rw [hv, valueOf, List.foldl_cons, List.foldl_nil, Nat.zero_mul]
    rfl
  · rw [if_neg hv]
    have hlt : ∀ d ∈ Nat.digits radix v, d < radix := fun d hd => Nat.digits_lt_base hlow hd
    refine ⟨fun c hc => ?_, ?_, .inr ?_⟩
    · obtain ⟨d, hd, rfl⟩ := List.mem_map.mp (List.mem_reverse.mp hc)
      exact ⟨d, hlt d hd, rfl⟩
    · rw [valueOf_digits fun d hd => (hlt d hd).trans_le hhigh, Nat.ofDigits_digits]
    · -- the highest digit comes first
      have hne : Nat.digits radix v ≠ [] := Nat.digits_ne_nil_iff_ne_zero.mpr hv
      have hlast := Nat.getLast_digit_ne_zero radix hv
      have hmem := (hlt _ (List.getLast_mem hne)).trans_le hhigh
      refine ⟨digit ((Nat.digits radix v).getLast hne), ((Nat.digits radix v).dropLast.map digit).reverse,
        ?_, fun he => hlast (digit_eq_zero _ hmem he)⟩
      nth_rewrite 1 [← List.dropLast_append_getLast hne]
      rw [List.map_append, List.reverse_append, List.map_singleton, List.reverse_singleton,
        List.singleton_append]

theorem length_numeral {radix v n : ℕ} (hlow : 2 ≤ radix) (hn : 1 ≤ n) (hv : v < radix ^ n) :
    1 ≤ (numeral radix v).length ∧ (numeral radix v).length ≤ n := by
  unfold numeral
  by_cases hz : v = 0
  · rw [if_pos hz]
    exact ⟨Nat.le_refl 1, hn⟩
  · rw [if_neg hz, List.length_reverse, List.length_map]
    exact ⟨List.length_pos_iff.mpr (Nat.digits_ne_nil_iff_ne_zero.mpr hz),
      (Nat.digits_length_le_iff hlow v).mpr hv⟩

theorem zero_notMem_numeral {radix v : ℕ} (hlow : 2 ≤ radix) (hhigh : radix ≤ 36) :
    0 ∉ numeral radix v := by
  intro hzero
  obtain ⟨d, hd, he⟩ := (isNumeral_numeral hlow hhigh v).digits 0 hzero
  exact digit_ne_zero d (by omega) he.symm

/-! ## The loops -/

theorem strlen_eq {fuel : ℕ} {s : ℕ → UInt8} {t : List UInt8} (h : Text s t) (hfuel : t.length < fuel) :
    strlen fuel s = some t.length := by
  rw [strlen, loop_eq h _ hfuel, Option.map_some]

/-- The digits, lowest first. -/
theorem itoaLoop_eq {radix : ℕ} (hlow : 2 ≤ radix) (fuel : ℕ) :
    ∀ {v buf : ℕ} (m : ℕ → UInt8), (Nat.digits radix v).length < fuel →
      itoaLoop radix fuel v buf m
        = some (buf + (Nat.digits radix v).length, place buf ((Nat.digits radix v).map digit) m) := by
  induction fuel with
  | zero =>
    intro v buf m hfuel
    omega
  | succ fuel ih =>
    intro v buf m hfuel
    rw [itoaLoop]
    by_cases hv : v > 0
    · have hdigits : Nat.digits radix v = v % radix :: Nat.digits radix (v / radix) :=
        Nat.digits_def' hlow hv
      rw [hdigits, List.length_cons] at hfuel ⊢
      rw [if_pos hv, ih _ (by omega), Nat.add_assoc, Nat.add_comm 1, List.map_cons, place]
    · rw [if_neg hv, Nat.eq_zero_of_not_pos hv, Nat.digits_zero]
      rfl

/-- The string `t` has been written at `buf`, and nothing else has changed. -/
structure Written (m m' : ℕ → UInt8) (buf : ℕ) (t : List UInt8) : Prop where
  text : Text (fun i => m' (buf + i)) t
  frame : ∀ a, a < buf ∨ buf + t.length < a → m' a = m a

theorem written_place {t : List UInt8} (ht : 0 ∉ t) (buf : ℕ) (m : ℕ → UInt8) :
    Written m (update (place buf t m) (buf + t.length) 0) buf t where
  text := by
    have hreads : Reads (place buf t m) buf t := fun i hi => place_add hi m
    exact (hreads.congr fun i _ hi => update_of_ne (by omega) ..).text ht (update_self ..)
  frame a ha := by
    rw [update_of_ne (by omega)]
    rcases ha with ha | ha
    · exact place_of_lt ha t m
    · exact place_of_le t (Nat.le_of_lt ha) m

/-- `strrev` reverses a string that it finds. -/
theorem strrev_eq {fuel buf : ℕ} {m m' : ℕ → UInt8} {t : List UInt8} (h : Written m m' buf t)
    (hfuel : t.length < fuel) :
    ∃ m'', strrev fuel buf m' = some m'' ∧ Written m m'' buf t.reverse := by
  obtain ⟨fuel, rfl⟩ : ∃ n, fuel = n + 1 := ⟨fuel - 1, by omega⟩
  obtain ⟨g, hg, hcells⟩ := swapLoop_eq fuel (b := buf) (e := buf + t.length - 1) m' (by omega)
    (by omega)
  refine ⟨g, ?_, ?_, ?_⟩
  · rw [strrev, strlen_eq h.text hfuel, Option.bind_some, hg]
  · refine ⟨mt List.mem_reverse.mp h.text.nonzero, fun i hi => ?_⟩
    rw [List.length_reverse] at hi
    rw [hcells]
    rcases Nat.lt_or_eq_of_le hi with hi | rfl
    · rw [if_pos (by omega), List.getD_eq_getElem _ 0 (by simpa using hi), List.getElem_reverse]
      have hcell := h.text.getElem (i := t.length - 1 - i) (by omega)
      rw [← hcell]
      congr 1
      omega
    · rw [if_neg (by omega), List.getD_eq_default _ 0 (by simp)]
      exact h.text.at_length
  · intro a ha
    rw [List.length_reverse] at ha
    rw [hcells, if_neg (by omega)]
    exact h.frame a ha

/-- `itoa` writes the numeral of its value. -/
theorem itoa_eq {fuel v radix : ℕ} (hlow : 2 ≤ radix) (hhigh : radix ≤ 36) (hv : v < 2 ^ 32)
    (hfuel : 33 ≤ fuel) (buf : ℕ) (m : ℕ → UInt8) :
    ∃ m', itoa fuel v buf radix m = some m' ∧ Written m m' buf (numeral radix v) := by
  by_cases hz : v = 0
  · rw [itoa, numeral, if_pos hz, if_pos hz]
    exact ⟨_, rfl, written_place (t := ['0'.toUInt8]) (by decide) buf m⟩
  · have hlen : (Nat.digits radix v).length ≤ 32 :=
      (Nat.digits_length_le_iff hlow v).mpr (hv.trans_le (Nat.pow_le_pow_left hlow 32))
    have hdigits : 0 ∉ (Nat.digits radix v).map digit := by
      intro hzero
      have hnot := zero_notMem_numeral (v := v) hlow hhigh
      rw [numeral, if_neg hz, List.mem_reverse] at hnot
      exact hnot hzero
    have hwritten := written_place hdigits buf m
    rw [List.length_map] at hwritten
    rw [itoa, numeral, if_neg hz, if_neg hz, itoaLoop_eq hlow fuel m (by omega), Option.bind_some]
    exact strrev_eq hwritten (by rw [List.length_map]; omega)

end LibC
end GalapagOS
