import GalapagOS.Grep.Common
import Mathlib.Data.List.DropRight

/-!
# The lines that `grep` prints

Between two reads the buffer holds the start of a line whose end is still to come, and everything
before it has been dealt with (`Pending`). A sweep takes the buffer with the bytes of the next read
back to such a state (`sweep_eq`), so the whole run writes what `expected` says (`readLoop_eq`).

Whether the last line of the buffer is complete is read off the byte behind it. Where the buffer is
full this is `data[1024]`, which the program has not written when the first lines are searched. If it
happens to hold a newline, the first line that straddles two reads is taken for two (`readLoop_cut`).
-/

namespace GalapagOS
namespace Grep

open CString Lines Memory Function

/-! ## Strings -/

section

variable {fuel : ℕ} {f g : ℕ → UInt8} {t p : List UInt8}

theorem strlen_from (h : Text f t) (hfuel : t.length < fuel) : strlen fuel f = some t.length := by
  have hcount : ∀ (l : List UInt8) (n : ℕ), l.foldl (fun len _ => len + 1) n = n + l.length := by
    intro l
    induction l with
    | nil => exact fun n => rfl
    | cons b l ih => exact fun n => (ih (n + 1)).trans (by rw [List.length_cons]; omega)
  rw [strlen, loop_eq h _ hfuel, Option.map_some, hcount, Nat.zero_add]

theorem fdputs_eq (h : Text f t) (hfuel : t.length < fuel) : fdputs fuel f = some t := by
  rw [fdputs, strlen_from h hfuel, Option.map_some, slice]
  congr 1
  refine List.ext_getElem (by simp) fun i hi hi' => ?_
  simp [h.getElem hi']

/-- `ece391_strncmp` over the whole of its second string asks for a prefix. -/
theorem strncmp_eq_zero_iff :
    ∀ {p t : List UInt8} {f g : ℕ → UInt8}, Text f t → Text g p →
      (strncmp f g p.length = 0 ↔ p <+: t)
  | [], t, f, g, _, _ => by simp [strncmp]
  | c :: p, t, f, g, hf, hg => by
    have hc : g 0 = c := hg.getElem (i := 0) (Nat.succ_pos _)
    have hne : c ≠ 0 := hc ▸ hg.ne_zero (i := 0) (Nat.succ_pos _)
    rw [List.length_cons, strncmp, hc]
    by_cases heq : f 0 = c
    · cases t with
      | nil => exact absurd (heq.symm.trans hf.at_length) hne
      | cons b t =>
        obtain rfl : c = b := heq.symm.trans (hf.getElem (i := 0) (Nat.succ_pos _))
        rw [if_pos heq, List.prefix_cons_inj]
        by_cases hp : p.length = 0
        · rw [if_pos (.inr hp), List.length_eq_zero_iff.mp hp]
          simp
        · rw [if_neg (by simp [heq, hne, hp])]
          exact strncmp_eq_zero_iff hf.tail hg.tail
    · rw [if_neg heq]
      -- the bytes differ, and so do their values
      have hval : (f 0).toNat ≠ c.toNat := fun h => heq (UInt8.toNat_inj.mp h)
      refine ⟨fun h => absurd h (by omega), fun hpre => ?_⟩
      cases t with
      | nil => exact absurd hpre (by simp)
      | cons b t =>
        have hb : c = b := (List.cons_prefix_cons.mp hpre).1
        exact absurd ((hf.getElem (i := 0) (Nat.succ_pos _)).trans hb.symm) heq

theorem text_literal {t : String} (h : (0 : UInt8) ∉ bytes t) : Text (literal t) (bytes t) :=
  ⟨h, fun _ _ => rfl⟩

end

/-! ## One line -/

/-- A `char` below 128 has the value of its byte. -/
theorem charValue_eq {c : UInt8} (h : c < 128) : charValue c = c.toNat := by
  have hlt : c.toNat < 128 := h
  rw [charValue, BitVec.toInt_eq_toNat_of_lt (by simpa using by omega)]
  rfl

/-- A `char` from 128 on is negative. -/
theorem charValue_neg {c : UInt8} (h : ¬c < 128) : charValue c < 0 := by
  have hle : 128 ≤ c.toNat := Nat.not_lt.mp h
  have hlt : c.toNat < 256 := c.toNat_lt
  rw [charValue, BitVec.toInt_eq_toNat_cond, if_neg (by simpa using by omega)]
  simp only [UInt8.toNat_toBitVec]
  omega

theorem findEnd_eq {data : ℕ → UInt8} :
    ∀ {l : List UInt8} {n a : ℕ}, Reads data a l → newline ∉ l →
      (n = l.length ∨ l.length < n ∧ data (a + l.length) = newline) →
      findEnd data n a = a + l.length
  | [], 0, a, _, _, _ => rfl
  | [], n + 1, a, _, _, hend => by
    have hnl : data a = newline := hend.elim (fun h => absurd h (by simp)) (·.2)
    rw [findEnd, if_neg (not_not.mpr hnl)]
    rfl
  | b :: l, 0, a, _, _, hend => by simp at hend
  | b :: l, n + 1, a, hreads, hnl, hend => by
    have hhead : data a = b := hreads 0 (Nat.succ_pos _)
    have hb : data a ≠ newline := fun h => hnl (h ▸ hhead ▸ List.mem_cons_self)
    have hplace : a + 1 + l.length = a + (b :: l).length := by rw [List.length_cons]; omega
    have htail : Reads data (a + 1) l := (show Reads data a ([b] ++ l) from hreads).right
    rw [findEnd, if_pos hb,
      findEnd_eq htail (fun h => hnl (List.mem_cons_of_mem b h)) (by
        rw [hplace]
        simpa using hend),
      hplace]

section

variable {s fname : ℕ → UInt8} {pat name : List UInt8} {fuel : ℕ}

/-- The loop over `check` finds the search string exactly where it is. -/
theorem found_eq (hs : Text s pat) (hne : pat ≠ []) (hchar : s 0 < 128) {data : ℕ → UInt8} :
    ∀ {t : List UInt8} {a : ℕ}, Text (fun i => data (a + i)) t →
      found s pat.length data t.length a = decide (pat <:+: t)
  | [], a, _ => by
    simp [found, hne]
  | b :: t, a, ht => by
    have hb : data a = b := ht.getElem (i := 0) (Nat.succ_pos _)
    have htail : Text (fun i => data (a + 1 + i)) t :=
      ht.tail.congr fun i _ => by rw [Nat.add_assoc, Nat.add_comm 1]
    have hhead : charValue (s 0) = (data a).toNat ∧ strncmp (fun i => data (a + i)) s pat.length = 0
        ↔ pat <+: b :: t := by
      rw [strncmp_eq_zero_iff ht hs]
      refine ⟨And.right, fun hpre => ⟨?_, hpre⟩⟩
      -- a line that starts with the string also passes the test of the first character
      cases pat with
      | nil => exact absurd rfl hne
      | cons c pat =>
        have hc : s 0 = c := hs.getElem (i := 0) (Nat.succ_pos _)
        rw [charValue_eq hchar, hb, hc, (List.cons_prefix_cons.mp hpre).1]
    rw [List.length_cons, found]
    by_cases hpre : pat <+: b :: t
    · rw [if_pos (hhead.mpr hpre)]
      simp [List.infix_cons_iff, hpre]
    · rw [if_neg (hpre ∘ hhead.mp), found_eq hs hne hchar htail]
      simp [List.infix_cons_iff, hpre]

/-- A string that starts with a byte from 128 on is not found anywhere: the bytes of the buffer are
not negative. -/
theorem found_eq_false (hchar : ¬s 0 < 128) (data : ℕ → UInt8) :
    ∀ n a : ℕ, found s pat.length data n a = false
  | 0, a => rfl
  | n + 1, a => by
    have hneg := charValue_neg hchar
    rw [found, if_neg (fun h => by have := h.1; omega), found_eq_false hchar data n]

/-- What the search of a line writes. -/
def printed (s : ℕ → UInt8) (pat name line : List UInt8) : List (List UInt8) :=
  if s 0 < 128 then report pat name line else []

/-- The arguments of a call that searches, with fuel for its name and for every line. -/
structure Asked (s fname : ℕ → UInt8) (pat name : List UInt8) (fuel : ℕ) : Prop where
  string : Text s pat
  nonempty : pat ≠ []
  file_name : Text fname name
  name_lt : name.length < fuel
  size_lt : bufSize + 1 < fuel

theorem Asked.printed_nil (h : Asked s fname pat name fuel) : printed s pat name [] = [] := by
  unfold printed report
  simp [h.nonempty]

theorem searchLine_eq (h : Asked s fname pat name fuel) {data : ℕ → UInt8} {t : List UInt8} {a : ℕ}
    (ht : Text (fun i => data (a + i)) t) (hlen : t.length ≤ bufSize) :
    searchLine s fname fuel pat.length data a (a + t.length) = some (printed s pat name t) := by
  have hsize := h.size_lt
  rw [searchLine, Nat.add_sub_cancel_left, printed]
  by_cases hascii : s 0 < 128
  · rw [found_eq h.string h.nonempty hascii ht, if_pos hascii, report]
    have hcolon : fdputs fuel (literal ":") = some (bytes ":") :=
      fdputs_eq (text_literal (by decide)) (Nat.lt_of_le_of_lt (by decide) hsize)
    have hfeed : fdputs fuel (literal "\n") = some (bytes "\n") :=
      fdputs_eq (text_literal (by decide)) (Nat.lt_of_le_of_lt (by decide) hsize)
    have hline : fdputs fuel (fun i => data (a + i)) = some t := fdputs_eq ht (by omega)
    by_cases hin : pat <:+: t
    · simp only [hin, decide_true, if_true, fdputs_eq h.file_name h.name_lt, hcolon, hline, hfeed]
      rfl
    · simp only [hin, decide_false, if_false]
      rfl
  · rw [found_eq_false hascii, if_neg hascii]
    rfl

end

/-! ## The output for some lines -/

section

variable {rep : List UInt8 → List (List UInt8)} {l m r : List UInt8}

/-- A text with something written for each line. -/
def linesOut (rep : List UInt8 → List (List UInt8)) (file : List UInt8) : List (List UInt8) :=
  (rawLines newline file).flatMap fun line => rep (line.takeWhile (· ≠ newline))

/-- A line without its newline. -/
theorem takeWhile_of_notMem (h : newline ∉ l) (r : List UInt8) :
    (l ++ r).takeWhile (· ≠ newline) = l ++ r.takeWhile (· ≠ newline) :=
  List.takeWhile_append_of_pos fun b hb => by
    have hb' : b ≠ newline := fun he => h (he ▸ hb)
    simpa using hb'

theorem linesOut_line (rep : List UInt8 → List (List UInt8)) (h : newline ∉ l) (r : List UInt8) :
    linesOut rep (l ++ newline :: r) = rep l ++ linesOut rep r := by
  rw [linesOut, rawLines_append h, List.flatMap_cons, takeWhile_of_notMem h]
  simp [linesOut]

/-- The last line may lack its newline. -/
theorem linesOut_last (hnil : rep [] = []) (h : newline ∉ l) : linesOut rep l = rep l := by
  cases hl : l with
  | nil => simp [linesOut, rawLines, hnil]
  | cons b t =>
    have hall : l.takeWhile (· ≠ newline) = l := by simpa using takeWhile_of_notMem h []
    rw [← hl, linesOut, rawLines_of_notMem h (by simp [hl]), List.flatMap_singleton, hall]

/-- Complete lines can be taken apart from what follows them. -/
theorem linesOut_append (rep : List UInt8 → List (List UInt8)) (r : List UInt8) :
    ∀ l : List UInt8, (l = [] ∨ ∃ k, l = k ++ [newline]) →
      linesOut rep (l ++ r) = linesOut rep l ++ linesOut rep r := by
  intro l
  induction hn : l.length using Nat.strong_induction_on generalizing l with
  | _ n ih =>
    rintro (rfl | ⟨k, rfl⟩)
    · rfl
    -- the first of the lines
    obtain ⟨first, rest, hsplit, hfirst⟩ := List.eq_append_cons_of_mem
      (show newline ∈ k ++ [newline] by simp)
    have hlen : rest.length < n := by
      rw [← hn, hsplit, List.length_append, List.length_cons]
      omega
    have hrest : rest = [] ∨ ∃ k, rest = k ++ [newline] := by
      rcases List.eq_nil_or_concat rest with hnil | ⟨k', b, hk'⟩
      · exact .inl hnil
      · refine .inr ⟨k', ?_⟩
        have hlast := congrArg List.getLast? hsplit
        simp only [hk', List.concat_eq_append, List.getLast?_append, List.getLast?_cons] at hlast
        simp at hlast
        rw [hk', List.concat_eq_append, ← hlast]
    rw [hsplit, List.append_assoc, List.cons_append, linesOut_line rep hfirst,
      linesOut_line rep hfirst, List.append_assoc, ih _ hlen rest rfl hrest]

/-- A line that is taken for two. -/
theorem linesOut_cut_iff (hnil : rep [] = []) {A B : List UInt8} :
    linesOut rep A ++ linesOut rep B = linesOut rep (A ++ B) ↔
      rep (A.rtakeWhile (· ≠ newline)) ++ rep (B.takeWhile (· ≠ newline))
        = rep (A.rtakeWhile (· ≠ newline) ++ B.takeWhile (· ≠ newline)) := by
  let p : UInt8 → Bool := (· ≠ newline)
  have hp : ∀ b, p b = true ↔ b ≠ newline := fun b => decide_eq_true_iff
  -- the complete lines before the cut, the two pieces, and the lines behind
  have hlines : A.rdropWhile p = [] ∨ ∃ k, A.rdropWhile p = k ++ [newline] := by
    rcases List.eq_nil_or_concat (A.rdropWhile p) with hempty | ⟨k, b, hk⟩
    · exact .inl hempty
    · refine .inr ⟨k, ?_⟩
      have hne : A.rdropWhile p ≠ [] := by rw [hk]; simp
      have hlast := List.rdropWhile_last_not p A hne
      simp only [hk, List.concat_eq_append, List.getLast_append_singleton, hp, not_not] at hlast
      rw [hk, List.concat_eq_append, hlast]
  have hA : A = A.rdropWhile p ++ A.rtakeWhile p := (List.rdropWhile_append_rtakeWhile).symm
  have hleft : newline ∉ A.rtakeWhile p := fun h => (hp _).mp (List.mem_rtakeWhile_imp h) rfl
  have hright : newline ∉ B.takeWhile p := fun h => (hp _).mp (List.mem_takeWhile_imp h) rfl
  obtain ⟨tail, htail⟩ : ∃ tail, ∀ l, newline ∉ l →
      linesOut rep (l ++ B) = rep (l ++ B.takeWhile p) ++ tail := by
    cases hB : B.dropWhile p with
    | nil =>
      refine ⟨[], fun l hl => ?_⟩
      have hall : B.takeWhile p = B := by
        have := List.takeWhile_append_dropWhile (p := p) (l := B)
        rwa [hB, List.append_nil] at this
      rw [hall] at hright ⊢
      rw [linesOut_last hnil (by simp [hl, hright]), List.append_nil]
    | cons b rest =>
      have hb : b = newline := by
        have hnot := List.dropWhile_get_zero_not p B (by rw [hB]; exact Nat.succ_pos _)
        simpa [hB, hp] using hnot
      refine ⟨linesOut rep rest, fun l hl => ?_⟩
      have hsplit : B = B.takeWhile p ++ newline :: rest := by
        rw [← hb, ← hB, List.takeWhile_append_dropWhile]
      calc linesOut rep (l ++ B)
          = linesOut rep ((l ++ B.takeWhile p) ++ newline :: rest) := by
            rw [List.append_assoc, ← hsplit]
        _ = rep (l ++ B.takeWhile p) ++ linesOut rep rest :=
            linesOut_line rep (by simp [hl, hright]) rest
  have hout : linesOut rep B = rep (B.takeWhile p) ++ tail := htail [] List.not_mem_nil
  have hpieces : linesOut rep A = linesOut rep (A.rdropWhile p) ++ rep (A.rtakeWhile p) := by
    conv_lhs => rw [hA]
    rw [linesOut_append rep _ _ hlines, linesOut_last hnil hleft]
  have hwhole : linesOut rep (A ++ B) = linesOut rep (A.rdropWhile p) ++
      (rep (A.rtakeWhile p ++ B.takeWhile p) ++ tail) := by
    conv_lhs => rw [hA]
    rw [List.append_assoc, linesOut_append rep _ _ hlines, htail _ hleft]
  show _ ↔ rep (A.rtakeWhile p) ++ rep (B.takeWhile p) = rep (A.rtakeWhile p ++ B.takeWhile p)
  rw [hout, hpieces, hwhole, List.append_assoc, List.append_cancel_left_eq, ← List.append_assoc,
    List.append_cancel_right_eq]

/-- The two pieces of a line are reported as the line only if there is nothing to report. -/
theorem report_cut_iff {pat name : List UInt8} (hne : pat ≠ []) (hl : l ≠ []) :
    report pat name l ++ report pat name m = report pat name (l ++ m) ↔
      m = [] ∨ ¬pat <:+: l ++ m := by
  have hlen : ∀ t, (report pat name t).length = if pat <:+: t then 4 else 0 := by
    intro t
    unfold report
    split <;> rfl
  constructor
  · intro heq
    by_contra hcon
    push Not at hcon
    obtain ⟨hm, hin⟩ := hcon
    have hcount := congrArg List.length heq
    rw [List.length_append, hlen, hlen, hlen, if_pos hin] at hcount
    -- one piece is reported, which is not the line
    by_cases hinl : pat <:+: l
    · by_cases hinm : pat <:+: m
      · rw [if_pos hinl, if_pos hinm] at hcount
        omega
      · rw [report, report, report, if_pos hinl, if_neg hinm, if_pos hin] at heq
        simp at heq
        exact hm heq
    · by_cases hinm : pat <:+: m
      · rw [report, report, report, if_neg hinl, if_pos hinm, if_pos hin] at heq
        simp at heq
        exact hl heq
      · rw [if_neg hinl, if_neg hinm] at hcount
        omega
  · rintro (rfl | hnot)
    · have hnil : report pat name [] = [] := by
        rw [report, if_neg (by simpa using hne)]
      rw [hnil, List.append_nil, List.append_nil]
    · have hinl : ¬pat <:+: l := fun h => hnot (h.trans (List.prefix_append l m).isInfix)
      have hinm : ¬pat <:+: m := fun h => hnot (h.trans (List.suffix_append l m).isInfix)
      rw [report, report, report, if_neg hinl, if_neg hinm, if_neg hnot]
      rfl

end

/-! ## A sweep over the buffer -/

/-- Between two reads: the start `B` of a line is in the buffer, `rest` is still in the file. -/
structure Pending (data : ℕ → UInt8) (B rest : List UInt8) : Prop where
  reads : Reads data 0 B
  short : B.length < bufSize
  behind : data bufSize ≠ newline ∨ B.length + rest.length ≤ bufSize
  lines : ∀ l ∈ rawLines newline (B ++ rest), l.length ≤ bufSize
  nonzero : (0 : UInt8) ∉ B ++ rest

/-- An empty buffer. -/
theorem pending_nil {data : ℕ → UInt8} {file : List UInt8} (hfile : (0 : UInt8) ∉ file)
    (hlines : ∀ l ∈ rawLines newline file, l.length ≤ bufSize)
    (hbehind : data bufSize ≠ newline ∨ file.length ≤ bufSize) : Pending data [] file :=
  ⟨fun i hi => absurd hi (Nat.not_lt_zero i), by decide, by simpa using hbehind, hlines, hfile⟩

/-- During a sweep: the lines of `D` are still to be searched, the first of them begins at `a`. -/
structure Filled (p : State) (a : ℕ) (D rest : List UInt8) : Prop where
  reads : Reads p.data a D
  last_eq : p.last = a + D.length
  last_le : p.last ≤ bufSize
  full : rest ≠ [] → p.last = bufSize
  behind : p.data bufSize ≠ newline ∨ rest = []
  lines : ∀ l ∈ rawLines newline (D ++ rest), l.length ≤ bufSize
  nonzero : (0 : UInt8) ∉ D ++ rest

section

variable {p : State} {a : ℕ} {l D rest : List UInt8}

/-- A full buffer that is not the end of the file has a newline in it. -/
theorem newline_mem (hlines : ∀ l ∈ rawLines newline (D ++ rest), l.length ≤ bufSize)
    (hfull : bufSize ≤ D.length) (hrest : rest ≠ []) : newline ∈ D := by
  by_contra hnl
  -- otherwise the first line is longer than the buffer
  obtain ⟨first, more, hraw, hlt⟩ := exists_rawLines hnl hrest
  have hle := hlines first (hraw ▸ List.mem_cons_self)
  omega

/-- A NUL behind the next bytes makes them a string. -/
theorem Filled.text (h : Filled p a (l ++ D) rest) :
    Text (fun i => update p.data (a + l.length) 0 (a + i)) l := by
  refine Reads.text (h.reads.left.congr fun i _ hi => ?_) ?_ (update_self ..)
  · exact update_of_ne (by omega) ..
  · exact fun hmem => h.nonzero (List.mem_append_left _ (List.mem_append_left _ hmem))

theorem Filled.length_le (h : Filled p a D rest) : a + D.length ≤ bufSize := h.last_eq ▸ h.last_le

/-- The newline of a line is overwritten; the lines behind it stay. -/
theorem Filled.next (h : Filled p a (l ++ newline :: D) rest) (hl : newline ∉ l)
    (written : List (List UInt8)) :
    Filled { p with data := update p.data (a + l.length) 0, written := written }
      (a + l.length + 1) D rest := by
  have hlast := h.last_eq
  have hle := h.length_le
  have hsplit : l ++ newline :: D ++ rest = l ++ newline :: (D ++ rest) := by simp
  have hlines := h.lines
  have hzero := h.nonzero
  rw [hsplit] at hlines hzero
  rw [List.length_append, List.length_cons] at hlast hle
  refine ⟨?_, by simp only; omega, h.last_le, h.full, ?_, fun l' hl' => hlines l' ?_,
    fun hmem => hzero (List.mem_append_right _ (List.mem_cons_of_mem _ hmem))⟩
  · have hright : Reads p.data (a + l.length + 1) D :=
      (show Reads p.data (a + l.length) ([newline] ++ D) from h.reads.right).right
    exact hright.congr fun i hi _ => update_of_ne (by omega) ..
  · show update p.data (a + l.length) 0 bufSize ≠ newline ∨ rest = []
    rw [update_of_ne (by omega)]
    exact h.behind
  · rw [rawLines_append hl]
    exact List.mem_cons_of_mem _ hl'

/-- Nothing is left in the buffer. -/
theorem Filled.emptied (h : Filled p a [] rest) : Pending p.data [] rest :=
  pending_nil h.nonzero h.lines (h.behind.imp_right fun hrest => by simp [hrest])

end

section

variable {s fname : ℕ → UInt8} {pat name rest D l : List UInt8} {fuel cnt n a : ℕ} {p : State}

/-- A line that ends in the buffer is searched. -/
theorem sweep_line (hq : Asked s fname pat name fuel) (h : Filled p a (l ++ newline :: D) rest)
    (hl : newline ∉ l) :
    sweep s fname fuel pat.length cnt (n + 1) a p =
      let p' : State := { p with
        data := update p.data (a + l.length) 0
        written := p.written ++ printed s pat name l }
      if D = [] then some { p' with last := 0 }
      else sweep s fname fuel pat.length cnt n (a + l.length + 1) p' := by
  have hlast := h.last_eq
  have hle := h.length_le
  have hend : p.data (a + l.length) = newline := h.reads.right 0 (Nat.succ_pos _)
  have hleft : p.last - a = (l ++ newline :: D).length := by omega
  have hfind : findEnd p.data (p.last - a) a = a + l.length := by
    rw [hleft]
    exact findEnd_eq h.reads.left hl (.inr ⟨by simp, hend⟩)
  rw [List.length_append, List.length_cons] at hlast hle
  have hline := searchLine_eq hq h.text (by omega)
  have hmore : p.last ≤ a + l.length + 1 ↔ D = [] := by
    rw [← List.length_eq_zero_iff]
    omega
  simp only [sweep, hfind, hend, ne_eq, not_true, false_and, if_false, hline, hmore,
    Option.bind_eq_bind, Option.bind_some, Option.pure_def]

/-- Without a newline the sweep comes to the end of the buffer. -/
theorem Filled.findEnd_eq_last (h : Filled p a D rest) (hnl : newline ∉ D) :
    findEnd p.data (p.last - a) a = p.last := by
  rw [show p.last - a = D.length by rw [h.last_eq, Nat.add_sub_cancel_left], h.last_eq]
  exact findEnd_eq h.reads hnl (.inl rfl)

theorem Filled.text_last (h : Filled p a D rest) :
    Text (fun i => update p.data p.last 0 (a + i)) D := by
  rw [h.last_eq]
  exact Filled.text (D := []) (by rwa [List.append_nil])

/-- The start of a line goes to the front. -/
theorem sweep_slide (hq : Asked s fname pat name fuel) (h : Filled p a D rest) (hnl : newline ∉ D)
    (hslide : p.data p.last ≠ newline ∧ cnt ≠ 0 ∧ a ≠ 0) :
    ∃ data, sweep s fname fuel pat.length cnt (n + 1) a p = some ⟨data, D.length, p.written⟩ ∧
      Pending data D rest := by
  have hle := h.length_le
  have hsize := hq.size_lt
  have ha := Nat.pos_of_ne_zero hslide.2.2
  obtain ⟨data, hcopy, hcells⟩ := copyLoop_eq fuel h.text_last ha (by omega)
  refine ⟨data, ?_, ?_, by omega, ?_, h.lines, h.nonzero⟩
  · simp only [sweep, h.findEnd_eq_last hnl, if_pos hslide, strcpy, hcopy]
    rw [h.last_eq, Nat.add_sub_cancel_left]
    rfl
  · intro i hi
    rw [hcells, if_pos (by omega), Nat.zero_add, Nat.sub_zero]
    exact h.text_last.getElem hi
  · by_cases hrest : rest = []
    · exact .inr (by rw [hrest, List.length_nil]; omega)
    · -- the copy ends below the byte behind the buffer, which has become the NUL
      rw [hcells, if_neg (by omega), h.full hrest, update_self]
      exact .inl (by decide)

/-- A line that is not slid is the last one of the file. -/
theorem Filled.rest_eq_nil (h : Filled p a D rest) (hnl : newline ∉ D) (hcnt : cnt = 0 → rest = [])
    (hslide : ¬(p.data p.last ≠ newline ∧ cnt ≠ 0 ∧ a ≠ 0)) : rest = [] := by
  by_contra hrest
  have hfull := h.full hrest
  refine hslide ⟨?_, fun hzero => hrest (hcnt hzero), fun ha => ?_⟩
  · rw [hfull]
    exact h.behind.resolve_right hrest
  · exact hnl (newline_mem h.lines (by have := h.last_eq; omega) hrest)

theorem sweep_last (hq : Asked s fname pat name fuel) (h : Filled p a D rest) (hnl : newline ∉ D)
    (hslide : ¬(p.data p.last ≠ newline ∧ cnt ≠ 0 ∧ a ≠ 0)) :
    sweep s fname fuel pat.length cnt (n + 1) a p =
      some ⟨update p.data p.last 0, 0, p.written ++ printed s pat name D⟩ := by
  have hle := h.length_le
  have hline := searchLine_eq hq h.text_last (by omega)
  rw [← h.last_eq] at hline
  simp only [sweep, h.findEnd_eq_last hnl, if_neg hslide, hline, if_pos (Nat.le_succ p.last),
    Option.bind_eq_bind, Option.bind_some, Option.pure_def]

/-- A sweep searches the lines that are complete and keeps the start of the next. -/
theorem sweep_eq (hq : Asked s fname pat name fuel) (hcnt : cnt = 0 → rest = []) (n : ℕ) :
    ∀ {a : ℕ} {D : List UInt8} {p : State}, Filled p a D rest → D.length < n →
      ∃ data B written,
        sweep s fname fuel pat.length cnt n a p = some ⟨data, B.length, written⟩ ∧
        Pending data B rest ∧
        written ++ linesOut (printed s pat name) (B ++ rest) = p.written ++ linesOut (printed s pat name) (D ++ rest) ∧
        (cnt = 0 → B = []) := by
  induction n with
  | zero =>
    intro a D p _ hn
    omega
  | succ n ih =>
    intro a D p h hn
    by_cases hnl : newline ∈ D
    · -- the next line ends in the buffer; the induction goes on behind it
      obtain ⟨l, D, rfl, hl⟩ := List.eq_append_cons_of_mem hnl
      have hnext := h.next hl (p.written ++ printed s pat name l)
      rw [sweep_line hq h hl, List.append_assoc, List.cons_append, linesOut_line _ hl,
        ← List.append_assoc p.written]
      by_cases hD : D = []
      · subst hD
        exact ⟨_, [], _, if_pos rfl, hnext.emptied, rfl, fun _ => rfl⟩
      · rw [List.length_append, List.length_cons] at hn
        simp only [if_neg hD]
        exact ih hnext (by omega)
    by_cases hslide : p.data p.last ≠ newline ∧ cnt ≠ 0 ∧ a ≠ 0
    · obtain ⟨data, hsweep, hpending⟩ := sweep_slide (n := n) hq h hnl hslide
      exact ⟨data, D, p.written, hsweep, hpending, rfl, fun hzero => absurd hzero hslide.2.1⟩
    · obtain rfl := h.rest_eq_nil hnl hcnt hslide
      have hpending : Pending (update p.data p.last 0) [] [] :=
        pending_nil List.not_mem_nil (fun l hl => absurd hl List.not_mem_nil) (.inr (by decide))
      refine ⟨_, [], _, sweep_last hq h hnl hslide, hpending, ?_, fun _ => rfl⟩
      rw [List.append_nil, List.append_nil, linesOut_last hq.printed_nil hnl]
      exact List.append_nil _

/-- With a newline behind the full buffer the sweep searches the whole buffer and keeps nothing: the
last line in it counts as complete wherever it ends. The newline behind is overwritten unless the last
line is complete. -/
theorem sweep_cut (hq : Asked s fname pat name fuel) (n : ℕ) :
    ∀ {a : ℕ} {D : List UInt8} {p : State}, Filled p a D [] → p.last = bufSize →
      p.data bufSize = newline → D.length < n →
      ∃ data, sweep s fname fuel pat.length cnt n a p
          = some ⟨data, 0, p.written ++ linesOut (printed s pat name) D⟩ ∧
        (data bufSize = newline ↔ D.getLast? = some newline) := by
  induction n with
  | zero =>
    intro a D p _ _ _ hn
    omega
  | succ n ih =>
    intro a D p h hlast hbehind hn
    by_cases hnl : newline ∈ D
    · -- the first line of the buffer; the NUL that ends it comes before the end of the buffer
      obtain ⟨l, D, rfl, hl⟩ := List.eq_append_cons_of_mem hnl
      have hle := h.length_le
      rw [List.length_append, List.length_cons] at hn hle
      have hbehind' : update p.data (a + l.length) 0 bufSize = newline := by
        rw [update_of_ne (by omega), hbehind]
      rw [sweep_line hq h hl, linesOut_line _ hl, ← List.append_assoc]
      by_cases hD : D = []
      · subst hD
        rw [show linesOut (printed s pat name) [] = [] from rfl, List.append_nil]
        exact ⟨_, if_pos rfl, by simp [hbehind']⟩
      · obtain ⟨data, hsweep, hdata⟩ := ih (h.next hl _) hlast hbehind' (by omega)
        refine ⟨data, ?_, ?_⟩
        · simp only [if_neg hD]
          exact hsweep
        · rw [hdata, List.getLast?_append, List.getLast?_cons]
          obtain ⟨k, b, hk⟩ := (List.eq_nil_or_concat D).resolve_left hD
          simp [hk]
    · -- the rest ends at the newline behind the buffer, which becomes its NUL
      rw [linesOut_last hq.printed_nil hnl]
      refine ⟨_, sweep_last hq h hnl fun hslide => hslide.1 (hlast ▸ hbehind), ?_⟩
      rw [hlast, update_self]
      refine ⟨fun h => absurd h (by decide), fun h => absurd (List.mem_of_getLast? h) hnl⟩

/-! ## The whole file -/

/-- The next read fills the buffer, unless the file ends. -/
theorem Pending.read {data : ℕ → UInt8} {B : List UInt8} (h : Pending data B rest)
    (written : List (List UInt8)) :
    Filled ⟨place B.length (rest.take (bufSize - B.length)) data,
        B.length + (rest.take (bufSize - B.length)).length, written⟩
      0 (B ++ rest.take (bufSize - B.length)) (rest.drop (bufSize - B.length)) := by
  have hshort := h.short
  have hjoin :
      B ++ rest.take (bufSize - B.length) ++ rest.drop (bufSize - B.length) = B ++ rest := by
    rw [List.append_assoc, List.take_append_drop]
  have hlen : (rest.take (bufSize - B.length)).length = min (bufSize - B.length) rest.length :=
    List.length_take
  refine ⟨Reads.append (h.reads.congr fun i _ hi => ?_) fun i hi => ?_, ?_, ?_, fun hrest => ?_, ?_,
    hjoin ▸ h.lines, hjoin ▸ h.nonzero⟩
  · exact place_of_lt (by omega) _ _
  · rw [Nat.zero_add]
    exact place_add hi _
  · simp
  · simp only
    omega
  · have hlt : bufSize - B.length < rest.length := by simpa using hrest
    simp only
    omega
  · simp only
    rw [place_of_le _ (by omega)]
    refine h.behind.imp_right fun hle => ?_
    rw [List.drop_eq_nil_iff]
    omega

/-- The loop over the reads writes what is expected of the bytes in the buffer and in the file. -/
theorem readLoop_eq (hq : Asked s fname pat name fuel) (file : List UInt8) (n : ℕ) :
    ∀ (written : List (List UInt8)) {k : ℕ} {data : ℕ → UInt8} {B rest : List UInt8},
      Pending data B rest → rest.length < n →
      readLoop s fname fuel pat.length ⟨true, fun _ => false, true, file⟩ n k rest
          ⟨data, B.length, written⟩
        = some (written ++ linesOut (printed s pat name) (B ++ rest), 0) := by
  induction n with
  | zero =>
    intro written k data B rest _ hn
    omega
  | succ n ih =>
    intro written k data B rest h hn
    have hshort := h.short
    have hsize := hq.size_lt
    have hlen : (rest.take (bufSize - B.length)).length = min (bufSize - B.length) rest.length :=
      List.length_take
    -- there is room in the buffer, so a read of no bytes means the end of the file
    have hcnt : (rest.take (bufSize - B.length)).length = 0 → rest.drop (bufSize - B.length) = [] :=
      fun hzero => List.drop_eq_nil_iff.mpr (by omega)
    obtain ⟨data', B', written', hsweep, hpending, hout, hB⟩ :=
      sweep_eq hq hcnt fuel (h.read written) (by rw [List.length_append]; omega)
    rw [List.append_assoc, List.take_append_drop] at hout
    simp only [readLoop, hsweep, if_true, if_false, Bool.false_eq_true, Option.bind_eq_bind,
      Option.bind_some, Option.pure_def]
    by_cases hzero : (rest.take (bufSize - B.length)).length = 0
    · rw [hB hzero, hcnt hzero] at hout
      rw [if_neg (not_not.mpr hzero), ← hout]
      exact congrArg (fun w => some (w, 0)) (List.append_nil written').symm
    · rw [if_pos hzero, ih written' hpending (by rw [List.length_drop]; omega), hout]

end

section

variable {s fname data : ℕ → UInt8} {pat name : List UInt8}

theorem doOneFile_eq_readLoop {fuel : ℕ} {file : List UInt8} (hs : Text s pat)
    (hfuel : pat.length < fuel) :
    doOneFile ⟨true, fun _ => false, true, file⟩ fuel s fname data =
      readLoop s fname fuel pat.length ⟨true, fun _ => false, true, file⟩ fuel 0 file
        ⟨data, 0, []⟩ := by
  rw [doOneFile, strlen_from hs hfuel]
  rfl

end

/-! ## A newline behind the buffer -/

/-- The first place where a line of the file goes on behind a full buffer, after `n + 1` reads. -/
structure CutAt (file : List UInt8) (n : ℕ) : Prop where
  inside : bufSize * (n + 1) < file.length
  straddles : file.getD (bufSize * (n + 1) - 1) 0 ≠ newline
  first : ∀ m < n, file.getD (bufSize * (m + 1) - 1) 0 = newline

section

variable {file : List UInt8} {n m : ℕ}

theorem CutAt.unique (h : CutAt file n) (h' : CutAt file m) : n = m := by
  rcases Nat.lt_trichotomy n m with hlt | heq | hlt
  · exact absurd (h'.first n hlt) h.straddles
  · exact heq
  · exact absurd (h.first m hlt) h'.straddles

theorem getD_drop_bufSize (file : List UInt8) (n : ℕ) :
    (file.drop bufSize).getD (bufSize * (n + 1) - 1) 0 = file.getD (bufSize * (n + 2) - 1) 0 := by
  have hplace : bufSize + (bufSize * (n + 1) - 1) = bufSize * (n + 2) - 1 := by
    unfold bufSize
    omega
  rw [List.getD_eq_getElem?_getD, List.getElem?_drop, hplace, List.getD_eq_getElem?_getD]

/-- If a line ends with the first read, the place is the one in the rest of the file. -/
theorem cutAt_succ_iff (h : file.getD (bufSize - 1) 0 = newline) :
    CutAt file (n + 1) ↔ CutAt (file.drop bufSize) n := by
  have hinside : bufSize * (n + 1 + 1) < file.length ↔
      bufSize * (n + 1) < (file.drop bufSize).length := by
    rw [List.length_drop]
    unfold bufSize
    omega
  constructor
  · rintro ⟨hin, hstraddles, hfirst⟩
    refine ⟨hinside.mp hin, by rwa [getD_drop_bufSize], fun m hm => ?_⟩
    rw [getD_drop_bufSize]
    exact hfirst (m + 1) (Nat.succ_lt_succ hm)
  · rintro ⟨hin, hstraddles, hfirst⟩
    refine ⟨hinside.mpr hin, by rwa [getD_drop_bufSize] at hstraddles, fun m hm => ?_⟩
    cases m with
    | zero => exact h
    | succ m =>
      rw [← getD_drop_bufSize]
      exact hfirst m (Nat.lt_of_succ_lt_succ hm)

theorem getLast?_take_bufSize (h : bufSize < file.length) :
    (file.take bufSize).getLast? = some newline ↔ file.getD (bufSize - 1) 0 = newline := by
  have hpos : bufSize - 1 < file.length := by omega
  rw [List.getLast?_take, if_neg (by decide), List.getElem?_eq_getElem hpos,
    List.getD_eq_getElem _ _ hpos]
  simp

/-- What is written when `data[1024]` holds a newline: the line across the first such place is taken
for two. -/
def cutOut (rep : List UInt8 → List (List UInt8)) (file : List UInt8) (out : List (List UInt8)) :
    Prop :=
  ((∀ n, ¬CutAt file n) ∧ out = linesOut rep file) ∨
    ∃ n, CutAt file n ∧ out = linesOut rep (file.take (bufSize * (n + 1))) ++
      linesOut rep (file.drop (bufSize * (n + 1)))

theorem cutOut.eq {rep : List UInt8 → List (List UInt8)} {out : List (List UInt8)}
    (h : cutOut rep file out) (hn : CutAt file n) :
    out = linesOut rep (file.take (bufSize * (n + 1))) ++
      linesOut rep (file.drop (bufSize * (n + 1))) := by
  rcases h with ⟨hnone, -⟩ | ⟨m, hm, hout⟩
  · exact absurd hn (hnone n)
  · rw [hn.unique hm]
    exact hout

theorem cutOut.unique {rep : List UInt8 → List (List UInt8)} {out out' : List (List UInt8)}
    (h : cutOut rep file out) (h' : cutOut rep file out') : out = out' := by
  rcases h with ⟨hnone, rfl⟩ | ⟨n, hn, rfl⟩
  · rcases h' with ⟨-, rfl⟩ | ⟨n, hn, -⟩
    · rfl
    · exact absurd hn (hnone n)
  · exact (h'.eq hn).symm

/-- A first read that ends with a line. -/
theorem cutOut_append {rep : List UInt8 → List (List UInt8)} {out : List (List UInt8)}
    (hlen : bufSize < file.length) (h : file.getD (bufSize - 1) 0 = newline)
    (hout : cutOut rep (file.drop bufSize) out) :
    cutOut rep file (linesOut rep (file.take bufSize) ++ out) := by
  have hlines : file.take bufSize = [] ∨ ∃ k, file.take bufSize = k ++ [newline] := by
    obtain ⟨k, hk⟩ := List.getLast?_eq_some_iff.mp ((getLast?_take_bufSize hlen).mpr h)
    exact .inr ⟨k, hk⟩
  rcases hout with ⟨hnone, rfl⟩ | ⟨n, hcut, rfl⟩
  · refine .inl ⟨fun n hcut => ?_, ?_⟩
    · cases n with
      | zero => exact hcut.straddles h
      | succ n => exact hnone n ((cutAt_succ_iff h).mp hcut)
    · rw [← linesOut_append rep _ _ hlines, List.take_append_drop]
  · refine .inr ⟨n + 1, (cutAt_succ_iff h).mpr hcut, ?_⟩
    have hplace : bufSize * (n + 1 + 1) = bufSize + bufSize * (n + 1) := by
      unfold bufSize
      omega
    rw [hplace, ← List.append_assoc, ← linesOut_append rep _ _ hlines, List.drop_drop,
      ← List.take_add]

end

section

variable {s fname : ℕ → UInt8} {pat name : List UInt8} {fuel : ℕ}

/-- A read that fills the buffer, with a newline behind it: the piece is taken for whole lines, and the
newline stays there if the piece ends with one. -/
theorem readLoop_full (hq : Asked s fname pat name fuel) (file : List UInt8) (n k : ℕ)
    (written : List (List UInt8)) {data : ℕ → UInt8} {rest : List UInt8}
    (hdata : data bufSize = newline) (hzero : (0 : UInt8) ∉ rest) (hlen : bufSize < rest.length) :
    ∃ data', readLoop s fname fuel pat.length ⟨true, fun _ => false, true, file⟩ (n + 1) k rest
        ⟨data, 0, written⟩ = readLoop s fname fuel pat.length ⟨true, fun _ => false, true, file⟩ n
          (k + 1) (rest.drop bufSize)
          ⟨data', 0, written ++ linesOut (printed s pat name) (rest.take bufSize)⟩ ∧
      (data' bufSize = newline ↔ rest.getD (bufSize - 1) 0 = newline) := by
  have hsize := hq.size_lt
  have hfull : (rest.take bufSize).length = bufSize := by
    rw [List.length_take]
    omega
  have hleft : (0 : UInt8) ∉ rest.take bufSize := fun h => hzero (List.mem_of_mem_take h)
  -- the sweep sees the buffer only, as if the file ended there
  have hstart : Pending data [] (rest.take bufSize) :=
    pending_nil hleft (fun l hl => hfull ▸ length_le_of_mem hl) (.inr hfull.le)
  have hfilled : Filled ⟨place 0 (rest.take bufSize) data, 0 + (rest.take bufSize).length, written⟩
      0 (rest.take bufSize) [] := by
    have hread := hstart.read written
    rwa [List.length_nil, Nat.sub_zero, List.take_take, min_self, List.drop_take, Nat.sub_self,
      List.take_zero] at hread
  have hcell : place 0 (rest.take bufSize) data bufSize = newline := by
    rw [place_of_le _ (by omega), hdata]
  obtain ⟨data', hsweep, hdata'⟩ : ∃ data', sweep s fname fuel pat.length
        (rest.take bufSize).length fuel 0
        ⟨place 0 (rest.take bufSize) data, 0 + (rest.take bufSize).length, written⟩
      = some ⟨data', 0, written ++ linesOut (printed s pat name) (rest.take bufSize)⟩ ∧
        (data' bufSize = newline ↔ (rest.take bufSize).getLast? = some newline) :=
    sweep_cut hq fuel hfilled (by simp only; omega) hcell (by omega)
  have hcnt : (rest.take bufSize).length ≠ 0 := by
    rw [hfull]
    decide
  refine ⟨data', ?_, ?_⟩
  · simp only [readLoop, Nat.sub_zero, hsweep, if_pos hcnt, Bool.false_eq_true, if_false,
      Option.bind_eq_bind, Option.bind_some]
  · rw [hdata', getLast?_take_bufSize hlen]

theorem readLoop_cut (hq : Asked s fname pat name fuel) (file : List UInt8) (n : ℕ) :
    ∀ (written : List (List UInt8)) {k : ℕ} {data : ℕ → UInt8} {rest : List UInt8},
      data bufSize = newline → (∀ l ∈ rawLines newline rest, l.length ≤ bufSize) →
      (0 : UInt8) ∉ rest → rest.length < n →
      ∃ out, readLoop s fname fuel pat.length ⟨true, fun _ => false, true, file⟩ n k rest
          ⟨data, 0, written⟩ = some (written ++ out, 0) ∧
        cutOut (printed s pat name) rest out := by
  induction n with
  | zero =>
    intro written k data rest _ _ _ hn
    omega
  | succ n ih =>
    intro written k data rest hdata hlines hzero hn
    by_cases hlen : rest.length ≤ bufSize
    · -- the file ends with this read
      refine ⟨_, readLoop_eq hq file (n + 1) _ (pending_nil hzero hlines (.inr hlen)) hn, .inl ⟨?_, rfl⟩⟩
      intro m hcut
      have := hcut.inside
      unfold bufSize at this hlen
      omega
    have hlt := Nat.lt_of_not_le hlen
    have hright : (0 : UInt8) ∉ rest.drop bufSize := fun h => hzero (List.mem_of_mem_drop h)
    have hlines' : ∀ l ∈ rawLines newline (rest.drop bufSize), l.length ≤ bufSize := by
      intro l hl
      obtain ⟨l', hl', hle⟩ := exists_length_le_of_mem (rest.take bufSize) hl
      rw [List.take_append_drop] at hl'
      exact hle.trans (hlines l' hl')
    have hshort : (rest.drop bufSize).length < n := by
      rw [List.length_drop]
      unfold bufSize at hlt ⊢
      omega
    obtain ⟨data', hloop, hdata'⟩ := readLoop_full hq file n k written hdata hzero hlt
    rw [hloop]
    by_cases hend : rest.getD (bufSize - 1) 0 = newline
    · obtain ⟨out, hout, hcut⟩ := ih
        (written ++ linesOut (printed s pat name) (rest.take bufSize)) (k := k + 1)
        (hdata'.mpr hend) hlines' hright hshort
      rw [List.append_assoc] at hout
      exact ⟨_, hout, cutOut_append hlt hend hcut⟩
    · -- from here on the byte behind the buffer is the NUL of the piece
      have hpending : Pending data' [] (rest.drop bufSize) :=
        pending_nil hright hlines' (.inl fun h => hend (hdata'.mp h))
      have hrun := readLoop_eq hq file n
        (written ++ linesOut (printed s pat name) (rest.take bufSize)) (k := k + 1) hpending hshort
      rw [List.append_assoc] at hrun
      refine ⟨_, hrun, .inr ⟨0, ⟨by simpa using hlt, by simpa using hend, by simp⟩, ?_⟩⟩
      simp

end

/-! ## What is written -/

section

variable {s fname data : ℕ → UInt8} {pat name file : List UInt8} {out : List (List UInt8)}

/-- What a call writes for a file: the reports for its lines, where a newline behind the buffer may
cut one of them. -/
def Written (s data : ℕ → UInt8) (pat name file : List UInt8) (out : List (List UInt8)) : Prop :=
  (data bufSize = newline → cutOut (printed s pat name) file out) ∧
    (data bufSize ≠ newline → out = linesOut (printed s pat name) file)

theorem Written.unique {out' : List (List UInt8)} (h : Written s data pat name file out)
    (h' : Written s data pat name file out') : out = out' := by
  by_cases hdata : data bufSize = newline
  · exact (h.1 hdata).unique (h'.1 hdata)
  · exact (h.2 hdata).trans (h'.2 hdata).symm

theorem exists_doOneFile (hs : Text s pat) (hne : pat ≠ []) (hname : Text fname name)
    (hfile : (0 : UInt8) ∉ file) (hlines : ∀ l ∈ rawLines newline file, l.length ≤ bufSize)
    (data : ℕ → UInt8) :
    ∃ out, Written s data pat name file out ∧ ∃ n, ∀ fuel ≥ n,
      doOneFile ⟨true, fun _ => false, true, file⟩ fuel s fname data = some (out, 0) := by
  let n := pat.length + name.length + file.length + bufSize + 2
  have hrun : ∀ fuel ≥ n, ∃ out, Written s data pat name file out ∧
      doOneFile ⟨true, fun _ => false, true, file⟩ fuel s fname data = some (out, 0) := by
    intro fuel hfuel
    have hfuel' : pat.length + name.length + file.length + bufSize + 2 ≤ fuel := hfuel
    have hq : Asked s fname pat name fuel := ⟨hs, hne, hname, by omega, by omega⟩
    rw [doOneFile_eq_readLoop hs (by omega)]
    by_cases hdata : data bufSize = newline
    · obtain ⟨out, hout, hcut⟩ := readLoop_cut hq file fuel [] (k := 0) hdata hlines hfile
        (by omega)
      exact ⟨out, ⟨fun _ => hcut, fun h => absurd hdata h⟩, hout⟩
    · exact ⟨_, ⟨fun h => absurd h hdata, fun _ => rfl⟩,
        readLoop_eq hq file fuel [] (pending_nil hfile hlines (.inl hdata)) (by omega)⟩
  obtain ⟨out, hout, -⟩ := hrun n le_rfl
  refine ⟨out, hout, n, fun fuel hfuel => ?_⟩
  obtain ⟨out', hout', hfile'⟩ := hrun fuel hfuel
  rw [hfile', hout.unique hout']

/-- The call writes the lines that contain the search string, and returns 0. -/
def PrintsMatchingLines (s fname data : ℕ → UInt8) (pat name file : List UInt8) : Prop :=
  ∃ n, ∀ fuel ≥ n, doOneFile ⟨true, fun _ => false, true, file⟩ fuel s fname data
    = some (expected pat name file, 0)

/-- The line on both sides of a place in a file. -/
def lineAround (file : List UInt8) (n : ℕ) : List UInt8 :=
  (file.take n).rtakeWhile (· ≠ newline) ++ (file.drop n).takeWhile (· ≠ newline)

/-- No line is missed: the string starts with an ASCII character or occurs nowhere, and if the byte
behind the buffer is a newline, the first line that goes on behind a full buffer does not contain the
string or has only its newline there. -/
structure Unhurt (s data : ℕ → UInt8) (pat file : List UInt8) : Prop where
  ascii : s 0 < 128 ∨ ∀ l ∈ rawLines newline file, ¬pat <:+: l.takeWhile (· ≠ newline)
  behind : s 0 < 128 → data bufSize = newline → ∀ n, CutAt file n →
    file.getD (bufSize * (n + 1)) 0 = newline ∨ ¬pat <:+: lineAround file (bufSize * (n + 1))

/-- A line that is cut is printed exactly if nothing was to be printed, or only its newline is cut
off. -/
theorem CutAt.linesOut_iff {n : ℕ} (h : CutAt file n) (hne : pat ≠ []) :
    linesOut (report pat name) (file.take (bufSize * (n + 1))) ++
        linesOut (report pat name) (file.drop (bufSize * (n + 1))) = expected pat name file ↔
      file.getD (bufSize * (n + 1)) 0 = newline ∨
        ¬pat <:+: lineAround file (bufSize * (n + 1)) := by
  obtain ⟨hinside, hstraddles, -⟩ := h
  have hpos : 0 < bufSize * (n + 1) := by
    unfold bufSize
    omega
  generalize bufSize * (n + 1) = c at *
  have hnil : report pat name [] = [] := by
    rw [report, if_neg (by simpa using hne)]
  -- a part of the line stands before the cut
  have hleft : (file.take c).rtakeWhile (· ≠ newline) ≠ [] := by
    have hlast : (file.take c).getLast? = some (file.getD (c - 1) 0) := by
      have hlt : c - 1 < file.length := by omega
      rw [List.getLast?_take, if_neg (by omega), List.getElem?_eq_getElem hlt,
        List.getD_eq_getElem _ _ hlt]
      rfl
    intro h
    rw [List.rtakeWhile_eq_nil_iff] at h
    have htake : file.take c ≠ [] := by
      rw [ne_eq, List.take_eq_nil_iff]
      rintro (hc | hf)
      · omega
      · rw [hf] at hinside
        exact absurd hinside (Nat.not_lt_zero c)
    rw [List.getLast?_eq_getLast_of_ne_nil htake, Option.some.injEq] at hlast
    have := h htake
    rw [hlast] at this
    exact this (by simpa using hstraddles)
  have hright : (file.drop c).takeWhile (· ≠ newline) = [] ↔ file.getD c 0 = newline := by
    rw [List.drop_eq_getElem_cons hinside, List.getD_eq_getElem _ _ hinside, List.takeWhile_cons]
    by_cases hnl : file[c] = newline <;> simp [hnl]
  have hcut := linesOut_cut_iff hnil (A := file.take c) (B := file.drop c)
  rw [List.take_append_drop] at hcut
  exact hcut.trans ((report_cut_iff hne hleft).trans (or_congr_left hright))

end

/-! ### A line across two reads -/

/-- The first line and 1022 of the 1023 characters of the second, which fill the buffer. -/
def straddlingStart : List UInt8 := bytes "x\n" ++ List.replicate 1022 'a'.toUInt8

/-- A file of two lines, the second of which needs two reads. -/
def straddling : List UInt8 := straddlingStart ++ bytes "b\n"

/-- The second line without its newline. -/
def straddlingLine : List UInt8 := List.replicate 1022 'a'.toUInt8 ++ bytes "b"

theorem straddling_eq :
    straddling = bytes "x" ++ newline :: (straddlingLine ++ newline :: []) := by
  rw [straddling, straddlingStart, straddlingLine, List.append_assoc, List.append_assoc]
  rfl

theorem newline_notMem_straddlingLine : newline ∉ straddlingLine := by
  intro h
  rcases List.mem_append.mp h with h | h
  · exact absurd (List.eq_of_mem_replicate h) (by decide)
  · exact absurd h (by decide)

theorem length_straddlingStart : straddlingStart.length = bufSize := by
  rw [straddlingStart, List.length_append, List.length_replicate]
  rfl

theorem zero_notMem_straddlingStart : (0 : UInt8) ∉ straddlingStart := by
  intro h
  rcases List.mem_append.mp h with h | h
  · exact absurd h (by decide)
  · exact absurd (List.eq_of_mem_replicate h) (by decide)

theorem zero_notMem_straddling : (0 : UInt8) ∉ straddling := fun h =>
  (List.mem_append.mp h).elim zero_notMem_straddlingStart (by decide)

theorem length_le_of_mem_straddling : ∀ l ∈ rawLines newline straddling, l.length ≤ bufSize := by
  rw [straddling_eq, rawLines_append (by decide), rawLines_append newline_notMem_straddlingLine]
  intro l hl
  rcases List.mem_cons.mp hl with rfl | hl
  · decide
  rcases List.mem_cons.mp hl with rfl | hl
  · rw [straddlingLine, List.length_append, List.length_append, List.length_replicate]
    decide
  · exact absurd hl List.not_mem_nil

theorem expected_straddling :
    expected (bytes "ab") (bytes "f") straddling
      = [bytes "f", bytes ":", straddlingLine, bytes "\n"] := by
  have hin : bytes "ab" <:+: straddlingLine := by
    have hsplit : List.replicate 1022 'a'.toUInt8
        = List.replicate 1021 'a'.toUInt8 ++ ['a'.toUInt8] := List.replicate_succ'
    refine ⟨List.replicate 1021 'a'.toUInt8, [], ?_⟩
    rw [straddlingLine, hsplit, List.append_nil, List.append_assoc]
    rfl
  show linesOut (report _ _) _ = _
  rw [straddling_eq, linesOut_line _ (by decide), linesOut_line _ newline_notMem_straddlingLine,
    report, if_neg (by decide), report, if_pos hin]
  rfl

theorem cutAt_straddling : CutAt straddling 0 := by
  refine ⟨?_, ?_, fun m hm => absurd hm (Nat.not_lt_zero m)⟩
  · rw [straddling, List.length_append, length_straddlingStart]
    decide
  · have hlt : bufSize * (0 + 1) - 1 < straddlingStart.length := by
      rw [length_straddlingStart]
      decide
    rw [straddling, List.getD_append _ _ _ _ hlt, straddlingStart,
      List.getD_append_right _ _ _ _ (by decide), List.getD_replicate _ (by decide)]
    decide

/-- Neither piece contains the string. -/
theorem linesOut_straddling_pieces {rep : List UInt8 → List (List UInt8)}
    (hrep : rep = report (bytes "ab") (bytes "f")) :
    linesOut rep (straddling.take (bufSize * (0 + 1))) ++
      linesOut rep (straddling.drop (bufSize * (0 + 1))) = [] := by
  have hnl : newline ∉ List.replicate 1022 'a'.toUInt8 := fun h =>
    absurd (List.eq_of_mem_replicate h) (by decide)
  have hin : ¬bytes "ab" <:+: List.replicate 1022 'a'.toUInt8 := fun h => by
    have hb : 'b'.toUInt8 ∈ bytes "ab" := by decide
    exact absurd (List.eq_of_mem_replicate (h.subset hb)) (by decide)
  have hstart : straddlingStart = bytes "x" ++ newline :: List.replicate 1022 'a'.toUInt8 := rfl
  have hlen : bufSize * (0 + 1) = straddlingStart.length := length_straddlingStart.symm
  rw [straddling, hlen, List.take_left, List.drop_left, hstart, hrep, linesOut_line _ (by decide),
    linesOut_last (by decide) hnl, report, if_neg (by decide), report, if_neg hin]
  decide

/-! ### The result -/

/-- `grep` prints the lines of a file that contain the search string, in order, exactly if the string
and the byte behind the buffer are harmless. -/
theorem doOneFile_prints_matching_lines {s fname data : ℕ → UInt8} {pat name file : List UInt8}
    (hs : Text s pat) (hne : pat ≠ []) (hname : Text fname name) (hfile : (0 : UInt8) ∉ file)
    (hlines : ∀ l ∈ rawLines newline file, l.length ≤ bufSize) :
    PrintsMatchingLines s fname data pat name file ↔ Unhurt s data pat file := by
  obtain ⟨out, hwritten, n, hrun⟩ := exists_doOneFile hs hne hname hfile hlines data
  have hprints : PrintsMatchingLines s fname data pat name file ↔ out = expected pat name file := by
    constructor
    · rintro ⟨m, hm⟩
      have hboth := (hrun _ (le_max_left n m)).symm.trans (hm _ (le_max_right n m))
      exact (Prod.mk.inj (Option.some.inj hboth)).1
    · exact fun h => ⟨n, h ▸ hrun⟩
  rw [hprints]
  by_cases hascii : s 0 < 128
  · have hrep : printed s pat name = report pat name := funext fun line => if_pos hascii
    rw [Written, hrep] at hwritten
    by_cases hdata : data bufSize = newline
    · rcases hwritten.1 hdata with ⟨hnone, hout⟩ | ⟨n, hcut, hout⟩
      · exact ⟨fun _ => ⟨.inl hascii, fun _ _ n hn => absurd hn (hnone n)⟩, fun _ => hout⟩
      · rw [hout, hcut.linesOut_iff hne]
        refine ⟨fun h => ⟨.inl hascii, fun _ _ m hm => ?_⟩, fun h => h.behind hascii hdata n hcut⟩
        rw [hm.unique hcut]
        exact h
    · exact ⟨fun _ => ⟨.inl hascii, fun _ h => absurd h hdata⟩, fun _ => hwritten.2 hdata⟩
  · -- nothing is found, so nothing is written
    have hrep : printed s pat name = fun _ => [] := funext fun line => if_neg hascii
    have hnothing : ∀ file, linesOut (printed s pat name) file = [] := fun file => by
      rw [hrep, linesOut]
      simp
    have hout : out = [] := by
      by_cases hdata : data bufSize = newline
      · rcases hwritten.1 hdata with ⟨-, hout⟩ | ⟨n, -, hout⟩
        · rw [hout, hnothing]
        · rw [hout, hnothing, hnothing]
          rfl
      · rw [hwritten.2 hdata, hnothing]
    have hexpected : [] = expected pat name file ↔
        ∀ l ∈ rawLines newline file, ¬pat <:+: l.takeWhile (· ≠ newline) := by
      rw [eq_comm, expected, List.flatMap_eq_nil_iff]
      refine forall_congr' fun l => imp_congr_right fun _ => ?_
      unfold report
      split <;> simp_all
    rw [hout, hexpected]
    exact ⟨fun h => ⟨.inr h, fun h' => absurd h' hascii⟩, fun h => h.ascii.resolve_left hascii⟩

/-- The line is found although it comes in two pieces. -/
theorem doOneFile_prints_straddling_line :
    (0 : UInt8) ∉ straddling ∧ bufSize < straddling.length ∧
    ∃ n, ∀ fuel ≥ n,
      doOneFile ⟨true, fun _ => false, true, straddling⟩ fuel (literal "ab") (literal "f")
        (fun _ => 0) = some ([bytes "f", bytes ":", straddlingLine, bytes "\n"], 0) := by
  refine ⟨zero_notMem_straddling, ?_, ?_⟩
  · rw [straddling, List.length_append, length_straddlingStart]
    decide
  · rw [← expected_straddling]
    exact (doOneFile_prints_matching_lines (text_literal (by decide)) (by decide)
      (text_literal (by decide)) zero_notMem_straddling length_le_of_mem_straddling).mpr
      ⟨.inl (by decide), fun _ h => absurd h (by decide)⟩

/-- With a newline in `data[1024]` the same line is missed; and a string that starts with a byte
from 128 on is never found, since the first comparison takes it for a negative number. -/
theorem doOneFile_misses_lines :
    (Text (literal "ab") (bytes "ab") ∧ Text (literal "f") (bytes "f") ∧ newline ∉ bytes "ab" ∧
      (0 : UInt8) ∉ straddling ∧ (∀ l ∈ rawLines newline straddling, l.length ≤ bufSize) ∧
      expected (bytes "ab") (bytes "f") straddling
        = [bytes "f", bytes ":", straddlingLine, bytes "\n"] ∧
      ∃ n, ∀ fuel ≥ n,
        doOneFile ⟨true, fun _ => false, true, straddling⟩ fuel (literal "ab") (literal "f")
          (fun _ => newline) = some ([], 0)) ∧
    (Text (fun i => ([0x80] : List UInt8).getD i 0) [0x80] ∧
      expected [0x80] (bytes "f") [0x80, newline] = [bytes "f", bytes ":", [0x80], bytes "\n"] ∧
      doOneFile ⟨true, fun _ => false, true, [0x80, newline]⟩ 4 (fun i => [0x80].getD i 0)
        (literal "f") (fun _ => 0) = some ([], 0)) := by
  refine ⟨⟨text_literal (by decide), text_literal (by decide), by decide, zero_notMem_straddling,
    length_le_of_mem_straddling, expected_straddling, ?_⟩, ⟨by decide, fun _ _ => rfl⟩, by decide,
    by decide +kernel⟩
  have hstring : Text (literal "ab") (bytes "ab") := text_literal (by decide)
  have hname : Text (literal "f") (bytes "f") := text_literal (by decide)
  obtain ⟨out, hwritten, hrun⟩ := exists_doOneFile hstring (by decide) hname zero_notMem_straddling
    length_le_of_mem_straddling (fun _ => newline)
  have hrep : printed (literal "ab") (bytes "ab") (bytes "f") = report (bytes "ab") (bytes "f") :=
    funext fun line => if_pos (by decide)
  have hout := (hwritten.1 rfl).eq cutAt_straddling
  rw [linesOut_straddling_pieces hrep] at hout
  rw [← hout]
  exact hrun

end Grep
end GalapagOS
