import GalapagOS.FileSystem.Theorems
import GalapagOS.Lib.CString
import Mathlib.Data.UInt

/-!
# Names

A name field holds a string of at most 32 bytes, without a NUL when it is full. `check_file_name`
compares 32 bytes at most, so it decides equality for strings that fit the field; a longer string
is accepted when its first 32 bytes fill a field. `dir_read` lists the names of the entries in use,
and on an image whose unused entries have no names it lists what can be looked up.
-/

namespace GalapagOS
namespace FileSystem

open CString

variable {img : Image} {f : ℕ → UInt8} {s : List UInt8}

/-! ## Strings in memory -/

/-- Memory with a string in it, followed by zeros. -/
def ofString (s : List UInt8) : ℕ → UInt8 := fun i => s.getD i 0

theorem text_ofString (h : 0 ∉ s) : Text (ofString s) s := text_getD h

/-- The name that a string is taken for. -/
theorem cname_of_text (h : Text f s) : cname f = s.take fnameSize := h.takeWhile_range fnameSize

/-! ## Looking up -/

theorem length_entryName_le (img : Image) (i : ℕ) : (entryName img i).length ≤ fnameSize := by
  unfold entryName FileSystem.cname
  refine (List.takeWhile_sublist _).length_le.trans ?_
  simp

/-- `read_dentry_by_name` with its output parameter: the return value and `*dentry`. -/
def readDentryByNameInto (img : Image) (fname : Option (ℕ → UInt8)) (dentry : Dentry) : ℤ × Dentry :=
  match readDentryByName img fname with
  | some d => (0, d)
  | none => (-1, dentry)

/-- The test of one entry. -/
theorem checkFileName_entry_iff (hf : Text f s) (i : ℕ) :
    checkFileName f (entry img i) = true ↔ entryName img i = s.take fnameSize := by
  rw [FileSystem.checkFileName_iff, cname_of_text hf]
  exact eq_comm

/-- A lookup finds the first entry with the name that the string is taken for, or there is none. -/
theorem readDentryByName_cases (img : Image) (hf : Text f s) :
    (∃ i < bootBlockEntries, s ≠ [] ∧ entryName img i = s.take fnameSize ∧
        (∀ j < i, entryName img j ≠ s.take fnameSize) ∧
        readDentryByName img (some f) = some (entry img i)) ∨
      (s = [] ∨ ∀ i < bootBlockEntries, entryName img i ≠ s.take fnameSize) ∧
        readDentryByName img (some f) = none := by
  by_cases hs : s = []
  · right
    refine ⟨.inl hs, ?_⟩
    simp [readDentryByName, hf.eq_nil_iff.mpr hs]
  · have h0 : f 0 ≠ 0 := fun he => hs (hf.eq_nil_iff.mp he)
    simp only [readDentryByName, if_neg h0]
    cases hfind : (List.range bootBlockEntries).find? fun j => checkFileName f (entry img j) with
    | none =>
      right
      refine ⟨.inr fun i hi hname => ?_, rfl⟩
      rw [List.find?_eq_none] at hfind
      exact hfind i (by simpa using hi) (checkFileName_entry_iff hf i |>.mpr hname)
    | some i =>
      left
      rw [List.find?_range_eq_some] at hfind
      obtain ⟨hcheck, hi, hfirst⟩ := hfind
      refine ⟨i, by simpa using hi, hs, (checkFileName_entry_iff hf i).mp hcheck, fun j hj hname => ?_, rfl⟩
      have hnot := hfirst j hj
      rw [(checkFileName_entry_iff hf j).mpr hname] at hnot
      cases hnot

/-- A lookup looks at no more than the name. -/
theorem readDentryByName_congr (img : Image) {f g : ℕ → UInt8} (h : cname f = cname g) :
    readDentryByName img (some f) = readDentryByName img (some g) := by
  have hcheck : (fun i => checkFileName f (entry img i)) = fun i => checkFileName g (entry img i) := by
    funext i
    rw [Bool.eq_iff_iff, FileSystem.checkFileName_iff, FileSystem.checkFileName_iff, h]
  have hnil : f 0 = 0 ↔ g 0 = 0 := by rw [← cname_eq_nil, h, cname_eq_nil]
  simp only [readDentryByName, hcheck, hnil]

/-- The first entry of a name. -/
structure Names (img : Image) (s : List UInt8) (i : ℕ) : Prop where
  lt : i < bootBlockEntries
  ne_nil : s ≠ []
  name : entryName img i = s
  first : ∀ j < i, entryName img j ≠ s

theorem Names.unique {i j : ℕ} (hi : Names img s i) (hj : Names img s j) : i = j := by
  rcases lt_trichotomy i j with hlt | heq | hlt
  · exact absurd hi.name (hj.first i hlt)
  · exact heq
  · exact absurd hj.name (hi.first j hlt)

/-- What a lookup of a string finds. -/
theorem readDentryByName_eq_some_iff (hf : Text f s) {d : Dentry} :
    readDentryByName img (some f) = some d ↔ ∃ i, Names img (s.take fnameSize) i ∧ d = entry img i := by
  have hnil : s.take fnameSize = [] ↔ s = [] := by simp [fnameSize]
  rcases readDentryByName_cases img hf with ⟨i, hi, hs, hname, hfirst, hd⟩ | ⟨hnone, hd⟩
  · have hnames : Names img (s.take fnameSize) i := ⟨hi, fun he => hs (hnil.mp he), hname, hfirst⟩
    rw [hd]
    refine ⟨fun he => ⟨i, hnames, (Option.some.inj he).symm⟩, ?_⟩
    rintro ⟨j, hj, rfl⟩
    rw [hnames.unique hj]
  · rw [hd]
    refine ⟨fun he => absurd he (by simp), ?_⟩
    rintro ⟨j, hj, -⟩
    rcases hnone with he | hne
    · exact absurd (hnil.mpr he) hj.ne_nil
    · exact absurd hj.name (hne j hj.lt)

/-- The name of the entry that was found finds it again. -/
theorem Names.lookup {i : ℕ} (h : Names img s i) :
    readDentryByName img (some (entry img i).fileName) = some (entry img i) := by
  have hlen : s.length ≤ fnameSize := h.name ▸ length_entryName_le img i
  have hnul : 0 ∉ s := by
    intro hmem
    rw [← h.name] at hmem
    have hp := List.mem_takeWhile_imp hmem
    simp at hp
  have hs := text_ofString hnul
  have hname : cname (ofString s) = cname (entry img i).fileName := by
    rw [cname_of_text hs, List.take_of_length_le hlen]
    exact h.name.symm
  rw [← readDentryByName_congr img hname, readDentryByName_eq_some_iff hs,
    List.take_of_length_le hlen]
  exact ⟨i, h, rfl⟩

/-- A lookup of `s` succeeds exactly if `s` is the name of an entry, with the first entry of the name,
and leaves the output alone otherwise. -/
structure LookupExact (img : Image) (f : ℕ → UInt8) (s : List UInt8) (dentry : Dentry) : Prop where
  success : (readDentryByNameInto img (some f) dentry).1 = 0 ↔
    s ≠ [] ∧ ∃ i < bootBlockEntries, entryName img i = s
  first : ∀ i < bootBlockEntries, s ≠ [] → entryName img i = s → (∀ j < i, entryName img j ≠ s) →
    readDentryByNameInto img (some f) dentry = (0, entry img i)
  failure : (readDentryByNameInto img (some f) dentry).1 ≠ 0 →
    readDentryByNameInto img (some f) dentry = (-1, dentry)
  used : (∀ i < bootBlockEntries, numDirEntries img ≤ i → entryName img i = []) →
    (readDentryByNameInto img (some f) dentry).1 = 0 → ∃ i < numDirEntries img, entryName img i = s

theorem LookupExact.of_found {dentry : Dentry} {i : ℕ} (hnames : Names img s i)
    (hd : readDentryByName img (some f) = some (entry img i)) : LookupExact img f s dentry := by
  have hr : readDentryByNameInto img (some f) dentry = (0, entry img i) := by
    rw [readDentryByNameInto, hd]
  constructor
  · rw [hr]
    exact ⟨fun _ => ⟨hnames.ne_nil, i, hnames.lt, hnames.name⟩, fun _ => rfl⟩
  · -- both are the first entry of the name
    intro j hj hs hname hbefore
    rw [hr, hnames.unique ⟨hj, hs, hname, hbefore⟩]
  · rw [hr]
    exact fun hne => absurd rfl hne
  · intro hunused _
    refine ⟨i, ?_, hnames.name⟩
    by_contra hge
    exact hnames.ne_nil (hnames.name.symm.trans (hunused i hnames.lt (by omega)))

theorem LookupExact.of_none {dentry : Dentry}
    (hnot : ¬(s ≠ [] ∧ ∃ i < bootBlockEntries, entryName img i = s))
    (hd : readDentryByName img (some f) = none) : LookupExact img f s dentry := by
  have hr : readDentryByNameInto img (some f) dentry = (-1, dentry) := by
    rw [readDentryByNameInto, hd]
  constructor
  · rw [hr]
    exact ⟨fun h => absurd h (show (-1 : ℤ) ≠ 0 by decide), fun h => absurd h hnot⟩
  · exact fun i hi hs hname _ => absurd ⟨hs, i, hi, hname⟩ hnot
  · exact fun _ => hr
  · rw [hr]
    exact fun _ h => absurd h (show (-1 : ℤ) ≠ 0 by decide)

/-- A lookup is exact for the strings that fit the field, and for those longer ones whose first 32
bytes are not a name. -/
theorem lookup_exact (hf : Text f s) (dentry : Dentry) :
    LookupExact img f s dentry ↔
      s.length ≤ fnameSize ∨ ∀ i < bootBlockEntries, entryName img i ≠ s.take fnameSize := by
  have hlong : ¬s.length ≤ fnameSize → ∀ i, entryName img i ≠ s := by
    rintro hlen i rfl
    exact hlen (length_entryName_le img i)
  rcases readDentryByName_cases img hf with ⟨i, hi, hs, hname, hfirst, hd⟩ | ⟨hnone, hd⟩
  · constructor
    · -- the entry that is found would have to have the whole of `s` as its name
      intro hexact
      by_contra hcond
      obtain ⟨hlen, -⟩ := not_or.mp hcond
      have hr : (readDentryByNameInto img (some f) dentry).1 = 0 := by
        rw [readDentryByNameInto, hd]
      obtain ⟨-, j, -, hj⟩ := hexact.success.mp hr
      exact hlong hlen j hj
    · rintro (hlen | hnot)
      · rw [List.take_of_length_le hlen] at hname hfirst
        exact .of_found ⟨hi, hs, hname, hfirst⟩ hd
      · exact absurd hname (hnot i hi)
  · have hnot : ¬(s ≠ [] ∧ ∃ i < bootBlockEntries, entryName img i = s) := by
      rintro ⟨hs, i, hi, hname⟩
      have hlen : s.length ≤ fnameSize := hname ▸ length_entryName_le img i
      rw [List.take_of_length_le hlen] at hnone
      exact hnone.elim hs fun h => h i hi hname
    refine ⟨fun _ => ?_, fun _ => .of_none hnot hd⟩
    rcases hnone with rfl | hne
    · exact .inl (Nat.zero_le _)
    · exact .inr hne

/-- `abc` is the second entry of the sample image. -/
theorem lookup_exact_abc :
    readDentryByNameInto sampleImage (some (ofString [0x61, 0x62, 0x63])) (entry sampleImage 0)
      = (0, entry sampleImage 1) := by
  have hf : Text (ofString [0x61, 0x62, 0x63]) [0x61, 0x62, 0x63] := text_ofString (by decide)
  have h := (@lookup_exact sampleImage _ _ hf (entry sampleImage 0)).mpr (.inl (by decide))
  exact h.first 1 (by decide) (by decide) (by decide) (by decide)

/-- The sample image with a first entry whose name fills the field. -/
def fullNameImage : Image := patchedImage ((List.range 32).map fun i => (64 + i, 0x61))

/-- With one more byte the name is still accepted. -/
theorem lookup_exact_extension :
    Text (ofString (List.replicate 33 0x61)) (List.replicate 33 0x61) ∧
      (readDentryByNameInto fullNameImage (some (ofString (List.replicate 33 0x61)))
        (entry fullNameImage 1)).1 = 0 ∧
      ∀ i < bootBlockEntries, entryName fullNameImage i ≠ List.replicate 33 0x61 := by
  refine ⟨text_ofString (by decide), by decide +kernel, fun i _ he => ?_⟩
  have hle := length_entryName_le fullNameImage i
  rw [he] at hle
  exact absurd hle (by decide)

/-! ## Listing -/

/-- With room for the rest of the field the loop copies the rest of the name. -/
theorem dirNameLoop_eq (name : ℕ → UInt8) (n : ℕ) :
    ∀ j temp, (n : ℤ) ≤ temp →
      dirNameLoop name n j temp = ((List.range' j n).map name).takeWhile (· ≠ 0) := by
  induction n with
  | zero => exact fun _ _ _ => rfl
  | succ n ih =>
    intro j temp htemp
    rw [dirNameLoop, List.range'_succ, List.map_cons]
    by_cases hz : name j = 0
    · simp [hz]
    · rw [if_neg hz]
      by_cases hlast : temp - 1 = 0
      · -- the buffer ends where the field ends
        obtain rfl : n = 0 := by omega
        simp [hlast, hz]
      · rw [if_neg hlast, ih (j + 1) (temp - 1) (by omega)]
        simp [hz]

/-- A call in the middle of the directory. -/
theorem dirRead_of_lt {i : ℕ} (hi : i < numDirEntries img) {count : ℤ} (hcount : 32 ≤ count) :
    dirRead img i count = (i + 1, ⟨(entryName img i).length, entryName img i⟩) := by
  have hname : dirNameLoop (entry img i).fileName fnameSize 0 count = entryName img i := by
    rw [dirNameLoop_eq (entry img i).fileName fnameSize 0 count hcount, ← List.range_eq_range']
    rfl
  rw [dirRead, if_neg (by omega), hname]

/-- A call at the end. -/
theorem dirRead_of_le {i : ℕ} (hi : numDirEntries img ≤ i) (count : ℤ) :
    dirRead img i count = (0, ⟨0, []⟩) := by
  rw [dirRead, if_pos hi]

/-- Successive calls of `dir_read`, from a value of `curr_file_number` on. -/
def dirReadAll (img : Image) : ℕ → List ℤ → ℕ × List ReadResult
  | i, [] => (i, [])
  | i, count :: counts =>
    let r := dirRead img i count
    let rest := dirReadAll img r.1 counts
    (rest.1, r.2 :: rest.2)

theorem dirReadAll_eq (counts : List ℤ) :
    ∀ i, i + counts.length ≤ numDirEntries img → (∀ count ∈ counts, 32 ≤ count) →
      dirReadAll img i counts = (i + counts.length, (List.range' i counts.length).map fun j =>
        ⟨(entryName img j).length, entryName img j⟩) := by
  induction counts with
  | nil => exact fun _ _ _ => rfl
  | cons count counts ih =>
    intro i hlen hcounts
    rw [List.length_cons] at hlen
    have hrec := ih (i + 1) (by omega) fun c hc => hcounts c (List.mem_cons_of_mem _ hc)
    have hfirst := dirRead_of_lt (show i < numDirEntries img by omega)
      (hcounts count List.mem_cons_self)
    rw [dirReadAll, hfirst]
    simp only [hrec, List.length_cons, List.range'_succ, List.map_cons]
    rw [Nat.add_right_comm, Nat.add_assoc]

/-- `dir_read` lists the names of the entries in use, and these are what can be looked up. -/
theorem listing_lookup (hok : img.DirOk) {counts : List ℤ}
    (hlen : counts.length = numDirEntries img) (hcounts : ∀ count ∈ counts, 32 ≤ count) :
    dirReadAll img 0 counts = (numDirEntries img, (List.range (numDirEntries img)).map fun i =>
        ⟨(entryName img i).length, entryName img i⟩) ∧
      (∀ count, dirRead img (numDirEntries img) count = (0, ⟨0, []⟩)) ∧
      (∀ i < numDirEntries img, ∀ f, Text f (entryName img i) →
        readDentryByName img (some f) = some (entry img i)) ∧
      ∀ f s, Text f s → s.length ≤ fnameSize → (readDentryByName img (some f)).isSome →
        s ∈ (dirReadAll img 0 counts).2.map ReadResult.stored := by
  have hall : dirReadAll img 0 counts = (numDirEntries img,
      (List.range (numDirEntries img)).map fun i =>
        ⟨(entryName img i).length, entryName img i⟩) := by
    rw [dirReadAll_eq counts 0 (by omega) hcounts, Nat.zero_add, hlen, List.range_eq_range']
  have hle := hok.entries_le
  refine ⟨hall, fun count => dirRead_of_le le_rfl count, ?_, ?_⟩
  · intro i hi f hf
    have hcases := readDentryByName_cases img hf
    rw [List.take_of_length_le (length_entryName_le img i)] at hcases
    rcases hcases with ⟨j, hj, hs, hname, -, hd⟩ | ⟨hnone, -⟩
    · -- the entry found has a name, so it is in use
      have hjn : j < numDirEntries img := by
        by_contra hge
        exact hs (hname.symm.trans (hok.unused j hj (by omega)))
      rw [hd, hok.name_inj j hjn i hi hname]
    · rcases hnone with he | hne
      · exact absurd he (hok.name_ne i hi)
      · exact absurd rfl (hne i (by omega))
  · intro f s hf hs hsome
    have hcases := readDentryByName_cases img hf
    rw [List.take_of_length_le hs] at hcases
    rcases hcases with ⟨j, hj, hne, hname, -, -⟩ | ⟨-, hd⟩
    · have hjn : j < numDirEntries img := by
        by_contra hge
        exact hne (hname.symm.trans (hok.unused j hj (by omega)))
      rw [hall, List.map_map, List.mem_map]
      exact ⟨j, List.mem_range.mpr hjn, hname⟩
    · rw [hd] at hsome
      cases hsome

/-- The sample image lists `shell` and `abc`. -/
theorem listing_lookup_sample :
    (dirReadAll sampleImage 0 [32, 100]).2.map ReadResult.stored
        = [[0x73, 0x68, 0x65, 0x6c, 0x6c], [0x61, 0x62, 0x63]] ∧
      readDentryByName sampleImage (some (ofString [0x61, 0x62, 0x63]))
        = some (entry sampleImage 1) := by
  have hok := sampleImage_wellFormed.toDirOk
  obtain ⟨hall, -, hlookup, -⟩ := listing_lookup hok (show [32, 100].length = _ by decide) (by decide)
  refine ⟨?_, hlookup 1 (by decide) _ (text_ofString (by decide))⟩
  rw [hall]
  decide

end FileSystem
end GalapagOS
