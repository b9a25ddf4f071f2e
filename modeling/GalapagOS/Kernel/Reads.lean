import GalapagOS.Kernel.Descriptors

/-!
# Reading several files at once

Each descriptor on a regular file delivers its own file from the start, however the reads
on the different descriptors are interleaved. A read goes from the inode pointer to a name, from
the name to a directory entry and from there to the inode again, and it advances every
descriptor with the same inode pointer; with different inodes only its own is advanced.
-/

namespace GalapagOS
namespace Kernel

open FileSystem

variable {k k' : Kernel} {p : Pid}

/-! ## Descriptors on regular files -/

/-- The inode pointer of the file with directory entry `i`. -/
def filePtr (img : Image) (i : ℕ) : ℕ := getInodePtr img (entry img i).inodeNum

/-- The contents of the file with directory entry `i`. -/
def contents (img : Image) (i : ℕ) : List UInt8 := fileBytes img (filePtr img i)

/-- `d` is open on the regular file with directory entry `i`, at position `pos`. -/
structure OpenOn (img : Image) (d : FileDescriptor) (i pos : ℕ) : Prop where
  entry_lt : i < numDirEntries img
  regular : (entry img i).fileType = 2
  inUse : d.InUse
  fileType : d.fileType = regularFileType
  ops : d.fileOpTablePtr = some .fs
  inode : d.inodePtr = filePtr img i
  position : d.filePosition = pos

/-- The descriptors of `p` listed in `file` are open on regular files with different inodes, at
the positions `pos`. -/
structure Positioned (k : Kernel) (p : Pid) (file : Fin 8 → Option ℕ) (pos : Fin 8 → ℕ) :
    Prop where
  desc : k.desc = some p
  ge_two : ∀ fd i, file fd = some i → 2 ≤ fd
  openOn : ∀ fd i, file fd = some i → OpenOn k.img (k.table p fd) i (pos fd)
  le_length : ∀ fd i, file fd = some i → pos fd ≤ (contents k.img i).length
  distinct : ∀ fd fd' i i', file fd = some i → file fd' = some i' → fd ≠ fd' →
    (entry k.img i).inodeNum ≠ (entry k.img i').inodeNum

/-- Opening a regular file gives a descriptor on it at position 0. -/
theorem kopen_openOn {f : ℕ → UInt8} {i : ℕ} {fd : ℤ} (hp : k.desc = some p)
    (h : k.kopen (some f) = some (k', fd)) (hlook : readDentryByName k.img (some f) = some (entry k.img i))
    (hi : i < numDirEntries k.img) (hreg : (entry k.img i).fileType = 2) (hfd : fd ≠ -1) :
    ∃ j : Fin 8, fd = j ∧ OpenOn k'.img (k'.table p j) i 0 := by
  simp only [kopen, hp, Option.bind_eq_bind, Option.bind_some, Option.pure_def, hlook] at h
  split at h
  · cases h
    exact absurd rfl hfd
  · rename_i j _
    have hinit : k.fdInit p (entry k.img i) j = some (k.modifyFile p j fun _ =>
        { fileOpTablePtr := some .fs, inodePtr := filePtr k.img i, filePosition := 0
          flags := fdInUse ||| (entry k.img i).fileType }) := by
      simp [fdInit, hreg, rtcType, directoryType, regularFileType, filePtr]
    rw [hinit] at h
    cases h
    refine ⟨j, rfl, hi, hreg, ?_, ?_, ?_, ?_, ?_⟩ <;>
      rw [table_modifyFile, Function.update_self]
    · simp only [FileDescriptor.InUse, hreg]
      decide
    · simp only [FileDescriptor.fileType, hreg]
      decide
    · rfl

/-! ## One read -/

theorem OpenOn.inodeOk {img : Image} {d : FileDescriptor} {i pos : ℕ} (hwf : img.WellFormed)
    (h : OpenOn img d i pos) : InodeOk img (filePtr img i) :=
  hwf.inode_ok _ (hwf.inode_lt i h.entry_lt h.regular)

/-- `fs_read` on an open file delivers the next bytes and advances the position. -/
theorem fsRead_eq {d : FileDescriptor} {i pos : ℕ} (hwf : k.img.WellFormed)
    (h : OpenOn k.img d i pos) (hpos : pos ≤ (contents k.img i).length) (n buf : ℕ) :
    k.fsRead p d.inodePtr d.filePosition n buf
      = (k.incrementPosition p (filePtr k.img i)
            (((contents k.img i).drop pos).take n).length,
          ⟨(((contents k.img i).drop pos).take n).length,
            ((contents k.img i).drop pos).take n⟩) := by
  obtain ⟨e, he, hptr⟩ := lookup_of_inodePtr hwf h.entry_lt h.regular
  have hok := h.inodeOk hwf
  have hlt : pos < 2 ^ 32 := by
    have hlen := hok.length_le
    rw [contents, length_fileBytes] at hpos
    unfold blockSize at hlen
    omega
  rw [fsRead, h.inode, h.position, filePtr, he]
  simp only [hptr]
  rw [← filePtr, readData_eq hok hlt]
  rfl

/-- A read on an open file returns the next bytes. -/
theorem OpenOn.kread {fd : Fin 8} {i pos : ℕ} (hwf : k.img.WellFormed) (hp : k.desc = some p)
    (h : OpenOn k.img (k.table p fd) i pos) (hpos : pos ≤ (contents k.img i).length) {buf : ℕ}
    (hbuf : buf ≠ 0) (n : ℕ) :
    k.kread fd buf n
      = some (k.incrementPosition p (filePtr k.img i) (((contents k.img i).drop pos).take n).length,
          ⟨(((contents k.img i).drop pos).take n).length, ((contents k.img i).drop pos).take n⟩) := by
  have hcheck : checkFd (k.pcbs p).files readable fd = some (k.table p fd) :=
    checkFd_eq_some.mpr ⟨fd, rfl, rfl, h.inUse, by rw [h.fileType]; decide⟩
  simp only [Kernel.kread, hp, Option.bind_eq_bind, Option.bind_some, hcheck]
  rw [if_neg (by omega), opRead, h.ops]
  simp only [Int.toNat_natCast]
  rw [fsRead_eq hwf h hpos]

theorem incrementPosition_img (inode : ℕ) (amt : ℤ) :
    (k.incrementPosition p inode amt).img = k.img := by
  unfold incrementPosition
  split <;> rfl

/-- The position of a descriptor is advanced within its file. -/
theorem OpenOn.incrementPosition {fd : Fin 8} {i pos n : ℕ} (hwf : k.img.WellFormed) (hfd : 2 ≤ fd)
    (h : OpenOn k.img (k.table p fd) i pos) (hn : pos + n ≤ (contents k.img i).length) :
    OpenOn (k.incrementPosition p (filePtr k.img i) n).img
      ((k.incrementPosition p (filePtr k.img i) n).table p fd) i (pos + n) := by
  have hne : filePtr k.img i ≠ 0 :=
    getInodePtr_ne_zero hwf (hwf.inode_lt i h.entry_lt h.regular)
  have hlen := (h.inodeOk hwf).length_le
  rw [contents, length_fileBytes] at hn
  unfold blockSize at hlen
  have hposition : (((k.table p fd).filePosition + (n : ℤ)) % 2 ^ 32).toNat = pos + n := by
    rw [h.position]
    omega
  rw [incrementPosition_img, table_incrementPosition, if_pos ⟨hne, hfd, h.inode⟩, hposition]
  exact { h with position := rfl }

/-- A read on a held descriptor returns the next bytes of its file and moves its position only. -/
theorem Positioned.kread {file : Fin 8 → Option ℕ} {pos : Fin 8 → ℕ} (hwf : k.img.WellFormed)
    (h : Positioned k p file pos) {fd : Fin 8} {i : ℕ} (hfd : file fd = some i) {buf n : ℕ}
    (hbuf : buf ≠ 0) :
    let bs := ((contents k.img i).drop (pos fd)).take n
    ∃ k', k.kread fd buf n = some (k', ⟨bs.length, bs⟩) ∧ k'.img = k.img ∧
      Positioned k' p file (Function.update pos fd (pos fd + bs.length)) := by
  intro bs
  have hopen := h.openOn fd i hfd
  have hle := h.le_length fd i hfd
  have hread := hopen.kread hwf h.desc hle hbuf n
  have himg : (k.incrementPosition p (filePtr k.img i) bs.length).img = k.img :=
    incrementPosition_img ..
  have hbs : pos fd + bs.length ≤ (contents k.img i).length := by
    simp only [bs, List.length_take, List.length_drop]
    omega
  refine ⟨_, hread, himg, ⟨by rw [incrementPosition_desc, h.desc], h.ge_two, ?_, ?_, ?_⟩⟩
  · intro fd' i' hfd'
    have hopen' := h.openOn fd' i' hfd'
    by_cases heq : fd' = fd
    · subst heq
      obtain rfl : i' = i := Option.some.inj (hfd'.symm.trans hfd)
      rw [Function.update_self]
      exact hopen.incrementPosition hwf (h.ge_two fd' i' hfd') hbs
    · -- another file has another inode pointer
      have hother : (k.table p fd').inodePtr ≠ filePtr k.img i := by
        rw [hopen'.inode]
        intro hptr
        exact h.distinct fd' fd i' i hfd' hfd heq (getInodePtr_inj hwf
          (hwf.inode_lt i' hopen'.entry_lt hopen'.regular)
          (hwf.inode_lt i hopen.entry_lt hopen.regular) hptr)
      rw [himg, table_incrementPosition, if_neg fun hc => hother hc.2.2,
        Function.update_of_ne heq]
      exact hopen'
  · intro fd' i' hfd'
    rw [himg]
    by_cases heq : fd' = fd
    · subst heq
      obtain rfl : i' = i := Option.some.inj (hfd'.symm.trans hfd)
      rw [Function.update_self]
      exact hbs
    · rw [Function.update_of_ne heq]
      exact h.le_length fd' i' hfd'
  · rw [himg]
    exact h.distinct

/-! ## Runs of reads -/

/-- A `kread` call with a buffer at `buf`. -/
structure ReadCall where
  fd : Fin 8
  buf : ℕ
  nbytes : ℕ

/-- Reads in the given order: the final state, and each call with its result. -/
def readAll (k : Kernel) : List ReadCall → Option (Kernel × List (ReadCall × ReadResult))
  | [] => some (k, [])
  | c :: cs => do
    let (k₁, r) ← k.kread c.fd c.buf c.nbytes
    let (k₂, trace) ← k₁.readAll cs
    pure (k₂, (c, r) :: trace)

/-- The bytes that the calls on `fd` returned, in order. -/
def delivered (fd : Fin 8) (trace : List (ReadCall × ReadResult)) : List UInt8 :=
  (trace.filter fun e => e.1.fd = fd).flatMap fun e => e.2.stored

/-- The number of bytes that the calls on `fd` asked for. -/
def requested (fd : Fin 8) (cs : List ReadCall) : ℕ :=
  ((cs.filter fun c => c.fd = fd).map ReadCall.nbytes).sum

theorem take_append_drop_length {α : Type*} (n : ℕ) (l : List α) :
    l.take n ++ l.drop (l.take n).length = l := by
  rw [List.length_take]
  rcases Nat.le_total n l.length with h | h
  · rw [Nat.min_eq_left h, List.take_append_drop]
  · rw [Nat.min_eq_right h, List.drop_length, List.append_nil, List.take_of_length_le h]

theorem take_append_take_drop {α : Type*} (n m : ℕ) (l : List α) :
    l.take n ++ (l.drop (l.take n).length).take m = l.take (n + m) := by
  rw [List.length_take]
  rcases Nat.le_total n l.length with h | h
  · rw [Nat.min_eq_left h, List.take_add]
  · rw [Nat.min_eq_right h, List.drop_length, List.take_nil, List.append_nil,
      List.take_of_length_le h, List.take_of_length_le (by omega)]

theorem delivered_cons_self (c : ReadCall) (r : ReadResult) (trace : List (ReadCall × ReadResult)) :
    delivered c.fd ((c, r) :: trace) = r.stored ++ delivered c.fd trace := by
  simp [delivered]

theorem delivered_cons_ne {c : ReadCall} {fd : Fin 8} (h : c.fd ≠ fd) (r : ReadResult)
    (trace : List (ReadCall × ReadResult)) :
    delivered fd ((c, r) :: trace) = delivered fd trace := by
  simp [delivered, h]

/-- What a run of reads shows, when descriptor `fd` starts with `rest fd` still unread. -/
structure Delivers (file : Fin 8 → Option ℕ) (rest : Fin 8 → List UInt8) (cs : List ReadCall)
    (trace : List (ReadCall × ReadResult)) : Prop where
  calls : trace.map Prod.fst = cs
  ret_eq : ∀ e ∈ trace, e.2.ret = e.2.stored.length
  bytes : ∀ fd, (file fd).isSome → delivered fd trace = (rest fd).take (requested fd cs)
  ends : ∀ before c r after, trace = before ++ (c, r) :: after → 0 < c.nbytes →
    (r.ret = 0 ↔ delivered c.fd before = rest c.fd)

/-- One more read in front. -/
theorem Delivers.cons {file : Fin 8 → Option ℕ} {rest : Fin 8 → List UInt8} {cs : List ReadCall}
    {trace : List (ReadCall × ReadResult)} {c : ReadCall} {bs : List UInt8}
    (hbs : bs = (rest c.fd).take c.nbytes)
    (h : Delivers file (Function.update rest c.fd ((rest c.fd).drop bs.length)) cs trace) :
    Delivers file rest (c :: cs) ((c, ⟨bs.length, bs⟩) :: trace) where
  calls := by rw [List.map_cons, h.calls]
  ret_eq e he := by
    rcases List.mem_cons.mp he with rfl | he
    · rfl
    · exact h.ret_eq e he
  bytes fd hfd := by
    have hrest := h.bytes fd hfd
    by_cases heq : c.fd = fd
    · subst heq
      rw [Function.update_self, hbs] at hrest
      rw [delivered_cons_self, hrest, hbs, take_append_take_drop]
      simp [requested]
    · rw [Function.update_of_ne (Ne.symm heq)] at hrest
      rw [delivered_cons_ne heq, hrest]
      simp [requested, heq]
  ends before c' r after htrace hn := by
    cases before with
    | nil =>
      obtain ⟨hc, -⟩ := List.cons.inj htrace
      obtain ⟨rfl, rfl⟩ := Prod.mk.inj hc
      have hempty : (bs.length : ℤ) = 0 ↔ rest c.fd = [] := by
        rw [hbs, Int.natCast_eq_zero, List.length_eq_zero_iff, List.take_eq_nil_iff]
        exact or_iff_right (Nat.ne_of_gt hn)
      rw [hempty]
      exact eq_comm
    | cons e before =>
      obtain ⟨rfl, htail⟩ := List.cons.inj htrace
      rw [h.ends before c' r after htail hn]
      by_cases heq : c.fd = c'.fd
      · rw [← heq, Function.update_self, delivered_cons_self]
        have hsplit : bs ++ (rest c.fd).drop bs.length = rest c.fd := by
          rw [hbs]
          exact take_append_drop_length ..
        constructor
        · intro hd
          rw [hd, hsplit]
        · intro hd
          exact List.append_cancel_left (hd.trans hsplit.symm)
      · rw [Function.update_of_ne (Ne.symm heq), delivered_cons_ne heq]

/-- What is still unread of each file. -/
def unread (img : Image) (file : Fin 8 → Option ℕ) (pos : Fin 8 → ℕ) (fd : Fin 8) : List UInt8 :=
  match file fd with
  | none => []
  | some i => (contents img i).drop (pos fd)

/-- From any positions on, each descriptor delivers what follows in its file. -/
theorem Positioned.readAll {file : Fin 8 → Option ℕ} {cs : List ReadCall} :
    ∀ {k : Kernel} {pos : Fin 8 → ℕ}, k.img.WellFormed → Positioned k p file pos →
      (∀ c ∈ cs, c.buf ≠ 0 ∧ (file c.fd).isSome) →
      ∃ k' trace, k.readAll cs = some (k', trace) ∧
        Delivers file (unread k.img file pos) cs trace := by
  induction cs with
  | nil =>
    intro k pos _ _ _
    refine ⟨k, [], rfl, ⟨rfl, by simp, fun fd _ => by simp [delivered, requested], ?_⟩⟩
    intro before c r after h
    simp at h
  | cons c cs ih =>
    intro k pos hwf h hcs
    obtain ⟨hbuf, hsome⟩ := hcs c (by simp)
    obtain ⟨i, hi⟩ := Option.isSome_iff_exists.mp hsome
    obtain ⟨k₁, hk₁, himg, hpos₁⟩ := h.kread hwf hi hbuf (n := c.nbytes)
    obtain ⟨k₂, trace, hrun, hdel⟩ :=
      ih (himg ▸ hwf) hpos₁ fun c' hc' => hcs c' (by simp [hc'])
    have hunread : unread k.img file pos c.fd = (contents k.img i).drop (pos c.fd) := by
      simp only [unread, hi]
    have hnext : unread k₁.img file (Function.update pos c.fd (pos c.fd +
          (((contents k.img i).drop (pos c.fd)).take c.nbytes).length))
        = Function.update (unread k.img file pos) c.fd ((unread k.img file pos c.fd).drop
            (((contents k.img i).drop (pos c.fd)).take c.nbytes).length) := by
      funext fd
      by_cases heq : fd = c.fd
      · subst heq
        rw [Function.update_self, hunread, List.drop_drop]
        simp only [unread, hi, himg, Function.update_self]
      · simp only [Function.update_of_ne heq, unread, himg]
    rw [hnext] at hdel
    refine ⟨k₂, _, ?_, Delivers.cons (by rw [hunread]) hdel⟩
    simp only [Kernel.readAll, hk₁, Option.bind_eq_bind, Option.bind_some, hrun, Option.pure_def]

/-- Any interleaving of reads on freshly opened files with different inodes: each descriptor
delivers the beginning of its own file, as much as was asked for, and a call that asks for
bytes returns 0 exactly when its file has been delivered whole. -/
theorem interleaved_reads {file : Fin 8 → Option ℕ} (hwf : k.img.WellFormed)
    (h : Positioned k p file fun _ => 0) (cs : List ReadCall)
    (hcs : ∀ c ∈ cs, c.buf ≠ 0 ∧ (file c.fd).isSome) :
    ∃ k' trace, k.readAll cs = some (k', trace) ∧ trace.map Prod.fst = cs ∧
      (∀ e ∈ trace, e.2.ret = e.2.stored.length) ∧
      (∀ fd i, file fd = some i →
        delivered fd trace = (contents k.img i).take (requested fd cs)) ∧
      (∀ before c r after i, trace = before ++ (c, r) :: after → file c.fd = some i →
        0 < c.nbytes → (r.ret = 0 ↔ delivered c.fd before = contents k.img i)) := by
  obtain ⟨k', trace, hrun, hdel⟩ := h.readAll hwf hcs
  have hunread : ∀ fd i, file fd = some i → unread k.img file (fun _ => 0) fd = contents k.img i := by
    intro fd i hi
    simp only [unread, hi, List.drop_zero]
  refine ⟨k', trace, hrun, hdel.calls, hdel.ret_eq, fun fd i hi => ?_, ?_⟩
  · rw [hdel.bytes fd (by simp [hi]), hunread fd i hi]
  · intro before c r after i htrace hi hn
    rw [hdel.ends before c r after htrace hn, hunread c.fd i hi]

/-- A process of the sample image that has opened both files. -/
def openBoth : Option Kernel := do
  let k ← ((bootState Paging.packedLayout sampleImage (fun _ => default) 0
    fun _ => 0).setCurrentProcess 0).openStdinStdout
  let (k, _) ← k.kopen (some (entry sampleImage 0).fileName)
  let (k, _) ← k.kopen (some (entry sampleImage 1).fileName)
  pure k

def sampleReader : Kernel := openBoth.get (by decide)

/-- Its descriptors: 2 on the first file, 3 on the second. -/
def sampleFiles (fd : Fin 8) : Option ℕ := if fd = 2 then some 0 else if fd = 3 then some 1 else none

theorem sampleFiles_eq_some {fd : Fin 8} {i : ℕ} (h : sampleFiles fd = some i) :
    fd = 2 ∧ i = 0 ∨ fd = 3 ∧ i = 1 := by
  unfold sampleFiles at h
  split at h
  · rename_i hfd
    exact Or.inl ⟨hfd, (Option.some.inj h).symm⟩
  · split at h
    · rename_i hfd
      exact Or.inr ⟨hfd, (Option.some.inj h).symm⟩
    · cases h

theorem sampleReader_positioned : Positioned sampleReader 0 sampleFiles fun _ => 0 where
  desc := by decide
  ge_two fd i h := by
    rcases sampleFiles_eq_some h with ⟨rfl, rfl⟩ | ⟨rfl, rfl⟩ <;> decide
  openOn fd i h := by
    rcases sampleFiles_eq_some h with ⟨rfl, rfl⟩ | ⟨rfl, rfl⟩ <;> constructor <;> decide
  le_length _ _ _ := Nat.zero_le _
  distinct fd fd' i i' h h' hne := by
    rcases sampleFiles_eq_some h with ⟨rfl, rfl⟩ | ⟨rfl, rfl⟩ <;>
      rcases sampleFiles_eq_some h' with ⟨rfl, rfl⟩ | ⟨rfl, rfl⟩ <;>
      first | exact absurd rfl hne | decide

/-- Five reads on the two files of the sample image, in turn and past the ends. -/
theorem interleaved_reads_sample :
    ∃ k' trace,
      sampleReader.readAll [⟨2, 1, 3⟩, ⟨3, 1, 2⟩, ⟨2, 1, 9⟩, ⟨3, 1, 4⟩, ⟨3, 1, 1⟩]
        = some (k', trace) ∧
      delivered 2 trace = [0x7f, 0x45, 0x4c, 0x46] ∧ delivered 3 trace = [0x61, 0x62, 0x63] := by
  obtain ⟨k', trace, hrun, -, -, hdel, -⟩ :=
    interleaved_reads sampleImage_wellFormed sampleReader_positioned
      [⟨2, 1, 3⟩, ⟨3, 1, 2⟩, ⟨2, 1, 9⟩, ⟨3, 1, 4⟩, ⟨3, 1, 1⟩] (by decide)
  refine ⟨k', trace, hrun, ?_, ?_⟩
  · rw [hdel 2 0 (by decide)]
    decide
  · rw [hdel 3 1 (by decide)]
    decide

end Kernel
end GalapagOS
