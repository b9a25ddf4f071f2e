import GalapagOS.FileSystem.Slices
import GalapagOS.Kernel.Descriptors
import Mathlib.Data.List.GetD

/-!
# How far system calls write into the caller's buffer

`read_data` and `terminal_read` count up to `nbytes`. `dir_read` counts down and stops when the
count is zero after a byte, so it overruns a buffer of no bytes. `kget_args` does not look at
`nbytes`.
-/

namespace GalapagOS
namespace Kernel

open FileSystem CString

variable {k k' : Kernel} {p : Pid}

/-! ## The copy loops -/

theorem length_readDataLoop_le (img : Image) (inode offset n : ℕ) :
    ∀ i blockIdx, (readDataLoop img inode offset n i blockIdx).1.length ≤ n := by
  induction n with
  | zero => exact fun _ _ => le_rfl
  | succ n ih =>
    intro i blockIdx
    rw [readDataLoop]
    by_cases hend : inodeLength img inode ≤ (offset + i) % 2 ^ 32
    · rw [if_pos hend]
      exact Nat.zero_le _
    · rw [if_neg hend]
      by_cases hbad : (numDataBlocks img + (2 ^ 32 - 1)) % 2 ^ 32 < dataBlock img inode blockIdx
      · simp only [if_pos hbad, List.length_nil]
        exact Nat.zero_le _
      · simp only [if_neg hbad, List.length_cons]
        exact Nat.succ_le_succ (ih _ _)

/-- A read of a file stores at most `n` bytes, on any image. -/
theorem readData_le (img : Image) (inode offset buf n : ℕ) :
    (readData img inode offset buf n).stored.length ≤ n ∧
      (readData img inode offset buf n).ret ≤ n := by
  have hloop := length_readDataLoop_le img inode offset n 0 (offset / blockSize)
  unfold readData
  split
  · simp
  · dsimp only
    refine ⟨hloop, ?_⟩
    split <;> omega

/-- `dir_read` stops in time if there is room for one byte. -/
theorem length_dirNameLoop_le (name : ℕ → UInt8) (n : ℕ) :
    ∀ j temp, 0 < temp → ((dirNameLoop name n j temp).length : ℤ) ≤ temp := by
  induction n with
  | zero =>
    intro j temp htemp
    show (0 : ℤ) ≤ temp
    omega
  | succ n ih =>
    intro j temp htemp
    rw [dirNameLoop]
    split
    · show (0 : ℤ) ≤ temp
      omega
    · split
      · show (1 : ℤ) ≤ temp
        omega
      · have hrec := ih (j + 1) (temp - 1) (by omega)
        rw [List.length_cons]
        push_cast
        omega

theorem length_readLine_le (t : ℤ) (n : ℕ) :
    ∀ last i, (Terminal.readLine last t n i).2.length ≤ n := by
  induction n with
  | zero => exact fun _ _ => le_rfl
  | succ n ih =>
    intro last i
    rw [Terminal.readLine]
    split
    · exact Nat.zero_le _
    · exact Nat.succ_le_succ (ih _ _)

theorem length_terminalRead_le {tm tm' : Terminal.Terminals} {t : ℤ} {n : ℕ} {bytes : List UInt8}
    (h : Terminal.terminalRead tm t n = some (tm', bytes)) : bytes.length ≤ n := by
  unfold Terminal.terminalRead at h
  split at h
  · cases h
  · cases h
    refine (length_readLine_le t _ _ _).trans ?_
    omega

theorem ret_dirRead (img : Image) (i : ℕ) (count : ℤ) :
    (dirRead img i count).2.ret = (dirRead img i count).2.stored.length := by
  unfold dirRead
  split <;> rfl

/-- A directory has a name to deliver. -/
def NameLeft (k : Kernel) : Prop :=
  k.currFileNumber < numDirEntries k.img ∧ entryName k.img k.currFileNumber ≠ []

/-- `dir_read` overruns a buffer of no bytes if it has a name to deliver, and no other buffer. -/
theorem length_dirRead_le_iff (n : ℕ) :
    (dirRead k.img k.currFileNumber n).2.stored.length ≤ n ↔ ¬(n = 0 ∧ k.NameLeft) := by
  unfold NameLeft entryName
  rw [Ne, cname_eq_nil, dirRead]
  by_cases hend : numDirEntries k.img ≤ k.currFileNumber
  · rw [if_pos hend]
    refine ⟨fun _ hleft => ?_, fun _ => Nat.zero_le n⟩
    omega
  rw [if_neg hend]
  by_cases hn : n = 0
  · subst hn
    rw [show fnameSize = 31 + 1 from rfl, dirNameLoop]
    by_cases hname : (entry k.img k.currFileNumber).fileName 0 = 0
    · simp [hname]
    · simp [hname, hend]
  · have hlen := length_dirNameLoop_le (entry k.img k.currFileNumber).fileName fnameSize 0 n (by omega)
    exact ⟨fun _ hleft => hn hleft.1, fun _ => by exact_mod_cast hlen⟩

/-- The read operations store at most `n` bytes, and return at most `n`. -/
theorem opRead_le {d : FileDescriptor} {n buf : ℕ} {r : ReadResult}
    (hdir : d.fileOpTablePtr = some .dir → ¬(n = 0 ∧ k.NameLeft))
    (h : k.opRead p d n buf = some (k', r)) : r.stored.length ≤ n ∧ r.ret ≤ n := by
  unfold opRead at h
  split at h
  · cases h
  · cases h
    exact ⟨Nat.zero_le _, Int.natCast_nonneg n⟩
  · rename_i hops
    cases h
    have hlen := (length_dirRead_le_iff n).mpr (hdir hops)
    refine ⟨hlen, ?_⟩
    rw [ret_dirRead]
    exact_mod_cast hlen
  · have hread := Option.some.inj h
    unfold fsRead at hread
    split at hread
    · cases hread
      refine ⟨Nat.zero_le _, ?_⟩
      show (-1 : ℤ) ≤ n
      omega
    · cases hread
      exact readData_le ..
  · obtain ⟨⟨tm, bytes⟩, hread, he⟩ := Option.map_eq_some_iff.mp h
    cases he
    have hlen := length_terminalRead_le hread
    refine ⟨hlen, ?_⟩
    show (bytes.length : ℤ) ≤ n
    omega

/-! ## The calls -/

/-- What is stored in `nbytes` bytes leaves the rest alone. -/
theorem buffer_of_length_le {r : ReadResult} {nbytes : ℤ} (h : (r.stored.length : ℤ) ≤ nbytes)
    (old : ℕ → UInt8) (i : ℕ) (hi : nbytes ≤ i) : r.buffer old i = old i := by
  unfold ReadResult.buffer
  rw [List.getD_eq_default]
  omega

/-- A descriptor that can be read has the operations of its type. -/
theorem TableOk.read_ops {f : FileArray} (hok : TableOk f) {i : Fin 8} (huse : (f i).InUse)
    (htype : (f i).fileType ∈ readable) :
    (f i).fileType = stdinType ∧ (f i).fileOpTablePtr = some .std ∨ SlotOk (f i) := by
  by_cases h0 : i = 0
  · subst h0
    exact .inl hok.stdin.2
  · by_cases h1 : i = 1
    · subst h1
      rw [hok.stdout.2.1] at htype
      exact absurd htype (by decide)
    · exact .inr (hok.files i (two_le_iff.mpr ⟨h0, h1⟩) huse)

/-- A read returns, unless it waits for a line. -/
theorem exists_opRead (hok : TableOk (k.table p)) {i : Fin 8} (huse : (k.table p i).InUse)
    (htype : (k.table p i).fileType ∈ readable)
    (hline : (k.table p i).fileType = stdinType → k.terms.rd k.getCurrProcessTerminal = 1)
    (n buf : ℕ) : ∃ r, k.opRead p (k.table p i) n buf = some r := by
  rcases hok.read_ops huse htype with ⟨hin, hops⟩ | ⟨-, hops, -⟩ | ⟨-, hops, -⟩ | ⟨-, hops⟩
  · rw [opRead, hops]
    simp only [Terminal.terminalRead, hline hin, ne_eq, not_true_eq_false, if_false,
      Option.map_some]
    exact ⟨_, rfl⟩
  all_goals
    rw [opRead, hops]
    exact ⟨_, rfl⟩

/-- `kget_args` stores the arguments and their NUL. -/
theorem kgetArgs_eq {s : List UInt8} {buf : ℕ} {nbytes : ℤ} (hbuf : buf ≠ 0) (hn : 0 ≤ nbytes)
    (hp : k.currProcess = some p)
    (hargs : Text (fun i => (k.pcbs p).tail (Pcb.argsOffset + i)) s)
    (hlen : s.length < 2 ^ 32) : k.kgetArgs buf nbytes = some ⟨0, s ++ [0]⟩ := by
  have hstrlen : LibC.strlen (2 ^ 32) (fun i => (k.pcbs p).tail (Pcb.argsOffset + i))
      = some s.length := LibC.strlen_eq hargs hlen
  rw [kgetArgs, if_neg (by omega)]
  simp only [hp, hstrlen, Option.bind_eq_bind, Option.bind_some, Option.pure_def,
    hargs.map_range]

/-- A descriptor of type directory has the operations of a directory. -/
theorem TableOk.dir_ops_iff {f : FileArray} (hok : TableOk f) {i : Fin 8} (huse : (f i).InUse)
    (htype : (f i).fileType ∈ readable) :
    (f i).fileOpTablePtr = some .dir ↔ (f i).fileType = directoryType := by
  rcases hok.read_ops huse htype with ⟨ht, he⟩ | ⟨ht, he, -⟩ | ⟨ht, he, -⟩ | ⟨ht, he⟩ <;>
    rw [ht, he] <;> decide

/-- A read into a buffer of `nbytes` bytes returns, stays inside the buffer and returns at most
`nbytes`. -/
def ReadFits (k : Kernel) (fd : ℤ) (buf : ℕ) (nbytes : ℤ) : Prop :=
  ∃ k' r, k.kread fd buf nbytes = some (k', r) ∧ r.ret ≤ nbytes ∧
    ∀ old (j : ℕ), nbytes ≤ j → r.buffer old j = old j

/-- `kget_args` stays inside a buffer of `nbytes` bytes: it stores the arguments `s` and their NUL if
there is room for them, and fails otherwise. -/
def GetArgsFits (k : Kernel) (s : List UInt8) (buf : ℕ) (nbytes : ℤ) : Prop :=
  ∃ r, k.kgetArgs buf nbytes = some r ∧ (∀ old (j : ℕ), nbytes ≤ j → r.buffer old j = old j) ∧
    if (s.length + 1 : ℤ) ≤ nbytes then r.ret = 0 ∧ r.stored = s ++ [0] else r.ret = -1

/-- In every state of a process, a read of a descriptor stays inside the buffer exactly if it is not
a read of no bytes from a directory that has a name to deliver; and `kget_args` does what is asked of
it exactly if the arguments and their NUL fit. -/
theorem buffer_bounds (h : Session p k) {buf : ℕ} (hbuf : buf ≠ 0) {nbytes : ℤ} (hn : 0 ≤ nbytes) :
    (∀ i : Fin 8, (k.table p i).InUse → (k.table p i).fileType ∈ readable →
      ((k.table p i).fileType = stdinType → k.terms.rd k.getCurrProcessTerminal = 1) →
      (k.ReadFits i buf nbytes ↔
        ¬((k.table p i).fileType = directoryType ∧ nbytes = 0 ∧ k.NameLeft))) ∧
    ∀ q s, k.currProcess = some q →
      Text (fun i => (k.pcbs q).tail (Pcb.argsOffset + i)) s → s.length < 2 ^ 32 →
      (k.GetArgsFits s buf nbytes ↔ (s.length + 1 : ℤ) ≤ nbytes) := by
  obtain ⟨hok, hp⟩ := h.tableOk
  constructor
  · intro i huse htype hline
    obtain ⟨⟨k', r⟩, hread⟩ := exists_opRead hok huse htype hline nbytes.toNat buf
    have hcheck : checkFd (k.pcbs p).files readable i = some (k.table p i) :=
      checkFd_eq_some.mpr ⟨i, rfl, rfl, huse, htype⟩
    have hkread : k.kread i buf nbytes = some (k', r) := by
      simp only [kread, hp, Option.bind_eq_bind, Option.bind_some, hcheck]
      rw [if_neg (by omega), hread]
    have hzero : nbytes.toNat = 0 ↔ nbytes = 0 := by omega
    constructor
    · -- the overrun shows in the return value
      rintro ⟨k₁, r₁, hk₁, hret, -⟩ ⟨hdir, rfl, hleft⟩
      rw [hkread] at hk₁
      cases hk₁
      rw [opRead, (hok.dir_ops_iff huse htype).mpr hdir] at hread
      cases hread
      rw [ret_dirRead] at hret
      exact (length_dirRead_le_iff 0).mp (by exact_mod_cast hret) ⟨rfl, hleft⟩
    · intro hnot
      have hops : (k.table p i).fileOpTablePtr = some .dir → ¬(nbytes.toNat = 0 ∧ k.NameLeft) :=
        fun hd hover => hnot
          ⟨(hok.dir_ops_iff huse htype).mp hd, hzero.mp hover.1, hover.2⟩
      obtain ⟨hstored, hret⟩ := opRead_le hops hread
      exact ⟨k', r, hkread, by omega, fun old j hj => buffer_of_length_le (by omega) old j hj⟩
  · intro q s hq hargs hlen
    have hkargs := kgetArgs_eq hbuf hn hq hargs hlen
    constructor
    · rintro ⟨r, hr, -, hcases⟩
      rw [hkargs] at hr
      cases hr
      by_contra hroom
      rw [if_neg hroom] at hcases
      cases hcases
    · intro hroom
      refine ⟨_, hkargs, fun old j hj => ?_, by rw [if_pos hroom]; exact ⟨rfl, rfl⟩⟩
      refine buffer_of_length_le ?_ old j hj
      rw [List.length_append, List.length_singleton]
      push_cast
      exact hroom

/-- The sample image with its first entry made a directory. -/
def dirImage : Image := patchedImage [(96, 1)]

/-- A process with the arguments `ab` that has opened the directory and the file `abc`. -/
def argsReader : Option Kernel := do
  let k ← ((bootState Paging.packedLayout dirImage
    (fun _ => (default : Pcb).copyStrings [] [0x61, 0x62]) 0
      fun _ => 0).setCurrentProcess 0).openStdinStdout
  let k ← (Call.kopen (some (entry dirImage 0).fileName)).exec k
  (Call.kopen (some (entry dirImage 1).fileName)).exec k

theorem argsReader_session (h : argsReader = some k) : Session 0 k := by
  unfold argsReader at h
  obtain ⟨k₀, hstart, h⟩ := Option.bind_eq_some_iff.mp h
  obtain ⟨k₁, hdir, hfile⟩ := Option.bind_eq_some_iff.mp h
  exact .call _ (.call _ (.start hstart) hdir) hfile

/-- Two bytes of the file, and all of the arguments. -/
theorem buffer_bounds_fit : ∃ k, argsReader = some k ∧ k.ReadFits 3 1 2 ∧
    k.GetArgsFits [0x61, 0x62] 1 3 ∧ ¬k.GetArgsFits [0x61, 0x62] 1 2 := by
  have heval : argsReader.map (fun k => decide ((k.table 0 3).InUse ∧
      (k.table 0 3).fileType = regularFileType ∧ k.currProcess = some 0 ∧
      ∀ i ≤ 2, (k.pcbs 0).tail (Pcb.argsOffset + i) = [0x61, 0x62].getD i 0)) = some true := by
    decide +kernel
  obtain ⟨k, hk, hfacts⟩ := Option.map_eq_some_iff.mp heval
  obtain ⟨huse, htype, hcur, hargs⟩ := of_decide_eq_true hfacts
  have hsession := argsReader_session hk
  refine ⟨k, hk, ?_, ?_, ?_⟩
  · refine ((buffer_bounds hsession (by decide) (by decide)).1 3 huse ?_ ?_).mpr ?_ <;> rw [htype]
    · decide
    · exact fun he => absurd he (by decide)
    · exact fun hover => absurd hover.1 (by decide)
  · exact ((buffer_bounds hsession (by decide) (by decide)).2 0 [0x61, 0x62] hcur
      ⟨by decide, hargs⟩ (by decide)).mpr (by decide)
  · exact fun hfits => absurd (((buffer_bounds hsession (by decide) (by decide)).2 0 [0x61, 0x62] hcur
      ⟨by decide, hargs⟩ (by decide)).mp hfits) (by decide)

/-- A read of no bytes from the directory stores the five bytes of a name, and a buffer of one byte
gets all of the arguments. -/
theorem buffer_bounds_overrun : ∃ k, argsReader = some k ∧ Session 0 k ∧
    ((k.table 0 2).InUse ∧ (k.table 0 2).fileType = directoryType) ∧
    (∃ k' r, k.kread 2 1 0 = some (k', r) ∧ r.ret = 5 ∧ r.stored.length = 5) ∧
    ∃ r, k.kgetArgs 1 1 = some r ∧ r.ret = 0 ∧ r.stored.length = 3 := by
  have heval : argsReader.map (fun k => decide
      ((k.table 0 2).InUse ∧ (k.table 0 2).fileType = directoryType) &&
      (k.kread 2 1 0).any (fun x => x.2.ret = 5 ∧ x.2.stored.length = 5) &&
      (k.kgetArgs 1 1).any fun r => r.ret = 0 ∧ r.stored.length = 3) = some true := by
    decide +kernel
  obtain ⟨k, hk, hfacts⟩ := Option.map_eq_some_iff.mp heval
  simp only [Bool.and_eq_true, decide_eq_true_eq, Option.any_eq_true] at hfacts
  obtain ⟨⟨htable, ⟨k', r⟩, hread, hret, hlen⟩, r', hargs, hret', hlen'⟩ := hfacts
  exact ⟨k, hk, argsReader_session hk, htable, ⟨k', r, hread, hret, hlen⟩, r', hargs, hret', hlen'⟩

end Kernel
end GalapagOS
