import GalapagOS.Kernel.Arguments
import GalapagOS.Kernel.Frame
import GalapagOS.Kernel.Positions

/-!
# Programs on the kernel and programs alone

A program is seen between its system calls: the call it makes next, and where it goes on with the
answer. It runs as one process of the kernel while the other processes make their calls, the clock
ticks and keys are pressed. `Proc` is the machine of a program that has the system to itself: its
arguments, its open files and what it has written. Everything the kernel answers to the program is
what this machine answers, apart from directories and lines of the keyboard, whose cursor and
buffers are shared.
-/

namespace GalapagOS
namespace Kernel

open FileSystem CString

variable {k k' : Kernel} {p : Pid} {img : Image}

/-! ## A process on its own -/

/-- What a descriptor stands for; of a regular file the inode and the position. -/
inductive Handle where
  | closed
  | stdin
  | stdout
  | rtc
  | directory
  | file (inode pos : ℕ)
deriving DecidableEq

/-- The type in the flags of the descriptor. -/
def Handle.type : Handle → Option ℕ
  | .closed => none
  | .stdin => some stdinType
  | .stdout => some stdoutType
  | .rtc => some rtcType
  | .directory => some directoryType
  | .file _ _ => some regularFileType

/-- The position after `n` more bytes, if the handle is on the inode. -/
def Handle.advance (inode n : ℕ) : Handle → Handle
  | .file j pos => .file j (if j = inode then (pos + n) % 2 ^ 32 else pos)
  | h => h

/-- The calls of a program that has started. -/
inductive Request where
  | getArgs (buf : ℕ) (nbytes : ℤ)
  | call (c : Call)

/-- A process that has the system to itself: its arguments, its open files and what it has written
to the terminal. -/
structure Proc where
  args : List UInt8
  handles : Fin 8 → Handle
  out : List UInt8

namespace Proc

/-- A process that has just been started. -/
def fresh (args : List UInt8) : Proc where
  args := args
  handles i := if i = 0 then .stdin else if i = 1 then .stdout else .closed
  out := []

/-- The handle with a number; a number out of range is like a closed one. -/
def lookup (t : Proc) (fd : ℤ) : Handle := (slotOf fd).elim .closed t.handles

/-- The lowest free descriptor from 2 on. -/
def slot (t : Proc) : Option (Fin 8) := [2, 3, 4, 5, 6, 7].find? fun i => t.handles i = .closed

/-- What a directory entry is when it is opened. -/
def opened (img : Image) (e : Dentry) : Option Handle :=
  if e.fileType = rtcType then some .rtc
  else if e.fileType = directoryType then some .directory
  else if e.fileType = regularFileType then some (.file (getInodePtr img e.inodeNum) 0)
  else none

def openFile (img : Image) (t : Proc) (name : Option (ℕ → UInt8)) : Proc × ℤ :=
  match t.slot, (readDentryByName img name).bind (opened img) with
  | some i, some h => ({ t with handles := Function.update t.handles i h }, i)
  | _, _ => (t, -1)

def closeFile (t : Proc) (fd : ℤ) : Proc × ℤ :=
  match slotOf fd with
  | none => (t, -1)
  | some i =>
    if 2 ≤ i ∧ t.handles i ≠ .closed then
      ({ t with handles := Function.update t.handles i .closed }, 0)
    else (t, -1)

/-- A read; without an answer if that does not depend on this process alone. All handles on the
inode move. -/
def readFile (img : Image) (t : Proc) (fd : ℤ) (buf : ℕ) (nbytes : ℤ) : Proc × Option ReadResult :=
  if buf = 0 ∨ nbytes < 0 then (t, some ⟨-1, []⟩)
  else
    match t.lookup fd with
    | .closed => (t, some ⟨-1, []⟩)
    | .stdout => (t, some ⟨-1, []⟩)
    | .rtc => (t, some ⟨0, []⟩)
    | .stdin => (t, none)
    | .directory => (t, none)
    | .file inode pos =>
      let bs := ((fileBytes img inode).drop pos).take nbytes.toNat
      ({ t with handles := fun i => (t.handles i).advance inode bs.length }, some ⟨bs.length, bs⟩)

def writeFile (t : Proc) (fd : ℤ) (buf : Option (ℕ → UInt8)) (nbytes : ℤ) : Proc × ℤ :=
  match buf with
  | none => (t, -1)
  | some buf =>
    if nbytes < 0 then (t, -1)
    else
      match t.lookup fd with
      | .stdout =>
        let bs := (List.range nbytes.toNat).map buf
        ({ t with out := t.out ++ bs }, (bs.filter (· ≠ 0)).length)
      | .rtc => (t, if (rtcRate (word buf)).isSome then 0 else -1)
      | _ => (t, -1)

def getArgs (t : Proc) (buf : ℕ) (nbytes : ℤ) : ReadResult :=
  if buf = 0 ∨ nbytes < 0 then ⟨-1, []⟩ else ⟨0, t.args ++ [0]⟩

/-- The next state and the answer, if that depends on this process alone. -/
def exec (img : Image) (t : Proc) : Request → Proc × Option ReadResult
  | .getArgs buf nbytes => (t, some (t.getArgs buf nbytes))
  | .call (.kopen name) => ((t.openFile img name).1, some ⟨(t.openFile img name).2, []⟩)
  | .call (.kclose fd) => ((t.closeFile fd).1, some ⟨(t.closeFile fd).2, []⟩)
  | .call (.kread fd buf nbytes) => t.readFile img fd buf nbytes
  | .call (.kwrite fd buf nbytes) =>
    ((t.writeFile fd buf nbytes).1, some ⟨(t.writeFile fd buf nbytes).2, []⟩)

end Proc

/-! ## Programs -/

/-- A program between two system calls: the call it makes next, none when `main` has returned, and
where it goes on with the answer. -/
structure Program (σ : Type*) where
  request : σ → Option Request
  resume : σ → ReadResult → σ

/-- The kernel's answer to a call. -/
def Request.exec (k : Kernel) : Request → Option (Kernel × ReadResult)
  | .getArgs buf nbytes => (k.kgetArgs buf nbytes).map fun r => (k, r)
  | .call (.kopen name) => (k.kopen name).map fun x => (x.1, ⟨x.2, []⟩)
  | .call (.kclose fd) => (k.kclose fd).map fun x => (x.1, ⟨x.2, []⟩)
  | .call (.kread fd buf nbytes) => k.kread fd buf nbytes
  | .call (.kwrite fd buf nbytes) => (k.kwrite fd buf nbytes).map fun x => (x.1, ⟨x.2, []⟩)

/-- The bytes that reach the terminal driver. -/
def Request.output (k : Kernel) : Request → List UInt8
  | .getArgs _ _ => []
  | .call c => (c.terminalBytes k).getD []

/-- The kernel, the point one program has reached and what it has written. -/
structure Running (σ : Type*) where
  k : Kernel
  point : σ
  out : List UInt8

/-- System calls, as opposed to interrupts. -/
def Event.isCall : Event → Bool
  | .kexecute _ _ => true
  | .khalt _ => true
  | .kvidmap _ => true
  | .fileCall _ => true
  | .tick => false
  | .switchTerminals _ => false
  | .putChar _ => false
  | .clearTerminal => false

namespace Program

variable {σ : Type*} (P : Program σ)

/-- Process `p` makes the next call of its program. -/
def call (p : Pid) (s : Running σ) : Option (Running σ × ReadResult) :=
  if s.k.currProcess = some p then
    (P.request s.point).bind fun q => (q.exec s.k).map fun x =>
      (⟨x.1, P.resume s.point x.2, s.out ++ q.output s.k⟩, x.2)
  else none

/-- The program in process `p`: `none` is its next call, everything else happens around it. -/
def onKernel (p : Pid) (k : Kernel) (start : σ) : Run.System (Running σ) (Option Event) where
  init s := s = ⟨k, start, []⟩
  step s
    | none => (P.call p s).map Prod.fst
    | some e => (e.exec s.k).map fun k' => { s with k := k' }

/-- The answers that the program gets. -/
def answer (p : Pid) (s : Running σ) : Option Event → Option ReadResult
  | none => (P.call p s).map Prod.snd
  | some _ => none

/-- The program with the system to itself; an answer that is not its own is taken as it comes. -/
def alone (img : Image) (s : Proc × σ) : Option ReadResult → Option (Proc × σ)
  | none => some s
  | some r => (P.request s.2).bind fun q =>
      let x := s.1.exec img q
      if x.2 = none ∨ x.2 = some r then some (x.1, P.resume s.2 r) else none

variable {P} {img : Image} {s : Proc × σ} {r : ReadResult}

/-- What an answer means for the program alone. -/
theorem alone_eq_some {x : Proc × σ} (h : P.alone img s (some r) = some x) :
    ∃ q, P.request s.2 = some q ∧
      ((s.1.exec img q).2 = none ∨ (s.1.exec img q).2 = some r) ∧
      x = ((s.1.exec img q).1, P.resume s.2 r) := by
  obtain ⟨q, hq, h⟩ := Option.bind_eq_some_iff.mp h
  dsimp only at h
  split at h
  · rename_i hr
    cases h
    exact ⟨q, hq, hr, rfl⟩
  · cases h

/-- What a call of the program is for the kernel. -/
theorem call_eq_some {p : Pid} {s s' : Running σ} {r : ReadResult}
    (h : P.call p s = some (s', r)) :
    s.k.currProcess = some p ∧ ∃ q, P.request s.point = some q ∧ q.exec s.k = some (s'.k, r) ∧
      s' = ⟨s'.k, P.resume s.point r, s.out ++ q.output s.k⟩ := by
  unfold call at h
  split at h
  · rename_i hp
    obtain ⟨q, hq, h⟩ := Option.bind_eq_some_iff.mp h
    obtain ⟨⟨k', r'⟩, hk', h⟩ := Option.map_eq_some_iff.mp h
    cases h
    exact ⟨hp, q, hq, hk', rfl⟩
  · cases h

end Program

/-- What happens around process `p`: no system call while it runs. -/
def Around {σ : Type*} (p : Pid) (s : Running σ) : Option Event → Prop
  | none => True
  | some e => s.k.currProcess = some p → e.isCall = false

instance {σ : Type*} (p : Pid) (s : Running σ) : ∀ e, Decidable (Around p s e)
  | none => inferInstanceAs (Decidable True)
  | some e => inferInstanceAs (Decidable (s.k.currProcess = some p → e.isCall = false))

/-! ## Descriptors and handles -/

/-- A descriptor of a process and what it stands for. -/
inductive Denotes (img : Image) (d : FileDescriptor) : Handle → Prop
  | closed : ¬d.InUse → Denotes img d .closed
  | stdin : d.InUse → d.fileType = stdinType → d.fileOpTablePtr = some .std → Denotes img d .stdin
  | stdout : d.InUse → d.fileType = stdoutType → d.fileOpTablePtr = some .std →
      Denotes img d .stdout
  | rtc : d.InUse → d.fileType = rtcType → d.fileOpTablePtr = some .rtc → Denotes img d .rtc
  | directory : d.InUse → d.fileType = directoryType → d.fileOpTablePtr = some .dir →
      Denotes img d .directory
  | file {i pos : ℕ} : OpenOn img d i pos → pos < 2 ^ 32 → Denotes img d (.file (filePtr img i) pos)

/-- The descriptor table of a process and its handles. -/
def Holds (img : Image) (f : FileArray) (hs : Fin 8 → Handle) : Prop :=
  ∀ i, Denotes img (f i) (hs i)

theorem Denotes.inUse_iff {d : FileDescriptor} {h : Handle} (hd : Denotes img d h) :
    d.InUse ↔ h ≠ .closed := by
  cases hd with
  | closed hfree => simp [hfree]
  | file hopen _ => simp [hopen.inUse]
  | _ huse _ _ => simp [huse]

theorem Denotes.of_type {d : FileDescriptor} {h : Handle} {type : ℕ} (hd : Denotes img d h)
    (htype : h.type = some type) : d.InUse ∧ d.fileType = type := by
  cases hd with
  | closed => cases htype
  | file hopen _ =>
    cases htype
    exact ⟨hopen.inUse, hopen.fileType⟩
  | _ huse htype' _ =>
    cases htype
    exact ⟨huse, htype'⟩

theorem Holds.update {f : FileArray} {hs : Fin 8 → Handle} (hf : Holds img f hs) {i : Fin 8}
    {d : FileDescriptor} {h : Handle} (hd : Denotes img d h) :
    Holds img (Function.update f i d) (Function.update hs i h) := by
  intro j
  by_cases hji : j = i
  · rw [hji, Function.update_self, Function.update_self]
    exact hd
  · rw [Function.update_of_ne hji, Function.update_of_ne hji]
    exact hf j

/-- A descriptor that passes the tests of `kread` and `kwrite` stands for the handle. -/
theorem Holds.of_checkFd {t : Proc} {f : FileArray} (hf : Holds img f t.handles) {types : List ℕ}
    {fd : ℤ} {d : FileDescriptor} (h : checkFd f types fd = some d) :
    (∃ i, d = f i) ∧ Denotes img d (t.lookup fd) ∧ d.InUse ∧ d.fileType ∈ types := by
  obtain ⟨i, hi, rfl, huse, htype⟩ := checkFd_eq_some.mp h
  refine ⟨⟨i, rfl⟩, ?_, huse, htype⟩
  rw [Proc.lookup, slotOf_eq_some.mpr hi]
  exact hf i

/-- If the tests fail, the handle is closed or of another type. -/
theorem Holds.of_checkFd_none {t : Proc} {f : FileArray} (hf : Holds img f t.handles)
    {types : List ℕ} {fd : ℤ} (h : checkFd f types fd = none) :
    ∀ type ∈ (t.lookup fd).type, type ∉ types := by
  rw [Proc.lookup]
  cases hslot : slotOf fd with
  | none => exact nofun
  | some i =>
    show ∀ type ∈ (t.handles i).type, type ∉ types
    intro type htype hmem
    obtain ⟨huse, rfl⟩ := (hf i).of_type htype
    rw [checkFd_eq_some.mpr ⟨i, slotOf_eq_some.mp hslot, rfl, huse, hmem⟩] at h
    cases h

/-! ## Opening and closing -/

theorem Holds.slot {t : Proc} {f : FileArray} (hf : Holds img f t.handles) :
    chosenIndex f = t.slot := by
  unfold chosenIndex Proc.slot
  congr 1
  funext i
  exact decide_eq_decide.mpr ((not_congr (hf i).inUse_iff).trans not_not)

/-- A found entry of a well-formed image is one of the counted ones. -/
theorem lookup_lt (hwf : img.WellFormed) {name : Option (ℕ → UInt8)} {d : Dentry}
    (h : readDentryByName img name = some d) : ∃ i < numDirEntries img, d = entry img i := by
  cases name with
  | none => cases h
  | some f =>
    obtain ⟨hf, i, hi, rfl, hname⟩ := readDentryByName_eq_some h
    refine ⟨i, ?_, rfl⟩
    by_contra hge
    -- an unused slot has an empty name
    exact hf ((cname_eq_nil f).mp (hname.trans (hwf.unused i hi (by omega))))

/-- The descriptor that `fd_init` fills in is what the entry is. -/
theorem fdInit_denotes (hwf : k.img.WellFormed) {name : Option (ℕ → UInt8)} {d : Dentry}
    (hd : readDentryByName k.img name = some d) (i : Fin 8) :
    (k.fdInit p d i = none ∧ Proc.opened k.img d = none) ∨
      ∃ e h, k.fdInit p d i = some (k.modifyFile p i fun _ => e) ∧
        Proc.opened k.img d = some h ∧ Denotes k.img e h := by
  unfold fdInit Proc.opened
  dsimp only
  split_ifs with hrtc hdir hreg
  · refine .inr ⟨_, _, rfl, rfl, .rtc ?_ ?_ rfl⟩ <;>
      simp only [FileDescriptor.InUse, FileDescriptor.fileType, hrtc] <;> decide
  · refine .inr ⟨_, _, rfl, rfl, .directory ?_ ?_ rfl⟩ <;>
      simp only [FileDescriptor.InUse, FileDescriptor.fileType, hdir] <;> decide
  · obtain ⟨j, hj, rfl⟩ := lookup_lt hwf hd
    refine .inr ⟨_, _, rfl, rfl, .file ⟨hj, hreg, ?_, ?_, rfl, rfl, rfl⟩ (by decide)⟩ <;>
      simp only [FileDescriptor.InUse, FileDescriptor.fileType, hreg] <;> decide
  · exact .inl ⟨rfl, rfl⟩

theorem Holds.kopen {t : Proc} {name : Option (ℕ → UInt8)} {r : ℤ} (hwf : k.img.WellFormed)
    (hf : Holds k.img (k.table p) t.handles) (hp : k.desc = some p)
    (h : k.kopen name = some (k', r)) :
    Holds k.img (k'.table p) (t.openFile k.img name).1.handles ∧ r = (t.openFile k.img name).2 := by
  simp only [Kernel.kopen, hp, Option.bind_eq_bind, Option.bind_some, Option.pure_def] at h
  rw [show chosenIndex (k.pcbs p).files = t.slot from hf.slot] at h
  unfold Proc.openFile
  cases hslot : t.slot with
  | none =>
    rw [hslot] at h
    cases h
    exact ⟨hf, rfl⟩
  | some i =>
    rw [hslot] at h
    cases hd : readDentryByName k.img name with
    | none =>
      simp only [hd, Option.some.injEq, Prod.mk.injEq] at h
      obtain ⟨rfl, rfl⟩ := h
      exact ⟨hf, rfl⟩
    | some d =>
      simp only [hd] at h
      rw [Option.bind_some]
      rcases fdInit_denotes (p := p) hwf hd i with ⟨hinit, hopened⟩ | ⟨e, hd, hinit, hopened, hden⟩
      · rw [hinit] at h
        rw [hopened]
        cases h
        exact ⟨hf, rfl⟩
      · rw [hinit] at h
        rw [hopened]
        cases h
        rw [table_modifyFile]
        exact ⟨hf.update hden, rfl⟩

theorem Holds.kclose {t : Proc} {fd r : ℤ} (hf : Holds k.img (k.table p) t.handles)
    (hok : TableOk (k.table p)) (hp : k.desc = some p) (h : k.kclose fd = some (k', r)) :
    Holds k.img (k'.table p) (t.closeFile fd).1.handles ∧ r = (t.closeFile fd).2 := by
  obtain ⟨k₁, r₁, hk₁, hspec⟩ := kclose_spec hp hok fd
  cases hk₁.symm.trans h
  unfold Proc.closeFile
  by_cases hr : r = 0
  · obtain ⟨i, hi, htwo, huse⟩ := hspec.succeeds_iff.mp hr
    rw [slotOf_eq_some.mpr hi, hspec.freed i hi hr, table_modifyFile]
    dsimp only
    rw [if_pos ⟨htwo, (hf i).inUse_iff.mp huse⟩]
    exact ⟨hf.update (.closed (by simp [FileDescriptor.InUse])), hr⟩
  · obtain ⟨hr', hk'⟩ := hspec.unchanged hr
    have hnot : ∀ i, slotOf fd = some i → ¬(2 ≤ i ∧ t.handles i ≠ .closed) := by
      intro i hi hcond
      exact hr (hspec.succeeds_iff.mpr
        ⟨i, slotOf_eq_some.mp hi, hcond.1, (hf i).inUse_iff.mpr hcond.2⟩)
    rw [hk', hr']
    cases hslot : slotOf fd with
    | none => exact ⟨hf, rfl⟩
    | some i =>
      dsimp only
      rw [if_neg (hnot i hslot)]
      exact ⟨hf, rfl⟩

/-! ## Reading -/

/-- `fs_read` on an open file, wherever its position is. -/
theorem fsRead_of_lt {d : FileDescriptor} {i pos : ℕ} (hwf : k.img.WellFormed)
    (h : OpenOn k.img d i pos) (hpos : pos < 2 ^ 32) (n buf : ℕ) :
    k.fsRead p d.inodePtr d.filePosition n buf
      = (k.incrementPosition p (filePtr k.img i)
            (((fileBytes k.img (filePtr k.img i)).drop pos).take n).length,
          ⟨(((fileBytes k.img (filePtr k.img i)).drop pos).take n).length,
            ((fileBytes k.img (filePtr k.img i)).drop pos).take n⟩) := by
  obtain ⟨e, he, hptr⟩ := lookup_of_inodePtr hwf h.entry_lt h.regular
  rw [fsRead, h.inode, h.position, filePtr, he]
  simp only [hptr]
  rw [← filePtr, readData_eq (h.inodeOk hwf) hpos]

/-- A change of the position is a change of the position of the handle. -/
theorem Denotes.moved {d : FileDescriptor} {h : Handle} (hd : Denotes img d h) {inode n pos : ℕ}
    (hmoved : ∀ i, OpenOn img d i d.filePosition →
      pos = if filePtr img i = inode then (d.filePosition + n) % 2 ^ 32 else d.filePosition) :
    Denotes img { d with filePosition := pos } (h.advance inode n) := by
  cases hd with
  | closed hfree => exact .closed hfree
  | stdin huse htype hops => exact .stdin huse htype hops
  | stdout huse htype hops => exact .stdout huse htype hops
  | rtc huse htype hops => exact .rtc huse htype hops
  | directory huse htype hops => exact .directory huse htype hops
  | @file i pos' hopen hlt =>
    have hpos := hmoved i { hopen with position := rfl }
    rw [hopen.position] at hpos
    refine .file { hopen with position := hpos } ?_
    split
    · exact Nat.mod_lt _ (by decide)
    · exact hlt

theorem Holds.incrementPosition {t : Proc} (hf : Holds k.img (k.table p) t.handles)
    (hok : TableOk (k.table p)) {inode : ℕ} (hne : inode ≠ 0) (n : ℕ) :
    Holds k.img ((k.incrementPosition p inode n).table p) fun i => (t.handles i).advance inode n := by
  intro i
  rw [incrementPosition_fields]
  refine (hf i).moved fun j hopen => ?_
  have htwo : 2 ≤ i := Regular.two_le ⟨hopen.inUse, hopen.fileType⟩ hok
  rw [table_incrementPosition, hopen.inode]
  by_cases hj : filePtr k.img j = inode
  · rw [if_pos ⟨hne, htwo, hj⟩, if_pos hj]
    show (((k.table p i).filePosition + (n : ℤ)) % 2 ^ 32).toNat = _
    omega
  · rw [if_neg fun hc => hj hc.2.2, if_neg hj]

theorem Holds.kread {t : Proc} {fd nbytes : ℤ} {buf : ℕ} {r : ReadResult} (hwf : k.img.WellFormed)
    (hf : Holds k.img (k.table p) t.handles) (hok : TableOk (k.table p)) (hp : k.desc = some p)
    (h : k.kread fd buf nbytes = some (k', r)) :
    Holds k.img (k'.table p) (t.readFile k.img fd buf nbytes).1.handles ∧
      ((t.readFile k.img fd buf nbytes).2 = none ∨
        (t.readFile k.img fd buf nbytes).2 = some r) := by
  simp only [Kernel.kread, hp, Option.bind_eq_bind, Option.bind_some, Option.pure_def] at h
  unfold Proc.readFile
  split at h
  · rename_i hbad
    cases h
    rw [if_pos hbad]
    exact ⟨hf, .inr rfl⟩
  · rename_i hgood
    rw [if_neg hgood]
    split at h
    · rename_i hcheck
      cases h
      have hnot := hf.of_checkFd_none hcheck
      -- only a closed descriptor and standard output are not readable
      generalize t.lookup fd = hd at hnot ⊢
      cases hd with
      | closed => exact ⟨hf, .inr rfl⟩
      | stdout => exact ⟨hf, .inr rfl⟩
      | _ => exact absurd (by decide) (hnot _ rfl)
    · rename_i d hcheck
      obtain ⟨-, hden, huse, htype⟩ := hf.of_checkFd hcheck
      generalize t.lookup fd = hd at hden ⊢
      unfold opRead at h
      cases hden with
      | closed hfree => exact absurd huse hfree
      | stdout _ htype' =>
        rw [htype'] at htype
        exact absurd htype (by decide)
      | stdin _ _ hops =>
        rw [hops] at h
        obtain ⟨x, -, hx⟩ := Option.map_eq_some_iff.mp h
        cases hx
        exact ⟨hf, .inl rfl⟩
      | rtc _ _ hops =>
        rw [hops] at h
        cases h
        exact ⟨hf, .inr rfl⟩
      | directory _ _ hops =>
        rw [hops] at h
        cases h
        exact ⟨hf, .inl rfl⟩
      | @file i pos hopen hlt =>
        have hne : filePtr k.img i ≠ 0 :=
          getInodePtr_ne_zero hwf (hwf.inode_lt i hopen.entry_lt hopen.regular)
        rw [hopen.ops] at h
        dsimp only at h
        rw [fsRead_of_lt hwf hopen hlt] at h
        cases h
        exact ⟨hf.incrementPosition hok hne _, .inr rfl⟩

/-! ## Writing -/

theorem Proc.writeFile_frame (t : Proc) (fd : ℤ) (buf : Option (ℕ → UInt8)) (nbytes : ℤ) :
    (t.writeFile fd buf nbytes).1.handles = t.handles ∧
      (t.writeFile fd buf nbytes).1.args = t.args := by
  unfold writeFile
  split
  · exact ⟨rfl, rfl⟩
  · split
    · exact ⟨rfl, rfl⟩
    · split <;> exact ⟨rfl, rfl⟩

/-- A write returns what the process alone gets, and sends the same bytes to the terminal. -/
theorem Holds.kwrite {t : Proc} {fd nbytes : ℤ} {buf : Option (ℕ → UInt8)} {r : ℤ}
    (hf : Holds k.img (k.table p) t.handles) (hp : k.desc = some p)
    (h : k.kwrite fd buf nbytes = some (k', r)) :
    r = (t.writeFile fd buf nbytes).2 ∧ (t.writeFile fd buf nbytes).1.out
      = t.out ++ ((Call.kwrite fd buf nbytes).terminalBytes k).getD [] := by
  cases buf with
  | none =>
    simp only [Kernel.kwrite, hp, Option.bind_eq_bind, Option.bind_some, Option.pure_def] at h
    cases h
    exact ⟨rfl, (List.append_nil _).symm⟩
  | some buf =>
    simp only [Kernel.kwrite, hp, Option.bind_eq_bind, Option.bind_some, Option.pure_def] at h
    simp only [Proc.writeFile, Call.terminalBytes, hp, Option.bind_some]
    split at h
    · rename_i hneg
      cases h
      rw [if_pos hneg, if_pos hneg]
      exact ⟨rfl, (List.append_nil _).symm⟩
    · rename_i hneg
      rw [if_neg hneg, if_neg hneg]
      split at h
      · rename_i hcheck
        cases h
        rw [hcheck]
        have hnot := hf.of_checkFd_none hcheck
        -- only a closed descriptor and standard input are not writable
        generalize t.lookup fd = hd at hnot ⊢
        cases hd with
        | closed => exact ⟨rfl, (List.append_nil _).symm⟩
        | stdin => exact ⟨rfl, (List.append_nil _).symm⟩
        | _ => exact absurd (by decide) (hnot _ rfl)
      · rename_i d hcheck
        rw [hcheck, Option.bind_some]
        obtain ⟨-, hden, huse, htype⟩ := hf.of_checkFd hcheck
        generalize t.lookup fd = hd at hden ⊢
        unfold opWrite at h
        cases hden with
        | closed hfree => exact absurd huse hfree
        | stdin _ htype' =>
          rw [htype'] at htype
          exact absurd htype (by decide)
        | stdout _ _ hops =>
          rw [hops] at h
          obtain ⟨x, -, hx⟩ := Option.map_eq_some_iff.mp h
          cases hx
          rw [if_pos hops]
          exact ⟨rfl, rfl⟩
        | rtc _ _ hops =>
          rw [hops] at h
          rw [if_neg (show d.fileOpTablePtr ≠ some .std by simp [hops])]
          refine ⟨?_, (List.append_nil _).symm⟩
          simp only [rtcWrite] at h
          split at h
          · rename_i hrate
            cases h
            rw [hrate]
            rfl
          · rename_i hrate
            cases h
            rw [hrate]
            rfl
        | directory _ _ hops =>
          rw [hops] at h
          cases h
          rw [if_neg (show d.fileOpTablePtr ≠ some .std by simp [hops])]
          exact ⟨rfl, (List.append_nil _).symm⟩
        | file hopen =>
          rw [hopen.ops] at h
          cases h
          rw [if_neg (show d.fileOpTablePtr ≠ some .std by simp [hopen.ops])]
          exact ⟨rfl, (List.append_nil _).symm⟩

/-! ## One call of the program -/

theorem Proc.exec_args (img : Image) (t : Proc) (q : Request) : (t.exec img q).1.args = t.args := by
  rcases q with _ | (name | fd | ⟨fd, buf, nbytes⟩ | ⟨fd, buf, nbytes⟩)
  · rfl
  · show (t.openFile img name).1.args = t.args
    unfold openFile
    split <;> rfl
  · show (t.closeFile fd).1.args = t.args
    unfold closeFile
    split
    · rfl
    · split <;> rfl
  · show (t.readFile img fd buf nbytes).1.args = t.args
    unfold readFile
    split
    · rfl
    · split <;> rfl
  · exact (t.writeFile_frame fd buf nbytes).2

theorem Proc.openFile_out (img : Image) (t : Proc) (name : Option (ℕ → UInt8)) :
    (t.openFile img name).1.out = t.out := by
  unfold openFile
  split <;> rfl

theorem Proc.closeFile_out (t : Proc) (fd : ℤ) : (t.closeFile fd).1.out = t.out := by
  unfold closeFile
  split
  · rfl
  · split <;> rfl

theorem Proc.readFile_out (img : Image) (t : Proc) (fd : ℤ) (buf : ℕ) (nbytes : ℤ) :
    (t.readFile img fd buf nbytes).1.out = t.out := by
  unfold readFile
  split
  · rfl
  · split <;> rfl

/-- The strings of `kget_args`. -/
def HasArgs (k : Kernel) (p : Pid) (args : List UInt8) : Prop :=
  Text (fun j => (k.pcbs p).tail (Pcb.argsOffset + j)) args ∧ args.length ≤ 99

theorem HasArgs.kgetArgs {t : Proc} {buf : ℕ} {nbytes : ℤ} (h : HasArgs k p t.args)
    (hp : k.currProcess = some p) : k.kgetArgs buf nbytes = some (t.getArgs buf nbytes) := by
  unfold Proc.getArgs
  split
  · rename_i hbad
    rw [Kernel.kgetArgs, if_pos hbad]
  · have hlen := h.2
    exact kgetArgs_eq (by omega) (by omega) hp h.1 (by omega)

/-- The kernel answers the running process as it would be answered alone. -/
theorem Holds.request {t : Proc} {q : Request} {r : ReadResult} (hwf : k.img.WellFormed)
    (hf : Holds k.img (k.table p) t.handles) (hok : TableOk (k.table p)) (hargs : HasArgs k p t.args)
    (hd : k.desc = some p) (hp : k.currProcess = some p) (h : q.exec k = some (k', r)) :
    Holds k.img (k'.table p) (t.exec k.img q).1.handles ∧
      ((t.exec k.img q).2 = none ∨ (t.exec k.img q).2 = some r) ∧
      (t.exec k.img q).1.out = t.out ++ q.output k := by
  rcases q with _ | (name | fd | ⟨fd, buf, nbytes⟩ | ⟨fd, buf, nbytes⟩)
  · rename_i buf nbytes
    rw [Request.exec, hargs.kgetArgs hp] at h
    cases h
    exact ⟨hf, .inr rfl, (List.append_nil _).symm⟩
  · obtain ⟨⟨k₁, r₁⟩, hk₁, he⟩ := Option.map_eq_some_iff.mp h
    cases he
    obtain ⟨hholds, rfl⟩ := hf.kopen hwf hd hk₁
    exact ⟨hholds, .inr rfl, (t.openFile_out ..).trans (List.append_nil _).symm⟩
  · obtain ⟨⟨k₁, r₁⟩, hk₁, he⟩ := Option.map_eq_some_iff.mp h
    cases he
    obtain ⟨hholds, rfl⟩ := hf.kclose hok hd hk₁
    exact ⟨hholds, .inr rfl, (t.closeFile_out fd).trans (List.append_nil _).symm⟩
  · obtain ⟨hholds, hr⟩ := hf.kread hwf hok hd h
    exact ⟨hholds, hr, (t.readFile_out ..).trans (List.append_nil _).symm⟩
  · obtain ⟨⟨k₁, r₁⟩, hk₁, he⟩ := Option.map_eq_some_iff.mp h
    cases he
    obtain ⟨rfl, hout⟩ := hf.kwrite hd hk₁
    refine ⟨?_, .inr rfl, hout⟩
    rw [table, (kwrite_pcbs hk₁ hd).1]
    show Holds k.img (k.table p) (t.writeFile fd buf nbytes).1.handles
    rw [(t.writeFile_frame fd buf nbytes).1]
    exact hf

theorem Request.exec_call {c : Call} {r : ReadResult} (h : (Request.call c).exec k = some (k', r)) :
    (Event.fileCall c).exec k = some k' := by
  show c.exec k = some k'
  rcases c with name | fd | ⟨fd, buf, nbytes⟩ | ⟨fd, buf, nbytes⟩
  · obtain ⟨x, hx, he⟩ := Option.map_eq_some_iff.mp h
    cases he
    rw [Call.exec, hx, Option.map_some]
  · obtain ⟨x, hx, he⟩ := Option.map_eq_some_iff.mp h
    cases he
    rw [Call.exec, hx, Option.map_some]
  · rw [Request.exec] at h
    rw [Call.exec, h, Option.map_some]
  · obtain ⟨x, hx, he⟩ := Option.map_eq_some_iff.mp h
    cases he
    rw [Call.exec, hx, Option.map_some]

/-- A call changes nothing, or it is an event of the kernel. -/
theorem Request.exec_event {q : Request} {r : ReadResult} (h : q.exec k = some (k', r)) :
    k' = k ∨ ∃ c, (Event.fileCall c).exec k = some k' := by
  rcases q with _ | c
  · obtain ⟨x, -, he⟩ := Option.map_eq_some_iff.mp h
    cases he
    exact .inl rfl
  · exact .inr ⟨c, Request.exec_call h⟩

/-! ## What happens around the program -/

section Around

variable {chains chains' : Fin 3 → List Pid} {ps : List Pid} {c : Pid} {e : Event}

theorem Called.img_eq {out : Option (List UInt8)} (h : Called k c out k') : k'.img = k.img := by
  cases h with
  | quiet _ _ heq => rw [heq]; rfl
  | wrote hwrite =>
    obtain ⟨m, rfl⟩ := terminalWrite_eq_some hwrite
    rfl

/-- No event writes the image, and none but the calls of a live process changes its
descriptors. -/
theorem Step.private (hs : Step k chains c e k' chains') (hlive : k.Live p) :
    k'.img = k.img ∧ (p ≠ c ∨ e.isCall = false → k'.table p = k.table p) := by
  have hsame : k'.img = k.img → k'.pcbs = k.pcbs →
      k'.img = k.img ∧ (p ≠ c ∨ e.isCall = false → k'.table p = k.table p) := by
    intro himg hpcbs
    refine ⟨himg, fun _ => ?_⟩
    rw [table, table, hpcbs]
  cases hs with
  | kexecuteError => exact hsame rfl rfl
  | kexecuteFailed _ _ hacc =>
    obtain ⟨m, rfl⟩ := access_eq_some hacc
    exact hsame rfl rfl
  | @kexecuted _ _ _ n' _ _ k₁ k₂ _ _ hfree _ hacc _ hs hsw =>
    obtain ⟨m, rfl⟩ := access_eq_some hacc
    have hne : p ≠ n' := fun heq => not_live_of_free hfree (heq ▸ hlive)
    constructor
    · rw [hsw.eq]
      exact hs.img
    · intro _
      rw [table, hsw.pcbs]
      exact hs.files_ne p hne
  | restarted => exact hsame rfl rfl
  | khalted _ hs hsw =>
    constructor
    · rw [hsw.eq]
      exact hs.img
    · intro hor
      rw [table, hsw.pcbs]
      exact hs.files_ne p (hor.resolve_right (by simp [Event.isCall]))
  | kvidmapError => exact hsame rfl rfl
  | kvidmapped _ hacc =>
    obtain ⟨m, rfl⟩ := access_eq_some hacc
    exact hsame rfl rfl
  | fileCall hcall =>
    exact ⟨hcall.img_eq, fun hor => hcall.table_ne (hor.resolve_right (by simp [Event.isCall]))⟩
  | tick hsw => exact hsame (by rw [hsw.eq]) hsw.pcbs
  | sameTerminal => exact hsame rfl rfl
  | switchTerminals _ h₁ h₂ =>
    obtain ⟨m₁, rfl⟩ := access_eq_some h₁
    obtain ⟨m₂, rfl⟩ := access_eq_some h₂
    exact hsame rfl rfl
  | putChar hkey =>
    obtain ⟨m, rfl⟩ := keyboardOutput_eq_some hkey
    exact hsame rfl rfl
  | clearTerminal hkey =>
    obtain ⟨m, rfl⟩ := keyboardOutput_eq_some hkey
    exact hsame rfl rfl

end Around

/-! ## Runs -/

/-- The process in the kernel and the process alone. -/
structure Tracks {σ : Type*} (p : Pid) (img : Image) (s : Running σ) (x : Proc × σ) : Prop where
  reach : Run.Reach system Run.Free s.k
  image : s.k.img = img
  live : s.k.Live p
  holds : Holds img (s.k.table p) x.1.handles
  args : HasArgs s.k p x.1.args
  out : s.out = x.1.out
  point : s.point = x.2

theorem HasArgs.of_tail {args : List UInt8} (h : HasArgs k p args)
    (htail : ∀ off < Pcb.espOffset, (k'.pcbs p).tail off = (k.pcbs p).tail off) :
    HasArgs k' p args := by
  obtain ⟨⟨hnul, hbytes⟩, hlen⟩ := h
  refine ⟨⟨hnul, fun i hi => ?_⟩, hlen⟩
  rw [← hbytes i hi]
  exact htail _ (by unfold Pcb.argsOffset Pcb.espOffset; omega)

section Runs

variable {σ : Type*} {P : Program σ} {s s' : Running σ} {x : Proc × σ}

/-- What another process or an interrupt does cannot be seen. -/
theorem Tracks.around {e : Event} (h : Tracks p img s x)
    (hok : s.k.currProcess = some p → e.isCall = false) (he : e.exec s.k = some k') :
    Tracks p img { s with k := k' } x := by
  obtain ⟨chains, ps, c, hcons⟩ := Reach.consistent h.reach
  obtain ⟨chains', ps', c', hs, -⟩ := hcons.step he
  have hor : p ≠ c ∨ e.isCall = false := by
    by_cases hpc : p = c
    · exact .inr (hok (hpc ▸ hcons.currProcess))
    · exact .inl hpc
  obtain ⟨himg, htable⟩ := hs.private h.live
  obtain ⟨hlive, htail⟩ := hcons.strings_step (n := p) he h.live fun status heq hp => by
    have hcall := hok hp
    rw [heq] at hcall
    cases hcall
  refine ⟨h.reach.step trivial he, himg.trans h.image, hlive, ?_, h.args.of_tail htail, h.out, h.point⟩
  show Holds img (k'.table p) _
  rw [htable hor]
  exact h.holds

/-- A call of the program is answered as alone. -/
theorem Tracks.call {r : ReadResult} (hwf : img.WellFormed) (h : Tracks p img s x)
    (hcall : P.call p s = some (s', r)) :
    ∃ x', P.alone img x (some r) = some x' ∧ Tracks p img s' x' := by
  obtain ⟨t, point⟩ := x
  obtain ⟨hp, q, hq, hk', hs'⟩ := Program.call_eq_some hcall
  obtain ⟨chains, ps, c, hcons⟩ := Reach.consistent h.reach
  obtain rfl : c = p := Option.some.inj (hcons.currProcess.symm.trans hp)
  obtain rfl := h.image
  obtain ⟨hholds, hr, hout⟩ := h.holds.request hwf (hcons.files c h.live) h.args hcons.desc hp hk'
  have hpoint : s.point = point := h.point
  rw [hpoint] at hq
  refine ⟨((t.exec s.k.img q).1, P.resume point r), ?_, ?_⟩
  · rw [Program.alone, hq, Option.bind_some]
    dsimp only
    rw [if_pos hr]
  · have hframe : Run.Reach system Run.Free s'.k ∧ s'.k.img = s.k.img ∧ s'.k.Live c ∧
        ∀ off < Pcb.espOffset, (s'.k.pcbs c).tail off = (s.k.pcbs c).tail off := by
      rcases q.exec_event hk' with heq | ⟨call, he⟩
      · rw [heq]
        exact ⟨h.reach, rfl, h.live, fun _ _ => rfl⟩
      · obtain ⟨chains', ps', c', hs, -⟩ := hcons.step he
        obtain ⟨hlive, htail⟩ := hcons.strings_step (n := c) he h.live fun status heq => by cases heq
        exact ⟨h.reach.step (e := .fileCall call) trivial he, (hs.private h.live).1, hlive, htail⟩
    obtain ⟨hreach, himg, hlive, htail⟩ := hframe
    refine ⟨hreach, himg, hlive, hholds, ?_, ?_, ?_⟩
    · rw [Proc.exec_args]
      exact h.args.of_tail htail
    · rw [hs', hout, h.out]
    · rw [hs', hpoint]

/-- Every run of the program on the kernel is a run of the program alone, with the same answers. -/
theorem Tracks.run (hwf : img.WellFormed) (h : Tracks p img s x) {k₀ : Kernel} {start : σ}
    {es : List (Option Event)} (hok : (P.onKernel p k₀ start).Allowed (Around p) s es)
    (hrun : (P.onKernel p k₀ start).run s es = some s') :
    ∃ x', ((P.onKernel p k₀ start).labels (P.answer p) s es).foldlM (P.alone img) x = some x' ∧
      Tracks p img s' x' := by
  have hstep : ∀ s e s' x, Tracks p img s x → Around p s e →
      (P.onKernel p k₀ start).step s e = some s' →
      ∃ x', P.alone img x (P.answer p s e) = some x' ∧ Tracks p img s' x' := by
    rintro s (_ | e) s' x h hok he
    · obtain ⟨⟨s₁, r⟩, hcall, rfl⟩ := Option.map_eq_some_iff.mp he
      obtain ⟨x', hx', h'⟩ := h.call hwf hcall
      refine ⟨x', ?_, h'⟩
      rw [Program.answer, hcall]
      exact hx'
    · obtain ⟨k', hk', rfl⟩ := Option.map_eq_some_iff.mp he
      exact ⟨x, rfl, h.around hok hk'⟩
  exact Run.System.simulates (P.answer p) hstep h hok hrun

end Runs

/-! ## From its start on -/

end Kernel
end GalapagOS
