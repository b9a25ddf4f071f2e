import GalapagOS.FileSystem.Names
import GalapagOS.Kernel.Frame
import GalapagOS.Kernel.Tree
import Mathlib.Data.Fintype.Prod

/-!
# Listing the directory through descriptors

`dir_read` keeps its place in `curr_file_number`, which all descriptors of all processes share.
An observer counts the reads on each directory descriptor since it was opened. While one
descriptor at a time goes through the directory, and goes through to the end, the variable
agrees with the counts; two listings at once, or one that was given up, see each other.
-/

namespace GalapagOS
namespace Kernel

open FileSystem

variable {k k' : Kernel} {p : Pid}

/-! ## What is observed -/

/-- The descriptor of a directory that an event opens. -/
def openSlot (k : Kernel) : Event → Option (Pid × Fin 8)
  | .fileCall (.kopen name) => do
    let p ← k.desc
    let (_, fd) ← k.kopen name
    let d ← readDentryByName k.img name
    if d.fileType = directoryType then (slotOf fd).map fun i => (p, i) else none
  | _ => none

/-- The descriptor for which an event calls `dir_read`. -/
def readSlot (k : Kernel) : Event → Option (Pid × Fin 8)
  | .fileCall (.kread fd buf nbytes) => do
    let p ← k.desc
    let i ← slotOf fd
    if buf ≠ 0 ∧ 0 ≤ nbytes ∧ (k.table p i).InUse ∧ (k.table p i).fileType ∈ readable ∧
      (k.table p i).fileOpTablePtr = some .dir then some (p, i) else none
  | _ => none

/-- The descriptors that an event closes, if they are in use: `kclose` closes one, and `khalt` those of
a process that is no shell. -/
def Closes (k : Kernel) (d : Pid × Fin 8) : Event → Prop
  | .fileCall (.kclose fd) => k.desc = some d.1 ∧ slotOf fd = some d.2
  | .khalt _ => k.desc = some d.1 ∧ 2 < d.1
  | _ => False

instance (k : Kernel) (d : Pid × Fin 8) (e : Event) : Decidable (k.Closes d e) := by
  unfold Closes
  split <;> infer_instance

/-- The kernel with an observer of the directory descriptors. -/
structure Observed where
  k : Kernel
  /-- obtained by `kopen` of a directory, and in use ever since -/
  opened : Pid × Fin 8 → Bool
  /-- the calls of `dir_read` since then -/
  count : Pid × Fin 8 → ℕ

namespace Observed

/-- What the observer notes when an event has led to `k'`. -/
def next (s : Observed) (e : Event) (k' : Kernel) : Observed where
  k := k'
  opened d := s.k.openSlot e = some d ∨ s.opened d ∧ (k'.table d.1 d.2).InUse
  count d :=
    if s.k.openSlot e = some d then 0
    else if s.k.readSlot e = some d then s.count d + 1 else s.count d

/-- Nothing has been opened at boot. -/
def system : Run.System Observed Event where
  init s := Kernel.system.init s.k ∧ (∀ d, s.opened d = false) ∧ ∀ d, s.count d = 0
  step s e := (e.exec s.k).map (s.next e)

/-- In the middle of the directory: the last read on the descriptor was not the one that returns 0. -/
def Begun (s : Observed) (d : Pid × Fin 8) : Prop := s.count d % (numDirEntries s.k.img + 1) ≠ 0

instance (s : Observed) : DecidablePred s.Begun := fun _ => inferInstanceAs (Decidable (_ ≠ _))

/-- A directory is read while no other descriptor is in the middle of it, and descriptors are not
closed in the middle. -/
def InTurn (s : Observed) (e : Event) : Prop :=
  (∀ d ∈ s.k.readSlot e, ∀ d', d' ≠ d → ¬s.Begun d') ∧ ∀ d, s.k.Closes d e → ¬s.Begun d

instance (s : Observed) (e : Event) : Decidable (s.InTurn e) := inferInstanceAs (Decidable (_ ∧ _))

end Observed

/-! ## One event -/

/-- A call of `dir_read` changes `curr_file_number` and nothing else. -/
theorem kread_of_readSlot {fd nbytes : ℤ} {buf : ℕ} {d : Pid × Fin 8}
    (h : k.readSlot (.fileCall (.kread fd buf nbytes)) = some d) :
    k.kread fd buf nbytes = some
      ({ k with currFileNumber := (dirRead k.img k.currFileNumber nbytes).1 },
        (dirRead k.img k.currFileNumber nbytes).2) := by
  obtain ⟨p, hp, h⟩ := Option.bind_eq_some_iff.mp h
  obtain ⟨i, hi, h⟩ := Option.bind_eq_some_iff.mp h
  obtain ⟨⟨hbuf, hn, huse, htype, hops⟩, -⟩ := Option.ite_none_right_eq_some.mp h
  have hcheck : checkFd (k.pcbs p).files readable fd = some (k.table p i) :=
    checkFd_eq_some.mpr ⟨i, slotOf_eq_some.mp hi, rfl, huse, htype⟩
  simp only [kread, hp, Option.bind_eq_bind, Option.bind_some, hcheck]
  rw [if_neg (by omega), opRead, hops, Int.toNat_of_nonneg hn, ← hp]

theorem kread_of_not_readSlot {fd nbytes : ℤ} {buf : ℕ} {r : ReadResult}
    (h : k.kread fd buf nbytes = some (k', r))
    (hslot : k.readSlot (.fileCall (.kread fd buf nbytes)) = none) : Steady k k' := by
  obtain ⟨p, hp, h⟩ := Option.bind_eq_some_iff.mp h
  by_cases hargs : buf = 0 ∨ nbytes < 0
  · rw [if_pos hargs] at h
    cases h
    exact Steady.refl k
  · rw [if_neg hargs] at h
    cases hcheck : checkFd (k.pcbs p).files readable fd with
    | none =>
      rw [hcheck] at h
      cases h
      exact Steady.refl k
    | some d =>
      rw [hcheck] at h
      obtain ⟨i, hi, rfl, huse, htype⟩ := checkFd_eq_some.mp hcheck
      refine steady_opRead h fun hops => ?_
      have hread : k.readSlot (.fileCall (.kread fd buf nbytes)) = some (p, i) := by
        simp only [readSlot, hp, slotOf_eq_some.mpr hi, Option.bind_eq_bind, Option.bind_some]
        exact if_pos ⟨by omega, by omega, huse, htype, hops⟩
      rw [hslot] at hread
      cases hread

/-- Events that neither open a file nor read a directory. -/
theorem Event.steady {e : Event} (h : e.exec k = some k') (hread : k.readSlot e = none)
    (hopen : ∀ name, e ≠ .fileCall (.kopen name)) : Steady k k' := by
  cases e with
  | kexecute command st =>
    obtain ⟨⟨k₁, r⟩, hk₁, rfl⟩ := Option.map_eq_some_iff.mp h
    exact steady_kexecute hk₁
  | khalt status => exact steady_khalt h
  | kvidmap a =>
    obtain ⟨⟨k₁, r⟩, hk₁, rfl⟩ := Option.map_eq_some_iff.mp h
    exact steady_kvidmap hk₁
  | fileCall c =>
    cases c with
    | kopen name => exact absurd rfl (hopen name)
    | kclose fd =>
      obtain ⟨⟨k₁, r⟩, hk₁, rfl⟩ := Option.map_eq_some_iff.mp h
      exact steady_kclose hk₁
    | kread fd buf nbytes =>
      obtain ⟨⟨k₁, r⟩, hk₁, rfl⟩ := Option.map_eq_some_iff.mp h
      exact kread_of_not_readSlot hk₁ hread
    | kwrite fd buf nbytes =>
      obtain ⟨⟨k₁, r⟩, hk₁, rfl⟩ := Option.map_eq_some_iff.mp h
      exact steady_kwrite hk₁
  | tick => exact steady_pitHandler h
  | switchTerminals term => exact steady_switchTerminals h
  | putChar c =>
    have hout : k.keyboardOutput (fun t => Terminal.putChar t c) = some k' := h
    exact steady_keyboardOutput hout
  | clearTerminal => exact steady_keyboardOutput h

/-- A descriptor on the directory. -/
structure IsDirectory (d : FileDescriptor) : Prop where
  inUse : d.InUse
  fileType : d.fileType = directoryType
  ops : d.fileOpTablePtr = some .dir

theorem IsDirectory.congr {d d' : FileDescriptor} (h : IsDirectory d) (hflags : d'.flags = d.flags)
    (hops : d'.fileOpTablePtr = d.fileOpTablePtr) : IsDirectory d' := by
  obtain ⟨huse, htype, htable⟩ := h
  unfold FileDescriptor.InUse at huse
  unfold FileDescriptor.fileType at htype
  refine ⟨?_, ?_, hops.trans htable⟩
  · unfold FileDescriptor.InUse
    rwa [hflags]
  · unfold FileDescriptor.fileType
    rwa [hflags]

/-- What an event that opens a file does: the descriptor was free, and the others stay. -/
structure Opens (k : Kernel) (name : Option (ℕ → UInt8)) (k' : Kernel) : Prop where
  img : k'.img = k.img
  cursor : k'.currFileNumber = k.currFileNumber
  table : ∀ q j, (k.table q j).InUse → k'.table q j = k.table q j
  slot : ∀ p i, k.openSlot (.fileCall (.kopen name)) = some (p, i) →
    2 ≤ i ∧ ¬(k.table p i).InUse ∧ IsDirectory (k'.table p i)

theorem table_modifyFile_of_ne {q : Pid} {i j : Fin 8} (g : FileDescriptor → FileDescriptor)
    (h : (q, j) ≠ (p, i)) : (k.modifyFile p i g).table q j = k.table q j := by
  by_cases hq : q = p
  · subst hq
    rw [table_modifyFile, Function.update_of_ne fun hj => h (by rw [hj])]
  · have hsame : (k.modifyFile p i g).pcbs q = k.pcbs q := Function.update_of_ne hq _ _
    rw [Kernel.table, Kernel.table, hsame]

/-- `fd_init` for a directory. -/
theorem fdInit_directory {d : Dentry} {i : Fin 8} (h : k.fdInit p d i = some k')
    (hd : d.fileType = directoryType) : IsDirectory (k'.table p i) := by
  rw [fdInit, if_neg (by rw [hd]; decide), if_pos hd] at h
  cases h
  rw [table_modifyFile, Function.update_self, hd]
  exact ⟨by decide, by decide, rfl⟩

theorem kopen_opens {name : Option (ℕ → UInt8)}
    (h : (Event.fileCall (.kopen name)).exec k = some k') : Opens k name k' := by
  obtain ⟨⟨k₁, fd⟩, hk₁, rfl⟩ := Option.map_eq_some_iff.mp h
  obtain ⟨p, hp, hopen⟩ := Option.bind_eq_some_iff.mp hk₁
  have hslot : ∀ q j, k.openSlot (.fileCall (.kopen name)) = some (q, j) →
      ∃ d, readDentryByName k.img name = some d ∧ d.fileType = directoryType ∧ q = p ∧ fd = j := by
    intro q j hs
    simp only [openSlot, hp, hk₁, Option.bind_eq_bind, Option.bind_some] at hs
    obtain ⟨d, hd, hs⟩ := Option.bind_eq_some_iff.mp hs
    obtain ⟨hdir, hs⟩ := Option.ite_none_right_eq_some.mp hs
    obtain ⟨i, hi, heq⟩ := Option.map_eq_some_iff.mp hs
    cases heq
    exact ⟨d, hd, hdir, rfl, slotOf_eq_some.mp hi⟩
  have hfails : fd = -1 → k₁ = k → Opens k name k₁ := by
    rintro rfl rfl
    refine ⟨rfl, rfl, fun _ _ _ => rfl, fun q j hs => ?_⟩
    obtain ⟨d, -, -, -, hfd⟩ := hslot q j hs
    omega
  split at hopen
  · cases hopen
    exact hfails rfl rfl
  · rename_i i hi
    obtain ⟨hge, hfree, -⟩ := chosenIndex_eq_some hi
    split at hopen
    · cases hopen
      exact hfails rfl rfl
    · rename_i data hlook
      split at hopen
      · cases hopen
        exact hfails rfl rfl
      · rename_i k₂ hinit
        cases hopen
        obtain ⟨-, e, hk₂, -⟩ := fdInit_eq_some hinit
        refine ⟨by rw [hk₂]; rfl, by rw [hk₂]; rfl, fun q j huse => ?_, fun q j hs => ?_⟩
        · rw [hk₂, table_modifyFile_of_ne]
          rintro heq
          cases heq
          exact hfree huse
        · obtain ⟨d, hd, hdir, rfl, hfd⟩ := hslot q j hs
          obtain rfl : i = j := by
            ext
            exact_mod_cast hfd
          obtain rfl : data = d := Option.some.inj (hlook.symm.trans hd)
          exact ⟨hge, hfree, fdInit_directory hinit hdir⟩

/-! ## Descriptors that stay in use -/

theorem kread_flags {fd nbytes : ℤ} {buf : ℕ} {r : ReadResult} (hp : k.desc = some p)
    (h : k.kread fd buf nbytes = some (k', r)) (i : Fin 8) :
    (k'.table p i).flags = (k.table p i).flags := by
  simp only [kread, hp, Option.bind_eq_bind, Option.bind_some, Option.pure_def] at h
  split at h
  · cases h
    rfl
  · split at h
    · cases h
      rfl
    · unfold opRead at h
      split at h
      · cases h
      · cases h
        rfl
      · cases h
        rfl
      · unfold fsRead at h
        split at h
        · cases h
          rfl
        · cases h
          rw [incrementPosition_fields]
      · obtain ⟨x, -, heq⟩ := Option.map_eq_some_iff.mp h
        cases heq
        rfl

section Step

variable {chains chains' : Fin 3 → List Pid} {ps : List Pid} {c : Pid} {e : Event} {d : Pid × Fin 8}

/-- A call of the running process on its own descriptors. -/
theorem Call.exec_inUse {call : Call} {i : Fin 8} (h : call.exec k = some k') (hp : k.desc = some p)
    (hok : TableOk (k.table p)) (huse : (k.table p i).InUse)
    (hopen : ¬k.Closes (p, i) (.fileCall call)) : (k'.table p i).InUse := by
  cases call with
  | kopen name => rwa [(kopen_opens h).table p i huse]
  | kclose fd =>
    obtain ⟨k₁, r, hk₁, hspec⟩ := kclose_spec hp hok fd
    rw [Call.exec, hk₁] at h
    cases h
    by_cases hr : r = 0
    · obtain ⟨j, hj, -⟩ := hspec.succeeds_iff.mp hr
      have hij : i ≠ j := fun hij => hopen ⟨hp, slotOf_eq_some.mpr (hij ▸ hj)⟩
      rwa [hspec.freed j hj hr, table_modifyFile, Function.update_of_ne hij]
    · rwa [(hspec.unchanged hr).2]
  | kread fd buf nbytes =>
    obtain ⟨⟨k₁, r⟩, hk₁, rfl⟩ := Option.map_eq_some_iff.mp h
    unfold FileDescriptor.InUse at huse ⊢
    rwa [kread_flags hp hk₁]
  | kwrite fd buf nbytes =>
    obtain ⟨⟨k₁, r⟩, hk₁, rfl⟩ := Option.map_eq_some_iff.mp h
    rwa [table, (kwrite_pcbs hk₁ hp).1]

/-- A descriptor of a process that is not closed stays in use, and its process stays live. -/
theorem Consistent.inUse_step (hcons : Consistent k chains ps c) (he : e.exec k = some k')
    (huse : (k.table d.1 d.2).InUse) (hlive : k.Live d.1) (hopen : ¬k.Closes d e) :
    (k'.table d.1 d.2).InUse ∧ k'.Live d.1 := by
  have hframe : ∀ {k' : Kernel}, k'.pcbs = k.pcbs → k'.pidArr = k.pidArr →
      (k'.table d.1 d.2).InUse ∧ k'.Live d.1 := by
    intro k' hpcbs hpidArr
    rw [table, hpcbs, Live, hpidArr]
    exact ⟨huse, hlive⟩
  obtain ⟨chains', ps', c', hs, -⟩ := hcons.step he
  cases hs with
  | kexecuteError => exact hframe rfl rfl
  | kexecuteFailed _ _ hacc =>
    obtain ⟨m, rfl⟩ := access_eq_some hacc
    exact hframe rfl rfl
  | @kexecuted _ _ _ n _ _ k₁ k₂ _ _ hfree _ hacc _ hs hsw =>
    -- the new process has a number that was free
    have hne : d.1 ≠ n := by
      intro hn
      rw [Live, hn, (freePidIdx_eq_some hfree).1] at hlive
      cases hlive
    have htable : k'.table d.1 = k.table d.1 := by
      obtain ⟨m, rfl⟩ := access_eq_some hacc
      rw [table, hsw.pcbs]
      exact hs.files_ne d.1 hne
    have hpidArr : k₁.pidArr = k.pidArr := by
      obtain ⟨m, rfl⟩ := access_eq_some hacc
      rfl
    rw [htable, Live, hsw.pidArr, hs.pidArr, Function.update_of_ne hne, hpidArr]
    exact ⟨huse, hlive⟩
  | restarted => exact hframe rfl rfl
  | @khalted status _ _ _ _ k₁ _ _ hs hsw =>
    rcases khalt_cases he hcons.currProcess (hcons.pid c hcons.live) hcons.desc
      (hcons.files c hcons.live) with ⟨-, heq⟩ | ⟨htwo, -⟩
    · rw [heq]
      exact hframe rfl rfl
    · have hne : d.1 ≠ c := fun hd => hopen ⟨hd ▸ hcons.desc, hd ▸ htwo⟩
      have htable : k'.table d.1 = k.table d.1 := by
        rw [table, hsw.pcbs]
        exact hs.files_ne d.1 hne
      rw [htable, Live, hsw.pidArr, hs.pidArr, Function.update_of_ne hne]
      exact ⟨huse, hlive⟩
  | kvidmapError => exact hframe rfl rfl
  | kvidmapped _ hacc =>
    obtain ⟨m, rfl⟩ := access_eq_some hacc
    exact hframe rfl rfl
  | fileCall hcall =>
    refine ⟨?_, by rw [Live, hcall.pidArr]; exact hlive⟩
    by_cases hd : d.1 = c
    · rw [hd] at huse ⊢
      refine Call.exec_inUse he hcons.desc (hcons.files c hcons.live) huse ?_
      rwa [← hd]
    · rw [hcall.table_ne hd]
      exact huse
  | tick hsw => exact hframe hsw.pcbs hsw.pidArr
  | sameTerminal => exact hframe rfl rfl
  | switchTerminals _ h₁ h₂ =>
    obtain ⟨m₁, rfl⟩ := access_eq_some h₁
    obtain ⟨m₂, rfl⟩ := access_eq_some h₂
    exact hframe rfl rfl
  | putChar hkey =>
    obtain ⟨m, rfl⟩ := keyboardOutput_eq_some hkey
    exact hframe rfl rfl
  | clearTerminal hkey =>
    obtain ⟨m, rfl⟩ := keyboardOutput_eq_some hkey
    exact hframe rfl rfl

end Step

/-! ## Runs -/

namespace Observed

/-- The shared variable is the place of one descriptor, and the others are at the start. -/
structure Ok (s : Observed) : Prop where
  opened : ∀ p i, s.opened (p, i) = true → 2 ≤ i ∧ IsDirectory (s.k.table p i)
  begun : ∀ d, s.Begun d → (s.k.table d.1 d.2).InUse ∧ s.k.Live d.1
  cursor : ∃ d, s.k.currFileNumber = s.count d % (numDirEntries s.k.img + 1) ∧
    ∀ d', d' ≠ d → ¬s.Begun d'

theorem ok_of_init {s : Observed} (h : system.init s) : s.Ok := by
  obtain ⟨⟨lay, img, pcbs, regA, phys, st, hboot⟩, hopened, hcount⟩ := h
  have hstart : ∀ d, ¬s.Begun d := by
    intro d
    rw [Begun, hcount, Nat.zero_mod]
    exact fun hne => hne rfl
  have hcursor : s.k.currFileNumber = 0 := by
    unfold boot at hboot
    split at hboot
    · rename_i hexec
      cases hboot
      exact (steady_kexecute hexec).cursor
    · cases hboot
  refine ⟨fun p i hp => ?_, fun d hd => absurd hd (hstart d), (0, 0), ?_, fun d _ => hstart d⟩
  · rw [hopened] at hp
    cases hp
  · rw [hcursor, hcount, Nat.zero_mod]

/-- A descriptor that may be read now is where `curr_file_number` is. -/
theorem Ok.cursor_eq {s : Observed} (h : s.Ok) {d : Pid × Fin 8}
    (halone : ∀ d', d' ≠ d → ¬s.Begun d') :
    s.k.currFileNumber = s.count d % (numDirEntries s.k.img + 1) := by
  obtain ⟨d₀, hcursor, hothers⟩ := h.cursor
  by_cases hd : d = d₀
  · rw [hd]
    exact hcursor
  · -- neither has begun
    rw [hcursor, not_not.mp (halone d₀ (Ne.symm hd)), not_not.mp (hothers d hd)]

/-- The next place in the directory. -/
theorem succ_mod_succ (c n : ℕ) :
    (c + 1) % (n + 1) = if c % (n + 1) = n then 0 else c % (n + 1) + 1 := by
  have hlt : c % (n + 1) < n + 1 := Nat.mod_lt _ (Nat.succ_pos n)
  rw [Nat.add_mod]
  split
  · rename_i hlast
    rcases Nat.eq_zero_or_pos n with rfl | hn
    · omega
    · rw [hlast, Nat.mod_eq_of_lt (show 1 < n + 1 by omega), Nat.mod_self]
  · rw [Nat.mod_eq_of_lt (show 1 < n + 1 by omega), Nat.mod_eq_of_lt (by omega)]

/-- `dir_read` moves `curr_file_number` to the next place. -/
theorem dirRead_fst {img : Image} {c : ℕ} (count : ℤ) :
    (dirRead img (c % (numDirEntries img + 1)) count).1 = (c + 1) % (numDirEntries img + 1) := by
  have hlt : c % (numDirEntries img + 1) < numDirEntries img + 1 := Nat.mod_lt _ (Nat.succ_pos _)
  rw [succ_mod_succ, dirRead]
  split
  · rw [if_pos (by omega)]
  · rw [if_neg (by omega)]

variable {chains : Fin 3 → List Pid} {ps : List Pid} {c : Pid}

/-- A read of the directory. -/
theorem Ok.read {s : Observed} {e : Event} {d : Pid × Fin 8} (h : s.Ok)
    (hcons : Consistent s.k chains ps c) (hturn : s.InTurn e) (he : e.exec s.k = some k')
    (hread : s.k.readSlot e = some d) : (s.next e k').Ok := by
  obtain ⟨fd, buf, nbytes, rfl⟩ : ∃ fd buf nbytes, e = .fileCall (.kread fd buf nbytes) := by
    unfold readSlot at hread
    split at hread
    · exact ⟨_, _, _, rfl⟩
    · cases hread
  have hk' : k' = { s.k with
      currFileNumber := (dirRead s.k.img s.k.currFileNumber nbytes).1 } := by
    simp only [Event.exec, Call.exec, kread_of_readSlot hread, Option.map_some] at he
    exact (Option.some.inj he).symm
  -- no other descriptor is in the middle, so the shared place is the one of `d`
  have halone := hturn.1 d hread
  have hcursor := h.cursor_eq halone
  have hcount : ∀ d', (s.next (.fileCall (.kread fd buf nbytes)) k').count d'
      = if d' = d then s.count d + 1 else s.count d' := by
    intro d'
    have hslot : s.k.openSlot (.fileCall (.kread fd buf nbytes)) = none := rfl
    simp only [next, hslot, hread, reduceCtorEq, if_false, Option.some.injEq]
    by_cases hd : d = d'
    · rw [if_pos hd, if_pos hd.symm, hd]
    · rw [if_neg hd, if_neg (Ne.symm hd)]
  have hstill : ∀ d', d' ≠ d → (s.next (.fileCall (.kread fd buf nbytes)) k').Begun d' →
      s.Begun d' := by
    intro d' hd hbegun
    rw [Begun, hcount, if_neg hd, hk'] at hbegun
    exact hbegun
  have huse : (s.k.table d.1 d.2).InUse ∧ s.k.Live d.1 := by
    obtain ⟨p, hp, hslot⟩ := Option.bind_eq_some_iff.mp hread
    obtain ⟨i, -, hslot⟩ := Option.bind_eq_some_iff.mp hslot
    obtain ⟨⟨-, -, huse, -, -⟩, hd⟩ := Option.ite_none_right_eq_some.mp hslot
    cases hd
    obtain rfl : c = p := Option.some.inj (hcons.desc.symm.trans hp)
    exact ⟨huse, hcons.live⟩
  refine ⟨fun p i hp => ?_, fun d' hbegun => ?_, d, ?_, fun d' hd hbegun => ?_⟩
  · obtain heq | ⟨hp, -⟩ := of_decide_eq_true hp
    · cases heq
    · rw [hk']
      exact h.opened p i hp
  · by_cases hd : d' = d
    · rw [hd, hk']
      exact huse
    · rw [hk']
      exact h.begun d' (hstill d' hd hbegun)
  · rw [hcount, if_pos rfl, hk']
    show (dirRead s.k.img s.k.currFileNumber nbytes).1
      = (s.count d + 1) % (numDirEntries s.k.img + 1)
    rw [hcursor, dirRead_fst]
  · exact halone d' hd (hstill d' hd hbegun)

/-- Any other event. -/
theorem Ok.other {s : Observed} {e : Event} (h : s.Ok) (hcons : Consistent s.k chains ps c)
    (hturn : s.InTurn e) (he : e.exec s.k = some k') (hread : s.k.readSlot e = none)
    (hopen : ∀ name, e ≠ .fileCall (.kopen name)) : (s.next e k').Ok := by
  have hsteady := e.steady he hread hopen
  have hslot : s.k.openSlot e = none := by
    unfold openSlot
    split
    · exact absurd rfl (hopen _)
    · rfl
  have hcount : (s.next e k').count = s.count := by
    funext d
    show (if s.k.openSlot e = some d then 0 else _) = _
    rw [hslot, hread, if_neg (by simp), if_neg (by simp)]
  have hbegun : ∀ d, (s.next e k').Begun d ↔ s.Begun d := by
    intro d
    rw [Begun, Begun, hcount]
    show _ % (numDirEntries k'.img + 1) ≠ 0 ↔ _
    rw [hsteady.img]
  refine ⟨fun p i hp => ?_, fun d hd => ?_, ?_⟩
  · obtain heq | ⟨hp, huse⟩ := of_decide_eq_true hp
    · rw [hslot] at heq
      cases heq
    · obtain ⟨hi, hdir⟩ := h.opened p i hp
      obtain ⟨hflags, hops⟩ := hsteady.slot p i hi huse
      exact ⟨hi, hdir.congr hflags hops⟩
  · have hd := (hbegun d).mp hd
    obtain ⟨huse, hlive⟩ := h.begun d hd
    exact hcons.inUse_step he huse hlive fun hcloses => hturn.2 d hcloses hd
  · obtain ⟨d, hcursor, hothers⟩ := h.cursor
    refine ⟨d, ?_, fun d' hd hb => hothers d' hd ((hbegun d').mp hb)⟩
    rw [hcount]
    show k'.currFileNumber = _ % (numDirEntries k'.img + 1)
    rw [hsteady.img, hsteady.cursor, hcursor]

/-- An event that opens a file. -/
theorem Ok.openFile {s : Observed} {name : Option (ℕ → UInt8)} (h : s.Ok)
    (hcons : Consistent s.k chains ps c)
    (he : (Event.fileCall (.kopen name)).exec s.k = some k') :
    (s.next (.fileCall (.kopen name)) k').Ok := by
  have hopens := kopen_opens he
  have hcount : ∀ d, (s.next (.fileCall (.kopen name)) k').count d
      = if s.k.openSlot (.fileCall (.kopen name)) = some d then 0 else s.count d := by
    intro d
    have hread : s.k.readSlot (.fileCall (.kopen name)) = none := rfl
    simp only [next, hread, reduceCtorEq, if_false]
  have hstill : ∀ d, (s.next (.fileCall (.kopen name)) k').Begun d → s.Begun d := by
    intro d hbegun
    rw [Begun, hcount] at hbegun
    by_cases hd : s.k.openSlot (.fileCall (.kopen name)) = some d
    · rw [if_pos hd, Nat.zero_mod] at hbegun
      exact absurd rfl hbegun
    · rw [if_neg hd] at hbegun
      change _ % (numDirEntries k'.img + 1) ≠ 0 at hbegun
      rw [hopens.img] at hbegun
      exact hbegun
  refine ⟨fun p i hp => ?_, fun d hbegun => ?_, ?_⟩
  · obtain hslot | ⟨hp, -⟩ := of_decide_eq_true hp
    · obtain ⟨hi, -, hdir⟩ := hopens.slot p i hslot
      exact ⟨hi, hdir⟩
    · obtain ⟨hi, hdir⟩ := h.opened p i hp
      refine ⟨hi, ?_⟩
      show IsDirectory (k'.table p i)
      rw [hopens.table p i hdir.inUse]
      exact hdir
  · obtain ⟨huse, hlive⟩ := h.begun d (hstill d hbegun)
    exact hcons.inUse_step he huse hlive id
  · obtain ⟨d, hcursor, hothers⟩ := h.cursor
    refine ⟨d, ?_, fun d' hd hb => hothers d' hd (hstill d' hb)⟩
    show k'.currFileNumber = _ % (numDirEntries k'.img + 1)
    rw [hopens.img, hopens.cursor, hcursor, hcount]
    split
    · -- a descriptor that was free had not begun
      rename_i hslot
      have hfree := (hopens.slot d.1 d.2 hslot).2.1
      rw [not_not.mp fun hbegun => hfree (h.begun d hbegun).1, Nat.zero_mod]
    · rfl

theorem ok_of_reach {s : Observed} (h : Run.Reach system InTurn s) : s.Ok := by
  let I : Observed → Prop := fun s => s.Ok ∧ ∃ chains ps c, Consistent s.k chains ps c
  have hinv : I s := by
    refine h.invariant (fun s hs => ⟨ok_of_init hs, ?_⟩) fun s e s' hs hturn hstep => ?_
    · obtain ⟨⟨lay, img, pcbs, regA, phys, st, hboot⟩, -⟩ := hs
      exact ⟨_, _, _, (boot_spec hboot).consistent⟩
    · obtain ⟨hok, chains, ps, c, hcons⟩ := hs
      obtain ⟨k', he, rfl⟩ := Option.map_eq_some_iff.mp hstep
      obtain ⟨chains', ps', c', -, hcons'⟩ := hcons.step he
      refine ⟨?_, chains', ps', c', hcons'⟩
      cases hread : s.k.readSlot e with
      | some d => exact hok.read hcons hturn he hread
      | none =>
        by_cases hopen : ∃ name, e = .fileCall (.kopen name)
        · obtain ⟨name, rfl⟩ := hopen
          exact hok.openFile hcons he
        · exact hok.other hcons hturn he hread fun name hname => hopen ⟨name, hname⟩
  exact hinv.1

/-- On a descriptor of the directory, the reads return the names of the entries one after the
other and then 0, in every run in which the listings come one at a time and to their ends. -/
theorem directory_enumeration {s : Observed} (h : Run.Reach system InTurn s) {p : Pid} {i : Fin 8}
    {buf : ℕ} {nbytes : ℤ} (hp : s.k.desc = some p) (hopen : s.opened (p, i) = true)
    (hbuf : buf ≠ 0) (hn : 32 ≤ nbytes) (hturn : s.InTurn (.fileCall (.kread i buf nbytes))) :
    ∃ k' r, s.k.kread i buf nbytes = some (k', r) ∧
      (s.count (p, i) < numDirEntries s.k.img →
        r = ⟨(entryName s.k.img (s.count (p, i))).length, entryName s.k.img (s.count (p, i))⟩) ∧
      (s.count (p, i) = numDirEntries s.k.img → r = ⟨0, []⟩) := by
  have hok := ok_of_reach h
  obtain ⟨hi, hdir⟩ := hok.opened p i hopen
  have hread : s.k.readSlot (.fileCall (.kread i buf nbytes)) = some (p, i) := by
    simp only [readSlot, hp, slotOf_eq_some.mpr rfl, Option.bind_eq_bind, Option.bind_some]
    refine if_pos ⟨hbuf, by omega, hdir.inUse, ?_, hdir.ops⟩
    rw [hdir.fileType]
    decide
  have hcursor := hok.cursor_eq (hturn.1 (p, i) hread)
  refine ⟨_, _, kread_of_readSlot hread, fun hlt => ?_, fun hend => ?_⟩
  · rw [hcursor, Nat.mod_eq_of_lt (by omega), dirRead_of_lt hlt hn]
  · rw [hcursor, Nat.mod_eq_of_lt (by omega), dirRead_of_le hend.ge]

/-- The sample image with its second entry made a directory with the name `.`. -/
def listImage : Image := patchedImage [(128, 0x2e), (129, 0), (160, 1)]

/-- The states after some events on this image, from boot on. -/
def listRun (es : List Event) : Option Observed :=
  (boot Paging.packedLayout listImage (fun _ => default) 0 (fun _ => 0) ⟨0, [], fun _ => 0⟩).bind
    fun k => system.run ⟨k, fun _ => false, fun _ => 0⟩ es

def openDot : Event := .fileCall (.kopen (some (ofString [0x2e])))

def readName (fd : ℤ) : Event := .fileCall (.kread fd 1 32)

theorem listRun_reach {ok : Observed → Event → Prop} {es : List Event} {s : Observed}
    (hok : ∀ s₀, listRun [] = some s₀ → system.Allowed ok s₀ es) (h : listRun es = some s) :
    Run.Reach system ok s := by
  obtain ⟨k, hk, hrun⟩ := Option.bind_eq_some_iff.mp h
  have hstart : listRun [] = some ⟨k, fun _ => false, fun _ => 0⟩ := by
    rw [listRun, hk]
    rfl
  have hinit : system.init ⟨k, fun _ => false, fun _ => 0⟩ :=
    ⟨⟨_, _, _, _, _, _, hk⟩, fun _ => rfl, fun _ => rfl⟩
  exact (Run.Reach.init hinit).run (hok _ hstart) hrun

/-- The second read returns the second name. -/
theorem directory_enumeration_dot : ∃ s, listRun [openDot, readName 2] = some s ∧
    ∃ k' r, s.k.kread 2 1 32 = some (k', r) ∧ r = ⟨1, [0x2e]⟩ := by
  have hall : (listRun []).all (fun s => decide (system.Allowed InTurn s [openDot, readName 2]))
      = true := by
    decide +kernel
  have heval : (listRun [openDot, readName 2]).map (fun s => decide (s.k.desc = some 0 ∧
      s.opened (0, 2) = true ∧ s.count (0, 2) = 1 ∧ s.InTurn (.fileCall (.kread 2 1 32)) ∧
      numDirEntries s.k.img = 2 ∧ entryName s.k.img 1 = [0x2e])) = some true := by
    decide +kernel
  obtain ⟨s, hs, hfacts⟩ := Option.map_eq_some_iff.mp heval
  obtain ⟨hdesc, hopen, hcount, hturn, hnum, hname⟩ := of_decide_eq_true hfacts
  have hreach : Run.Reach system InTurn s := listRun_reach (fun s₀ hs₀ => by
    rw [hs₀] at hall
    exact of_decide_eq_true hall) hs
  obtain ⟨k', r, hread, hr, -⟩ :=
    directory_enumeration hreach hdesc hopen (show 1 ≠ 0 by decide) le_rfl hturn
  rw [hcount, hnum, hname] at hr
  exact ⟨s, hs, k', r, hread, hr (by decide)⟩

/-- The first read on a descriptor returns the second name, if another descriptor has been read
before, and also after a listing that was given up. -/
theorem directory_enumeration_shared :
    (∃ s, Run.Reach system Run.Free s ∧ s.k.desc = some 0 ∧ s.opened (0, 3) = true ∧
      s.count (0, 3) = 0 ∧ entryName s.k.img 0 ≠ [0x2e] ∧
      ∃ k', s.k.kread 3 1 32 = some (k', ⟨1, [0x2e]⟩)) ∧
    ∃ s, Run.Reach system Run.Free s ∧ s.k.desc = some 0 ∧ s.opened (0, 2) = true ∧
      s.count (0, 2) = 0 ∧ (∀ d, d ≠ (0, 2) → s.opened d = false) ∧ entryName s.k.img 0 ≠ [0x2e] ∧
      ∃ k', s.k.kread 2 1 32 = some (k', ⟨1, [0x2e]⟩) := by
  constructor
  · have heval : (listRun [openDot, openDot, readName 2]).map (fun s => decide
        (s.k.desc = some 0 ∧ s.opened (0, 3) = true ∧ s.count (0, 3) = 0 ∧
          entryName s.k.img 0 ≠ [0x2e]) &&
        (s.k.kread 3 1 32).any fun x => x.2 = ⟨1, [0x2e]⟩) = some true := by
      decide +kernel
    obtain ⟨s, hs, hfacts⟩ := Option.map_eq_some_iff.mp heval
    simp only [Bool.and_eq_true, decide_eq_true_eq, Option.any_eq_true] at hfacts
    obtain ⟨⟨hdesc, hopen, hcount, hname⟩, ⟨k', r⟩, hread, rfl⟩ := hfacts
    exact ⟨s, listRun_reach (fun _ _ => system.allowed_free _ _) hs, hdesc, hopen, hcount, hname, k',
      hread⟩
  · have heval : (listRun [openDot, readName 2, .fileCall (.kclose 2), openDot]).map (fun s => decide
        (s.k.desc = some 0 ∧ s.opened (0, 2) = true ∧ s.count (0, 2) = 0 ∧
          (∀ d, d ≠ (0, 2) → s.opened d = false) ∧ entryName s.k.img 0 ≠ [0x2e]) &&
        (s.k.kread 2 1 32).any fun x => x.2 = ⟨1, [0x2e]⟩) = some true := by
      decide +kernel
    obtain ⟨s, hs, hfacts⟩ := Option.map_eq_some_iff.mp heval
    simp only [Bool.and_eq_true, decide_eq_true_eq, Option.any_eq_true] at hfacts
    obtain ⟨⟨hdesc, hopen, hcount, halone, hname⟩, ⟨k', r⟩, hread, rfl⟩ := hfacts
    exact ⟨s, listRun_reach (fun _ _ => system.allowed_free _ _) hs, hdesc, hopen, hcount, halone,
      hname, k', hread⟩

end Observed

end Kernel
end GalapagOS
