import GalapagOS.Kernel.Frame

/-!
# File calls in progress (`file_array.c`, `file_system.c`, `terminal.c`)

`kopen`, `kread`, `kwrite` and `kclose` as sequences of statements. Each statement goes through the
global `desc` again; what a call has found so far is in its local variables. Without interruption
the statements of a call do what the whole call does.
-/

namespace GalapagOS
namespace Machine

open Kernel FileSystem

/-! ## Statements -/

/-- The next statement of a file call, with the local variables that it uses. -/
inductive FileFrame where
  /-- the loop of `kopen` at index `i` -/
  | openScan (name : Option (ℕ → UInt8)) (i : ℕ)
  | openLookup (name : Option (ℕ → UInt8)) (chosen : Fin 8)
  /-- `fd_init` -/
  | openInit (data : Dentry) (chosen : Fin 8)
  | readCheck (fd : ℤ) (buf : ℕ) (nbytes : ℤ)
  /-- the call of the operation with `desc[fd].inode_ptr` and `desc[fd].file_position` -/
  | readCall (i : Fin 8) (buf : ℕ) (nbytes : ℕ)
  /-- `fs_read` up to `read_data` -/
  | fsData (ptr offset count buf : ℕ)
  /-- `increment_position` -/
  | fsPosition (ptr : ℕ) (r : ReadResult)
  /-- the loops of `terminal_read` -/
  | terminalLine (terminal : ℤ) (count : ℕ)
  | writeCheck (fd : ℤ) (buf : Option (ℕ → UInt8)) (nbytes : ℤ)
  | writeCall (i : Fin 8) (buf : ℕ → UInt8) (nbytes : ℕ)
  | closeCheck (fd : ℤ)
  /-- `operations = ..; desc[fd].flags = FD_FREE` -/
  | closeFree (i : Fin 8)
  | closeCall (operations : Option OpTable)

/-- A call goes on, or returns. -/
inductive Progress where
  | goOn (f : FileFrame)
  | done (r : ReadResult)

/-- The code's `ERROR`. -/
def Progress.error : Progress := .done ⟨-1, []⟩

/-- The effect of the next statement. -/
def FileFrame.next (k : Kernel) : FileFrame → Option (Kernel × Progress)
  | .openScan name i => do
    let p ← k.desc
    if h : i < 8 then
      if (k.table p ⟨i, h⟩).InUse then pure (k, .goOn (.openScan name (i + 1)))
      else pure (k, .goOn (.openLookup name ⟨i, h⟩))
    else pure (k, .error)
  | .openLookup name i =>
    match readDentryByName k.img name with
    | none => some (k, .error)
    | some data => some (k, .goOn (.openInit data i))
  | .openInit data i => do
    let p ← k.desc
    match k.fdInit p data i with
    | none => pure (k, .error)
    | some k' => pure (k', .done ⟨i, []⟩)
  | .readCheck fd buf nbytes => do
    let p ← k.desc
    if buf = 0 ∨ nbytes < 0 then pure (k, .error)
    else
      match checkFd (k.table p) readable fd, slotOf fd with
      | some _, some i => pure (k, .goOn (.readCall i buf nbytes.toNat))
      | _, _ => pure (k, .error)
  | .readCall i buf nbytes => do
    let p ← k.desc
    let d := k.table p i
    match d.fileOpTablePtr with
    | some .fs => pure (k, .goOn (.fsData d.inodePtr d.filePosition nbytes buf))
    | some .std => pure (k, .goOn (.terminalLine k.getCurrProcessTerminal nbytes))
    | _ => (k.opRead p d nbytes buf).map fun r => (r.1, .done r.2)
  | .fsData ptr offset count buf =>
    match readDentryByName k.img (returnDentryByPtr k.img ptr) with
    | none => some (k, .error)
    | some d =>
      let r := readData k.img ((inodes k.img + d.inodeNum * inodeSize) % 2 ^ 32) offset buf count
      some (k, .goOn (.fsPosition ptr r))
  | .fsPosition ptr r => do
    let p ← k.desc
    pure (k.incrementPosition p ptr r.ret, .done r)
  | .terminalLine terminal count =>
    (Terminal.terminalRead k.terms terminal count).map fun r =>
      ({ k with terms := r.1 }, .done ⟨r.2.length, r.2⟩)
  | .writeCheck fd buf nbytes => do
    let p ← k.desc
    match buf with
    | none => pure (k, .error)
    | some buf =>
      if nbytes < 0 then pure (k, .error)
      else
        match checkFd (k.table p) writable fd, slotOf fd with
        | some _, some i => pure (k, .goOn (.writeCall i buf nbytes.toNat))
        | _, _ => pure (k, .error)
  | .writeCall i buf nbytes => do
    let p ← k.desc
    (k.opWrite (k.table p i) buf nbytes).map fun r => (r.1, .done ⟨r.2, []⟩)
  | .closeCheck fd => do
    let p ← k.desc
    if 2 ≤ fd then
      match slotOf fd with
      | some i => if (k.table p i).InUse then pure (k, .goOn (.closeFree i)) else pure (k, .error)
      | none => pure (k, .error)
    else pure (k, .error)
  | .closeFree i => do
    let p ← k.desc
    pure (k.modifyFile p i fun d => { d with flags := 0 },
      .goOn (.closeCall (k.table p i).fileOpTablePtr))
  | .closeCall operations => (k.opClose operations).map fun r => (r.1, .done ⟨r.2, []⟩)

/-- The first statement of a call. -/
def FileFrame.start : Call → FileFrame
  | .kopen name => .openScan name 2
  | .kclose fd => .closeCheck fd
  | .kread fd buf nbytes => .readCheck fd buf nbytes
  | .kwrite fd buf nbytes => .writeCheck fd buf nbytes

/-! ## Whole calls -/

/-- The call returns `r` if nothing else happens meanwhile. -/
inductive Completes : Kernel → FileFrame → Kernel → ReadResult → Prop
  | done {k k' : Kernel} {f : FileFrame} {r : ReadResult} :
      f.next k = some (k', .done r) → Completes k f k' r
  | goOn {k k₁ k' : Kernel} {f f₁ : FileFrame} {r : ReadResult} :
      f.next k = some (k₁, .goOn f₁) → Completes k₁ f₁ k' r → Completes k f k' r

variable {k k' : Kernel} {p : Pid}

/-- The loop of `kopen` finds the smallest free descriptor. -/
theorem completes_openScan {name : Option (ℕ → UInt8)} {i : Fin 8} {r : ReadResult}
    (hp : k.desc = some p) (hfree : ¬(k.table p i).InUse)
    (hsmall : ∀ j, 2 ≤ j → j < i → (k.table p j).InUse)
    (h : Completes k (.openLookup name i) k' r) (n : ℕ) :
    ∀ j : ℕ, 2 ≤ j → j + n = i.val → Completes k (.openScan name j) k' r := by
  -- `n` is the number of descriptors before the free one
  induction n with
  | zero =>
    intro j _ hj
    obtain rfl : j = i.val := hj
    refine .goOn ?_ h
    simp only [FileFrame.next, hp, Option.bind_eq_bind, Option.bind_some, dif_pos i.isLt,
      if_neg hfree, Option.pure_def]
  | succ n ih =>
    intro j hj2 hj
    have hlt : j < 8 := by
      have := i.isLt
      omega
    have huse : (k.table p ⟨j, hlt⟩).InUse := by
      refine hsmall _ ?_ ?_
      · rw [Fin.le_def]
        exact hj2
      · rw [Fin.lt_def]
        show j < i.val
        omega
    refine .goOn ?_ (ih (j + 1) (by omega) (by omega))
    simp only [FileFrame.next, hp, Option.bind_eq_bind, Option.bind_some, dif_pos hlt, if_pos huse,
      Option.pure_def]

/-- Without a free descriptor the loop runs to its end. -/
theorem completes_openScan_full {name : Option (ℕ → UInt8)} (hp : k.desc = some p)
    (hfull : ∀ j, 2 ≤ j → (k.table p j).InUse) (n : ℕ) :
    ∀ j : ℕ, 2 ≤ j → j + n = 8 → Completes k (.openScan name j) k ⟨-1, []⟩ := by
  induction n with
  | zero =>
    intro j _ hj
    refine .done ?_
    simp only [FileFrame.next, hp, Option.bind_eq_bind, Option.bind_some, dif_neg (show ¬j < 8 by omega),
      Option.pure_def]
    rfl
  | succ n ih =>
    intro j hj2 hj
    have hlt : j < 8 := by omega
    have huse : (k.table p ⟨j, hlt⟩).InUse := by
      refine hfull _ ?_
      rw [Fin.le_def]
      exact hj2
    refine .goOn ?_ (ih (j + 1) (by omega) (by omega))
    simp only [FileFrame.next, hp, Option.bind_eq_bind, Option.bind_some, dif_pos hlt, if_pos huse,
      Option.pure_def]

theorem kopen_completes {name : Option (ℕ → UInt8)} {r : ℤ}
    (h : k.kopen name = some (k', r)) : Completes k (.openScan name 2) k' ⟨r, []⟩ := by
  obtain ⟨p, hp, h⟩ := Option.bind_eq_some_iff.mp h
  split at h
  · rename_i hidx
    cases h
    exact completes_openScan_full hp (chosenIndex_eq_none.mp hidx) 6 2 le_rfl rfl
  · rename_i i hidx
    obtain ⟨hge, hfree, hsmall⟩ := chosenIndex_eq_some hidx
    rw [Fin.le_def] at hge
    change 2 ≤ i.val at hge
    refine completes_openScan hp hfree hsmall ?_ (i.val - 2) 2 le_rfl (by omega)
    split at h
    · rename_i hlook
      cases h
      refine .done ?_
      simp only [FileFrame.next, hlook]
      rfl
    · rename_i data hlook
      have hnext : (FileFrame.openLookup name i).next k = some (k, .goOn (.openInit data i)) := by
        simp only [FileFrame.next, hlook]
      refine .goOn hnext (.done ?_)
      · split at h
        · rename_i hinit
          cases h
          simp only [FileFrame.next, hp, Option.bind_eq_bind, Option.bind_some, hinit,
            Option.pure_def]
          rfl
        · rename_i k₁ hinit
          cases h
          simp only [FileFrame.next, hp, Option.bind_eq_bind, Option.bind_some, hinit,
            Option.pure_def]

/-- The tests of `kread` and `kwrite` and the choice of the descriptor. -/
theorem checkFd_slot {types : List ℕ} {fd : ℤ} {d : FileDescriptor}
    (h : checkFd (k.table p) types fd = some d) : ∃ i, slotOf fd = some i ∧ d = k.table p i := by
  obtain ⟨i, hi, hd, -⟩ := checkFd_eq_some.mp h
  exact ⟨i, slotOf_eq_some.mpr hi, hd⟩

theorem fsRead_completes {ptr offset count buf : ℕ} {r : ReadResult} (hp : k.desc = some p)
    (h : k.fsRead p ptr offset count buf = (k', r)) :
    Completes k (.fsData ptr offset count buf) k' r := by
  unfold fsRead at h
  split at h
  · rename_i hlook
    cases h
    refine .done ?_
    simp only [FileFrame.next, hlook]
    rfl
  · rename_i d hlook
    cases h
    have hnext : (FileFrame.fsData ptr offset count buf).next k = some (k, .goOn (.fsPosition ptr
        (readData k.img ((inodes k.img + d.inodeNum * inodeSize) % 2 ^ 32) offset buf count))) := by
      simp only [FileFrame.next, hlook]
    refine .goOn hnext (.done ?_)
    simp only [FileFrame.next, hp, Option.bind_eq_bind, Option.bind_some, Option.pure_def]

theorem opRead_completes {i : Fin 8} {n buf : ℕ} {r : ReadResult} (hp : k.desc = some p)
    (h : k.opRead p (k.table p i) n buf = some (k', r)) : Completes k (.readCall i buf n) k' r := by
  cases hops : (k.table p i).fileOpTablePtr with
  | none =>
    simp only [opRead, hops] at h
    cases h
  | some ops =>
    cases ops with
    | fs =>
      simp only [opRead, hops, Option.some.injEq] at h
      refine .goOn ?_ (fsRead_completes hp h)
      simp only [FileFrame.next, hp, Option.bind_eq_bind, Option.bind_some, hops, Option.pure_def]
    | std =>
      simp only [opRead, hops] at h
      obtain ⟨x, hx, heq⟩ := Option.map_eq_some_iff.mp h
      cases heq
      have hnext : (FileFrame.readCall i buf n).next k
          = some (k, .goOn (.terminalLine k.getCurrProcessTerminal n)) := by
        simp only [FileFrame.next, hp, Option.bind_eq_bind, Option.bind_some, hops, Option.pure_def]
      refine .goOn hnext (.done ?_)
      simp only [FileFrame.next, hx, Option.map_some]
    | rtc =>
      refine .done ?_
      simp only [FileFrame.next, hp, Option.bind_eq_bind, Option.bind_some, hops, h, Option.map_some]
    | dir =>
      refine .done ?_
      simp only [FileFrame.next, hp, Option.bind_eq_bind, Option.bind_some, hops, h, Option.map_some]

theorem kread_completes {fd nbytes : ℤ} {buf : ℕ} {r : ReadResult}
    (h : k.kread fd buf nbytes = some (k', r)) : Completes k (.readCheck fd buf nbytes) k' r := by
  obtain ⟨p, hp, h⟩ := Option.bind_eq_some_iff.mp h
  by_cases hargs : buf = 0 ∨ nbytes < 0
  · rw [if_pos hargs] at h
    cases h
    refine .done ?_
    simp only [FileFrame.next, hp, Option.bind_eq_bind, Option.bind_some, if_pos hargs,
      Option.pure_def]
    rfl
  · rw [if_neg hargs] at h
    cases hcheck : checkFd (k.table p) readable fd with
    | none =>
      simp only [table] at hcheck
      rw [hcheck] at h
      cases h
      refine .done ?_
      simp only [FileFrame.next, hp, Option.bind_eq_bind, Option.bind_some, if_neg hargs, table,
        hcheck, Option.pure_def]
      rfl
    | some d =>
      obtain ⟨i, hi, rfl⟩ := checkFd_slot hcheck
      have hnext : (FileFrame.readCheck fd buf nbytes).next k
          = some (k, .goOn (.readCall i buf nbytes.toNat)) := by
        simp only [FileFrame.next, hp, Option.bind_eq_bind, Option.bind_some, if_neg hargs, hcheck, hi,
          Option.pure_def]
      rw [table] at hcheck
      rw [hcheck] at h
      exact .goOn hnext (opRead_completes hp h)

theorem kwrite_completes {fd nbytes r : ℤ} {buf : Option (ℕ → UInt8)}
    (h : k.kwrite fd buf nbytes = some (k', r)) :
    Completes k (.writeCheck fd buf nbytes) k' ⟨r, []⟩ := by
  obtain ⟨p, hp, h⟩ := Option.bind_eq_some_iff.mp h
  cases buf with
  | none =>
    cases h
    refine .done ?_
    simp only [FileFrame.next, hp, Option.bind_eq_bind, Option.bind_some, Option.pure_def]
    rfl
  | some buf =>
    dsimp only at h
    by_cases hneg : nbytes < 0
    · rw [if_pos hneg] at h
      cases h
      refine .done ?_
      simp only [FileFrame.next, hp, Option.bind_eq_bind, Option.bind_some, if_pos hneg,
        Option.pure_def]
      rfl
    · rw [if_neg hneg] at h
      cases hcheck : checkFd (k.table p) writable fd with
      | none =>
        simp only [table] at hcheck
        rw [hcheck] at h
        cases h
        refine .done ?_
        simp only [FileFrame.next, hp, Option.bind_eq_bind, Option.bind_some, if_neg hneg, table,
          hcheck, Option.pure_def]
        rfl
      | some d =>
        obtain ⟨i, hi, rfl⟩ := checkFd_slot hcheck
        have hnext : (FileFrame.writeCheck fd (some buf) nbytes).next k
            = some (k, .goOn (.writeCall i buf nbytes.toNat)) := by
          simp only [FileFrame.next, hp, Option.bind_eq_bind, Option.bind_some, if_neg hneg, hcheck, hi,
            Option.pure_def]
        rw [table] at hcheck
        rw [hcheck] at h
        have hwrite : k.opWrite (k.table p i) buf nbytes.toNat = some (k', r) := h
        refine .goOn hnext (.done ?_)
        simp only [FileFrame.next, hp, Option.bind_eq_bind, Option.bind_some, hwrite, Option.map_some]

theorem kclose_completes {fd r : ℤ} (h : k.kclose fd = some (k', r)) :
    Completes k (.closeCheck fd) k' ⟨r, []⟩ := by
  obtain ⟨p, hp, -⟩ := Option.bind_eq_some_iff.mp h
  by_cases hrange : 2 ≤ fd ∧ fd < 8
  · obtain ⟨i, rfl, hi⟩ := exists_fd hrange
    have hslot : slotOf (i : ℤ) = some i := slotOf_eq_some.mpr rfl
    rw [kclose_eq hp hi] at h
    by_cases huse : (k.table p i).InUse
    · rw [if_pos huse] at h
      have hcheck : (FileFrame.closeCheck i).next k = some (k, .goOn (.closeFree i)) := by
        simp only [FileFrame.next, hp, Option.bind_eq_bind, Option.bind_some, if_pos hrange.1, hslot,
          if_pos huse, Option.pure_def]
      have hfree : (FileFrame.closeFree i).next k
          = some (k.modifyFile p i fun d => { d with flags := 0 },
            .goOn (.closeCall (k.table p i).fileOpTablePtr)) := by
        simp only [FileFrame.next, hp, Option.bind_eq_bind, Option.bind_some, Option.pure_def]
      refine .goOn hcheck (.goOn hfree (.done ?_))
      rw [FileFrame.next, h, Option.map_some]
    · rw [if_neg huse] at h
      cases h
      refine .done ?_
      simp only [FileFrame.next, hp, Option.bind_eq_bind, Option.bind_some, if_pos hrange.1, hslot,
        if_neg huse, Option.pure_def]
      rfl
  · rw [kclose_of_not_range hp hrange] at h
    cases h
    refine .done ?_
    have hnone : 2 ≤ fd → slotOf fd = none := by
      intro hge
      rw [slotOf, dif_neg (by omega)]
    simp only [FileFrame.next, hp, Option.bind_eq_bind, Option.bind_some]
    split
    · rename_i hge
      rw [hnone hge]
      rfl
    · rfl

/-- The statements of a call, one after the other, have the effect of the call. -/
theorem Call.completes {c : Call} (h : c.exec k = some k') :
    ∃ r, Completes k (.start c) k' r := by
  cases c with
  | kopen name =>
    obtain ⟨⟨k₁, r⟩, hk₁, rfl⟩ := Option.map_eq_some_iff.mp h
    exact ⟨_, kopen_completes hk₁⟩
  | kclose fd =>
    obtain ⟨⟨k₁, r⟩, hk₁, rfl⟩ := Option.map_eq_some_iff.mp h
    exact ⟨_, kclose_completes hk₁⟩
  | kread fd buf nbytes =>
    obtain ⟨⟨k₁, r⟩, hk₁, rfl⟩ := Option.map_eq_some_iff.mp h
    exact ⟨_, kread_completes hk₁⟩
  | kwrite fd buf nbytes =>
    obtain ⟨⟨k₁, r⟩, hk₁, rfl⟩ := Option.map_eq_some_iff.mp h
    exact ⟨_, kwrite_completes hk₁⟩

end Machine
end GalapagOS
