import GalapagOS.Kernel.Pages

/-!
# The pointer that `kvidmap` stores (`file_array.c`, `paging.c`)

`kvidmap` looks at the directory index of the pointer, that is at its first byte, and then stores
four bytes. A pointer to the last three bytes of the user page passes the check, the entries of the
process are made present, and the store faults on the page after it. For all other pointers the
check is right.
-/

namespace GalapagOS
namespace Kernel

open Memory Paging

variable {k k' : Kernel} {c x : Pid} {a : ℕ}

/-! ## Stores to the user page -/

/-- The place of a byte of the user page in the memory of the process. -/
def userFrame (x : Pid) (v : ℕ) : ℕ := (2 + x) * 2 ^ 22 + v % 2 ^ 22

section

variable (hwf : WellFormed k.lay k.tables) (hx : k.cr3 = some x)

include hwf hx in
theorem translate_user {v : ℕ} (hv : InUserPage v) : k.translate v = some (userFrame x v) := by
  have hxt : (x : ℕ) < numTasks := lt_of_lt_of_le x.isLt (by decide)
  have hmod : v % 2 ^ 32 = v := Nat.mod_eq_of_lt (lt_trans hv.2 (by decide))
  rw [translate, hx, Option.bind_some, hmod, walk_user hwf hxt ((inUserPage_iff v).mp hv)]
  rfl

include hwf hx in
/-- A store inside the user page. -/
theorem exists_access_user {bytes : List UInt8}
    (hin : ∀ i < bytes.length, InUserPage (a + i)) :
    ∃ m, k.access a [.write 0 bytes] = some { k with phys := m } ∧
      (∀ i, (h : i < bytes.length) → m (userFrame x (a + i)) = bytes[i]) ∧
      ∀ b, (∀ i < bytes.length, userFrame x (a + i) ≠ b) → m b = k.phys b := by
  have hmapped : ∀ off ∈ Set.Iio bytes.length,
      (fun off => k.translate (a + off)) off = some (userFrame x (a + off)) :=
    fun off hoff => translate_user hwf hx (hin off hoff)
  -- inside one page different bytes have different places
  have hinj : (Set.Iio bytes.length).InjOn fun off => userFrame x (a + off) := by
    intro i hi j hj hij
    have hpi := hin i hi
    have hpj := hin j hj
    simp only [userFrame, InUserPage] at hij hpi hpj
    omega
  have hview : View (fun off => userFrame x (a + off)) (Set.Iio bytes.length) k.phys
      (fun off => k.phys (userFrame x (a + off))) := fun _ _ => rfl
  have hwithin : ∀ op ∈ [Op.write 0 bytes], op.Within (Set.Iio bytes.length) := by
    intro op hop
    rw [List.mem_singleton.mp hop]
    intro j hj
    simpa using hj
  obtain ⟨m, hm, hview', hframe⟩ := execAll_view hmapped hinj hview hwithin
  refine ⟨m, by rw [access, hm]; rfl, fun i hi => ?_, fun b hb => hframe b hb⟩
  rw [hview' i hi]
  have hplace : place 0 bytes (fun off => k.phys (userFrame x (a + off))) (0 + i) = bytes[i] :=
    place_add hi _
  rw [Nat.zero_add] at hplace
  exact hplace

end

/-! ## `kvidmap` -/

/-- `address_in_user` looks at one byte. -/
theorem dirEntry_iff (ha : a < 2 ^ 32) : (a >>> 22) &&& 0x3ff = usrDirEntry ↔ InUserPage a := by
  rw [dirEntry_eq, Nat.mod_eq_of_lt ha, inUserPage_iff]

/-- The four bytes that are stored lie in the user page. -/
def UserPointer (a : ℕ) : Prop := ∀ i < 4, InUserPage (a + i)

instance (a : ℕ) : Decidable (UserPointer a) :=
  inferInstanceAs (Decidable (∀ i < 4, _ ∧ _))

/-- The pointer is to one of the last three bytes of the user page. -/
def AtPageEnd (a : ℕ) : Prop := 0x083ffffd ≤ a ∧ a < 0x08400000

instance (a : ℕ) : Decidable (AtPageEnd a) := inferInstanceAs (Decidable (_ ∧ _))

/-- The tables after `map_vid_memory`: the two entries of the process, and nothing else. -/
structure OnlyMapped (tb tb' : Tables) (c : Pid) : Prop where
  directory : tb'.directories c virtVidmemDirEntry
    = PdeSmall.present.set 1 (tb.directories c virtVidmemDirEntry)
  table : tb'.vidTables c virtVidmemTableEntry
    = Pte.present.set 1 (tb.vidTables c virtVidmemTableEntry)
  directories : ∀ p i : ℕ, ¬(p = c ∧ i = virtVidmemDirEntry) →
    tb'.directories p i = tb.directories p i
  vidTables : ∀ p i : ℕ, ¬(p = c ∧ i = virtVidmemTableEntry) →
    tb'.vidTables p i = tb.vidTables p i
  pageTables : tb'.pageTables = tb.pageTables

/-- An assignment to one entry of one table. -/
theorem update_writeField_of_ne (rows : ℕ → Row) {q e : ℕ} (f : BitField.Field) (v : ℕ) {p i : ℕ}
    (hpi : ¬(p = q ∧ i = e)) :
    Function.update rows q (writeField (rows q) e f v) p i = rows p i := by
  by_cases hp : p = q
  · have hi : i ≠ e := fun hi => hpi ⟨hp, hi⟩
    rw [hp, Function.update_self, writeField_ne _ _ _ hi]
  · rw [Function.update_of_ne hp]

theorem mapVidMemory_onlyMapped (tb : Tables) (c : Pid) :
    OnlyMapped tb (mapVidMemory tb c) c where
  directory := by simp [mapVidMemory]
  table := by simp [mapVidMemory]
  directories _ _ hpi := update_writeField_of_ne tb.directories PdeSmall.present 1 hpi
  vidTables _ _ hpi := update_writeField_of_ne tb.vidTables Pte.present 1 hpi
  pageTables := rfl

section

variable (hwf : WellFormed k.lay k.tables) (hc : k.currProcess = some c)
  (hpid : (k.pcbs c).pid = c)

include hc in
theorem kvidmap_of_not_user (ha : a < 2 ^ 32) (hnot : ¬InUserPage a) :
    k.kvidmap a = some (k, -1) := by
  have hcheck : (a >>> 22) &&& 0x3ff ≠ usrDirEntry := (dirEntry_iff ha).not.mpr hnot
  rw [kvidmap, hc, Option.bind_eq_bind, Option.bind_some, if_pos hcheck]
  rfl

include hc hpid in
theorem kvidmap_of_user (ha : a < 2 ^ 32) (hin : InUserPage a) :
    k.kvidmap a
      = (({ k with tables := mapVidMemory k.tables c, cr3 := some c } : Kernel).access a
          [.write 0 (Pcb.intBytes virtVidMem)]).map fun k' => (k', (virtVidMem : ℤ) - 2 ^ 32) := by
  have hcheck : ¬(a >>> 22) &&& 0x3ff ≠ usrDirEntry := not_not.mpr ((dirEntry_iff ha).mpr hin)
  rw [kvidmap, hc, Option.bind_eq_bind, Option.bind_some, if_neg hcheck, hpid]
  exact Option.map_eq_bind.symm

include hwf hc hpid in
/-- The store of the address faults at the end of the page. -/
theorem kvidmap_atPageEnd (hend : AtPageEnd a) : k.kvidmap a = none := by
  have hlt : a < 2 ^ 32 := lt_trans hend.2 (by decide)
  have hin : InUserPage a := ⟨le_trans (by decide) hend.1, hend.2⟩
  rw [kvidmap_of_user hc hpid hlt hin, Option.map_eq_none_iff, Option.eq_none_iff_forall_ne_some]
  intro k' hk'
  have hmod : a % 2 ^ 32 = a := Nat.mod_eq_of_lt hlt
  have hlen := access_user_length (k := { k with tables := mapVidMemory k.tables c, cr3 := some c })
    (mapVidMemory_wellFormed hwf c) rfl (by rw [hmod]; exact (inUserPage_iff a).mp hin) hk'
  have hfour : (Pcb.intBytes virtVidMem).length = 4 := rfl
  rw [hmod, hfour] at hlen
  have hend' := hend.1
  omega

/-- Away from the end of the page one byte decides for all four. -/
theorem userPointer_iff (hend : ¬AtPageEnd a) : UserPointer a ↔ InUserPage a := by
  constructor
  · intro h
    exact h 0 (by decide)
  · intro h i hi
    unfold AtPageEnd at hend
    unfold InUserPage at h ⊢
    omega

include hwf hc hpid in
/-- The state after a call that succeeds. -/
theorem kvidmap_userPointer (ha : a < 2 ^ 32) (hptr : UserPointer a) :
    ∃ m, k.kvidmap a = some ({ k with
        tables := mapVidMemory k.tables c, cr3 := some c, phys := m }, (virtVidMem : ℤ) - 2 ^ 32) ∧
      (∀ i < 4, m (userFrame c (a + i)) = .ofNat (virtVidMem / 2 ^ (8 * i))) ∧
      ∀ b, (∀ i < 4, userFrame c (a + i) ≠ b) → m b = k.phys b := by
  obtain ⟨m, hm, hstored, hframe⟩ := exists_access_user
    (k := { k with tables := mapVidMemory k.tables c, cr3 := some c })
    (mapVidMemory_wellFormed hwf c) rfl (show ∀ i < (Pcb.intBytes virtVidMem).length, _ from hptr)
  refine ⟨m, ?_, fun i hi => ?_, hframe⟩
  · rw [kvidmap_of_user hc hpid ha (hptr 0 (by decide)), hm]
    rfl
  · rw [hstored i hi]
    match i, hi with
    | 0, _ => rfl
    | 1, _ => rfl
    | 2, _ => rfl
    | 3, _ => rfl

end

/-- `kvidmap` accepts the pointer `a` exactly if it is a user pointer: it succeeds if the four bytes
lie in the user page, and then stores the address `0xdeadb000` there and nothing else and makes the two
entries of the running process present; otherwise it returns -1 and changes nothing. -/
structure VidmapExact (k : Kernel) (c : Pid) (a : ℕ) : Prop where
  success : (∃ k' r, k.kvidmap a = some (k', r) ∧ r ≠ -1) ↔ UserPointer a
  stored : ∀ k' r, k.kvidmap a = some (k', r) → r ≠ -1 →
    (∀ i < 4, ∃ b, k'.translate (a + i) = some b ∧
      k'.phys b = .ofNat (0xdeadb000 / 2 ^ (8 * i))) ∧
    (∀ b, (∀ i < 4, k'.translate (a + i) ≠ some b) → k'.phys b = k.phys b) ∧
    OnlyMapped k.tables k'.tables c
  refused : ¬UserPointer a → k.kvidmap a = some (k, -1)

/-- At the end of the page the four bytes leave it. -/
theorem not_userPointer_of_atPageEnd (hend : AtPageEnd a) : ¬UserPointer a := by
  intro hptr
  have hlast := hptr 3 (by decide)
  unfold AtPageEnd at hend
  unfold InUserPage at hlast
  omega

/-- `kvidmap` accepts exactly the user pointers among all pointers but those to the last three bytes
of the user page, which pass its check and make it fault. -/
theorem vidmap_pointer (h : Run.Reach system Run.Free k) :
    ∃ c, k.currProcess = some c ∧ ∀ a < 2 ^ 32, (VidmapExact k c a ↔ ¬AtPageEnd a) := by
  obtain ⟨chains, ps, c, hcons, hpaged⟩ := Reach.paged h
  have hc := hcons.currProcess
  have hpid : (k.pcbs c).pid = c := hcons.pid c hcons.live
  have hwf := hpaged.wellFormed
  refine ⟨c, hc, fun a ha => ⟨fun hexact hend => ?_, fun hend => ?_⟩⟩
  · -- the call should return -1, and it does not return
    have hrefused := hexact.refused (not_userPointer_of_atPageEnd hend)
    rw [kvidmap_atPageEnd hwf hc hpid hend] at hrefused
    cases hrefused
  by_cases hptr : UserPointer a
  · obtain ⟨m, hm, hstored, hframe⟩ := kvidmap_userPointer hwf hc hpid ha hptr
    have hsuccess : ((virtVidMem : ℤ) - 2 ^ 32) ≠ -1 := by decide
    refine ⟨⟨fun _ => hptr, fun _ => ⟨_, _, hm, hsuccess⟩⟩, fun k' r hk' _ => ?_,
      fun hnot => absurd hptr hnot⟩
    rw [hm] at hk'
    cases hk'
    -- in the state after the call the bytes are where they were stored
    have htranslate : ∀ i < 4,
        ({ k with
            tables := mapVidMemory k.tables c
            cr3 := some c
            phys := m } : Kernel).translate (a + i) = some (userFrame c (a + i)) := fun i hi =>
      translate_user (mapVidMemory_wellFormed hwf c) rfl (hptr i hi)
    refine ⟨fun i hi => ⟨_, htranslate i hi, hstored i hi⟩, fun b hb => hframe b fun i hi he => ?_,
      mapVidMemory_onlyMapped k.tables c⟩
    exact hb i hi (by rw [htranslate i hi, he])
  · have hm : k.kvidmap a = some (k, -1) :=
      kvidmap_of_not_user hc ha ((userPointer_iff hend).not.mp hptr)
    refine ⟨⟨?_, fun hptr' => absurd hptr' hptr⟩, ?_, fun _ => hm⟩
    · rintro ⟨k', r, hk', hr⟩
      rw [hm] at hk'
      cases hk'
      exact absurd rfl hr
    · intro k' r hk' hr
      rw [hm] at hk'
      cases hk'
      exact absurd rfl hr

/-- The first shell passes a pointer to the start of its page. -/
theorem vidmap_pointer_start :
    ∃ k k' r, system.init k ∧ k.kvidmap 0x08000000 = some (k', r) ∧ r ≠ -1 ∧
      OnlyMapped k.tables k'.tables 0 := by
  obtain ⟨k, hk⟩ := Option.isSome_iff_exists.mp (show sampleBoot.isSome by decide)
  have hinit : system.init k := ⟨_, _, _, _, _, _, hk⟩
  obtain ⟨c, hc, hall⟩ := vidmap_pointer (.init hinit)
  obtain rfl : c = 0 := Option.some.inj (hc.symm.trans (boot_spec hk).currProcess)
  have hexact := (hall 0x08000000 (by decide)).mpr (by decide)
  obtain ⟨k', r, hk', hr⟩ := hexact.success.mpr (by decide)
  exact ⟨k, k', r, hinit, hk', hr, (hexact.stored k' r hk' hr).2.2⟩

/-- A pointer to the last byte but two passes the check, and the call ends in a page fault after the
entries have been made present. -/
theorem vidmap_pointer_fault :
    ∃ k, system.init k ∧ k.currProcess = some 0 ∧ ¬UserPointer 0x083ffffd ∧
      k.kvidmap 0x083ffffd = none ∧ ¬vidmapPresent k.tables 0 ∧
      vidmapPresent (mapVidMemory k.tables 0) 0 := by
  obtain ⟨k, hk⟩ := Option.isSome_iff_exists.mp (show sampleBoot.isSome by decide)
  have hb := boot_spec hk
  have hwf : WellFormed k.lay k.tables := hb.tables ▸ newInit_wellFormed k.lay
  have hfault := kvidmap_atPageEnd hwf hb.currProcess (hb.pid 0 (by decide))
    (show AtPageEnd 0x083ffffd by decide)
  refine ⟨k, ⟨_, _, _, _, _, _, hk⟩, hb.currProcess, by decide, hfault, hb.not_vidmapPresent 0, ?_⟩
  show Pte.present.get ((mapVidMemory k.tables 0).vidTables 0 virtVidmemTableEntry) = 1
  rw [show (mapVidMemory k.tables 0).vidTables 0 virtVidmemTableEntry
    = Pte.present.set 1 (k.tables.vidTables 0 virtVidmemTableEntry) from
      (mapVidMemory_onlyMapped k.tables 0).table]
  simp

end Kernel
end GalapagOS
