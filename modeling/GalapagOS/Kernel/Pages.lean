import GalapagOS.Kernel.Video

/-!
# The video pages behind the loaded directory

Whatever directory is loaded, virtual page `0xb7` is the VGA page, the backing pages are mapped to
themselves and `0xb8` is the page the running process draws on. Accesses through one of these
pages act on one physical page as on a private memory; loading a program touches none of them.
-/

namespace GalapagOS
namespace Kernel

open Memory Paging

variable {k k' : Kernel} {chains chains' : Fin 3 → List Pid} {ps ps' : List Pid} {c c' x : Pid}
  {e : Event}

/-! ## Translations -/

section Translate

variable (hwf : WellFormed k.lay k.tables) (hx : k.cr3 = some x)

include hwf hx in
/-- A present page of the first 4 MB. -/
theorem translate_low {n b off : ℕ} (hn : n < 1024) (hoff : off < 4096)
    (hpresent : Pte.present.get (k.tables.pageTables x n) = 1)
    (hbase : (Pte.base.get (k.tables.pageTables x n)).toNat = b) :
    k.translate (n * 4096 + off) = some (b * 4096 + off) := by
  have hlt : n * 4096 + off < 2 ^ 22 := by omega
  have hmod : (n * 4096 + off) % 2 ^ 32 = n * 4096 + off := by omega
  have hpage : (n * 4096 + off) / 2 ^ 12 = n := by omega
  have hin : (n * 4096 + off) % 2 ^ 12 = off := by omega
  have hxt : (x : ℕ) < numTasks := lt_of_lt_of_le x.isLt (by decide)
  rw [translate, hx, Option.bind_some, hmod, walk_low hwf hxt hlt, hpage, hin, hpresent,
    if_neg (by decide), hbase]
  rfl

include hwf in
theorem pageTable_ok (x : Pid) : PageTableOk (k.tables.pageTables x) :=
  (hwf x (lt_of_lt_of_le x.isLt (by decide))).pageTable

include hwf hx in
/-- `INACTIVE_VID_MEM` is the VGA page. -/
theorem translate_inactive {off : ℕ} (hoff : off < 4096) :
    k.translate (0xb7 * 4096 + off) = some (0xb8 * 4096 + off) :=
  translate_low hwf hx (by decide) hoff (pageTable_ok hwf x).inactive_present
    (pageTable_ok hwf x).inactive_base

include hwf hx in
theorem translate_video {off : ℕ} (hoff : off < 4096) :
    k.translate (0xb8 * 4096 + off) = some (videoBase k.tables x * 4096 + off) :=
  translate_low hwf hx (by decide) hoff (pageTable_ok hwf x).video.present rfl

include hwf hx in
theorem translate_backing (t : Fin 3) {off : ℕ} (hoff : off < 4096) :
    k.translate ((0xb9 + t) * 4096 + off) = some ((0xb9 + t) * 4096 + off) :=
  translate_low hwf hx (by omega) hoff ((pageTable_ok hwf x).backing_present t t.isLt)
    ((pageTable_ok hwf x).backing_base t t.isLt)

/-- The bits that `address_in_user` compares are the index in the directory. -/
theorem dirEntry_eq (a : ℕ) : (a >>> 22) &&& 0x3ff = a % 2 ^ 32 / 2 ^ 22 := by
  have hand : (a >>> 22) &&& 0x3ff = (a >>> 22) % 2 ^ 10 := Nat.and_two_pow_sub_one_eq_mod _ 10
  rw [hand, Nat.shiftRight_eq_div_pow]
  omega

include hwf hx in
/-- A store of consecutive bytes from an address of the user page on ends in that page, since the
page after it is not mapped. -/
theorem access_user_length {base : ℕ} {bytes : List UInt8}
    (hbase : base % 2 ^ 32 / 2 ^ 22 = usrDirEntry)
    (h : k.access base [.write 0 bytes] = some k') :
    base % 2 ^ 32 + bytes.length ≤ 33 * 2 ^ 22 := by
  have hxt : (x : ℕ) < numTasks := lt_of_lt_of_le x.isLt (by decide)
  rw [usrDirEntry] at hbase
  obtain ⟨m, hm, -⟩ := Option.map_eq_some_iff.mp h
  obtain ⟨m', hm', -⟩ := Option.bind_eq_some_iff.mp hm
  by_contra hgt
  have hfault := (writeBytes_eq_some hm').1 (33 * 2 ^ 22 - base % 2 ^ 32) (by omega)
  have haddr : (base + (0 + (33 * 2 ^ 22 - base % 2 ^ 32))) % 2 ^ 32 = 33 * 2 ^ 22 := by omega
  rw [translate, hx, Option.bind_some, haddr, walk_rest hwf hxt (by decide) (by decide)
    (by decide) (by decide)] at hfault
  cases hfault

include hwf hx in
/-- It stays in the user frame. -/
theorem access_user {base : ℕ} {bytes : List UInt8} (hbase : base % 2 ^ 32 / 2 ^ 22 = usrDirEntry)
    (h : k.access base [.write 0 bytes] = some k') {a : ℕ} (ha : a < 2 ^ 23) :
    k'.phys a = k.phys a := by
  have hxt : (x : ℕ) < numTasks := lt_of_lt_of_le x.isLt (by decide)
  have hlen := access_user_length hwf hx hbase h
  rw [usrDirEntry] at hbase
  obtain ⟨m, hm, rfl⟩ := Option.map_eq_some_iff.mp h
  obtain ⟨m', hm', hrest⟩ := Option.bind_eq_some_iff.mp hm
  cases hrest
  refine (writeBytes_eq_some hm').2 a fun j hj => ?_
  have hmod : (base + (0 + j)) % 2 ^ 32 = base % 2 ^ 32 + j := by omega
  have hdir : (base % 2 ^ 32 + j) / 2 ^ 22 = usrDirEntry := by
    rw [usrDirEntry]
    omega
  rw [translate, hx, Option.bind_some, hmod, walk_user hwf hxt hdir, Option.map_some]
  intro he
  have hphys : (2 + (x : ℕ)) * 2 ^ 22 + (base % 2 ^ 32 + j) % 2 ^ 22 = a := Option.some.inj he
  omega

end Translate

/-! ## One page as a private memory -/

/-- The bytes of a physical page; zero outside. -/
def pageOf (m : ℕ → UInt8) (n : ℕ) : ℕ → UInt8 := fun i => if i < 4096 then m (n * 4096 + i) else 0

theorem pageOf_congr {m m' : ℕ → UInt8} {n : ℕ} (h : ∀ a, a / 4096 = n → m' a = m a) :
    pageOf m' n = pageOf m n := by
  funext i
  unfold pageOf
  split
  · rw [h _ (by omega)]
  · rfl

/-- Accesses inside a virtual page that is mapped to the physical page `n` do not fault. -/
theorem exists_access_page {base n : ℕ} {ops : List (Op UInt8)}
    (hτ : ∀ off < 4096, k.translate (base + off) = some (n * 4096 + off))
    (hops : ∀ op ∈ ops, op.Within (Set.Iio 4096)) :
    ∃ m, k.access base ops = some { k with phys := m } ∧
      pageOf m n = applyAll ops (pageOf k.phys n) ∧ ∀ a, a / 4096 ≠ n → m a = k.phys a := by
  have hview : View (fun i => n * 4096 + i) (Set.Iio 4096) k.phys (pageOf k.phys n) :=
    fun i hi => (if_pos hi).symm
  have hmapped : ∀ off ∈ Set.Iio 4096,
      (fun off => k.translate (base + off)) off = some (n * 4096 + off) := hτ
  obtain ⟨m, hm, hview', hframe⟩ :=
    execAll_view hmapped (fun i _ j _ hij => by simpa using hij) hview hops
  refine ⟨m, by rw [access, hm]; rfl, ?_, fun a ha => hframe a fun i hi he => ha ?_⟩
  · funext i
    by_cases hi : i < 4096
    · rw [← hview' i hi]
      exact if_pos hi
    · rw [applyAll_of_notMem hops _ (show i ∉ Set.Iio 4096 from hi)]
      simp [pageOf, hi]
  · have hi' : i < 4096 := hi
    omega

theorem access_page {base n : ℕ} {ops : List (Op UInt8)}
    (hτ : ∀ off < 4096, k.translate (base + off) = some (n * 4096 + off))
    (hops : ∀ op ∈ ops, op.Within (Set.Iio 4096)) (h : k.access base ops = some k') :
    pageOf k'.phys n = applyAll ops (pageOf k.phys n) ∧
      ∀ a, a / 4096 ≠ n → k'.phys a = k.phys a := by
  obtain ⟨m, hm, hpage⟩ := exists_access_page hτ hops
  rw [h] at hm
  cases hm
  exact hpage

/-- A copy of one page to another through the translation. -/
theorem access_memcpy {d s pd ps : ℕ} (hds : d ≠ s) (hp : pd ≠ ps)
    (hd : ∀ off < 4096, k.translate (d * 4096 + off) = some (pd * 4096 + off))
    (hs : ∀ off < 4096, k.translate (s * 4096 + off) = some (ps * 4096 + off)) :
    ∃ m, k.access 0 (memcpy (d * 4096) (s * 4096) 4096) = some { k with phys := m } ∧
      pageOf m pd = pageOf k.phys ps ∧ ∀ a, a / 4096 ≠ pd → m a = k.phys a := by
  let S : Set ℕ := {a | a / 4096 = d ∨ a / 4096 = s}
  let t : ℕ → ℕ := fun a => if a / 4096 = d then pd * 4096 + a % 4096 else ps * 4096 + a % 4096
  have hτ : ∀ a ∈ S, k.translate (0 + a) = some (t a) := by
    intro a ha
    have hsplit : 0 + a = a / 4096 * 4096 + a % 4096 := by omega
    have hlt : a % 4096 < 4096 := by omega
    rw [hsplit]
    dsimp only [t]
    by_cases had : a / 4096 = d
    · rw [if_pos had, had, hd _ hlt]
    · have has : a / 4096 = s := ha.resolve_left had
      rw [if_neg had, has, hs _ hlt]
  have hinj : S.InjOn t := by
    intro a ha b hb hab
    dsimp only [t] at hab
    have ha' : a / 4096 = d ∨ a / 4096 = s := ha
    have hb' : b / 4096 = d ∨ b / 4096 = s := hb
    split_ifs at hab <;> omega
  have hwithin : ∀ op ∈ memcpy (d * 4096) (s * 4096) 4096, op.Within S := by
    refine memcpy_within fun j hj => ⟨.inl ?_, .inr ?_⟩ <;> omega
  have hview : View t S k.phys fun a => k.phys (t a) := fun _ _ => rfl
  obtain ⟨m, hm, hview', hframe⟩ := execAll_view hτ hinj hview hwithin
  rw [applyAll_memcpy (by omega)] at hview'
  refine ⟨m, by rw [access, hm]; rfl, ?_, fun a ha => ?_⟩
  · funext i
    unfold pageOf
    split
    · rename_i hi
      have hmem : d * 4096 + i ∈ S := .inl (by omega)
      have hval := hview' _ hmem
      rw [apply_move, if_pos (by omega)] at hval
      have htd : t (d * 4096 + i) = pd * 4096 + i := by
        dsimp only [t]
        rw [if_pos (by omega)]
        omega
      have hts : t (s * 4096 + (d * 4096 + i - d * 4096)) = ps * 4096 + i := by
        dsimp only [t]
        rw [if_neg (by omega)]
        omega
      rw [htd, hts] at hval
      exact hval
    · rfl
  · by_cases hps : a / 4096 = ps
    · -- the source page is read only
      have hmem : s * 4096 + a % 4096 ∈ S := .inr (by omega)
      have hval := hview' _ hmem
      have hts : t (s * 4096 + a % 4096) = a := by
        dsimp only [t]
        rw [if_neg (by omega)]
        omega
      rw [apply_move, if_neg (by omega), hts] at hval
      exact hval
    · refine hframe a fun b hb he => ?_
      dsimp only [t] at he
      split_ifs at he <;> omega

/-! ## The loaded directory along a run -/

/-- The tables are well formed, and the loaded directory draws where the current process does. After
a failed `kexecute` it is the directory of the slot that would have been used. -/
structure Paged (k : Kernel) (c : Pid) : Prop where
  wellFormed : WellFormed k.lay k.tables
  loaded : ∃ x : Pid, k.cr3 = some x ∧ videoBase k.tables x = videoBase k.tables c

theorem swapTables_wellFormed {lay : Layout} {tb : Tables} (h : WellFormed lay tb) (old : Fin 3)
    (out into : List Pid) : WellFormed lay (swapTables tb old out into) := by
  have hfold : ∀ (f : Tables → Pid → Tables), (∀ tb p, WellFormed lay tb → WellFormed lay (f tb p)) →
      ∀ (l : List Pid) (tb : Tables), WellFormed lay tb → WellFormed lay (l.foldl f tb) := by
    intro f hf l
    induction l with
    | nil => exact fun tb h => h
    | cons p l ih => exact fun tb h => ih (f tb p) (hf tb p h)
  exact hfold _ (fun tb p h => switchVidMemIn_wellFormed h p) into _
    (hfold _ (fun tb p h => switchVidMemOut_wellFormed h p old.isLt) out tb h)

theorem Booted.paged (h : Booted k) : Paged k 0 :=
  ⟨h.tables ▸ newInit_wellFormed k.lay, 0, h.cr3, rfl⟩

/-- The timer handler loads the directory of the process it switches to. -/
theorem Switched.paged {k₁ : Kernel} {m : Pid} (hs : Switched k₁ m k')
    (hwf : WellFormed k₁.lay k₁.tables) (hcons : Consistent k' chains ps c) : Paged k' c := by
  have hmc : m = c := Option.some.inj (hs.currProcess.symm.trans hcons.currProcess)
  have hpid : (k₁.pcbs m).pid = c := by
    rw [← hs.pcbs, hmc, hcons.pid c hcons.live]
  exact ⟨by rw [hs.lay, hs.tables]; exact hwf, c, by rw [hs.cr3, hpid], rfl⟩

theorem Paged.step (h : Paged k c) (hcons : Consistent k chains ps c)
    (hs : Step k chains c e k' chains') (hcons' : Consistent k' chains' ps' c') : Paged k' c' := by
  have hpid := hcons.pid c hcons.live
  have hlt : ∀ p : Pid, (p : ℕ) < numTasks := fun p => lt_of_lt_of_le p.isLt (by decide)
  -- an event that leaves the current process, the directory and the tables alone
  have hframe : k'.currProcess = k.currProcess → k'.lay = k.lay → k'.tables = k.tables →
      k'.cr3 = k.cr3 → Paged k' c' := by
    intro hcurr hlay htables hcr3
    have hcc : c' = c := by
      rw [hcons.currProcess, hcons'.currProcess] at hcurr
      exact Option.some.inj hcurr
    rw [hcc]
    exact ⟨by rw [hlay, htables]; exact h.wellFormed, by rw [hcr3, htables]; exact h.loaded⟩
  cases hs with
  | kexecuteError => exact hframe rfl rfl rfl rfl
  | @kexecuteFailed _ _ n _ _ hn _ hacc =>
    obtain ⟨m, rfl⟩ := access_eq_some hacc
    have hcc : c = c' := Option.some.inj (hcons.currProcess.symm.trans hcons'.currProcess)
    have hne : (c : ℕ) ≠ n := fun he => not_live_of_free hn (Fin.val_inj.mp he ▸ hcons.live)
    refine ⟨newPaging_wellFormed h.wellFormed (hlt n) (hlt _), n, rfl, ?_⟩
    rw [← hcc]
    change videoBase (Paging.newPaging k.tables n (k.pcbs c).pid) n
      = videoBase (Paging.newPaging k.tables n (k.pcbs c).pid) c
    rw [videoBase_newPaging, videoBase_screenEntry.newPaging _ _ _ _ hne, hpid]
  | @kexecuted line st t n m bytes k₁ k₂ _ _ _ _ hacc _ hs hsw =>
    obtain ⟨m', rfl⟩ := access_eq_some hacc
    refine hsw.paged ?_ hcons'
    rw [hs.lay, hs.tables]
    exact newPaging_wellFormed h.wellFormed (hlt n) (hlt _)
  | restarted => exact hframe rfl rfl rfl rfl
  | khalted _ hs hsw =>
    refine hsw.paged ?_ hcons'
    rw [hs.lay, hs.tables]
    exact unmapVidMemory_wellFormed h.wellFormed c
  | kvidmapError => exact hframe rfl rfl rfl rfl
  | kvidmapped _ hacc =>
    obtain ⟨m, rfl⟩ := access_eq_some hacc
    have hcc : c = c' := Option.some.inj (hcons.currProcess.symm.trans hcons'.currProcess)
    exact ⟨mapVidMemory_wellFormed h.wellFormed c, c, rfl, by rw [hcc]⟩
  | @fileCall call _ hcall =>
    generalize call.terminalBytes k = out at hcall
    cases hcall with
    | quiet _ _ heq =>
      refine hframe ?_ ?_ ?_ ?_ <;> (rw [heq]; rfl)
    | wrote hwrite =>
      obtain ⟨m, rfl⟩ := terminalWrite_eq_some hwrite
      exact hframe rfl rfl rfl rfl
  | tick hsw => exact hsw.paged h.wellFormed hcons'
  | sameTerminal => exact hframe rfl rfl rfl rfl
  | switchTerminals _ h₁ h₂ =>
    obtain ⟨m₁, rfl⟩ := access_eq_some h₁
    obtain ⟨m₂, rfl⟩ := access_eq_some h₂
    have hcc : c = c' := Option.some.inj (hcons.currProcess.symm.trans hcons'.currProcess)
    exact ⟨swapTables_wellFormed h.wellFormed _ _ _, c, rfl, by rw [hcc]⟩
  | putChar hkey =>
    obtain ⟨m, rfl⟩ := keyboardOutput_eq_some hkey
    exact hframe rfl rfl rfl rfl
  | clearTerminal hkey =>
    obtain ⟨m, rfl⟩ := keyboardOutput_eq_some hkey
    exact hframe rfl rfl rfl rfl

/-- Every reachable state is consistent and paged. -/
theorem Reach.paged {ok : Kernel → Event → Prop} (h : Run.Reach system ok k) :
    ∃ chains ps c, Consistent k chains ps c ∧ Paged k c := by
  exact Reach.along (I := fun k _ c => Paged k c) h (fun k hb => hb.paged)
    fun hcons hpaged _ hs hcons' => hpaged.step hcons hs hcons'

end Kernel
end GalapagOS
