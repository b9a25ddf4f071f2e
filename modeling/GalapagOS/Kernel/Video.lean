import GalapagOS.Kernel.Tree

/-!
# Which page a process draws on

The kernel writes the screen of the running process through virtual page `0xb8`, user code
through the page that `kvidmap` maps. Both entries of every process of a terminal should point
to the VGA page while the terminal is displayed and to its backing page otherwise.
-/

namespace GalapagOS
namespace Kernel

open Paging

variable {k k' : Kernel} {chains chains' : Fin 3 → List Pid} {ps : List Pid} {c : Pid} {e : Event}

/-- The page number of the logical screen of terminal `t` while `curr` is displayed. -/
def screenPage (curr t : Fin 3) : ℕ := if t = curr then 0xb8 else 0xb8 + t + 1

/-- The processes on the child chain that starts at the root of terminal `t`. -/
inductive OnChain (k : Kernel) (t : Fin 3) : Pid → Prop
  | root {p : Pid} : k.roots t = some p → OnChain k t p
  | child {p q : Pid} : OnChain k t p → (k.pcbs p).child = some q → OnChain k t q

theorem Chained.mem_of_onChain (h : Chained k chains) {t : Fin 3} {p : Pid} (hp : OnChain k t p) :
    p ∈ chains t := by
  induction hp with
  | root hroot =>
    rw [h.roots t] at hroot
    rw [← Option.some.inj hroot]
    exact h.forest.root_mem t
  | @child p q _ hchild ih =>
    -- `p` has a child, so it is not the last of its chain
    obtain ⟨as, bs, hl⟩ := List.append_of_mem ih
    cases bs with
    | nil =>
      have hlast : (chains t).getLast? = some p := by rw [hl]; simp
      have hnone : (k.pcbs p).child = none := h.forest.child_leaf t p hlast
      rw [hnone] at hchild
      cases hchild
    | cons b bs =>
      have hlinked := h.forest.linked t
      rw [hl, List.isChain_append_cons_cons] at hlinked
      have hb : (k.pcbs p).child = some b := hlinked.2.1.1
      rw [hl, Option.some.inj (hchild.symm.trans hb)]
      simp

theorem Chained.onChain_iff (h : Chained k chains) {t : Fin 3} {p : Pid} :
    OnChain k t p ↔ p ∈ chains t := by
  refine ⟨h.mem_of_onChain, ?_⟩
  have hwalk : ∀ l : List Pid, l.IsChain (fun a b => (k.pcbs a).child = some b) →
      (∀ a, l.head? = some a → OnChain k t a) → ∀ a ∈ l, OnChain k t a := by
    intro l
    induction l with
    | nil => simp
    | cons a l ih =>
      intro hl hhead b hb
      rcases List.mem_cons.mp hb with rfl | hb
      · exact hhead b rfl
      · refine ih hl.tail (fun d hd => ?_) b hb
        cases l with
        | nil => cases hd
        | cons d' l =>
          cases hd
          exact .child (hhead a rfl) (List.isChain_cons_cons.mp hl).1
  refine hwalk _ ((h.forest.linked t).imp fun a b hab => hab.1) (fun a ha => ?_) p
  rw [h.forest.head t, ← h.roots t] at ha
  exact .root ha

/-! ## The two entries under the mutators -/

/-- An entry `g` and a mark `on` of the tasks that use it: the terminal switch points the entry
to a page, and mapping the user's video page changes no more than the mark of one task. -/
structure ScreenEntry (g : Tables → ℕ → ℕ) (on : Tables → ℕ → Prop) : Prop where
  point : ∀ tb q b p, b ≤ 0xbb → g (pointVidMem tb q b) p = if p = q then b else g tb p
  on_point : ∀ tb q b p, on (pointVidMem tb q b) p ↔ on tb p
  newPaging : ∀ tb n q p, p ≠ n → g (Paging.newPaging tb n q) p = g tb p
  on_newPaging : ∀ tb n q p, on (Paging.newPaging tb n q) p ↔ on tb p
  map : ∀ tb q p, g (mapVidMemory tb q) p = g tb p
  on_map : ∀ tb q p, p ≠ q → (on (mapVidMemory tb q) p ↔ on tb p)
  unmap : ∀ tb q p, g (unmapVidMemory tb q) p = g tb p
  on_unmap : ∀ tb q p, p ≠ q → (on (unmapVidMemory tb q) p ↔ on tb p)

theorem videoBase_newPaging (tb : Tables) (n q : ℕ) :
    videoBase (newPaging tb n q) n = videoBase tb q := by
  simp [videoBase, newPaging]

/-- The kernel's entry is in use for every task. -/
theorem videoBase_screenEntry : ScreenEntry videoBase fun _ _ => True where
  point tb q b p hb := by
    by_cases hp : p = q
    · simp only [videoBase, pointVidMem, hp, Function.update_self, writeField_self, if_true]
      rw [BitField.get_set_self _ _ _ (by decide), base_ofNat hb]
    · simp [videoBase, pointVidMem, hp]
  on_point _ _ _ _ := Iff.rfl
  newPaging tb n q p hp := by simp [videoBase, newPaging, hp]
  on_newPaging _ _ _ _ := Iff.rfl
  map _ _ _ := rfl
  on_map _ _ _ _ := Iff.rfl
  unmap _ _ _ := rfl
  on_unmap _ _ _ _ := Iff.rfl

/-- The present bit is not part of the base. -/
theorem vidmapBase_setPresent (tb : Tables) (q p v : ℕ) :
    vidmapBase
      { tb with
        vidTables := Function.update tb.vidTables q
          (writeField (tb.vidTables q) virtVidmemTableEntry Pte.present v) } p
      = vidmapBase tb p := by
  by_cases hp : p = q
  · subst hp
    simp only [vidmapBase, Function.update_self, writeField_self]
    rw [BitField.get_set_of_disjoint _ _ _ _ (by decide) (by decide)]
  · simp [vidmapBase, hp]

theorem not_vidmapPresent_unmap (tb : Tables) (q : ℕ) :
    ¬vidmapPresent (unmapVidMemory tb q) q := by
  simp only [vidmapPresent, unmapVidMemory, Function.update_self, writeField_self]
  rw [BitField.get_set_self _ _ _ (by decide)]
  decide

/-- The user's entry is in use once `kvidmap` has made it present. -/
theorem vidmapBase_screenEntry : ScreenEntry vidmapBase vidmapPresent where
  point tb q b p hb := by
    by_cases hp : p = q
    · simp only [vidmapBase, pointVidMem, hp, Function.update_self, writeField_self, if_true]
      rw [BitField.get_set_self _ _ _ (by decide), base_ofNat hb]
    · simp [vidmapBase, pointVidMem, hp]
  on_point tb q b p := by
    by_cases hp : p = q
    · subst hp
      simp only [vidmapPresent, pointVidMem, Function.update_self, writeField_self]
      rw [BitField.get_set_of_disjoint _ _ _ _ (by decide) (by decide)]
    · simp [vidmapPresent, pointVidMem, hp]
  newPaging _ _ _ _ _ := rfl
  on_newPaging _ _ _ _ := Iff.rfl
  map tb q p := vidmapBase_setPresent tb q p 1
  on_map tb q p hp := by simp [vidmapPresent, mapVidMemory, hp]
  unmap tb q p := vidmapBase_setPresent tb q p 0
  on_unmap tb q p hp := by simp [vidmapPresent, unmapVidMemory, hp]

section Fold

variable {g : Tables → ℕ → ℕ} {on : Tables → ℕ → Prop}

/-- Pointing the processes of a list to one page, one after the other. -/
theorem ScreenEntry.foldl (hg : ScreenEntry g on) {b : ℕ} (hb : b ≤ 0xbb)
    (l : List Pid) (tb : Tables) (p : Pid) :
    g (l.foldl (fun tb (q : Pid) => pointVidMem tb q b) tb) p = if p ∈ l then b else g tb p := by
  induction l generalizing tb with
  | nil => rfl
  | cons q l ih =>
    have hval : (p : ℕ) = q ↔ p = q := Fin.val_inj
    rw [List.foldl_cons, ih, hg.point _ _ _ _ hb]
    simp only [hval, List.mem_cons]
    split_ifs <;> simp_all

theorem ScreenEntry.on_foldl (hg : ScreenEntry g on) (b : ℕ) (l : List Pid) (tb : Tables)
    (p : ℕ) : on (l.foldl (fun tb (q : Pid) => pointVidMem tb q b) tb) p ↔ on tb p := by
  induction l generalizing tb with
  | nil => rfl
  | cons q l ih => rw [List.foldl_cons, ih, hg.on_point]

theorem ScreenEntry.swapTables (hg : ScreenEntry g on) (tb : Tables) (old : Fin 3)
    (out into : List Pid) (p : Pid) :
    g (swapTables tb old out into) p = if p ∈ into then 0xb8
      else if p ∈ out then 0xb8 + (old : ℕ) + 1 else g tb p := by
  have hold : vidmemPageBase + (old : ℕ) + 1 ≤ 0xbb := by
    rw [vidmemPageBase_eq]
    omega
  rw [Kernel.swapTables]
  simp only [switchVidMemIn, switchVidMemOut]
  rw [hg.foldl (by decide), hg.foldl hold]
  rfl

theorem ScreenEntry.on_swapTables (hg : ScreenEntry g on) (tb : Tables) (old : Fin 3)
    (out into : List Pid) (p : ℕ) : on (Kernel.swapTables tb old out into) p ↔ on tb p := by
  rw [Kernel.swapTables]
  simp only [switchVidMemIn, switchVidMemOut]
  rw [hg.on_foldl, hg.on_foldl]

end Fold

/-! ## Along a run -/

theorem Called.tables {out : Option (List UInt8)} (h : Called k c out k') :
    k'.tables = k.tables ∧ k'.getCurrTerminal = k.getCurrTerminal := by
  cases h with
  | quiet _ hterm heq => exact ⟨by rw [heq]; rfl, hterm⟩
  | wrote hwrite =>
    obtain ⟨m, rfl⟩ := terminalWrite_eq_some hwrite
    exact ⟨rfl, Terminal.currTerminal_run _ _ _⟩

theorem keyboardOutput_tables {f : ℤ → Terminal.Action} (h : k.keyboardOutput f = some k') :
    k'.tables = k.tables ∧ k'.getCurrTerminal = k.getCurrTerminal := by
  obtain ⟨m, rfl⟩ := keyboardOutput_eq_some h
  exact ⟨rfl, Terminal.currTerminal_run _ _ _⟩

/-- Every entry in use of a process on a chain points to the logical screen of the terminal. -/
def Follows (g : Tables → ℕ → ℕ) (on : Tables → ℕ → Prop) (k : Kernel)
    (chains : Fin 3 → List Pid) : Prop :=
  ∀ t, ∀ p ∈ chains t, on k.tables p → g k.tables p = screenPage k.getCurrTerminal t

section Follows

variable {g : Tables → ℕ → ℕ} {on : Tables → ℕ → Prop}

theorem Follows.congr (h : Follows g on k chains) (htables : k'.tables = k.tables)
    (hterm : k'.getCurrTerminal = k.getCurrTerminal) : Follows g on k' chains := by
  intro t p hp hon
  rw [htables] at hon ⊢
  rw [hterm, h t p hp hon]

/-- The terminal switch moves the entries of two chains. -/
theorem Follows.switch {term : Fin 3} (hg : ScreenEntry g on) (h : Follows g on k chains)
    (hcons : Chained k chains) (htables : k'.tables
      = swapTables k.tables k.getCurrTerminal (chains k.getCurrTerminal) (chains term))
    (hterm : k'.getCurrTerminal = term) : Follows g on k' chains := by
  intro t p hp hon
  have hmem : ∀ t', p ∈ chains t' ↔ t' = t :=
    fun t' => ⟨fun hp' => hcons.forest.disjoint t' t p hp' hp, fun he => he ▸ hp⟩
  rw [htables, hg.on_swapTables] at hon
  rw [htables, hterm, hg.swapTables]
  simp only [hmem, screenPage, h t p hp hon]
  by_cases ht : term = t
  · rw [if_pos ht, if_pos ht.symm]
  · rw [if_neg ht, if_neg (Ne.symm ht)]
    by_cases ht' : k.getCurrTerminal = t
    · rw [if_pos ht', ht']
    · rw [if_neg ht', if_neg (Ne.symm ht')]

/-- A new process joins a chain. -/
theorem Follows.grow (hg : ScreenEntry g on) (h : Follows g on k chains)
    (hcons : Consistent k chains ps c) {n : Pid} {t : Fin 3} (hn : ¬k.Live n)
    (htables : k'.tables = Paging.newPaging k.tables n c)
    (hterm : k'.getCurrTerminal = k.getCurrTerminal)
    (hnew : on k.tables n →
      g (Paging.newPaging k.tables n c) n = screenPage k.getCurrTerminal t) :
    Follows g on k' (Function.update chains t (chains t ++ [n])) := by
  intro t' p hp hon
  rw [htables, hg.on_newPaging] at hon
  rw [htables, hterm]
  rcases Forest.IsForest.mem_update_concat.mp hp with hp | ⟨rfl, rfl⟩
  · have hpn : (p : ℕ) ≠ n := fun he => hn (Fin.val_inj.mp he ▸ hcons.forest.live_of_mem hp)
    rw [hg.newPaging _ _ _ _ hpn, h t' p hp hon]
  · exact hnew hon

/-- The current process leaves its chain. -/
theorem Follows.shrink (hg : ScreenEntry g on) (h : Follows g on k chains)
    (hcons : Consistent k chains ps c) {l : List Pid} {t : Fin 3} (hl : chains t = l ++ [c])
    (htables : k'.tables = unmapVidMemory k.tables c)
    (hterm : k'.getCurrTerminal = k.getCurrTerminal) :
    Follows g on k' (Function.update chains t l) := by
  intro t' p hp hon
  obtain ⟨hmem, hpc⟩ := (hcons.forest.mem_update_init hl).mp hp
  rw [htables, hg.on_unmap _ _ _ fun he => hpc (Fin.val_inj.mp he)] at hon
  rw [htables, hg.unmap, hterm, h t' p hmem hon]

/-- An event keeps the entries right, if a new process starts with a right one and `kvidmap`
puts a right one into use. -/
theorem Follows.step (hg : ScreenEntry g on) (h : Follows g on k chains)
    (hcons : Consistent k chains ps c) (hs : Step k chains c e k' chains')
    (hnew : ∀ n t, freePidIdx k.pidArr = some n → (chains t).getLast? = some c →
      on k.tables n → g (Paging.newPaging k.tables n c) n = screenPage k.getCurrTerminal t)
    (hmap : ∀ a t, e = .kvidmap a → (a >>> 22) &&& 0x3ff = usrDirEntry →
      (chains t).getLast? = some c → g k.tables c = screenPage k.getCurrTerminal t) :
    Follows g on k' chains' := by
  have hpid := hcons.pid c hcons.live
  cases hs with
  | kexecuteError => exact h
  | @kexecuteFailed _ _ n _ _ hn _ hacc =>
    obtain ⟨m, rfl⟩ := access_eq_some hacc
    intro t p hp hon
    have hpn : (p : ℕ) ≠ n := fun he =>
      not_live_of_free hn (Fin.val_inj.mp he ▸ hcons.forest.live_of_mem hp)
    exact (hg.newPaging _ _ _ _ hpn).trans (h t p hp ((hg.on_newPaging _ _ _ _).mp hon))
  | @kexecuted line st t n m bytes k₁ k₂ _ ht hn _ hacc _ hs hsw =>
    obtain ⟨m', hm'⟩ := access_eq_some hacc
    refine h.grow hg hcons (not_live_of_free hn) ?_ ?_ (hnew n t hn ht)
    · rw [hsw.tables, hs.tables, hm']
      change Paging.newPaging k.tables n (k.pcbs c).pid = _
      rw [hpid]
    · rw [getCurrTerminal, hsw.terms, hs.terms, hm']
      rfl
  | restarted => exact h
  | @khalted status t l q m k₁ _ hl hs hsw =>
    refine h.shrink hg hcons (l := l ++ [q]) (by rw [hl]; simp) ?_ ?_
    · rw [hsw.tables, hs.tables]
    · rw [getCurrTerminal, hsw.terms, hs.terms]
      rfl
  | kvidmapError => exact h
  | @kvidmapped a _ ha hacc =>
    obtain ⟨m, rfl⟩ := access_eq_some hacc
    intro t p hp hon
    refine (hg.map _ _ _).trans ?_
    by_cases hpc : p = c
    · obtain ⟨t', ht'⟩ := hcons.leaf
      have ht := hcons.forest.leaf_iff hp (hpc ▸ ht')
      rw [hpc] at ht ⊢
      exact hmap a t rfl ha ht
    · exact h t p hp ((hg.on_map _ _ _ fun he => hpc (Fin.val_inj.mp he)).mp hon)
  | fileCall hcall => exact h.congr hcall.tables.1 hcall.tables.2
  | tick hsw =>
    refine h.congr hsw.tables ?_
    rw [getCurrTerminal, hsw.terms]
    rfl
  | sameTerminal => exact h
  | switchTerminals _ _ _ => exact h.switch hg hcons.toChained rfl rfl
  | putChar hkey =>
    have htables := keyboardOutput_tables hkey
    exact h.congr htables.1 htables.2
  | clearTerminal hkey =>
    have htables := keyboardOutput_tables hkey
    exact h.congr htables.1 htables.2

end Follows

theorem Booted.video (h : Booted k) (t : Fin 3) :
    videoBase k.tables (rootPid t) = screenPage k.getCurrTerminal t := by
  have hlt : (rootPid t : ℕ) < numTasks := lt_of_lt_of_le (rootPid t).isLt (by decide)
  have hvideo : videoBase k.tables (rootPid t)
      = if (rootPid t : ℕ) < 3 ∧ 0 < (rootPid t : ℕ) then 0xb8 + (rootPid t : ℕ) + 1 else 0xb8 := by
    rw [h.tables, videoBase, vidmemPageBase_eq]
    simp only [newInit, if_pos hlt]
    exact initPageTable_video _
  rw [hvideo, getCurrTerminal, h.terms]
  clear hvideo hlt
  revert t
  decide

/-- The kernel's entries of all processes on chains point to their screens. -/
def VideoFollows (k : Kernel) (chains : Fin 3 → List Pid) : Prop :=
  Follows videoBase (fun _ _ => True) k chains

theorem Booted.videoFollows (h : Booted k) : VideoFollows k fun t => [rootPid t] := by
  intro t p hp _
  rw [List.mem_singleton.mp hp, h.video t]

theorem VideoFollows.step (h : VideoFollows k chains) (hcons : Consistent k chains ps c)
    (hs : Step k chains c e k' chains') : VideoFollows k' chains' := by
  refine Follows.step videoBase_screenEntry h hcons hs ?_ ?_
  · intro n t _ ht _
    rw [videoBase_newPaging, h t c (List.mem_of_getLast? ht) trivial]
  · intro a t _ _ ht
    exact h t c (List.mem_of_getLast? ht) trivial

theorem video_mapping (h : Run.Reach system Run.Free k) (t : Fin 3) (p : Pid)
    (hp : OnChain k t p) : videoBase k.tables p = screenPage k.getCurrTerminal t := by
  obtain ⟨chains, ps, c, hcons, hvideo⟩ := Reach.along (I := fun k chains _ => VideoFollows k chains)
    h (fun k hb => hb.videoFollows) fun hcons hvideo _ hs _ => hvideo.step hcons hs
  exact hvideo t p (hcons.toChained.mem_of_onChain hp) trivial

/-- Shell 1 starts a program behind the displayed terminal 0. -/
def backgroundStart : List Event :=
  [.tick, .kexecute (some shellCommand) ⟨0, [], fun _ => 0⟩, .tick]

theorem video_mapping_background : ∃ k, sampleRun backgroundStart = some k ∧
    OnChain k 1 3 ∧ videoBase k.tables 3 = screenPage k.getCurrTerminal 1 := by
  have hrun : (sampleRun backgroundStart).map (fun k => (k.roots 1, (k.pcbs 1).child))
      = some (some 1, some 3) := by decide +kernel
  obtain ⟨k, hk, hfields⟩ := Option.map_eq_some_iff.mp hrun
  simp only [Prod.mk.injEq] at hfields
  have hchain : OnChain k 1 3 := .child (.root hfields.1) hfields.2
  exact ⟨k, hk, hchain, video_mapping
    (sampleRun_reach (fun k₀ _ => system.allowed_free _ k₀) hk) 1 3 hchain⟩

/-! ## The page that `kvidmap` maps -/

/-- Only live processes have their user video page mapped. -/
def MappedLive (k : Kernel) : Prop := ∀ p : Pid, vidmapPresent k.tables p → k.Live p

theorem MappedLive.step (h : MappedLive k) (hcons : Consistent k chains ps c)
    (hs : Step k chains c e k' chains') : MappedLive k' := by
  have hframe : ∀ {k' : Kernel}, (∀ p : ℕ, vidmapPresent k'.tables p ↔ vidmapPresent k.tables p) →
      k'.pidArr = k.pidArr → MappedLive k' := by
    intro k' htables hpidArr p hp
    rw [Live, hpidArr]
    exact h p ((htables p).mp hp)
  cases hs with
  | kexecuteError => exact h
  | kexecuteFailed _ _ hacc =>
    obtain ⟨m, rfl⟩ := access_eq_some hacc
    exact hframe (fun _ => Iff.rfl) rfl
  | kexecuted _ _ _ hacc _ hs hsw =>
    obtain ⟨m', rfl⟩ := access_eq_some hacc
    intro p hp
    rw [hsw.tables, hs.tables] at hp
    rw [Live, hsw.pidArr]
    exact (hs.live_iff p).mpr (.inl (h p hp))
  | restarted => exact h
  | khalted _ hs hsw =>
    intro p hp
    rw [hsw.tables, hs.tables] at hp
    rw [Live, hsw.pidArr]
    have hpc : p ≠ c := by
      rintro rfl
      exact not_vidmapPresent_unmap _ _ hp
    rw [vidmapBase_screenEntry.on_unmap _ _ _ fun he => hpc (Fin.val_inj.mp he)] at hp
    exact (hs.live_iff p).mpr ⟨h p hp, hpc⟩
  | kvidmapError => exact h
  | kvidmapped _ hacc =>
    obtain ⟨m, rfl⟩ := access_eq_some hacc
    intro p hp
    by_cases hpc : p = c
    · rw [hpc]
      exact hcons.live
    · exact h p ((vidmapBase_screenEntry.on_map _ _ _ fun he => hpc (Fin.val_inj.mp he)).mp hp)
  | fileCall hcall => exact hframe (fun p => by rw [hcall.tables.1]) hcall.pidArr
  | tick hsw => exact hframe (fun p => by rw [hsw.tables]) hsw.pidArr
  | sameTerminal => exact h
  | switchTerminals _ h₁ h₂ =>
    obtain ⟨m₁, rfl⟩ := access_eq_some h₁
    obtain ⟨m₂, rfl⟩ := access_eq_some h₂
    exact hframe (fun p => vidmapBase_screenEntry.on_swapTables _ _ _ _ p) rfl
  | putChar hkey =>
    obtain ⟨m, rfl⟩ := keyboardOutput_eq_some hkey
    exact hframe (fun _ => Iff.rfl) rfl
  | clearTerminal hkey =>
    obtain ⟨m, rfl⟩ := keyboardOutput_eq_some hkey
    exact hframe (fun _ => Iff.rfl) rfl

theorem Booted.not_vidmapPresent (h : Booted k) (p : Pid) : ¬vidmapPresent k.tables p := by
  have hlt : (p : ℕ) < numTasks := lt_of_lt_of_le p.isLt (by decide)
  rw [h.tables, vidmapPresent]
  simp only [newInit, if_pos hlt]
  decide

/-- A `kvidmap` that maps the page does so while the user's entry of the caller points to the
same page as the kernel's. `kvidmap` never writes the entry, and `new_paging` copies only the
kernel's. -/
def VidmapMatches (k : Kernel) : Event → Prop
  | .kvidmap a => ∀ c, k.currProcess = some c → (a >>> 22) &&& 0x3ff = usrDirEntry →
      vidmapBase k.tables c = videoBase k.tables c
  | _ => True

/-- The user's entries in use point to their screens, and only live processes have one. -/
structure VidmapFollows (k : Kernel) (chains : Fin 3 → List Pid) : Prop where
  video : VideoFollows k chains
  live : MappedLive k
  follows : Follows vidmapBase vidmapPresent k chains

theorem VidmapFollows.step (h : VidmapFollows k chains) (hcons : Consistent k chains ps c)
    (hok : VidmapMatches k e) (hs : Step k chains c e k' chains') : VidmapFollows k' chains' := by
  refine ⟨h.video.step hcons hs, h.live.step hcons hs,
    h.follows.step vidmapBase_screenEntry hcons hs ?_ ?_⟩
  · -- a free slot has no mapped page
    intro n t hn _ hon
    exact absurd (h.live n hon) (not_live_of_free hn)
  · rintro a t rfl ha ht
    rw [hok c hcons.currProcess ha, h.video t c (List.mem_of_getLast? ht) trivial]

theorem vidmap_screen (h : Run.Reach system VidmapMatches k) (t : Fin 3) (p : Pid)
    (hp : OnChain k t p) (hpresent : vidmapPresent k.tables p) :
    vidmapBase k.tables p = screenPage k.getCurrTerminal t := by
  obtain ⟨chains, ps, c, hcons, hvidmap⟩ := Reach.along
    (I := fun k chains _ => VidmapFollows k chains) h
    (fun k hb => ⟨hb.videoFollows, fun p hp => absurd hp (hb.not_vidmapPresent p),
      fun t p _ hp => absurd hp (hb.not_vidmapPresent p)⟩)
    fun hcons hvidmap hok hs _ => hvidmap.step hcons hok hs
  exact hvidmap.follows t p (hcons.toChained.mem_of_onChain hp) hpresent

/-- A program of the displayed terminal maps its screen. -/
theorem vidmap_screen_foreground :
    ∃ k, Run.Reach system VidmapMatches k ∧ OnChain k 0 3 ∧ vidmapPresent k.tables 3 ∧
      vidmapBase k.tables 3 = screenPage k.getCurrTerminal 0 := by
  have hrun : (sampleRun [.kexecute (some shellCommand) ⟨0, [], fun _ => 0⟩, .tick, .tick]).bind
      (fun k => ((Event.kvidmap 0x08000000).exec k).map fun k' => decide (k.currProcess = some 3 ∧
        vidmapBase k.tables 3 = videoBase k.tables 3 ∧ k'.roots 0 = some 0 ∧
        (k'.pcbs 0).child = some 3 ∧ vidmapPresent k'.tables 3)) = some true := by decide +kernel
  obtain ⟨k₁, hk₁, hrun⟩ := Option.bind_eq_some_iff.mp hrun
  obtain ⟨k, hk, hfields⟩ := Option.map_eq_some_iff.mp hrun
  obtain ⟨hcurr, hsame, hroot, hchild, hpresent⟩ := of_decide_eq_true hfields
  have hreach : Run.Reach system VidmapMatches k₁ :=
    sampleRun_reach (fun k₀ _ => system.allowed_of_forall (by simp [VidmapMatches]) k₀) hk₁
  have hok : VidmapMatches k₁ (.kvidmap 0x08000000) := by
    intro c hc _
    rw [← Option.some.inj (hcurr.symm.trans hc)]
    exact hsame
  have hreach' : Run.Reach system VidmapMatches k := hreach.step hok hk
  have hchain : OnChain k 0 3 := .child (.root hroot) hchild
  exact ⟨k, hreach', hchain, hpresent, vidmap_screen hreach' 0 3 hchain hpresent⟩

/-- A program started behind the displayed terminal maps the displayed page instead. -/
theorem vidmap_screen_background :
    ∃ k, Run.Reach system Run.Free k ∧ OnChain k 1 3 ∧ vidmapPresent k.tables 3 ∧
      vidmapBase k.tables 3 ≠ screenPage k.getCurrTerminal 1 := by
  have hrun : (sampleRun (backgroundStart ++ [.kvidmap 0x08000000])).map (fun k =>
      decide (k.roots 1 = some 1 ∧ (k.pcbs 1).child = some 3 ∧ vidmapPresent k.tables 3 ∧
        vidmapBase k.tables 3 ≠ screenPage k.getCurrTerminal 1)) = some true := by decide +kernel
  obtain ⟨k, hk, hfields⟩ := Option.map_eq_some_iff.mp hrun
  obtain ⟨hroot, hchild, hpresent, hbase⟩ := of_decide_eq_true hfields
  exact ⟨k, sampleRun_reach (fun k₀ _ => system.allowed_free _ k₀) hk,
    .child (.root hroot) hchild, hpresent, hbase⟩

end Kernel
end GalapagOS
