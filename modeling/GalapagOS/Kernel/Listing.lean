import GalapagOS.Kernel.Directory
import GalapagOS.Kernel.Isolation

/-!
# Programs that have the directory to themselves

`dir_read` keeps its place in `curr_file_number`, which all processes share, so the machine of a
program alone has no answer for a read of a directory. While no other process reads a directory,
`curr_file_number` is like a variable of the program, and the machine of this module answers these
reads as well.
-/

namespace GalapagOS
namespace Kernel

open FileSystem

variable {k k' : Kernel} {p : Pid} {img : Image} {t : Proc}

/-! ## The machine -/

/-- The bytes that a call asks for, if it reads a directory. -/
def Proc.dirRequest (t : Proc) : Request → Option ℤ
  | .call (.kread fd buf nbytes) =>
    if buf ≠ 0 ∧ 0 ≤ nbytes ∧ t.lookup fd = .directory then some nbytes else none
  | _ => none

/-- A call of a process, with the place in the directory. -/
def Proc.list (img : Image) (t : Proc) (cursor : ℕ) (q : Request) : (Proc × ℕ) × Option ReadResult :=
  match t.dirRequest q with
  | some nbytes => ((t, (dirRead img cursor nbytes).1), some (dirRead img cursor nbytes).2)
  | none => (((t.exec img q).1, cursor), (t.exec img q).2)

theorem Proc.list_of_none {t : Proc} {q : Request} (h : t.dirRequest q = none) (cursor : ℕ) :
    t.list img cursor q = (((t.exec img q).1, cursor), (t.exec img q).2) := by
  rw [Proc.list, h]

/-- The program with the system and the directory to itself; only a line of the keyboard is taken
as it comes. -/
def Program.listing {σ : Type*} (P : Program σ) (img : Image) (s : (Proc × ℕ) × σ) :
    Option ReadResult → Option ((Proc × ℕ) × σ)
  | none => some s
  | some r => (P.request s.2).bind fun q =>
      let x := s.1.1.list img s.1.2 q
      if x.2 = none ∨ x.2 = some r then some (x.1, P.resume s.2 r) else none

theorem Program.listing_eq_some {σ : Type*} {P : Program σ} {s x : (Proc × ℕ) × σ} {r : ReadResult}
    (h : P.listing img s (some r) = some x) :
    ∃ q, P.request s.2 = some q ∧
      ((s.1.1.list img s.1.2 q).2 = none ∨ (s.1.1.list img s.1.2 q).2 = some r) ∧
      x = ((s.1.1.list img s.1.2 q).1, P.resume s.2 r) := by
  obtain ⟨q, hq, h⟩ := Option.bind_eq_some_iff.mp h
  dsimp only at h
  split at h
  · rename_i hr
    cases h
    exact ⟨q, hq, hr, rfl⟩
  · cases h

/-- What happens around process `p`: no system call while it runs, and no read of a directory. -/
def Undivided {σ : Type*} (p : Pid) (s : Running σ) (e : Option Event) : Prop :=
  Around p s e ∧ ∀ e' ∈ e, s.k.readSlot e' = none

instance {σ : Type*} (p : Pid) (s : Running σ) : ∀ e, Decidable (Undivided p s e)
  | none => decidable_of_iff True ⟨fun _ => ⟨trivial, nofun⟩, fun _ => trivial⟩
  | some e => decidable_of_iff (Around p s (some e) ∧ s.k.readSlot e = none) (by simp [Undivided])

/-! ## The place in the directory -/

/-- Only `dir_read` moves `curr_file_number`. -/
theorem cursor_of_not_readSlot {e : Event} (h : e.exec k = some k') (hread : k.readSlot e = none) :
    k'.currFileNumber = k.currFileNumber := by
  by_cases hopen : ∃ name, e = .fileCall (.kopen name)
  · obtain ⟨name, rfl⟩ := hopen
    exact (kopen_opens h).cursor
  · exact (e.steady h hread fun name hname => hopen ⟨name, hname⟩).cursor

theorem Denotes.directory_iff {d : FileDescriptor} {h : Handle} (hd : Denotes img d h) :
    h = .directory ↔ d.InUse ∧ d.fileType ∈ readable ∧ d.fileOpTablePtr = some .dir := by
  constructor
  · rintro rfl
    cases hd with
    | directory huse htype hops =>
      refine ⟨huse, ?_, hops⟩
      rw [htype]
      decide
  · rintro ⟨huse, -, hops⟩
    cases hd with
    | closed hfree => exact absurd huse hfree
    | directory => rfl
    | file hopen => exact absurd (hopen.ops.symm.trans hops) (by decide)
    | _ _ _ hops' => exact absurd (hops'.symm.trans hops) (by decide)

/-- A call reads a directory in the kernel if it does in the machine. -/
theorem Holds.readSlot_eq_none {c : Call} (hf : Holds img (k.table p) t.handles)
    (hp : k.desc = some p) :
    k.readSlot (.fileCall c) = none ↔ t.dirRequest (.call c) = none := by
  cases c with
  | kread fd buf nbytes =>
    cases hslot : slotOf fd with
    | none =>
      have hclosed : t.lookup fd = .closed := by
        rw [Proc.lookup, hslot]
        rfl
      simp [readSlot, Proc.dirRequest, hp, hslot, hclosed]
    | some i =>
      have hdir := (hf i).directory_iff
      have hlookup : t.lookup fd = t.handles i := by
        rw [Proc.lookup, hslot]
        rfl
      rw [← hlookup] at hdir
      simp [readSlot, Proc.dirRequest, hp, hslot, hdir]
  | _ => exact iff_of_true rfl rfl

/-- The answer to a read of a directory, and the place after any call. -/
theorem Holds.cursor {q : Request} {r : ReadResult} (hf : Holds k.img (k.table p) t.handles)
    (hp : k.desc = some p) (h : q.exec k = some (k', r)) :
    k'.currFileNumber = (t.list k.img k.currFileNumber q).1.2 ∧
      ∀ nbytes, t.dirRequest q = some nbytes → r = (dirRead k.img k.currFileNumber nbytes).2 := by
  cases hreq : t.dirRequest q with
  | none =>
    rw [Proc.list, hreq]
    refine ⟨?_, nofun⟩
    cases q with
    | getArgs buf nbytes =>
      obtain ⟨x, -, he⟩ := Option.map_eq_some_iff.mp h
      cases he
      rfl
    | call c => exact cursor_of_not_readSlot (Request.exec_call h) ((hf.readSlot_eq_none hp).mpr hreq)
  | some nbytes =>
    rw [Proc.list, hreq]
    unfold Proc.dirRequest at hreq
    split at hreq
    · rename_i fd buf n
      split at hreq
      · cases hreq
        have hslot : (k.readSlot (.fileCall (.kread fd buf nbytes))).isSome := by
          rw [Option.isSome_iff_ne_none, ne_eq, hf.readSlot_eq_none hp, Proc.dirRequest]
          simp_all
        obtain ⟨d, hd⟩ := Option.isSome_iff_exists.mp hslot
        have hread := kread_of_readSlot hd
        have hkr := Option.some.inj (h.symm.trans hread)
        cases hkr
        refine ⟨rfl, fun n hn => ?_⟩
        cases hn
        rfl
      · cases hreq
    · cases hreq

/-! ## Runs -/

section Runs

variable {σ : Type*} {P : Program σ} {s s' : Running σ} {x : (Proc × ℕ) × σ}

/-- The process in the kernel and the process with the directory to itself. -/
structure Lists (p : Pid) (img : Image) (s : Running σ) (x : (Proc × ℕ) × σ) : Prop where
  tracks : Tracks p img s (x.1.1, x.2)
  cursor : s.k.currFileNumber = x.1.2

theorem Lists.around {e : Event} (h : Lists p img s x) (hok : Undivided p s (some e))
    (he : e.exec s.k = some k') : Lists p img { s with k := k' } x := by
  refine ⟨h.tracks.around hok.1 he, ?_⟩
  exact (cursor_of_not_readSlot he (hok.2 e rfl)).trans h.cursor

theorem Proc.exec_of_dirRequest {q : Request} {nbytes : ℤ} (h : t.dirRequest q = some nbytes) :
    t.exec img q = (t, none) := by
  unfold dirRequest at h
  split at h
  · split at h
    · rename_i hdir
      rw [exec, readFile, if_neg (by omega), hdir.2.2]
    · cases h
  · cases h

theorem Lists.call {r : ReadResult} (hwf : img.WellFormed) (h : Lists p img s x)
    (hcall : P.call p s = some (s', r)) :
    ∃ x', P.listing img x (some r) = some x' ∧ Lists p img s' x' := by
  obtain ⟨⟨t, cursor⟩, point⟩ := x
  obtain ⟨x₁, halone, htracks⟩ := h.tracks.call hwf hcall
  obtain ⟨q, hq, hr, rfl⟩ := Program.alone_eq_some halone
  obtain ⟨hp, q', hq', hk', -⟩ := Program.call_eq_some hcall
  rw [h.tracks.point, hq] at hq'
  cases hq'
  obtain ⟨chains, ps, c, hcons⟩ := Reach.consistent h.tracks.reach
  obtain rfl : c = p := Option.some.inj (hcons.currProcess.symm.trans hp)
  obtain rfl := h.tracks.image
  obtain ⟨hcursor, hanswer⟩ := h.tracks.holds.cursor hcons.desc hk'
  have hc : s.k.currFileNumber = cursor := h.cursor
  rw [hc] at hcursor hanswer
  have hlist : ((t.list s.k.img cursor q).2 = none ∨ (t.list s.k.img cursor q).2 = some r) ∧
      (t.list s.k.img cursor q).1.1 = (t.exec s.k.img q).1 := by
    cases hreq : t.dirRequest q with
    | none =>
      rw [Proc.list, hreq]
      exact ⟨hr, rfl⟩
    | some nbytes =>
      rw [Proc.list, hreq, Proc.exec_of_dirRequest hreq]
      exact ⟨.inr (congrArg some (hanswer nbytes hreq).symm), rfl⟩
  refine ⟨((t.list s.k.img cursor q).1, P.resume point r), ?_, ?_, hcursor⟩
  · rw [Program.listing, hq, Option.bind_some]
    dsimp only
    rw [if_pos hlist.1]
  · dsimp only
    rw [hlist.2]
    exact htracks

/-- Every run of the program on the kernel is a run of the machine, with the same answers. -/
theorem Lists.run (hwf : img.WellFormed) (h : Lists p img s x) {k₀ : Kernel} {start : σ}
    {es : List (Option Event)} (hok : (P.onKernel p k₀ start).Allowed (Undivided p) s es)
    (hrun : (P.onKernel p k₀ start).run s es = some s') :
    ∃ x', ((P.onKernel p k₀ start).labels (P.answer p) s es).foldlM (P.listing img) x = some x' ∧
      Lists p img s' x' := by
  have hstep : ∀ s e s' x, Lists p img s x → Undivided p s e →
      (P.onKernel p k₀ start).step s e = some s' →
      ∃ x', P.listing img x (P.answer p s e) = some x' ∧ Lists p img s' x' := by
    intro s e s' x h hok he
    cases e with
    | none =>
      obtain ⟨⟨s₁, r⟩, hcall, rfl⟩ := Option.map_eq_some_iff.mp he
      obtain ⟨x', hx', h'⟩ := h.call hwf hcall
      refine ⟨x', ?_, h'⟩
      rw [Program.answer, hcall]
      exact hx'
    | some e =>
      obtain ⟨k', hk', rfl⟩ := Option.map_eq_some_iff.mp he
      exact ⟨x, rfl, h.around hok hk'⟩
  exact Run.System.simulates (P.answer p) hstep h hok hrun

end Runs

end Kernel
end GalapagOS
