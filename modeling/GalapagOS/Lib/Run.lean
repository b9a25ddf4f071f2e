import Mathlib.Logic.Basic

/-!
# Runs of an event system

A system starts in one of its initial states and takes events; an event that is not possible
in a state gives `none`. `Reach S ok s` says that `s` is reached by a run all of whose events
meet the condition `ok` in the state where they happen; with `Free` every run counts.
`Reach.invariant` is the induction over runs, `System.run_filter` compares a run with the run without
the events that cannot be seen, `System.refines` and `System.simulates` are the inductions for a
machine that takes labels of the events instead.
-/

namespace Run

variable {σ ε : Type*}

/-- Initial states and the effect of each event. -/
structure System (σ ε : Type*) where
  init : σ → Prop
  step : σ → ε → Option σ

/-- No condition on the events. -/
def Free : σ → ε → Prop := fun _ _ => True

/-- The states reached by runs whose events all meet `ok`. -/
inductive Reach (S : System σ ε) (ok : σ → ε → Prop) : σ → Prop
  | init {s : σ} : S.init s → Reach S ok s
  | step {s s' : σ} {e : ε} : Reach S ok s → ok s e → S.step s e = some s' → Reach S ok s'

variable {S : System σ ε} {ok : σ → ε → Prop} {s s' : σ}

/-- What holds initially and is kept by every allowed event holds in every reached state. -/
theorem Reach.invariant {I : σ → Prop} (h : Reach S ok s) (hinit : ∀ s, S.init s → I s)
    (hstep : ∀ s e s', I s → ok s e → S.step s e = some s' → I s') : I s := by
  induction h with
  | init h => exact hinit _ h
  | step _ hok hs ih => exact hstep _ _ _ ih hok hs

/-- The same system, started in a given state. -/
def System.startingAt (S : System σ ε) (s : σ) : System σ ε := { S with init := fun s' => s' = s }

/-- The state after a list of events. -/
def System.run (S : System σ ε) : σ → List ε → Option σ
  | s, [] => some s
  | s, e :: es => (S.step s e).bind fun s' => S.run s' es

theorem System.run_append {es es' : List ε} :
    ∀ {s s' : σ}, S.run s es = some s' → S.run s (es ++ es') = S.run s' es' := by
  induction es with
  | nil =>
    intro s s' hrun
    cases hrun
    rfl
  | cons e es ih =>
    intro s s' hrun
    obtain ⟨s₁, hs₁, hrest⟩ := Option.bind_eq_some_iff.mp hrun
    rw [List.cons_append, System.run, hs₁]
    exact ih hrest

/-- The events of a list all meet `ok` where they happen. -/
def System.Allowed (S : System σ ε) (ok : σ → ε → Prop) : σ → List ε → Prop
  | _, [] => True
  | s, e :: es => ok s e ∧ ∀ s', S.step s e = some s' → S.Allowed ok s' es

instance System.decidableAllowed (S : System σ ε) [∀ s e, Decidable (ok s e)] :
    ∀ (es : List ε) (s : σ), Decidable (S.Allowed ok s es)
  | [], _ => inferInstanceAs (Decidable True)
  | e :: es, s =>
    match hs : S.step s e with
    | none => decidable_of_iff (ok s e) (by simp [System.Allowed, hs])
    | some s' =>
      have := S.decidableAllowed es s'
      decidable_of_iff (ok s e ∧ S.Allowed ok s' es) (by simp [System.Allowed, hs])

theorem Reach.run {es : List ε} (h : Reach S ok s) (hall : S.Allowed ok s es)
    (hrun : S.run s es = some s') : Reach S ok s' := by
  induction es generalizing s with
  | nil =>
    cases hrun
    exact h
  | cons e es ih =>
    obtain ⟨s₁, hs₁, hrest⟩ := Option.bind_eq_some_iff.mp hrun
    exact ih (h.step hall.1 hs₁) (hall.2 s₁ hs₁) hrest

/-- Events that meet `ok` in every state. -/
theorem System.allowed_of_forall (S : System σ ε) {es : List ε} (h : ∀ e ∈ es, ∀ s, ok s e) :
    ∀ s, S.Allowed ok s es := by
  induction es with
  | nil => exact fun _ => trivial
  | cons e es ih =>
    intro s
    exact ⟨h e List.mem_cons_self s,
      fun s' _ => ih (fun e he => h e (List.mem_cons_of_mem _ he)) s'⟩

theorem System.Allowed.mono {ok' : σ → ε → Prop} (h : ∀ s e, ok s e → ok' s e) :
    ∀ {es : List ε} {s : σ}, S.Allowed ok s es → S.Allowed ok' s es
  | [], _, _ => trivial
  | e :: _, s, hall => ⟨h s e hall.1, fun s' hs' => (hall.2 s' hs').mono h⟩

theorem System.Allowed.and {ok' : σ → ε → Prop} :
    ∀ {es : List ε} {s : σ}, S.Allowed ok s es → S.Allowed ok' s es →
      S.Allowed (fun s e => ok s e ∧ ok' s e) s es
  | [], _, _, _ => trivial
  | _ :: _, _, hall, hall' => ⟨⟨hall.1, hall'.1⟩, fun s' hs' => (hall.2 s' hs').and (hall'.2 s' hs')⟩

theorem System.allowed_free (S : System σ ε) (es : List ε) : ∀ s, S.Allowed Free s es :=
  S.allowed_of_forall fun _ _ _ => trivial

/-! ## Runs that look the same -/

/-- Events that cannot be seen may be left out, when what can be seen of a state decides what can be
seen after the other events. -/
theorem System.run_filter {τ : Type*} {view : σ → τ} {p : ε → Bool} {ok' : σ → ε → Prop} :
    ∀ {es : List ε} {s₁ s₂ : σ},
      (∀ e ∈ es, p e = false → ∀ s, ok s e → ∃ s', S.step s e = some s' ∧ view s' = view s) →
      (∀ e ∈ es, p e = true → ∀ s s', ok s e → ok' s' e → view s = view s' →
        (S.step s e).map view = (S.step s' e).map view) →
      S.Allowed ok s₁ es → S.Allowed ok' s₂ (es.filter p) → view s₁ = view s₂ →
      (S.run s₁ es).map view = (S.run s₂ (es.filter p)).map view
  | [], _, _, _, _, _, _, hview => congrArg some hview
  | e :: es, s₁, s₂, hskip, hstep, hall, hall', hview => by
    have hrec : ∀ s₁' s₂', S.step s₁ e = some s₁' → S.Allowed ok' s₂' (es.filter p) →
        view s₁' = view s₂' → (S.run s₁' es).map view = (S.run s₂' (es.filter p)).map view :=
      fun s₁' s₂' hs₁' => System.run_filter (fun e he => hskip e (List.mem_cons_of_mem _ he))
        (fun e he => hstep e (List.mem_cons_of_mem _ he)) (hall.2 s₁' hs₁')
    cases hp : p e with
    | false =>
      obtain ⟨s₁', hs₁', hview'⟩ := hskip e List.mem_cons_self hp s₁ hall.1
      rw [List.filter_cons_of_neg (by simp [hp])] at hall' ⊢
      rw [System.run, hs₁', Option.bind_some]
      exact hrec s₁' s₂ hs₁' hall' (hview'.trans hview)
    | true =>
      rw [List.filter_cons_of_pos hp] at hall' ⊢
      have hsame := hstep e List.mem_cons_self hp s₁ s₂ hall.1 hall'.1 hview
      rw [System.run, System.run]
      cases hs₁ : S.step s₁ e with
      | none =>
        rw [hs₁, Option.map_none, eq_comm, Option.map_eq_none_iff] at hsame
        rw [hsame]
        rfl
      | some s₁' =>
        rw [hs₁, Option.map_some, eq_comm, Option.map_eq_some_iff] at hsame
        obtain ⟨s₂', hs₂', hview'⟩ := hsame
        rw [hs₂', Option.bind_some, Option.bind_some]
        exact hrec s₁' s₂' hs₁ (hall'.2 s₂' hs₂') hview'.symm

/-! ## Refinement -/

section Refinement

variable {τ l : Type*} (label : σ → ε → l)

/-- What an observer sees of a run: a label for each event, in the state where it happens. -/
def System.labels (S : System σ ε) : σ → List ε → List l
  | _, [] => []
  | s, e :: es => label s e :: ((S.step s e).map fun s' => S.labels s' es).getD []

theorem System.labels_append {es' : List ε} :
    ∀ {es : List ε} {s s' : σ}, S.run s es = some s' →
      S.labels label s (es ++ es') = S.labels label s es ++ S.labels label s' es'
  | [], s, s', hrun => by
    cases hrun
    rfl
  | e :: es, s, s', hrun => by
    obtain ⟨s₁, hs₁, hrest⟩ := Option.bind_eq_some_iff.mp hrun
    have hrec : S.labels label s₁ (es ++ es') = S.labels label s₁ es ++ S.labels label s' es' :=
      System.labels_append hrest
    simp [System.labels, hs₁, hrec]

/-- An observer who sees a function of the other's labels. -/
theorem System.labels_map {l' : Type*} {label' : σ → ε → l'} {f : l → l'} {I : σ → Prop}
    (hstep : ∀ s e s', I s → ok s e → S.step s e = some s' → I s')
    (hlabel : ∀ s e, I s → ok s e → label' s e = f (label s e)) :
    ∀ {es : List ε} {s : σ}, I s → S.Allowed ok s es →
      S.labels label' s es = (S.labels label s es).map f
  | [], _, _, _ => rfl
  | e :: es, s, hI, hall => by
    rw [System.labels, System.labels, List.map_cons, hlabel s e hI hall.1]
    cases hs : S.step s e with
    | none => rfl
    | some s' =>
      have hrec := System.labels_map hstep hlabel (hstep s e s' hI hall.1 hs) (hall.2 s' hs)
      exact congrArg (f (label s e) :: ·) hrec

/-- A machine on the states `τ` that takes the labels is refined, if every event takes the
abstraction of the state where its label takes it. -/
theorem System.refines {I : σ → Prop} {f : σ → τ} {next : τ → l → τ}
    (hstep : ∀ s e s', I s → ok s e → S.step s e = some s' →
      I s' ∧ f s' = next (f s) (label s e)) :
    ∀ {es : List ε} {s s' : σ}, I s → S.Allowed ok s es → S.run s es = some s' →
      I s' ∧ f s' = (S.labels label s es).foldl next (f s)
  | [], s, s', hI, _, hrun => by
    cases hrun
    exact ⟨hI, rfl⟩
  | e :: es, s, s', hI, hall, hrun => by
    obtain ⟨s₁, hs₁, hrest⟩ := Option.bind_eq_some_iff.mp hrun
    obtain ⟨hI₁, hf₁⟩ := hstep s e s₁ hI hall.1 hs₁
    have hrec := System.refines hstep hI₁ (hall.2 s₁ hs₁) hrest
    rw [hf₁] at hrec
    simpa [System.labels, hs₁] using hrec

/-- A machine on the states `τ` that accepts or rejects labels accepts what the observer sees, if
every event leads to a related state that the label leads to as well. -/
theorem System.simulates {R : σ → τ → Prop} {next : τ → l → Option τ}
    (hstep : ∀ s e s' t, R s t → ok s e → S.step s e = some s' →
      ∃ t', next t (label s e) = some t' ∧ R s' t') :
    ∀ {es : List ε} {s s' : σ} {t : τ}, R s t → S.Allowed ok s es → S.run s es = some s' →
      ∃ t', (S.labels label s es).foldlM next t = some t' ∧ R s' t'
  | [], s, s', t, hR, _, hrun => by
    cases hrun
    exact ⟨t, rfl, hR⟩
  | e :: es, s, s', t, hR, hall, hrun => by
    obtain ⟨s₁, hs₁, hrest⟩ := Option.bind_eq_some_iff.mp hrun
    obtain ⟨t₁, ht₁, hR₁⟩ := hstep s e s₁ t hR hall.1 hs₁
    obtain ⟨t', ht', hR'⟩ := System.simulates hstep hR₁ (hall.2 s₁ hs₁) hrest
    refine ⟨t', ?_, hR'⟩
    simpa [System.labels, hs₁, ht₁] using ht'

end Refinement

end Run
