import Mathlib.Logic.Relation

/-! Systems that take one labelled step after another. `step` is what the program does on an
event; `allowed` is what its surroundings may do. Safety is an invariant over every run, and
`Inevitable` says that every maximal run ends up somewhere, so a run that gets stuck or goes on
for ever does not satisfy it.
-/

set_option autoImplicit false

namespace ReadersSpeech.Transition

variable {σ ε : Type} {step : σ → ε → Option σ} {allowed allowed' : σ → ε → Prop}

def Move (step : σ → ε → Option σ) (allowed : σ → ε → Prop) (s s' : σ) : Prop :=
  ∃ e, allowed s e ∧ step s e = some s'

def Run (step : σ → ε → Option σ) (allowed : σ → ε → Prop) : σ → σ → Prop :=
  Relation.ReflTransGen (Move step allowed)

theorem Run.invariant {I : σ → Prop}
    (hstep : ∀ s e s', I s → allowed s e → step s e = some s' → I s') {s s' : σ}
    (h : Run step allowed s s') (hs : I s) : I s' := by
  induction h with
  | refl => exact hs
  | tail _ hm ih =>
    obtain ⟨e, ha, hst⟩ := hm
    exact hstep _ e _ ih ha hst

theorem Run.mono (hsub : ∀ s e, allowed s e → allowed' s e) {s s' : σ}
    (h : Run step allowed s s') : Run step allowed' s s' :=
  Relation.ReflTransGen.mono (fun _ _ ⟨e, ha, hst⟩ => ⟨e, hsub _ e ha, hst⟩) _ _ h

/-- A list of events taken one after another, each allowed where it is taken. -/
def replay (step : σ → ε → Option σ) (allowed : σ → ε → Prop) : σ → List ε → σ → Prop
  | s, [], s' => s = s'
  | s, e :: es, s' => allowed s e ∧ ∃ t, step s e = some t ∧ replay step allowed t es s'

theorem replay_run {s s' : σ} {es : List ε} (h : replay step allowed s es s') :
    Run step allowed s s' := by
  induction es generalizing s with
  | nil => obtain rfl : s = s' := h; exact .refl
  | cons e es ih =>
    obtain ⟨ha, t, ht, hr⟩ := h
    exact .head ⟨e, ha, ht⟩ (ih hr)

/-- The events of a run whose surroundings may do anything. -/
abbrev Steps (step : σ → ε → Option σ) : σ → List ε → σ → Prop := replay step fun _ _ => True

/-- Such a run can be computed. -/
theorem steps_of_foldlM {s s' : σ} {es : List ε} (h : es.foldlM step s = some s') :
    Steps step s es s' := by
  induction es generalizing s with
  | nil => exact Option.some.inj h
  | cons e es ih =>
    obtain ⟨t, ht, hr⟩ := Option.bind_eq_some_iff.mp h
    exact ⟨trivial, t, ht, ih hr⟩

/-- So can a run whose events are allowed wherever they are taken. -/
theorem replay_of_foldlM {s s' : σ} {es : List ε} (ha : ∀ e ∈ es, ∀ s, allowed s e)
    (h : es.foldlM step s = some s') : replay step allowed s es s' := by
  induction es generalizing s with
  | nil => exact Option.some.inj h
  | cons e es ih =>
    obtain ⟨t, ht, hr⟩ := Option.bind_eq_some_iff.mp h
    exact ⟨ha e (by simp) s, t, ht, ih (fun e he => ha e (by simp [he])) hr⟩

theorem replay_imp {P : ε → Prop} (himp : ∀ s e, allowed s e → P e → allowed' s e) {s s' : σ}
    {es : List ε} (hP : ∀ e ∈ es, P e) (h : replay step allowed s es s') :
    replay step allowed' s es s' := by
  induction es generalizing s with
  | nil => exact h
  | cons e es ih =>
    obtain ⟨ha, t, ht, hr⟩ := h
    exact ⟨himp s e ha (hP e (by simp)), t, ht, ih (fun e he => hP e (by simp [he])) hr⟩

theorem replay_append {s s' : σ} {a b : List ε} :
    replay step allowed s (a ++ b) s' ↔
      ∃ t, replay step allowed s a t ∧ replay step allowed t b s' := by
  induction a generalizing s with
  | nil => simp [replay]
  | cons e a ih =>
    simp only [List.cons_append, replay, ih]
    constructor
    · rintro ⟨ha, t, ht, t', h₁, h₂⟩
      exact ⟨t', ⟨ha, t, ht, h₁⟩, h₂⟩
    · rintro ⟨t', ⟨ha, t, ht, h₁⟩, h₂⟩
      exact ⟨ha, t, ht, t', h₁, h₂⟩

theorem replay_invariant {I : σ → Prop} {P : ε → Prop}
    (hstep : ∀ s e s', I s → P e → step s e = some s' → I s') {s s' : σ} {es : List ε}
    (h : replay step allowed s es s') (hP : ∀ e ∈ es, P e) (hs : I s) : I s' := by
  induction es generalizing s with
  | nil => obtain rfl : s = s' := h; exact hs
  | cons e es ih =>
    obtain ⟨-, t, ht, hr⟩ := h
    exact ih hr (fun e he => hP e (by simp [he])) (hstep s e t hs (hP e (by simp)) ht)

variable {κ : Type} {notes : σ → List κ → ε → List κ}

/-- What the steps of a run leave behind: each adds its notes to those that came before. -/
def record (notes : σ → List κ → ε → List κ) (step : σ → ε → Option σ) :
    σ → List κ → List ε → List κ
  | _, log, [] => log
  | s, log, e :: es => match step s e with
    | none => log
    | some s' => record notes step s' (log ++ notes s log e) es

theorem record_invariant {I : σ → List κ → Prop} {P : ε → Prop}
    (hstep : ∀ s log e s', I s log → P e → step s e = some s' → I s' (log ++ notes s log e))
    {s s' : σ} {log : List κ} {es : List ε} (h : replay step allowed s es s')
    (hP : ∀ e ∈ es, P e) (hs : I s log) : I s' (record notes step s log es) := by
  induction es generalizing s log with
  | nil => obtain rfl : s = s' := h; exact hs
  | cons e es ih =>
    obtain ⟨-, t, ht, hr⟩ := h
    simp only [record, ht]
    exact ih hr (fun e he => hP e (by simp [he])) (hstep s log e t hs (hP e (by simp)) ht)

/-- Whatever the surroundings do, a state of `P` is reached after finitely many steps. -/
inductive Inevitable (step : σ → ε → Option σ) (allowed : σ → ε → Prop) (P : σ → Prop) : σ → Prop
  | now {s : σ} : P s → Inevitable step allowed P s
  | later {s : σ} : (∃ s', Move step allowed s s') →
      (∀ s', Move step allowed s s' → Inevitable step allowed P s') → Inevitable step allowed P s

/-- A system that is never stuck outside `P`, and comes nearer to its end with every step. -/
theorem Inevitable.of_measure {I P : σ → Prop} (left : σ → Nat)
    (hnext : ∀ s, I s → ¬ P s → ∃ s', Move step allowed s s')
    (hstep : ∀ s s', I s → ¬ P s → Move step allowed s s' → I s' ∧ left s' < left s) {s : σ}
    (hs : I s) : Inevitable step allowed P s := by
  induction hn : left s using Nat.strongRecOn generalizing s with
  | ind n ih =>
    by_cases hp : P s
    · exact .now hp
    · refine .later (hnext s hs hp) fun s' hm => ?_
      obtain ⟨hs', hlt⟩ := hstep s s' hs hp hm
      exact ih (left s') (hn ▸ hlt) hs' rfl

/-- Two ends that every run meets, each with nothing after it, are met by one run together. -/
theorem Inevitable.meet {P Q : σ → Prop} (hP : ∀ s, P s → ∀ s', ¬ Move step allowed s s')
    (hQ : ∀ s, Q s → ∀ s', ¬ Move step allowed s s') {s : σ}
    (h₁ : Inevitable step allowed P s) (h₂ : Inevitable step allowed Q s) :
    ∃ s', P s' ∧ Q s' := by
  induction h₁ with
  | @now s hp =>
    cases h₂ with
    | now hq => exact ⟨s, hp, hq⟩
    | later hm _ =>
      obtain ⟨s', hm⟩ := hm
      exact absurd hm (hP s hp s')
  | @later s hm _ ih =>
    obtain ⟨s', hm⟩ := hm
    cases h₂ with
    | now hq => exact absurd hm (hQ s hq s')
    | later _ hnext => exact ih s' hm (hnext s' hm)

end ReadersSpeech.Transition
