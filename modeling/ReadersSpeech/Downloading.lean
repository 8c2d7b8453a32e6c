import ReadersSpeech.DownloadShown

/-! `download` of Models, SummaryModel and TranslateModel, and the figure each of the three shows
while it downloads. Calls run side by side on the threads of one process, and what becomes of the
files meanwhile is anybody's.
-/

set_option autoImplicit false

namespace ReadersSpeech.Downloading
open Download Transition

/-- The objects that download models, each with a figure of its own. -/
inductive Owner where
  | Models
  | SummaryModel
  | TranslateModel
  deriving DecidableEq, Repr

/-- `NEEDED_BYTES`, of those that look for space first. -/
def neededBytes : Owner → Option ℤ
  | .Models => none
  | .SummaryModel => some 2200000000
  | .TranslateModel => some 2600000000

inductive Failure where
  | notEnoughSpace (mb : ℤ)
  | fetch (f : Download.Failure)
  | callback
  deriving DecidableEq, Repr

/-- The texts of the exceptions; a callback's exception keeps its own. -/
def Failure.message : Failure → Str
  | .notEnoughSpace mb => kt "not enough space: " ++ kt (toString mb) ++ kt " MB needed"
  | .fetch f => f.message
  | .callback => []

structure Request where
  owner : Owner
  target : Name
  deriving DecidableEq

inductive Pc where
  | asking
  | measuring
  | looking (have_ : ℕ)
  | starting
  | fetching (c : Download.Call) (shown : List ℤ)
  | ending (shown : List ℤ) (f : Option Failure)
  deriving DecidableEq

inductive Call where
  | idle
  | running (r : Request) (pc : Pc)
  | returned
  | threw (f : Failure)
  deriving DecidableEq

structure State (κ : Type) where
  disk : Disk
  call : κ → Call
  downloading : Owner → ℤ

/-- `available` is what `isDownloaded` answers, `space` the space there is, and `throws` a
callback's exception; `kill` is the end of the process, and `disk` what others do to the
folder. -/
inductive Event (κ : Type) where
  | call (k : κ) (r : Request)
  | available (k : κ) (b : Bool)
  | go (k : κ)
  | space (k : κ) (usable : ℤ)
  | fetch (k : κ) (e : Download.Event)
  | throws (k : κ)
  | kill
  | disk (d : Disk)

/-- Past a step of `fetch`; its exceptions go through the `finally`. -/
def after (s : Download.State) : Pc :=
  match s.call with
  | .returned => .ending s.shown none
  | .threw f => .ending s.shown (some (.fetch f))
  | c => .fetching c s.shown

section Step
variable {κ : Type} [DecidableEq κ]

def goTo (x : State κ) (k : κ) (c : Call) : State κ := { x with call := Function.update x.call k c }

def shows (x : State κ) (o : Owner) (v : ℤ) : State κ :=
  { x with downloading := Function.update x.downloading o v }

def step (x : State κ) : Event κ → Option (State κ)
  | .call k r =>
    match x.call k with
    | .running _ _ => none
    | _ => some (goTo x k (.running r .asking))
  | .available k b =>
    match x.call k with
    | .running r .asking =>
      some (goTo x k (if b then .returned
        else .running r (if (neededBytes r.owner).isSome then .measuring else .starting)))
    | _ => none
  | .go k =>
    match x.call k with
    | .running r .measuring =>
      some (goTo x k (.running r (.looking (partBytes x.disk r.target))))
    | .running r .starting =>
      some (goTo (shows x r.owner 0) k (.running r (.fetching (.running .measuring) [])))
    | .running r (.ending _ f) =>
      some (goTo (shows x r.owner (-1)) k (f.elim .returned .threw))
    | _ => none
  | .space k usable =>
    match x.call k with
    | .running r (.looking have_) =>
      (neededBytes r.owner).map fun needed =>
        if usable < needed - have_ then
          goTo x k (.threw (.notEnoughSpace ((needed - have_).tdiv 1000000)))
        else goTo x k (.running r .starting)
    | _ => none
  | .fetch k e =>
    match x.call k with
    | .running r (.fetching (.running pc) shown) =>
      if e = .kill then none
      else (stepPc r.target ⟨x.disk, .running pc, shown⟩ pc e).map fun s =>
        let x := if s.shown = shown then x else shows x r.owner (s.shown.getLast?.getD 0)
        goTo { x with disk := s.disk } k (.running r (after s))
    | _ => none
  | .throws k =>
    match x.call k with
    | .running r (.fetching (.running (.testing _)) shown) =>
      some (goTo x k (.running r (.ending shown (some .callback))))
    | _ => none
  | .kill => some { x with call := fun _ => .idle, downloading := fun _ => -1 }
  | .disk d => some { x with disk := d }

end Step

/-- A process that has just started. -/
def start (κ : Type) : State κ := ⟨⟨fun _ => none, fun _ => [], 0⟩, fun _ => .idle, fun _ => -1⟩

/-- The figure a call has given to `o` last, from the 0 it starts with to the -1 it ends with. -/
def figure (o : Owner) : Call → Option ℤ
  | .running r (.fetching _ shown) | .running r (.ending shown _) =>
    if r.owner = o then some (shown.getLast?.getD 0) else none
  | _ => none

def Pc.early : Pc → Bool
  | .fetching _ _ | .ending _ _ => false
  | _ => true

section Moves
variable {κ : Type} [DecidableEq κ]

/-- What a step does to the calls and the figures. -/
inductive Moves (x : State κ) : Event κ → State κ → Prop
  | called {k : κ} {r : Request} : (∀ r' pc, x.call k ≠ .running r' pc) →
      Moves x (.call k r) (goTo x k (.running r .asking))
  | waits {e : Event κ} {k : κ} {r : Request} {pc : Pc} {c : Call} :
      x.call k = .running r pc → pc.early = true →
      (∀ r' pc', c = .running r' pc' → r' = r ∧ pc'.early = true) → Moves x e (goTo x k c)
  | begins {k : κ} {r : Request} : x.call k = .running r .starting →
      Moves x (.go k)
        (goTo (shows x r.owner 0) k (.running r (.fetching (.running .measuring) [])))
  | fetches {k : κ} {e : Download.Event} {r : Request} {pc : Download.Pc} {shown : List ℤ}
      {s : Download.State} : x.call k = .running r (.fetching (.running pc) shown) → e ≠ .kill →
      Download.Moves r.target ⟨x.disk, .running pc, shown⟩ pc e s →
      Moves x (.fetch k e) (goTo { (if s.shown = shown then x
        else shows x r.owner (s.shown.getLast?.getD 0)) with disk := s.disk } k
          (.running r (after s)))
  | throws {k : κ} {r : Request} {l : Loop} {shown : List ℤ} :
      x.call k = .running r (.fetching (.running (.testing l)) shown) →
      Moves x (.throws k) (goTo x k (.running r (.ending shown (some .callback))))
  | ends {k : κ} {r : Request} {shown : List ℤ} {f : Option Failure} :
      x.call k = .running r (.ending shown f) →
      Moves x (.go k) (goTo (shows x r.owner (-1)) k (f.elim .returned .threw))
  | killed : Moves x .kill { x with call := fun _ => .idle, downloading := fun _ => -1 }
  | disk {d : Disk} : Moves x (.disk d) { x with disk := d }

theorem step_moves {x x' : State κ} {e : Event κ} (h : step x e = some x') : Moves x e x' := by
  cases e with
  | call k r =>
    simp only [step] at h
    split at h
    · cases h
    · rename_i hover
      cases h
      exact .called fun r' pc hk => hover r' pc hk
  | available k b =>
    simp only [step] at h
    split at h
    · rename_i r hk
      cases h
      refine .waits hk rfl fun r' pc' hc => ?_
      split at hc
      · cases hc
      · cases hc
        refine ⟨rfl, ?_⟩
        split <;> rfl
    · cases h
  | go k =>
    simp only [step] at h
    split at h
    · rename_i r hk
      cases h
      exact .waits hk rfl fun r' pc' hc => by cases hc; exact ⟨rfl, rfl⟩
    · rename_i r hk
      cases h
      exact .begins hk
    · rename_i r shown f hk
      cases h
      exact .ends hk
    · cases h
  | space k usable =>
    simp only [step] at h
    split at h
    · rename_i r have_ hk
      obtain ⟨needed, -, rfl⟩ := Option.map_eq_some_iff.mp h
      split
      · exact .waits hk rfl fun r' pc' hc => by cases hc
      · exact .waits hk rfl fun r' pc' hc => by cases hc; exact ⟨rfl, rfl⟩
    · cases h
  | fetch k e =>
    simp only [step] at h
    split at h
    · rename_i r pc shown hk
      split at h
      · cases h
      · rename_i hkill
        obtain ⟨s, hs, rfl⟩ := Option.map_eq_some_iff.mp h
        exact .fetches hk hkill (stepPc_moves hs)
    · cases h
  | throws k =>
    simp only [step] at h
    split at h
    · rename_i r l shown hk
      cases h
      exact .throws hk
    · cases h
  | kill => cases h; exact .killed
  | disk d => cases h; exact .disk

end Moves

/-- What a call has shown so far. -/
def Shown : Call → Prop
  | .running _ (.fetching c shown) => Figures c shown
  | .running _ (.ending shown _) => Rising shown
  | _ => True

section Figures
variable {o : Owner} {r : Request} {pc : Pc}

theorem figure_early (h : pc.early = true) : figure o (.running r pc) = none := by
  cases pc <;> first | rfl | cases h

theorem figure_after (s : Download.State) : figure o (.running r (after s)) =
    if r.owner = o then some (s.shown.getLast?.getD 0) else none := by
  rw [after]
  split <;> rfl

theorem shown_early (h : pc.early = true) : Shown (.running r pc) := by
  cases pc <;> trivial

theorem shown_after {s : Download.State} (h : Figures s.call s.shown) :
    Shown (.running r (after s)) := by
  rw [after]
  split
  · exact h.rising
  · exact h.rising
  · exact h

/-- The last figure, or the 0 before the first one. -/
theorem last_bounds {shown : List ℤ} (h : Rising shown) :
    0 ≤ shown.getLast?.getD 0 ∧ shown.getLast?.getD 0 ≤ 100 := by
  cases hl : shown.getLast? with
  | none => simp
  | some p => exact h.2 p (List.mem_of_getLast? hl)

end Figures

section Inv
variable {κ : Type}

structure Inv (x : State κ) : Prop where
  calls : ∀ k, Shown (x.call k)
  idle : ∀ o, (∀ k, figure o (x.call k) = none) → x.downloading o = -1
  bounds : ∀ o, -1 ≤ x.downloading o ∧ x.downloading o ≤ 100

def Declaring (_ : State κ) : Event κ → Prop
  | .fetch _ e => Declares e
  | _ => True

theorem start_inv : Inv (start κ) := ⟨fun _ => trivial, fun _ _ => rfl, fun _ => by simp [start]⟩

variable [DecidableEq κ] {x x' : State κ} {e : Event κ} {k : κ} {c : Call}

theorem goTo_call (x : State κ) (k : κ) (c : Call) : (goTo x k c).call k = c :=
  Function.update_self ..

theorem goTo_other {k' : κ} (x : State κ) (c : Call) (h : k' ≠ k) :
    (goTo x k c).call k' = x.call k' := Function.update_of_ne h ..

theorem shown_goTo (h : ∀ k, Shown (x.call k)) (hc : Shown c) (k' : κ) :
    Shown ((goTo x k c).call k') := by
  by_cases hk : k' = k
  · rw [hk, goTo_call]
    exact hc
  · rw [goTo_other x c hk]
    exact h k'

/-- Where a call that shows nothing goes on without showing anything, all is as before. -/
theorem Inv.quiet (h : Inv x) (hk : ∀ o, figure o (x.call k) = none) (hc : Shown c) :
    Inv (goTo x k c) := by
  refine ⟨shown_goTo h.calls hc, fun o hq => h.idle o fun k' => ?_, h.bounds⟩
  by_cases hkk : k' = k
  · rw [hkk, hk]
  · rw [← goTo_other x c hkk]
    exact hq k'

/-- A call gives `v` to its own object; what it shows to the others is nothing. -/
theorem Inv.gives {o : Owner} {v : ℤ} (h : Inv x) (hv : -1 ≤ v ∧ v ≤ 100)
    (hk : ∀ o', o' ≠ o → figure o' (x.call k) = none) (hc : Shown c)
    (hq : figure o c = none → v = -1) : Inv (goTo (shows x o v) k c) := by
  have hown : (goTo (shows x o v) k c).downloading o = v := Function.update_self ..
  have hother : ∀ o', o' ≠ o → (goTo (shows x o v) k c).downloading o' = x.downloading o' :=
    fun o' ho => Function.update_of_ne ho ..
  refine ⟨shown_goTo h.calls hc, fun o' hquiet => ?_, fun o' => ?_⟩
  · by_cases ho : o' = o
    · subst ho
      have hnone := hquiet k
      rw [goTo_call] at hnone
      rw [hown, hq hnone]
    · rw [hother o' ho]
      refine h.idle o' fun k' => ?_
      by_cases hkk : k' = k
      · rw [hkk, hk o' ho]
      · rw [← hquiet k', goTo_other _ c hkk]
        rfl
  · by_cases ho : o' = o
    · subst ho
      rw [hown]
      exact hv
    · rw [hother o' ho]
      exact h.bounds o'

omit [DecidableEq κ] in
theorem shows_self (x : State κ) (o : Owner) : shows x o (x.downloading o) = x := by
  rw [shows, Function.update_eq_self]

theorem figure_owner {o : Owner} {r : Request} (pc : Pc) (ho : o ≠ r.owner) :
    figure o (.running r pc) = none := by
  cases pc <;> simp [figure, ho.symm]

theorem Moves.inv (h : Moves x e x') (hi : Inv x) (hd : Declaring x e) : Inv x' := by
  cases h with
  | @called k r hk =>
    refine hi.quiet (fun o => ?_) trivial
    cases hc : x.call k with
    | running r' pc => exact absurd hc (hk r' pc)
    | _ => rfl
  | @waits _ k r pc c hk hearly hc =>
    refine hi.quiet (fun o => by rw [hk, figure_early hearly]) ?_
    cases c with
    | running r' pc' => exact shown_early (hc r' pc' rfl).2
    | _ => trivial
  | begins hk =>
    exact hi.gives (by omega) (fun o ho => by rw [hk]; rfl) rfl (by simp [figure])
  | @fetches k e r pc shown s hk _ hm =>
    have hshown := hi.calls k
    rw [hk] at hshown
    have hs := hm.figures hshown hd
    have hlast := last_bounds hs.rising
    obtain ⟨v, hv, heq⟩ : ∃ v, (-1 ≤ v ∧ v ≤ 100) ∧ (if s.shown = shown then x
        else shows x r.owner (s.shown.getLast?.getD 0)) = shows x r.owner v := by
      split
      · exact ⟨_, hi.bounds r.owner, (shows_self x r.owner).symm⟩
      · exact ⟨_, by omega, rfl⟩
    rw [heq]
    have hloud : figure r.owner (.running r (after s)) = none → v = -1 := by simp [figure_after]
    have hnext := hi.gives hv (fun o ho => by rw [hk, figure_owner _ ho]) (shown_after hs) hloud
    exact ⟨hnext.calls, hnext.idle, hnext.bounds⟩
  | @throws k r l shown hk =>
    have hshown := hi.calls k
    rw [hk] at hshown
    have hshows : Shows l [] shown := hshown
    rw [← shows_self x r.owner]
    exact hi.gives (hi.bounds r.owner) (fun o ho => by rw [hk, figure_owner _ ho])
      hshows.rising (by simp [figure])
  | @ends k r shown f hk =>
    refine hi.gives (by omega) (fun o ho => by rw [hk, figure_owner _ ho]) ?_ fun _ => rfl
    cases f <;> trivial
  | killed => exact ⟨fun _ => trivial, fun _ _ => rfl, fun _ => by simp⟩
  | disk => exact ⟨hi.calls, hi.idle, hi.bounds⟩

/-- Whoever downloads beside whom, and whatever fails: the figure of an object is -1 when nothing of
it is being downloaded, and each call shows figures that go up to 100 at most, and to 100 when it
comes to its end. -/
theorem downloading_figures (h : Run step Declaring (start κ) x) :
    (∀ o, (∀ k, figure o (x.call k) = none) → x.downloading o = -1) ∧
    (∀ o, -1 ≤ x.downloading o ∧ x.downloading o ≤ 100) ∧
    ∀ k r c shown, x.call k = .running r (.fetching c shown) → Rising shown ∧
      (c ∈ [.running .renameTo, .running .deleting, .running .renameAgain] →
        shown = [] ∨ shown.getLast? = some 100) := by
  have hi := h.invariant (I := Inv) (fun _ _ _ hi hd hst => (step_moves hst).inv hi hd) start_inv
  refine ⟨hi.idle, hi.bounds, fun k r c shown hk => ?_⟩
  have hshown := hi.calls k
  rw [hk] at hshown
  have hfigures : Figures c shown := hshown
  refine ⟨hfigures.rising, fun hc => ?_⟩
  simp only [List.mem_cons, List.not_mem_nil, or_false] at hc
  rcases hc with rfl | rfl | rfl
  · exact hshown.2
  · exact hshown.2
  · exact hshown.2

end Inv

section Alone
variable {κ : Type}

/-- The object a call downloads for. -/
def Call.owner : Call → Option Owner
  | .running r _ => some r.owner
  | _ => none

/-- Nobody downloads for an object that downloads already. -/
def Alone (x : State κ) : Event κ → Prop
  | .call _ r => ∀ k, (x.call k).owner ≠ some r.owner
  | e => Declaring x e

/-- Each object has one call at most, and its figure is the one that call has shown last. -/
structure Tied (x : State κ) : Prop where
  single : ∀ o k k', (x.call k).owner = some o → (x.call k').owner = some o → k = k'
  figure : ∀ o k v, figure o (x.call k) = some v → x.downloading o = v

theorem owner_of_figure {o : Owner} {c : Call} {v : ℤ} (h : figure o c = some v) :
    c.owner = some o := by
  cases c with
  | running r pc =>
    by_cases ho : o = r.owner
    · rw [ho]
      rfl
    · rw [figure_owner pc ho] at h
      cases h
  | _ => cases h

variable [DecidableEq κ] {x x' : State κ} {e : Event κ} {k : κ} {c : Call} {o : Owner} {v : ℤ}

theorem Tied.gives (h : Tied x) (hk : (x.call k).owner = some o)
    (hc : ∀ o', c.owner = some o' → o' = o)
    (hv : ∀ v', Downloading.figure o c = some v' → v' = v) : Tied (goTo (shows x o v) k c) := by
  have howner : ∀ o' k', ((goTo (shows x o v) k c).call k').owner = some o' →
      (x.call k').owner = some o' := by
    intro o' k' ho
    by_cases hkk : k' = k
    · rw [hkk, goTo_call] at ho
      rw [hkk, hk, hc o' ho]
    · rwa [goTo_other _ c hkk] at ho
  refine ⟨fun o' k₁ k₂ h₁ h₂ => h.single o' k₁ k₂ (howner o' k₁ h₁) (howner o' k₂ h₂),
    fun o' k' v' hf => ?_⟩
  have hown := howner o' k' (owner_of_figure hf)
  by_cases ho : o' = o
  · obtain rfl : k' = k := h.single o k' k (ho ▸ hown) hk
    subst ho
    rw [goTo_call] at hf
    rw [hv v' hf]
    exact Function.update_self ..
  · have hkk : k' ≠ k := by
      rintro rfl
      rw [hk] at hown
      exact ho (Option.some.inj hown).symm
    rw [goTo_other _ c hkk] at hf
    exact (Function.update_of_ne ho ..).trans (h.figure o' k' v' hf)

/-- So it is where nothing new is shown. -/
theorem Tied.keeps (h : Tied x) (hk : (x.call k).owner = some o)
    (hc : ∀ o', c.owner = some o' → o' = o)
    (hv : ∀ v', Downloading.figure o c = some v' → Downloading.figure o (x.call k) = some v') :
    Tied (goTo x k c) := by
  have hgives := h.gives hk hc (v := x.downloading o) fun v' hf => (h.figure o k v' (hv v' hf)).symm
  rwa [shows_self] at hgives

theorem Tied.enters {r : Request} (h : Tied x) (hr : ∀ k, (x.call k).owner ≠ some r.owner) :
    Tied (goTo x k (.running r .asking)) := by
  have hothers : ∀ o' k', k' ≠ k →
      ((goTo x k (.running r .asking)).call k').owner = some o' → o' ≠ r.owner := by
    rintro o' k' hkk ho rfl
    rw [goTo_other _ _ hkk] at ho
    exact hr k' ho
  have hnew : ((goTo x k (.running r .asking)).call k).owner = some r.owner := by
    rw [goTo_call]
    rfl
  constructor
  · intro o' k₁ k₂ h₁ h₂
    by_cases hk₁ : k₁ = k
    · by_cases hk₂ : k₂ = k
      · rw [hk₁, hk₂]
      · rw [hk₁, hnew] at h₁
        exact absurd (Option.some.inj h₁).symm (hothers o' k₂ hk₂ h₂)
    · by_cases hk₂ : k₂ = k
      · rw [hk₂, hnew] at h₂
        exact absurd (Option.some.inj h₂).symm (hothers o' k₁ hk₁ h₁)
      · rw [goTo_other _ _ hk₁] at h₁
        rw [goTo_other _ _ hk₂] at h₂
        exact h.single o' k₁ k₂ h₁ h₂
  · intro o' k' v' hf
    by_cases hkk : k' = k
    · rw [hkk, goTo_call] at hf
      cases hf
    · rw [goTo_other _ _ hkk] at hf
      exact h.figure o' k' v' hf

theorem Moves.tied (h : Moves x e x') (hi : Tied x) (ha : Alone x e) : Tied x' := by
  cases h with
  | @called k r hk => exact hi.enters ha
  | @waits _ k r pc c hk hearly hc =>
    refine hi.keeps (o := r.owner) (by rw [hk]; rfl) (fun o' ho => ?_) fun v' hf => ?_
    · cases c with
      | running r' pc' =>
        rw [(hc r' pc' rfl).1] at ho
        exact (Option.some.inj ho).symm
      | _ => cases ho
    · cases c with
      | running r' pc' =>
        rw [figure_early (hc r' pc' rfl).2] at hf
        cases hf
      | _ => cases hf
  | @begins k r hk =>
    refine hi.gives (by rw [hk]; rfl) (fun o' ho => (Option.some.inj ho).symm) fun v' hf => ?_
    simpa [Downloading.figure] using hf.symm
  | @fetches k e r pc shown s hk _ hm =>
    have hk' : (x.call k).owner = some r.owner := by rw [hk]; rfl
    have hc : ∀ o', (Call.running r (after s)).owner = some o' → o' = r.owner :=
      fun o' ho => (Option.some.inj ho).symm
    have hfigure : ∀ v', Downloading.figure r.owner (.running r (after s)) = some v' →
        s.shown.getLast?.getD 0 = v' := by
      intro v' hf
      rw [figure_after, if_pos rfl] at hf
      exact Option.some.inj hf
    split
    · rename_i hsame
      have hkeeps := hi.keeps hk' hc fun v' hf => by
        rw [hk, ← hfigure v' hf, hsame]
        simp [Downloading.figure]
      exact ⟨hkeeps.single, hkeeps.figure⟩
    · have hgives := hi.gives hk' hc fun v' hf => (hfigure v' hf).symm
      exact ⟨hgives.single, hgives.figure⟩
  | @throws k r l shown hk =>
    refine hi.keeps (o := r.owner) (by rw [hk]; rfl) (fun o' ho => (Option.some.inj ho).symm)
      fun v' hf => ?_
    rw [hk]
    exact hf
  | @ends k r shown f hk =>
    refine hi.gives (by rw [hk]; rfl) (fun o' ho => ?_) fun v' hf => ?_
    · cases f <;> cases ho
    · cases f <;> cases hf
  | killed => exact ⟨fun o k k' h => (by cases h), fun o k v h => (by cases h)⟩
  | disk => exact ⟨hi.single, hi.figure⟩

omit [DecidableEq κ] in
theorem Alone.declaring (h : Alone x e) : Declaring x e := by
  cases e <;> trivial

/-- A step of `fetch` shows one figure more, or none. -/
theorem shown_grows {target : Name} {s s' : Download.State} {pc : Download.Pc} {e : Download.Event}
    (h : Download.Moves target s pc e s') :
    s'.shown = s.shown ∨ ∃ p, s'.shown = s.shown ++ [p] := by
  cases h with
  | appended =>
    simp only
    split
    · exact .inl rfl
    · exact .inr ⟨_, rfl⟩
  | _ => exact .inl rfl

theorem last_grows {shown : List ℤ} {p : ℤ} (h : Rising (shown ++ [p])) :
    shown.getLast?.getD 0 ≤ p := by
  cases hl : shown.getLast? with
  | none => exact (h.2 p (by simp)).1
  | some q =>
    have hlt := (List.pairwise_append.mp h.1).2.2 q (List.mem_of_getLast? hl) p (by simp)
    exact hlt.le

/-- The figure of a call does not go back from one step to the next. -/
theorem Moves.forward (h : Moves x e x') (hi : Inv x) (hd : Declaring x e) {v' : ℤ}
    (hv : figure o (x.call k) = some v) (hv' : figure o (x'.call k) = some v') : v ≤ v' := by
  have hsame : ∀ {k' c'} {y : State κ}, y.call = x.call →
      (k' = k → figure o c' = some v' → v ≤ v') →
        figure o ((goTo y k' c').call k) = some v' → v ≤ v' := by
    intro k' c' y hy heq hf
    by_cases hk : k = k'
    · rw [hk, goTo_call] at hf
      exact heq hk.symm hf
    · rw [goTo_other _ _ hk, hy, hv] at hf
      exact (Option.some.inj hf).le
  cases h with
  | @called k' r hk =>
    refine hsame rfl (fun _ hf => ?_) hv'
    cases hf
  | waits hk hearly _ =>
    refine hsame rfl (fun heq _ => ?_) hv'
    rw [← heq, hk, figure_early hearly] at hv
    cases hv
  | begins hk =>
    refine hsame rfl (fun heq _ => ?_) hv'
    rw [← heq, hk] at hv
    cases hv
  | @fetches k' e r pc shown s hk _ hm =>
    refine hsame (by split <;> rfl) (fun heq hf => ?_) hv'
    have hshown := hi.calls k'
    rw [hk] at hshown
    have hs := (hm.figures hshown hd).rising
    rw [← heq, hk] at hv
    rw [figure_after] at hf
    simp only [figure] at hv
    split at hv
    · rename_i ho
      rw [if_pos ho] at hf
      obtain rfl := Option.some.inj hv
      obtain rfl := Option.some.inj hf
      rcases shown_grows hm with hgrow | ⟨p, hgrow⟩
      · rw [hgrow]
      · rw [hgrow] at hs ⊢
        rw [List.getLast?_concat]
        exact last_grows hs
    · cases hv
  | throws hk =>
    refine hsame rfl (fun heq hf => ?_) hv'
    rw [← heq, hk] at hv
    exact (Option.some.inj (hv.symm.trans hf)).le
  | @ends k' r shown f hk =>
    refine hsame rfl (fun _ hf => ?_) hv'
    cases f <;> cases hf
  | killed => cases hv'
  | disk => exact (Option.some.inj (hv.symm.trans hv')).le

/-- As long as no object has two downloads at a time, its figure is the one its download has shown
last, which does not go back; and -1 when it has none. -/
theorem downloading_alone (h : Run step Alone (start κ) x) :
    (∀ o, (∀ k, figure o (x.call k) = none) ∧ x.downloading o = -1 ∨
      ∃ k, figure o (x.call k) = some (x.downloading o) ∧
        ∀ k', k' ≠ k → figure o (x.call k') = none) ∧
    ∀ e x', Alone x e → step x e = some x' → ∀ o k v v', figure o (x.call k) = some v →
      figure o (x'.call k) = some v' → v ≤ v' := by
  have hi := h.invariant (I := fun x => Inv x ∧ Tied x)
    (fun _ _ _ hi ha hst => ⟨(step_moves hst).inv hi.1 ha.declaring, (step_moves hst).tied hi.2 ha⟩)
    ⟨start_inv, fun _ _ _ h => (by cases h), fun _ _ _ h => (by cases h)⟩
  obtain ⟨hi, ht⟩ := hi
  refine ⟨fun o => ?_, fun e x' ha hst o k v v' hv hv' =>
    (step_moves hst).forward hi ha.declaring hv hv'⟩
  by_cases hq : ∀ k, figure o (x.call k) = none
  · exact .inl ⟨hq, hi.idle o hq⟩
  · obtain ⟨k, hk⟩ := not_forall.mp hq
    obtain ⟨v, hv⟩ := Option.ne_none_iff_exists'.mp hk
    refine .inr ⟨k, by rw [hv, ht.figure o k v hv], fun k' hne => ?_⟩
    by_contra hk'
    obtain ⟨v', hv'⟩ := Option.ne_none_iff_exists'.mp hk'
    exact hne (ht.single o k' k (owner_of_figure hv') (owner_of_figure hv))

end Alone

/-- Two requests, and what comes after them: a model is fetched whole, a byte at a time, while
another one is being read. -/
def summary : Request := ⟨.SummaryModel, kt "s"⟩

def whisper : Request := ⟨.Models, kt "m"⟩

def sideBySide : List (Event Bool) :=
  [.available true false, .go true, .space true 3000000000, .go true,
    .available false false, .go false] ++
  [.go, .reply ⟨200, 2, [7, 8]⟩, .go, .cancelled false, .bytes 1, .go, .cancelled false, .bytes 1,
    .go, .cancelled false, .eof, .go, .renamed true].map (.fetch true) ++
  [.go, .reply ⟨200, 3, [1, 2, 3]⟩, .go, .cancelled false, .bytes 1, .go].map (.fetch false) ++
  [.go true]

def called : State Bool :=
  goTo (goTo (start Bool) true (.running summary .asking)) false (.running whisper .asking)

/-- The summary model is there, and a third of the other one. -/
def oneDone : State Bool := (sideBySide.foldlM step called).getD called

theorem sideBySide_alone : ∀ e ∈ sideBySide, ∀ x, Alone x e := by
  simp [sideBySide, Alone, Declaring, Declares]

theorem run_oneDone : Run step Alone (start Bool) oneDone := by
  have hfirst : Alone (start Bool) (.call true summary) := by
    intro k
    cases k <;> decide
  have hsecond : Alone (goTo (start Bool) true (.running summary .asking))
      (.call false whisper) := by
    intro k
    cases k <;> decide
  have hrest : replay step Alone called sideBySide oneDone :=
    replay_of_foldlM sideBySide_alone rfl
  have hrun : replay step Alone (start Bool)
      (.call true summary :: .call false whisper :: sideBySide) oneDone :=
    ⟨hfirst, _, rfl, hsecond, _, rfl, hrest⟩
  exact replay_run hrun

theorem downloading_figures_two :
    (∀ k, figure .SummaryModel (oneDone.call k) = none) ∧
      oneDone.downloading .SummaryModel = -1 := by
  have hquiet : ∀ k, figure .SummaryModel (oneDone.call k) = none := by
    intro k
    cases k <;> decide
  exact ⟨hquiet, (downloading_figures (run_oneDone.mono fun _ _ h => h.declaring)).1 _ hquiet⟩

theorem downloading_alone_two : oneDone.downloading .Models = 33 ∧
    ∃ k, figure .Models (oneDone.call k) = some (oneDone.downloading .Models) := by
  refine ⟨by decide, ?_⟩
  rcases (downloading_alone run_oneDone).1 .Models with ⟨hquiet, -⟩ | ⟨k, hk, -⟩
  · exact absurd (hquiet false) (by decide)
  · exact ⟨k, hk⟩

end ReadersSpeech.Downloading
