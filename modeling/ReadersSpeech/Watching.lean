import Mathlib.Data.List.Basic
import Mathlib.Logic.Function.Basic
import Mathlib.Order.Defs.PartialOrder
import ReadersSpeech.Transition

/-! One cell shared by calls made one after another, each of which writes to it, and by a watcher
that each call starts before it begins and tells to end when it is over. The watchers pass on what
they read, together with the call it comes from, which the cell itself does not tell.
-/

set_option autoImplicit false

namespace ReadersSpeech.Watching
open Transition

variable {σ ε π V : Type}

/-- A kind of call: its steps, the cell it writes to, and what it does to its watcher at the end. -/
structure Writer (σ ε π V : Type) where
  step : σ → ε → Option σ
  /-- Nothing is started where this is `none`. -/
  enter : π → σ → Option σ
  isOver : σ → Bool
  cell : σ → V
  writes : ε → Option V
  /-- What others may do at any time. -/
  outside : ε → Bool
  interrupts : Bool

structure Writer.Lawful (w : Writer σ ε π V) : Prop where
  entered : ∀ p s s', w.enter p s = some s' → w.cell s' = w.cell s
  stepped : ∀ s e s', w.step s e = some s' → w.cell s' = (w.writes e).getD (w.cell s)
  outside : ∀ e, w.outside e = true → w.writes e = none

structure Sample (V : Type) where
  source : ℕ
  value : V
  deriving DecidableEq

inductive Watcher (V : Type) where
  | absent
  | testing
  | reading
  | passing (x : Sample V)
  | sleeping
  | ended

inductive Phase where
  | idle
  | calling
  | finishing
  | leaving
  deriving DecidableEq

/-- Calls are numbered from 1. `source` and `stored` are what no part of the program keeps: the
call that wrote last, and what each call has written. -/
structure System (σ V : Type) where
  writer : σ
  runs : ℕ
  phase : Phase
  done : ℕ → Bool
  interrupted : ℕ → Bool
  watcher : ℕ → Watcher V
  passed : List (ℕ × Sample V)
  source : ℕ
  stored : ℕ → List V

inductive Event (ε π : Type) where
  | run (p : π)
  | write (e : ε)
  | returned
  | setDone
  | leave
  | watch (i : ℕ)

def begin (x : System σ V) (s : σ) : System σ V :=
  { x with
    writer := s
    runs := x.runs + 1
    phase := .calling
    done := Function.update x.done (x.runs + 1) false
    interrupted := Function.update x.interrupted (x.runs + 1) false
    watcher := Function.update x.watcher (x.runs + 1) .testing }

def wrote (x : System σ V) (s : σ) : Option V → System σ V
  | none => { x with writer := s }
  | some v => { x with
    writer := s
    source := x.runs
    stored := Function.update x.stored x.runs (x.stored x.runs ++ [v]) }

/-- The next step of the watcher of call `i`. -/
def watch (w : Writer σ ε π V) (x : System σ V) (i : ℕ) : Option (System σ V) :=
  let goTo (pc : Watcher V) := { x with watcher := Function.update x.watcher i pc }
  match x.watcher i with
  | .absent | .ended => none
  | .testing => some (goTo (if x.done i then .ended else .reading))
  | .reading => some (goTo (.passing ⟨x.source, w.cell x.writer⟩))
  | .passing v => some { goTo .sleeping with passed := x.passed ++ [(i, v)] }
  | .sleeping => some (goTo (if x.interrupted i then .ended else .testing))

def step (w : Writer σ ε π V) (x : System σ V) : Event ε π → Option (System σ V)
  | .run p =>
    if x.phase = .idle then
      some (match w.enter p x.writer with
        | none => x
        | some s => begin x s)
    else none
  | .write e =>
    if w.outside e = true ∨ x.phase = .calling then
      (w.step x.writer e).map fun s => wrote x s (w.writes e)
    else none
  | .returned =>
    if x.phase = .calling ∧ w.isOver x.writer = true then some { x with phase := .finishing }
    else none
  | .setDone =>
    if x.phase = .finishing then
      some { x with phase := .leaving, done := Function.update x.done x.runs true }
    else none
  | .leave =>
    if x.phase = .leaving then
      some { x with
        phase := .idle
        interrupted := Function.update x.interrupted x.runs w.interrupts }
    else none
  | .watch i => watch w x i

/-- A watcher reads when its own call has written, and no later one. -/
def InTime (x : System σ V) : Event ε π → Prop
  | .watch i => x.watcher i = .reading → x.stored i ≠ [] ∧ ∀ j, i < j → x.stored j = []
  | _ => True

/-- Nothing has been run. -/
structure Fresh (x : System σ V) : Prop where
  runs : x.runs = 0
  phase : x.phase = .idle
  stored : ∀ i, x.stored i = []
  watcher : ∀ i, x.watcher i = .absent
  passed : x.passed = []

/-- What is passed on by the watcher of a call is what this call wrote. -/
def Own (x : System σ V) : Prop :=
  ∀ p ∈ x.passed, p.2.source = p.1 ∧ p.2.value ∈ x.stored p.1

/-- What the watcher of call `i` holds, if it holds a value. -/
def Watcher.Holds (stored : List V) (i : ℕ) : Watcher V → Prop
  | .passing v => v.source = i ∧ v.value ∈ stored
  | _ => True

/-- `last`: the call that wrote last is told by what the calls have written. -/
structure Inv (w : Writer σ ε π V) (x : System σ V) : Prop where
  later : ∀ j, x.runs < j → x.stored j = []
  last : ∀ i, x.stored i ≠ [] → (∀ j, i < j → x.stored j = []) →
    x.source = i ∧ w.cell x.writer ∈ x.stored i
  holds : ∀ i, (x.watcher i).Holds (x.stored i) i
  own : Own x

variable {w : Writer σ ε π V} {x x' : System σ V}

theorem Fresh.inv (h : Fresh x) : Inv w x where
  later j _ := h.stored j
  last i hi := absurd (h.stored i) hi
  holds i := by simp [h.watcher i, Watcher.Holds]
  own p hp := by simp [h.passed] at hp

theorem wrote_stored (x : System σ V) (s : σ) (o : Option V) (i : ℕ) {v : V}
    (hv : v ∈ x.stored i) : v ∈ (wrote x s o).stored i := by
  cases o with
  | none => exact hv
  | some u =>
    by_cases hi : i = x.runs
    · subst hi
      simp [wrote, hv]
    · simpa [wrote, Function.update_of_ne hi] using hv

theorem Inv.begin (h : Inv w x) {s : σ} (hs : w.cell s = w.cell x.writer) :
    Inv w (begin x s) where
  later j hj := h.later j (Nat.lt_of_succ_lt hj)
  last i hi hj := by
    obtain ⟨hsrc, hv⟩ := h.last i hi hj
    exact ⟨hsrc, hs ▸ hv⟩
  holds := (Function.forall_update_iff x.watcher fun j pc => pc.Holds (x.stored j) j).mpr
    ⟨trivial, fun j _ => h.holds j⟩
  own := h.own

theorem Inv.wrote (h : Inv w x) {s : σ} {o : Option V}
    (hs : w.cell s = o.getD (w.cell x.writer)) : Inv w (wrote x s o) where
  later j hj := by
    cases o with
    | none => exact h.later j hj
    | some v =>
      have hne : j ≠ x.runs := Nat.ne_of_gt hj
      simpa [Watching.wrote, Function.update_of_ne hne] using h.later j hj
  last i hi hj := by
    cases o with
    | none =>
      obtain ⟨hsrc, hv⟩ := h.last i hi hj
      exact ⟨hsrc, by simpa [Watching.wrote, hs] using hv⟩
    | some v =>
      -- Only the call that has just written has written nothing after it.
      rcases Nat.lt_trichotomy i x.runs with hlt | rfl | hgt
      · simpa [Watching.wrote] using hj x.runs hlt
      · exact ⟨rfl, by simp [Watching.wrote, hs]⟩
      · exact absurd (h.later i hgt)
          (by simpa [Watching.wrote, Function.update_of_ne (Nat.ne_of_gt hgt)] using hi)
  holds i := by
    have hi := h.holds i
    have hw : (Watching.wrote x s o).watcher i = x.watcher i := by cases o <;> rfl
    rw [hw]
    cases hpc : x.watcher i with
    | passing v =>
      rw [hpc] at hi
      exact ⟨hi.1, wrote_stored x s o i hi.2⟩
    | _ => trivial
  own p hp := by
    obtain ⟨hsrc, hv⟩ := h.own p (by cases o <;> exact hp)
    exact ⟨hsrc, wrote_stored x s o p.1 hv⟩

theorem Inv.goTo (h : Inv w x) (i : ℕ) (pc : Watcher V) (hpc : pc.Holds (x.stored i) i) :
    Inv w { x with watcher := Function.update x.watcher i pc } where
  later := h.later
  last := h.last
  holds := (Function.forall_update_iff x.watcher fun j pc => pc.Holds (x.stored j) j).mpr
    ⟨hpc, fun j _ => h.holds j⟩
  own := h.own

theorem Inv.watch (h : Inv w x) {i : ℕ} (ht : InTime x (.watch i : Event ε π))
    (hw : watch w x i = some x') : Inv w x' := by
  have hi := h.holds i
  unfold Watching.watch at hw
  cases hpc : x.watcher i with
  | absent | ended => simp [hpc] at hw
  | testing | sleeping =>
    simp only [hpc, Option.some.injEq] at hw
    subst hw
    exact h.goTo i _ (by split <;> trivial)
  | reading =>
    simp only [hpc, Option.some.injEq] at hw
    subst hw
    obtain ⟨hown, hlater⟩ := ht hpc
    exact h.goTo i _ (h.last i hown hlater)
  | passing v =>
    simp only [hpc, Option.some.injEq] at hw hi
    subst hw
    have hs := h.goTo i .sleeping trivial
    refine ⟨hs.later, hs.last, hs.holds, fun p hp => ?_⟩
    rcases List.mem_append.mp hp with hp | hp
    · exact h.own p hp
    · obtain rfl := List.mem_singleton.mp hp
      exact hi

theorem Inv.step (hl : w.Lawful) (h : Inv w x) {e : Event ε π} (ht : InTime x e)
    (hs : step w x e = some x') : Inv w x' := by
  cases e with
  | run p =>
    simp only [Watching.step] at hs
    split at hs
    · obtain rfl := Option.some.inj hs
      cases he : w.enter p x.writer with
      | none => exact h
      | some s => exact h.begin (hl.entered p _ s he)
    · simp at hs
  | write e =>
    simp only [Watching.step] at hs
    split at hs
    · obtain ⟨s, he, rfl⟩ := Option.map_eq_some_iff.mp hs
      exact h.wrote (hl.stepped _ e s he)
    · simp at hs
  | returned | setDone | leave =>
    simp only [Watching.step] at hs
    split at hs
    · obtain rfl := Option.some.inj hs
      exact ⟨h.later, h.last, h.holds, h.own⟩
    · simp at hs
  | watch i => exact h.watch ht hs

/-- Where every read is in time, each watcher passes on what its own call wrote. -/
theorem watched_own (hl : w.Lawful) (hx : Fresh x) (h : Run (step w) InTime x x') : Own x' :=
  (h.invariant (fun _ _ _ hi ht hs => Inv.step hl hi ht hs) hx.inv).own

section Order

/-- What the watcher of call `i` has passed on. -/
def seen (x : System σ V) (i : ℕ) : List V :=
  x.passed.filterMap fun p => if p.1 = i then some p.2.value else none

def Watcher.held : Watcher V → List V
  | .passing v => [v.value]
  | _ => []

/-- What the watcher of call `i` has read. -/
def taken (x : System σ V) (i : ℕ) : List V := seen x i ++ (x.watcher i).held

def Rising [Preorder V] (x : System σ V) : Prop := ∀ i, (x.stored i).Pairwise (· ≤ ·)

/-- What a watcher has read rises, up to the last its call has written. -/
structure Ordered [Preorder V] (w : Writer σ ε π V) (x : System σ V) : Prop where
  latest : ∀ i, x.stored i ≠ [] → (∀ j, i < j → x.stored j = []) →
    (x.stored i).getLast? = some (w.cell x.writer)
  below : ∀ i, ∀ v ∈ taken x i, ∃ u, (x.stored i).getLast? = some u ∧ v ≤ u
  rising : ∀ i, (taken x i).Pairwise (· ≤ ·)

@[simp] theorem seen_concat (x : System σ V) (i j : ℕ) (v : Sample V) :
    seen { x with passed := x.passed ++ [(i, v)] } j =
      seen x j ++ if i = j then [v.value] else [] := by
  simp only [seen, List.filterMap_append]
  split <;> rename_i h <;> simp [h]

theorem stored_grows {e : Event ε π} (hs : step w x e = some x') (i : ℕ) :
    x.stored i <+: x'.stored i := by
  cases e with
  | run p =>
    simp only [step] at hs
    split at hs
    · obtain rfl := Option.some.inj hs
      cases w.enter p x.writer <;> exact List.prefix_rfl
    · simp at hs
  | write e =>
    simp only [step] at hs
    split at hs
    · obtain ⟨s, -, rfl⟩ := Option.map_eq_some_iff.mp hs
      cases w.writes e with
      | none => exact List.prefix_rfl
      | some v =>
        by_cases hi : i = x.runs
        · subst hi
          simp [wrote]
        · simp [wrote, Function.update_of_ne hi]
    · simp at hs
  | returned | setDone | leave =>
    simp only [step] at hs
    split at hs
    · obtain rfl := Option.some.inj hs
      exact List.prefix_rfl
    · simp at hs
  | watch j =>
    simp only [step, watch] at hs
    split at hs <;> first | (obtain rfl := Option.some.inj hs; exact List.prefix_rfl) | simp at hs

theorem taken_goTo (x : System σ V) (i j : ℕ) {pc : Watcher V} (hpc : pc.held = []) :
    (taken { x with watcher := Function.update x.watcher i pc } j).Sublist (taken x j) := by
  by_cases hj : j = i
  · subst hj
    simp [taken, seen, hpc]
  · simp [taken, seen, Function.update_of_ne hj]

variable [Preorder V]

theorem Rising.before {e : Event ε π} (h : Rising x') (hs : step w x e = some x') : Rising x :=
  fun i => (h i).sublist (stored_grows hs i).sublist

theorem Fresh.ordered (h : Fresh x) : Ordered w x where
  latest i hi := absurd (h.stored i) hi
  below i := by simp [taken, seen, h.passed, h.watcher i, Watcher.held]
  rising i := by simp [taken, seen, h.passed, h.watcher i, Watcher.held]

/-- Nothing is written, and nothing read. -/
theorem Ordered.thin (h : Ordered w x) (hst : x'.stored = x.stored)
    (hc : w.cell x'.writer = w.cell x.writer) (ht : ∀ i, (taken x' i).Sublist (taken x i)) :
    Ordered w x' where
  latest := by
    rw [hst, hc]
    exact h.latest
  below i v hv := by
    rw [hst]
    exact h.below i v ((ht i).subset hv)
  rising i := (h.rising i).sublist (ht i)

theorem Ordered.begin (h : Ordered w x) {s : σ} (hs : w.cell s = w.cell x.writer) :
    Ordered w (begin x s) :=
  h.thin rfl hs fun j => taken_goTo x (x.runs + 1) j rfl

theorem Ordered.wrote (h : Ordered w x) (hi : Inv w x) {s : σ} {o : Option V}
    (hs : w.cell s = o.getD (w.cell x.writer)) (hr : Rising (wrote x s o)) :
    Ordered w (wrote x s o) := by
  cases o with
  | none => exact h.thin rfl hs fun _ => List.Sublist.refl _
  | some v =>
    have hother : ∀ {i}, i ≠ x.runs → (Watching.wrote x s (some v)).stored i = x.stored i :=
      fun hne => Function.update_of_ne hne _ _
    have hown : (Watching.wrote x s (some v)).stored x.runs = x.stored x.runs ++ [v] :=
      Function.update_self _ _ _
    refine ⟨fun i hne hlast => ?_, fun i u hu => ?_, h.rising⟩
    · rcases Nat.lt_trichotomy i x.runs with hlt | rfl | hgt
      · exact absurd (hlast x.runs hlt) (by rw [hown]; simp)
      · rw [hown, List.getLast?_concat]
        exact congrArg some hs.symm
      · exact absurd (hi.later i hgt) (by rwa [hother (Nat.ne_of_gt hgt)] at hne)
    · obtain ⟨z, hz, huz⟩ := h.below i u hu
      by_cases hrun : i = x.runs
      · subst hrun
        -- What was last is not above what has just been written.
        have hle := hr x.runs
        rw [hown, List.pairwise_append] at hle
        refine ⟨v, by rw [hown, List.getLast?_concat], le_trans huz ?_⟩
        exact hle.2.2 z (List.mem_of_getLast? hz) v (List.mem_singleton.mpr rfl)
      · exact ⟨z, by rwa [hother hrun], huz⟩

theorem Ordered.read (h : Ordered w x) {i : ℕ} (hpc : x.watcher i = .reading)
    (hown : x.stored i ≠ []) (hlater : ∀ j, i < j → x.stored j = []) :
    Ordered w { x with
      watcher := Function.update x.watcher i (.passing ⟨x.source, w.cell x.writer⟩) } := by
  have hlast := h.latest i hown hlater
  have hself : taken { x with
      watcher := Function.update x.watcher i (.passing ⟨x.source, w.cell x.writer⟩) } i =
      taken x i ++ [w.cell x.writer] := by
    simp [taken, seen, Watcher.held, hpc]
  have hother : ∀ {j}, j ≠ i → taken { x with
      watcher := Function.update x.watcher i (.passing ⟨x.source, w.cell x.writer⟩) } j =
      taken x j := fun hj => by simp [taken, seen, Function.update_of_ne hj]
  have hle : ∀ v ∈ taken x i, v ≤ w.cell x.writer := by
    intro v hv
    obtain ⟨u, hu, hvu⟩ := h.below i v hv
    obtain rfl : w.cell x.writer = u := Option.some.inj (hlast.symm.trans hu)
    exact hvu
  refine ⟨h.latest, fun j v hv => ?_, fun j => ?_⟩
  · by_cases hj : j = i
    · subst hj
      rw [hself, List.mem_append, List.mem_singleton] at hv
      exact ⟨_, hlast, hv.elim (hle v) le_of_eq⟩
    · rw [hother hj] at hv
      exact h.below j v hv
  · by_cases hj : j = i
    · subst hj
      rw [hself, List.pairwise_append]
      exact ⟨h.rising j, List.pairwise_singleton _ _, by simpa using hle⟩
    · rw [hother hj]
      exact h.rising j

theorem Ordered.watch (h : Ordered w x) {i : ℕ} (ht : InTime x (.watch i : Event ε π))
    (hw : watch w x i = some x') : Ordered w x' := by
  unfold Watching.watch at hw
  cases hpc : x.watcher i with
  | absent | ended => simp [hpc] at hw
  | testing | sleeping =>
    simp only [hpc, Option.some.injEq] at hw
    subst hw
    exact h.thin rfl rfl fun j => taken_goTo x i j (by split <;> rfl)
  | reading =>
    simp only [hpc, Option.some.injEq] at hw
    subst hw
    obtain ⟨hown, hlater⟩ := ht hpc
    exact h.read hpc hown hlater
  | passing v =>
    simp only [hpc, Option.some.injEq] at hw
    subst hw
    refine h.thin rfl rfl fun j => ?_
    by_cases hj : j = i
    · subst hj
      simp [taken, seen, Watcher.held, hpc]
    · simp [taken, seen, Function.update_of_ne hj, Ne.symm hj]

theorem Ordered.step (hl : w.Lawful) (h : Ordered w x) (hi : Inv w x) {e : Event ε π}
    (ht : InTime x e) (hs : step w x e = some x') (hr : Rising x') : Ordered w x' := by
  cases e with
  | run p =>
    simp only [Watching.step] at hs
    split at hs
    · obtain rfl := Option.some.inj hs
      cases he : w.enter p x.writer with
      | none => exact h
      | some s => exact h.begin (hl.entered p _ s he)
    · simp at hs
  | write e =>
    simp only [Watching.step] at hs
    split at hs
    · obtain ⟨s, he, rfl⟩ := Option.map_eq_some_iff.mp hs
      exact h.wrote hi (hl.stepped _ e s he) hr
    · simp at hs
  | returned | setDone | leave =>
    simp only [Watching.step] at hs
    split at hs
    · obtain rfl := Option.some.inj hs
      exact ⟨h.latest, h.below, h.rising⟩
    · simp at hs
  | watch i => exact h.watch ht hs

/-- Where what each call writes rises, so does what its watcher passes on, read in time. -/
theorem watched_rising (hl : w.Lawful) (hx : Fresh x) (h : Run (step w) InTime x x')
    (hr : Rising x') (i : ℕ) : (seen x' i).Pairwise (· ≤ ·) := by
  have hI : Inv w x' ∧ (Rising x' → Ordered w x') := by
    refine h.invariant (I := fun x => Inv w x ∧ (Rising x → Ordered w x)) ?_
      ⟨hx.inv, fun _ => hx.ordered⟩
    intro y e y' hy ht hs
    exact ⟨hy.1.step hl ht hs, fun hr' => (hy.2 (hr'.before hs)).step hl hy.1 ht hs hr'⟩
  exact ((hI.2 hr).rising i).sublist (List.sublist_append_left _ _)

end Order

theorem Own.seen (h : Own x) {i : ℕ} : ∀ v ∈ seen x i, v ∈ x.stored i := by
  intro v hv
  obtain ⟨p, hp, hpv⟩ := List.mem_filterMap.mp hv
  split at hpv
  · rename_i hpi
    obtain rfl := Option.some.inj hpv
    exact hpi ▸ (h p hp).2
  · simp at hpv

section Ending

/-- How many more steps a watcher takes once its call is over. -/
def Watcher.left : Watcher V → ℕ
  | .absent | .ended => 0
  | .testing => 1
  | .sleeping => 2
  | .passing _ => 3
  | .reading => 4

/-- How many more values it passes on. -/
def Watcher.due : Watcher V → ℕ
  | .reading | .passing _ => 1
  | _ => 0

def Event.isWatch (i : ℕ) : Event ε π → Bool
  | .watch j => i = j
  | _ => false

/-- A step after call `i` was told to be over. -/
theorem step_over {i : ℕ} {e : Event ε π} (hi : i ≤ x.runs) (hd : x.done i = true)
    (hs : step w x e = some x') :
    (i ≤ x'.runs ∧ x'.done i = true) ∧
      (if e.isWatch i then 1 else 0) + (x'.watcher i).left ≤ (x.watcher i).left ∧
      (seen x' i).length + (x'.watcher i).due ≤ (seen x i).length + (x.watcher i).due := by
  cases e with
  | run p =>
    simp only [step] at hs
    split at hs
    · obtain rfl := Option.some.inj hs
      cases w.enter p x.writer with
      | none => simp [hi, hd, Event.isWatch]
      | some s =>
        have hne : i ≠ x.runs + 1 := by omega
        simp [begin, seen, Function.update_of_ne hne, hd, Event.isWatch, Nat.le_succ_of_le hi]
    · simp at hs
  | write e =>
    simp only [step] at hs
    split at hs
    · obtain ⟨s, -, rfl⟩ := Option.map_eq_some_iff.mp hs
      cases w.writes e <;> simp [wrote, seen, hi, hd, Event.isWatch]
    · simp at hs
  | returned | leave =>
    simp only [step] at hs
    split at hs
    · obtain rfl := Option.some.inj hs
      simp [seen, hi, hd, Event.isWatch]
    · simp at hs
  | setDone =>
    simp only [step] at hs
    split at hs
    · obtain rfl := Option.some.inj hs
      simp [seen, hi, hd, Event.isWatch, Function.update_apply]
    · simp at hs
  | watch j =>
    by_cases hj : j = i
    · subst hj
      simp only [step, watch] at hs
      cases hpc : x.watcher j with
      | absent | ended => simp [hpc] at hs
      | testing =>
        simp only [hpc, hd, if_true, Option.some.injEq] at hs
        subst hs
        simp [seen, hi, hd, Event.isWatch, Watcher.left, Watcher.due]
      | reading =>
        simp only [hpc, Option.some.injEq] at hs
        subst hs
        simp [seen, hi, hd, Event.isWatch, Watcher.left, Watcher.due]
      | passing v =>
        simp only [hpc, Option.some.injEq] at hs
        subst hs
        simp [seen, hi, hd, Event.isWatch, Watcher.left, Watcher.due]
      | sleeping =>
        simp only [hpc, Option.some.injEq] at hs
        subst hs
        split <;> simp [seen, hi, hd, Event.isWatch, Watcher.left, Watcher.due]
    · have hwatch : Event.isWatch i (.watch j : Event ε π) = false := by
        simp [Event.isWatch, Ne.symm hj]
      simp only [step, watch] at hs
      split at hs <;> first
        | (obtain rfl := Option.some.inj hs
           simp [seen, hi, hd, hwatch, Function.update_of_ne (Ne.symm hj), hj])
        | simp at hs

theorem Watcher.left_le (pc : Watcher V) : pc.left ≤ 4 := by cases pc <;> simp [left]

theorem Watcher.due_le (pc : Watcher V) : pc.due ≤ 1 := by cases pc <;> simp [due]

/-- Once its call is over, a watcher ends after four more steps at most, and passes on one more
value at most. -/
theorem watched_ends {allowed : System σ V → Event ε π → Prop} {i : ℕ} {es : List (Event ε π)}
    (hi : i ≤ x.runs) (hd : x.done i = true) (h : replay (step w) allowed x es x') :
    es.countP (Event.isWatch i) ≤ 4 ∧ (seen x' i).length ≤ (seen x i).length + 1 := by
  have hleft : es.countP (Event.isWatch i) + (x'.watcher i).left ≤ (x.watcher i).left ∧
      (seen x' i).length + (x'.watcher i).due ≤ (seen x i).length + (x.watcher i).due := by
    induction es generalizing x with
    | nil =>
      obtain rfl : x = x' := h
      simp
    | cons e es ih =>
      obtain ⟨-, y, hs, hr⟩ := h
      obtain ⟨⟨hi', hd'⟩, hsteps, hvalues⟩ := step_over hi hd hs
      obtain ⟨hrest, hmore⟩ := ih hi' hd' hr
      rw [List.countP_cons]
      exact ⟨by omega, by omega⟩
  have hfour := (x.watcher i).left_le
  have hone := (x.watcher i).due_le
  exact ⟨by omega, by omega⟩

end Ending

end ReadersSpeech.Watching
