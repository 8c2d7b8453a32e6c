import Mathlib.Tactic.NormNum
import ReadersSpeech.ModelFiles

/-! What the calls of `holder` take from the cache, over whole runs: the answers of the siblings
expire and are forgotten, unless one is stored after the `refresh` that should have forgotten it,
or the clock has been set back since.
-/

set_option autoImplicit false

namespace ReadersSpeech.ModelFiles
open Remembering Transition

variable {ι : Type} [DecidableEq ι] {packageName : Str} {x x' : State ι}

/-- Nothing a call holds on to is from later than now. -/
def Pc.Past (time : ℚ) (refreshes : ℕ) : Pc → Prop
  | .idle => True
  | .readingOwn q | .readingClock q => q.started ≤ time ∧ q.refreshes ≤ refreshes
  | .looking q now => q.started ≤ now.time ∧ now.time ≤ time ∧ q.refreshes ≤ refreshes
  | .asking _ now _ => now.time ≤ time
  | .storing _ now who => now.time ≤ who.time

theorem Pc.Past.mono {time time' : ℚ} {refreshes refreshes' : ℕ} {pc : Pc}
    (h : pc.Past time refreshes) (ht : time ≤ time') (hr : refreshes ≤ refreshes') :
    pc.Past time' refreshes' := by
  cases pc with
  | idle => trivial
  | readingOwn | readingClock => exact ⟨h.1.trans ht, h.2.trans hr⟩
  | looking => exact ⟨h.1, h.2.1.trans ht, h.2.2.trans hr⟩
  | asking => exact le_trans h ht
  | storing => exact h

structure Inv (x : State ι) : Prop where
  cache : x.cache.Sound x.refreshes
  calls : ∀ i, (x.calls i).Past x.time x.refreshes
  returned : Forgotten x

omit [DecidableEq ι] in
theorem Fresh.inv (h : Fresh x) : Inv x where
  cache := h.cache ▸ Memory.sound_clear _
  calls i := by simp [h.calls i, Pc.Past]
  returned r hr := by simp [h.returned] at hr

theorem Inv.goTo (h : Inv x) (i : ι) (pc : Pc) (hpc : pc.Past x.time x.refreshes) :
    Inv (goTo x i pc) where
  cache := h.cache
  calls := (Function.forall_update_iff x.calls fun _ pc => pc.Past x.time x.refreshes).mpr
    ⟨hpc, fun j _ => h.calls j⟩
  returned := h.returned

theorem Inv.returns (h : Inv x) (i : ι) (r : Return)
    (hr : ∀ a ∈ r.cached, r.query.refreshes ≤ a.epoch ∧ r.query.started - a.time ≤ 5000) :
    Inv (returns x i r) where
  cache := h.cache
  calls := (h.goTo i .idle trivial).calls
  returned r' hr' := by
    rcases List.mem_append.mp hr' with hr' | hr'
    · exact h.returned r' hr'
    · obtain rfl := List.mem_singleton.mp hr'
      exact hr

theorem Inv.ask (h : Inv x) (i : ι) (q : Query) {now : Reading ℚ} (hn : now.time ≤ x.time)
    (rest : List Str) : Inv (ask packageName x i q now rest) := by
  cases rest with
  | nil => exact h.goTo i (.storing q now _) hn
  | cons pkg rest =>
    simp only [ModelFiles.ask]
    split
    · exact h.goTo i (.storing q now _) hn
    · exact h.goTo i (.asking q now rest) hn

theorem Inv.go (h : Inv x) {i : ι} (hk : Kept x (.go i)) (hs : go packageName x i = some x') :
    Inv x' := by
  have hi := h.calls i
  unfold ModelFiles.go at hs
  cases hpc : x.calls i with
  | idle | readingClock q => simp [hpc] at hs
  | readingOwn q =>
    simp only [hpc, Option.some.injEq, Pc.Past] at hs hi
    subst hs
    split
    · exact h.returns i _ nofun
    · exact h.goTo i (.readingClock q) hi
  | looking q now =>
    simp only [hpc, Option.some.injEq, Pc.Past, Kept] at hs hi hk
    obtain ⟨hstart, hnow, href⟩ := hi
    subst hs
    cases hl : x.cache.look CACHE_MS q.name now with
    | none => exact h.goTo i (.asking q now SIBLINGS) hnow
    | some a =>
      obtain ⟨he, hage⟩ := h.cache.look hk hl
      refine h.returns i ⟨q, a.value, some a⟩ fun b hb => ?_
      obtain rfl := Option.some.inj hb
      exact ⟨he ▸ href, (sub_le_sub_right hstart a.time).trans hage⟩
  | asking q now rest =>
    simp only [hpc, Option.some.injEq, Pc.Past] at hs hi
    subst hs
    exact h.ask i q hi rest
  | storing q now who =>
    simp only [hpc, Option.some.injEq, Pc.Past, Kept] at hs hi hk
    subst hs
    have hr := h.returns i ⟨q, who.value, none⟩ nofun
    exact ⟨hr.cache.put q.name hi hk, hr.calls, hr.returned⟩

theorem Inv.step (h : Inv x) {e : Event ι} (hk : Kept x e) (hs : step packageName x e = some x') :
    Inv x' := by
  cases e with
  | call i name minBytes =>
    simp only [ModelFiles.step, Option.ite_none_right_eq_some, Option.some.injEq] at hs
    obtain ⟨-, rfl⟩ := hs
    exact h.goTo i (.readingOwn _) ⟨le_refl _, le_refl _⟩
  | reads i shown =>
    have hi := h.calls i
    simp only [ModelFiles.step] at hs
    split at hs
    · rename_i q hpc
      obtain rfl := Option.some.inj hs
      rw [hpc] at hi
      exact h.goTo i (.looking q _) ⟨hi.1, le_refl _, hi.2⟩
    · simp at hs
  | go i => exact h.go hk hs
  | refresh =>
    obtain rfl := Option.some.inj hs
    exact ⟨Memory.sound_clear _, fun i => (h.calls i).mono (le_refl _) (Nat.le_succ _), h.returned⟩
  | holds own shared =>
    obtain rfl := Option.some.inj hs
    exact ⟨h.cache, h.calls, h.returned⟩
  | passes t =>
    simp only [ModelFiles.step, Option.ite_none_right_eq_some, Option.some.injEq] at hs
    obtain ⟨ht, rfl⟩ := hs
    exact ⟨h.cache, fun i => (h.calls i).mono ht (le_refl _), h.returned⟩

theorem answers_forgotten (packageName : Str) (x x' : State ι) (hx : Fresh x)
    (h : Run (step packageName) Kept x x') : Forgotten x' :=
  (h.invariant (fun _ _ _ hi hk hs => Inv.step hi hk hs) hx.inv).returned

/-- We have no file, and one of the others hands over the one it has. -/
def oneHolds : State Bool :=
  ⟨fun _ => none, fun pkg _ => if pkg = kt "com.freedomfighter.readersaudio" then some 7 else none,
    Memory.clear, fun _ => .idle, 0, 0, []⟩

def ours : Str := kt "com.freedomfighter.readersrecorder"

theorem fresh_oneHolds : Fresh oneHolds := ⟨rfl, fun _ => rfl, rfl⟩

/-- Asked again three seconds later, the answer comes from the cache. -/
theorem answers_forgotten_recent : ∃ x, Run (step ours) Kept oneHolds x ∧
    x.returned.map Return.cached =
      [none, some ⟨some (kt "com.freedomfighter.readersaudio"), 0, 0⟩] ∧ Forgotten x := by
  have hr : replay (step ours) Kept oneHolds
      [.call false (kt "m") 1, .go false, .reads false 1000, .go false, .go false, .go false,
        .passes 3000, .call true (kt "m") 1, .go true, .reads true 4000, .go true] _ :=
    ⟨trivial, _, rfl, trivial, _, rfl, trivial, _, rfl, nofun, _, rfl, trivial, _, rfl, rfl, _, rfl,
      trivial, _, rfl, trivial, _, rfl, trivial, _, rfl, trivial, _, rfl,
      Memory.shows_recent rfl (show (3000 : ℚ) - 0 ≤ 5000 by norm_num), _, rfl, rfl⟩
  exact ⟨_, replay_run hr, rfl, answers_forgotten ours _ _ fresh_oneHolds (replay_run hr)⟩

/-- Obtained before a `refresh`, stored after it. -/
def storedLate : List (Event Bool) :=
  [.call false (kt "m") 1, .go false, .reads false 1000, .go false, .go false,
    .holds (fun _ => none) (fun _ _ => none), .refresh, .go false,
    .call true (kt "m") 1, .go true, .reads true 1000, .go true]

/-- The clock is set back by an hour. -/
def setBack : List (Event Bool) :=
  [.call false (kt "m") 1, .go false, .reads false 3601000, .go false, .go false, .go false,
    .holds (fun _ => none) (fun _ _ => none), .passes 10000,
    .call true (kt "m") 1, .go true, .reads true 11000, .go true]

/-- In both, the second call is given the answer the first one obtained, and nobody holds the file
any more. -/
theorem answers_kept :
    (∃ x, Run (step ours) (fun _ _ => True) oneHolds x ∧ x.refreshes = 1 ∧
      x.returned.getLast? = some ⟨⟨kt "m", 1, 0, 1⟩,
        some (kt "com.freedomfighter.readersaudio"),
        some ⟨some (kt "com.freedomfighter.readersaudio"), 0, 0⟩⟩ ∧ ¬ Forgotten x) ∧
    (∃ x, Run (step ours) (fun _ _ => True) oneHolds x ∧ x.refreshes = 0 ∧
      x.returned.getLast? = some ⟨⟨kt "m", 1, 10000, 0⟩,
        some (kt "com.freedomfighter.readersaudio"),
        some ⟨some (kt "com.freedomfighter.readersaudio"), 0, 0⟩⟩ ∧ ¬ Forgotten x) := by
  have hx : Steps (step ours) oneHolds storedLate _ := steps_of_foldlM rfl
  have hy : Steps (step ours) oneHolds setBack _ := steps_of_foldlM rfl
  refine ⟨⟨_, replay_run hx, rfl, rfl, fun h => ?_⟩, ⟨_, replay_run hy, rfl, rfl, fun h => ?_⟩⟩
  · exact Nat.not_succ_le_zero 0 (h _ (List.mem_of_getLast? rfl) _ rfl).1
  · exact (show ¬ (10000 : ℚ) - 0 ≤ 5000 by norm_num) (h _ (List.mem_of_getLast? rfl) _ rfl).2

end ReadersSpeech.ModelFiles
