import Mathlib.Data.List.Basic
import Mathlib.Data.Nat.Find

/-! Programs that ask one question after another and look before each whether they were told to
stop. What one asks and returns when it is let run settles what it does when it is not.
-/

set_option autoImplicit false

namespace ReadersSpeech.Guarded

variable {σ π α β γ ξ : Type}

inductive Event (π α : Type) where
  | tested
  | asked (p : π)
  | answered (a : α)
  | stopped
  deriving DecidableEq, Repr

def Event.isAsked : Event π α → Bool
  | .asked _ => true
  | _ => false

def Event.prompt : Event π α → Option π
  | .asked p => some p
  | _ => none

/-- The questions asked, in order. -/
def prompts (events : List (Event π α)) : List π := events.filterMap Event.prompt

/-- What a run has done, and the program's own variables. -/
structure World (σ π α : Type) where
  events : List (Event π α)
  calls : Nat
  vars : σ

/-- Whether it was told to stop is asked with the number of events so far; a run that was ends
with `none`. -/
def Task (σ π α β : Type) : Type := (Nat → Bool) → World σ π α → Option β × World σ π α

instance : Monad (Task σ π α) where
  pure b := fun _ w => (some b, w)
  bind c f := fun cancelled w =>
    match c cancelled w with
    | (none, w) => (none, w)
    | (some b, w) => f b cancelled w

def update (f : σ → σ) : Task σ π α Unit := fun _ w => (some (), { w with vars := f w.vars })

/-- A test, and a question: the `k`-th one is answered by `oracle k`, and `during k` happens to
the variables meanwhile. -/
def ask (oracle : Nat → α) (during : Nat → σ → σ) (p : π) : Task σ π α α := fun cancelled w =>
  if cancelled w.events.length then (none, { w with events := w.events ++ [.tested, .stopped] })
  else (some (oracle w.calls), {
    events := w.events ++ [.tested, .asked p, .answered (oracle w.calls)]
    calls := w.calls + 1
    vars := during w.calls w.vars })

/-- The events of questions asked one after another, the first of them the `k`-th of all. -/
def exchanges (oracle : Nat → α) : Nat → List π → List (Event π α)
  | _, [] => []
  | k, p :: ps => .tested :: .asked p :: .answered (oracle k) :: exchanges oracle (k + 1) ps

variable {oracle : Nat → α}

@[simp] theorem length_exchanges (k : Nat) (ps : List π) :
    (exchanges oracle k ps).length = 3 * ps.length := by
  induction ps generalizing k with
  | nil => rfl
  | cons p ps ih => simp only [exchanges, List.length_cons, ih]; omega

theorem exchanges_append (k : Nat) (ps qs : List π) : exchanges oracle k (ps ++ qs) =
    exchanges oracle k ps ++ exchanges oracle (k + ps.length) qs := by
  induction ps generalizing k with
  | nil => rfl
  | cons p ps ih =>
    simp only [List.cons_append, exchanges, ih, List.length_cons, Nat.add_assoc, Nat.add_comm 1]

@[simp] theorem prompts_exchanges (k : Nat) (ps : List π) :
    prompts (exchanges oracle k ps) = ps := by
  induction ps generalizing k with
  | nil => rfl
  | cons p ps ih => exact congrArg (p :: ·) (ih (k + 1))

structure Goes (oracle : Nat → α) (w : World σ π α) (ps : List π) (w' : World σ π α) : Prop where
  events : w'.events = w.events ++ exchanges oracle w.calls ps
  calls : w'.calls = w.calls + ps.length

theorem Goes.trans {w w' w'' : World σ π α} {ps qs : List π} (h : Goes oracle w ps w')
    (h' : Goes oracle w' qs w'') : Goes oracle w (ps ++ qs) w'' := by
  refine ⟨?_, ?_⟩
  · rw [h'.events, h.events, h.calls, exchanges_append, List.append_assoc]
  · rw [h'.calls, h.calls, List.length_append, Nat.add_assoc]

/-- From `w` on, the task asks `ps` and returns `r`; told to stop, it does so at its next test. -/
structure Follows (oracle : Nat → α) (c : Task σ π α β) (w : World σ π α) (ps : List π) (r : β) :
    Prop where
  completes : ∀ cancelled, (∀ j < ps.length, cancelled (w.events.length + 3 * j) = false) →
    ∃ w', c cancelled w = (some r, w') ∧ Goes oracle w ps w'
  stops : ∀ cancelled, ∀ j < ps.length,
    (∀ i < j, cancelled (w.events.length + 3 * i) = false) →
    cancelled (w.events.length + 3 * j) = true →
    ∃ w', c cancelled w = (none, w') ∧
      w'.events = w.events ++ exchanges oracle w.calls (ps.take j) ++ [.tested, .stopped]

theorem follows_pure (w : World σ π α) (r : β) :
    Follows oracle (pure r : Task σ π α β) w [] r where
  completes _ _ := ⟨w, rfl, by simp [exchanges], rfl⟩
  stops _ j h := absurd h (Nat.not_lt_zero j)

theorem follows_update (w : World σ π α) (f : σ → σ) :
    Follows oracle (update f : Task σ π α Unit) w [] () where
  completes _ _ := ⟨_, rfl, by simp [exchanges], rfl⟩
  stops _ j h := absurd h (Nat.not_lt_zero j)

theorem follows_ask (w : World σ π α) (during : Nat → σ → σ) (p : π) :
    Follows oracle (ask oracle during p) w [p] (oracle w.calls) where
  completes cancelled h := by
    have hc : cancelled w.events.length = false := h 0 (by simp)
    refine ⟨⟨w.events ++ [.tested, .asked p, .answered (oracle w.calls)], w.calls + 1,
      during w.calls w.vars⟩, ?_, by simp [exchanges], rfl⟩
    simp only [ask, hc, Bool.false_eq_true, if_false]
  stops cancelled j hj _ hc := by
    obtain rfl : j = 0 := by simpa using hj
    refine ⟨{ w with events := w.events ++ [.tested, .stopped] }, ?_, by simp [exchanges]⟩
    exact if_pos hc

theorem Follows.bind {c : Task σ π α β} {f : β → Task σ π α γ} {w : World σ π α} {ps qs : List π}
    {r : β} {s : γ} (hc : Follows oracle c w ps r)
    (hf : ∀ w', Goes oracle w ps w' → Follows oracle (f r) w' qs s) :
    Follows oracle (c >>= f) w (ps ++ qs) s where
  completes cancelled h := by
    obtain ⟨w', hw, hg⟩ := hc.completes cancelled fun j hj => h j (by simp; omega)
    have hl : w'.events.length = w.events.length + 3 * ps.length := by simp [hg.events]
    obtain ⟨w'', hw', hg'⟩ := (hf w' hg).completes cancelled fun j hj => by
      have hj' := h (ps.length + j) (by simp; omega)
      rwa [Nat.mul_add, ← Nat.add_assoc, ← hl] at hj'
    exact ⟨w'', by simp only [Bind.bind, hw]; exact hw', hg.trans hg'⟩
  stops cancelled j hj hbefore hat := by
    by_cases hlt : j < ps.length
    · obtain ⟨w', hw, he⟩ := hc.stops cancelled j hlt hbefore hat
      refine ⟨w', by simp only [Bind.bind, hw], ?_⟩
      rw [List.take_append_of_le_length (by omega)]
      exact he
    · obtain ⟨w', hw, hg⟩ := hc.completes cancelled fun i hi => hbefore i (by omega)
      have hl : w'.events.length = w.events.length + 3 * ps.length := by simp [hg.events]
      rw [List.length_append] at hj
      obtain ⟨i, rfl⟩ : ∃ i, j = ps.length + i := ⟨j - ps.length, by omega⟩
      have hshift : ∀ i, w.events.length + 3 * (ps.length + i) = w'.events.length + 3 * i := by
        intro i
        omega
      obtain ⟨w'', hw', he⟩ := (hf w' hg).stops cancelled i (by omega)
        (fun i' hi => hshift i' ▸ hbefore (ps.length + i') (by omega)) (hshift i ▸ hat)
      refine ⟨w'', by simp only [Bind.bind, hw]; exact hw', ?_⟩
      rw [he, hg.events, hg.calls, List.take_length_add_append, exchanges_append,
        List.append_assoc w.events]

/-- The answers to the next `n` questions. -/
def answers (oracle : Nat → α) (k n : Nat) : List α := (List.range n).map fun i => oracle (k + i)

theorem Follows.bind_pure {c : Task σ π α β} {w : World σ π α} {ps : List π} {r : β}
    (hc : Follows oracle c w ps r) (g : β → γ) :
    Follows oracle (c >>= fun b => pure (g b)) w ps (g r) := by
  have h : Follows oracle (c >>= fun b => pure (g b)) w (ps ++ []) (g r) :=
    hc.bind fun w' _ => follows_pure w' _
  rwa [List.append_nil] at h

theorem follows_update_bind {f : Unit → Task σ π α γ} {qs : List π} {s : γ} (w : World σ π α)
    (u : σ → σ) (hf : ∀ w', Goes oracle w [] w' → Follows oracle (f ()) w' qs s) :
    Follows oracle (update u >>= f) w qs s :=
  (follows_update w u).bind hf

theorem answers_succ (k n : Nat) :
    answers oracle k (n + 1) = oracle k :: answers oracle (k + 1) n := by
  simp only [answers, List.range_succ_eq_map, List.map_cons, List.map_map, Nat.add_zero]
  congr 1
  refine List.map_congr_left fun i _ => congrArg oracle ?_
  simp only [Nat.succ_eq_add_one]
  omega

/-- A loop whose turns ask one question each. -/
theorem follows_foldlM {f : β → ξ → Task σ π α β} {p : ξ → π} {g : β → ξ → α → β}
    (hf : ∀ b x w, Follows oracle (f b x) w [p x] (g b x (oracle w.calls))) (xs : List ξ) (b : β)
    (w : World σ π α) : Follows oracle (xs.foldlM f b) w (xs.map p)
      ((xs.zip (answers oracle w.calls xs.length)).foldl (fun b xa => g b xa.1 xa.2) b) := by
  induction xs generalizing b w with
  | nil => exact follows_pure w b
  | cons x xs ih =>
    rw [List.foldlM_cons, List.map_cons, List.length_cons, answers_succ, List.zip_cons_cons,
      List.foldl_cons]
    refine (hf b x w).bind fun w' hg => ?_
    have hi := ih (g b x (oracle w.calls)) w'
    rw [hg.calls] at hi
    exact hi

/-- It becomes true after `m` events and stays true. -/
def cancelledFrom (m : Nat) (events : Nat) : Bool := decide (m ≤ events)

theorem quiet_exchanges {k n : Nat} (ps : List π) (hn : n ≤ 3 * ps.length) :
    (∀ e ∈ (exchanges oracle k ps).drop n, e.isAsked = false) ↔ 3 * ps.length ≤ n + 1 := by
  induction ps generalizing k n with
  | nil => simp [exchanges]
  | cons p ps ih =>
    rw [List.length_cons] at hn ⊢
    match n with
    | 0 | 1 => simp [exchanges, Event.isAsked]; omega
    | 2 =>
      simp only [exchanges, List.drop_succ_cons, List.drop_zero]
      have h := ih (k := k + 1) (n := 0) (by omega)
      rw [List.drop_zero] at h
      rw [List.forall_mem_cons, h]
      simp only [Event.isAsked, true_and]
      omega
    | n + 3 =>
      have h := ih (k := k + 1) (n := n) (by omega)
      simp only [exchanges, List.drop_succ_cons]
      rw [h]
      omega

/-- Told to stop after its last test, the task is not stopped any more. -/
theorem Follows.late {c : Task σ π α β} {w : World σ π α} {ps : List π} {r : β} {m : Nat}
    (h : Follows oracle c w ps r) (he : w.events = []) (hm : 3 * ps.length ≤ m + 2) :
    (c (cancelledFrom m) w).1 = some r ∧
      ((∀ e ∈ (c (cancelledFrom m) w).2.events.drop m, e.isAsked = false) ↔
        3 * ps.length ≤ m + 1) := by
  obtain ⟨w', hw, hg⟩ := h.completes (cancelledFrom m) fun j hj => by
    simp only [he, List.length_nil, cancelledFrom, decide_eq_false_iff_not]
    omega
  rw [hw]
  refine ⟨rfl, ?_⟩
  rw [hg.events, he, List.nil_append]
  by_cases hle : m ≤ 3 * ps.length
  · exact quiet_exchanges ps hle
  · rw [List.drop_eq_nil_of_le (by simp; omega)]
    simp
    omega

theorem Follows.early {c : Task σ π α β} {w : World σ π α} {ps : List π} {r : β} {m : Nat}
    (h : Follows oracle c w ps r) (he : w.events = []) (hm : m + 2 < 3 * ps.length) :
    (c (cancelledFrom m) w).1 = none ∧
      ((∀ e ∈ (c (cancelledFrom m) w).2.events.drop m, e.isAsked = false) ↔ m % 3 ≠ 1) := by
  have hlen : (ps.take ((m + 2) / 3)).length = (m + 2) / 3 := by
    rw [List.length_take]
    omega
  obtain ⟨w', hw, hev⟩ := h.stops (cancelledFrom m) ((m + 2) / 3) (by omega)
    (fun i hi => by
      simp only [he, List.length_nil, cancelledFrom, decide_eq_false_iff_not]
      omega)
    (by
      simp only [he, List.length_nil, cancelledFrom, decide_eq_true_eq]
      omega)
  rw [hw]
  refine ⟨rfl, ?_⟩
  have hle : m ≤ 3 * (ps.take ((m + 2) / 3)).length := by omega
  rw [hev, he, List.nil_append, List.drop_append_of_le_length (by simpa using hle)]
  simp only [List.mem_append, or_imp, forall_and, quiet_exchanges _ hle, hlen]
  simp [Event.isAsked]
  omega

/-- A run is stopped at one of its tests or at none. -/
theorem Follows.ends {c : Task σ π α β} {w : World σ π α} {ps : List π} {r : β}
    (h : Follows oracle c w ps r) (cancelled : Nat → Bool) :
    (∃ w', c cancelled w = (some r, w') ∧ Goes oracle w ps w') ∨
      ∃ j < ps.length, ∃ w', c cancelled w = (none, w') ∧
        w'.events = w.events ++ exchanges oracle w.calls (ps.take j) ++ [.tested, .stopped] := by
  by_cases hc : ∃ j, j < ps.length ∧ cancelled (w.events.length + 3 * j) = true
  · obtain ⟨hj, hstop⟩ := Nat.find_spec hc
    refine .inr ⟨Nat.find hc, hj, h.stops cancelled _ hj (fun i hi => ?_) hstop⟩
    have hn := Nat.find_min hc hi
    have hlt : i < ps.length := Nat.lt_trans hi hj
    simpa [hlt] using hn
  · exact .inl (h.completes cancelled fun j hj => by simpa [hj] using not_exists.mp hc j)

/-- Whenever it is told to stop, it has asked its questions in their order from the first on. -/
theorem Follows.prompts_begin {c : Task σ π α β} {w : World σ π α} {ps : List π} {r : β}
    (h : Follows oracle c w ps r) (he : w.events = []) (cancelled : Nat → Bool) :
    prompts (c cancelled w).2.events <+: ps := by
  rcases h.ends cancelled with ⟨w', hw, hg⟩ | ⟨j, hj, w', hw, hev⟩
  · refine ⟨[], ?_⟩
    rw [hw, hg.events, he, List.nil_append, prompts_exchanges, List.append_nil]
  · have hps : prompts w'.events = ps.take j := by
      rw [hev, he, List.nil_append, prompts, List.filterMap_append]
      exact (List.append_nil _).trans (prompts_exchanges _ _)
    rw [hw, hps]
    exact List.take_prefix _ _

theorem Follows.prompts_never {c : Task σ π α β} {w : World σ π α} {ps : List π} {r : β}
    (h : Follows oracle c w ps r) (he : w.events = []) :
    prompts (c (fun _ => false) w).2.events = ps := by
  obtain ⟨w', hw, hg⟩ := h.completes (fun _ => false) fun _ _ => rfl
  rw [hw, hg.events, he, List.nil_append, prompts_exchanges]

/-! ### The program's own variables -/

/-- Where the variables stand when the task is let run. -/
def Leaves (c : Task σ π α β) (w : World σ π α) (v : σ) : Prop := (c (fun _ => false) w).2.vars = v

theorem leaves_update (f : σ → σ) (w : World σ π α) :
    Leaves (update f : Task σ π α Unit) w (f w.vars) := rfl

theorem Leaves.bind {c : Task σ π α β} {f : β → Task σ π α γ} {w : World σ π α} {ps : List π}
    {r : β} {v v' : σ} (hv : Leaves c w v) (hc : Follows oracle c w ps r)
    (hf : ∀ w', Goes oracle w ps w' → w'.vars = v → Leaves (f r) w' v') :
    Leaves (c >>= f) w v' := by
  obtain ⟨w', hw, hg⟩ := hc.completes (fun _ => false) fun _ _ => rfl
  have hvars : w'.vars = v := by rw [← hv, hw]
  have h := hf w' hg hvars
  simp only [Leaves, Bind.bind, hw]
  exact h

section Growing
variable {ρ : Type} {log : σ → List ρ}

/-- The task only adds to what the variables record, and what they record where it is stopped is
how it begins when it is let run. -/
structure Grows (log : σ → List ρ) (c : Task σ π α β) : Prop where
  adds : ∀ w, log w.vars <+: log (c (fun _ => false) w).2.vars
  returns : ∀ w, ∃ r w', c (fun _ => false) w = (some r, w')
  stopped : ∀ cancelled w, c cancelled w = c (fun _ => false) w ∨
    ∃ w', c cancelled w = (none, w') ∧ log w'.vars <+: log (c (fun _ => false) w).2.vars

theorem grows_pure (r : β) : Grows log (pure r : Task σ π α β) where
  adds _ := List.prefix_rfl
  returns w := ⟨r, w, rfl⟩
  stopped _ _ := .inl rfl

theorem grows_update {f : σ → σ} (hf : ∀ s, log s <+: log (f s)) :
    Grows log (update f : Task σ π α Unit) where
  adds w := hf w.vars
  returns w := ⟨(), { w with vars := f w.vars }, rfl⟩
  stopped _ _ := .inl rfl

theorem grows_ask {during : Nat → σ → σ} (hd : ∀ k s, log s <+: log (during k s)) (p : π) :
    Grows log (ask oracle during p) where
  adds w := hd w.calls w.vars
  returns w := ⟨_, _, rfl⟩
  stopped cancelled w := by
    cases hc : cancelled w.events.length with
    | false => exact .inl (by simp only [ask, hc])
    | true =>
      refine .inr ⟨{ w with events := w.events ++ [.tested, .stopped] }, ?_, hd w.calls w.vars⟩
      simp only [ask, hc, if_true]

theorem Grows.bind {c : Task σ π α β} {f : β → Task σ π α γ} (hc : Grows log c)
    (hf : ∀ b, Grows log (f b)) : Grows log (c >>= f) where
  adds w := by
    obtain ⟨b, w', hw⟩ := hc.returns w
    have h := hc.adds w
    simp only [Bind.bind, hw] at h ⊢
    exact h.trans ((hf b).adds w')
  returns w := by
    obtain ⟨b, w', hw⟩ := hc.returns w
    simp only [Bind.bind, hw]
    exact (hf b).returns w'
  stopped cancelled w := by
    obtain ⟨b, w', hw⟩ := hc.returns w
    rcases hc.stopped cancelled w with h | ⟨w₁, h, hlog⟩
    · simp only [Bind.bind, h, hw]
      exact (hf b).stopped cancelled w'
    · simp only [Bind.bind, h, hw] at hlog ⊢
      exact .inr ⟨w₁, rfl, hlog.trans ((hf b).adds w')⟩

theorem grows_foldlM {f : β → ξ → Task σ π α β} (hf : ∀ b x, Grows log (f b x)) (xs : List ξ)
    (b : β) : Grows log (xs.foldlM f b) := by
  induction xs generalizing b with
  | nil => exact grows_pure b
  | cons x xs ih => exact (hf b x).bind ih

theorem Grows.begin {c : Task σ π α β} (h : Grows log c) (cancelled : Nat → Bool)
    (w : World σ π α) : log (c cancelled w).2.vars <+: log (c (fun _ => false) w).2.vars := by
  rcases h.stopped cancelled w with hw | ⟨w', hw, hlog⟩
  · exact ⟨[], by rw [hw, List.append_nil]⟩
  · rw [hw]
    exact hlog

end Growing

end ReadersSpeech.Guarded
