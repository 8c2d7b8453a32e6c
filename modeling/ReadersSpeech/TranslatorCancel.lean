import ReadersSpeech.TranslatorRuns

/-! A translation cancelled in the middle. `translate` looks at `cancelled()` only before a block,
so a cancel is heeded when the next thing it does is to look.
-/

set_option autoImplicit false

namespace ReadersSpeech.Translator
open Splitting

variable {u : Unicode} {session : Session} {target : Str} {size i : Nat}

/-- `cancelled()` becomes true after `m` events and stays true. -/
def cancelledFrom (m : Nat) (events : Nat) : Bool := decide (m ≤ events)

/-- No call of the model starts after the moment `m`, and `translate` returns null. -/
def Honoured (u : Unicode) (session : Session) (segments : List Segment) (target : Str)
    (m : Nat) : Prop :=
  (translate u session segments target (cancelledFrom m)).1 = .ok none ∧
    ∀ e ∈ (translate u session segments target (cancelledFrom m)).2.events.drop m,
      e.isAsked = false

/-- The moment lies just before a test of `cancelled()`, or inside the last call made for a block
that has another one after it. `k` calls have been made before these blocks. -/
inductive Heeded (u : Unicode) (session : Session) : Nat → List Block → Nat → Prop
  | beforeTest {k : Nat} {b : Block} {rest : List Block} : Heeded u session k (b :: rest) 0
  | inFirst {k : Nat} {b : Block} {rest : List Block} {d : Str} :
      rendered u session b.text k = some d → rest ≠ [] → Heeded u session k (b :: rest) 2
  | inSecond {k : Nat} {b : Block} {rest : List Block} :
      rendered u session b.text k = none → rest ≠ [] → Heeded u session k (b :: rest) 4
  | afterFirst {k m : Nat} {b : Block} {rest : List Block} {d : Str} :
      rendered u session b.text k = some d → Heeded u session (k + 1) rest m →
      Heeded u session k (b :: rest) (m + 3)
  | afterSecond {k m : Nat} {b : Block} {rest : List Block} :
      rendered u session b.text k = none → Heeded u session (k + 2) rest m →
      Heeded u session k (b :: rest) (m + 5)

/-- What `Honoured` asks of the rest of a run, from a world with `c` events on. -/
def Obeys (c n : Nat) (r : Option (List Block) × World) : Prop :=
  r.1 = none ∧ ∀ e ∈ r.2.events.drop (c + n), e.isAsked = false

/-- The moment falls before the next test: what is still done is the rest of the turn. -/
theorem obeys_during {w w' : World} {es : List Event} {n : Nat} (hg : Goes w es w')
    (hn : n < es.length) (out : List Block) (rest : List Block) :
    Obeys w.events.length n (translateFrom u session (cancelledFrom (w.events.length + n)) target
        size i out w' rest) ↔ rest ≠ [] ∧ ∀ e ∈ es.drop n, e.isAsked = false := by
  cases rest with
  | nil => simp [Obeys, translateFrom]
  | cons b rest =>
    have hc : cancelledFrom (w.events.length + n) w'.events.length = true := by
      simp only [cancelledFrom, hg.events, List.length_append, decide_eq_true_eq]
      omega
    have hd : (w'.events ++ [Event.tested]).drop (w.events.length + n) =
        es.drop n ++ [.tested] := by
      rw [hg.events, List.append_assoc, List.drop_length_add_append,
        List.drop_append_of_le_length (by omega)]
    simp only [Obeys, translateFrom, hc, if_true, World.add, hd, true_and]
    simp [or_imp, forall_and, Event.isAsked]

theorem heeded_first_iff {k n : Nat} {b : Block} {rest : List Block} {d : Str}
    (hr : rendered u session b.text k = some d) (hn : 0 < n) :
    Heeded u session k (b :: rest) n ↔
      n = 2 ∧ rest ≠ [] ∨ ∃ m, n = m + 3 ∧ Heeded u session (k + 1) rest m := by
  constructor
  · intro h
    cases h with
    | beforeTest => omega
    | inFirst _ hne => exact .inl ⟨rfl, hne⟩
    | afterFirst _ h => exact .inr ⟨_, rfl, h⟩
    | inSecond h' | afterSecond h' => simp [hr] at h'
  · rintro (⟨rfl, hne⟩ | ⟨m, rfl, h⟩)
    · exact .inFirst hr hne
    · exact .afterFirst hr h

theorem heeded_second_iff {k n : Nat} {b : Block} {rest : List Block}
    (hr : rendered u session b.text k = none) (hn : 0 < n) :
    Heeded u session k (b :: rest) n ↔
      n = 4 ∧ rest ≠ [] ∨ ∃ m, n = m + 5 ∧ Heeded u session (k + 2) rest m := by
  constructor
  · intro h
    cases h with
    | beforeTest => omega
    | inSecond _ hne => exact .inl ⟨rfl, hne⟩
    | afterSecond _ h => exact .inr ⟨_, rfl, h⟩
    | inFirst h' | afterFirst h' => simp [hr] at h'
  · rintro (⟨rfl, hne⟩ | ⟨m, rfl, h⟩)
    · exact .inSecond hr hne
    · exact .afterSecond hr h

theorem quiet_iff {es : List Event} {p g : Str} {n : Nat} (hn : n < es.length + 2) :
    (∀ e ∈ (es ++ [Event.asked p, .answered g]).drop n, e.isAsked = false) ↔
      n = es.length + 1 := by
  constructor
  · intro h
    by_contra hne
    have hle : n ≤ es.length := by omega
    have hp := h (.asked p) (by rw [List.drop_append_of_le_length hle]; simp)
    simp [Event.isAsked] at hp
  · rintro rfl
    rw [List.drop_append, List.drop_eq_nil_of_le (by omega)]
    simp [Event.isAsked]

theorem obeys_turn {w w' : World} (es : List Event) {p g : Str}
    (hg : Goes w (es ++ [.asked p, .answered g]) w') (out rest : List Block) (n : Nat)
    (ih : ∀ m, Obeys w'.events.length m (translateFrom u session
        (cancelledFrom (w'.events.length + m)) target size i out w' rest) ↔
      Heeded u session w'.calls rest m) :
    Obeys w.events.length n (translateFrom u session (cancelledFrom (w.events.length + n)) target
        size i out w' rest) ↔
      n = es.length + 1 ∧ rest ≠ [] ∨
        ∃ m, n = m + (es.length + 2) ∧ Heeded u session w'.calls rest m := by
  by_cases hlt : n < es.length + 2
  · rw [obeys_during hg (by simpa using hlt), quiet_iff hlt]
    constructor
    · exact fun ⟨hne, hn⟩ => .inl ⟨hn, hne⟩
    · rintro (⟨hn, hne⟩ | ⟨m, hm, -⟩)
      · exact ⟨hne, hn⟩
      · omega
  · obtain ⟨m, rfl⟩ : ∃ m, n = m + (es.length + 2) := ⟨n - (es.length + 2), by omega⟩
    have hl : w.events.length + (m + (es.length + 2)) = w'.events.length + m := by
      simp only [hg.events, List.length_append, List.length_cons, List.length_nil]
      omega
    have hm := ih m
    unfold Obeys at hm ⊢
    rw [hl, hm]
    constructor
    · exact fun h => .inr ⟨m, rfl, h⟩
    · rintro (⟨hn, -⟩ | ⟨m', hm', h⟩)
      · omega
      · obtain rfl : m = m' := by omega
        exact h

theorem translateFrom_heeded (u : Unicode) (session : Session) (target : Str) (out : List Block)
    (w : World) (blocks : List Block) (n : Nat)
    (hs : i + blocks.length = size) :
    Obeys w.events.length n (translateFrom u session (cancelledFrom (w.events.length + n)) target
        size i out w blocks) ↔ Heeded u session w.calls blocks n := by
  induction blocks generalizing i out w n with
  | nil =>
    refine ⟨fun h => ?_, fun h => nomatch h⟩
    have hr := h.1
    simp [translateFrom] at hr
  | cons b rest ih =>
    simp only [List.length_cons] at hs
    rcases Nat.eq_zero_or_pos n with rfl | hn
    · have hc : cancelledFrom w.events.length w.events.length = true := by simp [cancelledFrom]
      simp [Obeys, translateFrom, hc, World.add, Event.isAsked, Heeded.beforeTest]
    · have hc : cancelledFrom (w.events.length + n) w.events.length = false := by
        simp only [cancelledFrom, decide_eq_false_iff_not]
        omega
      have hi : i < size := by omega
      simp only [translateFrom, hc, Bool.false_eq_true, if_false]
      cases hr : rendered u session b.text w.calls with
      | some d =>
        obtain ⟨-, hg⟩ := passage_first target hi (w.add .tested) hr
        generalize passage u session target size i b (w.add .tested) = p at hg ⊢
        have hturn := obeys_turn [.tested] ((goes_tested w).trans hg) (out ++ [p.1]) rest n
          fun m => ih (i := i + 1) _ p.2 m (by omega)
        have hcalls : p.2.calls = w.calls + 1 := by simp [hg.calls, exchange_asks, World.add]
        rw [hturn, hcalls, heeded_first_iff hr hn]
        rfl
      | none =>
        obtain ⟨-, hg⟩ := passage_second target hi (w.add .tested) hr
        generalize passage u session target size i b (w.add .tested) = p at hg ⊢
        have hgo := (goes_tested w).trans hg
        rw [← List.append_assoc] at hgo
        have hturn := obeys_turn ([.tested] ++ exchange session ask target b.text w.calls) hgo
          (out ++ [p.1]) rest n fun m => ih (i := i + 1) _ p.2 m (by omega)
        have hcalls : p.2.calls = w.calls + 2 := by simp [hg.calls, exchange_asks, World.add]
        rw [hturn, hcalls, heeded_second_iff hr hn]
        rfl

/-- Cancelling is honoured exactly when the next thing `translate` does is to look. -/
theorem honoured_iff (u : Unicode) (session : Session) (segments : List Segment) (target : Str)
    (m : Nat) : Honoured u session segments target m ↔
      session.loaded = true ∧ Heeded u session 0 (group segments) m := by
  have h := translateFrom_heeded u session target [] idle (group segments) m (Nat.zero_add _)
  simp only [idle, List.length_nil, Nat.zero_add] at h
  rw [← h]
  unfold Honoured translate Obeys
  cases hb : group segments with
  | nil => simp [translateFrom]
  | cons b rest => cases hl : session.loaded <;> simp [idle]

def silent : Session := ⟨true, [], fun _ => ⟨[], []⟩⟩

def greeting : List Segment := [⟨0, 1000, kt "Bonjour.", false⟩]

/-- The first call ends early with nothing, and a second one is started. -/
theorem honoured_in_first_call : ¬ Honoured ascii silent greeting (kt "en") 2 := by
  intro h
  exact absurd h.1 (by decide)

end ReadersSpeech.Translator
