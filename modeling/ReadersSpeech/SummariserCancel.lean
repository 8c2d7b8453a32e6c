import ReadersSpeech.SummariserRuns

/-! A summary cancelled in the middle. `summarise` looks at `cancelled()` before every call and
nowhere else, so the last call is looked after by nobody.
-/

set_option autoImplicit false

namespace ReadersSpeech.Summariser
open Splitting Guarded
open Translator (Session Attempt)

variable {d : Device} {session : Session} {lang : Str}

/-- No call of the model starts after the moment `m`, and `summarise` returns null. -/
def Honoured (d : Device) (session : Session) (transcript language : Str) (m : Nat) : Prop :=
  (summarise d session transcript language (cancelledFrom m)).1 = none ∧
    ∀ e ∈ (summarise d session transcript language (cancelledFrom m)).2.events.drop m,
      e.isAsked = false

/-- How many calls of the model there are in all. -/
def callsOf (session : Session) (lang clean : Str) (parts : List Str)
    (rounds : List (List (List Str))) : Nat :=
  (partAsks lang parts).length + if notesOf session clean parts = [] then 0 else
    rounds.flatten.length + (1 + (chunked notesPerCall (notesOf session clean parts)).length)

/-- The moment is not between a test and its call (the `tested`, `asked` and `answered` of each
call are three moments), and another test is to come or nothing is kept anyway. -/
def Heeded (d : Device) (session : Session) (lang clean : Str) (parts : List Str)
    (rounds : List (List (List Str))) (m : Nat) : Prop :=
  let calls := callsOf session lang clean parts rounds
  m + 2 < 3 * calls ∧ m % 3 ≠ 1 ∨
    3 * calls ≤ m + 1 ∧ pointsOf d session ((partAsks lang parts).length + rounds.flatten.length)
      (notesOf session clean parts) = []

theorem pointsOf_nil (k : Nat) : pointsOf d session k [] = [] := by
  simp [pointsOf, chunked, heardFrom, answers]

theorem length_asks (session : Session) (lang clean : Str) (parts last : List Str)
    (rounds : List (List (List Str))) :
    (partAsks lang parts ++ if notesOf session clean parts = [] then [] else
      rounds.flatten.map (groupAsk lang) ++ lastAsks session lang
        ((partAsks lang parts).length + rounds.flatten.length) (notesOf session clean parts)
        last).length = callsOf session lang clean parts rounds := by
  rw [List.length_append, callsOf]
  split
  · rfl
  · simp only [List.length_append, List.length_map, lastAsks, List.length_cons,
      List.length_mapIdx]
    omega

theorem result_none_iff (clean : Str) (parts : List Str) (k : Nat) :
    (if notesOf session clean parts = [] then none else
      outcome d session k (notesOf session clean parts)) = none ↔
      pointsOf d session k (notesOf session clean parts) = [] := by
  by_cases hn : notesOf session clean parts = []
  · simp [hn, pointsOf_nil]
  · rw [if_neg hn, outcome_none_iff]

theorem heeded_iff {clean : Str} {parts last : List Str} {rounds : List (List (List Str))}
    (hf : Folds d session (partAsks lang parts).length (notesOf session clean parts) rounds last)
    (m : Nat) :
    ((withSession d session lang clean parts (cancelledFrom m) (idle parts)).1.join = none ∧
      ∀ e ∈ (withSession d session lang clean parts (cancelledFrom m)
        (idle parts)).2.events.drop m, e.isAsked = false) ↔
      Heeded d session lang clean parts rounds m := by
  have hasks := asks_withSession (w := idle parts) clean parts rfl hf
  have hlen := length_asks session lang clean parts last rounds
  unfold Heeded
  by_cases hm : 3 * callsOf session lang clean parts rounds ≤ m + 2
  · obtain ⟨hr, hq⟩ := hasks.late (m := m) rfl (by rw [hlen]; exact hm)
    rw [hlen] at hq
    rw [hr, Option.join_some, result_none_iff, hq]
    constructor
    · exact fun hh => .inr hh.symm
    · rintro (hh | hh)
      · omega
      · exact hh.symm
  · obtain ⟨hr, hq⟩ := hasks.early (m := m) rfl (by rw [hlen]; exact Nat.lt_of_not_le hm)
    rw [hr, Option.join_none, hq]
    constructor
    · exact fun hh => .inl ⟨Nat.lt_of_not_le hm, hh.2⟩
    · rintro (hh | hh)
      · exact ⟨rfl, hh.2⟩
      · omega

/-- Cancelling is honoured exactly when the moment is heeded, or when nothing is asked at all. -/
theorem summary_honoured_iff (d : Device) (session : Session) (transcript language : Str)
    (m : Nat) :
    let lang := tongue d.toUnicode language
    let clean := unstuttered d.toUnicode transcript
    let parts := pieces d.toUnicode clean
    Honoured d session transcript language m ↔
      words d.toUnicode clean < minWords ∨ session.loaded = false ∨
        ∃ rounds last, Folds d session (partAsks lang parts).length (notesOf session clean parts)
          rounds last ∧ Heeded d session lang clean parts rounds m := by
  intro lang clean parts
  by_cases h : words d.toUnicode clean < minWords ∨ session.loaded = false
  · have hu := summarise_unasked language (cancelledFrom m) h
    refine iff_of_true ⟨hu.1, by simp [hu.2]⟩ ?_
    rcases h with h | h
    · exact .inl h
    · exact .inr (.inl h)
  · have hrun := summarise_asks language (cancelledFrom m) h
    unfold Honoured
    rw [hrun]
    dsimp only
    constructor
    · intro hh
      obtain ⟨rounds, last, hf⟩ := exists_folds d session
        (partAsks lang parts).length (notesOf session clean parts)
      exact .inr (.inr ⟨rounds, last, hf, (heeded_iff hf m).mp hh⟩)
    · rintro (hs | hl | ⟨rounds, last, hf, hh⟩)
      · exact absurd (.inl hs) h
      · exact absurd (.inr hl) h
      · exact (heeded_iff hf m).mpr hh

/-- One piece of 120 words, and one point. -/
def shortTalk : Str := (List.replicate 120 (kt "a ")).flatten

def onePoint : Session := ⟨true, [], fun _ => ⟨[], kt "- one two three four"⟩⟩

/-- Cancelled in the last call, it returns the summary all the same. -/
theorem cancelled_in_last_call : ¬ Honoured plain onePoint shortTalk (kt "en") 5 := by
  have hsome :
      (summarise plain onePoint shortTalk (kt "en") (cancelledFrom 5)).1.isSome = true := by
    decide +kernel
  intro h
  simp [h.1] at hsome

end ReadersSpeech.Summariser
