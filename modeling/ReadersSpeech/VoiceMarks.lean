import ReadersSpeech.Paragraphs

/-! What becomes of a change of voice. The filter of `build` runs first, so the mark of a line it
drops never reaches the paragraph rule: the next kept line opens a paragraph only if it carries a
mark of its own or the pauses and the length ask for one.
-/

set_option autoImplicit false

namespace ReadersSpeech.Paragraphs
open Splitting

def carryAll (first : Bool) (c : Carried) : List Segment → Carried
  | [] => c
  | s :: rest => carryAll false (carry (start first c s) c s) rest

def continuation (c : Carried) : List Segment → Str
  | [] => []
  | s :: rest => (if start false c s then kt "\n\n" else kt " ") ++ trim s.text ++
      continuation (carry (start false c s) c s) rest

theorem continuation_append (c : Carried) (a b : List Segment) :
    continuation c (a ++ b) = continuation c a ++ continuation (carryAll false c a) b := by
  induction a generalizing c with
  | nil => rfl
  | cons s rest ih => simp [continuation, carryAll, ih]

theorem join_runsFrom (c : Carried) (cur rest : List Segment) (hc : cur ≠ []) :
    joinToString (kt "\n\n") ((runsFrom c cur rest).map paragraphText) =
      paragraphText cur ++ continuation c rest := by
  induction rest generalizing c cur with
  | nil => simp [runsFrom, continuation, joinToString]
  | cons s rest ih =>
    by_cases hst : start false c s = true
    · have h := ih (carry true c s) [s] (by simp)
      have hne : (runsFrom (carry true c s) [s] rest).map paragraphText ≠ [] := by
        simp [runsFrom_ne_nil]
      simp only [joinToString] at h ⊢
      rw [runsFrom, if_pos hst, List.map_cons, List.intercalate_cons_of_ne_nil hne, h]
      simp [continuation, hst, paragraphText_single]
    · have h := ih (carry false c s) (cur ++ [s]) (by simp)
      simp only [Bool.not_eq_true] at hst
      simp [runsFrom, hst, h, continuation, paragraphText_concat hc]

/-- The text of a transcript with a kept line: that line, then what each later one adds. -/
theorem build_cons (u : Unicode) (segments : List Segment) (noSpeech : Str) {s : Segment}
    {rest : List Segment} (hk : kept u segments = s :: rest) :
    build u segments noSpeech =
      trim s.text ++ continuation (carry true initial s) rest ++ kt "\n" := by
  rw [build_eq, hk, if_neg (by simp), runs, join_runsFrom _ _ _ (by simp), paragraphText_single]

/-- In the text of `segments`, the line `t` that follows the kept lines of `before` stands at the
beginning of a paragraph. -/
def BeginsParagraph (u : Unicode) (noSpeech : Str) (before segments : List Segment)
    (t : Segment) : Prop :=
  ∃ text rest, build u before noSpeech = text ++ kt "\n" ∧
    build u segments noSpeech = text ++ kt "\n\n" ++ trim t.text ++ rest

theorem beginsParagraph_iff (u : Unicode) (noSpeech : Str) {before segments : List Segment}
    {t : Segment} {later : List Segment} (hb : kept u before ≠ [])
    (hk : kept u segments = kept u before ++ t :: later) :
    BeginsParagraph u noSpeech before segments t ↔
      start false (carryAll true initial (kept u before)) t = true := by
  cases hkb : kept u before with
  | nil => exact absurd hkb hb
  | cons s rest =>
    rw [hkb] at hk
    have hc : carryAll true initial (s :: rest) = carryAll false (carry true initial s) rest := rfl
    have htext := build_cons u before noSpeech hkb
    have hkw : kept u segments = s :: (rest ++ t :: later) := hk
    have hwhole := build_cons u segments noSpeech hkw
    rw [continuation_append, ← List.append_assoc, ← hc] at hwhole
    simp only [continuation] at hwhole
    unfold BeginsParagraph
    constructor
    · rintro ⟨text, more, h₁, h₂⟩
      obtain rfl : text = trim s.text ++ continuation (carry true initial s) rest :=
        (List.append_inj_left' (h₁.symm.trans htext) rfl)
      by_contra hst
      rw [hwhole, if_neg hst] at h₂
      simp only [List.append_assoc, List.append_cancel_left_eq] at h₂
      exact absurd (List.cons.inj h₂).1 (by decide)
    · intro hst
      rw [if_pos hst] at hwhole
      refine ⟨_, continuation (carry true (carryAll true initial (s :: rest)) t) later ++ kt "\n",
        htext, ?_⟩
      rw [hwhole, hst]
      simp only [List.append_assoc]

/-- Every mark that lies after a kept line opens a paragraph at the first kept line from it on. -/
def MarksOpen (u : Unicode) (noSpeech : Str) (segments : List Segment) : Prop :=
  ∀ before s after t later, segments = before ++ s :: after → s.newVoice = true →
    kept u before ≠ [] → kept u segments = kept u before ++ t :: later →
    BeginsParagraph u noSpeech before segments t

/-- That first kept line is marked itself (as it is when the marked line is kept), or the pause
before it or the length of the paragraph opens one anyway. -/
def MarksSurvive (u : Unicode) (segments : List Segment) : Prop :=
  ∀ before s after t later, segments = before ++ s :: after → s.newVoice = true →
    kept u before ≠ [] → kept u segments = kept u before ++ t :: later →
    t.newVoice = true ∨ paused (carryAll true initial (kept u before)) t = true

theorem marksOpen_iff (u : Unicode) (noSpeech : Str) (segments : List Segment) :
    MarksOpen u noSpeech segments ↔ MarksSurvive u segments := by
  have hstart : ∀ c t, start false c t = true ↔ t.newVoice = true ∨ paused c t = true := by
    simp [start]
  constructor
  · intro h before s after t later hs hm hb hk
    rw [← hstart, ← beginsParagraph_iff u noSpeech hb hk]
    exact h before s after t later hs hm hb hk
  · intro h before s after t later hs hm hb hk
    rw [beginsParagraph_iff u noSpeech hb hk, hstart]
    exact h before s after t later hs hm hb hk

/-- The marked line repeats the one before it, and the answer runs on after the question. -/
theorem marksOpen_repeat_dropped :
    ¬ MarksOpen ascii (kt "-") [⟨0, 1000, kt "Is it?", false⟩, ⟨1000, 1500, kt "Is it?", true⟩,
      ⟨1600, 2000, kt "Yes.", false⟩] := by
  intro h
  have hb := h [⟨0, 1000, kt "Is it?", false⟩] ⟨1000, 1500, kt "Is it?", true⟩
    [⟨1600, 2000, kt "Yes.", false⟩] ⟨1600, 2000, kt "Yes.", false⟩ [] rfl rfl (by decide)
    (by decide)
  have hk : kept ascii [⟨0, 1000, kt "Is it?", false⟩, ⟨1000, 1500, kt "Is it?", true⟩,
      ⟨1600, 2000, kt "Yes.", false⟩] = kept ascii [⟨0, 1000, kt "Is it?", false⟩] ++
        ⟨1600, 2000, kt "Yes.", false⟩ :: [] := by decide
  rw [beginsParagraph_iff ascii (kt "-") (by decide) hk] at hb
  exact absurd hb (by decide)

end ReadersSpeech.Paragraphs
