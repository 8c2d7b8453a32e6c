import ReadersSpeech.Text

/-! `Paragraphs` of Prompts.kt: which lines open a paragraph (`starts`), and the text of a
transcript put together from them (`build`). The loops keep the carried variables of the source.
-/

set_option autoImplicit false

namespace ReadersSpeech

/-- One line whisper heard; `newVoice` when another person starts speaking here. -/
structure Segment where
  startMs : Int64
  endMs : Int64
  text : Str
  newVoice : Bool := false
  deriving DecidableEq, Repr

namespace Paragraphs
open Splitting

def longPauseMs : Int64 := 2000
def sentencePauseMs : Int64 := 900
def longParagraph : Nat := 900
def breathMs : Int64 := 250
def runaway : Nat := 1200

def closing (c : UInt16) : Bool := isWhitespace c || (kt "\"'»”’)").contains c

def endsSentence (s : Str) : Bool :=
  match s.reverse.dropWhile closing with
  | [] => false
  | c :: _ => (kt ".!?…").contains c

/-- `lastEnd`, `length` and `ended`, the variables the loop of `starts` carries. -/
structure Carried where
  lastEnd : Int64
  length : Nat
  ended : Bool
  deriving DecidableEq, Repr

def initial : Carried := ⟨-1, 0, false⟩

def gap (c : Carried) (s : Segment) : Int64 :=
  if c.lastEnd < 0 then 0 else s.startMs - c.lastEnd

/-- The part of the rule that knows nothing of voices. -/
def paused (c : Carried) (s : Segment) : Bool :=
  decide (longPauseMs ≤ gap c s) || (c.ended && decide (sentencePauseMs ≤ gap c s)) ||
    (c.ended && decide (longParagraph ≤ c.length) && decide (breathMs ≤ gap c s)) ||
    decide (runaway ≤ c.length)

def start (first : Bool) (c : Carried) (s : Segment) : Bool := first || s.newVoice || paused c s

def carry (start : Bool) (c : Carried) (s : Segment) : Carried where
  lastEnd := s.endMs
  length := if start then (trim s.text).length else c.length + 1 + (trim s.text).length
  ended := if (trim s.text).isEmpty then c.ended else endsSentence (trim s.text)

def startsFrom (first : Bool) (c : Carried) : List Segment → List Bool
  | [] => []
  | s :: rest => start first c s :: startsFrom false (carry (start first c s) c s) rest

def starts (segments : List Segment) : List Bool := startsFrom true initial segments

def key (u : Unicode) (text : Str) : Str := trim (wordsOnly u (u.lowercase (trim text)))

/-- The filter of `build`, with the `previous` it closes over. -/
def keptFrom (u : Unicode) (previous : Str) : List Segment → List Segment
  | [] => []
  | s :: rest =>
    if key u s.text ≠ [] ∧ key u s.text ≠ previous then s :: keptFrom u (key u s.text) rest
    else keptFrom u previous rest

def kept (u : Unicode) (segments : List Segment) : List Segment := keptFrom u [] segments

/-- The second loop of `build`: `out` holds the finished paragraphs, `cur` the one being built. -/
def gather (out : List Str) (cur : Str) : List (Bool × Segment) → List Str
  | [] => if cur.isEmpty then out else out ++ [trim cur]
  | (start, s) :: rest =>
    let flush := start && !cur.isEmpty
    let out := if flush then out ++ [trim cur] else out
    let cur := if flush then [] else cur
    let cur := if cur.isEmpty then cur else cur ++ kt " "
    gather out (cur ++ trim s.text) rest

def build (u : Unicode) (segments : List Segment) (noSpeech : Str) : Str :=
  let lines := kept u segments
  let out := gather [] [] ((starts lines).zip lines)
  if out.isEmpty then noSpeech ++ kt "\n" else joinToString (kt "\n\n") out ++ kt "\n"

def paragraphText (p : List Segment) : Str := joinToString (kt " ") (p.map fun s => trim s.text)

/-- The runs of lines between two starts; `cur` is the run being collected. -/
def runsFrom (c : Carried) (cur : List Segment) : List Segment → List (List Segment)
  | [] => [cur]
  | s :: rest =>
    if start false c s then cur :: runsFrom (carry true c s) [s] rest
    else runsFrom (carry false c s) (cur ++ [s]) rest

def runs : List Segment → List (List Segment)
  | [] => []
  | s :: rest => runsFrom (carry true initial s) [s] rest

/-- A line with something in it. A kept line is one: its key could not be read off blanks. -/
def Spoken (s : Segment) : Prop := trim s.text ≠ []

theorem key_of_blank (u : Unicode) {text : Str} (h : trim text = []) : key u text = [] := by
  simp [key, h, u.lowercase_nil, wordsOnly, codePoints, collapse]

theorem keptFrom_spoken (u : Unicode) (previous : Str) (segments : List Segment) :
    ∀ s ∈ keptFrom u previous segments, Spoken s := by
  induction segments generalizing previous with
  | nil => simp [keptFrom]
  | cons t rest ih =>
    by_cases h : key u t.text ≠ [] ∧ key u t.text ≠ previous
    · rw [keptFrom, if_pos h]
      intro s hs
      rcases List.mem_cons.mp hs with rfl | hs
      · exact fun hb => h.1 (key_of_blank u hb)
      · exact ih _ s hs
    · rw [keptFrom, if_neg h]
      exact ih previous

/-- The key of a kept line is not empty, and not that of the kept line before it. -/
theorem keptFrom_keys (u : Unicode) (previous : Str) (segments : List Segment) :
    (previous :: (keptFrom u previous segments).map fun s => key u s.text).IsChain fun k k' =>
      k' ≠ [] ∧ k' ≠ k := by
  induction segments generalizing previous with
  | nil => exact .singleton _
  | cons s rest ih =>
    by_cases h : key u s.text ≠ [] ∧ key u s.text ≠ previous
    · rw [keptFrom, if_pos h, List.map_cons]
      exact .cons_cons h (ih (key u s.text))
    · rw [keptFrom, if_neg h]
      exact ih previous
theorem paragraphText_concat {p : List Segment} (hp : p ≠ []) (s : Segment) :
    paragraphText (p ++ [s]) = paragraphText p ++ kt " " ++ trim s.text := by
  have hne : (p.map fun s => trim s.text) ≠ [] := by simpa using hp
  have h := intercalate_concat (kt " ") hne (trim s.text)
  simpa [paragraphText, joinToString] using h

theorem paragraphText_single (s : Segment) : paragraphText [s] = trim s.text := by
  simp [paragraphText, joinToString]

/-- A paragraph of spoken lines has nothing left to trim, so flushing it changes no text. -/
theorem paragraphText_solid {p : List Segment} (hp : p ≠ []) (hs : ∀ s ∈ p, Spoken s) :
    Solid isWhitespace (paragraphText p) := by
  induction p using List.reverseRecOn with
  | nil => exact absurd rfl hp
  | append_singleton p s ih =>
    have hlast : Solid isWhitespace (trim s.text) := solid_trimBy (hs s (by simp))
    by_cases hne : p = []
    · subst hne
      simpa [paragraphText_single] using hlast
    · rw [paragraphText_concat hne]
      exact (ih hne fun t ht => hs t (by simp [ht])).append _ hlast

theorem gather_runs (out : List Str) (c : Carried) (cur rest : List Segment) (hc : cur ≠ [])
    (hs : ∀ s ∈ cur ++ rest, Spoken s) :
    gather out (paragraphText cur) ((startsFrom false c rest).zip rest) =
      out ++ (runsFrom c cur rest).map paragraphText := by
  induction rest generalizing out c cur with
  | nil =>
    have hsolid := paragraphText_solid hc (fun s h => hs s (by simp [h]))
    simp [gather, startsFrom, runsFrom, hsolid.ne_nil, trim, hsolid.trimBy_eq]
  | cons s rest ih =>
    have hsolid := paragraphText_solid hc (fun s h => hs s (by simp [h]))
    have hne : (paragraphText cur).isEmpty = false := by simp [hsolid.ne_nil]
    have htrim : trim (paragraphText cur) = paragraphText cur := hsolid.trimBy_eq
    by_cases hst : start false c s = true
    · have h := ih (out ++ [paragraphText cur]) (carry true c s) [s] (by simp)
        (fun t ht => hs t (by simp at ht ⊢; tauto))
      rw [paragraphText_single] at h
      simp [startsFrom, gather, runsFrom, hst, hne, htrim, h]
    · have h := ih out (carry false c s) (cur ++ [s]) (by simp)
        (fun t ht => hs t (by simp at ht ⊢; tauto))
      rw [paragraphText_concat hc] at h
      simp only [Bool.not_eq_true] at hst
      simp [startsFrom, gather, runsFrom, hst, hne, ← h]

theorem gather_starts (lines : List Segment) (hs : ∀ s ∈ lines, Spoken s) :
    gather [] [] ((starts lines).zip lines) = (runs lines).map paragraphText := by
  cases lines with
  | nil => rfl
  | cons s rest =>
    have h := gather_runs [] (carry true initial s) [s] rest (by simp) (by simpa using hs)
    rw [paragraphText_single] at h
    simpa [starts, startsFrom, start, gather, runs] using h

theorem runsFrom_ne_nil (c : Carried) (cur rest : List Segment) : runsFrom c cur rest ≠ [] := by
  induction rest generalizing c cur with
  | nil => simp [runsFrom]
  | cons s rest ih => simp only [runsFrom]; split <;> simp [ih]

/-- The text `build` returns, as the runs of the kept lines put together. -/
theorem build_eq (u : Unicode) (segments : List Segment) (noSpeech : Str) :
    build u segments noSpeech =
      if kept u segments = [] then noSpeech ++ kt "\n"
      else joinToString (kt "\n\n") ((runs (kept u segments)).map paragraphText) ++ kt "\n" := by
  have h := gather_starts (kept u segments) (keptFrom_spoken u [] segments)
  simp only [build, h]
  cases hk : kept u segments with
  | nil => rfl
  | cons s rest => simp [runs, runsFrom_ne_nil]

end Paragraphs
end ReadersSpeech
