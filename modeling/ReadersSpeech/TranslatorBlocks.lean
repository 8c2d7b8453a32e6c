import ReadersSpeech.ParagraphRule
import ReadersSpeech.Translator

/-! The blocks of a translation against the sound: `group` makes one block of each run of segments
that fills up, and no segment with anything in it is left out or put in two.
-/

set_option autoImplicit false

namespace ReadersSpeech.Translator
open Splitting Paragraphs

def spoken (segments : List Segment) : List Segment := segments.filter fun s => !isBlank s.text

/-- The first start of a run, its last end, and its texts in one. -/
def blockOf (run : List Segment) : Block where
  startMs := (run.head?.map (·.startMs)).getD 0
  endMs := (run.getLast?.map (·.endMs)).getD 0
  text := joinToString (kt " ") (run.map fun s => trim s.text)

def filled (run : List Segment) : Bool := decide (blockChars ≤ (blockOf run).text.length)

theorem blockOf_text (run : List Segment) : (blockOf run).text = paragraphText run := rfl

/-- The variables of the loop while `run` waits to be a block: `start` is below 0 only before the
first segment of a block. -/
structure Waiting (run : List Segment) (start end_ : Int64) (text : Str) : Prop where
  spoken : ∀ s ∈ run, Spoken s
  text_eq : text = (blockOf run).text
  closed : run = [] → start < 0
  opened : run ≠ [] → 0 ≤ start ∧ start = (blockOf run).startMs ∧ end_ = (blockOf run).endMs

theorem waiting_nil (end_ : Int64) : Waiting [] (-1) end_ [] where
  spoken := by simp
  text_eq := rfl
  closed := fun _ => by decide
  opened := fun h => absurd rfl h

theorem Waiting.isEmpty {run : List Segment} {start end_ : Int64} {text : Str}
    (h : Waiting run start end_ text) : text.isEmpty = run.isEmpty := by
  by_cases hr : run = []
  · rw [h.text_eq, hr]
    rfl
  · have hne : paragraphText run ≠ [] := (paragraphText_solid hr h.spoken).ne_nil
    rw [h.text_eq, blockOf_text, List.isEmpty_eq_false_iff.mpr hne,
      List.isEmpty_eq_false_iff.mpr hr]

theorem Waiting.block {run : List Segment} {start end_ : Int64} {text : Str}
    (h : Waiting run start end_ text) (hr : run ≠ []) : ⟨start, end_, text⟩ = blockOf run := by
  obtain ⟨-, hstart, hend⟩ := h.opened hr
  rw [hstart, hend, h.text_eq]

/-- What a turn of the loop does to them, before it asks whether the block is full. -/
theorem Waiting.concat {run : List Segment} {start end_ : Int64} {text : Str} {s : Segment}
    (h : Waiting run start end_ text) (ht : Timed s) (hs : Spoken s) :
    Waiting (run ++ [s]) (if start < 0 then s.startMs else start) s.endMs
      ((if text.isEmpty then text else text ++ kt " ") ++ trim s.text) := by
  refine ⟨?_, ?_, by simp, fun _ => ?_⟩
  · intro t hm
    rcases List.mem_append.mp hm with hm | hm
    · exact h.spoken t hm
    · rwa [List.mem_singleton.mp hm]
  · rw [h.isEmpty, h.text_eq]
    cases run with
    | nil => simp [blockOf, joinToString]
    | cons t rest =>
      rw [blockOf_text, blockOf_text, paragraphText_concat (by simp)]
      rfl
  · have hend : s.endMs = (blockOf (run ++ [s])).endMs := by simp [blockOf]
    cases run with
    | nil =>
      rw [if_pos (h.closed rfl)]
      exact ⟨ht.1, rfl, hend⟩
    | cons t rest =>
      obtain ⟨hpos, hstart, -⟩ := h.opened (by simp)
      rw [if_neg (Int64.not_lt.mpr hpos)]
      exact ⟨hpos, hstart, hend⟩

theorem groupFrom_eq (out : List Block) {run : List Segment} {start end_ : Int64} {text : Str}
    {segments : List Segment} (h : Waiting run start end_ text) (ht : ∀ s ∈ segments, Timed s) :
    groupFrom out start end_ text segments =
      out ++ (fillFrom filled run (spoken segments)).map blockOf := by
  induction segments generalizing out run start end_ text with
  | nil =>
    simp only [groupFrom, h.isEmpty, spoken, List.filter_nil, fillFrom]
    by_cases hr : run = []
    · simp [hr]
    · have hmax : max start 0 = start := by
        change (if start ≤ 0 then 0 else start) = start
        split
        · rename_i hle
          exact Int64.le_antisymm (h.opened hr).1 hle
        · rfl
      simp [hr, hmax, h.block hr]
  | cons s rest ih =>
    have hrest : ∀ t ∈ rest, Timed t := fun t hm => ht t (by simp [hm])
    simp only [groupFrom]
    by_cases hb : isBlank s.text = true
    · have hs : spoken (s :: rest) = spoken rest := by simp [spoken, hb]
      rw [if_pos (by simpa [trim_eq_nil_iff] using hb), hs]
      exact ih out h hrest
    · have hs : spoken (s :: rest) = s :: spoken rest := by simp [spoken, hb]
      have hp : trim s.text ≠ [] := by rwa [ne_eq, trim_eq_nil_iff]
      have hw := h.concat (ht s (by simp)) hp
      rw [if_neg (by simpa using hp), hs, fillFrom]
      generalize (if start < 0 then s.startMs else start) = start' at hw
      generalize (if text.isEmpty then text else text ++ kt " ") ++ trim s.text = text' at hw
      simp only [filled, ← hw.text_eq, decide_eq_true_eq]
      split
      · rw [ih _ (waiting_nil s.endMs) hrest, hw.block (by simp)]
        simp
      · exact ih out hw hrest

theorem group_eq {segments : List Segment} (ht : ∀ s ∈ segments, Timed s) :
    group segments = (fillFrom filled [] (spoken segments)).map blockOf := by
  rw [group, groupFrom_eq [] (waiting_nil 0) ht, List.nil_append]

/-- The blocks are runs of the spoken segments, each closed by the segment that fills it. -/
theorem group_tied (segments : List Segment) (ht : ∀ s ∈ segments, Timed s) :
    ∃ runs : List (List Segment), runs.flatten = spoken segments ∧
      group segments = runs.map blockOf ∧ (∀ run ∈ runs, run ≠ []) ∧
      (∀ b ∈ (group segments).dropLast, blockChars ≤ b.text.length) ∧
      ∀ run ∈ runs, (blockOf run.dropLast).text.length < blockChars := by
  refine ⟨fillFrom filled [] (spoken segments), fillFrom_flatten _ _, group_eq ht,
    fillFrom_ne_nil _ _, fun b hb => ?_, fun run hr => ?_⟩
  · rw [group_eq ht, ← List.map_dropLast, List.mem_map] at hb
    obtain ⟨run, hr, rfl⟩ := hb
    simpa [filled] using fillFrom_full _ _ run hr
  · have h : filled run.dropLast = false :=
      fillFrom_dropLast (by decide) (by decide) (by decide) _ run hr
    simpa [filled] using h

/-- A blank segment between two lines. -/
def silentBetween : List Segment :=
  [⟨0, 1000, kt " Oui. ", false⟩, ⟨1000, 1500, kt "  ", false⟩, ⟨2000, 3000, kt "Non.", false⟩]

theorem group_tied_silent : ∃ runs : List (List Segment), runs.flatten = spoken silentBetween ∧
    group silentBetween = runs.map blockOf := by
  obtain ⟨runs, hcover, hgroup, -⟩ := group_tied silentBetween (by decide)
  exact ⟨runs, hcover, hgroup⟩

end ReadersSpeech.Translator
