import ReadersSpeech.ParagraphRule

/-! The desktop's paragraph rule, as score.py of the study states it (`desktop` with voices), beside
the phone's: where a line is given the same opening by both.
-/

set_option autoImplicit false

namespace ReadersSpeech.Desktop
open Paragraphs

/-- One line of a transcript: its times, its text and who says it, where that is known. -/
structure Line (ι : Type) where
  a : Int
  b : Int
  t : Str
  s : Option ι
  deriving DecidableEq, Repr

/-- `str.isspace` of one character. -/
def isspace (c : UInt16) : Bool := isWhitespace c || c == 0x85

/-- `len(t)`, in code points. -/
def len (t : Str) : Nat := (codePoints t).length

/-- `p["t"].rstrip().endswith(_SENTENCE_END)`. -/
def endsSentence (t : Str) : Bool :=
  match t.reverse.dropWhile isspace with
  | [] => false
  | c :: _ => (kt ".?!…»”\"").contains c

inductive Kind where
  | first | voice | pause
  deriving DecidableEq, Repr

section Rule
variable {ι : Type} [DecidableEq ι]

/-- `length` and `prev`, the variables the loop of `desktop` carries. -/
structure Carried (ι : Type) where
  length : Nat
  prev : Option (Line ι)

def other (p l : Line ι) : Bool := l.s.isSome && p.s.isSome && decide (l.s ≠ p.s)

def byPause (length : Nat) (p l : Line ι) : Bool :=
  let pause := l.a - p.b
  let ended := endsSentence p.t
  decide (2000 ≤ pause) || (decide (900 ≤ pause) && ended) ||
    (decide (900 ≤ length) && ended && decide (250 ≤ pause))

def kind (c : Carried ι) (l : Line ι) : Option Kind :=
  match c.prev with
  | none => some .first
  | some p => if other p l then some .voice else if byPause c.length p l then some .pause else none

def carry (start : Bool) (c : Carried ι) (l : Line ι) : Carried ι where
  length := (if start then 0 else c.length) + len l.t
  prev := some l

def desktopFrom (c : Carried ι) : List (Line ι) → List (Option Kind)
  | [] => []
  | l :: rest =>
    if l.t.all isspace then none :: desktopFrom c rest
    else kind c l :: desktopFrom (carry (kind c l).isSome c l) rest

/-- For each line, why a paragraph begins with it; `starts` of the source are the lines with a
reason. -/
def desktop (lines : List (Line ι)) : List (Option Kind) := desktopFrom ⟨0, none⟩ lines

/-- A line as the phone has it, and who says it. -/
abbrev Said (ι : Type) : Type := Segment × Option ι

def line (s : Said ι) : Line ι := ⟨s.1.startMs.toInt, s.1.endMs.toInt, s.1.text, s.2⟩

/-- `newVoice` is set where a speaker and the one before are both known and differ. -/
def Marked (talk : List (Said ι)) : Prop :=
  talk.IsChain fun p s => s.1.newVoice = other (line p) (line s)

instance (talk : List (Said ι)) : Decidable (Marked talk) :=
  inferInstanceAs (Decidable (List.IsChain _ talk))

/-- The pause before a line that both rules ask for. -/
def asked (ended long : Bool) : Int := if ended then if long then 250 else 900 else 2000

/-- The pause as the phone counts it: none after a line that ends before the recording begins. -/
def heard (p s : Segment) : Int := if p.endMs < 0 then 0 else (s.startMs - p.endMs).toInt

/-- The length of a paragraph on the desktop: blanks at the ends of its lines count, blanks between
them do not. -/
def total (p : List (Said ι)) : Nat := (p.map fun s => len s.1.text).sum

/-- After a paragraph `p` that ends with `prev`, the pause before `s` is long enough for both apps
or for neither. -/
def Agree (p : List (Said ι)) (prev s : Said ι) : Prop :=
  asked (Paragraphs.endsSentence (trim prev.1.text))
      (decide (900 ≤ (paragraphText (p.map Prod.fst)).length)) ≤ heard prev.1 s.1 ↔
    asked (endsSentence prev.1.text) (decide (900 ≤ total p)) ≤ s.1.startMs.toInt - prev.1.endMs.toInt

instance (p : List (Said ι)) (prev s : Said ι) : Decidable (Agree p prev s) :=
  inferInstanceAs (Decidable (_ ↔ _))

/-- Wherever the voice goes on, the apps agree; `p` is the desktop's paragraph so far. -/
def AlikeFrom (p : List (Said ι)) (prev : Said ι) : List (Said ι) → Prop
  | [] => True
  | s :: rest =>
    (other (line prev) (line s) = false → Agree p prev s) ∧
      AlikeFrom (if (kind ⟨total p, some (line prev)⟩ (line s)).isSome then [s] else p ++ [s]) s rest

instance decidableAlikeFrom (p : List (Said ι)) (prev : Said ι) :
    (rest : List (Said ι)) → Decidable (AlikeFrom p prev rest)
  | [] => isTrue trivial
  | s :: rest =>
    have := decidableAlikeFrom
      (if (kind ⟨total p, some (line prev)⟩ (line s)).isSome then [s] else p ++ [s]) s rest
    inferInstanceAs (Decidable (_ ∧ _))

def Alike : List (Said ι) → Prop
  | [] => True
  | s :: rest => AlikeFrom [s] s rest

instance : (talk : List (Said ι)) → Decidable (Alike talk)
  | [] => isTrue trivial
  | s :: rest => decidableAlikeFrom [s] s rest

omit [DecidableEq ι] in
theorem byPause_iff (length : Nat) (p l : Line ι) : byPause length p l = true ↔
    asked (endsSentence p.t) (decide (900 ≤ length)) ≤ l.a - p.b := by
  simp only [byPause, asked, Bool.or_eq_true, Bool.and_eq_true, decide_eq_true_eq]
  cases endsSentence p.t with
  | false => simp
  | true =>
    by_cases hl : 900 ≤ length
    · simp [hl]; omega
    · simp [hl]; omega

theorem kind_isSome (c : Carried ι) (p l : Line ι) (h : c.prev = some p) :
    (kind c l).isSome = (other p l || byPause c.length p l) := by
  simp only [kind, h]
  cases ho : other p l <;> cases hb : byPause c.length p l <;> simp

theorem isspace_of_whitespace {c : UInt16} (h : isWhitespace c = true) : isspace c = true := by
  simp [isspace, h]

/-- What is blank to the phone is blank to the desktop. -/
theorem spoken_of_text {s : Segment} (h : s.text.all isspace = false) : Spoken s := by
  intro ht
  have hb : s.text.all isWhitespace = true := (trim_eq_nil_iff _).mp ht
  rw [List.all_eq_true.mpr fun c hc => isspace_of_whitespace (List.all_eq_true.mp hb c hc)] at h
  cases h

theorem gap_heard {c : Paragraphs.Carried} {cur : List Segment} {prev s : Segment}
    (h : Tracks c cur prev) : (gap c s).toInt = heard prev s := by
  rw [gap, heard, h.lastEnd]
  split <;> rfl

/-- The phone's test, short of a runaway paragraph. -/
theorem paused_iff {c : Paragraphs.Carried} {cur : List Segment} {prev s : Segment}
    (h : Tracks c cur prev) (hshort : (paragraphText cur).length < 1200) :
    paused c s = true ↔
      asked (Paragraphs.endsSentence (trim prev.text)) (decide (900 ≤ (paragraphText cur).length)) ≤
        heard prev s := by
  have hrun : ¬ runaway ≤ (paragraphText cur).length := Nat.not_le.mpr hshort
  have hlong : longPauseMs ≤ gap c s ↔ 2000 ≤ heard prev s := by
    rw [Int64.le_iff_toInt_le, gap_heard h]; rfl
  have hsent : sentencePauseMs ≤ gap c s ↔ 900 ≤ heard prev s := by
    rw [Int64.le_iff_toInt_le, gap_heard h]; rfl
  have hbreath : breathMs ≤ gap c s ↔ 250 ≤ heard prev s := by
    rw [Int64.le_iff_toInt_le, gap_heard h]; rfl
  simp only [paused, Bool.or_eq_true, Bool.and_eq_true, decide_eq_true_eq,
    hlong, hsent, hbreath, h.length, hrun, or_false, h.ended, longParagraph, asked]
  cases Paragraphs.endsSentence (trim prev.text) with
  | false => simp
  | true =>
    by_cases hl : 900 ≤ (paragraphText cur).length
    · simp [hl]; omega
    · simp [hl]; omega

/-- One line, with the same paragraph open in both apps. -/
theorem start_eq_iff {c : Paragraphs.Carried} {d : Carried ι} {p : List (Said ι)} {prev s : Said ι}
    (h : Tracks c (p.map Prod.fst) prev.1)
    (hshort : (paragraphText (p.map Prod.fst)).length < 1200) (hlength : d.length = total p)
    (hprev : d.prev = some (line prev)) (hmark : s.1.newVoice = other (line prev) (line s)) :
    start false c s.1 = (kind d (line s)).isSome ↔
      (other (line prev) (line s) = false → Agree p prev s) := by
  have hphone := paused_iff (s := s.1) h hshort
  have hdesktop := byPause_iff d.length (line prev) (line s)
  rw [kind_isSome d (line prev) (line s) hprev, Bool.eq_iff_iff, start, hmark, Bool.false_or,
    Bool.or_eq_true, Bool.or_eq_true, hphone, hdesktop, hlength, Agree]
  cases other (line prev) (line s) with
  | true => simp
  | false => simp [line]

omit [DecidableEq ι] in
theorem total_concat (p : List (Said ι)) (s : Said ι) : total (p ++ [s]) = total p + len s.1.text := by
  simp [total]

omit [DecidableEq ι] in
theorem total_single (s : Said ι) : total [s] = len s.1.text := by
  simp [total]

/-- A paragraph is no longer than the one it grows into. -/
theorem paragraphText_le {p : List Segment} (hp : p ≠ []) (q : List Segment) :
    (paragraphText p).length ≤ (paragraphText (p ++ q)).length := by
  induction q using List.reverseRecOn with
  | nil => simp
  | append_singleton q s ih =>
    rw [← List.append_assoc, paragraphText_concat (by simp [hp])]
    simp only [List.length_append]
    omega

/-- The paragraph being collected is the beginning of the next one. -/
theorem runsFrom_head (c : Paragraphs.Carried) (cur rest : List Segment) :
    ∃ q qs, runsFrom c cur rest = (cur ++ q) :: qs := by
  induction rest generalizing c cur with
  | nil => exact ⟨[], [], by simp [runsFrom]⟩
  | cons s rest ih =>
    rw [runsFrom]
    split
    · exact ⟨[], _, by rw [List.append_nil]⟩
    · obtain ⟨q, qs, h⟩ := ih (Paragraphs.carry false c s) (cur ++ [s])
      exact ⟨s :: q, qs, by simp [h]⟩

theorem short_of_runs {c : Paragraphs.Carried} {cur rest : List Segment} (hcur : cur ≠ [])
    (h : ∀ p ∈ runsFrom c cur rest, (paragraphText p).length < 1200) :
    (paragraphText cur).length < 1200 := by
  obtain ⟨q, qs, hq⟩ := runsFrom_head c cur rest
  exact (paragraphText_le hcur q).trans_lt (h (cur ++ q) (by simp [hq]))

/-- As long as the apps agree, the same paragraph is open in both. -/
theorem startsFrom_eq_iff {c : Paragraphs.Carried} {d : Carried ι} {p : List (Said ι)}
    {prev : Said ι} (rest : List (Said ι)) (h : Tracks c (p.map Prod.fst) prev.1)
    (hlength : d.length = total p) (hprev : d.prev = some (line prev))
    (hmarks : Marked (prev :: rest)) (htext : ∀ s ∈ rest, s.1.text.all isspace = false)
    (hshort : ∀ q ∈ runsFrom c (p.map Prod.fst) (rest.map Prod.fst),
      (paragraphText q).length < 1200) :
    startsFrom false c (rest.map Prod.fst) = (desktopFrom d (rest.map line)).map Option.isSome ↔
      AlikeFrom p prev rest := by
  induction rest generalizing c d p prev with
  | nil => simp [startsFrom, desktopFrom, AlikeFrom]
  | cons s rest ih =>
    have hs := htext s (by simp)
    have htail := fun t ht => htext t (List.mem_cons_of_mem s ht)
    obtain ⟨hmark, hmarks'⟩ := List.isChain_cons_cons.mp hmarks
    have hcur := short_of_runs h.ne_nil hshort
    have hone := start_eq_iff h hcur hlength hprev hmark
    have hkind : kind d (line s) = kind ⟨total p, some (line prev)⟩ (line s) := by
      rw [← hlength, ← hprev]
    have hblank : (line s).t.all isspace = false := hs
    rw [List.map_cons, List.map_cons, startsFrom, desktopFrom, hblank, AlikeFrom]
    simp only [Bool.false_eq_true, if_false, List.map_cons, List.cons.injEq, hone]
    refine and_congr_right fun hagree => ?_
    have hsame := hone.mpr hagree
    rw [← hkind, ← hsame]
    rw [List.map_cons, runsFrom] at hshort
    cases hst : start false c s.1 with
    | true =>
      rw [hst, if_pos rfl] at hshort
      rw [if_pos rfl]
      exact ih (tracks_single c (spoken_of_text hs)) (by simp [carry, total_single, line]) rfl hmarks'
        htail fun q hq => hshort q (List.mem_cons_of_mem _ hq)
    | false =>
      rw [hst, if_neg (by simp)] at hshort
      rw [if_neg (by simp)]
      refine ih ?_ (by simp [carry, total_concat, line, hlength]) rfl hmarks' htail ?_
      · simpa using h.concat (spoken_of_text hs)
      · simpa using hshort

/-- The phone opens the desktop's paragraphs exactly if no pause falls between what the two ask
for. -/
theorem starts_desktop_iff (talk : List (Said ι))
    (htext : ∀ s ∈ talk, s.1.text.all isspace = false) (hmarks : Marked talk)
    (hshort : ∀ p ∈ runs (talk.map Prod.fst), (paragraphText p).length < 1200) :
    starts (talk.map Prod.fst) = (desktop (talk.map line)).map Option.isSome ↔ Alike talk := by
  cases talk with
  | nil => simp [starts, startsFrom, desktop, desktopFrom, Alike]
  | cons s rest =>
    have hs := htext s (by simp)
    have hblank : (line s).t.all isspace = false := hs
    have hrest := startsFrom_eq_iff rest (p := [s]) (tracks_single initial (spoken_of_text hs))
      (d := carry true ⟨0, none⟩ (line s)) (by simp [carry, total_single, line]) rfl hmarks
      (fun t ht => htext t (List.mem_cons_of_mem s ht)) hshort
    rw [List.map_cons, List.map_cons, starts, startsFrom, desktop, desktopFrom, hblank, Alike,
      ← hrest]
    simp only [Bool.false_eq_true, if_false, List.map_cons, List.cons.injEq]
    exact and_iff_right rfl

/-- An interview: a question, the answer, a pause in it. -/
def interview : List (Said Nat) :=
  [(⟨0, 1000, kt "Are you well?", false⟩, some 0), (⟨1100, 2000, kt "I am,", true⟩, some 1),
    (⟨2500, 3000, kt "thank you.", false⟩, some 1), (⟨4000, 5000, kt "And you?", false⟩, some 1)]

theorem starts_desktop_interview : starts (interview.map Prod.fst) =
    (desktop (interview.map line)).map Option.isSome :=
  (starts_desktop_iff interview (by decide) (by decide) (by decide)).mpr (by decide)

/-- A bracket after the full stop ends a sentence on the phone alone. -/
def aside : List (Said Nat) :=
  [(⟨0, 1000, kt "(He laughs.)", false⟩, none), (⟨2000, 3000, kt "Well.", false⟩, none)]

theorem starts_desktop_aside : (∀ s ∈ aside, s.1.text.all isspace = false) ∧ Marked aside ∧
    (∀ p ∈ runs (aside.map Prod.fst), (paragraphText p).length < 1200) ∧
    starts (aside.map Prod.fst) ≠ (desktop (aside.map line)).map Option.isSome := by
  decide

end Rule

end ReadersSpeech.Desktop
