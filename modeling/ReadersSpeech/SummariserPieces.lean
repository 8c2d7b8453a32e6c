import ReadersSpeech.Summariser

/-! What the two passes do together. `unstuttered` gives no line back, so `pieces` sees one
paragraph, whatever the transcript was, and cuts it at the ends of sentences.
-/

set_option autoImplicit false

namespace ReadersSpeech.Summariser
open Splitting

variable {u : Unicode}

theorem sentenceOrLine_newline (u : Unicode) (prev : Option UInt16) (s : Str) :
    sentenceOrLine u prev (newline :: s) ≠ 0 := by
  unfold sentenceOrLine
  split
  · omega
  · simp

theorem unstutteredFrom_newline (out last : Str) (sentences : List Str) (ho : newline ∉ out)
    (hs : ∀ s ∈ sentences, newline ∉ s) : newline ∉ unstutteredFrom u out last sentences := by
  induction sentences generalizing out last with
  | nil => exact ho
  | cons s rest ih =>
    have hr : ∀ t ∈ rest, newline ∉ t := fun t ht => hs t (by simp [ht])
    simp only [unstutteredFrom]
    split
    · exact ih out last ho hr
    · refine ih _ _ ?_ hr
      have hb : newline ∉ kt " " := by decide
      have hn : newline ∉ s := hs s (by simp)
      split <;> simp [ho, hn, hb]

theorem unpadLines_eq {s : Str} (h : newline ∉ s) : unpadLines s = s := by
  induction s with
  | nil => rfl
  | cons c s ih =>
    simp only [List.mem_cons, not_or] at h
    have hd : (s.dropWhile (· == codeUnit ' ')).head? ≠ some newline := by
      intro hh
      exact h.2 (List.dropWhile_subset _ (List.mem_of_mem_head? hh))
    simp only [unpadLines, hd, and_false, if_false, ih h.2]

theorem unstuttered_newline (u : Unicode) (text : Str) : newline ∉ unstuttered u text := by
  have hn := unstutteredFrom_newline (u := u) [] [] (split (sentenceOrLine u) text) (by simp)
    (splitFrom_avoids (sentenceOrLine_newline u) none 0 text)
  unfold unstuttered
  rw [unpadLines_eq hn]
  intro hm
  exact hn (trimBy_subset _ _ hm)

theorem paragraphs_eq {s : Str} (h : newline ∉ s) : paragraphs u s = [s] := by
  refine splitFrom_whole (fun c hc prev r => ?_) none
  have hne : c ≠ newline := by rintro rfl; exact h hc
  simp [blankLine, hne]

theorem pieces_eq {s : Str} (h : newline ∉ s) :
    pieces u s = if isBlank s then []
      else if wordsPerPiece < words u s then cutFrom u [] [] 0 (split (afterMark u) s)
      else [trim (s ++ kt "\n\n")] := by
  simp only [pieces, paragraphs_eq h]
  cases hb : isBlank s with
  | true => simp [hb, piecesFrom, flush]
  | false =>
    by_cases hw : wordsPerPiece < words u s
    · simp [hb, piecesFrom, hw, flush]
    · simp [hb, piecesFrom, hw, flush]

theorem spaces_afterMark (u : Unicode) : Spaces u (afterMark u) := by
  intro prev s c hc
  cases prev with
  | none => simp [afterMark] at hc
  | some d =>
    simp only [afterMark] at hc
    split at hc
    · exact spaces_runOf u none s c hc
    · simp at hc

/-- The builder of a piece: it holds `k` words, and the next one begins a word of its own. -/
def Holds (u : Unicode) (chunk : Str) (k : Nat) : Prop :=
  ∀ s, words u (chunk ++ s) = k + words u s

theorem holds_nil (u : Unicode) : Holds u [] 0 := fun s => by simp

theorem holds_sentence (u : Unicode) (sentence : Str) :
    Holds u (sentence ++ kt " ") (words u sentence) := by
  intro s
  have hl : sentence ++ kt " " ++ s = sentence ++ codeUnit ' ' :: s := by simp [kt]
  rw [hl, words_append_space _ _ u.space_blank]

theorem Holds.append {chunk : Str} {k : Nat} (h : Holds u chunk k) (sentence : Str) :
    Holds u (chunk ++ sentence ++ kt " ") (k + words u sentence) := by
  intro s
  rw [List.append_assoc, List.append_assoc, h, ← List.append_assoc, holds_sentence]
  omega

theorem Holds.words_eq {chunk : Str} {k : Nat} (h : Holds u chunk k) :
    words u (trim chunk) = k := by
  have hn := h []
  rw [List.append_nil, words_nil] at hn
  rw [words_trim, hn, Nat.add_zero]

theorem Holds.of_blank {chunk : Str} {k : Nat} (h : Holds u chunk k) (hb : isBlank chunk = true) :
    k = 0 := by
  rw [← h.words_eq, words_trim, words_of_blank hb]

theorem cutFrom_out (out : List Str) (chunk : Str) (k : Nat) (sentences : List Str) :
    cutFrom u out chunk k sentences = out ++ cutFrom u [] chunk k sentences := by
  induction sentences generalizing out chunk k with
  | nil => simp only [cutFrom]; split <;> simp
  | cons s rest ih =>
    simp only [cutFrom]
    split
    · split
      · rw [ih, ih ([] ++ _)]; simp
      · rw [ih, ih ([] ++ _ ++ _)]; simp
    · split
      · rw [ih, ih ([] ++ _)]; simp
      · exact ih out _ _

theorem byWords_words (u : Unicode) (s : Str) :
    ((byWords u s).map (words u)).sum = words u s := by
  have hj : words u ∘ joinToString (kt " ") = List.sum ∘ List.map (words u) :=
    funext fun ts => words_join u ts
  have hs : ((tokens u s).map (words u)).sum = words u s := words_split (spaces_runOf u) s
  rw [byWords, List.map_map, hj, ← List.map_map, ← List.sum_flatten, ← List.map_flatten,
    chunked_flatten, hs]

theorem byWords_ne_nil {s : Str} (hs : 0 < words u s) : (byWords u s).map (words u) ≠ [] := by
  intro hn
  have hsum := byWords_words u s
  rw [hn, List.sum_nil] at hsum
  omega

theorem cutFrom_words {chunk : Str} {k : Nat} (h : Holds u chunk k) (sentences : List Str) :
    ((cutFrom u [] chunk k sentences).map (words u)).sum = k + (sentences.map (words u)).sum := by
  induction sentences generalizing chunk k with
  | nil =>
    simp only [cutFrom]
    split
    · rename_i hb
      simp [h.of_blank hb]
    · simp [h.words_eq]
  | cons s rest ih =>
    simp only [cutFrom, List.map_cons, List.sum_cons]
    split
    · split
      · rw [cutFrom_out, List.map_append, List.sum_append, ih h, List.nil_append,
          byWords_words]
        omega
      · rw [cutFrom_out, List.map_append, List.sum_append, ih (holds_nil u)]
        simp only [List.nil_append, List.map_append, List.sum_append, byWords_words,
          List.map_singleton, h.words_eq, List.sum_singleton]
        omega
    · split
      · rw [cutFrom_out, List.map_append, List.sum_append, ih (holds_sentence u s)]
        simp [h.words_eq]
      · rw [ih (h.append s)]
        omega

/-- Something is to be read in one of them: white space alone makes no piece. -/
def Stands (sentences : List Str) : Prop := ∃ s ∈ sentences, isBlank s = false

@[simp] theorem stands_cons (s : Str) (rest : List Str) :
    Stands (s :: rest) ↔ isBlank s = false ∨ Stands rest := by simp [Stands]

theorem isBlank_sentence (chunk sentence : Str) :
    isBlank (chunk ++ sentence ++ kt " ") = (isBlank chunk && isBlank sentence) := by
  have hb : isBlank (kt " ") = true := by decide
  rw [isBlank_append, isBlank_append, hb, Bool.and_true]

theorem cutFrom_eq_nil_iff {chunk : Str} {k : Nat} (h : Holds u chunk k) (sentences : List Str) :
    cutFrom u [] chunk k sentences = [] ↔ isBlank chunk = true ∧ ¬ Stands sentences := by
  induction sentences generalizing chunk k with
  | nil => simp [cutFrom, Stands]
  | cons s rest ih =>
    rw [stands_cons]
    simp only [cutFrom]
    split
    · rename_i hl
      have hs : isBlank s = false := not_blank_of_words (u := u) (by omega)
      have hne := byWords_ne_nil (u := u) (s := s) (by omega)
      rw [ne_eq, List.map_eq_nil_iff] at hne
      split
      · rw [cutFrom_out]
        simp [hne, hs]
      · rw [cutFrom_out]
        simp [hs]
    · split
      · rename_i hf
        have hb : isBlank chunk ≠ true := fun hb => hf.1.ne' (h.of_blank hb)
        rw [cutFrom_out]
        simp [hb]
      · rw [ih (h.append s), isBlank_sentence]
        simp [and_assoc]

/-- Sentences join a piece while they fit in its 900 words. Where one does not fit, where a
sentence longer than that is cut, and around it, there must be one of `ends`: `n` words lie before
the piece, `k` in it so far. -/
inductive Lands (u : Unicode) (ends : Nat → Prop) : Nat → Nat → List Str → Prop
  | done {n k : Nat} : Lands u ends n k []
  | joins {n k : Nat} {s : Str} {rest : List Str} : k + words u s ≤ wordsPerPiece →
      Lands u ends n (k + words u s) rest → Lands u ends n k (s :: rest)
  | full {n k : Nat} {s : Str} {rest : List Str} : words u s ≤ wordsPerPiece →
      wordsPerPiece < k + words u s → ends (n + k) →
      Lands u ends (n + k) (words u s) rest → Lands u ends n k (s :: rest)
  | long {n k : Nat} {s : Str} {rest : List Str} : wordsPerPiece < words u s →
      (0 < k → ends (n + k)) →
      Stops ends (n + k) ((byWords u s).map (words u)) →
      (Stands rest → ends (n + k + words u s)) →
      Lands u ends (n + k + words u s) 0 rest → Lands u ends n k (s :: rest)

theorem lands_of_le (ends : Nat → Prop) (n k : Nat) (sentences : List Str)
    (h : k + (sentences.map (words u)).sum ≤ wordsPerPiece) : Lands u ends n k sentences := by
  induction sentences generalizing k with
  | nil => exact .done
  | cons s rest ih =>
    simp only [List.map_cons, List.sum_cons] at h
    exact .joins (by omega) (ih _ (by omega))

theorem lands_long_iff {ends : Nat → Prop} {n k : Nat} {s : Str} {rest : List Str}
    (hl : wordsPerPiece < words u s) :
    Lands u ends n k (s :: rest) ↔ (0 < k → ends (n + k)) ∧
      Stops ends (n + k) ((byWords u s).map (words u)) ∧
      (Stands rest → ends (n + k + words u s)) ∧
      Lands u ends (n + k + words u s) 0 rest := by
  constructor
  · intro h
    cases h with
    | joins hj | full hj => omega
    | long _ h₁ h₂ h₃ h₄ => exact ⟨h₁, h₂, h₃, h₄⟩
  · exact fun ⟨h₁, h₂, h₃, h₄⟩ => .long hl h₁ h₂ h₃ h₄

theorem lands_full_iff {ends : Nat → Prop} {n k : Nat} {s : Str} {rest : List Str}
    (hl : words u s ≤ wordsPerPiece) (hf : wordsPerPiece < k + words u s) :
    Lands u ends n k (s :: rest) ↔ ends (n + k) ∧ Lands u ends (n + k) (words u s) rest := by
  constructor
  · intro h
    cases h with
    | joins hj | long hj => omega
    | full _ _ h₁ h₂ => exact ⟨h₁, h₂⟩
  · exact fun ⟨h₁, h₂⟩ => .full hl hf h₁ h₂

theorem lands_joins_iff {ends : Nat → Prop} {n k : Nat} {s : Str} {rest : List Str}
    (hj : k + words u s ≤ wordsPerPiece) :
    Lands u ends n k (s :: rest) ↔ Lands u ends n (k + words u s) rest := by
  constructor
  · intro h
    cases h with
    | joins _ h => exact h
    | full _ hf | long hf => omega
  · exact .joins hj

theorem stops_long (ends : Nat → Prop) (n : Nat) {chunk : Str} (h : Holds u chunk 0)
    (hb : isBlank chunk = true) {s : Str} (rest : List Str) (hs : 0 < words u s) :
    Stops ends n ((byWords u s).map (words u) ++ (cutFrom u [] chunk 0 rest).map (words u)) ↔
      Stops ends n ((byWords u s).map (words u)) ∧
      (Stands rest → ends (n + words u s)) ∧
      Stops ends (n + words u s) ((cutFrom u [] chunk 0 rest).map (words u)) := by
  have hne := byWords_ne_nil hs
  have htail : (cutFrom u [] chunk 0 rest).map (words u) ≠ [] ↔ Stands rest := by
    rw [ne_eq, List.map_eq_nil_iff, cutFrom_eq_nil_iff h, and_iff_right hb, not_not]
  rw [stops_append, byWords_words, htail]
  simp only [ne_eq, hne, not_false_iff, true_imp_iff]

theorem stops_piece (ends : Nat → Prop) (n : Nat) {chunk : Str} {k : Nat} (h : Holds u chunk k)
    {sizes : List Nat} (hs : sizes ≠ []) :
    Stops ends n ([trim chunk].map (words u) ++ sizes) ↔
      ends (n + k) ∧ Stops ends (n + k) sizes := by
  simp only [List.map_cons, List.map_nil, List.singleton_append, Stops, h.words_eq, ne_eq, hs,
    not_false_iff, true_imp_iff]

/-- A piece without a word can stand only where a piece ends already, or at `n = 0`: `hends`. -/
theorem cutFrom_lands (ends : Nat → Prop) {n k : Nat} {chunk : Str} (h : Holds u chunk k)
    (hk : k ≤ wordsPerPiece) (sentences : List Str)
    (hends : k = 0 → isBlank chunk = false ∨ Stands sentences → ends n) :
    Stops ends n ((cutFrom u [] chunk k sentences).map (words u)) ↔
      Lands u ends n k sentences := by
  induction sentences generalizing n k chunk with
  | nil =>
    refine ⟨fun _ => .done, fun _ => ?_⟩
    simp only [cutFrom]
    split <;> simp [Stops]
  | cons s rest ih =>
    rw [stands_cons] at hends
    simp only [cutFrom]
    by_cases hl : wordsPerPiece < words u s
    · have hs : 0 < words u s := by omega
      rw [if_pos hl, lands_long_iff hl]
      by_cases hb : isBlank chunk = true
      · obtain rfl := h.of_blank hb
        rw [if_pos hb, cutFrom_out, List.map_append, List.nil_append, Nat.add_zero,
          stops_long ends n h hb rest hs, forall_prop_of_false (lt_irrefl 0), true_and]
        refine and_congr_right fun _ => and_congr_right fun hrest => ?_
        refine ih h (Nat.zero_le _) fun _ hstands => hrest ?_
        simpa [hb] using hstands
      · have hne : (byWords u s).map (words u) ++ (cutFrom u [] [] 0 rest).map (words u) ≠ [] :=
          List.append_ne_nil_of_left_ne_nil (byWords_ne_nil hs) _
        have hbefore : (0 < k → ends (n + k)) ↔ ends (n + k) := by
          refine ⟨fun hpos => ?_, fun h _ => h⟩
          rcases Nat.eq_zero_or_pos k with rfl | hk0
          · exact hends rfl (.inl (by simpa using hb))
          · exact hpos hk0
        rw [if_neg hb, cutFrom_out, List.map_append, List.nil_append, List.map_append,
          List.append_assoc, stops_piece ends n h hne,
          stops_long ends (n + k) (holds_nil u) isBlank_nil rest hs, hbefore]
        refine and_congr_right fun _ => and_congr_right fun _ => and_congr_right fun hrest => ?_
        refine ih (holds_nil u) (Nat.zero_le _) fun _ hstands => hrest ?_
        simpa using hstands
    · rw [if_neg hl]
      by_cases hf : 0 < k ∧ wordsPerPiece < k + words u s
      · have hstart := holds_sentence u s
        have hpos : words u s ≠ 0 := by omega
        have hne : (cutFrom u [] (s ++ kt " ") (words u s) rest).map (words u) ≠ [] := by
          intro hn
          have hw := cutFrom_words hstart rest
          rw [hn, List.sum_nil] at hw
          omega
        rw [if_pos hf, cutFrom_out, List.map_append, List.nil_append, stops_piece ends n h hne,
          ih hstart (by omega) fun h0 => absurd h0 hpos, lands_full_iff (by omega) hf.2]
      · have hle : k + words u s ≤ wordsPerPiece := by omega
        rw [if_neg hf, lands_joins_iff hle]
        refine ih (h.append s) hle fun h0 hstands => hends (by omega) ?_
        rw [isBlank_sentence, Bool.and_eq_false_iff, or_assoc] at hstands
        exact hstands

/-- What `unstuttered` keeps of the first paragraphs of the transcript has `n` words. -/
def ParagraphEnd (u : Unicode) (transcript : Str) (n : Nat) : Prop :=
  ∃ k, n = words u (unstuttered u (joinToString (kt "\n\n") ((paragraphs u transcript).take k)))

/-- No piece ends inside a paragraph of the transcript. -/
def ReadsWholeParagraphs (u : Unicode) (transcript : Str) : Prop :=
  Stops (ParagraphEnd u transcript) 0 ((pieces u (unstuttered u transcript)).map (words u))

theorem paragraphEnd_zero (u : Unicode) (transcript : Str) : ParagraphEnd u transcript 0 := by
  have hkey : key u [] = [] := by simp [key, u.lowercase_nil, wordsOnly, codePoints, collapse]
  have hout : unstutteredFrom u [] [] [[]] = kt " " := by simp [unstutteredFrom, hkey, kt]
  refine ⟨0, ?_⟩
  rw [List.take_zero]
  have hnone : unstuttered u [] = [] := by
    rw [unstuttered, split, splitFrom, hout]
    decide
  rw [joinToString, List.intercalate_nil, hnone, words_nil]

theorem readsWholeParagraphs_iff (u : Unicode) (transcript : Str) :
    ReadsWholeParagraphs u transcript ↔ Lands u (ParagraphEnd u transcript) 0 0
      (split (afterMark u) (unstuttered u transcript)) := by
  have hsum := words_split (spaces_afterMark u) (unstuttered u transcript)
  unfold ReadsWholeParagraphs
  rw [pieces_eq (unstuttered_newline u transcript)]
  by_cases hw : wordsPerPiece < words u (unstuttered u transcript)
  · have hb : isBlank (unstuttered u transcript) = false := not_blank_of_words (u := u) (by omega)
    rw [hb, if_neg Bool.false_ne_true, if_pos hw]
    exact cutFrom_lands _ (holds_nil u) (Nat.zero_le _) _ fun _ _ => paragraphEnd_zero u transcript
  · have hl : Lands u (ParagraphEnd u transcript) 0 0
        (split (afterMark u) (unstuttered u transcript)) := lands_of_le _ 0 0 _ (by omega)
    refine ⟨fun _ => hl, fun _ => ?_⟩
    rw [if_neg hw]
    split <;> simp [Stops]

/-- Three sentences, of which the first two make a piece. -/
theorem paragraphEnd_of_three {transcript : Str} {a b c : Nat}
    (hs : (split (afterMark u) (unstuttered u transcript)).map (words u) = [a, b, c])
    (hab : a + b ≤ wordsPerPiece) (hc : c ≤ wordsPerPiece) (habc : wordsPerPiece < a + b + c)
    (h : ReadsWholeParagraphs u transcript) : ParagraphEnd u transcript (a + b) := by
  have hsum := words_split (spaces_afterMark u) (unstuttered u transcript)
  rw [hs] at hsum
  simp only [List.sum_cons, List.sum_nil, Nat.add_zero, ← Nat.add_assoc] at hsum
  have hb : isBlank (unstuttered u transcript) = false := not_blank_of_words (u := u) (by omega)
  unfold ReadsWholeParagraphs at h
  rw [pieces_eq (unstuttered_newline u transcript), hb, if_neg Bool.false_ne_true,
    if_pos (by omega), cutFrom_lands _ (holds_nil u) (Nat.zero_le _) _
      fun _ _ => paragraphEnd_zero u transcript] at h
  obtain ⟨s₁, l₁, hl, rfl, h₁⟩ := List.map_eq_cons_iff.mp hs
  obtain ⟨s₂, l₂, rfl, rfl, h₂⟩ := List.map_eq_cons_iff.mp h₁
  obtain ⟨s₃, l₃, rfl, rfl, -⟩ := List.map_eq_cons_iff.mp h₂
  rw [hl, lands_joins_iff (by omega), lands_joins_iff (by omega),
    lands_full_iff hc (by omega)] at h
  simpa using h.1

def monotone (c : Char) (n : Nat) : Str :=
  (List.replicate n [codeUnit c, codeUnit ' ']).flatten ++ [codeUnit c, codeUnit '.']

/-- A paragraph of one word, and one of two sentences of 450. -/
def talk : Str :=
  monotone 'a' 0 ++ kt "\n\n" ++ monotone 'b' 449 ++ kt " " ++ monotone 'c' 449

/-- The first piece ends between the two sentences of the second paragraph. -/
theorem readsWholeParagraphs_talk : (∀ p ∈ paragraphs ascii talk, words ascii p ≤ wordsPerPiece) ∧
    ¬ ReadsWholeParagraphs ascii talk := by
  have hparagraphs : (paragraphs ascii talk).map (words ascii) = [1, 900] := by decide +kernel
  have hjoin : joinToString (kt "\n\n") (paragraphs ascii talk) = talk := by decide +kernel
  have hsentences : (split (afterMark ascii) (unstuttered ascii talk)).map (words ascii) =
      [1, 450, 450] := by decide +kernel
  have hlength : (paragraphs ascii talk).length = 2 := by
    simpa using congrArg List.length hparagraphs
  have hno : ¬ ParagraphEnd ascii talk (1 + 450) := by
    rintro ⟨k, hk⟩
    rcases (by omega : k = 0 ∨ k = 1 ∨ 2 ≤ k) with rfl | rfl | hk2
    · revert hk
      decide +kernel
    · revert hk
      decide +kernel
    · have hsum := words_split (spaces_afterMark ascii) (unstuttered ascii talk)
      rw [hsentences] at hsum
      rw [List.take_of_length_le (by omega), hjoin, ← hsum] at hk
      exact absurd hk (by decide)
  refine ⟨fun p hp => ?_, mt (paragraphEnd_of_three hsentences (by decide) (by decide) (by decide))
    hno⟩
  have hm := List.mem_map_of_mem (f := words ascii) hp
  rw [hparagraphs] at hm
  simp only [List.mem_cons, List.not_mem_nil, or_false] at hm
  unfold wordsPerPiece
  omega

end ReadersSpeech.Summariser
