import ReadersSpeech.SummariserWords

/-! Which pieces have a word in them. Only the cut by words hands a piece on without looking: it
takes 900 at a time of what stands between runs of whitespace, be there a word in it or not.
-/

set_option autoImplicit false

namespace ReadersSpeech.Summariser
open Splitting

variable {u : Unicode}

/-- Each has a word. -/
def Spoken (u : Unicode) (ps : List Str) : Prop := ∀ p ∈ ps, 1 ≤ words u p

instance (u : Unicode) (ps : List Str) : Decidable (Spoken u ps) :=
  inferInstanceAs (Decidable (∀ p ∈ ps, _))

@[simp] theorem spoken_append (a b : List Str) :
    Spoken u (a ++ b) ↔ Spoken u a ∧ Spoken u b := List.forall_mem_append

/-- Where there is something to read there is a word. -/
def Voiced (u : Unicode) (block : List Str) : Prop := Stands block → ∃ s ∈ block, 0 < words u s

theorem voiced_of_mem {block : List Str} {s : Str} (hs : s ∈ block) (hw : 0 < words u s) :
    Voiced u block := fun _ => ⟨s, hs, hw⟩

theorem voiced_reverse (block : List Str) : Voiced u block.reverse ↔ Voiced u block := by
  simp only [Voiced, Stands, List.mem_reverse]

def long (u : Unicode) (s : Str) : Bool := decide (wordsPerPiece < words u s)

/-- So it is between two that are longer than a piece, before the first and after the last. -/
def Heard (u : Unicode) (l : List Str) : Prop := ∀ block ∈ l.splitOnP (long u), Voiced u block

/-- What stands between two sentences, or two paragraphs, of a piece. -/
structure Gap (u : Unicode) (sep : Str) : Prop where
  blank : isBlank sep = true
  parts : ∀ a b, words u (a ++ sep ++ b) = words u a + words u b

theorem gap_blank (u : Unicode) : Gap u (kt " ") where
  blank := by decide
  parts a b := by
    have hl : a ++ kt " " ++ b = a ++ codeUnit ' ' :: b := by simp [kt]
    rw [hl, words_append_space _ _ u.space_blank]

theorem gap_lines (u : Unicode) : Gap u (kt "\n\n") where
  blank := by decide
  parts a b := by
    have hl : a ++ kt "\n\n" ++ b = a ++ codeUnit '\n' :: ([] ++ codeUnit '\n' :: b) := by
      simp [kt]
    rw [hl, words_append_space _ _ u.space_newline, words_append_space _ _ u.space_newline,
      words_nil, Nat.zero_add]

/-- The builder of a piece and what it was made of, the last first. -/
structure Grown (u : Unicode) (chunk : Str) (k : Nat) (made : List Str) : Prop where
  holds : Holds u chunk k
  stands : isBlank chunk = false ↔ Stands made
  counts : 0 < k ↔ ∃ s ∈ made, 0 < words u s

theorem grown_nil (u : Unicode) : Grown u [] 0 [] where
  holds := holds_nil u
  stands := by simp [Stands]
  counts := by simp

theorem Grown.add {chunk sep : Str} {k : Nat} {made : List Str} (h : Grown u chunk k made)
    (hsep : Gap u sep) (s : Str) : Grown u (chunk ++ s ++ sep) (k + words u s) (s :: made) where
  holds t := by
    rw [hsep.parts, h.holds, Nat.add_assoc]
  stands := by
    rw [isBlank_append, isBlank_append, hsep.blank, Bool.and_true, Bool.and_eq_false_iff, h.stands,
      stands_cons, or_comm]
  counts := by
    rw [Nat.add_pos_iff_pos_or_pos, h.counts, List.exists_mem_cons_iff, or_comm]

theorem Gap.start {sep : Str} (hsep : Gap u sep) (s : Str) :
    Grown u (s ++ sep) (words u s) [s] := by
  simpa using (grown_nil u).add hsep s

theorem Grown.spoken_iff {chunk : Str} {k : Nat} {made : List Str} (h : Grown u chunk k made)
    (hb : isBlank chunk = false) : Spoken u [trim chunk] ↔ Voiced u made := by
  rw [Spoken, List.forall_mem_singleton, h.holds.words_eq, Nat.one_le_iff_ne_zero,
    ← Nat.pos_iff_ne_zero, h.counts, Voiced, forall_prop_of_true (h.stands.mp hb)]

theorem Grown.voiced_of_blank {chunk : Str} {k : Nat} {made : List Str} (h : Grown u chunk k made)
    (hb : isBlank chunk = true) : Voiced u made := by
  intro hstands
  rw [h.stands.mpr hstands] at hb
  cases hb

theorem Grown.not_blank {chunk : Str} {k : Nat} {made : List Str} (h : Grown u chunk k made)
    (hk : 0 < k) : isBlank chunk = false := by
  by_contra hb
  exact hk.ne' (h.holds.of_blank (by simpa using hb))

theorem flush_spoken {cur : Str} {k : Nat} {made : List Str} (h : Grown u cur k made)
    (out : List Str) : Spoken u (flush out cur) ↔ Spoken u out ∧ Voiced u made := by
  unfold flush
  split
  · rename_i hb
    rw [and_iff_left (h.voiced_of_blank hb)]
  · rename_i hb
    rw [spoken_append, h.spoken_iff (by simpa using hb)]

/-- A block that has its word is decided, so the builder may begin again inside it. -/
theorem voiced_again {s : Str} (hw : 0 < words u s) (rest made : List Str) :
    (∀ block ∈ List.splitOnPPrepend (long u) rest (s :: made), Voiced u block) ↔
      ∀ block ∈ List.splitOnPPrepend (long u) rest [s], Voiced u block := by
  rw [List.splitOnPPrepend_eq_modifyHead, List.splitOnPPrepend_eq_modifyHead]
  obtain ⟨b, bs, hb⟩ := List.exists_cons_of_ne_nil (List.splitOnP_ne_nil (long u) rest)
  simp only [hb, List.modifyHead_cons, List.forall_mem_cons]
  rw [and_iff_right (voiced_of_mem (by simp) hw), and_iff_right (voiced_of_mem (by simp) hw)]

/-- Of what stands between runs of `\s`, 900 in a row are not all blank, counted from the
beginning, nor are those left behind the last 900. -/
def Spread (u : Unicode) (s : Str) : Prop :=
  ∀ g, g * wordsPerPiece < (tokens u s).length →
    ∃ t ∈ ((tokens u s).drop (g * wordsPerPiece)).take wordsPerPiece, isBlank t = false

theorem words_token_join {s : Str} {ts : List Str} (h : ts ⊆ tokens u s) :
    1 ≤ words u (joinToString (kt " ") ts) ↔ ∃ t ∈ ts, isBlank t = false := by
  have hzero : words u (joinToString (kt " ") ts) = 0 ↔ ∀ t ∈ ts, isBlank t = true := by
    rw [words_join, List.sum_eq_zero_iff_forall_eq_nat, List.forall_mem_map]
    exact forall₂_congr fun t ht => words_token_eq_zero_iff (h ht)
  rw [Nat.one_le_iff_ne_zero, ne_eq, hzero]
  simp

theorem byWords_spoken (s : Str) : Spoken u (byWords u s) ↔ Spread u s := by
  have hwindows := forall_mem_chunked (n := wordsPerPiece) (by decide) (tokens u s) fun ts =>
    1 ≤ words u (joinToString (kt " ") ts)
  rw [Spoken, byWords, List.forall_mem_map, hwindows]
  refine forall₂_congr fun g _ => words_token_join (s := s) ?_
  exact List.Subset.trans (List.take_subset _ _) (List.drop_subset _ _)

/-- Every sentence longer than a piece is spread. -/
def LongSpread (u : Unicode) (sentences : List Str) : Prop :=
  ∀ s ∈ sentences, wordsPerPiece < words u s → Spread u s

theorem cutFrom_spoken {chunk : Str} {k : Nat} {made : List Str} (h : Grown u chunk k made)
    (hk : k ≤ wordsPerPiece) (out sentences : List Str) :
    Spoken u (cutFrom u out chunk k sentences) ↔ Spoken u out ∧ LongSpread u sentences ∧
      ∀ block ∈ List.splitOnPPrepend (long u) sentences made, Voiced u block := by
  induction sentences generalizing out chunk k made with
  | nil =>
    have hnone : LongSpread u [] := by simp [LongSpread]
    rw [and_iff_right hnone, List.splitOnPPrepend_nil, List.forall_mem_singleton,
      voiced_reverse]
    exact flush_spoken h out
  | cons s rest ih =>
    rw [LongSpread, List.forall_mem_cons, ← LongSpread]
    simp only [cutFrom]
    split
    · rename_i hlong
      have hp : long u s = true := decide_eq_true hlong
      rw [forall_prop_of_true hlong, ← byWords_spoken, List.splitOnPPrepend_cons_pos hp,
          List.forall_mem_cons, voiced_reverse]
      split
      · rename_i hb
        obtain rfl := h.holds.of_blank hb
        have hnone : Grown u chunk 0 [] := ⟨h.holds, by simp [hb, Stands], by simp⟩
        rw [ih hnone hk, spoken_append, and_iff_right (h.voiced_of_blank hb)]
        simp only [List.splitOnPPrepend_nil_right, and_assoc]
      · rename_i hb
        rw [ih (grown_nil u) (Nat.zero_le _), spoken_append, spoken_append,
          h.spoken_iff (by simpa using hb)]
        simp only [List.splitOnPPrepend_nil_right]
        tauto
    · rename_i hfits
      have hp : long u s = false := decide_eq_false hfits
      rw [forall_prop_of_false hfits, true_and, List.splitOnPPrepend_cons_neg hp]
      split
      · rename_i hfull
        obtain ⟨t, ht, hw⟩ := h.counts.mp hfull.1
        rw [ih ((gap_blank u).start s) (not_lt.mp hfits), spoken_append,
          h.spoken_iff (h.not_blank hfull.1), and_iff_left (voiced_of_mem ht hw),
          voiced_again (by omega) rest made]
      · rename_i hroom
        exact ih (h.add (gap_blank u) s) (by omega) out

theorem piecesFrom_spoken {cur : Str} {count : Nat} {made : List Str}
    (h : Grown u cur count made) (hcount : count ≤ wordsPerPiece) (out paras : List Str) :
    Spoken u (piecesFrom u out cur count paras) ↔ Spoken u out ∧
      (∀ para ∈ paras, wordsPerPiece < words u para →
        LongSpread u (split (afterMark u) para) ∧ Heard u (split (afterMark u) para)) ∧
      ∀ block ∈ List.splitOnPPrepend (long u) paras made, Voiced u block := by
  induction paras generalizing out cur count made with
  | nil =>
    have hnone : ∀ para ∈ ([] : List Str), wordsPerPiece < words u para →
        LongSpread u (split (afterMark u) para) ∧ Heard u (split (afterMark u) para) := by simp
    rw [and_iff_right hnone, List.splitOnPPrepend_nil, List.forall_mem_singleton,
      voiced_reverse]
    exact flush_spoken h out
  | cons para rest ih =>
    rw [List.forall_mem_cons]
    simp only [piecesFrom]
    split
    · rename_i hlong
      have hp : long u para = true := decide_eq_true hlong
      rw [ih (grown_nil u) (Nat.zero_le _), cutFrom_spoken (grown_nil u) (Nat.zero_le _),
        flush_spoken h, forall_prop_of_true hlong, Heard, List.splitOnPPrepend_cons_pos hp,
          List.forall_mem_cons, voiced_reverse]
      simp only [List.splitOnPPrepend_nil_right]
      tauto
    · rename_i hfits
      have hp : long u para = false := decide_eq_false hfits
      rw [forall_prop_of_false hfits, true_and, List.splitOnPPrepend_cons_neg hp]
      split
      · rename_i hfull
        obtain ⟨t, ht, hw⟩ := h.counts.mp hfull.1
        rw [ih ((gap_lines u).start para) (not_lt.mp hfits), flush_spoken h,
          and_iff_left (voiced_of_mem ht hw), voiced_again (by omega) rest made]
      · rename_i hroom
        exact ih (h.add (gap_lines u) para) (by omega) out

theorem words_sentence_le {para s : Str} (hs : s ∈ split (afterMark u) para) :
    words u s ≤ words u para := by
  obtain ⟨before, behind, hsplit⟩ := List.append_of_mem hs
  rw [← words_split (spaces_afterMark u) para, hsplit, List.map_append, List.sum_append,
    List.map_cons, List.sum_cons]
  omega

/-- An empty token where a sentence begins or ends in whitespace, and the words between. -/
theorem tokens_eq (hu : OneSpace u) {s : Str} (hne : s ≠ []) :
    tokens u s = (if s.head?.any isWhitespace then [[]] else []) ++ wordsOf s ++
      if s.getLast?.any isWhitespace then [[]] else [] := by
  have hspace : u.space = isWhitespace := funext hu
  rw [tokens, hspace, split_runOf, List.getLast?_eq_some_getLast hne]
  rfl

theorem wordsOf_solid (hu : OneSpace u) (s : Str) : ∀ t ∈ wordsOf s, isBlank t = false := by
  by_cases hne : s = []
  · rw [hne]
    simp
  have hcount := words_eq_length hu s
  rw [words, tokens_eq hu hne, List.countP_append, List.countP_append] at hcount
  have hzero : ∀ b : Bool, (if b then [[]] else []).countP (fun t : Str => !isBlank t) = 0 := by
    decide
  rw [hzero, hzero, Nat.zero_add, Nat.add_zero, List.countP_eq_length] at hcount
  intro t ht
  simpa using hcount t ht

/-- The tokens do not end with an empty one behind pieces that are full. -/
def EndsHeld (u : Unicode) (s : Str) : Prop :=
  s.getLast?.any isWhitespace = true →
    ¬ wordsPerPiece ∣ words u s + if s.head?.any isWhitespace = true then 1 else 0

theorem spread_iff (hu : OneSpace u) {s : Str} (h : wordsPerPiece < words u s) :
    Spread u s ↔ EndsHeld u s := by
  have hne : s ≠ [] := by
    rintro rfl
    rw [words_nil] at h
    omega
  have hwords : wordsOf s ≠ [] := by
    rw [← List.length_pos_iff, ← words_eq_length hu]
    omega
  have hlength : ∀ b : Bool, (if b then [[]] else [] : List Str).length = if b then 1 else 0 := by
    decide
  have hshort : ∀ b : Bool, (if b then [[]] else [] : List Str).length ≤ 1 := by decide
  have hempty : ∀ b : Bool, ∀ t ∈ (if b then [[]] else [] : List Str), ¬ isBlank t = false := by
    decide
  rw [Spread, tokens_eq hu hne, windows_pass_iff (by decide) (hshort _) (hshort _) (hempty _)
    (wordsOf_solid hu s) hwords, ← words_eq_length hu, hlength, EndsHeld]
  simp

theorem heard_of_oneSpace (hu : OneSpace u) (l : List Str) : Heard u l := by
  rintro block - ⟨s, hs, hb⟩
  obtain ⟨c, hc, hwhite⟩ : ∃ c ∈ s, isWhitespace c = false := by simpa [isBlank] using hb
  exact ⟨s, hs, words_pos_of_mem hc ((hu c).trans hwhite) hwhite⟩

/-- Every piece has a word exactly when every sentence longer than a piece is spread, and what is
joined to a piece is heard: a string of `\s` that Kotlin does not call blank is joined like a word.
Where `\s` is all whitespace, that is a matter of how a long sentence begins and ends, and of how
many words it has.
-/
theorem pieces_spoken_iff (u : Unicode) (text : Str) :
    (Spoken u (pieces u text) ↔ Heard u ((paragraphs u text).filter fun p => !isBlank p) ∧
      ∀ para ∈ paragraphs u text, wordsPerPiece < words u para →
        LongSpread u (split (afterMark u) para) ∧ Heard u (split (afterMark u) para)) ∧
    (OneSpace u → (Spoken u (pieces u text) ↔ ∀ para ∈ paragraphs u text,
      ∀ s ∈ split (afterMark u) para, wordsPerPiece < words u s → EndsHeld u s)) := by
  have hspoken : Spoken u (pieces u text) ↔
      Heard u ((paragraphs u text).filter fun p => !isBlank p) ∧
        ∀ para ∈ paragraphs u text, wordsPerPiece < words u para →
          LongSpread u (split (afterMark u) para) ∧ Heard u (split (afterMark u) para) := by
    rw [pieces, piecesFrom_spoken (grown_nil u) (Nat.zero_le _),
      and_iff_right (show Spoken u [] by simp [Spoken]), and_comm]
    refine and_congr_right fun _ => ⟨fun h para hpara hlong => ?_, fun h para hpara => ?_⟩
    · have hb : isBlank para = false := not_blank_of_words (u := u) (by omega)
      exact h para (List.mem_filter.mpr ⟨hpara, by simp [hb]⟩) hlong
    · exact h para (List.mem_of_mem_filter hpara)
  refine ⟨hspoken, fun hu => hspoken.trans ?_⟩
  rw [and_iff_right (heard_of_oneSpace hu _)]
  refine forall₂_congr fun para _ => ⟨fun h s hs hlong => ?_, fun h _ => ?_⟩
  · have hle := words_sentence_le hs
    exact (spread_iff hu hlong).mp ((h (by omega)).1 s hs hlong)
  · exact ⟨fun s hs hlong => (spread_iff hu hlong).mpr (h s hs hlong), heard_of_oneSpace hu _⟩

theorem pieces_spoken_lines : Spoken oneSpace (pieces oneSpace (kt "Oui. \n\nNon, jamais.")) := by
  refine ((pieces_spoken_iff oneSpace _).2 fun _ => rfl).mpr fun para hpara s hs hlong => ?_
  have hshort : ∀ para ∈ paragraphs oneSpace (kt "Oui. \n\nNon, jamais."),
      ∀ s ∈ split (afterMark oneSpace) para, words oneSpace s ≤ wordsPerPiece := by decide
  exact absurd (hshort para hpara s hs) (Nat.not_le.mpr hlong)

/-- `ascii` with the next line (U+0085) as Android's patterns have it. -/
def nextLined : Unicode :=
  { ascii with
    space := fun c => ascii.space c || c == 0x85
    space_newline := by decide
    space_blank := by decide
    space_mark := by decide }

example : pieces nextLined [0x85] = [[0x85]] ∧ words nextLined [0x85] = 0 := by decide

/-- 1800 words and the blank behind the last. -/
def trailing : Str := (List.replicate 1800 (kt "a ")).flatten

/-- The third piece is empty. -/
theorem pieces_silent_trailing : ¬ Spoken ascii (pieces ascii trailing) := by
  have hempty : [] ∈ pieces ascii trailing := by decide +kernel
  exact fun h => absurd (h [] hempty) (by decide)

end ReadersSpeech.Summariser
