import ReadersSpeech.SummariserPieces

/-! The cutting keeps the words. A builder always ends between two words, so what is appended to it
adds its own words to the end, and a flush hands them on; the count carried beside the builder is
how many it holds.
-/

set_option autoImplicit false

namespace ReadersSpeech.Summariser
open Splitting

variable {u : Unicode}

def wordsOf (s : Str) : List Str := fields isWhitespace s

/-- The `\s` of a regular expression is what `trim` and `isBlank` take for blank. -/
def OneSpace (u : Unicode) : Prop := ∀ c, u.space c = isWhitespace c

theorem OneSpace.within (hu : OneSpace u) {m : Pattern UInt16} (hm : Spaces u m) :
    Within isWhitespace m := fun prev s c hc => by rw [← hu c]; exact hm prev s c hc

theorem whitespace_blank : isWhitespace (codeUnit ' ') = true := by decide

theorem whitespace_newline : isWhitespace newline = true := by decide

@[simp] theorem wordsOf_nil : wordsOf [] = [] := rfl

theorem wordsOf_trim (s : Str) : wordsOf (trim s) = wordsOf s := fields_trimBy s

theorem wordsOf_blank {s : Str} (h : isBlank s = true) : wordsOf s = [] := by
  have hs := fields_separators_append (List.all_eq_true.mp h) []
  rwa [List.append_nil] at hs

theorem wordsOf_token (hu : OneSpace u) {s t : Str} (ht : t ∈ tokens u s) :
    (wordsOf t).length = if isBlank t then 0 else 1 := by
  have hsolid : ∀ c ∈ t, isWhitespace c = false := by
    intro c hc
    by_contra hw
    have hsp : u.space c = true := by rw [hu c]; simpa using hw
    refine splitFrom_avoids (m := runOf u.space) (fun prev r => ?_) none 0 s t ht hc
    simp [runOf, hsp]
  rw [wordsOf, fields_whole hsolid]
  cases t with
  | nil => rfl
  | cons c t => simp [isBlank_cons, hsolid c (by simp)]

/-- `words` counts the words. -/
theorem words_eq_length (hu : OneSpace u) (s : Str) : words u s = (wordsOf s).length := by
  have hsplit : (tokens u s).flatMap wordsOf = wordsOf s :=
    fields_split (hu.within (spaces_runOf u)) s
  rw [← hsplit, words, List.length_flatMap]
  have hcount : ∀ ts : List Str, (∀ t ∈ ts, t ∈ tokens u s) →
      ts.countP (fun t => !isBlank t) = (ts.map fun t => (wordsOf t).length).sum := by
    intro ts hts
    induction ts with
    | nil => rfl
    | cons t ts ih =>
      rw [List.countP_cons, List.map_cons, List.sum_cons, ih fun r hr => hts r (by simp [hr]),
        wordsOf_token hu (hts t (by simp))]
      cases isBlank t <;> simp [Nat.add_comm]
  exact hcount _ fun t ht => ht

/-- The builder ends between two words. -/
def Closed (chunk : Str) : Prop := ∀ s, wordsOf (chunk ++ s) = wordsOf chunk ++ wordsOf s

theorem closed_nil : Closed [] := fun s => by simp

theorem Closed.append {chunk : Str} (h : Closed chunk) (s : Str) {c : UInt16}
    (hc : isWhitespace c = true) (gap : Str) (hgap : ∀ d ∈ gap, isWhitespace d = true) :
    Closed (chunk ++ s ++ c :: gap) ∧ wordsOf (chunk ++ s ++ c :: gap) =
      wordsOf chunk ++ wordsOf s := by
  have hwords : ∀ t, wordsOf (chunk ++ s ++ c :: gap ++ t) =
      wordsOf chunk ++ wordsOf s ++ wordsOf t := by
    intro t
    have hparts : wordsOf (s ++ c :: (gap ++ t)) = wordsOf s ++ wordsOf t := by
      rw [wordsOf, fields_append_cons s (gap ++ t) hc, fields_separators_append hgap]
      rfl
    rw [List.append_assoc, List.append_assoc, h, List.cons_append, hparts, List.append_assoc]
  have hself := hwords []
  rw [List.append_nil, wordsOf_nil, List.append_nil] at hself
  exact ⟨fun t => by rw [hwords t, hself], hself⟩

/-- One more sentence and the blank after it. -/
theorem Closed.sentence {chunk : Str} (h : Closed chunk) (s : Str) :
    Closed (chunk ++ s ++ kt " ") ∧ wordsOf (chunk ++ s ++ kt " ") = wordsOf chunk ++ wordsOf s :=
  h.append s whitespace_blank [] (by simp)

/-- One more paragraph and the empty line after it. -/
theorem Closed.paragraph {cur : Str} (h : Closed cur) (para : Str) :
    Closed (cur ++ para ++ kt "\n\n") ∧
      wordsOf (cur ++ para ++ kt "\n\n") = wordsOf cur ++ wordsOf para :=
  h.append para whitespace_newline [newline] (List.forall_mem_singleton.mpr whitespace_newline)

/-- Pieces none of which is too long, and the words in them one piece after another. -/
structure Cut (out ws : List Str) : Prop where
  words : out.flatMap wordsOf = ws
  fits : ∀ p ∈ out, (wordsOf p).length ≤ wordsPerPiece

theorem Cut.nil : Cut [] [] := ⟨rfl, by simp⟩

theorem Cut.append {out more ws ws' : List Str} (h : Cut out ws) (h' : Cut more ws') :
    Cut (out ++ more) (ws ++ ws') := by
  refine ⟨by rw [List.flatMap_append, h.words, h'.words], fun p hp => ?_⟩
  rcases List.mem_append.mp hp with hp | hp
  · exact h.fits p hp
  · exact h'.fits p hp

/-- A builder with the count of its words. -/
structure Builder (chunk : Str) (k : Nat) : Prop where
  closed : Closed chunk
  count : k = (wordsOf chunk).length
  fits : k ≤ wordsPerPiece

theorem builder_nil : Builder [] 0 := ⟨closed_nil, rfl, Nat.zero_le _⟩

theorem Builder.sentence {chunk : Str} {k : Nat} (h : Builder chunk k) (hu : OneSpace u) {s : Str}
    (hk : k + words u s ≤ wordsPerPiece) : Builder (chunk ++ s ++ kt " ") (k + words u s) := by
  refine ⟨(h.closed.sentence s).1, ?_, hk⟩
  rw [(h.closed.sentence s).2, List.length_append, ← h.count, words_eq_length hu]

theorem Builder.paragraph {cur : Str} {k : Nat} (h : Builder cur k) (hu : OneSpace u) {para : Str}
    (hk : k + words u para ≤ wordsPerPiece) :
    Builder (cur ++ para ++ kt "\n\n") (k + words u para) := by
  refine ⟨(h.closed.paragraph para).1, ?_, hk⟩
  rw [(h.closed.paragraph para).2, List.length_append, ← h.count, words_eq_length hu]

theorem Builder.cut {chunk : Str} {k : Nat} (h : Builder chunk k) :
    Cut [trim chunk] (wordsOf chunk) := by
  refine ⟨by simp [wordsOf_trim], fun p hp => ?_⟩
  rw [List.mem_singleton.mp hp, wordsOf_trim, ← h.count]
  exact h.fits

theorem flush_cut {out ws : List Str} {cur : Str} {count : Nat} (h : Cut out ws)
    (hb : Builder cur count) : Cut (flush out cur) (ws ++ wordsOf cur) := by
  unfold flush
  split
  · rename_i hblank
    rwa [wordsOf_blank hblank, List.append_nil]
  · exact h.append hb.cut

theorem byWords_cut (hu : OneSpace u) (s : Str) : Cut (byWords u s) (wordsOf s) := by
  have hjoin : ∀ ts, wordsOf (joinToString (kt " ") ts) = ts.flatMap wordsOf :=
    fields_join whitespace_blank
  refine ⟨?_, fun p hp => ?_⟩
  · have hsplit : (tokens u s).flatMap wordsOf = wordsOf s :=
      fields_split (hu.within (spaces_runOf u)) s
    rw [byWords, List.flatMap_map, funext hjoin, ← hsplit]
    conv_rhs => rw [← chunked_flatten wordsPerPiece (tokens u s)]
    rw [List.flatMap_def, List.flatMap_def, List.map_flatten, List.flatten_flatten, List.map_map]
    rfl
  · obtain ⟨ts, hts, rfl⟩ := List.mem_map.mp hp
    have hlen := (chunked_sizes (by decide) (tokens u s) ts hts).2
    have hmem : ∀ t ∈ ts, t ∈ tokens u s := fun t ht => by
      rw [← chunked_flatten wordsPerPiece (tokens u s)]
      exact List.mem_flatten_of_mem hts ht
    have hsum : (ts.flatMap wordsOf).length ≤ ts.length := by
      clear hts hp hlen
      induction ts with
      | nil => rfl
      | cons t ts ih =>
        have ht := wordsOf_token hu (hmem t (by simp))
        have hrest := ih fun r hr => hmem r (by simp [hr])
        rw [List.flatMap_cons, List.length_append, List.length_cons, ht]
        split <;> omega
    rw [hjoin]
    omega

theorem cutFrom_cut (hu : OneSpace u) {out ws : List Str} {chunk : Str} {k : Nat}
    (h : Cut out ws) (hb : Builder chunk k) (sentences : List Str) :
    Cut (cutFrom u out chunk k sentences) (ws ++ wordsOf chunk ++ sentences.flatMap wordsOf) := by
  induction sentences generalizing out ws chunk k with
  | nil =>
    rw [List.flatMap_nil, List.append_nil]
    exact flush_cut h hb
  | cons s rest ih =>
    simp only [cutFrom, List.flatMap_cons]
    split
    · have hs := byWords_cut hu s
      split
      · rename_i hblank
        have hr := ih (h.append hs) hb
        rw [wordsOf_blank hblank, List.append_nil] at hr ⊢
        rwa [← List.append_assoc]
      · have hr := ih ((h.append hb.cut).append hs) builder_nil
        rw [wordsOf_nil, List.append_nil] at hr
        simpa only [List.append_assoc] using hr
    · rename_i hfits
      split
      · have hstart := builder_nil.sentence hu (show 0 + words u s ≤ wordsPerPiece by omega)
        rw [Nat.zero_add, List.nil_append] at hstart
        have hr := ih (h.append hb.cut) hstart
        have hwords := (closed_nil.sentence s).2
        rw [List.nil_append] at hwords
        simpa [hwords] using hr
      · have hr := ih h (hb.sentence hu (s := s) (by omega))
        rw [(hb.closed.sentence s).2] at hr
        simpa only [List.append_assoc] using hr

theorem piecesFrom_cut (hu : OneSpace u) {out ws : List Str} {cur : Str} {count : Nat}
    (h : Cut out ws) (hb : Builder cur count) (paras : List Str) :
    Cut (piecesFrom u out cur count paras) (ws ++ wordsOf cur ++ paras.flatMap wordsOf) := by
  induction paras generalizing out ws cur count with
  | nil =>
    rw [List.flatMap_nil, List.append_nil]
    exact flush_cut h hb
  | cons para rest ih =>
    have hsplit : (split (afterMark u) para).flatMap wordsOf = wordsOf para :=
      fields_split (hu.within (spaces_afterMark u)) para
    simp only [piecesFrom, List.flatMap_cons]
    split
    · have hcut := cutFrom_cut hu (flush_cut h hb) builder_nil (split (afterMark u) para)
      rw [hsplit, wordsOf_nil, List.append_nil] at hcut
      have hr := ih hcut builder_nil
      rw [wordsOf_nil, List.append_nil] at hr
      simpa only [List.append_assoc] using hr
    · rename_i hfits
      split
      · have hstart := builder_nil.paragraph hu (show 0 + words u para ≤ wordsPerPiece by omega)
        rw [Nat.zero_add, List.nil_append] at hstart
        have hr := ih (flush_cut h hb) hstart
        have hwords := (closed_nil.paragraph para).2
        rw [List.nil_append] at hwords
        simpa [hwords] using hr
      · have hr := ih h (hb.paragraph hu (show _ + words u para ≤ wordsPerPiece by omega))
        rw [(hb.closed.paragraph para).2] at hr
        simpa only [List.append_assoc] using hr

theorem spaces_blankLine (u : Unicode) : Spaces u (blankLine u) := by
  intro prev s c hc
  cases s with
  | nil => simp [blankLine] at hc
  | cons d s =>
    simp only [blankLine] at hc
    split at hc
    · rename_i hd
      rw [Nat.add_comm, List.take_succ_cons] at hc
      rcases List.mem_cons.mp hc with rfl | hc
      · rw [hd.1]
        exact u.space_newline
      · have hpre := (List.rdropWhile_prefix (· != newline) (s.takeWhile u.space)).trans
          (List.takeWhile_prefix u.space)
        rw [← List.prefix_iff_eq_take.mp hpre] at hc
        exact List.mem_takeWhile_imp ((List.rdropWhile_prefix _ _).subset hc)
    · simp at hc

/-- The paragraphs that are not blank have all the words. -/
theorem paragraphs_words (hu : OneSpace u) (text : Str) :
    ((paragraphs u text).filter fun p => !isBlank p).flatMap wordsOf = wordsOf text := by
  have hsplit : (paragraphs u text).flatMap wordsOf = wordsOf text :=
    fields_split (hu.within (spaces_blankLine u)) text
  rw [← hsplit]
  induction paragraphs u text with
  | nil => rfl
  | cons p ps ih =>
    cases hb : isBlank p with
    | true => simp [hb, ih, wordsOf_blank hb]
    | false => simp [hb, ih]

/-- No word is lost, said twice or cut in two, and no piece is too long. -/
theorem pieces_keep_words (u : Unicode) (hu : OneSpace u) (text : Str) :
    (pieces u text).flatMap wordsOf = wordsOf text ∧
      ∀ p ∈ pieces u text, (wordsOf p).length ≤ wordsPerPiece := by
  have h := piecesFrom_cut hu Cut.nil builder_nil ((paragraphs u text).filter fun p => !isBlank p)
  rw [paragraphs_words hu] at h
  exact ⟨by simpa [pieces] using h.words, h.fits⟩

/-- The tables of `ascii`, with the whitespace of `Char.isWhitespace`. -/
def oneSpace : Unicode :=
  { ascii with
    space := isWhitespace
    space_newline := by decide
    space_blank := by decide
    space_mark := by decide }

theorem pieces_keep_words_lines :
    (pieces oneSpace (kt "Oui. \n\nNon, jamais.")).flatMap wordsOf =
      [kt "Oui.", kt "Non,", kt "jamais."] := by
  rw [(pieces_keep_words oneSpace (fun _ => rfl) (kt "Oui. \n\nNon, jamais.")).1]
  decide

end ReadersSpeech.Summariser
