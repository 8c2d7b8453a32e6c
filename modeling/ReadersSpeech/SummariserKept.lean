import ReadersSpeech.Greedy
import ReadersSpeech.Prompts
import ReadersSpeech.SummariserCancel
import ReadersSpeech.SummariserPieces

/-! Which lines of an answer `keepPoints` keeps, and as what. -/

set_option autoImplicit false

namespace ReadersSpeech.Summariser
open Splitting Greedy
open Prompts (isMark mark_solid Whole)

section FirstSentence
variable {u : Unicode}

def firstSentence (u : Unicode) (p : Str) : Str := (split (afterMark u) p).headD []

/-- The first piece is everything, or ends with a mark. -/
theorem splitFrom_first (prev : Option UInt16) (l : Str) : ∀ q qs,
    splitFrom (afterMark u) prev 0 l = q :: qs →
      qs = [] ∧ q = l ∨ ∃ c, (prev.toList ++ q).getLast? = some c ∧ isMark c = true := by
  induction l generalizing prev with
  | nil =>
    intro q qs h
    obtain ⟨rfl, rfl⟩ := List.cons.inj h
    exact .inl ⟨rfl, rfl⟩
  | cons c rest ih =>
    intro q qs h
    obtain ⟨-, r, rfl, hr⟩ | ⟨n, hn, rfl, -⟩ := splitFrom_cases h
    · rcases ih (some c) r qs hr with ⟨rfl, rfl⟩ | ⟨m, hm, hmark⟩
      · exact .inl ⟨rfl, rfl⟩
      · refine .inr ⟨m, ?_, hmark⟩
        rw [List.getLast?_append, show (c :: r).getLast? = some m from hm]
        rfl
    · cases prev with
      | none => cases hn
      | some d =>
        refine .inr ⟨d, rfl, ?_⟩
        by_contra hd
        rw [Prompts.afterMark_some, if_neg hd] at hn
        cases hn

theorem whole_toList (prev : Option UInt16) : Whole u prev.toList :=
  Prompts.whole_of_unmarked (by cases prev <;> rfl)

theorem whole_cons {prev : Option UInt16} {c : UInt16} {rest q : Str}
    (hn : afterMark u prev (c :: rest) = 0) (h : Whole u (c :: q)) :
    Whole u (prev.toList ++ c :: q) := by
  cases prev with
  | none => exact h
  | some d =>
    intro a m e b hab hm
    cases a with
    | nil =>
      obtain rfl := (List.cons.inj hab).1
      obtain ⟨rfl, -⟩ := List.cons.inj (List.cons.inj hab).2
      by_contra hspace
      rw [Prompts.afterMark_some, if_pos hm, List.takeWhile_cons,
        if_pos (by simpa using hspace)] at hn
      cases hn
    | cons x a => exact h a m e b (List.cons.inj hab).2 hm

/-- Cut at the ends of sentences at least, each piece is whole. -/
theorem splitFrom_pieces {m : Pattern UInt16} (hm : ∀ prev s, m prev s = 0 → afterMark u prev s = 0)
    (prev : Option UInt16) (skip : Nat) (l : Str) : ∀ q qs, splitFrom m prev skip l = q :: qs →
      (if skip = 0 then Whole u (prev.toList ++ q) else Whole u q) ∧ ∀ k ∈ qs, Whole u k := by
  induction l generalizing prev skip with
  | nil =>
    intro q qs h
    obtain ⟨rfl, rfl⟩ := List.cons.inj h
    refine ⟨?_, by simp⟩
    split
    · rw [List.append_nil]
      exact whole_toList prev
    · exact whole_toList none
  | cons c rest ih =>
    intro q qs h
    cases skip with
    | succ skip =>
      obtain ⟨hq, hqs⟩ := ih (some c) skip q qs h
      refine ⟨?_, hqs⟩
      rw [if_neg (Nat.succ_ne_zero skip)]
      split at hq
      · exact hq.suffix (List.suffix_append _ _)
      · exact hq
    | zero =>
      rw [if_pos rfl]
      obtain ⟨hn, r, rfl, hr⟩ | ⟨n, hn, rfl, hr⟩ := splitFrom_cases h
      · obtain ⟨hr', hrs⟩ := ih (some c) 0 r qs hr
        rw [if_pos rfl] at hr'
        exact ⟨whole_cons (hm prev (c :: rest) hn) hr', hrs⟩
      · obtain ⟨r, rs, hqs⟩ := splitFrom_cons m (some c) n rest
        obtain rfl : qs = r :: rs := hr.symm.trans hqs
        obtain ⟨hr', hrs⟩ := ih (some c) n r rs hr
        rw [List.append_nil]
        refine ⟨whole_toList prev, List.forall_mem_cons.mpr ⟨?_, hrs⟩⟩
        split at hr'
        · exact hr'.suffix (List.suffix_append _ _)
        · exact hr'

theorem split_whole {m : Pattern UInt16} (hm : ∀ prev s, m prev s = 0 → afterMark u prev s = 0)
    (l : Str) : ∀ k ∈ split m l, Whole u k := by
  obtain ⟨q, qs, hq⟩ := splitFrom_cons m none 0 l
  obtain ⟨hfirst, hrest⟩ := splitFrom_pieces hm none 0 l q qs hq
  rw [if_pos rfl] at hfirst
  rw [split, hq]
  exact List.forall_mem_cons.mpr ⟨hfirst, hrest⟩

theorem split_cons (u : Unicode) (p : Str) :
    ∃ qs, split (afterMark u) p = firstSentence u p :: qs := by
  obtain ⟨q, qs, h⟩ := splitFrom_cons (afterMark u) none 0 p
  exact ⟨qs, by rw [firstSentence, split, h]; rfl⟩

theorem firstSentence_first (u : Unicode) (p : Str) :
    firstSentence u (firstSentence u p) = firstSentence u p := by
  obtain ⟨qs, h⟩ := split_cons u p
  have hw : Whole u ((none : Option UInt16).toList ++ firstSentence u p) :=
    split_whole (fun _ _ hn => hn) p _ (h ▸ List.mem_cons_self)
  rw [firstSentence, split, Prompts.splitFrom_eq_of_whole hw]
  rfl

theorem firstSentence_cons (u : Unicode) (c : UInt16) (rest : Str) :
    ∃ r, firstSentence u (c :: rest) = c :: r := by
  obtain ⟨r, rs, hr⟩ := splitFrom_cons (afterMark u) (some c) 0 rest
  refine ⟨r, ?_⟩
  rw [firstSentence, split]
  simp only [splitFrom, afterMark, hr, consHead]
  rfl

/-- The first sentence of a trimmed text is trimmed, and has a word. -/
theorem firstSentence_solid {p : Str} (hp : Solid isWhitespace p) :
    Solid isWhitespace (firstSentence u p) := by
  obtain ⟨qs, h⟩ := split_cons u p
  obtain ⟨c, rest, rfl⟩ := List.exists_cons_of_ne_nil hp.ne_nil
  obtain ⟨r, hcons⟩ := firstSentence_cons u c rest
  refine ⟨by simp [hcons], fun _ => ?_, fun hne => ?_⟩
  · simp only [hcons, List.head_cons]
    exact hp.head (by simp)
  · rcases splitFrom_first none (c :: rest) _ qs h with ⟨-, hall⟩ | ⟨m, hm, hmark⟩
    · simp only [hall]
      exact hp.last (by simp)
    · rw [Option.toList_none, List.nil_append, List.getLast?_eq_some_getLast hne] at hm
      rw [Option.some.inj hm]
      exact mark_solid hmark

theorem firstFrom_words {out : Str} {k : Nat} (h : Holds u out k) (hne : out ≠ [])
    (hk : k ≤ pointWords) (rest : List Str) :
    k ≤ words u (trim (firstFrom u out rest)) ∧
      words u (trim (firstFrom u out rest)) ≤ pointWords := by
  induction rest generalizing out k with
  | nil => exact ⟨h.words_eq.ge, h.words_eq.le.trans hk⟩
  | cons sentence rest ih =>
    rw [firstFrom]
    split
    · exact ⟨h.words_eq.ge, h.words_eq.le.trans hk⟩
    · rename_i hroom
      have hout : words u out = k := by rw [← words_trim, h.words_eq]
      have hle : k + words u sentence ≤ pointWords := by
        rw [hout] at hroom
        by_contra hover
        exact hroom ⟨hne, by omega⟩
      obtain ⟨hge, hle⟩ := ih (h.append sentence) (by simp [hne]) hle
      exact ⟨by omega, hle⟩

theorem trim_append_blank {p : Str} (hp : Solid isWhitespace p) : trim (p ++ kt " ") = p := by
  have hend : trim (p ++ kt " ") = trim p :=
    trimBy_append p (List.forall_mem_singleton.mpr (by decide))
  exact hend.trans hp.trimBy_eq

theorem not_blank {p : Str} (hp : Solid isWhitespace p) : isBlank p = false := by
  obtain ⟨c, r, rfl⟩ := List.exists_cons_of_ne_nil hp.ne_nil
  have hc : isWhitespace c = false := hp.head (by simp)
  rw [isBlank_cons, hc, Bool.false_and]

theorem solid_of_trim {p : Str} (hp : trim p = p) (hne : p ≠ []) : Solid isWhitespace p :=
  hp ▸ solid_trimBy (by rw [show trimBy isWhitespace p = p from hp]; exact hne)

theorem firstSentence_words_le (u : Unicode) (p : Str) :
    words u (firstSentence u p) ≤ words u p := by
  obtain ⟨qs, hsplit⟩ := split_cons u p
  rw [← words_split (spaces_afterMark u) p, hsplit]
  simp

theorem ne_nil_of_words {p : Str} {n : Nat} (h : n < words u p) : p ≠ [] := by
  rintro rfl
  exact Nat.not_lt_zero n h

theorem firstSentences_eq {p : Str} {qs : List Str} (hlong : pointWords < words u p)
    (hsplit : split (afterMark u) p = firstSentence u p :: qs) :
    let t := trim (firstFrom u (firstSentence u p ++ kt " ") qs)
    firstSentences u p = if isBlank t then p else t := by
  have hfirst : firstFrom u [] (firstSentence u p :: qs) =
      firstFrom u (firstSentence u p ++ kt " ") qs := by
    rw [firstFrom, if_neg fun h => h.1 rfl, List.nil_append]
  rw [firstSentences, if_neg (not_le.mpr hlong), hsplit, hfirst]

/-- The first sentence is all of the text or ends with its mark, so there is a word in it. -/
theorem firstSentence_words_pos {p : Str} (hp : pointWords < words u p) :
    0 < words u (firstSentence u p) := by
  obtain ⟨qs, h⟩ := split_cons u p
  rcases splitFrom_first none p _ qs h with ⟨-, hall⟩ | ⟨m, hm, hmark⟩
  · rw [hall]
    omega
  · rw [Option.toList_none, List.nil_append] at hm
    exact words_pos_of_mem (List.mem_of_getLast? hm) (Prompts.space_mark hmark) (mark_solid hmark)

/-- A first sentence too long on its own is all that is kept. -/
theorem firstSentences_long {p : Str} (hp : trim p = p)
    (hlong : pointWords < words u (firstSentence u p)) :
    firstSentences u p = firstSentence u p := by
  obtain ⟨qs, hsplit⟩ := split_cons u p
  have hover : pointWords < words u p := hlong.trans_le (firstSentence_words_le u p)
  have hsolid : Solid isWhitespace (firstSentence u p) :=
    firstSentence_solid (solid_of_trim hp (ne_nil_of_words hover))
  have hstop : firstFrom u (firstSentence u p ++ kt " ") qs = firstSentence u p ++ kt " " := by
    cases qs with
    | nil => rfl
    | cons sentence rest =>
      have hout : words u (firstSentence u p ++ kt " ") = words u (firstSentence u p) := by
        rw [← words_trim, (holds_sentence u _).words_eq]
      rw [firstFrom, if_pos ⟨by simp [kt], by omega⟩]
  simp only [firstSentences_eq hover hsplit, hstop, trim_append_blank hsolid, not_blank hsolid,
    Bool.false_eq_true, if_false]

/-- Else the opening is as long as a point may be. -/
theorem firstSentences_short {p : Str}
    (hshort : words u (firstSentence u p) ≤ pointWords) :
    words u (firstSentences u p) ≤ pointWords := by
  by_cases hlong : words u p ≤ pointWords
  · rwa [firstSentences, if_pos hlong]
  · obtain ⟨qs, hsplit⟩ := split_cons u p
    obtain ⟨hge, hle⟩ := firstFrom_words (holds_sentence u (firstSentence u p)) (by simp [kt])
      hshort qs
    have hword : 0 < words u (firstSentence u p) := firstSentence_words_pos (not_le.mp hlong)
    have hspoken : isBlank (trim (firstFrom u (firstSentence u p ++ kt " ") qs)) = false :=
      not_blank_of_words (u := u) (by omega)
    simp only [firstSentences_eq (not_le.mp hlong) hsplit, hspoken, Bool.false_eq_true, if_false]
    exact hle

theorem trim_firstSentences {p : Str} (hp : trim p = p) :
    trim (firstSentences u p) = firstSentences u p := by
  unfold firstSentences
  split
  · exact hp
  · simp only
    split
    · exact hp
    · exact trim_trim _

end FirstSentence

section Kept
variable (d : Device)

/-- What becomes of a line that has a bullet mark. -/
def cleaned (line : Str) : Str := firstSentences d.toUnicode (unbulleted (trim line))

/-- A point: at least four words, not broken off, and not about the talk itself. -/
structure Point (p : Str) : Prop where
  words : 4 ≤ words d.toUnicode p
  comma : ¬ kt "," <:+ p
  semicolon : ¬ kt ";" <:+ p
  plain : narrates d p = false

/-- The point made of a line: its first sentence where that is too long on its own, else no more
than 45 words. -/
structure Opening (line p : Str) : Prop where
  long : pointWords < words d.toUnicode (firstSentence d.toUnicode (unbulleted (trim line))) →
    p = firstSentence d.toUnicode (unbulleted (trim line)) ∧ firstSentence d.toUnicode p = p
  short : words d.toUnicode (firstSentence d.toUnicode (unbulleted (trim line))) ≤ pointWords →
    words d.toUnicode p ≤ pointWords

/-- The points kept are made of `kept`, numbered lines of the answer. -/
structure Kept (raw : Str) (limit : Nat) (kept : List (Str × Nat)) (points : List Str) :
    Prop where
  inOrder : kept.Sublist (lines raw).zipIdx
  bullets : ∀ x ∈ kept, bullet (trim x.1) = true
  made : points = kept.map fun x => cleaned d x.1
  few : points.length ≤ limit
  filtered : ∀ p ∈ points, Point d p
  opening : ∀ x ∈ kept, Opening d x.1 (cleaned d x.1)
  unlike : points.Pairwise fun p q =>
    alike d.toUnicode p q = false ∧ alike d.toUnicode q p = false
  complete : ∀ x ∈ (lines raw).zipIdx, bullet (trim x.1) = true →
    Point d (cleaned d x.1) → x ∈ kept ∨
      (∃ y ∈ kept, y.2 < x.2 ∧ alike d.toUnicode (cleaned d y.1) (cleaned d x.1) = true) ∨
      kept.length = limit ∧ ∀ y ∈ kept, y.2 < x.2

variable {d}

theorem trim_unbulleted (line : Str) : trim (unbulleted line) = unbulleted line := trim_trim _

theorem trim_cleaned (line : Str) : trim (cleaned d line) = cleaned d line :=
  trim_firstSentences (trim_unbulleted _)

theorem opening_cleaned (line : Str) : Opening d line (cleaned d line) where
  long hlong := by
    have h := firstSentences_long (trim_unbulleted _) hlong
    exact ⟨h, by rw [cleaned, h, firstSentence_first]⟩
  short hshort := firstSentences_short hshort

theorem wordsFrom_le (u : Unicode) (inWord : Bool) (s : Str) :
    wordsFrom u inWord s ≤ s.length := by
  induction s generalizing inWord with
  | nil => exact Nat.zero_le _
  | cons c s ih =>
    have hl : (c :: s).length = s.length + 1 := rfl
    rw [wordsFrom, hl]
    split
    · exact (ih false).trans (Nat.le_succ _)
    · split
      · exact (ih inWord).trans (Nat.le_succ _)
      · have hr := ih true
        split <;> omega

/-- For a trimmed line, the tests of the code are those of `Point`. -/
theorem isPoint_iff {p : Str} (hp : trim p = p) : isPoint d p = true ↔ Point d p := by
  have hend : p.rdropWhile isWhitespace = p := by
    rw [List.rdropWhile_eq_self_iff]
    intro hne
    rw [(solid_of_trim hp hne).last hne]
    simp
  have hlen : 4 ≤ words d.toUnicode p → 3 < p.length := by
    intro h4
    have hle := wordsFrom_le d.toUnicode false p
    rw [← words_eq] at hle
    omega
  rw [isPoint, hend]
  simp only [Bool.and_eq_true, decide_eq_true_eq, Bool.not_eq_true', ← Bool.not_eq_true,
    List.isSuffixOf_iff_suffix]
  constructor
  · rintro ⟨⟨-, hn⟩, ⟨hw, hc⟩, hs⟩
    exact ⟨hw, hc, hs, by simpa using hn⟩
  · rintro ⟨hw, hc, hs, hn⟩
    exact ⟨⟨hlen hw, by simp [hn]⟩, ⟨hw, hc⟩, hs⟩

theorem shared_comm {a b : List Str} (ha : a.Nodup) (hb : b.Nodup) :
    (a.filter (b.contains ·)).length = (b.filter (a.contains ·)).length := by
  apply List.Perm.length_eq
  rw [List.perm_ext_iff_of_nodup (ha.filter _) (hb.filter _)]
  intro w
  simp [and_comm]

/-- Equal points are alike. -/
theorem alike_self (u : Unicode) (p : Str) : alike u p p = true := by
  rw [alike]
  by_cases h : (wordSet u p).isEmpty
  · simp [h, u.equalsIgnoreCase_refl]
  · have hpos : (0 : ℚ) < (wordSet u p).length := by
      exact_mod_cast List.length_pos_iff.mpr (by simpa using h)
    have hall : (wordSet u p).filter ((wordSet u p).contains ·) = wordSet u p :=
      List.filter_eq_self.mpr fun w hw => List.contains_iff_mem.mpr hw
    simp only [h, hall, Nat.min_self, div_self hpos.ne']
    norm_num

theorem alike_symm (hsym : ∀ a b, d.equalsIgnoreCase a b = d.equalsIgnoreCase b a) (a b : Str) :
    alike d.toUnicode a b = alike d.toUnicode b a := by
  have hnodup : ∀ s, (wordSet d.toUnicode s).Nodup := fun s => List.nodup_dedup _
  have hshared := shared_comm (hnodup a) (hnodup b)
  simp only [alike, hshared, hsym a b, Nat.min_comm (wordSet d.toUnicode a).length, Bool.or_comm]

/-- The numbered lines that pass every test. -/
def candidates (d : Device) (raw : Str) : List (Str × Nat) :=
  (lines raw).zipIdx.filter fun x => bullet (trim x.1) && isPoint d (cleaned d x.1)

def sayTheSame (d : Device) (x y : Str × Nat) : Bool :=
  alike d.toUnicode (cleaned d x.1) (cleaned d y.1)

theorem candidates_lines (raw : Str) : (candidates d raw).map Prod.fst =
    (lines raw).filter fun line => bullet (trim line) && isPoint d (cleaned d line) := by
  conv_rhs => rw [← List.zipIdx_map_fst 0 (lines raw), List.filter_map]
  rfl

theorem points_eq (raw : Str) : ((((lines raw).map trim).filter bullet).map fun line =>
      firstSentences d.toUnicode (unbulleted line)).filter (isPoint d) =
    (candidates d raw).map fun x => cleaned d x.1 := by
  have hmap : (candidates d raw).map (fun x => cleaned d x.1) =
      ((candidates d raw).map Prod.fst).map (cleaned d) := by
    rw [List.map_map, Function.comp_def]
  have hline : cleaned d = fun line => firstSentences d.toUnicode (unbulleted (trim line)) := rfl
  rw [hmap, candidates_lines, List.filter_map, List.filter_map, List.filter_map, List.map_map,
    List.filter_filter, hline]
  simp only [Function.comp_def, Bool.and_comm]

theorem keepPoints_eq (raw : Str) (limit : Nat) : keepPoints d raw limit =
    ((pick (sayTheSame d) (candidates d raw)).take limit).map fun x => cleaned d x.1 := by
  have hpick : pick (alike d.toUnicode) ((candidates d raw).map fun x => cleaned d x.1) =
      (pick (sayTheSame d) (candidates d raw)).map fun x => cleaned d x.1 := pick_map _ _
  rw [← points_eq] at hpick
  rw [List.map_take]
  exact congrArg (List.take limit) hpick

theorem pairwise_zipIdx {α : Type} (l : List α) : l.zipIdx.Pairwise fun x y => x.2 < y.2 := by
  have h : (l.zipIdx.map Prod.snd).Pairwise (· < ·) := by
    rw [List.zipIdx_map_snd]
    exact List.pairwise_lt_range'
  exact List.pairwise_map.mp h

/-- The filter keeps what it promises. -/
theorem keepPoints_kept (d : Device)
    (hsym : ∀ a b, d.equalsIgnoreCase a b = d.equalsIgnoreCase b a) (raw : Str) (limit : Nat) :
    ∃ kept, Kept d raw limit kept (keepPoints d raw limit) := by
  have hsub : (pick (sayTheSame d) (candidates d raw)).Sublist (candidates d raw) := pick_sublist _
  have hcand : (candidates d raw).Sublist (lines raw).zipIdx := List.filter_sublist
  have hpass : ∀ x ∈ (pick (sayTheSame d) (candidates d raw)).take limit,
      bullet (trim x.1) = true ∧ isPoint d (cleaned d x.1) = true := by
    intro x hx
    have hmem := hsub.subset (List.mem_of_mem_take hx)
    simpa using (List.mem_filter.mp hmem).2
  have hord : ((candidates d raw)).Pairwise fun x y => x.2 < y.2 :=
    (pairwise_zipIdx (lines raw)).sublist hcand
  refine ⟨(pick (sayTheSame d) (candidates d raw)).take limit, ?_⟩
  exact {
    inOrder := (List.take_sublist _ _).trans (hsub.trans hcand)
    bullets := fun x hx => (hpass x hx).1
    made := keepPoints_eq raw limit
    few := List.length_take_le ..
    filtered := by
      rw [keepPoints_eq]
      simp only [List.mem_map]
      rintro p ⟨x, hx, rfl⟩
      exact (isPoint_iff (trim_cleaned x.1)).mp (hpass x hx).2
    opening := fun x _ => opening_cleaned x.1
    unlike := by
      rw [keepPoints_eq, List.pairwise_map]
      refine ((pick_pairwise (candidates d raw)).take).imp fun {x y} h => ?_
      have hxy : alike d.toUnicode (cleaned d x.1) (cleaned d y.1) = false := h
      exact ⟨hxy, alike_symm hsym _ _ ▸ hxy⟩
    complete := by
      intro x hx hb hp
      have hin : x ∈ candidates d raw := by
        rw [candidates, List.mem_filter, hb, (isPoint_iff (trim_cleaned x.1)).mpr hp]
        exact ⟨hx, rfl⟩
      have hcompared : x ∈ pick (sayTheSame d) (candidates d raw) ∨
          ∃ y ∈ pick (sayTheSame d) (candidates d raw), y.2 < x.2 ∧ sayTheSame d y x = true :=
        pick_complete hord hin
      rcases hcompared with hx | ⟨y, hy, hyx, ha⟩
      · exact (take_complete (hord.sublist hsub) limit hx).imp_right .inr
      · rcases take_complete (hord.sublist hsub) limit hy with hy | ⟨hfull, hlast⟩
        · exact .inr (.inl ⟨y, hy, hyx, ha⟩)
        · exact .inr (.inr ⟨hfull, fun z hz => (hlast z hz).trans hyx⟩) }

/-- No point is said twice. -/
theorem Kept.nodup {d : Device} {raw : Str} {limit : Nat} {kept : List (Str × Nat)}
    {points : List Str} (h : Kept d raw limit kept points) : points.Nodup :=
  h.unlike.imp fun {p q} hpq heq => by
    rw [heq, alike_self] at hpq
    exact absurd hpq.1 (by decide)

def fourLines : Str :=
  kt "Here you are:\n- Ships are built in spring.\n* ships are built in the spring,\n- No."

theorem keepPoints_kept_fourLines :
    ∃ kept, Kept plain fourLines 12 kept [kt "Ships are built in spring."] := by
  have hpoints : keepPoints plain fourLines 12 = [kt "Ships are built in spring."] := by decide
  rw [← hpoints]
  exact keepPoints_kept plain (fun _ _ => Bool.beq_comm) fourLines 12

end Kept

end ReadersSpeech.Summariser
