import ReadersSpeech.SummariserKept
import ReadersSpeech.SummariserPieces

/-! What `unstuttered` leaves. It compares the lines and sentences of its input, but joins them
with blanks, so that a sentence broken over several lines is one only in what it returns.
-/

set_option autoImplicit false

namespace ReadersSpeech.Summariser
open Splitting
open Prompts (isMark Whole blank)

variable {u : Unicode}

def endsMark (k : Str) : Bool := k.getLast?.any isMark

abbrev joined (ks : List Str) : Str := joinToString (kt " ") ks

@[simp] theorem joined_singleton (k : Str) : joined [k] = k := List.intercalate_singleton

theorem joined_cons (k next : Str) (ks : List Str) :
    joined (k :: next :: ks) = k ++ blank :: joined (next :: ks) :=
  (List.intercalate_cons_cons ..).trans (List.append_assoc k [blank] _)

/-! ### Cutting lines that were joined -/

theorem split_afterBlank (l : Str) :
    splitFrom (afterMark u) (some blank) 0 l = split (afterMark u) l := by
  cases l with
  | nil => rfl
  | cons c rest =>
    have hzero : afterMark u (some blank) (c :: rest) = 0 := by
      rw [Prompts.afterMark_some, show isMark blank = false by decide]
      rfl
    simp only [split, splitFrom, hzero]
    rfl

/-- The blank after a line is cut out with the whitespace behind it where a mark is before. -/
theorem splitFrom_line {prev : Option UInt16} {k : Str} (h : Whole u (prev.toList ++ k))
    (rest : Str) : splitFrom (afterMark u) prev 0 (k ++ blank :: rest) =
      if endsMark (prev.toList ++ k) = true then
        k :: splitFrom (afterMark u) (some blank) (rest.takeWhile u.space).length rest
      else ((split (afterMark u) rest).modifyHead fun q => k ++ blank :: q) := by
  induction k generalizing prev with
  | nil =>
    rw [List.nil_append, List.append_nil, splitFrom]
    cases prev with
    | none =>
      have hzero : afterMark u none (blank :: rest) = 0 := rfl
      rw [hzero, split_afterBlank]
      obtain ⟨q, qs, hq⟩ := splitFrom_cons (afterMark u) none 0 rest
      simp [split, hq, consHead, endsMark]
    | some m =>
      have hb : u.space blank = true := u.space_blank
      rw [Prompts.afterMark_some, List.takeWhile_cons, if_pos hb]
      cases hm : isMark m with
      | true => simp [endsMark, hm]
      | false =>
        rw [split_afterBlank]
        obtain ⟨q, qs, hq⟩ := splitFrom_cons (afterMark u) none 0 rest
        simp [split, hq, consHead, endsMark, hm]
  | cons c k ih =>
    have hrest : Whole u ((some c).toList ++ k) := h.suffix (List.suffix_append _ _)
    have hzero : afterMark u prev (c :: (k ++ blank :: rest)) = 0 := by
      cases prev with
      | none => rfl
      | some m =>
        rw [Prompts.afterMark_some]
        split
        · rename_i hm
          simp [h [] m c k rfl hm]
        · rfl
    have hends : endsMark (prev.toList ++ c :: k) = endsMark ((some c).toList ++ k) := by
      simp [endsMark, List.getLast?_append, List.getLast?_cons]
    rw [List.cons_append, splitFrom, hzero, hends]
    simp only [ih hrest]
    split
    · rfl
    · obtain ⟨q, qs, hq⟩ := splitFrom_cons (afterMark u) none 0 rest
      simp [split, hq, consHead]

theorem split_line {k : Str} (h : Whole u k) (rest : Str) :
    split (afterMark u) (k ++ blank :: rest) =
      if endsMark k = true then
        k :: splitFrom (afterMark u) (some blank) (rest.takeWhile u.space).length rest
      else ((split (afterMark u) rest).modifyHead fun q => k ++ blank :: q) :=
  splitFrom_line (show Whole u ((none : Option UInt16).toList ++ k) from h) rest

/-- Behind a line that ends in a mark the next one begins at once. -/
def Parted (u : Unicode) (ks : List Str) : Prop :=
  ks.IsChain fun k next => endsMark k = true → ∃ c ∈ next.head?, u.space c = false

theorem parted_cons {k next : Str} {ks : List Str} : Parted u (k :: next :: ks) ↔
    (endsMark k = true → ∃ c ∈ next.head?, u.space c = false) ∧ Parted u (next :: ks) :=
  List.isChain_cons_cons

def goesOn (k : Str) : List Str → List Str
  | [] => [k]
  | s :: ss => (k ++ blank :: s) :: ss

/-- A line that does not end in a mark goes on in the next one. -/
def sentencesOf : List Str → List Str
  | [] => []
  | k :: ks => if endsMark k then k :: sentencesOf ks else goesOn k (sentencesOf ks)

theorem sentencesOf_ne_nil {ks : List Str} (h : ks ≠ []) : sentencesOf ks ≠ [] := by
  obtain ⟨k, ks, rfl⟩ := List.exists_cons_of_ne_nil h
  rw [sentencesOf]
  split
  · simp
  · cases sentencesOf ks <;> simp [goesOn]

theorem joined_consLine (k : Str) {ks : List Str} (h : ks ≠ []) :
    joined (k :: ks) = k ++ blank :: joined ks := by
  obtain ⟨q, qs, rfl⟩ := List.exists_cons_of_ne_nil h
  exact joined_cons k q qs

theorem joined_modifyHead (k : Str) {ks : List Str} (h : ks ≠ []) :
    joined (ks.modifyHead fun q => k ++ blank :: q) = k ++ blank :: joined ks := by
  obtain ⟨q, qs, rfl⟩ := List.exists_cons_of_ne_nil h
  simp only [List.modifyHead_cons, joined, joinToString, intercalate_cons_eq, List.append_assoc,
    List.cons_append]

theorem joined_head_iff {next : Str} {ks : List Str} (h : ∀ k ∈ (next :: ks).getLast?, k ≠ []) :
    (joined (next :: ks)).takeWhile u.space = [] ↔ ∃ c ∈ next.head?, u.space c = false := by
  cases next with
  | cons c k =>
    have hhead : ∃ r, joined ((c :: k) :: ks) = c :: r := by
      cases ks with
      | nil => exact ⟨k, joined_singleton (c :: k)⟩
      | cons n ks => exact ⟨_, joined_cons (c :: k) n ks⟩
    obtain ⟨r, hr⟩ := hhead
    cases hc : u.space c <;> simp [hr, hc]
  | nil =>
    have hb : u.space blank = true := u.space_blank
    cases ks with
    | nil => exact absurd rfl (h [] rfl)
    | cons n ks => simp [joined_cons, hb]

/-- Whitespace that was cut out behind a blank is missed. -/
theorem joined_gap_iff (t : Str) :
    joined (splitFrom (afterMark u) (some blank) (t.takeWhile u.space).length t) = t ↔
      t.takeWhile u.space = [] ∧ joined (split (afterMark u) t) = t := by
  by_cases hz : t.takeWhile u.space = []
  · rw [hz, List.length_nil, split_afterBlank]
    exact (and_iff_right rfl).symm
  · refine iff_of_false (fun h => ?_) fun h => hz h.1
    have hlen := length_intercalate_splitFrom (afterMark u) blank (some blank)
      (t.takeWhile u.space).length t
    have hpos := List.length_pos_iff.mpr hz
    have hle := (List.takeWhile_prefix u.space (l := t)).length_le
    have heq := congrArg List.length h
    have hkt : kt " " = [blank] := rfl
    rw [joined, joinToString, hkt] at heq
    omega

/-- Cut again, joined lines give the same text only where blanks alone were cut out. -/
theorem joined_split_iff {ks : List Str} (hne : ks ≠ []) (hw : ∀ k ∈ ks, Whole u k)
    (hlast : ∀ k ∈ ks.getLast?, k ≠ []) :
    (joined (split (afterMark u) (joined ks)) = joined ks ↔ Parted u ks) ∧
      (Parted u ks → split (afterMark u) (joined ks) = sentencesOf ks) := by
  induction ks with
  | nil => exact absurd rfl hne
  | cons k ks ih =>
    have hk : Whole u k := hw k List.mem_cons_self
    cases ks with
    | nil =>
      have hsplit : split (afterMark u) k = [k] :=
        Prompts.splitFrom_eq_of_whole (show Whole u ((none : Option UInt16).toList ++ k) from hk)
      rw [joined_singleton, hsplit]
      refine ⟨iff_of_true (joined_singleton k) (List.isChain_singleton k), fun _ => ?_⟩
      rw [sentencesOf, sentencesOf]
      split <;> rfl
    | cons next ks =>
      have hlast' : ∀ k ∈ (next :: ks).getLast?, k ≠ [] := by
        rwa [List.getLast?_cons_cons] at hlast
      obtain ⟨hiff, hsame⟩ := ih (by simp) (fun k hk => hw k (List.mem_cons_of_mem _ hk)) hlast'
      have hne' : split (afterMark u) (joined (next :: ks)) ≠ [] := splitFrom_ne_nil _ _ _ _
      rw [joined_cons, split_line hk, parted_cons, sentencesOf]
      cases he : endsMark k with
      | false =>
        simp only [Bool.false_eq_true, if_false, false_imp_iff, true_and]
        rw [joined_modifyHead _ hne', List.append_cancel_left_eq, List.cons.injEq]
        refine ⟨by simpa using hiff, fun hp => ?_⟩
        rw [hsame hp]
        obtain ⟨q, qs, hq⟩ := List.exists_cons_of_ne_nil (sentencesOf_ne_nil (by simp) :
          sentencesOf (next :: ks) ≠ [])
        rw [hq]
        rfl
      | true =>
        simp only [if_true, true_imp_iff]
        rw [joined_consLine _ (splitFrom_ne_nil _ _ _ _), List.append_cancel_left_eq,
          List.cons.injEq, joined_gap_iff, joined_head_iff hlast', hiff]
        refine ⟨by simp, fun hp => ?_⟩
        rw [(joined_head_iff hlast').mpr hp.1, List.length_nil, split_afterBlank, hsame hp.2]

/-! ### What is left of them -/

/-- Without the lines that repeat the one before them that has letters or digits, whose key is
`last`. -/
def keptFrom (u : Unicode) (last : Str) : List Str → List Str
  | [] => []
  | k :: ks =>
    if key u k ≠ [] ∧ key u k = last then keptFrom u last ks
    else k :: keptFrom u (if key u k ≠ [] then key u k else last) ks

theorem keptFrom_sublist (last : Str) (ks : List Str) : (keptFrom u last ks).Sublist ks := by
  induction ks generalizing last with
  | nil => exact List.Sublist.slnil
  | cons k ks ih =>
    rw [keptFrom]
    split
    · exact (ih last).cons k
    · exact (ih _).cons_cons k

theorem unstutteredFrom_eq (out last : Str) {ks : List Str} (h : ∀ k ∈ ks, newline ∉ k) :
    unstutteredFrom u out last ks = out ++ (keptFrom u last ks).flatMap (· ++ kt " ") := by
  induction ks generalizing out last with
  | nil => simp [unstutteredFrom, keptFrom]
  | cons k ks ih =>
    obtain ⟨hk, hks⟩ := List.forall_mem_cons.mp h
    have hend : (kt "\n").isSuffixOf k = false := by
      by_contra hs
      have hsuf := List.isSuffixOf_iff_suffix.mp (by simpa using hs : (kt "\n").isSuffixOf k = true)
      exact hk (hsuf.subset (List.mem_singleton_self newline))
    rw [unstutteredFrom, keptFrom]
    dsimp only
    split
    · exact ih out last hks
    · rw [ih _ _ hks, hend]
      simp [List.append_assoc]

/-- No sentence with letters or digits has the key of the one before it that has any. -/
def Unrepeated (u : Unicode) (sentences : List Str) : Prop :=
  ((sentences.map (key u)).filter (· ≠ [])).IsChain (· ≠ ·)

theorem keptFrom_eq_iff (last : Str) (ks : List Str) : keptFrom u last ks = ks ↔
    (last :: (ks.map (key u)).filter (· ≠ [])).IsChain (· ≠ ·) := by
  induction ks generalizing last with
  | nil => simp [keptFrom]
  | cons k ks ih =>
    rw [keptFrom, List.map_cons]
    by_cases hk : key u k = []
    · rw [if_neg (by simp [hk]), if_neg (by simp [hk]), List.filter_cons_of_neg (by simp [hk]),
        List.cons.injEq, ih]
      simp
    · rw [List.filter_cons_of_pos (by simp [hk]), List.isChain_cons_cons]
      by_cases hl : key u k = last
      · rw [if_pos ⟨hk, hl⟩]
        refine iff_of_false (fun h => ?_) fun h => h.1 hl.symm
        have hlen := (keptFrom_sublist (u := u) last ks).length_le
        rw [h, List.length_cons] at hlen
        omega
      · rw [if_neg fun h => hl h.2, if_pos hk, List.cons.injEq, ih]
        simp [Ne.symm hl]

theorem keptFrom_nil_eq_iff (ks : List Str) : keptFrom u [] ks = ks ↔ Unrepeated u ks := by
  rw [keptFrom_eq_iff, Unrepeated]
  have hkeys : ∀ k ∈ (ks.map (key u)).filter (· ≠ []), k ≠ [] := by simp
  generalize (ks.map (key u)).filter (· ≠ []) = keys at hkeys
  cases keys with
  | nil => simp
  | cons k keys =>
    rw [List.isChain_cons_cons]
    exact and_iff_right (hkeys k List.mem_cons_self).symm

/-! ### The text they make -/

theorem flatMap_joined {ks : List Str} (h : ks ≠ []) :
    ks.flatMap (· ++ kt " ") = joined ks ++ kt " " := by
  induction ks with
  | nil => exact absurd rfl h
  | cons k ks ih =>
    cases ks with
    | nil => simp
    | cons next ks =>
      have hkt : kt " " = [blank] := rfl
      rw [List.flatMap_cons, ih (by simp), joined_cons, hkt]
      simp

theorem trim_flatMap (ks : List Str) : trim (ks.flatMap (· ++ kt " ")) = trim (joined ks) := by
  by_cases h : ks = []
  · rw [h]
    rfl
  · rw [flatMap_joined h]
    exact trimBy_append _ (List.forall_mem_singleton.mpr (by decide))

theorem unstuttered_joined (u : Unicode) (text : Str) : unstuttered u text =
    trim (joined (keptFrom u [] (split (sentenceOrLine u) text))) := by
  have havoid : ∀ k ∈ split (sentenceOrLine u) text, newline ∉ k :=
    splitFrom_avoids (sentenceOrLine_newline u) none 0 text
  have hn := unstutteredFrom_newline (u := u) [] [] (split (sentenceOrLine u) text) (by simp)
    havoid
  rw [unstuttered, unpadLines_eq hn, unstutteredFrom_eq [] [] havoid, List.nil_append,
    trim_flatMap]

/-- A text without line breaks is cut after its marks only. -/
theorem split_unbroken {t : Str} (h : newline ∉ t) :
    split (sentenceOrLine u) t = split (afterMark u) t := by
  refine splitFrom_congr (fun prev s hs => ?_) none 0
  rw [sentenceOrLine]
  split
  · rfl
  · rename_i hpos
    rw [if_neg, Nat.eq_zero_of_not_pos hpos]
    intro hhead
    exact h (hs.subset (List.mem_of_mem_head? hhead))

theorem length_joined {ks : List Str} (h : ks ≠ []) :
    (joined ks).length + 1 = (ks.map fun k => k.length + 1).sum := by
  have hlen := congrArg List.length (flatMap_joined h)
  rw [List.length_flatMap, List.length_append] at hlen
  simpa [kt] using hlen.symm

/-- What is left out is missed in the length. -/
theorem length_joined_sublist {as bs : List Str} (h : as.Sublist bs) (hne : as ≠ []) :
    (joined as).length + bs.length ≤ (joined bs).length + as.length := by
  have hbs : bs ≠ [] := by
    rintro rfl
    exact hne (List.sublist_nil.mp h)
  have ha := length_joined hne
  have hb := length_joined hbs
  have hle : (as.map fun k => k.length + 1).sum + bs.length ≤
      (bs.map fun k => k.length + 1).sum + as.length := by
    clear ha hb hne hbs
    induction h with
    | slnil => simp
    | cons k _ ih =>
      simp only [List.map_cons, List.sum_cons, List.length_cons] at ih ⊢
      omega
    | cons_cons k _ ih =>
      simp only [List.map_cons, List.sum_cons, List.length_cons] at ih ⊢
      omega
  omega

theorem length_trim_le (s : Str) : (trim s).length ≤ s.length := by
  obtain ⟨a, b, hs, -⟩ := trimBy_split isWhitespace s
  have hlen := congrArg List.length hs
  rw [List.length_append, List.length_append] at hlen
  have htrim : trim s = trimBy isWhitespace s := rfl
  rw [htrim]
  omega

theorem trim_of_length {s : Str} (h : s.length ≤ (trim s).length) : trim s = s := by
  obtain ⟨a, b, hs, -⟩ := trimBy_split isWhitespace s
  have hlen := congrArg List.length hs
  rw [List.length_append, List.length_append] at hlen
  have htrim : trim s = trimBy isWhitespace s := rfl
  rw [htrim] at h ⊢
  have ha : a = [] := List.length_eq_zero_iff.mp (by omega)
  have hb : b = [] := List.length_eq_zero_iff.mp (by omega)
  rw [ha, hb, List.nil_append, List.append_nil] at hs
  exact hs.symm

/-- A second pass leaves a text as it is when it finds no repeat and no gap but single blanks. -/
theorem unstuttered_fixed_iff {t : Str} (hn : newline ∉ t) (ht : trim t = t) :
    unstuttered u t = t ↔ Unrepeated u (split (afterMark u) t) ∧
      joined (split (afterMark u) t) = t := by
  rw [unstuttered_joined, split_unbroken hn]
  constructor
  · intro h
    have hne : keptFrom u [] (split (afterMark u) t) ≠ [] := by
      obtain ⟨q, qs, hq⟩ := splitFrom_cons (afterMark u) none 0 t
      rw [split, hq, keptFrom, if_neg fun hk => hk.1 hk.2]
      simp
    have hsub := keptFrom_sublist (u := u) [] (split (afterMark u) t)
    have h₁ := length_trim_le (joined (keptFrom u [] (split (afterMark u) t)))
    have h₂ := length_joined_sublist hsub hne
    have h₃ : (joined (split (afterMark u) t)).length ≤ t.length :=
      length_intercalate_splitFrom (afterMark u) blank none 0 t
    have h₄ := hsub.length_le
    rw [h] at h₁
    have hkept := hsub.eq_of_length (by omega)
    refine ⟨(keptFrom_nil_eq_iff _).mp hkept, ?_⟩
    rw [hkept] at h
    have hfull := trim_of_length (s := joined (split (afterMark u) t)) (by rw [h]; exact h₃)
    exact hfull.symm.trans h
  · rintro ⟨hkept, hjoined⟩
    rw [(keptFrom_nil_eq_iff _).mpr hkept, hjoined, ht]

/-! ### Without the whitespace around them -/

def trimHead : List Str → List Str
  | [] => []
  | k :: ks => if isBlank k then trimHead ks else k.dropWhile isWhitespace :: ks

def trimTail : List Str → List Str
  | [] => []
  | k :: ks =>
    match trimTail ks with
    | [] => if isBlank k then [] else [k.rdropWhile isWhitespace]
    | next :: more => k :: next :: more

/-- The lines of a text that are no repeats, without the whitespace around them all. -/
def linesLeft (u : Unicode) (text : Str) : List Str :=
  trimTail (trimHead (keptFrom u [] (split (sentenceOrLine u) text)))

theorem joined_trimHead (ks : List Str) :
    joined (trimHead ks) = (joined ks).dropWhile isWhitespace := by
  induction ks with
  | nil => rfl
  | cons k ks ih =>
    rw [trimHead]
    cases hk : isBlank k with
    | true =>
      have hall : ∀ c ∈ k, isWhitespace c = true := List.all_eq_true.mp hk
      rw [if_pos rfl, ih]
      cases ks with
      | nil => simp [List.dropWhile_eq_nil_iff.mpr hall, joinToString]
      | cons next ks =>
        rw [joined_cons, List.dropWhile_append_of_pos hall,
          List.dropWhile_cons_of_pos (show isWhitespace blank = true by decide)]
    | false =>
      have hne : k.dropWhile isWhitespace ≠ [] := by
        intro hnil
        have hall := List.all_eq_true.mpr (List.dropWhile_eq_nil_iff.mp hnil)
        rw [isBlank, hall] at hk
        cases hk
      rw [if_neg Bool.false_ne_true]
      cases ks with
      | nil => simp
      | cons next ks =>
        rw [joined_cons, joined_cons, List.dropWhile_append, if_neg (by simpa using hne)]

/-- The last line left has something in it. -/
theorem trimTail_last (ks : List Str) : ∀ k ∈ (trimTail ks).getLast?, k ≠ [] := by
  induction ks with
  | nil => simp [trimTail]
  | cons k ks ih =>
    rw [trimTail]
    split
    · split
      · simp
      · rename_i hk
        rintro _ ⟨⟩ hnil
        exact hk (List.all_eq_true.mpr (List.rdropWhile_eq_nil_iff.mp hnil))
    · rename_i next more hks
      rw [hks] at ih
      rwa [List.getLast?_cons_cons]

theorem joined_ne_nil {ks : List Str} (hne : ks ≠ []) (h : ∀ k ∈ ks.getLast?, k ≠ []) :
    joined ks ≠ [] := by
  cases ks with
  | nil => exact absurd rfl hne
  | cons k ks =>
    cases ks with
    | nil =>
      rw [joined_singleton]
      exact h k rfl
    | cons next ks => simp [joined_cons]

theorem joined_last (k : Str) :
    joined (if isBlank k = true then [] else [k.rdropWhile isWhitespace]) =
      k.rdropWhile isWhitespace := by
  split
  · rename_i hk
    rw [List.rdropWhile_eq_nil_iff.mpr (List.all_eq_true.mp hk)]
    rfl
  · exact joined_singleton _

theorem joined_trimTail (ks : List Str) :
    joined (trimTail ks) = (joined ks).rdropWhile isWhitespace := by
  induction ks with
  | nil => rfl
  | cons k ks ih =>
    cases ks with
    | nil =>
      rw [joined_singleton, ← joined_last]
      rfl
    | cons next ks =>
      have hlast := trimTail_last (next :: ks)
      have hsplit : joined (k :: next :: ks) = (k ++ [blank]) ++ joined (next :: ks) := by
        rw [joined_cons, List.append_assoc, List.singleton_append]
      rw [hsplit, rdropWhile_append, ← ih, trimTail]
      cases hks : trimTail (next :: ks) with
      | nil =>
        rw [if_pos (show joined [] = [] from rfl),
          List.rdropWhile_concat_pos _ _ _ (by decide)]
        exact joined_last k
      | cons n more =>
        rw [hks] at hlast
        rw [if_neg (joined_ne_nil (by simp) hlast)]
        dsimp only
        rw [joined_cons, List.append_assoc, List.singleton_append]

theorem joined_linesLeft (u : Unicode) (text : Str) :
    joined (linesLeft u text) = unstuttered u text := by
  rw [unstuttered_joined, linesLeft, joined_trimTail, joined_trimHead]
  rfl

theorem Whole.init {s t : Str} (h : Whole u (s ++ t)) : Whole u s := fun a m c b hab =>
  h a m c (b ++ t) (by rw [hab]; simp)

theorem suffix_of_mem_trimHead {k : Str} {ks : List Str} (h : k ∈ trimHead ks) :
    ∃ line ∈ ks, k <:+ line := by
  induction ks with
  | nil => exact absurd h List.not_mem_nil
  | cons line ks ih =>
    rw [trimHead] at h
    split at h
    · obtain ⟨l, hl, hk⟩ := ih h
      exact ⟨l, List.mem_cons_of_mem _ hl, hk⟩
    · rcases List.mem_cons.mp h with rfl | h
      · exact ⟨line, List.mem_cons_self, List.dropWhile_suffix _⟩
      · exact ⟨k, List.mem_cons_of_mem _ h, List.suffix_rfl⟩

theorem prefix_of_mem_trimTail {k : Str} {ks : List Str} (h : k ∈ trimTail ks) :
    ∃ line ∈ ks, k <+: line := by
  induction ks with
  | nil => exact absurd h List.not_mem_nil
  | cons line ks ih =>
    rw [trimTail] at h
    split at h
    · split at h
      · exact absurd h List.not_mem_nil
      · obtain rfl := List.mem_singleton.mp h
        exact ⟨line, List.mem_cons_self, List.rdropWhile_prefix _ _⟩
    · rename_i next more hmore
      rcases List.mem_cons.mp h with rfl | h
      · exact ⟨k, List.mem_cons_self, List.prefix_rfl⟩
      · obtain ⟨l, hl, hk⟩ := ih (hmore ▸ h)
        exact ⟨l, List.mem_cons_of_mem _ hl, hk⟩

theorem linesLeft_whole (text : Str) : ∀ k ∈ linesLeft u text, Whole u k := by
  intro k hk
  obtain ⟨head, hhead, t, rfl⟩ := prefix_of_mem_trimTail hk
  obtain ⟨line, hline, hsuffix⟩ := suffix_of_mem_trimHead hhead
  have hcut : ∀ prev s, sentenceOrLine u prev s = 0 → afterMark u prev s = 0 := by
    intro prev s hzero
    by_contra hpos
    rw [sentenceOrLine, if_pos (Nat.pos_of_ne_zero hpos)] at hzero
    exact hpos hzero
  have hwhole : Whole u line := split_whole hcut text line ((keptFrom_sublist [] _).subset hline)
  exact Whole.init (hwhole.suffix hsuffix)

/-- Cut again by the same rule, what `unstuttered` gives has no immediate repeat, and a second
pass leaves it as it is. -/
def KeepsOnce (u : Unicode) (text : Str) : Prop :=
  Unrepeated u (split (sentenceOrLine u) (unstuttered u text)) ∧
    unstuttered u (unstuttered u text) = unstuttered u text

theorem keepsOnce_iff_fixed (u : Unicode) (text : Str) : KeepsOnce u text ↔
    Unrepeated u (split (afterMark u) (unstuttered u text)) ∧
      joined (split (afterMark u) (unstuttered u text)) = unstuttered u text := by
  have hn := unstuttered_newline u text
  have ht : trim (unstuttered u text) = unstuttered u text := trim_trim _
  rw [KeepsOnce, split_unbroken hn, unstuttered_fixed_iff hn ht]
  exact and_iff_right_of_imp And.left

/-- A repeat is kept once exactly when the sentences that the lines left make up have no
immediate repeat, and no line begins with whitespace behind one that ends in a mark. -/
theorem unstuttered_keepsOnce_iff (u : Unicode) (text : Str) :
    KeepsOnce u text ↔
      Unrepeated u (sentencesOf (linesLeft u text)) ∧ Parted u (linesLeft u text) := by
  rw [keepsOnce_iff_fixed, ← joined_linesLeft]
  by_cases hne : linesLeft u text = []
  · rw [hne]
    have hkey : key u [] = [] := by rw [key, u.lowercase_nil]; rfl
    refine iff_of_true ⟨?_, rfl⟩ ⟨?_, List.isChain_nil⟩
    · simp [Unrepeated, split, splitFrom, joinToString, hkey]
    · simp [Unrepeated, sentencesOf]
  · obtain ⟨hiff, hsame⟩ := joined_split_iff hne (linesLeft_whole text)
      (trimTail_last (trimHead (keptFrom u [] (split (sentenceOrLine u) text))))
    rw [hiff]
    refine and_congr_left fun hp => ?_
    rw [hsame hp]

/-- The sentence broken over two lines is said again whole, and stays. -/
theorem unstuttered_keeps_twice :
    ¬ KeepsOnce ascii (kt "Hello\nthere. Hello there.") := by
  intro h
  exact absurd h.2 (by decide +kernel)

end ReadersSpeech.Summariser
