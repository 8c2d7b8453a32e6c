import ReadersSpeech.Summariser

/-! `Prompts` of Prompts.kt: what whisper is given before a piece. The end of the text so far is
handed on, cut to its last 240 characters at a word, unless it says its last sentence twice.
-/

set_option autoImplicit false

namespace ReadersSpeech.Prompts
open Splitting Summariser

def styles : List (Str × Str) :=
  [(kt "en", kt "Hello. This is a careful transcript, with full sentences, commas and full stops."),
    (kt "fr", kt "Bonjour. Voici une transcription soignée, avec des phrases complètes, des virgules et des points."),
    (kt "de", kt "Guten Tag. Dies ist eine sorgfältige Abschrift, mit ganzen Sätzen, Kommas und Punkten."),
    (kt "es", kt "Hola. Esta es una transcripción cuidada, con frases completas, comas y puntos."),
    (kt "pt", kt "Olá. Esta é uma transcrição cuidada, com frases completas, vírgulas e pontos finais."),
    (kt "ru", kt "Здравствуйте. Это аккуратная расшифровка, с полными предложениями, запятыми и точками."),
    (kt "it", kt "Buongiorno. Questa è una trascrizione accurata, con frasi complete, virgole e punti.")]

/-- The style sentence; none when the language is left to detection. -/
def style (language : Option Str) : Str := (language.bind fun l => styles.lookup l).getD []

def blank : UInt16 := codeUnit ' '

/-- `substringAfter(' ')`: the whole string when there is no blank in it. -/
def substringAfter (s : Str) : Str :=
  if s.contains blank then (s.dropWhile (· != blank)).drop 1 else s

def tail (previous : Str) : Str :=
  if previous.length ≤ 240 then previous
  else substringAfter (previous.drop (previous.length - 240))

def sentences (u : Unicode) (text : Str) : List Str :=
  ((split (afterMark u) text).map fun t => u.lowercase (trim t)).filter fun t =>
    decide (8 < t.length)

/-- Whether a text ends by saying the same sentence twice. -/
def stutters (u : Unicode) (text : Str) : Bool :=
  let ss := sentences u text
  if ss.length < 2 then false else ss.dropLast.any fun s => some s == ss.getLast?

def forPiece (u : Unicode) (language : Option Str) (previous : Str) : Str :=
  let t := tail previous
  joinToString (kt " ")
    ([style language, if stutters u t then [] else trim t].filter fun s => !isBlank s)

section Cut
variable {u : Unicode}

def isMark (c : UInt16) : Bool := (kt ".!?…").contains c

theorem mark_solid {c : UInt16} (h : isMark c = true) : isWhitespace c = false := by
  have hc : c = 46 ∨ c = 33 ∨ c = 63 ∨ c = 8230 := by
    simpa [isMark, kt, codeUnit] using h
  rcases hc with rfl | rfl | rfl | rfl <;> decide

/-- No mark inside is followed by whitespace. -/
def Whole (u : Unicode) (s : Str) : Prop :=
  ∀ a m c b, s = a ++ m :: c :: b → isMark m = true → u.space c = false

theorem Whole.suffix {s t : Str} (h : Whole u s) (ht : t <:+ s) : Whole u t := by
  obtain ⟨p, rfl⟩ := ht
  intro a m c b hab
  exact h (p ++ a) m c b (by rw [hab, List.append_assoc])

/-- A sentence of its own, from its first letter to its mark. A letter is white space neither for
Kotlin (`head`) nor for the pattern (`begins`). -/
structure Sentence (u : Unicode) (s : Str) : Prop where
  ne_nil : s ≠ []
  head : isWhitespace (s.head ne_nil) = false
  begins : u.space (s.head ne_nil) = false
  last : isMark (s.getLast ne_nil) = true
  whole : Whole u s

theorem whole_of_unmarked {s : Str} (h : s.dropLast.all (!isMark ·) = true) : Whole u s := by
  intro a m c b hab hm
  have hin : m ∈ s.dropLast := by
    rw [hab, List.dropLast_append_of_ne_nil (by simp), List.dropLast_cons_of_ne_nil (by simp)]
    simp
  have hnot := List.all_eq_true.mp h m hin
  rw [hm] at hnot
  cases hnot

theorem Sentence.trim_eq {s : Str} (h : Sentence u s) : trim s = s :=
  Solid.trimBy_eq ⟨h.ne_nil, fun _ => h.head, fun _ => mark_solid h.last⟩

theorem afterMark_some (u : Unicode) (d : UInt16) (s : Str) : afterMark u (some d) s =
    if isMark d then (s.takeWhile u.space).length else 0 := rfl

/-- What is not cut is one piece, whatever stood before it. -/
theorem splitFrom_eq_of_whole {prev : Option UInt16} {s : Str} (h : Whole u (prev.toList ++ s)) :
    splitFrom (afterMark u) prev 0 s = [s] := by
  induction s generalizing prev with
  | nil => rfl
  | cons c rest ih =>
    have hrest : Whole u ((some c).toList ++ rest) := h.suffix (List.suffix_append _ _)
    have hzero : afterMark u prev (c :: rest) = 0 := by
      cases prev with
      | none => rfl
      | some d =>
        rw [afterMark_some]
        split
        · rename_i hd
          simp [h [] d c rest rfl hd]
        · rfl
    simp only [splitFrom, hzero, ih hrest, consHead]

theorem space_mark {c : UInt16} (h : isMark c = true) : u.space c = false :=
  Bool.eq_false_iff.mpr (List.any_eq_false.mp u.space_mark c (List.contains_iff_mem.mp h))

/-- A run of whitespace cannot reach over a mark. -/
theorem afterMark_append (prev : Option UInt16) {x : Str} (hx : x ≠ [])
    (hlast : isMark (x.getLast hx) = true) (rest : Str) :
    afterMark u prev (x ++ rest) = afterMark u prev x ∧ afterMark u prev x < x.length := by
  have hpos := List.length_pos_iff.mpr hx
  have hshort : (x.takeWhile u.space).length < x.length := by
    refine lt_of_le_of_ne (List.takeWhile_prefix _).length_le fun hlen => ?_
    have hall := (List.takeWhile_prefix u.space).eq_of_length hlen
    have hspace := List.takeWhile_eq_self_iff.mp hall _ (List.getLast_mem hx)
    rw [space_mark hlast] at hspace
    cases hspace
  cases prev with
  | none => exact ⟨rfl, hpos⟩
  | some d =>
    rw [afterMark_some, afterMark_some, List.takeWhile_append, if_neg hshort.ne]
    split
    · exact ⟨rfl, hshort⟩
    · exact ⟨rfl, hpos⟩

theorem Sentence.afterBlank {s : Str} (h : Sentence u s) : Whole u (blank :: s) := by
  intro a m c b hab hm
  cases a with
  | nil =>
    obtain ⟨rfl, -⟩ := List.cons.inj hab
    exact absurd hm (by decide)
  | cons d a => exact h.whole a m c b (List.cons.inj hab).2 hm

theorem Sentence.no_space {s : Str} (h : Sentence u s) : s.takeWhile u.space = [] := by
  obtain ⟨d, t, rfl⟩ := List.exists_cons_of_ne_nil h.ne_nil
  have hd : u.space d = false := h.begins
  simp [hd]

/-- Between a mark and a sentence the blank alone is cut out. -/
theorem Sentence.afterMark_blank {s : Str} (h : Sentence u s) {c : UInt16}
    (hc : isMark c = true) : afterMark u (some c) (blank :: s) = 1 := by
  have hb : u.space blank = true := u.space_blank
  rw [afterMark_some, if_pos hc, List.takeWhile_cons, if_pos hb, h.no_space]
  rfl

/-- The blank after a mark ends the last piece of what is before it; a sentence is one more. -/
theorem splitFrom_concat {s : Str} (hs : Sentence u s) (prev : Option UInt16) {skip : Nat}
    {x : Str} (hx : x ≠ []) (hlast : isMark (x.getLast hx) = true) (hskip : skip < x.length) :
    splitFrom (afterMark u) prev skip (x ++ blank :: s) =
      splitFrom (afterMark u) prev skip x ++ [s] := by
  induction x generalizing prev skip with
  | nil => exact absurd rfl hx
  | cons c x ih =>
    obtain ⟨hsame, hless⟩ := afterMark_append (u := u) prev hx hlast (blank :: s)
    rw [List.cons_append] at hsame ⊢
    by_cases hne : x = []
    · subst hne
      obtain rfl : skip = 0 := by simpa using hskip
      have hzero : afterMark u prev [c] = 0 := by simpa using hless
      have hone : afterMark u (some c) (blank :: s) = 1 := hs.afterMark_blank hlast
      rw [hzero] at hsame
      have hrest : splitFrom (afterMark u) (some blank) 0 s = [s] :=
        splitFrom_eq_of_whole hs.afterBlank
      simp only [List.nil_append] at hsame ⊢
      simp [splitFrom, hsame, hzero, hone, hrest, consHead]
    · have hlast' : isMark (x.getLast hne) = true := by rwa [List.getLast_cons hne] at hlast
      cases skip with
      | succ skip =>
        have hin : skip < x.length := by simpa using hskip
        simpa only [splitFrom] using ih (some c) hne hlast' hin
      | zero =>
        have hcut := fun n (hn : n < x.length) => ih (some c) hne hlast' hn
        simp only [splitFrom, hsame]
        cases hn : afterMark u prev (c :: x) with
        | zero =>
          obtain ⟨q, qs, hq⟩ := splitFrom_cons (afterMark u) (some c) 0 x
          simp [hcut 0 (List.length_pos_iff.mpr hne), hq, consHead]
        | succ n =>
          rw [hn, List.length_cons] at hless
          simp [hcut n (by omega)]

theorem sentences_concat {s x : Str} (hs : Sentence u s) (hlong : 8 < (u.lowercase s).length)
    (hx : x ≠ []) (hlast : isMark (x.getLast hx) = true) :
    sentences u (x ++ blank :: s) = sentences u x ++ [u.lowercase s] := by
  have hsplit : split (afterMark u) (x ++ blank :: s) = split (afterMark u) x ++ [s] :=
    splitFrom_concat hs none hx hlast (List.length_pos_iff.mpr hx)
  simp [sentences, hsplit, hs.trim_eq, hlong]

theorem sentences_whole {s : Str} (h : Whole u s) : (sentences u s).length ≤ 1 := by
  have hsplit : split (afterMark u) s = [s] := splitFrom_eq_of_whole h
  rw [sentences, hsplit]
  exact (List.length_filter_le _ _).trans (by simp)

theorem sentences_nil (u : Unicode) : sentences u [] = [] := by
  simp [sentences, split, splitFrom, u.lowercase_nil]

theorem getLast_of_suffix {x y : Str} (h : x <:+ y) (hx : x ≠ []) (hy : y ≠ []) :
    x.getLast hx = y.getLast hy := by
  obtain ⟨p, rfl⟩ := h
  exact (List.getLast_append_of_ne_nil _ hx).symm

/-- What follows the first blank, nothing if there is none. -/
def afterBlank (s : Str) : Str := (s.dropWhile (· != blank)).drop 1

theorem afterBlank_suffix (s : Str) : afterBlank s <:+ s :=
  (List.drop_suffix _ _).trans (List.dropWhile_suffix _)

theorem afterBlank_ne_nil {s : Str} (hs : s ≠ []) (hlast : isMark (s.getLast hs) = true)
    (hb : blank ∈ s) : afterBlank s ≠ [] := by
  intro hnil
  have hd : s.dropWhile (· != blank) ≠ [] := by
    simpa [List.dropWhile_eq_nil_iff] using hb
  have hhead : (s.dropWhile (· != blank)).head hd = blank := by
    simpa using List.head_dropWhile_not (· != blank) hd
  obtain ⟨c, rest, hc⟩ := List.exists_cons_of_ne_nil hd
  rw [afterBlank, hc] at hnil
  obtain rfl : rest = [] := hnil
  have hl := getLast_of_suffix (List.dropWhile_suffix (· != blank)) hd hs
  simp only [hc, List.head_cons, List.getLast_singleton] at hhead hl
  rw [← hl, hhead] at hlast
  exact absurd hlast (by decide)

theorem substringAfter_append (x s : Str) : substringAfter (x ++ blank :: s) =
    if blank ∈ x then afterBlank x ++ blank :: s else s := by
  have hcontains : (x ++ blank :: s).contains blank = true := by simp
  rw [substringAfter, if_pos hcontains, List.dropWhile_append]
  by_cases hb : blank ∈ x
  · have hd : x.dropWhile (· != blank) ≠ [] := by simpa [List.dropWhile_eq_nil_iff] using hb
    obtain ⟨c, rest, hc⟩ := List.exists_cons_of_ne_nil hd
    simp [hb, afterBlank, hc]
  · have hd : x.dropWhile (· != blank) = [] := by
      rw [List.dropWhile_eq_nil_iff]
      intro c hc
      simpa using ne_of_mem_of_not_mem hc hb
    simp [hb, hd]

theorem afterBlank_eq_nil {s : Str} (hb : blank ∉ s) : afterBlank s = [] := by
  have hd : s.dropWhile (· != blank) = [] := by
    rw [List.dropWhile_eq_nil_iff]
    intro c hc
    simpa using ne_of_mem_of_not_mem hc hb
  rw [afterBlank, hd, List.drop_nil]

theorem substringAfter_suffix (s : Str) : substringAfter s <:+ s := by
  unfold substringAfter
  split
  · exact afterBlank_suffix s
  · exact List.suffix_refl s

theorem substringAfter_ne_nil {s : Str} (hs : s ≠ []) (hlast : isMark (s.getLast hs) = true) :
    substringAfter s ≠ [] := by
  unfold substringAfter
  split
  · rename_i hb
    exact afterBlank_ne_nil hs hlast (by simpa using hb)
  · exact hs

/-- What the cut leaves of `p ++ s` where a blank and `s` once more come after it. -/
def kept (p s : Str) : Str :=
  let w := p ++ s
  if w.length + 1 + s.length ≤ 240 then w
  else afterBlank (w.drop (w.length - (239 - s.length)))

theorem getLast_drop {w : Str} (hw : w ≠ []) {n : Nat} (hn : n < w.length) :
    ∃ h : w.drop n ≠ [], (w.drop n).getLast h = w.getLast hw := by
  have h : w.drop n ≠ [] := by
    rw [ne_eq, List.drop_eq_nil_iff]
    omega
  exact ⟨h, getLast_of_suffix (List.drop_suffix n w) h hw⟩

/-- The cut reaches into what stands before the last blank. -/
theorem tail_cut_before {w s : Str} (hlong : 240 < w.length + 1 + s.length)
    (hroom : s.length < 239) : tail (w ++ blank :: s) =
      if blank ∈ w.drop (w.length - (239 - s.length)) then
        afterBlank (w.drop (w.length - (239 - s.length))) ++ blank :: s
      else s := by
  have hn : w.length + (s.length + 1) - 240 = w.length - (239 - s.length) := by omega
  rw [tail, List.length_append, List.length_cons, if_neg (by omega), hn,
    List.drop_append_of_le_length (Nat.sub_le _ _), substringAfter_append]

/-- The cut reaches as far as the last blank, or beyond it. -/
theorem tail_cut_within {w s : Str} (hs : s ≠ []) (hlast : isMark (s.getLast hs) = true)
    (hfull : 239 ≤ s.length) (hw : w ≠ []) :
    tail (w ++ blank :: s) ≠ [] ∧ tail (w ++ blank :: s) <:+ s := by
  have hpos := List.length_pos_iff.mpr hw
  have hn : w.length + (s.length + 1) - 240 = w.length + (s.length + 1 - 240) := by omega
  rw [tail, List.length_append, List.length_cons, if_neg (by omega), hn, List.drop_append,
    List.drop_eq_nil_of_le (Nat.le_add_right _ _), List.nil_append, Nat.add_sub_cancel_left]
  cases hcut : s.length + 1 - 240 with
  | zero =>
    have hself := substringAfter_append [] s
    rw [List.nil_append, if_neg List.not_mem_nil] at hself
    rw [List.drop_zero, hself]
    exact ⟨hs, List.suffix_refl s⟩
  | succ n =>
    obtain ⟨hr, heq⟩ := getLast_drop hs (show n < s.length by omega)
    rw [List.drop_succ_cons]
    exact ⟨substringAfter_ne_nil hr ((congrArg isMark heq).trans hlast),
      (substringAfter_suffix _).trans (List.drop_suffix n s)⟩

theorem tail_twice {p s : Str} (hs : Sentence u s) :
    (∃ hk : kept p s ≠ [], isMark ((kept p s).getLast hk) = true ∧
        tail (p ++ s ++ kt " " ++ s) = kept p s ++ blank :: s) ∨
      kept p s = [] ∧ tail (p ++ s ++ kt " " ++ s) ≠ [] ∧ tail (p ++ s ++ kt " " ++ s) <:+ s := by
  have htext : p ++ s ++ kt " " ++ s = p ++ s ++ blank :: s := by simp [kt, blank]
  have hw : p ++ s ≠ [] := by simp [hs.ne_nil]
  have hwlast : isMark ((p ++ s).getLast hw) = true := by
    rw [List.getLast_append_of_ne_nil _ hs.ne_nil]
    exact hs.last
  have hwlen : s.length ≤ (p ++ s).length := by simp
  rw [htext, kept]
  generalize p ++ s = w at hw hwlast hwlen
  by_cases hshort : w.length + 1 + s.length ≤ 240
  · rw [if_pos hshort, tail, List.length_append, List.length_cons, if_pos (by omega)]
    exact .inl ⟨hw, hwlast, rfl⟩
  rw [if_neg hshort]
  by_cases hroom : s.length < 239
  · rw [tail_cut_before (by omega) hroom]
    obtain ⟨hy, heq⟩ := getLast_drop hw (show w.length - (239 - s.length) < w.length by omega)
    have hylast := (congrArg isMark heq).trans hwlast
    generalize w.drop (w.length - (239 - s.length)) = y at hy hylast
    by_cases hb : blank ∈ y
    · have hk := afterBlank_ne_nil hy hylast hb
      have hklast := (congrArg isMark (getLast_of_suffix (afterBlank_suffix y) hk hy)).trans hylast
      rw [if_pos hb]
      exact .inl ⟨hk, hklast, rfl⟩
    · rw [if_neg hb]
      exact .inr ⟨afterBlank_eq_nil hb, hs.ne_nil, List.suffix_refl s⟩
  · have hnone : w.drop (w.length - (239 - s.length)) = [] := by
      rw [List.drop_eq_nil_iff]
      omega
    rw [hnone]
    exact .inr ⟨rfl, tail_cut_within hs.ne_nil hs.last (by omega) hw⟩

theorem stutters_twice {p s : Str} (hs : Sentence u s) (hlong : 8 < (u.lowercase s).length) :
    stutters u (tail (p ++ s ++ kt " " ++ s)) = true ↔
      u.lowercase s ∈ sentences u (kept p s) := by
  rcases tail_twice (p := p) hs with ⟨hk, hlast, ht⟩ | ⟨hk, -, ht⟩
  · rw [ht, stutters, sentences_concat hs hlong hk hlast, List.length_append,
      List.length_singleton, List.getLast?_concat, List.dropLast_concat]
    by_cases hnil : sentences u (kept p s) = []
    · simp [hnil]
    · have hlen : ¬ (sentences u (kept p s)).length + 1 < 2 := by
        have := List.length_pos_iff.mpr hnil
        omega
      rw [if_neg hlen, List.any_eq_true]
      simp
  · have hone := sentences_whole (hs.whole.suffix ht)
    rw [hk, sentences_nil, stutters, if_pos (by omega)]
    simp

theorem tail_twice_spoken {p s : Str} (hs : Sentence u s) :
    isBlank (trim (tail (p ++ s ++ kt " " ++ s))) = false := by
  have hblank : ∀ (t : Str) (h : t ≠ []), isMark (t.getLast h) = true → trim t ≠ [] := by
    intro t h hm ht
    have hall := List.all_eq_true.mp ((trim_eq_nil_iff t).mp ht) _ (List.getLast_mem h)
    rw [mark_solid hm] at hall
    cases hall
  have hne : trim (tail (p ++ s ++ kt " " ++ s)) ≠ [] := by
    rcases tail_twice (p := p) hs with ⟨-, -, ht⟩ | ⟨-, hne, ht⟩
    · have hx : kept p s ++ blank :: s ≠ [] := by simp
      refine ht ▸ hblank _ hx ?_
      rw [getLast_of_suffix ((List.suffix_cons _ _).trans (List.suffix_append _ _)) hs.ne_nil hx
        |>.symm]
      exact hs.last
    · exact hblank _ hne ((congrArg isMark (getLast_of_suffix ht hne hs.ne_nil)).trans hs.last)
  have hsolid : Solid isWhitespace (trim (tail (p ++ s ++ kt " " ++ s))) := solid_trimBy hne
  rw [isBlank, List.all_eq_false]
  exact ⟨_, List.head_mem hne, by rw [hsolid.head hne]; simp⟩

end Cut

theorem spoken_ofList {c : Char} (cs : List Char) (h : isWhitespace (codeUnit c) = false) :
    isBlank (kt (String.ofList (c :: cs))) = false := by
  rw [kt, String.toList_ofList, List.map_cons]
  simp only [isBlank, List.all_cons, h, Bool.false_and]

set_option maxRecDepth 4000 in
theorem styles_spoken : ∀ e ∈ styles, isBlank e.2 = false := by
  simp only [styles, List.forall_mem_cons, List.not_mem_nil, false_imp_iff, implies_true, and_true]
  refine ⟨?_, ?_, ?_, ?_, ?_, ?_, ?_⟩ <;> exact spoken_ofList _ (by decide)

theorem style_blank (language : Option Str) (h : isBlank (style language) = true) :
    style language = [] := by
  cases hs : language.bind fun l => styles.lookup l with
  | none => rw [style, hs, Option.getD_none]
  | some s =>
    obtain ⟨l, -, hl⟩ := Option.bind_eq_some_iff.mp hs
    obtain ⟨a, b, hab, -⟩ := List.lookup_eq_some_iff.mp hl
    have hsome := styles_spoken (l, s) (by simp [hab])
    rw [style, hs, Option.getD_some, hsome] at h
    cases h

/-- Where the text says its last sentence twice, the style sentence stands alone exactly if the
cut leaves that sentence, whole, before the blank. -/
theorem forPiece_twice_iff (u : Unicode) (hlower : ∀ s, s.length ≤ (u.lowercase s).length)
    (language : Option Str) (p s : Str) (hs : Sentence u s) (h8 : 8 < s.length) :
    forPiece u language (p ++ s ++ kt " " ++ s) = style language ↔
      u.lowercase s ∈ sentences u (kept p s) := by
  have hlong : 8 < (u.lowercase s).length := h8.trans_le (hlower s)
  rw [← stutters_twice hs hlong, forPiece]
  have hspoken := tail_twice_spoken (p := p) hs
  generalize tail (p ++ s ++ kt " " ++ s) = t at hspoken
  cases stutters u t with
  | true =>
    cases hstyle : isBlank (style language) with
    | true => simp [style_blank language hstyle, joinToString]
    | false => simp [hstyle, joinToString]
  | false =>
    have hne : trim t ≠ [] := by
      intro h
      rw [h] at hspoken
      cases hspoken
    cases hstyle : isBlank (style language) with
    | true => simp [hspoken, style_blank language hstyle, joinToString, hne]
    | false => simp [hstyle, hspoken, joinToString, hne]

theorem sentence_of_unmarked {u : Unicode} {s : Str} (h : s ≠ [])
    (hhead : isWhitespace (s.head h) = false) (hbegins : u.space (s.head h) = false)
    (hlast : isMark (s.getLast h) = true) (hrest : s.dropLast.all (!isMark ·) = true) :
    Sentence u s :=
  ⟨h, hhead, hbegins, hlast, whole_of_unmarked hrest⟩

def agreed : Str := kt "Agreed, then."

theorem forPiece_twice_agreed :
    forPiece ascii (some (kt "en")) ([] ++ agreed ++ kt " " ++ agreed) = style (some (kt "en")) :=
  (forPiece_twice_iff ascii (fun s => by simp [ascii]) (some (kt "en")) [] agreed
    (sentence_of_unmarked (by decide) (by decide) (by decide) (by decide) (by decide))
    (by decide)).mpr
    (by decide +kernel)

def minutes : Str :=
  kt "The committee met again on Tuesday " ++ kt "to hear what had been done about " ++
    kt "the bridge, and it found that " ++ kt "nothing at all had been done about it."

/-- A sentence of 136 letters, said twice, is handed on. -/
theorem forPiece_twice_minutes : Sentence ascii minutes ∧ 8 < minutes.length ∧
    forPiece ascii (some (kt "en")) ([] ++ minutes ++ kt " " ++ minutes) ≠
      style (some (kt "en")) :=
  ⟨sentence_of_unmarked (by decide +kernel) (by decide +kernel) (by decide +kernel)
    (by decide +kernel) (by decide +kernel),
    by decide +kernel, by decide +kernel⟩

end ReadersSpeech.Prompts
