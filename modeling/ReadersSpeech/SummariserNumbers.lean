import ReadersSpeech.SummariserCancel

/-! The numbers of the parts in the points prompts. `labelled` counts the notes, and a piece the
model left without an answer has no note, so the two counts part where one is skipped.
-/

set_option autoImplicit false

namespace ReadersSpeech.Summariser
open Splitting Guarded
open Translator (Session)

variable {d : Device} {session : Session} {lang : Str}

/-! ### What a template says with its numbers in it -/

def percent : UInt16 := codeUnit '%'

theorem formatFrom_cons {c : UInt16} (hc : c ≠ percent) (args : List Str) (n : Nat) (s : Str) :
    formatFrom args n (c :: s) = c :: formatFrom args n s := by
  have hb : (c == codeUnit '%') = false := beq_eq_false_iff_ne.mpr hc
  match s with
  | [] | [_] | [_, _] | _ :: _ :: _ :: _ => simp [formatFrom, hb]

theorem formatFrom_append {s : Str} (hs : percent ∉ s) (args : List Str) (n : Nat) (t : Str) :
    formatFrom args n (s ++ t) = s ++ formatFrom args n t := by
  induction s with
  | nil => rfl
  | cons c s ih =>
    rw [List.mem_cons, not_or] at hs
    rw [List.cons_append, formatFrom_cons (Ne.symm hs.1), ih hs.2, List.cons_append]

def isDigit (c : UInt16) : Bool := codeUnit '0' ≤ c && c ≤ codeUnit '9'

theorem digit_codeUnit {c : Char} (hc : c.isDigit = true) :
    isDigit (codeUnit c) = true ∧ Char.ofNat (codeUnit c).toNat = c := by
  have h : 48 ≤ c.toNat ∧ c.toNat ≤ 57 := by
    simpa [Char.isDigit, UInt32.le_iff_toNat_le] using hc
  have hn : (codeUnit c).toNat = c.toNat := by
    rw [codeUnit, UInt16.toNat_ofNat']
    exact Nat.mod_eq_of_lt (by omega)
  refine ⟨?_, by rw [hn, Char.ofNat_toNat]⟩
  simp only [isDigit, Bool.and_eq_true, decide_eq_true_eq, UInt16.le_iff_toNat_le, hn]
  exact h

theorem decimal_eq (n : Nat) : decimal n = (Nat.toDigits 10 n).map codeUnit := by
  rw [decimal, kt, Nat.toString_eq_ofList_toDigits, String.toList_ofList]

theorem digit_of_mem {n : Nat} {c : Char} (hc : c ∈ Nat.toDigits 10 n) : c.isDigit = true :=
  Nat.isDigit_of_mem_toDigits (by omega) (by omega) hc

theorem decimal_digits (n : Nat) : ∀ c ∈ decimal n, isDigit c = true := by
  intro c hc
  rw [decimal_eq] at hc
  obtain ⟨ch, hch, rfl⟩ := List.mem_map.mp hc
  exact (digit_codeUnit (digit_of_mem hch)).1

theorem decimal_injective {m n : Nat} (h : decimal m = decimal n) : m = n := by
  have hback : ∀ k : Nat, (decimal k).map (fun c => Char.ofNat c.toNat) = Nat.toDigits 10 k := by
    intro k
    rw [decimal_eq, List.map_map]
    exact (List.map_congr_left fun c hc => (digit_codeUnit (digit_of_mem hc)).2).trans
      (List.map_id _)
  have hdigits : Nat.toDigits 10 m = Nat.toDigits 10 n := by rw [← hback, ← hback, h]
  have hvalue := congrArg (fun ds => Nat.ofDigitChars 10 ds 0) hdigits
  simpa using hvalue

/-- Where digits end, the number read is settled. -/
theorem digits_append_inj {x y r s : Str} {c e : UInt16} (hx : ∀ a ∈ x, isDigit a = true)
    (hy : ∀ a ∈ y, isDigit a = true) (hc : isDigit c = false) (he : isDigit e = false)
    (h : x ++ c :: r = y ++ e :: s) : x = y ∧ c :: r = e :: s := by
  have hspan : ∀ {z t : Str} {a : UInt16}, (∀ b ∈ z, isDigit b = true) → isDigit a = false →
      (z ++ a :: t).takeWhile isDigit = z := by
    intro z t a hz ha
    rw [List.takeWhile_append_of_pos hz, List.takeWhile_cons_of_neg (by simp [ha]), List.append_nil]
  have hxy : x = y := by rw [← hspan hx hc, h, hspan hy he]
  subst hxy
  exact ⟨rfl, List.append_cancel_left h⟩

/-- What the prompt for the points and the range in it are made of: the theme stands between
`before` and `between`, the range between `between` and `next`. The two numbers of a range are
parted by `sep`, which is neither a digit nor what goes on after a range of one number. -/
structure Framed (text range before between next after sep : Str) : Prop where
  text : text = before ++ kt "%1$s" ++ between ++ kt "%2$s" ++ next ++ after
  range : range = kt "%d" ++ sep ++ kt "%d"
  plain : percent ∉ before ∧ percent ∉ between ∧ percent ∉ sep ∧ percent ∉ next
  parted : sep.head?.all (fun c => !isDigit c) = true ∧ next.head?.all (fun c => !isDigit c) = true
  apart : next.length = 2 ∧ sep ≠ [] ∧ (sep.take 2).isPrefixOf next = false

def upTo (s : Str) : Str := s.takeWhile (· != percent)
def past (s : Str) : Str := (s.dropWhile (· != percent)).drop 4

instance (text range before between next after sep : Str) :
    Decidable (Framed text range before between next after sep) :=
  decidable_of_iff
    ((text = before ++ kt "%1$s" ++ between ++ kt "%2$s" ++ next ++ after ∧
      range = kt "%d" ++ sep ++ kt "%d") ∧
      (percent ∉ before ∧ percent ∉ between ∧ percent ∉ sep ∧ percent ∉ next) ∧
      (sep.head?.all (fun c => !isDigit c) = true ∧
        next.head?.all (fun c => !isDigit c) = true) ∧
      (next.length = 2 ∧ sep ≠ [] ∧ (sep.take 2).isPrefixOf next = false))
    ⟨fun h => ⟨h.1.1, h.1.2, h.2.1, h.2.2.1, h.2.2.2⟩,
      fun h => ⟨⟨h.text, h.range⟩, h.plain, h.parted, h.apart⟩⟩

/-- The parts of `Framed` are read off the texts themselves. -/
abbrev Frames (text range : Str) : Prop :=
  Framed text range (upTo text) (upTo (past text)) ((past (past text)).take 2)
    ((past (past text)).drop 2) (upTo (range.drop 2))

theorem frames_kt {s : String} {cs : List Char} {range : Str} (hs : s = String.ofList cs)
    (h : Frames (cs.map codeUnit) range) : Frames (kt s) range := by
  rwa [hs, kt, String.toList_ofList]

set_option maxRecDepth 20000 in
theorem frames_points : ∀ entry ∈ points, Frames entry.2 (said to_ entry.1) := by
  simp only [points, List.forall_mem_cons]
  refine ⟨frames_kt rfl ?_, frames_kt rfl ?_, frames_kt rfl ?_, frames_kt rfl ?_,
    frames_kt rfl ?_, frames_kt rfl ?_, by simp⟩
  all_goals decide +kernel

theorem frames_tongue (u : Unicode) (language : Str) :
    Frames (said points (tongue u language)) (said to_ (tongue u language)) :=
  frames_points _ (tongue_said points_languages u language)

section Framed
variable {text range before between next after sep : Str}

theorem Framed.format_text (h : Framed text range before between next after sep)
    (theme r : Str) (more : List Str) : format text (theme :: r :: more) =
      before ++ theme ++ between ++ r ++ next ++ formatFrom (theme :: r :: more) 0 after := by
  have h₁ : ∀ t, formatFrom (theme :: r :: more) 0 (kt "%1$s" ++ t) =
      theme ++ formatFrom (theme :: r :: more) 0 t := fun _ => rfl
  have h₂ : ∀ t, formatFrom (theme :: r :: more) 0 (kt "%2$s" ++ t) =
      r ++ formatFrom (theme :: r :: more) 0 t := fun _ => rfl
  obtain ⟨hbefore, hbetween, -, hnext⟩ := h.plain
  simp only [h.text, format, List.append_assoc]
  rw [formatFrom_append hbefore, h₁, formatFrom_append hbetween, h₂, formatFrom_append hnext]

theorem Framed.format_range (h : Framed text range before between next after sep)
    (first last : Str) : format range [first, last] = first ++ sep ++ last := by
  obtain ⟨-, -, hsep, -⟩ := h.plain
  obtain ⟨c, s, rfl⟩ := List.exists_cons_of_ne_nil h.apart.2.1
  have h₁ : formatFrom [first, last] 0 (kt "%d" ++ (c :: s ++ kt "%d")) =
      first ++ formatFrom [first, last] 1 (c :: s ++ kt "%d") := by
    cases s with
    | nil => rfl
    | cons e s => rfl
  have h₂ : formatFrom [first, last] 1 (kt "%d") = last := List.append_nil last
  rw [h.range, format, List.append_assoc, h₁, formatFrom_append hsep, h₂, List.append_assoc]

/-- A range as `summarise` says it: one number, or the first and the last. -/
def spoken (range : Str) (first last : Nat) : Str :=
  if first = last then decimal first else format range [decimal first, decimal last]

theorem Framed.next_ne_sep (h : Framed text range before between next after sep) (s t : Str) :
    next ++ s ≠ sep ++ t := by
  intro he
  obtain ⟨hlen, -, hapart⟩ := h.apart
  have htake : next = (sep ++ t).take 2 := by rw [← he, List.take_append_of_le_length (by omega),
    List.take_of_length_le (by omega)]
  have hpre : sep.take 2 <+: next := by
    rw [htake]
    exact (List.prefix_append sep t).take 2
  rw [List.isPrefixOf_iff_prefix.mpr hpre] at hapart
  cases hapart

/-- The last number of a range can be read off the prompt. -/
theorem Framed.spoken_last (h : Framed text range before between next after sep)
    {first last first' last' : Nat} {s t : Str}
    (he : spoken range first last ++ (next ++ s) = spoken range first' last' ++ (next ++ t)) :
    last = last' := by
  obtain ⟨hlen, hsep, -⟩ := h.apart
  obtain ⟨c, cs, hc⟩ := List.exists_cons_of_ne_nil hsep
  obtain ⟨e, es, hnext⟩ : ∃ e es, next = e :: es :=
    List.exists_cons_of_ne_nil (List.ne_nil_of_length_pos (by omega))
  have hce := h.parted
  simp only [hc, hnext, List.head?_cons, Option.all_some, Bool.not_eq_true'] at hce
  have hn := fun n => decimal_digits n
  have hends : ∀ {m n : Nat} {u v : Str},
      decimal m ++ (next ++ u) = decimal n ++ (next ++ v) → m = n := by
    intro m n u v hmn
    rw [hnext, List.cons_append, List.cons_append] at hmn
    exact decimal_injective (digits_append_inj (hn m) (hn n) hce.2 hce.2 hmn).1
  have hmixed : ∀ {m n : Nat} {u v : Str}, decimal m ++ (next ++ u) ≠ decimal n ++ (sep ++ v) := by
    intro m n u v hmn
    have hrest := h.next_ne_sep u v
    rw [hnext, hc, List.cons_append, List.cons_append] at hmn hrest
    exact hrest (digits_append_inj (hn m) (hn n) hce.2 hce.1 hmn).2
  simp only [spoken, h.format_range] at he
  by_cases h₁ : first = last
  · by_cases h₂ : first' = last'
    · rw [if_pos h₁, if_pos h₂] at he
      rw [← h₁, ← h₂]
      exact hends he
    · rw [if_pos h₁, if_neg h₂] at he
      simp only [List.append_assoc] at he
      exact absurd he hmixed
  · by_cases h₂ : first' = last'
    · rw [if_neg h₁, if_pos h₂] at he
      simp only [List.append_assoc] at he
      exact absurd he.symm hmixed
    · rw [if_neg h₁, if_neg h₂] at he
      simp only [List.append_assoc] at he
      have hfirst : first = first' := by
        rw [hc, List.cons_append, List.cons_append] at he
        exact decimal_injective (digits_append_inj (hn _) (hn _) hce.1 hce.1 he).1
      subst hfirst
      exact hends (List.append_cancel_left (List.append_cancel_left he))

end Framed

/-! ### Notes and the pieces they were taken from -/

/-- The pieces that have a note, counted from 0. -/
def answered (session : Session) (size : Nat) : List Nat :=
  (List.range size).filter fun i => (heard (generated session i)).isSome

/-- The notes, each with the number of its piece. -/
def numbered (session : Session) (size : Nat) : List (Nat × Str) :=
  (List.range size).filterMap fun i =>
    (heard (generated session i)).map fun answer => (i + 1, unprefaced answer)

theorem numbered_notes (clean : Str) {parts : List Str} (h : parts.length ≠ 1) :
    (numbered session parts.length).map Prod.snd = notesOf session clean parts := by
  rw [notesOf, if_neg h, heardFrom, answers, List.map_map, List.filterMap_map, numbered,
    List.map_filterMap]
  refine List.filterMap_congr fun i _ => ?_
  simp only [Function.comp, Nat.zero_add, Option.map_map]
  rfl

theorem numbered_numbers (size : Nat) :
    (numbered session size).map Prod.fst = (answered session size).map (· + 1) := by
  rw [numbered, answered]
  induction List.range size with
  | nil => rfl
  | cons i is ih =>
    cases h : heard (generated session i) with
    | none =>
      rw [List.filterMap_cons_none (by simp [h]), ih, List.filter_cons_of_neg (by simp [h])]
    | some answer =>
      rw [List.filterMap_cons_some (by rw [h]; rfl), List.map_cons, ih,
        List.filter_cons_of_pos (by simp [h]), List.map_cons]

/-- What passes a test is a beginning of the numbers exactly when nothing passes after one that
does not. -/
theorem filter_range_eq_iff (p : Nat → Bool) (n : Nat) :
    (List.range n).filter p = List.range ((List.range n).filter p).length ↔
      ∀ i j, i < j → j < n → p i = false → p j = false := by
  constructor
  · intro h i j hij hj hi
    by_contra hp
    have hmem : ∀ k, k < ((List.range n).filter p).length ↔ k < n ∧ p k = true := by
      intro k
      rw [← List.mem_range, ← h, List.mem_filter, List.mem_range]
    have hjm := (hmem j).mpr ⟨hj, Bool.not_eq_false _ |>.mp hp⟩
    have him := (hmem i).mp (Nat.lt_trans hij hjm)
    simp [hi] at him
  · intro h
    induction n with
    | zero => rfl
    | succ n ih =>
      rw [List.range_succ, List.filter_append]
      cases hp : p n with
      | false =>
        have hrest := ih fun i j hij hj => h i j hij (Nat.lt_succ_of_lt hj)
        simpa [hp] using hrest
      | true =>
        have hall : (List.range n).filter p = List.range n := by
          refine List.filter_eq_self.mpr fun i hi => ?_
          by_contra hnone
          have hn := h i n (List.mem_range.mp hi) (Nat.lt_succ_self n) (by simpa using hnone)
          simp [hp] at hn
        rw [hall]
        simp [hp, List.range_succ]

/-- No piece has an answer after one that has none. -/
def AnswersFirst (session : Session) (size : Nat) : Prop :=
  ∀ i j, i < j → j < size → heard (generated session i) = none →
    heard (generated session j) = none

theorem answered_range_iff (size : Nat) :
    answered session size = List.range (answered session size).length ↔
      AnswersFirst session size := by
  simpa [AnswersFirst, answered] using
    filter_range_eq_iff (fun i => (heard (generated session i)).isSome) size

/-- Numbers that only go up and end at their count leave none out. -/
theorem eq_range'_of_last {l : List Nat} {s : Nat} (hup : l.Pairwise (· < ·)) (hs : ∀ n ∈ l, s ≤ n)
    (hlast : ∀ n ∈ l.getLast?, n + 1 = s + l.length) : l = List.range' s l.length := by
  induction l generalizing s with
  | nil => rfl
  | cons a l ih =>
    obtain ⟨ha, hup⟩ := List.pairwise_cons.mp hup
    obtain ⟨hsa, hs⟩ := List.forall_mem_cons.mp hs
    cases l with
    | nil =>
      have h := hlast a rfl
      rw [List.length_singleton] at h ⊢
      rw [Nat.succ.inj h]
      rfl
    | cons b l =>
      have hrest := ih (s := s + 1) hup (fun n hn => Nat.lt_of_le_of_lt hsa (ha n hn))
        (fun n hn => by
          have h := hlast n (by rwa [List.getLast?_cons_cons])
          rw [h, List.length_cons]
          omega)
      have hb : b = s + 1 := by
        rw [List.length_cons, List.range'_succ] at hrest
        exact (List.cons.inj hrest).1
      have hab := ha b List.mem_cons_self
      obtain rfl : a = s := by omega
      rw [List.length_cons, List.range'_succ, ← hrest]

theorem numbers_range_iff (size : Nat) :
    (numbered session size).map Prod.fst = List.range' 1 (numbered session size).length ↔
      AnswersFirst session size := by
  have hlen : (numbered session size).length = (answered session size).length := by
    rw [← List.length_map Prod.fst, numbered_numbers, List.length_map]
  have hshift : Function.Injective fun i : Nat => i + 1 := fun i j h => Nat.succ.inj h
  rw [← answered_range_iff, numbered_numbers, hlen, List.range'_eq_map_range]
  simp only [Nat.add_comm 1]
  exact (List.map_injective_iff.mpr hshift).eq_iff

/-! ### The prompts with the numbers of the pieces in them -/

/-- A points prompt that numbers its notes by their pieces. -/
def truePoints (lang theme : Str) (groups : Nat) (notes : List (Nat × Str)) : Ask :=
  let numbers := notes.map Prod.fst
  ⟨format (said points lang)
    [theme, spoken (said to_ lang) (numbers.headD 0) (numbers.getLastD 0),
      joinToString (kt "\n\n") (notes.map fun n =>
        said partWord lang ++ kt " " ++ decimal n.1 ++ kt ": " ++ n.2),
      decimal (perGroup groups)], 320⟩

theorem mapIdx_numbered {β : Type} (f : Nat → Str → β) {notes : List (Nat × Str)} {start : Nat}
    (h : notes.map Prod.fst = List.range' start notes.length) :
    (notes.map Prod.snd).mapIdx (fun i n => f (start + i) n) = notes.map fun n => f n.1 n.2 := by
  induction notes generalizing start with
  | nil => rfl
  | cons n notes ih =>
    rw [List.map_cons, List.length_cons, List.range'_succ] at h
    obtain ⟨hn, hrest⟩ := List.cons.inj h
    have hi := ih hrest
    rw [List.map_cons, List.mapIdx_cons, List.map_cons, ← hi, hn, Nat.add_zero]
    simp only [Nat.add_assoc, Nat.add_comm 1]

/-- The numbers the code counts are those of the pieces when they follow each other. -/
theorem pointsAsk_eq (theme : Str) (groups g : Nat) {notes : List (Nat × Str)} (hne : notes ≠ [])
    (h : notes.map Prod.fst = List.range' (g * notesPerCall + 1) notes.length) :
    pointsAsk lang theme groups g (notes.map Prod.snd) = truePoints lang theme groups notes := by
  have hlabels := mapIdx_numbered
    (fun i n => said partWord lang ++ kt " " ++ decimal i ++ kt ": " ++ n) h
  have hpos := List.length_pos_iff.mpr hne
  obtain ⟨m, hm⟩ : ∃ m, notes.length = m + 1 := ⟨notes.length - 1, by omega⟩
  have hhead : (notes.map Prod.fst).headD 0 = g * notesPerCall + 1 := by
    rw [h, hm, List.range'_succ, List.headD_cons]
  have hlast : (notes.map Prod.fst).getLastD 0 = g * notesPerCall + 1 + notes.length - 1 := by
    rw [h, hm, List.range'_concat, List.getLastD_concat]
    omega
  rw [pointsAsk, truePoints, labelled, hlabels, hhead, hlast, List.length_map]
  rfl

/-- Whatever the labels, the last number of the range tells. -/
theorem last_of_pointsAsk_eq (hl : Frames (said points lang) (said to_ lang)) {theme : Str}
    {groups g : Nat} {notes : List (Nat × Str)}
    (h : pointsAsk lang theme groups g (notes.map Prod.snd) = truePoints lang theme groups notes) :
    (notes.map Prod.fst).getLastD 0 = g * notesPerCall + 1 + notes.length - 1 := by
  have hprompt := congrArg Ask.prompt h
  rw [pointsAsk, truePoints] at hprompt
  dsimp only at hprompt
  rw [hl.format_text, hl.format_text] at hprompt
  simp only [List.append_assoc] at hprompt
  have hrest := List.append_cancel_left (List.append_cancel_left (List.append_cancel_left hprompt))
  rw [List.length_map] at hrest
  exact (hl.spoken_last hrest).symm

/-- Whenever the summary is cancelled, the prompts that follow the pieces, the groups folded and
the theme are those of the points, in order, and number their notes by their pieces. -/
def TrueNumbers (d : Device) (session : Session) (transcript language : Str) : Prop :=
  let lang := tongue d.toUnicode language
  let clean := unstuttered d.toUnicode transcript
  let parts := pieces d.toUnicode clean
  let groups := chunked notesPerCall (numbered session parts.length)
  ∀ rounds last, Folds d session (partAsks lang parts).length (notesOf session clean parts)
      rounds last →
    ∀ cancelled,
      let asked := prompts (summarise d session transcript language cancelled).2.events
      let k := (partAsks lang parts).length + rounds.flatten.length
      asked.drop (k + 1) <+: groups.map (truePoints lang (themeOf session k) groups.length)

/-- The points prompts as the code numbers them. -/
def countedPoints (lang theme : Str) (notes : List Str) : List Ask :=
  (chunked notesPerCall notes).mapIdx
    (pointsAsk lang theme (chunked notesPerCall notes).length)

theorem getElem?_countedPoints (theme : Str) (notes : List (Nat × Str)) (g : Nat) :
    (countedPoints lang theme (notes.map Prod.snd))[g]? =
      (chunked notesPerCall notes)[g]?.map fun group =>
        pointsAsk lang theme (chunked notesPerCall notes).length g (group.map Prod.snd) := by
  rw [countedPoints, chunked_map, List.length_map, List.getElem?_mapIdx, List.getElem?_map,
    Option.map_map]
  rfl

/-- The ranges are those of the pieces only if the numbers are. -/
theorem numbers_of_counted (hl : Frames (said points lang) (said to_ lang)) {theme : Str}
    {size : Nat} (h : countedPoints lang theme ((numbered session size).map Prod.snd) =
      (chunked notesPerCall (numbered session size)).map
        (truePoints lang theme (chunked notesPerCall (numbered session size)).length)) :
    (numbered session size).map Prod.fst = List.range' 1 (numbered session size).length := by
  by_cases hnil : numbered session size = []
  · rw [hnil]
    rfl
  · obtain ⟨g, notes, hg, hlast, hlen⟩ :=
      chunked_last (n := notesPerCall) (Nat.succ_pos 3) hnil
    have hask := congrArg (·[g]?) h
    rw [getElem?_countedPoints, List.getElem?_map, hg] at hask
    have hend := last_of_pointsAsk_eq hl (Option.some.inj hask)
    rw [← List.length_map Prod.fst]
    refine eq_range'_of_last ?_ ?_ fun n hn => ?_
    · rw [numbered_numbers]
      exact (List.pairwise_lt_range.filter _).map _ fun i j hij => Nat.succ_lt_succ hij
    · rw [numbered_numbers]
      simp
    · rw [List.getLast?_map, ← hlast, ← List.getLast?_map] at hn
      rw [List.getLastD_eq_getLast?, Option.mem_def.mp hn, Option.getD_some] at hend
      have hpos : 0 < (numbered session size).length := List.length_pos_iff.mpr hnil
      rw [List.length_map]
      omega

theorem take_range' (s m k : Nat) :
    (List.range' s m).take k = List.range' s ((List.range' s m).take k).length := by
  rw [List.length_take, List.length_range']
  rcases Nat.le_total m k with hk | hk
  · rw [List.take_range'_of_length_le hk, Nat.min_eq_right hk]
  · rw [List.take_range'_of_length_ge hk, Nat.min_eq_left hk]

theorem counted_of_numbers (theme : Str) {notes : List (Nat × Str)}
    (h : notes.map Prod.fst = List.range' 1 notes.length) :
    countedPoints lang theme (notes.map Prod.snd) =
      (chunked notesPerCall notes).map
        (truePoints lang theme (chunked notesPerCall notes).length) := by
  refine List.ext_getElem? fun g => ?_
  rw [getElem?_countedPoints, List.getElem?_map]
  cases hg : (chunked notesPerCall notes)[g]? with
  | none => rfl
  | some group =>
    have hcut := getElem?_chunked (n := notesPerCall) (Nat.succ_pos 3) hg
    have hne := (chunked_sizes (n := notesPerCall) (Nat.succ_pos 3) notes group
      (List.mem_of_getElem? hg)).1
    have hrun : group.map Prod.fst =
        (List.range' (1 + g * notesPerCall) (notes.length - g * notesPerCall)).take
          notesPerCall := by
      rw [hcut, List.map_take, List.map_drop, h, List.drop_range', Nat.mul_one]
    have hnumbers : group.map Prod.fst = List.range' (g * notesPerCall + 1) group.length := by
      rw [← List.length_map Prod.fst, hrun, Nat.add_comm 1]
      exact take_range' _ _ _
    exact congrArg some (pointsAsk_eq theme _ g hne hnumbers)

theorem counted_eq_iff (hl : Frames (said points lang) (said to_ lang)) (theme : Str)
    (size : Nat) :
    countedPoints lang theme ((numbered session size).map Prod.snd) =
      (chunked notesPerCall (numbered session size)).map
        (truePoints lang theme (chunked notesPerCall (numbered session size)).length) ↔
      AnswersFirst session size := by
  rw [← numbers_range_iff]
  exact ⟨numbers_of_counted hl, counted_of_numbers theme⟩

/-- The points prompts of a run are the last it sends. -/
theorem drop_asks {clean : Str} {parts last : List Str} {rounds : List (List (List Str))} :
    (partAsks lang parts ++ if notesOf session clean parts = [] then [] else
      rounds.flatten.map (groupAsk lang) ++ lastAsks session lang
        ((partAsks lang parts).length + rounds.flatten.length)
        (notesOf session clean parts) last).drop
          ((partAsks lang parts).length + rounds.flatten.length + 1) =
      countedPoints lang (themeOf session ((partAsks lang parts).length + rounds.flatten.length))
        (notesOf session clean parts) := by
  by_cases hn : notesOf session clean parts = []
  · rw [if_pos hn, List.append_nil, List.drop_eq_nil_of_le (by omega), hn]
    simp [countedPoints, chunked]
  · rw [if_neg hn, Nat.add_assoc, List.drop_length_add_append]
    have hlen : (rounds.flatten.map (groupAsk lang)).length = rounds.flatten.length :=
      List.length_map _
    rw [← hlen, List.drop_length_add_append]
    rfl

theorem answersFirst_of_trueNumbers {transcript language : Str} :
    let clean := unstuttered d.toUnicode transcript
    let parts := pieces d.toUnicode clean
    ¬ (words d.toUnicode clean < minWords ∨ session.loaded = false) → parts.length ≠ 1 →
      TrueNumbers d session transcript language → AnswersFirst session parts.length := by
  intro clean parts h hne ht
  obtain ⟨rounds, last, hf⟩ := exists_folds d session
    (partAsks (tongue d.toUnicode language) parts).length (notesOf session clean parts)
  have hpre := ht rounds last hf fun _ => false
  rw [summarise_asks language _ h] at hpre
  dsimp only at hpre
  rw [(asks_withSession (w := idle parts) clean parts rfl hf).prompts_never rfl, drop_asks,
    ← numbered_notes clean hne] at hpre
  refine (counted_eq_iff (frames_tongue d.toUnicode language) _ _).mp (hpre.eq_of_length ?_)
  rw [countedPoints, chunked_map, List.length_mapIdx, List.length_map, List.length_map]

theorem trueNumbers_of_answersFirst {transcript language : Str} :
    let clean := unstuttered d.toUnicode transcript
    let parts := pieces d.toUnicode clean
    ¬ (words d.toUnicode clean < minWords ∨ session.loaded = false) → parts.length ≠ 1 →
      AnswersFirst session parts.length → TrueNumbers d session transcript language := by
  intro clean parts h hne ha rounds last hf cancelled
  have hpre := ((asks_withSession (w := idle parts) clean parts rfl hf).prompts_begin rfl
    cancelled).drop ((partAsks (tongue d.toUnicode language) parts).length +
      rounds.flatten.length + 1)
  rw [drop_asks, ← numbered_notes clean hne,
    (counted_eq_iff (frames_tongue d.toUnicode language) _ _).mpr ha] at hpre
  rw [summarise_asks language cancelled h]
  exact hpre

/-- Every points prompt has the numbers of the pieces exactly when the pieces without an answer
come last, or nothing is asked at all. -/
theorem summarise_numbers_iff (d : Device) (session : Session) (transcript language : Str) :
    let clean := unstuttered d.toUnicode transcript
    let parts := pieces d.toUnicode clean
    2 ≤ parts.length →
      (TrueNumbers d session transcript language ↔
        words d.toUnicode clean < minWords ∨ session.loaded = false ∨
          AnswersFirst session parts.length) := by
  intro clean parts htwo
  have hne : parts.length ≠ 1 := by omega
  by_cases h : words d.toUnicode clean < minWords ∨ session.loaded = false
  · refine iff_of_true (fun rounds last hf cancelled => ?_) ?_
    · rw [(summarise_unasked language cancelled h).2]
      simp [prompts]
    · rcases h with h | h
      · exact .inl h
      · exact .inr (.inl h)
  · obtain ⟨hw, hl⟩ := not_or.mp h
    rw [or_iff_right hw, or_iff_right hl]
    exact ⟨answersFirst_of_trueNumbers h hne, trueNumbers_of_answersFirst h hne⟩

theorem summarise_numbers_longTalk : TrueNumbers plain onePoint longTalk (kt "en") :=
  (summarise_numbers_iff plain onePoint longTalk (kt "en") longTalk_pieces.1.ge).mpr
    (.inr (.inr fun _ _ _ _ h => h))

/-- The note on piece 2 is sent as that of part 1. -/
theorem longTalk_misnumbered : 2 ≤ (pieces ascii (unstuttered ascii longTalk)).length ∧
    ¬ TrueNumbers plain secondOnly longTalk (kt "en") := by
  obtain ⟨htwo, hwords⟩ := longTalk_pieces
  refine ⟨htwo.ge, fun ht => ?_⟩
  have h : ¬ (words plain.toUnicode (unstuttered plain.toUnicode longTalk) < minWords ∨
      secondOnly.loaded = false) := by
    rw [not_or]
    exact ⟨Nat.not_lt.mpr hwords, Bool.noConfusion⟩
  have hne : (pieces plain.toUnicode (unstuttered plain.toUnicode longTalk)).length ≠ 1 := by
    rw [show plain.toUnicode = ascii from rfl, htwo]
    omega
  have ha := answersFirst_of_trueNumbers h hne ht 0 1 Nat.zero_lt_one
    (by rw [show plain.toUnicode = ascii from rfl, htwo]; omega) rfl
  exact absurd ha (by decide)

end ReadersSpeech.Summariser
