import ReadersSpeech.Translator

/-! `strip` of Translator.kt: which announcements it takes off an answer, and what becomes of the
quotation marks around it.
-/

set_option autoImplicit false

namespace ReadersSpeech.Translator
open Splitting

def quote : UInt16 := codeUnit '"'

def colon : UInt16 := codeUnit ':'

/-- How the beginning of an answer is compared with a primer: both upper-, then lowercased,
character by character. The primers have no surrogate, so it is the same by code points. No two
characters of the primers are one letter in two cases, nor is the quotation mark a letter. -/
structure Folds (u : Unicode) (fold : UInt16 → UInt16) : Prop where
  equals : ∀ p ∈ primers, ∀ s, u.equalsIgnoreCase s p = true ↔ s.map fold = p.map fold
  apart : ∀ c ∈ quote :: primers.flatten, ∀ d ∈ quote :: primers.flatten, fold c = fold d → c = d
  colon : ∀ c, fold c = fold colon → c = colon

/-- A text that begins with the primers `ps`, in any case, with blanks between; `rest` follows. -/
inductive Announced (u : Unicode) : Str → List Str → Str → Prop
  | nil (s : Str) : Announced u s [] s
  | cons {s p rest : Str} {ps : List Str} : startsWith u s p = true →
      Announced u (trim (s.drop p.length)) ps rest → Announced u s (p :: ps) rest

theorem Announced.nil_eq {u : Unicode} {s rest : Str} (h : Announced u s [] rest) : rest = s := by
  cases h
  rfl

section Primers
variable {u : Unicode} {fold : UInt16 → UInt16}

theorem no_quote : ∀ p ∈ primers, quote ∉ p := by decide +kernel

theorem ends_colon : ∀ p ∈ primers, p.getLast? = some colon := by decide +kernel

/-- No primer is the beginning of another. -/
theorem prefix_free : ∀ p ∈ primers, ∀ q ∈ primers, p <+: q → p = q := by decide +kernel

theorem startsWith_iff (h : Folds u fold) {p : Str} (hp : p ∈ primers) (s : Str) :
    startsWith u s p = true ↔ p.map fold <+: s.map fold := by
  rw [startsWith, Bool.and_eq_true, decide_eq_true_eq, h.equals p hp, List.prefix_iff_eq_take,
    List.length_map, ← List.map_take]
  constructor
  · exact fun hs => hs.2.symm
  · intro hs
    have hlen := congrArg List.length hs
    simp only [List.length_map, List.length_take] at hlen
    exact ⟨by omega, hs.symm⟩

theorem map_begins {l m : Str} (hinj : ∀ c ∈ l, ∀ d ∈ m, fold c = fold d → c = d)
    (h : l.map fold <+: m.map fold) : l <+: m := by
  induction l generalizing m with
  | nil => exact List.nil_prefix
  | cons c l ih =>
    cases m with
    | nil => simp at h
    | cons d m =>
      rw [List.map_cons, List.map_cons, List.cons_prefix_cons] at h
      obtain rfl := hinj c (by simp) d (by simp) h.1
      exact (List.prefix_cons_inj c).mpr
        (ih (fun a ha b hb => hinj a (by simp [ha]) b (by simp [hb])) h.2)

/-- A text begins with one primer at most. -/
theorem primer_unique (h : Folds u fold) {s p q : Str} (hp : p ∈ primers) (hq : q ∈ primers)
    (hsp : startsWith u s p = true) (hsq : startsWith u s q = true) : p = q := by
  rw [startsWith_iff h hp] at hsp
  rw [startsWith_iff h hq] at hsq
  have hin : ∀ {a b : Str}, a ∈ primers → b ∈ primers → ∀ c ∈ a, ∀ d ∈ b, fold c = fold d → c = d :=
    fun ha hb c hc d hd => h.apart c (List.mem_cons_of_mem _ (List.mem_flatten_of_mem ha hc)) d
      (List.mem_cons_of_mem _ (List.mem_flatten_of_mem hb hd))
  rcases List.prefix_or_prefix_of_prefix hsp hsq with hpq | hqp
  · exact prefix_free p hp q hq (map_begins (hin hp hq) hpq)
  · exact (prefix_free q hq p hp (map_begins (hin hq hp) hqp)).symm

theorem fold_quote (h : Folds u fold) {p : Str} (hp : p ∈ primers) :
    fold quote ∉ p.map fold := by
  intro hm
  obtain ⟨d, hd, heq⟩ := List.mem_map.mp hm
  have hq := h.apart quote (by simp) d
    (List.mem_cons_of_mem _ (List.mem_flatten_of_mem hp hd)) heq.symm
  exact no_quote p hp (hq ▸ hd)

/-- The loop of `strip`. -/
def unannounced (u : Unicode) (table : List Str) (s : Str) : Str :=
  table.foldl (fun s p => if startsWith u s p then trim (s.drop p.length) else s) s

/-- What the loop takes off: primers in the order of the table, and as many as follow so. -/
structure TakenOff (u : Unicode) (table : List Str) (s : Str) (ps : List Str) (rest : Str) :
    Prop where
  announced : Announced u s ps rest
  ordered : ps.Sublist table
  longest : ∀ p, (ps ++ [p]).Sublist table → startsWith u rest p = false

/-- No primer is left at the beginning. -/
def Silent (u : Unicode) (s : Str) : Prop := ∀ p ∈ primers, startsWith u s p = false

instance (u : Unicode) (s : Str) : Decidable (Silent u s) :=
  inferInstanceAs (Decidable (∀ p ∈ primers, _))

theorem TakenOff.of_silent {s rest : Str} {ps : List Str} (h : Announced u s ps rest)
    (hps : ps.Sublist primers) (hs : Silent u rest) : TakenOff u primers s ps rest :=
  ⟨h, hps, fun p hp => hs p (hp.subset (by simp))⟩

theorem exists_takenOff (u : Unicode) (table : List Str) (s : Str) :
    ∃ ps, TakenOff u table s ps (unannounced u table s) := by
  induction table generalizing s with
  | nil => exact ⟨[], .nil s, .slnil, by simp⟩
  | cons q table ih =>
    rw [unannounced, List.foldl_cons]
    cases hq : startsWith u s q with
    | true =>
      obtain ⟨ps, h₁, h₂, h₃⟩ := ih (trim (s.drop q.length))
      refine ⟨q :: ps, .cons hq h₁, h₂.cons_cons q, fun p hp => h₃ p ?_⟩
      rwa [List.cons_append, List.cons_sublist_cons] at hp
    | false =>
      obtain ⟨ps, h₁, h₂, h₃⟩ := ih s
      refine ⟨ps, h₁, h₂.cons q, fun p hp => ?_⟩
      rcases List.sublist_cons_iff.mp hp with hp | ⟨r, hr, hsub⟩
      · exact h₃ p hp
      · cases ps with
        | nil =>
          obtain ⟨rfl, -⟩ := List.cons.inj hr
          change startsWith u (unannounced u table s) p = false
          rw [h₁.nil_eq]
          exact hq
        | cons p' ps =>
          obtain ⟨rfl, -⟩ := List.cons.inj hr
          cases h₁ with
          | cons hs _ => simp [hq] at hs

theorem takenOff_unique (h : Folds u fold) {table ps : List Str} {s rest : Str}
    (htable : table ⊆ primers) (hps : TakenOff u table s ps rest) :
    rest = unannounced u table s := by
  induction table generalizing s ps with
  | nil =>
    obtain ⟨h₁, h₂, -⟩ := hps
    obtain rfl := List.sublist_nil.mp h₂
    cases h₁
    rfl
  | cons q table ih =>
    obtain ⟨h₁, h₂, h₃⟩ := hps
    obtain ⟨hq, htail⟩ := List.cons_subset.mp htable
    rw [unannounced, List.foldl_cons]
    cases hs : startsWith u s q with
    | true =>
      cases h₁ with
      | nil => simp [h₃ q (by simp)] at hs
      | @cons _ p _ ps hp h₁ =>
        have hmem : p ∈ q :: table := h₂.subset (by simp)
        obtain rfl : p = q := by
          refine primer_unique h ?_ hq hp hs
          exact (List.mem_cons.mp hmem).elim (fun hpq => hpq ▸ hq) fun hm => htail hm
        rw [List.cons_sublist_cons] at h₂
        exact ih htail ⟨h₁, h₂, fun r hr => h₃ r (hr.cons_cons p)⟩
    | false =>
      refine ih htail ⟨h₁, ?_, fun r hr => h₃ r (hr.cons q)⟩
      rcases List.sublist_cons_iff.mp h₂ with hsub | ⟨r, rfl, -⟩
      · exact hsub
      · cases h₁ with
        | cons hp _ => simp [hs] at hp

/-- What follows the primers taken off, whichever way they are told. -/
theorem exists_takenOff_iff (h : Folds u fold) (s : Str) (P : Str → Prop) :
    (∃ ps rest, TakenOff u primers s ps rest ∧ P rest) ↔ P (unannounced u primers s) := by
  constructor
  · rintro ⟨ps, rest, hps, hrest⟩
    exact takenOff_unique h (List.Subset.refl _) hps ▸ hrest
  · intro hrest
    obtain ⟨ps, hps⟩ := exists_takenOff u primers s
    exact ⟨ps, _, hps, hrest⟩

end Primers

section Ascii

def lower (c : UInt16) : UInt16 := if 65 ≤ c && c ≤ 90 then c + 32 else c

theorem lower_cases (c : UInt16) : 65 ≤ c.toNat ∧ c.toNat ≤ 90 ∧ (lower c).toNat = c.toNat + 32 ∨
    (c.toNat < 65 ∨ 90 < c.toNat) ∧ (lower c).toNat = c.toNat := by
  have h65 : (65 : UInt16).toNat = 65 := rfl
  have h90 : (90 : UInt16).toNat = 90 := rfl
  have h32 : (32 : UInt16).toNat = 32 := rfl
  simp only [lower, Bool.and_eq_true, decide_eq_true_eq, UInt16.le_iff_toNat_le, h65, h90]
  split
  · rw [UInt16.toNat_add, h32]
    omega
  · omega

theorem capital_of_mem {c : UInt16} (hc : c ∈ quote :: primers.flatten) :
    c.toNat < 97 ∨ 122 < c.toNat := by
  have hall : (quote :: primers.flatten).all (fun c => decide (c.toNat < 97 ∨ 122 < c.toNat)) =
      true := by decide +kernel
  exact of_decide_eq_true (List.all_eq_true.mp hall c hc)

theorem folds_ascii : Folds ascii lower where
  equals _ _ _ := beq_iff_eq
  apart c hc d hd heq := by
    have hc' := capital_of_mem hc
    have hd' := capital_of_mem hd
    have hcd := congrArg UInt16.toNat heq
    refine UInt16.toNat_inj.mp ?_
    rcases lower_cases c with ⟨h₁, h₂, h₃⟩ | ⟨h₁, h₂⟩ <;>
      rcases lower_cases d with ⟨h₄, h₅, h₆⟩ | ⟨h₄, h₅⟩ <;> omega
  colon c hc := by
    have hcolon : (lower colon).toNat = 58 ∧ colon.toNat = 58 := by decide
    have hcd := congrArg UInt16.toNat hc
    refine UInt16.toNat_inj.mp ?_
    rcases lower_cases c with ⟨h₁, h₂, h₃⟩ | ⟨h₁, h₂⟩ <;> omega

end Ascii

section Quotes
variable {u : Unicode} {fold : UInt16 → UInt16}

theorem removeSuffix_concat (s : Str) (c : UInt16) :
    removeSuffix [quote] (s ++ [c]) = if c = quote then s else s ++ [c] := by
  by_cases hc : c = quote
  · simp [removeSuffix, hc]
  · have hne : ¬ [quote].isSuffixOf (s ++ [c]) := by
      rw [List.isSuffixOf_iff_suffix]
      rintro ⟨t, ht⟩
      exact hc (List.append_inj_right' ht rfl |> List.singleton_inj.mp).symm
    rw [removeSuffix, if_neg hne, if_neg hc]

theorem strip_eq (u : Unicode) (answer : Str) : strip u answer =
    trim (removeSuffix [quote] (removePrefix [quote] (unannounced u primers (trim answer)))) := rfl

theorem count_trim (s : Str) : (trim s).count quote = s.count quote := by
  obtain ⟨a, b, hs, ha, hb⟩ := trimBy_split isWhitespace s
  have hspace : isWhitespace quote = false := by decide
  have ha₀ : a.count quote = 0 := List.count_eq_zero.mpr fun hm => by simp [ha _ hm] at hspace
  have hb₀ : b.count quote = 0 := List.count_eq_zero.mpr fun hm => by simp [hb _ hm] at hspace
  calc (trim s).count quote = (a ++ trim s ++ b).count quote := by simp [ha₀, hb₀]
    _ = s.count quote := congrArg _ hs.symm

theorem count_primer (h : Folds u fold) {s p : Str} (hp : p ∈ primers)
    (hs : startsWith u s p = true) : (trim (s.drop p.length)).count quote = s.count quote := by
  rw [startsWith_iff h hp, List.prefix_iff_eq_take, List.length_map, ← List.map_take] at hs
  have hzero : (s.take p.length).count quote = 0 := by
    refine List.count_eq_zero.mpr fun hm => fold_quote h hp ?_
    rw [hs]
    exact List.mem_map_of_mem hm
  rw [count_trim]
  conv_rhs => rw [← List.take_append_drop p.length s, List.count_append, hzero, Nat.zero_add]

theorem count_unannounced (h : Folds u fold) {table : List Str} (htable : table ⊆ primers)
    (s : Str) : (unannounced u table s).count quote = s.count quote := by
  induction table generalizing s with
  | nil => rfl
  | cons q table ih =>
    obtain ⟨hq, htail⟩ := List.cons_subset.mp htable
    rw [unannounced, List.foldl_cons, ← unannounced, ih htail]
    cases hs : startsWith u s q with
    | true => exact count_primer h hq hs
    | false => rfl

/-- An even number of quotation marks. -/
def Balanced (s : Str) : Prop := s.count quote % 2 = 0

instance (s : Str) : Decidable (Balanced s) := inferInstanceAs (Decidable (_ = _))

/-- One mark at each end goes, or none; else the marks that are left are odd. -/
theorem balanced_unquoted {s : Str} (hs : Balanced s) :
    Balanced (removeSuffix [quote] (removePrefix [quote] s)) ↔
      (s.head? = some quote ↔ s.getLast? = some quote) := by
  unfold Balanced at hs ⊢
  cases s with
  | nil => simp [removePrefix, removeSuffix]
  | cons c m =>
    rw [removePrefix_singleton, List.head?_cons]
    rcases List.eq_nil_or_concat m with rfl | ⟨m, d, rfl⟩
    · have hc : c ≠ quote := by
        rintro rfl
        simp at hs
      have hkeep : removeSuffix [quote] [c] = [c] := by
        rw [← List.nil_append [c], removeSuffix_concat, if_neg hc]
      simp [hc, hkeep]
    · rw [List.concat_eq_append, ← List.cons_append] at hs ⊢
      rw [List.getLast?_concat]
      simp only [List.count_append, List.count_cons, List.count_nil, beq_iff_eq] at hs
      by_cases hc : c = quote
      · rw [if_pos (by rw [hc]), List.cons_append, List.tail_cons, removeSuffix_concat]
        by_cases hd : d = quote
        · simp [hc, hd] at hs ⊢
          omega
        · simp [hc, hd] at hs ⊢
          omega
      · rw [if_neg (by simpa using hc), removeSuffix_concat]
        by_cases hd : d = quote
        · simp [hc, hd] at hs ⊢
          omega
        · simp [hc, hd] at hs ⊢
          omega

/-- The marks of a balanced answer stay balanced when what follows the primers begins with a mark
exactly if it ends with one. -/
theorem strip_balanced_iff (h : Folds u fold) (answer : Str) (hb : Balanced answer) :
    Balanced (strip u answer) ↔ ∃ ps rest, TakenOff u primers (trim answer) ps rest ∧
      (rest.head? = some quote ↔ rest.getLast? = some quote) := by
  have hcount := count_unannounced h (List.Subset.refl primers) (trim answer)
  have hrest : Balanced (unannounced u primers (trim answer)) := by
    rw [Balanced, hcount, count_trim]
    exact hb
  rw [exists_takenOff_iff h _ fun rest => (rest.head? = some quote ↔ rest.getLast? = some quote),
    ← balanced_unquoted hrest, strip_eq, Balanced, Balanced, count_trim]

/-- Speech that only begins an answer. -/
def speech : Str := kt "\"Yes,\" he said."

theorem strip_balanced_spoken : Balanced (strip ascii (kt "TRANSLATION INTO ENGLISH: \"Yes.\"")) :=
  (strip_balanced_iff folds_ascii _ (by decide)).mpr
    ⟨[kt "TRANSLATION INTO ENGLISH:"], kt "\"Yes.\"",
      .of_silent (.cons (by decide) (.nil _)) (by decide) (by decide +kernel), by decide⟩

theorem strip_unbalances_speech : Balanced speech ∧ strip ascii speech = kt "Yes,\" he said." ∧
    ¬ Balanced (strip ascii speech) := by
  decide +kernel

end Quotes

section Survivors
variable {u : Unicode} {fold : UInt16 → UInt16}

/-- A primer ends in a colon, so one that a text begins with lies before what has none. -/
theorem startsWith_append (h : Folds u fold) {p : Str} (hp : p ∈ primers) (s : Str) {b : Str}
    (hb : colon ∉ b) : startsWith u (s ++ b) p = true ↔ startsWith u s p = true := by
  induction b using List.reverseRecOn with
  | nil => rw [List.append_nil]
  | append_singleton b c ih =>
    obtain ⟨hb', hc⟩ := not_or.mp fun hm => hb (List.mem_append.mpr hm)
    rw [← ih hb', startsWith_iff h hp, startsWith_iff h hp, ← List.append_assoc, List.map_append,
      List.map_singleton, List.prefix_concat_iff]
    refine or_iff_right fun heq => hc (List.mem_singleton.mpr ?_)
    have hlast := congrArg List.getLast? heq
    rw [List.getLast?_map, ends_colon p hp, List.getLast?_concat] at hlast
    exact (h.colon c (Option.some.inj hlast).symm).symm

theorem startsWith_trim (h : Folds u fold) {p : Str} (hp : p ∈ primers) (s : Str) :
    startsWith u (trim s) p = true ↔ startsWith u (s.dropWhile isWhitespace) p = true := by
  have hcolon : isWhitespace colon = false := by decide
  have hb : colon ∉ (s.dropWhile isWhitespace).rtakeWhile isWhitespace := fun hm => by
    rw [List.mem_rtakeWhile_imp hm] at hcolon
    cases hcolon
  rw [← startsWith_append h hp (trim s) hb]
  exact iff_of_eq (congrArg (fun t => startsWith u t p = true) List.rdropWhile_append_rtakeWhile)

/-- Nor is a quotation mark at its end. -/
theorem startsWith_unquoted (h : Folds u fold) {p : Str} (hp : p ∈ primers) (s : Str) :
    startsWith u (trim (removeSuffix [quote] s)) p = true ↔ startsWith u (trim s) p = true := by
  rcases List.eq_nil_or_concat s with rfl | ⟨s, c, rfl⟩
  · rfl
  · rw [List.concat_eq_append, removeSuffix_concat]
    by_cases hc : c = quote
    · have hspace : isWhitespace quote = false := by decide
      have hdrop : (s ++ [quote]).dropWhile isWhitespace =
          s.dropWhile isWhitespace ++ [quote] := by
        rw [List.dropWhile_append]
        cases hd : s.dropWhile isWhitespace with
        | nil => simp [hspace]
        | cons d r => simp
      have hquote : colon ∉ [quote] := by decide
      rw [if_pos hc, hc, startsWith_trim h hp, startsWith_trim h hp, hdrop,
        startsWith_append h hp _ hquote]
    · rw [if_neg hc]

theorem startsWith_quote (h : Folds u fold) {p s : Str} (hp : p ∈ primers)
    (hs : s.head? = some quote) : startsWith u s p = false := by
  rw [← Bool.not_eq_true, startsWith_iff h hp]
  rintro ⟨t, ht⟩
  have hne : p ≠ [] := by
    rintro rfl
    have hlast := ends_colon [] hp
    cases hlast
  refine fold_quote h hp ?_
  have hhead := congrArg List.head? ht
  rw [List.head?_map, hs, List.head?_append_of_ne_nil _ (by simpa using hne)] at hhead
  exact List.mem_of_mem_head? hhead

theorem silent_congr {s t : Str}
    (h : ∀ p ∈ primers, startsWith u s p = true ↔ startsWith u t p = true) :
    Silent u s ↔ Silent u t :=
  forall₂_congr fun p hp => by rw [← Bool.not_eq_true, ← Bool.not_eq_true, h p hp]

theorem trim_unannounced (table : List Str) {s : Str} (hs : trim s = s) :
    trim (unannounced u table s) = unannounced u table s := by
  induction table generalizing s with
  | nil => exact hs
  | cons q table ih =>
    rw [unannounced, List.foldl_cons]
    cases startsWith u s q with
    | true => exact ih (trim_trim _)
    | false => exact ih hs

/-- No primer survives when the ones that announce the answer come each once and in the order of
the list, and none follows an opening quotation mark. -/
theorem strip_silent_iff (h : Folds u fold) (answer : Str) :
    Silent u (strip u answer) ↔ ∃ ps rest, TakenOff u primers (trim answer) ps rest ∧
      Silent u rest ∧ (rest.head? = some quote → Silent u (trim rest.tail)) := by
  rw [exists_takenOff_iff h _ fun rest =>
    Silent u rest ∧ (rest.head? = some quote → Silent u (trim rest.tail)), strip_eq]
  have htrim := trim_unannounced (u := u) primers (trim_trim answer)
  generalize unannounced u primers (trim answer) = rest at htrim
  rw [silent_congr fun p hp => startsWith_unquoted h hp _, removePrefix_singleton]
  by_cases hq : rest.head? = some quote
  · have hsilent : Silent u rest := fun p hp => startsWith_quote h hp hq
    rw [if_pos hq]
    exact ⟨fun ht => ⟨hsilent, fun _ => ht⟩, fun hs => hs.2 hq⟩
  · rw [if_neg hq, htrim]
    exact ⟨fun hs => ⟨hs, fun hq' => absurd hq' hq⟩, fun hs => hs.1⟩

theorem strip_silent_spoken :
    Silent ascii (strip ascii (kt "TRANSLATION INTO ENGLISH: \"Yes.\"")) :=
  (strip_silent_iff folds_ascii _).mpr
    ⟨[kt "TRANSLATION INTO ENGLISH:"], kt "\"Yes.\"",
      .of_silent (.cons (by decide) (.nil _)) (by decide) (by decide +kernel), by decide, by decide⟩

theorem strip_keeps_primer :
    ¬ Silent ascii (strip ascii (kt "\"TRANSLATION INTO ENGLISH: Yes.\"")) := by
  decide +kernel

end Survivors

end ReadersSpeech.Translator
