import ReadersSpeech.Text

/-! The words of a text, as the summariser counts them: the pieces between runs of `\s` that are
not blank. `wordsFrom` counts them in one pass, with no pieces.
-/

set_option autoImplicit false

namespace ReadersSpeech
open Splitting

/-- `split(Regex("\\s+"))`. -/
def tokens (u : Unicode) (s : Str) : List Str := split (runOf u.space) s

def words (u : Unicode) (s : Str) : Nat := (tokens u s).countP fun t => !isBlank t

/-- Words that begin in `s`, when a word is already open (`inWord`) or not. -/
def wordsFrom (u : Unicode) (inWord : Bool) : Str → Nat
  | [] => 0
  | c :: s =>
    if u.space c then wordsFrom u false s
    else if isWhitespace c then wordsFrom u inWord s
    else (if inWord then 0 else 1) + wordsFrom u true s

variable {u : Unicode}

theorem isBlank_cons (c : UInt16) (s : Str) : isBlank (c :: s) = (isWhitespace c && isBlank s) :=
  rfl

/-- The first piece is the rest of a word already open; `skip` is inside a run of `\s`. -/
theorem countP_splitFrom (inWord : Bool) (prev : Option UInt16) (skip : Nat) (s : Str)
    (hs : skip ≤ (s.takeWhile u.space).length) (hw : 0 < skip → inWord = false) :
    ∀ p ps, splitFrom (runOf u.space) prev skip s = p :: ps →
      wordsFrom u inWord s = (if inWord || isBlank p then 0 else 1) +
        ps.countP fun t => !isBlank t := by
  induction s generalizing inWord prev skip with
  | nil =>
    intro p ps h
    obtain ⟨rfl, rfl⟩ := List.cons.inj h
    simp [wordsFrom, isBlank]
  | cons c s ih =>
    intro p ps h
    cases skip with
    | succ skip =>
      obtain rfl := hw (Nat.succ_pos _)
      by_cases hc : u.space c = true
      · simp only [List.takeWhile_cons, hc, if_true, List.length_cons] at hs
        simp only [wordsFrom, hc, if_true]
        exact ih false (some c) skip (by omega) (fun _ => rfl) p ps h
      · simp [hc] at hs
    | zero =>
      by_cases hc : u.space c = true
      · simp only [splitFrom, runOf, List.takeWhile_cons, hc, if_true, List.length_cons] at h
        obtain ⟨rfl, rfl⟩ := List.cons.inj h
        obtain ⟨q, qs, hq⟩ := splitFrom_cons (runOf u.space) (some c) (s.takeWhile u.space).length s
        have hn := ih false (some c) _ (le_refl _) (fun _ => rfl) q qs hq
        simp only [wordsFrom, hc, if_true, hn, hq, List.countP_cons]
        cases isBlank q <;> cases inWord <;> simp [isBlank, Nat.add_comm]
      · obtain ⟨q, qs, hq⟩ := splitFrom_cons (runOf u.space) (some c) 0 s
        simp only [splitFrom, runOf, List.takeWhile_cons, hc, Bool.false_eq_true, if_false,
          List.length_nil, hq, consHead] at h
        obtain ⟨rfl, rfl⟩ := List.cons.inj h
        simp only [wordsFrom, hc, Bool.false_eq_true, if_false, isBlank_cons]
        by_cases hb : isWhitespace c = true
        · have hn := ih inWord (some c) 0 (Nat.zero_le _) (fun h => absurd h (lt_irrefl _)) q qs hq
          simp [hb, hn]
        · have hn := ih true (some c) 0 (Nat.zero_le _) (fun h => absurd h (lt_irrefl _)) q qs hq
          simp only [Bool.not_eq_true] at hb
          simp [hb, hn]

theorem words_eq (u : Unicode) (s : Str) : words u s = wordsFrom u false s := by
  obtain ⟨p, ps, h⟩ := splitFrom_cons (runOf u.space) none 0 s
  have hn := countP_splitFrom (u := u) false none 0 s (Nat.zero_le _) (fun _ => rfl) p ps h
  simp only [words, tokens, split, h, hn, List.countP_cons]
  cases isBlank p <;> simp [Nat.add_comm]

theorem wordsFrom_append_space (inWord : Bool) (a b : Str) {c : UInt16} (hc : u.space c = true) :
    wordsFrom u inWord (a ++ c :: b) = wordsFrom u inWord a + wordsFrom u false b := by
  induction a generalizing inWord with
  | nil => simp [wordsFrom, hc]
  | cons d a ih =>
    simp only [List.cons_append, wordsFrom, ih]
    split
    · rfl
    · split
      · rfl
      · omega

/-- A separator of the pattern parts the words before it from those after it. -/
theorem words_append_space (a b : Str) {c : UInt16} (hc : u.space c = true) :
    words u (a ++ c :: b) = words u a + words u b := by
  simp only [words_eq, wordsFrom_append_space false a b hc]

theorem wordsFrom_whitespace (inWord : Bool) {a : Str} (ha : ∀ c ∈ a, isWhitespace c = true) :
    wordsFrom u inWord a = 0 := by
  induction a generalizing inWord with
  | nil => rfl
  | cons c a ih =>
    have hc : isWhitespace c = true := ha c (by simp)
    have hr := fun b => ih b fun d hd => ha d (by simp [hd])
    simp [wordsFrom, hc, hr]

theorem wordsFrom_append_whitespace (inWord : Bool) (a : Str) {b : Str}
    (hb : ∀ c ∈ b, isWhitespace c = true) :
    wordsFrom u inWord (a ++ b) = wordsFrom u inWord a := by
  induction a generalizing inWord with
  | nil => simp [wordsFrom_whitespace inWord hb, wordsFrom]
  | cons c a ih => simp only [List.cons_append, wordsFrom, ih]

theorem wordsFrom_whitespace_append {a : Str} (ha : ∀ c ∈ a, isWhitespace c = true) (b : Str) :
    wordsFrom u false (a ++ b) = wordsFrom u false b := by
  induction a with
  | nil => rfl
  | cons c a ih =>
    have hc : isWhitespace c = true := ha c (by simp)
    simp [wordsFrom, hc, ih fun d hd => ha d (by simp [hd])]

theorem words_trim (u : Unicode) (s : Str) : words u (trim s) = words u s := by
  obtain ⟨a, b, hs, ha, hb⟩ := trimBy_split isWhitespace s
  have h : words u s = words u (a ++ trim s ++ b) := congrArg (words u) hs
  rw [h, words_eq, words_eq, wordsFrom_append_whitespace false _ hb, wordsFrom_whitespace_append ha]

theorem words_of_blank {s : Str} (h : isBlank s = true) : words u s = 0 := by
  rw [words_eq]
  exact wordsFrom_whitespace false (List.all_eq_true.mp h)

theorem not_blank_of_words {s : Str} (h : 0 < words u s) : isBlank s = false := by
  by_contra hb
  rw [words_of_blank (by simpa using hb)] at h
  exact Nat.lt_irrefl 0 h

/-- What is white space neither for the pattern nor for Kotlin belongs to a word. -/
theorem wordsFrom_pos_of_mem {s : Str} {c : UInt16} (hc : c ∈ s) (hspace : u.space c = false)
    (hwhite : isWhitespace c = false) : 0 < wordsFrom u false s := by
  induction s with
  | nil => cases hc
  | cons d s ih =>
    rcases List.mem_cons.mp hc with rfl | hin
    · simp only [wordsFrom, hspace, hwhite, Bool.false_eq_true, if_false]
      omega
    · have hrest := ih hin
      simp only [wordsFrom, Bool.false_eq_true, if_false]
      split
      · exact hrest
      · split
        · exact hrest
        · omega

theorem words_pos_of_mem {s : Str} {c : UInt16} (hc : c ∈ s) (hspace : u.space c = false)
    (hwhite : isWhitespace c = false) : 0 < words u s := by
  rw [words_eq]
  exact wordsFrom_pos_of_mem hc hspace hwhite

theorem space_token {s t : Str} (ht : t ∈ tokens u s) {c : UInt16} (hc : c ∈ t) :
    u.space c = false := by
  by_contra hs
  have hcut : ∀ (prev : Option UInt16) (r : Str), runOf u.space prev (c :: r) ≠ 0 := by
    intro prev r
    simp [runOf, hs]
  exact splitFrom_avoids hcut none 0 s t ht hc

theorem words_token_eq_zero_iff {s t : Str} (ht : t ∈ tokens u s) :
    words u t = 0 ↔ isBlank t = true := by
  refine ⟨fun h => ?_, words_of_blank⟩
  by_contra hb
  obtain ⟨c, hc, hwhite⟩ : ∃ c ∈ t, isWhitespace c = false := by simpa [isBlank] using hb
  exact (words_pos_of_mem hc (space_token ht hc) hwhite).ne' h

def Spaces (u : Unicode) (m : Pattern UInt16) : Prop :=
  ∀ (prev : Option UInt16) (s : Str), ∀ c ∈ s.take (m prev s), u.space c = true

theorem wordsFrom_splitFrom {m : Pattern UInt16} (hm : Spaces u m) (inWord : Bool)
    (prev : Option UInt16) (skip : Nat) (s : Str) (hs : ∀ c ∈ s.take skip, u.space c = true)
    (hw : 0 < skip → inWord = false) :
    ∀ p ps, splitFrom m prev skip s = p :: ps →
      wordsFrom u inWord s = wordsFrom u inWord p + (ps.map (wordsFrom u false)).sum := by
  induction s generalizing inWord prev skip with
  | nil =>
    intro p ps h
    obtain ⟨rfl, rfl⟩ := List.cons.inj h
    simp [wordsFrom]
  | cons c s ih =>
    intro p ps h
    cases skip with
    | succ skip =>
      obtain rfl := hw (Nat.succ_pos _)
      have hc : u.space c = true := hs c (by simp)
      simp only [wordsFrom, hc, if_true]
      exact ih false (some c) skip (fun d hd => hs d (by simp [hd])) (fun _ => rfl) p ps h
    | zero =>
      obtain ⟨-, q, rfl, hq⟩ | ⟨n, hn, rfl, hps⟩ := splitFrom_cases h
      · have hr := fun b => ih b (some c) 0 (by simp) (fun h => absurd h (lt_irrefl _)) q ps hq
        simp only [wordsFrom, hr]
        split
        · rfl
        · split
          · rfl
          · omega
      · have hsp := hm prev (c :: s)
        rw [hn] at hsp
        have hc : u.space c = true := hsp c (by simp)
        obtain ⟨q, qs, hq⟩ := splitFrom_cons m (some c) n s
        obtain rfl : ps = q :: qs := hps.symm.trans hq
        have hr := ih false (some c) n (fun d hd => hsp d (by simp [hd])) (fun _ => rfl) q qs hq
        simp [wordsFrom, hc, hr]

/-- Splitting at `\s` loses no word and cuts none. -/
theorem words_split {m : Pattern UInt16} (hm : Spaces u m) (s : Str) :
    ((split m s).map (words u)).sum = words u s := by
  obtain ⟨p, ps, h⟩ := splitFrom_cons m none 0 s
  have hn := wordsFrom_splitFrom hm false none 0 s (by simp) (fun _ => rfl) p ps h
  have hf : words u = wordsFrom u false := funext (words_eq u)
  simp [split, h, hf, hn]

theorem spaces_runOf (u : Unicode) : Spaces u (runOf u.space) := by
  intro prev s c hc
  have ht : s.take (s.takeWhile u.space).length = s.takeWhile u.space :=
    List.prefix_iff_eq_take.mp (List.takeWhile_prefix _) |>.symm
  rw [runOf, ht] at hc
  exact List.mem_takeWhile_imp hc

theorem words_nil (u : Unicode) : words u [] = 0 := rfl

theorem words_join (u : Unicode) (parts : List Str) :
    words u (joinToString (kt " ") parts) = (parts.map (words u)).sum := by
  cases parts with
  | nil => rfl
  | cons p ps =>
    rw [joinToString, intercalate_cons_eq]
    induction ps generalizing p with
    | nil => simp
    | cons q qs ih =>
      have hb : u.space (codeUnit ' ') = true := u.space_blank
      have hq := ih q
      have hl : p ++ (q :: qs).flatMap (kt " " ++ ·) =
          p ++ codeUnit ' ' :: (q ++ qs.flatMap (kt " " ++ ·)) := by simp [kt]
      rw [hl, words_append_space _ _ hb, hq]
      simp

end ReadersSpeech
