import ReadersSpeech.Beginnings
import ReadersSpeech.SummariserKept

/-! Which points still begin with a mark. The marks at the front of a line are taken off one by
one in a fixed order, so that a point keeps one where the line has more of them, or has them in
another order.
-/

set_option autoImplicit false

namespace ReadersSpeech.Summariser
open Splitting Beginnings Greedy

def isBullet (c : UInt16) : Bool := (kt "-•*").contains c

theorem bullet_eq (s : Str) : bullet s = s.head?.any isBullet := by
  cases s with
  | nil => rfl
  | cons c s =>
    have hone : ∀ m, [m].isPrefixOf (c :: s) = (c == m) := by
      intro m
      simp [List.isPrefixOf, Bool.beq_comm]
    have hmarks : isBullet c = (c == codeUnit '-' || c == codeUnit '•' || c == codeUnit '*') := by
      rw [Bool.eq_iff_iff]
      simp [isBullet, kt, or_assoc]
    rw [List.head?_cons, Option.any_some, hmarks, ← hone, ← hone, ← hone]
    rfl

/-- What `unbulleted` goes past: a mark, or whitespace. -/
def skipped (c : UInt16) : Bool := isBullet c || isWhitespace c

/-- `-?•?\*?\s*\**\s*-?\s*`, and behind it neither a mark nor whitespace. -/
def peeled : Language UInt16 :=
  maybe (codeUnit '-') * maybe (codeUnit '•') * maybe (codeUnit '*') * runs isWhitespace *
    runs (· == codeUnit '*') * runs isWhitespace * maybe (codeUnit '-') * runs isWhitespace *
    clearOf skipped

/-- `unbulleted` at the front of the line alone. -/
def peel (line : Str) : Str :=
  let p := ((removePrefix (kt "*") (removePrefix (kt "•") (removePrefix (kt "-") line))).dropWhile
    isWhitespace).dropWhile (· == codeUnit '*')
  (removePrefix (kt "-") (p.dropWhile isWhitespace)).dropWhile isWhitespace

theorem mem_maybe_mul_removePrefix {L : Language UInt16} (h : Sheds skipped L) {c : UInt16}
    (hc : skipped c = true) (s : Str) : s ∈ maybe c * L ↔ removePrefix [c] s ∈ L := by
  rw [mem_maybe_mul_iff h hc, removePrefix_singleton]

theorem mem_peeled (line : Str) : line ∈ peeled ↔ peel line ∈ clearOf skipped := by
  have hspace : ∀ c, isWhitespace c = true → skipped c = true := by simp +contextual [skipped]
  have hstar : ∀ c, (c == codeUnit '*') = true → skipped c = true := by
    intro c hc
    rw [beq_iff_eq.mp hc]
    decide
  have hrest := (sheds_clearOf (p := skipped)).runs isWhitespace
  have hdash := hrest.maybe (codeUnit '-')
  have hinner := hdash.runs isWhitespace
  have hstars := hinner.runs (· == codeUnit '*')
  have houter := hstars.runs isWhitespace
  have hone := houter.maybe (codeUnit '*')
  have hdot := hone.maybe (codeUnit '•')
  simp only [peeled, mul_assoc]
  rw [mem_maybe_mul_removePrefix hdot (by decide), mem_maybe_mul_removePrefix hone (by decide),
    mem_maybe_mul_removePrefix houter (by decide), mem_runs_mul_iff hstars hspace,
    mem_runs_mul_iff hinner hstar, mem_runs_mul_iff hdash hspace,
    mem_maybe_mul_removePrefix hrest (by decide), mem_runs_mul_iff sheds_clearOf hspace]
  rfl

instance (line : Str) : Decidable (line ∈ peeled) := decidable_of_iff _ (mem_peeled line).symm

example : kt "- -We repeatedly ask" ∈ peeled := by decide

theorem unbulleted_front (line : Str) : unbulleted line <+: peel line := by
  unfold unbulleted peel trim
  refine trimBy_front _ (removePrefix_front _ (trimBy_front _ (trimBy_front _ (trimBy_front _ ?_))))
  exact List.prefix_rfl

/-- What is left of a line begins with no mark exactly if the line is peeled. -/
theorem bullet_unbulleted {line : Str} (h : unbulleted line ≠ []) :
    bullet (unbulleted line) = false ↔ line ∈ peeled := by
  obtain ⟨c, s, hs⟩ := List.exists_cons_of_ne_nil h
  have hsolid : Solid isWhitespace (unbulleted line) := solid_of_trim (trim_unbulleted line) h
  have hc : isWhitespace c = false := by simpa [hs] using hsolid.head h
  have hhead : (peel line).head? = some c := by
    rw [← head?_of_front (unbulleted_front line) h, hs, List.head?_cons]
  rw [mem_peeled, mem_clearOf, hhead, bullet_eq, hs, List.head?_cons, Option.any_some,
    Option.any_some, skipped, hc, Bool.or_false]

theorem firstFrom_front (u : Unicode) (out : Str) (sentences : List Str) :
    out <+: firstFrom u out sentences := by
  induction sentences generalizing out with
  | nil => exact List.prefix_rfl
  | cons sentence rest ih =>
    rw [firstFrom]
    split
    · exact List.prefix_rfl
    · have hout : out <+: out ++ sentence ++ kt " " := by
        rw [List.append_assoc]
        exact List.prefix_append _ _
      exact hout.trans (ih _)

theorem head_trim {c : UInt16} (hc : isWhitespace c = false) (s : Str) :
    (trim (c :: s)).head? = some c := by
  have hfront : trim (c :: s) <+: c :: s := by
    have hdrop := trimBy_front isWhitespace (List.prefix_refl (c :: s))
    rwa [List.dropWhile_cons, hc, if_neg Bool.false_ne_true] at hdrop
  have hne : trim (c :: s) ≠ [] := by
    rw [ne_eq, trim_eq_nil_iff, isBlank_cons, hc]
    simp
  rw [head?_of_front hfront hne, List.head?_cons]

/-- The opening that is kept of a text begins as the text does. -/
theorem head_firstSentences (u : Unicode) {p : Str} (hp : trim p = p) :
    (firstSentences u p).head? = p.head? := by
  by_cases hshort : words u p ≤ pointWords
  · rw [firstSentences, if_pos hshort]
  · have hne : p ≠ [] := ne_nil_of_words (not_le.mp hshort)
    obtain ⟨qs, hsplit⟩ := split_cons u p
    simp only [firstSentences_eq (not_le.mp hshort) hsplit]
    split
    · rfl
    · obtain ⟨c, rest, rfl⟩ := List.exists_cons_of_ne_nil hne
      have hc : isWhitespace c = false := by simpa using (solid_of_trim hp hne).head hne
      obtain ⟨r, hr⟩ := firstSentence_cons u c rest
      obtain ⟨more, hmore⟩ := firstFrom_front u (firstSentence u (c :: rest) ++ kt " ") qs
      rw [← hmore, hr]
      exact head_trim hc _

section Chosen
variable (d : Device)

/-- The lines that points are made of: they pass the tests for a point, say what none before them
says, and are not behind the last that is asked for. -/
def chosen (raw : Str) (limit : Nat) : List (Str × Nat) :=
  (pick (sayTheSame d) (candidates d raw)).take limit

theorem chosen_point {raw : Str} {limit : Nat} {x : Str × Nat} (hx : x ∈ chosen d raw limit) :
    isPoint d (cleaned d x.1) = true := by
  have hmem := (pick_sublist (candidates d raw)).subset (List.mem_of_mem_take hx)
  exact (Bool.and_eq_true_iff.mp (List.mem_filter.mp hmem).2).2

variable {d}

theorem bullet_cleaned {line : Str} (h : isPoint d (cleaned d line) = true) :
    bullet (cleaned d line) = false ↔ trim line ∈ peeled := by
  have hlen : 3 < (cleaned d line).length := by
    simp only [isPoint, Bool.and_eq_true, decide_eq_true_eq] at h
    exact h.1.1
  have hhead : (cleaned d line).head? = (unbulleted (trim line)).head? :=
    head_firstSentences d.toUnicode (trim_unbulleted _)
  have hne : unbulleted (trim line) ≠ [] := by
    intro hnil
    rw [hnil, List.head?_nil, List.head?_eq_none_iff] at hhead
    rw [hhead] at hlen
    exact Nat.not_lt_zero 3 hlen
  rw [← bullet_unbulleted hne, bullet_eq, bullet_eq, hhead]

/-- No point begins with a mark exactly if each line that one is made of is peeled. -/
theorem keepPoints_unmarked_iff (d : Device) (raw : Str) (limit : Nat) :
    (∀ p ∈ keepPoints d raw limit, bullet p = false) ↔
      ∀ x ∈ chosen d raw limit, trim x.1 ∈ peeled := by
  rw [keepPoints_eq, ← chosen, List.forall_mem_map]
  exact forall₂_congr fun x hx => bullet_cleaned (chosen_point d hx)

/-- Two dashes inside the dash: one is left. -/
theorem keepPoints_marked_dashes : ¬ ∀ p ∈ keepPoints plain (kt "- - - one two three four") 12,
    bullet p = false := by
  decide

end Chosen

end ReadersSpeech.Summariser
