import Mathlib.Data.List.Chain
import ReadersSpeech.Paragraphs

/-! The paragraph rule as the reader of a transcript sees it: in terms of the lines and of the text
of each paragraph, with no loop variable. `build` returns a partition of the kept lines that obeys
it; the mark of a line the filter drops is another matter.
-/

set_option autoImplicit false

namespace ReadersSpeech.Paragraphs
open Splitting

def pause (prev s : Segment) : Int := s.startMs.toInt - prev.endMs.toInt

/-- The five reasons to open a paragraph at `s`, after a paragraph `p` that ends with `prev`. -/
inductive Reason (p : List Segment) (prev s : Segment) : Prop where
  | voice : s.newVoice = true → Reason p prev s
  | longPause : 2000 ≤ pause prev s → Reason p prev s
  | sentencePause : endsSentence (trim prev.text) = true → 900 ≤ pause prev s → Reason p prev s
  | breath : endsSentence (trim prev.text) = true → 900 ≤ (paragraphText p).length →
      250 ≤ pause prev s → Reason p prev s
  | runaway : 1200 ≤ (paragraphText p).length → Reason p prev s

def Opens (p : List Segment) (s : Segment) : Prop :=
  ∃ prev, p.getLast? = some prev ∧ Reason p prev s

/-- No line of `p` after its first had a reason to open a paragraph. -/
def Quiet (p : List Segment) : Prop := ∀ a s b, p = a ++ s :: b → a ≠ [] → ¬ Opens a s

structure Partition (lines : List Segment) (paras : List (List Segment)) : Prop where
  cover : paras.flatten = lines
  nonempty : ∀ p ∈ paras, p ≠ []
  inside : ∀ p ∈ paras, Quiet p
  between : paras.IsChain fun p q => ∃ s, q.head? = some s ∧ Opens p s

def Timed (s : Segment) : Prop := 0 ≤ s.startMs ∧ 0 ≤ s.endMs

instance (s : Segment) : Decidable (Timed s) := inferInstanceAs (Decidable (_ ∧ _))

/-- The carried variables say what the text of the paragraph says. -/
structure Tracks (c : Carried) (cur : List Segment) (prev : Segment) : Prop where
  last : cur.getLast? = some prev
  lastEnd : c.lastEnd = prev.endMs
  length : c.length = (paragraphText cur).length
  ended : c.ended = endsSentence (trim prev.text)

theorem Tracks.ne_nil {c : Carried} {cur : List Segment} {prev : Segment}
    (h : Tracks c cur prev) : cur ≠ [] := by
  intro hc
  have hl := h.last
  simp [hc] at hl

theorem tracks_single (c : Carried) {s : Segment} (hs : Spoken s) :
    Tracks (carry true c s) [s] s := by
  refine ⟨rfl, rfl, ?_, ?_⟩
  · simp [carry, paragraphText_single]
  · have h : (trim s.text).isEmpty = false := by simpa [Spoken] using hs
    simp [carry, h]

theorem Tracks.concat {c : Carried} {cur : List Segment} {prev s : Segment}
    (h : Tracks c cur prev) (hs : Spoken s) : Tracks (carry false c s) (cur ++ [s]) s := by
  refine ⟨by simp, rfl, ?_, ?_⟩
  · rw [paragraphText_concat h.ne_nil]
    simp [carry, h.length, kt]
    omega
  · have he : (trim s.text).isEmpty = false := by simpa [Spoken] using hs
    simp [carry, he]

theorem Int64.toInt_sub_of_nonneg {a b : Int64} (ha : 0 ≤ a) (hb : 0 ≤ b) :
    (a - b).toInt = a.toInt - b.toInt := by
  have h₁ : (0 : Int) ≤ a.toInt := by simpa using Int64.le_iff_toInt_le.mp ha
  have h₂ : (0 : Int) ≤ b.toInt := by simpa using Int64.le_iff_toInt_le.mp hb
  have h₃ := a.toInt_lt
  have h₄ := b.toInt_lt
  rw [Int64.toInt_sub]
  exact Int.bmod_eq_of_le (by omega) (by omega)

theorem gap_toInt {c : Carried} {cur : List Segment} {prev s : Segment}
    (h : Tracks c cur prev) (hp : Timed prev) (hs : Timed s) :
    (gap c s).toInt = pause prev s := by
  have hn : ¬ c.lastEnd < 0 := by rw [h.lastEnd]; exact Int64.not_lt.mpr hp.2
  rw [gap, if_neg hn, h.lastEnd]
  exact Int64.toInt_sub_of_nonneg hs.1 hp.2

theorem start_iff {c : Carried} {cur : List Segment} {prev s : Segment}
    (h : Tracks c cur prev) (hp : Timed prev) (hs : Timed s) :
    start false c s = true ↔ Opens cur s := by
  have hg := gap_toInt h hp hs
  have hlong : longPauseMs ≤ gap c s ↔ 2000 ≤ pause prev s := by
    rw [Int64.le_iff_toInt_le, hg]; rfl
  have hsent : sentencePauseMs ≤ gap c s ↔ 900 ≤ pause prev s := by
    rw [Int64.le_iff_toInt_le, hg]; rfl
  have hbreath : breathMs ≤ gap c s ↔ 250 ≤ pause prev s := by
    rw [Int64.le_iff_toInt_le, hg]; rfl
  simp only [start, paused, Bool.false_or, Bool.or_eq_true, Bool.and_eq_true, decide_eq_true_eq,
    hlong, hsent, hbreath, h.ended, h.length, longParagraph, runaway]
  constructor
  · rintro (hv | (((hl | ⟨he, hq⟩) | ⟨⟨he, hl⟩, hq⟩) | hl))
    · exact ⟨prev, h.last, .voice hv⟩
    · exact ⟨prev, h.last, .longPause hl⟩
    · exact ⟨prev, h.last, .sentencePause he hq⟩
    · exact ⟨prev, h.last, .breath he hl hq⟩
    · exact ⟨prev, h.last, .runaway hl⟩
  · rintro ⟨prev', hlast, hr⟩
    obtain rfl : prev = prev' := Option.some.inj (h.last.symm.trans hlast)
    cases hr with
    | voice hv => exact .inl hv
    | longPause hl => exact .inr (.inl (.inl (.inl hl)))
    | sentencePause he hq => exact .inr (.inl (.inl (.inr ⟨he, hq⟩)))
    | breath he hl hq => exact .inr (.inl (.inr ⟨⟨he, hl⟩, hq⟩))
    | runaway hl => exact .inr (.inr hl)

theorem Quiet.concat {p : List Segment} {s : Segment} (hp : Quiet p) (hs : ¬ Opens p s) :
    Quiet (p ++ [s]) := by
  intro a x b hab ha
  cases b using List.reverseRecOn with
  | nil =>
    have h := List.append_inj' hab rfl
    obtain ⟨rfl, hx⟩ := h
    simp only [List.cons.injEq, and_true] at hx
    exact hx ▸ hs
  | append_singleton b y =>
    rw [← List.cons_append, ← List.append_assoc] at hab
    exact hp a x b (List.append_inj' hab rfl).1 ha

theorem quiet_single (s : Segment) : Quiet [s] := by
  intro a x b hab ha
  cases a with
  | nil => exact absurd rfl ha
  | cons y a => simp at hab

theorem Partition.single {p : List Segment} (hp : p ≠ []) (hq : Quiet p) : Partition p [p] := by
  refine ⟨by simp, ?_, ?_, List.isChain_singleton p⟩
  · simpa using hp
  · simpa using hq

/-- A paragraph closed in front of a partition whose first line had a reason to open one. -/
theorem Partition.cons {p : List Segment} {s : Segment} {rest : List Segment}
    {paras : List (List Segment)} (hp : p ≠ []) (hq : Quiet p) (ho : Opens p s)
    (h : Partition (s :: rest) paras) : Partition (p ++ s :: rest) (p :: paras) := by
  refine ⟨by simp [h.cover], ?_, ?_, List.isChain_cons.mpr ⟨fun q hm => ⟨s, ?_, ho⟩, h.between⟩⟩
  · simpa [hp] using h.nonempty
  · simpa [hq] using h.inside
  · have hne := h.nonempty q (List.mem_of_mem_head? hm)
    have hc := h.cover
    cases paras with
    | nil => simp at hc
    | cons q' qs =>
      simp only [List.head?_cons, Option.mem_def, Option.some.injEq] at hm
      subst hm
      cases q' with
      | nil => exact absurd rfl hne
      | cons x q' => simpa using (List.cons.inj hc).1

/-- The loop invariant of the two passes together: the counters describe the run being collected,
and that run is quiet so far. -/
theorem runsFrom_partition {c : Carried} {cur : List Segment} {prev : Segment}
    (rest : List Segment) (h : Tracks c cur prev) (hq : Quiet cur)
    (ht : ∀ s ∈ cur ++ rest, Timed s) (hs : ∀ s ∈ rest, Spoken s) :
    Partition (cur ++ rest) (runsFrom c cur rest) := by
  induction rest generalizing c cur prev with
  | nil => simpa [runsFrom] using Partition.single h.ne_nil hq
  | cons s rest ih =>
    have hprev : Timed prev := ht prev (by simp [List.mem_of_getLast? h.last])
    have hiff := start_iff h hprev (ht s (by simp))
    have hspoken : Spoken s := hs s (by simp)
    by_cases hst : start false c s = true
    · have hnext := ih (tracks_single c hspoken) (quiet_single s)
        (fun t hm => ht t (by simp at hm ⊢; tauto)) (fun t hm => hs t (by simp [hm]))
      rw [runsFrom, if_pos hst]
      exact .cons h.ne_nil hq (hiff.mp hst) hnext
    · have hno : ¬ Opens cur s := fun ho => hst (hiff.mpr ho)
      have hnext := ih (h.concat hspoken) (hq.concat hno)
        (fun t hm => ht t (by simp at hm ⊢; tauto)) (fun t hm => hs t (by simp [hm]))
      rw [runsFrom, if_neg hst]
      simpa using hnext

theorem runs_partition (lines : List Segment) (ht : ∀ s ∈ lines, Timed s)
    (hs : ∀ s ∈ lines, Spoken s) : Partition lines (runs lines) := by
  cases lines with
  | nil => exact ⟨rfl, by simp [runs], by simp [runs], List.isChain_nil⟩
  | cons s rest =>
    exact runsFrom_partition rest (tracks_single initial (hs s (by simp))) (quiet_single s) ht
      fun t hm => hs t (by simp [hm])

theorem mem_of_mem_keptFrom (u : Unicode) (previous : Str) (segments : List Segment) :
    ∀ s ∈ keptFrom u previous segments, s ∈ segments := by
  induction segments generalizing previous with
  | nil => simp [keptFrom]
  | cons t rest ih =>
    intro s hs
    rw [keptFrom] at hs
    split at hs
    · rcases List.mem_cons.mp hs with rfl | hs
      · simp
      · simp [ih _ s hs]
    · simp [ih _ s hs]

/-- `build` loses no kept line, and cuts exactly where the rule has a reason to. -/
theorem build_partition (u : Unicode) (segments : List Segment) (noSpeech : Str)
    (htimes : ∀ s ∈ segments, Timed s) :
    (kept u segments = [] → build u segments noSpeech = noSpeech ++ kt "\n") ∧
    (kept u segments ≠ [] → ∃ paras, Partition (kept u segments) paras ∧
      build u segments noSpeech =
        joinToString (kt "\n\n") (paras.map paragraphText) ++ kt "\n") := by
  rw [build_eq]
  refine ⟨fun h => if_pos h, fun h => ⟨runs (kept u segments), ?_, if_neg h⟩⟩
  exact runs_partition _ (fun s hs => htimes s (mem_of_mem_keptFrom u [] segments s hs))
    (keptFrom_spoken u [] segments)

/-- A long pause parts the first two lines; the repeat is dropped. -/
def dialogue : List Segment :=
  [⟨0, 1000, kt "Well.", false⟩, ⟨4000, 5000, kt "Yes,", false⟩, ⟨5000, 6000, kt "yes", false⟩,
    ⟨6000, 7000, kt "I know.", false⟩]

theorem build_partition_dialogue : ∃ paras, Partition (kept ascii dialogue) paras ∧
    build ascii dialogue (kt "-") =
      joinToString (kt "\n\n") (paras.map paragraphText) ++ kt "\n" :=
  (build_partition ascii dialogue (kt "-") (by decide)).2 (by decide)

end ReadersSpeech.Paragraphs
