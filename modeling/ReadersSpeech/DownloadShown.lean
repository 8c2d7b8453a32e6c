import Mathlib.Tactic.Linarith
import ReadersSpeech.DownloadRuns

/-! The figures a call of `fetch` shows while it reads. They are computed from what was read and
what was declared, whatever becomes of the files meanwhile.
-/

set_option autoImplicit false

namespace ReadersSpeech.Download
open Transition

/-- Every answer that brings something declares its length. -/
def Declares : Event → Prop
  | .reply r => r.status < 400 → r.contentLength = r.body.length
  | _ => True

/-- Figures that go up, and stay between 0 and 100. -/
def Rising (shown : List Int) : Prop := shown.Pairwise (· < ·) ∧ ∀ p ∈ shown, 0 ≤ p ∧ p ≤ 100

/-- Inside the loop: the counter, what was read and what is still to come make up the total, and the
last figure shown is that of the counter. -/
structure Shows (l : Loop) (read : Bytes) (shown : List Int) : Prop where
  total : l.total = l.done + read.length + l.body.length ∨
    (read = [] ∧ l.body = [] ∧ shown = [])
  rising : Rising shown
  last : (shown = [] ∧ l.last = -1) ∨
    (0 < l.total ∧ shown.getLast? = some (percent l) ∧ l.last = percent l)

/-- A call that comes to its end without being stopped has shown 100 last, if anything. -/
def Ended (shown : List Int) : Prop := Rising shown ∧ (shown = [] ∨ shown.getLast? = some 100)

def Figures : Call → List Int → Prop
  | .running (.testing l), shown | .running (.reading l), shown | .running (.checking l), shown =>
    Shows l [] shown
  | .running (.writing l chunk), shown => chunk ≠ [] ∧ Shows l chunk shown
  | .running .renameTo, shown | .running .deleting, shown | .running .renameAgain, shown =>
    Ended shown
  | .running .measuring, shown | .running (.asking _), shown => shown = []
  | .running (.opening _ r), shown => shown = [] ∧ r.contentLength = r.body.length
  | _, shown => Rising shown

section Figures
variable {l : Loop} {chunk : Bytes} {shown : List Int}

theorem rising_nil : Rising [] := ⟨.nil, by simp⟩

theorem percent_bounds (h : l.total = l.done + chunk.length + l.body.length) :
    0 ≤ percent l ∧ percent l ≤ 100 := by
  rw [percent]
  split
  · rename_i hpos
    rw [Int.tdiv_eq_ediv_of_nonneg (by omega)]
    exact ⟨Int.ediv_nonneg (by omega) hpos.le, Int.ediv_le_of_le_mul hpos (by omega)⟩
  · omega

theorem percent_mono (l : Loop) (chunk : Bytes) : percent l ≤ percent (wrote l chunk) := by
  have htotal : (wrote l chunk).total = l.total := rfl
  have hdone : ((wrote l chunk).done : ℤ) = l.done + chunk.length := Nat.cast_add ..
  rw [percent, percent, htotal, hdone]
  by_cases hpos : 0 < l.total
  · rw [if_pos hpos, if_pos hpos, Int.tdiv_eq_ediv_of_nonneg (by omega),
      Int.tdiv_eq_ediv_of_nonneg (by omega)]
    exact Int.ediv_le_ediv hpos (by omega)
  · rw [if_neg hpos, if_neg hpos]

theorem Rising.append {p : ℤ} (h : Rising shown) (hp : 0 ≤ p ∧ p ≤ 100)
    (hlast : ∀ q ∈ shown.getLast?, q < p) : Rising (shown ++ [p]) := by
  obtain ⟨hup, hin⟩ := h
  constructor
  · rw [List.pairwise_append]
    refine ⟨hup, List.pairwise_singleton _ _, fun q hq r hr => ?_⟩
    obtain rfl := List.mem_singleton.mp hr
    obtain ⟨init, last, rfl⟩ : ∃ init last, shown = init ++ [last] :=
      ⟨_, _, (List.dropLast_append_getLast (List.ne_nil_of_mem hq)).symm⟩
    have hlt := hlast last (by simp)
    rcases List.mem_append.mp hq with hq | hq
    · exact ((List.pairwise_append.mp hup).2.2 q hq last (by simp)).trans hlt
    · rwa [List.mem_singleton.mp hq]
  · intro q hq
    rcases List.mem_append.mp hq with hq | hq
    · exact hin q hq
    · rwa [List.mem_singleton.mp hq]

/-- A whole chunk on, the figure is shown if it is another one. -/
theorem Shows.wrote (h : Shows l chunk shown) (hne : chunk ≠ []) :
    Shows { wrote l chunk with last := percent (wrote l chunk) } []
      (if percent (wrote l chunk) = l.last then shown else shown ++ [percent (wrote l chunk)]) := by
  have htotal : l.total = l.done + chunk.length + l.body.length := by
    rcases h.total with ht | ⟨hchunk, -⟩
    · exact ht
    · exact absurd hchunk hne
  have hpos : 0 < (Download.wrote l chunk).total := by
    have hlen := List.length_pos_iff.mpr hne
    simp only [Download.wrote]
    omega
  have hafter : (Download.wrote l chunk).total = (Download.wrote l chunk).done +
      ([] : Bytes).length + (Download.wrote l chunk).body.length := by
    simp only [Download.wrote, List.length_nil]
    omega
  have hbounds := percent_bounds hafter
  have hmono := percent_mono l chunk
  obtain ⟨p, hp⟩ : ∃ p, p = percent (Download.wrote l chunk) := ⟨_, rfl⟩
  rw [← hp] at hbounds hmono ⊢
  refine ⟨.inl hafter, ?_, ?_⟩
  · split
    · exact h.rising
    · rename_i hother
      refine h.rising.append hbounds fun q hq => ?_
      rcases h.last with ⟨rfl, -⟩ | ⟨-, hlast, hl⟩
      · simp at hq
      · rw [hlast, Option.mem_some_iff] at hq
        omega
  · refine .inr ⟨hpos, ?_, hp⟩
    split
    · rename_i hsame
      rcases h.last with ⟨-, hl⟩ | ⟨-, hlast, hl⟩
      · omega
      · rw [hlast, ← hl, ← hsame, hp]
        rfl
    · rw [List.getLast?_concat, hp]
      rfl

/-- Counted to the end, the last figure is 100. -/
theorem Shows.ended (h : Shows l [] shown) (hdone : ¬ (0 < l.total ∧ (l.done : ℤ) ≠ l.total)) :
    Ended shown := by
  refine ⟨h.rising, ?_⟩
  rcases h.last with ⟨hnone, -⟩ | ⟨hpos, hlast, -⟩
  · exact .inl hnone
  · have hall : (l.done : ℤ) = l.total := by
      by_contra hne
      exact hdone ⟨hpos, hne⟩
    have hfull : percent l = 100 := by
      rw [percent, if_pos hpos, hall, Int.tdiv_eq_ediv_of_nonneg (by omega)]
      exact Int.mul_ediv_cancel_left 100 (by omega)
    exact .inr (hfull ▸ hlast)

theorem openLoop_shows {have_ fd : ℕ} {r : Response} (hr : r.contentLength = r.body.length) :
    Shows (openLoop fd have_ r) [] [] := by
  refine ⟨?_, rising_nil, .inl ⟨rfl, rfl⟩⟩
  cases hb : r.body with
  | nil => exact .inr ⟨rfl, hb, rfl⟩
  | cons b rest =>
    have hpos : 0 < r.contentLength := by simp [hr, hb]
    simp only [openLoop, hr, List.length_nil]
    exact .inl (by omega)

theorem Shows.reads (h : Shows l [] shown) (n : ℕ) :
    Shows { l with body := l.body.drop n } (l.body.take n) shown := by
  refine ⟨?_, h.rising, h.last⟩
  rcases h.total with ht | ⟨-, hbody, hnone⟩
  · have hlen := congrArg List.length (List.take_append_drop n l.body)
    rw [List.length_append] at hlen
    rw [List.length_nil] at ht
    exact .inl (by simp only; omega)
  · exact .inr ⟨by simp [hbody], by simp [hbody], hnone⟩

theorem Figures.rising {c : Call} (h : Figures c shown) : Rising shown := by
  unfold Figures at h
  split at h
  · exact h.rising
  · exact h.rising
  · exact h.rising
  · exact h.2.rising
  · exact h.1
  · exact h.1
  · exact h.1
  · exact h ▸ rising_nil
  · exact h ▸ rising_nil
  · exact h.1 ▸ rising_nil
  · exact h

/-- Whatever is on disk by then. -/
theorem Moves.figures {target : Name} {s s' : State} {pc : Pc} {e : Event}
    (h : Moves target s pc e s') (hf : Figures (.running pc) s.shown) (hd : Declares e) :
    Figures s'.call s'.shown := by
  cases h with
  | measured => exact hf
  | answered hlt => exact ⟨hf, hd hlt⟩
  | refused _ | unreachable => exact Figures.rising hf
  | opened _ => exact hf.1 ▸ openLoop_shows hf.2
  | stopped | broke | short _ => exact hf.rising
  | goesOn | ended => exact hf
  | @read l n hn _ hn' =>
    have hpos : 0 < (l.body.take n).length := by
      rw [List.length_take]
      omega
    exact ⟨List.ne_nil_of_length_pos hpos, hf.reads n⟩
  | @appended l chunk => exact hf.2.wrote hf.1
  | filled => exact hf.2.rising
  | complete hdone => exact hf.ended hdone
  | placed _ | placedAgain _ | left => exact hf.1
  | occupied | cleared => exact hf
  | killed => exact Figures.rising hf

end Figures

end ReadersSpeech.Download
