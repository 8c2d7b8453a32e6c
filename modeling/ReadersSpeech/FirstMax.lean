import Mathlib.Data.List.FinRange
import Mathlib.Order.Basic

/-! The first greatest value of a finite family, found by a scan that keeps the best so far or by
asking each index in turn whether it is a greatest one.
-/

set_option autoImplicit false

namespace ReadersSpeech.FirstMax

section Scan
variable {ι α : Type}

/-- The best so far gives way only to a greater one. -/
def better [LT α] [DecidableLT α] (f : ι → α) (best k : ι) : ι := if f best < f k then k else best

def maxBy [LT α] [DecidableLT α] (f : ι → α) (first : ι) (rest : List ι) : ι :=
  rest.foldl (better f) first

def FirstAmong [LT ι] [LE α] [LT α] (f : ι → α) (seen : List ι) (best : ι) : Prop :=
  best ∈ seen ∧ ∀ j ∈ seen, f j ≤ f best ∧ (j < best → f j < f best)

variable [LinearOrder ι] [LinearOrder α] {f : ι → α}

theorem FirstAmong.better {seen : List ι} {best k : ι} (h : FirstAmong f seen best)
    (hk : ∀ j ∈ seen, j < k) : FirstAmong f (seen ++ [k]) (better f best k) := by
  unfold FirstMax.better
  by_cases hlt : f best < f k
  · rw [if_pos hlt]
    refine ⟨by simp, fun j hj => ?_⟩
    rcases List.mem_append.mp hj with hs | hs
    · have hj : f j < f k := lt_of_le_of_lt (h.2 j hs).1 hlt
      exact ⟨hj.le, fun _ => hj⟩
    · obtain rfl := List.mem_singleton.mp hs
      exact ⟨le_refl _, fun hl => absurd hl (lt_irrefl j)⟩
  · rw [if_neg hlt]
    refine ⟨List.mem_append_left _ h.1, fun j hj => ?_⟩
    rcases List.mem_append.mp hj with hs | hs
    · exact h.2 j hs
    · obtain rfl := List.mem_singleton.mp hs
      exact ⟨not_lt.mp hlt, fun hl => absurd hl (lt_asymm (hk best h.1))⟩

theorem FirstAmong.foldl {seen rest : List ι} {best : ι} (h : FirstAmong f seen best)
    (hsort : (seen ++ rest).Pairwise (· < ·)) :
    FirstAmong f (seen ++ rest) (rest.foldl (FirstMax.better f) best) := by
  induction rest generalizing seen best with
  | nil => simpa using h
  | cons k rest ih =>
    have hk : ∀ j ∈ seen, j < k := fun j hj =>
      (List.pairwise_append.mp hsort).2.2 j hj k (by simp)
    have hstep := ih (h.better hk) (by simpa using hsort)
    simpa using hstep

theorem firstAmong_maxBy {first : ι} {rest : List ι} (hsort : (first :: rest).Pairwise (· < ·)) :
    FirstAmong f (first :: rest) (maxBy f first rest) := by
  have hone : FirstAmong f [first] first :=
    ⟨by simp, fun j hj => by
      obtain rfl := List.mem_singleton.mp hj
      exact ⟨le_refl _, fun hl => absurd hl (lt_irrefl j)⟩⟩
  exact hone.foldl hsort

theorem FirstAmong.unique {seen : List ι} {i j : ι} (hi : FirstAmong f seen i)
    (hj : FirstAmong f seen j) : i = j := by
  rcases lt_trichotomy i j with h | h | h
  · exact absurd ((hj.2 i hi.1).2 h) (not_lt.mpr (hi.2 j hj.1).1)
  · exact h
  · exact absurd ((hi.2 j hj.1).2 h) (not_lt.mpr (hj.2 i hi.1).1)

end Scan

section Indices
variable {α : Type} [LinearOrder α] {n : Nat}

/-- The first index at which no other value is greater. -/
def argmax (f : Fin (n + 1) → α) : Fin (n + 1) :=
  ((List.finRange (n + 1)).find? fun k => decide (∀ j, f j ≤ f k)).getD 0

theorem firstAmong_argmax (f : Fin (n + 1) → α) :
    FirstAmong f (List.finRange (n + 1)) (argmax f) := by
  have hcons : List.finRange (n + 1) = 0 :: (List.finRange n).map Fin.succ := List.finRange_succ
  have hscan : FirstAmong f (0 :: (List.finRange n).map Fin.succ) _ := firstAmong_maxBy (by
    rw [← hcons]
    exact List.pairwise_lt_finRange (n + 1))
  generalize maxBy f 0 ((List.finRange n).map Fin.succ) = m at hscan
  have hm : ∀ j, f j ≤ f m := fun j => (hscan.2 j (hcons ▸ List.mem_finRange j)).1
  cases h : (List.finRange (n + 1)).find? fun k => decide (∀ j, f j ≤ f k) with
  | none =>
    have hno := List.find?_eq_none.mp h m (List.mem_finRange m)
    exact absurd (decide_eq_true hm) hno
  | some k =>
    have harg : argmax f = k := by rw [argmax, h, Option.getD_some]
    have hk : ∀ j, f j ≤ f k := by simpa using List.find?_some h
    rw [harg]
    refine ⟨List.mem_finRange k, fun j _ => ⟨hk j, fun hj => ?_⟩⟩
    -- a smaller index with the same value would have been found first
    obtain ⟨i, hi, hik, hbefore⟩ := List.find?_eq_some_iff_getElem.mp h |>.2
    have hki : k.val = i := by rw [← hik]; simp
    have hjk : j.val < i := by rw [← hki]; exact hj
    have hnot := hbefore j.val hjk
    by_contra hge
    have hall : ∀ l, f l ≤ f j := fun l => (hk l).trans (not_lt.mp hge)
    simp [hall] at hnot

theorem maxBy_eq_argmax (f : Fin (n + 1) → α) {first : Fin (n + 1)} {rest : List (Fin (n + 1))}
    (h : List.finRange (n + 1) = first :: rest) : maxBy f first rest = argmax f := by
  have hsort : (first :: rest).Pairwise (· < ·) := by
    rw [← h]
    exact List.pairwise_lt_finRange (n + 1)
  have harg := firstAmong_argmax f
  rw [h] at harg
  exact (firstAmong_maxBy hsort).unique harg

end Indices

end ReadersSpeech.FirstMax
