import Mathlib.Computability.Language
import Mathlib.Data.List.TakeWhile

/-! How a list may begin, as a language: a symbol that may be there, a run of symbols, and so on.
Taking off from the front whatever is there decides it, without looking ahead, where the rest
would do as well without what is taken.
-/

set_option autoImplicit false

namespace ReadersSpeech.Beginnings

variable {α : Type}

/-- `c?` of a regular expression. -/
def maybe (c : α) : Language α := 1 + {[c]}

/-- `[p]*` of a regular expression. -/
def runs (p : α → Bool) : Language α := {w | ∀ c ∈ w, p c = true}

/-- Anything that does not begin with a symbol of `p`. -/
def clearOf (p : α → Bool) : Language α := {s | s.head?.any p = false}

theorem mem_clearOf {p : α → Bool} {s : List α} : s ∈ clearOf p ↔ s.head?.any p = false := Iff.rfl

instance (p : α → Bool) (s : List α) : Decidable (s ∈ clearOf p) :=
  decidable_of_iff _ mem_clearOf.symm

theorem mem_maybe_mul {c : α} {L : Language α} {s : List α} :
    s ∈ maybe c * L ↔ s ∈ L ∨ ∃ t ∈ L, c :: t = s := by
  rw [maybe, add_mul, one_mul, Language.mem_add, Language.mem_mul]
  constructor
  · rintro (h | ⟨a, rfl, t, ht, hs⟩)
    · exact .inl h
    · exact .inr ⟨t, ht, hs⟩
  · rintro (h | ⟨t, ht, hs⟩)
    · exact .inl h
    · exact .inr ⟨[c], rfl, t, ht, hs⟩

theorem mem_runs_mul {p : α → Bool} {L : Language α} {s : List α} :
    s ∈ runs p * L ↔ ∃ a, (∀ c ∈ a, p c = true) ∧ ∃ t ∈ L, a ++ t = s := Language.mem_mul

/-- The language does without a symbol of `p` at the front. -/
def Sheds (p : α → Bool) (L : Language α) : Prop :=
  ∀ c s, p c = true → c :: s ∈ L → s ∈ L

section Sheds
variable {p q : α → Bool} {L : Language α}

theorem sheds_clearOf : Sheds p (clearOf p) := by
  intro c s hc hs
  have hclear : p c = false := hs
  exact Bool.noConfusion (hc.symm.trans hclear)

theorem Sheds.maybe (h : Sheds p L) (d : α) : Sheds p (maybe d * L) := by
  intro c s hc hs
  rw [mem_maybe_mul] at hs ⊢
  rcases hs with hs | ⟨t, ht, hs⟩
  · exact .inl (h c s hc hs)
  · obtain ⟨-, rfl⟩ := List.cons.inj hs
    exact .inl ht

theorem Sheds.runs (h : Sheds p L) (q : α → Bool) : Sheds p (runs q * L) := by
  intro c s hc hs
  rw [mem_runs_mul] at hs ⊢
  obtain ⟨a, ha, t, ht, hs⟩ := hs
  cases a with
  | nil =>
    subst hs
    exact ⟨[], by simp, s, h c s hc ht, rfl⟩
  | cons b a =>
    obtain ⟨-, rfl⟩ := List.cons.inj hs
    exact ⟨a, fun d hd => ha d (List.mem_cons_of_mem b hd), t, ht, rfl⟩

/-- The symbol is taken off if it is there. -/
theorem mem_maybe_mul_iff [DecidableEq α] (h : Sheds p L) {c : α} (hc : p c = true) (s : List α) :
    s ∈ maybe c * L ↔ (if s.head? = some c then s.tail else s) ∈ L := by
  rw [mem_maybe_mul]
  cases s with
  | nil => simp
  | cons b s =>
    by_cases hb : b = c
    · subst hb
      simpa using h b s hc
    · simp [hb, Ne.symm hb]

/-- The whole run is taken off. -/
theorem mem_runs_mul_iff (h : Sheds p L) (hq : ∀ c, q c = true → p c = true) (s : List α) :
    s ∈ runs q * L ↔ s.dropWhile q ∈ L := by
  rw [mem_runs_mul]
  constructor
  · rintro ⟨a, ha, t, ht, rfl⟩
    rw [List.dropWhile_append_of_pos ha]
    induction t with
    | nil => exact ht
    | cons b t ih =>
      rw [List.dropWhile_cons]
      split
      · rename_i hb
        exact ih (h b t (hq b hb) ht)
      · exact ht
  · intro hs
    exact ⟨s.takeWhile q, fun c hc => List.mem_takeWhile_imp hc, _, hs,
      List.takeWhile_append_dropWhile⟩

end Sheds

end ReadersSpeech.Beginnings
