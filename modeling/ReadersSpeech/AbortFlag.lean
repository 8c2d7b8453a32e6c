import ReadersSpeech.Transition

/-! A flag shared by an operation that clears it once when it starts, reads it while it runs, and
by others that raise it. Raised before it is cleared, it is as if it had never been.
-/

set_option autoImplicit false

namespace ReadersSpeech.AbortFlag
open Transition

variable {σ ε : Type}

/-- `before` says that the operation has not cleared the flag yet. -/
structure Flagged (step : σ → ε → Option σ) (flag before : σ → Bool) (reset raise : ε) : Prop where
  raised : ∀ s s', step s raise = some s' → flag s' = true ∧ before s' = before s
  early : ∀ s e s', e ≠ raise → step s e = some s' → before s = true →
    e = reset ∧ flag s' = false ∧ before s' = false ∨
      e ≠ reset ∧ flag s' = flag s ∧ before s' = true
  past : ∀ s e s', e ≠ raise → step s e = some s' → before s = false →
    e ≠ reset ∧ flag s' = flag s ∧ before s' = false

variable {step : σ → ε → Option σ} {flag before : σ → Bool} {reset raise : ε} {s s' : σ}
  {es : List ε}

theorem Flagged.frame (h : Flagged step flag before reset raise) (hr : Steps step s es s')
    (hes : raise ∉ es) (hb : before s = false) : flag s' = flag s := by
  have hi := replay_invariant (I := fun t => before t = false ∧ flag t = flag s)
    (P := fun e => e ≠ raise) (fun t e t' ht hne he => ?_) hr (fun e he hc => hes (hc ▸ he))
    ⟨hb, rfl⟩
  · exact hi.2
  · obtain ⟨-, hf, hb⟩ := h.past t e t' hne he ht.1
    exact ⟨hb, hf.trans ht.2⟩

/-- Once the flag is cleared, a cancel stays until the end. -/
theorem Flagged.kept (h : Flagged step flag before reset raise) (hr : Steps step s es s')
    (hb : before s = false) (hf : flag s = true) : before s' = false ∧ flag s' = true := by
  refine replay_invariant (I := fun s => before s = false ∧ flag s = true)
    (P := fun _ => True) (fun s e s' hs _ he => ?_) hr (fun _ _ => trivial) ⟨hb, hf⟩
  by_cases hc : e = raise
  · obtain ⟨hf, hb⟩ := h.raised s s' (hc ▸ he)
    exact ⟨hb.trans hs.1, hf⟩
  · obtain ⟨-, hf, hb⟩ := h.past s e s' hc he hs.1
    exact ⟨hb, hf.trans hs.2⟩

/-- Before that, nothing of it is left when the operation has cleared the flag. -/
theorem Flagged.lost (h : Flagged step flag before reset raise) (hr : Steps step s es s')
    (hes : raise ∉ es) (hb : before s = true) (hb' : before s' = false) : flag s' = false := by
  have hi := replay_invariant (I := fun s => before s = false → flag s = false)
    (P := fun e => e ≠ raise) (fun s e s' hs hne he hb' => ?_) hr
    (fun e he hc => hes (hc ▸ he)) (fun hf => by simp [hb] at hf)
  · exact hi hb'
  · cases hbs : before s with
    | true =>
      rcases h.early s e s' hne he hbs with ⟨-, hf, -⟩ | ⟨-, -, hb⟩
      · exact hf
      · simp [hb] at hb'
    | false => exact (h.past s e s' hne he hbs).2.1.trans (hs hbs)

theorem Flagged.reset_mem_iff (h : Flagged step flag before reset raise) (hne : reset ≠ raise)
    (hr : Steps step s es s') : before s' = false ↔ before s = false ∨ reset ∈ es := by
  induction es generalizing s with
  | nil => obtain rfl : s = s' := hr; simp
  | cons e es ih =>
    obtain ⟨-, t, ht, hr⟩ := hr
    rw [ih hr]
    by_cases hc : e = raise
    · rw [(h.raised s t (hc ▸ ht)).2, hc]
      simp [hne]
    · cases hbs : before s with
      | true =>
        rcases h.early s e t hc ht hbs with ⟨rfl, -, hb⟩ | ⟨hn, -, hb⟩
        · simp [hb]
        · simp [hb, Ne.symm hn]
      | false => simp [(h.past s e t hc ht hbs).2.2]

/-- A cancel that some test of the flag comes after: it is kept when the flag was cleared first,
and else nothing is left of it. -/
theorem Flagged.raised_iff (h : Flagged step flag before reset raise) (hne : reset ≠ raise)
    {es₁ es₂ : List ε} {s₁ s₂ : σ} (h₁ : Steps step s es₁ s₁) (hb : before s = true)
    (hc : step s₁ raise = some s₂) (h₂ : Steps step s₂ es₂ s') (hes : raise ∉ es₂)
    (hb' : before s' = false) : flag s' = true ↔ reset ∈ es₁ := by
  obtain ⟨hf, hbc⟩ := h.raised s₁ s₂ hc
  have hmem := h.reset_mem_iff hne h₁
  cases hb₁ : before s₁ with
  | true =>
    rw [hb₁] at hbc hmem
    simp [h.lost h₂ hes hbc hb', show reset ∉ es₁ by simpa [hb] using hmem]
  | false =>
    rw [hb₁] at hbc hmem
    simp [(h.kept h₂ hbc hf).2, show reset ∈ es₁ by simpa [hb] using hmem]

end ReadersSpeech.AbortFlag
