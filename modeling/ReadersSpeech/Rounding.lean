import Mathlib.Data.Rat.Floor
import Mathlib.Algebra.Order.Field.Basic
import Mathlib.Tactic.Linarith
import Mathlib.Tactic.NormNum

/-! Double precision as the rationals it can hold. Rounding to a nearest one, however it breaks
its ties, keeps two numbers apart that are a little apart.
-/

set_option autoImplicit false

namespace ReadersSpeech.Rounding

def IsDouble (x : ℚ) : Prop :=
  ∃ m e : ℤ, |m| < 2 ^ 53 ∧ -1074 ≤ e ∧ e ≤ 971 ∧ x = m * (2 : ℚ) ^ e

structure RoundsToNearest (round : ℚ → ℚ) : Prop where
  double : ∀ x, IsDouble (round x)
  nearest : ∀ x z, IsDouble z → |round x - x| ≤ |z - x|

variable {round : ℚ → ℚ}

theorem RoundsToNearest.fixed (h : RoundsToNearest round) {x : ℚ} (hx : IsDouble x) :
    round x = x := by
  have hn := h.nearest x x hx
  rw [sub_self, abs_zero] at hn
  exact sub_eq_zero.mp (abs_nonpos_iff.mp hn)

theorem RoundsToNearest.mono (h : RoundsToNearest round) {x y : ℚ} (hxy : x ≤ y) :
    round x ≤ round y := by
  rcases hxy.eq_or_lt with rfl | hlt
  · exact le_refl _
  · by_contra hr
    have hx := h.nearest x _ (h.double y)
    have hy := h.nearest y _ (h.double x)
    rcases abs_cases (round x - x) with ⟨h₁, _⟩ | ⟨h₁, _⟩ <;>
      rcases abs_cases (round y - x) with ⟨h₂, _⟩ | ⟨h₂, _⟩ <;>
        rcases abs_cases (round y - y) with ⟨h₃, _⟩ | ⟨h₃, _⟩ <;>
          rcases abs_cases (round x - y) with ⟨h₄, _⟩ | ⟨h₄, _⟩ <;> linarith

theorem isDouble_grid {k : ℤ} (h₀ : 0 ≤ k) (h : k < 2 ^ 53) : IsDouble (k / 2 ^ 37) := by
  refine ⟨k, -37, ?_, by norm_num, by norm_num, ?_⟩
  · rwa [abs_of_nonneg h₀]
  · rw [zpow_neg, div_eq_mul_inv]
    norm_cast

/-- Between two such numbers lie two neighbours of a grid of doubles. -/
theorem RoundsToNearest.lt_of_gap (h : RoundsToNearest round) {x y : ℚ} (h₀ : 0 ≤ x)
    (hx : x ≤ 2 ^ 15) (hgap : x + 1 / 2 ^ 36 ≤ y) : round x < round y := by
  have hle := Int.le_ceil (x * 2 ^ 37)
  have hlt := Int.ceil_lt_add_one (x * 2 ^ 37)
  generalize ⌈x * 2 ^ 37⌉ = k at hle hlt
  have hk₀ : 0 ≤ k := by
    have hk : (0 : ℚ) ≤ k := le_trans (by positivity) hle
    exact_mod_cast hk
  have hk : k < 2 ^ 53 - 1 := by
    have hq : (k : ℚ) < 2 ^ 53 - 1 := by norm_num at hlt hx ⊢; linarith
    exact_mod_cast hq
  have h₁ : x ≤ k / 2 ^ 37 := by rw [le_div_iff₀ (by positivity)]; exact hle
  have h₂ : ((k + 1 : ℤ) : ℚ) / 2 ^ 37 ≤ y := by
    rw [div_le_iff₀ (by positivity)]
    push_cast
    norm_num at hlt hgap ⊢
    linarith
  have d₁ : IsDouble (k / 2 ^ 37) := isDouble_grid hk₀ (by omega)
  have d₂ : IsDouble (((k + 1 : ℤ) : ℚ) / 2 ^ 37) := isDouble_grid (by omega) (by omega)
  calc round x ≤ round (k / 2 ^ 37) := h.mono h₁
    _ = k / 2 ^ 37 := h.fixed d₁
    _ < ((k + 1 : ℤ) : ℚ) / 2 ^ 37 := by push_cast; gcongr; linarith
    _ = round (((k + 1 : ℤ) : ℚ) / 2 ^ 37) := (h.fixed d₂).symm
    _ ≤ round y := h.mono h₂

theorem RoundsToNearest.lt_iff (h : RoundsToNearest round) {x y : ℚ} (h₀ : 0 ≤ x)
    (hgap : x < y → x ≤ 2 ^ 15 ∧ x + 1 / 2 ^ 36 ≤ y) : round x < round y ↔ x < y := by
  refine ⟨fun hr => ?_, fun hxy => h.lt_of_gap h₀ (hgap hxy).1 (hgap hxy).2⟩
  by_contra hn
  exact absurd hr (not_lt.mpr (h.mono (not_lt.mp hn)))

end ReadersSpeech.Rounding
