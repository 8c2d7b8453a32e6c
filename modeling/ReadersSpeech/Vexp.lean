import Mathlib.Analysis.Complex.ExponentialBounds
import Mathlib.Analysis.SpecialFunctions.Sigmoid

/-! `vexp` of pyannet.c in exact arithmetic, its constants as they are written, and how far it is
from the exponential function.
-/

set_option autoImplicit false

namespace ReadersSpeech.Vexp
open Real

section Model

noncomputable def clamped (v : ℝ) : ℝ := if v > 87 then 87 else if v < -87 then -87 else v

noncomputable def polynomial (r : ℝ) : ℝ :=
  let p := 1.9875691500e-4
  let p := p * r + 1.3981999507e-3
  let p := p * r + 8.3334519073e-3
  let p := p * r + 4.1665795894e-2
  let p := p * r + 1.6666665459e-1
  let p := p * r + 5.0000001201e-1
  p * r * r + r + 1

/-- `floorf`: the power of two nearest. -/
noncomputable def fn (v : ℝ) : ℤ := ⌊v * 1.44269504088896341 + 0.5⌋

noncomputable def reduced (v : ℝ) : ℝ := v - fn v * 0.693145751953125 - fn v * 1.428606765330187e-06

/-- `scale` is the float with the exponent `fn + 127` and no mantissa. -/
noncomputable def vexp (x : ℝ) : ℝ :=
  let v := clamped x
  polynomial (reduced v) * (2 : ℕ) ^ fn v

end Model

section Reduction
variable {v : ℝ}

theorem clamped_mem (v : ℝ) : |clamped v| ≤ 87 := by
  rw [clamped]
  split
  · norm_num
  · split
    · norm_num
    · exact abs_le.mpr ⟨by linarith, by linarith⟩

theorem clamped_self (h : |v| ≤ 87) : clamped v = v := by
  obtain ⟨hlo, hhi⟩ := abs_le.mp h
  rw [clamped, if_neg hhi.not_gt, if_neg hlo.not_gt]

/-- The exponent is that of a normal float. -/
theorem fn_mem (h : |v| ≤ 87) : -126 ≤ fn v ∧ fn v ≤ 126 := by
  obtain ⟨hlo, hhi⟩ := abs_le.mp h
  refine ⟨Int.le_floor.mpr ?_, Int.lt_add_one_iff.mp (Int.floor_lt.mpr ?_)⟩
  · push_cast
    linarith
  · push_cast
    linarith

theorem reduced_small (h : |v| ≤ 87) : |reduced v| ≤ 0.35 := by
  obtain ⟨hlo, hhi⟩ := fn_mem h
  have hlo : (-126 : ℝ) ≤ fn v := by exact_mod_cast hlo
  have hhi : (fn v : ℝ) ≤ 126 := by exact_mod_cast hhi
  have hle := Int.floor_le (v * 1.44269504088896341 + 0.5)
  have hlt := Int.lt_floor_add_one (v * 1.44269504088896341 + 0.5)
  rw [← fn] at hle hlt
  rw [reduced, abs_le]
  constructor <;> linarith

/-- The two constants are together the logarithm of 2. -/
theorem exp_reduced (h : |v| ≤ 87) :
    ∃ d, |d| ≤ 1e-7 / 2 ∧ exp v = exp (reduced v) * exp d * 2 ^ fn v := by
  obtain ⟨hlo, hhi⟩ := fn_mem h
  have hfn : |(fn v : ℝ)| ≤ 126 :=
    abs_le.mpr ⟨by exact_mod_cast hlo, by exact_mod_cast hhi⟩
  have hlog : |0.693145751953125 + 1.428606765330187e-06 - log 2| ≤ 3e-10 := by
    have hgt := log_two_gt_d9
    have hlt := log_two_lt_d9
    exact abs_le.mpr ⟨by linarith, by linarith⟩
  refine ⟨fn v * (0.693145751953125 + 1.428606765330187e-06 - log 2), ?_, ?_⟩
  · rw [abs_mul]
    calc |(fn v : ℝ)| * |0.693145751953125 + 1.428606765330187e-06 - log 2|
      _ ≤ 126 * 3e-10 := mul_le_mul hfn hlog (abs_nonneg _) (by norm_num)
      _ ≤ 1e-7 / 2 := by norm_num
  · have hpow : (2 : ℝ) ^ fn v = exp (fn v * log 2) := by
      rw [mul_comm, exp_mul, exp_log two_pos, rpow_intCast]
    rw [hpow, ← exp_add, ← exp_add, reduced]
    congr 1
    ring

end Reduction

section Polynomial
variable {r : ℝ}

theorem polynomial_near (h : |r| ≤ 0.35) : |polynomial r - exp r| ≤ 5e-8 := by
  have hone : |r| ≤ 1 := h.trans (by norm_num)
  have htail : |r| ^ 8 ≤ 0.35 ^ 8 := pow_le_pow_left₀ (abs_nonneg r) h 8
  have hexp := exp_bound hone (by norm_num : 0 < 8)
  have hpow : ∀ k, -0.35 ^ k ≤ r ^ k ∧ r ^ k ≤ 0.35 ^ k := fun k =>
    abs_le.mp ((abs_pow r k).trans_le (pow_le_pow_left₀ (abs_nonneg r) h k))
  obtain ⟨h₂, h₂'⟩ := hpow 2
  obtain ⟨h₃, h₃'⟩ := hpow 3
  obtain ⟨h₄, h₄'⟩ := hpow 4
  obtain ⟨h₅, h₅'⟩ := hpow 5
  obtain ⟨h₆, h₆'⟩ := hpow 6
  obtain ⟨h₇, h₇'⟩ := hpow 7
  simp only [Finset.sum_range_succ, Finset.sum_range_zero, Nat.factorial] at hexp
  norm_num at hexp htail h₂ h₂' h₃ h₃' h₄ h₄' h₅ h₅' h₆ h₆' h₇ h₇'
  obtain ⟨hlo, hhi⟩ := abs_le.mp hexp
  rw [polynomial, abs_le]
  norm_num
  constructor <;> linarith

end Polynomial

section Exponential
variable {x : ℝ}

/-- The relative error is about that of a float. -/
theorem vexp_near (h : |x| ≤ 87) : |vexp x - exp x| ≤ 2e-7 * exp x := by
  obtain ⟨d, hd, hexp⟩ := exp_reduced h
  obtain ⟨hdlo, hdhi⟩ := abs_le.mp hd
  have hsmall := reduced_small h
  have hpoly := polynomial_near hsmall
  have hbig : 0.65 ≤ exp (reduced x) := by
    have hle := add_one_le_exp (reduced x)
    linarith [(abs_le.mp hsmall).1]
  have hturn : |1 - exp d| ≤ 1e-7 := by
    rw [abs_sub_comm]
    exact (abs_exp_sub_one_le (hd.trans (by norm_num))).trans (by linarith)
  have hkept : 1 - 1e-7 ≤ exp d := by linarith [(abs_le.mp hturn).2]
  have hnear : |polynomial (reduced x) - exp (reduced x) * exp d| ≤
      2e-7 * (exp (reduced x) * exp d) := calc
    _ = |polynomial (reduced x) - exp (reduced x) + exp (reduced x) * (1 - exp d)| := by
      congr 1
      ring
    _ ≤ 5e-8 + exp (reduced x) * 1e-7 := by
      refine (abs_add_le _ _).trans (add_le_add hpoly ?_)
      rw [abs_mul, abs_of_pos (exp_pos _)]
      exact mul_le_mul_of_nonneg_left hturn (exp_pos _).le
    _ ≤ 2e-7 * (exp (reduced x) * exp d) := by nlinarith [exp_pos (reduced x)]
  have hscale : (0 : ℝ) < 2 ^ fn x := zpow_pos two_pos _
  rw [vexp, clamped_self h, Nat.cast_ofNat, hexp, ← sub_mul, abs_mul, abs_of_pos hscale,
    ← mul_assoc]
  exact mul_le_mul_of_nonneg_right hnear hscale.le

theorem vexp_clamped (x : ℝ) : vexp x = vexp (clamped x) := by
  rw [vexp, vexp, clamped_self (clamped_mem x)]

theorem exp_far : 1e8 ≤ exp 87 := calc
  (1e8 : ℝ) ≤ 2 ^ 87 := by norm_num
  _ ≤ exp 1 ^ 87 := pow_le_pow_left₀ two_pos.le (by linarith [exp_one_gt_d9]) 87
  _ = exp 87 := by rw [← exp_nat_mul]; norm_num

/-- Above 87 both are huge; elsewhere they are near, below -87 because both are small. -/
theorem vexp_near_or (x : ℝ) :
    |vexp x - exp x| ≤ 2e-7 * (1 + exp x) ∨ 1e7 ≤ vexp x ∧ 1e7 ≤ exp x := by
  have hfar := exp_far
  have hpos := exp_pos x
  rcases lt_or_ge 87 x with hx | hx
  · right
    have hvexp : vexp x = vexp 87 := by rw [vexp_clamped, clamped, if_pos hx]
    have hnear := abs_le.mp (vexp_near (abs_of_pos (by norm_num : (0 : ℝ) < 87)).le)
    have hle := exp_le_exp.mpr hx.le
    rw [hvexp]
    constructor <;> linarith
  · left
    rcases lt_or_ge x (-87) with hx' | hx'
    · have hvexp : vexp x = vexp (-87) := by
        rw [vexp_clamped, clamped, if_neg hx.not_gt, if_pos hx']
      have hnear := abs_le.mp (vexp_near (x := -87) (by norm_num))
      have hle := exp_le_exp.mpr hx'.le
      have hsmall : exp (-87) ≤ 1e-8 := by
        rw [exp_neg]
        exact inv_le_of_inv_le₀ (by norm_num) (by linarith)
      rw [hvexp]
      exact abs_le.mpr ⟨by linarith [exp_pos (-87)], by linarith⟩
    · exact (vexp_near (abs_le.mpr ⟨hx', hx⟩)).trans (by linarith)

theorem vexp_pos (x : ℝ) : 0 < vexp x := by
  have hpoly := abs_le.mp (polynomial_near (reduced_small (clamped_mem x)))
  have hsmall := abs_le.mp (reduced_small (clamped_mem x))
  have hexp := add_one_le_exp (reduced (clamped x))
  exact mul_pos (by linarith) (zpow_pos (by norm_num) _)

end Exponential

section Activations

theorem quotients_near {e e' d : ℝ} (he : 0 < e) (he' : 0 < e') (h : |e' - e| ≤ d * (1 + e)) :
    |1 / (1 + e') - 1 / (1 + e)| ≤ d := by
  have hd : 0 ≤ d := nonneg_of_mul_nonneg_left ((abs_nonneg _).trans h) (by linarith)
  have hdiff : 1 / (1 + e') - 1 / (1 + e) = -((e' - e) / ((1 + e') * (1 + e))) := by
    field_simp
    ring
  have hprod : 0 < (1 + e') * (1 + e) := by positivity
  rw [hdiff, abs_neg, abs_div, abs_of_pos hprod, div_le_iff₀ hprod]
  calc |e' - e|
    _ ≤ d * (1 + e) := h
    _ ≤ d * ((1 + e') * (1 + e)) := by
      refine mul_le_mul_of_nonneg_left ?_ hd
      exact le_mul_of_one_le_left (by linarith) (by linarith)

/-- The sigmoid of the gates. -/
theorem sigmoid_near (z : ℝ) : |1 / (1 + vexp (-z)) - sigmoid z| ≤ 2e-7 := by
  rw [sigmoid_def, ← one_div]
  have hpos := exp_pos (-z)
  have hpos' := vexp_pos (-z)
  rcases vexp_near_or (-z) with h | ⟨h', h⟩
  · exact quotients_near hpos hpos' h
  · have hsmall : ∀ e : ℝ, 1e7 ≤ e → 0 ≤ 1 / (1 + e) ∧ 1 / (1 + e) ≤ 1e-7 := fun e he =>
      ⟨by positivity, by rw [div_le_iff₀ (by linarith)]; linarith⟩
    obtain ⟨h₁, h₂⟩ := hsmall _ h
    obtain ⟨h₁', h₂'⟩ := hsmall _ h'
    exact abs_le.mpr ⟨by linarith, by linarith⟩

theorem tanh_eq (z : ℝ) : tanh z = 2 * sigmoid (2 * z) - 1 := by
  have hexp : exp (-(2 * z)) = exp (-z) * exp (-z) := by
    rw [← exp_add]
    ring_nf
  have hone : exp z * exp (-z) = 1 := by rw [← exp_add, add_neg_cancel, exp_zero]
  have hpos := exp_pos z
  have hneg := exp_pos (-z)
  have hright : 2 * (1 + exp (-z) * exp (-z))⁻¹ - 1 =
      (1 - exp (-z) * exp (-z)) / (1 + exp (-z) * exp (-z)) := by
    field_simp
    ring
  rw [sigmoid_def, hexp, hright, tanh_eq_sinh_div_cosh, sinh_eq, cosh_eq,
    div_div_div_cancel_right₀ two_ne_zero, div_eq_div_iff (by positivity) (by positivity)]
  linear_combination (2 * exp (-z)) * hone

/-- The tanh of the cells, through the same function. -/
theorem tanh_near (z : ℝ) : |2 / (1 + vexp (-2 * z)) - 1 - tanh z| ≤ 4e-7 := by
  have hnear := sigmoid_near (2 * z)
  have hsame : 2 / (1 + vexp (-2 * z)) - 1 - tanh z =
      2 * (1 / (1 + vexp (-(2 * z))) - sigmoid (2 * z)) := by
    rw [tanh_eq, neg_mul]
    ring
  rw [hsame, abs_mul, abs_two]
  linarith

end Activations

end ReadersSpeech.Vexp
