import ReadersSpeech.Pcm
import Mathlib.Analysis.SpecialFunctions.Trigonometric.Bounds
import Mathlib.Analysis.Real.Pi.Bounds

/-! `Resample.to` of `Pcm.kt`, computed in exact real arithmetic. -/

set_option autoImplicit false

namespace ReadersSpeech.Resample
open Real
open ReadersSpeech.Pcm (Positive)

noncomputable section

structure Pcm where
  samples : List ℝ
  rate : Positive

/-- `Double.toInt()`. -/
def toInt (x : ℝ) : ℤ := max (-2 ^ 31) (min (if 0 ≤ x then ⌊x⌋ else ⌈x⌉) (2 ^ 31 - 1))

/-- `a..b` on `int`s. -/
def rangeTo (a b : ℤ) : List ℤ := (List.range (b - a + 1).toNat).map fun k : ℕ => a + k

def taps : ℤ := 16

/-- Cycles per input sample. -/
def cutoff (p r : Positive) : ℝ :=
  (min p.val.toInt r.val.toInt : ℤ) / 2 * 0.92 / p.val.toInt

def sinc (cutoff d : ℝ) : ℝ := if d = 0 then 2 * cutoff else sin (2 * π * cutoff * d) / (π * d)

def hann (d : ℝ) : ℝ := 0.5 + 0.5 * cos (π * d / (taps + 1))

/-- `acc` and `wsum` after the tap `k`. -/
def tap (cutoff : ℝ) (x : List ℝ) (center : ℝ) (sums : ℝ × ℝ) (k : ℤ) : ℝ × ℝ :=
  if k < 0 ∨ x.length ≤ k then sums
  else
    let d := k - center
    (sums.1 + x.getD k.toNat 0 * sinc cutoff d * hann d, sums.2 + sinc cutoff d * hann d)

/-- `acc` and `wsum` where the output instant is `center`. -/
def sums (cutoff : ℝ) (x : List ℝ) (center : ℝ) : ℝ × ℝ :=
  (rangeTo ((toInt center - taps).bmod (2 ^ 32)) ((toInt center + taps).bmod (2 ^ 32))).foldl
    (tap cutoff x center) (0, 0)

def sample (cutoff : ℝ) (x : List ℝ) (center : ℝ) : ℝ :=
  let (acc, wsum) := sums cutoff x center
  if wsum ≠ 0 then acc / wsum * 2 * cutoff / (2 * cutoff) else 0

def kernelSum (cutoff : ℝ) : ℝ :=
  (rangeTo (-taps) taps).foldl (fun (g : ℝ) (k : ℤ) => g + sinc cutoff k * hann k) 0

def ratio (p r : Positive) : ℝ := p.val.toInt / r.val.toInt

def Pcm.to (pcm : Pcm) (rate : Positive) : Pcm :=
  if pcm.rate = rate then pcm
  else
    let c := cutoff pcm.rate rate
    let n := toInt (pcm.samples.length / ratio pcm.rate rate)
    let out := (List.range n.toNat).map fun i : ℕ => sample c pcm.samples (i * ratio pcm.rate rate)
    let g := kernelSum c
    ⟨if g ≠ 0 ∧ |g - 1| > 1e-3 then out.map (· / g) else out, rate⟩

/-- The gain of the low-pass at rest, the taps of both sides taken together. -/
def gain (cutoff : ℝ) : ℝ := 2 * cutoff + ∑ k ∈ Finset.range 16,
  sin (2 * π * cutoff * (k + 1)) * (1 + cos (π * (k + 1) / 17)) / (π * (k + 1))

/-- The part of the lower Nyquist frequency that is kept, in cycles per input sample. -/
def kept (p r : Positive) : ℝ := 0.46 * min 1 (r.val.toInt / p.val.toInt : ℝ)

theorem hertz_pos (p : Positive) : (0 : ℝ) < p.val.toInt := by exact_mod_cast p.property

theorem taps_succ : (taps : ℝ) + 1 = 17 := by norm_num [taps]

theorem cutoff_eq (p r : Positive) : cutoff p r = kept p r := by
  have hp := hertz_pos p
  have hmin : min (1 : ℝ) (r.val.toInt / p.val.toInt) =
      min (p.val.toInt : ℝ) r.val.toInt / p.val.toInt := by
    rw [← min_div_div_right hp.le, div_self hp.ne']
  rw [cutoff, kept, hmin, Int.cast_min]
  ring

theorem rangeTo_succ (n : ℕ) : rangeTo (-(n + 1 : ℤ)) (n + 1) =
    -(n + 1 : ℤ) :: (rangeTo (-n : ℤ) n ++ [(n + 1 : ℤ)]) := by
  have hout : ((n + 1 : ℤ) - -(n + 1 : ℤ) + 1).toNat = 2 * n + 1 + 1 + 1 := by omega
  have hin : ((n : ℤ) - -(n : ℤ) + 1).toNat = 2 * n + 1 := by omega
  rw [rangeTo, rangeTo, hout, hin, List.range_succ, List.range_succ_eq_map]
  simp only [List.map_append, List.map_cons, List.map_map, List.map_nil, List.cons_append]
  congr 1
  congr 1
  · refine List.map_congr_left fun k _ => ?_
    simp only [Function.comp_apply]
    omega
  · congr 1
    omega

theorem foldl_add (f : ℤ → ℝ) (ks : List ℤ) (g : ℝ) :
    ks.foldl (fun g k => g + f k) g = g + (ks.map f).sum := by
  induction ks generalizing g with
  | nil => simp
  | cons k ks ih => simp [ih, add_assoc]

theorem sum_rangeTo {f : ℤ → ℝ} (heven : ∀ k, f (-k) = f k) (n : ℕ) :
    ((rangeTo (-n : ℤ) n).map f).sum = f 0 + ∑ k ∈ Finset.range n, 2 * f (k + 1) := by
  induction n with
  | zero => simp [rangeTo]
  | succ n ih =>
    push_cast
    rw [rangeTo_succ, List.map_cons, List.map_append, List.sum_cons, List.sum_append, ih,
      Finset.sum_range_succ, heven, List.map_singleton, List.sum_singleton]
    ring

theorem kernelSum_eq (cutoff : ℝ) : kernelSum cutoff = gain cutoff := by
  have heven : ∀ k : ℤ, sinc cutoff (-k : ℤ) * hann (-k : ℤ) = sinc cutoff k * hann k := by
    intro k
    simp only [sinc, hann, Int.cast_neg, mul_neg, neg_eq_zero, sin_neg, neg_div,
      div_neg, neg_neg, cos_neg]
  have h := sum_rangeTo (f := fun k => sinc cutoff k * hann k) heven 16
  rw [kernelSum, foldl_add, zero_add]
  refine h.trans ?_
  rw [gain]
  congr 1
  · simp [sinc, hann]; norm_num
  · refine Finset.sum_congr rfl fun k _ => ?_
    have hk : ((k : ℝ) + 1) ≠ 0 := by positivity
    simp only [sinc, hann, taps_succ]
    push_cast
    rw [if_neg hk]
    field_simp
    ring

theorem tap_constant {cutoff c center : ℝ} {n : ℕ} {sums : ℝ × ℝ} (h : sums.1 = c * sums.2)
    (k : ℤ) : (tap cutoff (List.replicate n c) center sums k).1 =
      c * (tap cutoff (List.replicate n c) center sums k).2 := by
  unfold tap
  split
  · exact h
  · rename_i hk
    rw [List.length_replicate, not_or, not_lt, not_le] at hk
    have hget : (List.replicate n c).getD k.toNat 0 = c := by
      have : k.toNat < n := by omega
      simp [this]
    simp only [hget, h]
    ring

theorem sums_constant (cutoff c center : ℝ) (n : ℕ) :
    (sums cutoff (List.replicate n c) center).1 =
      c * (sums cutoff (List.replicate n c) center).2 := by
  refine List.foldlRecOn (motive := fun s : ℝ × ℝ => s.1 = c * s.2) _ _ (by simp) ?_
  intro s h k _
  exact tap_constant h k

theorem kept_pos (p r : Positive) : 0 < kept p r := by
  have hp := hertz_pos p
  have hr := hertz_pos r
  have hmin : 0 < min 1 (r.val.toInt / p.val.toInt : ℝ) := lt_min one_pos (div_pos hr hp)
  rw [kept]
  positivity

theorem sample_constant {cutoff c center : ℝ} {n : ℕ} (hcut : cutoff ≠ 0)
    (hw : (sums cutoff (List.replicate n c) center).2 ≠ 0) :
    sample cutoff (List.replicate n c) center = c := by
  simp only [sample, if_pos hw, sums_constant]
  field_simp

theorem sum_cos : ∑ k ∈ Finset.range 16, cos (π * (k + 1) / 17) = 0 := by
  have hflip : ∀ k ∈ Finset.range 16,
      cos (π * ((16 - 1 - k : ℕ) + 1) / 17) = -cos (π * (k + 1) / 17) := by
    intro k hk
    have hcast : ((16 - 1 - k : ℕ) : ℝ) = 15 - k := by
      have := Finset.mem_range.mp hk
      rw [Nat.cast_sub (by omega)]
      norm_num
    rw [← cos_pi_sub, hcast]
    congr 1
    ring
  have hsum := Finset.sum_range_reflect (fun k : ℕ => cos (π * (k + 1) / 17)) 16
  rw [Finset.sum_congr rfl hflip, Finset.sum_neg_distrib] at hsum
  linarith

/-- The gain is at most that of a kernel without lobes. -/
theorem gain_le {cutoff : ℝ} (h : 0 ≤ cutoff) : gain cutoff ≤ 34 * cutoff := by
  have hterm : ∀ k ∈ Finset.range 16,
      sin (2 * π * cutoff * (k + 1)) * (1 + cos (π * (k + 1) / 17)) / (π * (k + 1)) ≤
        2 * cutoff + 2 * cutoff * cos (π * (k + 1) / 17) := by
    intro k _
    have hk : (0 : ℝ) < π * (k + 1) := by positivity
    have hsin : sin (2 * π * cutoff * (k + 1)) ≤ 2 * π * cutoff * (k + 1) :=
      sin_le (by positivity)
    have hcos : 0 ≤ 1 + cos (π * (k + 1) / 17) := by linarith [neg_one_le_cos (π * (k + 1) / 17)]
    rw [div_le_iff₀ hk]
    calc _ ≤ 2 * π * cutoff * (k + 1) * (1 + cos (π * (k + 1) / 17)) :=
          mul_le_mul_of_nonneg_right hsin hcos
      _ = _ := by ring
  have hsum := Finset.sum_le_sum hterm
  have hcos : ∑ k ∈ Finset.range 16, 2 * cutoff * cos (π * (k + 1) / 17) = 0 := by
    rw [← Finset.mul_sum, sum_cos, mul_zero]
  rw [Finset.sum_add_distrib, hcos, Finset.sum_const, Finset.card_range, nsmul_eq_mul] at hsum
  rw [gain]
  push_cast at hsum
  linarith

theorem hann_pos {d : ℝ} (h : |d| < 17) : 0 < hann d := by
  have hd := abs_lt.mp h
  have hhalf : hann d = cos (π * d / 34) ^ 2 := by
    rw [hann, taps_succ, show π * d / 17 = 2 * (π * d / 34) by ring, cos_two_mul]
    ring
  have hpos : 0 < cos (π * d / 34) := by
    apply cos_pos_of_mem_Ioo
    constructor <;> nlinarith [pi_pos]
  rw [hhalf]
  positivity

theorem sinc_pos {cutoff d : ℝ} (hc : 0 < cutoff) (hc' : 34 * cutoff < 1) (h : |d| < 17) :
    0 < sinc cutoff d := by
  have hd := abs_lt.mp h
  have hpi := pi_pos
  unfold sinc
  split
  · positivity
  · rename_i hne
    rcases lt_or_gt_of_ne hne with hneg | hpos
    · refine div_pos_of_neg_of_neg ?_ (mul_neg_of_pos_of_neg hpi hneg)
      apply sin_neg_of_neg_of_neg_pi_lt
      · exact mul_neg_of_pos_of_neg (by positivity) hneg
      · nlinarith [mul_pos hpi hc]
    · refine div_pos ?_ (mul_pos hpi hpos)
      apply sin_pos_of_pos_of_lt_pi (by positivity)
      nlinarith [mul_pos hpi hc]

/-- Where the input has 16 times the rate or more, the gain is well below 1. -/
theorem kept_of_sixteen {p r : Positive} (h : 16 * r.val.toInt ≤ p.val.toInt) :
    kept p r ≤ 0.02875 := by
  have hp := hertz_pos p
  have h' : (16 : ℝ) * r.val.toInt ≤ p.val.toInt := by exact_mod_cast h
  have hratio : (r.val.toInt / p.val.toInt : ℝ) ≤ 1 / 16 := by
    rw [div_le_div_iff₀ hp (by norm_num)]
    linarith
  rw [kept]
  linarith [min_le_right (1 : ℝ) (r.val.toInt / p.val.toInt)]

theorem mem_rangeTo {a b k : ℤ} : k ∈ rangeTo a b ↔ a ≤ k ∧ k ≤ b := by
  simp only [rangeTo, List.mem_map, List.mem_range]
  constructor
  · rintro ⟨m, hm, rfl⟩
    omega
  · rintro ⟨ha, hb⟩
    exact ⟨(k - a).toNat, by omega, by omega⟩

theorem weight_pos {cutoff : ℝ} (hc : 0 < cutoff) (hc' : 34 * cutoff < 1) {k : ℤ}
    (hk : k ∈ rangeTo (-taps) taps) : 0 < sinc cutoff k * hann k := by
  have hk' : |k| < 17 := by
    rw [mem_rangeTo, taps] at hk
    exact abs_lt.mpr ⟨by omega, by omega⟩
  have habs : |(k : ℝ)| < 17 := by exact_mod_cast hk'
  exact mul_pos (sinc_pos hc hc' habs) (hann_pos habs)

theorem gain_of_sixteen {p r : Positive} (h : 16 * r.val.toInt ≤ p.val.toInt) :
    0 < gain (kept p r) ∧ gain (kept p r) < 1 - 1e-3 := by
  have hkept := kept_of_sixteen h
  have hpos := kept_pos p r
  constructor
  · rw [← kernelSum_eq, kernelSum, foldl_add, zero_add]
    refine List.sum_pos _ (fun w hw => ?_) (by rw [ne_eq, List.map_eq_nil_iff]; decide)
    obtain ⟨k, hk, rfl⟩ := List.mem_map.mp hw
    exact weight_pos hpos (by linarith) hk
  · linarith [gain_le hpos.le]

theorem foldl_tap (cutoff : ℝ) (x : List ℝ) (center : ℝ) (ks : List ℤ) (s : ℝ × ℝ) :
    (ks.foldl (tap cutoff x center) s).2 = s.2 + ((ks.filter fun k : ℤ => 0 ≤ k ∧ k < x.length).map
      fun k : ℤ => sinc cutoff (k - center) * hann (k - center)).sum := by
  induction ks generalizing s with
  | nil => simp
  | cons k ks ih =>
    by_cases hk : 0 ≤ k ∧ k < x.length
    · rw [List.foldl_cons, ih, tap, if_neg (by omega), List.filter_cons_of_pos (by simpa using hk),
        List.map_cons, List.sum_cons, add_assoc]
    · rw [List.foldl_cons, ih, tap, if_pos (by omega), List.filter_cons_of_neg (by simpa using hk)]

/-- At the first output instant the weights do not cancel. -/
theorem sums_start_pos {cutoff : ℝ} (hc : 0 < cutoff) (hc' : 34 * cutoff < 1) {x : List ℝ}
    (hx : x ≠ []) : 0 < (sums cutoff x 0).2 := by
  have hstart : toInt 0 = 0 := by simp [toInt]
  have hwindow : rangeTo ((toInt 0 - taps).bmod (2 ^ 32)) ((toInt 0 + taps).bmod (2 ^ 32)) =
      rangeTo (-taps) taps := by
    rw [hstart]
    rfl
  rw [sums, hwindow, foldl_tap, zero_add]
  simp only [sub_zero]
  refine List.sum_pos _ (fun w hw => ?_) ?_
  · obtain ⟨k, hk, rfl⟩ := List.mem_map.mp hw
    exact weight_pos hc hc' (List.mem_of_mem_filter hk)
  · have hmem : (0 : ℤ) ∈ (rangeTo (-taps) taps).filter fun k : ℤ => 0 ≤ k ∧ k < x.length := by
      rw [List.mem_filter, mem_rangeTo]
      simp [taps, List.length_pos_of_ne_nil hx]
    exact fun h => List.ne_nil_of_mem hmem (List.map_eq_nil_iff.mp h)

theorem length_to {pcm : Pcm} {r : Positive} (hpr : pcm.rate ≠ r) :
    (pcm.to r).samples.length = (toInt (pcm.samples.length / ratio pcm.rate r)).toNat := by
  simp only [Pcm.to, if_neg hpr]
  split <;> simp

/-- What becomes of a sample of a constant signal: it is divided by a gain that is not near 1. -/
theorem getElem_to {c : ℝ} {n : ℕ} {p r : Positive} (hpr : p ≠ r) {i : ℕ}
    (hi : i < (Pcm.to ⟨List.replicate n c, p⟩ r).samples.length)
    (hw : (sums (cutoff p r) (List.replicate n c) (i * ratio p r)).2 ≠ 0) :
    (Pcm.to ⟨List.replicate n c, p⟩ r).samples[i]? = some
      (if gain (kept p r) ≠ 0 ∧ |gain (kept p r) - 1| > 1e-3 then c / gain (kept p r) else c) := by
  have hcut : cutoff p r ≠ 0 := cutoff_eq p r ▸ (kept_pos p r).ne'
  have hsample := sample_constant hcut hw
  rw [← cutoff_eq, ← kernelSum_eq, List.getElem?_eq_getElem hi]
  by_cases hg : kernelSum (cutoff p r) ≠ 0 ∧ |kernelSum (cutoff p r) - 1| > 1e-3
  · simp only [Pcm.to, if_neg hpr, if_pos hg, List.getElem_map, List.getElem_range, hsample]
  · simp only [Pcm.to, if_neg hpr, if_neg hg, List.getElem_map, List.getElem_range, hsample]

/-- From 16 times the rate on, every constant signal but silence comes out at another level. -/
theorem level_lost {c : ℝ} (hc : c ≠ 0) {n : ℕ} {p r : Positive}
    (h : 16 * r.val.toInt ≤ p.val.toInt)
    (h0 : 0 < (Pcm.to ⟨List.replicate n c, p⟩ r).samples.length) :
    (sums (cutoff p r) (List.replicate n c) 0).2 ≠ 0 ∧
      (Pcm.to ⟨List.replicate n c, p⟩ r).samples[0]? ≠ some c := by
  have hr := r.property
  have hpr : p ≠ r := by
    rintro rfl
    omega
  have hn : List.replicate n c ≠ [] := by
    intro hnil
    rw [length_to hpr, hnil] at h0
    simp [toInt] at h0
  have hkept := kept_of_sixteen h
  have hw := sums_start_pos (kept_pos p r) (by linarith) hn
  rw [← cutoff_eq] at hw
  obtain ⟨hpos, hlt⟩ := gain_of_sixteen h
  have hfar : |gain (kept p r) - 1| > 1e-3 := lt_abs.mpr (.inr (by linarith))
  refine ⟨hw.ne', ?_⟩
  rw [getElem_to hpr h0 (by simpa using hw.ne'), if_pos ⟨hpos.ne', hfar⟩]
  rw [ne_eq, Option.some.injEq, div_eq_mul_inv, mul_right_eq_self₀, inv_eq_one, or_iff_left hc]
  linarith

/-- Resampled, a constant signal keeps its level exactly when the low-pass has no gain the code
divides by. -/
theorem to_constant_iff {c : ℝ} {n : ℕ} {p r : Positive} (hpr : p ≠ r) {i : ℕ}
    (hi : i < (Pcm.to ⟨List.replicate n c, p⟩ r).samples.length)
    (hw : (sums (cutoff p r) (List.replicate n c) (i * ratio p r)).2 ≠ 0) :
    (Pcm.to ⟨List.replicate n c, p⟩ r).samples[i]? = some c ↔
      c = 0 ∨ gain (kept p r) = 0 ∨ |gain (kept p r) - 1| ≤ 1e-3 := by
  rw [getElem_to hpr hi hw, Option.some.injEq]
  by_cases hg : gain (kept p r) ≠ 0 ∧ |gain (kept p r) - 1| > 1e-3
  · have hone : gain (kept p r) ≠ 1 := by
      intro h1
      rw [h1, sub_self, abs_zero] at hg
      exact absurd hg.2 (by norm_num)
    have hno : ¬ (gain (kept p r) = 0 ∨ |gain (kept p r) - 1| ≤ 1e-3) :=
      fun h => h.elim hg.1 (not_le.mpr hg.2)
    rw [if_pos hg, div_eq_mul_inv, mul_right_eq_self₀, inv_eq_one, or_iff_left hno,
      or_iff_right hone]
  · rw [if_neg hg]
    rw [not_and_or, not_not, gt_iff_lt, not_lt] at hg
    exact iff_of_true rfl (.inr hg)

def studio : Positive := ⟨384000, by decide⟩
def speech : Positive := ⟨16000, by decide⟩

/-- A quarter of a millisecond at the highest level. -/
def loud : Pcm := ⟨List.replicate 100 1, studio⟩

theorem length_loud : 0 < (loud.to speech).samples.length := by
  have hone : (1 : ℤ) ≤ ⌊(loud.samples.length / ratio studio speech : ℝ)⌋ := by
    have hstudio : studio.val.toInt = 384000 := rfl
    have hspeech : speech.val.toInt = 16000 := rfl
    rw [Int.le_floor, ratio, hstudio, hspeech, loud, List.length_replicate]
    norm_num
  have hnonneg : (0 : ℝ) ≤ loud.samples.length / ratio studio speech :=
    le_trans zero_le_one (by exact_mod_cast Int.le_floor.mp hone)
  rw [length_to (by decide)]
  show 0 < (toInt (loud.samples.length / ratio studio speech)).toNat
  rw [toInt, if_pos hnonneg]
  omega

theorem to_constant_loud : (loud.to speech).samples[0]? = some 1 ↔
    (1 : ℝ) = 0 ∨ gain (kept studio speech) = 0 ∨ |gain (kept studio speech) - 1| ≤ 1e-3 :=
  to_constant_iff (i := 0) (by decide) length_loud
    (by simpa using (level_lost one_ne_zero (by decide) length_loud).1)

theorem to_changes_level : 0 < (loud.to speech).samples.length ∧
    (sums (cutoff studio speech) loud.samples 0).2 ≠ 0 ∧ (loud.to speech).samples[0]? ≠ some 1 :=
  ⟨length_loud, level_lost one_ne_zero (by decide) length_loud⟩

end

end ReadersSpeech.Resample
