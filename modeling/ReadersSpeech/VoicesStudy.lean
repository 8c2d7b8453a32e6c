import ReadersSpeech.Voices
import Mathlib.Algebra.BigOperators.Fin
import Mathlib.Algebra.Order.BigOperators.Group.Finset
import Mathlib.Data.Rat.Floor
import Mathlib.Order.Lattice.Nat
import Mathlib.Tactic.FieldSimp
import Mathlib.Tactic.Linarith

/-! The local segmentation of embed.py and `segmentation_cue` of score.py, on exact rationals, and
the on-phone decision of Voices.kt against them.
-/

set_option autoImplicit false

namespace ReadersSpeech.Voices
open Jvm FirstMax

namespace Study

def sr : ℚ := 16000
def win : ℚ := 10
def margin : ℚ := 2

/-- `int`: towards zero. -/
def int (x : ℚ) : ℤ := if 0 ≤ x then ⌊x⌋ else ⌈x⌉

/-- Where an index of a slice lies in a sequence: a negative one counts from the end. -/
def place (length : ℕ) (i : ℤ) : ℕ :=
  if i < 0 then (length + i).toNat else min i.toNat length

/-- `data[i:j]`. -/
def slice (data : List Frame) (i j : ℤ) : List Frame :=
  (data.take (place data.length j)).drop (place data.length i)

/-- `sum(0)`. -/
def columns (rows : List Frame) : Fin speakers → ℕ :=
  fun s => (rows.map fun row => (row s).toNat).sum

def greatest (counts : Fin speakers → ℕ) : ℕ := Finset.univ.sup counts

def speaker (counts : Fin speakers → ℕ) : ℤ :=
  if 0 < greatest counts then (argmax counts).val else -1

def item (counts : Fin speakers → ℕ) (i : ℤ) : ℕ :=
  if h : i.toNat < speakers then counts ⟨i.toNat, h⟩ else 0

def total (counts : Fin speakers → ℕ) : ℕ := ∑ s, counts s

def windowStart (gap : ℚ) : ℚ := max 0 (gap - win / 2)

def windowEnd (samples : ℕ) (gap : ℚ) : ℚ := min (samples / sr) (windowStart gap + win)

def frames (data : List Frame) (a step t₁ t₂ : ℚ) : List Frame :=
  let f₁ := int (max 0 ((t₁ - a) / step))
  let f₂ := int (min data.length ((t₂ - a) / step))
  slice data f₁ (max f₂ (f₁ + 1))

structure Cut where
  before : ℤ
  after : ℤ
  change : ℚ

/-- What is kept of the counts before and after; `change` is the share of the frames after that
the speaker before does not hold. -/
def scored (pre post : Fin speakers → ℕ) : Cut where
  before := speaker pre
  after := speaker post
  change := 1 - (if 0 ≤ speaker pre ∧ 0 < total post
    then (item post (speaker pre) / total post : ℚ) else 1)

def cut (samples : ℕ) (gap : ℚ) (data : List Frame) : Cut :=
  let a := windowStart gap
  let step := (windowEnd samples gap - a) / data.length
  scored (columns (frames data a step (gap - margin) gap))
    (columns (frames data a step gap (gap + margin)))

def segmentationCue (c : Cut) (thr : ℚ) (gateMs pause : ℤ) : Bool :=
  if pause < gateMs then false
  else decide (0 ≤ c.before ∧ 0 ≤ c.after ∧ c.before ≠ c.after ∧ thr < c.change)

section Spans

theorem int_div {x d : ℤ} (hx : 0 ≤ x) (hd : 0 < d) : int ((x : ℚ) / d) = x / d := by
  obtain ⟨n, rfl⟩ := Int.eq_ofNat_of_zero_le hd.le
  have hq : (0 : ℚ) ≤ (x : ℚ) / ((n : ℤ) : ℚ) :=
    div_nonneg (by exact_mod_cast hx) (by exact_mod_cast hd.le)
  rw [int, if_pos hq, Int.cast_natCast, Rat.floor_intCast_div_natCast]

theorem int_intCast (x : ℤ) : int (x : ℚ) = x := by
  unfold int
  split <;> simp

theorem int_min {q : ℚ} (hq : 0 ≤ q) (n : ℕ) : int (min (n : ℚ) q) = min (n : ℤ) (int q) := by
  have hfloor : int q = ⌊q⌋ := if_pos hq
  rcases le_total (n : ℚ) q with h | h
  · have hn : (n : ℤ) ≤ ⌊q⌋ := Int.le_floor.mpr (by exact_mod_cast h)
    rw [min_eq_left h, hfloor, min_eq_left hn]
    exact_mod_cast int_intCast n
  · have hn : ⌊q⌋ ≤ (n : ℤ) := by
      have hle := (Int.floor_le q).trans h
      exact_mod_cast hle
    rw [min_eq_right h, hfloor, min_eq_right hn]

theorem place_of_nonneg {length : ℕ} {i : ℤ} (h : 0 ≤ i) : place length i = min i.toNat length :=
  if_neg (by omega)

theorem slice_eq (data : List Frame) {i j : ℤ} (hi : 0 ≤ i) (hj : 0 ≤ j) :
    slice data i j = (data.take j.toNat).drop i.toNat := by
  rw [slice, place_of_nonneg hi, place_of_nonneg hj, ← List.take_take, List.take_length]
  rcases le_total i.toNat data.length with h | h
  · rw [min_eq_left h]
  · rw [min_eq_right h, List.drop_eq_nil_of_le (by simp), List.drop_eq_nil_of_le (by simp [h])]

theorem counted_clamp (data : List Frame) (start stop : ℕ) :
    counted data start (min data.length stop) = counted data start stop := by
  rcases le_total stop data.length with h | h
  · rw [min_eq_right h]
  · rw [min_eq_left h, counted, counted, List.take_of_length_le (le_max_left _ _),
      List.take_of_length_le (h.trans (le_max_left _ _))]

/-- The instants `s / sr` and `a / sr`, measured in frames of a window that ends at `b / sr`. -/
theorem span_eq {a b F s : ℤ} (hd : a < b) (hF : 0 < F) :
    ((s / sr - a / sr) / ((b / sr - a / sr) / F) : ℚ) = ((s - a) * F : ℤ) / (b - a : ℤ) := by
  have hd' : (b - a : ℚ) ≠ 0 := by
    have h : (a : ℚ) < b := by exact_mod_cast hd
    linarith
  have hF' : (F : ℚ) ≠ 0 := by exact_mod_cast hF.ne'
  have hsr : sr ≠ 0 := by norm_num [sr]
  push_cast
  rw [← sub_div, ← sub_div]
  field_simp

theorem frames_eq (data : List Frame) {a b s₁ s₂ : ℤ} (hd : a < b) (hne : data ≠ [])
    (h₂ : a ≤ s₂) :
    frames data (a / sr) ((b / sr - a / sr) / data.length) (s₁ / sr) (s₂ / sr) =
      counted data (frameOf a b data.length (max a s₁)).toNat
        (frameOf a b data.length s₂).toNat := by
  have hF : (0 : ℤ) < data.length := by exact_mod_cast List.length_pos_of_ne_nil hne
  have hcast : (data.length : ℚ) = ((data.length : ℤ) : ℚ) := by push_cast; rfl
  have hq : ∀ s : ℤ, a ≤ s → (0 : ℚ) ≤ ((s - a) * data.length : ℤ) / (b - a : ℤ) := by
    intro s hs
    exact div_nonneg (by exact_mod_cast Int.mul_nonneg (by omega) hF.le)
      (by exact_mod_cast (by omega : (0 : ℤ) ≤ b - a))
  have hint : ∀ s : ℤ, a ≤ s →
      int (((s - a) * data.length : ℤ) / (b - a : ℤ)) = frameOf a b data.length s := by
    intro s hs
    exact int_div (Int.mul_nonneg (by omega) hF.le) (by omega)
  have hf₁ : int (max 0 ((s₁ / sr - a / sr) / ((b / sr - a / sr) / data.length))) =
      frameOf a b data.length (max a s₁) := by
    rw [hcast, span_eq hd hF, ← hint _ (le_max_left a s₁)]
    congr 1
    rcases le_total a s₁ with h | h
    · rw [max_eq_right h, max_eq_right (hq s₁ h)]
    · rw [max_eq_left h, sub_self, zero_mul, Int.cast_zero, zero_div, max_eq_left]
      exact div_nonpos_of_nonpos_of_nonneg
        (by exact_mod_cast Int.mul_nonpos_of_nonpos_of_nonneg (by omega) hF.le)
        (by exact_mod_cast (by omega : (0 : ℤ) ≤ b - a))
  have hf₂ : int (min data.length ((s₂ / sr - a / sr) / ((b / sr - a / sr) / data.length))) =
      min (data.length : ℤ) (frameOf a b data.length s₂) := by
    rw [← hint s₂ h₂, ← int_min (hq s₂ h₂)]
    congr 2
    rw [hcast, span_eq hd hF]
  have hnn : ∀ s : ℤ, a ≤ s → 0 ≤ frameOf a b data.length s := fun s hs =>
    Int.ediv_nonneg (Int.mul_nonneg (by omega) hF.le) (by omega)
  have hnn₁ := hnn _ (le_max_left a s₁)
  have hnn₂ := hnn s₂ h₂
  rw [frames, hf₁, hf₂]
  rw [slice_eq data hnn₁ (by omega), ← counted_clamp data _ (frameOf a b data.length s₂).toNat,
    counted]
  congr 2
  omega

end Spans

section Windows

theorem windowStart_eq (gap : ℤ) :
    windowStart (gap / sr) = (max 0 (gap - 80000) : ℤ) / sr := by
  have hhalf : (gap / sr - win / 2 : ℚ) = (gap - 80000) / sr := by
    rw [win, sr]
    ring
  rw [windowStart, hhalf]
  push_cast
  rw [← max_div_div_right (by norm_num [sr]), zero_div]

theorem windowEnd_eq (samples : ℕ) (gap : ℤ) :
    windowEnd samples (gap / sr) =
      (min (samples : ℤ) (max 0 (gap - 80000) + 160000) : ℤ) / sr := by
  have hwin : win = 160000 / sr := by norm_num [win, sr]
  rw [windowEnd, windowStart_eq, hwin, ← add_div]
  push_cast
  rw [← min_div_div_right (by norm_num [sr])]

end Windows

section Speakers
variable (counts : Fin speakers → ℕ)

theorem loudest_eq :
    loudest counts = if 0 < counts (argmax counts) then some (argmax counts) else none := by
  rw [loudest, maxBy_eq_argmax counts (by decide)]

theorem greatest_pos : 0 < greatest counts ↔ 0 < counts (argmax counts) := by
  have hmax := (firstAmong_argmax counts).2
  rw [greatest, Finset.lt_sup_iff]
  constructor
  · rintro ⟨s, _, hs⟩
    exact lt_of_lt_of_le hs (hmax s (List.mem_finRange s)).1
  · intro h
    exact ⟨_, Finset.mem_univ _, h⟩

/-- The study writes −1 where the phone says null. -/
theorem speaker_eq :
    speaker counts = match loudest counts with
      | some s => (s.val : ℤ)
      | none => -1 := by
  rw [speaker, loudest_eq]
  by_cases h : 0 < counts (argmax counts)
  · rw [if_pos ((greatest_pos counts).mpr h), if_pos h]
  · rw [if_neg (mt (greatest_pos counts).mp h), if_neg h]

theorem speaker_of_some {s : Fin speakers} (h : loudest counts = some s) :
    speaker counts = s.val := by
  rw [speaker_eq, h]

theorem speaker_of_none (h : loudest counts = none) : speaker counts = -1 := by
  rw [speaker_eq, h]

theorem loudest_most {t : Fin speakers} (h : loudest counts = some t) :
    0 < counts t ∧ ∀ s, counts s ≤ counts t := by
  rw [loudest_eq] at h
  by_cases hp : 0 < counts (argmax counts)
  · rw [if_pos hp] at h
    obtain rfl := Option.some.inj h
    exact ⟨hp, fun s => ((firstAmong_argmax counts).2 s (List.mem_finRange s)).1⟩
  · rw [if_neg hp] at h
    exact absurd h (by simp)

theorem half_total {s t : Fin speakers} (h : loudest counts = some t) (hne : s ≠ t) :
    0 < total counts ∧ 2 * counts s ≤ total counts := by
  obtain ⟨hpos, hmost⟩ := loudest_most counts h
  have hpair : counts s + counts t ≤ total counts := by
    rw [total, ← Finset.sum_pair hne]
    exact Finset.sum_le_sum_of_subset_of_nonneg (Finset.subset_univ _) (by simp)
  have hs := hmost s
  omega

theorem item_val (s : Fin speakers) : item counts s.val = counts s := by
  rw [item, dif_pos (by simp)]
  rfl

end Speakers

theorem change_gt (pre : Fin speakers → ℕ) {post : Fin speakers → ℕ} {s t : Fin speakers}
    (hpre : loudest pre = some s) (hpost : loudest post = some t) (hne : s ≠ t) :
    3 / 10 < (scored pre post).change := by
  obtain ⟨hpos, hhalf⟩ := half_total post hpost hne
  have hsum : (0 : ℚ) < total post := by exact_mod_cast hpos
  have hle : (post s : ℚ) / total post ≤ 1 / 2 := by
    rw [div_le_div_iff₀ hsum (by norm_num)]
    have hq : (2 * post s : ℚ) ≤ total post := by exact_mod_cast hhalf
    linarith
  rw [scored, speaker_of_some pre hpre, if_pos ⟨by omega, hpos⟩, item_val]
  linarith

/-- The cue needs no threshold of 0.3: two different dominant speakers imply one half. -/
theorem cue_iff (pre post : Fin speakers → ℕ) {gateMs pause : ℤ} (hgate : gateMs ≤ pause) :
    segmentationCue (scored pre post) (3 / 10) gateMs pause = true ↔
      verdict (loudest pre) (loudest post) = some true := by
  have hbefore : (scored pre post).before = speaker pre := rfl
  have hafter : (scored pre post).after = speaker post := rfl
  rw [segmentationCue, if_neg (not_lt.mpr hgate), decide_eq_true_iff, hbefore, hafter]
  cases hpre : loudest pre with
  | none => simp [speaker_of_none pre hpre, verdict]
  | some s =>
    cases hpost : loudest post with
    | none => simp [speaker_of_none post hpost, verdict]
    | some t =>
      rw [speaker_of_some pre hpre, speaker_of_some post hpost]
      by_cases hst : s = t
      · simp [hst, verdict]
      · have hval : (s.val : ℤ) ≠ t.val := by
          intro h
          exact hst (Fin.ext (by exact_mod_cast h))
        simp [verdict, hst, hval, change_gt pre hpre hpost hst]

theorem verdict_none_iff (pre post : Fin speakers → ℕ) :
    verdict (loudest pre) (loudest post) = none ↔
      (scored pre post).before = -1 ∨ (scored pre post).after = -1 := by
  have hbefore : (scored pre post).before = speaker pre := rfl
  have hafter : (scored pre post).after = speaker post := rfl
  rw [hbefore, hafter]
  cases hpre : loudest pre with
  | none => simp [speaker_of_none pre hpre, verdict]
  | some s =>
    rw [speaker_of_some pre hpre]
    cases hpost : loudest post with
    | none => simp [speaker_of_none post hpost, verdict]
    | some t =>
      rw [speaker_of_some post hpost]
      exact iff_of_false (by simp [verdict]) (by omega)

end Study

section Decision
open Study
variable {τ : Type} [LT τ] [DecidableLT τ]

/-- Both look at the same frames before and after the gap. -/
theorem decision_eq (active : List Frame) {a b gap : ℤ} (samples : ℕ) (hne : active ≠ [])
    (ha : a = max 0 (gap - 80000)) (hb : b = min (samples : ℤ) (max 0 (gap - 80000) + 160000))
    (h₀ : 0 ≤ gap) (hd : a < b) :
    ∃ pre post, decision active a b gap = verdict (loudest pre) (loudest post) ∧
      cut samples (gap / sr) active = scored pre post := by
  refine ⟨_, _, rfl, ?_⟩
  have hback : (gap / sr - Study.margin : ℚ) = (gap - 32000 : ℤ) / sr := by
    rw [Study.margin, sr]
    push_cast
    ring
  have hforth : (gap / sr + Study.margin : ℚ) = (gap + 32000 : ℤ) / sr := by
    rw [Study.margin, sr]
    push_cast
    ring
  have hclamp : (min (active.length : ℤ) (frameOf a b active.length (gap + 32000))).toNat =
      min active.length (frameOf a b active.length (gap + 32000)).toNat := by omega
  rw [cut, windowStart_eq, windowEnd_eq, ← hb, ← ha, hback, hforth,
    frames_eq active hd hne (by omega), frames_eq active hd hne (by omega), hclamp, counted_clamp,
    max_eq_right (by omega : a ≤ gap)]
  rfl

/-- On every gap with a second of sound around it, `changeAt` reads only frames that exist, and
decides what the study decides on the same sound and the same frames. -/
theorem changeAt_is_study (runner : FrameRunner τ) (pcm16k : JArray τ) (gap : Int32) {y : JArray τ}
    (h₀ : 0 ≤ gap.toInt) (h₁ : gap.toInt < 2 ^ 30)
    (hsecond : max 0 (gap.toInt - 80000) + 16000 ≤
      min (pcm16k.data.length : ℤ) (max 0 (gap.toInt - 80000) + 160000))
    (hy : runner pcm16k (Voices.windowStart gap)
      (Voices.windowEnd pcm16k gap - Voices.windowStart gap) = .ok y)
    (hframes : 1 ≤ y.data.length / classes.length) :
    (Voices.windowStart gap).toInt = Study.int (Study.windowStart (gap.toInt / sr) * sr) ∧
    (Voices.windowEnd pcm16k gap).toInt =
      Study.int (Study.windowEnd pcm16k.data.length (gap.toInt / sr) * sr) ∧
    ∃ active, activeOf y.data = .ok active ∧ active.length = y.data.length / classes.length ∧
      ∃ answer, changeAt runner pcm16k gap = .ok answer ∧
        (answer = none ↔ (cut pcm16k.data.length (gap.toInt / sr) active).before = -1 ∨
          (cut pcm16k.data.length (gap.toInt / sr) active).after = -1) ∧
        ∀ gateMs pause, gateMs ≤ pause → (answer = some true ↔
          segmentationCue (cut pcm16k.data.length (gap.toInt / sr) active) (3 / 10) gateMs pause =
            true) := by
  have hstart := windowStart_toInt h₀
  have hend := windowEnd_toInt pcm16k h₀ (by omega)
  have hsr : sr ≠ 0 := by norm_num [sr]
  refine ⟨?_, ?_, ?_⟩
  · rw [windowStart_eq, div_mul_cancel₀ _ hsr, int_intCast, hstart]
  · rw [windowEnd_eq, div_mul_cancel₀ _ hsr, int_intCast, hend]
  · obtain ⟨active, hactive, hlen, hchange⟩ := changeAt_ok h₀ (by omega) (by omega) hy hframes
    have hne : active ≠ [] := List.ne_nil_of_length_pos (by omega)
    obtain ⟨pre, post, hdecision, hcut⟩ := decision_eq active pcm16k.data.length hne hstart hend h₀
      (by omega)
    refine ⟨active, hactive, hlen, _, hchange, ?_, ?_⟩
    · rw [hdecision, hcut]
      exact verdict_none_iff pre post
    · intro gateMs pause hgate
      rw [hdecision, hcut]
      exact (cue_iff pre post hgate).symm

theorem changeAt_is_study_exchange :
    changeAt (fun _ _ _ => .ok exchanged) twoSeconds 16000 = .ok (some true) ∧
      ∃ active, activeOf exchanged.data = .ok active ∧
        segmentationCue (cut 32000 (16000 / sr) active) (3 / 10) 200 500 = true := by
  obtain ⟨_, _, active, hactive, -, answer, hanswer, -, hcue⟩ :=
    changeAt_is_study (fun _ _ _ => .ok exchanged) twoSeconds 16000 (by decide) (by decide)
      (by rw [length_twoSeconds]; decide) rfl (by decide)
  have hsome : answer = some true := Except.ok.inj (hanswer.symm.trans changeAt_exchanged)
  have hgap : ((16000 : Int32).toInt : ℚ) = 16000 := by
    have h : (16000 : Int32).toInt = 16000 := by decide
    rw [h]
    norm_num
  have hfires := (hcue 200 500 (by norm_num)).mp hsome
  rw [length_twoSeconds, hgap] at hfires
  exact ⟨changeAt_exchanged, active, hactive, hfires⟩

end Decision

end ReadersSpeech.Voices
