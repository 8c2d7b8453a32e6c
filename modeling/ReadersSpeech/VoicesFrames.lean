import Mathlib.Tactic.FieldSimp
import ReadersSpeech.PyannetFrames
import ReadersSpeech.Voices

/-! Which frames of the network `changeAt` reads for a sample. It spreads the frames evenly over
the window, where the network sets one every 270 samples, from a receptive field of 991; and it
counts at least one frame for either side of the gap.
-/

set_option autoImplicit false

namespace ReadersSpeech.Voices
open Jvm Pyannet

section Near
variable {a b frames sample : Int32}

theorem frameOf_lt {a b frames : ℤ} (sample : ℤ) (hs : a ≤ sample) (hs' : sample < b)
    (hF : 1 ≤ frames) : frameOf a b frames sample < frames := by
  apply Int.ediv_lt_of_lt_mul (by omega)
  calc (sample - a) * frames < (b - a) * frames := Int.mul_lt_mul_of_pos_right (by omega) (by omega)
    _ = frames * (b - a) := Int.mul_comm _ _

theorem frameOf_nonneg {a b frames : ℤ} (sample : ℤ) (hs : a ≤ sample) (hs' : sample < b)
    (hF : 1 ≤ frames) : 0 ≤ frameOf a b frames sample :=
  Int.ediv_nonneg (Int.mul_nonneg (by omega) (by omega)) (by omega)

theorem frameAt_inside (ha : 0 ≤ a.toInt) (hs : a.toInt ≤ sample.toInt)
    (hs' : sample.toInt < b.toInt) (hF : 1 ≤ frames.toInt) :
    (frameAt a b frames sample).toInt = frameOf a.toInt b.toInt frames.toInt sample.toInt := by
  have hb := b.toInt_lt
  have hlt := frames.toInt_lt
  have hsub : (sample - a).toInt = sample.toInt - a.toInt := toInt_sub (by omega) (by omega)
  have hwidth : (b - a).toInt = b.toInt - a.toInt := toInt_sub (by omega) (by omega)
  have hbound := frameOf_lt _ hs hs' hF
  unfold frameOf at hbound ⊢
  rw [frameAt, toInt_scaled (by omega) (by omega) (by rw [hsub, hwidth]; omega) (by omega), hsub,
    hwidth]

/-- The frame the even mapping gives for a sample against the one the network sets there. -/
theorem near {n s F : ℤ} (h₀ : 0 ≤ s) (hs : s < n) (hF : F = (n - 991) / 270 + 1) (hn : 991 ≤ n) :
    270 * (s * F / n) ≤ s ∧ s < 270 * (s * F / n) + 991 + 270 := by
  have hlow : 270 * F ≤ n - 721 := by omega
  have hhigh : n - 990 ≤ 270 * F := by omega
  have hfloor := Int.ediv_mul_le (s * F) (show n ≠ 0 by omega)
  have hceil := Int.lt_ediv_add_one_mul_self (s * F) (show 0 < n by omega)
  generalize s * F / n = f at hfloor hceil
  constructor
  · by_contra hlt
    have h₁ : 270 * (f * n) ≤ s * (n - 721) := by
      calc 270 * (f * n) ≤ 270 * (s * F) := by omega
        _ = s * (270 * F) := by ring
        _ ≤ s * (n - 721) := Int.mul_le_mul_of_nonneg_left hlow h₀
    have h₂ : (s + 1) * n ≤ 270 * f * n := Int.mul_le_mul_of_nonneg_right (by omega) (by omega)
    nlinarith
  · by_contra hge
    have h₁ : s * (n - 990) ≤ s * (270 * F) := Int.mul_le_mul_of_nonneg_left hhigh h₀
    have h₂ : (270 * f + 1261) * n ≤ s * n := Int.mul_le_mul_of_nonneg_right (by omega) (by omega)
    nlinarith

/-- The receptive field of the frame read for a sample holds the sample, or ends just before it. -/
theorem frameAt_near (ha : 0 ≤ a.toInt) (hn : 991 ≤ b.toInt - a.toInt)
    (hs : a.toInt ≤ sample.toInt) (hs' : sample.toInt < b.toInt)
    (hF : pyannetFrames (some shipped) (b - a) = some frames.toInt) :
    (frameAt a b frames sample).toInt < frames.toInt ∧
      270 * (frameAt a b frames sample).toInt ≤ sample.toInt - a.toInt ∧
      sample.toInt - a.toInt < 270 * (frameAt a b frames sample).toInt + 991 + 270 := by
  have hb := b.toInt_lt
  have hwidth : (b - a).toInt = b.toInt - a.toInt := toInt_sub (by omega) (by omega)
  rw [frames_shipped (by omega), Option.some.injEq, hwidth] at hF
  rw [frameAt_inside ha hs hs' (by omega)]
  exact ⟨frameOf_lt _ hs hs' (by omega), near (by omega) (by omega) hF.symm (by omega)⟩

theorem frameAt_near_middle : (frameAt 0 160000 589 80000).toInt < (589 : Int32).toInt ∧
    270 * (frameAt 0 160000 589 80000).toInt ≤ (80000 : Int32).toInt - (0 : Int32).toInt ∧
    (80000 : Int32).toInt - (0 : Int32).toInt <
      270 * (frameAt 0 160000 589 80000).toInt + 991 + 270 :=
  frameAt_near (by decide) (by decide) (by decide) (by decide) (by decide)

end Near

section Sides
variable {τ : Type} [LT τ] [DecidableLT τ]

/-- What the loop of `dominant` goes over. -/
def countedFrames (frames start stop : Int32) : List Int32 :=
  untilRange start (min (max stop (start + 1)) frames)

theorem dominant_counts (active : List Frame) (start stop : Int32) :
    dominant active start stop = (do
      let counts ← (countedFrames (size active) start stop).foldlM (turn tally active) fun _ => 0
      return loudest counts) := rfl

/-- The frames `changeAt` counts for the side before the gap. -/
def framesBefore (a b frames gap : Int32) : List Int32 :=
  countedFrames frames (frameAt a b frames (max a (gap - margin))) (frameAt a b frames gap)

/-- The frames it counts for the side after. -/
def framesAfter (a b frames gap : Int32) : List Int32 :=
  countedFrames frames (frameAt a b frames gap)
    (min frames (frameAt a b frames (gap + margin)))

/-- `changeAt` compares the loudest of these frames with the loudest of those. -/
theorem changeAt_sides {runner : FrameRunner τ} {pcm16k : JArray τ} {gap : Int32}
    {active : List Frame} (hlong : ¬ windowEnd pcm16k gap - windowStart gap < sampleRate)
    (hrun : run runner pcm16k (windowStart gap) (windowEnd pcm16k gap) = .ok active)
    (hne : size active ≠ 0) :
    changeAt runner pcm16k gap = (do
      let before ← (framesBefore (windowStart gap) (windowEnd pcm16k gap) (size active) gap).foldlM
        (turn tally active) fun _ => 0
      let some s := loudest before | return none
      let after ← (framesAfter (windowStart gap) (windowEnd pcm16k gap) (size active) gap).foldlM
        (turn tally active) fun _ => 0
      let some t := loudest after | return none
      return some (decide (s ≠ t))) := by
  unfold changeAt
  rw [if_neg hlong, hrun]
  change (if size active = 0 then _ else _) = _
  rw [if_neg hne, dominant_counts, dominant_counts]
  simp only [bind_assoc, framesBefore, framesAfter, pure_bind]
  refine bind_congr fun counts => ?_
  cases loudest counts with
  | none => rfl
  | some before =>
    refine bind_congr fun counts => ?_
    cases loudest counts with
    | none => rfl
    | some after => rfl
/-- Where frame `f` ends, when the window from `a` to `b` is divided evenly. -/
def frameEnd (a b frames f : ℤ) : ℚ := a + (f + 1) * (b - a) / frames

/-- The two sides of a gap have no frame in common, and none before the gap reaches past it. -/
structure Apart (pcm16k : JArray τ) (gap frames : Int32) : Prop where
  ends : ∀ f ∈ framesBefore (windowStart gap) (windowEnd pcm16k gap) frames gap,
    frameEnd (windowStart gap).toInt (windowEnd pcm16k gap).toInt frames.toInt f.toInt ≤ gap.toInt
  once : ∀ f ∈ framesBefore (windowStart gap) (windowEnd pcm16k gap) frames gap,
    f ∉ framesAfter (windowStart gap) (windowEnd pcm16k gap) frames gap
  silent : gap = 0 → ∀ (runner : FrameRunner τ) (y : JArray τ),
    runner pcm16k (windowStart gap) (windowEnd pcm16k gap - windowStart gap) = .ok y →
    y.data.length / classes.length = frames.toInt → changeAt runner pcm16k gap = .ok none

theorem frameEnd_le_iff {a b frames f gap : ℤ} (hF : 0 < frames) :
    frameEnd a b frames f ≤ gap ↔ (f + 1) * (b - a) ≤ (gap - a) * frames := by
  have hq : (0 : ℚ) < frames := by exact_mod_cast hF
  rw [frameEnd, add_comm, ← le_sub_iff_add_le, div_le_iff₀ hq]
  exact_mod_cast Iff.rfl

/-- A window with a second of sound in it is computed without overflow. -/
structure Framed (a b gap frames : ℤ) : Prop where
  start : a = max 0 (gap - 80000)
  width : 16000 ≤ b - a ∧ b - a ≤ 160000
  inside : gap < b
  frames_eq : frames = (b - a - 991) / 270 + 1

/-- The facts about a window, of ends `a` and `b` that are still unknown. -/
theorem framed_of {a b w gap frames : Int32} {len : ℤ} (h₁ : gap.toInt < len)
    (hstart : a.toInt = max 0 (gap.toInt - 80000)) (hw : w.toInt = 160000)
    (hend : b.toInt = min len (a + w).toInt) (hsecond : 16000 ≤ b.toInt - a.toInt)
    (hF : pyannetFrames (some shipped) (b - a) = some frames.toInt) :
    Framed a.toInt b.toInt gap.toInt frames.toInt := by
  have hlt := b.toInt_lt
  have hsum : (a + w).toInt = a.toInt + 160000 := by
    rw [← hw]
    refine toInt_add (by omega) ?_
    by_contra hover
    have hneg := toInt_add_neg (Int.not_lt.mp hover)
    omega
  have hwidth : (b - a).toInt = b.toInt - a.toInt := toInt_sub (by omega) (by omega)
  rw [frames_shipped (by omega), Option.some.injEq, hwidth] at hF
  exact ⟨hstart, by omega, by omega, hF.symm⟩

omit [LT τ] [DecidableLT τ] in
theorem framed {pcm16k : JArray τ} {gap frames : Int32} (h₀ : 0 ≤ gap.toInt)
    (h₁ : gap.toInt < pcm16k.data.length)
    (hsecond : 16000 ≤ (windowEnd pcm16k gap).toInt - (windowStart gap).toInt)
    (hF : pyannetFrames (some shipped) (windowEnd pcm16k gap - windowStart gap) =
      some frames.toInt) :
    Framed (windowStart gap).toInt (windowEnd pcm16k gap).toInt gap.toInt frames.toInt := by
  have hwindow : window.toInt = 160000 := by decide
  have hend : (windowEnd pcm16k gap).toInt =
      min (pcm16k.data.length : ℤ) (windowStart gap + window).toInt := by
    rw [windowEnd, toInt_min, toInt_size pcm16k.size_lt]
  exact framed_of h₁ (windowStart_toInt h₀) hwindow hend hsecond hF

theorem ediv_succ_le {x y d : ℤ} (hd : 0 < d) (h : x + d ≤ y) : x / d + 1 ≤ y / d := by
  have hone := Int.add_mul_ediv_right x 1 hd.ne'
  rw [one_mul] at hone
  rw [← hone]
  exact Int.ediv_le_ediv hd h

/-- Two seconds are many frames, so only a gap inside the first frame of its window shares the
frame its side before begins with. -/
theorem sides_iff {a b gap frames : ℤ} (h : Framed a b gap frames) :
    frameOf a b frames (max a (gap - 32000)) < frameOf a b frames gap ↔
      b - a ≤ (gap - a) * frames := by
  obtain ⟨hstart, ⟨hsecond, hten⟩, hinside, hF⟩ := h
  have hmargin : b - a ≤ 32000 * frames := by omega
  unfold frameOf
  by_cases hnear : gap - 32000 ≤ a
  · rw [max_eq_left hnear, Int.sub_self, Int.zero_mul, Int.zero_ediv,
      ← Int.add_one_le_iff, Int.zero_add, Int.le_ediv_iff_mul_le (by omega), Int.one_mul]
  · have hfar : (gap - 32000 - a) * frames + (b - a) ≤ (gap - a) * frames := by
      have heq : (gap - a) * frames = (gap - 32000 - a) * frames + 32000 * frames := by ring
      omega
    have hpos : 0 ≤ (gap - 32000 - a) * frames := Int.mul_nonneg (by omega) (by omega)
    rw [max_eq_right (by omega)]
    exact ⟨fun _ => by omega, fun _ => ediv_succ_le (by omega) hfar⟩

section Counted
variable {pcm16k : JArray τ} {a b gap frames : Int32}

omit [LT τ] [DecidableLT τ] in
theorem mem_framesBefore {f : Int32} (h₀ : 0 ≤ gap.toInt)
    (h : Framed a.toInt b.toInt gap.toInt frames.toInt) :
    f ∈ framesBefore a b frames gap ↔
      frameOf a.toInt b.toInt frames.toInt (max a.toInt (gap.toInt - 32000)) ≤ f.toInt ∧
      f.toInt < max (frameOf a.toInt b.toInt frames.toInt gap.toInt)
        (frameOf a.toInt b.toInt frames.toInt (max a.toInt (gap.toInt - 32000)) + 1) := by
  obtain ⟨hstart, ⟨hsecond, hten⟩, hinside, hF⟩ := h
  have hlt := frames.toInt_lt
  have hgap := gap.toInt_lt
  have hmargin : margin.toInt = 32000 := by decide
  have hone : (1 : Int32).toInt = 1 := by decide
  have hearly : (max a (gap - margin)).toInt = max a.toInt (gap.toInt - 32000) := by
    rw [toInt_max, toInt_sub (by omega) (by omega), hmargin]
  have hg : (frameAt a b frames gap).toInt = frameOf a.toInt b.toInt frames.toInt gap.toInt :=
    frameAt_inside (by omega) (by omega) (by omega) (by omega)
  have he : (frameAt a b frames (max a (gap - margin))).toInt =
      frameOf a.toInt b.toInt frames.toInt (max a (gap - margin)).toInt :=
    frameAt_inside (by omega) (by omega) (by omega) (by omega)
  rw [hearly] at he
  have hone' : 1 ≤ frames.toInt := by omega
  have hearly_lt : max a.toInt (gap.toInt - 32000) < b.toInt := by omega
  have hglt := frameOf_lt gap.toInt (show a.toInt ≤ gap.toInt by omega) hinside hone'
  have helt := frameOf_lt _ (le_max_left a.toInt (gap.toInt - 32000)) hearly_lt hone'
  have hepos := frameOf_nonneg _ (le_max_left a.toInt (gap.toInt - 32000)) hearly_lt hone'
  rw [framesBefore, countedFrames, mem_untilRange, toInt_min, toInt_max,
    toInt_add (by omega) (by omega), hone, he, hg]
  omega

omit [LT τ] [DecidableLT τ] in
theorem mem_framesAfter {f : Int32} (h₀ : 0 ≤ gap.toInt)
    (h : Framed a.toInt b.toInt gap.toInt frames.toInt) (hf : f ∈ framesAfter a b frames gap) :
    frameOf a.toInt b.toInt frames.toInt gap.toInt ≤ f.toInt := by
  obtain ⟨hstart, ⟨hsecond, hten⟩, hinside, hF⟩ := h
  rw [framesAfter, countedFrames, mem_untilRange, frameAt_inside (by omega) (by omega) hinside
    (by omega)] at hf
  exact hf.1

omit [LT τ] [DecidableLT τ] in
/-- A frame ends by the gap when it comes before the frame of the gap. -/
theorem frameEnd_le_of_lt {f : ℤ} (h : Framed a.toInt b.toInt gap.toInt frames.toInt)
    (hf : f < frameOf a.toInt b.toInt frames.toInt gap.toInt) :
    frameEnd a.toInt b.toInt frames.toInt f ≤ gap.toInt := by
  obtain ⟨-, ⟨hsecond, -⟩, -, hF⟩ := h
  rw [frameEnd_le_iff (by omega)]
  calc (f + 1) * (b.toInt - a.toInt)
      ≤ frameOf a.toInt b.toInt frames.toInt gap.toInt * (b.toInt - a.toInt) :=
        Int.mul_le_mul_of_nonneg_right (by omega) (by omega)
    _ ≤ (gap.toInt - a.toInt) * frames.toInt := Int.ediv_mul_le _ (by omega)

omit [LT τ] [DecidableLT τ] in
theorem ends_iff (h₀ : 0 ≤ gap.toInt) (h : Framed a.toInt b.toInt gap.toInt frames.toInt) :
    (∀ f ∈ framesBefore a b frames gap,
        frameEnd a.toInt b.toInt frames.toInt f.toInt ≤ gap.toInt) ↔
      b.toInt - a.toInt ≤ (gap.toInt - a.toInt) * frames.toInt := by
  have hsides := sides_iff h
  constructor
  · intro hends
    by_contra hless
    obtain ⟨hstart, ⟨hsecond, hten⟩, hinside, hF⟩ := id h
    have hlt := frames.toInt_lt
    have hone : 1 ≤ frames.toInt := by omega
    have hearly_lt : max a.toInt (gap.toInt - 32000) < b.toInt := by omega
    have hpos := frameOf_nonneg _ (le_max_left a.toInt (gap.toInt - 32000)) hearly_lt hone
    have hbelow := frameOf_lt _ (le_max_left a.toInt (gap.toInt - 32000)) hearly_lt hone
    -- the frame that is counted although no frame lies between the two ends
    have hf := hends (Int32.ofInt (frameOf a.toInt b.toInt frames.toInt
      (max a.toInt (gap.toInt - 32000))))
    rw [mem_framesBefore h₀ h, Int32.toInt_ofInt_of_le (by omega) (by omega),
      frameEnd_le_iff (by omega)] at hf
    have hreach := hf ⟨le_refl _, by omega⟩
    have hwhole : 1 * (b.toInt - a.toInt) ≤
        (frameOf a.toInt b.toInt frames.toInt (max a.toInt (gap.toInt - 32000)) + 1) *
          (b.toInt - a.toInt) := Int.mul_le_mul_of_nonneg_right (by omega) (by omega)
    omega
  · intro hle f hf
    have hmem := (mem_framesBefore h₀ h).mp hf
    exact frameEnd_le_of_lt h (by omega)

end Counted

/-- The sides are apart when a whole frame of the window lies before the gap. -/
theorem apart_iff (pcm16k : JArray τ) (gap frames : Int32) (h₀ : 0 ≤ gap.toInt)
    (h₁ : gap.toInt < pcm16k.data.length)
    (hsecond : 16000 ≤ (windowEnd pcm16k gap).toInt - (windowStart gap).toInt)
    (hF : pyannetFrames (some shipped) (windowEnd pcm16k gap - windowStart gap) =
      some frames.toInt) :
    Apart pcm16k gap frames ↔ (windowEnd pcm16k gap).toInt - (windowStart gap).toInt ≤
      (gap.toInt - (windowStart gap).toInt) * frames.toInt := by
  have hframed := framed h₀ h₁ hsecond hF
  refine ⟨fun h => (ends_iff h₀ hframed).mp h.ends,
    fun hle => ⟨(ends_iff h₀ hframed).mpr hle, ?_, ?_⟩⟩
  · intro f hb ha
    have hbefore := (mem_framesBefore h₀ hframed).mp hb
    have hafter := mem_framesAfter h₀ hframed ha
    have hside := (sides_iff hframed).mpr hle
    omega
  · rintro rfl
    have hzero : (0 : Int32).toInt = 0 := by decide
    have hstart := hframed.start
    have hwidth := hframed.width
    rw [hstart, hzero] at hle
    norm_num at hle
    omega

end Sides

section Start

/-- A second of sound. -/
def second : JArray ℤ := ⟨List.replicate 16000 0, by rw [List.length_replicate]; decide⟩

theorem second_length : second.data.length = 16000 := by
  simp only [second, List.length_replicate]

theorem windowEnd_second (gap : Int32) (h : windowStart gap = 0) :
    windowEnd second gap = 16000 := by
  have hsize : size second.data = 16000 := congrArg Int32.ofNat second_length
  rw [windowEnd, hsize, h]
  decide

theorem apart_iff_middle : Apart second 8000 56 := by
  have hend : windowEnd second 8000 = 16000 := windowEnd_second 8000 (by decide)
  refine (apart_iff second 8000 56 (by decide) ?_ ?_ ?_).mpr ?_
  · rw [second_length]
    decide
  · rw [hend]
    decide
  · rw [hend]
    decide
  · rw [hend]
    decide

/-- At the first sample the frame after the gap is counted before it too. -/
theorem apart_fails_at_start :
    pyannetFrames (some shipped) (windowEnd second 0 - windowStart 0) = some (56 : Int32).toInt ∧
      0 ∈ framesBefore (windowStart 0) (windowEnd second 0) 56 0 ∧
      0 ∈ framesAfter (windowStart 0) (windowEnd second 0) 56 0 ∧ ¬ Apart second 0 56 := by
  have hend : windowEnd second 0 = 16000 := windowEnd_second 0 (by decide)
  have hbefore : 0 ∈ framesBefore (windowStart 0) 16000 56 0 := mem_untilRange.mpr (by decide)
  have hafter : 0 ∈ framesAfter (windowStart 0) 16000 56 0 := mem_untilRange.mpr (by decide)
  rw [hend]
  refine ⟨by decide, hbefore, hafter, fun h => ?_⟩
  have honce := h.once 0
  rw [hend] at honce
  exact honce hbefore hafter

end Start

end ReadersSpeech.Voices
