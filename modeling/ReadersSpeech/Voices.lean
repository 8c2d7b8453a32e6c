import ReadersSpeech.Jvm
import ReadersSpeech.FirstMax
import Mathlib.Data.Fintype.Pi
import Mathlib.Tactic.Ring

/-! `Voices` of Voices.kt: whether another person speaks after a gap, from the frames the
segmentation network gives for a window around it.
-/

set_option autoImplicit false

namespace ReadersSpeech.Voices
open Jvm FirstMax

def sampleRate : Int32 := 16000
def window : Int32 := 160000
def margin : Int32 := 2 * sampleRate
abbrev speakers : Nat := 3

/-- Nobody, each speaker alone, each pair. -/
def classes : List (List Nat) := [[], [0], [1], [2], [0, 1], [0, 2], [1, 2]]

abbrev Frame := Fin speakers → Bool

def speaking (best : Fin classes.length) : Frame := fun s => (classes.get best).contains s.val

section Model
variable {τ : Type} [LT τ] [DecidableLT τ]

/-- What runs the network: over `n` samples from `offset`, frames × 7 log-probabilities, flat. -/
abbrev FrameRunner (τ : Type) := JArray τ → (offset n : Int32) → Except Fault (JArray τ)

def likeliest (y : List τ) (base : Nat) : Except Fault (Fin classes.length) :=
  ((List.finRange classes.length).drop 1).foldlM (fun best k => do
    let yk ← get y (base + k.val : Nat)
    let yb ← get y (base + best.val : Nat)
    return if yb < yk then k else best) ⟨0, by decide⟩

/-- The speakers of every frame of the answer `y`: those of its likeliest class. -/
def activeOf (y : List τ) : Except Fault (List Frame) :=
  (List.range (y.length / classes.length)).mapM fun f => do
    return speaking (← likeliest y (f * classes.length))

def run (runner : FrameRunner τ) (pcm16k : JArray τ) (a b : Int32) : Except Fault (List Frame) := do
  let y ← runner pcm16k a (b - a)
  activeOf y.data

def tally (counts : Fin speakers → Nat) (frame : Frame) : Fin speakers → Nat :=
  fun s => if frame s then counts s + 1 else counts s

def loudest (counts : Fin speakers → Nat) : Option (Fin speakers) :=
  if 0 < counts (maxBy counts 0 [1, 2]) then some (maxBy counts 0 [1, 2]) else none

/-- The speaker active in the most frames from `start` up to `stop`. -/
def dominant (active : List Frame) (start stop : Int32) : Except Fault (Option (Fin speakers)) := do
  let counts ← (untilRange start (min (max stop (start + 1)) (size active))).foldlM
    (turn tally active) (fun _ => 0)
  return loudest counts

def windowStart (gap : Int32) : Int32 := max 0 (gap - window / 2)

def windowEnd (pcm16k : JArray τ) (gap : Int32) : Int32 :=
  min (size pcm16k.data) (windowStart gap + window)

def frameAt (a b frames sample : Int32) : Int32 :=
  ((sample - a).toInt64 * frames.toInt64 / (b - a).toInt64).toInt32

/-- Whether the voice that dominates before the sample `gap` differs from the one after it. -/
def changeAt (runner : FrameRunner τ) (pcm16k : JArray τ) (gap : Int32) :
    Except Fault (Option Bool) := do
  let a := windowStart gap
  let b := windowEnd pcm16k gap
  if b - a < sampleRate then return none
  let active ← run runner pcm16k a b
  let frames := size active
  if frames = 0 then return none
  let frame := frameAt a b frames
  match ← dominant active (frame (max a (gap - margin))) (frame gap) with
  | none => return none
  | some before =>
    match ← dominant active (frame gap) (min frames (frame (gap + margin))) with
    | none => return none
    | some after => return some (decide (before ≠ after))

end Model

section Reads
variable {τ : Type} [LT τ] [DecidableLT τ]

theorem likeliest_ok (y : List τ) (base : Nat) (h : base + classes.length ≤ y.length) :
    ∃ best, likeliest y base = .ok best := by
  have hfold : ∀ (ks : List (Fin classes.length)) (best : Fin classes.length),
      ∃ last, ks.foldlM (fun best k => do
        let yk ← get y (base + k.val : Nat)
        let yb ← get y (base + best.val : Nat)
        return if yb < yk then k else best) best = Except.ok last := by
    intro ks
    induction ks with
    | nil => exact fun best => ⟨best, rfl⟩
    | cons k ks ih =>
      intro best
      rw [List.foldlM_cons, get_ofNat (show base + k.val < y.length by omega),
        get_ofNat (show base + best.val < y.length by omega)]
      exact ih _
  exact hfold _ _

omit [LT τ] [DecidableLT τ] in
theorem frame_fits {y : List τ} {f : Nat} (hf : f < y.length / classes.length) :
    f * classes.length + classes.length ≤ y.length := by
  have hle : (f + 1) * classes.length ≤ y.length :=
    (Nat.mul_le_mul_right _ hf).trans (Nat.div_mul_le_self _ _)
  rwa [Nat.succ_mul] at hle

/-- Every entry of the answer is there to be read, so every whole frame has its speakers. -/
theorem activeOf_ok (y : List τ) :
    ∃ active, activeOf y = .ok active ∧ active.length = y.length / classes.length := by
  have hframe : ∀ f ∈ List.range (y.length / classes.length),
      ∃ frame, (do return speaking (← likeliest y (f * classes.length))) =
        (.ok frame : Except Fault Frame) := by
    intro f hf
    obtain ⟨best, hbest⟩ := likeliest_ok y (f * classes.length) (frame_fits (List.mem_range.mp hf))
    exact ⟨speaking best, by rw [hbest]; rfl⟩
  choose! g hg using hframe
  exact ⟨_, mapM_ok hg, by simp⟩

end Reads

section Classes
variable {τ : Type} [LinearOrder τ] {y : List τ}

/-- The classes stand for the sets of at most two speakers. -/
theorem speaking_iff (frame : Frame) :
    (∃ best, speaking best = frame) ↔ (Finset.univ.filter fun s => frame s).card ≤ 2 := by
  revert frame
  decide

theorem speaking_injective : ∀ b c, speaking b = speaking c → b = c := by decide

theorem likeliest_eq {base : Nat} (h : base + classes.length ≤ y.length)
    {scores : Fin classes.length → τ} (hs : ∀ k, y[base + k.val]? = some (scores k)) :
    likeliest y base =
      .ok (maxBy scores ⟨0, by decide⟩ ((List.finRange classes.length).drop 1)) := by
  have hget : ∀ k : Fin classes.length, get y (base + k.val : Nat) = .ok (scores k) := fun k => by
    have hlt : base + k.val < y.length := by omega
    rw [get_ofNat hlt]
    exact congrArg _ (Option.some.inj ((List.getElem?_eq_getElem hlt).symm.trans (hs k)))
  have hfold : ∀ (ks : List (Fin classes.length)) (best : Fin classes.length),
      ks.foldlM (fun best k => do
        let yk ← get y (base + k.val : Nat)
        let yb ← get y (base + best.val : Nat)
        return if yb < yk then k else best) best = Except.ok (ks.foldl (better scores) best) := by
    intro ks
    induction ks with
    | nil => exact fun best => rfl
    | cons k ks ih =>
      intro best
      rw [List.foldlM_cons, hget k, hget best]
      exact ih _
  exact hfold _ _

/-- A frame gets the speakers of the first of its classes that no other is likelier than. -/
theorem activeOf_frame {active : List Frame} (h : activeOf y = .ok active) {f : Nat}
    (hf : f < y.length / classes.length) {scores : Fin classes.length → τ}
    (hs : ∀ k, y[f * classes.length + k.val]? = some (scores k)) :
    ∃ best, active[f]? = some (speaking best) ∧
      FirstAmong scores (List.finRange classes.length) best := by
  have hin : ∀ i ∈ List.range (y.length / classes.length),
      i * classes.length + classes.length ≤ y.length := fun i hi =>
    frame_fits (List.mem_range.mp hi)
  have hnonempty : Nonempty (Fin classes.length) := ⟨⟨0, by decide⟩⟩
  choose! best hbest using fun i hi => likeliest_ok y (i * classes.length) (hin i hi)
  have hframes : activeOf y = .ok
      ((List.range (y.length / classes.length)).map fun i => speaking (best i)) :=
    mapM_ok fun i hi => by rw [hbest i hi]; rfl
  cases hframes.symm.trans h
  have hmem := List.mem_range.mpr hf
  have hfirst := likeliest_eq (hin f hmem) hs
  rw [hbest f hmem] at hfirst
  refine ⟨best f, by simp [hf], Except.ok.inj hfirst ▸ ?_⟩
  exact firstAmong_maxBy (by decide)

end Classes

section Loops

theorem foldl_tally (rows : List Frame) (counts : Fin speakers → Nat) (s : Fin speakers) :
    rows.foldl tally counts s = counts s + (rows.map fun row => (row s).toNat).sum := by
  induction rows generalizing counts with
  | nil => simp
  | cons row rows ih =>
    rw [List.foldl_cons, ih, List.map_cons, List.sum_cons, tally]
    cases row s <;> simp [Nat.add_assoc]

def counted (active : List Frame) (start stop : Nat) : List Frame :=
  (active.take (max stop (start + 1))).drop start

def countsOf (rows : List Frame) : Fin speakers → Nat :=
  fun s => (rows.map fun row => (row s).toNat).sum

theorem dominant_ok (active : List Frame) (start stop : Int32) (hlen : active.length < 2 ^ 31)
    (h₀ : 0 ≤ start.toInt) (hmax : start.toInt < 2 ^ 31 - 1) :
    dominant active start stop =
      .ok (loudest (countsOf (counted active start.toInt.toNat stop.toInt.toNat))) := by
  have hone : (1 : Int32).toInt = 1 := by decide
  have hsucc : (start + 1).toInt = start.toInt + 1 := by
    rw [toInt_add (by omega) (by omega), hone]
  have hlast : (min (max stop (start + 1)) (size active)).toInt =
      min (max stop.toInt (start.toInt + 1)) active.length := by
    rw [toInt_min, toInt_max, hsucc, toInt_size hlen]
  have hrows : ((active.take (min (max stop.toInt (start.toInt + 1)) active.length).toNat).drop
      start.toInt.toNat) = counted active start.toInt.toNat stop.toInt.toNat := by
    have hn : (min (max stop.toInt (start.toInt + 1)) (active.length : Int)).toNat =
        min (max stop.toInt.toNat (start.toInt.toNat + 1)) active.length := by omega
    rw [counted, hn, ← List.take_take, List.take_length]
  have hcounts := foldlM_untilRange tally (fun _ => 0) active start
    (min (max stop (start + 1)) (size active)) h₀ (by omega)
  rw [hlast, hrows] at hcounts
  rw [dominant, hcounts]
  change Except.ok (loudest _) = _
  congr 2
  funext s
  rw [foldl_tally, Nat.zero_add, countsOf]

end Loops

section Window
variable {τ : Type} {gap : Int32}

theorem windowStart_toInt (h₀ : 0 ≤ gap.toInt) :
    (windowStart gap).toInt = max 0 (gap.toInt - 80000) := by
  have hhalf : (window / 2).toInt = 80000 := by decide
  have hzero : (0 : Int32).toInt = 0 := by decide
  have hlt := gap.toInt_lt
  rw [windowStart, toInt_max, toInt_sub (by omega) (by omega), hhalf, hzero]

theorem windowEnd_toInt (pcm16k : JArray τ) (h₀ : 0 ≤ gap.toInt)
    (h₁ : gap.toInt < 2 ^ 31 - 80000) : (windowEnd pcm16k gap).toInt =
      min (pcm16k.data.length : Int) (max 0 (gap.toInt - 80000) + 160000) := by
  have hwindow : window.toInt = 160000 := by decide
  have hstart := windowStart_toInt h₀
  rw [windowEnd, toInt_min, toInt_size pcm16k.size_lt, toInt_add (by omega) (by omega), hstart,
    hwindow]

/-- The frame of a sample: its place in the window, scaled and rounded down. -/
def frameOf (a b frames sample : Int) : Int := (sample - a) * frames / (b - a)

theorem frameOf_bounds {a b : Int} (frames sample : Int) (hs : a ≤ sample)
    (hs' : sample ≤ a + 112000) (hd : 16000 ≤ b - a) (hF : 0 ≤ frames) :
    0 ≤ frameOf a b frames sample ∧ frameOf a b frames sample ≤ 7 * frames := by
  constructor
  · exact Int.ediv_nonneg (Int.mul_nonneg (by omega) hF) (by omega)
  · apply Int.ediv_le_of_le_mul (by omega)
    calc (sample - a) * frames ≤ 112000 * frames := Int.mul_le_mul_of_nonneg_right (by omega) hF
      _ = 7 * frames * 16000 := by ring
      _ ≤ 7 * frames * (b - a) := Int.mul_le_mul_of_nonneg_left hd (by omega)

theorem frameAt_toInt {a b frames sample : Int32} (ha : 0 ≤ a.toInt) (hs : a.toInt ≤ sample.toInt)
    (hs' : sample.toInt ≤ a.toInt + 112000) (hd : 16000 ≤ b.toInt - a.toInt)
    (hF : 0 ≤ frames.toInt) (hF' : 7 * frames.toInt < 2 ^ 31) :
    (frameAt a b frames sample).toInt = frameOf a.toInt b.toInt frames.toInt sample.toInt := by
  have hb := b.toInt_lt
  have hsub : (sample - a).toInt = sample.toInt - a.toInt := toInt_sub (by omega) (by omega)
  have hwidth : (b - a).toInt = b.toInt - a.toInt := toInt_sub (by omega) (by omega)
  have hbound := (frameOf_bounds _ _ hs hs' hd hF).2
  unfold frameOf at hbound ⊢
  rw [frameAt, toInt_scaled (by omega) hF (by rw [hsub, hwidth]; omega) (by omega), hsub, hwidth]

theorem width_toInt (pcm16k : JArray τ) (h₀ : 0 ≤ gap.toInt) (h₁ : gap.toInt < 2 ^ 31 - 80000) :
    (windowEnd pcm16k gap - windowStart gap).toInt =
      (windowEnd pcm16k gap).toInt - (windowStart gap).toInt := by
  have hstart := windowStart_toInt h₀
  have hend := windowEnd_toInt pcm16k h₀ h₁
  exact toInt_sub (by omega) (by omega)

theorem short_iff (pcm16k : JArray τ) (h₀ : 0 ≤ gap.toInt) (h₁ : gap.toInt < 2 ^ 31 - 80000) :
    windowEnd pcm16k gap - windowStart gap < sampleRate ↔
      (windowEnd pcm16k gap).toInt - (windowStart gap).toInt < 16000 := by
  have hrate : sampleRate.toInt = 16000 := by decide
  rw [Int32.lt_iff_toInt_lt, width_toInt pcm16k h₀ h₁, hrate]

/-- The sample where the listening before the gap starts. -/
theorem earlier_toInt (h₀ : 0 ≤ gap.toInt) : (max (windowStart gap) (gap - margin)).toInt =
    max (windowStart gap).toInt (gap.toInt - 32000) := by
  have hmargin : margin.toInt = 32000 := by decide
  have hlt := gap.toInt_lt
  rw [toInt_max, toInt_sub (by omega) (by omega), hmargin]

/-- The sample where the listening after the gap stops. -/
theorem later_toInt (h₀ : 0 ≤ gap.toInt) (h₁ : gap.toInt < 2 ^ 31 - 80000) :
    (gap + margin).toInt = gap.toInt + 32000 := by
  have hmargin : margin.toInt = 32000 := by decide
  rw [toInt_add (by omega) (by omega), hmargin]

end Window

section Frames
variable {τ : Type} {y : JArray τ} {active : List Frame}

/-- A frame takes seven of the network's scores, so seven times the frames is still an `int`. -/
theorem frames_lt (h : active.length = y.data.length / classes.length) :
    7 * active.length < 2 ^ 31 := by
  have hle := Nat.mul_div_le y.data.length classes.length
  have hclasses : classes.length = 7 := by decide
  have hlt := y.size_lt
  rw [← h, hclasses] at hle
  omega

theorem size_ne_zero (hpos : 1 ≤ active.length) (hlen : active.length < 2 ^ 31) :
    size active ≠ 0 := by
  intro h
  have hsize := toInt_size hlen
  have hzero : (0 : Int32).toInt = 0 := by decide
  rw [h, hzero] at hsize
  omega

end Frames

section Decision
variable {τ : Type} [LT τ] [DecidableLT τ]

def verdict (before after : Option (Fin speakers)) : Option Bool :=
  match before, after with
  | some s, some t => some (decide (s ≠ t))
  | _, _ => none

theorem verdict_ok (before after : Option (Fin speakers)) :
    (do
      match ← (.ok before : Except Fault (Option (Fin speakers))) with
      | none => return none
      | some s =>
        match ← (.ok after : Except Fault (Option (Fin speakers))) with
        | none => return none
        | some t => return some (decide (s ≠ t))) = Except.ok (verdict before after) := by
  cases before with
  | none => rfl
  | some s =>
    cases after with
    | none => rfl
    | some t => rfl

/-- What `changeAt` does with the frames of the window from `a` to `b`, on integers. -/
def decision (active : List Frame) (a b gap : Int) : Option Bool :=
  verdict
    (loudest (countsOf (counted active (frameOf a b active.length (max a (gap - 32000))).toNat
      (frameOf a b active.length gap).toNat)))
    (loudest (countsOf (counted active (frameOf a b active.length gap).toNat
      (min (active.length : Int) (frameOf a b active.length (gap + 32000))).toNat)))

/-- Every read of `changeAt` is of a sample or a frame that exists, and no `int` overflows. -/
theorem changeAt_ok {runner : FrameRunner τ} {pcm16k y : JArray τ} {gap : Int32}
    (h₀ : 0 ≤ gap.toInt) (h₁ : gap.toInt < 2 ^ 31 - 80000)
    (hsecond : 16000 ≤ (windowEnd pcm16k gap).toInt - (windowStart gap).toInt)
    (hy : runner pcm16k (windowStart gap) (windowEnd pcm16k gap - windowStart gap) = .ok y)
    (hframes : 1 ≤ y.data.length / classes.length) :
    ∃ active, activeOf y.data = .ok active ∧ active.length = y.data.length / classes.length ∧
      changeAt runner pcm16k gap =
        .ok (decision active (windowStart gap).toInt (windowEnd pcm16k gap).toInt gap.toInt) := by
  obtain ⟨active, hactive, hlen⟩ := activeOf_ok y.data
  refine ⟨active, hactive, hlen, ?_⟩
  have hrun : run runner pcm16k (windowStart gap) (windowEnd pcm16k gap) = .ok active := by
    rw [run, hy]
    exact hactive
  have hF : 7 * active.length < 2 ^ 31 := frames_lt hlen
  have hsize : (size active).toInt = active.length := toInt_size (by omega)
  have ha := windowStart_toInt h₀
  have hb := windowEnd_toInt pcm16k h₀ h₁
  have hbefore := earlier_toInt h₀
  have hafter := later_toInt h₀ h₁
  -- opaque until the end, or checking the arithmetic below evaluates them
  generalize hearly : max (windowStart gap) (gap - margin) = earlier at hbefore
  generalize hlate : gap + margin = later at hafter
  have hframe : ∀ sample : Int32, (windowStart gap).toInt ≤ sample.toInt →
      sample.toInt ≤ (windowStart gap).toInt + 112000 →
      (frameAt (windowStart gap) (windowEnd pcm16k gap) (size active) sample).toInt =
        frameOf (windowStart gap).toInt (windowEnd pcm16k gap).toInt active.length
          sample.toInt := by
    intro sample hs hs'
    rw [frameAt_toInt (by omega) hs hs' hsecond (by omega) (by omega), hsize]
  have hf₁ := hframe earlier (by omega) (by omega)
  have hf₂ := hframe gap (by omega) (by omega)
  have hf₃ := hframe later (by omega) (by omega)
  rw [hbefore] at hf₁
  rw [hafter] at hf₃
  have hb₁ := frameOf_bounds active.length (max (windowStart gap).toInt (gap.toInt - 32000))
    (by omega) (by omega) hsecond (by omega)
  have hb₂ := frameOf_bounds active.length gap.toInt (by omega) (by omega) hsecond (by omega)
  generalize hmap : frameAt (windowStart gap) (windowEnd pcm16k gap) (size active) = frame
    at hf₁ hf₂ hf₃
  have hd₁ := dominant_ok active (frame earlier) (frame gap)
    (by omega) (by omega) (by omega)
  have hd₂ := dominant_ok active (frame gap) (min (size active) (frame later))
    (by omega) (by omega) (by omega)
  rw [hf₁, hf₂] at hd₁
  rw [hf₂, toInt_min, hsize, hf₃] at hd₂
  subst hmap hearly hlate
  have hwide : ¬ windowEnd pcm16k gap - windowStart gap < sampleRate := by
    rw [short_iff pcm16k h₀ h₁]
    omega
  simp only [changeAt, if_neg hwide, hrun]
  change (if size active = 0 then _ else _) = _
  rw [if_neg (size_ne_zero (by omega) (by omega)), hd₁, hd₂, decision]
  exact verdict_ok _ _

end Decision

section Exchange

/-- Two frames of scores, one speaker in the first, another in the second. -/
def exchanged : JArray ℤ := ⟨[0, 1, 0, 0, 0, 0, 0, 0, 0, 1, 0, 0, 0, 0], by decide⟩

/-- Of silence. -/
@[irreducible] def twoSeconds : JArray ℤ :=
  ⟨List.replicate 32000 0, by rw [List.length_replicate]; decide⟩

theorem length_twoSeconds : twoSeconds.data.length = 32000 := by
  unfold twoSeconds
  exact List.length_replicate

theorem activeOf_exchanged :
    activeOf exchanged.data = .ok [speaking ⟨1, by decide⟩, speaking ⟨2, by decide⟩] := rfl

theorem windows_twoSeconds : windowStart 16000 = 0 ∧ windowEnd twoSeconds 16000 = 32000 := by
  have hgap : 0 ≤ (16000 : Int32).toInt := by decide
  refine ⟨by decide, Int32.toInt_inj.mp ?_⟩
  rw [windowEnd_toInt twoSeconds hgap (by decide), length_twoSeconds]
  decide

theorem changeAt_exchanged :
    changeAt (fun _ _ _ => .ok exchanged) twoSeconds 16000 = .ok (some true) := by
  obtain ⟨hstart, hend⟩ := windows_twoSeconds
  obtain ⟨active, hactive, -, hchange⟩ :=
    @changeAt_ok ℤ _ _ (fun _ _ _ => .ok exchanged) twoSeconds exchanged 16000 (by decide)
      (by decide) (by rw [hstart, hend]; decide) rfl (by decide)
  cases activeOf_exchanged.symm.trans hactive
  rw [hchange, hstart, hend]
  decide

end Exchange

end ReadersSpeech.Voices
