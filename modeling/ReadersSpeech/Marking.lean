import ReadersSpeech.ParagraphRule
import ReadersSpeech.Voices

/-! `Voices.mark` of Voices.kt and the end of `WhisperSession.run`: which gaps the network is asked
about, in which order, and what becomes of the lines when it fails. The network may answer another
thing each time it is asked.
-/

set_option autoImplicit false

namespace ReadersSpeech.Voices
open Jvm Paragraphs

def gateMs : Int64 := 200

/-- What the network is run over: `n` samples from `offset`. -/
structure Call where
  offset : Int32
  n : Int32
  deriving DecidableEq, Repr

section Model
variable {τ : Type} [LT τ] [DecidableLT τ]

/-- The runner of each call, by the number of calls before it. -/
abbrev Network (τ : Type) := Nat → FrameRunner τ

/-- `changeAt`, past the run of the network. -/
def compared (active : List Frame) (a b gap : Int32) : Except Fault (Option Bool) := do
  let frames := size active
  if frames = 0 then return none
  let frame := frameAt a b frames
  match ← dominant active (frame (max a (gap - margin))) (frame gap) with
  | none => return none
  | some before =>
    match ← dominant active (frame gap) (min frames (frame (gap + margin))) with
    | none => return none
    | some after => return some (decide (before ≠ after))

/-- `changeAt` with the calls of the network so far. -/
def changeAtFrom (net : Network τ) (pcm16k : JArray τ) (gap : Int32) (calls : List Call) :
    Except Fault (Option Bool) × List Call :=
  let a := windowStart gap
  let b := windowEnd pcm16k gap
  if b - a < sampleRate then (.ok none, calls)
  else
    let active := run (net calls.length) pcm16k a b
    (active >>= fun active => compared active a b gap, calls ++ [⟨a, b - a⟩])

/-- Only the gaps where a paragraph may begin. -/
def gated (before after : Segment) : Bool :=
  endsSentence before.text || decide (gateMs ≤ after.startMs - before.endMs)

/-- The sample in the middle between two lines. -/
def gapOf (before after : Segment) : Int32 :=
  ((before.endMs + after.startMs) * sampleRate.toInt64 / 2000).toInt32

/-- What follows a look that may fail; the calls it made stay made. -/
def andThen {α β : Type} (look : Except Fault α × List Call)
    (next : α → List Call → Except Fault β × List Call) : Except Fault β × List Call :=
  match look with
  | (.error e, calls) => (.error e, calls)
  | (.ok answer, calls) => next answer calls

/-- The loop of `mark` over the lines from the `i`-th on; `out` is the copy that gets the marks. -/
def markFrom (net : Network τ) (pcm16k : JArray τ) (i : Nat) (before : Segment)
    (out : List Segment) (calls : List Call) :
    List Segment → Except Fault (List Segment) × List Call
  | [] => (.ok out, calls)
  | after :: rest =>
    if !gated before after then markFrom net pcm16k (i + 1) after out calls rest
    else
      andThen (changeAtFrom net pcm16k (gapOf before after) calls) fun change calls =>
        let out := if change = some true then out.set i { after with newVoice := true } else out
        markFrom net pcm16k (i + 1) after out calls rest

def mark (net : Network τ) (pcm16k : JArray τ) (segments : List Segment) :
    Except Fault (List Segment) × List Call :=
  match segments with
  | [] => (.ok segments, [])
  | [_] => (.ok segments, [])
  | first :: rest => markFrom net pcm16k 1 first segments [] rest

/-- A segment of the native context. -/
structure Native where
  t0 : Int64
  t1 : Int64
  text : Str

def segmentOf (s : Native) : Segment := ⟨s.t0 * 10, s.t1 * 10, trim s.text, false⟩

/-- `WhisperSession.run` past the native call, which returned `rc` and left `native` behind. -/
def sessionRun (voices : Option (Network τ)) (pcm16k : JArray τ) (rc : Int32)
    (native : List Native) : Except Str (Option (List Segment)) × List Call :=
  if rc = 1 then (.ok none, [])
  else if rc ≠ 0 then (.error (kt "whisper failed"), [])
  else
    let segs := native.map segmentOf
    match voices with
    | none => (.ok (some segs), [])
    | some net =>
      match mark net pcm16k segs with
      | (.ok marked, calls) => (.ok (some marked), calls)
      | (.error _, calls) => (.ok (some segs), calls)

end Model

@[simp] theorem andThen_ok {α β : Type} (answer : α) (calls : List Call)
    (next : α → List Call → Except Fault β × List Call) :
    andThen (.ok answer, calls) next = next answer calls := rfl

@[simp] theorem andThen_error {α β : Type} (e : Fault) (calls : List Call)
    (next : α → List Call → Except Fault β × List Call) :
    andThen (.error e, calls) next = (.error e, calls) := rfl

section Steps
variable {τ : Type} [LT τ] [DecidableLT τ] {net : Network τ} {pcm16k : JArray τ}

/-- The call a gap asks for, if its window holds a second. -/
def callOf (pcm16k : JArray τ) (gap : Int32) : List Call :=
  if windowEnd pcm16k gap - windowStart gap < sampleRate then []
  else [⟨windowStart gap, windowEnd pcm16k gap - windowStart gap⟩]

theorem changeAt_short {runner : FrameRunner τ} {gap : Int32}
    (h : windowEnd pcm16k gap - windowStart gap < sampleRate) :
    changeAt runner pcm16k gap = .ok none := by
  unfold changeAt
  exact if_pos h

theorem changeAt_long {runner : FrameRunner τ} {gap : Int32}
    (h : ¬ windowEnd pcm16k gap - windowStart gap < sampleRate) :
    changeAt runner pcm16k gap = (run runner pcm16k (windowStart gap) (windowEnd pcm16k gap) >>=
      fun active => compared active (windowStart gap) (windowEnd pcm16k gap) gap) := by
  unfold changeAt compared
  exact if_neg h

/-- What a gap does: the answer of `changeAt` to the network of this call, and the call. -/
theorem changeAtFrom_eq (net : Network τ) (pcm16k : JArray τ) (gap : Int32)
    (calls : List Call) : changeAtFrom net pcm16k gap calls =
      (changeAt (net calls.length) pcm16k gap, calls ++ callOf pcm16k gap) := by
  by_cases h : windowEnd pcm16k gap - windowStart gap < sampleRate
  · rw [changeAt_short h, callOf, if_pos h, List.append_nil]
    unfold changeAtFrom
    simp only [if_pos h]
  · rw [changeAt_long h, callOf, if_neg h]
    unfold changeAtFrom
    simp only [if_neg h]

section Fails
variable {runner : FrameRunner τ} {gap : Int32}

theorem changeAt_run_error {e : Fault}
    (hlong : ¬ windowEnd pcm16k gap - windowStart gap < sampleRate)
    (hy : runner pcm16k (windowStart gap) (windowEnd pcm16k gap - windowStart gap) = .error e) :
    changeAt runner pcm16k gap = .error e := by
  rw [changeAt_long hlong, run, hy]
  rfl

theorem changeAt_no_frames {y : JArray τ}
    (hlong : ¬ windowEnd pcm16k gap - windowStart gap < sampleRate)
    (hy : runner pcm16k (windowStart gap) (windowEnd pcm16k gap - windowStart gap) = .ok y)
    (hnone : y.data.length / classes.length = 0) : changeAt runner pcm16k gap = .ok none := by
  obtain ⟨active, hactive, hlen⟩ := activeOf_ok y.data
  obtain rfl : active = [] := List.length_eq_zero_iff.mp (hlen.trans hnone)
  have hrun : run runner pcm16k (windowStart gap) (windowEnd pcm16k gap) = .ok [] := by
    rw [run, hy]
    exact hactive
  rw [changeAt_long hlong, hrun]
  rfl

/-- A look at a gap fails only when the network does, at the one call it makes. -/
theorem changeAt_error {e : Fault} (h₀ : 0 ≤ gap.toInt) (h₁ : gap.toInt < 2 ^ 31 - 80000)
    (h : changeAt runner pcm16k gap = .error e) :
    ∃ c, callOf pcm16k gap = [c] ∧ runner pcm16k c.offset c.n = .error e := by
  by_cases hshort : windowEnd pcm16k gap - windowStart gap < sampleRate
  · rw [changeAt_short hshort] at h
    cases h
  · refine ⟨_, if_neg hshort, ?_⟩
    cases hy : runner pcm16k (windowStart gap) (windowEnd pcm16k gap - windowStart gap) with
    | error e' =>
      have hfail := changeAt_run_error hshort hy
      rw [h] at hfail
      rw [Except.error.inj hfail]
    | ok y =>
      exfalso
      by_cases hframes : y.data.length / classes.length = 0
      · rw [changeAt_no_frames hshort hy hframes] at h
        cases h
      · rw [short_iff pcm16k h₀ h₁] at hshort
        obtain ⟨active, -, -, hok⟩ := changeAt_ok h₀ h₁ (by omega) hy
          (Nat.one_le_iff_ne_zero.mpr hframes)
        rw [hok] at h
        cases h

end Fails

/-- The calls made for the gap before `after`. -/
def asks (pcm16k : JArray τ) (before after : Segment) : List Call :=
  if gated before after then callOf pcm16k (gapOf before after) else []

/-- The calls for the lines that follow `before`, in order. -/
def asksFrom (pcm16k : JArray τ) (before : Segment) : List Segment → List Call
  | [] => []
  | after :: rest => asks pcm16k before after ++ asksFrom pcm16k after rest

/-- The line `t` is `s` with its mark, the network having been called `k` times before. -/
structure MarkedAs (net : Network τ) (pcm16k : JArray τ) (k : Nat) (before s t : Segment) :
    Prop where
  startMs : t.startMs = s.startMs
  endMs : t.endMs = s.endMs
  text : t.text = s.text
  newVoice : t.newVoice = true ↔ s.newVoice = true ∨ gated before s = true ∧
    changeAt (net k) pcm16k (gapOf before s) = .ok (some true)

/-- Line by line, with the calls counted on. -/
inductive Follows (net : Network τ) (pcm16k : JArray τ) :
    Nat → Segment → List Segment → List Segment → Prop
  | nil {k : Nat} {before : Segment} : Follows net pcm16k k before [] []
  | cons {k : Nat} {before s t : Segment} {rest ts : List Segment} :
      MarkedAs net pcm16k k before s t →
      Follows net pcm16k (k + (asks pcm16k before s).length) s rest ts →
      Follows net pcm16k k before (s :: rest) (t :: ts)

/-- What the loop may end with: every line and every call, or the first call that failed. -/
inductive Ends (net : Network τ) (pcm16k : JArray τ) (done : List Segment) (calls : List Call)
    (before : Segment) (rest : List Segment) : Except Fault (List Segment) × List Call → Prop
  | marked {ts : List Segment} : Follows net pcm16k calls.length before rest ts →
      Ends net pcm16k done calls before rest
        (.ok (done ++ ts), calls ++ asksFrom pcm16k before rest)
  | failed {a b : List Call} {c : Call} {e : Fault} :
      asksFrom pcm16k before rest = a ++ c :: b →
      net (calls ++ a).length pcm16k c.offset c.n = .error e →
      Ends net pcm16k done calls before rest (.error e, calls ++ (a ++ [c]))

theorem Ends.step {done rest : List Segment} {calls : List Call} {before s t : Segment}
    {r : Except Fault (List Segment) × List Call}
    (ht : MarkedAs net pcm16k calls.length before s t)
    (h : Ends net pcm16k (done ++ [t]) (calls ++ asks pcm16k before s) s rest r) :
    Ends net pcm16k done calls before (s :: rest) r := by
  cases h with
  | marked hf =>
    rw [List.append_assoc, List.append_assoc]
    rw [List.length_append] at hf
    exact .marked (.cons ht hf)
  | @failed a b c e hasks hnet =>
    rw [List.append_assoc] at hnet ⊢
    rw [← List.append_assoc _ a]
    exact .failed (b := b) (by rw [asksFrom, hasks, List.append_assoc]) hnet

/-- Times of at most 10^8 milliseconds, for which the samples are counted without overflow. -/
structure Short (s : Segment) : Prop where
  startMs : 0 ≤ s.startMs.toInt ∧ s.startMs.toInt ≤ 10 ^ 8
  endMs : 0 ≤ s.endMs.toInt ∧ s.endMs.toInt ≤ 10 ^ 8

/-- The middle of the gap in samples, of which a millisecond has 16. -/
def middle (before after : Segment) : ℤ := 8 * (before.endMs.toInt + after.startMs.toInt)

theorem gapOf_toInt {before after : Segment} (hb : Short before) (ha : Short after) :
    (gapOf before after).toInt = middle before after := by
  have h₁ := hb.endMs
  have h₂ := ha.startMs
  have hrate : sampleRate.toInt64.toInt = 16000 := by decide
  have hhalf : (2000 : Int64).toInt = 2000 := by decide
  have hsum : (before.endMs + after.startMs).toInt = before.endMs.toInt + after.startMs.toInt := by
    rw [Int64.toInt_add]
    exact Int.bmod_eq_of_le (by omega) (by omega)
  have hprod : ((before.endMs + after.startMs) * sampleRate.toInt64).toInt =
      (before.endMs.toInt + after.startMs.toInt) * 16000 := by
    rw [Int64.toInt_mul, hsum, hrate]
    exact Int.bmod_eq_of_le (by omega) (by omega)
  rw [gapOf, Int64.toInt_toInt32, Int64.toInt_div_of_ne_right _ _ (by decide), hprod, hhalf,
    Int.tdiv_eq_ediv_of_nonneg (by omega), middle]
  rw [Int.bmod_eq_of_le (by omega) (by omega)]
  omega

theorem gapOf_bounds {before after : Segment} (hb : Short before) (ha : Short after) :
    0 ≤ (gapOf before after).toInt ∧ (gapOf before after).toInt < 2 ^ 31 - 80000 := by
  have h₁ := hb.endMs
  have h₂ := ha.startMs
  rw [gapOf_toInt hb ha, middle]
  omega

theorem markFrom_ends {i : Nat} {before : Segment} {done rest : List Segment} {calls : List Call}
    (hi : done.length = i) (hb : Short before) (hrest : ∀ s ∈ rest, Short s) :
    Ends net pcm16k done calls before rest
      (markFrom net pcm16k i before (done ++ rest) calls rest) := by
  induction rest generalizing i before done calls with
  | nil =>
    have h : Ends net pcm16k done calls before [] (.ok (done ++ []), calls ++ []) :=
      .marked .nil
    simpa only [markFrom, List.append_nil] using h
  | cons s rest ih =>
    have hs : Short s := hrest s (by simp)
    have hlater : ∀ t ∈ rest, Short t := fun t ht => hrest t (by simp [ht])
    have hnext : ∀ t calls, Ends net pcm16k (done ++ [t]) calls s rest
        (markFrom net pcm16k (i + 1) s (done ++ t :: rest) calls rest) := by
      intro t calls
      have hlen : (done ++ [t]).length = i + 1 := by simp [hi]
      have h : Ends net pcm16k (done ++ [t]) calls s rest
          (markFrom net pcm16k (i + 1) s (done ++ [t] ++ rest) calls rest) := ih hlen hs hlater
      rwa [List.append_assoc] at h
    have hset : ∀ t, (done ++ s :: rest).set i t = done ++ t :: rest := by
      intro t
      rw [← hi, List.set_append_right _ _ (le_refl _), Nat.sub_self]
      rfl
    simp only [markFrom]
    cases hg : gated before s with
    | false =>
      have hmark : MarkedAs net pcm16k calls.length before s s := ⟨rfl, rfl, rfl, by simp [hg]⟩
      have hasks : asks pcm16k before s = [] := by simp [asks, hg]
      refine .step hmark ?_
      rw [hasks, List.append_nil]
      exact hnext s calls
    | true =>
      have hasks : asks pcm16k before s = callOf pcm16k (gapOf before s) := by simp [asks, hg]
      obtain ⟨hpos, hlt⟩ := gapOf_bounds hb hs
      simp only [Bool.not_true, Bool.false_eq_true, if_false, changeAtFrom_eq]
      cases hc : changeAt (net calls.length) pcm16k (gapOf before s) with
      | error e =>
        obtain ⟨c, hcall, hnet⟩ := changeAt_error hpos hlt hc
        rw [hcall, andThen_error]
        exact .failed (a := []) (b := asksFrom pcm16k s rest)
          (by rw [asksFrom, hasks, hcall]; rfl) (by simpa using hnet)
      | ok change =>
        rw [← hasks, andThen_ok]
        by_cases hch : change = some true
        · have hmark : MarkedAs net pcm16k calls.length before s { s with newVoice := true } :=
            ⟨rfl, rfl, rfl, by simp [hg, hc, hch]⟩
          simp only [if_pos hch, hset]
          exact .step hmark (hnext _ _)
        · have hmark : MarkedAs net pcm16k calls.length before s s :=
            ⟨rfl, rfl, rfl, by simp [hg, hc, hch]⟩
          simp only [if_neg hch]
          exact .step hmark (hnext s _)

theorem mark_ends {first : Segment} {rest : List Segment} (h : ∀ s ∈ first :: rest, Short s) :
    Ends net pcm16k [first] [] first rest (mark net pcm16k (first :: rest)) := by
  have hends : Ends net pcm16k [first] [] first rest
      (markFrom net pcm16k 1 first ([first] ++ rest) [] rest) :=
    markFrom_ends rfl (h first (by simp)) fun s hs => h s (by simp [hs])
  cases rest with
  | nil => simpa [mark, markFrom] using hends
  | cons s rest => simpa [mark] using hends

end Steps

section Spec
variable {τ : Type} [LT τ] [DecidableLT τ] {net : Network τ} {pcm16k : JArray τ}

/-- The line before ends a sentence, or there is a pause. -/
def Gated (before after : Segment) : Prop :=
  endsSentence before.text = true ∨ 200 ≤ after.startMs.toInt - before.endMs.toInt

instance (before after : Segment) : Decidable (Gated before after) :=
  inferInstanceAs (Decidable (_ ∨ _))

/-- From where to where the network looks for a gap, in a sound of `size` samples. -/
def windowOf (size gap : ℤ) : ℤ × ℤ :=
  (max 0 (gap - 80000), min size (max 0 (gap - 80000) + 160000))

/-- The window between two lines, if the gap is gated and the window holds a second. -/
def windowAt (size : ℤ) (before after : Segment) : List (ℤ × ℤ) :=
  if Gated before after ∧ 16000 ≤ (windowOf size (middle before after)).2 -
    (windowOf size (middle before after)).1 then [windowOf size (middle before after)] else []

/-- The windows of all the gaps, in the order of the lines. -/
def windows (size : ℤ) (segments : List Segment) : List (ℤ × ℤ) :=
  (segments.zip segments.tail).flatMap fun (before, after) => windowAt size before after

def Call.span (c : Call) : ℤ × ℤ := (c.offset.toInt, c.offset.toInt + c.n.toInt)

/-- What `mark` makes of the lines and asks of the network. -/
structure Marks (net : Network τ) (pcm16k : JArray τ) (segments out : List Segment) : Prop where
  length : out.length = segments.length
  line : ∀ (i : ℕ) (s : Segment), segments[i]? = some s → ∃ t, out[i]? = some t ∧
    t.startMs = s.startMs ∧ t.endMs = s.endMs ∧ t.text = s.text ∧
    (t.newVoice = true ↔ s.newVoice = true ∨ ∃ before, 0 < i ∧ segments[i - 1]? = some before ∧
      Gated before s ∧ changeAt (net (windows pcm16k.data.length (segments.take i)).length) pcm16k
        (Int32.ofInt (middle before s)) = .ok (some true))

/-- Of the calls to be made, those up to the first that failed, with `e`. -/
def FailsAt (net : Network τ) (pcm16k : JArray τ) (due : List (ℤ × ℤ)) (calls : List Call)
    (e : Fault) : Prop :=
  ∃ made c later, calls = made ++ [c] ∧ due = calls.map Call.span ++ later ∧
    net made.length pcm16k c.offset c.n = .error e

theorem gated_iff {before after : Segment} (hb : Short before) (ha : Short after) :
    gated before after = true ↔ Gated before after := by
  have h₁ := hb.endMs
  have h₂ := ha.startMs
  have hgate : gateMs.toInt = 200 := by decide
  have hsub : (after.startMs - before.endMs).toInt = after.startMs.toInt - before.endMs.toInt := by
    rw [Int64.toInt_sub]
    exact Int.bmod_eq_of_le (by omega) (by omega)
  rw [gated, Bool.or_eq_true, decide_eq_true_eq, Int64.le_iff_toInt_le, hsub, hgate, Gated]

omit [LT τ] [DecidableLT τ] in
theorem map_span_asks {before after : Segment} (hb : Short before) (ha : Short after) :
    (asks pcm16k before after).map Call.span = windowAt pcm16k.data.length before after := by
  have h₁ := hb.endMs
  have h₂ := ha.startMs
  have hgap := gapOf_toInt hb ha
  have hmid : middle before after = 8 * (before.endMs.toInt + after.startMs.toInt) := rfl
  generalize hat : gapOf before after = gap at hgap
  have hstart := windowStart_toInt (show 0 ≤ gap.toInt by omega)
  have hend := windowEnd_toInt pcm16k (show 0 ≤ gap.toInt by omega) (by omega)
  have hwidth := width_toInt pcm16k (show 0 ≤ gap.toInt by omega) (by omega)
  have hshort := short_iff pcm16k (show 0 ≤ gap.toInt by omega) (by omega)
  rw [hgap] at hstart hend
  have hw : windowOf pcm16k.data.length (middle before after) =
      ((windowStart gap).toInt, (windowEnd pcm16k gap).toInt) := by rw [hstart, hend, windowOf]
  have hwide : (windowOf pcm16k.data.length (middle before after)).2 -
      (windowOf pcm16k.data.length (middle before after)).1 =
      (windowEnd pcm16k gap).toInt - (windowStart gap).toInt := by rw [hw]
  rw [windowAt, hwide, asks, hat, callOf]
  by_cases hg : gated before after = true
  · have hgated := (gated_iff hb ha).mp hg
    by_cases hs : windowEnd pcm16k gap - windowStart gap < sampleRate
    · have hless := hshort.mp hs
      rw [if_pos hg, if_pos hs, if_neg fun h => by omega]
      rfl
    · have hmore := mt hshort.mpr hs
      rw [if_pos hg, if_neg hs, if_pos ⟨hgated, Int.not_lt.mp hmore⟩, List.map_singleton,
        Call.span, hwidth, add_sub_cancel, hw]
  · rw [if_neg hg, if_neg fun h => hg ((gated_iff hb ha).mpr h.1)]
    rfl

theorem windows_cons (size : ℤ) (before after : Segment) (rest : List Segment) :
    windows size (before :: after :: rest) =
      windowAt size before after ++ windows size (after :: rest) := by
  simp [windows]

omit [LT τ] [DecidableLT τ] in
theorem map_span_asksFrom {before : Segment} {rest : List Segment} (hb : Short before)
    (hrest : ∀ s ∈ rest, Short s) :
    (asksFrom pcm16k before rest).map Call.span = windows pcm16k.data.length (before :: rest) := by
  induction rest generalizing before with
  | nil => rfl
  | cons s rest ih =>
    have hs : Short s := hrest s (by simp)
    rw [asksFrom, List.map_append, map_span_asks hb hs, windows_cons,
      ih hs fun t ht => hrest t (by simp [ht])]

/-- The `i`-th line after `before`, and the calls made until the gap in front of it. -/
theorem Follows.line {k : ℕ} {before : Segment} {rest ts : List Segment}
    (h : Follows net pcm16k k before rest ts) (hb : Short before) (hrest : ∀ s ∈ rest, Short s)
    {i : ℕ} {s : Segment} (hs : rest[i]? = some s) :
    ∃ t prev, ts[i]? = some t ∧ (before :: rest)[i]? = some prev ∧
      MarkedAs net pcm16k (k + (windows pcm16k.data.length (before :: rest.take i)).length) prev s
        t := by
  induction h generalizing i with
  | nil => simp at hs
  | @cons k before s₁ t₁ rest ts ht hf ih =>
    have hs₁ : Short s₁ := hrest s₁ (by simp)
    cases i with
    | zero =>
      obtain rfl : s₁ = s := by simpa using hs
      exact ⟨t₁, before, rfl, rfl, by simpa [windows] using ht⟩
    | succ i =>
      obtain ⟨t, prev, htail, hprev, hmark⟩ := ih hs₁ (fun r hr => hrest r (by simp [hr]))
        (by simpa using hs)
      refine ⟨t, prev, by simpa using htail, by simpa using hprev, ?_⟩
      have hspans : (asks pcm16k before s₁).map Call.span =
          windowAt pcm16k.data.length before s₁ := map_span_asks hb hs₁
      have hcount := congrArg List.length hspans
      rw [List.length_map] at hcount
      rw [List.take_succ_cons, windows_cons, List.length_append, ← hcount, ← Nat.add_assoc]
      exact hmark

theorem Follows.length {k : ℕ} {before : Segment} {rest ts : List Segment}
    (h : Follows net pcm16k k before rest ts) : ts.length = rest.length := by
  induction h with
  | nil => rfl
  | cons _ _ ih => simp [ih]

theorem Follows.marks {first : Segment} {rest ts : List Segment}
    (h : Follows net pcm16k 0 first rest ts) (hshort : ∀ s ∈ first :: rest, Short s) :
    Marks net pcm16k (first :: rest) (first :: ts) := by
  refine ⟨by simp [h.length], fun i s hs => ?_⟩
  cases i with
  | zero =>
    obtain rfl : first = s := by simpa using hs
    exact ⟨first, rfl, rfl, rfl, rfl, by simp⟩
  | succ i =>
    have hmem : s ∈ rest := List.mem_of_getElem? (by simpa using hs)
    obtain ⟨t, prev, ht, hprev, hmark⟩ := h.line (hshort first (by simp))
      (fun r hr => hshort r (by simp [hr])) (by simpa using hs)
    have hpshort : Short prev := hshort prev (List.mem_of_getElem? hprev)
    have hsshort : Short s := hshort s (by simp [hmem])
    have hgap : gapOf prev s = Int32.ofInt (middle prev s) := by
      rw [← gapOf_toInt hpshort hsshort, Int32.ofInt_toInt]
    refine ⟨t, by simpa using ht, hmark.startMs, hmark.endMs, hmark.text, ?_⟩
    rw [hmark.newVoice, gated_iff hpshort hsshort, hgap, Nat.zero_add]
    simp [hprev]

/-- Marking changes nothing but the mark, asks for nothing but the windows of the gated gaps, and
hands the lines on as they were when the network fails. -/
theorem mark_frame (net : Network τ) (pcm16k : JArray τ) :
    (∀ segments, (∀ s ∈ segments, Short s) →
      match mark net pcm16k segments with
      | (.ok out, calls) => Marks net pcm16k segments out ∧
          calls.map Call.span = windows pcm16k.data.length segments
      | (.error e, calls) => FailsAt net pcm16k (windows pcm16k.data.length segments) calls e) ∧
    ∀ native e, (mark net pcm16k (native.map segmentOf)).1 = .error e →
      (sessionRun (some net) pcm16k 0 native).1 = .ok (some (native.map segmentOf)) ∧
        ∀ s ∈ native.map segmentOf, s.newVoice = false := by
  constructor
  · intro segments hshort
    cases segments with
    | nil => exact ⟨⟨rfl, fun i s hs => by simp at hs⟩, rfl⟩
    | cons first rest =>
      have hasks : (asksFrom pcm16k first rest).map Call.span =
          windows pcm16k.data.length (first :: rest) :=
        map_span_asksFrom (hshort first (by simp)) fun s hs => hshort s (by simp [hs])
      have hends : Ends net pcm16k [first] [] first rest (mark net pcm16k (first :: rest)) :=
        mark_ends hshort
      generalize mark net pcm16k (first :: rest) = r at hends
      cases hends with
      | marked hf => exact ⟨hf.marks hshort, hasks⟩
      | @failed a b c e hdue hnet =>
        refine ⟨a, c, b.map Call.span, rfl, ?_, hnet⟩
        rw [← hasks, hdue]
        simp
  · intro native e he
    refine ⟨?_, ?_⟩
    · rw [sessionRun, if_neg (by decide), if_neg (by decide)]
      cases hm : mark net pcm16k (native.map segmentOf) with
      | mk answer calls =>
        rw [hm] at he
        simp only at he
        simp only [hm, he]
    · intro s hs
      obtain ⟨t, -, rfl⟩ := List.mem_map.mp hs
      rfl

/-- A question and its answer, a second of sound on either side of the middle. -/
def exchange : List Segment := [⟨0, 900, kt "Oui ?", false⟩, ⟨1100, 2000, kt "Non.", false⟩]

theorem mark_frame_exchange :
    Marks (fun _ _ _ _ => .ok exchanged) twoSeconds exchange
        [⟨0, 900, kt "Oui ?", false⟩, ⟨1100, 2000, kt "Non.", true⟩] ∧
      windows twoSeconds.data.length exchange = [(0, 32000)] := by
  have hshort : ∀ s ∈ exchange, Short s := by
    intro s hs
    simp only [exchange, List.mem_cons, List.not_mem_nil, or_false] at hs
    rcases hs with rfl | rfl
    · exact ⟨by decide, by decide⟩
    · exact ⟨by decide, by decide⟩
  have h := (mark_frame (fun _ _ _ _ => .ok exchanged) twoSeconds).1 exchange hshort
  have hmark : mark (fun _ _ _ _ => .ok exchanged) twoSeconds exchange =
      (.ok [⟨0, 900, kt "Oui ?", false⟩, ⟨1100, 2000, kt "Non.", true⟩], [⟨0, 32000⟩]) := by
    have hgated : gated ⟨0, 900, kt "Oui ?", false⟩ ⟨1100, 2000, kt "Non.", false⟩ = true := by
      decide
    have hgap : gapOf ⟨0, 900, kt "Oui ?", false⟩ ⟨1100, 2000, kt "Non.", false⟩ = 16000 := by
      decide
    have hcall : callOf twoSeconds 16000 = [⟨0, 32000⟩] := by
      rw [callOf, windows_twoSeconds.1, windows_twoSeconds.2]
      decide
    simp only [mark, exchange, markFrom, hgated, hgap, changeAtFrom_eq, changeAt_exchanged, hcall,
      Bool.not_true, Bool.false_eq_true, if_false, andThen_ok, if_true, List.nil_append]
    rfl
  rw [hmark] at h
  exact ⟨h.1, h.2.symm⟩

end Spec

end ReadersSpeech.Voices
