import Mathlib.Algebra.Order.BigOperators.Group.List
import Mathlib.Algebra.Order.Ring.Abs
import Mathlib.Algebra.Order.Ring.Unbundled.Rat
import Mathlib.Tactic.FieldSimp
import Mathlib.Tactic.Linarith
import Mathlib.Tactic.Ring
import ReadersSpeech.PcmPieces

/-! Where each piece starts. A piece takes its rate from the moment it is handed over, and the start
of the next adds whole milliseconds, so what each division leaves over is lost for good.
-/

set_option autoImplicit false

namespace ReadersSpeech.Pcm.Decoder
open Batches

variable {α : Type}

/-- A batch of samples that know the rate they were decoded at. -/
abbrev Tagged (α : Type) := Positive × List (Positive × α)

def durationMs (ts : List (Positive × α)) : ℚ := (ts.map fun t => 1000 / (t.1.val.toInt : ℚ)).sum

def Tagged.wholeMs (b : Tagged α) : ℕ := 1000 * b.2.length / b.1.val.toInt.toNat

def Tagged.lostMs (b : Tagged α) : ℚ :=
  (1000 * b.2.length % b.1.val.toInt.toNat : ℕ) / (b.1.val.toInt.toNat : ℚ)

def untagged (bs : List (Tagged α)) : List (Positive × List α) :=
  bs.map fun b => (b.1, b.2.map Prod.snd)

/-- Each piece is what was decoded at its place, all of it at the rate it goes by, and starts less
than a millisecond from the time all that was decoded before it takes. -/
def Placed (decoded : List (Positive × α)) (calls : List (Piece α)) : Prop :=
  ∀ before p after, calls = before ++ p :: after →
    let offset := (before.flatMap (·.samples)).length
    let piece := (decoded.drop offset).take p.samples.length
    piece.map Prod.snd = p.samples ∧ (∀ t ∈ piece, t.1 = p.rate) ∧
      |(p.startMs.toInt : ℚ) - durationMs (decoded.take offset)| < 1

/-- Each batch is closed at the rate of all its samples, and the divisions before it have left over
less than a millisecond. -/
def Steady (bs : List (Tagged α)) : Prop :=
  ∀ before b after, bs = before ++ b :: after →
    (∀ t ∈ b.2, t.1 = b.1) ∧ (before.map Tagged.lostMs).sum < 1 ∧
      (before.map Tagged.wholeMs).sum < 2 ^ 63

theorem rate_pos (r : Positive) : 0 < r.val.toInt.toNat := by
  have h := r.property
  omega

theorem toNat_rate (r : Positive) : ((r.val.toInt.toNat : ℕ) : ℤ) = r.val.toInt :=
  Int.toNat_of_nonneg r.property.le

theorem lostMs_nonneg (b : Tagged α) : 0 ≤ b.lostMs :=
  div_nonneg (Nat.cast_nonneg _) (Nat.cast_nonneg _)

theorem lost_nonneg (bs : List (Tagged α)) : 0 ≤ (bs.map Tagged.lostMs).sum := by
  refine List.sum_nonneg fun q hq => ?_
  obtain ⟨b, -, rfl⟩ := List.mem_map.mp hq
  exact lostMs_nonneg b

theorem durationMs_append (xs ys : List (Positive × α)) :
    durationMs (xs ++ ys) = durationMs xs + durationMs ys := by
  simp [durationMs]

theorem durationMs_steady {b : Tagged α} (h : ∀ t ∈ b.2, t.1 = b.1) :
    durationMs b.2 = b.wholeMs + b.lostMs := by
  have hsum : durationMs b.2 = b.2.length * (1000 / (b.1.val.toInt : ℚ)) := by
    unfold durationMs
    rw [List.eq_replicate_of_mem (a := 1000 / (b.1.val.toInt : ℚ)) (l := b.2.map _)]
    · simp
    · intro q hq
      obtain ⟨t, ht, rfl⟩ := List.mem_map.mp hq
      rw [h t ht]
  have hr := rate_pos b.1
  have hcast : (b.1.val.toInt : ℚ) = (b.1.val.toInt.toNat : ℚ) := by
    rw [← toNat_rate b.1]
    simp
  have hdiv := Nat.div_add_mod (1000 * b.2.length) b.1.val.toInt.toNat
  have hq : (b.1.val.toInt.toNat : ℚ) * b.wholeMs +
      (1000 * b.2.length % b.1.val.toInt.toNat : ℕ) = 1000 * b.2.length := by
    exact_mod_cast hdiv
  rw [hsum, hcast, Tagged.lostMs]
  have hne : (b.1.val.toInt.toNat : ℚ) ≠ 0 := by exact_mod_cast hr.ne'
  field_simp
  linarith

theorem durationMs_batches {bs : List (Tagged α)} (h : ∀ b ∈ bs, ∀ t ∈ b.2, t.1 = b.1) :
    durationMs (bs.flatMap (·.2)) =
      (bs.map Tagged.wholeMs).sum + (bs.map Tagged.lostMs).sum := by
  induction bs with
  | nil => simp [durationMs]
  | cons b bs ih =>
    have hb := durationMs_steady (h b (by simp))
    have hbs := ih fun c hc => h c (by simp [hc])
    rw [List.flatMap_cons, durationMs_append, hb, hbs]
    simp only [List.map_cons, List.sum_cons]
    push_cast
    ring

/-- A `long` that counted `W` and should have counted `W + F`. -/
theorem drift_iff (W : ℕ) {F : ℚ} (hF : 0 ≤ F) :
    |((Int.bmod W (2 ^ 64) : ℤ) : ℚ) - (W + F)| < 1 ↔ F < 1 ∧ W < 2 ^ 63 := by
  rcases Nat.lt_or_ge W (2 ^ 63) with hlt | hge
  · have hW : Int.bmod W (2 ^ 64) = W := Int.bmod_eq_of_le (by omega) (by omega)
    rw [hW]
    have habs : |((W : ℤ) : ℚ) - (W + F)| = F := by
      rw [Int.cast_natCast, sub_add_cancel_left, abs_neg, abs_of_nonneg hF]
    rw [habs]
    exact ⟨fun h => ⟨h, hlt⟩, And.left⟩
  · have hW : Int.bmod W (2 ^ 64) + 1 ≤ (W : ℤ) := by
      have hb : Int.bmod W (2 ^ 64) < 2 ^ 63 := by
        have := Int.bmod_lt (x := (W : ℤ)) (m := 2 ^ 64) (by decide)
        omega
      omega
    have hq : ((Int.bmod W (2 ^ 64) : ℤ) : ℚ) + 1 ≤ W := by exact_mod_cast hW
    constructor
    · intro h
      have := (abs_lt.mp h).1
      linarith
    · rintro ⟨-, h⟩
      omega

theorem lengthMs_toInt {samples : List α} (rate : Positive) (h : samples.length ≤ 2 ^ 30) :
    (lengthMs samples rate).toInt = (1000 * samples.length / rate.val.toInt.toNat : ℕ) := by
  have hsize : (Jvm.size samples).toInt = samples.length := Jvm.toInt_size (by omega)
  have hthousand : (1000 : Int64) = (1000 : Int32).toInt64 := by decide
  have h1000 : (1000 : Int32).toInt = 1000 := by decide
  rw [lengthMs, hthousand, Jvm.toInt64_scaled (by omega) (by omega) rate.property, hsize, h1000]
  have hr := toNat_rate rate
  push_cast
  rw [hr, mul_comm]

/-- What the start of a piece has counted after the batches before it. -/
def elapsed (start : Int64) (bs : List (Positive × List α)) : Int64 :=
  bs.foldl (fun t b => t + lengthMs b.2 b.1) start

theorem elapsed_toInt {bs : List (Tagged α)} (h : ∀ b ∈ bs, b.2.length ≤ 2 ^ 30) :
    (elapsed 0 (untagged bs)).toInt = Int.bmod (bs.map Tagged.wholeMs).sum (2 ^ 64) := by
  have hgen : ∀ (bs : List (Tagged α)) (start : Int64) (n : ℤ),
      (∀ b ∈ bs, b.2.length ≤ 2 ^ 30) → start.toInt = Int.bmod n (2 ^ 64) →
      (elapsed start (untagged bs)).toInt =
        Int.bmod (n + (bs.map Tagged.wholeMs).sum) (2 ^ 64) := by
    intro bs
    induction bs with
    | nil => intro start n _ hs; simpa [elapsed, untagged] using hs
    | cons b bs ih =>
      intro start n hb hs
      have hlen : (b.2.map Prod.snd).length ≤ 2 ^ 30 := by simpa using hb b (by simp)
      have hms := lengthMs_toInt b.1 hlen
      have hstart : (start + lengthMs (b.2.map Prod.snd) b.1).toInt =
          Int.bmod (n + b.wholeMs) (2 ^ 64) := by
        rw [Int64.toInt_add, hs, hms, List.length_map]
        exact Int.bmod_add_bmod
      have hrest := ih _ _ (fun c hc => hb c (by simp [hc])) hstart
      simpa [elapsed, untagged, add_assoc] using hrest
  simpa using hgen bs 0 0 h (by decide)

theorem timed_append (start : Int64) (xs ys : List (Positive × List α)) :
    timed start (xs ++ ys) = timed start xs ++ timed (elapsed start xs) ys := by
  induction xs generalizing start with
  | nil => rfl
  | cons b xs ih => simp [timed, elapsed, ih]

theorem timed_split {bs : List (Positive × List α)} {before after : List (Piece α)} {p : Piece α}
    {start : Int64} (h : timed start bs = before ++ p :: after) :
    ∃ bs₁ b bs₂, bs = bs₁ ++ b :: bs₂ ∧ before = timed start bs₁ ∧
      p = ⟨b.2, b.1, elapsed start bs₁⟩ := by
  induction before generalizing start bs with
  | nil =>
    cases bs with
    | nil => simp [timed] at h
    | cons b bs =>
      simp only [timed, List.nil_append, List.cons.injEq] at h
      exact ⟨[], b, bs, rfl, rfl, h.1.symm⟩
  | cons q before ih =>
    cases bs with
    | nil => simp [timed] at h
    | cons b bs =>
      simp only [timed, List.cons_append, List.cons.injEq] at h
      obtain ⟨hq, h⟩ := h
      obtain ⟨bs₁, c, bs₂, rfl, rfl, rfl⟩ := ih h
      exact ⟨b :: bs₁, c, bs₂, rfl, by rw [timed, hq], rfl⟩

theorem untagged_append (xs ys : List (Tagged α)) :
    untagged (xs ++ ys) = untagged xs ++ untagged ys := List.map_append

theorem untagged_samples (bs : List (Tagged α)) :
    (untagged bs).flatMap (·.2) = (bs.flatMap (·.2)).map Prod.snd := by
  simp [untagged, List.flatMap_map, List.map_flatMap]

/-- What a split of the batches takes of the samples. -/
theorem place {decoded : List (Positive × α)} {bs₁ bs₂ : List (Tagged α)} {b : Tagged α}
    (h : (bs₁ ++ b :: bs₂).flatMap (·.2) <+: decoded) :
    let offset := ((timed 0 (untagged bs₁)).flatMap (·.samples)).length
    decoded.take offset = bs₁.flatMap (·.2) ∧
      (decoded.drop offset).take (b.2.map Prod.snd).length = b.2 := by
  intro offset
  have hoffset : offset = (bs₁.flatMap (·.2)).length := by
    simp only [offset, timed_samples, untagged_samples, List.length_map]
  obtain ⟨more, rfl⟩ := h
  rw [hoffset, List.flatMap_append, List.append_assoc, List.take_left, List.drop_left,
    List.flatMap_cons, List.append_assoc, List.length_map, List.take_left]
  exact ⟨rfl, rfl⟩

theorem drift {bs : List (Tagged α)} (hall : ∀ b ∈ bs, ∀ t ∈ b.2, t.1 = b.1)
    (hfit : ∀ b ∈ bs, b.2.length ≤ 2 ^ 30) :
    |((elapsed 0 (untagged bs)).toInt : ℚ) - durationMs (bs.flatMap (·.2))| < 1 ↔
      (bs.map Tagged.lostMs).sum < 1 ∧ (bs.map Tagged.wholeMs).sum < 2 ^ 63 := by
  rw [elapsed_toInt hfit, durationMs_batches hall]
  exact drift_iff _ (lost_nonneg bs)

theorem placed_iff {decoded : List (Positive × α)} {bs : List (Tagged α)}
    (hpre : bs.flatMap (·.2) <+: decoded) (hfit : ∀ b ∈ bs, b.2.length ≤ 2 ^ 30) :
    Placed decoded (timed 0 (untagged bs)) ↔ Steady bs := by
  constructor
  · intro hp
    have hat : ∀ bs₁ b bs₂, bs = bs₁ ++ b :: bs₂ → (∀ t ∈ b.2, t.1 = b.1) ∧
        |((elapsed 0 (untagged bs₁)).toInt : ℚ) - durationMs (bs₁.flatMap (·.2))| < 1 := by
      intro bs₁ b bs₂ hbs
      subst hbs
      obtain ⟨htake, hdrop⟩ := place hpre
      have hcalls : timed 0 (untagged (bs₁ ++ b :: bs₂)) = timed 0 (untagged bs₁) ++
          ⟨b.2.map Prod.snd, b.1, elapsed 0 (untagged bs₁)⟩ ::
            timed (elapsed 0 (untagged bs₁) + lengthMs (b.2.map Prod.snd) b.1) (untagged bs₂) := by
        rw [untagged_append, timed_append]
        rfl
      obtain ⟨-, hrate, hstart⟩ := hp _ _ _ hcalls
      rw [hdrop] at hrate
      rw [htake] at hstart
      exact ⟨hrate, hstart⟩
    have hall : ∀ b ∈ bs, ∀ t ∈ b.2, t.1 = b.1 := by
      intro b hb
      obtain ⟨bs₁, bs₂, hbs⟩ := List.append_of_mem hb
      exact (hat bs₁ b bs₂ hbs).1
    intro bs₁ b bs₂ hbs
    obtain ⟨hrate, hstart⟩ := hat bs₁ b bs₂ hbs
    have hsub : ∀ c ∈ bs₁, c ∈ bs := fun c hc => by simp [hbs, hc]
    exact ⟨hrate, (drift (fun c hc => hall c (hsub c hc)) fun c hc => hfit c (hsub c hc)).mp hstart⟩
  · intro hs before p after hcalls
    obtain ⟨us₁, u, us₂, hu, rfl, rfl⟩ := timed_split hcalls
    obtain ⟨bs₁, rest, rfl, rfl, hrest⟩ := List.map_eq_append_iff.mp hu
    obtain ⟨b, bs₂, rfl, rfl, -⟩ := List.map_eq_cons_iff.mp hrest
    have hall : ∀ c ∈ bs₁, ∀ t ∈ c.2, t.1 = c.1 := by
      intro c hc
      obtain ⟨cs, ds, hbs⟩ := List.append_of_mem hc
      exact (hs cs c (ds ++ b :: bs₂) (by simp [hbs])).1
    obtain ⟨hrate, hlost⟩ := hs bs₁ b bs₂ rfl
    obtain ⟨htake, hdrop⟩ := place hpre
    simp only
    rw [show bs₁.map (fun b => (b.1, b.2.map Prod.snd)) = untagged bs₁ from rfl, htake, hdrop]
    exact ⟨rfl, hrate, (drift hall fun c hc => hfit c (by simp [hc])).mpr hlost⟩

variable [SampleOps α]

/-- Every sample the codec puts out, with the rate in force. -/
def decoded (tracks : List Track) (os : List Output) : List (Positive × α) :=
  arrived ((decodedItems tracks os).map Item.tag)

/-- The batches the buffers form when the caller never says to stop. -/
def gathered (tracks : List Track) (seconds : Int32) (os : List Output) : List (Tagged α) :=
  batches (isFull seconds) (2 ^ 30) [] ((decodedItems tracks os).map Item.tag)

theorem untagged_gathered (tracks : List Track) (seconds : Int32) (os : List Output) :
    untagged (gathered (α := α) tracks seconds os) =
      batches (isFull seconds) (2 ^ 30) [] (decodedItems tracks os) := by
  conv_rhs => rw [← untag (decodedItems tracks os)]
  exact (batches_map Prod.snd []).symm

/-- Those of them that the caller lets come. -/
def wanted (tracks : List Track) (seconds : Int32) (onChunk : List (Piece α) → Bool)
    (os : List Output) : List (Tagged α) :=
  asked (fun bs => onChunk (timed 0 (untagged bs))) [] (gathered tracks seconds os)

omit [SampleOps α] in
theorem timed_asked (onChunk : List (Piece α) → Bool) (past bs : List (Positive × List α)) :
    asked onChunk (timed 0 past) (timed (elapsed 0 past) bs) =
      timed (elapsed 0 past) (asked (fun xs => onChunk (timed 0 xs)) past bs) := by
  induction bs generalizing past with
  | nil => rfl
  | cons b bs ih =>
    have hpast : timed 0 (past ++ [b]) =
        timed 0 past ++ [⟨b.2, b.1, elapsed 0 past⟩] := timed_append 0 past [b]
    have hstart : elapsed 0 (past ++ [b]) = elapsed 0 past + lengthMs b.2 b.1 := by
      simp [elapsed]
    have hrest := ih (past ++ [b])
    rw [hpast, hstart] at hrest
    simp only [timed, asked, hpast, hrest]
    split_ifs <;> rfl

theorem chunks_timed (tracks : List Track) (seconds : Int32)
    (onChunk : List (Piece α) → Bool) (os : List Output) :
    (chunks tracks seconds onChunk os).calls =
      timed 0 (untagged (wanted tracks seconds onChunk os)) := by
  have hasked := timed_asked onChunk [] (untagged (gathered tracks seconds os))
  rw [chunks_calls, ← untagged_gathered]
  refine hasked.trans (congrArg (timed 0) ?_)
  exact asked_map (fun b : Tagged α => (b.1, b.2.map Prod.snd)) [] _

/-- The pieces are at their rate and place exactly when the batches they are made of are steady. -/
theorem chunks_placed_iff (tracks : List Track) (seconds : Int32)
    (onChunk : List (Piece α) → Bool) (os : List Output) :
    Placed (decoded tracks os) (chunks tracks seconds onChunk os).calls ↔
      Steady (wanted tracks seconds onChunk os) := by
  have hsub : wanted tracks seconds onChunk os <+: gathered tracks seconds os := asked_prefix
  rw [chunks_timed]
  refine placed_iff ?_ fun b hb => batches_fit b (hsub.subset hb)
  have hall : (gathered (α := α) tracks seconds os).flatMap (·.2) <+: decoded tracks os :=
    batches_prefix
  obtain ⟨rest, hrest⟩ := hsub
  rw [← hrest, List.flatMap_append] at hall
  exact (List.prefix_append _ _).trans hall

def ints (rate : Int32) (h : 0 < rate.toInt) : Format :=
  ⟨⟨rate, h⟩, oneChannel, some encodingPcmFloat⟩

/-- Seven samples decoded at 8000 Hz. -/
def seven : Tagged ℤ := (⟨8000, by decide⟩, List.replicate 7 (⟨8000, by decide⟩, 0))

/-- The rate changes while a sample waits; and seven samples at 8000 Hz are seven eighths of a
millisecond, two times over. -/
theorem chunks_misplaced :
    ¬ Placed (decoded (recording ⟨8000, by decide⟩) [.buffer [7, 0, 0, 0] false,
        .formatChanged (ints 16000 (by decide)), .buffer [8, 0, 0, 0] true])
      (chunks (α := ℤ) (recording ⟨8000, by decide⟩) 30 (fun _ => true) [.buffer [7, 0, 0, 0] false,
        .formatChanged (ints 16000 (by decide)), .buffer [8, 0, 0, 0] true]).calls ∧
    ¬ Placed (decoded (recording ⟨8000, by decide⟩) [.buffer (List.replicate 28 0) false,
        .buffer (List.replicate 28 0) false, .buffer [8, 0, 0, 0] true])
      (chunks (α := ℤ) (recording ⟨8000, by decide⟩) 0 (fun _ => true)
        [.buffer (List.replicate 28 0) false, .buffer (List.replicate 28 0) false,
          .buffer [8, 0, 0, 0] true]).calls := by
  refine ⟨fun h => ?_, fun h => ?_⟩
  · have hs := (chunks_placed_iff _ _ _ _).mp h
    have hrate := (hs [] _ [] rfl).1
    have hbad := hrate (⟨8000, by decide⟩, 7) (by decide)
    exact absurd hbad (by decide)
  · have hs := (chunks_placed_iff _ _ _ _).mp h
    have hlost := (hs [seven, seven] _ [] rfl).2.1
    have hrate : Int32.toNatClampNeg 8000 = 8000 := by decide
    norm_num [seven, Tagged.lostMs, hrate] at hlost

end ReadersSpeech.Pcm.Decoder
