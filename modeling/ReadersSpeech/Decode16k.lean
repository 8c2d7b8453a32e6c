import Mathlib.Algebra.Order.Floor.Semifield
import Mathlib.Data.List.GetD
import Mathlib.Data.List.Infix
import ReadersSpeech.PcmTimes
import ReadersSpeech.Resample

/-! `Decode16k.chunks`: each piece is resampled on its own. The low-pass sees 16 samples on either
side, so away from the cuts this is the recording resampled whole.
-/

set_option autoImplicit false

namespace ReadersSpeech.Resample
open ReadersSpeech.Pcm (Positive)

/-- The samples the low-pass sees at the instant `t`. -/
noncomputable def window (t : ℝ) : List ℤ := rangeTo (⌊t⌋ - taps) (⌊t⌋ + taps)

/-- What the code does to a value where the sum of the kernel is not near 1. -/
noncomputable def level (cutoff v : ℝ) : ℝ :=
  if kernelSum cutoff ≠ 0 ∧ |kernelSum cutoff - 1| > 1e-3 then v / kernelSum cutoff else v

/-- What `to` gives for the instant `t`, counted in samples of the input. -/
noncomputable def lowPass (pcm : Pcm) (rate : Positive) (t : ℝ) : ℝ :=
  level (cutoff pcm.rate rate) (sample (cutoff pcm.rate rate) pcm.samples t)

theorem toInt_eq_floor {t : ℝ} (h0 : 0 ≤ t) (ht : t < 2 ^ 31) : toInt t = ⌊t⌋ := by
  have hpos : 0 ≤ ⌊t⌋ := Int.floor_nonneg.mpr h0
  have hlt : ⌊t⌋ < 2 ^ 31 := Int.floor_lt.mpr (by exact_mod_cast ht)
  rw [toInt, if_pos h0]
  omega

theorem sums_window {cutoff t : ℝ} {x : List ℝ} (h0 : 0 ≤ t) (ht : t ≤ 2 ^ 30) :
    sums cutoff x t = (window t).foldl (tap cutoff x t) (0, 0) := by
  have hpos : 0 ≤ ⌊t⌋ := Int.floor_nonneg.mpr h0
  have hle : ⌊t⌋ ≤ 2 ^ 30 := by
    have hcast : (⌊t⌋ : ℝ) ≤ ((2 ^ 30 : ℤ) : ℝ) := (Int.floor_le t).trans (by exact_mod_cast ht)
    exact_mod_cast hcast
  have hlow : (⌊t⌋ - taps).bmod (2 ^ 32) = ⌊t⌋ - taps :=
    Int.bmod_eq_of_le (by rw [taps]; omega) (by rw [taps]; omega)
  have hhigh : (⌊t⌋ + taps).bmod (2 ^ 32) = ⌊t⌋ + taps :=
    Int.bmod_eq_of_le (by rw [taps]; omega) (by rw [taps]; omega)
  rw [sums, toInt_eq_floor h0 (by linarith), hlow, hhigh, window]

theorem window_add (s : ℕ) (t : ℝ) : window (s + t) = (window t).map fun k : ℤ => s + k := by
  have hfloor : ⌊(s : ℝ) + t⌋ = s + ⌊t⌋ := Int.floor_natCast_add s t
  have hlen : (s + ⌊t⌋ + taps - (s + ⌊t⌋ - taps) + 1).toNat =
      (⌊t⌋ + taps - (⌊t⌋ - taps) + 1).toNat := congrArg Int.toNat (by ring)
  rw [window, window, hfloor, rangeTo, rangeTo, hlen, List.map_map]
  refine List.map_congr_left fun k _ => ?_
  simp only [Function.comp_apply]
  ring

theorem mem_window {t : ℝ} {k : ℤ} : k ∈ window t ↔ ⌊t⌋ - taps ≤ k ∧ k ≤ ⌊t⌋ + taps :=
  mem_rangeTo

/-- A tap inside a cut of the signal is the same tap in the whole. -/
theorem tap_cut {cutoff t : ℝ} {u y v : List ℝ} {k : ℤ} (h0 : 0 ≤ k) (hk : k < y.length)
    (sums : ℝ × ℝ) :
    tap cutoff (u ++ (y ++ v)) (u.length + t) sums (u.length + k) = tap cutoff y t sums k := by
  have hd : (((u.length : ℤ) + k : ℤ) : ℝ) - (u.length + t) = k - t := by
    push_cast
    ring
  have hget : (u ++ (y ++ v)).getD ((u.length : ℤ) + k).toNat 0 = y.getD k.toNat 0 := by
    have hnat : ((u.length : ℤ) + k).toNat = u.length + k.toNat := by omega
    rw [hnat, List.getD_append_right _ _ _ _ (by omega), Nat.add_sub_cancel_left,
      List.getD_append _ _ _ _ (by omega)]
  have hin : ¬ ((u.length : ℤ) + k < 0 ∨ ((u ++ (y ++ v)).length : ℤ) ≤ u.length + k) := by
    simp only [List.length_append]
    omega
  rw [tap, tap, if_neg hin, if_neg (by omega), hd, hget]

/-- Where its taps stay inside a cut of the signal, the low-pass does not see the cuts. -/
theorem sample_cut {cutoff t : ℝ} {u y v : List ℝ} (hlow : taps ≤ ⌊t⌋)
    (hhigh : ⌊t⌋ + taps < y.length) (hfit : (u ++ (y ++ v)).length ≤ 2 ^ 30) :
    sample cutoff y t = sample cutoff (u ++ (y ++ v)) (u.length + t) := by
  have h0 : 0 ≤ t := Int.floor_nonneg.mp (le_trans (by decide) hlow)
  have ht : t < y.length := by
    have hlt : ⌊t⌋ < (y.length : ℤ) := by rw [taps] at hhigh; omega
    exact_mod_cast Int.floor_lt.mp hlt
  have hlen : (u.length : ℝ) + y.length ≤ 2 ^ 30 := by
    have hnat : u.length + y.length ≤ 2 ^ 30 := by
      simp only [List.length_append] at hfit
      omega
    exact_mod_cast hnat
  have hu : (0 : ℝ) ≤ u.length := Nat.cast_nonneg _
  have hsums : sums cutoff y t = sums cutoff (u ++ (y ++ v)) (u.length + t) := by
    rw [sums_window h0 (by linarith), sums_window (by linarith) (by linarith), window_add,
      List.foldl_map]
    refine List.foldl_ext _ _ _ fun sums k hk => ?_
    rw [mem_window] at hk
    exact (tap_cut (by omega) (by omega) sums).symm
  rw [sample, sample, hsums]

theorem getElem_lowPass {pcm : Pcm} {r : Positive} (hpr : pcm.rate ≠ r) {i : ℕ}
    (hi : i < (pcm.to r).samples.length) :
    (pcm.to r).samples[i]? = some (lowPass pcm r (i * ratio pcm.rate r)) := by
  rw [List.getElem?_eq_getElem hi]
  by_cases hg : kernelSum (cutoff pcm.rate r) ≠ 0 ∧ |kernelSum (cutoff pcm.rate r) - 1| > 1e-3
  · simp only [Pcm.to, if_neg hpr, if_pos hg, List.getElem_map, List.getElem_range, lowPass, level]
  · simp only [Pcm.to, if_neg hpr, if_neg hg, List.getElem_map, List.getElem_range, lowPass, level]

theorem ratio_pos (p r : Positive) : 0 < ratio p r := div_pos (hertz_pos p) (hertz_pos r)

/-- As many samples as the whole part of the length over the ratio of the rates. -/
theorem length_to_nat {pcm : Pcm} {r : Positive}
    (hfit : pcm.samples.length * r.val.toInt.toNat < 2 ^ 31 * pcm.rate.val.toInt.toNat) :
    (pcm.to r).samples.length =
      pcm.samples.length * r.val.toInt.toNat / pcm.rate.val.toInt.toNat := by
  by_cases hpr : pcm.rate = r
  · have hr : 0 < r.val.toInt.toNat := ReadersSpeech.Pcm.Decoder.rate_pos r
    rw [Pcm.to, if_pos hpr, hpr, Nat.mul_div_cancel _ hr]
  · have hp := hertz_pos pcm.rate
    have hr := hertz_pos r
    have hcast (q : Positive) : ((q.val.toInt.toNat : ℕ) : ℝ) = q.val.toInt := by
      exact_mod_cast ReadersSpeech.Pcm.Decoder.toNat_rate q
    have hquotient : (pcm.samples.length / ratio pcm.rate r : ℝ) =
        ((pcm.samples.length * r.val.toInt.toNat : ℕ) : ℝ) / (pcm.rate.val.toInt.toNat : ℕ) := by
      rw [ratio, Nat.cast_mul, hcast, hcast, div_div_eq_mul_div]
    have hlt : (pcm.samples.length / ratio pcm.rate r : ℝ) < 2 ^ 31 := by
      rw [hquotient, div_lt_iff₀ (by rw [hcast]; exact hp)]
      exact_mod_cast hfit
    have hnonneg : (0 : ℝ) ≤ pcm.samples.length / ratio pcm.rate r :=
      div_nonneg (Nat.cast_nonneg _) (ratio_pos _ _).le
    rw [length_to hpr, toInt_eq_floor hnonneg hlt, hquotient, Int.floor_toNat,
      Nat.floor_div_eq_div]

end ReadersSpeech.Resample

namespace ReadersSpeech.Pcm.Decode16k
open Batches Decoder Resample

/-- One call of `onChunk`. -/
structure Piece where
  samples : List ℝ
  startMs : Int64

inductive Result where
  | returned (calls : List Piece)
  | threw (f : Fault) (calls : List Piece)
  | running (calls : List Piece)

def Result.calls : Result → List Piece
  | .returned cs | .threw _ cs | .running cs => cs

theorem hertz_16k_pos : 0 < (16000 : Int32).toInt := by decide

def rate16k : Positive := ⟨16000, hertz_16k_pos⟩

noncomputable def resampled (p : Decoder.Piece ℝ) : Piece :=
  ⟨(Resample.Pcm.to ⟨p.samples, p.rate⟩ rate16k).samples, p.startMs⟩

section Chunks
variable [SampleOps ℝ]

noncomputable def chunks (tracks : List Track) (seconds : Int32) (onChunk : List Piece → Bool)
    (os : List Output) : Result :=
  match Decoder.chunks tracks seconds (fun calls => onChunk (calls.map resampled)) os with
  | .returned calls => .returned (calls.map resampled)
  | .threw f calls => .threw f (calls.map resampled)
  | .running calls => .running (calls.map resampled)

end Chunks

/-- The low-pass sees neither end of the piece at its output sample `i`. -/
structure Clear (ratio : ℝ) (p : Decoder.Piece ℝ) (i : ℕ) : Prop where
  handed : i < (resampled p).samples.length
  low : taps ≤ ⌊i * ratio⌋
  high : ⌊i * ratio⌋ + taps < p.samples.length

/-- The piece `p`, cut at the sample `cut` of the recording `whole`, is resampled as the recording
is at the instants of the piece, which are its own where the cut is at one of them. -/
structure AsWhole (whole : Resample.Pcm) (cut : ℕ) (p : Decoder.Piece ℝ) : Prop where
  instants : whole.rate ≠ rate16k → ∀ i, Clear (ratio whole.rate rate16k) p i →
    (resampled p).samples[i]? =
      some (lowPass whole rate16k (cut + i * ratio whole.rate rate16k))
  aligned : ∀ m, cut * 16000 = m * whole.rate.val.toInt.toNat →
    ∀ i, Clear (ratio whole.rate rate16k) p i →
    (resampled p).samples[i]? = (whole.to rate16k).samples[m + i]?

theorem hertz_16k : rate16k.val.toInt.toNat = 16000 := by decide

/-- An output instant of the recording, in samples of the input. -/
theorem instant_of_cut {rate : Positive} {cut m : ℕ}
    (hm : cut * 16000 = m * rate.val.toInt.toNat) : (cut : ℝ) = m * ratio rate rate16k := by
  have hcast : ((rate.val.toInt.toNat : ℕ) : ℝ) = rate.val.toInt := by
    exact_mod_cast toNat_rate rate
  have h16k : (rate16k.val.toInt : ℝ) = 16000 := by exact_mod_cast (by decide)
  have hreal : (cut : ℝ) * 16000 = m * rate.val.toInt := by
    rw [← hcast]
    exact_mod_cast hm
  rw [ratio, h16k, ← mul_div_assoc, ← hreal, mul_div_assoc, div_self (by norm_num), mul_one]

/-- What is resampled of a piece has its place in what is resampled of the recording. -/
theorem length_of_cut {p cut n total m : ℕ} (hp : 0 < p) (hm : cut * 16000 = m * p)
    (hn : cut + n ≤ total) : m + n * 16000 / p ≤ total * 16000 / p := by
  calc m + n * 16000 / p = (m * p + n * 16000) / p := by
        rw [Nat.add_comm (m * p), Nat.add_mul_div_right _ _ hp, Nat.add_comm]
    _ = (cut + n) * 16000 / p := by rw [← hm, Nat.add_mul]
    _ ≤ total * 16000 / p := Nat.div_le_div_right (Nat.mul_le_mul_right _ hn)

theorem length_resampled {p : Decoder.Piece ℝ}
    (hfit : p.samples.length * 16000 < 2 ^ 31 * p.rate.val.toInt.toNat) :
    (resampled p).samples.length = p.samples.length * 16000 / p.rate.val.toInt.toNat := by
  rw [resampled, length_to_nat (by rwa [hertz_16k]), hertz_16k]

theorem asWhole {whole : Resample.Pcm} {u v : List ℝ} {p : Decoder.Piece ℝ}
    (hp : p.rate = whole.rate) (hw : whole.samples = u ++ (p.samples ++ v))
    (hroom : whole.samples.length ≤ 2 ^ 30)
    (hfit : whole.samples.length * 16000 < 2 ^ 31 * whole.rate.val.toInt.toNat) :
    AsWhole whole u.length p := by
  obtain ⟨samples, rate⟩ := whole
  simp only at hp hw hroom hfit
  subst hw
  have hinstant : rate ≠ rate16k → ∀ i, Clear (ratio rate rate16k) p i →
      (resampled p).samples[i]? = some (lowPass ⟨u ++ (p.samples ++ v), rate⟩ rate16k
        (u.length + i * ratio rate rate16k)) := by
    intro hne i hi
    subst hp
    rw [resampled, getElem_lowPass hne hi.handed, lowPass, lowPass,
      sample_cut hi.low hi.high hroom]
  refine ⟨hinstant, fun m hm i hi => ?_⟩
  by_cases hne : rate = rate16k
  · subst hne
    have hcut : u.length = m := by
      rw [hertz_16k] at hm
      omega
    subst hcut
    have hin := hi.handed
    simp only [resampled, Resample.Pcm.to, hp, if_true] at hin ⊢
    rw [List.getElem?_append_right (by omega), Nat.add_sub_cancel_left,
      List.getElem?_append_left hin]
  · have hmul : (u.length : ℝ) + i * ratio rate rate16k = (m + i : ℕ) * ratio rate rate16k := by
      rw [instant_of_cut hm, Nat.cast_add, add_mul]
    have hlen : u.length + p.samples.length ≤ (u ++ (p.samples ++ v)).length := by
      rw [List.length_append, List.length_append]
      exact Nat.add_le_add_left (Nat.le_add_right _ _) _
    have hpiece : p.samples.length * 16000 < 2 ^ 31 * p.rate.val.toInt.toNat := by
      rw [hp]
      exact (Nat.mul_le_mul_right _ ((Nat.le_add_left _ _).trans hlen)).trans_lt hfit
    have hin : m + i < (Resample.Pcm.to ⟨u ++ (p.samples ++ v), rate⟩ rate16k).samples.length := by
      have hhanded := hi.handed
      rw [length_resampled hpiece, hp] at hhanded
      rw [length_to_nat (by rw [hertz_16k]; exact hfit), hertz_16k]
      simp only
      exact (Nat.add_lt_add_left hhanded m).trans_le (length_of_cut (rate_pos rate) hm hlen)
    rw [hinstant hne i hi, hmul, getElem_lowPass hne hin]

/-- Each division leaves over less than one. -/
theorem sum_div {p : ℕ} (hp : 0 < p) (r : ℕ) (ns : List ℕ) :
    (ns.map (· * r / p)).sum ≤ ns.sum * r / p ∧
      ns.sum * r / p ≤ (ns.map (· * r / p)).sum + (ns.length - 1) := by
  induction ns with
  | nil => simp
  | cons n ns ih =>
    obtain ⟨hle, hge⟩ := ih
    rw [List.map_cons, List.sum_cons, List.sum_cons, Nat.add_mul, Nat.add_div hp]
    cases ns with
    | nil => simp [Nat.mod_lt _ hp]
    | cons k ns =>
      simp only [List.length_cons] at hge ⊢
      split_ifs <;> omega

theorem lengths_resampled {rate : Positive} {ps : List (Decoder.Piece ℝ)}
    (hrate : ∀ p ∈ ps, p.rate = rate)
    (hfit : (ps.flatMap (·.samples)).length * 16000 < 2 ^ 31 * rate.val.toInt.toNat) :
    ps.map (fun p => (resampled p).samples.length) =
      (ps.map (·.samples.length)).map (· * 16000 / rate.val.toInt.toNat) := by
  rw [List.map_map]
  refine List.map_congr_left fun p hp => ?_
  have hle : p.samples.length ≤ (ps.flatMap (·.samples)).length := by
    rw [List.length_flatMap]
    exact List.single_le_sum (fun _ _ => Nat.zero_le _) _ (List.mem_map_of_mem hp)
  have hpiece : p.samples.length * 16000 < 2 ^ 31 * p.rate.val.toInt.toNat := by
    rw [hrate p hp]
    exact (Nat.mul_le_mul_right _ hle).trans_lt hfit
  rw [length_resampled hpiece, hrate p hp, Function.comp_apply]

theorem length_of_pieces {whole : Resample.Pcm} {ps : List (Decoder.Piece ℝ)}
    (hrate : ∀ p ∈ ps, p.rate = whole.rate) (hall : ps.flatMap (·.samples) = whole.samples)
    (hfit : whole.samples.length * 16000 < 2 ^ 31 * whole.rate.val.toInt.toNat) :
    let handed := (ps.map resampled).flatMap (·.samples)
    handed.length ≤ (whole.to rate16k).samples.length ∧
      (whole.to rate16k).samples.length ≤ handed.length + (ps.length - 1) := by
  have hsum := sum_div (rate_pos whole.rate) 16000 (ps.map (·.samples.length))
  rw [← lengths_resampled hrate (by rw [hall]; exact hfit), ← List.length_flatMap,
    List.length_map] at hsum
  rw [List.flatMap_map, length_to_nat (by rw [hertz_16k]; exact hfit), hertz_16k, ← hall,
    List.length_flatMap (f := fun p : Decoder.Piece ℝ => p.samples)]
  exact hsum

section Runs
variable [SampleOps ℝ] {tracks : List Track} {seconds : Int32} {onChunk : List Piece → Bool}
  {os : List Output}

theorem chunks_calls : (chunks tracks seconds onChunk os).calls =
    (Decoder.chunks tracks seconds (fun calls => onChunk (calls.map resampled)) os).calls.map
      resampled := by
  unfold chunks
  split <;> rename_i h <;> rw [h] <;> rfl

theorem samples_prefix {onChunk : List (Decoder.Piece ℝ) → Bool} :
    (Decoder.chunks tracks seconds onChunk os).calls.flatMap (·.samples) <+:
      arrived (decodedItems tracks os) := by
  rw [Decoder.chunks_calls]
  refine (List.IsPrefix.flatMap asked_prefix _).trans ?_
  rw [timed_samples]
  exact batches_prefix

theorem samples_all {onChunk : List (Decoder.Piece ℝ) → Bool} {samples : List ℝ} {rate : Positive}
    (h : Decode.toPcm tracks os = .returned samples rate) (hgo : ∀ calls, onChunk calls = true) :
    (Decoder.chunks tracks seconds onChunk os).calls.flatMap (·.samples) = samples := by
  obtain ⟨hs, hend, hroom⟩ := Decode.toPcm_arrived h
  obtain rfl : onChunk = fun _ => true := funext hgo
  rw [Decoder.chunks_calls, asked_always, timed_samples, batches_all hend, hs]
  · rfl
  · rwa [hs] at hroom

/-- Cut into pieces and resampled one by one, a recording is what it is resampled whole, but for
the 16 samples on either side of a cut. The instants are not moved by the cuts, and the pieces
together fall short of the whole by at most a sample a cut. -/
theorem chunks_resampled (seconds : Int32) (onChunk : List Piece → Bool) {samples : List ℝ}
    {rate : Positive} (h : Decode.toPcm tracks os = .returned samples rate)
    (hfit : samples.length * 16000 < 2 ^ 31 * rate.val.toInt.toNat) :
    let ps := (Decoder.chunks tracks seconds (fun calls => onChunk (calls.map resampled)) os).calls
    let handed := (chunks tracks seconds onChunk os).calls
    let whole : Resample.Pcm := ⟨samples, rate⟩
    handed = ps.map resampled ∧
      (∀ before p after, ps = before ++ p :: after → p.rate = rate →
        AsWhole whole (before.flatMap (·.samples)).length p) ∧
      ((∀ calls, onChunk calls = true) → (∀ p ∈ ps, p.rate = rate) →
        (handed.flatMap (·.samples)).length ≤ (whole.to rate16k).samples.length ∧
          (whole.to rate16k).samples.length ≤
            (handed.flatMap (·.samples)).length + (ps.length - 1)) := by
  intro ps handed whole
  obtain ⟨hs, hend, hroom⟩ := Decode.toPcm_arrived h
  have hhanded : handed = ps.map resampled := chunks_calls
  refine ⟨hhanded, fun before p after hps hp => ?_, fun hgo hrate => ?_⟩
  · have hprefix : (before ++ p :: after).flatMap (·.samples) <+: samples := by
      rw [← hps, hs]
      exact samples_prefix
    obtain ⟨v, hv⟩ := hprefix
    rw [List.flatMap_append, List.flatMap_cons, List.append_assoc, List.append_assoc] at hv
    exact asWhole hp hv.symm hroom hfit
  · have hall : ps.flatMap (·.samples) = whole.samples :=
      samples_all h fun calls => hgo (calls.map resampled)
    rw [hhanded]
    exact length_of_pieces hrate hall hfit

end Runs

noncomputable instance : SampleOps ℝ := ⟨0, (· + ·), (· / ·), fun z => z, fun b => b.toNat⟩

theorem hertz_32k_pos : 0 < (32000 : Int32).toInt := by decide

def rate32k : Positive := ⟨32000, hertz_32k_pos⟩

/-- Two buffers of forty samples. -/
def forties : List Output :=
  [.buffer (List.replicate 160 1) false, .buffer (List.replicate 160 2) true]

/-- The ninth sample of the second piece. -/
theorem chunks_resampled_forties : ∃ (samples : List ℝ) (p q : Piece),
    Decode.toPcm (recording rate32k) forties = .returned samples rate32k ∧
    (chunks (recording rate32k) 0 (fun _ => true) forties).calls = [p, q] ∧
    q.samples[8]? = (Resample.Pcm.to ⟨samples, rate32k⟩ rate16k).samples[28]? := by
  obtain ⟨samples, h, hlen⟩ : ∃ samples, Decode.toPcm (α := ℝ) (recording rate32k) forties =
      .returned samples rate32k ∧ samples.length = 80 := ⟨_, rfl, rfl⟩
  obtain ⟨p, q, hps, hp, hq, hrate⟩ : ∃ p q : Decoder.Piece ℝ, (Decoder.chunks
      (recording rate32k) 0 (fun _ => true) forties).calls = [p, q] ∧ p.samples.length = 40 ∧
      q.samples.length = 40 ∧ q.rate = rate32k := ⟨_, _, rfl, rfl, rfl, rfl⟩
  have hhertz : rate32k.val.toInt.toNat = 32000 := by decide
  obtain ⟨hcalls, hpieces, -⟩ := chunks_resampled 0 (fun _ => true) h
    (by rw [hlen, hhertz]; decide)
  have hratio : ratio rate32k rate16k = 2 := by
    have h32 : (rate32k.val.toInt : ℝ) = 32000 := by exact_mod_cast (by decide)
    have h16 : (rate16k.val.toInt : ℝ) = 16000 := by exact_mod_cast (by decide)
    rw [ratio, h32, h16]
    norm_num
  have hfloor : ⌊((8 : ℕ) : ℝ) * ratio rate32k rate16k⌋ = 16 := by
    rw [hratio]
    norm_num
  have hin : 8 < (resampled q).samples.length := by
    rw [length_resampled (by rw [hq, hrate, hhertz]; decide), hq, hrate, hhertz]
    decide
  have hplace := (hpieces [p] q [] hps hrate).aligned 20 (by simp [hp, hhertz]) 8
    ⟨hin, by rw [hfloor]; decide, by rw [hfloor, hq]; decide⟩
  exact ⟨samples, resampled p, resampled q, h, by rw [hcalls, hps]; rfl, hplace⟩

end ReadersSpeech.Pcm.Decode16k
