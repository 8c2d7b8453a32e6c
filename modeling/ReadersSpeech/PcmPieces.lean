import ReadersSpeech.Batches
import ReadersSpeech.Pcm
import Mathlib.Tactic.Linarith

/-! The decoding loops are batching: the pieces `Decoder.chunks` hands over are the batches of the
decoded buffers, cut where the caller stops, and together they are what `Decode.toPcm` returns.
-/

set_option autoImplicit false

namespace ReadersSpeech.Pcm
open Batches

section FloatList
variable {α : Type}

/-- The arrays a `FloatList` goes through: 2^20 doubled up to ten times. -/
def Roomy (l : FloatList α) : Prop :=
  l.items.length ≤ l.capacity ∧ ∃ k ≤ 10, l.capacity = 2 ^ (20 + k)

theorem Roomy.new : Roomy (.new : FloatList α) :=
  ⟨by simp [FloatList.new], 0, by simp [FloatList.new]⟩

theorem Roomy.le {l : FloatList α} (h : Roomy l) : l.items.length ≤ 2 ^ 30 := by
  obtain ⟨hle, k, hk, hc⟩ := h
  have hpow : 2 ^ (20 + k) ≤ 2 ^ 30 := Nat.pow_le_pow_right (by decide) (by omega)
  omega

theorem Roomy.add {l : FloatList α} (h : Roomy l) (v : α) :
    if l.items.length = 2 ^ 30 then l.add v = .error .negativeArraySize
    else ∃ c, l.add v = .ok ⟨l.items ++ [v], c⟩ ∧ Roomy ⟨l.items ++ [v], c⟩ := by
  obtain ⟨hle, k, hk, hc⟩ := h
  by_cases hfull : l.items.length = l.capacity
  · rcases Nat.lt_or_ge k 10 with hlt | hge
    · have hpow : 2 ^ (20 + k) < 2 ^ 30 := Nat.pow_lt_pow_right (by decide) (by omega)
      have hdouble : l.capacity * 2 = 2 ^ (20 + (k + 1)) := by rw [hc, ← pow_succ]; rfl
      rw [if_neg (by omega)]
      refine ⟨l.capacity * 2, ?_, ?_, k + 1, hlt, hdouble⟩
      · simp only [FloatList.add, hfull, if_true]
        rw [if_pos (by omega)]
      · simp only [List.length_append, List.length_singleton]
        have hpos : 0 < 2 ^ (20 + k) := Nat.pow_pos (by decide)
        omega
    · obtain rfl : k = 10 := by omega
      have hc' : l.capacity = 2 ^ 30 := hc
      rw [if_pos (hfull.trans hc')]
      simp [FloatList.add, hfull, hc']
  · have hlt : l.items.length < 2 ^ 30 := by
      have hpow : 2 ^ (20 + k) ≤ 2 ^ 30 := Nat.pow_le_pow_right (by decide) (by omega)
      omega
    rw [if_neg (by omega)]
    refine ⟨l.capacity, by simp [FloatList.add, hfull], ?_, k, hk, hc⟩
    simp only [List.length_append, List.length_singleton]
    omega

theorem Roomy.addAll {l : FloatList α} (h : Roomy l) (vs : List α) :
    if 2 ^ 30 < (l.items ++ vs).length then l.addAll vs = .error .negativeArraySize
    else ∃ c, l.addAll vs = .ok ⟨l.items ++ vs, c⟩ ∧ Roomy ⟨l.items ++ vs, c⟩ := by
  induction vs generalizing l with
  | nil =>
    rw [List.append_nil, if_neg (Nat.not_lt.mpr h.le)]
    exact ⟨l.capacity, rfl, h⟩
  | cons v vs ih =>
    have hadd := h.add v
    by_cases hfull : l.items.length = 2 ^ 30
    · rw [if_pos hfull] at hadd
      have hlt : 2 ^ 30 < (l.items ++ v :: vs).length := by
        simp only [List.length_append, List.length_cons]
        omega
      rw [if_pos hlt]
      simp only [FloatList.addAll, List.foldlM_cons, hadd]
      rfl
    · rw [if_neg hfull] at hadd
      obtain ⟨c, hc, hroomy⟩ := hadd
      have hrest := ih hroomy
      simp only [List.append_assoc, List.singleton_append] at hrest
      have hstep : l.addAll (v :: vs) = FloatList.addAll ⟨l.items ++ [v], c⟩ vs := by
        simp only [FloatList.addAll, List.foldlM_cons, hc]
        rfl
      rw [hstep]
      exact hrest

end FloatList

variable {α : Type} [SampleOps α]

/-- The decoded buffers, each under the rate in force. -/
def items (s : Setting) : List Output → List (Item Positive α)
  | [] => []
  | .tryAgain :: os => items s os
  | .formatChanged f :: os => items (s.change f) os
  | .buffer bytes endOfStream :: os => ⟨s.rate, mono s bytes, endOfStream⟩ :: items s os

def decodedItems (tracks : List Track) (os : List Output) : List (Item Positive α) :=
  match tracks.find? Track.isAudio with
  | none => []
  | some t => items (.first t.format) os

theorem Decode.loop_arrived {s : Setting} {out : FloatList α} (h : Roomy out) {os : List Output}
    {samples : List α} {rate : Positive} (hr : Decode.loop s out os = .returned samples rate) :
    samples = out.items ++ arrived (items s os) ∧ (∃ i ∈ items (α := α) s os, i.last = true) ∧
      samples.length ≤ 2 ^ 30 := by
  induction os generalizing s out with
  | nil => simp [Decode.loop] at hr
  | cons o os ih =>
    cases o with
    | tryAgain => exact ih h hr
    | formatChanged f => exact ih h hr
    | buffer bytes endOfStream =>
      have hadd := h.addAll (mono s bytes)
      split_ifs at hadd with hlen
      · simp [Decode.loop, hadd] at hr
      · obtain ⟨c, hc, hroomy⟩ := hadd
        simp only [Decode.loop, hc] at hr
        cases endOfStream with
        | true =>
          simp only [if_true, Decode.Result.returned.injEq] at hr
          obtain ⟨rfl, -⟩ := hr
          exact ⟨by simp [items, arrived], by simp [items], hroomy.le⟩
        | false =>
          obtain ⟨hs, hlast, hle⟩ := ih hroomy hr
          refine ⟨by simpa [items, arrived] using hs, ?_, hle⟩
          simpa [items] using hlast

theorem Decode.toPcm_arrived {tracks : List Track} {os : List Output} {samples : List α}
    {rate : Positive} (h : Decode.toPcm tracks os = .returned samples rate) :
    samples = arrived (decodedItems tracks os) ∧
      (∃ i ∈ decodedItems (α := α) tracks os, i.last = true) ∧ samples.length ≤ 2 ^ 30 := by
  unfold Decode.toPcm at h
  unfold decodedItems
  cases hf : tracks.find? Track.isAudio with
  | none => simp [hf] at h
  | some t =>
    simp only [hf] at h
    exact Decode.loop_arrived Roomy.new h

namespace Decoder

variable {seconds : Int32} {onChunk : List (Piece α) → Bool} {st : State α}

omit [SampleOps α] in
theorem flush_empty (h : st.acc.items = []) : flush onChunk st = st := by simp [flush, h]

omit [SampleOps α] in
theorem flush_stopped (h : st.keepGoing = false) : flush onChunk st = st := by simp [flush, h]

theorem loop_stopped (h : st.keepGoing = false) (os : List Output) :
    loop seconds onChunk st os = .returned st.calls := by
  cases os <;> simp [loop, h, flush_stopped h]

/-- The pieces of a list of batches: each starts where the milliseconds of those before end. -/
def timed : Int64 → List (Positive × List α) → List (Piece α)
  | _, [] => []
  | start, (rate, samples) :: bs =>
    ⟨samples, rate, start⟩ :: timed (start + lengthMs samples rate) bs

omit [SampleOps α] in
theorem timed_batches (start : Int64) (bs : List (Positive × List α)) :
    (timed start bs).map (fun p => (p.rate, p.samples)) = bs := by
  induction bs generalizing start with
  | nil => rfl
  | cons b bs ih => simp [timed, ih]

omit [SampleOps α] in
theorem timed_samples (start : Int64) (bs : List (Positive × List α)) :
    (timed start bs).flatMap (·.samples) = bs.flatMap (·.2) := by
  conv_rhs => rw [← timed_batches start bs]
  rw [List.flatMap_map]

/-- The state after a piece is handed over. -/
def handed (onChunk : List (Piece α) → Bool) (st : State α) : State α :=
  let calls := st.calls ++ [⟨st.acc.items, st.setting.rate, st.startMs⟩]
  { st with
    acc := .new
    keepGoing := onChunk calls
    startMs := st.startMs + lengthMs st.acc.items st.setting.rate
    calls }

omit [SampleOps α] in
theorem flush_handed (h : st.acc.items ≠ []) (hk : st.keepGoing = true) :
    flush onChunk st = handed onChunk st := by
  simp [flush, handed, h, hk]

theorem loop_fits {bytes : List UInt8} {endOfStream : Bool} {acc : FloatList α}
    (hk : st.keepGoing = true) (hc : st.acc.addAll (mono st.setting bytes) = .ok acc)
    (os : List Output) :
    let st₁ := { st with acc }
    let st₂ := if isFull seconds st.setting.rate acc.items.length then flush onChunk st₁ else st₁
    loop seconds onChunk st (.buffer bytes endOfStream :: os) =
      if endOfStream then .returned (flush onChunk st₂).calls else loop seconds onChunk st₂ os := by
  intro st₁ st₂
  rw [loop, if_neg (by simp [hk])]
  simp only [hc]
  rfl

/-- One buffer that fits: nothing is waiting, or more is awaited, or a piece is handed over. -/
theorem loop_buffer {bytes : List UInt8} {endOfStream : Bool} {acc : FloatList α}
    (hk : st.keepGoing = true) (hc : st.acc.addAll (mono st.setting bytes) = .ok acc)
    {st₁ : State α} (hst : st₁ = { st with acc }) (os : List Output) :
    loop seconds onChunk st (.buffer bytes endOfStream :: os) =
      if acc.items ≠ [] ∧ (endOfStream ∨ isFull seconds st.setting.rate acc.items.length) then
        if endOfStream then .returned (handed onChunk st₁).calls
        else loop seconds onChunk (handed onChunk st₁) os
      else if endOfStream then .returned st.calls
      else loop seconds onChunk st₁ os := by
  have hacc : st₁.acc = acc := by rw [hst]
  rw [loop_fits hk hc, ← hst]
  by_cases hw : acc.items = []
  · have hflush : flush onChunk st₁ = st₁ := flush_empty (hacc ▸ hw)
    have hnone : ¬ (acc.items ≠ [] ∧
        (endOfStream = true ∨ isFull seconds st.setting.rate acc.items.length = true)) :=
      fun h => h.1 hw
    have hcalls : st₁.calls = st.calls := by rw [hst]
    rw [hflush, ite_self, hflush, if_neg hnone, hcalls]
  · have hflush : flush onChunk st₁ = handed onChunk st₁ :=
      flush_handed (hacc ▸ hw) (by rw [hst]; exact hk)
    have hagain : flush onChunk (handed onChunk st₁) = handed onChunk st₁ := flush_empty rfl
    rw [hflush]
    cases endOfStream <;> cases isFull seconds st.setting.rate acc.items.length <;>
      simp [hw, hflush, hagain]

/-- What the loop hands over is what it has handed over and then the batches that are left. -/
theorem loop_calls (h : Roomy st.acc) (hk : st.keepGoing = true) (os : List Output) :
    (loop seconds onChunk st os).calls = st.calls ++ asked onChunk st.calls
      (timed st.startMs
        (batches (isFull seconds) (2 ^ 30) st.acc.items (items st.setting os))) := by
  induction os generalizing st with
  | nil => simp [loop, hk, Result.calls, items, batches, timed, asked]
  | cons o os ih =>
    cases o with
    | tryAgain => simpa [loop, hk, items] using ih h hk
    | formatChanged f =>
      simpa [loop, hk, items] using @ih { st with setting := st.setting.change f } h hk
    | buffer bytes endOfStream =>
      have hadd := h.addAll (mono st.setting bytes)
      split_ifs at hadd with hlen
      · simp only [items, batches, if_pos hlen, timed, asked, List.append_nil]
        simp only [loop, hk, hadd, Bool.true_eq_false, if_false, Result.calls]
      · obtain ⟨c, hc, hroomy⟩ := hadd
        rw [loop_buffer hk hc rfl]
        simp only [items, batches, if_neg hlen]
        split_ifs with hclose hlast hlast
        · simp [handed, Result.calls, timed, asked]
        · cases hgo : (handed onChunk { st with
              acc := ⟨st.acc.items ++ mono st.setting bytes, c⟩ }).keepGoing with
          | true =>
            rw [ih Roomy.new hgo]
            simp only [handed] at hgo
            simp [handed, timed, asked, hgo, FloatList.new]
          | false =>
            rw [loop_stopped hgo]
            simp only [handed] at hgo
            simp [handed, timed, asked, hgo, Result.calls]
        · simp [Result.calls, timed, asked]
        · exact ih hroomy hk

theorem chunks_calls (tracks : List Track) (seconds : Int32)
    (onChunk : List (Piece α) → Bool) (os : List Output) :
    (chunks tracks seconds onChunk os).calls = asked onChunk []
      (timed 0 (batches (isFull seconds) (2 ^ 30) [] (decodedItems tracks os))) := by
  unfold chunks decodedItems
  cases tracks.find? Track.isAudio with
  | none => simp [Result.calls, batches, timed, asked]
  | some t => exact loop_calls Roomy.new rfl os

omit [SampleOps α] in
theorem isFull_iff {rate : Positive} {n : ℕ} (hn : n ≤ 2 ^ 30) :
    isFull seconds rate n = true ↔ (seconds * rate.val).toInt ≤ n := by
  rw [isFull, decide_eq_true_iff, Int32.le_iff_toInt_le, Int32.toInt_ofNat_of_lt (by omega)]

theorem full_enough {rate : Positive} {n : ℕ} (hn : n ≤ 2 ^ 30)
    (hfit : seconds.toInt * rate.val.toInt < 2 ^ 31) (hf : isFull seconds rate n = true) :
    seconds.toInt * rate.val.toInt ≤ n := by
  rw [isFull_iff hn, Int32.toInt_mul] at hf
  rcases lt_or_ge (seconds.toInt * rate.val.toInt) (-2 ^ 31) with hneg | hlow
  · omega
  · rwa [Int.bmod_eq_of_le (by omega) (by omega)] at hf

/-- Nothing is lost in the pieces, none is empty, only the last may be short, and a caller that says
to stop at its `j`-th call has had the first `j`. -/
def Whole (α : Type) [SampleOps α] (tracks : List Track) (seconds : Int32) (os : List Output) :
    Prop :=
  let pieces := (chunks (α := α) tracks seconds (fun _ => true) os).calls
  (∀ samples rate, Decode.toPcm tracks os = .returned samples rate →
    pieces.flatMap (·.samples) = samples) ∧
  (∀ p ∈ pieces, p.samples ≠ []) ∧
  (∀ p ∈ pieces.dropLast, seconds.toInt * p.rate.val.toInt ≤ p.samples.length) ∧
  ∀ onChunk j, j < pieces.length → (∀ i < j, onChunk (pieces.take (i + 1)) = true) →
    onChunk (pieces.take (j + 1)) = false →
    (chunks tracks seconds onChunk os).calls = pieces.take (j + 1)

theorem chunks_whole_iff (tracks : List Track) (seconds : Int32) (os : List Output) :
    Whole α tracks seconds os ↔
      ∀ b ∈ (batches (isFull seconds) (2 ^ 30) [] (decodedItems (α := α) tracks os)).dropLast,
        seconds.toInt * b.1.val.toInt < 2 ^ 31 := by
  have hall := chunks_calls tracks seconds (fun _ : List (Piece α) => true) os
  rw [asked_always] at hall
  generalize hB : batches (isFull seconds) (2 ^ 30) [] (decodedItems (α := α) tracks os) = B
    at hall ⊢
  have hfit : ∀ b ∈ B, b.2.length ≤ 2 ^ 30 := hB ▸ batches_fit
  have hlast : ∀ b ∈ B.dropLast, isFull seconds b.1 b.2.length := hB ▸ batches_full
  have hpairs : (timed 0 B).dropLast.map (fun p => (p.rate, p.samples)) = B.dropLast := by
    rw [List.map_dropLast, timed_batches]
  unfold Whole
  rw [hall]
  constructor
  · rintro ⟨-, -, hlong, -⟩ b hb
    rw [← hpairs] at hb
    obtain ⟨p, hp, rfl⟩ := List.mem_map.mp hb
    rw [hpairs] at hb
    have hle := hfit _ (List.dropLast_subset B hb)
    have hn := hlong p hp
    simp only at hle ⊢
    omega
  · intro hsmall
    refine ⟨?_, ?_, ?_, ?_⟩
    · intro samples rate h
      obtain ⟨hs, hend, hroom⟩ := Decode.toPcm_arrived h
      rw [timed_samples, ← hB, batches_all hend (by simpa [← hs] using hroom), hs]
      rfl
    · intro p hp
      have hb : (p.rate, p.samples) ∈ B := by
        rw [← timed_batches 0 B]
        exact List.mem_map_of_mem hp
      exact batches_ne_nil (p.rate, p.samples) (hB ▸ hb)
    · intro p hp
      have hb : (p.rate, p.samples) ∈ B.dropLast := by
        rw [← hpairs]
        exact List.mem_map_of_mem hp
      have hn : p.samples.length ≤ 2 ^ 30 := hfit _ (List.dropLast_subset B hb)
      have hfull : isFull seconds p.rate p.samples.length = true :=
        hlast (p.rate, p.samples) hb
      exact full_enough hn (hsmall (p.rate, p.samples) hb) hfull
    · intro onChunk j hj hgo hstop
      rw [chunks_calls, hB]
      exact asked_stop hj (by simpa using hgo) (by simpa using hstop)

instance : SampleOps ℤ := ⟨0, (· + ·), (· / ·), fun z => z, fun b => b.toNat⟩

def oneChannel : Positive := ⟨1, by decide⟩

/-- One channel of `float` samples. -/
def recording (rate : Positive) : List Track :=
  [⟨some (kt "video/avc"), ⟨rate, oneChannel, none⟩⟩,
    ⟨some (kt "audio/raw"), ⟨rate, oneChannel, some encodingPcmFloat⟩⟩]

def twoBuffers : List Output := [.buffer [7, 0, 0, 0] false, .tryAgain, .buffer [8, 0, 0, 0] true]

/-- The product of the seconds and the rate is past the last `int`, and every buffer is a piece. -/
theorem chunks_short_piece :
    Decode.toPcm (recording ⟨48000, by decide⟩) twoBuffers =
      .returned [(7 : ℤ), 8] ⟨48000, by decide⟩ ∧
    ¬ Whole ℤ (recording ⟨48000, by decide⟩) 50000 twoBuffers := by
  refine ⟨rfl, fun h => ?_⟩
  have hcalls : (chunks (α := ℤ) (recording ⟨48000, by decide⟩) 50000 (fun _ => true)
      twoBuffers).calls = [⟨[7], ⟨48000, by decide⟩, 0⟩, ⟨[8], ⟨48000, by decide⟩, 0⟩] := by
    decide
  have hlong := h.2.2.1
  rw [hcalls] at hlong
  have hbad := hlong ⟨[7], ⟨48000, by decide⟩, 0⟩ (by simp)
  exact absurd hbad (by decide)

end Decoder

end ReadersSpeech.Pcm
