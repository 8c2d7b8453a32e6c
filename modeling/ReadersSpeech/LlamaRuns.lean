import Mathlib.Algebra.Ring.Int.Defs
import ReadersSpeech.LlamaLib

/-! What a call of `generate` asks of llama.cpp, in the order it asks it, and the figures it
stores for the progress bar.
-/

set_option autoImplicit false

namespace ReadersSpeech.LlamaLib
open Transition

/-- `llama_decode` of prompt tokens or of the token just sampled, each with the position of its
first token; `llama_sampler_sample`; a figure stored into `g_progress`. -/
inductive Call where
  | prompt (position first n : Int) (ok : Bool)
  | sample
  | answer (position : Int) (ok : Bool)
  | progress (p : Int)
  deriving DecidableEq, Repr

/-- The tokens of the prompt a call reads. -/
def Call.read : Call → List Int
  | .prompt _ first n true => (List.range n.toNat).map fun k : ℕ => first + k
  | _ => []

/-- The tokens a call adds to the memory of the context. -/
def Call.held : Call → Int
  | .prompt _ _ n true => n
  | .answer _ true => 1
  | _ => 0

def Call.figure : Call → Option Int
  | .progress p => some p
  | _ => none

def Call.isPrompt : Call → Bool
  | .prompt .. => true
  | _ => false

def tokensRead (log : List Call) : List Int := log.flatMap Call.read

/-- The memory is cleared where the call begins, and a batch without positions is put behind what
the memory holds. -/
def tokensHeld (log : List Call) : Int := (log.map Call.held).sum

def figures (log : List Call) : List Int := log.filterMap Call.figure

def batchAt (nPrompt i : Int) : Int := if nPrompt - i < batch then nPrompt - i else batch

/-- What a step asks for. -/
def notes (s : State) (log : List Call) : Event → List Call
  | .decoded ok => match s.pc with
    | .decodingPrompt nPrompt i =>
      [.prompt (tokensHeld log) i (batchAt nPrompt i) ok]
    | .decoding _ _ => [.answer (tokensHeld log) ok]
    | _ => []
  | .sampled _ => [.sample]
  | .storeProgress p => [.progress p]
  | _ => []

/-- The `int`s a step computes. -/
def computed (s : State) (e : Event) : List Int :=
  match s.pc, e with
  | .tokenising, .tokenised (some nPrompt) => [nPrompt + s.maxTokens]
  | .decodingPrompt nPrompt i, .decoded _ => [nPrompt - i]
  | .storingRead nPrompt i n, .storeProgress _ =>
    [i + n, 25 * (i + n), 5 + (25 * (i + n)).tdiv nPrompt, i + batch]
  | .storingWritten produced _, .storeProgress _ =>
    [produced + 1, 70 * (produced + 1), 30 + (70 * (produced + 1)).tdiv s.maxTokens]
  | .decoding produced _, .decoded _ => [produced + 1]
  | _, _ => []

/-- Nobody cancels, there is a session, its allocations succeed and the prompt has `nPrompt`
tokens. -/
def Undisturbed (nPrompt : Int) : Event → Prop
  | .session found => found = true
  | .tokenised n => n = some nPrompt
  | .sampled t => t ≠ .noMemory
  | .cancel => False
  | _ => True

def upTo (n : Int) : List Int := (List.range n.toNat).map fun k : ℕ => (k : Int)

theorem upTo_add {a b : Int} (ha : 0 ≤ a) (hb : 0 ≤ b) :
    (upTo a ++ (List.range b.toNat).map fun k : ℕ => a + k) = upTo (a + b) := by
  rw [upTo, upTo, Int.toNat_add ha hb, List.range_add, List.map_append, List.map_map]
  congr 1
  apply List.map_congr_left
  intro k _
  simp [Int.toNat_of_nonneg ha]

theorem forall_mem_concat {α : Type} {p : α → Prop} {l : List α} {a : α} :
    (∀ b ∈ l ++ [a], p b) ↔ (∀ b ∈ l, p b) ∧ p a := by
  rw [List.forall_mem_append, List.forall_mem_singleton]

@[simp] theorem tokensRead_concat (log : List Call) (c : Call) :
    tokensRead (log ++ [c]) = tokensRead log ++ c.read := by simp [tokensRead]

@[simp] theorem tokensHeld_concat (log : List Call) (c : Call) :
    tokensHeld (log ++ [c]) = tokensHeld log + c.held := by simp [tokensHeld]

@[simp] theorem figures_concat (log : List Call) (c : Call) :
    figures (log ++ [c]) = figures log ++ c.figure.toList := by
  rw [figures, List.filterMap_append]
  cases c <;> rfl

/-- The first part of a call: `n` tokens of the prompt are read, each once and in order, and
nothing is sampled. -/
structure Reads (n : Int) (log : List Call) : Prop where
  read : tokensRead log = upTo n
  unsampled : .sample ∉ log
  early : ∀ p ∈ figures log, p ≤ 30

/-- The second part, behind a prompt read to its end: no token of the prompt is read any more. -/
def Writes (nPrompt : Int) (log : List Call) : Prop :=
  ∃ a b, log = a ++ b ∧ Reads nPrompt a ∧ ∀ c ∈ b, c.isPrompt = false

/-- Every token is put inside the context, and a batch has at most 128 of them. -/
def Call.Inside (nCtx : Int) : Call → Prop
  | .prompt position _ n _ => 0 ≤ position ∧ 1 ≤ n ∧ n ≤ 128 ∧ position + n ≤ nCtx
  | .answer position _ => 0 ≤ position ∧ position + 1 ≤ nCtx
  | _ => True

/-- How a call that is not disturbed comes to its end: the prompt was refused, reading it failed,
or it was read and the bar is full. -/
inductive Ends (nPrompt : Int) (s : State) (log : List Call) : End → Prop
  | refused : s.nCtx < nPrompt + s.maxTokens → log = [.progress 0] → Ends nPrompt s log .failed
  | unread {position first n : Int} : .prompt position first n false ∈ log →
      (∃ i < nPrompt, Reads i log) → Ends nPrompt s log .failed
  | read {text : Bytes} : Writes nPrompt log → (figures log).getLast? = some 100 →
      Ends nPrompt s log (.answered text)

/-- What holds of the calls made so far, wherever the run that began in `start` stands. -/
structure Within (nPrompt : Int) (start s : State) (log : List Call) : Prop where
  inside : ∀ c ∈ log, c.Inside start.nCtx
  phases : (∃ i, i ≤ nPrompt ∧ Reads i log) ∨ Writes nPrompt log
  samples : (log.count .sample : Int) ≤ start.maxTokens
  rising : (figures log).Pairwise (· ≤ ·)
  percent : ∀ p ∈ figures log, 0 ≤ p ∧ p ≤ 100
  ends : ∀ r, s.pc = .returned r → Ends nPrompt start log r
  fits : ∀ e, Undisturbed nPrompt e → ∀ v ∈ computed s e, -2 ^ 31 ≤ v ∧ v < 2 ^ 31

/-- The calls so far are sound, and the bar stands at the last figure. -/
structure Told (nCtx bar : Int) (log : List Call) : Prop where
  inside : ∀ c ∈ log, c.Inside nCtx
  rising : (figures log).Pairwise (· ≤ ·)
  percent : ∀ p ∈ figures log, 0 ≤ p ∧ p ≤ bar ∧ p ≤ 100

theorem Told.call {nCtx bar : Int} {log : List Call} {c : Call} (h : Told nCtx bar log)
    (hc : c.Inside nCtx) (hf : c.figure = none) : Told nCtx bar (log ++ [c]) where
  inside := forall_mem_concat.mpr ⟨h.inside, hc⟩
  rising := by simpa [hf] using h.rising
  percent p hp := h.percent p (by simpa [hf] using hp)

theorem Told.store {nCtx bar p : Int} {log : List Call} (h : Told nCtx bar log) (h0 : 0 ≤ p)
    (h100 : p ≤ 100) (hbar : ∀ q ∈ figures log, q ≤ p) :
    Told nCtx p (log ++ [.progress p]) where
  inside := forall_mem_concat.mpr ⟨h.inside, trivial⟩
  rising := by
    rw [figures_concat, List.pairwise_append]
    refine ⟨h.rising, List.pairwise_singleton _ _, fun q hq r hr => ?_⟩
    obtain rfl : r = p := List.mem_singleton.mp hr
    exact hbar q hq
  percent := by
    rw [figures_concat]
    refine forall_mem_concat.mpr ⟨fun q hq => ?_, h0, Int.le_refl p, h100⟩
    exact ⟨(h.percent q hq).1, hbar q hq, Int.le_trans (hbar q hq) h100⟩

/-- Reading the batch at `i`, with `j` tokens in the memory. -/
structure Reading (nPrompt : Int) (s : State) (log : List Call) (i j : Int) : Prop where
  start : 0 ≤ i
  more : i < nPrompt
  room : nPrompt + s.maxTokens ≤ s.nCtx
  held : tokensHeld log = j
  reads : Reads j log
  bar : s.progress ≤ 5 + (25 * i).tdiv nPrompt

/-- Writing token `produced`, with `k` tokens sampled. -/
structure Writing (nPrompt : Int) (s : State) (log : List Call) (produced k bar : Int) :
    Prop where
  start : 0 ≤ produced
  more : produced < s.maxTokens
  room : nPrompt + s.maxTokens ≤ s.nCtx
  held : tokensHeld log = nPrompt + produced
  writes : Writes nPrompt log
  samples : (log.count .sample : Int) = k
  bar : s.progress ≤ 30 + (70 * bar).tdiv s.maxTokens

structure Finished (nPrompt : Int) (s : State) (log : List Call) : Prop where
  writes : Writes nPrompt log
  samples : (log.count .sample : Int) ≤ s.maxTokens

def Tells (nPrompt : Int) (s : State) (log : List Call) : Pc → Prop
  | .entered | .clearingProgress => log = []
  | .refused => False
  | .clearingAbort | .tokenising => log = [.progress 0] ∧ s.progress = 0
  | .reading n i | .decodingPrompt n i => n = nPrompt ∧ Reading nPrompt s log i i
  | .storingRead n i k =>
    n = nPrompt ∧ k = batchAt nPrompt i ∧ Reading nPrompt s log i (i + k)
  | .writing produced _ | .sampling produced _ =>
    Writing nPrompt s log produced produced produced
  | .storingWritten produced _ => Writing nPrompt s log produced (produced + 1) produced
  | .decoding produced _ => Writing nPrompt s log produced (produced + 1) (produced + 1)
  | .storingDone _ => Finished nPrompt s log
  | .returned r => Ends nPrompt s log r ∧
      ((.sample ∉ log ∧ ∃ i ≤ nPrompt, Reads i log) ∨ Finished nPrompt s log)

structure Inv (nPrompt : Int) (start s : State) (log : List Call) : Prop where
  nCtx : s.nCtx = start.nCtx
  maxTokens : s.maxTokens = start.maxTokens
  calm : before s = false → s.abort = false
  told : Told start.nCtx s.progress log
  tells : Tells nPrompt s log s.pc

section Steps
variable {nPrompt : Int} {start s : State} {log : List Call}

theorem reads_start : Reads 0 [.progress 0] where
  read := rfl
  unsampled := by simp
  early := by simp [figures, Call.figure]

/-- A batch read whole, at its place. -/
theorem Reads.batch {i n position : Int} (h : Reads i log) (hi : 0 ≤ i) (hn : 0 ≤ n) :
    Reads (i + n) (log ++ [.prompt position i n true]) where
  read := by rw [tokensRead_concat, h.read, Call.read, upTo_add hi hn]
  unsampled := by simp [h.unsampled]
  early := by simpa [Call.figure] using h.early

theorem Reads.store {i p : Int} (h : Reads i log) (hp : p ≤ 30) :
    Reads i (log ++ [.progress p]) where
  read := by simp [h.read, Call.read]
  unsampled := by simp [h.unsampled]
  early := by
    rw [figures_concat]
    exact forall_mem_concat.mpr ⟨h.early, hp⟩

theorem Writes.call {c : Call} (h : Writes nPrompt log) (hc : c.isPrompt = false) :
    Writes nPrompt (log ++ [c]) := by
  obtain ⟨a, b, rfl, ha, hb⟩ := h
  exact ⟨a, b ++ [c], List.append_assoc a b [c], ha, forall_mem_concat.mpr ⟨hb, hc⟩⟩

theorem Reads.writes (h : Reads nPrompt log) : Writes nPrompt log :=
  ⟨log, [], (List.append_nil log).symm, h, by simp⟩

theorem Moves.sizes {s' : State} {e : Event} (hm : Moves s e s') :
    s'.nCtx = s.nCtx ∧ s'.maxTokens = s.maxTokens := by
  cases hm with
  | @tokenised n =>
    unfold afterTokenising
    split
    · exact ⟨rfl, rfl⟩
    · split <;> exact ⟨rfl, rfl⟩
  | @sampled _ _ t => cases t <;> exact ⟨rfl, rfl⟩
  | _ => exact ⟨rfl, rfl⟩

/-- A figure `from + width * j / n` for `j` of `n`: inside its part of the bar, and not below the
figure for `i` of `n`. -/
theorem part_figure {width start i j n bar : Int} (hw : 0 ≤ width) (hstart : 0 ≤ start)
    (hi : 0 ≤ i) (hij : i ≤ j) (hjn : j ≤ n) (hn : 0 < n)
    (hbar : bar ≤ start + (width * i).tdiv n) :
    0 ≤ start + (width * j).tdiv n ∧ bar ≤ start + (width * j).tdiv n ∧
      start + (width * j).tdiv n ≤ start + width := by
  have h0 : 0 ≤ (width * j).tdiv n :=
    Int.tdiv_nonneg (Int.mul_nonneg hw (Int.le_trans hi hij)) (Int.le_of_lt hn)
  have hmono : (width * i).tdiv n ≤ (width * j).tdiv n :=
    Int.tdiv_le_tdiv hn (Int.mul_le_mul_of_nonneg_left hij hw)
  have hwhole : (width * j).tdiv n ≤ width := by
    have h := Int.tdiv_le_tdiv hn (Int.mul_le_mul_of_nonneg_left hjn hw)
    rwa [Int.mul_tdiv_cancel width (by omega)] at h
  omega

/-- A batch is not empty, and ends inside the prompt. -/
theorem batchAt_spec {i : Int} (hi : i < nPrompt) :
    1 ≤ batchAt nPrompt i ∧ batchAt nPrompt i ≤ 128 ∧ i + batchAt nPrompt i ≤ nPrompt := by
  unfold batchAt batch
  split <;> omega

theorem afterTokenising_progress (s : State) (n : Int) :
    (afterTokenising s n).progress = s.progress := by
  unfold afterTokenising
  split
  · rfl
  · split <;> rfl

theorem afterSampling_progress (s : State) (produced : Int) (out : Bytes) (t : Sampled) :
    (afterSampling s produced out t).progress = s.progress := by
  cases t <;> rfl

/-- The figure stored behind a batch: not below the last one, and at most 30. -/
theorem Reading.figure {i : Int} (h : Reading nPrompt s log i (i + batchAt nPrompt i)) :
    0 ≤ 5 + (25 * (i + batchAt nPrompt i)).tdiv nPrompt ∧
      s.progress ≤ 5 + (25 * (i + batchAt nPrompt i)).tdiv nPrompt ∧
      5 + (25 * (i + batchAt nPrompt i)).tdiv nPrompt ≤ 30 := by
  have hstart := h.start
  have hmore := h.more
  obtain ⟨hone, -, hend⟩ := batchAt_spec hmore
  exact part_figure (by decide) (by decide) hstart (by omega) hend (by omega) h.bar

theorem Writing.figure {produced k : Int} (h : Writing nPrompt s log produced k produced) :
    0 ≤ 30 + (70 * (produced + 1)).tdiv s.maxTokens ∧
      s.progress ≤ 30 + (70 * (produced + 1)).tdiv s.maxTokens ∧
      30 + (70 * (produced + 1)).tdiv s.maxTokens ≤ 100 := by
  have hstart := h.start
  have hmore := h.more
  exact part_figure (by decide) (by decide) hstart (by omega) (by omega) (by omega) h.bar

theorem Told.progress_le {nCtx bar p : Int} (h : Told nCtx bar log) (hp : bar ≤ p) :
    ∀ q ∈ figures log, q ≤ p := fun q hq => Int.le_trans (h.percent q hq).2.1 hp

/-- Every token fits, and every figure stored is between the one before it and 100. -/
theorem Moves.told {s' : State} {e : Event} (hm : Moves s e s') (hN : 1 ≤ nPrompt)
    (hM : 1 ≤ s.maxTokens) (hC : s.nCtx = start.nCtx) (ht : Told start.nCtx s.progress log)
    (h : Tells nPrompt s log s.pc) : Told start.nCtx s'.progress (log ++ notes s log e) := by
  cases hm with
  | entered | clearedAbort | noTokens | testedReading | testedWriting => simpa [notes] using ht
  | clearedProgress hpc =>
    obtain rfl : log = [] := by simpa [hpc, Tells] using h
    exact ht.store (p := 0) (by decide) (by decide) (by simp [figures])
  | tokenised hpc => simpa [notes, afterTokenising_progress] using ht
  | decodedPrompt hpc | readingFailed hpc =>
    simp only [hpc, Tells] at h
    obtain ⟨rfl, h⟩ := h
    obtain ⟨hone, hsmall, hend⟩ := batchAt_spec h.more
    have hroom := h.room
    simp only [notes, hpc, h.held]
    exact ht.call ⟨h.start, hone, hsmall, by omega⟩ rfl
  | storedRead hpc =>
    simp only [hpc, Tells] at h
    obtain ⟨rfl, rfl, h⟩ := h
    obtain ⟨h0, hbar, hle⟩ := h.figure
    exact ht.store h0 (Int.le_trans hle (by decide)) (ht.progress_le hbar)
  | sampled hpc =>
    simp only [notes, afterSampling_progress]
    exact ht.call trivial rfl
  | storedWritten hpc =>
    simp only [hpc, Tells] at h
    obtain ⟨h0, hbar, hle⟩ := h.figure
    exact ht.store h0 hle (ht.progress_le hbar)
  | decoded hpc | writingStopped hpc =>
    simp only [hpc, Tells] at h
    have hstart := h.start
    have hmore := h.more
    have hroom := h.room
    simp only [notes, hpc, h.held]
    exact ht.call ⟨by omega, by omega⟩ rfl
  | answered hpc =>
    exact ht.store (p := 100) (by decide) (by decide) fun q hq => (ht.percent q hq).2.2

/-- The figure stored behind the batch at `i`. -/
def readFigure (nPrompt i : Int) : Int := 5 + (25 * (i + batchAt nPrompt i)).tdiv nPrompt

theorem Reading.stored {i : Int} (h : Reading nPrompt s log i (i + batchAt nPrompt i)) :
    tokensHeld (log ++ [.progress (readFigure nPrompt i)]) = i + batchAt nPrompt i ∧
      Reads (i + batchAt nPrompt i) (log ++ [.progress (readFigure nPrompt i)]) := by
  exact ⟨by simp [h.held, Call.held], h.reads.store h.figure.2.2⟩

theorem Reading.next {i : Int} {s' : State}
    (h : Reading nPrompt s log i (i + batchAt nPrompt i)) (hnext : i + batch < nPrompt)
    (hC : s'.nCtx = s.nCtx) (hM : s'.maxTokens = s.maxTokens)
    (hp : s'.progress = readFigure nPrompt i) :
    Reading nPrompt s' (log ++ [.progress (readFigure nPrompt i)]) (i + batch) (i + batch) := by
  have hfull : batchAt nPrompt i = batch := if_neg (by omega)
  obtain ⟨hheld, hreads⟩ := h.stored
  rw [hfull] at hheld hreads
  have hstart := h.start
  refine ⟨?_, hnext, ?_, hheld, hreads, ?_⟩
  · exact Int.add_nonneg hstart (by decide)
  · rw [hC, hM]
    exact h.room
  · refine Int.le_of_eq ?_
    rw [hp, readFigure, hfull]

/-- Behind the last batch the writing starts, with the whole prompt in the memory. -/
theorem Reading.last {i : Int} {s' : State}
    (h : Reading nPrompt s log i (i + batchAt nPrompt i)) (hlast : ¬ i + batch < nPrompt)
    (hs : 0 < s.maxTokens) (hC : s'.nCtx = s.nCtx) (hM : s'.maxTokens = s.maxTokens)
    (hp : s'.progress = readFigure nPrompt i) :
    Writing nPrompt s' (log ++ [.progress (readFigure nPrompt i)]) 0 0 0 := by
  have hmore := h.more
  have hwhole : i + batchAt nPrompt i = nPrompt := by
    unfold batchAt
    split <;> omega
  obtain ⟨hheld, hreads⟩ := h.stored
  rw [hwhole] at hheld hreads
  refine ⟨Int.le_refl 0, hM ▸ hs, ?_, ?_, hreads.writes, ?_, ?_⟩
  · rw [hC, hM]
    exact h.room
  · rw [hheld, Int.add_zero]
  · rw [List.count_eq_zero.mpr hreads.unsampled]
    rfl
  · have hle : readFigure nPrompt i ≤ 30 := h.figure.2.2
    rw [hp, Int.mul_zero, Int.zero_tdiv]
    exact hle

theorem Reading.decoded {i : Int} (h : Reading nPrompt s log i i) {s' : State}
    (hC : s'.nCtx = s.nCtx) (hM : s'.maxTokens = s.maxTokens) (hp : s'.progress = s.progress) :
    Reading nPrompt s' (log ++ [.prompt (tokensHeld log) i (batchAt nPrompt i) true]) i
      (i + batchAt nPrompt i) := by
  obtain ⟨hone, -, -⟩ := batchAt_spec h.more
  refine ⟨h.start, h.more, ?_, ?_, h.reads.batch h.start (by omega), hp ▸ h.bar⟩
  · rw [hC, hM]
    exact h.room
  · simp [h.held, Call.held]

theorem Reading.failed {i : Int} (h : Reading nPrompt s log i i) {n : Int} :
    let log' := log ++ [.prompt (tokensHeld log) i n false]
    .sample ∉ log' ∧ Reads i log' := by
  refine ⟨by simp [h.reads.unsampled], ?_, by simp [h.reads.unsampled], ?_⟩
  · simp [h.reads.read, Call.read]
  · simpa [Call.figure] using h.reads.early

/-- A token of the answer: sampled, its figure stored, and fed back. -/
theorem Writing.sampled {produced : Int} (h : Writing nPrompt s log produced produced produced)
    {s' : State} (hC : s'.nCtx = s.nCtx) (hM : s'.maxTokens = s.maxTokens)
    (hp : s'.progress = s.progress) :
    Writing nPrompt s' (log ++ [.sample]) produced (produced + 1) produced where
  start := h.start
  more := hM ▸ h.more
  room := by rw [hC, hM]; exact h.room
  held := by simp [h.held, Call.held]
  writes := h.writes.call rfl
  samples := by simp [h.samples]
  bar := by rw [hp, hM]; exact h.bar

theorem Writing.stored {produced k : Int} (h : Writing nPrompt s log produced k produced)
    {s' : State} {p : Int} (hC : s'.nCtx = s.nCtx) (hM : s'.maxTokens = s.maxTokens)
    (hp : s'.progress = 30 + (70 * (produced + 1)).tdiv s.maxTokens) :
    Writing nPrompt s' (log ++ [.progress p]) produced k (produced + 1) where
  start := h.start
  more := hM ▸ h.more
  room := by rw [hC, hM]; exact h.room
  held := by simp [h.held, Call.held]
  writes := h.writes.call rfl
  samples := by simp [h.samples]
  bar := Int.le_of_eq (by rw [hp, hM])

theorem Writing.decoded {produced : Int} (h : Writing nPrompt s log produced (produced + 1)
    (produced + 1)) {s' : State} (hmore : produced + 1 < s.maxTokens)
    (hC : s'.nCtx = s.nCtx) (hM : s'.maxTokens = s.maxTokens) (hp : s'.progress = s.progress) :
    Writing nPrompt s' (log ++ [.answer (tokensHeld log) true]) (produced + 1) (produced + 1)
      (produced + 1) where
  start := by have hstart := h.start; omega
  more := hM ▸ hmore
  room := by rw [hC, hM]; exact h.room
  held := by simp [h.held, Call.held, Int.add_assoc]
  writes := h.writes.call rfl
  samples := by simp [h.samples]
  bar := by rw [hp, hM]; exact h.bar

theorem Writing.finished {produced k bar : Int} (h : Writing nPrompt s log produced k bar)
    (hk : k ≤ s.maxTokens) : Finished nPrompt s log := ⟨h.writes, by rw [h.samples]; exact hk⟩

theorem Finished.call {c : Call} (h : Finished nPrompt s log) (hc : c.isPrompt = false)
    (hs : c ≠ .sample) {s' : State} (hM : s'.maxTokens = s.maxTokens) :
    Finished nPrompt s' (log ++ [c]) where
  writes := h.writes.call hc
  samples := by
    rw [List.count_append, List.count_singleton, if_neg (by simpa using hs), hM]
    exact h.samples

/-- Where a step leads, what is known of that place holds. -/
theorem Moves.tells {s' : State} {e : Event} (hm : Moves s e s') (hu : Undisturbed nPrompt e)
    (hN : 1 ≤ nPrompt) (hM : 1 ≤ s.maxTokens) (hcalm : before s = false → s.abort = false)
    (h : Tells nPrompt s log s.pc) : Tells nPrompt s' (log ++ notes s log e) s'.pc := by
  cases hm with
  | @entered found hpc =>
    obtain rfl : found = true := hu
    simpa [hpc, Tells, notes] using h
  | clearedProgress hpc =>
    obtain rfl : log = [] := by simpa [hpc, Tells] using h
    exact ⟨rfl, rfl⟩
  | clearedAbort hpc => simpa [hpc, Tells, notes] using h
  | noTokens => exact absurd hu (by simp [Undisturbed])
  | @tokenised n hpc =>
    obtain rfl : n = nPrompt := by simpa [Undisturbed] using hu
    obtain ⟨rfl, hbar⟩ : log = [.progress 0] ∧ s.progress = 0 := by simpa [hpc, Tells] using h
    rw [afterTokenising, if_neg (by omega)]
    split
    · rename_i hroom
      exact ⟨.refused hroom rfl, .inl ⟨by simp [notes], 0, by omega, reads_start⟩⟩
    · rename_i hroom
      simp only [readingOrWriting, if_pos (show 0 < n from hN), Tells]
      exact ⟨trivial, Int.le_refl 0, hN, Int.not_lt.mp hroom, rfl, reads_start, by simp [hbar]⟩
  | testedReading hpc =>
    have ha : s.abort = false := hcalm (by simp [before, hpc, Pc.before])
    simp only [hpc, Tells] at h
    obtain ⟨rfl, h⟩ := h
    simp only [ha, notes, List.append_nil]
    exact ⟨rfl, ⟨h.start, h.more, h.room, h.held, h.reads, h.bar⟩⟩
  | decodedPrompt hpc =>
    simp only [hpc, Tells] at h
    obtain ⟨rfl, h⟩ := h
    simp only [notes, hpc]
    exact ⟨rfl, rfl, h.decoded rfl rfl rfl⟩
  | readingFailed hpc =>
    simp only [hpc, Tells] at h
    obtain ⟨rfl, h⟩ := h
    obtain ⟨hs, hreads⟩ := h.failed
    simp only [notes, hpc]
    exact ⟨.unread (List.mem_append_right _ (List.mem_singleton.mpr rfl)) ⟨_, h.more, hreads⟩,
      .inl ⟨hs, _, Int.le_of_lt h.more, hreads⟩⟩
  | storedRead hpc =>
    simp only [hpc, Tells] at h
    obtain ⟨rfl, rfl, h⟩ := h
    simp only [readingOrWriting]
    split
    · rename_i hnext
      exact ⟨rfl, h.next hnext rfl rfl rfl⟩
    · rename_i hlast
      rw [if_pos (show 0 < s.maxTokens from hM)]
      exact h.last hlast hM rfl rfl rfl
  | testedWriting hpc =>
    have ha : s.abort = false := hcalm (by simp [before, hpc, Pc.before])
    simp only [hpc, Tells] at h
    simp only [ha, notes, List.append_nil]
    exact ⟨h.start, h.more, h.room, h.held, h.writes, h.samples, h.bar⟩
  | @sampled produced out t hpc =>
    simp only [hpc, Tells] at h
    have hmore := h.more
    cases t with
    | endOfGeneration =>
      have hw : Writing nPrompt { s with pc := .storingDone out } (log ++ [.sample]) produced
          (produced + 1) produced := h.sampled rfl rfl rfl
      exact hw.finished hmore
    | piece bytes => exact h.sampled rfl rfl rfl
    | noMemory => exact absurd rfl hu
  | storedWritten hpc =>
    simp only [hpc, Tells] at h
    exact h.stored rfl rfl rfl
  | decoded hpc =>
    simp only [hpc, Tells] at h
    simp only [notes, hpc, writingOrDone]
    split
    · rename_i hmore
      exact h.decoded hmore rfl rfl rfl
    · exact (h.finished h.more).call rfl (by simp) rfl
  | writingStopped hpc =>
    simp only [hpc, Tells] at h
    simp only [notes, hpc]
    exact (h.finished h.more).call rfl (by simp) rfl
  | answered hpc =>
    simp only [hpc, Tells] at h
    refine ⟨.read (h.writes.call rfl) ?_, .inr (h.call rfl (by simp) rfl)⟩
    show (figures (log ++ [.progress 100])).getLast? = some 100
    simp [Call.figure]

theorem Inv.next {s' : State} {e : Event} (hN : 1 ≤ nPrompt) (hM : 1 ≤ start.maxTokens)
    (hi : Inv nPrompt start s log) (hu : Undisturbed nPrompt e) (he : step s e = some s') :
    Inv nPrompt start s' (log ++ notes s log e) := by
  have hm := moves_of_step (by rintro rfl; exact hu) he
  have hMs : 1 ≤ s.maxTokens := hi.maxTokens ▸ hM
  refine ⟨hm.sizes.1.trans hi.nCtx, hm.sizes.2.trans hi.maxTokens, fun hb => ?_,
    hm.told hN hMs hi.nCtx hi.told hi.tells, hm.tells hu hN hMs hi.calm hi.tells⟩
  cases hbs : before s with
  | true =>
    rcases hm.early hbs with ⟨-, ha, -⟩ | ⟨-, -, hb'⟩
    · exact ha
    · rw [hb] at hb'
      cases hb'
  | false => rw [(hm.past hbs).2.1, hi.calm hbs]

theorem inv_entered (hpc : s.pc = .entered) : Inv nPrompt s s [] where
  nCtx := rfl
  maxTokens := rfl
  calm hb := by simp [before, hpc, Pc.before] at hb
  told := ⟨by simp, by simp [figures], by simp [figures]⟩
  tells := by simp [hpc, Tells]

theorem Inv.run {s' : State} {es : List Event} (hN : 1 ≤ nPrompt) (hM : 1 ≤ s.maxTokens)
    (hpc : s.pc = .entered) (h : Steps step s es s') (hes : ∀ e ∈ es, Undisturbed nPrompt e) :
    Inv nPrompt s s' (record notes step s [] es) := by
  have hnext : ∀ t log e t', Inv nPrompt s t log → Undisturbed nPrompt e →
      step t e = some t' → Inv nPrompt s t' (log ++ notes t log e) :=
    fun t log e t' hi hu he => hi.next hN hM hu he
  exact record_invariant hnext h hes (inv_entered hpc)

/-- No sum or product overflows, with lengths up to 2^24. -/
theorem Inv.fits (hi : Inv nPrompt start s log) (hN : 1 ≤ nPrompt) (hN' : nPrompt ≤ 2 ^ 24)
    (hM : 1 ≤ start.maxTokens) (hM' : start.maxTokens ≤ 2 ^ 24) {e : Event}
    (hu : Undisturbed nPrompt e) : ∀ v ∈ computed s e, -2 ^ 31 ≤ v ∧ v < 2 ^ 31 := by
  have hMs := hi.maxTokens
  have ht := hi.tells
  unfold computed
  split
  · rename_i n hpc
    obtain rfl : n = nPrompt := by simpa [Undisturbed] using hu
    simp only [List.mem_singleton, forall_eq]
    omega
  · rename_i n i ok hpc
    simp only [hpc, Tells] at ht
    obtain ⟨rfl, h⟩ := ht
    have hstart := h.start
    have hmore := h.more
    simp only [List.mem_singleton, forall_eq]
    omega
  · rename_i n i k p hpc
    simp only [hpc, Tells] at ht
    obtain ⟨rfl, rfl, h⟩ := ht
    have hstart := h.start
    have hmore := h.more
    obtain ⟨hone, hsmall, hend⟩ := batchAt_spec hmore
    obtain ⟨h0, -, hle⟩ := h.figure
    simp only [List.mem_cons, List.not_mem_nil, or_false, forall_eq_or_imp, forall_eq, batch]
    omega
  · rename_i produced out p hpc
    simp only [hpc, Tells] at ht
    have hstart := ht.start
    have hmore := ht.more
    obtain ⟨h0, -, hle⟩ := ht.figure
    simp only [List.mem_cons, List.not_mem_nil, or_false, forall_eq_or_imp, forall_eq]
    omega
  · rename_i produced out ok hpc
    simp only [hpc, Tells] at ht
    have hstart := ht.start
    have hmore := ht.more
    simp only [List.mem_singleton, forall_eq]
    omega
  · simp

theorem Reading.unsampled {i j : Int} (h : Reading nPrompt s log i j) (hj : j ≤ nPrompt) :
    .sample ∉ log ∧ ∃ i ≤ nPrompt, Reads i log := ⟨h.reads.unsampled, j, hj, h.reads⟩

/-- Wherever the run stands, it is reading the prompt or behind it. -/
theorem Inv.phases (hi : Inv nPrompt start s log) (hN : 1 ≤ nPrompt) :
    (.sample ∉ log ∧ ∃ i ≤ nPrompt, Reads i log) ∨ Finished nPrompt s log := by
  have ht := hi.tells
  unfold Tells at ht
  split at ht
  · exact .inl ⟨by simp [ht], 0, by omega, ht ▸ ⟨rfl, by simp, by simp [figures]⟩⟩
  · exact .inl ⟨by simp [ht], 0, by omega, ht ▸ ⟨rfl, by simp, by simp [figures]⟩⟩
  · exact ht.elim
  · exact .inl ⟨by simp [ht.1], 0, by omega, ht.1 ▸ reads_start⟩
  · exact .inl ⟨by simp [ht.1], 0, by omega, ht.1 ▸ reads_start⟩
  · exact .inl (ht.2.unsampled (Int.le_of_lt ht.2.more))
  · exact .inl (ht.2.unsampled (Int.le_of_lt ht.2.more))
  · obtain ⟨rfl, rfl, h⟩ := ht
    exact .inl (h.unsampled (batchAt_spec h.more).2.2)
  · exact .inr (ht.finished (Int.le_of_lt ht.more))
  · exact .inr (ht.finished (Int.le_of_lt ht.more))
  · exact .inr (ht.finished ht.more)
  · exact .inr (ht.finished ht.more)
  · exact .inr ht
  · exact ht.2

theorem Inv.within (hi : Inv nPrompt start s log) (hN : 1 ≤ nPrompt) (hN' : nPrompt ≤ 2 ^ 24)
    (hM : 1 ≤ start.maxTokens) (hM' : start.maxTokens ≤ 2 ^ 24) :
    Within nPrompt start s log where
  inside := hi.told.inside
  phases := (hi.phases hN).imp (fun h => h.2) fun h => h.writes
  samples := by
    rcases hi.phases hN with ⟨hs, -⟩ | h
    · rw [List.count_eq_zero.mpr hs]
      exact Int.le_trans (by decide) hM
    · exact hi.maxTokens ▸ h.samples
  rising := hi.told.rising
  percent p hp := ⟨(hi.told.percent p hp).1, (hi.told.percent p hp).2.2⟩
  ends r hr := by
    have ht := hi.tells
    simp only [hr, Tells] at ht
    cases ht.1 with
    | refused hroom hlog => exact .refused (by rw [← hi.nCtx, ← hi.maxTokens]; exact hroom) hlog
    | unread hmem hread => exact .unread hmem hread
    | read hw hlast => exact .read hw hlast
  fits _ hu := hi.fits hN hN' hM hM' hu

/-- How much there is left to do, at the most. -/
def left (nPrompt : Int) (s : State) : Nat :=
  (match s.pc with
  | .entered => 4 * s.maxTokens + 3 * nPrompt + 5
  | .clearingProgress => 4 * s.maxTokens + 3 * nPrompt + 4
  | .clearingAbort => 4 * s.maxTokens + 3 * nPrompt + 3
  | .tokenising => 4 * s.maxTokens + 3 * nPrompt + 2
  | .reading _ i => 4 * s.maxTokens + 3 * (nPrompt - i) + 1
  | .decodingPrompt _ i => 4 * s.maxTokens + 3 * (nPrompt - i)
  | .storingRead _ i _ => 4 * s.maxTokens + 3 * (nPrompt - i) - 1
  | .writing produced _ => 4 * (s.maxTokens - produced) + 1
  | .sampling produced _ => 4 * (s.maxTokens - produced)
  | .storingWritten produced _ => 4 * (s.maxTokens - produced) - 1
  | .decoding produced _ => 4 * (s.maxTokens - produced) - 2
  | .storingDone _ => 1
  | .returned _ | .refused => 0 : Int).toNat

theorem Moves.left_lt {s' : State} {e : Event} (hm : Moves s e s') (hN : 1 ≤ nPrompt)
    (hM : 1 ≤ s.maxTokens) (hu : Undisturbed nPrompt e) (h : Tells nPrompt s log s.pc) :
    left nPrompt s' < left nPrompt s := by
  cases hm with
  | @entered found hpc =>
    obtain rfl : found = true := hu
    simp only [left, hpc, if_true]
    omega
  | clearedProgress hpc | clearedAbort hpc =>
    simp only [left, hpc]
    omega
  | noTokens => exact absurd hu (by simp [Undisturbed])
  | @tokenised n hpc =>
    obtain rfl : n = nPrompt := by simpa [Undisturbed] using hu
    rw [afterTokenising, if_neg (by omega)]
    split
    · simp only [left, hpc]
      omega
    · simp only [left, hpc, readingOrWriting, if_pos (show 0 < n from hN)]
      omega
  | testedReading hpc | decodedPrompt hpc | readingFailed hpc =>
    simp only [hpc, Tells] at h
    have hmore := h.2.more
    cases s.abort <;> simp only [left, hpc] <;> simp <;> omega
  | @storedRead n i k hpc =>
    simp only [hpc, Tells] at h
    have hmore := h.2.2.more
    have hbatch : batch = 128 := rfl
    by_cases hnext : i + batch < n
    · simp only [left, hpc, readingOrWriting, if_pos hnext]
      omega
    · simp only [left, hpc, readingOrWriting, if_neg hnext,
        if_pos (show 0 < s.maxTokens from hM)]
      omega
  | testedWriting hpc =>
    simp only [hpc, Tells] at h
    have hmore := h.more
    cases s.abort <;> simp only [left, hpc] <;> simp <;> omega
  | @sampled produced out t hpc =>
    simp only [hpc, Tells] at h
    have hmore := h.more
    cases t <;> simp only [left, hpc, afterSampling] <;> omega
  | storedWritten hpc | writingStopped hpc =>
    simp only [hpc, Tells] at h
    have hmore := h.more
    simp only [left, hpc]
    omega
  | @decoded produced out hpc =>
    simp only [hpc, Tells] at h
    have hmore := h.more
    by_cases hnext : produced + 1 < s.maxTokens
    · simp only [left, hpc, writingOrDone, if_pos hnext]
      omega
    · simp only [left, hpc, writingOrDone, if_neg hnext]
      omega
  | answered hpc =>
    simp only [left, hpc]
    decide

theorem Inv.unstuck (hi : Inv nPrompt start s log) (hend : ¬ ∃ r, s.pc = .returned r) :
    ∃ s', Move step (fun _ e => Undisturbed nPrompt e) s s' := by
  have ht := hi.tells
  have hnext : ∃ e s', Undisturbed nPrompt e ∧ stepPc s s.pc e = some s' := by
    cases hpc : s.pc with
    | entered => exact ⟨.session true, _, rfl, rfl⟩
    | refused => simp [hpc, Tells] at ht
    | clearingProgress => exact ⟨.storeProgress 0, _, trivial, rfl⟩
    | clearingAbort => exact ⟨.storeAbort, _, trivial, rfl⟩
    | tokenising => exact ⟨.tokenised (some nPrompt), _, rfl, rfl⟩
    | reading n i | writing produced out => exact ⟨.loadAbort s.abort, _, trivial, if_pos rfl⟩
    | decodingPrompt n i | decoding produced out => exact ⟨.decoded true, _, trivial, rfl⟩
    | storingRead n i k | storingWritten produced out =>
      exact ⟨.storeProgress _, _, trivial, if_pos rfl⟩
    | sampling produced out => exact ⟨.sampled .endOfGeneration, _, nofun, rfl⟩
    | storingDone out => exact ⟨.storeProgress 100, _, trivial, rfl⟩
    | returned r => exact absurd ⟨r, hpc⟩ hend
  obtain ⟨e, s', hu, he⟩ := hnext
  have hne : step s e = stepPc s s.pc e := by cases e <;> first | rfl | exact hu.elim
  exact ⟨s', e, hu, hne.trans he⟩

/-- A call that nobody disturbs comes to its end, whatever the model does. -/
theorem returns (hN : 1 ≤ nPrompt) (hM : 1 ≤ s.maxTokens) (hpc : s.pc = .entered) :
    Inevitable step (fun _ e => Undisturbed nPrompt e) (fun t => ∃ r, t.pc = .returned r) s := by
  refine Inevitable.of_measure (I := fun t => ∃ log, Inv nPrompt s t log) (left nPrompt)
    (fun t ⟨log, hi⟩ hend => hi.unstuck hend) ?_ ⟨[], inv_entered hpc⟩
  rintro t t' ⟨log, hi⟩ - ⟨e, hu, he⟩
  have hm := moves_of_step (by rintro rfl; exact hu) he
  exact ⟨⟨_, hi.next hN hM hu he⟩, hm.left_lt hN (hi.maxTokens ▸ hM) hu hi.tells⟩

end Steps

/-- Whatever the model answers, a call that nobody disturbs stays inside the context and comes to
its end. -/
theorem generate_within {s : State} {nPrompt : Int} (hpc : s.pc = .entered)
    (hN : 1 ≤ nPrompt) (hN' : nPrompt ≤ 2 ^ 24) (hM : 1 ≤ s.maxTokens)
    (hM' : s.maxTokens ≤ 2 ^ 24) :
    (∀ es s', Steps step s es s' → (∀ e ∈ es, Undisturbed nPrompt e) →
      Within nPrompt s s' (record notes step s [] es)) ∧
    Inevitable step (fun _ e => Undisturbed nPrompt e) (fun t => ∃ r, t.pc = .returned r) s :=
  ⟨fun _ _ h hes => (Inv.run hN hM hpc h hes).within hN hN' hM hM', returns hN hM hpc⟩

def asked : State :=
  { nCtx := 4096, maxTokens := 2, progress := 40, abort := true, error := none, pc := .entered }

/-- A prompt of two batches and an answer of one token. -/
def greeted : List Event :=
  [.session true, .storeProgress 0, .storeAbort, .tokenised (some 130),
    .loadAbort false, .decoded true, .storeProgress 29,
    .loadAbort false, .decoded true, .storeProgress 30,
    .loadAbort false, .sampled (.piece [72, 105]), .storeProgress 65, .decoded true,
    .loadAbort false, .sampled .endOfGeneration, .storeProgress 100]

theorem generate_within_greeted :
    Within 130 asked
      { asked with progress := 100, abort := false, pc := .returned (.answered [72, 105]) }
      [.progress 0, .prompt 0 0 128 true, .progress 29, .prompt 128 128 2 true, .progress 30,
        .sample, .progress 65, .answer 130 true, .sample, .progress 100] ∧
      Inevitable step (fun _ e => Undisturbed 130 e) (fun t => ∃ r, t.pc = .returned r) asked := by
  have h := generate_within (show asked.pc = .entered from rfl) (show (1 : Int) ≤ 130 by decide)
    (by decide) (by decide) (by decide)
  exact ⟨h.1 greeted _ (steps_of_foldlM rfl) (by simp [greeted, Undisturbed]), h.2⟩

end ReadersSpeech.LlamaLib
