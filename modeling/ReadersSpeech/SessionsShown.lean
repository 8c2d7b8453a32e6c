import Mathlib.Data.Int.Order.Basic
import ReadersSpeech.LlamaRuns
import ReadersSpeech.Sessions

/-! What the bar shows of a `LlamaSession.run`: the figures `generate` stores only rise, so those
its poll thread reads in time do, and the thread does not outlive the call for long.
-/

set_option autoImplicit false

namespace ReadersSpeech.Sessions
open Transition Watching LlamaLib

/-- A length at which no `int` of a call overflows. -/
def Length (n : Int) : Prop := -2 ^ 24 ≤ n ∧ n ≤ 2 ^ 24

def Small : Watching.Event LlamaLib.Event Question → Prop
  | .run q => Length q.maxTokens
  | .write (.tokenised (some n)) => Length n
  | _ => True

/-- How far the bar may have come where a call stands. -/
def Bounded (s : LlamaLib.State) : LlamaLib.Pc → Prop
  | .clearingAbort | .tokenising => s.progress = 0
  | .reading n i | .decodingPrompt n i =>
    Length n ∧ 0 ≤ i ∧ i < n ∧ s.progress ≤ 5 + (25 * i).tdiv n
  | .storingRead n i k =>
    k = batchAt n i ∧ Length n ∧ 0 ≤ i ∧ i < n ∧ s.progress ≤ 5 + (25 * i).tdiv n
  | .writing produced _ | .sampling produced _ | .storingWritten produced _ =>
    0 ≤ produced ∧ produced < s.maxTokens ∧
      s.progress ≤ 30 + (70 * produced).tdiv s.maxTokens
  | .decoding produced _ =>
    0 ≤ produced ∧ produced < s.maxTokens ∧
      s.progress ≤ 30 + (70 * (produced + 1)).tdiv s.maxTokens
  | _ => True

/-- The figures a call has stored where it stands. -/
structure Filled (s : LlamaLib.State) (stored : List Int) : Prop where
  length : Length s.maxTokens
  unwritten : s.pc = .entered ∨ s.pc = .refused ∨ s.pc = .clearingProgress → stored = []
  percent : ∀ p ∈ stored, 0 ≤ p ∧ p ≤ s.progress ∧ p ≤ 100
  rising : stored.Pairwise (· ≤ ·)
  bounded : Bounded s s.pc

variable {s s' : LlamaLib.State} {stored : List Int}

/-- The figure behind a batch. -/
theorem read_figure {n i bar : Int} (hi : 0 ≤ i) (hin : i < n)
    (hbar : bar ≤ 5 + (25 * i).tdiv n) : 0 ≤ 5 + (25 * (i + batchAt n i)).tdiv n ∧
      bar ≤ 5 + (25 * (i + batchAt n i)).tdiv n ∧
      5 + (25 * (i + batchAt n i)).tdiv n ≤ 30 := by
  obtain ⟨hone, -, hend⟩ := batchAt_spec hin
  exact part_figure (by decide) (by decide) hi (by omega) hend (by omega) hbar

/-- The figure behind a token of the answer. -/
theorem written_figure {n i bar : Int} (hi : 0 ≤ i) (hin : i < n)
    (hbar : bar ≤ 30 + (70 * i).tdiv n) : 0 ≤ 30 + (70 * (i + 1)).tdiv n ∧
      bar ≤ 30 + (70 * (i + 1)).tdiv n ∧ 30 + (70 * (i + 1)).tdiv n ≤ 100 :=
  part_figure (by decide) (by decide) hi (by omega) (by omega) (by omega) hbar

/-- A step that stores no figure. -/
theorem Filled.quiet (h : Filled s stored) (hM : s'.maxTokens = s.maxTokens)
    (hp : s'.progress = s.progress)
    (hu : s'.pc = .entered ∨ s'.pc = .refused ∨ s'.pc = .clearingProgress → stored = [])
    (hb : Bounded s' s'.pc) : Filled s' (stored ++ []) := by
  rw [List.append_nil]
  exact ⟨hM ▸ h.length, hu, fun p hmem => hp ▸ h.percent p hmem, h.rising, hb⟩

theorem Filled.store {p : Int} (h : Filled s stored) (hM : s'.maxTokens = s.maxTokens)
    (hp : s'.progress = p) (h0 : 0 ≤ p) (h100 : p ≤ 100) (hrise : ∀ q ∈ stored, q ≤ p)
    (hu : s'.pc ≠ .entered ∧ s'.pc ≠ .refused ∧ s'.pc ≠ .clearingProgress)
    (hb : Bounded s' s'.pc) : Filled s' (stored ++ [p]) where
  length := hM ▸ h.length
  unwritten hpc := absurd hpc (by simp [hu])
  percent := by
    rw [hp]
    refine forall_mem_concat.mpr ⟨fun q hq => ?_, h0, Int.le_refl p, h100⟩
    obtain ⟨hq0, -, hq100⟩ := h.percent q hq
    exact ⟨hq0, hrise q hq, hq100⟩
  rising := by
    rw [List.pairwise_append]
    exact ⟨h.rising, List.pairwise_singleton _ _, by simpa using hrise⟩
  bounded := hb

theorem Filled.below {p : Int} (h : Filled s stored) (hp : s.progress ≤ p) :
    ∀ q ∈ stored, q ≤ p := fun q hq => Int.le_trans (h.percent q hq).2.1 hp

theorem Filled.tokenised (h : Filled s stored) (hpc : s.pc = .tokenising) {n : Int}
    (hn : Length n) :
    Filled (afterTokenising s n) (stored ++ []) := by
  have hb := h.bounded
  simp only [hpc, Bounded] at hb
  unfold afterTokenising readingOrWriting
  split
  · exact h.quiet rfl rfl (by simp) trivial
  · split
    · exact h.quiet rfl rfl (by simp) trivial
    · rename_i hone _
      rw [if_pos (by omega)]
      exact h.quiet rfl rfl (by simp) ⟨hn, Int.le_refl 0, by omega, by simp [hb]⟩

theorem Filled.storedRead {n i k : Int} (h : Filled s stored) (hpc : s.pc = .storingRead n i k) :
    Filled { s with
        progress := 5 + (25 * (i + k)).tdiv n
        pc := readingOrWriting n (i + batch) s.maxTokens }
      (stored ++ [5 + (25 * (i + k)).tdiv n]) := by
  have hb := h.bounded
  simp only [hpc, Bounded] at hb
  obtain ⟨rfl, hn, hi, hin, hbar⟩ := hb
  obtain ⟨h0, hrise, h30⟩ := read_figure hi hin hbar
  refine h.store rfl rfl h0 (by omega) (h.below hrise) ?_ ?_
  · simp only [readingOrWriting]
    split
    · simp
    · split <;> simp
  · simp only [readingOrWriting]
    split
    · rename_i hmore
      have hfull : batchAt n i = batch := if_neg (by omega)
      exact ⟨hn, Int.add_nonneg hi (by decide), hmore, by simp [hfull]⟩
    · split
      · rename_i hs
        exact ⟨Int.le_refl 0, hs, by simpa using h30⟩
      · trivial

theorem Filled.moves {e : LlamaLib.Event} (h : Filled s stored) (hsmall : Small (.write e))
    (hm : Moves s e s') :
    Filled s' (stored ++ (LlamaSession.run.writes e).toList) := by
  have hb := h.bounded
  cases hm with
  | @entered found hpc =>
    have hnone := h.unwritten (.inl hpc)
    cases found <;> exact h.quiet rfl rfl (fun _ => hnone) trivial
  | clearedProgress hpc =>
    have hnone := h.unwritten (.inr (.inr hpc))
    exact h.store rfl rfl (Int.le_refl 0) (by decide) (by simp [hnone]) (by simp) rfl
  | clearedAbort hpc =>
    simp only [hpc, Bounded] at hb
    exact h.quiet rfl rfl (by simp) hb
  | noTokens hpc | readingFailed hpc | writingStopped hpc =>
    exact h.quiet rfl rfl (by simp) trivial
  | tokenised hpc => exact h.tokenised hpc hsmall
  | testedReading hpc | testedWriting hpc =>
    simp only [hpc, Bounded] at hb
    cases ha : s.abort with
    | true => exact h.quiet rfl rfl (by simp) trivial
    | false => exact h.quiet rfl rfl (by simp) hb
  | decodedPrompt hpc =>
    simp only [hpc, Bounded] at hb
    exact h.quiet rfl rfl (by simp) ⟨rfl, hb⟩
  | storedRead hpc => exact h.storedRead hpc
  | @sampled _ _ t hpc =>
    simp only [hpc, Bounded] at hb
    cases t with
    | endOfGeneration | noMemory =>
      exact h.quiet rfl rfl (by simp [afterSampling]) trivial
    | piece bytes => exact h.quiet rfl rfl (by simp [afterSampling]) hb
  | @storedWritten produced _ hpc =>
    simp only [hpc, Bounded] at hb
    obtain ⟨hstart, hmore, hbar⟩ := hb
    obtain ⟨h0, hrise, h100⟩ := written_figure hstart hmore hbar
    exact h.store rfl rfl h0 h100 (h.below hrise) (by simp) ⟨hstart, hmore, Int.le_refl _⟩
  | @decoded produced out hpc =>
    simp only [hpc, Bounded] at hb
    obtain ⟨hstart, hmore, hbar⟩ := hb
    unfold writingOrDone
    split
    · rename_i hnext
      exact h.quiet rfl rfl (by simp) ⟨by omega, hnext, hbar⟩
    · exact h.quiet rfl rfl (by simp) trivial
  | answered hpc =>
    exact h.store rfl rfl (by decide) (Int.le_refl 100) (fun q hq => (h.percent q hq).2.2) (by simp)
      trivial

/-- What the calls have stored, and how far the one that runs has come. -/
structure Kept (x : System LlamaLib.State Int) : Prop where
  later : ∀ j, x.runs < j → x.stored j = []
  rising : ∀ i, (x.stored i).Pairwise (· ≤ ·)
  percent : ∀ i, ∀ p ∈ x.stored i, 0 ≤ p ∧ p ≤ 100
  current : x.phase = .calling → Filled x.writer (x.stored x.runs)

variable {x x' : System LlamaLib.State Int}

theorem kept_fresh (h : Fresh x) : Kept x where
  later i _ := h.stored i
  rising i := by simp [h.stored i]
  percent i := by simp [h.stored i]
  current hp := by simp [h.phase] at hp

theorem Kept.begin (h : Kept x) {q : Question} (hq : Length q.maxTokens) : Kept (begin x { x.writer with
    nCtx := q.nCtx, maxTokens := q.maxTokens, pc := .entered }) where
  later j hj := h.later j (Nat.lt_of_succ_lt hj)
  rising := h.rising
  percent := h.percent
  current _ := by
    have hnone : x.stored (x.runs + 1) = [] := h.later _ (Nat.lt_succ_self _)
    simp only [Watching.begin, hnone]
    exact ⟨hq, fun _ => rfl, by simp, .nil, trivial⟩

theorem wrote_stored_runs (x : System LlamaLib.State Int) (s : LlamaLib.State) (o : Option Int) :
    (wrote x s o).stored = Function.update x.stored x.runs (x.stored x.runs ++ o.toList) := by
  cases o with
  | none => simp [wrote]
  | some p => rfl

theorem Kept.wrote (h : Kept x) {s : LlamaLib.State} {o : Option Int}
    (hf : Filled s (x.stored x.runs ++ o.toList)) : Kept (wrote x s o) := by
  have hruns : (Watching.wrote x s o).runs = x.runs := by cases o <;> rfl
  have hwriter : (Watching.wrote x s o).writer = s := by cases o <;> rfl
  refine ⟨fun j hj => ?_, ?_, ?_, fun _ => ?_⟩
  · rw [hruns] at hj
    rw [wrote_stored_runs, Function.update_of_ne (Nat.ne_of_gt hj)]
    exact h.later j hj
  · rw [wrote_stored_runs]
    exact (Function.forall_update_iff x.stored fun _ l => l.Pairwise (· ≤ ·)).mpr
      ⟨hf.rising, fun i _ => h.rising i⟩
  · rw [wrote_stored_runs]
    exact (Function.forall_update_iff x.stored fun _ l => ∀ p ∈ l, 0 ≤ p ∧ p ≤ 100).mpr
      ⟨fun p hp => ⟨(hf.percent p hp).1, (hf.percent p hp).2.2⟩, fun i _ => h.percent i⟩
  · rw [wrote_stored_runs, hruns, Function.update_self, hwriter]
    exact hf

theorem Kept.step {e : Watching.Event LlamaLib.Event Question} (h : Kept x)
    (hsmall : Small e) (hs : step LlamaSession.run x e = some x') : Kept x' := by
  cases e with
  | run q =>
    simp only [Watching.step] at hs
    split at hs
    · obtain rfl := Option.some.inj hs
      cases hq : q.loaded with
      | false => simpa [LlamaSession.run, hq] using h
      | true => simpa [LlamaSession.run, hq] using h.begin (q := q) hsmall
    · simp at hs
  | write e =>
    simp only [Watching.step] at hs
    split at hs
    · rename_i hwho
      obtain ⟨s, he, rfl⟩ := Option.map_eq_some_iff.mp hs
      obtain ⟨rfl, rfl⟩ | hm := step_moves he
      · -- a call that is told to stop stands where it stood
        refine ⟨h.later, h.rising, h.percent, fun hp => ?_⟩
        have hf := h.current hp
        exact ⟨hf.length, hf.unwritten, hf.percent, hf.rising, hf.bounded⟩
      · have hcalling : x.phase = .calling := by
          refine hwho.resolve_left fun hout => ?_
          obtain rfl : e = .cancel := of_decide_eq_true hout
          cases hm
        exact h.wrote ((h.current hcalling).moves hsmall hm)
    · simp at hs
  | returned | setDone | leave =>
    simp only [Watching.step] at hs
    split at hs
    · obtain rfl := Option.some.inj hs
      exact ⟨h.later, h.rising, h.percent, by simp⟩
    · simp at hs
  | watch i =>
    simp only [Watching.step, watch] at hs
    split at hs <;> first
      | (obtain rfl := Option.some.inj hs; exact ⟨h.later, h.rising, h.percent, h.current⟩)
      | simp at hs

/-- No `int` overflows. -/
theorem Filled.fits {e : LlamaLib.Event} (h : Filled s stored) (hsmall : Small (.write e)) :
    ∀ v ∈ computed s e, -2 ^ 31 ≤ v ∧ v < 2 ^ 31 := by
  obtain ⟨hM, hM'⟩ := h.length
  have hb := h.bounded
  unfold computed
  split
  · rename_i n hpc
    obtain ⟨hn, hn'⟩ : Length n := hsmall
    rw [List.forall_mem_singleton]
    omega
  · rename_i n i ok hpc
    simp only [hpc, Bounded] at hb
    obtain ⟨⟨-, hn⟩, hi, hin, -⟩ := hb
    rw [List.forall_mem_singleton]
    omega
  · rename_i n i k p hpc
    simp only [hpc, Bounded] at hb
    obtain ⟨rfl, ⟨-, hn⟩, hi, hin, hbar⟩ := hb
    obtain ⟨hone, hbatch, hend⟩ := batchAt_spec hin
    obtain ⟨h0, -, h30⟩ := read_figure hi hin hbar
    simp only [List.mem_cons, List.not_mem_nil, or_false, forall_eq_or_imp, forall_eq, batch]
    omega
  · rename_i produced out p hpc
    simp only [hpc, Bounded] at hb
    obtain ⟨hstart, hmore, hbar⟩ := hb
    obtain ⟨h0, -, h100⟩ := written_figure hstart hmore hbar
    simp only [List.mem_cons, List.not_mem_nil, or_false, forall_eq_or_imp, forall_eq]
    omega
  · rename_i produced out ok hpc
    simp only [hpc, Bounded] at hb
    rw [List.forall_mem_singleton]
    omega
  · simp

/-- The figures `onProgress` is given in one call never go back and lie between 0 and 100, where
the progress is polled in time; and after the call is told to be over, its poll thread takes four
more steps at most and gives one more figure at most. At these lengths no `int` overflows. -/
theorem progress_shown (hx : Fresh x)
    (h : Run (step LlamaSession.run) (fun x e => InTime x e ∧ Small e) x x') (i : ℕ) :
    (seen x' i).Pairwise (· ≤ ·) ∧ (∀ p ∈ seen x' i, 0 ≤ p ∧ p ≤ 100) ∧
      (i ≤ x'.runs → x'.done i = true →
        ∀ es x'', Steps (step LlamaSession.run) x' es x'' →
          es.countP (Event.isWatch i) ≤ 4 ∧ (seen x'' i).length ≤ (seen x' i).length + 1) ∧
      (x'.phase = .calling → ∀ e, Small (.write e) →
        ∀ v ∈ computed x'.writer e, -2 ^ 31 ≤ v ∧ v < 2 ^ 31) := by
  have hkept : Kept x' := h.invariant (fun _ _ _ hk ha hs => hk.step ha.2 hs) (kept_fresh hx)
  have htimely : Run (step LlamaSession.run) InTime x x' := h.mono fun _ _ ha => ha.1
  have hown := watched_own LlamaSession.run_lawful hx htimely
  refine ⟨watched_rising LlamaSession.run_lawful hx htimely hkept.rising i, fun p hp => ?_,
    fun hi hd es x'' hs => watched_ends hi hd hs, fun hc e hsmall => ?_⟩
  · exact hkept.percent i p (hown.seen p hp)
  · exact (hkept.current hc).fits hsmall

/-- Polled twice while a prompt of three tokens is read and answered. -/
def polledTwice : List (Watching.Event LlamaLib.Event Question) :=
  [.run ⟨true, 4096, 1⟩, .watch 1, .write (.session true), .write (.storeProgress 0),
    .watch 1, .watch 1, .write .storeAbort, .write (.tokenised (some 3)), .watch 1,
    .write (.loadAbort false), .write (.decoded true), .write (.storeProgress 30), .watch 1,
    .watch 1, .watch 1, .write (.loadAbort false), .write (.sampled .endOfGeneration),
    .write (.storeProgress 100), .returned, .setDone]

theorem progress_shown_twice :
    ∃ x, Run (step LlamaSession.run) (fun x e => InTime x e ∧ Small e) llama x ∧
    seen x 1 = [0, 30] ∧ (seen x 1).Pairwise (· ≤ ·) ∧
    ∀ es x', Steps (step LlamaSession.run) x es x' →
      es.countP (Event.isWatch 1) ≤ 4 ∧ (seen x' 1).length ≤ 3 := by
  have hx : replay (step LlamaSession.run) InTime llama polledTwice _ :=
    ⟨trivial, _, rfl, nofun, _, rfl, trivial, _, rfl, trivial, _, rfl,
      fun _ => ⟨List.cons_ne_nil _ _, fun _ hj => Function.update_of_ne (Nat.ne_of_gt hj) _ _⟩,
      _, rfl, nofun, _, rfl, trivial, _, rfl, trivial, _, rfl, nofun, _, rfl, trivial, _, rfl,
      trivial, _, rfl, trivial, _, rfl, nofun, _, rfl,
      fun _ => ⟨List.cons_ne_nil _ _, fun _ hj =>
        (Function.update_of_ne (Nat.ne_of_gt hj) _ _).trans
          (Function.update_of_ne (Nat.ne_of_gt hj) _ _)⟩,
      _, rfl, nofun, _, rfl, trivial, _, rfl, trivial, _, rfl, trivial, _, rfl, trivial, _, rfl,
      trivial, _, rfl, rfl⟩
  have hsmall : ∀ e ∈ polledTwice, Small e := by simp [polledTwice, Small, Length]
  have hr := replay_run (replay_imp (fun _ _ ha hs => And.intro ha hs) hsmall hx)
  obtain ⟨hrise, -, hend, -⟩ := progress_shown fresh_llama hr 1
  exact ⟨_, hr, rfl, hrise, hend (Nat.le_refl 1) rfl⟩

end ReadersSpeech.Sessions
