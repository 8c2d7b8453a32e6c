import ReadersSpeech.AbortFlag
import ReadersSpeech.Text

/-! `generate` and `cancel` of llama_jni.c, as the atomic reads and writes they make. What the
functions of llama.cpp return is anything at all: the tokens of the prompt, whether a decode
succeeds, what is sampled and the bytes it stands for.
-/

set_option autoImplicit false

namespace ReadersSpeech.LlamaLib
open Transition AbortFlag

abbrev Bytes := List UInt8

/-- What `fail` writes into `g_error`. -/
inductive Failure where
  | notTokenised
  | doesNotFit (nPrompt maxTokens nCtx : Int)
  | readingFailed (i nPrompt : Int)
  | outOfMemory
  | writingStopped (produced : Int)
  | wroteNothing
  deriving DecidableEq, Repr

def Failure.message : Failure → Str
  | .notTokenised => kt "the text could not be tokenised"
  | .doesNotFit nPrompt maxTokens nCtx => kt (toString nPrompt) ++ kt " tokens to read and " ++
      kt (toString maxTokens) ++ kt " to write do not fit a context of " ++ kt (toString nCtx)
  | .readingFailed i nPrompt => kt "reading the text failed at token " ++ kt (toString i) ++
      kt " of " ++ kt (toString nPrompt)
  | .outOfMemory => kt "out of memory while writing the answer"
  | .writingStopped produced => kt "writing stopped at token " ++ kt (toString produced)
  | .wroteNothing => kt "the model wrote nothing"

/-- How a call ends: by a test of the flag, by a failure, or with what was written. -/
inductive End where
  | cancelled
  | failed
  | answered (text : Bytes)
  deriving DecidableEq, Repr

def End.value : End → Bytes
  | .cancelled | .failed => []
  | .answered text => text

inductive Pc where
  | entered
  /-- Returned "" at once: there was no session. -/
  | refused
  | clearingProgress
  | clearingAbort
  | tokenising
  | reading (nPrompt i : Int)
  | decodingPrompt (nPrompt i : Int)
  | storingRead (nPrompt i n : Int)
  | writing (produced : Int) (out : Bytes)
  | sampling (produced : Int) (out : Bytes)
  | storingWritten (produced : Int) (out : Bytes)
  | decoding (produced : Int) (out : Bytes)
  | storingDone (out : Bytes)
  | returned (result : End)
  deriving DecidableEq, Repr

structure State where
  nCtx : Int
  maxTokens : Int
  progress : Int
  abort : Bool
  error : Option Failure
  pc : Pc
  deriving DecidableEq, Repr

/-- The token sampled: the end of the answer, or the bytes it adds (none when it has none, or when
there was no room to hold them). -/
inductive Sampled where
  | endOfGeneration
  | piece (bytes : Bytes)
  | noMemory
  deriving DecidableEq, Repr

inductive Event where
  | session (found : Bool)
  | storeProgress (p : Int)
  | storeAbort
  | loadAbort (b : Bool)
  /-- The number of tokens of the prompt; `none` when there was no memory for them. -/
  | tokenised (nPrompt : Option Int)
  | decoded (ok : Bool)
  | sampled (t : Sampled)
  | cancel
  deriving DecidableEq, Repr

def batch : Int := 128

def readingOrWriting (nPrompt i maxTokens : Int) : Pc :=
  if i < nPrompt then .reading nPrompt i
  else if 0 < maxTokens then .writing 0 [] else .storingDone []

def writingOrDone (produced maxTokens : Int) (out : Bytes) : Pc :=
  if produced < maxTokens then .writing produced out else .storingDone out

def afterTokenising (s : State) (nPrompt : Int) : State :=
  if nPrompt ≤ 0 then { s with error := some .notTokenised, pc := .returned .failed }
  else if s.nCtx < nPrompt + s.maxTokens then
    { s with error := some (.doesNotFit nPrompt s.maxTokens s.nCtx), pc := .returned .failed }
  else { s with error := none, pc := readingOrWriting nPrompt 0 s.maxTokens }

def afterSampling (s : State) (produced : Int) (out : Bytes) : Sampled → State
  | .endOfGeneration => { s with pc := .storingDone out }
  | .piece bytes => { s with pc := .storingWritten produced (out ++ bytes) }
  | .noMemory => { s with error := some .outOfMemory, pc := .returned .failed }

def stepPc (s : State) : Pc → Event → Option State
  | .entered, .session found =>
    some { s with pc := if found then .clearingProgress else .refused }
  | .clearingProgress, .storeProgress 0 => some { s with progress := 0, pc := .clearingAbort }
  | .clearingAbort, .storeAbort => some { s with abort := false, pc := .tokenising }
  | .tokenising, .tokenised none => some { s with error := none, pc := .returned .failed }
  | .tokenising, .tokenised (some nPrompt) => some (afterTokenising s nPrompt)
  | .reading nPrompt i, .loadAbort b =>
    if b = s.abort then
      some { s with pc := if b then .returned .cancelled else .decodingPrompt nPrompt i }
    else none
  | .decodingPrompt nPrompt i, .decoded true =>
    some { s with
      pc := .storingRead nPrompt i (if nPrompt - i < batch then nPrompt - i else batch) }
  | .decodingPrompt nPrompt i, .decoded false =>
    some { s with error := some (.readingFailed i nPrompt), pc := .returned .failed }
  | .storingRead nPrompt i n, .storeProgress p =>
    if p = 5 + (25 * (i + n)).tdiv nPrompt then
      some { s with progress := p, pc := readingOrWriting nPrompt (i + batch) s.maxTokens }
    else none
  | .writing produced out, .loadAbort b =>
    if b = s.abort then
      some { s with pc := if b then .returned .cancelled else .sampling produced out }
    else none
  | .sampling produced out, .sampled t => some (afterSampling s produced out t)
  | .storingWritten produced out, .storeProgress p =>
    if p = 30 + (70 * (produced + 1)).tdiv s.maxTokens then
      some { s with progress := p, pc := .decoding produced out }
    else none
  | .decoding produced out, .decoded true =>
    some { s with pc := writingOrDone (produced + 1) s.maxTokens out }
  | .decoding produced out, .decoded false =>
    some { s with error := some (.writingStopped produced), pc := .storingDone out }
  | .storingDone out, .storeProgress 100 =>
    some { s with
      progress := 100
      error := if out = [] then some .wroteNothing else s.error
      pc := .returned (.answered out) }
  | _, _ => none

def step (s : State) : Event → Option State
  | .cancel => some { s with abort := true }
  | e => stepPc s s.pc e

inductive Moves (s : State) : Event → State → Prop
  | entered {found : Bool} : s.pc = .entered →
      Moves s (.session found) { s with pc := if found then .clearingProgress else .refused }
  | clearedProgress : s.pc = .clearingProgress →
      Moves s (.storeProgress 0) { s with progress := 0, pc := .clearingAbort }
  | clearedAbort : s.pc = .clearingAbort →
      Moves s .storeAbort { s with abort := false, pc := .tokenising }
  | noTokens : s.pc = .tokenising →
      Moves s (.tokenised none) { s with error := none, pc := .returned .failed }
  | tokenised {nPrompt : Int} : s.pc = .tokenising →
      Moves s (.tokenised (some nPrompt)) (afterTokenising s nPrompt)
  | testedReading {nPrompt i : Int} : s.pc = .reading nPrompt i → Moves s (.loadAbort s.abort)
      { s with pc := if s.abort then .returned .cancelled else .decodingPrompt nPrompt i }
  | decodedPrompt {nPrompt i : Int} : s.pc = .decodingPrompt nPrompt i → Moves s (.decoded true)
      { s with
        pc := .storingRead nPrompt i (if nPrompt - i < batch then nPrompt - i else batch) }
  | readingFailed {nPrompt i : Int} : s.pc = .decodingPrompt nPrompt i → Moves s (.decoded false)
      { s with error := some (.readingFailed i nPrompt), pc := .returned .failed }
  | storedRead {nPrompt i n : Int} : s.pc = .storingRead nPrompt i n →
      Moves s (.storeProgress (5 + (25 * (i + n)).tdiv nPrompt))
        { s with
          progress := 5 + (25 * (i + n)).tdiv nPrompt
          pc := readingOrWriting nPrompt (i + batch) s.maxTokens }
  | testedWriting {produced : Int} {out : Bytes} : s.pc = .writing produced out →
      Moves s (.loadAbort s.abort)
        { s with pc := if s.abort then .returned .cancelled else .sampling produced out }
  | sampled {produced : Int} {out : Bytes} {t : Sampled} : s.pc = .sampling produced out →
      Moves s (.sampled t) (afterSampling s produced out t)
  | storedWritten {produced : Int} {out : Bytes} : s.pc = .storingWritten produced out →
      Moves s (.storeProgress (30 + (70 * (produced + 1)).tdiv s.maxTokens))
        { s with
          progress := 30 + (70 * (produced + 1)).tdiv s.maxTokens
          pc := .decoding produced out }
  | decoded {produced : Int} {out : Bytes} : s.pc = .decoding produced out →
      Moves s (.decoded true) { s with pc := writingOrDone (produced + 1) s.maxTokens out }
  | writingStopped {produced : Int} {out : Bytes} : s.pc = .decoding produced out →
      Moves s (.decoded false)
        { s with error := some (.writingStopped produced), pc := .storingDone out }
  | answered {out : Bytes} : s.pc = .storingDone out → Moves s (.storeProgress 100)
      { s with
        progress := 100
        error := if out = [] then some .wroteNothing else s.error
        pc := .returned (.answered out) }

theorem stepPc_moves {s s' : State} {e : Event} (h : stepPc s s.pc e = some s') :
    Moves s e s' := by
  unfold stepPc at h
  split at h
  · rename_i hpc; exact Option.some.inj h ▸ .entered hpc
  · rename_i hpc; exact Option.some.inj h ▸ .clearedProgress hpc
  · rename_i hpc; exact Option.some.inj h ▸ .clearedAbort hpc
  · rename_i hpc; exact Option.some.inj h ▸ .noTokens hpc
  · rename_i hpc; exact Option.some.inj h ▸ .tokenised hpc
  · rename_i hpc
    split at h
    · rename_i hb; subst hb; exact Option.some.inj h ▸ .testedReading hpc
    · simp at h
  · rename_i hpc; exact Option.some.inj h ▸ .decodedPrompt hpc
  · rename_i hpc; exact Option.some.inj h ▸ .readingFailed hpc
  · rename_i hpc
    split at h
    · rename_i hp; subst hp; exact Option.some.inj h ▸ .storedRead hpc
    · simp at h
  · rename_i hpc
    split at h
    · rename_i hb; subst hb; exact Option.some.inj h ▸ .testedWriting hpc
    · simp at h
  · rename_i hpc; exact Option.some.inj h ▸ .sampled hpc
  · rename_i hpc
    split at h
    · rename_i hp; subst hp; exact Option.some.inj h ▸ .storedWritten hpc
    · simp at h
  · rename_i hpc; exact Option.some.inj h ▸ .decoded hpc
  · rename_i hpc; exact Option.some.inj h ▸ .writingStopped hpc
  · rename_i hpc; exact Option.some.inj h ▸ .answered hpc
  · simp at h

theorem step_moves {s s' : State} {e : Event} (h : step s e = some s') :
    e = .cancel ∧ s' = { s with abort := true } ∨ Moves s e s' := by
  by_cases hc : e = .cancel
  · subst hc
    exact .inl ⟨rfl, (Option.some.inj h).symm⟩
  · have hs : step s e = stepPc s s.pc e := by cases e <;> first | rfl | exact absurd rfl hc
    exact .inr (stepPc_moves (hs ▸ h))

def Pc.before : Pc → Bool
  | .entered | .refused | .clearingProgress | .clearingAbort => true
  | _ => false

def before (s : State) : Bool := s.pc.before

/-- The call has come to its end through a test of the flag. -/
def Pc.isCancelled : Pc → Bool
  | .returned .cancelled => true
  | _ => false

theorem afterTokenising_spec (s : State) (nPrompt : Int) :
    (afterTokenising s nPrompt).abort = s.abort ∧
      (afterTokenising s nPrompt).pc.before = false ∧
      (afterTokenising s nPrompt).pc.isCancelled = false := by
  unfold afterTokenising readingOrWriting
  split
  · exact ⟨rfl, rfl, rfl⟩
  · split
    · exact ⟨rfl, rfl, rfl⟩
    · split
      · exact ⟨rfl, rfl, rfl⟩
      · split <;> exact ⟨rfl, rfl, rfl⟩

theorem afterSampling_spec (s : State) (produced : Int) (out : Bytes) (t : Sampled) :
    (afterSampling s produced out t).abort = s.abort ∧
      (afterSampling s produced out t).pc.before = false ∧
      (afterSampling s produced out t).pc.isCancelled = false := by
  cases t <;> exact ⟨rfl, rfl, rfl⟩

theorem readingOrWriting_spec (nPrompt i maxTokens : Int) :
    (readingOrWriting nPrompt i maxTokens).before = false ∧
      (readingOrWriting nPrompt i maxTokens).isCancelled = false := by
  unfold readingOrWriting
  split
  · exact ⟨rfl, rfl⟩
  · split <;> exact ⟨rfl, rfl⟩

theorem writingOrDone_spec (produced maxTokens : Int) (out : Bytes) :
    (writingOrDone produced maxTokens out).before = false ∧
      (writingOrDone produced maxTokens out).isCancelled = false := by
  unfold writingOrDone
  split <;> exact ⟨rfl, rfl⟩

/-- Past the reset: the flag is left alone, and only a test that reads it ends the call as
cancelled. -/
theorem Moves.past {s s' : State} {e : Event} (h : Moves s e s') (hb : before s = false) :
    e ≠ .storeAbort ∧ s'.abort = s.abort ∧ before s' = false ∧
      (s'.pc.isCancelled = true ↔ e = .loadAbort true) := by
  cases h with
  | entered hpc | clearedProgress hpc | clearedAbort hpc => simp [before, hpc, Pc.before] at hb
  | noTokens | decodedPrompt | readingFailed | storedWritten | writingStopped | answered =>
    exact ⟨by simp, rfl, rfl, by simp [Pc.isCancelled]⟩
  | @tokenised nPrompt _ =>
    obtain ⟨ha, hb, hc⟩ := afterTokenising_spec s nPrompt
    exact ⟨by simp, ha, hb, by simp [hc]⟩
  | testedReading _ | testedWriting _ =>
    cases s.abort <;> exact ⟨by simp, rfl, rfl, by simp [Pc.isCancelled]⟩
  | @storedRead nPrompt i n _ =>
    obtain ⟨hb, hc⟩ := readingOrWriting_spec nPrompt (i + batch) s.maxTokens
    exact ⟨by simp, rfl, hb, by simp [hc]⟩
  | @sampled produced out t _ =>
    obtain ⟨ha, hb, hc⟩ := afterSampling_spec s produced out t
    exact ⟨by simp, ha, hb, by simp [hc]⟩
  | @decoded produced out _ =>
    obtain ⟨hb, hc⟩ := writingOrDone_spec (produced + 1) s.maxTokens out
    exact ⟨by simp, rfl, hb, by simp [hc]⟩

theorem Moves.early {s s' : State} {e : Event} (h : Moves s e s') (hb : before s = true) :
    e = .storeAbort ∧ s'.abort = false ∧ before s' = false ∨
      e ≠ .storeAbort ∧ s'.abort = s.abort ∧ before s' = true := by
  cases h with
  | @entered found _ => exact .inr ⟨by simp, rfl, by cases found <;> rfl⟩
  | clearedProgress => exact .inr ⟨by simp, rfl, rfl⟩
  | clearedAbort => exact .inl ⟨rfl, rfl, rfl⟩
  | noTokens hpc | tokenised hpc | testedReading hpc | decodedPrompt hpc | readingFailed hpc
  | storedRead hpc | testedWriting hpc | sampled hpc | storedWritten hpc | decoded hpc
  | writingStopped hpc | answered hpc => simp [before, hpc, Pc.before] at hb

theorem moves_of_step {s s' : State} {e : Event} (hne : e ≠ .cancel) (h : step s e = some s') :
    Moves s e s' := (step_moves h).resolve_left fun hc => hne hc.1

theorem flagged : Flagged step State.abort before .storeAbort .cancel where
  raised s s' h := by
    obtain rfl := Option.some.inj h
    exact ⟨rfl, rfl⟩
  early s e s' hne h hb := (moves_of_step hne h).early hb
  past s e s' hne h hb :=
    have hp := (moves_of_step hne h).past hb
    ⟨hp.1, hp.2.1, hp.2.2.1⟩

theorem returned_stuck {s s' : State} {e : Event} {r : End} (hpc : s.pc = .returned r)
    (hne : e ≠ .cancel) (h : step s e = some s') : False := by
  cases moves_of_step hne h <;> simp_all

/-- A test of the flag sees it as it is, and ends the call when it is raised. -/
theorem Moves.loaded {s s' : State} {b : Bool} (h : Moves s (.loadAbort b) s') :
    b = s.abort ∧ before s = false ∧ (b = true → s'.pc = .returned .cancelled) := by
  cases h with
  | testedReading hpc | testedWriting hpc =>
    exact ⟨rfl, by simp [before, hpc, Pc.before], fun hb => by simp [hb]⟩

/-- With the flag down and nobody to raise it, no call ends as cancelled. -/
theorem not_cancelled {s s' : State} {es : List Event} (h : Steps step s es s')
    (hes : .cancel ∉ es) (hb : before s = false) (ha : s.abort = false)
    (hc : s.pc.isCancelled = false) : s'.pc.isCancelled = false := by
  have hi := replay_invariant
    (I := fun s => before s = false ∧ s.abort = false ∧ s.pc.isCancelled = false)
    (P := fun e => e ≠ .cancel) (fun s e s' hs hne he => ?_) h (fun e he hc => hes (hc ▸ he))
    ⟨hb, ha, hc⟩
  · exact hi.2.2
  · have hm := moves_of_step hne he
    obtain ⟨-, ha, hb, hi⟩ := hm.past hs.1
    refine ⟨hb, ha.trans hs.2.1, ?_⟩
    rw [Bool.eq_false_iff, ne_eq, hi]
    rintro rfl
    have hl := hm.loaded.1
    simp [hs.2.1] at hl

/-- A call with a test to come ends as cancelled exactly when that test sees the flag raised. -/
theorem end_iff {s s' : State} {es : List Event} (h : Steps step s es s') (hes : .cancel ∉ es)
    (hload : ∃ b, .loadAbort b ∈ es) {r : End} (hr : s'.pc = .returned r) :
    r = .cancelled ↔ s'.abort = true := by
  obtain ⟨b, hb⟩ := hload
  obtain ⟨a, c, rfl⟩ := List.append_of_mem hb
  obtain ⟨t, -, -, t', ht, h'⟩ := replay_append.mp h
  have hm := moves_of_step (by simp) ht
  obtain ⟨rfl, hbt, hend⟩ := hm.loaded
  obtain ⟨-, hab, hbt', hcan⟩ := hm.past hbt
  have hc : Event.cancel ∉ c := fun hc => hes (by simp [hc])
  cases hta : t.abort with
  | true =>
    cases c with
    | nil =>
      obtain rfl : t' = s' := h'
      rw [hend hta] at hr
      simp only [Pc.returned.injEq] at hr
      simp [← hr, hab, hta]
    | cons e c =>
      obtain ⟨-, t'', ht', -⟩ := h'
      exact absurd ht' fun hs => returned_stuck (hend hta) (fun he => hc (by simp [he])) hs
  | false =>
    have hframe := flagged.frame h' hc hbt'
    have ht' : t'.pc.isCancelled = false := by
      rw [Bool.eq_false_iff, ne_eq, hcan]
      simp [hta]
    have hno := not_cancelled h' hc hbt' (hab.trans hta) ht'
    rw [hframe, hab, hta]
    constructor
    · rintro rfl
      simp [hr, Pc.isCancelled] at hno
    · simp

end ReadersSpeech.LlamaLib
