import ReadersSpeech.LlamaLib
import ReadersSpeech.Watching
import ReadersSpeech.WhisperLib

/-! `LlamaSession.run` and `WhisperSession.run`, one call after another, each with the thread that
polls `g_progress` while its native call runs. The thread is started first, and the native call
clears what the one before it has left only some way in.
-/

set_option autoImplicit false

namespace ReadersSpeech.Sessions
open Transition Watching

/-- What a `LlamaSession.run` is made with: whether its model was loaded, the context it was
loaded for, and how many tokens may be written. -/
structure Question where
  loaded : Bool
  nCtx : Int
  maxTokens : Int

def LlamaSession.run : Writer LlamaLib.State LlamaLib.Event Question Int where
  step := LlamaLib.step
  enter q s :=
    if q.loaded then some { s with nCtx := q.nCtx, maxTokens := q.maxTokens, pc := .entered }
    else none
  isOver s :=
    match s.pc with
    | .refused | .returned _ => true
    | _ => false
  cell := LlamaLib.State.progress
  writes
    | .storeProgress p => some p
    | _ => none
  outside e := decide (e = .cancel)
  interrupts := false

/-- A `WhisperSession.run` is made with a voice detector or without one. -/
def WhisperSession.run : Writer WhisperLib.State WhisperLib.Event Bool Int where
  step := WhisperLib.step
  enter vad s := some { s with vad := vad, pc := .entered }
  isOver s :=
    match s.pc with
    | .refused | .returned _ => true
    | _ => false
  cell := WhisperLib.State.progress
  writes
    | .storeProgress p => some p
    | _ => none
  outside e := decide (e = .cancel)
  interrupts := true

theorem afterTokenising_progress (s : LlamaLib.State) (nPrompt : Int) :
    (LlamaLib.afterTokenising s nPrompt).progress = s.progress := by
  unfold LlamaLib.afterTokenising
  split
  · rfl
  · split <;> rfl

theorem afterSampling_progress (s : LlamaLib.State) (produced : Int) (out : LlamaLib.Bytes)
    (t : LlamaLib.Sampled) : (LlamaLib.afterSampling s produced out t).progress = s.progress := by
  cases t <;> rfl

theorem LlamaSession.run_lawful : LlamaSession.run.Lawful where
  entered q s s' h := by
    obtain ⟨-, h⟩ := Option.ite_none_right_eq_some.mp h
    obtain rfl := Option.some.inj h
    rfl
  stepped s e s' h := by
    obtain ⟨rfl, rfl⟩ | hm := LlamaLib.step_moves h
    · rfl
    · cases hm with
      | tokenised => exact afterTokenising_progress s _
      | sampled => exact afterSampling_progress s _ _ _
      | _ => rfl
  outside e h := by
    obtain rfl := of_decide_eq_true h
    rfl

theorem WhisperSession.run_lawful : WhisperSession.run.Lawful where
  entered vad s s' h := by
    obtain rfl := Option.some.inj h
    rfl
  stepped s e s' h := by
    obtain ⟨rfl, rfl⟩ | hm := WhisperLib.step_moves h
    · rfl
    · cases hm <;> rfl
  outside e h := by
    obtain rfl := of_decide_eq_true h
    rfl

/-- What `onProgress` is given belongs to its run, as long as the progress is polled only after
the native call of this run has stored some, and before that of a later run has. -/
theorem progress_belongs (x x' : System LlamaLib.State Int)
    (y y' : System WhisperLib.State Int) :
    (Fresh x → Run (step LlamaSession.run) InTime x x' → Own x') ∧
      (Fresh y → Run (step WhisperSession.run) InTime y y' → Own y') :=
  ⟨watched_own LlamaSession.run_lawful, watched_own WhisperSession.run_lawful⟩

/-- Both libraries as they are loaded: nothing has been run. -/
def llama : System LlamaLib.State Int :=
  ⟨⟨0, 0, 0, false, none, .entered⟩, 0, .idle, fun _ => false, fun _ => false, fun _ => .absent,
    [], 0, fun _ => []⟩

def whisper : System WhisperLib.State Int :=
  ⟨⟨false, 0, false, .entered⟩, 0, .idle, fun _ => false, fun _ => false, fun _ => .absent,
    [], 0, fun _ => []⟩

theorem fresh_llama : Fresh llama := ⟨rfl, rfl, fun _ => rfl, fun _ => rfl, rfl⟩

theorem fresh_whisper : Fresh whisper := ⟨rfl, rfl, fun _ => rfl, fun _ => rfl, rfl⟩

/-- The progress is polled once the native call has cleared it. -/
theorem progress_belongs_polled :
    (∃ x, Run (step LlamaSession.run) InTime llama x ∧ x.passed = [(1, ⟨1, 0⟩)] ∧ Own x) ∧
      (∃ y, Run (step WhisperSession.run) InTime whisper y ∧ y.passed = [(1, ⟨1, 0⟩)] ∧
        Own y) := by
  have hx : replay (step LlamaSession.run) InTime llama
      [.run ⟨true, 4096, 1⟩, .watch 1, .write (.session true), .write (.storeProgress 0),
        .watch 1, .watch 1] _ :=
    ⟨trivial, _, rfl, nofun, _, rfl, trivial, _, rfl, trivial, _, rfl,
      fun _ => ⟨List.cons_ne_nil _ _, fun _ hj => Function.update_of_ne (Nat.ne_of_gt hj) _ _⟩,
      _, rfl, nofun, _, rfl, rfl⟩
  have hy : replay (step WhisperSession.run) InTime whisper
      [.run true, .watch 1, .write (.context true), .write (.storeProgress 0),
        .watch 1, .watch 1] _ :=
    ⟨trivial, _, rfl, nofun, _, rfl, trivial, _, rfl, trivial, _, rfl,
      fun _ => ⟨List.cons_ne_nil _ _, fun _ hj => Function.update_of_ne (Nat.ne_of_gt hj) _ _⟩,
      _, rfl, nofun, _, rfl, rfl⟩
  have hown := (progress_belongs llama _ whisper whisper).1 fresh_llama (replay_run hx)
  have hown' := (progress_belongs llama llama whisper _).2 fresh_whisper (replay_run hy)
  exact ⟨⟨_, replay_run hx, rfl, hown⟩, ⟨_, replay_run hy, rfl, hown'⟩⟩

/-- The first answer is written to its end. The second, whose prompt does not fit, is polled before
it has cleared the progress. -/
def secondPolledEarly : List (Event LlamaLib.Event Question) :=
  [.run ⟨true, 4096, 1⟩, .watch 1, .write (.session true), .write (.storeProgress 0),
    .write .storeAbort, .watch 1, .watch 1, .write (.tokenised (some 3)),
    .write (.loadAbort false), .write (.decoded true), .write (.storeProgress 30),
    .write (.loadAbort false), .write (.sampled (.piece [97])), .write (.storeProgress 100),
    .write (.decoded true), .write (.storeProgress 100), .returned, .setDone, .watch 1,
    .watch 1, .leave,
    .run ⟨true, 4096, 512⟩, .watch 2, .watch 2, .watch 2, .write (.session true),
    .write (.storeProgress 0), .write .storeAbort, .write (.tokenised (some 4000)), .returned,
    .setDone, .watch 2, .watch 2, .leave]

/-- The second piece is polled before it has cleared the progress, and finishes without having
reported any. -/
def pieceAfterPiece : List (Event WhisperLib.Event Bool) :=
  [.run true, .watch 1, .write (.context true), .write (.storeProgress 0), .write .storeAbort,
    .watch 1, .watch 1, .write (.storeProgress 100), .write (.finished 0),
    .write (.loadAbort false), .returned, .setDone, .leave, .watch 1,
    .run true, .watch 2, .watch 2, .watch 2, .write (.context true), .write (.storeProgress 0),
    .write .storeAbort, .write (.finished 0), .write (.loadAbort false), .returned, .setDone,
    .leave, .watch 2]

/-- In both, the second `onProgress` is given the 100 of the first call. -/
theorem progress_left_over :
    (∃ x, Run (step LlamaSession.run) (fun _ _ => True) llama x ∧ x.phase = .idle ∧
      x.passed = [(1, ⟨1, 0⟩), (2, ⟨1, 100⟩)] ∧ x.stored 2 = [0] ∧ ¬ Own x) ∧
    (∃ y, Run (step WhisperSession.run) (fun _ _ => True) whisper y ∧ y.phase = .idle ∧
      y.passed = [(1, ⟨1, 0⟩), (2, ⟨1, 100⟩)] ∧ y.stored 2 = [0] ∧ ¬ Own y) := by
  have hx : Steps (step LlamaSession.run) llama secondPolledEarly _ := steps_of_foldlM rfl
  have hy : Steps (step WhisperSession.run) whisper pieceAfterPiece _ := steps_of_foldlM rfl
  refine ⟨⟨_, replay_run hx, rfl, rfl, rfl, fun h => ?_⟩,
    ⟨_, replay_run hy, rfl, rfl, rfl, fun h => ?_⟩⟩
  · have hown := (h (2, ⟨1, 100⟩) (by decide)).1
    simp at hown
  · have hown := (h (2, ⟨1, 100⟩) (by decide)).1
    simp at hown

end ReadersSpeech.Sessions
