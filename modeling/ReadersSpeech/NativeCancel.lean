import ReadersSpeech.WhisperLib
import ReadersSpeech.LlamaLib

/-! A cancel that arrives while a native call runs. Both calls clear the flag after they have been
entered, so one that comes in between is lost; every later one is kept.
-/

set_option autoImplicit false

namespace ReadersSpeech.NativeCancel
open Transition AbortFlag

theorem fullTranscribe_iff {s s' : WhisperLib.State} {es₁ es₂ : List WhisperLib.Event} {r : Int}
    (hs : s.pc = .entered) (h : Steps WhisperLib.step s (es₁ ++ .cancel :: es₂) s')
    (hes : .cancel ∉ es₂) (hload : ∃ b, .loadAbort b ∈ es₂) (hr : s'.pc = .returned r) :
    r = 1 ↔ .storeAbort ∈ es₁ := by
  obtain ⟨s₁, h₁, -, s₂, hc, h₂⟩ := replay_append.mp h
  have hb : WhisperLib.before s = true := by simp [WhisperLib.before, hs, WhisperLib.Pc.before]
  have hb' : WhisperLib.before s' = false := by simp [WhisperLib.before, hr, WhisperLib.Pc.before]
  rw [← WhisperLib.flagged.raised_iff (by simp) h₁ hb hc h₂ hes hb']
  refine WhisperLib.result_iff h₂ hes (fun q hq => ?_) r hr
  obtain ⟨b, hmem⟩ := hload
  cases es₂ with
  | nil => simp at hmem
  | cons e es₂ =>
    obtain ⟨-, t, ht, -⟩ := h₂
    exact (WhisperLib.returned_stuck hq (fun he => hes (by simp [he])) ht).elim

theorem generate_iff {s s' : LlamaLib.State} {es₁ es₂ : List LlamaLib.Event} {r : LlamaLib.End}
    (hs : s.pc = .entered) (h : Steps LlamaLib.step s (es₁ ++ .cancel :: es₂) s')
    (hes : .cancel ∉ es₂) (hload : ∃ b, .loadAbort b ∈ es₂) (hr : s'.pc = .returned r) :
    r = .cancelled ↔ .storeAbort ∈ es₁ := by
  obtain ⟨s₁, h₁, -, s₂, hc, h₂⟩ := replay_append.mp h
  have hb : LlamaLib.before s = true := by simp [LlamaLib.before, hs, LlamaLib.Pc.before]
  have hb' : LlamaLib.before s' = false := by simp [LlamaLib.before, hr, LlamaLib.Pc.before]
  rw [← LlamaLib.flagged.raised_iff (by simp) h₁ hb hc h₂ hes hb']
  exact LlamaLib.end_iff h₂ hes hload hr

/-- A cancel with a test of the flag still to come ends the call as cancelled exactly when the
call had already cleared the flag. -/
theorem cancel_kept_iff (s s' : WhisperLib.State) (es₁ es₂ : List WhisperLib.Event) (r : Int)
    (t t' : LlamaLib.State) (fs₁ fs₂ : List LlamaLib.Event) (q : LlamaLib.End) :
    (s.pc = .entered → Steps WhisperLib.step s (es₁ ++ .cancel :: es₂) s' → .cancel ∉ es₂ →
      (∃ b, .loadAbort b ∈ es₂) → s'.pc = .returned r → (r = 1 ↔ .storeAbort ∈ es₁)) ∧
    (t.pc = .entered → Steps LlamaLib.step t (fs₁ ++ .cancel :: fs₂) t' → .cancel ∉ fs₂ →
      (∃ b, .loadAbort b ∈ fs₂) → t'.pc = .returned q → (q = .cancelled ↔ .storeAbort ∈ fs₁)) :=
  ⟨fun hs h hes hload hr => fullTranscribe_iff hs h hes hload hr,
    fun hs h hes hload hr => generate_iff hs h hes hload hr⟩

/-- A transcription and an answer, each about to begin with the flag down. -/
def transcription : WhisperLib.State := ⟨true, 0, false, .entered⟩
def answer : LlamaLib.State := ⟨4096, 1, 0, false, none, .entered⟩

/-- Cancelled inside `whisper_full`, and while the prompt is read. -/
theorem cancel_kept_late :
    (∃ s', Steps WhisperLib.step transcription
      ([.context true, .storeProgress 0, .storeAbort] ++ .cancel ::
        [.loadAbort true, .finished (-1), .loadAbort true, .loadAbort true]) s' ∧
      s'.pc = .returned 1 ∧ ((1 : Int) = 1 ↔
        WhisperLib.Event.storeAbort ∈ [.context true, .storeProgress 0, .storeAbort])) ∧
    (∃ s', Steps LlamaLib.step answer
      ([.session true, .storeProgress 0, .storeAbort] ++ .cancel ::
        [.tokenised (some 3), .loadAbort true]) s' ∧
      s'.pc = .returned .cancelled ∧ (LlamaLib.End.cancelled = .cancelled ↔
        LlamaLib.Event.storeAbort ∈ [.session true, .storeProgress 0, .storeAbort])) := by
  have hw : Steps WhisperLib.step transcription
      ([.context true, .storeProgress 0, .storeAbort] ++ .cancel ::
        [.loadAbort true, .finished (-1), .loadAbort true, .loadAbort true])
      ⟨true, 0, true, .returned 1⟩ := steps_of_foldlM rfl
  have hl : Steps LlamaLib.step answer
      ([.session true, .storeProgress 0, .storeAbort] ++ .cancel ::
        [.tokenised (some 3), .loadAbort true])
      ⟨4096, 1, 0, true, none, .returned .cancelled⟩ := steps_of_foldlM rfl
  have h := cancel_kept_iff transcription ⟨true, 0, true, .returned 1⟩
    [.context true, .storeProgress 0, .storeAbort]
    [.loadAbort true, .finished (-1), .loadAbort true, .loadAbort true] 1
    answer ⟨4096, 1, 0, true, none, .returned .cancelled⟩
    [.session true, .storeProgress 0, .storeAbort] [.tokenised (some 3), .loadAbort true] .cancelled
  exact ⟨⟨_, hw, rfl, h.1 rfl hw (by simp) ⟨true, by simp⟩ rfl⟩,
    ⟨_, hl, rfl, h.2 rfl hl (by simp) ⟨true, by simp⟩ rfl⟩⟩

/-- Cancelled between the entry and the reset: the transcription returns 0, and the answer is
written to its end. -/
theorem cancel_lost_early :
    (∃ s', Steps WhisperLib.step transcription
      ([.context true] ++ .cancel ::
        [.storeProgress 0, .storeAbort, .finished 0, .loadAbort false]) s' ∧
      s'.pc = .returned 0) ∧
    (∃ s', Steps LlamaLib.step answer
      ([.session true] ++ .cancel ::
        [.storeProgress 0, .storeAbort, .tokenised (some 3), .loadAbort false, .decoded true,
          .storeProgress 30, .loadAbort false, .sampled (.piece [97]), .storeProgress 100,
          .decoded true, .storeProgress 100]) s' ∧
      s'.pc = .returned (.answered [97])) :=
  ⟨⟨_, steps_of_foldlM rfl, rfl⟩, ⟨_, steps_of_foldlM rfl, rfl⟩⟩

end ReadersSpeech.NativeCancel
