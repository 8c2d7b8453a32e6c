import ReadersSpeech.AbortFlag

/-! `fullTranscribe` and `cancel` of jni.c, as the atomic reads and writes they make. What
`whisper_full` returns, and how often it reports and asks in the meantime, is anything at all.
-/

set_option autoImplicit false

namespace ReadersSpeech.WhisperLib
open Transition AbortFlag

inductive Pc where
  | entered
  /-- Returned -1 at once: there was no context. -/
  | refused
  | clearingProgress
  | clearingAbort
  /-- Inside `whisper_full`, the second time when the voice detector failed the first. -/
  | decoding (again : Bool)
  | deciding (rc : Int)
  | startingAgain
  | testing (rc : Int)
  | returned (result : Int)
  deriving DecidableEq, Repr

/-- `vad` is `params.vad`: a detector was named. -/
structure State where
  vad : Bool
  progress : Int
  abort : Bool
  pc : Pc
  deriving DecidableEq, Repr

inductive Event where
  | context (found : Bool)
  | storeProgress (p : Int)
  | storeAbort
  | loadAbort (b : Bool)
  | finished (rc : Int)
  | cancel
  deriving DecidableEq, Repr

def stepPc (s : State) : Pc → Event → Option State
  | .entered, .context found =>
    some { s with pc := if found then .clearingProgress else .refused }
  | .clearingProgress, .storeProgress 0 => some { s with progress := 0, pc := .clearingAbort }
  | .clearingAbort, .storeAbort => some { s with abort := false, pc := .decoding false }
  | .decoding _, .storeProgress p => some { s with progress := p }
  | .decoding _, .loadAbort b => if b = s.abort then some s else none
  | .decoding again, .finished rc =>
    some { s with pc := if !again && rc != 0 && s.vad then .deciding rc else .testing rc }
  | .deciding rc, .loadAbort b =>
    if b = s.abort then some { s with pc := if b then .testing rc else .startingAgain } else none
  | .startingAgain, .storeProgress 0 =>
    some { s with vad := false, progress := 0, pc := .decoding true }
  | .testing rc, .loadAbort b =>
    if b = s.abort then
      some { s with pc := .returned (if b then 1 else if rc == 0 then 0 else -1) }
    else none
  | _, _ => none

def step (s : State) : Event → Option State
  | .cancel => some { s with abort := true }
  | e => stepPc s s.pc e

def Pc.before : Pc → Bool
  | .entered | .refused | .clearingProgress | .clearingAbort => true
  | _ => false

def before (s : State) : Bool := s.pc.before

inductive Moves (s : State) : Event → State → Prop
  | entered {found : Bool} : s.pc = .entered →
      Moves s (.context found) { s with pc := if found then .clearingProgress else .refused }
  | clearedProgress : s.pc = .clearingProgress →
      Moves s (.storeProgress 0) { s with progress := 0, pc := .clearingAbort }
  | clearedAbort : s.pc = .clearingAbort →
      Moves s .storeAbort { s with abort := false, pc := .decoding false }
  | reported {again : Bool} {p : Int} : s.pc = .decoding again →
      Moves s (.storeProgress p) { s with progress := p }
  | polled {again : Bool} : s.pc = .decoding again → Moves s (.loadAbort s.abort) s
  | finished {again : Bool} {rc : Int} : s.pc = .decoding again → Moves s (.finished rc)
      { s with pc := if !again && rc != 0 && s.vad then .deciding rc else .testing rc }
  | decided {rc : Int} : s.pc = .deciding rc → Moves s (.loadAbort s.abort)
      { s with pc := if s.abort then .testing rc else .startingAgain }
  | startedAgain : s.pc = .startingAgain →
      Moves s (.storeProgress 0) { s with vad := false, progress := 0, pc := .decoding true }
  | tested {rc : Int} : s.pc = .testing rc → Moves s (.loadAbort s.abort)
      { s with pc := .returned (if s.abort then 1 else if rc == 0 then 0 else -1) }

theorem step_moves {s s' : State} {e : Event} (h : step s e = some s') :
    e = .cancel ∧ s' = { s with abort := true } ∨ Moves s e s' := by
  by_cases hc : e = .cancel
  · subst hc
    exact .inl ⟨rfl, (Option.some.inj h).symm⟩
  · have hs : step s e = stepPc s s.pc e := by cases e <;> first | rfl | exact absurd rfl hc
    rw [hs] at h
    unfold stepPc at h
    split at h
    · rename_i hpc; exact .inr (Option.some.inj h ▸ .entered hpc)
    · rename_i hpc; exact .inr (Option.some.inj h ▸ .clearedProgress hpc)
    · rename_i hpc; exact .inr (Option.some.inj h ▸ .clearedAbort hpc)
    · rename_i hpc; exact .inr (Option.some.inj h ▸ .reported hpc)
    · rename_i hpc
      split at h
      · rename_i hb; exact .inr (hb ▸ Option.some.inj h ▸ .polled hpc)
      · simp at h
    · rename_i hpc; exact .inr (Option.some.inj h ▸ .finished hpc)
    · rename_i hpc
      split at h
      · rename_i hb; subst hb; exact .inr (Option.some.inj h ▸ .decided hpc)
      · simp at h
    · rename_i hpc; exact .inr (Option.some.inj h ▸ .startedAgain hpc)
    · rename_i hpc
      split at h
      · rename_i hb; subst hb; exact .inr (Option.some.inj h ▸ .tested hpc)
      · simp at h
    · simp at h

theorem Moves.past {s s' : State} {e : Event} (h : Moves s e s') (hb : before s = false) :
    e ≠ .storeAbort ∧ s'.abort = s.abort ∧ before s' = false := by
  cases h with
  | entered hpc | clearedProgress hpc | clearedAbort hpc => simp [before, hpc, Pc.before] at hb
  | reported hpc | polled hpc => exact ⟨by simp, rfl, by simp [before, hpc, Pc.before]⟩
  | finished hpc | decided hpc =>
    refine ⟨by simp, rfl, ?_⟩
    simp only [before, apply_ite Pc.before]
    simp [Pc.before]
  | startedAgain | tested => exact ⟨by simp, rfl, rfl⟩

theorem Moves.early {s s' : State} {e : Event} (h : Moves s e s') (hb : before s = true) :
    e = .storeAbort ∧ s'.abort = false ∧ before s' = false ∨
      e ≠ .storeAbort ∧ s'.abort = s.abort ∧ before s' = true := by
  cases h with
  | @entered found _ => exact .inr ⟨by simp, rfl, by cases found <;> rfl⟩
  | clearedProgress => exact .inr ⟨by simp, rfl, rfl⟩
  | clearedAbort => exact .inl ⟨rfl, rfl, rfl⟩
  | reported hpc | polled hpc | finished hpc | decided hpc | startedAgain hpc | tested hpc =>
    simp [before, hpc, Pc.before] at hb

theorem moves_of_step {s s' : State} {e : Event} (hne : e ≠ .cancel) (h : step s e = some s') :
    Moves s e s' := (step_moves h).resolve_left fun hc => hne hc.1

theorem flagged : Flagged step State.abort before .storeAbort .cancel where
  raised s s' h := by
    obtain rfl := Option.some.inj h
    exact ⟨rfl, rfl⟩
  early s e s' hne h hb := (moves_of_step hne h).early hb
  past s e s' hne h hb := (moves_of_step hne h).past hb

/-- The value returned tells what the last test of the flag saw. -/
theorem result_iff {s s' : State} {es : List Event} (h : Steps step s es s')
    (hes : .cancel ∉ es) (hs : ∀ r, s.pc = .returned r → (r = 1 ↔ s.abort = true)) :
    ∀ r, s'.pc = .returned r → (r = 1 ↔ s'.abort = true) := by
  refine replay_invariant (I := fun s => ∀ r, s.pc = .returned r → (r = 1 ↔ s.abort = true))
    (P := fun e => e ≠ .cancel) (fun s e s' hs hne he r hr => ?_) h
    (fun e he hc => hes (hc ▸ he)) hs
  cases moves_of_step hne he with
  | entered | finished | decided =>
    simp only at hr
    split at hr <;> simp at hr
  | clearedProgress | clearedAbort | startedAgain => simp at hr
  | reported hpc | polled hpc => simp [hpc] at hr
  | @tested rc _ =>
    simp only [Pc.returned.injEq] at hr
    subst hr
    cases s.abort <;> simp
    split <;> simp

theorem returned_stuck {s s' : State} {e : Event} {r : Int} (hpc : s.pc = .returned r)
    (hne : e ≠ .cancel) (h : step s e = some s') : False := by
  cases moves_of_step hne h <;> simp_all

end ReadersSpeech.WhisperLib
