import ReadersSpeech.LlamaMemory

/-! A call of `generate` on its heap, against the steps it takes: whatever llama.cpp answers and
whichever allocation fails, all it allocated is freed again, and what it hands back is what a run of
those steps hands back.
-/

set_option autoImplicit false

namespace ReadersSpeech.LlamaLib
open Cells NativeHeap Transition
open Pyannet (int)

/-- Of a piece that finds no room, either nothing is written and the answer goes on, or the call
ends: the first is for those that do not fit the buffer on the stack. -/
def Piece (w : World) (produced : ℤ) (t : Bytes) (seen : Sampled) : Prop :=
  seen = .piece t ∨
    (seen = .piece [] ∧ 512 < t.length ∧
      (w.mallocBig produced = false ∨ w.reallocOut produced = false)) ∨
    (seen = .noMemory ∧ t.length ≤ 512 ∧ w.reallocOut produced = false)

/-- The events are what llama.cpp and the allocator answer. -/
def Agrees (w : World) (s : State) : Event → Prop
  | .decoded ok =>
    match s.pc with
    | .decodingPrompt _ i => ok = w.decodesPrompt i
    | .decoding produced _ => ok = w.decodes produced
    | _ => True
  | .sampled seen =>
    match s.pc with
    | .sampling produced _ =>
      match w.sample produced with
      | none => seen = .endOfGeneration
      | some t => Piece w produced t seen
    | _ => True
  | _ => True

/-- A call that has not been cancelled. -/
def going (nCtx maxTokens progress : ℤ) (error : Option Failure) (pc : Pc) : State :=
  ⟨nCtx, maxTokens, progress, false, error, pc⟩

/-- From `s` the call can come to its end with this outcome. -/
def EndsAs (w : World) (s : State) (out : Outcome) : Prop :=
  ∃ s' r, Run step (Agrees w) s s' ∧ s'.pc = .returned r ∧
    out.value = r.value.takeWhile (· != 0) ∧ out.progress = s'.progress ∧ out.error = s'.error

section Runs
variable {w : World} {s s' t : State} {e : Event} {out : Outcome}

theorem EndsAs.after (h : EndsAs w s' out) (hr : Run step (Agrees w) s s') : EndsAs w s out := by
  obtain ⟨t, r, ht, hend⟩ := h
  exact ⟨t, r, hr.trans ht, hend⟩

variable {nCtx maxTokens progress nPrompt i : ℤ} {error : Option Failure}

end Runs

section Reading
variable {w : World} {h₀ h : Heap UInt8} {l : List (ℕ × Block UInt8)} {toks : ℕ}
  {b : Block UInt8} {bs : Bytes} {nCtx maxTokens nPrompt : ℤ}

/-- How the reading loop leaves the heap, and where the run is that it is part of. -/
def ReadsTo (w : World) (h₀ : Heap UInt8) (l : List (ℕ × Block UInt8)) (toks : ℕ)
    (b : Block UInt8) (nCtx maxTokens : ℤ) (s : State) :
    Except Outcome ℤ × Heap UInt8 → Prop
  | (.error out, h) => Over h₀ l h ∧ EndsAs w s out
  | (.ok progress, h) => Over h₀ ((toks, b) :: l) h ∧ Run step (Agrees w) s
      (going nCtx maxTokens progress none
        (if 0 < maxTokens then .writing 0 [] else .storingDone []))

theorem ReadsTo.after {s s' : State} {x : Except Outcome ℤ × Heap UInt8}
    (hx : ReadsTo w h₀ l toks b nCtx maxTokens s' x) (hr : Run step (Agrees w) s s') :
    ReadsTo w h₀ l toks b nCtx maxTokens s x := by
  obtain ⟨out | p, h⟩ := x
  · exact ⟨hx.1, hx.2.after hr⟩
  · exact ⟨hx.1, hr.trans hx.2⟩

end Reading

section Writing
variable {w : World} {h₀ h : Heap UInt8} {l own : List (ℕ × Block UInt8)} {o : Out}
  {text t : Bytes} {nCtx maxTokens produced : ℤ}

/-- How the writing loop leaves the heap, and where the run is that it is part of. -/
def WritesTo (w : World) (h₀ : Heap UInt8) (l : List (ℕ × Block UInt8)) (nCtx maxTokens : ℤ)
    (s : State) : Except Outcome (Out × Option Failure) × Heap UInt8 → Prop
  | (.error out, h) => Over h₀ l h ∧ EndsAs w s out
  | (.ok (o, error), h) => ∃ text own progress, Held o text own ∧ Over h₀ (own ++ l) h ∧
      Run step (Agrees w) s (going nCtx maxTokens progress error (.storingDone text))

theorem WritesTo.after {s s' : State} {x : Except Outcome (Out × Option Failure) × Heap UInt8}
    (hx : WritesTo w h₀ l nCtx maxTokens s' x) (hr : Run step (Agrees w) s s') :
    WritesTo w h₀ l nCtx maxTokens s x := by
  obtain ⟨out | ⟨o, error⟩, h⟩ := x
  · exact ⟨hx.1, hx.2.after hr⟩
  · obtain ⟨text, own, progress, hheld, ho, hrun⟩ := hx
    exact ⟨text, own, progress, hheld, ho, hr.trans hrun⟩

end Writing

section Generate
variable {w : World} {h₀ h : Heap UInt8} {l own : List (ℕ × Block UInt8)}

/-- A call of `generate` that has only just begun. -/
def entered (nCtx maxTokens progress : ℤ) (abort : Bool) (error : Option Failure) : State :=
  ⟨nCtx, maxTokens, progress, abort, error, .entered⟩

variable {nCtx maxTokens p₀ : ℤ} {a₀ : Bool} {e₀ : Option Failure}

end Generate

/-- The model says good morning, whatever it is asked. -/
def greeting : World where
  template := some []
  apply := applyTemplate fun _ => chatml
  tokens _ := [151644]
  decodesPrompt _ := true
  sample produced := if produced = 0 then some hello else none
  decodes _ := true
  abortReading _ := false
  abortWriting _ := false
  malloc _ := true
  realloc _ := true
  mallocTokens := true
  mallocBig _ := true
  reallocOut _ := true

end ReadersSpeech.LlamaLib
