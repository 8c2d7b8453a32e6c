import ReadersSpeech.LlamaMemoryRuns

/-! A session of llama_jni.c from `initContext` to `freeContext`, with any calls of `generate` in
between. What llama.cpp makes is a block of its own that it frees again when it is told to.
-/

set_option autoImplicit false

namespace ReadersSpeech.LlamaLib
open Cells NativeHeap

/-- `struct session`, and where it is itself. -/
structure Session where
  self : ℕ
  model : ℕ
  ctx : ℕ
  sampler : ℕ
  nCtx : ℤ
  deriving DecidableEq, Repr

/-- What `initContext` leaves in `g_error`. -/
inductive InitFailure where
  | notLoaded
  | noRoom (nCtx : ℤ)
  deriving DecidableEq, Repr

def InitFailure.message : InitFailure → Str
  | .notLoaded => kt "the model cannot be loaded"
  | .noRoom nCtx => kt "no room for a context of " ++ kt (toString nCtx) ++ kt " tokens"

/-- The tokens of a context that is asked for. -/
def contextParams (nCtx : ℤ) : ℤ := if 0 < nCtx then nCtx else 4096

/-- `loads`, `fits` and `calloc` are whether the model, its context and the session come to be;
`llama_n_ctx` is the size the context comes to have. -/
structure Init where
  path : Bytes
  nCtx : ℤ
  loads : Bool
  fits : Bool
  calloc : Bool
  llamaNCtx : ℤ

def initContext (x : Init) (h : Heap UInt8) :
    Option ((Option Session × Option InitFailure) × Heap UInt8) := do
  let (path, h) := h.malloc (x.path.length + 1)
  let h ← h.set path (block (x.path ++ [0]))
  if !x.loads then return ((none, some .notLoaded), ← h.free path)
  let (model, h) := h.malloc 0
  let h ← h.free path
  if !x.fits then return ((none, some (.noRoom (contextParams x.nCtx))), ← h.free model)
  let (ctx, h) := h.malloc 0
  let (sampler, h) := h.malloc 0
  if !x.calloc then
    let h ← h.free sampler
    let h ← h.free ctx
    return ((none, none), ← h.free model)
  let (self, h) := h.malloc 0
  return ((some ⟨self, model, ctx, sampler, x.llamaNCtx⟩, none), h)

structure Asked where
  world : World
  prompt : Bytes
  maxTokens : ℤ

/-- A call with a session, or without one: then it returns at once. -/
def asks (s : Option Session) (h : Heap UInt8) (a : Asked) : Option (Heap UInt8) :=
  match s with
  | none => some h
  | some s => (generate a.world s.nCtx a.prompt a.maxTokens h).map Prod.snd

section Lifetime
variable {h₀ h : Heap UInt8} {l : List (ℕ × Block UInt8)}

end Lifetime

end ReadersSpeech.LlamaLib
