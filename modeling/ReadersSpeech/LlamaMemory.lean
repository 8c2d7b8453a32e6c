import ReadersSpeech.LlamaOut

/-! `generate` of llama_jni.c from its first line to its last, on a heap: what it allocates and
frees on each way out, the buffers it reads and writes, and the answer it hands back. A sum or a
product of ints that is none stops it, as what goes on then is undefined.
-/

set_option autoImplicit false

namespace ReadersSpeech.LlamaLib
open Cells NativeHeap Transition
open PyannetFile (size)
open Pyannet (int)

/-- What llama.cpp answers in one call, which allocations succeed, and what the tests of the flag
read: those of the loops at the index of the turn. -/
structure World where
  template : Option Bytes
  apply : ApplyTemplate
  tokens : Bytes → List UInt32
  decodesPrompt : ℤ → Bool
  /-- The piece of the token sampled; `none` at the end of the answer. -/
  sample : ℤ → Option Bytes
  decodes : ℤ → Bool
  abortReading : ℤ → Bool
  abortWriting : ℤ → Bool
  malloc : ℕ → Bool
  realloc : ℕ → Bool
  mallocTokens : Bool
  mallocBig : ℤ → Bool
  reallocOut : ℤ → Bool

/-- The string handed back, and the globals as the call leaves them. -/
structure Outcome where
  value : Bytes
  progress : ℤ
  error : Option Failure
  deriving DecidableEq, Repr

section Wrapping
variable (apply : ApplyTemplate) (malloc realloc : ℕ → Bool)

def terminateOnHeap (n cap : ℤ) (buf : ℕ) (h : Heap UInt8) :
    Option (Option ℕ × Heap UInt8) := do
  match ← terminate n cap (← h.blocks buf) with
  | none => return (none, ← h.free buf)
  | some b => return (some buf, ← h.set buf b)

def wrapOnHeap (tmpl : Option Bytes) (text : Bytes) (h : Heap UInt8) :
    Option (Option ℕ × Heap UInt8) :=
  match tmpl with
  | none => some (none, h)
  | some tmpl => do
    let cap ← guess text
    if !malloc (size cap).toNat then return (none, h)
    let (buf, h) := h.malloc (size cap).toNat
    let (n, b) := apply tmpl (messages text) true (← h.blocks buf) cap
    let h ← h.set buf b
    if cap < n then
      let room := (size n + 1).toNat
      if !realloc room then return (none, ← h.free buf)
      let (buf, h) ← h.realloc (some buf) room
      let cap ← int (n + 1)
      let (n, b) := apply tmpl (messages text) true (← h.blocks buf) cap
      terminateOnHeap n cap buf (← h.set buf b)
    else terminateOnHeap n cap buf h

end Wrapping

/-- The vendored `llama_token_to_piece`, for a token that stands for `t`. -/
def tokenToPiece (t : Bytes) (buf : Block UInt8) (length : ℤ) : Option (ℤ × Block UInt8) :=
  if length < t.length then some (-t.length, buf) else do return (t.length, ← put buf 0 t)

def tokenBytes (t : UInt32) : Bytes :=
  [t.toUInt8, (t >>> 8).toUInt8, (t >>> 16).toUInt8, (t >>> 24).toUInt8]

/-- The vendored `llama_tokenize`, for a text that makes the tokens `res`. -/
def tokenize (res : List UInt32) (buf : Block UInt8) (nMax : ℤ) : Option (ℤ × Block UInt8) :=
  if 2 ^ 31 - 1 ≤ res.length then some (-2 ^ 31, buf)
  else if nMax < res.length then some (-res.length, buf)
  else do return (res.length, ← put buf 0 (res.flatMap tokenBytes))

/-- The loop that reads the prompt: how it ended the call, or the progress it came to. -/
def readPrompt (w : World) (toks : ℕ) (nPrompt i progress : ℤ) (h : Heap UInt8) :
    Option (Except Outcome ℤ × Heap UInt8) :=
  if i < nPrompt then do
    if w.abortReading i then return (.error ⟨[], progress, none⟩, ← h.free toks)
    let n := if nPrompt - i < batch then nPrompt - i else batch
    let _ ← cells (← h.blocks toks) (4 * i.toNat) (4 * n.toNat)
    if !w.decodesPrompt i then
      return (.error ⟨[], progress, some (.readingFailed i nPrompt)⟩, ← h.free toks)
    let read ← int (25 * (i + n))
    let _ ← int (i + batch)
    readPrompt w toks nPrompt (i + batch) (5 + read.tdiv nPrompt) h
  else some (.ok progress, h)
termination_by (nPrompt - i).toNat
decreasing_by
  simp only [batch]
  omega

def pushPiece (w : World) (produced : ℤ) (t : Bytes) (o : Out) (h : Heap UInt8) :
    Option (Bool × Out × Heap UInt8) := do
  let (n, piece) ← tokenToPiece t (fresh 512) 512
  if n < 0 then
    if !w.mallocBig produced then return (true, o, h)
    let (big, h) := h.malloc (-n).toNat
    let (n, b) ← tokenToPiece t (← h.blocks big) (-n)
    let h ← h.set big b
    let (_, o, h) ← if 0 < n then outPush (w.reallocOut produced) o b n h else some (0, o, h)
    return (true, o, ← h.free big)
  else
    let (r, o, h) ← outPush (w.reallocOut produced) o piece n h
    return (r == 0, o, h)

/-- The loop that writes the answer, with `left` turns to go. -/
def writeAnswer (w : World) (maxTokens : ℤ) : ℕ → ℤ → Out → ℤ → Heap UInt8 →
    Option (Except Outcome (Out × Option Failure) × Heap UInt8)
  | 0, _, o, _, h => some (.ok (o, none), h)
  | left + 1, produced, o, progress, h =>
    if w.abortWriting produced then do
      return (.error ⟨[], progress, none⟩, ← freeIfAny o.data h)
    else match w.sample produced with
      | none => some (.ok (o, none), h)
      | some t => do
        let (room, o, h) ← pushPiece w produced t o h
        if !room then
          return (.error ⟨[], progress, some .outOfMemory⟩, ← freeIfAny o.data h)
        let written ← int (70 * (produced + 1))
        let progress := 30 + written.tdiv maxTokens
        if !w.decodes produced then return (.ok (o, some (.writingStopped produced)), h)
        writeAnswer w maxTokens left (produced + 1) o progress h

/-- `NewStringUTF` reads the answer as far as its first NUL. -/
def answer (o : Out) (error : Option Failure) (h : Heap UInt8) : Option (Outcome × Heap UInt8) := do
  let value ← match o.data with
    | none => some []
    | some p => do cstring (← h.blocks p)
  let error := if o.data.isNone || o.len == 0 then some .wroteNothing else error
  return (⟨value, 100, error⟩, ← freeIfAny o.data h)

def generate (w : World) (nCtx : ℤ) (prompt : Bytes) (maxTokens : ℤ) (h : Heap UInt8) :
    Option (Outcome × Heap UInt8) := do
  let (text, h) := h.malloc (prompt.length + 1)
  let h ← h.set text (block (prompt ++ [0]))
  let (wrapped, h) ← wrapOnHeap w.apply w.malloc w.realloc w.template prompt h
  let ask ← cstring (← h.blocks (wrapped.getD text))
  let (n, _) ← tokenize (w.tokens ask) [] 0
  let cap ← int (-n)
  let cap := if cap ≤ 0 then (ask.length : ℤ) / 2 + 16 else cap
  if !w.mallocTokens then
    let h ← freeIfAny wrapped h
    return (⟨[], 0, none⟩, ← h.free text)
  let (toks, h) := h.malloc (4 * cap.toNat)
  let (nPrompt, b) ← tokenize (w.tokens ask) (← h.blocks toks) cap
  let h ← h.set toks b
  let h ← freeIfAny wrapped h
  let h ← h.free text
  if nPrompt ≤ 0 then return (⟨[], 0, some .notTokenised⟩, ← h.free toks)
  let wanted ← int (nPrompt + maxTokens)
  if nCtx < wanted then
    return (⟨[], 0, some (.doesNotFit nPrompt maxTokens nCtx)⟩, ← h.free toks)
  match ← readPrompt w toks nPrompt 0 0 h with
  | (.error e, h) => return (e, h)
  | (.ok progress, h) =>
    let h ← h.free toks
    match ← writeAnswer w maxTokens maxTokens.toNat 0 ⟨none, 0, 0⟩ progress h with
    | (.error e, h) => return (e, h)
    | (.ok (o, error), h) => answer o error h

section Wrapping
variable {h₀ h : Heap UInt8} {l : List (ℕ × Block UInt8)} {apply : ApplyTemplate}
  {malloc realloc : ℕ → Bool} {tmpl : Option Bytes} {text : Bytes}

end Wrapping

section Asked
variable {apply : ApplyTemplate} {malloc realloc : ℕ → Bool} {tmpl text T : Bytes}

end Asked

end ReadersSpeech.LlamaLib
