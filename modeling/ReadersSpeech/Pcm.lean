import ReadersSpeech.Jvm
import ReadersSpeech.Text

/-! The two decoding loops of `Pcm.kt`, from what the codec puts out: `Decode.toPcm` keeps every
sample, `Decoder.chunks` hands them over in pieces.
-/

set_option autoImplicit false

namespace ReadersSpeech.Pcm

/-- The operations on `float`, of which nothing is assumed. -/
class SampleOps (α : Type) where
  zero : α
  add : α → α → α
  div : α → α → α
  ofInt : ℤ → α
  ofBits : UInt32 → α

/-- The sample rates and channel counts of a `MediaFormat`. -/
abbrev Positive := { n : Int32 // 0 < n.toInt }

structure Format where
  sampleRate : Positive
  channelCount : Positive
  pcmEncoding : Option Int32

structure Track where
  mime : Option Str
  format : Format

/-- What `dequeueOutputBuffer` has: nothing yet, a new format, or a buffer, of which `bytes` is what
lies between `offset` and `offset + size`. -/
inductive Output where
  | tryAgain
  | formatChanged (f : Format)
  | buffer (bytes : List UInt8) (endOfStream : Bool)

inductive Fault where
  | noAudioTrack
  | negativeArraySize
  deriving DecidableEq, Repr

/-- The text of the exception the code throws itself. -/
def Fault.message : Fault → Str
  | .noAudioTrack => kt "no audio track"
  | .negativeArraySize => []

def encodingPcm16Bit : Int32 := 2
def encodingPcmFloat : Int32 := 4

def Track.isAudio (t : Track) : Bool := (t.mime.map (kt "audio/").isPrefixOf).getD false

/-- The variables both loops take from a format. -/
structure Setting where
  rate : Positive
  channels : Positive
  encoding : Int32

def Setting.first (f : Format) : Setting :=
  ⟨f.sampleRate, f.channelCount, f.pcmEncoding.getD encodingPcm16Bit⟩

def Setting.change (s : Setting) (f : Format) : Setting :=
  ⟨f.sampleRate, f.channelCount, f.pcmEncoding.getD s.encoding⟩

section FloatList

structure FloatList (α : Type) where
  items : List α
  capacity : ℕ

variable {α : Type}

def FloatList.new : FloatList α := ⟨[], 2 ^ 20⟩

/-- `a.copyOf(a.size * 2)` throws where the product is no longer an `int`. -/
def FloatList.add (l : FloatList α) (v : α) : Except Fault (FloatList α) :=
  if l.items.length = l.capacity then
    if l.capacity * 2 < 2 ^ 31 then .ok ⟨l.items ++ [v], l.capacity * 2⟩
    else .error .negativeArraySize
  else .ok ⟨l.items ++ [v], l.capacity⟩

def FloatList.addAll (l : FloatList α) (vs : List α) : Except Fault (FloatList α) :=
  vs.foldlM FloatList.add l

end FloatList

variable {α : Type} [SampleOps α]
open SampleOps

/-- `asShortBuffer()` in the order of the machine, each value over 32768. -/
def shorts : List UInt8 → List α
  | lo :: hi :: rest =>
    div (ofInt (UInt16.ofNat (lo.toNat + 256 * hi.toNat)).toInt16.toInt) (ofInt 32768) ::
      shorts rest
  | _ => []

/-- `asFloatBuffer()` in the order of the machine. -/
def floats : List UInt8 → List α
  | a :: b :: c :: d :: rest =>
    ofBits (UInt32.ofNat (a.toNat + 256 * b.toNat + 65536 * c.toNat + 16777216 * d.toNat)) ::
      floats rest
  | _ => []

/-- The samples of one output buffer: each frame averaged over its channels. -/
def mono (s : Setting) (bytes : List UInt8) : List α :=
  let values := if s.encoding = encodingPcmFloat then floats bytes else shorts bytes
  let channels := s.channels.val.toInt.toNat
  (List.range (values.length / channels)).map fun k =>
    div (((values.drop (k * channels)).take channels).foldl add zero) (ofInt channels)

namespace Decode

inductive Result (α : Type) where
  | returned (samples : List α) (rate : Positive)
  | threw (f : Fault)
  | running

def loop (s : Setting) (out : FloatList α) : List Output → Result α
  | [] => .running
  | .tryAgain :: os => loop s out os
  | .formatChanged f :: os => loop (s.change f) out os
  | .buffer bytes endOfStream :: os =>
    match out.addAll (mono s bytes) with
    | .error f => .threw f
    | .ok out => if endOfStream then .returned out.items s.rate else loop s out os

def toPcm (tracks : List Track) (os : List Output) : Result α :=
  match tracks.find? Track.isAudio with
  | none => .threw .noAudioTrack
  | some t => loop (.first t.format) .new os

end Decode

namespace Decoder

/-- One call of `onChunk`. -/
structure Piece (α : Type) where
  samples : List α
  rate : Positive
  startMs : Int64
  deriving DecidableEq

structure State (α : Type) where
  setting : Setting
  acc : FloatList α
  startMs : Int64
  keepGoing : Bool
  calls : List (Piece α)

/-- What `chunks` has called, and how far it is: at its end, at an exception, or waiting for the
codec. -/
inductive Result (α : Type) where
  | returned (calls : List (Piece α))
  | threw (f : Fault) (calls : List (Piece α))
  | running (calls : List (Piece α))

def Result.calls : Result α → List (Piece α)
  | .returned cs | .threw _ cs | .running cs => cs

/-- `acc.size * 1000L / rate`. -/
def lengthMs (samples : List α) (rate : Positive) : Int64 :=
  (Jvm.size samples).toInt64 * 1000 / rate.val.toInt64

/-- `onChunk` answers by what it was called with so far. -/
def flush (onChunk : List (Piece α) → Bool) (st : State α) : State α :=
  if st.acc.items.length = 0 ∨ st.keepGoing = false then st
  else
    let ms := lengthMs st.acc.items st.setting.rate
    let calls := st.calls ++ [⟨st.acc.items, st.setting.rate, st.startMs⟩]
    { st with acc := .new, keepGoing := onChunk calls, startMs := st.startMs + ms, calls }

/-- `acc.size >= seconds * rate`. -/
def isFull (seconds : Int32) (rate : Positive) (n : ℕ) : Bool :=
  seconds * rate.val ≤ Int32.ofNat n

def loop (seconds : Int32) (onChunk : List (Piece α) → Bool) (st : State α) :
    List Output → Result α
  | [] => if st.keepGoing then .running st.calls else .returned (flush onChunk st).calls
  | o :: os =>
    if st.keepGoing = false then .returned (flush onChunk st).calls
    else
      match o with
      | .tryAgain => loop seconds onChunk st os
      | .formatChanged f => loop seconds onChunk { st with setting := st.setting.change f } os
      | .buffer bytes endOfStream =>
        match st.acc.addAll (mono st.setting bytes) with
        | .error f => .threw f st.calls
        | .ok acc =>
          let st := { st with acc }
          let st := if isFull seconds st.setting.rate acc.items.length then flush onChunk st else st
          if endOfStream then .returned (flush onChunk st).calls else loop seconds onChunk st os

def chunks (tracks : List Track) (seconds : Int32) (onChunk : List (Piece α) → Bool)
    (os : List Output) : Result α :=
  match tracks.find? Track.isAudio with
  | none => .threw .noAudioTrack []
  | some t => loop seconds onChunk ⟨.first t.format, .new, 0, true, []⟩ os

end Decoder

end ReadersSpeech.Pcm
