import ReadersSpeech.Marking
import ReadersSpeech.NativeHeap
import ReadersSpeech.PyannetExported

/-! `VoicesLib` of jni.c with the shipped network, and `Voices` on top of it, from the bytes of the
model to the marks. A window of the piece is copied to a block of its own, and the scores are copied
back.
-/

set_option autoImplicit false

namespace ReadersSpeech.VoicesLib
open Cells NativeHeap Jvm Pyannet Voices

/-- What is granted to one call: the two blocks of its own, the two of `pyannet_run`, and the array
it returns. -/
structure Grants where
  window : Bool
  out : Bool
  mem : Bool
  rowTable : Bool
  result : Bool
  deriving DecidableEq, Repr

def Grants.all (g : Grants) : Bool := g.window && g.out && g.mem && g.rowTable && g.result

variable {α : Type}

/-- `NewFloatArray` and `SetFloatArrayRegion`. -/
def newFloatArray (granted : Bool) (xs : List α) : Option (JArray α) :=
  if h : xs.length < 2 ^ 31 then if granted then some ⟨xs, h⟩ else none else none

section Model
variable [LayerOps α]

/-- What is done where both blocks are there. -/
def analysed (g : Grants) (m : Net α) (pcm : JArray α) (offset n : Int32) (frames : ℤ)
    (window out : ℕ) (h : Heap α) : Option (Option (JArray α) × Heap α) := do
  let w ← put (← h.blocks window) 0 ((pcm.data.drop offset.toInt.toNat).take (nat n))
  let h ← h.set window w
  let (rc, got, o) ← pyannetRun g.mem g.rowTable (some m) (some (← cells w 0 (nat n))) n
    (some (← h.blocks out))
  let o ← o
  let h ← h.set out o
  if rc = 0 ∧ got = frames then
    let count ← int (frames * PyannetFile.pyannetClasses.toInt)
    return (newFloatArray g.result (← cells o 0 count.toNat), h)
  else return (none, h)

def run (g : Grants) (m : Option (Net α)) (pcm : Option (JArray α)) (offset n : Int32)
    (h : Heap α) : Option (Option (JArray α) × Heap α) :=
  match m, pcm with
  | some m, some pcm => do
    if offset < 0 ∨ n ≤ 0 then return (none, h)
    if (pcm.data.length : ℤ) < (← int (offset.toInt + n.toInt)) then return (none, h)
    let frames ← pyannetFrames (some m.dims) n
    if frames ≤ 0 then return (newFloatArray g.result [], h)
    let (window, h) := mallocIf g.window (nat n) h
    let (out, h) := mallocIf g.out (frames.toNat * PyannetFile.pyannetClasses.toInt.toNat) h
    let (result, h) ← match window, out with
      | some window, some out => analysed g m pcm offset n frames window out h
      | _, _ => some (none, h)
    let h ← freeIfAny window h
    let h ← freeIfAny out h
    return (result, h)
  | _, _ => some (none, h)

/-- The runner of `Voices.fromBytes`; it fails where the network gives nothing. -/
def runner (g : Grants) (m : Net α) (h : Heap α) : FrameRunner α := fun pcm offset n =>
  match (run g (some m) (some pcm) offset n h).bind Prod.fst with
  | some y => .ok y
  | none => .error .failed

/-- Every call finds a heap and is granted what it is. -/
def network (g : ℕ → Grants) (m : Net α) (heap : ℕ → Heap α) : Network α :=
  fun k => runner (g k) m (heap k)

end Model

section Clean
variable [LayerOps α] {g : Grants} {m : Net α} {pcm : JArray α} {offset n : Int32} {h₀ h : Heap α}

/-- The frames of `n` samples. -/
def framesOf (n : Int32) : ℤ := (n.toInt - 991) / 270 + 1

/-- An array of as many scores as there are, or a null pointer where something was not granted. -/
def Answers (g : Grants) (n : Int32) (y : Option (JArray α)) : Prop :=
  (∀ y', y = some y' → y'.data.length = (framesOf n).toNat * 7) ∧ (g.all = true → y.isSome = true)

end Clean

section Asked
variable {τ : Type} {pcm : JArray τ}

/-- A window of the piece, of a second at least and ten at most. -/
def Inside (pcm : JArray τ) (c : Call) : Prop :=
  0 ≤ c.offset.toInt ∧ 16000 ≤ c.n.toInt ∧ c.n.toInt ≤ 160000 ∧
    c.offset.toInt + c.n.toInt ≤ pcm.data.length

end Asked

section Marks
variable [LayerOps α] [LT α] [DecidableLT α]

end Marks

section Voices
variable [LayerOps α] [LT α] [DecidableLT α]

end Voices

section Blank
open PyannetFile

/-- The weights of a network of the shipped dimensions, all of them zero. -/
def blankTensor (f : Field) : Tensor := zeros ((((shapes shipped).lookup f).getD []).map Int.toNat)

theorem blankTensor_shape : ∀ s ∈ shapes shipped, (blankTensor s.1).shape = s.2 := by decide

theorem blank_fits : (fileBytes shipped 1 2 blankTensor).length < 2 ^ 31 := by
  have hweights := length_weights blankTensor_shape
  rw [total_shipped] at hweights
  rw [length_fileBytes, headerSize]
  omega

def blank : JArray UInt8 := ⟨fileBytes shipped 1 2 blankTensor, blank_fits⟩

def ofWord (w : Word) : ℤ := w.toNat

end Blank

end ReadersSpeech.VoicesLib
