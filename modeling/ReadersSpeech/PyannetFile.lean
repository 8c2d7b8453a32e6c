import ReadersSpeech.Layout
import ReadersSpeech.Lstm

/-! The weight file: what tools/export-pyannet.py writes and `pyannet_load` of pyannet.c reads.
A float is its 32 bits. A `size_t` has 64, and a pointer into the weights is the number of floats
before it, counted as the additions to it count. An `int` that overflows is undefined behaviour.
-/

set_option autoImplicit false

namespace ReadersSpeech.PyannetFile
open Layout Pyannet

abbrev Bytes := List UInt8
abbrev Word := UInt32
abbrev SizeT := BitVec 64

/-- The thirteen integers of the header, in its order. -/
@[ext] structure Dims where
  sincC : Int32
  sincK : Int32
  sincS : Int32
  c1 : Int32
  k1 : Int32
  c2 : Int32
  k2 : Int32
  pool : Int32
  layers : Int32
  hidden : Int32
  d0 : Int32
  d1 : Int32
  classes : Int32
  deriving DecidableEq, Repr

def Dims.list (d : Dims) : List Int32 :=
  [d.sincC, d.sincK, d.sincS, d.c1, d.k1, d.c2, d.k2, d.pool, d.layers, d.hidden, d.d0, d.d1,
    d.classes]

/-- The pointers of `struct pyannet`; those of the LSTM by layer and direction. -/
inductive Field where
  | wavScale | wavBias
  | sinc
  | n0Scale | n0Bias
  | conv1W | conv1B
  | n1Scale | n1Bias
  | conv2W | conv2B
  | n2Scale | n2Bias
  | wt (l d : Nat) | rt (l d : Nat) | b (l d : Nat)
  | lin0W | lin0B
  | lin1W | lin1B
  | clsW | clsB
  deriving DecidableEq, Repr

/-- The file layout: the tensors in order, each with its shape. -/
def shapes (d : Dims) : List (Field × List Int) :=
  let H := d.hidden.toInt
  [(.wavScale, [1]), (.wavBias, [1]),
    (.sinc, [d.sincC.toInt, d.sincK.toInt]),
    (.n0Scale, [d.sincC.toInt]), (.n0Bias, [d.sincC.toInt]),
    (.conv1W, [d.c1.toInt, d.sincC.toInt, d.k1.toInt]), (.conv1B, [d.c1.toInt]),
    (.n1Scale, [d.c1.toInt]), (.n1Bias, [d.c1.toInt]),
    (.conv2W, [d.c2.toInt, d.c1.toInt, d.k2.toInt]), (.conv2B, [d.c2.toInt]),
    (.n2Scale, [d.c2.toInt]), (.n2Bias, [d.c2.toInt])] ++
  (List.range d.layers.toInt.toNat).flatMap (fun l => (List.range 2).flatMap fun dir =>
    [(.wt l dir, [if l = 0 then d.c2.toInt else 2 * H, gates * H]), (.rt l dir, [H, gates * H]),
      (.b l dir, [gates * H])]) ++
  [(.lin0W, [2 * H, d.d0.toInt]), (.lin0B, [d.d0.toInt]),
    (.lin1W, [d.d0.toInt, d.d1.toInt]), (.lin1B, [d.d1.toInt]),
    (.clsW, [d.d1.toInt, d.classes.toInt]), (.clsB, [d.classes.toInt])]

/-- How many floats each tensor has. -/
def lengths (d : Dims) : List (Field × Int) := (shapes d).map fun s => (s.1, s.2.prod)

def total (d : Dims) : Int := ((lengths d).map Prod.snd).sum

/-! ### The writer -/

/-- A C-contiguous array of float32. -/
structure Tensor where
  shape : List Int
  data : List Word
  sized : (data.length : Int) = shape.prod

def put (out : List Word) (a : Tensor) (shape : List Int) : Option (List Word) :=
  if a.shape = shape then some (out ++ a.data) else none

def packWord (w : Word) : Bytes :=
  [w.toUInt8, (w >>> 8).toUInt8, (w >>> 16).toUInt8, (w >>> 24).toUInt8]

/-- `b"PYAN"`. -/
def magic : Bytes := [0x50, 0x59, 0x41, 0x4E]

def version : Int32 := 1

/-- `struct.pack("<4si13iffi", …)`, which refuses a count that is no int32. -/
def packHeader (d : Dims) (eps alpha : Word) (count : Nat) : Option Bytes :=
  if count < 2 ^ 31 then
    some (magic ++ (version :: d.list).flatMap (fun x => packWord x.toUInt32) ++ packWord eps ++
      packWord alpha ++ packWord (UInt32.ofNat count))
  else none

def exportPyannet (d : Dims) (eps alpha : Word) (tensor : Field → Tensor) : Option Bytes := do
  let weights ← (shapes d).foldlM (fun out s => put out (tensor s.1) s.2) []
  let header ← packHeader d eps alpha weights.length
  return header ++ weights.flatMap packWord

/-! ### The reader -/

/-- The four bytes at `i`; every caller has tested that they are there. -/
def rdWord (p : Bytes) (i : Nat) : Word :=
  (p.getD i 0).toUInt32 ||| (p.getD (i + 1) 0).toUInt32 <<< 8 |||
    (p.getD (i + 2) 0).toUInt32 <<< 16 ||| (p.getD (i + 3) 0).toUInt32 <<< 24

def rdI32 (p : Bytes) (i : Nat) : Int32 := (rdWord p i).toInt32

def headerSize : Nat := 4 + 4 + 13 * 4 + 2 * 4 + 4

def rdDims (p : Bytes) : Dims :=
  let h := fun i => rdI32 p (8 + 4 * i)
  ⟨h 0, h 1, h 2, h 3, h 4, h 5, h 6, h 7, h 8, h 9, h 10, h 11, h 12⟩

inductive Fault where
  | signedOverflow
  deriving DecidableEq, Repr

/-- A product of type `int`. -/
def intMul (a b : Int) : Except Fault Int :=
  if -2 ^ 31 ≤ a * b ∧ a * b < 2 ^ 31 then .ok (a * b) else .error .signedOverflow

/-- `(size_t) x`. -/
def size (x : Int) : SizeT := BitVec.ofInt 64 x

def pyannetClasses : Int32 := 7

/-- The tests made before any size is computed. -/
def unfit (d : Dims) (count : Int32) (n : Nat) : Bool :=
  d.layers < 1 || 8 < d.layers || d.classes != pyannetClasses || d.pool < 1 || d.sincS < 1 ||
    count < 0 || n < headerSize + 4 * count.toInt.toNat || d.hidden ≤ 0

/-- `G` is `GATES * H`; since it did not overflow, `2 * H` does not. -/
def need (d : Dims) (G : Int) : Except Fault SizeT := do
  let H := d.hidden.toInt
  let sincC := size d.sincC.toInt
  let c1 := size d.c1.toInt
  let c2 := size d.c2.toInt
  let d0 := size d.d0.toInt
  let d1 := size d.d1.toInt
  let twoSinc ← intMul 2 d.sincC.toInt
  let twoC1 ← intMul 2 d.c1.toInt
  let twoC2 ← intMul 2 d.c2.toInt
  let front := 2 + sincC * size d.sincK.toInt + size twoSinc +
    c1 * sincC * size d.k1.toInt + c1 + size twoC1 +
    c2 * c1 * size d.k2.toInt + c2 + size twoC2
  let layers := (List.range d.layers.toInt.toNat).foldl (fun need l => need +
    2 * (size (if l = 0 then d.c2.toInt else 2 * H) * size G + size H * size G + size G)) front
  return layers + (2 * size H * d0 + d0 + d0 * d1 + d1 + d1 * size d.classes.toInt +
    size d.classes.toInt)

/-- The fields in the order of the `TAKE`s, each with what is added to the pointer. -/
def takes (d : Dims) (G : Int) : List (Field × SizeT) :=
  let H := d.hidden.toInt
  let sincC := size d.sincC.toInt
  let c1 := size d.c1.toInt
  let c2 := size d.c2.toInt
  let d0 := size d.d0.toInt
  let d1 := size d.d1.toInt
  [(.wavScale, 1), (.wavBias, 1),
    (.sinc, sincC * size d.sincK.toInt),
    (.n0Scale, sincC), (.n0Bias, sincC),
    (.conv1W, c1 * sincC * size d.k1.toInt), (.conv1B, c1),
    (.n1Scale, c1), (.n1Bias, c1),
    (.conv2W, c2 * c1 * size d.k2.toInt), (.conv2B, c2),
    (.n2Scale, c2), (.n2Bias, c2)] ++
  (List.range d.layers.toInt.toNat).flatMap (fun l => (List.range 2).flatMap fun dir =>
    [(.wt l dir, size (if l = 0 then d.c2.toInt else 2 * H) * size G),
      (.rt l dir, size H * size G), (.b l dir, size G)]) ++
  [(.lin0W, 2 * size H * d0), (.lin0B, d0),
    (.lin1W, d0 * d1), (.lin1B, d1),
    (.clsW, d1 * size d.classes.toInt), (.clsB, size d.classes.toInt)]

/-- `struct pyannet`; a pointer that was never set is `none`. -/
structure Model where
  dims : Dims
  eps : Word
  alpha : Word
  weights : List Word
  pointer : Field → Option SizeT

/-- The `n` floats at a pointer. -/
def Model.slice (m : Model) (f : Field) (n : Int) : Option (List Word) :=
  (m.pointer f).map fun o => (m.weights.drop o.toNat).take n.toNat

/-- The struct as `pyannet_load` fills it, with `need` floats copied from the file. -/
def filled (p : Bytes) (G : Int) (need : SizeT) : Model where
  dims := rdDims p
  eps := rdWord p 60
  alpha := rdWord p 64
  weights := (List.range need.toNat).map fun i => rdWord p (headerSize + 4 * i)
  pointer := ((takes (rdDims p) G).foldl placeNext (fun _ => none, 0)).1

/-- `calloc` and `malloc` say whether the two allocations are granted. -/
def pyannetLoad (calloc malloc : Bool) (p : Bytes) : Except Fault (Option Model) :=
  if p.length < headerSize || p.take 4 != magic || rdI32 p 4 != version then .ok none
  else if !calloc then .ok none
  else
    let d := rdDims p
    let count := rdI32 p 68
    if unfit d count p.length then .ok none
    else do
      let G ← intMul gates d.hidden.toInt
      if G.tmod 16 != 0 then return none
      let need ← need d G
      if size count.toInt != need then return none
      if !malloc then return none
      return some (filled p G need)

end ReadersSpeech.PyannetFile
