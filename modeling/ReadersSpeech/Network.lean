import ReadersSpeech.SincLayer

/-! The segmentation network as its layers are defined, over signals and sequences of frames, with
every sum in ascending order. A tensor is read by its indices, in the order of the file; nothing is
said of memory.
-/

set_option autoImplicit false

namespace ReadersSpeech.Network
open Pyannet PyannetFile FloatOps LayerOps

variable {α : Type} [LayerOps α]

section Layers

def entry (xs : List α) (i : ℕ) : α := (xs[i]?).getD zero

def sumDouble (term : ℕ → Double α) : ℕ → Double α
  | 0 => ofInt 0
  | n + 1 => addD (sumDouble term n) (term n)

def mean (n : ℕ) (v : ℕ → α) : Double α :=
  divD (sumDouble (fun i => double (v i)) n) (ofInt n)

def squares (n : ℕ) (v : ℕ → α) : Double α :=
  sumDouble (fun i => mulD (subD (double (v i)) (mean n v)) (subD (double (v i)) (mean n v))) n

/-- What the values are multiplied by, for a deviation of `scale`. -/
def gain (n : ℕ) (scale eps : α) (v : ℕ → α) : α :=
  mul scale (float (divD (ofInt 1) (sqrt (addD (divD (squares n v) (ofInt n)) (double eps)))))

/-- Instance normalisation of `n` values. -/
def normalised (n : ℕ) (scale bias eps : α) (v : ℕ → α) (i : ℕ) : α :=
  add (mul (v i) (gain n scale eps v)) (sub bias (mul (float (mean n v)) (gain n scale eps v)))

def leaky (alpha v : α) : α := if gt v zero then v else mul v alpha

/-- The greatest of every `pool` values, `n` of them normalised. -/
def pooledChannel (pool n : ℕ) (scale bias eps alpha : α) (v : ℕ → α) (i : ℕ) : α :=
  leaky alpha (normalised n scale bias eps
    (fun i => maxOf (fun k => v (i * pool + k)) (pool - 1)) i)

/-- `start + Σ term c k`, for each `c` the `K` values of `k` in turn. -/
def sumChannels (start : α) (K : ℕ) (term : ℕ → ℕ → α) : ℕ → α
  | 0 => start
  | c + 1 => sumFrom (sumChannels start K term c) (term c) K

/-- A convolution with weights `[cout][cin][K]`. -/
def convolution (cin K : ℕ) (w bias : List α) (x : ℕ → ℕ → α) (co t : ℕ) : α :=
  sumChannels (entry bias co) K (fun ci k => mul (at2 w K (co * cin + ci) k) (x ci (t + k))) cin

/-- A linear layer with weights `[inp][out]`. -/
def dense (inp out : ℕ) (w b : List α) (x : ℕ → α) (j : ℕ) : α :=
  sumFrom (entry b j) (fun k => mul (x k) (at2 w out k j)) inp

def activated (alpha v : α) : α := if ge alpha zero then leaky alpha v else v

def logSoftmax (n : ℕ) (v : ℕ → α) (j : ℕ) : α :=
  sub (v j) (add (maxOf v (n - 1))
    (logf (sumFrom zero (fun i => expf (sub (v i) (maxOf v (n - 1)))) n)))

end Layers

section Whole
variable (d : Dims) (eps alpha : α) (tensor : Field → List α) (n : ℕ) (x : ℕ → α)

def waveform : ℕ → α :=
  normalised n (entry (tensor .wavScale) 0) (entry (tensor .wavBias) 0) eps x

def sincChannel (c : ℕ) : ℕ → α :=
  pooledChannel (nat d.pool) (lens d n).p1.toNat (entry (tensor .n0Scale) c)
    (entry (tensor .n0Bias) c) eps alpha
    (filtered (nat d.sincK) (nat d.sincS) (tensor .sinc) (waveform eps tensor n x) c)

def conv1Channel (c : ℕ) : ℕ → α :=
  pooledChannel (nat d.pool) (lens d n).p2.toNat (entry (tensor .n1Scale) c)
    (entry (tensor .n1Bias) c) eps alpha
    (convolution (nat d.sincC) (nat d.k1) (tensor .conv1W) (tensor .conv1B)
      (sincChannel d eps alpha tensor n x) c)

def conv2Channel (c : ℕ) : ℕ → α :=
  pooledChannel (nat d.pool) (lens d n).f.toNat (entry (tensor .n2Scale) c)
    (entry (tensor .n2Bias) c) eps alpha
    (convolution (nat d.c1) (nat d.k2) (tensor .conv2W) (tensor .conv2B)
      (conv1Channel d eps alpha tensor n x) c)

def lstmWeights (l : ℕ) (dir : Bool) : Recurrence.Weights α where
  inp := if l = 0 then nat d.c2 else 2 * nat d.hidden
  H := nat d.hidden
  wt := at2 (tensor (.wt l dir.toNat)) (gates * nat d.hidden)
  rt := at2 (tensor (.rt l dir.toNat)) (gates * nat d.hidden)
  b := at2 (tensor (.b l dir.toNat)) (gates * nat d.hidden) 0

/-- The frames after `l` recurrent layers. -/
def recurrent (F : ℕ) (xs : ℕ → ℕ → α) : ℕ → ℕ → ℕ → α
  | 0 => xs
  | l + 1 => Recurrence.bidirectional (lstmWeights d tensor l false) (lstmWeights d tensor l true)
      F (nat d.hidden) (recurrent F xs l)

/-- The three linear layers over one frame. -/
def scores (h : ℕ → α) : ℕ → α :=
  let y j := activated alpha
    (dense (2 * nat d.hidden) (nat d.d0) (tensor .lin0W) (tensor .lin0B) h j)
  let z j := activated alpha (dense (nat d.d0) (nat d.d1) (tensor .lin1W) (tensor .lin1B) y j)
  dense (nat d.d1) (nat d.classes) (tensor .clsW) (tensor .clsB) z

/-- For frame `t` of `n` samples `x`, the logarithm of the probability of each class. -/
def network (t : ℕ) : ℕ → α :=
  logSoftmax (nat d.classes) (scores d alpha tensor (recurrent d tensor (lens d n).f.toNat
    (fun t c => conv2Channel d eps alpha tensor n x c t) (nat d.layers) t))

end Whole

end ReadersSpeech.Network
