import ReadersSpeech.Lstm

/-! The layers of pyannet.c around the LSTM stack: the stride phases of the waveform, the sinc
convolution over them, pooling, normalisation, the plain convolutions, and the head.
-/

set_option autoImplicit false

namespace ReadersSpeech.Pyannet
open Cells FloatOps

/-- What these layers do besides: on `float`, and in `instance_norm` on `double`. -/
class LayerOps (α : Type) extends FloatOps α where
  fabs : α → α
  gt : α → α → Bool
  ge : α → α → Bool
  expf : α → α
  logf : α → α
  Double : Type
  double : α → Double
  float : Double → α
  ofInt : ℤ → Double
  addD : Double → Double → Double
  subD : Double → Double → Double
  mulD : Double → Double → Double
  divD : Double → Double → Double
  sqrt : Double → Double

variable {α : Type} [LayerOps α]
open LayerOps

/-- The `n` entries of `x` from `off` on, normalised in place. -/
def instanceNorm (x : Block α) (off n : ℕ) (scale bias eps : α) : Option (Block α) := do
  let count : Double α := ofInt n
  let sum ← loop n (fun i sum => do return addD sum (double (← rd x (off + i)))) (ofInt 0)
  let mean := divD sum count
  let sq ← loop n (fun i sq => do
    let d := subD (double (← rd x (off + i))) mean
    return addD sq (mulD d d)) (ofInt 0)
  let inv := float (divD (ofInt 1) (sqrt (addD (divD sq count) (double eps))))
  let a := mul scale inv
  let b := sub bias (mul (float mean) a)
  loop n (fun i x => do wr x (off + i) (add (mul (← rd x (off + i)) a) b)) x

def leakyRelu (x : Block α) (off n : ℕ) (alpha : α) : Option (Block α) :=
  loop n (fun i x => do
    let v ← rd x (off + i)
    wr x (off + i) (if gt v zero then v else mul v alpha)) x

/-- The greatest of the `n` entries from `s` on: the first, unless a later one is greater. -/
def greatest (x : Block α) (s n : ℕ) : Option α := do
  let v ← rd x s
  loop (n - 1) (fun i v => do
    let e ← rd x (s + (i + 1))
    return if gt e v then e else v) v

def maxPool (inp : Block α) (base nOut pool : ℕ) (out : Block α) (off : ℕ) : Option (Block α) :=
  loop nOut (fun i out => do wr out (off + i) (← greatest inp (base + i * pool) pool)) out

def conv1d (inp : Block α) (cin lenIn : ℕ) (w bias : List α) (cout K : ℕ) (out : Block α) :
    Option (Block α) :=
  let lenOut := lenIn + 1 - K
  loop cout (fun co out => do
    let b ← bias[co]?
    let out ← loop lenOut (fun t out => wr out (co * lenOut + t) b) out
    loop cin (fun ci out => loop K (fun k out => do
      let v ← w[(co * cin + ci) * K + k]?
      loop lenOut (fun t out => do
        let acc ← rd out (co * lenOut + t)
        let s ← rd inp (ci * lenIn + k + t)
        wr out (co * lenOut + t) (add acc (mul v s))) out) out) out) out

/-- Phase `p` of the waveform: `x[S j + p]`, zero beyond the end. -/
def splitPhase (x : Block α) (n S p phaseLen : ℕ) (dst : Block α) (off : ℕ) : Option (Block α) :=
  loop phaseLen (fun j dst => do
    let idx := S * j + p
    wr dst (off + j) (← if idx < n then rd x idx else some zero)) dst

def splitPhases (x : Block α) (n S phaseLen : ℕ) (xp : Block α) : Option (Block α) :=
  loop S (fun p xp => splitPhase x n S p phaseLen xp (p * phaseLen)) xp

/-- Where `sinc_conv_abs` finds phase `p`. -/
def phaseIn (xp : Block α) (phaseLen p : ℕ) : Ptr α := ⟨xp, p * phaseLen⟩

def sincConvAbs (C K S : ℕ) (sinc : List α) (phase : ℕ → Ptr α) (l1Pad : ℕ)
    (rows : Block (Ptr α)) (out : Block α) : Option (Block (Ptr α) × Block α) := do
  let rows ← loop K (fun k rows => wr rows k ((phase (k % S)).plus (k / S))) rows
  let out ← clear out (C * l1Pad)
  let out ← loop (C / 4) (fun q out =>
    let c := q * 4
    let w := block sinc
    gemm4 ⟨w, c * K⟩ ⟨w, c * K + K⟩ ⟨w, c * K + 2 * K⟩ ⟨w, c * K + 3 * K⟩ K rows l1Pad
      (c * l1Pad) (c * l1Pad + l1Pad) (c * l1Pad + 2 * l1Pad) (c * l1Pad + 3 * l1Pad) out) out
  let out ← loop (C - C / 4 * 4) (fun i out =>
    let c := C / 4 * 4 + i
    gemv1 ⟨block sinc, c * K⟩ K rows l1Pad (c * l1Pad) out) out
  let out ← loop (C * l1Pad) (fun i out => do wr out i (fabs (← rd out i))) out
  return (rows, out)

/-- `max_pool`, `instance_norm` and `leaky_relu`, channel by channel. -/
def poolChannels (C : ℕ) (inp : Block α) (width pooled pool : ℕ) (scale bias : List α)
    (eps alpha : α) (out : Block α) : Option (Block α) :=
  loop C (fun ch out => do
    let o := ch * pooled
    let out ← maxPool inp (ch * width) pooled pool out o
    let out ← instanceNorm out o pooled (← scale[ch]?) (← bias[ch]?) eps
    leakyRelu out o pooled alpha) out

def linear (x : Block α) (F inp : ℕ) (w b : List α) (out : ℕ) (alpha : α) (y : Block α) :
    Option (Block α) :=
  loop F (fun t y => do
    let o := t * out
    let y ← memcpy y o b out
    let y ← loop inp (fun k y => do
      let a ← rd x (t * inp + k)
      loop out (fun j y => do
        let acc ← rd y (o + j)
        let wk ← w[k * out + j]?
        wr y (o + j) (add acc (mul a wk))) y) y
    if ge alpha zero then leakyRelu y o out alpha else return y) y

def logSoftmax (x : Block α) (off n : ℕ) : Option (Block α) := do
  let mx ← greatest x off n
  let sum ← loop n (fun i sum => do return add sum (expf (sub (← rd x (off + i)) mx))) zero
  let lse := add mx (logf sum)
  loop n (fun i x => do wr x (off + i) (sub (← rd x (off + i)) lse)) x

end ReadersSpeech.Pyannet
