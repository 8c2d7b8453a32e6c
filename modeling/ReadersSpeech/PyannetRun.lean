import ReadersSpeech.PyannetFrames
import ReadersSpeech.PyannetLayers

/-! `pyannet_run` of pyannet.c: the sizes of its scratch, the regions they stand for, and the layers
one after the other. Each region is a block of its own, of the size computed for it; nothing is
written to it at first.
-/

set_option autoImplicit false

namespace ReadersSpeech.Pyannet
open Cells FloatOps PyannetFile

/-- A dimension, where it counts something. -/
def nat (x : Int32) : ℕ := x.toInt.toNat

abbrev Floats (α : Type) (n : ℕ) : Type := { xs : List α // xs.length = n }

/-- `struct pyannet`, with each array of weights as long as its shape says. -/
structure Net (α : Type) where
  dims : Dims
  eps : α
  alpha : α
  wavScale : Floats α 1
  wavBias : Floats α 1
  sinc : Floats α (nat dims.sincC * nat dims.sincK)
  n0Scale : Floats α (nat dims.sincC)
  n0Bias : Floats α (nat dims.sincC)
  conv1W : Floats α (nat dims.c1 * nat dims.sincC * nat dims.k1)
  conv1B : Floats α (nat dims.c1)
  n1Scale : Floats α (nat dims.c1)
  n1Bias : Floats α (nat dims.c1)
  conv2W : Floats α (nat dims.c2 * nat dims.c1 * nat dims.k2)
  conv2B : Floats α (nat dims.c2)
  n2Scale : Floats α (nat dims.c2)
  n2Bias : Floats α (nat dims.c2)
  lstm : (l : ℕ) → Bool →
    LstmDir α (if l = 0 then nat dims.c2 else 2 * nat dims.hidden) (nat dims.hidden)
  lin0W : Floats α (2 * nat dims.hidden * nat dims.d0)
  lin0B : Floats α (nat dims.d0)
  lin1W : Floats α (nat dims.d0 * nat dims.d1)
  lin1B : Floats α (nat dims.d1)
  clsW : Floats α (nat dims.d1 * nat dims.classes)
  clsB : Floats α (nat dims.classes)

def Net.recurrent {α : Type} (m : Net α) : Recurrent α :=
  ⟨nat m.dims.c2, nat m.dims.hidden, nat m.dims.layers, m.lstm⟩

/-- The numbers `pyannet_run` computes before it asks for memory. -/
structure Plan where
  G : ℤ
  l1Pad : ℤ
  phaseLen : ℤ
  nRows : ℤ
  x : SizeT
  xp : SizeT
  c1 : SizeT
  p1 : SizeT
  c2 : SizeT
  p2 : SizeT
  c3 : SizeT
  p3 : SizeT
  seq : SizeT
  g : SizeT
  lin : SizeT
  total : SizeT
  deriving DecidableEq, Repr

/-- `(l1 + TILE - 1) / TILE * TILE`. -/
def padded (l1 : ℤ) : Option ℤ := do
  int ((← quotient (← int ((← int (l1 + tile)) - 1)) tile) * tile)

def plan (d : Dims) (s : Lens) (n : ℤ) : Option Plan := do
  let H := d.hidden.toInt
  let F := s.f
  let G ← int (gates * H)
  let l1Pad ← padded s.l1
  let phaseLen ← int ((← int (l1Pad + (← quotient d.sincK.toInt d.sincS.toInt))) + 1)
  let twoH ← int (2 * H)
  let nRows := if twoH < d.sincK.toInt then d.sincK.toInt else twoH
  let x := size n
  let xp := size d.sincS.toInt * size phaseLen
  let c1 := size d.sincC.toInt * size l1Pad
  let p1 := size d.sincC.toInt * size s.p1
  let c2 := size d.c1.toInt * size s.l2
  let p2 := size d.c1.toInt * size s.p2
  let c3 := size d.c2.toInt * size s.l3
  let p3 := size d.c2.toInt * size F
  let seq := size F * 2 * size H
  let g := size F * size G
  let lin := size F * size (if d.d1.toInt < d.d0.toInt then d.d0.toInt else d.d1.toInt)
  let total := x + xp + c1 + p1 + c2 + p2 + c3 + p3 + 2 * seq + g + 2 * lin + size twoH + size G
  return ⟨G, l1Pad, phaseLen, nRows, x, xp, c1, p1, c2, p2, c3, p3, seq, g, lin, total⟩

variable {α : Type} [LayerOps α]

/-- From the samples to the last pooled channels, with the table of rows as the sinc layer leaves
it. -/
def frontEnd (m : Net α) (s : Lens) (p : Plan) (pcm : List α) (n : ℕ) :
    Option (Block (Ptr α) × Block α) := do
  let d := m.dims
  let phaseLen := p.phaseLen.toNat
  let l1Pad := p.l1Pad.toNat
  let x ← memcpy (fresh p.x.toNat) 0 pcm n
  let x ← instanceNorm x 0 n (← m.wavScale.1[0]?) (← m.wavBias.1[0]?) m.eps
  let xp ← splitPhases x n (nat d.sincS) phaseLen (fresh p.xp.toNat)
  let (rows, c1) ← sincConvAbs (nat d.sincC) (nat d.sincK) (nat d.sincS) m.sinc.1
    (phaseIn xp phaseLen) l1Pad (fresh p.nRows.toNat) (fresh p.c1.toNat)
  let p1 ← poolChannels (nat d.sincC) c1 l1Pad s.p1.toNat (nat d.pool) m.n0Scale.1 m.n0Bias.1 m.eps
    m.alpha (fresh p.p1.toNat)
  let c2 ← conv1d p1 (nat d.sincC) s.p1.toNat m.conv1W.1 m.conv1B.1 (nat d.c1) (nat d.k1)
    (fresh p.c2.toNat)
  let p2 ← poolChannels (nat d.c1) c2 s.l2.toNat s.p2.toNat (nat d.pool) m.n1Scale.1 m.n1Bias.1
    m.eps m.alpha (fresh p.p2.toNat)
  let c3 ← conv1d p2 (nat d.c1) s.p2.toNat m.conv2W.1 m.conv2B.1 (nat d.c2) (nat d.k2)
    (fresh p.c3.toNat)
  let p3 ← poolChannels (nat d.c2) c3 s.l3.toNat s.f.toNat (nat d.pool) m.n2Scale.1 m.n2Bias.1 m.eps
    m.alpha (fresh p.p3.toNat)
  return (rows, p3)

/-- The three linear layers and the soft maximum of each frame; the last one has no leaky relu. -/
def head (m : Net α) (F : ℕ) (p : Plan) (cur out : Block α) : Option (Block α) := do
  let d := m.dims
  let lin0 ← linear cur F (2 * nat d.hidden) m.lin0W.1 m.lin0B.1 (nat d.d0) m.alpha
    (fresh p.lin.toNat)
  let lin1 ← linear lin0 F (nat d.d0) m.lin1W.1 m.lin1B.1 (nat d.d1) m.alpha (fresh p.lin.toNat)
  let out ← linear lin1 F (nat d.d1) m.clsW.1 m.clsB.1 (nat d.classes) (neg one) out
  loop F (fun t out => logSoftmax out (t * nat d.classes) (nat d.classes)) out

def buffers (m : Net α) (p : Plan) (rows : Block (Ptr α)) : Buffers α where
  cur := fresh p.seq.toNat
  nxt := fresh p.seq.toNat
  scratch :=
    { g := fresh p.g.toNat
      h := fresh (nat m.dims.hidden)
      c := fresh (nat m.dims.hidden)
      e := fresh p.G.toNat
      rows := rows }

/-- Everything after the two allocations. -/
def runAll (m : Net α) (s : Lens) (p : Plan) (pcm : List α) (n : ℕ) (out : Block α) :
    Option (Block α) := do
  let (rows, p3) ← frontEnd m s p pcm n
  let b ← runLayers m.recurrent s.f.toNat p3 (buffers m p rows)
  head m s.f.toNat p b.cur out

/-- What is returned, what `*frames` is, and `out`. A null pointer is `none`; `mem` and `rowTable`
say whether the two allocations are granted. -/
def pyannetRun (mem rowTable : Bool) (m : Option (Net α)) (pcm : Option (List α)) (n : Int32)
    (out : Option (Block α)) : Option (ℤ × ℤ × Option (Block α)) :=
  match m, pcm, out with
  | some m, some pcm, some out => do
    match ← lengths m.dims n.toInt with
    | none => return (-1, 0, some out)
    | some s =>
      let p ← plan m.dims s n.toInt
      if mem && rowTable then
        let out ← runAll m s p pcm (nat n) out
        return (0, s.f, some out)
      else return (-1, 0, some out)
  | _, _, out => return (-1, 0, out)

end ReadersSpeech.Pyannet
