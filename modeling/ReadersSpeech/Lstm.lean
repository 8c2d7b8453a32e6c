import ReadersSpeech.Gemm

/-! The recurrent layers of pyannet.c: `vexp`, `lstm_dir`, and the layer loop of `pyannet_run`
with its two sequence buffers and the scratch that all layers share.
-/

set_option autoImplicit false

namespace ReadersSpeech.Pyannet
open Cells FloatOps

/-- `GATES`: input, output, forget, cell. -/
def gates : ℕ := 4

structure LstmDir (α : Type) (inp H : ℕ) where
  wt : List α
  rt : List α
  b : List α
  wt_length : wt.length = inp * (gates * H)
  rt_length : rt.length = H * (gates * H)
  b_length : b.length = gates * H

/-- `g`, `h`, `c`, `e` and the `rows` table, handed from one direction to the next. -/
structure Scratch (α : Type) where
  g : Block α
  h : Block α
  c : Block α
  e : Block α
  rows : Block (Ptr α)

variable {α : Type} [FloatOps α]

def memcpy (dst : Block α) (off : ℕ) (src : List α) (n : ℕ) : Option (Block α) :=
  loop n (fun j d => do wr d (off + j) (← src[j]?)) dst

/-- `memset` to zero bytes, which is `0.0f`. -/
def clear (dst : Block α) (n : ℕ) : Option (Block α) := loop n (fun j d => wr d j zero) dst

/-- Of `vexp` only that it replaces each entry by its exponential. -/
def vexp (x : Block α) (off n : ℕ) : Option (Block α) :=
  loop n (fun i x => do wr x (off + i) (exp (← rd x (off + i)))) x

def setRows (base : List α) (G n : ℕ) (rows : Block (Ptr α)) : Option (Block (Ptr α)) :=
  loop n (fun k rows => wr rows k ⟨block base, k * G⟩) rows

/-- The input projection and bias for all frames; `t + 4 <= F` lets `F / 4` groups of four by. -/
def project {inp H : ℕ} (L : LstmDir α inp H) (x : Block α) (F : ℕ) (rows : Block (Ptr α))
    (g : Block α) : Option (Block α) := do
  let G := gates * H
  let g ← loop F (fun t g => memcpy g (t * G) L.b G) g
  let g ← loop (F / 4) (fun q g =>
    let t := q * 4
    gemm4 ⟨x, t * inp⟩ ⟨x, t * inp + inp⟩ ⟨x, t * inp + 2 * inp⟩ ⟨x, t * inp + 3 * inp⟩ inp rows G
      (t * G) (t * G + G) (t * G + 2 * G) (t * G + 3 * G) g) g
  loop (F - F / 4 * 4) (fun i g =>
    let t := F / 4 * 4 + i
    gemv1 ⟨x, t * inp⟩ inp rows G (t * G) g) g

/-- `e = exp(-g)` for the three sigmoids, `exp(-2 g)` for the cell's tanh; `gt` is a row of `g`. -/
def gateExps (H : ℕ) (g : Block α) (gt : ℕ) (e : Block α) : Option (Block α) := do
  let e ← loop (3 * H) (fun j e => do wr e j (neg (← rd g (gt + j)))) e
  let e ← loop (gates * H - 3 * H) (fun i e => do
    wr e (3 * H + i) (mul (neg two) (← rd g (gt + (3 * H + i))))) e
  vexp e 0 (gates * H)

def updateCell (H : ℕ) (e c : Block α) : Option (Block α) :=
  loop H (fun j c => do
    let i_ := div one (add one (← rd e j))
    let f_ := div one (add one (← rd e (2 * H + j)))
    let c_ := sub (div two (add one (← rd e (3 * H + j)))) one
    wr c j (add (mul f_ (← rd c j)) (mul i_ c_))) c

/-- `exp(-2 c)` over the part of `e` that the cell's gate no longer needs. -/
def cellExps (H : ℕ) (c e : Block α) : Option (Block α) := do
  let e ← loop H (fun j e => do wr e (3 * H + j) (mul (neg two) (← rd c j))) e
  vexp e (3 * H) H

def output (H : ℕ) (e : Block α) (out : ℕ) (h y : Block α) : Option (Block α × Block α) :=
  loop H (fun j (h, y) => do
    let eo ← rd e (H + j)
    let tc ← rd e (3 * H + j)
    let h ← wr h j (mul (div one (add one eo)) (sub (div two (add one tc)) one))
    let y ← wr y (out + j) (← rd h j)
    return (h, y)) (h, y)

def advance (H ti yStride yOff : ℕ) (s : Block α × Scratch α) : Option (Block α × Scratch α) := do
  let (y, s) := s
  let G := gates * H
  let g ← gemv1 ⟨s.h, 0⟩ H s.rows G (ti * G) s.g
  let e ← gateExps H g (ti * G) s.e
  let c ← updateCell H e s.c
  let e ← cellExps H c e
  let (h, y) ← output H e (ti * yStride + yOff) s.h y
  return (y, { s with g, e, c, h })

def frameAtStep (backward : Bool) (F step : ℕ) : ℕ := if backward then F - 1 - step else step

/-- One direction of one layer, from the frames of `x` to the places of its half in `y`. -/
def lstmDir {inp H : ℕ} (L : LstmDir α inp H) (x : Block α) (F : ℕ) (backward : Bool)
    (yStride yOff : ℕ) (y : Block α) (s : Scratch α) : Option (Block α × Scratch α) := do
  let G := gates * H
  let rows ← setRows L.wt G inp s.rows
  let g ← project L x F rows s.g
  let rows ← setRows L.rt G H rows
  let h ← clear s.h H
  let c ← clear s.c H
  loop F (fun step s => advance H (frameAtStep backward F step) yStride yOff s)
    (y, { s with g, h, c, rows })

/-- The parts of `struct pyannet` that the recurrent layers read. -/
structure Recurrent (α : Type) where
  c2 : ℕ
  hidden : ℕ
  layers : ℕ
  /-- The forward direction, `false`, and the backward one, `true`. -/
  lstm : (l : ℕ) → Bool → LstmDir α (if l = 0 then c2 else 2 * hidden) hidden

/-- The memory the layer loop works on; `cur` and `nxt` are the two sequence buffers. -/
structure Buffers (α : Type) where
  cur : Block α
  nxt : Block α
  scratch : Scratch α

/-- The blocks `pyannet_run` allocates for them, with nothing written to any cell. -/
def allocate (m : Recurrent α) (F nRows : ℕ) : Buffers α where
  cur := fresh (F * 2 * m.hidden)
  nxt := fresh (F * 2 * m.hidden)
  scratch :=
    { g := fresh (F * (gates * m.hidden))
      h := fresh m.hidden
      c := fresh m.hidden
      e := fresh (gates * m.hidden)
      rows := fresh nRows }

def runLayer (m : Recurrent α) (F l : ℕ) (s : Buffers α) : Option (Buffers α) := do
  let H := m.hidden
  let (nxt, scratch) ← lstmDir (m.lstm l false) s.cur F false (2 * H) 0 s.nxt s.scratch
  let (nxt, scratch) ← lstmDir (m.lstm l true) s.cur F true (2 * H) H nxt scratch
  return ⟨nxt, s.cur, scratch⟩

def toFrames (c2 F : ℕ) (p3 seqa : Block α) : Option (Block α) :=
  loop c2 (fun ch a => loop F (fun t a => do wr a (t * c2 + ch) (← rd p3 (ch * F + t))) a) seqa

/-- The LSTM stack: each layer reads `cur` and writes `nxt`, then the two change places. -/
def runLayers (m : Recurrent α) (F : ℕ) (p3 : Block α) (s : Buffers α) : Option (Buffers α) := do
  let cur ← toFrames m.c2 F p3 s.cur
  loop m.layers (runLayer m F) { s with cur }

end ReadersSpeech.Pyannet
