import Mathlib.Analysis.SpecialFunctions.Sigmoid
import Mathlib.Analysis.SpecialFunctions.Sqrt

/-! Operators of ONNX graphs in the real numbers, as the standard defines them, for one signal or
one sequence at a time. A channel is a function of the time, a frame one of the feature.
-/

set_option autoImplicit false

namespace ReadersSpeech.Onnx
open Finset Real

/-- How many windows of `K` values, one every `S`, there are in `n` values. -/
def outLength (n K S : ℕ) : ℕ := (n - K) / S + 1

section Signals

noncomputable def mean (n : ℕ) (x : ℕ → ℝ) : ℝ := (∑ i ∈ range n, x i) / n

noncomputable def variance (n : ℕ) (x : ℕ → ℝ) : ℝ := (∑ i ∈ range n, (x i - mean n x) ^ 2) / n

noncomputable def instanceNormalization (n : ℕ) (scale bias epsilon : ℝ) (x : ℕ → ℝ) (i : ℕ) : ℝ :=
  scale * (x i - mean n x) / √(variance n x + epsilon) + bias

noncomputable def leakyRelu (alpha x : ℝ) : ℝ := if x < 0 then alpha * x else x

/-- The greatest of every `K` values. -/
noncomputable def maxPool (K : ℕ) (x : ℕ → ℝ) (i : ℕ) : ℝ := ⨆ k : Fin K, x (i * K + k)

/-- `C` channels, filters of `K` values, one window every `S`, no padding. -/
def conv (C K S : ℕ) (W : ℕ → ℕ → ℕ → ℝ) (X : ℕ → ℕ → ℝ) (m t : ℕ) : ℝ :=
  ∑ c ∈ range C, ∑ k ∈ range K, W m c k * X c (t * S + k)

end Signals

section Frames

/-- A row of `n` values by a matrix. -/
def matMul (n : ℕ) (x : ℕ → ℝ) (B : ℕ → ℕ → ℝ) (j : ℕ) : ℝ := ∑ k ∈ range n, x k * B k j

noncomputable def logSoftmax (n : ℕ) (x : ℕ → ℝ) (j : ℕ) : ℝ :=
  log (exp (x j) / ∑ i ∈ range n, exp (x i))

theorem logSoftmax_congr {n : ℕ} {x y : ℕ → ℝ} (h : ∀ i < n, x i = y i) {j : ℕ} (hj : j < n) :
    logSoftmax n x j = logSoftmax n y j := by
  have hsum : ∑ i ∈ range n, exp (x i) = ∑ i ∈ range n, exp (y i) :=
    sum_congr rfl fun i hi => by rw [h i (mem_range.mp hi)]
  rw [logSoftmax, logSoftmax, hsum, h j hj]

end Frames

/-- One direction of an LSTM. The rows of the weights are those of the
gates input, output, forget and cell; `B` has the biases of `W`, then those of `R`. -/
structure Lstm where
  inputs : ℕ
  hidden : ℕ
  W : ℕ → ℕ → ℝ
  R : ℕ → ℕ → ℝ
  B : ℕ → ℝ

structure Lstm.State where
  H : ℕ → ℝ
  C : ℕ → ℝ

/-- The activations: `f` of the gates, `g` of the cell, `h` of what leaves it. -/
structure Lstm.Activations where
  f : ℝ → ℝ
  g : ℝ → ℝ
  h : ℝ → ℝ

/-- `Sigmoid`, `Tanh` and `Tanh`. -/
noncomputable def Lstm.Activations.defaults : Activations := ⟨sigmoid, tanh, tanh⟩

/-- Nowhere further than `d` from each other. -/
structure Lstm.Activations.Near (d : ℝ) (A A' : Activations) : Prop where
  f : ∀ z, |A.f z - A'.f z| ≤ d
  g : ∀ z, |A.g z - A'.g z| ≤ d
  h : ∀ z, |A.h z - A'.h z| ≤ d

namespace Lstm
variable (A : Activations) (L : Lstm)

def gate (x : ℕ → ℝ) (s : State) (q j : ℕ) : ℝ :=
  let r := q * L.hidden + j
  ∑ k ∈ range L.inputs, x k * L.W r k + ∑ k ∈ range L.hidden, s.H k * L.R r k +
    L.B r + L.B (4 * L.hidden + r)

def cell (x : ℕ → ℝ) (s : State) (j : ℕ) : ℝ :=
  A.f (L.gate x s 2 j) * s.C j + A.f (L.gate x s 0 j) * A.g (L.gate x s 3 j)

def step (x : ℕ → ℝ) (s : State) : State where
  H := fun j => A.f (L.gate x s 1 j) * A.h (L.cell A x s j)
  C := L.cell A x s

/-- The state after `n` frames, from zeros. -/
def states (X : ℕ → ℕ → ℝ) : ℕ → State
  | 0 => ⟨fun _ => 0, fun _ => 0⟩
  | n + 1 => L.step A (X n) (states X n)

/-- What a bidirectional layer gives for frame `t` of `F`, the two directions side by side. -/
def bidirectional (fw bw : Lstm) (F : ℕ) (X : ℕ → ℕ → ℝ) (t j : ℕ) : ℝ :=
  if j < fw.hidden then (fw.states A X (t + 1)).H j
  else (bw.states A (fun s => X (F - 1 - s)) (F - t)).H (j - fw.hidden)

end Lstm

end ReadersSpeech.Onnx
