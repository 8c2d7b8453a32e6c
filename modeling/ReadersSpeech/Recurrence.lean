import ReadersSpeech.Gemm

/-! The LSTM as textbooks write it, with the gates in the order input, output, forget, cell, every
sum in ascending order, and nothing but the sequence of frames and the states it runs through.
-/

set_option autoImplicit false

namespace ReadersSpeech.Recurrence
open Pyannet FloatOps

/-- The weights of one direction: `inp` inputs, `H` hidden units. -/
structure Weights (α : Type) where
  inp : ℕ
  H : ℕ
  wt : ℕ → ℕ → α
  rt : ℕ → ℕ → α
  b : ℕ → α

structure State (α : Type) where
  h : ℕ → α
  c : ℕ → α

variable {α : Type} [FloatOps α]

def sigmoid (z : α) : α := div one (add one (exp (neg z)))

def tanh (z : α) : α := sub (div two (add one (exp (mul (neg two) z)))) one

def gate (W : Weights α) (x h : ℕ → α) (j : ℕ) : α :=
  sumFrom (sumFrom (W.b j) (fun k => mul (x k) (W.wt k j)) W.inp)
    (fun k => mul (h k) (W.rt k j)) W.H

def cell (W : Weights α) (x : ℕ → α) (s : State α) (j : ℕ) : α :=
  add (mul (sigmoid (gate W x s.h (2 * W.H + j))) (s.c j))
    (mul (sigmoid (gate W x s.h j)) (tanh (gate W x s.h (3 * W.H + j))))

def step (W : Weights α) (x : ℕ → α) (s : State α) : State α where
  h := fun j => mul (sigmoid (gate W x s.h (W.H + j))) (tanh (cell W x s j))
  c := cell W x s

/-- The state after the first `n` frames of `xs`, from zero states. -/
def states (W : Weights α) (xs : ℕ → ℕ → α) : ℕ → State α
  | 0 => ⟨fun _ => zero, fun _ => zero⟩
  | n + 1 => step W (xs n) (states W xs n)

/-- The hidden states of the frames read forwards. -/
def forward (W : Weights α) (xs : ℕ → ℕ → α) (t j : ℕ) : α := (states W xs (t + 1)).h j

/-- The hidden states of the `F` frames read in reverse. -/
def backward (W : Weights α) (F : ℕ) (xs : ℕ → ℕ → α) (t j : ℕ) : α :=
  (states W (fun s => xs (F - 1 - s)) (F - t)).h j

def bidirectional (fw bw : Weights α) (F H : ℕ) (xs : ℕ → ℕ → α) (t j : ℕ) : α :=
  if j < H then forward fw xs t j else backward bw F xs t (j - H)

end ReadersSpeech.Recurrence
