import ReadersSpeech.Network
import ReadersSpeech.Onnx
import ReadersSpeech.Vexp

/-! The layers of the network in the real numbers are the operators of the graph they come from, the
recurrent ones with activations of their own, close to those of the graph.
-/

set_option autoImplicit false

namespace ReadersSpeech.Network
open Pyannet FloatOps LayerOps Finset

/-- Exact arithmetic, with libm's functions exact too. `vexp` is the code's own. -/
noncomputable instance : LayerOps ℝ where
  zero := 0
  one := 1
  two := (2 : ℕ)
  add := (· + ·)
  sub := (· - ·)
  mul := (· * ·)
  div := (· / ·)
  neg := (- ·)
  exp := Vexp.vexp
  fabs := abs
  gt a b := decide (b < a)
  ge a b := decide (b ≤ a)
  expf := Real.exp
  logf := Real.log
  Double := ℝ
  double := id
  float := id
  ofInt := Int.cast
  addD := (· + ·)
  subD := (· - ·)
  mulD := (· * ·)
  divD := (· / ·)
  sqrt := Real.sqrt

section Operations

@[simp] theorem zero_real : (zero : ℝ) = 0 := rfl

@[simp] theorem add_real (a b : ℝ) : add a b = a + b := rfl

@[simp] theorem sub_real (a b : ℝ) : sub a b = a - b := rfl

@[simp] theorem mul_real (a b : ℝ) : mul a b = a * b := rfl

@[simp] theorem fabs_real (a : ℝ) : fabs a = |a| := rfl

@[simp] theorem gt_real (a b : ℝ) : gt a b = decide (b < a) := rfl

@[simp] theorem ge_real (a b : ℝ) : ge a b = decide (b ≤ a) := rfl

end Operations

section Sums

theorem sumFrom_real (start : ℝ) (term : ℕ → ℝ) (n : ℕ) :
    sumFrom start term n = start + ∑ k ∈ range n, term k := by
  induction n with
  | zero => exact (add_zero start).symm
  | succ n ih => rw [sumFrom, ih, sum_range_succ, ← add_assoc, add_real]

theorem sumDouble_real (term : ℕ → ℝ) (n : ℕ) :
    @Eq ℝ (sumDouble (α := ℝ) term n) (∑ k ∈ range n, term k) := by
  induction n with
  | zero => exact Int.cast_zero
  | succ n ih => exact (congrArg (· + term n) ih).trans (sum_range_succ term n).symm

theorem sumChannels_real (start : ℝ) (K : ℕ) (term : ℕ → ℕ → ℝ) (C : ℕ) :
    sumChannels start K term C = start + ∑ c ∈ range C, ∑ k ∈ range K, term c k := by
  induction C with
  | zero => exact (add_zero start).symm
  | succ C ih => rw [sumChannels, sumFrom_real, ih, sum_range_succ, ← add_assoc]

theorem maxOf_mem (v : ℕ → ℝ) (n : ℕ) : ∃ i ≤ n, maxOf v n = v i := by
  induction n with
  | zero => exact ⟨0, le_rfl, rfl⟩
  | succ n ih =>
    obtain ⟨i, hi, hv⟩ := ih
    rw [maxOf]
    split
    · exact ⟨n + 1, le_rfl, rfl⟩
    · exact ⟨i, by omega, hv⟩

theorem le_maxOf (v : ℕ → ℝ) {i n : ℕ} (hi : i ≤ n) : v i ≤ maxOf v n := by
  induction n with
  | zero => exact (congrArg v (Nat.le_zero.mp hi)).le
  | succ n ih =>
    rw [maxOf]
    split <;> rename_i h
    · have hgt : maxOf v n < v (n + 1) := of_decide_eq_true h
      rcases Nat.le_succ_iff.mp hi with hle | rfl
      · exact (ih hle).trans hgt.le
      · exact le_rfl
    · have hle : v (n + 1) ≤ maxOf v n := le_of_not_gt fun hgt => h (decide_eq_true hgt)
      rcases Nat.le_succ_iff.mp hi with hi | rfl
      · exact ih hi
      · exact hle

theorem maxOf_real (v : ℕ → ℝ) {n : ℕ} (hn : 0 < n) : maxOf v (n - 1) = ⨆ k : Fin n, v k := by
  have : NeZero n := ⟨hn.ne'⟩
  obtain ⟨i, hi, hv⟩ := maxOf_mem v (n - 1)
  refine le_antisymm ?_ (ciSup_le fun k => le_maxOf v (by omega))
  have hbounded : BddAbove (Set.range fun k : Fin n => v k) := (Set.finite_range _).bddAbove
  exact hv.trans_le (le_ciSup hbounded ⟨i, by omega⟩)

end Sums

section Layers

theorem mean_real (n : ℕ) (v : ℕ → ℝ) : @Eq ℝ (mean n v) (Onnx.mean n v) :=
  congrArg₂ (fun s c : ℝ => s / c) (sumDouble_real v n) (Int.cast_natCast n)

theorem squares_real (n : ℕ) (v : ℕ → ℝ) :
    @Eq ℝ (squares n v) (∑ i ∈ range n, (v i - Onnx.mean n v) ^ 2) := by
  refine (sumDouble_real _ n).trans (sum_congr rfl fun i _ => ?_)
  rw [pow_two]
  exact congrArg (fun m : ℝ => (v i - m) * (v i - m)) (mean_real n v)

theorem gain_real (n : ℕ) (scale eps : ℝ) (v : ℕ → ℝ) :
    gain n scale eps v = scale * (1 / √(Onnx.variance n v + eps)) := by
  rw [← Int.cast_one]
  exact congrArg₂ (fun s c : ℝ => scale * (((1 : ℤ) : ℝ) / √(s / c + eps))) (squares_real n v)
    (Int.cast_natCast n)

theorem normalised_real (n : ℕ) (scale bias eps : ℝ) (v : ℕ → ℝ) :
    normalised n scale bias eps v = Onnx.instanceNormalization n scale bias eps v := by
  have hmean : float (mean n v) = Onnx.mean n v := mean_real n v
  funext i
  rw [normalised, gain_real, hmean, Onnx.instanceNormalization]
  simp only [add_real, sub_real, mul_real]
  ring

theorem leaky_real (alpha v : ℝ) : leaky alpha v = Onnx.leakyRelu alpha v := by
  simp only [leaky, Onnx.leakyRelu, gt_real, zero_real, mul_real, decide_eq_true_eq]
  rcases lt_trichotomy v 0 with h | rfl | h
  · rw [if_neg h.not_gt, if_pos h, mul_comm]
  · simp
  · rw [if_pos h, if_neg h.not_gt]

theorem activated_real {alpha : ℝ} (h : 0 ≤ alpha) (v : ℝ) :
    activated alpha v = Onnx.leakyRelu alpha v := by
  rw [activated, ge_real, zero_real, if_pos (decide_eq_true h), leaky_real]

theorem pooledChannel_real {pool : ℕ} (hpool : 0 < pool) (n : ℕ) (scale bias eps alpha : ℝ)
    (v : ℕ → ℝ) (i : ℕ) : pooledChannel pool n scale bias eps alpha v i = Onnx.leakyRelu alpha
      (Onnx.instanceNormalization n scale bias eps (Onnx.maxPool pool v) i) := by
  have hmax : (fun i => maxOf (fun k => v (i * pool + k)) (pool - 1)) = Onnx.maxPool pool v :=
    funext fun i => maxOf_real _ hpool
  rw [pooledChannel, leaky_real, normalised_real, hmax]

theorem filtered_real {K S : ℕ} {sinc : List ℝ} {W : ℕ → ℕ → ℕ → ℝ} {x : ℕ → ℝ} {X : ℕ → ℕ → ℝ}
    {c : ℕ} (hW : ∀ k < K, at2 sinc K c k = W c 0 k) (hX : x = X 0) (t : ℕ) :
    filtered K S sinc x c t = |Onnx.conv 1 K S W X c t| := by
  rw [filtered, sumFrom_real, fabs_real, zero_real, zero_add, Onnx.conv, sum_range_one]
  congr 1
  refine sum_congr rfl fun k hk => ?_
  rw [mul_real, hW k (mem_range.mp hk), hX, Nat.mul_comm S t]

theorem convolution_real {C K : ℕ} {w bias : List ℝ} {W : ℕ → ℕ → ℕ → ℝ} {x X : ℕ → ℕ → ℝ} {m : ℕ}
    (hW : ∀ c < C, ∀ k < K, at2 w K (m * C + c) k = W m c k) (hX : ∀ c < C, x c = X c) (t : ℕ) :
    convolution C K w bias x m t = Onnx.conv C K 1 W X m t + entry bias m := by
  rw [convolution, sumChannels_real, add_comm, Onnx.conv, Nat.mul_one]
  congr 1
  refine sum_congr rfl fun c hc => sum_congr rfl fun k hk => ?_
  rw [mul_real, hW c (mem_range.mp hc) k (mem_range.mp hk), hX c (mem_range.mp hc)]

theorem dense_real {inp out : ℕ} {w b : List ℝ} {B : ℕ → ℕ → ℝ} {x y : ℕ → ℝ} {j : ℕ}
    (hB : ∀ k < inp, at2 w out k j = B k j) (hx : ∀ k < inp, x k = y k) :
    dense inp out w b x j = Onnx.matMul inp y B j + entry b j := by
  rw [dense, sumFrom_real, add_comm, Onnx.matMul]
  congr 1
  refine sum_congr rfl fun k hk => ?_
  rw [mul_real, hB k (mem_range.mp hk), hx k (mem_range.mp hk)]

theorem logSoftmax_real {n : ℕ} (hn : 0 < n) (v : ℕ → ℝ) :
    logSoftmax n v = Onnx.logSoftmax n v := by
  set top := maxOf v (n - 1)
  have hpos : 0 < ∑ i ∈ range n, Real.exp (v i) :=
    sum_pos (fun i _ => Real.exp_pos _) (nonempty_range_iff.mpr hn.ne')
  have hshift : ∑ i ∈ range n, Real.exp (v i - top) =
      (∑ i ∈ range n, Real.exp (v i)) / Real.exp top := by
    rw [sum_div]
    exact sum_congr rfl fun i _ => Real.exp_sub _ _
  funext j
  calc logSoftmax n v j
    _ = v j - (top + Real.log (sumFrom 0 (fun i => Real.exp (v i - top)) n)) := rfl
    _ = v j - Real.log (∑ i ∈ range n, Real.exp (v i)) := by
      rw [sumFrom_real, zero_add, hshift, Real.log_div hpos.ne' (Real.exp_pos _).ne', Real.log_exp]
      ring
    _ = Onnx.logSoftmax n v j := by
      rw [Onnx.logSoftmax, Real.log_div (Real.exp_pos _).ne' hpos.ne', Real.log_exp]

end Layers

section Recurrent

/-- The activations of the recurrent layers, through `vexp`. -/
noncomputable def gates : Onnx.Lstm.Activations :=
  ⟨Recurrence.sigmoid, Recurrence.tanh, Recurrence.tanh⟩

theorem tanh_real (z : ℝ) : |Recurrence.tanh z - Real.tanh z| ≤ 4e-7 := by
  have hnear := Vexp.tanh_near z
  rwa [← Nat.cast_ofNat (R := ℝ)] at hnear

theorem gates_near : gates.Near 4e-7 .defaults :=
  ⟨fun z => (Vexp.sigmoid_near z).trans (by norm_num), tanh_real, tanh_real⟩

/-- The weights of a direction, transposed and with the two biases in one. -/
structure Transposed (W : Recurrence.Weights ℝ) (L : Onnx.Lstm) : Prop where
  inputs : W.inp = L.inputs
  hidden : W.H = L.hidden
  wt : ∀ k < L.inputs, ∀ r < 4 * L.hidden, W.wt k r = L.W r k
  rt : ∀ k < L.hidden, ∀ r < 4 * L.hidden, W.rt k r = L.R r k
  b : ∀ r < 4 * L.hidden, W.b r = L.B r + L.B (4 * L.hidden + r)

variable {W : Recurrence.Weights ℝ} {L : Onnx.Lstm}

/-- Two states that agree in the hidden units. -/
structure Agree (H : ℕ) (s : Recurrence.State ℝ) (s' : Onnx.Lstm.State) : Prop where
  h : ∀ j < H, s.h j = s'.H j
  c : ∀ j < H, s.c j = s'.C j

variable {x y : ℕ → ℝ} {s : Recurrence.State ℝ} {s' : Onnx.Lstm.State}

theorem gate_real (hL : Transposed W L) (hx : ∀ k < L.inputs, x k = y k) (hs : Agree L.hidden s s')
    {q j : ℕ} (hq : q < 4) (hj : j < L.hidden) :
    Recurrence.gate W x s.h (q * L.hidden + j) = L.gate y s' q j := by
  have hr : q * L.hidden + j < 4 * L.hidden := by
    have hle : (q + 1) * L.hidden ≤ 4 * L.hidden := Nat.mul_le_mul_right _ hq
    rw [Nat.add_mul, Nat.one_mul] at hle
    omega
  have hin : ∑ k ∈ range L.inputs, x k * W.wt k (q * L.hidden + j) =
      ∑ k ∈ range L.inputs, y k * L.W (q * L.hidden + j) k := sum_congr rfl fun k hk => by
    rw [hx k (mem_range.mp hk), hL.wt k (mem_range.mp hk) _ hr]
  have hrec : ∑ k ∈ range L.hidden, s.h k * W.rt k (q * L.hidden + j) =
      ∑ k ∈ range L.hidden, s'.H k * L.R (q * L.hidden + j) k := sum_congr rfl fun k hk => by
    rw [hs.h k (mem_range.mp hk), hL.rt k (mem_range.mp hk) _ hr]
  simp only [Recurrence.gate, Onnx.Lstm.gate, sumFrom_real, mul_real]
  rw [hL.b _ hr, hL.inputs, hL.hidden, hin, hrec]
  ring

theorem cell_real (hL : Transposed W L) (hx : ∀ k < L.inputs, x k = y k) (hs : Agree L.hidden s s')
    {j : ℕ} (hj : j < L.hidden) : Recurrence.cell W x s j = L.cell gates y s' j := by
  have hin : Recurrence.gate W x s.h j = L.gate y s' 0 j := by
    simpa using gate_real hL hx hs (by omega : 0 < 4) hj
  rw [Recurrence.cell, hL.hidden, hin, gate_real hL hx hs (by omega) hj,
    gate_real hL hx hs (by omega) hj, hs.c j hj]
  rfl

theorem step_real (hL : Transposed W L) (hx : ∀ k < L.inputs, x k = y k)
    (hs : Agree L.hidden s s') : Agree L.hidden (Recurrence.step W x s) (L.step gates y s') := by
  refine ⟨fun j hj => ?_, fun j hj => cell_real hL hx hs hj⟩
  have hout : Recurrence.gate W x s.h (W.H + j) = L.gate y s' 1 j := by
    simpa [hL.hidden] using gate_real hL hx hs (by omega : 1 < 4) hj
  change Recurrence.sigmoid (Recurrence.gate W x s.h (W.H + j)) *
    Recurrence.tanh (Recurrence.cell W x s j) = _
  rw [hout, cell_real hL hx hs hj]
  rfl

theorem states_real {X Y : ℕ → ℕ → ℝ} (hL : Transposed W L)
    (hX : ∀ t, ∀ k < L.inputs, X t k = Y t k) (n : ℕ) :
    Agree L.hidden (Recurrence.states W X n) (L.states gates Y n) := by
  induction n with
  | zero => exact ⟨fun _ _ => rfl, fun _ _ => rfl⟩
  | succ n ih => exact step_real hL (hX n) ih

theorem bidirectional_real {fw bw : Recurrence.Weights ℝ} {L L' : Onnx.Lstm}
    (hfw : Transposed fw L) (hbw : Transposed bw L') (hin : L'.inputs = L.inputs)
    (hH : L'.hidden = L.hidden) (F : ℕ) {X Y : ℕ → ℕ → ℝ}
    (hX : ∀ t, ∀ k < L.inputs, X t k = Y t k) (t : ℕ) {j : ℕ} (hj : j < 2 * L.hidden) :
    Recurrence.bidirectional fw bw F L.hidden X t j =
      Onnx.Lstm.bidirectional gates L L' F Y t j := by
  rw [Recurrence.bidirectional, Onnx.Lstm.bidirectional]
  split
  · exact (states_real hfw hX (t + 1)).h j ‹_›
  · exact (states_real hbw (fun s k hk => hX (F - 1 - s) k (hin ▸ hk)) (F - t)).h _ (by omega)

end Recurrent

end ReadersSpeech.Network
