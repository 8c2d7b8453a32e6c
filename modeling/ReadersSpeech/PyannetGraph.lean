import ReadersSpeech.NdArray
import ReadersSpeech.PyannetExported
import ReadersSpeech.RealLayers

/-! tools/export-pyannet.py from the ONNX graph to the file: the tensors it reads, what it asserts
of them and how it lays them out. In exact arithmetic what runs on the phone is the graph, with the
operators the standard defines.
-/

set_option autoImplicit false

namespace ReadersSpeech.PyannetGraph
open NdArray PyannetFile

/-! ### The writer -/

/-- The inputs of an `InstanceNormalization` that are constants; so for each kind of node. -/
structure Norm where
  scale : NdArray Word
  bias : NdArray Word

structure Conv where
  W : NdArray Word
  B : NdArray Word

structure Lstm where
  W : NdArray Word
  R : NdArray Word
  B : NdArray Word

/-- A `MatMul` and the `Add` after it. -/
structure Linear where
  weight : NdArray Word
  bias : NdArray Word

/-- What is read of the graph. The numbers of nodes and their other attributes are asserted. -/
structure Graph where
  eps : Word
  alpha : Word
  norms : Fin 4 → Norm
  sinc : NdArray Word
  conv1 : Conv
  conv2 : Conv
  lstms : Fin 4 → Lstm
  linear0 : Linear
  linear1 : Linear
  classifier : Linear

namespace Graph

/-- The shapes that are asserted before anything is written. -/
def asserted (g : Graph) : Bool :=
  g.sinc.shape == [80, 1, 251] && g.conv1.W.shape == [60, 80, 5] &&
    g.conv2.W.shape == [60, 60, 5] && (List.finRange 4).all fun l =>
      (g.lstms l).W.shape == [2, 512, if l = 0 then 60 else 256] &&
        (g.lstms l).R.shape == [2, 512, 128] && (g.lstms l).B.shape == [2, 1024]

theorem flat_sized (a : NdArray Word) : (a.flat.length : Int) = (a.shape.map Nat.cast).prod := by
  rw [length_flat, Nat.cast_list_prod]

/-- `np.ascontiguousarray`. -/
def contiguous (a : NdArray Word) : Tensor := ⟨a.shape.map Nat.cast, a.flat, flat_sized a⟩

def lstm (g : Graph) (l : ℕ) : Lstm := g.lstms (Fin.ofNat 4 l)

/-- `B[d, :512] + B[d, 512:]`. -/
def biases (plus : Word → Word → Word) (B : NdArray Word) (d : ℕ) : NdArray Word :=
  zipWith plus ((B.select d).slice 0 512) ((B.select d).slice 512 1024)

/-- What is `put` for each name; `plus` is numpy's addition of float32. -/
def tensor (plus : Word → Word → Word) (g : Graph) : PyannetFile.Field → Tensor
  | .wavScale => contiguous (g.norms 0).scale
  | .wavBias => contiguous (g.norms 0).bias
  | .sinc => contiguous (g.sinc.selectSecond 0)
  | .n0Scale => contiguous (g.norms 1).scale
  | .n0Bias => contiguous (g.norms 1).bias
  | .conv1W => contiguous g.conv1.W
  | .conv1B => contiguous g.conv1.B
  | .n1Scale => contiguous (g.norms 2).scale
  | .n1Bias => contiguous (g.norms 2).bias
  | .conv2W => contiguous g.conv2.W
  | .conv2B => contiguous g.conv2.B
  | .n2Scale => contiguous (g.norms 3).scale
  | .n2Bias => contiguous (g.norms 3).bias
  | .wt l d => contiguous ((g.lstm l).W.select d).transpose
  | .rt l d => contiguous ((g.lstm l).R.select d).transpose
  | .b l d => contiguous (biases plus (g.lstm l).B d)
  | .lin0W => contiguous g.linear0.weight
  | .lin0B => contiguous g.linear0.bias
  | .lin1W => contiguous g.linear1.weight
  | .lin1B => contiguous g.linear1.bias
  | .clsW => contiguous g.classifier.weight
  | .clsB => contiguous g.classifier.bias

def file (plus : Word → Word → Word) (g : Graph) : Option Bytes :=
  if g.asserted then exportPyannet Pyannet.shipped g.eps g.alpha (g.tensor plus) else none

/-! ### The graph -/

section Network
variable (A : Onnx.Lstm.Activations) (value : Word → ℝ) (g : Graph)

noncomputable def norm (k : Fin 4) (n : ℕ) (X : ℕ → ℕ → ℝ) (c : ℕ) : ℕ → ℝ :=
  Onnx.instanceNormalization n (value ((g.norms k).scale.get [c]))
    (value ((g.norms k).bias.get [c])) (value g.eps) (X c)

/-- `MaxPool`, `InstanceNormalization` and `LeakyRelu`, which leave `n` values of each channel. -/
noncomputable def pooled (k : Fin 4) (n : ℕ) (X : ℕ → ℕ → ℝ) (c t : ℕ) : ℝ :=
  Onnx.leakyRelu (value g.alpha) (g.norm value k n (fun c => Onnx.maxPool 3 (X c)) c t)

def length1 (n : ℕ) : ℕ := Onnx.outLength (Onnx.outLength n 251 10) 3 3

def length2 (n : ℕ) : ℕ := Onnx.outLength (Onnx.outLength (length1 n) 5 1) 3 3

def frames (n : ℕ) : ℕ := Onnx.outLength (Onnx.outLength (length2 n) 5 1) 3 3

variable (n : ℕ) (x : ℕ → ℝ)

noncomputable def layer1 : ℕ → ℕ → ℝ :=
  g.pooled value 1 (length1 n) fun c t => |Onnx.conv 1 251 10
    (fun m c k => value (g.sinc.get [m, c, k])) (g.norm value 0 n fun _ => x) c t|

noncomputable def layer2 : ℕ → ℕ → ℝ :=
  g.pooled value 2 (length2 n) fun c t => Onnx.conv 80 5 1
    (fun m c k => value (g.conv1.W.get [m, c, k])) (g.layer1 value n x) c t +
      value (g.conv1.B.get [c])

noncomputable def layer3 : ℕ → ℕ → ℝ :=
  g.pooled value 3 (frames n) fun c t => Onnx.conv 60 5 1
    (fun m c k => value (g.conv2.W.get [m, c, k])) (g.layer2 value n x) c t +
      value (g.conv2.B.get [c])

def direction (l d : ℕ) : Onnx.Lstm where
  inputs := if l = 0 then 60 else 256
  hidden := 128
  W r k := value ((g.lstm l).W.get [d, r, k])
  R r k := value ((g.lstm l).R.get [d, r, k])
  B r := value ((g.lstm l).B.get [d, r])

/-- The frames after `l` layers. -/
noncomputable def recurrent (F : ℕ) (X : ℕ → ℕ → ℝ) : ℕ → ℕ → ℕ → ℝ
  | 0 => X
  | l + 1 => Onnx.Lstm.bidirectional A (g.direction value l 0) (g.direction value l 1) F
      (recurrent F X l)

def linear (L : Linear) (inp : ℕ) (y : ℕ → ℝ) (j : ℕ) : ℝ :=
  Onnx.matMul inp y (fun i j => value (L.weight.get [i, j])) j + value (L.bias.get [j])

noncomputable def scores (y : ℕ → ℝ) : ℕ → ℝ :=
  linear value g.classifier 128 fun j => Onnx.leakyRelu (value g.alpha) (linear value g.linear1 128
    (fun j => Onnx.leakyRelu (value g.alpha) (linear value g.linear0 256 y j)) j)

/-- What the graph gives for frame `t` of `n` samples `x`. -/
noncomputable def network (t : ℕ) : ℕ → ℝ :=
  Onnx.logSoftmax 7 (g.scores value
    (g.recurrent A value (frames n) (fun t c => g.layer3 value n x c t) 4 t))

end Network

/-! ### What is written -/

structure Shaped (g : Graph) : Prop where
  norms : ∀ k, (g.norms k).scale.shape = [![1, 80, 60, 60] k] ∧
    (g.norms k).bias.shape = [![1, 80, 60, 60] k]
  sinc : g.sinc.shape = [80, 1, 251]
  conv1 : g.conv1.W.shape = [60, 80, 5] ∧ g.conv1.B.shape = [60]
  conv2 : g.conv2.W.shape = [60, 60, 5] ∧ g.conv2.B.shape = [60]
  lstms : ∀ l < 4, (g.lstm l).W.shape = [2, 512, if l = 0 then 60 else 256] ∧
    (g.lstm l).R.shape = [2, 512, 128] ∧ (g.lstm l).B.shape = [2, 1024]
  linear0 : g.linear0.weight.shape = [256, 128] ∧ g.linear0.bias.shape = [128]
  linear1 : g.linear1.weight.shape = [128, 128] ∧ g.linear1.bias.shape = [128]
  classifier : g.classifier.weight.shape = [128, 7] ∧ g.classifier.bias.shape = [7]

section Written
variable {g : Graph} {plus : Word → Word → Word}

theorem shape_of {a : NdArray Word} {s : List ℕ} {t : List Int} (h : (contiguous a).shape = t)
    (ht : s.map Nat.cast = t) : a.shape = s :=
  List.map_injective_iff.mpr Nat.cast_injective (h.trans ht.symm)

theorem file_some {bytes : Bytes} (h : g.file plus = some bytes) :
    (∀ s ∈ shapes Pyannet.shipped, (g.tensor plus s.1).shape = s.2) ∧
      fileBytes Pyannet.shipped g.eps g.alpha (g.tensor plus) = bytes := by
  rw [file] at h
  split at h
  · have hs := shapes_of_export h
    have hcount := Pyannet.usual_shipped.count
    exact ⟨hs, Option.some.inj ((exportPyannet_eq hs hcount).symm.trans h)⟩
  · cases h

theorem shaped_of_file {bytes : Bytes} (h : g.file plus = some bytes) : g.Shaped := by
  have hshapes := (file_some h).1
  rw [file] at h
  split at h
  · rename_i hasserted
    simp only [shapes, List.forall_mem_append, List.forall_mem_cons] at hshapes
    obtain ⟨⟨⟨h₁, h₂, -, h₄, h₅, -, h₇, h₈, h₉, -, h₁₁, h₁₂, h₁₃, -⟩, -⟩, h₁₄, h₁₅, h₁₆, h₁₇, h₁₈,
      h₁₉, -⟩ := hshapes
    simp only [asserted, Bool.and_eq_true, beq_iff_eq, List.all_eq_true] at hasserted
    obtain ⟨⟨⟨hsinc, hconv1⟩, hconv2⟩, hlstms⟩ := hasserted
    refine ⟨fun k => ?_, hsinc, ⟨hconv1, shape_of h₇ (by decide)⟩,
      ⟨hconv2, shape_of h₁₁ (by decide)⟩, fun l hl => ?_,
      ⟨shape_of h₁₄ (by decide), shape_of h₁₅ (by decide)⟩,
      ⟨shape_of h₁₆ (by decide), shape_of h₁₇ (by decide)⟩,
      ⟨shape_of h₁₈ (by decide), shape_of h₁₉ (by decide)⟩⟩
    · fin_cases k
      · exact ⟨shape_of h₁ rfl, shape_of h₂ rfl⟩
      · exact ⟨shape_of h₄ (by decide), shape_of h₅ (by decide)⟩
      · exact ⟨shape_of h₈ (by decide), shape_of h₉ (by decide)⟩
      · exact ⟨shape_of h₁₂ (by decide), shape_of h₁₃ (by decide)⟩
    · obtain ⟨⟨hW, hR⟩, hB⟩ := hlstms (Fin.ofNat 4 l) (List.mem_finRange _)
      have hzero : Fin.ofNat 4 l = 0 ↔ l = 0 := by
        rw [Fin.ext_iff, Fin.val_ofNat, Nat.mod_eq_of_lt hl]
        rfl
      rw [lstm]
      exact ⟨by simpa only [hzero] using hW, hR, hB⟩
  · cases h

end Written

/-! ### In exact arithmetic -/

/-- The one addition the script makes itself, in float32, is exact. -/
def ExactBiases (plus : Word → Word → Word) (value : Word → ℝ) (g : Graph) : Prop :=
  ∀ l < 4, ∀ d < 2, ∀ r < 512, let B := (g.lstm l).B
    value (plus (B.get [d, r]) (B.get [d, 512 + r])) =
      value (B.get [d, r]) + value (B.get [d, 512 + r])

section Rows
open Pyannet Network
variable {a : NdArray Word} (value : Word → ℝ)

theorem getD_row {ix : List ℕ} {i : ℕ} (h : Within ix a.shape) (hi : offset a.shape ix = i) :
    ((a.flat.map value)[i]?).getD 0 = value (a.get ix) := by
  rw [List.getElem?_map, ← hi, getElem_flat h]
  rfl

theorem entry_row {n i : ℕ} (hs : a.shape = [n]) (hi : i < n) :
    entry (a.flat.map value) i = value (a.get [i]) :=
  getD_row value (hs ▸ .cons hi .nil) (by simp [hs, offset])

theorem at2_row {m w k j : ℕ} (hs : a.shape = [m, w]) (hk : k < m) (hj : j < w) :
    at2 (a.flat.map value) w k j = value (a.get [k, j]) :=
  getD_row value (hs ▸ .cons hk (.cons hj .nil)) (by simp [hs, offset])

theorem at2_block {M C K m c k : ℕ} (hs : a.shape = [M, C, K]) (hm : m < M) (hc : c < C)
    (hk : k < K) : at2 (a.flat.map value) K (m * C + c) k = value (a.get [m, c, k]) :=
  getD_row value (hs ▸ .cons hm (.cons hc (.cons hk .nil))) (by simp [hs, offset]; ring)

end Rows

section Values
open Pyannet Network
variable {value : Word → ℝ} {plus : Word → Word → Word} {g : Graph}
  {n : ℕ} {x : ℕ → ℝ}

/-- The tensors of the file, as numbers. -/
def tensors (value : Word → ℝ) (plus : Word → Word → Word) (g : Graph) (f : PyannetFile.Field) :
    List ℝ := (g.tensor plus f).data.map value

theorem lengths_graph (h : 991 ≤ n) : (lens shipped n).p1.toNat = length1 n ∧
    (lens shipped n).p2.toNat = length2 n ∧ (lens shipped n).f.toNat = frames n := by
  have hl2 : ∀ x : ℤ, x - 5 + 1 = x - 4 := by omega
  obtain ⟨h₁, h₂, h₃, h₄, h₅, h₆⟩ : Stages (lens shipped n) n :=
    ⟨rfl, rfl, hl2 _, rfl, hl2 _, rfl⟩
  unfold frames length2 length1 Onnx.outLength
  omega

theorem pooled_eq (k : Fin 4) {N c : ℕ} {scale bias : List ℝ} {v : ℕ → ℝ} {X : ℕ → ℕ → ℝ}
    (hs : entry scale c = value ((g.norms k).scale.get [c]))
    (hb : entry bias c = value ((g.norms k).bias.get [c])) (hv : v = X c) :
    pooledChannel 3 N (entry scale c) (entry bias c) (value g.eps) (value g.alpha) v =
      g.pooled value k N X c := by
  funext i
  rw [pooledChannel_real (by decide), hs, hb, hv]
  rfl

theorem waveform_eq (hg : g.Shaped) :
    waveform (value g.eps) (tensors value plus g) n x = g.norm value 0 n (fun _ => x) 0 := by
  have hs := entry_row value (hg.norms 0).1 Nat.one_pos
  have hb := entry_row value (hg.norms 0).2 Nat.one_pos
  rw [waveform, normalised_real, norm, ← hs, ← hb]
  rfl

theorem layer1_eq (hg : g.Shaped) (h : 991 ≤ n) {c : ℕ} (hc : c < 80) :
    sincChannel shipped (value g.eps) (value g.alpha) (tensors value plus g) n x c =
      g.layer1 value n x c := by
  have hsinc : (g.sinc.selectSecond 0).shape = [80, 251] := by rw [selectSecond, hg.sinc]; rfl
  rw [sincChannel, (lengths_graph h).1]
  exact pooled_eq 1 (entry_row value (hg.norms 1).1 hc) (entry_row value (hg.norms 1).2 hc)
    (funext fun t => filtered_real (fun k hk => at2_row value hsinc hc hk) (waveform_eq hg) t)

theorem convolved_eq (k : Fin 4) {N M C c : ℕ} {conv : Conv} {scale bias : List ℝ}
    {y X : ℕ → ℕ → ℝ} (hs : entry scale c = value ((g.norms k).scale.get [c]))
    (hb : entry bias c = value ((g.norms k).bias.get [c])) (hW : conv.W.shape = [M, C, 5])
    (hB : conv.B.shape = [M]) (hc : c < M) (hX : ∀ i < C, y i = X i) :
    pooledChannel 3 N (entry scale c) (entry bias c) (value g.eps) (value g.alpha)
      (convolution C 5 (conv.W.flat.map value) (conv.B.flat.map value) y c) =
      g.pooled value k N (fun c t => Onnx.conv C 5 1 (fun m c k => value (conv.W.get [m, c, k])) X
        c t + value (conv.B.get [c])) c := by
  refine pooled_eq k hs hb (funext fun t => ?_)
  rw [← entry_row value hB hc]
  exact convolution_real (fun i hi k hk => at2_block value hW hc hi hk) hX t

theorem layer2_eq (hg : g.Shaped) (h : 991 ≤ n) {c : ℕ} (hc : c < 60) :
    conv1Channel shipped (value g.eps) (value g.alpha) (tensors value plus g) n x c =
      g.layer2 value n x c := by
  rw [conv1Channel, (lengths_graph h).2.1]
  exact convolved_eq 2 (entry_row value (hg.norms 2).1 hc) (entry_row value (hg.norms 2).2 hc)
    hg.conv1.1 hg.conv1.2 hc fun i hi => layer1_eq hg h hi

theorem layer3_eq (hg : g.Shaped) (h : 991 ≤ n) {c : ℕ} (hc : c < 60) :
    conv2Channel shipped (value g.eps) (value g.alpha) (tensors value plus g) n x c =
      g.layer3 value n x c := by
  rw [conv2Channel, (lengths_graph h).2.2]
  exact convolved_eq 3 (entry_row value (hg.norms 3).1 hc) (entry_row value (hg.norms 3).2 hc)
    hg.conv2.1 hg.conv2.2 hc fun i hi => layer2_eq hg h hi

/-- The transposed copies and the summed biases are the weights of the node. -/
theorem transposed (hg : g.Shaped) (hexact : g.ExactBiases plus value) {l : ℕ} (hl : l < 4)
    (dir : Bool) : Transposed (lstmWeights shipped (tensors value plus g) l dir)
      (g.direction value l dir.toNat) := by
  have hd : dir.toNat < 2 := Bool.toNat_lt dir
  obtain ⟨hW, hR, hB⟩ := hg.lstms l hl
  have hWt : ((g.lstm l).W.select dir.toNat).transpose.shape =
      [if l = 0 then 60 else 256, 512] := by rw [transpose, select, hW]; rfl
  have hRt : ((g.lstm l).R.select dir.toNat).transpose.shape = [128, 512] := by
    rw [transpose, select, hR]
    rfl
  have hBs : (biases plus (g.lstm l).B dir.toNat).shape = [512] := by
    rw [biases, zipWith, slice, select, hB]
    rfl
  refine ⟨rfl, rfl, fun k hk r hr => at2_row value hWt hk hr,
    fun k hk r hr => at2_row value hRt hk hr, fun r hr => ?_⟩
  have hget : value ((biases plus (g.lstm l).B dir.toNat).get [r]) =
      value ((g.lstm l).B.get [dir.toNat, r]) + value ((g.lstm l).B.get [dir.toNat, 512 + r]) := by
    rw [← hexact l hl dir.toNat hd r hr]
    simp [biases, zipWith, slice, select]
  have hin : Within [r] (biases plus (g.lstm l).B dir.toNat).shape := hBs ▸ .cons hr .nil
  exact (getD_row value hin (by simp [hBs, offset])).trans hget

theorem recurrent_eq (hg : g.Shaped) (hexact : g.ExactBiases plus value) (F : ℕ)
    {X Y : ℕ → ℕ → ℝ} (hX : ∀ t, ∀ k < 60, X t k = Y t k) {l : ℕ} (hl : l ≤ 4) (t : ℕ) {k : ℕ}
    (hk : k < if l = 0 then 60 else 256) :
    Network.recurrent shipped (tensors value plus g) F X l t k =
      g.recurrent gates value F Y l t k := by
  induction l generalizing t k with
  | zero => exact hX t k hk
  | succ l ih =>
    exact bidirectional_real (transposed hg hexact hl false) (transposed hg hexact hl true) rfl rfl
      F (fun t k hk => ih (by omega) t hk) t hk

theorem linear_eq {L : Linear} {inp out : ℕ} {y z : ℕ → ℝ} {j : ℕ}
    (hw : L.weight.shape = [inp, out]) (hb : L.bias.shape = [out])
    (hy : ∀ i < inp, y i = z i) (hj : j < out) :
    dense inp out (L.weight.flat.map value) (L.bias.flat.map value) y j =
      linear value L inp z j := by
  rw [linear, ← entry_row value hb hj]
  exact dense_real (fun i hi => at2_row value hw hi hj) hy

theorem scores_eq (hg : g.Shaped) (halpha : 0 ≤ value g.alpha) {y z : ℕ → ℝ}
    (hy : ∀ i < 256, y i = z i) {j : ℕ} (hj : j < 7) :
    Network.scores shipped (value g.alpha) (tensors value plus g) y j = g.scores value z j := by
  obtain ⟨hw₀, hb₀⟩ := hg.linear0
  obtain ⟨hw₁, hb₁⟩ := hg.linear1
  obtain ⟨hw₂, hb₂⟩ := hg.classifier
  refine linear_eq hw₂ hb₂ (fun i hi => ?_) hj
  refine (activated_real halpha _).trans (congrArg _ (linear_eq hw₁ hb₁ (fun i hi => ?_) hi))
  exact (activated_real halpha _).trans (congrArg _ (linear_eq hw₀ hb₀ hy hi))

/-- What is laid out is the graph. -/
theorem network_eq (hg : g.Shaped) (hexact : g.ExactBiases plus value)
    (halpha : 0 ≤ value g.alpha) (h : 991 ≤ n) (t : ℕ) {j : ℕ} (hj : j < 7) :
    Network.network shipped (value g.eps) (value g.alpha) (tensors value plus g) n x t j =
      g.network gates value n x t j := by
  rw [Network.network, network, (lengths_graph h).2.2, logSoftmax_real (by decide)]
  refine Onnx.logSoftmax_congr (fun i hi => ?_) hj
  refine scores_eq hg halpha (fun k hk => ?_) hi
  exact recurrent_eq hg hexact (frames n) (fun t c hc => congrFun (layer3_eq hg h hc) t) le_rfl t hk

end Values

section Exported
open Cells Pyannet Network FloatOps LayerOps

/-- In exact arithmetic, whatever graph the script accepts, the file it writes is loaded, and what
runs is the graph but for the activations of its LSTMs, which are near: for every sound that gives a
frame, each frame and each class. -/
theorem exported_graph (g : Graph) (plus : Word → Word → Word) (value : Word → ℝ) (bytes : Bytes)
    (hfile : g.file plus = some bytes) (hexact : g.ExactBiases plus value)
    (halpha : 0 ≤ value g.alpha) :
    gates.Near 4e-7 .defaults ∧
    ∃ m net, pyannetLoad true true bytes = .ok (some m) ∧ netOf value m = some net ∧
      ∀ (n : Int32) (pcm : List ℝ) (out : Block ℝ), 991 ≤ n.toInt → n.toInt ≤ 2 ^ 30 →
        nat n ≤ pcm.length → out.length = frames (nat n) * 7 →
        ∃ out', pyannetRun true true (some net) (some pcm) n (some out) =
            some (0, (frames (nat n) : ℤ), some out') ∧
          ∀ t < frames (nat n), ∀ j < 7, rd out' (t * 7 + j) =
            some (g.network gates value (nat n) (entry pcm) t j) := by
  refine ⟨gates_near, ?_⟩
  have hg := shaped_of_file hfile
  have hneg : ge (neg one : ℝ) zero = false := decide_eq_false (by norm_num : ¬(0 : ℝ) ≤ -1)
  obtain ⟨hs, rfl⟩ := file_some hfile
  obtain ⟨m, net, hload, hnet, hrun⟩ :=
    file_values usual_shipped hs (by decide) value hneg
  refine ⟨m, net, hload, hnet, fun n pcm out hn hn' hpcm hout => ?_⟩
  have hcast : ((nat n : ℕ) : ℤ) = n.toInt := Int.toNat_of_nonneg (by omega)
  obtain ⟨s, hl, hstages⟩ := lengths_shipped hn n.toInt_lt
  obtain ⟨hlens, -⟩ := lens_of_lengths positive_shipped hl
  have hframes : s.f.toNat = frames (nat n) := by
    rw [hlens, ← hcast, (lengths_graph (by omega)).2.2]
  have hpos := (pooled_of_lengths positive_shipped hl).pos
  have hf : s.f = (frames (nat n) : ℤ) := by omega
  have hl1 := hstages.l1
  obtain ⟨out', hout', hvalues⟩ := hrun n pcm s _ out hpcm hl
    (plan_shipped (by omega) (by omega)) (by rw [hframes]; exact hout)
  refine ⟨out', hf ▸ hout', fun t ht j hj => ?_⟩
  rw [← network_eq hg hexact halpha (by omega) t hj]
  exact hvalues t (hframes ▸ ht) j hj

/-- The graph with nothing but zeros. -/
def blank : Graph where
  eps := 1
  alpha := 1
  norms k := ⟨constant [![1, 80, 60, 60] k] 0, constant [![1, 80, 60, 60] k] 0⟩
  sinc := constant [80, 1, 251] 0
  conv1 := ⟨constant [60, 80, 5] 0, constant [60] 0⟩
  conv2 := ⟨constant [60, 60, 5] 0, constant [60] 0⟩
  lstms l := ⟨constant [2, 512, if l = 0 then 60 else 256] 0, constant [2, 512, 128] 0,
    constant [2, 1024] 0⟩
  linear0 := ⟨constant [256, 128] 0, constant [128] 0⟩
  linear1 := ⟨constant [128, 128] 0, constant [128] 0⟩
  classifier := ⟨constant [128, 7] 0, constant [7] 0⟩

def ofWord (w : Word) : ℝ := w.toNat

/-- The samples of one frame. -/
theorem exported_graph_blank : ∃ bytes m net out,
    blank.file (· + ·) = some bytes ∧ pyannetLoad true true bytes = .ok (some m) ∧
      netOf ofWord m = some net ∧
      pyannetRun true true (some net) (some (List.replicate 991 0)) 991 (some (fresh 7)) =
        some (0, 1, some out) ∧
      ∀ j < 7, rd out j =
        some (blank.network gates ofWord 991 (entry (List.replicate 991 0)) 0 j) := by
  have hs : ∀ s ∈ shapes shipped, (blank.tensor (· + ·) s.1).shape = s.2 := by decide
  have hfile : blank.file (· + ·) = some (fileBytes shipped 1 1 (blank.tensor (· + ·))) := by
    rw [file, if_pos (by decide)]
    exact exportPyannet_eq hs usual_shipped.count
  have hexact : blank.ExactBiases (· + ·) ofWord := by
    intro l _ d _ r _
    simp [blank, lstm, constant, ofWord]
  obtain ⟨-, m, net, hload, hnet, hrun⟩ := exported_graph blank (· + ·) ofWord _ hfile hexact
    (Nat.cast_nonneg _)
  obtain ⟨out, hout, hvalues⟩ := hrun 991 (List.replicate 991 0) (fresh 7) (by decide) (by decide)
    (by rw [List.length_replicate]; decide) (by decide)
  refine ⟨_, m, net, out, hfile, hload, hnet, hout, fun j hj => ?_⟩
  have hcell := hvalues 0 (by decide) j hj
  rwa [Nat.zero_mul, Nat.zero_add] at hcell

end Exported

end Graph

end ReadersSpeech.PyannetGraph
