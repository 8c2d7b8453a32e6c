import ReadersSpeech.PyannetNetwork
import ReadersSpeech.PyannetRoundTrip

/-! From tools/export-pyannet.py to `pyannet_run`: what runs on the phone is the network of the
tensors that were exported.
-/

set_option autoImplicit false

namespace ReadersSpeech.PyannetFile
open Layout Pyannet

variable {d : Dims} {eps alpha : Word} {tensor : Field → Tensor}

theorem shapes_of_put {ss : List (Field × List Int)} {out ws : List Word}
    (h : ss.foldlM (fun out s => put out (tensor s.1) s.2) out = some ws) :
    ∀ s ∈ ss, (tensor s.1).shape = s.2 := by
  induction ss generalizing out with
  | nil => simp
  | cons s ss ih =>
    rw [List.foldlM_cons, put] at h
    split at h
    · exact List.forall_mem_cons.mpr ⟨‹_›, ih h⟩
    · cases h

/-- Nothing is written unless every tensor has the shape that was asked for. -/
theorem shapes_of_export {bytes : Bytes} (h : exportPyannet d eps alpha tensor = some bytes) :
    ∀ s ∈ shapes d, (tensor s.1).shape = s.2 := by
  obtain ⟨ws, hws, -⟩ := Option.bind_eq_some_iff.mp h
  exact shapes_of_put hws

/-- The weights of the file are the tensors, one after another, and so are the slices. -/
theorem file_tensors {m : Model} (hm : IsModel (fileBytes d eps alpha tensor) m)
    (hdims : m.dims = d) (hd : Usual d) (hs : ∀ s ∈ shapes d, (tensor s.1).shape = s.2) :
    ∀ s ∈ shapes d, m.slice s.1 s.2.prod = some (tensor s.1).data := by
  have hw := length_weights hs
  have hcount := hd.count
  have hweights : m.weights = (lengths d).flatMap fun k => (tensor k.1).data := by
    rw [hm.weights, count_file eps alpha (by omega), Int.toNat_natCast, lengths, List.flatMap_map]
    refine List.ext_getElem (by rw [List.length_map, List.length_range]; rfl) fun i h₁ h₂ => ?_
    rw [List.getElem_map, List.getElem_range]
    exact rdWord_weight i h₂
  have hlen : ∀ k ∈ lengths d, ((tensor k.1).data.length : ℤ) = k.2 := by
    intro k hk
    obtain ⟨s, hmem, rfl⟩ := List.mem_map.mp hk
    rw [(tensor s.1).sized, hs s hmem]
  intro s hmem
  obtain ⟨o, ho, ht⟩ := Consecutive.slice (fun f => (tensor f).data) [] (hdims ▸ hm.slices) hlen
    (s.1, s.2.prod) (List.mem_map.mpr ⟨s, hmem, rfl⟩)
  obtain ⟨w, hptr, rfl⟩ := Option.map_eq_some_iff.mp ho
  rw [List.nil_append] at ht
  rw [Model.slice, hptr, hweights, Option.map_some, ht]

end ReadersSpeech.PyannetFile

namespace ReadersSpeech.Network
open Pyannet PyannetFile FloatOps LayerOps

variable {α : Type} [LayerOps α] {d : Dims} {T : Field → List α}

theorem recurrent_congr {U : Field → List α} (h : ∀ l < nat d.layers, ∀ dir, lstmWeights d T l dir =
    lstmWeights d U l dir) (F : ℕ) (xs : ℕ → ℕ → α) {l : ℕ} (hl : l ≤ nat d.layers) :
    recurrent d T F xs l = recurrent d U F xs l := by
  induction l with
  | zero => rfl
  | succ l ih => rw [recurrent, recurrent, ih (by omega), h l hl, h l hl]

/-- The network reads no tensor but those in the file. -/
theorem network_congr (U : Field → List α) (h : ∀ s ∈ shapes d, T s.1 = U s.1) (eps alpha : α)
    (n : ℕ) (x : ℕ → α) :
    network d eps alpha T n x = network d eps alpha U n x := by
  have hlstm : ∀ l < nat d.layers, ∀ dir, lstmWeights d T l dir = lstmWeights d U l dir := by
    intro l hl dir
    have hl' := fun s hs => h s (lstmShapes_mem hl dir s hs)
    simp only [lstmShapes, List.forall_mem_cons] at hl'
    rw [lstmWeights, lstmWeights, hl'.1, hl'.2.1, hl'.2.2.1]
  simp only [shapes, List.forall_mem_append, List.forall_mem_cons] at h
  obtain ⟨⟨⟨h₁, h₂, h₃, h₄, h₅, h₆, h₇, h₈, h₉, h₁₀, h₁₁, h₁₂, h₁₃, -⟩, -⟩, h₁₄, h₁₅, h₁₆, h₁₇, h₁₈,
    h₁₉, -⟩ := h
  have hsinc : sincChannel d eps alpha T n x = sincChannel d eps alpha U n x := by
    funext c
    simp only [sincChannel, waveform, h₁, h₂, h₃, h₄, h₅]
  have hconv1 : conv1Channel d eps alpha T n x = conv1Channel d eps alpha U n x := by
    funext c
    simp only [conv1Channel, hsinc, h₆, h₇, h₈, h₉]
  have hconv2 : conv2Channel d eps alpha T n x = conv2Channel d eps alpha U n x := by
    funext c
    simp only [conv2Channel, hconv1, h₁₀, h₁₁, h₁₂, h₁₃]
  have hscores : scores d alpha T = scores d alpha U := by
    funext y
    simp only [scores, h₁₄, h₁₅, h₁₆, h₁₇, h₁₈, h₁₉]
  funext t
  rw [network, network, hconv2, hscores, recurrent_congr hlstm _ _ le_rfl]

end ReadersSpeech.Network

namespace ReadersSpeech.Pyannet
open Cells FloatOps LayerOps PyannetFile Network

variable {α : Type}

theorem total_shipped : total shipped = 1489169 := by decide

theorem usual_shipped : Usual shipped where
  positive := by simp [Dims.list, shipped]
  layers := by decide
  hidden := by decide
  classes := rfl
  count := by rw [total_shipped]; decide

section Exported
variable [LayerOps α]

/-- The struct a file is loaded into has its dimensions and its tensors. -/
theorem netOf_file {d : Dims} {eps alpha : Word} {tensor : PyannetFile.Field → Tensor}
    (hd : Usual d) (hs : ∀ s ∈ shapes d, (tensor s.1).shape = s.2) (float : Word → α) :
    ∃ m net, pyannetLoad true true (fileBytes d eps alpha tensor) = .ok (some m) ∧
      netOf float m = some net ∧ net.dims = d ∧ net.eps = float eps ∧ net.alpha = float alpha ∧
      ∀ s ∈ shapes d, net.tensor s.1 = (tensor s.1).data.map float := by
  obtain ⟨r, hr, hmodel⟩ := load_usual (p := fileBytes d eps alpha tensor)
    (by rw [rdDims_file]; exact hd) true true
  obtain rfl := Except.ok.inj ((load_file hd hs).symm.trans hr)
  obtain ⟨hm, hdims⟩ := hmodel _ rfl
  rw [rdDims_file] at hdims
  obtain ⟨net, hnet, hnd, hne, hna, htensors⟩ := netOf_some float hm
  rw [hdims] at hnd htensors
  refine ⟨_, net, hr, hnet, hnd, hne.trans ?_, hna.trans ?_, fun s hmem => ?_⟩
  · exact congrArg float (rdWord_head 14 (by omega))
  · exact congrArg float (rdWord_head 15 (by omega))
  · have h := htensors s hmem
    rw [file_tensors hm hdims hd hs s hmem, Option.map_some] at h
    exact (Option.some.inj h).symm

/-- A file, loaded and run, is the network of the tensors that are in it. -/
theorem file_values {d : Dims} {eps alpha : Word} {tensor : PyannetFile.Field → Tensor}
    (hd : Usual d) (hs : ∀ s ∈ shapes d, (tensor s.1).shape = s.2)
    (hw : d.c2.toInt ≤ 2 * d.hidden.toInt) (float : Word → α)
    (hneg : ge (neg one : α) zero = false) :
    ∃ m net, pyannetLoad true true (fileBytes d eps alpha tensor) = .ok (some m) ∧
      netOf float m = some net ∧
      ∀ (n : Int32) (pcm : List α) (s : Lens) (p : Plan) (out : Block α), nat n ≤ pcm.length →
        lengths d n.toInt = some (some s) → plan d s n.toInt = some p →
        out.length = s.f.toNat * nat d.classes →
        ∃ out', pyannetRun true true (some net) (some pcm) n (some out) =
            some (0, s.f, some out') ∧
          ∀ t < s.f.toNat, ∀ j < nat d.classes, rd out' (t * nat d.classes + j) =
            some (network d (float eps) (float alpha) (fun f => (tensor f).data.map float) (nat n)
              (entry pcm) t j) := by
  obtain ⟨m, net, hload, hnet, rfl, hne, hna, htensors⟩ := netOf_file hd hs float
  refine ⟨m, net, hload, hnet, fun n pcm s p out hpcm hl hp hout => ?_⟩
  obtain ⟨out', hrun, hvalues⟩ :=
    pyannetRun_values ⟨hd.positive, hd.hidden, hw⟩ hneg hpcm hl hp hout
  refine ⟨out', hrun, fun t ht j hj => ?_⟩
  have hsame := network_congr (fun f => (tensor f).data.map float) htensors
  rw [hvalues t ht j hj, Net.network, hsame, hne, hna]

/-- What is exported, loaded and run is the network of the tensors that were exported, frame by
frame and class by class, for every sound. -/
theorem exported_network (d : Dims) (eps alpha : Word) (tensor : PyannetFile.Field → Tensor)
    (hd : Usual d) (hs : ∀ s ∈ shapes d, (tensor s.1).shape = s.2)
    (hw : d.c2.toInt ≤ 2 * d.hidden.toInt) (float : Word → α)
    (hneg : ge (neg one : α) zero = false) :
    ∃ bytes m net, exportPyannet d eps alpha tensor = some bytes ∧
      pyannetLoad true true bytes = .ok (some m) ∧ netOf float m = some net ∧
      ∀ (n : Int32) (pcm : List α) (s : Lens) (p : Plan) (out : Block α), nat n ≤ pcm.length →
        lengths d n.toInt = some (some s) → plan d s n.toInt = some p →
        out.length = s.f.toNat * nat d.classes →
        ∃ out', pyannetRun true true (some net) (some pcm) n (some out) =
            some (0, s.f, some out') ∧
          ∀ t < s.f.toNat, ∀ j < nat d.classes, rd out' (t * nat d.classes + j) =
            some (network d (float eps) (float alpha) (fun f => (tensor f).data.map float) (nat n)
              (entry pcm) t j) := by
  obtain ⟨m, net, hload, hnet, hrun⟩ := file_values hd hs hw float hneg
  exact ⟨_, m, net, exportPyannet_eq hs hd.count, hload, hnet, hrun⟩

/-- Five samples, which are two frames. -/
theorem exported_network_small :
    ∃ bytes m net out, exportPyannet small 1 2 smallTensor = some bytes ∧
      pyannetLoad true true bytes = .ok (some m) ∧
      netOf (fun w => (w.toNat : ℤ)) m = some net ∧
      pyannetRun true true (some net) (some [5, -2, 9, 0, 4]) 5 (some (fresh 14)) =
        some (0, 2, some out) ∧
      ∀ t < 2, ∀ j < 7, rd out (t * 7 + j) = some (network small 1 2
        (fun f => (smallTensor f).data.map fun w => (w.toNat : ℤ)) 5 (entry [5, -2, 9, 0, 4])
        t j) := by
  obtain ⟨bytes, m, net, hexport, hload, hnet, hrun⟩ := exported_network small 1 2
    smallTensor usual_small (by decide) (by decide) (fun w => (w.toNat : ℤ)) (by decide)
  obtain ⟨out, hout, hvalues⟩ := hrun 5 [5, -2, 9, 0, 4] ⟨3, 3, 2, 2, 2, 2⟩ _ (fresh 14) (by decide)
    (by decide) rfl (by decide)
  exact ⟨bytes, m, net, out, hexport, hload, hnet, hout, hvalues⟩

end Exported

end ReadersSpeech.Pyannet
