import Mathlib.Tactic.Positivity
import ReadersSpeech.PyannetLoad

/-! What is written is read back. After the magic the file is a list of 32-bit words, so one lemma
finds every field of the header and every weight.
-/

set_option autoImplicit false

namespace ReadersSpeech.PyannetFile
open Layout Pyannet

theorem byte_bit (w : BitVec 32) (k : Nat) {i : Nat} (hi : i < 32) :
    ((((w >>> k).setWidth 8).setWidth 32) <<< k).getLsbD i =
      (decide (k ≤ i) && decide (i < k + 8) && w.getLsbD i) := by
  simp only [BitVec.getLsbD_shiftLeft, BitVec.getLsbD_setWidth, BitVec.getLsbD_ushiftRight]
  by_cases hk : k ≤ i
  · have hki : k + (i - k) = i := by omega
    have hlt : i - k < 8 ↔ i < k + 8 := by omega
    simp [hi, hk, hki, hlt, show i - k < 32 by omega, show ¬ i < k by omega]
  · simp [hk, show i < k by omega]

theorem bytes_join (w : BitVec 32) :
    (w.setWidth 8).setWidth 32 ||| ((w >>> 8).setWidth 8).setWidth 32 <<< 8 |||
      ((w >>> 16).setWidth 8).setWidth 32 <<< 16 |||
      ((w >>> 24).setWidth 8).setWidth 32 <<< 24 = w := by
  refine BitVec.eq_of_getLsbD_eq fun i hi => ?_
  have h₀ := byte_bit w 0 hi
  simp only [BitVec.ushiftRight_zero, BitVec.shiftLeft_zero] at h₀
  simp only [BitVec.getLsbD_or, h₀, byte_bit w 8 hi, byte_bit w 16 hi, byte_bit w 24 hi]
  cases w.getLsbD i
  · simp
  · simp
    omega

theorem packWord_join (w : Word) : w.toUInt8.toUInt32 ||| (w >>> 8).toUInt8.toUInt32 <<< 8 |||
    (w >>> 16).toUInt8.toUInt32 <<< 16 ||| (w >>> 24).toUInt8.toUInt32 <<< 24 = w := by
  rw [← UInt32.toBitVec_inj]
  exact bytes_join w.toBitVec

theorem rdWord_flatMap (pre : Bytes) (ws : List Word) (i : Nat) (h : i < ws.length) :
    rdWord (pre ++ ws.flatMap packWord) (pre.length + 4 * i) = ws[i] := by
  induction ws generalizing pre i with
  | nil => simp at h
  | cons w ws ih =>
    cases i with
    | zero => simpa [rdWord, packWord, List.getElem?_append_right] using packWord_join w
    | succ i =>
      have hpre : pre.length + 4 * (i + 1) = (pre ++ packWord w).length + 4 * i := by
        simp [packWord]
        omega
      rw [hpre, List.flatMap_cons, ← List.append_assoc, ih _ i (Nat.lt_of_succ_lt_succ h)]
      rfl

theorem length_flatMap_packWord (ws : List Word) :
    (ws.flatMap packWord).length = 4 * ws.length := by
  induction ws with
  | nil => rfl
  | cons w ws ih =>
    rw [List.flatMap_cons, List.length_append, ih, List.length_cons]
    simp [packWord]
    omega

variable {d : Dims} {eps alpha : Word} {tensor : Field → Tensor}

def weights (d : Dims) (tensor : Field → Tensor) : List Word :=
  (shapes d).flatMap fun s => (tensor s.1).data

/-- The header after the magic. -/
def headWords (d : Dims) (eps alpha : Word) (tensor : Field → Tensor) : List Word :=
  (version :: d.list).map Int32.toUInt32 ++
    [eps, alpha, UInt32.ofNat (weights d tensor).length]

def fileBytes (d : Dims) (eps alpha : Word) (tensor : Field → Tensor) : Bytes :=
  magic ++ (headWords d eps alpha tensor ++ weights d tensor).flatMap packWord

theorem foldlM_put (out : List Word) (ss : List (Field × List Int))
    (h : ∀ s ∈ ss, (tensor s.1).shape = s.2) :
    ss.foldlM (fun out s => put out (tensor s.1) s.2) out =
      some (out ++ ss.flatMap fun s => (tensor s.1).data) := by
  induction ss generalizing out with
  | nil => simp
  | cons s ss ih =>
    rw [List.foldlM_cons, put, if_pos (h s (by simp))]
    simp [ih _ fun s hs => h s (by simp [hs])]

theorem length_weights (h : ∀ s ∈ shapes d, (tensor s.1).shape = s.2) :
    ((weights d tensor).length : Int) = total d := by
  have hs : ∀ ss : List (Field × List Int), (∀ s ∈ ss, (tensor s.1).shape = s.2) →
      ((ss.flatMap fun s => (tensor s.1).data).length : Int) = (ss.map fun s => s.2.prod).sum := by
    intro ss
    induction ss with
    | nil => simp
    | cons s ss ih =>
      intro h
      rw [List.flatMap_cons, List.length_append, Int.natCast_add, (tensor s.1).sized,
        h s (by simp), ih fun s hs => h s (by simp [hs]), List.map_cons, List.sum_cons]
  rw [weights, hs _ h, total, lengths, List.map_map]
  rfl

theorem exportPyannet_eq (h : ∀ s ∈ shapes d, (tensor s.1).shape = s.2)
    (hcount : total d < 2 ^ 31) : exportPyannet d eps alpha tensor =
      some (fileBytes d eps alpha tensor) := by
  have hlt : (weights d tensor).length < 2 ^ 31 := by
    have hw := length_weights h
    omega
  rw [exportPyannet, foldlM_put [] _ h]
  change (packHeader d eps alpha (weights d tensor).length).bind (fun header =>
    some (header ++ (weights d tensor).flatMap packWord)) = _
  simp only [packHeader, if_pos hlt, Option.bind_some, fileBytes, headWords,
    List.flatMap_append, List.flatMap_map, List.flatMap_cons, List.flatMap_nil, List.append_nil,
    List.append_assoc]

theorem total_bounds (hpos : ∀ x ∈ d.list, 1 ≤ x.toInt) :
    2 * d.sincC.toInt ≤ total d ∧ 2 * d.c1.toInt ≤ total d ∧ 2 * d.c2.toInt ≤ total d := by
  have hlayers : 0 ≤ ((List.range d.layers.toInt.toNat).map fun l =>
      2 * ((if l = 0 then d.c2.toInt else 2 * d.hidden.toInt) * (gates * d.hidden.toInt) +
        d.hidden.toInt * (gates * d.hidden.toInt) + gates * d.hidden.toInt)).sum := by
    refine List.sum_nonneg fun x hx => ?_
    obtain ⟨l, -, rfl⟩ := List.mem_map.mp hx
    simp only [Dims.list, List.forall_mem_cons] at hpos
    have hin : 0 ≤ if l = 0 then d.c2.toInt else 2 * d.hidden.toInt := by split <;> omega
    have hH : 0 ≤ d.hidden.toInt := by omega
    positivity
  simp only [Dims.list, List.forall_mem_cons] at hpos
  rw [total_eq]
  generalize d.sincC.toInt = a, d.sincK.toInt = b, d.c1.toInt = c, d.k1.toInt = e,
    d.c2.toInt = f, d.k2.toInt = g, d.hidden.toInt = H, d.d0.toInt = i, d.d1.toInt = j,
    d.classes.toInt = k at *
  have h₁ : 0 ≤ a * b := mul_nonneg (by omega) (by omega)
  have h₂ : 0 ≤ c * a * e := mul_nonneg (mul_nonneg (by omega) (by omega)) (by omega)
  have h₃ : 0 ≤ f * c * g := mul_nonneg (mul_nonneg (by omega) (by omega)) (by omega)
  have h₄ : 0 ≤ 2 * H * i := mul_nonneg (by omega) (by omega)
  have h₅ : 0 ≤ i * j := mul_nonneg (by omega) (by omega)
  have h₆ : 0 ≤ j * k := mul_nonneg (by omega) (by omega)
  omega

theorem gates_bound (hpos : ∀ x ∈ d.list, 1 ≤ x.toInt) : gates * d.hidden.toInt ≤ total d := by
  have hl : 0 < d.layers.toInt.toNat := by
    simp only [Dims.list, List.forall_mem_cons] at hpos
    omega
  have hmem : (Field.b 0 0, [gates * d.hidden.toInt]) ∈ shapes d := by
    unfold shapes
    refine List.mem_append_left _ (List.mem_append_right _ (List.mem_flatMap.mpr ⟨0, ?_, ?_⟩))
    · exact List.mem_range.mpr hl
    · exact List.mem_flatMap.mpr ⟨0, by simp, by simp⟩
  have hsum := List.single_le_sum (l := (lengths d).map Prod.snd) (fun x hx => by
    obtain ⟨k, hk, rfl⟩ := List.mem_map.mp hx
    exact lengths_nonneg hpos k hk) (gates * d.hidden.toInt) (by
    refine List.mem_map.mpr ⟨(Field.b 0 0, gates * d.hidden.toInt), ?_, rfl⟩
    exact List.mem_map.mpr ⟨_, hmem, by simp⟩)
  exact hsum

/-- What a header must be for the reader to take the file. -/
structure Usual (d : Dims) : Prop where
  positive : ∀ x ∈ d.list, 1 ≤ x.toInt
  layers : d.layers.toInt ≤ 8
  hidden : 4 * d.hidden.toInt % 16 = 0
  classes : d.classes = 7
  count : total d < 2 ^ 31

theorem Usual.computes (h : Usual d) : fitsInt (gates * d.hidden.toInt) ∧ Computes d := by
  obtain ⟨h₁, h₂, h₃⟩ := total_bounds h.positive
  have h₄ := gates_bound h.positive
  have hcount := h.count
  have hpos := h.positive
  simp only [Dims.list, List.forall_mem_cons] at hpos
  unfold Computes fitsInt
  simp only [gates] at h₄ ⊢
  omega

theorem length_fileBytes : (fileBytes d eps alpha tensor).length =
    headerSize + 4 * (weights d tensor).length := by
  rw [fileBytes, List.length_append, length_flatMap_packWord, List.length_append]
  simp only [headWords, Dims.list, magic, headerSize, List.length_append, List.length_map,
    List.length_cons, List.length_nil]
  omega

theorem rdWord_head (i : Nat) (h : i < 17) : rdWord (fileBytes d eps alpha tensor) (4 + 4 * i) =
    (headWords d eps alpha tensor).get ⟨i, h⟩ := by
  have hl : (headWords d eps alpha tensor).length = 17 := rfl
  have hr := rdWord_flatMap magic (headWords d eps alpha tensor ++ weights d tensor) i
    (by rw [List.length_append]; omega)
  rw [List.getElem_append_left (by omega)] at hr
  exact hr

theorem rdWord_weight (i : Nat) (h : i < (weights d tensor).length) :
    rdWord (fileBytes d eps alpha tensor) (headerSize + 4 * i) = (weights d tensor)[i] := by
  have hl : (headWords d eps alpha tensor).length = 17 := rfl
  have hr := rdWord_flatMap magic (headWords d eps alpha tensor ++ weights d tensor) (17 + i)
    (by rw [List.length_append]; omega)
  rw [List.getElem_append_right (by omega)] at hr
  have hi : magic.length + 4 * (17 + i) = headerSize + 4 * i := by
    simp only [magic, headerSize, List.length_cons, List.length_nil]
    omega
  rw [hi] at hr
  simp only [hl, Nat.add_sub_cancel_left] at hr
  exact hr

theorem rdI32_head (i : Nat) (x : Int32) (h : i < 17)
    (hx : (headWords d eps alpha tensor).get ⟨i, h⟩ = x.toUInt32) :
    rdI32 (fileBytes d eps alpha tensor) (4 + 4 * i) = x := by
  rw [rdI32, rdWord_head i h, hx, Int32.toInt32_toUInt32]

theorem rdDims_file : rdDims (fileBytes d eps alpha tensor) = d :=
  Dims.ext (rdI32_head 1 _ (by omega) rfl) (rdI32_head 2 _ (by omega) rfl)
    (rdI32_head 3 _ (by omega) rfl) (rdI32_head 4 _ (by omega) rfl)
    (rdI32_head 5 _ (by omega) rfl) (rdI32_head 6 _ (by omega) rfl)
    (rdI32_head 7 _ (by omega) rfl) (rdI32_head 8 _ (by omega) rfl)
    (rdI32_head 9 _ (by omega) rfl) (rdI32_head 10 _ (by omega) rfl)
    (rdI32_head 11 _ (by omega) rfl) (rdI32_head 12 _ (by omega) rfl)
    (rdI32_head 13 _ (by omega) rfl)

theorem count_file (eps alpha : Word) (h : (weights d tensor).length < 2 ^ 31) :
    (rdI32 (fileBytes d eps alpha tensor) 68).toInt = (weights d tensor).length := by
  have hc : rdI32 (fileBytes d eps alpha tensor) 68 = Int32.ofNat (weights d tensor).length :=
    rdI32_head 16 _ (by omega) rfl
  rw [hc, Int32.toInt_ofNat_of_lt h]

theorem candidate_file (eps alpha : Word) (hd : Usual d)
    (hs : ∀ s ∈ shapes d, (tensor s.1).shape = s.2) :
    Candidate (fileBytes d eps alpha tensor) := by
  have hw := length_weights hs
  have hcount := hd.count
  have hlt : (weights d tensor).length < 2 ^ 31 := by omega
  have hc := count_file (d := d) eps alpha hlt
  have hpos := hd.positive
  have hl := hd.layers
  simp only [Dims.list, List.forall_mem_cons] at hpos
  refine ⟨by rw [length_fileBytes]; omega, rfl, rdI32_head 0 _ (by omega) rfl, ?_⟩
  rw [rdDims_file, length_fileBytes]
  simp only [unfit, Bool.or_eq_false_iff, decide_eq_false_iff_not, Int32.lt_iff_toInt_lt,
    Int32.le_iff_toInt_le, hc, hd.classes]
  have h7 : ((7 : Int32) != pyannetClasses) = false := rfl
  simp only [Int32.reduceToInt, h7, and_true, Int.toNat_natCast]
  omega

theorem load_file (hd : Usual d) (hs : ∀ s ∈ shapes d, (tensor s.1).shape = s.2) :
    pyannetLoad true true (fileBytes d eps alpha tensor) =
      .ok (some (filled (fileBytes d eps alpha tensor) (gates * d.hidden.toInt)
        (size (total d)))) := by
  have hw := length_weights hs
  have hcount := hd.count
  have hlt : (weights d tensor).length < 2 ^ 31 := by omega
  have hc := count_file (d := d) eps alpha hlt
  obtain ⟨hfit, hcomp⟩ := hd.computes
  have hsized := @load_sized true _ (candidate_file eps alpha hd hs)
  rw [rdDims_file, hc, hw] at hsized
  rw [hsized hfit hd.hidden hcomp, if_pos ⟨rfl, rfl⟩]

/-- A file with such a header is refused, or is a whole model. -/
theorem load_usual {p : Bytes} (hu : Usual (rdDims p)) (calloc malloc : Bool) :
    ∃ r, pyannetLoad calloc malloc p = .ok r ∧
      ∀ m, r = some m → IsModel p m ∧ m.dims = rdDims p := by
  by_cases hc : calloc = true ∧ Candidate p
  · obtain ⟨rfl, hc⟩ := hc
    obtain ⟨hfit, hcomp⟩ := hu.computes
    refine ⟨_, load_sized hc hfit hu.hidden hcomp, fun m hm => ?_⟩
    split at hm
    · rename_i hsize
      have hpos := hc.fields.2
      have hcount := exact_of_modEq hsize.1 hpos (total_nonneg hu.positive)
        (by have hlt := hu.count; omega)
      cases hm
      exact ⟨filled_isModel hu.positive hcount hpos, rfl⟩
    · cases hm
  · exact ⟨none, load_refused hc, by simp⟩

/-- Whatever is written is read back: the header, and every tensor where its pointer says. -/
theorem load_export (d : Dims) (eps alpha : Word) (tensor : Field → Tensor) (hd : Usual d)
    (hs : ∀ s ∈ shapes d, (tensor s.1).shape = s.2) :
    ∃ p m, exportPyannet d eps alpha tensor = some p ∧ pyannetLoad true true p = .ok (some m) ∧
      m.dims = d ∧ m.eps = eps ∧ m.alpha = alpha ∧
      ∀ s ∈ shapes d, m.slice s.1 s.2.prod = some (tensor s.1).data := by
  have hw := length_weights hs
  have hcount := hd.count
  have hlt : (weights d tensor).length < 2 ^ 31 := by omega
  have hc := count_file (d := d) eps alpha hlt
  have hm : IsModel (fileBytes d eps alpha tensor) (filled (fileBytes d eps alpha tensor)
      (gates * d.hidden.toInt) (size (total d))) := by
    have hf := filled_isModel (p := fileBytes d eps alpha tensor)
    rw [rdDims_file] at hf
    exact hf hd.positive (hc.trans hw) (by omega)
  refine ⟨_, _, exportPyannet_eq hs hcount, load_file hd hs, rdDims_file,
    rdWord_head 14 (by omega), rdWord_head 15 (by omega), fun s hmem => ?_⟩
  have hweights : (filled (fileBytes d eps alpha tensor) (gates * d.hidden.toInt)
      (size (total d))).weights = weights d tensor := by
    rw [hm.weights, hc, Int.toNat_natCast]
    refine List.ext_getElem (by simp) fun i h₁ h₂ => ?_
    simp only [List.getElem_map, List.getElem_range]
    exact rdWord_weight i h₂
  have hlen : ∀ k ∈ lengths d, (((tensor k.1).data.length : Nat) : Int) = k.2 := by
    intro k hk
    obtain ⟨s, hmem, rfl⟩ := List.mem_map.mp hk
    rw [(tensor s.1).sized, hs s hmem]
  have hblock : (lengths d).flatMap (fun k => (tensor k.1).data) = weights d tensor := by
    rw [lengths, List.flatMap_map, weights]
  have hslices := hm.slices
  rw [show (filled (fileBytes d eps alpha tensor) (gates * d.hidden.toInt)
    (size (total d))).dims = d from rdDims_file] at hslices
  obtain ⟨o, ho, ht⟩ := Consecutive.slice (fun f => (tensor f).data) [] hslices hlen
    (s.1, s.2.prod) (List.mem_map.mpr ⟨s, hmem, rfl⟩)
  rw [List.nil_append, hblock] at ht
  obtain ⟨w, hptr, rfl⟩ := Option.map_eq_some_iff.mp ho
  rw [Model.slice, hptr, hweights, Option.map_some, ht]

theorem cast_prod (shape : List Nat) : (shape.prod : Int) = (shape.map Nat.cast).prod := by
  induction shape with
  | nil => rfl
  | cons n shape ih => simp_all

def zeros (shape : List Nat) : Tensor where
  shape := shape.map Nat.cast
  data := List.replicate shape.prod 0
  sized := by rw [List.length_replicate, cast_prod]

/-- The numbers from `first` on. -/
def counting (first : Nat) (shape : List Nat) : Tensor where
  shape := shape.map Nat.cast
  data := (List.range' first shape.prod).map Nat.toUInt32
  sized := by rw [List.length_map, List.length_range', cast_prod]

/-- Two layers, and hardly two sizes the same. -/
def small : Dims := ⟨2, 3, 1, 3, 2, 5, 1, 1, 2, 4, 3, 2, 7⟩

/-- Each tensor counts on from where it stands in the file. -/
def smallTensor (f : Field) : Tensor :=
  counting (1 + (shapes small).findIdx (·.1 == f))
    ((((shapes small).lookup f).getD []).map Int.toNat)

theorem usual_small : Usual small :=
  ⟨by simp [Dims.list, small], by decide, by decide, rfl, by decide⟩

theorem load_export_small :
    ∃ p m, exportPyannet small 1 2 smallTensor = some p ∧
      pyannetLoad true true p = .ok (some m) ∧ m.dims = small ∧ m.eps = 1 ∧ m.alpha = 2 ∧
      ∀ s ∈ shapes small, m.slice s.1 s.2.prod = some (smallTensor s.1).data :=
  load_export small 1 2 smallTensor usual_small (by decide)

end ReadersSpeech.PyannetFile
