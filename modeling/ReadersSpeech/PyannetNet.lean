import ReadersSpeech.PyannetPlan

/-! The network that `pyannet_run` sees behind the pointers of a loaded file.
-/

set_option autoImplicit false

namespace ReadersSpeech.Pyannet
open FloatOps Layout PyannetFile

variable {α : Type}

/-- The arrays of a struct by the names they have in the file. -/
def Net.tensor (m : Net α) : Field → List α
  | .wavScale => m.wavScale.1
  | .wavBias => m.wavBias.1
  | .sinc => m.sinc.1
  | .n0Scale => m.n0Scale.1
  | .n0Bias => m.n0Bias.1
  | .conv1W => m.conv1W.1
  | .conv1B => m.conv1B.1
  | .n1Scale => m.n1Scale.1
  | .n1Bias => m.n1Bias.1
  | .conv2W => m.conv2W.1
  | .conv2B => m.conv2B.1
  | .n2Scale => m.n2Scale.1
  | .n2Bias => m.n2Bias.1
  | .wt l dir => (m.lstm l (dir == 1)).wt
  | .rt l dir => (m.lstm l (dir == 1)).rt
  | .b l dir => (m.lstm l (dir == 1)).b
  | .lin0W => m.lin0W.1
  | .lin0B => m.lin0B.1
  | .lin1W => m.lin1W.1
  | .lin1B => m.lin1B.1
  | .clsW => m.clsW.1
  | .clsB => m.clsB.1

section Arrays
variable (float : Word → α) (m : Model)

/-- The `n` floats a pointer of the struct points to, if they all lie in the block of weights. -/
def floats (f : Field) (n : ℕ) : Option (Floats α n) := do
  let ws ← m.slice f n
  if h : ws.length = n then some ⟨ws.map float, by rw [List.length_map, h]⟩ else none

def direction (l : ℕ) (dir : Bool) (inp H : ℕ) : Option (LstmDir α inp H) := do
  let wt ← floats float m (.wt l dir.toNat) (inp * (gates * H))
  let rt ← floats float m (.rt l dir.toNat) (H * (gates * H))
  let b ← floats float m (.b l dir.toNat) (gates * H)
  return ⟨wt.1, rt.1, b.1, wt.2, rt.2, b.2⟩

end Arrays

variable [LayerOps α]

/-- What stands for the pointers of a layer that is not there; they are null. -/
def unset (inp H : ℕ) : LstmDir α inp H where
  wt := List.replicate _ zero
  rt := List.replicate _ zero
  b := List.replicate _ zero
  wt_length := List.length_replicate
  rt_length := List.length_replicate
  b_length := List.length_replicate

section Net
variable (float : Word → α) (m : Model)

def stack : Option ((l : ℕ) → Bool → LstmDir α
    (if l = 0 then nat m.dims.c2 else 2 * nat m.dims.hidden) (nat m.dims.hidden)) :=
  let at_ := fun l dir => direction float m l dir
    (if l = 0 then nat m.dims.c2 else 2 * nat m.dims.hidden) (nat m.dims.hidden)
  if ∀ l < nat m.dims.layers, ∀ dir, (at_ l dir).isSome then
    some fun l dir => (at_ l dir).getD (unset _ _)
  else none

/-- The struct as `pyannet_run` reads it. -/
def netOf : Option (Net α) := do
  let d := m.dims
  return {
    dims := d
    eps := float m.eps
    alpha := float m.alpha
    wavScale := ← floats float m .wavScale 1
    wavBias := ← floats float m .wavBias 1
    sinc := ← floats float m .sinc (nat d.sincC * nat d.sincK)
    n0Scale := ← floats float m .n0Scale (nat d.sincC)
    n0Bias := ← floats float m .n0Bias (nat d.sincC)
    conv1W := ← floats float m .conv1W (nat d.c1 * nat d.sincC * nat d.k1)
    conv1B := ← floats float m .conv1B (nat d.c1)
    n1Scale := ← floats float m .n1Scale (nat d.c1)
    n1Bias := ← floats float m .n1Bias (nat d.c1)
    conv2W := ← floats float m .conv2W (nat d.c2 * nat d.c1 * nat d.k2)
    conv2B := ← floats float m .conv2B (nat d.c2)
    n2Scale := ← floats float m .n2Scale (nat d.c2)
    n2Bias := ← floats float m .n2Bias (nat d.c2)
    lstm := ← stack float m
    lin0W := ← floats float m .lin0W (2 * nat d.hidden * nat d.d0)
    lin0B := ← floats float m .lin0B (nat d.d0)
    lin1W := ← floats float m .lin1W (nat d.d0 * nat d.d1)
    lin1B := ← floats float m .lin1B (nat d.d1)
    clsW := ← floats float m .clsW (nat d.d1 * nat d.classes)
    clsB := ← floats float m .clsB (nat d.classes) }

end Net

section Loaded
variable {p : Bytes} {m : Model} (float : Word → α)

omit [LayerOps α] in
theorem floats_some (hm : IsModel p m) {f : Field} {shape : List ℤ} {n : ℕ}
    (hs : (f, shape) ∈ shapes m.dims) (hn : shape.prod = n) :
    ∃ xs, floats float m f n = some xs := by
  obtain ⟨o, ho, -, hfits⟩ := hm.slices.within.2 _ (List.mem_map.mpr ⟨_, hs, rfl⟩)
  obtain ⟨w, hw, rfl⟩ := Option.map_eq_some_iff.mp ho
  have hlen : m.weights.length = (rdI32 p 68).toInt.toNat := by
    rw [hm.weights, List.length_map, List.length_range]
  have hslice : ((m.weights.drop w.toNat).take (n : ℤ).toNat).length = n := by
    simp only [hn] at hfits
    rw [List.length_take, List.length_drop]
    omega
  simp only [floats, Model.slice, hw, Option.map_some, Option.bind_eq_bind, Option.bind_some,
    dif_pos hslice]
  exact ⟨_, rfl⟩

omit [LayerOps α] in
theorem floats_slice {f : Field} {n : ℕ} {xs : Floats α n} (h : floats float m f n = some xs) :
    (m.slice f n).map (List.map float) = some xs.1 := by
  obtain ⟨ws, hws, h⟩ := Option.bind_eq_some_iff.mp h
  split at h
  · obtain rfl := Option.some.inj h
    rw [hws, Option.map_some]
  · cases h

/-- The shapes of one direction of one layer. -/
def lstmShapes (d : Dims) (l : ℕ) (dir : Bool) : List (Field × List ℤ) :=
  [(.wt l dir.toNat, [if l = 0 then d.c2.toInt else 2 * d.hidden.toInt, gates * d.hidden.toInt]),
    (.rt l dir.toNat, [d.hidden.toInt, gates * d.hidden.toInt]),
    (.b l dir.toNat, [gates * d.hidden.toInt])]

theorem lstmShapes_mem {d : Dims} {l : ℕ} (hl : l < nat d.layers) (dir : Bool) :
    ∀ s ∈ lstmShapes d l dir, s ∈ shapes d := by
  intro s hs
  refine List.mem_append_left _ (List.mem_append_right _ (List.mem_flatMap.mpr
    ⟨l, List.mem_range.mpr hl, List.mem_flatMap.mpr ⟨dir.toNat, ?_, hs⟩⟩))
  cases dir <;> decide

/-- The arrays outside the LSTM: the field, its shape, and how many floats are read there. -/
def arrays (d : Dims) : List (Field × List ℤ × ℕ) :=
  [(.wavScale, [1], 1), (.wavBias, [1], 1),
    (.sinc, [d.sincC.toInt, d.sincK.toInt], nat d.sincC * nat d.sincK),
    (.n0Scale, [d.sincC.toInt], nat d.sincC), (.n0Bias, [d.sincC.toInt], nat d.sincC),
    (.conv1W, [d.c1.toInt, d.sincC.toInt, d.k1.toInt], nat d.c1 * nat d.sincC * nat d.k1),
    (.conv1B, [d.c1.toInt], nat d.c1),
    (.n1Scale, [d.c1.toInt], nat d.c1), (.n1Bias, [d.c1.toInt], nat d.c1),
    (.conv2W, [d.c2.toInt, d.c1.toInt, d.k2.toInt], nat d.c2 * nat d.c1 * nat d.k2),
    (.conv2B, [d.c2.toInt], nat d.c2),
    (.n2Scale, [d.c2.toInt], nat d.c2), (.n2Bias, [d.c2.toInt], nat d.c2),
    (.lin0W, [2 * d.hidden.toInt, d.d0.toInt], 2 * nat d.hidden * nat d.d0),
    (.lin0B, [d.d0.toInt], nat d.d0),
    (.lin1W, [d.d0.toInt, d.d1.toInt], nat d.d0 * nat d.d1), (.lin1B, [d.d1.toInt], nat d.d1),
    (.clsW, [d.d1.toInt, d.classes.toInt], nat d.d1 * nat d.classes),
    (.clsB, [d.classes.toInt], nat d.classes)]

theorem arrays_shaped {d : Dims} (hpos : ∀ x ∈ d.list, 1 ≤ x.toInt) :
    ∀ x ∈ arrays d, (x.1, x.2.1) ∈ shapes d ∧ x.2.1.prod = x.2.2 := by
  have hnat : ∀ x ∈ d.list, (nat x : ℤ) = x.toInt := fun x hx => cast_nat (by linarith [hpos x hx])
  simp only [Dims.list, List.forall_mem_cons] at hnat
  simp [arrays, shapes, hnat, mul_assoc]

/-- Every tensor is one of these, or belongs to a direction of a layer. -/
theorem shapes_cases {d : Dims} {s : Field × List ℤ} (hs : s ∈ shapes d) :
    s ∈ (arrays d).map (fun x => (x.1, x.2.1)) ∨
      ∃ l < nat d.layers, ∃ dir, s ∈ lstmShapes d l dir := by
  rcases List.mem_append.mp hs with hs | hs
  · rcases List.mem_append.mp hs with hs | hs
    · exact .inl (List.mem_append_left _ hs)
    · obtain ⟨l, hl, hs⟩ := List.mem_flatMap.mp hs
      obtain ⟨dir, hdir, hs⟩ := List.mem_flatMap.mp hs
      have hdir' : dir = 0 ∨ dir = 1 := by
        have := List.mem_range.mp hdir
        omega
      rcases hdir' with rfl | rfl
      · exact .inr ⟨l, List.mem_range.mp hl, false, hs⟩
      · exact .inr ⟨l, List.mem_range.mp hl, true, hs⟩
  · exact .inl (List.drop_subset 13 _ hs)

omit [LayerOps α] in
theorem direction_some (hm : IsModel p m) {l : ℕ} (hl : l < nat m.dims.layers) (dir : Bool) :
    ∃ L, direction float m l dir (if l = 0 then nat m.dims.c2 else 2 * nat m.dims.hidden)
      (nat m.dims.hidden) = some L ∧
      (lstmShapes m.dims l dir).map (fun s => (m.slice s.1 s.2.prod).map (List.map float)) =
        [some L.wt, some L.rt, some L.b] := by
  have hpos := hm.dims
  simp only [Dims.list, List.forall_mem_cons] at hpos
  have hH : (nat m.dims.hidden : ℤ) = m.dims.hidden.toInt := cast_nat (by omega)
  have hc2 : (nat m.dims.c2 : ℤ) = m.dims.c2.toInt := cast_nat (by omega)
  have hmem := lstmShapes_mem hl dir
  simp only [lstmShapes, List.forall_mem_cons] at hmem
  obtain ⟨hwt, hrt, hb, -⟩ := hmem
  have hwtn : [if l = 0 then m.dims.c2.toInt else 2 * m.dims.hidden.toInt,
      gates * m.dims.hidden.toInt].prod = (((if l = 0 then nat m.dims.c2 else
        2 * nat m.dims.hidden) * (gates * nat m.dims.hidden) : ℕ) : ℤ) := by
    simp only [List.prod_cons, List.prod_nil]
    split <;> push_cast [hH, hc2] <;> ring
  have hrtn : [m.dims.hidden.toInt, gates * m.dims.hidden.toInt].prod =
      ((nat m.dims.hidden * (gates * nat m.dims.hidden) : ℕ) : ℤ) := by simp [hH]
  have hbn : [gates * m.dims.hidden.toInt].prod = ((gates * nat m.dims.hidden : ℕ) : ℤ) := by
    simp [hH]
  obtain ⟨wt, hwt⟩ := floats_some float hm hwt hwtn
  obtain ⟨rt, hrt⟩ := floats_some float hm hrt hrtn
  obtain ⟨b, hb⟩ := floats_some float hm hb hbn
  refine ⟨⟨wt.1, rt.1, b.1, wt.2, rt.2, b.2⟩, ?_, ?_⟩
  · simp only [direction, hwt, hrt, hb]
    rfl
  · simp only [lstmShapes, List.map_cons, List.map_nil, hwtn, hrtn, hbn, floats_slice float hwt,
      floats_slice float hrt, floats_slice float hb]

theorem stack_some (hm : IsModel p m) : ∃ lstm, stack float m = some lstm ∧
    ∀ l < nat m.dims.layers, ∀ dir,
      (lstmShapes m.dims l dir).map (fun s => (m.slice s.1 s.2.prod).map (List.map float)) =
        [some (lstm l dir).wt, some (lstm l dir).rt, some (lstm l dir).b] := by
  refine ⟨_, if_pos fun l hl dir => ?_, fun l hl dir => ?_⟩
  · obtain ⟨L, hL, -⟩ := direction_some float hm hl dir
    simp only [hL, Option.isSome_some]
  · obtain ⟨L, hL, hbehind⟩ := direction_some float hm hl dir
    simp only [hL, Option.getD_some, hbehind]

omit [LayerOps α] in
theorem tensors_of_arrays {tensor : Field → List α} (hpos : ∀ x ∈ m.dims.list, 1 ≤ x.toInt)
    (harrays : ∀ x ∈ arrays m.dims,
      (m.slice x.1 x.2.2).map (List.map float) = some (tensor x.1))
    (hlstm : ∀ l < nat m.dims.layers, ∀ dir, ∀ s ∈ lstmShapes m.dims l dir,
      (m.slice s.1 s.2.prod).map (List.map float) = some (tensor s.1)) :
    ∀ s ∈ shapes m.dims, (m.slice s.1 s.2.prod).map (List.map float) = some (tensor s.1) := by
  intro s hs
  rcases shapes_cases hs with hs | ⟨l, hl, dir, hs⟩
  · obtain ⟨x, hx, rfl⟩ := List.mem_map.mp hs
    rw [(arrays_shaped hpos x hx).2]
    exact harrays x hx
  · exact hlstm l hl dir s hs

/-- Behind every pointer of a loaded struct lies the array that is read there. -/
theorem netOf_some (hm : IsModel p m) :
    ∃ net : Net α, netOf float m = some net ∧ net.dims = m.dims ∧ net.eps = float m.eps ∧
      net.alpha = float m.alpha ∧ ∀ s ∈ shapes m.dims,
        (m.slice s.1 s.2.prod).map (List.map float) = some (net.tensor s.1) := by
  obtain ⟨lstm, hlstm, hbehind⟩ := stack_some float hm
  have hall : ∀ x ∈ arrays m.dims, ∃ xs, floats float m x.1 x.2.2 = some xs := by
    intro x hx
    obtain ⟨hs, hn⟩ := arrays_shaped hm.dims x hx
    exact floats_some float hm hs hn
  simp only [arrays, List.forall_mem_cons] at hall
  obtain ⟨⟨_, h₁⟩, ⟨_, h₂⟩, ⟨_, h₃⟩, ⟨_, h₄⟩, ⟨_, h₅⟩, ⟨_, h₆⟩, ⟨_, h₇⟩, ⟨_, h₈⟩, ⟨_, h₉⟩, ⟨_, h₁₀⟩,
    ⟨_, h₁₁⟩, ⟨_, h₁₂⟩, ⟨_, h₁₃⟩, ⟨_, h₁₄⟩, ⟨_, h₁₅⟩, ⟨_, h₁₆⟩, ⟨_, h₁₇⟩, ⟨_, h₁₈⟩, ⟨_, h₁₉⟩, -⟩ :=
    hall
  simp only [netOf, h₁, h₂, h₃, h₄, h₅, h₆, h₇, h₈, h₉, h₁₀, h₁₁, h₁₂, h₁₃, h₁₄, h₁₅, h₁₆, h₁₇, h₁₈,
    h₁₉, hlstm, Option.bind_eq_bind, Option.bind_some]
  refine ⟨_, rfl, rfl, rfl, rfl, tensors_of_arrays float hm.dims ?_ fun l hl dir => ?_⟩
  · simp only [arrays, List.forall_mem_cons]
    exact ⟨floats_slice float h₁, floats_slice float h₂, floats_slice float h₃,
      floats_slice float h₄, floats_slice float h₅, floats_slice float h₆, floats_slice float h₇,
      floats_slice float h₈, floats_slice float h₉, floats_slice float h₁₀, floats_slice float h₁₁,
      floats_slice float h₁₂, floats_slice float h₁₃, floats_slice float h₁₄,
      floats_slice float h₁₅, floats_slice float h₁₆, floats_slice float h₁₇,
      floats_slice float h₁₈, floats_slice float h₁₉, by simp⟩
  · have hl' := hbehind l hl dir
    simp only [lstmShapes, List.map_cons, List.map_nil, List.cons.injEq, and_true] at hl'
    simp only [lstmShapes, List.forall_mem_cons]
    cases dir <;> exact ⟨hl'.1, hl'.2.1, hl'.2.2, by simp⟩

end Loaded

end ReadersSpeech.Pyannet
