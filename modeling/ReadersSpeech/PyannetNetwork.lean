import ReadersSpeech.PyannetNet
import ReadersSpeech.PyannetSafe
import ReadersSpeech.PyannetValues

/-! `pyannet_run` computes the network: for dimensions of every size, as long as no `int` of the
size computation overflows.
-/

set_option autoImplicit false

namespace ReadersSpeech.Pyannet
open Cells FloatOps LayerOps PyannetFile Network

section Sizes
variable {d : Dims} {n : Int32} {s : Lens} {p : Plan}

/-- What `pyannet_load` tests, and that the first recurrent layer reads no more than the others. -/
structure Runs (d : Dims) : Prop where
  positive : ∀ x ∈ d.list, 1 ≤ x.toInt
  hidden : 4 * d.hidden.toInt % 16 = 0
  width : d.c2.toInt ≤ 2 * d.hidden.toInt

theorem lens_of_lengths (hm : Positive d) (hs : lengths d n.toInt = some (some s)) :
    s = lens d n.toInt ∧ d.pool.toInt ≤ s.l3 := by
  rw [lengths_eq hm n.toInt_lt] at hs
  split at hs
  · obtain rfl := Option.some.inj (Option.some.inj hs)
    exact ⟨rfl, ‹_›⟩
  · simp at hs

/-- The lengths are positive, and pooling leaves a part of what it is given. -/
structure Pooled (d : Dims) (s : Lens) (n : ℤ) : Prop where
  p1 : s.p1 * d.pool.toInt ≤ s.l1
  l2 : s.l2 = s.p1 - d.k1.toInt + 1
  p2 : s.p2 * d.pool.toInt ≤ s.l2
  l3 : s.l3 = s.p2 - d.k2.toInt + 1
  f : s.f * d.pool.toInt ≤ s.l3
  pos : 0 < s.p1 ∧ 0 < s.l2 ∧ 0 < s.p2 ∧ 0 < s.l3 ∧ 0 < s.f
  l1 : s.l1 ≤ n

theorem pooled_of_lengths (hm : Positive d) (hs : lengths d n.toInt = some (some s)) :
    Pooled d s n.toInt := by
  obtain ⟨rfl, hexit⟩ := lens_of_lengths hm hs
  obtain ⟨hback₂, hback₁, hback₀⟩ := chain hm n.toInt
  obtain ⟨hK, hS, h₁, h₂, hP⟩ := hm
  have hl₂ := hback₂ hexit
  have hl₁ := hback₁ hl₂
  have hpool : ∀ l, d.pool.toInt ≤ l → 0 < l / d.pool.toInt ∧
      l / d.pool.toInt * d.pool.toInt ≤ l := fun l hl =>
    ⟨(Int.le_ediv_iff_mul_le hP).mpr (by omega), Int.ediv_mul_le l (by omega)⟩
  have hl : (lens d n.toInt).l1 = (n.toInt - d.sincK.toInt) / d.sincS.toInt + 1 := rfl
  have hq := Int.ediv_le_self d.sincS.toInt (show 0 ≤ n.toInt - d.sincK.toInt by omega)
  exact ⟨(hpool _ hl₁).2, rfl, (hpool _ hl₂).2, rfl, (hpool _ hexit).2,
    ⟨(hpool _ hl₁).1, by omega, (hpool _ hl₂).1, by omega, (hpool _ hexit).1⟩, by omega⟩

/-- The sizes, where none of the `int`s they are computed from overflows. -/
structure Planned (d : Dims) (s : Lens) (n : ℤ) (p : Plan) : Prop where
  G : p.G = gates * d.hidden.toInt
  hidden : 2 * d.hidden.toInt < 2 ^ 31 ∧ gates * d.hidden.toInt < 2 ^ 31
  nRows : 2 * d.hidden.toInt ≤ p.nRows
  x : p.x = size n
  p1 : p.p1 = size d.sincC.toInt * size s.p1
  c2 : p.c2 = size d.c1.toInt * size s.l2
  p2 : p.p2 = size d.c1.toInt * size s.p2
  c3 : p.c3 = size d.c2.toInt * size s.l3
  p3 : p.p3 = size d.c2.toInt * size s.f
  seq : p.seq = size s.f * size (2 * d.hidden.toInt)
  g : p.g = size s.f * size (gates * d.hidden.toInt)
  lin : ∃ w : ℤ, d.d0.toInt ≤ w ∧ d.d1.toInt ≤ w ∧ w < 2 ^ 31 ∧ p.lin = size s.f * size w

theorem planned {n : ℤ} (hp : plan d s n = some p) : Planned d s n p := by
  simp only [plan, Option.bind_eq_bind, Option.bind_eq_some_iff] at hp
  obtain ⟨G, hG, l1Pad, -, q, -, a, -, phaseLen, -, twoH, htwo, hp⟩ := hp
  obtain ⟨rfl, hG'⟩ := int_some hG
  obtain ⟨rfl, htwo'⟩ := int_some htwo
  have hd0 := d.d0.toInt_lt
  have hd1 := d.d1.toInt_lt
  have hseq : size s.f * 2 * size d.hidden.toInt = size s.f * size (2 * d.hidden.toInt) := by
    rw [size_mul 2, size_two, mul_assoc]
  cases hp
  refine ⟨rfl, ⟨htwo', hG'⟩, ?_, rfl, rfl, rfl, rfl, rfl, rfl, hseq, rfl, _, ?_, ?_, ?_, rfl⟩
  · dsimp only
    split <;> omega
  all_goals split <;> omega

theorem size_channels {x : Int32} {l : ℤ} (hx : 1 ≤ x.toInt) (hl : 0 ≤ l) (hl' : l < 2 ^ 31) :
    (size x.toInt * size l).toNat = nat x * l.toNat :=
  size_mul_toNat (by omega) x.toInt_lt hl hl'

theorem pooled_fits {pool : Int32} {l q : ℤ} (hpool : 1 ≤ pool.toInt) (hq : 0 ≤ q)
    (hle : q * pool.toInt ≤ l) : q.toNat * nat pool ≤ l.toNat := by
  rw [nat, ← Int.toNat_mul hq (by omega)]
  exact Int.toNat_le_toNat hle

theorem room_of_plan (hd : Runs d) (hs : lengths d n.toInt = some (some s))
    (hp : plan d s n.toInt = some p) : Room d s p (nat n) := by
  have hpos := hd.positive
  simp only [Dims.list, List.forall_mem_cons] at hpos
  obtain ⟨hC, hK, hS, hc1, hk1, hc2, hk2, hP, -, hH, hd0, hd1, hclasses, -⟩ := hpos
  obtain ⟨hKn, hl1, hpl, -⟩ := grid_lens hK hS hP hs
  obtain ⟨hpad, hphase, hxp, hc1size, hrows⟩ := grid_plan hC hK hS hl1 hp
  obtain ⟨hp1, hl2, hp2, hl3, hf, ⟨hp1', hl2', hp2', hl3', hf'⟩, hln⟩ :=
    pooled_of_lengths ⟨hK, hS, hk1, hk2, hP⟩ hs
  have hpl := planned hp
  obtain ⟨w, hw0, hw1, hw, hlin⟩ := hpl.lin
  have hn := n.toInt_lt
  have hp1n : s.p1 < 2 ^ 31 := by nlinarith
  have hp2n : s.p2 < 2 ^ 31 := by nlinarith
  have hfn : s.f < 2 ^ 31 := by nlinarith
  have hframes : ∀ w : ℤ, 0 ≤ w → w < 2 ^ 31 → (size s.f * size w).toNat = s.f.toNat * w.toNat :=
    fun w hw hw' => size_mul_toNat (by omega) (by omega) hw hw'
  exact
    { x := by rw [hpl.x, size_toNat (by omega) (by omega)]; rfl
      stride := by unfold nat; omega
      xp := by rw [hxp, hphase, Int.toNat_natCast]; rfl
      tiles := by rw [hpad, Int.toNat_natCast]; exact Grid.l1Pad_mod _
      phases := by rw [hpad, hphase, Int.toNat_natCast, Int.toNat_natCast]; exact Grid.l1Pad_lt _
      rows := hrows
      c1 := by rw [hc1size, hpad, Int.toNat_natCast]; rfl
      pool := by unfold nat; omega
      pool1 := by
        have hle := (grid d n).l1_le
        rw [hpad, Int.toNat_natCast]
        exact (pooled_fits hP hp1'.le hp1).trans (by omega)
      p1 := by rw [hpl.p1]; exact size_channels hC hp1'.le hp1n
      conv1 := by unfold nat; omega
      c2 := by rw [hpl.c2]; exact size_channels hc1 hl2'.le (by omega)
      pool2 := pooled_fits hP hp2'.le hp2
      p2 := by rw [hpl.p2]; exact size_channels hc1 hp2'.le hp2n
      conv2 := by unfold nat; omega
      c3 := by rw [hpl.c3]; exact size_channels hc2 hl3'.le (by omega)
      pool3 := pooled_fits hP hf'.le hf
      p3 := by rw [hpl.p3]; exact size_channels hc2 hf'.le hfn
      width := by have := hd.width; unfold nat; omega
      gateTiles := by have := hd.hidden; unfold nat gates tile; omega
      seq := by
        rw [hpl.seq, hframes _ (by omega) hpl.hidden.1]
        congr 1
        unfold nat
        omega
      g := by
        rw [hpl.g, hframes _ (by unfold gates; omega) hpl.hidden.2]
        congr 1
        unfold nat gates
        omega
      e := by rw [hpl.G]; unfold nat gates; omega
      lstmRows := by have := hpl.nRows; unfold nat; omega
      lin0 := by
        rw [hlin, hframes _ (by omega) hw]
        exact Nat.mul_le_mul_left _ (Int.toNat_le_toNat hw0)
      lin1 := by
        rw [hlin, hframes _ (by omega) hw]
        exact Nat.mul_le_mul_left _ (Int.toNat_le_toNat hw1)
      classes := by unfold nat; omega }

end Sizes

variable {α : Type}

variable [LayerOps α]

def Net.network (m : Net α) : ℕ → (ℕ → α) → ℕ → ℕ → α :=
  Network.network m.dims m.eps m.alpha m.tensor

section Values
variable {m : Net α} {s : Lens} {p : Plan} {n : ℕ} {pcm : List α}

theorem filtered_extended {K S : ℕ} {sinc : List α} {x : ℕ → α} {c t : ℕ}
    (h : ∀ k < K, S * t + k < n) :
    filtered K S sinc (extended n x) c t = filtered K S sinc x c t := by
  have hterms : ∀ k < K, mul (at2 sinc K c k) (extended n x (S * t + k)) =
      mul (at2 sinc K c k) (x (S * t + k)) := fun k hk => by rw [extended, if_pos (h k hk)]
  rw [filtered, filtered, sumFrom_congr hterms]

/-- The padded columns and the zeros beyond the end of the waveform are not pooled. -/
theorem frontEnd_values (hr : Room m.dims s p n) (hs : s = lens m.dims n)
    (hin : ∀ t < s.p1.toNat * nat m.dims.pool, ∀ k < nat m.dims.sincK,
      nat m.dims.sincS * t + k < n) (hpcm : n ≤ pcm.length) :
    Yields (frontEnd m s p pcm n) fun r => r.1.length = p.nRows.toNat ∧
      ∀ c < nat m.dims.c2, Holds r.2 (c * s.f.toNat) s.f.toNat
        (conv2Channel m.dims m.eps m.alpha m.tensor n (entry pcm) c) := by
  have hx : (fresh p.x.toNat : Block α).length = n := (length_fresh _).trans hr.x
  refine Yields.bind (yields_memcpy (v := entry pcm) (by omega) fun j hj =>
    getElem_entry (hj.trans_le hpcm)) fun x₁ hx₁ => ?_
  have hlen₁ := hx₁.length
  refine Yields.bind (.of_eq (getElem_entry m.wavScale.2.ge)) fun scale hscale => ?_
  refine Yields.bind (.of_eq (getElem_entry m.wavBias.2.ge)) fun bias hbias => ?_
  subst hscale hbias
  refine Yields.bind (instanceNorm_values hx₁.holds (by omega)) fun x₂ hx₂ => ?_
  refine Yields.bind (yields_splitPhases hx₂.holds ((length_fresh _).trans hr.xp)) fun xp hxp => ?_
  refine Yields.bind (yields_sincConvAbs hr.stride hr.tiles hr.phases hxp.2 m.sinc.2
    (hr.rows.trans_eq (List.length_replicate).symm) ((length_fresh _).trans hr.c1)) fun r hrc => ?_
  refine Yields.bind (poolChannels_values (v := filtered (nat m.dims.sincK) (nat m.dims.sincS)
    m.sinc.1 (waveform m.eps m.tensor n (entry pcm))) (fun c hc => ?_) hr.pool m.n0Scale.2
    m.n0Bias.2 ((length_fresh _).trans hr.p1)) fun p1 hp1 => ?_
  · exact ((hrc.2.2 c hc).take hr.pool1).congr fun t ht => filtered_extended (hin t ht)
  refine Yields.bind (conv1d_values hp1.2 m.conv1W.2 m.conv1B.2
    ((length_fresh _).trans (hr.conv1 ▸ hr.c2))) fun c2 hc2 => ?_
  rw [← hr.conv1] at hc2
  refine Yields.bind (poolChannels_values (fun c hc => (hc2.2 c hc).take hr.pool2) hr.pool
    m.n1Scale.2 m.n1Bias.2 ((length_fresh _).trans hr.p2)) fun p2 hp2 => ?_
  refine Yields.bind (conv1d_values hp2.2 m.conv2W.2 m.conv2B.2
    ((length_fresh _).trans (hr.conv2 ▸ hr.c3))) fun c3 hc3 => ?_
  rw [← hr.conv2] at hc3
  refine Yields.bind (poolChannels_values (fun c hc => (hc3.2 c hc).take hr.pool3) hr.pool
    m.n2Scale.2 m.n2Bias.2 ((length_fresh _).trans hr.p3)) fun p3 hp3 => ?_
  subst hs
  exact Yields.pure ⟨hrc.1.trans List.length_replicate, hp3.2⟩

/-- `-1.0f` is below zero, so nothing is done to the last scores. -/
theorem head_values {cur out : Block α} {h : ℕ → ℕ → α} (hr : Room m.dims s p n)
    (hneg : ge (neg one : α) zero = false)
    (hcur : ∀ t < s.f.toNat, Holds cur (t * (2 * nat m.dims.hidden)) (2 * nat m.dims.hidden) (h t))
    (hout : out.length = s.f.toNat * nat m.dims.classes) :
    Yields (head m s.f.toNat p cur out) fun out' => out'.length = out.length ∧
      ∀ t < s.f.toNat, Holds out' (t * nat m.dims.classes) (nat m.dims.classes)
        (Network.logSoftmax (nat m.dims.classes) (scores m.dims m.alpha m.tensor (h t))) := by
  refine Yields.bind (linear_values hcur m.lin0W.2 m.lin0B.2
    (by rw [length_fresh]; exact hr.lin0)) fun lin0 hlin0 => ?_
  refine Yields.bind (linear_values hlin0.2 m.lin1W.2 m.lin1B.2
    (by rw [length_fresh]; exact hr.lin1)) fun lin1 hlin1 => ?_
  refine Yields.bind (linear_values hlin1.2 m.clsW.2 m.clsB.2 hout.ge) fun out₁ hout₁ => ?_
  simp only [hneg, Bool.false_eq_true, if_false] at hout₁
  refine (yields_map_rows hout₁.2 fun t ht b hb hrow => ?_).mono fun out₂ hout₂ =>
    ⟨hout₂.1.trans hout₁.1, hout₂.2⟩
  have hfits := row_fits (nat m.dims.classes) ht
  have hlen := hout₁.1
  exact logSoftmax_values hrow (by omega) hr.classes

theorem lstmWeights_eq (m : Net α) (l : ℕ) (dir : Bool) :
    (m.recurrent.lstm l dir).weights = lstmWeights m.dims m.tensor l dir := by
  cases dir <;> rfl

theorem frames_eq_recurrent (m : Net α) (F : ℕ) (xs : ℕ → ℕ → α) (l : ℕ) :
    m.recurrent.frames F xs l = recurrent m.dims m.tensor F xs l := by
  induction l with
  | zero => rfl
  | succ l ih =>
    rw [Recurrent.frames, recurrent, ih, lstmWeights_eq, lstmWeights_eq]
    rfl

theorem runAll_values {out : Block α} (hr : Room m.dims s p n) (hs : s = lens m.dims n)
    (hin : ∀ t < s.p1.toNat * nat m.dims.pool, ∀ k < nat m.dims.sincK,
      nat m.dims.sincS * t + k < n) (hpcm : n ≤ pcm.length)
    (hneg : ge (neg one : α) zero = false)
    (hout : out.length = s.f.toNat * nat m.dims.classes) (hlayers : 0 < nat m.dims.layers) :
    Yields (runAll m s p pcm n out) fun out' => out'.length = out.length ∧
      ∀ t < s.f.toNat, Holds out' (t * nat m.dims.classes) (nat m.dims.classes)
        (m.network n (entry pcm) t) := by
  refine Yields.bind (frontEnd_values hr hs hin hpcm) fun r hfront => ?_
  let xs : ℕ → ℕ → α := fun t c => conv2Channel m.dims m.eps m.alpha m.tensor n (entry pcm) c t
  have hconv : ∀ c < nat m.dims.c2, Holds r.2 (c * s.f.toNat) s.f.toNat fun t => xs t c := hfront.2
  refine Yields.bind (yields_runLayers (m := m.recurrent) hr.gateTiles hr.width
    (buffers_sized hr hfront.1) hconv) fun b hb => ?_
  have hwidth : m.recurrent.width m.recurrent.layers = 2 * nat m.dims.hidden :=
    if_neg hlayers.ne'
  rw [hwidth] at hb
  subst hs
  have hnetwork := head_values hr hneg hb.2 hout
  simp only [frames_eq_recurrent] at hnetwork
  exact hnetwork

end Values

/-- The frames and the scores `pyannet_run` gives are those of the network, for every model it can
run and all samples, as long as the allocations are granted and no `int` of the sizes overflows. -/
theorem pyannetRun_values {m : Net α} (hd : Runs m.dims) (hneg : ge (neg one : α) zero = false)
    {n : Int32} {pcm : List α} (hpcm : nat n ≤ pcm.length) {s : Lens}
    (hs : lengths m.dims n.toInt = some (some s)) {p : Plan}
    (hp : plan m.dims s n.toInt = some p) {out : Block α}
    (hout : out.length = s.f.toNat * nat m.dims.classes) :
    ∃ out', pyannetRun true true (some m) (some pcm) n (some out) = some (0, s.f, some out') ∧
      ∀ t < s.f.toNat, Holds out' (t * nat m.dims.classes) (nat m.dims.classes)
        (m.network (nat n) (entry pcm) t) := by
  have hpos := hd.positive
  simp only [Dims.list, List.forall_mem_cons] at hpos
  obtain ⟨hC, hK, hS, -, hk1, -, hk2, hP, hL, -⟩ := hpos
  have hlong := (lengths_front hs).1
  obtain ⟨hKn, hl1, -, -⟩ := grid_lens hK hS hP hs
  have hpositive : Positive m.dims := ⟨hK, hS, hk1, hk2, hP⟩
  obtain ⟨hlens, -⟩ := lens_of_lengths hpositive hs
  have hpooled := pooled_of_lengths hpositive hs
  have hp1 := hpooled.p1
  have hpos1 := hpooled.pos.1
  have hn : ((nat n : ℕ) : ℤ) = n.toInt := Int.toNat_of_nonneg (by omega)
  have hin : ∀ t < s.p1.toNat * nat m.dims.pool, ∀ k < nat m.dims.sincK,
      nat m.dims.sincS * t + k < nat n := by
    intro t ht k hk
    have hpool : (s.p1.toNat * nat m.dims.pool : ℕ) ≤ (grid m.dims n).l1 := by
      rw [nat, ← Int.toNat_mul hpos1.le (by omega)]
      omega
    exact Grid.sample_lt (g := grid m.dims n) (by unfold grid nat; dsimp only; omega) hKn
      (by omega) hk
  obtain ⟨out', hrun, -, hvalues⟩ := runAll_values (room_of_plan hd hs hp)
    (hlens.trans (by rw [hn])) hin hpcm hneg hout (by unfold nat; omega)
  refine ⟨out', ?_, hvalues⟩
  simp only [pyannetRun, hs, hp, hrun, Option.bind_eq_bind, Option.bind_some]
  rfl

end ReadersSpeech.Pyannet
