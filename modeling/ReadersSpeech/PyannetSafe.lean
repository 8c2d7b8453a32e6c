import ReadersSpeech.SincLayer

/-! No layer of pyannet.c leaves the region it is given, or reads a cell of it that was not written
before; so `pyannet_run` with the shipped network does not, for any number of samples.
-/

set_option autoImplicit false

namespace ReadersSpeech.Pyannet
open Cells FloatOps LayerOps PyannetFile

variable {α : Type} [LayerOps α]

section Layers

variable {x : Block α} {off n : ℕ}

omit [LayerOps α] in
theorem yields_get {xs : List α} {i : ℕ} (h : i < xs.length) : Yields xs[i]? fun _ => True :=
  ⟨xs[i], List.getElem?_eq_getElem h, trivial⟩

theorem yields_instanceNorm {scale bias eps : α} (h : Written x off n) (hlen : off + n ≤ x.length) :
    Yields (instanceNorm x off n scale bias eps) (Grows x) := by
  refine Yields.bind (yields_reads fun i hi t => ?_) fun sum _ => ?_
  · obtain ⟨v, hv⟩ := h i hi
    rw [hv]
    exact Yields.pure trivial
  refine Yields.bind (yields_reads fun i hi t => ?_) fun sq _ => ?_
  · obtain ⟨v, hv⟩ := h i hi
    rw [hv]
    exact Yields.pure trivial
  exact yields_update (fun v => add (mul v _) _) h hlen

theorem yields_leakyRelu {alpha : α} (h : Written x off n) (hlen : off + n ≤ x.length) :
    Yields (leakyRelu x off n alpha) (Grows x) :=
  yields_update (fun v => if gt v zero then v else mul v alpha) h hlen

theorem yields_logSoftmax (h : Written x off n) (hlen : off + n ≤ x.length) (hn : 0 < n) :
    Yields (logSoftmax x off n) (Grows x) := by
  obtain ⟨v, hv⟩ := h.holds zero
  refine Yields.bind (yields_greatest hv hn) fun mx _ => ?_
  refine Yields.bind (yields_reads fun i hi t => ?_) fun sum _ => ?_
  · rw [hv i hi]
    exact Yields.pure trivial
  exact yields_update (fun v => sub v _) h hlen

/-- Each channel is pooled from the part of it that was written. -/
theorem yields_poolChannels {C width pooled pool : ℕ} {inp out : Block α} {scale bias : List α}
    {eps alpha : α} (hinp : Written inp 0 (C * width)) (hpool : 0 < pool)
    (hfit : pooled * pool ≤ width) (hscale : scale.length = C) (hbias : bias.length = C)
    (hout : out.length = C * pooled) :
    Yields (poolChannels C inp width pooled pool scale bias eps alpha out) fun out' =>
      Grows out out' ∧ Written out' 0 (C * pooled) := by
  refine yields_written 0 pooled fun ch hch b hb => ?_
  have hrow : ch * pooled + pooled ≤ b.length := by
    rw [hb.length, hout]
    exact row_fits pooled hch
  have hchannel := hinp.part (row_fits width hch)
  rw [Nat.zero_add] at hchannel ⊢
  obtain ⟨v, hv⟩ := hchannel.holds zero
  refine Yields.bind (yields_maxPool hv hpool hfit hrow) fun b₁ hb₁ => ?_
  have hlen₁ := hb₁.length
  refine Yields.bind (yields_get (hch.trans_eq hscale.symm)) fun sc _ => ?_
  refine Yields.bind (yields_get (hch.trans_eq hbias.symm)) fun bi _ => ?_
  refine Yields.bind (yields_instanceNorm hb₁.holds.written (by omega)) fun b₂ hb₂ => ?_
  have hlen₂ := hb₂.length
  have hwritten := hb₁.holds.written.grows hb₂
  refine (yields_leakyRelu hwritten (by omega)).mono fun b₃ hb₃ => ?_
  exact ⟨hb₁.grows.trans (hb₂.trans hb₃), hwritten.grows hb₃⟩

/-- The windows of a convolution end with the channel. -/
theorem yields_conv1d {cin lenIn cout K : ℕ} {inp out : Block α} {w bias : List α}
    (hinp : Written inp 0 (cin * lenIn)) (hw : w.length = cout * cin * K)
    (hbias : bias.length = cout) (hout : out.length = cout * (lenIn + 1 - K)) :
    Yields (conv1d inp cin lenIn w bias cout K out) fun out' =>
      Grows out out' ∧ Written out' 0 (cout * (lenIn + 1 - K)) := by
  refine yields_written 0 (lenIn + 1 - K) fun co hco b hb => ?_
  have hrow : co * (lenIn + 1 - K) + (lenIn + 1 - K) ≤ b.length := by
    rw [hb.length, hout]
    exact row_fits _ hco
  rw [Nat.zero_add]
  refine Yields.bind (yields_get (hco.trans_eq hbias.symm)) fun b₀ _ => ?_
  have hfill : Yields (loop (lenIn + 1 - K) (fun t out => wr out (co * (lenIn + 1 - K) + t) b₀) b)
      fun c => Grows b c ∧ Written c (co * (lenIn + 1 - K)) (lenIn + 1 - K) :=
    yields_written_cells _ fun t ht c hc => by
      have hlen := hc.length
      exact (yields_wr b₀ (by omega)).mono fun d hd => ⟨b₀, hd⟩
  refine hfill.bind fun b₁ hb₁ => ?_
  refine (yields_grows fun ci hci c hc => yields_grows fun k hk d hd => ?_).mono fun b₂ hb₂ =>
    ⟨hb₁.1.trans hb₂, hb₁.2.grows hb₂⟩
  have hin := row_fits cin hco
  have hci' := row_fits K (show co * cin + ci < cout * cin by omega)
  refine Yields.bind (yields_get (show (co * cin + ci) * K + k < w.length by omega)) fun v _ => ?_
  refine yields_grows fun t ht e he => ?_
  obtain ⟨acc, hacc⟩ := ((hb₁.2.grows hc).grows (hd.trans he)) t ht
  have hsample := row_fits lenIn hci
  obtain ⟨s, hs⟩ := hinp.cell (show ci * lenIn + k + t < cin * lenIn by omega)
  have hlen := (hb₁.1.trans (hc.trans (hd.trans he))).length
  rw [hacc, hs]
  exact (yields_wr _ (by omega)).mono fun f hf => hf.grows

theorem yields_linear {F inp out : ℕ} {y : Block α} {w b : List α} {alpha : α}
    (hx : Written x 0 (F * inp)) (hw : w.length = inp * out) (hb : b.length = out)
    (hy : F * out ≤ y.length) :
    Yields (linear x F inp w b out alpha y) fun y' => Grows y y' ∧ Written y' 0 (F * out) := by
  refine yields_written 0 out fun t ht y₁ hy₁ => ?_
  have hrow := row_fits out ht
  have hlen := hy₁.length
  rw [Nat.zero_add]
  have hsrc : ∀ j < out, b[j]? = some (b.getD j zero) := fun j hj => by
    rw [List.getD_eq_getElem?_getD, List.getElem?_eq_getElem (by omega), Option.getD_some]
  refine Yields.bind (yields_memcpy (by omega) hsrc) fun y₂ hy₂ => ?_
  have hlen₂ := hy₂.length
  refine Yields.bind (p := loop inp _ y₂) (Q := Grows y₂) ?_ fun y₃ hy₃ => ?_
  · refine yields_grows fun k hk c hc => ?_
    have hin := row_fits inp ht
    obtain ⟨a, ha⟩ := hx.cell (show t * inp + k < F * inp by omega)
    rw [ha]
    refine yields_grows fun j hj d hd => ?_
    obtain ⟨acc, hacc⟩ := (hy₂.holds.written.grows (hc.trans hd)) j hj
    have hk' := row_fits out hk
    have hlen' := (hc.trans hd).length
    refine Yields.bind (Yields.of_eq hacc) fun acc _ => ?_
    refine Yields.bind (yields_get (show k * out + j < w.length by omega)) fun wk _ => ?_
    exact (yields_wr _ (by omega)).mono fun e he => he.grows
  have hgrows := hy₂.grows.trans hy₃
  have hwritten := hy₂.holds.written.grows hy₃
  have hlen₃ := hy₃.length
  split
  · exact (yields_leakyRelu hwritten (by omega)).mono fun y₄ hy₄ =>
      ⟨hgrows.trans hy₄, hwritten.grows hy₄⟩
  · exact Yields.pure ⟨hgrows, hwritten⟩

end Layers

/-- The regions have the sizes their layers need, from the first to the last. -/
structure Room (d : Dims) (s : Lens) (p : Plan) (n : ℕ) : Prop where
  x : p.x.toNat = n
  stride : 0 < nat d.sincS
  xp : p.xp.toNat = nat d.sincS * p.phaseLen.toNat
  tiles : p.l1Pad.toNat % tile = 0
  phases : p.l1Pad.toNat + nat d.sincK / nat d.sincS < p.phaseLen.toNat
  rows : nat d.sincK ≤ p.nRows.toNat
  c1 : p.c1.toNat = nat d.sincC * p.l1Pad.toNat
  pool : 0 < nat d.pool
  pool1 : s.p1.toNat * nat d.pool ≤ p.l1Pad.toNat
  p1 : p.p1.toNat = nat d.sincC * s.p1.toNat
  conv1 : s.l2.toNat = s.p1.toNat + 1 - nat d.k1
  c2 : p.c2.toNat = nat d.c1 * s.l2.toNat
  pool2 : s.p2.toNat * nat d.pool ≤ s.l2.toNat
  p2 : p.p2.toNat = nat d.c1 * s.p2.toNat
  conv2 : s.l3.toNat = s.p2.toNat + 1 - nat d.k2
  c3 : p.c3.toNat = nat d.c2 * s.l3.toNat
  pool3 : s.f.toNat * nat d.pool ≤ s.l3.toNat
  p3 : p.p3.toNat = nat d.c2 * s.f.toNat
  width : nat d.c2 ≤ 2 * nat d.hidden
  gateTiles : (gates * nat d.hidden) % tile = 0
  seq : p.seq.toNat = s.f.toNat * (2 * nat d.hidden)
  g : p.g.toNat = s.f.toNat * (gates * nat d.hidden)
  e : p.G.toNat = gates * nat d.hidden
  lstmRows : 2 * nat d.hidden ≤ p.nRows.toNat
  lin0 : s.f.toNat * nat d.d0 ≤ p.lin.toNat
  lin1 : s.f.toNat * nat d.d1 ≤ p.lin.toNat
  classes : 0 < nat d.classes

section Run
variable {m : Net α} {s : Lens} {p : Plan} {n : ℕ} {pcm : List α}

omit [LayerOps α] in
theorem length_fresh (n : ℕ) : (fresh n : Block α).length = n := List.length_replicate

theorem yields_frontEnd (hr : Room m.dims s p n) (hpcm : n ≤ pcm.length) :
    Yields (frontEnd m s p pcm n) fun r => r.1.length = p.nRows.toNat ∧
      Written r.2 0 (nat m.dims.c2 * s.f.toNat) := by
  have hx : (fresh p.x.toNat : Block α).length = n := (length_fresh _).trans hr.x
  have hsrc : ∀ j < n, pcm[j]? = some (pcm.getD j zero) := fun j hj => by
    rw [List.getD_eq_getElem?_getD, List.getElem?_eq_getElem (by omega), Option.getD_some]
  refine Yields.bind (yields_memcpy (by omega) hsrc) fun x₁ hx₁ => ?_
  have hlen₁ := hx₁.length
  refine Yields.bind (yields_get (m.wavScale.2.ge)) fun scale _ => ?_
  refine Yields.bind (yields_get (m.wavBias.2.ge)) fun bias _ => ?_
  refine Yields.bind (yields_instanceNorm hx₁.holds.written (by omega)) fun x₂ hx₂ => ?_
  obtain ⟨xs, hxs⟩ := (hx₁.holds.written.grows hx₂).holds zero
  refine Yields.bind (yields_splitPhases hxs ((length_fresh _).trans hr.xp)) fun xp hxp => ?_
  refine Yields.bind (yields_sincConvAbs hr.stride hr.tiles hr.phases hxp.2 m.sinc.2
    (hr.rows.trans_eq (List.length_replicate).symm) ((length_fresh _).trans hr.c1)) fun r hrc => ?_
  have hc1 : Written r.2 0 (nat m.dims.sincC * p.l1Pad.toNat) :=
    (holds_flat hrc.2.2).written
  refine Yields.bind (yields_poolChannels hc1 hr.pool hr.pool1 m.n0Scale.2 m.n0Bias.2
    ((length_fresh _).trans hr.p1)) fun p1 hp1 => ?_
  refine Yields.bind (yields_conv1d hp1.2 m.conv1W.2 m.conv1B.2
    ((length_fresh _).trans (hr.conv1 ▸ hr.c2))) fun c2 hc2 => ?_
  rw [← hr.conv1] at hc2
  refine Yields.bind (yields_poolChannels hc2.2 hr.pool hr.pool2 m.n1Scale.2 m.n1Bias.2
    ((length_fresh _).trans hr.p2)) fun p2 hp2 => ?_
  refine Yields.bind (yields_conv1d hp2.2 m.conv2W.2 m.conv2B.2
    ((length_fresh _).trans (hr.conv2 ▸ hr.c3))) fun c3 hc3 => ?_
  rw [← hr.conv2] at hc3
  refine Yields.bind (yields_poolChannels hc3.2 hr.pool hr.pool3 m.n2Scale.2 m.n2Bias.2
    ((length_fresh _).trans hr.p3)) fun p3 hp3 => ?_
  exact Yields.pure ⟨hrc.1.trans List.length_replicate, hp3.2⟩

omit [LayerOps α] in
theorem buffers_sized {rows : Block (Ptr α)} (hr : Room m.dims s p n)
    (hrows : rows.length = p.nRows.toNat) :
    (buffers m p rows).Sized m.recurrent s.f.toNat where
  cur := (length_fresh _).trans hr.seq
  nxt := (length_fresh _).trans hr.seq
  scratch :=
    { g := (length_fresh _).trans hr.g
      h := length_fresh _
      c := length_fresh _
      e := (length_fresh _).trans hr.e
      rows := hr.lstmRows.trans_eq hrows.symm }

theorem yields_head {cur out : Block α} (hr : Room m.dims s p n)
    (hcur : Written cur 0 (s.f.toNat * (2 * nat m.dims.hidden)))
    (hout : out.length = s.f.toNat * nat m.dims.classes) :
    Yields (head m s.f.toNat p cur out) fun out' => out'.length = out.length ∧
      Written out' 0 (s.f.toNat * nat m.dims.classes) := by
  refine Yields.bind (yields_linear hcur m.lin0W.2 m.lin0B.2 (by rw [length_fresh]; exact hr.lin0))
    fun lin0 hlin0 => ?_
  refine Yields.bind (yields_linear hlin0.2 m.lin1W.2 m.lin1B.2
    (by rw [length_fresh]; exact hr.lin1)) fun lin1 hlin1 => ?_
  refine Yields.bind (yields_linear hlin1.2 m.clsW.2 m.clsB.2 hout.ge) fun out₁ hout₁ => ?_
  refine (yields_grows fun t ht b hb => ?_).mono fun out₂ hout₂ =>
    ⟨hout₂.length.trans hout₁.1.length, hout₁.2.grows hout₂⟩
  have hrow := row_fits (nat m.dims.classes) ht
  have hframe := (hout₁.2.grows hb).part hrow
  rw [Nat.zero_add] at hframe
  have hlen := (hout₁.1.trans hb).length
  exact yields_logSoftmax hframe (by omega) hr.classes

/-- With room for every layer the run goes through, and leaves nothing of `out` unwritten. -/
theorem yields_runAll {out : Block α} (hr : Room m.dims s p n) (hpcm : n ≤ pcm.length)
    (hout : out.length = s.f.toNat * nat m.dims.classes) (hlayers : 0 < nat m.dims.layers) :
    Yields (runAll m s p pcm n out) fun out' => out'.length = out.length ∧
      Written out' 0 (s.f.toNat * nat m.dims.classes) := by
  refine Yields.bind (yields_frontEnd hr hpcm) fun r hfront => ?_
  have hchannels : ∃ xs : ℕ → ℕ → α, ∀ ch < nat m.dims.c2, ∀ t < s.f.toNat,
      rd r.2 (ch * s.f.toNat + t) = some (xs t ch) := by
    obtain ⟨v, hv⟩ := hfront.2.holds zero
    refine ⟨fun t ch => v (ch * s.f.toNat + t), fun ch hch t ht => ?_⟩
    have hfits := row_fits s.f.toNat hch
    exact hv.get (by omega)
  obtain ⟨xs, hxs⟩ := hchannels
  refine Yields.bind (yields_runLayers (m := m.recurrent) hr.gateTiles hr.width
    (buffers_sized hr hfront.1) hxs) fun b hb => ?_
  have hwidth : m.recurrent.width m.recurrent.layers = 2 * nat m.dims.hidden :=
    if_neg hlayers.ne'
  rw [hwidth] at hb
  exact yields_head hr (holds_flat hb.2).written hout

end Run

section Shipped
variable {s : Lens} {n : ℤ}

theorem padded_eq {l : ℤ} (h : 0 ≤ l) (h' : l + 16 < 2 ^ 31) :
    padded l = some ((l + 15) / 16 * 16) := by
  have hq : quotient (l + 16 - 1) 16 = some ((l + 15) / 16) := by
    rw [quotient, if_neg (by decide), Int.tdiv_eq_ediv_of_nonneg (by omega),
      int_eq (by omega) (by omega)]
    congr 2
    omega
  have htile : ((tile : ℕ) : ℤ) = 16 := rfl
  simp only [padded, htile, int_eq (show -2 ^ 31 ≤ l + 16 by omega) h',
    int_eq (show -2 ^ 31 ≤ l + 16 - 1 by omega) (by omega), hq, Option.bind_eq_bind,
    Option.bind_some]
  exact int_eq (by omega) (by omega)

/-- The sizes for the shipped network. -/
def shippedPlan (s : Lens) (n : ℤ) : Plan :=
  let q := (s.l1 + 15) / 16 * 16
  { G := 512, l1Pad := q, phaseLen := q + 26, nRows := 256
    x := size n, xp := size (10 * (q + 26)), c1 := size (80 * q), p1 := size (80 * s.p1)
    c2 := size (60 * s.l2), p2 := size (60 * s.p2), c3 := size (60 * s.l3)
    p3 := size (60 * s.f), seq := size (s.f * 256), g := size (s.f * 512)
    lin := size (s.f * 128)
    total := size (n + 10 * (q + 26) + 80 * q + 80 * s.p1 + 60 * s.l2 + 60 * s.p2 + 60 * s.l3 +
      60 * s.f + 2 * (s.f * 256) + s.f * 512 + 2 * (s.f * 128) + 256 + 512) }

theorem plan_shipped (h : 0 ≤ s.l1) (h' : s.l1 < 2 ^ 30) :
    plan shipped s n = some (shippedPlan s n) := by
  obtain ⟨q, hq⟩ : ∃ q, q = (s.l1 + 15) / 16 * 16 := ⟨_, rfl⟩
  have hpad : padded s.l1 = some q := by rw [hq, padded_eq h (by omega)]
  have hphase : int (q + 25) = some (q + 25) := int_eq (by omega) (by omega)
  have hphase' : int (q + 25 + 1) = some (q + 26) := by
    rw [int_eq (by omega) (by omega), add_assoc]
    rfl
  have hG : int (gates * shipped.hidden.toInt) = some 512 := by decide
  have hdiv : quotient shipped.sincK.toInt shipped.sincS.toInt = some 25 := by decide
  have htwo : int (2 * shipped.hidden.toInt) = some 256 := by decide
  have hseq : size s.f * 2 * size shipped.hidden.toInt = size (s.f * 256) := by
    rw [← size_two, ← size_mul, ← size_mul, mul_assoc]
    rfl
  have htotal : ∀ a b c d e f g h i j k : ℤ, size a + size b + size c + size d + size e + size f +
      size g + size h + 2 * size i + size j + 2 * size k + size 256 + size 512 =
        size (a + b + c + d + e + f + g + h + 2 * i + j + 2 * k + 256 + 512) := by
    intros
    simp only [size_add, size_mul, size_two]
  simp only [plan, hG, hpad, hdiv, hphase, hphase', htwo, hseq, Option.bind_eq_bind,
    Option.bind_some, ← size_mul, htotal]
  rw [shippedPlan, ← hq]
  rfl

/-- Each stage of the shipped network, from the one before. -/
structure Stages (s : Lens) (n : ℤ) : Prop where
  l1 : s.l1 = (n - 251) / 10 + 1
  p1 : s.p1 = s.l1 / 3
  l2 : s.l2 = s.p1 - 4
  p2 : s.p2 = s.l2 / 3
  l3 : s.l3 = s.p2 - 4
  f : s.f = s.l3 / 3

theorem lengths_shipped (h : 991 ≤ n) (h' : n < 2 ^ 31) :
    ∃ s, lengths shipped n = some (some s) ∧ Stages s n := by
  have hexit : shipped.pool.toInt ≤ (lens shipped n).l3 :=
    (exits_iff positive_shipped n).mpr (by rw [reach_shipped]; exact h)
  refine ⟨lens shipped n, by rw [lengths_eq positive_shipped h', if_pos hexit], ?_⟩
  have hl2 : ∀ x : ℤ, x - 5 + 1 = x - 4 := by omega
  exact ⟨rfl, rfl, hl2 _, rfl, hl2 _, rfl⟩

theorem nat_shipped : nat shipped.sincC = 80 ∧ nat shipped.sincK = 251 ∧ nat shipped.sincS = 10 ∧
    nat shipped.c1 = 60 ∧ nat shipped.k1 = 5 ∧ nat shipped.c2 = 60 ∧ nat shipped.k2 = 5 ∧
    nat shipped.pool = 3 ∧ nat shipped.layers = 4 ∧ nat shipped.hidden = 128 ∧
    nat shipped.d0 = 128 ∧ nat shipped.d1 = 128 ∧ nat shipped.classes = 7 := by decide

theorem room_shipped {n : Int32} (h : 991 ≤ n.toInt) (h' : n.toInt ≤ 2 ^ 30)
    (hs : Stages s n.toInt) : Room shipped s (shippedPlan s n.toInt) (nat n) := by
  obtain ⟨hl1, hp1, hl2, hp2, hl3, hf⟩ := hs
  obtain ⟨hC, hK, hS, hc1, hk1, hc2, hk2, hpool, -, hH, hd0, hd1, hclasses⟩ := nat_shipped
  have hn : nat n = n.toInt.toNat := rfl
  constructor <;>
    simp only [hC, hK, hS, hc1, hk1, hc2, hk2, hpool, hH, hd0, hd1, hclasses, gates, tile,
      shippedPlan]
  -- the sizes first lose their 64 bits, which they do not fill
  all_goals first
    | omega
    | rw [size_toNat (by omega) (by omega)]; omega

/-- The regions one after the other, as the pointers are set. -/
def Plan.regions (p : Plan) (H : ℕ) : ℕ :=
  p.x.toNat + p.xp.toNat + p.c1.toNat + p.p1.toNat + p.c2.toNat + p.p2.toNat + p.c3.toNat +
    p.p3.toNat + p.seq.toNat + p.seq.toNat + p.g.toNat + p.lin.toNat + p.lin.toNat + H + H + p.G.toNat

theorem regions_shipped (h : 991 ≤ n) (h' : n ≤ 2 ^ 30) (hs : Stages s n) :
    (shippedPlan s n).total.toNat = (shippedPlan s n).regions 128 := by
  obtain ⟨hl1, hp1, hl2, hp2, hl3, hf⟩ := hs
  simp (disch := omega) only [Plan.regions, shippedPlan, size_toNat]
  omega

end Shipped

/-- With the shipped network and any number of samples from 991 to 2^30, no `int` of the size
computation overflows, the regions fill the block that is asked for, and the run goes through:
each access is inside its own region, each cell read was written before. -/
theorem pyannetRun_safe (m : Net α) (hm : m.dims = shipped) (n : Int32) (h : 991 ≤ n.toInt)
    (h' : n.toInt ≤ 2 ^ 30) (pcm : List α) (hpcm : nat n ≤ pcm.length) (F : ℤ)
    (hF : pyannetFrames (some shipped) n = some F) (out : Block α)
    (hout : out.length = F.toNat * 7) (mem rowTable : Bool) :
    ∃ s p out', lengths shipped n.toInt = some (some s) ∧ plan shipped s n.toInt = some p ∧
      p.total.toNat = p.regions 128 ∧
      pyannetRun mem rowTable (some m) (some pcm) n (some out) =
        some (if mem && rowTable then (0, F, some out') else (-1, 0, some out)) ∧
      out'.length = out.length ∧ Written out' 0 (F.toNat * 7) := by
  obtain ⟨s, hs, hstages⟩ := lengths_shipped h n.toInt_lt
  have hl1 := hstages.l1
  have hp : plan shipped s n.toInt = some (shippedPlan s n.toInt) :=
    plan_shipped (by omega) (by omega)
  have hroom : Room m.dims s (shippedPlan s n.toInt) (nat n) := hm ▸ room_shipped h h' hstages
  obtain rfl : s.f = F := by
    rw [pyannetFrames, hs] at hF
    exact Option.some.inj hF
  obtain ⟨-, -, -, -, -, -, -, -, hL, -, -, -, hC⟩ := nat_shipped
  have hclasses : nat m.dims.classes = 7 := by rw [hm, hC]
  have hlayers : 0 < nat m.dims.layers := by rw [hm, hL]; decide
  obtain ⟨out', hrun, hlen, hwritten⟩ :=
    yields_runAll hroom hpcm (by rw [hclasses]; exact hout) hlayers
  rw [hclasses] at hwritten
  refine ⟨s, _, out', hs, hp, regions_shipped h h' hstages, ?_, hlen, hwritten⟩
  simp only [pyannetRun, hm, hs, hp, hrun, Option.bind_eq_bind, Option.bind_some]
  cases mem && rowTable <;> rfl

def ofOnes (n : ℕ) : Floats ℤ n := ⟨List.replicate n 1, List.length_replicate⟩

/-- The shipped network, with integers for weights. -/
def plain : Net ℤ where
  dims := shipped
  eps := 1
  alpha := 1
  wavScale := ofOnes _
  wavBias := ofOnes _
  sinc := ofOnes _
  n0Scale := ofOnes _
  n0Bias := ofOnes _
  conv1W := ofOnes _
  conv1B := ofOnes _
  n1Scale := ofOnes _
  n1Bias := ofOnes _
  conv2W := ofOnes _
  conv2B := ofOnes _
  n2Scale := ofOnes _
  n2Bias := ofOnes _
  lstm := fun _ _ => ⟨List.replicate _ 1, List.replicate _ 1, List.replicate _ 1,
    List.length_replicate, List.length_replicate, List.length_replicate⟩
  lin0W := ofOnes _
  lin0B := ofOnes _
  lin1W := ofOnes _
  lin1B := ofOnes _
  clsW := ofOnes _
  clsB := ofOnes _

/-- As few samples as make a frame. -/
theorem pyannetRun_safe_plain :
    ∃ out', pyannetRun true true (some plain) (some (List.replicate 991 0)) 991
        (some (fresh 7)) = some (0, 1, some out') ∧ Written out' 0 7 := by
  obtain ⟨s, p, out', -, -, -, hrun, -, hout⟩ := pyannetRun_safe plain rfl 991 (by decide)
    (by decide) (List.replicate 991 0) (by rw [List.length_replicate]; decide) 1
    ((frames_shipped (by decide)).trans (by decide)) (fresh 7) (by decide) true true
  exact ⟨out', hrun, hout⟩

end ReadersSpeech.Pyannet
