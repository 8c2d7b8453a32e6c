import ReadersSpeech.Network

/-! Each layer of pyannet.c leaves in its region what the layer of the network gives.
-/

set_option autoImplicit false

namespace ReadersSpeech.Pyannet
open Cells FloatOps LayerOps Network

variable {α : Type} [LayerOps α]

section Channel
variable {x : Block α} {off n : ℕ} {v : ℕ → α}

theorem getElem_entry {xs : List α} {i : ℕ} (h : i < xs.length) : xs[i]? = some (entry xs i) := by
  rw [entry, List.getElem?_eq_getElem h, Option.getD_some]

/-- A loop that adds up what it reads. -/
theorem yields_sumDouble {f : ℕ → Double α} {body : ℕ → Double α → Option (Double α)}
    (hbody : ∀ i < n, ∀ s, body i s = some (addD s (f i))) :
    Yields (loop n body (ofInt 0)) (· = sumDouble f n) :=
  yields_loop (fun i s => s = sumDouble f i) rfl fun i hi s hs => by
    rw [hbody i hi, hs]
    exact Yields.pure rfl

theorem instanceNorm_values {scale bias eps : α} (hx : Holds x off n v)
    (hlen : off + n ≤ x.length) :
    Yields (instanceNorm x off n scale bias eps) fun x' =>
      Fills x x' off n (normalised n scale bias eps v) := by
  refine Yields.bind (yields_sumDouble (f := fun i => double (v i)) fun i hi s => ?_)
    fun sum hsum => ?_
  · rw [hx i hi]
    rfl
  subst hsum
  refine Yields.bind (yields_sumDouble (f := fun i => mulD (subD (double (v i)) (mean n v))
    (subD (double (v i)) (mean n v))) fun i hi s => ?_) fun sq hsq => ?_
  · rw [hx i hi]
    rfl
  subst hsq
  exact yields_map (fun y => add (mul y (gain n scale eps v))
    (sub bias (mul (float (mean n v)) (gain n scale eps v)))) hx hlen

theorem leakyRelu_values {alpha : α} (hx : Holds x off n v) (hlen : off + n ≤ x.length) :
    Yields (leakyRelu x off n alpha) fun x' => Fills x x' off n fun i => leaky alpha (v i) :=
  yields_map (leaky alpha) hx hlen

theorem logSoftmax_values (hx : Holds x off n v) (hlen : off + n ≤ x.length) (hn : 0 < n) :
    Yields (Pyannet.logSoftmax x off n) fun x' =>
      Fills x x' off n (Network.logSoftmax n v) := by
  refine Yields.bind (yields_greatest hx hn) fun mx hmx => ?_
  subst hmx
  have hsum : Yields (loop n (fun i sum => do
      return add sum (expf (sub (← rd x (off + i)) (maxOf v (n - 1))))) zero)
      (· = sumFrom zero (fun i => expf (sub (v i) (maxOf v (n - 1)))) n) :=
    yields_loop (fun i s => s = sumFrom zero _ i) rfl fun i hi s hs => by
      rw [hx i hi, hs]
      exact Yields.pure rfl
  refine hsum.bind fun sum hsum => ?_
  subst hsum
  exact yields_map (fun y => sub y (add (maxOf v (n - 1))
    (logf (sumFrom zero (fun i => expf (sub (v i) (maxOf v (n - 1)))) n)))) hx hlen

end Channel

section Channels

/-- Of each channel no more is read than is pooled. -/
theorem poolChannels_values {C width pooled pool : ℕ} {inp out : Block α} {scale bias : List α}
    {eps alpha : α} {v : ℕ → ℕ → α}
    (hinp : ∀ c < C, Holds inp (c * width) (pooled * pool) (v c)) (hpool : 0 < pool)
    (hscale : scale.length = C) (hbias : bias.length = C) (hout : out.length = C * pooled) :
    Yields (poolChannels C inp width pooled pool scale bias eps alpha out) fun out' =>
      out'.length = out.length ∧ ∀ c < C, Holds out' (c * pooled) pooled
        (pooledChannel pool pooled (entry scale c) (entry bias c) eps alpha (v c)) := by
  refine yields_fill_rows fun c hc b hb => ?_
  have hrow := row_fits pooled hc
  refine Yields.bind (yields_maxPool (hinp c hc) hpool le_rfl (by omega)) fun b₁ hb₁ => ?_
  refine Yields.bind (.of_eq (getElem_entry (hc.trans_eq hscale.symm))) fun sc hsc => ?_
  refine Yields.bind (.of_eq (getElem_entry (hc.trans_eq hbias.symm))) fun bi hbi => ?_
  subst hsc hbi
  have hlen₁ := hb₁.length
  refine Yields.bind (instanceNorm_values hb₁.holds (by omega)) fun b₂ hb₂ => ?_
  have hlen₂ := hb₂.length
  exact (leakyRelu_values hb₂.holds (by omega)).mono fun b₃ hb₃ => (hb₁.over hb₂).over hb₃

/-- One product after another is added to all places of an output channel. -/
theorem conv1d_values {cin lenIn cout K : ℕ} {inp out : Block α} {w bias : List α}
    {x : ℕ → ℕ → α} (hinp : ∀ c < cin, Holds inp (c * lenIn) lenIn (x c))
    (hw : w.length = cout * cin * K) (hbias : bias.length = cout)
    (hout : out.length = cout * (lenIn + 1 - K)) :
    Yields (conv1d inp cin lenIn w bias cout K out) fun out' =>
      out'.length = out.length ∧ ∀ co < cout, Holds out' (co * (lenIn + 1 - K)) (lenIn + 1 - K)
        (convolution cin K w bias x co) := by
  refine yields_fill_rows fun co hco b hb => ?_
  have hrow := row_fits (lenIn + 1 - K) hco
  refine Yields.bind (.of_eq (getElem_entry (hco.trans_eq hbias.symm))) fun b₀ hb₀ => ?_
  subst hb₀
  have hfill : Yields (loop (lenIn + 1 - K)
      (fun t out => wr out (co * (lenIn + 1 - K) + t) (entry bias co)) b)
      fun c => Fills b c (co * (lenIn + 1 - K)) (lenIn + 1 - K) fun _ => entry bias co :=
    yields_fill _ _ fun t ht c hc => by
      have hlen := hc.length
      exact yields_wr _ (by omega)
  refine Yields.bind hfill fun b₁ hb₁ => ?_
  refine yields_loop (fun ci c => Fills b c (co * (lenIn + 1 - K)) (lenIn + 1 - K) fun t =>
    sumChannels (entry bias co) K (fun ci k => mul (at2 w K (co * cin + ci) k) (x ci (t + k))) ci)
    hb₁ fun ci hci c hc => ?_
  refine yields_loop (fun k c => Fills b c (co * (lenIn + 1 - K)) (lenIn + 1 - K) fun t =>
    sumFrom (sumChannels (entry bias co) K
      (fun ci k => mul (at2 w K (co * cin + ci) k) (x ci (t + k))) ci)
      (fun k => mul (at2 w K (co * cin + ci) k) (x ci (t + k))) k) hc fun k hk c hc => ?_
  have hin := row_fits cin hco
  refine Yields.bind (.of_eq (getElem_at2 hw (show co * cin + ci < cout * cin by omega) hk))
    fun wk hwk => ?_
  subst hwk
  refine (yields_fill _ _ fun t ht e he => ?_).mono fun e he => hc.over he
  have hlen := he.length
  have hlen' := hc.length
  rw [he.kept (by omega), hc.holds t ht, Nat.add_assoc, hinp ci hci (k + t) (by omega),
    Nat.add_comm k t]
  exact yields_wr _ (by omega)

theorem linear_values {F inp out : ℕ} {x y : Block α} {w b : List α} {alpha : α}
    {v : ℕ → ℕ → α} (hx : ∀ t < F, Holds x (t * inp) inp (v t)) (hw : w.length = inp * out)
    (hb : b.length = out) (hy : F * out ≤ y.length) :
    Yields (linear x F inp w b out alpha y) fun y' => y'.length = y.length ∧
      ∀ t < F, Holds y' (t * out) out fun j =>
        if ge alpha zero then leaky alpha (dense inp out w b (v t) j)
        else dense inp out w b (v t) j := by
  refine yields_fill_rows fun t ht y₁ hy₁ => ?_
  have hrow := row_fits out ht
  refine Yields.bind (yields_memcpy (v := entry b) (by omega) fun j hj =>
    getElem_entry (hj.trans_eq hb.symm)) fun y₂ hy₂ => ?_
  refine Yields.bind (p := loop inp _ y₂) (Q := fun y₃ => Fills y₁ y₃ (t * out) out
    (dense inp out w b (v t))) ?_ fun y₃ hy₃ => ?_
  · refine yields_loop (fun k c => Fills y₁ c (t * out) out fun j =>
      sumFrom (entry b j) (fun k => mul (v t k) (at2 w out k j)) k) hy₂ fun k hk c hc => ?_
    rw [hx t ht k hk]
    refine (yields_fill _ _ fun j hj e he => ?_).mono fun e he => hc.over he
    have hlen := he.length
    have hlen' := hc.length
    rw [he.kept (by omega), hc.holds j hj, getElem_at2 hw hk hj]
    exact yields_wr _ (by omega)
  have hlen₃ := hy₃.length
  split
  · exact (leakyRelu_values hy₃.holds (by omega)).mono fun y₄ hy₄ => hy₃.over hy₄
  · exact Yields.pure hy₃

end Channels

end ReadersSpeech.Pyannet
