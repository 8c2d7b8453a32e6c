import ReadersSpeech.LstmRuns
import ReadersSpeech.PyannetPlan

/-! The sinc layer of pyannet.c is the strided convolution it stands for: the stride phases of the
waveform, shifted, are its rows, and what is read beyond its end goes into padded columns only.
-/

set_option autoImplicit false

namespace ReadersSpeech.Pyannet
open Cells FloatOps LayerOps PyannetFile

variable {α : Type} [LayerOps α]

/-- The waveform, and zeros beyond its end. -/
def extended (n : ℕ) (xs : ℕ → α) (i : ℕ) : α := if i < n then xs i else zero

/-- `Σ w[c][k] · x[S t + k]`, in ascending `k` from zero, and its absolute value. -/
def filtered (K S : ℕ) (sinc : List α) (x : ℕ → α) (c t : ℕ) : α :=
  fabs (sumFrom zero (fun k => mul (at2 sinc K c k) (x (S * t + k))) K)

section Phases
variable {x : Block α} {xs : ℕ → α} {n S phaseLen : ℕ}

theorem yields_splitPhase {dst : Block α} {off p : ℕ} (hx : Holds x 0 n xs)
    (hdst : off + phaseLen ≤ dst.length) :
    Yields (splitPhase x n S p phaseLen dst off) fun d =>
      Fills dst d off phaseLen fun j => extended n xs (S * j + p) := by
  refine yields_fill off _ fun j hj d hd => ?_
  have hlen := hd.length
  by_cases hin : S * j + p < n
  · simp only [hin, if_true, hx.get hin, extended]
    exact yields_wr _ (by omega)
  · simp only [hin, if_false, extended]
    exact yields_wr _ (by omega)

theorem yields_splitPhases {xp : Block α} (hx : Holds x 0 n xs)
    (hxp : xp.length = S * phaseLen) :
    Yields (splitPhases x n S phaseLen xp) fun xp' => xp'.length = xp.length ∧
      ∀ p < S, Holds xp' (p * phaseLen) phaseLen fun j => extended n xs (S * j + p) :=
  yields_fill_rows fun p hp b hb =>
    yields_splitPhase hx (by rw [hb, hxp]; exact row_fits phaseLen hp)

end Phases

section Convolution
variable {C K S phaseLen l1Pad : ℕ} {sinc : List α} {phase : ℕ → Ptr α} {x : ℕ → α}
  {rows : Block (Ptr α)} {out : Block α}

omit [LayerOps α] in
/-- Row `k` is phase `k mod S`, shifted by `k / S`: no column is beyond the end of the phase. -/
theorem entry_row (hS : 0 < S) (hlen : l1Pad + K / S < phaseLen)
    (hphase : ∀ p < S, ∀ j < phaseLen, (phase p).entry j = some (x (S * j + p))) {k j : ℕ}
    (hk : k < K) (hj : j < l1Pad) :
    ((phase (k % S)).plus (k / S)).entry j = some (x (S * j + k)) := by
  have hdiv : k / S ≤ K / S := Nat.div_le_div_right hk.le
  have hentry := hphase (k % S) (Nat.mod_lt k hS) (k / S + j) (by omega)
  have hsample : S * (k / S + j) + k % S = S * j + k := by
    rw [Nat.mul_add, Nat.add_right_comm, Nat.div_add_mod, Nat.add_comm]
  rw [hsample] at hentry
  rw [← hentry]
  exact congrArg (rd _) (Nat.add_assoc _ _ _)

/-- The kernel for four filters, the one for those left over, the tiles and the padding make no
difference: every column of every filter is its sum. -/
theorem yields_sincConvAbs (hS : 0 < S) (hpad : l1Pad % tile = 0) (hlen : l1Pad + K / S < phaseLen)
    (hphase : ∀ p < S, ∀ j < phaseLen, (phase p).entry j = some (x (S * j + p)))
    (hsinc : sinc.length = C * K) (hrows : K ≤ rows.length) (hout : out.length = C * l1Pad) :
    Yields (sincConvAbs C K S sinc phase l1Pad rows out) fun r => r.1.length = rows.length ∧
      r.2.length = out.length ∧ ∀ c < C, Holds r.2 (c * l1Pad) l1Pad (filtered K S sinc x c) := by
  have htable : Yields (loop K (fun k rows => wr rows k ((phase (k % S)).plus (k / S))) rows)
      fun rows' => Fills rows rows' 0 K fun k => (phase (k % S)).plus (k / S) :=
    yields_fill 0 _ fun k hk b hb => by
      have hlen := hb.length
      rw [Nat.zero_add]
      exact yields_wr _ (by omega)
  refine Yields.bind htable fun rows₁ hrows₁ => ?_
  refine Yields.bind (yields_clear hout) fun out₁ hout₁ => ?_
  have hlen₁ : out₁.length = C * l1Pad := hout₁.length.trans hout
  have hzero : ∀ c < C, Holds out₁ (c * l1Pad) l1Pad fun _ => zero := fun c hc =>
    Holds.row (v := fun _ _ => zero) hout₁.holds hc
  have hw : ∀ c < C, Holds (block sinc) (c * K) K (at2 sinc K c) := fun c hc k hk =>
    rd_block (getElem_at2 hsinc hc hk)
  have hsums := yields_gemm_groups hpad hlen₁.ge hw (fun k hk =>
    ⟨_, hrows₁.holds.get hk, fun j hj => entry_row hS hlen hphase hk hj⟩) hzero
  have habs : ∀ o : Block α, o.length = out₁.length ∧ (∀ c < C, Holds o (c * l1Pad) l1Pad fun t =>
        sumFrom zero (fun k => mul (at2 sinc K c k) (x (S * t + k))) K) →
      Yields (do
        let out ← loop (C * l1Pad) (fun i out => do wr out i (fabs (← rd out i))) o
        return (rows₁, out)) fun r => r.1.length = rows.length ∧ r.2.length = out.length ∧
        ∀ c < C, Holds r.2 (c * l1Pad) l1Pad (filtered K S sinc x c) := by
    intro o ho
    have hflat := holds_flat ho.2
    refine Yields.bind (yields_fill 0 (fun i => filtered K S sinc x (i / l1Pad) (i % l1Pad)) ?_)
      fun o' ho' => Yields.pure ⟨hrows₁.length, ?_, fun c hc => Holds.row ho'.holds hc⟩
    · intro i hi b hb
      have hlen := hb.length
      rw [hb.kept (by omega), hflat.get hi, Nat.zero_add]
      exact yields_wr _ (by omega)
    · exact ho'.length.trans (ho.1.trans (hlen₁.trans hout.symm))
  have hall := hsums.bind habs
  rw [bind_assoc] at hall
  exact hall

end Convolution

section Pool
variable {x : Block α} {v : ℕ → α} {s n : ℕ}

/-- `greatest` of the entries `v`. -/
def maxOf (v : ℕ → α) : ℕ → α
  | 0 => v 0
  | n + 1 => if gt (v (n + 1)) (maxOf v n) then v (n + 1) else maxOf v n

theorem yields_greatest (h : Holds x s n v) (hn : 0 < n) :
    Yields (greatest x s n) (· = maxOf v (n - 1)) := by
  have hfirst : rd x s = some (v 0) := h 0 hn
  rw [greatest, hfirst]
  refine yields_loop (fun i (m : α) => m = maxOf v i) rfl fun i hi m hm => ?_
  rw [h (i + 1) (by omega), hm]
  exact Yields.pure rfl

theorem yields_maxPool {base nOut pool off len : ℕ} {out : Block α} (hx : Holds x base len v)
    (hpool : 0 < pool) (hfit : nOut * pool ≤ len) (hout : off + nOut ≤ out.length) :
    Yields (maxPool x base nOut pool out off) fun out' =>
      Fills out out' off nOut fun i => maxOf (fun k => v (i * pool + k)) (pool - 1) := by
  refine yields_fill off _ fun i hi b hb => ?_
  have hlen := hb.length
  have hrow := row_fits pool hi
  have hwindow : Holds x (base + i * pool) pool fun k => v (i * pool + k) := fun k hk => by
    rw [Nat.add_assoc]
    exact hx (i * pool + k) (by omega)
  obtain ⟨m, hm, rfl⟩ := yields_greatest hwindow hpool
  exact yields_put hm (by omega)

end Pool

section Layer
variable (g : Grid) (sinc : List α) (x : ℕ → α)

/-- With the phases at `phase`, on a table of `nRows` rows and an output nothing was written to,
the layer gives every filter its strided convolution. -/
def Grid.Convolves (nRows : ℕ) (phase : ℕ → Ptr α) : Prop :=
  ∃ rows out, sincConvAbs g.C g.K g.S sinc phase g.l1Pad (fresh nRows) (fresh (g.C * g.l1Pad)) =
      some (rows, out) ∧
    ∀ c < g.C, ∀ t < g.l1, rd out (c * g.l1Pad + t) = some (filtered g.K g.S sinc x c t)

/-- Whatever a padded column holds, or if it holds nothing, pooling filter `c` gives the greatest
values of its convolution. -/
def Grid.PoolsConvolution (c : ℕ) : Prop :=
  ∀ b out off, (∀ t < g.l1, rd b (c * g.l1Pad + t) = some (filtered g.K g.S sinc x c t)) →
    off + g.p1 ≤ out.length → ∃ out', maxPool b (c * g.l1Pad) g.p1 g.pool out off = some out' ∧
      ∀ i < g.p1, rd out' (off + i) =
        some (maxOf (fun k => filtered g.K g.S sinc x c (i * g.pool + k)) (g.pool - 1))

variable {g sinc x}

theorem convolves_of_phases {nRows : ℕ} {phase : ℕ → Ptr α} (hS : 0 < g.S) (hn : g.K ≤ g.n)
    (hsinc : sinc.length = g.C * g.K) (hrows : g.K ≤ nRows)
    (hphase : ∀ p < g.S, ∀ j < g.phaseLen,
      (phase p).entry j = some (extended g.n x (g.S * j + p))) :
    g.Convolves sinc x nRows phase := by
  obtain ⟨⟨rows, out⟩, hrun, -, -, hout⟩ := yields_sincConvAbs hS g.l1Pad_mod g.l1Pad_lt hphase
    hsinc (hrows.trans_eq List.length_replicate.symm)
    (List.length_replicate (n := g.C * g.l1Pad) (a := (none : Option α)))
  refine ⟨rows, out, hrun, fun c hc t ht => ?_⟩
  rw [hout c hc t (ht.trans_le g.l1_le), filtered, filtered]
  -- a column before the padding needs no zero from beyond the end
  have hterms : ∀ k < g.K, mul (at2 sinc g.K c k) (extended g.n x (g.S * t + k)) =
      mul (at2 sinc g.K c k) (x (g.S * t + k)) := fun k hk => by
    rw [extended, if_pos (Grid.sample_lt hS hn ht hk)]
  rw [sumFrom_congr hterms]

theorem convolves_phases {nRows : ℕ} {wave : Block α} (hwave : Holds wave 0 g.n x) (hS : 0 < g.S)
    (hn : g.K ≤ g.n) (hsinc : sinc.length = g.C * g.K) (hrows : g.K ≤ nRows) :
    ∃ xp, splitPhases wave g.n g.S g.phaseLen (fresh (g.S * g.phaseLen)) = some xp ∧
      g.Convolves sinc x nRows (phaseIn xp g.phaseLen) := by
  obtain ⟨xp, hxp, -, hphases⟩ := yields_splitPhases (S := g.S) hwave
    (List.length_replicate (n := g.S * g.phaseLen) (a := (none : Option α)))
  exact ⟨xp, hxp, convolves_of_phases hS hn hsinc hrows hphases⟩

/-- The same code on phases that are arrays of their own: a read past the end of one would have no
value. -/
theorem convolves_own_phases {nRows : ℕ} {wave : Block α} (hwave : Holds wave 0 g.n x)
    (hS : 0 < g.S) (hn : g.K ≤ g.n) (hsinc : sinc.length = g.C * g.K) (hrows : g.K ≤ nRows) :
    ∃ own : ℕ → Block α,
      (∀ p < g.S, splitPhase wave g.n g.S p g.phaseLen (fresh g.phaseLen) 0 = some (own p)) ∧
        g.Convolves sinc x nRows fun p => ⟨own p, 0⟩ := by
  have hsplit : ∀ p, Yields (splitPhase wave g.n g.S p g.phaseLen (fresh g.phaseLen) 0) fun d =>
      Fills (fresh g.phaseLen) d 0 g.phaseLen fun j => extended g.n x (g.S * j + p) := fun p =>
    yields_splitPhase hwave (by rw [Nat.zero_add]; exact List.length_replicate.ge)
  choose own hown hfill using hsplit
  refine ⟨own, fun p _ => hown p, convolves_of_phases hS hn hsinc hrows fun p _ j hj => ?_⟩
  exact (hfill p).holds j hj

theorem poolsConvolution (hpool : 0 < g.pool) (hl : g.pool ≤ g.l1) (c : ℕ) :
    g.PoolsConvolution sinc x c := by
  intro b out off hb hout
  obtain ⟨out', hrun, hfill⟩ := yields_maxPool hb hpool (Grid.p1_fits hl) hout
  exact ⟨out', hrun, fun i hi => hfill.holds i hi⟩

/-- The sinc layer of `pyannet_run` is the strided convolution, for every kernel, stride, number of
filters and samples it goes on with; each phase is read inside its own array, and no padded column
is pooled. Where no `int` overflows the sizes are those of the run. -/
theorem sincLayer_strided (d : Dims) (n : Int32) (s : Lens) (hC : 1 ≤ d.sincC.toInt)
    (hK : 1 ≤ d.sincK.toInt) (hS : 1 ≤ d.sincS.toInt) (hP : 1 ≤ d.pool.toInt)
    (hs : lengths d n.toInt = some (some s)) (sinc : Floats α (nat d.sincC * nat d.sincK))
    (wave : Block α) (x : ℕ → α) (hwave : Holds wave 0 (nat n) x) (nRows : ℕ)
    (hrows : nat d.sincK ≤ nRows) :
    let g := grid d n
    (∃ xp, splitPhases wave g.n g.S g.phaseLen (fresh (g.S * g.phaseLen)) = some xp ∧
      g.Convolves sinc.1 x nRows (phaseIn xp g.phaseLen)) ∧
    (∃ own : ℕ → Block α,
      (∀ p < g.S, splitPhase wave g.n g.S p g.phaseLen (fresh g.phaseLen) 0 = some (own p)) ∧
        g.Convolves sinc.1 x nRows fun p => ⟨own p, 0⟩) ∧
    (∀ c < g.C, g.PoolsConvolution sinc.1 x c) ∧ s.l1 = g.l1 ∧ s.p1 = g.p1 ∧
    ∀ p, plan d s n.toInt = some p → p.l1Pad = g.l1Pad ∧ p.phaseLen = g.phaseLen ∧
      p.xp.toNat = g.S * g.phaseLen ∧ p.c1.toNat = g.C * g.l1Pad ∧ g.K ≤ p.nRows.toNat := by
  intro g
  obtain ⟨hn, hl1, hpl, hp1⟩ := grid_lens hK hS hP hs
  have hS' : 0 < g.S := Int.pos_iff_toNat_pos.mp (by omega)
  have hP' : 0 < g.pool := Int.pos_iff_toNat_pos.mp (by omega)
  exact ⟨convolves_phases hwave hS' hn sinc.2 hrows, convolves_own_phases hwave hS' hn sinc.2 hrows,
    fun c _ => poolsConvolution hP' hpl c, hl1, hp1, fun p hp => grid_plan hC hK hS hl1 hp⟩

/-- Integers in place of `float` and of `double`. -/
instance : LayerOps ℤ where
  fabs := fun z => z.natAbs
  gt := fun a b => decide (b < a)
  ge := fun a b => decide (b ≤ a)
  expf := fun z => z
  logf := fun z => z
  Double := ℤ
  double := fun z => z
  float := fun z => z
  ofInt := fun z => z
  addD := (· + ·)
  subD := (· - ·)
  mulD := (· * ·)
  divD := (· / ·)
  sqrt := fun z => z.sqrt

/-- Five filters of three weights, two samples apart: a group of four and a remainder. -/
def five : Dims := ⟨5, 3, 2, 1, 1, 1, 1, 2, 1, 4, 1, 1, 7⟩

def ramp : Block ℤ := block ((List.range 20).map Int.ofNat)

theorem sincLayer_strided_five :
    ∃ xp, splitPhases ramp 20 2 (grid five 20).phaseLen (fresh (2 * (grid five 20).phaseLen)) =
        some xp ∧
      (grid five 20).Convolves (List.replicate 15 (-1)) Int.ofNat 8
        (phaseIn xp (grid five 20).phaseLen) :=
  (sincLayer_strided five 20 ⟨9, 4, 4, 2, 2, 1⟩ (by decide) (by decide) (by decide) (by decide)
    (by decide) ⟨List.replicate 15 (-1), by decide⟩ ramp Int.ofNat (by unfold Holds; decide) 8
    (by decide)).1

end Layer

end ReadersSpeech.Pyannet
