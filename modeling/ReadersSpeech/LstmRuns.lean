import ReadersSpeech.Lstm
import ReadersSpeech.Recurrence

/-! The layer loop of pyannet.c runs the textbook recurrence, forwards and in reverse, whatever its
scratch held before.
-/

set_option autoImplicit false

namespace ReadersSpeech.Pyannet
open Cells FloatOps

variable {α : Type} [FloatOps α]

section Pieces
variable {H n off : ℕ}

omit [FloatOps α] in
theorem yields_memcpy {dst : Block α} {src : List α} {v : ℕ → α} (hdst : off + n ≤ dst.length)
    (hsrc : ∀ j < n, src[j]? = some (v j)) :
    Yields (memcpy dst off src n) fun d => Fills dst d off n v :=
  yields_fill _ _ fun j hj d hd => by
    have hlen := hd.length
    exact yields_put (hsrc j hj) (by omega)

theorem yields_clear {dst : Block α} (hdst : dst.length = n) :
    Yields (clear dst n) fun d => Fills dst d 0 n fun _ => zero :=
  yields_fill _ _ fun j hj d hd => by
    have hlen := hd.length
    rw [Nat.zero_add]
    exact yields_wr _ (by omega)

theorem yields_vexp {x : Block α} {v : ℕ → α} (hx : Holds x off n v) (hlen : off + n ≤ x.length) :
    Yields (vexp x off n) fun x' => Fills x x' off n fun i => exp (v i) :=
  yields_fill _ _ fun i hi x' hx' => by
    have hlen' := hx'.length
    rw [hx'.kept (by omega), hx i hi]
    exact yields_wr _ (by omega)

omit [FloatOps α] in
theorem yields_setRows {base : List α} {G : ℕ} {rows : Block (Ptr α)} (hn : n ≤ rows.length) :
    Yields (setRows base G n rows) fun rows' =>
      Fills rows rows' 0 n fun k => ⟨block base, k * G⟩ :=
  yields_fill _ _ fun k hk rows' hrows' => by
    have hlen := hrows'.length
    rw [Nat.zero_add]
    exact yields_wr _ (by omega)

def at2 (xs : List α) (G k j : ℕ) : α := (xs[k * G + j]?).getD zero

theorem getElem_at2 {xs : List α} {G k j : ℕ} (hlen : xs.length = n * G) (hk : k < n)
    (hj : j < G) : xs[k * G + j]? = some (at2 xs G k j) := by
  have hfits := row_fits G hk
  rw [at2, List.getElem?_eq_getElem (by omega), Option.getD_some]

theorem entry_at2 {xs : List α} {G k j : ℕ} (hlen : xs.length = n * G) (hk : k < n) (hj : j < G) :
    Ptr.entry ⟨block xs, k * G⟩ j = some (at2 xs G k j) := rd_block (getElem_at2 hlen hk hj)

def LstmDir.weights {inp H : ℕ} (L : LstmDir α inp H) : Recurrence.Weights α where
  inp := inp
  H := H
  wt := at2 L.wt (gates * H)
  rt := at2 L.rt (gates * H)
  b := at2 L.b (gates * H) 0

end Pieces

section Project
variable {inp H F : ℕ} (L : LstmDir α inp H) {x : Block α} {xs : ℕ → ℕ → α}
  {rows : Block (Ptr α)}

/-- A gate before the recurrent terms: the bias and the input terms. -/
def projected (xs : ℕ → ℕ → α) (t j : ℕ) : α :=
  sumFrom (L.weights.b j) (fun k => mul (xs t k) (L.weights.wt k j)) inp

def Points (rows : Block (Ptr α)) (base : List α) (G n : ℕ) : Prop :=
  ∀ k < n, rd rows k = some ⟨block base, k * G⟩

variable {L}

/-- Groups of four frames, then the rest one by one, project every frame. -/
theorem yields_project {g : Block α} (hH : (gates * H) % tile = 0)
    (hx : ∀ t < F, Holds x (t * inp) inp (xs t)) (hrows : Points rows L.wt (gates * H) inp)
    (hg : g.length = F * (gates * H)) :
    Yields (project L x F rows g) fun g' => g'.length = F * (gates * H) ∧
      ∀ t < F, Holds g' (t * (gates * H)) (gates * H) (projected L xs t) := by
  have hsrc : ∀ j < gates * H, L.b[j]? = some (L.weights.b j) := fun j hj => by
    have hb := getElem_at2 (n := 1) (k := 0) (by rw [L.b_length, Nat.one_mul]) Nat.one_pos hj
    rw [Nat.zero_mul, Nat.zero_add] at hb
    exact hb
  refine Yields.bind (yields_fill_rows (C := F) (w := gates * H) (v := fun _ => L.weights.b)
    fun t ht b hb => yields_memcpy (by rw [hb, hg]; exact row_fits _ ht) hsrc) fun g₁ hg₁ => ?_
  have hpoints : ∀ k < inp, ∃ row, rd rows k = some row ∧
      ∀ j < gates * H, row.entry j = some (L.weights.wt k j) := fun k hk =>
    ⟨_, hrows k hk, fun j hj => entry_at2 L.wt_length hk hj⟩
  have hlen : F * (gates * H) ≤ g₁.length := (hg₁.1.trans hg).ge
  exact (yields_gemm_groups hH hlen hx hpoints hg₁.2).mono fun g' hg' =>
    ⟨hg'.1.trans (hg₁.1.trans hg), hg'.2⟩

end Project

section Step
variable {H : ℕ}

/-- What is left of a gate before its exponential. -/
def gateArg (H : ℕ) (v : ℕ → α) (j : ℕ) : α :=
  if j < 3 * H then neg (v j) else mul (neg two) (v j)

theorem yields_gateExps {g e : Block α} {gt : ℕ} {v : ℕ → α} (hg : Holds g gt (gates * H) v)
    (he : e.length = gates * H) :
    Yields (gateExps H g gt e) fun e' =>
      Fills e e' 0 (gates * H) fun j => exp (gateArg H v j) := by
  have hG : gates * H = 3 * H + H := by rw [gates]; omega
  refine Yields.bind (yields_fill 0 (gateArg H v) ?_) fun e₁ he₁ => ?_
  · intro j hj b hb
    have hlen := hb.length
    rw [Nat.zero_add, hg j (by omega), gateArg, if_pos hj]
    exact yields_wr _ (by omega)
  refine Yields.bind (yields_fill (3 * H) (fun i => gateArg H v (3 * H + i)) ?_)
    fun e₂ he₂ => ?_
  · intro i hi b hb
    have hlen₁ := he₁.length
    have hlen := hb.length
    rw [hg (3 * H + i) (by omega), gateArg, if_neg (by omega)]
    exact yields_wr _ (by omega)
  have hboth := he₁.append (m := gates * H - 3 * H) (by rw [Nat.zero_add]; exact he₂)
  rw [Nat.add_sub_cancel' (by omega)] at hboth
  exact (yields_vexp hboth.holds (by rw [hboth.length]; omega)).mono fun e' he' => hboth.over he'

theorem yields_updateCell {e c : Block α} {E cs : ℕ → α} (he : Holds e 0 (gates * H) E)
    (hc : Holds c 0 H cs) (hlen : c.length = H) :
    Yields (updateCell H e c) fun c' => Fills c c' 0 H fun j =>
      add (mul (div one (add one (E (2 * H + j)))) (cs j))
        (mul (div one (add one (E j))) (sub (div two (add one (E (3 * H + j)))) one)) := by
  have hG : gates * H = 4 * H := rfl
  refine yields_fill 0 _ fun j hj b hb => ?_
  have hcell : rd b j = some (cs j) := by
    rw [hb.kept (by omega)]
    exact hc.get hj
  have hlen' := hb.length
  rw [Nat.zero_add, he.get (show j < gates * H by omega),
    he.get (show 2 * H + j < gates * H by omega), he.get (show 3 * H + j < gates * H by omega),
    hcell]
  exact yields_wr _ (by omega)

theorem yields_cellExps {c e : Block α} {cs : ℕ → α} (hc : Holds c 0 H cs)
    (he : e.length = gates * H) :
    Yields (cellExps H c e) fun e' =>
      Fills e e' (3 * H) H fun j => exp (mul (neg two) (cs j)) := by
  have hG : gates * H = 4 * H := rfl
  refine Yields.bind (yields_fill (3 * H) (fun j => mul (neg two) (cs j)) ?_) fun e₁ he₁ => ?_
  · intro j hj b hb
    have hlen := hb.length
    rw [hc.get hj]
    exact yields_wr _ (by omega)
  · have hlen := he₁.length
    exact (yields_vexp he₁.holds (by omega)).mono fun e' he' => he₁.over he'

theorem yields_output {e h y : Block α} {out : ℕ} {so tc : ℕ → α}
    (ho : ∀ j < H, rd e (H + j) = some (so j)) (ht : ∀ j < H, rd e (3 * H + j) = some (tc j))
    (hh : h.length = H) (hy : out + H ≤ y.length) :
    Yields (output H e out h y) fun r =>
      Fills h r.1 0 H (fun j => mul (div one (add one (so j)))
        (sub (div two (add one (tc j))) one)) ∧
      Fills y r.2 out H fun j => mul (div one (add one (so j)))
        (sub (div two (add one (tc j))) one) := by
  refine yields_loop (fun j (r : Block α × Block α) => Fills h r.1 0 j _ ∧ Fills y r.2 out j _)
    ⟨Writes.zero h _ _, Writes.zero y _ _⟩ fun j hj r hr => ?_
  have hlen₁ := hr.1.length
  have hlen₂ := hr.2.length
  rw [ho j hj, ht j hj]
  change Yields (wr r.1 j _ >>= _) _
  refine Yields.bind (yields_wr _ (by omega)) fun h' hh' => ?_
  rw [hh'.here]
  change Yields (wr r.2 (out + j) _ >>= _) _
  refine Yields.bind (yields_wr _ (by omega)) fun y' hy' => ?_
  refine Yields.pure ⟨?_, hr.2.append (hy'.fills rfl)⟩
  exact hr.1.append (Put.fills (by rwa [Nat.zero_add]) rfl)

/-- One turn makes the textbook's step, at the frame whose projection `g` holds. -/
theorem yields_advance {inp : ℕ} {L : LstmDir α inp H} {x : ℕ → α} {S : Recurrence.State α}
    {ti yStride yOff : ℕ} {y : Block α} {s : Scratch α} (hH : (gates * H) % tile = 0)
    (hrows : Points s.rows L.rt (gates * H) H)
    (hg : Holds s.g (ti * (gates * H)) (gates * H) fun j =>
      sumFrom (L.weights.b j) (fun k => mul (x k) (L.weights.wt k j)) inp)
    (hglen : ti * (gates * H) + gates * H ≤ s.g.length) (hh : Holds s.h 0 H S.h)
    (hhlen : s.h.length = H) (hc : Holds s.c 0 H S.c) (hclen : s.c.length = H)
    (he : s.e.length = gates * H) (hy : ti * yStride + yOff + H ≤ y.length) :
    Yields (advance H ti yStride yOff (y, s)) fun r =>
      Fills y r.1 (ti * yStride + yOff) H (Recurrence.step L.weights x S).h ∧
      Fills s.h r.2.h 0 H (Recurrence.step L.weights x S).h ∧
      Fills s.c r.2.c 0 H (Recurrence.step L.weights x S).c ∧
      r.2.e.length = gates * H ∧ r.2.rows = s.rows ∧ r.2.g.length = s.g.length ∧
      ∀ i, i < ti * (gates * H) ∨ ti * (gates * H) + gates * H ≤ i → rd r.2.g i = rd s.g i := by
  have hG : gates * H = 4 * H := rfl
  have hgemv := yields_gemm (fun _ : Fin 1 => ⟨s.h, 0⟩) (fun _ => S.h) hH
    (apart_one (ti * (gates * H)) (gates * H)) (fun _ => hglen) (fun _ => hg)
    (fun _ k hk => by rw [Ptr.entry, Nat.zero_add]; exact hh.get hk)
    (fun k hk => ⟨_, hrows k hk, fun j hj => entry_at2 L.rt_length hk hj⟩)
  refine Yields.bind hgemv fun g hg' => ?_
  have hgate : Holds g (ti * (gates * H)) (gates * H) (Recurrence.gate L.weights x S.h) :=
    Fills.holds hg'
  refine Yields.bind (yields_gateExps hgate he) fun e he' => ?_
  have hE := he'.holds
  refine Yields.bind (yields_updateCell hE hc hclen) fun c hc' => ?_
  have hcell : Fills s.c c 0 H (Recurrence.cell L.weights x S) := hc'.congr fun j hj => by
    rw [gateArg, if_pos (by omega), gateArg, if_pos (by omega), gateArg, if_neg (by omega)]
    rfl
  refine Yields.bind (yields_cellExps hcell.holds (he'.length.trans he)) fun e₂ he₂ => ?_
  -- the output gate's exponentials lie below the part that was written over
  have hout : ∀ j < H, rd e₂ (H + j) =
      some (exp (neg (Recurrence.gate L.weights x S.h (H + j)))) := fun j hj => by
    rw [he₂.kept (by omega), hE.get (by omega), gateArg, if_pos (by omega)]
  refine Yields.bind (yields_output hout he₂.holds hhlen hy) fun r hr => ?_
  exact Yields.pure ⟨hr.2, hr.1, hcell, he₂.length.trans (he'.length.trans he), rfl, hg'.length,
    fun i hi => Fills.kept hg' hi⟩

end Step

section Direction
variable {inp H F : ℕ} {L : LstmDir α inp H} {x y₀ : Block α} {xs : ℕ → ℕ → α}

theorem frameAtStep_lt (backward : Bool) {step : ℕ} (h : step < F) :
    frameAtStep backward F step < F := by
  cases backward with
  | false => exact h
  | true => rw [frameAtStep, if_pos rfl]; omega

theorem frameAtStep_inj (backward : Bool) {s t : ℕ} (hs : s < F) (ht : t < F)
    (h : frameAtStep backward F s = frameAtStep backward F t) : s = t := by
  cases backward with
  | false => exact h
  | true => simp only [frameAtStep, if_true] at h; omega

/-- The states one direction runs through, its frames taken in its order. -/
def statesOf (L : LstmDir α inp H) (backward : Bool) (F : ℕ) (xs : ℕ → ℕ → α) (n : ℕ) :
    Recurrence.State α :=
  Recurrence.states L.weights (fun step => xs (frameAtStep backward F step)) n

/-- The sizes of the scratch, whatever it holds. -/
structure Scratch.Sized (s : Scratch α) (H F : ℕ) : Prop where
  g : s.g.length = F * (gates * H)
  h : s.h.length = H
  c : s.c.length = H
  e : s.e.length = gates * H
  rows : 2 * H ≤ s.rows.length

/-- After `n` turns: the states are the textbook's, the frames taken have their places in `y`, and
the frames to come still have their projections. -/
structure AfterTurns (L : LstmDir α inp H) (backward : Bool) (F yStride yOff : ℕ) (xs : ℕ → ℕ → α)
    (y₀ : Block α) (rows : ℕ) (n : ℕ) (r : Block α × Scratch α) : Prop where
  g : r.2.g.length = F * (gates * H)
  h : r.2.h.length = H
  c : r.2.c.length = H
  e : r.2.e.length = gates * H
  rows : r.2.rows.length = rows
  points : Points r.2.rows L.rt (gates * H) H
  hidden : Holds r.2.h 0 H (statesOf L backward F xs n).h
  cell : Holds r.2.c 0 H (statesOf L backward F xs n).c
  ahead : ∀ s < F, n ≤ s → Holds r.2.g (frameAtStep backward F s * (gates * H)) (gates * H)
    (projected L xs (frameAtStep backward F s))
  y : r.1.length = y₀.length
  done : ∀ s < n, Holds r.1 (frameAtStep backward F s * yStride + yOff) H
    (statesOf L backward F xs (s + 1)).h
  kept : ∀ i, (∀ t < F, i < t * yStride + yOff ∨ t * yStride + yOff + H ≤ i) → rd r.1 i = rd y₀ i

theorem AfterTurns.advance {backward : Bool} {yStride yOff rows n : ℕ} {r : Block α × Scratch α}
    (hH : (gates * H) % tile = 0) (hoff : yOff + H ≤ yStride) (hy : F * yStride ≤ y₀.length)
    (hn : n < F) (h : AfterTurns L backward F yStride yOff xs y₀ rows n r) :
    Yields (Pyannet.advance H (frameAtStep backward F n) yStride yOff r)
      (AfterTurns L backward F yStride yOff xs y₀ rows (n + 1)) := by
  have hti : frameAtStep backward F n < F := frameAtStep_lt backward hn
  have hfits := row_fits yStride hti
  refine (yields_advance hH h.points (h.ahead n hn (le_refl n))
    (by rw [h.g]; exact row_fits _ hti) h.hidden h.h h.cell h.c h.e
    (by rw [h.y]; omega)).mono fun r' hr' => ?_
  obtain ⟨hy', hh', hc', he', hrows', hg', hkept'⟩ := hr'
  -- another frame's place in `y`
  have hother : ∀ s < F, s ≠ n → ∀ i < H,
      frameAtStep backward F s * yStride + yOff + i <
        frameAtStep backward F n * yStride + yOff ∨
      frameAtStep backward F n * yStride + yOff + H ≤
        frameAtStep backward F s * yStride + yOff + i := fun s hs hne i hi => by
    have hout := row_outside (mt (frameAtStep_inj backward hs hn) hne)
      (show yOff + i < yStride by omega)
    omega
  exact
    { g := hg'.trans h.g
      h := hh'.length.trans h.h
      c := hc'.length.trans h.c
      e := he'
      rows := by rw [hrows']; exact h.rows
      points := by rw [hrows']; exact h.points
      hidden := hh'.holds
      cell := hc'.holds
      ahead := fun s hs hle j hj => by
        rw [hkept' _ (row_outside (mt (frameAtStep_inj backward hs hn) (by omega)) hj)]
        exact h.ahead s hs (by omega) j hj
      y := hy'.length.trans h.y
      done := fun s hs => by
        by_cases hsn : s = n
        · subst hsn
          exact hy'.holds
        · intro i hi
          rw [hy'.kept (hother s (by omega) hsn i hi)]
          exact h.done s (by omega) i hi
      kept := fun i hi => by
        rw [hy'.kept (hi _ hti)]
        exact h.kept i hi }

def hiddenOf (L : LstmDir α inp H) (backward : Bool) (F : ℕ) (xs : ℕ → ℕ → α) : ℕ → ℕ → α :=
  if backward then Recurrence.backward L.weights F xs else Recurrence.forward L.weights xs

theorem statesOf_h {backward : Bool} {s : ℕ} (hs : s < F) :
    (statesOf L backward F xs (s + 1)).h = hiddenOf L backward F xs (frameAtStep backward F s) := by
  cases backward with
  | false => rfl
  | true =>
    have hsteps : F - (F - 1 - s) = s + 1 := by omega
    rw [hiddenOf, if_pos rfl, frameAtStep, if_pos rfl]
    funext j
    rw [Recurrence.backward, hsteps]
    rfl

/-- One direction writes the textbook's hidden states to its half of every frame of `y`, and
touches nothing else of `y`. -/
theorem yields_lstmDir (backward : Bool) {yStride yOff : ℕ} {s : Scratch α}
    (hH : (gates * H) % tile = 0) (hinp : inp ≤ 2 * H)
    (hx : ∀ t < F, Holds x (t * inp) inp (xs t)) (hs : s.Sized H F) (hoff : yOff + H ≤ yStride)
    (hy : F * yStride ≤ y₀.length) :
    Yields (lstmDir L x F backward yStride yOff y₀ s) fun r =>
      r.2.Sized H F ∧ r.1.length = y₀.length ∧
      (∀ t < F, Holds r.1 (t * yStride + yOff) H (hiddenOf L backward F xs t)) ∧
      ∀ i, (∀ t < F, i < t * yStride + yOff ∨ t * yStride + yOff + H ≤ i) →
        rd r.1 i = rd y₀ i := by
  have hrows := hs.rows
  refine Yields.bind (yields_setRows (by omega)) fun rows₁ hrows₁ => ?_
  refine Yields.bind (yields_project hH hx (fun k hk => hrows₁.holds.get hk) hs.g) fun g hg => ?_
  refine Yields.bind (yields_setRows (by have := hrows₁.length; omega)) fun rows₂ hrows₂ => ?_
  refine Yields.bind (yields_clear hs.h) fun h hh => ?_
  refine Yields.bind (yields_clear hs.c) fun c hc => ?_
  have hstart : AfterTurns L backward F yStride yOff xs y₀ s.rows.length 0
      (y₀, { s with g, h, c, rows := rows₂ }) :=
    { g := hg.1
      h := hh.length.trans hs.h
      c := hc.length.trans hs.c
      e := hs.e
      rows := hrows₂.length.trans hrows₁.length
      points := fun k hk => hrows₂.holds.get hk
      hidden := hh.holds
      cell := hc.holds
      ahead := fun t ht _ => hg.2 _ (frameAtStep_lt backward ht)
      y := rfl
      done := fun t ht => absurd ht (Nat.not_lt_zero t)
      kept := fun i _ => rfl }
  refine (yields_loop (AfterTurns L backward F yStride yOff xs y₀ s.rows.length) hstart
    fun n hn r hr => hr.advance hH hoff hy hn).mono fun r hr => ?_
  refine ⟨⟨hr.g, hr.h, hr.c, hr.e, by rw [hr.rows]; exact hrows⟩, hr.y, fun t ht => ?_, hr.kept⟩
  -- the turn that took the frame `t`
  have hturn : frameAtStep backward F (frameAtStep backward F t) = t := by
    cases backward with
    | false => rfl
    | true => simp only [frameAtStep, if_true]; omega
  have hdone := hr.done _ (frameAtStep_lt backward ht)
  rw [statesOf_h (frameAtStep_lt backward ht), hturn] at hdone
  exact hdone

end Direction

section Layers
variable {m : Recurrent α} {F : ℕ}

/-- The numbers a frame has after `l` layers. -/
def Recurrent.width (m : Recurrent α) (l : ℕ) : ℕ := if l = 0 then m.c2 else 2 * m.hidden

/-- The frames after `l` textbook layers. -/
def Recurrent.frames (m : Recurrent α) (F : ℕ) (xs : ℕ → ℕ → α) : ℕ → ℕ → ℕ → α
  | 0 => xs
  | l + 1 => Recurrence.bidirectional (m.lstm l false).weights (m.lstm l true).weights F m.hidden
      (m.frames F xs l)

/-- The sizes `pyannet_run` allocates. -/
structure Buffers.Sized (s : Buffers α) (m : Recurrent α) (F : ℕ) : Prop where
  cur : s.cur.length = F * (2 * m.hidden)
  nxt : s.nxt.length = F * (2 * m.hidden)
  scratch : s.scratch.Sized m.hidden F

omit [FloatOps α] in
theorem allocate_sized (m : Recurrent α) {F nRows : ℕ} (h : 2 * m.hidden ≤ nRows) :
    (allocate m F nRows).Sized m F where
  cur := List.length_replicate.trans (Nat.mul_assoc _ _ _)
  nxt := List.length_replicate.trans (Nat.mul_assoc _ _ _)
  scratch :=
    { g := List.length_replicate
      h := List.length_replicate
      c := List.length_replicate
      e := List.length_replicate
      rows := h.trans_eq List.length_replicate.symm }

theorem yields_runLayer {l : ℕ} {xs : ℕ → ℕ → α} {s : Buffers α}
    (hH : (gates * m.hidden) % tile = 0) (hc2 : m.c2 ≤ 2 * m.hidden) (hs : s.Sized m F)
    (hcur : ∀ t < F, Holds s.cur (t * m.width l) (m.width l) (xs t)) :
    Yields (runLayer m F l s) fun s' => s'.Sized m F ∧
      ∀ t < F, Holds s'.cur (t * (2 * m.hidden)) (2 * m.hidden)
        (Recurrence.bidirectional (m.lstm l false).weights (m.lstm l true).weights F m.hidden
          xs t) := by
  have hw : m.width l ≤ 2 * m.hidden := by
    unfold Recurrent.width
    split
    · exact hc2
    · exact le_refl _
  refine Yields.bind (yields_lstmDir false hH hw hcur hs.scratch (by omega) hs.nxt.ge)
    fun r₁ hr₁ => ?_
  obtain ⟨hs₁, hlen₁, hfw, _⟩ := hr₁
  refine Yields.bind (yields_lstmDir true hH hw hcur hs₁ (by omega) (hlen₁.trans hs.nxt).ge)
    fun r₂ hr₂ => ?_
  obtain ⟨hs₂, hlen₂, hbw, hkept⟩ := hr₂
  refine Yields.pure ⟨⟨hlen₂.trans (hlen₁.trans hs.nxt), hs.cur, hs₂⟩, fun t ht j hj => ?_⟩
  by_cases hhalf : j < m.hidden
  · -- the backward direction left the forward half alone
    have hout : ∀ u < F, t * (2 * m.hidden) + j < u * (2 * m.hidden) + m.hidden ∨
        u * (2 * m.hidden) + m.hidden + m.hidden ≤ t * (2 * m.hidden) + j := fun u _ => by
      by_cases htu : t = u
      · subst htu
        omega
      · have hrow := row_outside htu hj
        omega
    rw [hkept _ hout, Recurrence.bidirectional, if_pos hhalf]
    exact hfw t ht j hhalf
  · have hback := hbw t ht (j - m.hidden) (by omega)
    rw [Recurrence.bidirectional, if_neg hhalf]
    rw [Nat.add_assoc, Nat.add_sub_cancel' (not_lt.mp hhalf)] at hback
    exact hback

omit [FloatOps α] in
theorem yields_toFrames {c2 : ℕ} {p3 seqa : Block α} {xs : ℕ → ℕ → α}
    (hp3 : ∀ ch < c2, ∀ t < F, rd p3 (ch * F + t) = some (xs t ch)) (hlen : F * c2 ≤ seqa.length) :
    Yields (toFrames c2 F p3 seqa) fun a => a.length = seqa.length ∧
      ∀ t < F, Holds a (t * c2) c2 (xs t) := by
  refine (yields_loop (fun ch (a : Block α) => a.length = seqa.length ∧
    ∀ t < F, ∀ k < ch, rd a (t * c2 + k) = some (xs t k)) ⟨rfl, by omega⟩
    fun ch hch a ha => ?_)
  -- the channels before `ch` are in place, and of `ch` the frames before `t`
  refine (yields_loop (fun t (b : Block α) => b.length = seqa.length ∧
    (∀ u < F, ∀ k < ch, rd b (u * c2 + k) = some (xs u k)) ∧
    ∀ u < t, rd b (u * c2 + ch) = some (xs u ch)) ⟨ha.1, ha.2, by omega⟩ ?_).mono
    fun b hb => ⟨hb.1, fun t ht k hk => ?_⟩
  · intro t ht b hb
    have hfits := row_fits c2 ht
    refine (yields_put (hp3 ch hch t ht) (by omega)).mono fun c hc =>
      ⟨hc.length.trans hb.1, fun u hu k hk => ?_, fun u hu => ?_⟩
    · rw [hc.kept _ ?_]
      · exact hb.2.1 u hu k hk
      · by_cases hut : u = t
        · subst hut
          omega
        · have hout := row_outside hut (show k < c2 by omega)
          omega
    · by_cases hut : u = t
      · subst hut
        exact hc.here
      · have hout := row_outside hut hch
        rw [hc.kept _ (by omega)]
        exact hb.2.2 u (by omega)
  · rcases Nat.lt_or_ge k ch with h | h
    · exact hb.2.1 t ht k h
    · obtain rfl : k = ch := by omega
      exact hb.2.2 t ht

/-- Each layer runs on what the one before it left. -/
theorem yields_runLayers {xs : ℕ → ℕ → α} {p3 : Block α} {s : Buffers α}
    (hH : (gates * m.hidden) % tile = 0) (hc2 : m.c2 ≤ 2 * m.hidden) (hs : s.Sized m F)
    (hp3 : ∀ ch < m.c2, ∀ t < F, rd p3 (ch * F + t) = some (xs t ch)) :
    Yields (runLayers m F p3 s) fun s' => s'.Sized m F ∧
      ∀ t < F, Holds s'.cur (t * m.width m.layers) (m.width m.layers)
        (m.frames F xs m.layers t) := by
  have hfit : F * m.c2 ≤ s.cur.length := by
    rw [hs.cur]
    exact Nat.mul_le_mul_left F hc2
  refine Yields.bind (yields_toFrames hp3 hfit) fun cur hcur => ?_
  exact yields_loop (fun l (s : Buffers α) => s.Sized m F ∧
    ∀ t < F, Holds s.cur (t * m.width l) (m.width l) (m.frames F xs l t))
    ⟨⟨hcur.1.trans hs.cur, hs.nxt, hs.scratch⟩, hcur.2⟩
    fun k _ s' hs' => yields_runLayer (l := k) hH hc2 hs'.1 hs'.2

/-- The LSTM stack never fails, and its last layer holds, for every frame, the hidden states of the
textbook recurrence over the layer before, forwards and then in reverse. -/
theorem runLayers_bidirectional {l : ℕ} {xs : ℕ → ℕ → α} {p3 : Block α} {s : Buffers α}
    (hH : (4 * m.hidden) % 16 = 0) (hc2 : m.c2 ≤ 2 * m.hidden) (hs : s.Sized m F)
    (hp3 : ∀ ch < m.c2, ∀ t < F, rd p3 (ch * F + t) = some (xs t ch))
    (hlayers : m.layers = l + 1) :
    ∃ s', runLayers m F p3 s = some s' ∧ ∀ t < F, ∀ j < m.hidden,
      rd s'.cur (t * (2 * m.hidden) + j) =
        some (Recurrence.forward (m.lstm l false).weights (m.frames F xs l) t j) ∧
      rd s'.cur (t * (2 * m.hidden) + (m.hidden + j)) =
        some (Recurrence.backward (m.lstm l true).weights F (m.frames F xs l) t j) := by
  obtain ⟨s', hs', -, hout⟩ := yields_runLayers hH hc2 hs hp3
  rw [hlayers] at hout
  refine ⟨s', hs', fun t ht j hj => ⟨?_, ?_⟩⟩
  · have hfw := hout t ht j (show j < 2 * m.hidden by omega)
    rw [Recurrent.frames, Recurrence.bidirectional, if_pos hj] at hfw
    exact hfw
  · have hbw := hout t ht (m.hidden + j) (show m.hidden + j < 2 * m.hidden by omega)
    rw [Recurrent.frames, Recurrence.bidirectional, if_neg (by omega), Nat.add_sub_cancel_left]
      at hbw
    exact hbw

/-- Integers in place of `float`. -/
instance : FloatOps ℤ := ⟨0, 1, 2, (· + ·), (· - ·), (· * ·), (· / ·), (- ·), fun z => z⟩

/-- Two layers of four hidden units over one input, all weights one. -/
def ones : Recurrent ℤ where
  c2 := 1
  hidden := 4
  layers := 2
  lstm := fun _ _ => ⟨List.replicate _ 1, List.replicate _ 1, List.replicate _ 1,
    List.length_replicate, List.length_replicate, List.length_replicate⟩

/-- Five frames, a group of four and a remainder, on memory nothing was written to. -/
theorem runLayers_bidirectional_ones :
    ∃ s', runLayers ones 5 (block [1, 2, 3, 4, 5]) (allocate ones 5 8) = some s' ∧
      ∀ t < 5, ∀ j < 4,
        rd s'.cur (t * 8 + j) = some (Recurrence.forward (ones.lstm 1 false).weights
          (ones.frames 5 (fun t _ => t + 1) 1) t j) ∧
        rd s'.cur (t * 8 + (4 + j)) = some (Recurrence.backward (ones.lstm 1 true).weights 5
          (ones.frames 5 (fun t _ => t + 1) 1) t j) :=
  runLayers_bidirectional (m := ones) (l := 1) rfl (by decide)
    (allocate_sized ones (by decide)) (by decide) rfl

end Layers

end ReadersSpeech.Pyannet
