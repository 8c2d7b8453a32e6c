import ReadersSpeech.Cells
import Mathlib.Data.Fin.VecNotation
import Mathlib.Tactic.FinCases

/-! The small matrix kernels of pyannet.c, `gemm4` and `gemv1`: `o[r][j] += Σ x[r][k] · rows[k][j]`
for four rows or for one, sixteen columns at a time.
-/

set_option autoImplicit false

namespace ReadersSpeech.Pyannet
open Cells

/-- The operations on `float`, of which nothing is assumed. -/
class FloatOps (α : Type) where
  zero : α
  one : α
  two : α
  add : α → α → α
  sub : α → α → α
  mul : α → α → α
  div : α → α → α
  neg : α → α
  exp : α → α

variable {α : Type} [FloatOps α]
open FloatOps

/-- `const float *`. -/
structure Ptr (α : Type) where
  base : Block α
  off : ℕ

def Ptr.plus (p : Ptr α) (n : ℕ) : Ptr α := ⟨p.base, p.off + n⟩

def Ptr.entry (p : Ptr α) (i : ℕ) : Option α := rd p.base (p.off + i)

/-- `TILE`. -/
def tile : ℕ := 16

section Model
variable {R : ℕ}

def loadTile (os : Fin R → ℕ) (j0 : ℕ) (o : Block α) : Option (Fin R → Block α) :=
  loop tile (fun j a => each fun r => do wr (a r) j (← rd o (os r + j0 + j))) fun _ => fresh tile

/-- One turn of the loop over `k`: row `wk` of the weights for every row of `x`. -/
def addRow (b : Fin R → α) (wk : Ptr α) (a : Fin R → Block α) : Option (Fin R → Block α) :=
  loop tile (fun j a => each fun r => do
    let acc ← rd (a r) j
    let w ← wk.entry j
    wr (a r) j (add acc (mul (b r) w))) a

def storeTile (os : Fin R → ℕ) (j0 : ℕ) (a : Fin R → Block α) (o : Block α) : Option (Block α) :=
  loop tile (fun j o => (List.finRange R).foldlM
    (fun o r => do wr o (os r + j0 + j) (← rd (a r) j)) o) o

/-- `R` rows `xs` of `inp` entries, against the `rows` of the weights, onto the rows `os` of `o`. -/
def gemm (xs : Fin R → Ptr α) (inp : ℕ) (rows : Block (Ptr α)) (cols : ℕ) (os : Fin R → ℕ)
    (o : Block α) : Option (Block α) :=
  loop ((cols + tile - 1) / tile) (fun i o => do
    let j0 := i * tile
    let a ← loadTile os j0 o
    let a ← loop inp (fun k a => do
      let row ← rd rows k
      let b ← each fun r => (xs r).entry k
      addRow b (row.plus j0) a) a
    storeTile os j0 a o) o

end Model

def gemm4 (x0 x1 x2 x3 : Ptr α) (inp : ℕ) (rows : Block (Ptr α)) (cols o0 o1 o2 o3 : ℕ)
    (o : Block α) : Option (Block α) :=
  gemm ![x0, x1, x2, x3] inp rows cols ![o0, o1, o2, o3] o

def gemv1 (x0 : Ptr α) (inp : ℕ) (rows : Block (Ptr α)) (cols o0 : ℕ) (o : Block α) :
    Option (Block α) :=
  gemm (fun _ : Fin 1 => x0) inp rows cols (fun _ => o0) o

/-- `start + Σ term k` for `k` below `n`, added in that order. -/
def sumFrom (start : α) (term : ℕ → α) : ℕ → α
  | 0 => start
  | n + 1 => add (sumFrom start term n) (term n)

theorem sumFrom_congr {start : α} {s t : ℕ → α} {n : ℕ} (h : ∀ k < n, s k = t k) :
    sumFrom start s n = sumFrom start t n := by
  induction n with
  | zero => rfl
  | succ n ih => rw [sumFrom, sumFrom, ih fun k hk => h k (by omega), h n (Nat.lt_succ_self n)]

section Spec
variable {R : ℕ}

omit [FloatOps α] in
theorem yields_loadTile {os : Fin R → ℕ} {j0 : ℕ} {o : Block α} {v : Fin R → ℕ → α}
    (h : ∀ r, Holds o (os r + j0) tile (v r)) :
    Yields (loadTile os j0 o) fun a => ∀ r, (a r).length = tile ∧ Holds (a r) 0 tile (v r) := by
  have hfill := yields_fill_each (fun j r (b : Block α) => do wr b j (← rd o (os r + j0 + j)))
    (a := fun _ => fresh tile) (n := tile) (v := v) fun j hj r b hb => by
      have hlen : b.length = tile := hb.length.trans List.length_replicate
      exact yields_put (h r j hj) (by omega)
  exact hfill.mono fun a ha r => ⟨(ha r).length.trans List.length_replicate, (ha r).holds⟩

theorem yields_addRow {a : Fin R → Block α} {b : Fin R → α} {wk : Ptr α} {v : Fin R → ℕ → α}
    {w : ℕ → α} (ha : ∀ r, (a r).length = tile ∧ Holds (a r) 0 tile (v r))
    (hw : ∀ j < tile, wk.entry j = some (w j)) :
    Yields (addRow b wk a) fun a' => ∀ r, (a' r).length = tile ∧
      Holds (a' r) 0 tile fun j => add (v r j) (mul (b r) (w j)) := by
  have hfill := yields_fill_each (fun j r (c : Block α) => do
      let acc ← rd c j
      let w ← wk.entry j
      wr c j (add acc (mul (b r) w)))
    (a := a) (n := tile) (v := fun r j => add (v r j) (mul (b r) (w j)))
    fun j hj r c hc => by
      have hlen : c.length = tile := hc.length.trans (ha r).1
      -- the columns before `j` are done, the `j`-th still has its old value
      have hacc : rd c j = some (v r j) := by
        rw [hc.kept (by omega)]
        exact (ha r).2.get hj
      rw [hacc, hw j hj]
      exact yields_wr _ (by omega)
  exact hfill.mono fun a' ha' r => ⟨(ha' r).length.trans (ha r).1, (ha' r).holds⟩

omit [FloatOps α] in
theorem yields_storeTile {os : Fin R → ℕ} {j0 : ℕ} {a : Fin R → Block α} {o : Block α}
    {v : Fin R → ℕ → α} (hos : Apart (fun r => os r + j0) tile)
    (hlen : ∀ r, os r + j0 + tile ≤ o.length) (ha : ∀ r, Holds (a r) 0 tile (v r)) :
    Yields (storeTile os j0 a o) fun o' => Writes o o' (fun r => os r + j0) tile v :=
  yields_columns hos fun j hj r b hb =>
    yields_put ((ha r).get hj) (by have := hlen r; omega)

/-- Every row of `o` becomes its old value plus the products, added in ascending `k`; the tiles,
the number of rows at a time and the rest of `o` play no part. -/
theorem yields_gemm (xs : Fin R → Ptr α) (x : Fin R → ℕ → α) {inp : ℕ} {rows : Block (Ptr α)}
    {cols : ℕ} {os : Fin R → ℕ} {o : Block α} {v : Fin R → ℕ → α} {w : ℕ → ℕ → α}
    (hcols : cols % tile = 0) (hos : Apart os cols) (hlen : ∀ r, os r + cols ≤ o.length)
    (ho : ∀ r, Holds o (os r) cols (v r)) (hx : ∀ r, ∀ k < inp, (xs r).entry k = some (x r k))
    (hw : ∀ k < inp, ∃ row, rd rows k = some row ∧ ∀ j < cols, row.entry j = some (w k j)) :
    Yields (gemm xs inp rows cols os o) fun o' => Writes o o' os cols
      fun r j => sumFrom (v r j) (fun k => mul (x r k) (w k j)) inp := by
  have hturns : (cols + tile - 1) / tile * tile = cols := by
    unfold tile at *
    omega
  rw [gemm]
  generalize (cols + tile - 1) / tile = turns at hturns
  subst hturns
  apply yields_loop fun i o' => Writes o o' os (i * tile)
    fun r j => sumFrom (v r j) (fun k => mul (x r k) (w k j)) inp
  · rw [Nat.zero_mul]
    exact Writes.zero o os _
  intro i hi o' ho'
  have hnext : (i + 1) * tile = i * tile + tile := Nat.succ_mul i tile
  have hin : i * tile + tile ≤ turns * tile := hnext ▸ Nat.mul_le_mul_right tile hi
  -- the columns of this tile still have the values they had at first
  have hload : ∀ r, Holds o' (os r + i * tile) tile fun j => v r (i * tile + j) := by
    intro r j hj
    rw [Nat.add_assoc, ho'.kept _ fun s => hos.outside r s (Nat.le_add_right _ j) (by omega)]
    exact ho r (i * tile + j) (by omega)
  refine (yields_loadTile hload).bind fun a ha => ?_
  refine Yields.bind (yields_loop (fun k (a : Fin R → Block α) => ∀ r, (a r).length = tile ∧
    Holds (a r) 0 tile fun j => sumFrom (v r (i * tile + j))
      (fun k => mul (x r k) (w k (i * tile + j))) k) ha fun k hk a ha => ?_) fun a ha => ?_
  · obtain ⟨row, hrow, hentry⟩ := hw k hk
    rw [hrow]
    refine (yields_each fun r => Yields.of_eq (hx r k hk)).bind fun b hb => ?_
    obtain rfl : b = fun r => x r k := funext hb
    refine yields_addRow ha fun j hj => ?_
    rw [← hentry (i * tile + j) (by omega)]
    exact congrArg (rd row.base) (Nat.add_assoc _ _ _)
  refine (yields_storeTile (hos.shift hin) (fun r => ?_) fun r => (ha r).2).mono fun o'' ho'' => ?_
  · have hr := hlen r
    rw [ho'.length]
    omega
  · rw [hnext]
    exact ho'.append ho'' (hos.mono hin)

end Spec

section Groups
variable {M inp cols : ℕ} {x : Block α} {X : ℕ → ℕ → α} {rows : Block (Ptr α)} {o : Block α}
  {v w : ℕ → ℕ → α}

/-- The first `m` of the `M` rows have their products added, the others are as they were. -/
structure AddedTo (M inp cols : ℕ) (X v w : ℕ → ℕ → α) (o : Block α) (m : ℕ) (b : Block α) :
    Prop where
  length : b.length = o.length
  holds : ∀ r < M, Holds b (r * cols) cols fun j =>
    if r < m then sumFrom (v r j) (fun k => mul (X r k) (w k j)) inp else v r j

/-- However many rows a kernel takes at a time. -/
theorem yields_gemm_rows {R m : ℕ} {b : Block α} (hcols : cols % tile = 0) (hm : m + R ≤ M)
    (hlen : M * cols ≤ o.length) (hx : ∀ r < M, Holds x (r * inp) inp (X r))
    (hw : ∀ k < inp, ∃ row, rd rows k = some row ∧ ∀ j < cols, row.entry j = some (w k j))
    (hb : AddedTo M inp cols X v w o m b) :
    Yields (gemm (fun r : Fin R => ⟨x, (m + r.val) * inp⟩) inp rows cols
      (fun r => (m + r.val) * cols) b) (AddedTo M inp cols X v w o (m + R)) := by
  have hfits : ∀ r : Fin R, (m + r.val) * cols + cols ≤ b.length := fun r => by
    rw [hb.length]
    exact (row_fits cols (show m + r.val < M by omega)).trans hlen
  have ho : ∀ r : Fin R, Holds b ((m + r.val) * cols) cols (v (m + r.val)) := fun r =>
    (hb.holds (m + r.val) (by omega)).congr fun j _ => if_neg (by omega)
  have hgemm := yields_gemm (fun r : Fin R => ⟨x, (m + r.val) * inp⟩) (fun r => X (m + r.val)) hcols
    (apart_rows m cols) hfits ho (fun r k hk => hx (m + r.val) (by omega) k hk) hw
  refine hgemm.mono fun c hc => ⟨hc.length.trans hb.length, fun t ht => ?_⟩
  by_cases hin : m ≤ t ∧ t < m + R
  · -- one of the rows of this turn
    have hrow := hc.holds ⟨t - m, by omega⟩
    have ht' : m + (t - m) = t := by omega
    simp only [ht'] at hrow
    exact hrow.congr fun j _ => (if_pos hin.2).symm
  · intro j hj
    have hside : t < m ↔ t < m + R := by omega
    rw [hc.kept _ fun r => row_outside (by omega) hj, hb.holds t ht j hj]
    simp only [hside]

/-- Groups of four rows, then the rest one by one, take every row. -/
theorem yields_gemm_groups (hcols : cols % tile = 0) (hlen : M * cols ≤ o.length)
    (hx : ∀ r < M, Holds x (r * inp) inp (X r))
    (hw : ∀ k < inp, ∃ row, rd rows k = some row ∧ ∀ j < cols, row.entry j = some (w k j))
    (ho : ∀ r < M, Holds o (r * cols) cols (v r)) :
    Yields (do
      let o ← loop (M / 4) (fun q o =>
        let t := q * 4
        gemm4 ⟨x, t * inp⟩ ⟨x, t * inp + inp⟩ ⟨x, t * inp + 2 * inp⟩ ⟨x, t * inp + 3 * inp⟩ inp rows
          cols (t * cols) (t * cols + cols) (t * cols + 2 * cols) (t * cols + 3 * cols) o) o
      loop (M - M / 4 * 4) (fun i o =>
        let t := M / 4 * 4 + i
        gemv1 ⟨x, t * inp⟩ inp rows cols (t * cols) o) o)
      fun b => b.length = o.length ∧ ∀ r < M, Holds b (r * cols) cols fun j =>
        sumFrom (v r j) (fun k => mul (X r k) (w k j)) inp := by
  have hnone : AddedTo M inp cols X v w o (0 * 4) o :=
    ⟨rfl, fun r hr => (ho r hr).congr fun j _ => (if_neg (by omega)).symm⟩
  refine Yields.bind (yields_loop (fun q => AddedTo M inp cols X v w o (q * 4)) hnone ?_)
    fun o₁ ho₁ => ?_
  · intro q hq b hb
    have hfour := yields_gemm_rows (R := 4) hcols (by omega) hlen hx hw hb
    rw [← Nat.succ_mul] at hfour
    convert hfour using 1
    rw [gemm4]
    congr 1 <;> funext r <;> fin_cases r <;> simp <;> ring
  refine Yields.mono (Q := AddedTo M inp cols X v w o (M / 4 * 4 + (M - M / 4 * 4)))
    (yields_loop (fun i => AddedTo M inp cols X v w o (M / 4 * 4 + i)) ho₁ ?_) fun b hb => ?_
  · intro i hi b hb
    have hone := yields_gemm_rows (R := 1) hcols (by omega) hlen hx hw hb
    convert hone using 1
    · rw [gemv1]
      congr 1 <;> funext r <;> fin_cases r <;> rfl
    · rfl
  · have hend : M / 4 * 4 + (M - M / 4 * 4) = M := by omega
    rw [hend] at hb
    exact ⟨hb.length, fun r hr => (hb.holds r hr).congr fun j _ => if_pos hr⟩

end Groups

end ReadersSpeech.Pyannet
