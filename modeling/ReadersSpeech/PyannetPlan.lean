import ReadersSpeech.PyannetLoad
import ReadersSpeech.PyannetRun

/-! The numbers `pyannet_run` computes before it asks for memory: what they are where no `int`
overflows, and, for the shipped network, that none does.
-/

set_option autoImplicit false

namespace ReadersSpeech.Pyannet
open Cells PyannetFile

/-- What the sinc layer and the pooling after it depend on. -/
structure Grid where
  C : ℕ
  K : ℕ
  S : ℕ
  pool : ℕ
  n : ℕ

namespace Grid
variable (g : Grid)

def l1 : ℕ := (g.n - g.K) / g.S + 1

def p1 : ℕ := (g.l1 - g.pool) / g.pool + 1

def l1Pad : ℕ := (g.l1 + tile - 1) / tile * tile

def phaseLen : ℕ := g.l1Pad + g.K / g.S + 1

theorem l1_le : g.l1 ≤ g.l1Pad := by
  unfold l1Pad tile
  omega

theorem l1Pad_mod : g.l1Pad % tile = 0 := Nat.mul_mod_left _ _

theorem l1Pad_lt : g.l1Pad + g.K / g.S < g.phaseLen := Nat.lt_succ_self _

variable {g}

/-- The last sample a column needs is in the waveform. -/
theorem sample_lt (hS : 0 < g.S) (hn : g.K ≤ g.n) {t k : ℕ} (ht : t < g.l1) (hk : k < g.K) :
    g.S * t + k < g.n := by
  have hle : t ≤ (g.n - g.K) / g.S := Nat.lt_succ_iff.mp ht
  have hmul := (Nat.le_div_iff_mul_le hS).mp hle
  rw [Nat.mul_comm] at hmul
  omega

theorem p1_fits (hl : g.pool ≤ g.l1) : g.p1 * g.pool ≤ g.l1 := by
  have hdiv := Nat.div_mul_le_self (g.l1 - g.pool) g.pool
  rw [p1, Nat.succ_mul]
  omega

end Grid

def grid (d : Dims) (n : Int32) : Grid :=
  ⟨nat d.sincC, nat d.sincK, nat d.sincS, nat d.pool, nat n⟩

section Ints

theorem cast_nat {x : Int32} (h : 0 ≤ x.toInt) : (nat x : ℤ) = x.toInt := Int.toNat_of_nonneg h

theorem int_some {x y : ℤ} (h : int x = some y) : y = x ∧ x < 2 ^ 31 := by
  unfold int at h
  split at h
  · rename_i hx
    exact ⟨(Option.some.inj h).symm, hx.2⟩
  · cases h

theorem quotient_some {a b q : ℤ} (ha : 0 ≤ a) (h : quotient a b = some q) : q = a / b := by
  unfold quotient at h
  split at h
  · cases h
  · rw [(int_some h).1, Int.tdiv_eq_ediv_of_nonneg ha]

theorem strided_some {x k s q : ℤ} (hk : k ≤ x) (h : strided x k s = some q) :
    q = (x - k) / s + 1 ∧ q < 2 ^ 31 := by
  simp only [strided, Option.bind_eq_bind, Option.bind_eq_some_iff] at h
  obtain ⟨a, ha, b, hb, hq⟩ := h
  obtain ⟨rfl, -⟩ := int_some ha
  obtain rfl := quotient_some (by omega) hb
  obtain ⟨rfl, hlt⟩ := int_some hq
  exact ⟨rfl, hlt⟩

theorem padded_some {l q : ℤ} (hl : 0 ≤ l) (h : padded l = some q) :
    q = (l + 16 - 1) / 16 * 16 ∧ q < 2 ^ 31 := by
  simp only [padded, tile, Option.bind_eq_bind, Option.bind_eq_some_iff] at h
  obtain ⟨a, ha, b, hb, c, hc, hq⟩ := h
  obtain ⟨rfl, -⟩ := int_some ha
  obtain ⟨rfl, -⟩ := int_some hb
  obtain rfl := quotient_some (by push_cast; omega) hc
  obtain ⟨rfl, hlt⟩ := int_some hq
  exact ⟨rfl, hlt⟩

theorem size_toNat {x : ℤ} (h : 0 ≤ x) (h' : x < 2 ^ 64) : (size x).toNat = x.toNat := by
  have hx : ((x.toNat : ℕ) : ℤ) = x := Int.toNat_of_nonneg h
  rw [← hx, size, BitVec.ofInt_natCast, BitVec.toNat_ofNat, Int.toNat_natCast]
  exact Nat.mod_eq_of_lt (by omega)

/-- A product of two counts does not leave 64 bits. -/
theorem size_mul_toNat {a b : ℤ} (ha : 0 ≤ a) (ha' : a < 2 ^ 31) (hb : 0 ≤ b) (hb' : b < 2 ^ 31) :
    (size a * size b).toNat = a.toNat * b.toNat := by
  have hab : a * b < 2 ^ 64 := by
    have h := mul_lt_mul'' ha' hb' ha hb
    omega
  rw [← size_mul, size_toNat (Int.mul_nonneg ha hb) hab, Int.toNat_mul ha hb]

end Ints

/-- Where `lengths` does not return -1, the first two are these. -/
theorem lengths_front {d : Dims} {n : ℤ} {s : Lens} (hs : lengths d n = some (some s)) :
    d.sincK.toInt ≤ n ∧ strided n d.sincK.toInt d.sincS.toInt = some s.l1 ∧
      d.pool.toInt ≤ s.l1 ∧ strided s.l1 d.pool.toInt d.pool.toInt = some s.p1 := by
  unfold lengths at hs
  by_cases h₀ : n < d.sincK.toInt
  · rw [if_pos h₀] at hs
    cases hs
  rw [if_neg h₀] at hs
  obtain ⟨l1, hl1, hs⟩ := Option.bind_eq_some_iff.mp hs
  by_cases h₁ : l1 < d.pool.toInt
  · rw [if_pos h₁] at hs
    cases hs
  rw [if_neg h₁] at hs
  obtain ⟨p1, hp1, hs⟩ := Option.bind_eq_some_iff.mp hs
  obtain ⟨l2, -, hs⟩ := Option.bind_eq_some_iff.mp hs
  by_cases h₂ : l2 < d.pool.toInt
  · rw [if_pos h₂] at hs
    cases hs
  rw [if_neg h₂] at hs
  obtain ⟨p2, -, hs⟩ := Option.bind_eq_some_iff.mp hs
  obtain ⟨l3, -, hs⟩ := Option.bind_eq_some_iff.mp hs
  by_cases h₃ : l3 < d.pool.toInt
  · rw [if_pos h₃] at hs
    cases hs
  rw [if_neg h₃] at hs
  obtain ⟨f, -, hs⟩ := Option.bind_eq_some_iff.mp hs
  by_cases hf : 0 < f
  · rw [if_pos hf] at hs
    cases hs
    exact ⟨Int.not_lt.mp h₀, hl1, Int.not_lt.mp h₁, hp1⟩
  · rw [if_neg hf] at hs
    cases hs

section Numbers
variable {d : Dims} {n : Int32} {s : Lens}

theorem grid_lens (hK : 1 ≤ d.sincK.toInt) (hS : 1 ≤ d.sincS.toInt) (hP : 1 ≤ d.pool.toInt)
    (hs : lengths d n.toInt = some (some s)) :
    (grid d n).K ≤ (grid d n).n ∧ s.l1 = (grid d n).l1 ∧ (grid d n).pool ≤ (grid d n).l1 ∧
      s.p1 = (grid d n).p1 := by
  obtain ⟨hn, hl1, hpool, hp1⟩ := lengths_front hs
  have hKc : ((grid d n).K : ℤ) = d.sincK.toInt := cast_nat (by omega)
  have hSc : ((grid d n).S : ℤ) = d.sincS.toInt := cast_nat (by omega)
  have hPc : ((grid d n).pool : ℤ) = d.pool.toInt := cast_nat (by omega)
  have hnc : ((grid d n).n : ℤ) = n.toInt := cast_nat (by omega)
  have hKn : (grid d n).K ≤ (grid d n).n := by omega
  have hcast : s.l1 = (grid d n).l1 := by
    rw [(strided_some hn hl1).1, Grid.l1]
    push_cast [Nat.cast_sub hKn]
    rw [hKc, hSc, hnc]
  have hpl : (grid d n).pool ≤ (grid d n).l1 := by omega
  refine ⟨hKn, hcast, hpl, ?_⟩
  rw [(strided_some hpool hp1).1, Grid.p1]
  push_cast [Nat.cast_sub hpl]
  rw [hcast, hPc]

/-- Where the size computation does not overflow, this is what it gives the sinc layer. -/
theorem grid_plan {p : Plan} (hC : 1 ≤ d.sincC.toInt) (hK : 1 ≤ d.sincK.toInt)
    (hS : 1 ≤ d.sincS.toInt) (hl1 : s.l1 = (grid d n).l1) (hp : plan d s n.toInt = some p) :
    p.l1Pad = (grid d n).l1Pad ∧ p.phaseLen = (grid d n).phaseLen ∧
      p.xp.toNat = (grid d n).S * (grid d n).phaseLen ∧
      p.c1.toNat = (grid d n).C * (grid d n).l1Pad ∧ (grid d n).K ≤ p.nRows.toNat := by
  simp only [plan, Option.bind_eq_bind, Option.bind_eq_some_iff] at hp
  obtain ⟨G, -, l1Pad, hl1Pad, q, hq, a, ha, phaseLen, hphase, twoH, -, hp⟩ := hp
  cases hp
  obtain ⟨hpad, hpad'⟩ := padded_some (by omega) hl1Pad
  obtain rfl := quotient_some (by omega) hq
  obtain ⟨rfl, -⟩ := int_some ha
  obtain ⟨rfl, hlen⟩ := int_some hphase
  have hCc : ((grid d n).C : ℤ) = d.sincC.toInt := cast_nat (by omega)
  have hKc : ((grid d n).K : ℤ) = d.sincK.toInt := cast_nat (by omega)
  have hSc : ((grid d n).S : ℤ) = d.sincS.toInt := cast_nat (by omega)
  have hq' : 0 ≤ d.sincK.toInt / d.sincS.toInt := Int.ediv_nonneg (by omega) (by omega)
  have hpadc : l1Pad = (grid d n).l1Pad := by
    rw [hpad, hl1, Grid.l1Pad, tile]
    omega
  have hlenc : l1Pad + d.sincK.toInt / d.sincS.toInt + 1 = (grid d n).phaseLen := by
    rw [hpadc, Grid.phaseLen]
    push_cast
    rw [hKc, hSc]
  refine ⟨hpadc, hlenc, ?_, ?_, ?_⟩
  · have h := size_mul_toNat (a := d.sincS.toInt) (by omega) d.sincS.toInt_lt
      (b := l1Pad + d.sincK.toInt / d.sincS.toInt + 1) (by omega) (by omega)
    rw [h, hlenc, Int.toNat_natCast]
    rfl
  · have h := size_mul_toNat (a := d.sincC.toInt) (by omega) d.sincC.toInt_lt (b := l1Pad) (by omega)
      hpad'
    rw [h, hpadc, Int.toNat_natCast]
    rfl
  · change nat d.sincK ≤ Int.toNat (if _ then _ else _)
    split
    · exact le_refl _
    · exact Int.toNat_le_toNat (by omega)

end Numbers

end ReadersSpeech.Pyannet
