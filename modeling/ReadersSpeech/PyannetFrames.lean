import Mathlib.Algebra.Group.Int.Defs
import Mathlib.Tactic.Linarith
import Mathlib.Tactic.Ring
import ReadersSpeech.PyannetFile

/-! The lengths through the front end of pyannet.c, and the number of frames they end in. An `int`
that overflows, or is divided by 0, is undefined behaviour: no value.
-/

set_option autoImplicit false

namespace ReadersSpeech.Pyannet
open PyannetFile

/-- The value of an `int` expression. -/
def int (x : ℤ) : Option ℤ := if -2 ^ 31 ≤ x ∧ x < 2 ^ 31 then some x else none

def quotient (a b : ℤ) : Option ℤ := if b = 0 then none else int (a.tdiv b)

/-- `struct lens`. -/
structure Lens where
  l1 : ℤ
  p1 : ℤ
  l2 : ℤ
  p2 : ℤ
  l3 : ℤ
  f : ℤ
  deriving DecidableEq, Repr

/-- `(x - k) / s + 1`. -/
def strided (x k s : ℤ) : Option ℤ := do int ((← quotient (← int (x - k)) s) + 1)

/-- `x - k + 1`. -/
def convolved (x k : ℤ) : Option ℤ := do int ((← int (x - k)) + 1)

/-- The lengths, or nothing inside where the source returns -1. -/
def lengths (m : Dims) (n : ℤ) : Option (Option Lens) := do
  if n < m.sincK.toInt then return none
  let l1 ← strided n m.sincK.toInt m.sincS.toInt
  if l1 < m.pool.toInt then return none
  let p1 ← strided l1 m.pool.toInt m.pool.toInt
  let l2 ← convolved p1 m.k1.toInt
  if l2 < m.pool.toInt then return none
  let p2 ← strided l2 m.pool.toInt m.pool.toInt
  let l3 ← convolved p2 m.k2.toInt
  if l3 < m.pool.toInt then return none
  let f ← strided l3 m.pool.toInt m.pool.toInt
  return if 0 < f then some ⟨l1, p1, l2, p2, l3, f⟩ else none

def pyannetFrames (m : Option Dims) (n : Int32) : Option ℤ :=
  match m with
  | none => some 0
  | some m => do
    match ← lengths m n.toInt with
    | some s => return s.f
    | none => return 0

/-- What tools/export-pyannet.py writes for segmentation-3.0. -/
def shipped : Dims := ⟨80, 251, 10, 60, 5, 60, 5, 3, 4, 128, 128, 128, 7⟩

theorem int_eq {x : ℤ} (h : -2 ^ 31 ≤ x) (h' : x < 2 ^ 31) : int x = some x := if_pos ⟨h, h'⟩

theorem strided_eq {x k s : ℤ} (hk : 1 ≤ k) (hx : k ≤ x) (hx' : x < 2 ^ 31) (hs : 1 ≤ s) :
    strided x k s = some ((x - k) / s + 1) := by
  have hq : (x - k) / s ≤ x - k := Int.ediv_le_self _ (by omega)
  have hq' : 0 ≤ (x - k) / s := Int.ediv_nonneg (by omega) (by omega)
  have hd : quotient (x - k) s = some ((x - k) / s) := by
    rw [quotient, if_neg (by omega), Int.tdiv_eq_ediv_of_nonneg (by omega),
      int_eq (by omega) (by omega)]
  rw [strided, int_eq (by omega) (by omega)]
  change (quotient (x - k) s >>= fun q => int (q + 1)) = _
  rw [hd]
  exact int_eq (by omega) (by omega)

theorem convolved_eq {x k : ℤ} (hx : 0 ≤ x) (hx' : x < 2 ^ 31) (hk : 1 ≤ k) (hk' : k < 2 ^ 31) :
    convolved x k = some (x - k + 1) := by
  rw [convolved, int_eq (by omega) (by omega)]
  exact int_eq (by omega) (by omega)

section Closed
variable (m : Dims) (n : ℤ)

/-- The samples one frame sees. -/
def reach : ℤ := m.sincK.toInt + m.sincS.toInt * (m.pool.toInt ^ 3 +
  m.pool.toInt ^ 2 * (m.k2.toInt - 1) + m.pool.toInt * (m.k1.toInt - 1) - 1)

/-- The samples from one frame to the next. -/
def hop : ℤ := m.sincS.toInt * m.pool.toInt ^ 3

/-- The lengths with no early exit: each stage rounds down. -/
def lens : Lens :=
  let l1 := (n - m.sincK.toInt) / m.sincS.toInt + 1
  let p1 := l1 / m.pool.toInt
  let l2 := p1 - m.k1.toInt + 1
  let p2 := l2 / m.pool.toInt
  let l3 := p2 - m.k2.toInt + 1
  ⟨l1, p1, l2, p2, l3, l3 / m.pool.toInt⟩

/-- The sizes `pyannet_load` and the exporter do not let below 1. -/
structure Positive : Prop where
  sincK : 1 ≤ m.sincK.toInt
  sincS : 1 ≤ m.sincS.toInt
  k1 : 1 ≤ m.k1.toInt
  k2 : 1 ≤ m.k2.toInt
  pool : 1 ≤ m.pool.toInt

instance : Decidable (Positive m) :=
  decidable_of_iff (1 ≤ m.sincK.toInt ∧ 1 ≤ m.sincS.toInt ∧ 1 ≤ m.k1.toInt ∧ 1 ≤ m.k2.toInt ∧
    1 ≤ m.pool.toInt) ⟨fun ⟨a, b, c, d, e⟩ => ⟨a, b, c, d, e⟩, fun ⟨a, b, c, d, e⟩ => ⟨a, b, c, d, e⟩⟩

end Closed

theorem pooled_eq {l p : ℤ} (hp : 1 ≤ p) : (l - p) / p + 1 = l / p := by
  have h := Int.sub_mul_ediv_right l 1 (show p ≠ 0 by omega)
  rw [one_mul] at h
  omega

theorem pool_eq {l p : ℤ} (hp : 1 ≤ p) (hl : p ≤ l) (hl' : l < 2 ^ 31) :
    strided l p p = some (l / p) := by rw [strided_eq hp hl hl' hp, pooled_eq hp]

theorem le_of_pos_ediv {x p : ℤ} (hp : 1 ≤ p) (h : 1 ≤ x / p) : p ≤ x := by
  have h₁ := Int.mul_le_mul_of_nonneg_right h (show (0 : ℤ) ≤ p by omega)
  have h₂ := Int.ediv_mul_le x (show p ≠ 0 by omega)
  omega

theorem pool_bounds {l p : ℤ} (hp : 1 ≤ p) (hl : 0 ≤ l) : 0 ≤ l / p ∧ l / p ≤ l :=
  ⟨Int.ediv_nonneg hl (by omega), Int.ediv_le_self p hl⟩

/-- A length that gets by one exit got by the exits before it. -/
structure Chain (m : Dims) (n : ℤ) : Prop where
  l2 : m.pool.toInt ≤ (lens m n).l3 → m.pool.toInt ≤ (lens m n).l2
  l1 : m.pool.toInt ≤ (lens m n).l2 → m.pool.toInt ≤ (lens m n).l1
  n : m.pool.toInt ≤ (lens m n).l1 → m.sincK.toInt ≤ n

theorem chain {m : Dims} (hm : Positive m) (n : ℤ) : Chain m n := by
  obtain ⟨hK, hS, h₁, h₂, hP⟩ := hm
  refine ⟨fun h => ?_, fun h => ?_, fun h => ?_⟩
  · have hl : (lens m n).l3 = (lens m n).l2 / m.pool.toInt - m.k2.toInt + 1 := rfl
    exact le_of_pos_ediv hP (by omega)
  · have hl : (lens m n).l2 = (lens m n).l1 / m.pool.toInt - m.k1.toInt + 1 := rfl
    exact le_of_pos_ediv hP (by omega)
  · have hl : (lens m n).l1 = (n - m.sincK.toInt) / m.sincS.toInt + 1 := rfl
    by_contra hn
    have hneg : (n - m.sincK.toInt) / m.sincS.toInt < 0 := Int.ediv_neg_of_neg_of_pos (by omega) hS
    omega

/-- The exits before the last refuse no length that the last lets by. -/
theorem lengths_eq {m : Dims} (hm : Positive m) {n : ℤ} (hn : n < 2 ^ 31) :
    lengths m n = some (if m.pool.toInt ≤ (lens m n).l3 then some (lens m n) else none) := by
  obtain ⟨hback₂, hback₁, hback₀⟩ := chain hm n
  obtain ⟨hK, hS, h₁, h₂, hP⟩ := hm
  have hk₁ := m.k1.toInt_lt
  have hk₂ := m.k2.toInt_lt
  unfold lengths
  by_cases h₀ : n < m.sincK.toInt
  · rw [if_pos h₀, if_neg (by omega)]
    rfl
  have hl₁ : strided n m.sincK.toInt m.sincS.toInt = some (lens m n).l1 :=
    strided_eq hK (by omega) hn hS
  have hlt : (lens m n).l1 ≤ n := by
    have hq : (n - m.sincK.toInt) / m.sincS.toInt ≤ n - m.sincK.toInt := Int.ediv_le_self _ (by omega)
    have hl : (lens m n).l1 = (n - m.sincK.toInt) / m.sincS.toInt + 1 := rfl
    omega
  simp only [if_neg h₀, hl₁, Option.bind_eq_bind, Option.bind_some]
  by_cases hp₁ : (lens m n).l1 < m.pool.toInt
  · rw [if_pos hp₁, if_neg (by omega)]
    rfl
  have hq₁ : strided (lens m n).l1 m.pool.toInt m.pool.toInt = some (lens m n).p1 :=
    pool_eq hP (by omega) (by omega)
  have hr₁ := pool_bounds hP (show 0 ≤ (lens m n).l1 by omega)
  have hl₂ : convolved (lens m n).p1 m.k1.toInt = some (lens m n).l2 :=
    convolved_eq hr₁.1 (hr₁.2.trans_lt (by omega)) h₁ hk₁
  have heq₂ : (lens m n).l2 = (lens m n).l1 / m.pool.toInt - m.k1.toInt + 1 := rfl
  simp only [if_neg hp₁, hq₁, hl₂, Option.bind_some]
  by_cases hp₂ : (lens m n).l2 < m.pool.toInt
  · rw [if_pos hp₂, if_neg (by omega)]
    rfl
  have hq₂ : strided (lens m n).l2 m.pool.toInt m.pool.toInt = some (lens m n).p2 :=
    pool_eq hP (by omega) (by omega)
  have hr₂ := pool_bounds hP (show 0 ≤ (lens m n).l2 by omega)
  have hl₃ : convolved (lens m n).p2 m.k2.toInt = some (lens m n).l3 :=
    convolved_eq hr₂.1 (hr₂.2.trans_lt (by omega)) h₂ hk₂
  have heq₃ : (lens m n).l3 = (lens m n).l2 / m.pool.toInt - m.k2.toInt + 1 := rfl
  simp only [if_neg hp₂, hq₂, hl₃, Option.bind_some]
  by_cases hp₃ : (lens m n).l3 < m.pool.toInt
  · rw [if_pos hp₃, if_neg (by omega)]
    rfl
  have hq₃ : strided (lens m n).l3 m.pool.toInt m.pool.toInt = some (lens m n).f :=
    pool_eq hP (by omega) (by omega)
  have hf : 0 < (lens m n).f := by
    have h := Int.ediv_le_ediv hP (show m.pool.toInt ≤ (lens m n).l3 by omega)
    rw [Int.ediv_self (by omega)] at h
    exact h
  simp only [if_neg hp₃, hq₃, Option.bind_some, if_pos hf, if_pos (Int.not_lt.mp hp₃)]
  rfl

theorem reach_eq (m : Dims) : reach m = hop m + m.sincK.toInt - m.sincS.toInt +
    (m.k1.toInt - 1) * (m.sincS.toInt * m.pool.toInt) +
    (m.k2.toInt - 1) * (m.sincS.toInt * m.pool.toInt * m.pool.toInt) := by
  unfold reach hop
  ring

theorem hop_pos {m : Dims} (hm : Positive m) : 0 < hop m :=
  mul_pos (by have := hm.sincS; omega) (pow_pos (by have := hm.pool; omega) 3)

theorem ediv_sub {x d c : ℤ} (hd : d ≠ 0) : x / d - c = (x - c * d) / d :=
  (Int.sub_mul_ediv_right x c hd).symm

/-- The four roundings are one. -/
theorem lens_f {m : Dims} (hm : Positive m) (n : ℤ) :
    (lens m n).f = (n - reach m) / hop m + 1 := by
  obtain ⟨hK, hS, h₁, h₂, hP⟩ := hm
  have hl₁ : (lens m n).l1 = (n - m.sincK.toInt + m.sincS.toInt) / m.sincS.toInt := by
    have h := Int.add_mul_ediv_right (n - m.sincK.toInt) 1 (show m.sincS.toInt ≠ 0 by omega)
    rw [one_mul] at h
    exact h.symm
  have hl₂ : (lens m n).l2 = (lens m n).l1 / m.pool.toInt - (m.k1.toInt - 1) := by
    simp only [lens]
    omega
  have hl₃ : (lens m n).l3 = (lens m n).l2 / m.pool.toInt - (m.k2.toInt - 1) := by
    simp only [lens]
    omega
  have hf : (lens m n).f = (lens m n).l3 / m.pool.toInt := rfl
  have hSP : 0 < m.sincS.toInt * m.pool.toInt := mul_pos (by omega) (by omega)
  have hSPP : 0 < m.sincS.toInt * m.pool.toInt * m.pool.toInt := mul_pos hSP (by omega)
  have hhop : hop m = m.sincS.toInt * m.pool.toInt * m.pool.toInt * m.pool.toInt := by
    unfold hop
    ring
  have hreach := Int.add_mul_ediv_right (n - reach m) 1 (hop_pos ⟨hK, hS, h₁, h₂, hP⟩).ne'
  rw [hf, hl₃, hl₂, hl₁, Int.ediv_ediv_of_nonneg (by omega), ediv_sub hSP.ne',
    Int.ediv_ediv_of_nonneg hSP.le, ediv_sub hSPP.ne', Int.ediv_ediv_of_nonneg hSPP.le, ← hhop,
    ← hreach]
  congr 1
  rw [reach_eq]
  ring

theorem exits_iff {m : Dims} (hm : Positive m) (n : ℤ) :
    m.pool.toInt ≤ (lens m n).l3 ↔ reach m ≤ n := by
  have hP := hm.pool
  have hhop := hop_pos hm
  have hf : (lens m n).l3 / m.pool.toInt = (n - reach m) / hop m + 1 := lens_f hm n
  constructor
  · intro h
    have hone := Int.ediv_le_ediv hP h
    rw [Int.ediv_self (by omega), hf] at hone
    by_contra hlt
    have hneg : (n - reach m) / hop m < 0 := Int.ediv_neg_of_neg_of_pos (by omega) hhop
    omega
  · intro h
    have hpos : 0 ≤ (n - reach m) / hop m := Int.ediv_nonneg (by omega) hhop.le
    exact le_of_pos_ediv hP (by omega)

theorem frames_eq {m : Dims} (hm : Positive m) (n : Int32) :
    pyannetFrames (some m) n =
      some (if n.toInt < reach m then 0 else (n.toInt - reach m) / hop m + 1) := by
  have hexit := exits_iff hm n.toInt
  rw [pyannetFrames, lengths_eq hm n.toInt_lt]
  by_cases hn : n.toInt < reach m
  · rw [if_neg (by omega), if_pos hn]
    rfl
  · rw [if_pos (by omega), if_neg hn, ← lens_f hm]
    rfl

theorem positive_shipped : Positive shipped := by decide

theorem reach_shipped : reach shipped = 991 := by decide

theorem hop_shipped : hop shipped = 270 := by decide

/-- Four roundings and four exits, against one of each. -/
theorem pyannetFrames_closed (m : Dims) (hm : Positive m) (n : Int32) :
    pyannetFrames (some m) n =
        some (if n.toInt < reach m then 0 else (n.toInt - reach m) / hop m + 1) ∧
      (lengths m n.toInt = some none ↔ n.toInt < reach m) ∧
      reach shipped = 991 ∧ hop shipped = 270 := by
  refine ⟨frames_eq hm n, ?_, reach_shipped, hop_shipped⟩
  have hexit := exits_iff hm n.toInt
  rw [lengths_eq hm n.toInt_lt]
  split <;> simp only [Option.some.injEq, reduceCtorEq, true_iff, false_iff] <;> omega

theorem pyannetFrames_closed_window : pyannetFrames (some shipped) 160000 = some 589 := by
  rw [(pyannetFrames_closed shipped (by decide) 160000).1]
  decide

/-- Windows too short for a frame have none; the others one for each whole hop after the first. -/
theorem frames_shipped {n : Int32} (hn : 991 ≤ n.toInt) :
    pyannetFrames (some shipped) n = some ((n.toInt - 991) / 270 + 1) := by
  rw [frames_eq positive_shipped, reach_shipped, hop_shipped, if_neg (by omega)]

end ReadersSpeech.Pyannet
