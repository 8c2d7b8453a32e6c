import Mathlib.Algebra.Group.Int.Defs
import Mathlib.Algebra.Group.Nat.Defs
import Mathlib.Data.List.Basic
import Mathlib.Order.Lattice

/-! Integers and arrays of the JVM: when an `int` or a `long` operation is the one on integers,
arrays whose size is an `int`, checked reads, and a loop that reads one element a turn.
-/

set_option autoImplicit false

namespace ReadersSpeech.Jvm

/-- Why a call ended with an exception: an index outside its array, or a callback that failed. -/
inductive Fault where
  | outOfBounds
  | failed
  deriving DecidableEq, Repr

structure JArray (α : Type) where
  data : List α
  size_lt : data.length < 2 ^ 31

variable {α β : Type}

def size (xs : List α) : Int32 := Int32.ofNat xs.length

def get (xs : List α) (i : Int) : Except Fault α :=
  if 0 ≤ i then
    match xs[i.toNat]? with
    | some x => .ok x
    | none => .error .outOfBounds
  else .error .outOfBounds

/-- The values of `first until last`. -/
def untilRange (first last : Int32) : List Int32 :=
  (List.range (last.toInt - first.toInt).toNat).map fun i : Nat => Int32.ofInt (first.toInt + i)

def turn (step : β → α → β) (xs : List α) (acc : β) (i : Int32) : Except Fault β := do
  return step acc (← get xs i.toInt)

section Integers

theorem toInt_add {a b : Int32} (h : -2 ^ 31 ≤ a.toInt + b.toInt)
    (h' : a.toInt + b.toInt < 2 ^ 31) :
    (a + b).toInt = a.toInt + b.toInt := by
  rw [Int32.toInt_add]
  exact Int.bmod_eq_of_le (by omega) (by omega)

/-- A sum that does not fit wraps below 0. -/
theorem toInt_add_neg {a b : Int32} (h : 2 ^ 31 ≤ a.toInt + b.toInt) : (a + b).toInt < 0 := by
  have ha := a.toInt_lt
  have hb := b.toInt_lt
  rw [Int32.toInt_add, Int.bmod_def]
  split <;> omega

theorem toInt_sub {a b : Int32} (h : -2 ^ 31 ≤ a.toInt - b.toInt)
    (h' : a.toInt - b.toInt < 2 ^ 31) :
    (a - b).toInt = a.toInt - b.toInt := by
  rw [Int32.toInt_sub]
  exact Int.bmod_eq_of_le (by omega) (by omega)

theorem toInt_max (a b : Int32) : (max a b).toInt = max a.toInt b.toInt := by
  by_cases h : a ≤ b
  · have hm : max a b = b := if_pos h
    rw [hm, max_eq_right (Int32.le_iff_toInt_le.mp h)]
  · have hm : max a b = a := if_neg h
    rw [Int32.le_iff_toInt_le] at h
    rw [hm, max_eq_left (by omega)]

theorem toInt_min (a b : Int32) : (min a b).toInt = min a.toInt b.toInt := by
  by_cases h : a ≤ b
  · have hm : min a b = a := if_pos h
    rw [hm, min_eq_left (Int32.le_iff_toInt_le.mp h)]
  · have hm : min a b = b := if_neg h
    rw [Int32.le_iff_toInt_le] at h
    rw [hm, min_eq_right (by omega)]

theorem toInt64_scaled {s n d : Int32} (hs : 0 ≤ s.toInt) (hn : 0 ≤ n.toInt) (hd : 0 < d.toInt) :
    (s.toInt64 * n.toInt64 / d.toInt64).toInt = s.toInt * n.toInt / d.toInt := by
  have hm : (s.toInt64 * n.toInt64).toInt = s.toInt * n.toInt := by
    have h₁ : s.toInt * n.toInt ≤ 2 ^ 31 * n.toInt :=
      Int.mul_le_mul_of_nonneg_right (by have := s.toInt_lt; omega) hn
    have h₂ := n.toInt_lt
    have h₃ := Int.mul_nonneg hs hn
    rw [Int64.toInt_mul, Int32.toInt_toInt64, Int32.toInt_toInt64]
    exact Int.bmod_eq_of_le (by omega) (by omega)
  have hne : d.toInt64 ≠ -1 := by
    intro h
    have hi := congrArg Int64.toInt h
    rw [Int32.toInt_toInt64] at hi
    have hneg : (-1 : Int64).toInt = -1 := by decide
    omega
  rw [Int64.toInt_div_of_ne_right _ _ hne, hm, Int32.toInt_toInt64,
    Int.tdiv_eq_ediv_of_nonneg (Int.mul_nonneg hs hn)]

theorem toInt_scaled {s n d : Int32} (hs : 0 ≤ s.toInt) (hn : 0 ≤ n.toInt)
    (hq : s.toInt * n.toInt / d.toInt < 2 ^ 31) (hd : 0 < d.toInt) :
    (s.toInt64 * n.toInt64 / d.toInt64).toInt32.toInt = s.toInt * n.toInt / d.toInt := by
  have hpos := Int.ediv_nonneg (Int.mul_nonneg hs hn) hd.le
  rw [Int64.toInt_toInt32, toInt64_scaled hs hn hd]
  exact Int.bmod_eq_of_le (by omega) (by omega)

end Integers

theorem toInt_size {xs : List α} (h : xs.length < 2 ^ 31) : (size xs).toInt = xs.length :=
  Int32.toInt_ofNat_of_lt h

theorem get_ofNat {xs : List α} {i : Nat} (h : i < xs.length) :
    get xs (i : Int) = .ok (xs.get ⟨i, h⟩) := by
  simp [get, h]

theorem mem_untilRange {first last i : Int32} :
    i ∈ untilRange first last ↔ first.toInt ≤ i.toInt ∧ i.toInt < last.toInt := by
  have h₁ := first.le_toInt
  have h₂ := last.toInt_lt
  simp only [untilRange, List.mem_map, List.mem_range]
  constructor
  · rintro ⟨k, hk, rfl⟩
    rw [Int32.toInt_ofInt_of_le (by omega) (by omega)]
    omega
  · rintro ⟨hle, hlt⟩
    refine ⟨(i.toInt - first.toInt).toNat, by omega, Int32.toInt_inj.mp ?_⟩
    rw [Int32.toInt_ofInt_of_le (by omega) (by omega)]
    omega

theorem foldlM_turn (step : β → α → β) (init : β) {xs : List α} {first : Int32} (start n : Nat)
    (hfirst : first.toInt = start) (h : start + n ≤ xs.length) (hn : start + n < 2 ^ 31) :
    ((List.range n).map fun i : Nat => Int32.ofInt (first.toInt + i)).foldlM (turn step xs) init =
      .ok (((xs.drop start).take n).foldl step init) := by
  induction n with
  | zero => rfl
  | succ n ih =>
    have hx : start + n < xs.length := by omega
    have hdrop : (xs.drop start)[n]? = some (xs.get ⟨start + n, hx⟩) := by simp [hx]
    have hindex : (Int32.ofInt (first.toInt + n)).toInt = (start + n : Nat) := by
      rw [Int32.toInt_ofInt_of_le (by omega) (by omega)]
      omega
    have hturn : ∀ acc, turn step xs acc (Int32.ofInt (first.toInt + n)) =
        .ok (step acc (xs.get ⟨start + n, hx⟩)) := by
      intro acc
      rw [turn, hindex, get_ofNat hx]
      rfl
    rw [List.range_succ, List.map_append, List.foldlM_append, ih (by omega) (by omega),
      List.take_add_one, hdrop, List.foldl_append]
    change turn step xs _ (Int32.ofInt (first.toInt + n)) >>= _ = _
    rw [hturn]
    rfl

/-- The loop reads the elements from `first` up to `last`, and nothing else. -/
theorem foldlM_untilRange (step : β → α → β) (init : β) (xs : List α) (first last : Int32)
    (h₀ : 0 ≤ first.toInt) (h : last.toInt ≤ xs.length) :
    (untilRange first last).foldlM (turn step xs) init =
      .ok (((xs.take last.toInt.toNat).drop first.toInt.toNat).foldl step init) := by
  have hlast := last.toInt_lt
  have hfirst := first.toInt_lt
  by_cases hlt : first.toInt ≤ last.toInt
  · rw [untilRange, foldlM_turn step init first.toInt.toNat _ (by omega) (by omega) (by omega),
      List.drop_take]
    congr 4
    omega
  · have hn : (last.toInt - first.toInt).toNat = 0 := by omega
    rw [untilRange, hn, List.drop_eq_nil_of_le]
    · rfl
    · rw [List.length_take]
      omega

theorem mapM_ok {f : α → Except Fault β} {g : α → β} {xs : List α} (h : ∀ x ∈ xs, f x = .ok (g x)) :
    xs.mapM f = .ok (xs.map g) := by
  induction xs with
  | nil => rfl
  | cons x xs ih =>
    rw [List.mapM_cons, h x (by simp), ih (fun y hy => h y (List.mem_cons_of_mem x hy))]
    rfl

end ReadersSpeech.Jvm
