import Mathlib.Algebra.BigOperators.Group.List.Basic

/-! Arrays with any number of axes, read by a list of indices, one an axis. Views of an array read
it at other indices; only its copy in a row has an order of cells, the last index fastest.
-/

set_option autoImplicit false

namespace ReadersSpeech

structure NdArray (α : Type) where
  shape : List ℕ
  get : List ℕ → α

namespace NdArray

variable {α β : Type}

/-- The array at the index `i` of the first axis. -/
def select (a : NdArray α) (i : ℕ) : NdArray α := ⟨a.shape.tail, fun ix => a.get (i :: ix)⟩

/-- The array at the index `j` of the second axis. -/
def selectSecond (a : NdArray α) (j : ℕ) : NdArray α where
  shape := a.shape.head?.toList ++ a.shape.tail.tail
  get ix := a.get (ix.head?.toList ++ j :: ix.tail)

/-- The indices from `lo` to `hi` of the first axis, as many of them as there are. -/
def slice (a : NdArray α) (lo hi : ℕ) : NdArray α where
  shape := a.shape.head?.toList.map (fun n => min hi n - lo) ++ a.shape.tail
  get ix := a.get (ix.head?.toList.map (lo + ·) ++ ix.tail)

def transpose (a : NdArray α) : NdArray α := ⟨a.shape.reverse, fun ix => a.get ix.reverse⟩

def zipWith (f : α → α → β) (a b : NdArray α) : NdArray β where
  shape := a.shape
  get ix := f (a.get ix) (b.get ix)

def constant (shape : List ℕ) (v : α) : NdArray α := ⟨shape, fun _ => v⟩

/-- The indices of a shape, in the order of the cells in a row. -/
def indices : List ℕ → List (List ℕ)
  | [] => [[]]
  | n :: s => (List.range n).flatMap fun i => (indices s).map (i :: ·)

def flat (a : NdArray α) : List α := (indices a.shape).map a.get

/-- Where the cell of an index is in the row. -/
def offset : List ℕ → List ℕ → ℕ
  | _ :: s, i :: ix => i * s.prod + offset s ix
  | _, _ => 0

/-- One index an axis, each below the size of the axis. -/
abbrev Within (ix s : List ℕ) : Prop := List.Forall₂ (· < ·) ix s

theorem length_indices (s : List ℕ) : (indices s).length = s.prod := by
  induction s with
  | nil => rfl
  | cons n s ih => simp [indices, List.length_flatMap, ih]

@[simp] theorem length_flat (a : NdArray α) : a.flat.length = a.shape.prod := by
  rw [flat, List.length_map, length_indices]

theorem offset_lt {ix s : List ℕ} (h : Within ix s) : offset s ix < s.prod := by
  induction h with
  | nil => exact Nat.one_pos
  | @cons i n ix s hi _ ih =>
    rw [offset, List.prod_cons]
    calc i * s.prod + offset s ix < i * s.prod + s.prod := by omega
      _ = (i + 1) * s.prod := by rw [Nat.add_mul, Nat.one_mul]
      _ ≤ n * s.prod := Nat.mul_le_mul_right _ hi

theorem getElem_flatMap_range {f : ℕ → List β} {m : ℕ} (hf : ∀ i, (f i).length = m) {n i r : ℕ}
    (hi : i < n) (hr : r < m) : ((List.range n).flatMap f)[i * m + r]? = (f i)[r]? := by
  induction n with
  | zero => omega
  | succ n ih =>
    have hlen : ((List.range n).flatMap f).length = n * m := by simp [List.length_flatMap, hf]
    rw [List.range_succ, List.flatMap_append, List.flatMap_singleton]
    by_cases hlt : i < n
    · have hle : (i + 1) * m ≤ n * m := Nat.mul_le_mul_right m hlt
      rw [Nat.add_mul, Nat.one_mul] at hle
      rw [List.getElem?_append_left (by omega), ih hlt]
    · obtain rfl : i = n := by omega
      rw [List.getElem?_append_right (by omega), hlen, Nat.add_sub_cancel_left]

theorem getElem_indices {ix s : List ℕ} (h : Within ix s) :
    (indices s)[offset s ix]? = some ix := by
  induction h with
  | nil => rfl
  | @cons i n ix s hi hix ih =>
    rw [indices, offset, getElem_flatMap_range (fun i => by rw [List.length_map, length_indices]) hi
      (offset_lt hix), List.getElem?_map, ih]
    rfl

theorem getElem_flat {a : NdArray α} {ix : List ℕ} (h : Within ix a.shape) :
    a.flat[offset a.shape ix]? = some (a.get ix) := by
  rw [flat, List.getElem?_map, getElem_indices h]
  rfl

end NdArray

end ReadersSpeech
