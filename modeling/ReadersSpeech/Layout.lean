import Mathlib.Algebra.Order.BigOperators.Group.List
import Mathlib.Algebra.Ring.Int.Defs
import Mathlib.Logic.Function.Basic

/-! Pieces laid one after another in a block. A piece is found again by where it starts, and where
it starts is kept under its key, as an offset that may wrap around.
-/

set_option autoImplicit false

namespace ReadersSpeech.Layout

variable {κ α : Type} {w : Nat}

/-- The pieces have lengths, and lie without gap or overlap from `start` to `stop`. -/
def Consecutive (place : κ → Option Nat) : Int → List (κ × Int) → Int → Prop
  | start, [], stop => start = stop
  | start, (k, n) :: rest, stop =>
    (∃ o : Nat, place k = some o ∧ (o : Int) = start) ∧ 0 ≤ n ∧
      Consecutive place (start + n) rest stop

theorem Consecutive.stop {place : κ → Option Nat} {start stop : Int} {ks : List (κ × Int)}
    (h : Consecutive place start ks stop) : stop = start + (ks.map Prod.snd).sum := by
  induction ks generalizing start with
  | nil => simpa [Consecutive] using h.symm
  | cons k ks ih =>
    obtain ⟨-, -, h⟩ := h
    rw [ih h, List.map_cons, List.sum_cons]
    omega

/-- No piece begins before the start or ends behind the stop. -/
theorem Consecutive.within {place : κ → Option Nat} {start stop : Int} {ks : List (κ × Int)}
    (h : Consecutive place start ks stop) :
    start ≤ stop ∧ ∀ k ∈ ks, ∃ o : Nat, place k.1 = some o ∧ start ≤ o ∧ o + k.2 ≤ stop := by
  induction ks generalizing start with
  | nil => exact ⟨h.le, by simp⟩
  | cons k ks ih =>
    obtain ⟨⟨o, ho, hstart⟩, hk, h⟩ := h
    obtain ⟨hle, hrest⟩ := ih h
    refine ⟨by omega, List.forall_mem_cons.mpr ⟨⟨o, ho, by omega, by omega⟩, fun k' hk' => ?_⟩⟩
    obtain ⟨o', ho', hstart', hstop'⟩ := hrest k' hk'
    exact ⟨o', ho', by omega, hstop'⟩

/-- Each piece is read back from the block that holds them all. -/
theorem Consecutive.slice {place : κ → Option Nat} {stop : Int} {ks : List (κ × Int)}
    (piece : κ → List α) (pre : List α) (h : Consecutive place pre.length ks stop)
    (hlen : ∀ k ∈ ks, ((piece k.1).length : Int) = k.2) :
    ∀ k ∈ ks, ∃ o, place k.1 = some o ∧
      ((pre ++ ks.flatMap fun k => piece k.1).drop o).take k.2.toNat = piece k.1 := by
  induction ks generalizing pre with
  | nil => simp
  | cons k ks ih =>
    obtain ⟨⟨o, ho, hpre⟩, -, h⟩ := h
    have hk := hlen k (by simp)
    intro k' hk'
    rcases List.mem_cons.mp hk' with rfl | hk'
    · obtain rfl : o = pre.length := by omega
      refine ⟨_, ho, ?_⟩
      rw [List.drop_left, ← hk, Int.toNat_natCast, List.flatMap_cons, List.take_left]
    · have h' : Consecutive place (pre ++ piece k.1).length ks stop := by
        rw [List.length_append, Int.natCast_add, hk]
        exact h
      obtain ⟨o', ho', hs⟩ := ih (pre ++ piece k.1) h' (fun k hk => hlen k (by simp [hk])) k' hk'
      exact ⟨o', ho', by rw [List.flatMap_cons, ← List.append_assoc]; exact hs⟩

variable [DecidableEq κ]

/-- One more piece is placed where the last one ended. -/
def placeNext (s : (κ → Option (BitVec w)) × BitVec w) (t : κ × BitVec w) :
    (κ → Option (BitVec w)) × BitVec w :=
  (Function.update s.1 t.1 (some s.2), s.2 + t.2)

theorem placed_frame (s : (κ → Option (BitVec w)) × BitVec w) (ts : List (κ × BitVec w)) (k : κ)
    (hk : k ∉ ts.map Prod.fst) : (ts.foldl placeNext s).1 k = s.1 k := by
  induction ts generalizing s with
  | nil => rfl
  | cons t ts ih =>
    simp only [List.map_cons, List.mem_cons, not_or] at hk
    rw [List.foldl_cons, ih _ hk.2]
    exact Function.update_of_ne hk.1 _ _

/-- Lengths that fit the width are placed one after another. -/
theorem placed_consecutive (s : (κ → Option (BitVec w)) × BitVec w) (ks : List (κ × Int))
    (hnd : (ks.map Prod.fst).Nodup) (hpos : ∀ k ∈ ks, 0 ≤ k.2)
    (hfit : (s.2.toNat : Int) + (ks.map Prod.snd).sum < 2 ^ w) :
    Consecutive (fun k => (((ks.map fun k => (k.1, BitVec.ofInt w k.2)).foldl placeNext s).1 k).map
        BitVec.toNat) s.2.toNat ks (s.2.toNat + (ks.map Prod.snd).sum) := by
  induction ks generalizing s with
  | nil => simp [Consecutive]
  | cons k ks ih =>
    obtain ⟨k, n⟩ := k
    simp only [List.map_cons, List.nodup_cons, List.sum_cons, List.mem_cons,
      forall_eq_or_imp] at hnd hpos hfit ⊢
    have hsum : 0 ≤ (ks.map Prod.snd).sum := by
      refine List.sum_nonneg fun x hx => ?_
      obtain ⟨k, hk, rfl⟩ := List.mem_map.mp hx
      exact hpos.2 k hk
    have hnext : (((placeNext s (k, BitVec.ofInt w n)).2).toNat : Int) = s.2.toNat + n := by
      obtain ⟨m, rfl⟩ := Int.eq_ofNat_of_zero_le hpos.1
      have hlt : s.2.toNat + m < 2 ^ w := by
        have hcast : ((2 ^ w : Nat) : Int) = 2 ^ w := by norm_cast
        omega
      simp only [placeNext, BitVec.ofInt_natCast, BitVec.toNat_add, BitVec.toNat_ofNat,
        Nat.add_mod_mod, Nat.mod_eq_of_lt hlt]
      push_cast
      rfl
    have hih := ih (placeNext s (k, BitVec.ofInt w n)) hnd.2 hpos.2 (by rw [hnext]; omega)
    refine ⟨⟨s.2.toNat, ?_, rfl⟩, hpos.1, ?_⟩
    · have hk : k ∉ (ks.map fun k => (k.1, BitVec.ofInt w k.2)).map Prod.fst := by
        simpa [Function.comp_def] using hnd.1
      simp only [List.foldl_cons, placed_frame _ _ k hk]
      simp [placeNext]
    · rw [hnext, add_assoc] at hih
      exact hih

end ReadersSpeech.Layout
