import Mathlib.Algebra.Order.BigOperators.GroupWithZero.List
import Mathlib.Algebra.Order.Ring.Int
import Mathlib.Data.Int.ModEq
import Mathlib.Data.BitVec
import ReadersSpeech.PyannetFile

/-! Writer against reader, and what the reader lets through. Both rest on the sizes: modulo 2^64,
the total the reader computes is the exact one, whatever the sign of the dimensions.
-/

set_option autoImplicit false

namespace ReadersSpeech.PyannetFile
open Layout Pyannet

/-! ### Sizes -/

@[simp] theorem size_add (a b : Int) : size (a + b) = size a + size b := BitVec.ofInt_add a b

@[simp] theorem size_mul (a b : Int) : size (a * b) = size a * size b := BitVec.ofInt_mul a b

@[simp] theorem size_one : size 1 = 1 := rfl

@[simp] theorem size_two : size 2 = 2 := rfl

theorem size_eq_iff {a b : Int} : size a = size b ↔ a ≡ b [ZMOD 2 ^ 64] := by
  rw [size, size, ← BitVec.toNat_inj]
  simp only [BitVec.toNat_ofInt]
  have ha := Int.emod_nonneg a (by norm_num : (2 ^ 64 : Int) ≠ 0)
  have hb := Int.emod_nonneg b (by norm_num : (2 ^ 64 : Int) ≠ 0)
  unfold Int.ModEq
  norm_num at *
  omega

theorem takes_eq (d : Dims) :
    takes d (gates * d.hidden.toInt) = (lengths d).map fun k => (k.1, size k.2) := by
  simp only [takes, lengths, shapes, List.map_append, List.map_flatMap, List.map_cons,
    List.map_nil, List.prod_cons, List.prod_nil, mul_one, size_mul, size_one, size_two, mul_assoc]

theorem sum_flatMap {α : Type} (ls : List α) (f : α → List Int) :
    (ls.flatMap f).sum = (ls.map fun l => (f l).sum).sum := by
  induction ls with
  | nil => rfl
  | cons l ls ih => simp [ih]

theorem foldl_size (f : Nat → Int) (x : Int) (ls : List Nat) :
    ls.foldl (fun need l => need + size (f l)) (size x) = size (x + (ls.map f).sum) := by
  induction ls generalizing x with
  | nil => simp
  | cons l ls ih => rw [List.foldl_cons, ← size_add, ih, List.map_cons, List.sum_cons, add_assoc]

def fitsInt (x : Int) : Prop := -2 ^ 31 ≤ x ∧ x < 2 ^ 31

theorem intMul_of_fits {a b : Int} (h : fitsInt (a * b)) : intMul a b = .ok (a * b) := if_pos h

theorem intMul_of_not_fits {a b : Int} (h : ¬ fitsInt (a * b)) :
    intMul a b = .error .signedOverflow := if_neg h

/-- No `int` product of `need` overflows. -/
def Computes (d : Dims) : Prop :=
  fitsInt (2 * d.sincC.toInt) ∧ fitsInt (2 * d.c1.toInt) ∧ fitsInt (2 * d.c2.toInt)

theorem total_eq (d : Dims) : total d =
    (2 + d.sincC.toInt * d.sincK.toInt + 2 * d.sincC.toInt +
      d.c1.toInt * d.sincC.toInt * d.k1.toInt + d.c1.toInt + 2 * d.c1.toInt +
      d.c2.toInt * d.c1.toInt * d.k2.toInt + d.c2.toInt + 2 * d.c2.toInt) +
    ((List.range d.layers.toInt.toNat).map fun l =>
      2 * ((if l = 0 then d.c2.toInt else 2 * d.hidden.toInt) * (gates * d.hidden.toInt) +
        d.hidden.toInt * (gates * d.hidden.toInt) + gates * d.hidden.toInt)).sum +
    (2 * d.hidden.toInt * d.d0.toInt + d.d0.toInt + d.d0.toInt * d.d1.toInt + d.d1.toInt +
      d.d1.toInt * d.classes.toInt + d.classes.toInt) := by
  have htwo : List.range 2 = [0, 1] := rfl
  simp only [total, lengths, shapes, List.map_append, List.sum_append, List.map_cons,
    List.map_nil, List.sum_cons, List.sum_nil, List.map_flatMap, sum_flatMap, List.prod_cons,
    List.prod_nil, mul_one, htwo]
  have hlayer : ∀ x y z : Int, x + (y + (z + 0)) + (x + (y + (z + 0)) + 0) = 2 * (x + y + z) :=
    fun x y z => by ring
  simp only [hlayer]
  ring

theorem need_eq {d : Dims} (h : Computes d) :
    need d (gates * d.hidden.toInt) = .ok (size (total d)) := by
  obtain ⟨h₁, h₂, h₃⟩ := h
  have hlayers := foldl_size (fun l =>
      2 * ((if l = 0 then d.c2.toInt else 2 * d.hidden.toInt) * (gates * d.hidden.toInt) +
        d.hidden.toInt * (gates * d.hidden.toInt) + gates * d.hidden.toInt))
    (2 + d.sincC.toInt * d.sincK.toInt + 2 * d.sincC.toInt +
      d.c1.toInt * d.sincC.toInt * d.k1.toInt + d.c1.toInt + 2 * d.c1.toInt +
      d.c2.toInt * d.c1.toInt * d.k2.toInt + d.c2.toInt + 2 * d.c2.toInt)
    (List.range d.layers.toInt.toNat)
  simp only [size_add, size_mul, size_two] at hlayers
  simp only [need, intMul_of_fits h₁, intMul_of_fits h₂, intMul_of_fits h₃, total_eq, size_add,
    size_mul, size_two]
  rw [← hlayers]
  simp only [bind, Except.bind, pure, Except.pure, size_mul, size_two]

theorem need_error {d : Dims} {G : Int} (h : ¬ Computes d) :
    need d G = .error .signedOverflow := by
  by_cases h₁ : fitsInt (2 * d.sincC.toInt)
  · by_cases h₂ : fitsInt (2 * d.c1.toInt)
    · have h₃ : ¬ fitsInt (2 * d.c2.toInt) := fun h₃ => h ⟨h₁, h₂, h₃⟩
      simp only [need, intMul_of_fits h₁, intMul_of_fits h₂, intMul_of_not_fits h₃]
      rfl
    · simp only [need, intMul_of_fits h₁, intMul_of_not_fits h₂]
      rfl
  · simp only [need, intMul_of_not_fits h₁]
    rfl

/-! ### What is accepted -/

theorem fields_nodup (d : Dims) : ((lengths d).map Prod.fst).Nodup := by
  have hlayers : ∀ n : Nat, ((List.range n).flatMap fun l =>
      [Field.wt l 0, .rt l 0, .b l 0, .wt l 1, .rt l 1, .b l 1]).Nodup := by
    refine fun n => List.nodup_flatMap.mpr ⟨fun l _ => by simp, ?_⟩
    refine List.nodup_range.imp fun {l l'} hne => ?_
    simp [Function.onFun, hne.symm]
  have htwo : List.range 2 = [0, 1] := rfl
  simp only [lengths, shapes, List.map_append, List.map_cons, List.map_nil, List.map_flatMap,
    htwo, List.flatMap_cons, List.flatMap_nil, List.cons_append, List.nil_append]
  simp [List.nodup_append, hlayers]
  rintro f l - (rfl | rfl | rfl | rfl | rfl | rfl) <;> simp

/-- Passes every test made before the sizes are computed. -/
def Candidate (p : Bytes) : Prop :=
  headerSize ≤ p.length ∧ p.take 4 = magic ∧ rdI32 p 4 = version ∧
    unfit (rdDims p) (rdI32 p 68) p.length = false

theorem load_refused {calloc malloc : Bool} {p : Bytes} (h : ¬ (calloc = true ∧ Candidate p)) :
    pyannetLoad calloc malloc p = .ok none := by
  unfold pyannetLoad
  split
  · rfl
  · rename_i hh
    simp only [Bool.or_eq_true, decide_eq_true_eq, bne_iff_ne, ne_eq, not_or, not_lt,
      not_not] at hh
    cases calloc with
    | false => rfl
    | true =>
      have hu : unfit (rdDims p) (rdI32 p 68) p.length = true := by
        by_contra hu
        exact h ⟨rfl, hh.1.1, hh.1.2, hh.2, by simpa using hu⟩
      simp [hu]

theorem load_candidate {malloc : Bool} {p : Bytes} (h : Candidate p) :
    pyannetLoad true malloc p =
      (intMul gates (rdDims p).hidden.toInt).bind fun G =>
        if G.tmod 16 != 0 then .ok none
        else (need (rdDims p) G).bind fun need =>
          if size (rdI32 p 68).toInt != need then .ok none
          else if !malloc then .ok none
          else .ok (some (filled p G need)) := by
  obtain ⟨hlen, hm, hv, hu⟩ := h
  have hh : (p.length < headerSize || p.take 4 != magic || rdI32 p 4 != version) = false := by
    simp [hm, hv, hlen]
  simp only [pyannetLoad, hh, hu]
  rfl

theorem Candidate.fields {p : Bytes} (h : Candidate p) :
    0 < (rdDims p).hidden.toInt ∧ 0 ≤ (rdI32 p 68).toInt := by
  obtain ⟨-, -, -, hu⟩ := h
  simp only [unfit, Bool.or_eq_false_iff, decide_eq_false_iff_not, Int32.lt_iff_toInt_lt,
    Int32.le_iff_toInt_le, not_lt, not_le] at hu
  exact ⟨hu.2, hu.1.1.2⟩

/-- Every length is there, one after another up to the last float of the file's `count`. -/
structure IsModel (p : Bytes) (m : Model) : Prop where
  dims : ∀ x ∈ m.dims.list, 1 ≤ x.toInt
  slices : Consecutive (fun f => (m.pointer f).map BitVec.toNat) 0 (lengths m.dims)
    (rdI32 p 68).toInt
  weights : m.weights = (List.range (rdI32 p 68).toInt.toNat).map fun i =>
    rdWord p (headerSize + 4 * i)

/-- Whatever the allocator grants, a file that is no model is answered with a null pointer. -/
def RefusesOthers (p : Bytes) : Prop :=
  ∀ calloc malloc, ∃ r, pyannetLoad calloc malloc p = .ok r ∧ ∀ m, r = some m → IsModel p m

/-- The condition: on a file that passes the tests before the sizes, the sizes can be computed and
tell that the dimensions are positive and the total did not wrap. -/
def SizesTell (p : Bytes) : Prop :=
  Candidate p → fitsInt (gates * (rdDims p).hidden.toInt) ∧
    ((gates * (rdDims p).hidden.toInt) % 16 = 0 → Computes (rdDims p) ∧
      ((rdI32 p 68).toInt ≡ total (rdDims p) [ZMOD 2 ^ 64] →
        (∀ x ∈ (rdDims p).list, 1 ≤ x.toInt) ∧ total (rdDims p) < 2 ^ 64))

theorem lengths_nonneg {d : Dims} (h : ∀ x ∈ d.list, 1 ≤ x.toInt) : ∀ k ∈ lengths d, 0 ≤ k.2 := by
  have hs : ∀ s ∈ shapes d, ∀ x ∈ s.2, 0 ≤ x := by
    simp only [Dims.list, List.forall_mem_cons] at h
    simp only [shapes, List.forall_mem_append]
    refine ⟨⟨by simp; omega, fun s hs => ?_⟩, by simp; omega⟩
    obtain ⟨l, -, hs⟩ := List.mem_flatMap.mp hs
    obtain ⟨dir, -, hs⟩ := List.mem_flatMap.mp hs
    simp only [gates, List.mem_cons, List.not_mem_nil, or_false] at hs
    rcases hs with rfl | rfl | rfl
    · split <;> simp <;> omega
    · simp; omega
    · simp; omega
  intro k hk
  obtain ⟨s, hmem, rfl⟩ := List.mem_map.mp hk
  exact List.prod_nonneg fun x hx => hs s hmem x hx

theorem filled_isModel {p : Bytes} (hdims : ∀ x ∈ (rdDims p).list, 1 ≤ x.toInt)
    (hcount : (rdI32 p 68).toInt = total (rdDims p)) (hpos : 0 ≤ (rdI32 p 68).toInt):
    IsModel p (filled p (gates * (rdDims p).hidden.toInt) (size (total (rdDims p)))) := by
  have hlt : (rdI32 p 68).toInt < 2 ^ 31 := Int32.toInt_lt _
  obtain ⟨n, hn⟩ := Int.eq_ofNat_of_zero_le hpos
  have hnat : (size (total (rdDims p))).toNat = n := by
    rw [← hcount, hn, size, BitVec.ofInt_natCast, BitVec.toNat_ofNat]
    omega
  refine ⟨hdims, ?_, ?_⟩
  · have hc := placed_consecutive (fun _ => none, (0 : SizeT)) (lengths (rdDims p))
      (fields_nodup _) (lengths_nonneg hdims) (by
        have h₀ : ((0 : SizeT).toNat : Int) = 0 := rfl
        unfold total at hcount
        simp only [h₀]
        omega)
    rw [hcount, total]
    simp only [filled, takes_eq]
    simpa [size] using hc
  · simp only [filled, hnat, hn]
    simp

theorem total_nonneg {d : Dims} (h : ∀ x ∈ d.list, 1 ≤ x.toInt) : 0 ≤ total d := by
  refine List.sum_nonneg fun x hx => ?_
  obtain ⟨k, hk, rfl⟩ := List.mem_map.mp hx
  exact lengths_nonneg h k hk

/-- A total that did not wrap is the count itself. -/
theorem exact_of_modEq {count : Int32} {n : Int} (h : count.toInt ≡ n [ZMOD 2 ^ 64])
    (hc : 0 ≤ count.toInt) (hn : 0 ≤ n) (hlt : n < 2 ^ 64) : count.toInt = n := by
  have hcount := Int32.toInt_lt count
  unfold Int.ModEq at h
  omega

theorem sixteenth {p : Bytes} (hc : Candidate p) :
    ((gates * (rdDims p).hidden.toInt).tmod 16 != 0) = true ↔
      (gates * (rdDims p).hidden.toInt) % 16 ≠ 0 := by
  have hpos := hc.fields.1
  rw [Int.tmod_eq_emod_of_nonneg (by simp only [gates]; omega), bne_iff_ne]

section Outcomes
variable {malloc : Bool} {p : Bytes}

theorem load_overflows (hc : Candidate p) (h : ¬ fitsInt (gates * (rdDims p).hidden.toInt)) :
    pyannetLoad true malloc p = .error .signedOverflow := by
  rw [load_candidate hc, intMul_of_not_fits h]
  rfl

theorem load_unpadded (hc : Candidate p) (hfit : fitsInt (gates * (rdDims p).hidden.toInt))
    (h : gates * (rdDims p).hidden.toInt % 16 ≠ 0) : pyannetLoad true malloc p = .ok none := by
  have hmod := (sixteenth hc).mpr h
  simp only [load_candidate hc, intMul_of_fits hfit, Except.bind, hmod, if_true]

theorem load_uncomputed (hc : Candidate p) (hfit : fitsInt (gates * (rdDims p).hidden.toInt))
    (h16 : gates * (rdDims p).hidden.toInt % 16 = 0) (h : ¬ Computes (rdDims p)) :
    pyannetLoad true malloc p = .error .signedOverflow := by
  have hmod := (sixteenth hc).not.mpr (not_not.mpr h16)
  simp only [load_candidate hc, intMul_of_fits hfit, Except.bind, hmod, need_error h]
  rfl

/-- Where the sizes can be computed, they decide, as far as `size_t` tells them apart. -/
theorem load_sized (hc : Candidate p) (hfit : fitsInt (gates * (rdDims p).hidden.toInt))
    (h16 : gates * (rdDims p).hidden.toInt % 16 = 0) (hcomp : Computes (rdDims p)) :
    pyannetLoad true malloc p =
      .ok (if (rdI32 p 68).toInt ≡ total (rdDims p) [ZMOD 2 ^ 64] ∧ malloc = true then
        some (filled p (gates * (rdDims p).hidden.toInt) (size (total (rdDims p)))) else none) := by
  have hmod := (sixteenth hc).not.mpr (not_not.mpr h16)
  simp only [load_candidate hc, intMul_of_fits hfit, Except.bind, hmod, need_eq hcomp,
    ← size_eq_iff]
  by_cases hsize : size (rdI32 p 68).toInt = size (total (rdDims p))
  · cases malloc <;> simp [hsize]
  · simp [hsize]

end Outcomes

theorem load_refuses_iff (p : Bytes) : RefusesOthers p ↔ SizesTell p := by
  constructor
  · intro h hc
    obtain ⟨r, hr, hm⟩ := h true true
    have hfit : fitsInt (gates * (rdDims p).hidden.toInt) := by
      by_contra hfit
      rw [load_overflows hc hfit] at hr
      cases hr
    refine ⟨hfit, fun h16 => ?_⟩
    have hcomp : Computes (rdDims p) := by
      by_contra hcomp
      rw [load_uncomputed hc hfit h16 hcomp] at hr
      cases hr
    refine ⟨hcomp, fun hmod => ?_⟩
    rw [load_sized hc hfit h16 hcomp, if_pos ⟨hmod, rfl⟩] at hr
    obtain ⟨hdims, hslices, -⟩ := hm _ (Except.ok.inj hr).symm
    have hstop := hslices.stop
    have hlt := Int32.toInt_lt (rdI32 p 68)
    refine ⟨hdims, ?_⟩
    simp only [filled] at hstop
    unfold total
    omega
  · intro h calloc malloc
    by_cases hc : calloc = true ∧ Candidate p
    · obtain ⟨rfl, hc⟩ := hc
      obtain ⟨hfit, hrest⟩ := h hc
      by_cases h16 : gates * (rdDims p).hidden.toInt % 16 = 0
      · obtain ⟨hcomp, htell⟩ := hrest h16
        refine ⟨_, load_sized hc hfit h16 hcomp, fun m hm => ?_⟩
        obtain ⟨⟨hmod, -⟩, hfilled⟩ := Option.ite_none_right_eq_some.mp hm
        obtain ⟨hdims, hlt⟩ := htell hmod
        have hcount := exact_of_modEq hmod hc.fields.2 (total_nonneg hdims) hlt
        exact Option.some.inj hfilled ▸ filled_isModel hdims hcount hc.fields.2
      · exact ⟨none, load_unpadded hc hfit h16, nofun⟩
    · exact ⟨none, load_refused hc, nofun⟩

/-- The kernel length is -3, and the count is what the sum comes to with it. -/
def negativeKernel : Bytes :=
  magic ++ [1, 1, -3, 1, 1, 1, 1, 1, 1, 1, 4, 1, 1, 7, 0, 0, 226].flatMap
    (fun x : Int32 => packWord x.toUInt32) ++ List.replicate (4 * 226) 0

/-- It is accepted, with a pointer to before the first weight. -/
theorem load_negative_kernel : ¬ RefusesOthers negativeKernel := by
  have hload : ((pyannetLoad true true negativeKernel).toOption.bind id).map
      (fun m => (m.dims.sincK, m.pointer .n0Scale)) = some (-3, some (-1)) := by
    decide +kernel
  intro h
  obtain ⟨r, hr, hm⟩ := h true true
  rw [hr] at hload
  obtain ⟨m, rfl, hk⟩ := Option.map_eq_some_iff.mp hload
  have hdims := (hm m rfl).dims m.dims.sincK (by simp [Dims.list])
  rw [(Prod.mk.inj hk).1] at hdims
  exact absurd hdims (by decide)

end ReadersSpeech.PyannetFile
