import Mathlib.Logic.Function.Basic
import ReadersSpeech.Cells

/-! A heap of blocks. What is freed or written must be there, so a block is freed once, and what
a computation leaves there is what it was given and did not free, and what it was given room for.
-/

set_option autoImplicit false

namespace ReadersSpeech.NativeHeap
open Cells

variable {α : Type}

/-- Addresses from `next` on have not been given to anybody. -/
structure Heap (α : Type) where
  blocks : ℕ → Option (Block α)
  next : ℕ
  unused : ∀ p, next ≤ p → blocks p = none

def Heap.malloc (h : Heap α) (n : ℕ) : ℕ × Heap α :=
  (h.next, {
    blocks := Function.update h.blocks h.next (some (fresh n))
    next := h.next + 1
    unused := fun p hp => by
      rw [Function.update_of_ne (by omega)]
      exact h.unused p (by omega) })

def Heap.set (h : Heap α) (p : ℕ) (b : Block α) : Option (Heap α) :=
  if hp : (h.blocks p).isSome then some { h with
    blocks := Function.update h.blocks p (some b)
    unused := fun q hq => by
      have hqp : q ≠ p := by
        rintro rfl
        simp [h.unused q hq] at hp
      rw [Function.update_of_ne hqp]
      exact h.unused q hq }
  else none

def Heap.free (h : Heap α) (p : ℕ) : Option (Heap α) :=
  if (h.blocks p).isSome then some { h with
    blocks := Function.update h.blocks p none
    unused := fun q hq => by
      by_cases hqp : q = p
      · rw [hqp, Function.update_self]
      · rw [Function.update_of_ne hqp]
        exact h.unused q hq }
  else none

/-- `realloc` that does not fail: a block elsewhere, that begins like the old one. -/
def Heap.realloc (h : Heap α) (p : Option ℕ) (n : ℕ) : Option (ℕ × Heap α) :=
  match p with
  | none => some (h.malloc n)
  | some p => do
    let b ← h.blocks p
    let h ← h.free p
    let (q, h) := h.malloc n
    return (q, ← h.set q (b.take n ++ fresh (n - b.length)))

/-- `malloc`, which gives a null pointer where nothing is granted. -/
def mallocIf (granted : Bool) (n : ℕ) (h : Heap α) : Option ℕ × Heap α :=
  if granted then
    let (p, h) := h.malloc n
    (some p, h)
  else (none, h)

/-- `free`, of a null pointer too. -/
def freeIfAny (p : Option ℕ) (h : Heap α) : Option (Heap α) :=
  match p with
  | none => some h
  | some p => h.free p

/-- `h` is `h₀` with the blocks of `l` besides. -/
structure Over (h₀ : Heap α) (l : List (ℕ × Block α)) (h : Heap α) : Prop where
  blocks : ∀ p, h.blocks p = (l.lookup p).or (h₀.blocks p)
  apart : ∀ p ∈ l.map Prod.fst, h₀.blocks p = none
  nodup : (l.map Prod.fst).Nodup

section Over
variable {h₀ h : Heap α} {l : List (ℕ × Block α)} {p : ℕ} {b : Block α}

/-- Nothing is left over. -/
theorem Over.done (ho : Over h₀ [] h) : h.blocks = h₀.blocks := funext fun p => by
  simpa using ho.blocks p

theorem lookup_here (l : List (ℕ × Block α)) (p : ℕ) (b : Block α) :
    ((p, b) :: l).lookup p = some b := List.lookup_cons_self

theorem lookup_other {p q : ℕ} (l : List (ℕ × Block α)) (b : Block α) (h : q ≠ p) :
    ((p, b) :: l).lookup q = l.lookup q := by
  simp [List.lookup_cons, beq_eq_false_iff_ne.mpr h]

theorem lookup_eq_none {l : List (ℕ × Block α)} {p : ℕ} (hp : p ∉ l.map Prod.fst) :
    l.lookup p = none := by
  rw [List.lookup_eq_none_iff]
  intro x hx
  have hne : p ≠ x.1 := fun h => hp (h ▸ List.mem_map_of_mem hx)
  simpa using hne

theorem lookup_of_mem {l : List (ℕ × Block α)} (hl : (l.map Prod.fst).Nodup) {p : ℕ} {b : Block α}
    (hp : (p, b) ∈ l) : l.lookup p = some b := by
  induction l with
  | nil => simp at hp
  | cons x l ih =>
    obtain ⟨q, c⟩ := x
    simp only [List.map_cons, List.nodup_cons] at hl
    rcases List.mem_cons.mp hp with heq | hp
    · obtain ⟨rfl, rfl⟩ := Prod.mk.inj heq
      exact lookup_here l p b
    · have hkey : p ∈ l.map Prod.fst := List.mem_map.mpr ⟨(p, b), hp, rfl⟩
      have hne : p ≠ q := fun h => hl.1 (h ▸ hkey)
      rw [lookup_other l c hne]
      exact ih hl.2 hp

theorem Over.get (ho : Over h₀ ((p, b) :: l) h) : h.blocks p = some b := by
  rw [ho.blocks p, lookup_here]
  rfl

theorem Over.malloc (ho : Over h₀ l h) (n : ℕ) :
    Over h₀ (((h.malloc n).1, fresh n) :: l) (h.malloc n).2 := by
  have hnext := h.unused h.next (Nat.le_refl _)
  rw [ho.blocks, Option.or_eq_none_iff] at hnext
  have hnew : h.next ∉ l.map Prod.fst := by
    intro hp
    obtain ⟨⟨q, b⟩, hb, rfl⟩ := List.mem_map.mp hp
    rw [lookup_of_mem ho.nodup hb] at hnext
    simp at hnext
  refine ⟨fun p => ?_, fun p hp => ?_, List.nodup_cons.mpr ⟨hnew, ho.nodup⟩⟩
  · by_cases hp : p = h.next
    · subst hp
      exact (Function.update_self ..).trans (by rw [Heap.malloc, lookup_here]; rfl)
    · exact (Function.update_of_ne hp ..).trans
        (by rw [Heap.malloc, lookup_other l _ hp]; exact ho.blocks p)
  · rcases List.mem_cons.mp hp with rfl | hp
    · exact hnext.2
    · exact ho.apart p hp

theorem Over.set (ho : Over h₀ ((p, b) :: l) h) (c : Block α) :
    Yields (h.set p c) (Over h₀ ((p, c) :: l)) := by
  refine ⟨_, dif_pos (by rw [ho.get]; rfl), ⟨fun q => ?_, ho.apart, ho.nodup⟩⟩
  by_cases hq : q = p
  · subst hq
    exact (Function.update_self ..).trans (by rw [lookup_here]; rfl)
  · have hb := ho.blocks q
    rw [lookup_other l b hq] at hb
    exact (Function.update_of_ne hq ..).trans (by rw [lookup_other l c hq]; exact hb)

theorem Over.free (ho : Over h₀ ((p, b) :: l) h) : Yields (h.free p) (Over h₀ l) := by
  have hnodup := ho.nodup
  simp only [List.map_cons, List.nodup_cons] at hnodup
  refine ⟨_, if_pos (by rw [ho.get]; rfl),
    ⟨fun q => ?_, fun q hq => ho.apart q (.tail _ hq), hnodup.2⟩⟩
  by_cases hq : q = p
  · subst hq
    refine (Function.update_self ..).trans ?_
    rw [lookup_eq_none hnodup.1, ho.apart q (.head _)]
    rfl
  · have hb := ho.blocks q
    rw [lookup_other l b hq] at hb
    exact (Function.update_of_ne hq ..).trans hb

theorem Over.realloc (ho : Over h₀ ((p, b) :: l) h) (n : ℕ) :
    Yields (h.realloc (some p) n) fun x =>
      Over h₀ ((x.1, b.take n ++ fresh (n - b.length)) :: l) x.2 := by
  obtain ⟨h₁, h₁eq, ho₁⟩ := ho.free
  obtain ⟨h₂, h₂eq, ho₂⟩ := (ho₁.malloc n).set (b.take n ++ fresh (n - b.length))
  refine ⟨((h₁.malloc n).1, h₂), ?_, ho₂⟩
  simp only [Heap.realloc, ho.get, h₁eq, Option.bind_eq_bind, Option.bind_some, h₂eq]
  rfl

theorem Over.mallocIf (ho : Over h₀ l h) (granted : Bool) (n : ℕ) :
    (granted = false ∧ mallocIf granted n h = (none, h)) ∨
      ∃ p h', mallocIf granted n h = (some p, h') ∧ Over h₀ ((p, fresh n) :: l) h' := by
  cases granted with
  | false => exact .inl ⟨rfl, rfl⟩
  | true => exact .inr ⟨_, _, rfl, ho.malloc n⟩

end Over

section Bytes

/-- `memcpy` from a block: all of it must have been written. -/
def cells (b : Block α) (off n : ℕ) : Option (List α) :=
  if off + n ≤ b.length then ((b.drop off).take n).mapM id else none

/-- `memcpy` into a block. -/
def put (b : Block α) (off : ℕ) (xs : List α) : Option (Block α) :=
  if off + xs.length ≤ b.length then
    some (b.take off ++ block xs ++ b.drop (off + xs.length))
  else none

/-- What a pointer to bytes points to, as far as the first zero. -/
def cstring : Block UInt8 → Option (List UInt8)
  | [] | none :: _ => none
  | some c :: b => if c = 0 then some [] else (cstring b).map (c :: ·)

variable {b : Block α} {xs : List α}

end Bytes

end ReadersSpeech.NativeHeap
