import Mathlib.Algebra.Order.Group.Defs
import Mathlib.Algebra.Order.Sub.Basic
import Mathlib.Logic.Function.Basic

/-! Answers remembered under a key for a while, each dated by a wall clock, until all of them are
forgotten at once. The clock shows anything, so an age is a difference of two readings. A reading
does not tell when it was made, and an answer does not tell when it was obtained, nor how often all
had been forgotten by then; `time` and `epoch` are there to say what is remembered.
-/

set_option autoImplicit false

namespace ReadersSpeech.Remembering

variable {K A T : Type}

structure Reading (T : Type) where
  shown : Int64
  time : T
  deriving DecidableEq

structure Answer (A T : Type) where
  value : A
  time : T
  epoch : ℕ
  deriving DecidableEq

/-- What is remembered under a key, and the reading that dates it. -/
abbrev Memory (K A T : Type) := K → Option (Reading T × Answer A T)

def Memory.look (m : Memory K A T) (ttl : Int64) (k : K) (now : Reading T) :
    Option (Answer A T) :=
  match m k with
  | none => none
  | some (dated, a) => if now.shown - dated.shown < ttl then some a else none

def Memory.put [DecidableEq K] (m : Memory K A T) (k : K) (dated : Reading T) (a : Answer A T) :
    Memory K A T :=
  Function.update m k (some (dated, a))

def Memory.clear : Memory K A T := fun _ => none

variable [LinearOrder T]

/-- What is remembered was dated before it was obtained, and obtained since all was forgotten. -/
def Memory.Sound (m : Memory K A T) (epoch : ℕ) : Prop :=
  ∀ k dated a, m k = some (dated, a) → dated.time ≤ a.time ∧ a.epoch = epoch

theorem Memory.sound_clear (epoch : ℕ) : (clear : Memory K A T).Sound epoch :=
  fun _ _ _ h => nomatch h

theorem Memory.Sound.put [DecidableEq K] {m : Memory K A T} {epoch : ℕ} (h : m.Sound epoch)
    (k : K) {dated : Reading T} {a : Answer A T} (hd : dated.time ≤ a.time)
    (he : a.epoch = epoch) : (m.put k dated a).Sound epoch := by
  intro k' dated' a' hk
  by_cases hkk : k' = k
  · subst hkk
    simp only [Memory.put, Function.update_self, Option.some.injEq, Prod.mk.injEq] at hk
    obtain ⟨rfl, rfl⟩ := hk
    exact ⟨hd, he⟩
  · rw [Memory.put, Function.update_of_ne hkk] at hk
    exact h k' dated' a' hk

variable [AddCommGroup T]

/-- Where more than `limit` has passed since what is remembered was dated, the clock shows that it
is too old. -/
def Memory.Shows (m : Memory K A T) (ttl : Int64) (limit : T) (k : K) (now : Reading T) : Prop :=
  ∀ dated a, m k = some (dated, a) → limit < now.time - dated.time →
    ttl ≤ now.shown - dated.shown

theorem Memory.shows_recent {m : Memory K A T} {ttl : Int64} {limit : T} {k : K}
    {dated now : Reading T} {a : Answer A T} (h : m k = some (dated, a))
    (hr : now.time - dated.time ≤ limit) : m.Shows ttl limit k now := by
  intro dated' a' h' hlt
  rw [h, Option.some.injEq, Prod.mk.injEq] at h'
  exact absurd hlt (not_lt.mpr (h'.1 ▸ hr))

theorem Memory.Sound.look [IsOrderedAddMonoid T] {m : Memory K A T} {epoch : ℕ}
    (h : m.Sound epoch) {ttl : Int64} {limit : T} {k : K} {now : Reading T}
    (hs : m.Shows ttl limit k now) {a : Answer A T} (hl : m.look ttl k now = some a) :
    a.epoch = epoch ∧ now.time - a.time ≤ limit := by
  unfold Memory.look at hl
  split at hl
  · simp at hl
  · rename_i dated b hk
    split at hl
    · rename_i hage
      obtain rfl := Option.some.inj hl
      obtain ⟨hd, he⟩ := h k dated b hk
      have hnow : now.time - dated.time ≤ limit :=
        not_lt.mp fun hlt => Int64.not_le.mpr hage (hs dated b hk hlt)
      exact ⟨he, (sub_le_sub_left hd now.time).trans hnow⟩
    · simp at hl

end ReadersSpeech.Remembering
