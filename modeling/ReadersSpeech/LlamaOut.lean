import ReadersSpeech.ChatTemplate
import ReadersSpeech.NativeHeap

/-! The growing buffer of llama_jni.c. What is pushed ends with a NUL in a block of the heap; a
push that finds no room leaves the buffer as it was.
-/

set_option autoImplicit false

namespace ReadersSpeech.LlamaLib
open Cells NativeHeap

/-- `struct out`. -/
structure Out where
  data : Option ℕ
  len : ℕ
  cap : ℕ
  deriving DecidableEq, Repr

/-- `while (need > cap) cap *= 2`, or nothing where it does not come to its end. -/
def doubled (need : ℕ) : ℕ → ℕ → Option ℕ
  | 0, cap => if need ≤ cap then some cap else none
  | turns + 1, cap => if need ≤ cap then some cap else doubled need turns (cap * 2 % 2 ^ 64)

/-- The bytes behind what is there, and a NUL. -/
def appended (o : Out) (s : Block UInt8) (n : ℕ) (h : Heap UInt8) :
    Option (ℤ × Out × Heap UInt8) := do
  let p ← o.data
  let b ← put (← h.blocks p) o.len (← cells s 0 n)
  let h ← h.set p (← wr b (o.len + n) 0)
  return (0, { o with len := o.len + n }, h)

def outPush (realloc : Bool) (o : Out) (s : Block UInt8) (n : ℤ) (h : Heap UInt8) :
    Option (ℤ × Out × Heap UInt8) :=
  if n ≤ 0 then some (0, o, h)
  else if o.cap < o.len + n.toNat + 1 then do
    let cap ← doubled (o.len + n.toNat + 1) 64 (if o.cap = 0 then 4096 else o.cap * 2 % 2 ^ 64)
    if !realloc then return (-1, o, h)
    let (p, h) ← h.realloc o.data cap
    appended { o with data := some p, cap } s n.toNat h
  else appended o s n.toNat h

/-- The buffer holds `text`, in the blocks of `own`: none before the first push. Its room is no
more than twice what it had to hold. -/
inductive Held (o : Out) (text : Bytes) : List (ℕ × Block UInt8) → Prop
  | nothing : o = ⟨none, 0, 0⟩ → text = [] → Held o text []
  | something {p : ℕ} {b : Block UInt8} : o.data = some p → o.len = text.length →
      b.length = o.cap → block (text ++ [0]) <+: b →
      o.cap ≤ max 4096 (2 * text.length + 1) → Held o text [(p, b)]

section Push
variable {h₀ h : Heap UInt8} {l own : List (ℕ × Block UInt8)} {o : Out} {p : ℕ}
  {b s : Block UInt8} {text xs : Bytes}

theorem Held.len (hheld : Held o text own) : o.len = text.length := by
  cases hheld with
  | nothing hout htext => rw [hout, htext]; rfl
  | something _ hlen _ _ _ => exact hlen

end Push

end ReadersSpeech.LlamaLib
