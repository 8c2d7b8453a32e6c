import ReadersSpeech.Splitting

/-! Kotlin strings. A `String` is its UTF-16 code units, as `length`, indexing and `trim` count
them; the case tables, the letters and digits, and the `\s` of a regular expression are the
platform's (the JVM of the tests and Android answer differently), so they are a parameter.
-/

set_option autoImplicit false

namespace ReadersSpeech
open Splitting

abbrev Str := List UInt16

def codeUnit (c : Char) : UInt16 := UInt16.ofNat c.toNat

/-- A literal of the source. Every literal it has stays inside the basic plane. -/
def kt (s : String) : Str := s.toList.map codeUnit

/-- `Char.isWhitespace`: `Character.isWhitespace` or `Character.isSpaceChar`. -/
def isWhitespace (c : UInt16) : Bool :=
  (9 ≤ c && c ≤ 13) || (28 ≤ c && c ≤ 32) || c == 0xA0 || c == 0x1680 ||
    (0x2000 ≤ c && c ≤ 0x200A) || c == 0x2028 || c == 0x2029 || c == 0x202F ||
    c == 0x205F || c == 0x3000

def trim (s : Str) : Str := trimBy isWhitespace s

def isBlank (s : Str) : Bool := s.all isWhitespace

def joinToString (sep : Str) (parts : List Str) : Str := sep.intercalate parts

def removePrefix (p s : Str) : Str := if p.isPrefixOf s then s.drop p.length else s

def removeSuffix (p s : Str) : Str :=
  if p.isSuffixOf s then s.take (s.length - p.length) else s

/-- What the program asks of the platform about characters. -/
structure Unicode where
  /-- `[\p{L}\p{N}]` on a code point. -/
  word : Nat → Bool
  /-- `\s` of a regular expression; on Android also U+0085, which `isWhitespace` leaves out. -/
  space : UInt16 → Bool
  lowercase : Str → Str
  equalsIgnoreCase : Str → Str → Bool
  lowercase_nil : lowercase [] = []
  space_newline : space (codeUnit '\n') = true
  space_blank : space (codeUnit ' ') = true
  space_mark : (kt ".!?…").any space = false
  equalsIgnoreCase_refl : ∀ s, equalsIgnoreCase s s = true

def isHighSurrogate (c : UInt16) : Bool := 0xD800 ≤ c && c ≤ 0xDBFF
def isLowSurrogate (c : UInt16) : Bool := 0xDC00 ≤ c && c ≤ 0xDFFF

/-- The code points of a string, as a regular expression walks over them: a surrogate pair is
one, a lone surrogate is one of its own. -/
def codePoints : Str → List (Nat × Str)
  | [] => []
  | [c] => [(c.toNat, [c])]
  | c :: d :: s =>
    if isHighSurrogate c && isLowSurrogate d then
      (0x10000 + (c.toNat - 0xD800) * 0x400 + (d.toNat - 0xDC00), [c, d]) :: codePoints s
    else (c.toNat, [c]) :: codePoints (d :: s)

/-- `replace(Regex("[^\p{L}\p{N}]+"), " ")`, one blank for each run. -/
def collapse (u : Unicode) (inRun : Bool) : List (Nat × Str) → Str
  | [] => []
  | (p, c) :: rest =>
    if u.word p then c ++ collapse u false rest
    else if inRun then collapse u true rest
    else codeUnit ' ' :: collapse u true rest

def wordsOnly (u : Unicode) (s : Str) : Str := collapse u false (codePoints s)

/-- The tables on the first 128 code points, where every platform agrees. -/
def ascii : Unicode where
  word p := (48 ≤ p && p ≤ 57) || (65 ≤ p && p ≤ 90) || (97 ≤ p && p ≤ 122)
  space c := (9 ≤ c && c ≤ 13) || c == 32
  lowercase s := s.map fun c => if 65 ≤ c && c ≤ 90 then c + 32 else c
  equalsIgnoreCase s t :=
    (s.map fun c => if 65 ≤ c && c ≤ 90 then c + 32 else c) ==
      (t.map fun c => if 65 ≤ c && c ≤ 90 then c + 32 else c)
  lowercase_nil := rfl
  space_newline := by decide
  space_blank := by decide
  space_mark := by decide
  equalsIgnoreCase_refl s := by simp

@[simp] theorem trim_nil : trim [] = [] := trimBy_nil _

@[simp] theorem isBlank_nil : isBlank [] = true := rfl

@[simp] theorem isBlank_append (a b : Str) : isBlank (a ++ b) = (isBlank a && isBlank b) :=
  List.all_append

theorem trim_eq_nil_iff (s : Str) : trim s = [] ↔ isBlank s = true := by
  constructor
  · intro h
    obtain ⟨a, b, hs, ha, hb⟩ := trimBy_split isWhitespace s
    have ht : trimBy isWhitespace s = [] := h
    rw [ht, List.append_nil] at hs
    rw [hs, isBlank, List.all_eq_true]
    intro c hc
    exact (List.mem_append.mp hc).elim (ha c) (hb c)
  · intro h
    have hd : s.dropWhile isWhitespace = [] :=
      List.dropWhile_eq_nil_iff.mpr (List.all_eq_true.mp h)
    simp [trim, trimBy, hd]

theorem trim_trim (s : Str) : trim (trim s) = trim s := by
  by_cases h : trim s = []
  · rw [h, trim_nil]
  · exact (solid_trimBy h).trimBy_eq

theorem removePrefix_singleton (c : UInt16) (s : Str) :
    removePrefix [c] s = if s.head? = some c then s.tail else s := by
  cases s with
  | nil => rfl
  | cons d s =>
    by_cases hd : d = c
    · simp [removePrefix, hd]
    · have hne : ¬ c = d := Ne.symm hd
      simp [removePrefix, hd, hne]

theorem removePrefix_front (c : UInt16) {a s : Str} (h : a <+: s) :
    removePrefix [c] a <+: removePrefix [c] s := by
  rw [removePrefix_singleton, removePrefix_singleton]
  cases a with
  | nil => exact List.nil_prefix
  | cons d a =>
    obtain ⟨b, rfl⟩ := h
    rw [List.cons_append, List.head?_cons, List.head?_cons]
    split
    · exact List.prefix_append a b
    · exact List.prefix_append (d :: a) b

end ReadersSpeech
