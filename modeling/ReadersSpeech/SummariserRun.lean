import Mathlib.Data.Rat.Floor
import ReadersSpeech.Guarded
import ReadersSpeech.SummariserPoints
import ReadersSpeech.Translator

/-! `Summariser.summarise`. Before every call of the model it looks at `cancelled()`, and stops the
session when that is true.
-/

set_option autoImplicit false

namespace ReadersSpeech.Summariser
open Splitting Guarded
open Translator (Session)

/-- What `LlamaSession.run` is given. -/
structure Ask where
  prompt : Str
  maxTokens : Nat
  deriving DecidableEq, Repr

/-- `total`, `done`, and what `onProgress` was given. -/
structure Progress where
  total : Nat
  done : Nat
  shown : List Int
  deriving DecidableEq, Repr

abbrev Step (β : Type) : Type := Task Progress Ask Str β

def truncate (q : ℚ) : Int := if 0 ≤ q then ⌊q⌋ else ⌈q⌉

/-- `(100 * (done + it / 100f) / total).toInt().coerceIn(0, 99)`. -/
def figure (d : Device) (p : Progress) (it : Int) : Int :=
  let fraction := d.float (d.float it / 100)
  let q := d.float (d.float (100 * d.float (d.float p.done + fraction)) / d.float p.total)
  max 0 (min 99 (truncate q))

def step (d : Device) (p : Progress) (it : Int) : Progress :=
  { p with shown := p.shown ++ [figure d p it] }

/-- A test of `cancelled()`, a call of the model on a loaded session, and `done++`. -/
def run (d : Device) (session : Session) (a : Ask) : Step (Option Str) := do
  let generated ← ask (fun k => (session.attempt k).generated)
    (fun k p => (session.attempt k).reports.foldl (step d) p) a
  update fun p => { p with done := p.done + 1 }
  return if isBlank generated then none else some generated

def partAsk (lang : Str) (size i : Nat) (piece : Str) : Ask :=
  ⟨format (said part lang) [decimal (i + 1), decimal size, piece], 256⟩

/-- The loop over the pieces. -/
def takeNotes (d : Device) (session : Session) (lang : Str) (parts : List Str) :
    Step (List Str) :=
  parts.zipIdx.foldlM (fun out p => do
    let answer ← run d session (partAsk lang parts.length p.2 p.1)
    return match answer with
      | none => out
      | some answer => out ++ [unprefaced answer]) []

/-- One piece: nothing to fold, the transcript itself is the note. -/
def allNotes (d : Device) (session : Session) (lang clean : Str) (parts : List Str) :
    Step (List Str) :=
  if parts.length = 1 then pure [trim clean] else takeNotes d session lang parts

def groupAsk (lang : Str) (g : List Str) : Ask :=
  ⟨format (said group lang) [joinToString (kt "\n\n") g], 320⟩

/-- What stands for a group of paragraphs from then on. -/
def folded (g : List Str) (answer : Option Str) : Str :=
  match answer with
  | none => (joinToString (kt " ") g).take 900
  | some a => trim a

def foldRound (d : Device) (session : Session) (lang : Str) (groups : List (List Str)) :
    Step (List Str) :=
  groups.foldlM (fun out g => do
    let a ← run d session (groupAsk lang g)
    return out ++ [folded g a]) []

/-- Too many words for the theme, and more than two paragraphs. -/
def tooLong (u : Unicode) (forTheme : List Str) : Bool :=
  decide (notesBudget < (forTheme.map (words u)).sum) && decide (2 < forTheme.length)

/-- The `while` loop, which takes no more turns than there are notes. -/
def fold (d : Device) (session : Session) (lang : Str) : Nat → List Str → Step (List Str)
  | 0, forTheme => pure forTheme
  | turns + 1, forTheme =>
    if tooLong d.toUnicode forTheme then do
      let groups := chunked 2 forTheme
      update fun p => { p with total := p.total + groups.length }
      let forTheme ← foldRound d session lang groups
      fold d session lang turns forTheme
    else pure forTheme

def themeAsk (lang : Str) (forTheme : List Str) : Ask :=
  ⟨format (said theme lang) [labelled forTheme 1 (said partWord lang)], 160⟩

def perGroup (groups : Nat) : Nat :=
  let wanted := if groups = 1 then pointsShort else maxPoints
  max 3 ((wanted + groups - 1) / groups)

def pointsAsk (lang theme : Str) (groups g : Nat) (notes : List Str) : Ask :=
  let first := g * notesPerCall + 1
  let last := first + notes.length - 1
  let range := if first = last then decimal first
    else format (said to_ lang) [decimal first, decimal last]
  ⟨format (said points lang)
    [theme, range, labelled notes first (said partWord lang), decimal (perGroup groups)], 320⟩

/-- What a points call adds. -/
def added (d : Device) (groups : Nat) (raw : Option Str) : List Str :=
  match raw with
  | none => []
  | some raw => keepPoints d raw (perGroup groups)

/-- The loop over the groups of notes. -/
def takePoints (d : Device) (session : Session) (lang theme : Str) (groups : List (List Str)) :
    Step (List Str) :=
  groups.zipIdx.foldlM (fun points g => do
    let raw ← run d session (pointsAsk lang theme groups.length g.2 g.1)
    return points ++ added d groups.length raw) []

def distinctFrom (key : Str → Str) (seen : List Str) : List Str → List Str
  | [] => []
  | p :: rest =>
    if key p ∈ seen then distinctFrom key seen rest
    else p :: distinctFrom key (key p :: seen) rest

def distinctBy (key : Str → Str) (points : List Str) : List Str := distinctFrom key [] points

/-- The theme, a blank line, and one point per line. -/
def written (theme : Str) (kept : List Str) : Str :=
  joinToString (kt "\n\n") ([theme, joinToString (kt "\n") (kept.map (kt "- " ++ ·))].filter
    fun s => !isBlank s)

/-- From the notes on; `none` inside is a null that no cancel is behind. -/
def fromNotes (d : Device) (session : Session) (lang : Str) (notes : List Str) :
    Step (Option Str) :=
  if notes = [] then pure none
  else do
    let forTheme ← fold d session lang notes.length notes
    let theme := ((← run d session (themeAsk lang forTheme)).map trim).getD []
    let groups := chunked notesPerCall notes
    update fun p => { p with total := p.total + (groups.length - 1) }
    let points ← takePoints d session lang theme groups
    let kept := distinctBy d.lowercase points
    return if kept = [] then none else some (written theme kept)

/-- From the loaded session on. -/
def withSession (d : Device) (session : Session) (lang clean : Str) (parts : List Str) :
    Step (Option Str) := do
  let notes ← allNotes d session lang clean parts
  fromNotes d session lang notes

def idle (parts : List Str) : World Progress Ask Str :=
  ⟨[], 0, ⟨(if 1 < parts.length then parts.length else 0) + 2, 0, []⟩⟩

/-- The summary, or `none` where `summarise` returns null. -/
def summarise (d : Device) (session : Session) (transcript language : Str)
    (cancelled : Nat → Bool) : Option Str × World Progress Ask Str :=
  let lang := tongue d.toUnicode language
  let clean := unstuttered d.toUnicode transcript
  let parts := pieces d.toUnicode clean
  if words d.toUnicode clean < minWords then (none, idle parts)
  else if !session.loaded then (none, idle parts)
  else
    let (r, w) := withSession d session lang clean parts cancelled (idle parts)
    (r.join, w)

end ReadersSpeech.Summariser
