import ReadersSpeech.Words

/-! The two passes of Summariser.kt over a transcript before the model reads it: `unstuttered`
drops the sentences that repeat the one before, and `pieces` cuts what is left into pieces of at
most 900 words.
-/

set_option autoImplicit false

namespace ReadersSpeech.Summariser
open Splitting

def wordsPerPiece : Nat := 900

def newline : UInt16 := codeUnit '\n'

/-- `(?<=[.!?…])\s+`. -/
def afterMark (u : Unicode) : Pattern UInt16
  | some c, s => if (kt ".!?…").contains c then (s.takeWhile u.space).length else 0
  | none, _ => 0

/-- `(?<=[.!?…])\s+|\n`. -/
def sentenceOrLine (u : Unicode) : Pattern UInt16 := fun prev s =>
  if 0 < afterMark u prev s then afterMark u prev s
  else if s.head? = some newline then 1 else 0

/-- `\n\s*\n`: as far as the last newline of the run. -/
def blankLine (u : Unicode) : Pattern UInt16
  | _, [] => 0
  | _, c :: s =>
    let run := (s.takeWhile u.space).rdropWhile (· != newline)
    if c = newline ∧ run ≠ [] then 1 + run.length else 0

def key (u : Unicode) (sentence : Str) : Str := trim (wordsOnly u (u.lowercase sentence))

def unstutteredFrom (u : Unicode) (out last : Str) : List Str → Str
  | [] => out
  | sentence :: rest =>
    let key := key u sentence
    if key ≠ [] ∧ key = last then unstutteredFrom u out last rest
    else
      let space := if (kt "\n").isSuffixOf sentence then [] else kt " "
      unstutteredFrom u (out ++ sentence ++ space) (if key ≠ [] then key else last) rest

/-- `replace(Regex(" +\n"), "\n")`. -/
def unpadLines : Str → Str
  | [] => []
  | c :: s =>
    if c = codeUnit ' ' ∧ (s.dropWhile (· == codeUnit ' ')).head? = some newline then unpadLines s
    else c :: unpadLines s

def unstuttered (u : Unicode) (text : Str) : Str :=
  trim (unpadLines (unstutteredFrom u [] [] (split (sentenceOrLine u) text)))

/-- No sentence ends at all: by words. -/
def byWords (u : Unicode) (sentence : Str) : List Str :=
  (chunked wordsPerPiece (tokens u sentence)).map (joinToString (kt " "))

/-- The loop over the sentences of a paragraph too long for a piece, with `chunk` and `k`. -/
def cutFrom (u : Unicode) (out : List Str) (chunk : Str) (k : Nat) : List Str → List Str
  | [] => if isBlank chunk then out else out ++ [trim chunk]
  | sentence :: rest =>
    let m := words u sentence
    if wordsPerPiece < m then
      if isBlank chunk then cutFrom u (out ++ byWords u sentence) chunk k rest
      else cutFrom u (out ++ [trim chunk] ++ byWords u sentence) [] 0 rest
    else if 0 < k ∧ wordsPerPiece < k + m then
      cutFrom u (out ++ [trim chunk]) (sentence ++ kt " ") m rest
    else cutFrom u out (chunk ++ sentence ++ kt " ") (k + m) rest

def flush (out : List Str) (cur : Str) : List Str := if isBlank cur then out else out ++ [trim cur]

/-- The loop of `pieces`, with `out`, `cur` and `words`. -/
def piecesFrom (u : Unicode) (out : List Str) (cur : Str) (count : Nat) : List Str → List Str
  | [] => flush out cur
  | para :: rest =>
    let n := words u para
    if wordsPerPiece < n then
      piecesFrom u (cutFrom u (flush out cur) [] 0 (split (afterMark u) para)) [] 0 rest
    else if 0 < count ∧ wordsPerPiece < count + n then
      piecesFrom u (flush out cur) (para ++ kt "\n\n") n rest
    else piecesFrom u out (cur ++ para ++ kt "\n\n") (count + n) rest

def paragraphs (u : Unicode) (text : Str) : List Str := split (blankLine u) text

def pieces (u : Unicode) (text : Str) : List Str :=
  piecesFrom u [] [] 0 ((paragraphs u text).filter fun p => !isBlank p)

end ReadersSpeech.Summariser
