import Mathlib.Tactic.Positivity
import ReadersSpeech.Paragraphs
import ReadersSpeech.Rounding

/-! `Translator` of Translator.kt, with what it calls of `LlamaSession`. The model may answer
anything, differently each time, and report any figures while it does. The events of a run are the
tests of `cancelled()` and the two ends of each call of the model.
-/

set_option autoImplicit false

namespace ReadersSpeech.Translator
open Splitting Rounding

def blockChars : Nat := 700

structure Block where
  startMs : Int64
  endMs : Int64
  text : Str
  deriving DecidableEq, Repr

/-- The loop of `group`; `text` is the builder, and `start` below 0 when no block is open. -/
def groupFrom (out : List Block) (start end_ : Int64) (text : Str) : List Segment → List Block
  | [] => if text.isEmpty then out else out ++ [⟨max start 0, end_, text⟩]
  | s :: rest =>
    let piece := trim s.text
    if piece.isEmpty then groupFrom out start end_ text rest
    else
      let start := if start < 0 then s.startMs else start
      let text := (if text.isEmpty then text else text ++ kt " ") ++ piece
      if blockChars ≤ text.length then
        groupFrom (out ++ [⟨start, s.endMs, text⟩]) (-1) s.endMs [] rest
      else groupFrom out start s.endMs text rest

def group (segments : List Segment) : List Block := groupFrom [] (-1) 0 [] segments

def primers : List Str :=
  [kt "TRADUCTION EN FRANÇAIS :", kt "TRADUCTION EN FRANÇAIS:", kt "TRANSLATION INTO ENGLISH:",
    kt "ÜBERSETZUNG AUF DEUTSCH:", kt "TRADUCCIÓN AL ESPAÑOL:", kt "TRADUÇÃO PARA PORTUGUÊS:",
    kt "ПЕРЕВОД НА РУССКИЙ:"]

def ask : List (Str × Str) :=
  [(kt "en", kt "Translate the passage below into English. Give the English translation only: no comment, no note, no source text.\n\nPASSAGE:\n%s\n\nTRANSLATION INTO ENGLISH:"),
    (kt "fr", kt "Traduis en français le passage ci-dessous. Rends uniquement la traduction française : pas de commentaire, pas de note, pas le texte d'origine.\n\nPASSAGE :\n%s\n\nTRADUCTION EN FRANÇAIS :"),
    (kt "de", kt "Übersetze den folgenden Abschnitt auf Deutsch. Gib nur die deutsche Übersetzung: kein Kommentar, keine Anmerkung, nicht den Ausgangstext.\n\nABSCHNITT:\n%s\n\nÜBERSETZUNG AUF DEUTSCH:"),
    (kt "es", kt "Traduce al español el pasaje siguiente. Da solo la traducción española: sin comentario, sin nota, sin el texto de origen.\n\nPASAJE:\n%s\n\nTRADUCCIÓN AL ESPAÑOL:"),
    (kt "pt", kt "Traduz para português o trecho abaixo. Dá apenas a tradução portuguesa: sem comentário, sem nota, sem o texto de origem.\n\nTRECHO:\n%s\n\nTRADUÇÃO PARA PORTUGUÊS:"),
    (kt "ru", kt "Переведи следующий отрывок на русский язык. Дай только русский перевод: без комментариев, без примечаний, без исходного текста.\n\nОТРЫВОК:\n%s\n\nПЕРЕВОД НА РУССКИЙ:")]

def strict : List (Str × Str) :=
  [(kt "en", kt "You are translating into English. Write the English of the passage below, sentence for sentence, and nothing else — no preamble, no explanation, not one word of the original.\n\nPASSAGE:\n%s\n\nTRANSLATION INTO ENGLISH:"),
    (kt "fr", kt "Tu traduis en français. Écris le français du passage ci-dessous, phrase après phrase, et rien d'autre — pas de préambule, pas d'explication, pas un mot de l'original.\n\nPASSAGE :\n%s\n\nTRADUCTION EN FRANÇAIS :"),
    (kt "de", kt "Du übersetzt auf Deutsch. Schreibe das Deutsche des folgenden Abschnitts, Satz für Satz, und sonst nichts — keine Vorrede, keine Erklärung, kein Wort des Originals.\n\nABSCHNITT:\n%s\n\nÜBERSETZUNG AUF DEUTSCH:"),
    (kt "es", kt "Estás traduciendo al español. Escribe el español del pasaje siguiente, frase por frase, y nada más: sin preámbulo, sin explicación, ni una palabra del original.\n\nPASAJE:\n%s\n\nTRADUCCIÓN AL ESPAÑOL:"),
    (kt "pt", kt "Estás a traduzir para português. Escreve o português do trecho abaixo, frase a frase, e nada mais: sem preâmbulo, sem explicação, nem uma palavra do original.\n\nTRECHO:\n%s\n\nTRADUÇÃO PARA PORTUGUÊS:"),
    (kt "ru", kt "Ты переводишь на русский язык. Напиши русский текст отрывка ниже, предложение за предложением, и больше ничего — без предисловий, без объяснений, ни слова из оригинала.\n\nОТРЫВОК:\n%s\n\nПЕРЕВОД НА РУССКИЙ:")]

/-- `template.format(text)`; every template has one `%s`. -/
def format (text : Str) : Str → Str
  | c :: d :: rest =>
    if c == codeUnit '%' && d == codeUnit 's' then text ++ rest else c :: format text (d :: rest)
  | short => short

def template (table : List (Str × Str)) (target : Str) : Str :=
  ((table.lookup target).orElse fun _ => table.lookup (kt "en")).getD []

def prompt (table : List (Str × Str)) (target text : Str) : Str :=
  format text (template table target)

/-- `s.startsWith(p, ignoreCase = true)`. -/
def startsWith (u : Unicode) (s p : Str) : Bool :=
  decide (p.length ≤ s.length) && u.equalsIgnoreCase (s.take p.length) p

def strip (u : Unicode) (answer : Str) : Str :=
  let s := primers.foldl (fun s p => if startsWith u s p then trim (s.drop p.length) else s)
    (trim answer)
  trim (removeSuffix (kt "\"") (removePrefix (kt "\"") s))

def ratio (clean text : Str) : ℚ := (clean.length : ℚ) / (max text.length 1 : ℕ)

/-- The quotient of doubles falls on the same side of both bounds, for the lengths of strings. -/
theorem ratio_rounds {round : ℚ → ℚ} (h : RoundsToNearest round) {clean text : Str}
    (ht : text.length < 2 ^ 31) :
    (round (ratio clean text) < round (4 / 10) ↔ ratio clean text < 4 / 10) ∧
      (round (25 / 10) < round (ratio clean text) ↔ 25 / 10 < ratio clean text) := by
  unfold ratio
  have hlen : 1 ≤ max text.length 1 ∧ max text.length 1 ≤ 2 ^ 31 := by omega
  generalize max text.length 1 = n at hlen
  have hpos : (0 : ℚ) < n := by exact_mod_cast hlen.1
  have hn : (n : ℚ) ≤ 2147483648 := by exact_mod_cast hlen.2
  refine ⟨h.lt_iff (by positivity) fun hlt => ⟨by norm_num at hlt ⊢; linarith, ?_⟩,
    h.lt_iff (by norm_num) fun hlt => ⟨by norm_num, ?_⟩⟩
  · rw [div_lt_iff₀ hpos] at hlt
    have hq : (5 * clean.length + 1 : ℚ) ≤ 2 * n := by
      have hq : (5 * clean.length : ℚ) < 2 * n := by linarith
      exact_mod_cast (by exact_mod_cast hq : 5 * clean.length < 2 * n)
    rw [← le_sub_iff_add_le, div_le_iff₀ hpos]
    norm_num
    linarith
  · rw [lt_div_iff₀ hpos] at hlt
    have hq : (5 * n + 1 : ℚ) ≤ 2 * clean.length := by
      have hq : (5 * n : ℚ) < 2 * clean.length := by linarith
      exact_mod_cast (by exact_mod_cast hq : 5 * n < 2 * clean.length)
    rw [le_div_iff₀ hpos]
    norm_num
    linarith

def judge (u : Unicode) (text : Str) (answer : Option Str) : Option Str :=
  match answer.map trim with
  | none => none
  | some answer =>
    if isBlank answer then none
    else
      let clean := strip u answer
      if u.equalsIgnoreCase clean (trim text) then none
      else if ratio clean text < 4 / 10 ∨ 25 / 10 < ratio clean text then none
      else some clean

/-- One call of the model: the figures the poller reads while it runs, and what it generates. -/
structure Attempt where
  reports : List Int
  generated : Str
  deriving DecidableEq, Repr

structure Session where
  loaded : Bool
  why : Str
  attempt : Nat → Attempt

inductive Event where
  | tested
  | asked (prompt : Str)
  | answered (generated : Str)
  deriving DecidableEq, Repr

def Event.isAsked : Event → Bool
  | .asked _ => true
  | _ => false

/-- What a run has done: `high` is `shown` of the source, `shown` what `onProgress` was given. -/
structure World where
  events : List Event
  calls : Nat
  high : Int
  shown : List Int
  deriving DecidableEq, Repr

def World.add (w : World) (e : Event) : World := { w with events := w.events ++ [e] }

/-- `(block * 100 + insideBlock.coerceIn(0, 99)) / blocks.size` in 32 bits. -/
def figure (size block : Nat) (insideBlock : Int) : Int :=
  (((block * 100 : Int).bmod (2 ^ 32) + min (max insideBlock 0) 99).bmod (2 ^ 32)).tdiv size

def report (size block : Nat) (w : World) (insideBlock : Int) : World :=
  let p := figure size block insideBlock
  if w.high < p then { w with high := p, shown := w.shown ++ [p] } else w

/-- `LlamaSession.run` on a loaded model. -/
def run (session : Session) (prompt : Str) (onProgress : World → Int → World) (w : World) :
    Option Str × World :=
  let a := session.attempt w.calls
  let w := a.reports.foldl onProgress { w.add (.asked prompt) with calls := w.calls + 1 }
  (if isBlank a.generated then none else some a.generated, w.add (.answered a.generated))

/-- One passage; `none` when the answer is missing, empty, or plainly not a translation. -/
def once (u : Unicode) (session : Session) (text target : Str) (table : List (Str × Str))
    (onProgress : World → Int → World) (w : World) : Option Str × World :=
  let (answer, w) := run session (prompt table target text) onProgress w
  (judge u text answer, w)

/-- One turn of the loop of `translate`, past the test of `cancelled()`. -/
def passage (u : Unicode) (session : Session) (target : Str) (size i : Nat) (block : Block)
    (w : World) : Block × World :=
  let w := report size i w 0
  let first := once u session block.text target ask (report size i) w
  let done := match first.1 with
    | some _ => first
    | none => once u session block.text target strict (report size i) first.2
  ({ block with text := trim (done.1.getD block.text) }, done.2)

/-- The loop of `translate`. `cancelled` is asked with the number of events so far. -/
def translateFrom (u : Unicode) (session : Session) (cancelled : Nat → Bool) (target : Str)
    (size i : Nat) (out : List Block) (w : World) : List Block → Option (List Block) × World
  | [] => (some out, { w with shown := w.shown ++ [100] })
  | block :: rest =>
    if cancelled w.events.length then (none, w.add .tested)
    else
      let (b, w) := passage u session target size i block (w.add .tested)
      translateFrom u session cancelled target size (i + 1) (out ++ [b]) w rest

def idle : World := ⟨[], 0, 0, []⟩

/-- The blocks, or `none` where `translate` returns null; an error is the exception it throws. -/
def translate (u : Unicode) (session : Session) (segments : List Segment) (target : Str)
    (cancelled : Nat → Bool) : Except Str (Option (List Block)) × World :=
  let blocks := group segments
  if blocks.isEmpty then (.ok (some []), idle)
  else if !session.loaded then
    (.error (if isBlank session.why then kt "llama: model not loaded" else session.why), idle)
  else
    let (r, w) := translateFrom u session cancelled target blocks.length 0 [] idle blocks
    (.ok r, w)

end ReadersSpeech.Translator
