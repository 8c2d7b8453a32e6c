import Mathlib.Data.Rat.Defs
import ReadersSpeech.Summariser

/-! What the summariser asks the model and what it keeps of the answers: the instructions, the
labels of the notes, `keepPoints`, and the preamble that `unprefaced` takes off a note.
-/

set_option autoImplicit false

namespace ReadersSpeech.Summariser
open Splitting

/-- What the summary needs of the platform besides. -/
structure Device extends Unicode where
  /-- A character against one of a pattern, under `IGNORE_CASE`. -/
  sameLetter : UInt16 → UInt16 → Bool
  /-- A word character for `\b`. -/
  wordChar : UInt16 → Bool
  /-- The nearest single-precision number. -/
  float : ℚ → ℚ

def notesBudget : Nat := 1500
def maxPoints : Nat := 12
def pointsShort : Nat := 8
def notesPerCall : Nat := 4
def minWords : Nat := 120
def pointWords : Nat := 45

def part : List (Str × Str) :=
  [(kt "en", kt "Here is part %1$d of %2$d of the transcript of a talk. Note what is said in this part, in one paragraph of at most 120 words, as plain statements of the ideas: not \"the speaker says\", just the ideas themselves, and what they lead to. Write nothing else. Answer in English, even if the transcript is in another language.\n\nTRANSCRIPT:\n%3$s"),
    (kt "fr", kt "Voici la partie %1$d sur %2$d de la transcription d'une causerie. Note ce qui y est dit, en un paragraphe de 120 mots au plus, sous forme d'affirmations simples : pas « l'orateur dit », seulement les idées elles-mêmes et où elles mènent. N'écris rien d'autre. Réponds en français, même si la transcription est dans une autre langue.\n\nTRANSCRIPTION :\n%3$s"),
    (kt "de", kt "Hier ist Teil %1$d von %2$d der Abschrift eines Vortrags. Halte fest, was in diesem Teil gesagt wird, in einem Absatz von höchstens 120 Wörtern, als schlichte Aussagen: nicht „der Redner sagt“, nur die Gedanken selbst und wohin sie führen. Schreibe sonst nichts. Antworte auf Deutsch, auch wenn die Abschrift in einer anderen Sprache ist.\n\nABSCHRIFT:\n%3$s"),
    (kt "es", kt "Esta es la parte %1$d de %2$d de la transcripción de una charla. Anota lo que se dice en esta parte, en un párrafo de 120 palabras como máximo, como afirmaciones simples: no «el orador dice», solo las ideas mismas y adónde llevan. No escribas nada más. Responde en español, aunque la transcripción esté en otro idioma.\n\nTRANSCRIPCIÓN:\n%3$s"),
    (kt "pt", kt "Esta é a parte %1$d de %2$d da transcrição de uma palestra. Anota o que é dito nesta parte, num parágrafo de 120 palavras no máximo, como afirmações simples: não «o orador diz», apenas as ideias em si e aonde levam. Não escrevas mais nada. Responde em português, mesmo que a transcrição esteja noutra língua.\n\nTRANSCRIÇÃO:\n%3$s"),
    (kt "ru", kt "Вот часть %1$d из %2$d расшифровки беседы. Запиши, что в ней говорится, одним абзацем не более 120 слов, в виде простых утверждений: не «докладчик говорит», а сами мысли и к чему они ведут. Больше ничего не пиши. Отвечай по-русски, даже если расшифровка на другом языке.\n\nРАСШИФРОВКА:\n%3$s")]

def group : List (Str × Str) :=
  [(kt "en", kt "Here are, in order, notes on two consecutive parts of a talk. Merge them into one paragraph of at most 160 words that keeps the thread of the argument. Write nothing else. Answer in English, even if the transcript is in another language.\n\nNOTES:\n%s"),
    (kt "fr", kt "Voici, dans l'ordre, des notes sur deux parties consécutives d'une causerie. Fusionne-les en un paragraphe de 160 mots au plus qui garde le fil du raisonnement. N'écris rien d'autre. Réponds en français, même si la transcription est dans une autre langue.\n\nNOTES :\n%s"),
    (kt "de", kt "Hier sind, der Reihe nach, Notizen zu zwei aufeinanderfolgenden Teilen eines Vortrags. Fasse sie zu einem Absatz von höchstens 160 Wörtern zusammen, der den Faden der Argumentation behält. Schreibe sonst nichts. Antworte auf Deutsch, auch wenn die Abschrift in einer anderen Sprache ist.\n\nNOTIZEN:\n%s"),
    (kt "es", kt "Estas son, en orden, notas sobre dos partes consecutivas de una charla. Fúndelas en un párrafo de 160 palabras como máximo que conserve el hilo del razonamiento. No escribas nada más. Responde en español, aunque la transcripción esté en otro idioma.\n\nNOTAS:\n%s"),
    (kt "pt", kt "Estas são, por ordem, notas sobre duas partes consecutivas de uma palestra. Funde-as num parágrafo de 160 palavras no máximo que mantenha o fio do raciocínio. Não escrevas mais nada. Responde em português, mesmo que a transcrição esteja noutra língua.\n\nNOTAS:\n%s"),
    (kt "ru", kt "Вот по порядку заметки о двух следующих друг за другом частях беседы. Объедини их в один абзац не более 160 слов, сохранив ход рассуждения. Больше ничего не пиши. Отвечай по-русски, даже если расшифровка на другом языке.\n\nЗАМЕТКИ:\n%s")]

def theme : List (Str × Str) :=
  [(kt "en", kt "Here are, in order, notes on the parts of a talk. In two sentences, say what the talk is about and what the speaker wants the listener to understand. Write nothing else. Answer in English, even if the transcript is in another language.\n\nNOTES:\n%s"),
    (kt "fr", kt "Voici, dans l'ordre, des notes sur les parties d'une causerie. En deux phrases, dis de quoi parle la causerie et ce que l'orateur veut faire comprendre. N'écris rien d'autre. Réponds en français, même si la transcription est dans une autre langue.\n\nNOTES :\n%s"),
    (kt "de", kt "Hier sind, der Reihe nach, Notizen zu den Teilen eines Vortrags. Sage in zwei Sätzen, worum es in dem Vortrag geht und was der Redner dem Zuhörer verständlich machen will. Schreibe sonst nichts. Antworte auf Deutsch, auch wenn die Abschrift in einer anderen Sprache ist.\n\nNOTIZEN:\n%s"),
    (kt "es", kt "Estas son, en orden, notas sobre las partes de una charla. En dos frases, di de qué trata la charla y qué quiere el orador que el oyente entienda. No escribas nada más. Responde en español, aunque la transcripción esté en otro idioma.\n\nNOTAS:\n%s"),
    (kt "pt", kt "Estas são, por ordem, notas sobre as partes de uma palestra. Em duas frases, diz de que trata a palestra e o que o orador quer que o ouvinte compreenda. Não escrevas mais nada. Responde em português, mesmo que a transcrição esteja noutra língua.\n\nNOTAS:\n%s"),
    (kt "ru", kt "Вот по порядку заметки о частях беседы. В двух предложениях скажи, о чём беседа и что докладчик хочет донести до слушателя. Больше ничего не пиши. Отвечай по-русски, даже если расшифровка на другом языке.\n\nЗАМЕТКИ:\n%s")]

def points : List (Str × Str) :=
  [(kt "en", kt "Here is what a talk is about:\n%1$s\n\nAnd here are, in order, notes on parts %2$s of that talk:\n%3$s\n\nWrite the %4$d main points of these parts, in order, one per line, each line starting with \"- \". Each point states an idea as a plain sentence, as the speaker would put it — never \"the talk discusses\" or \"the speaker emphasizes\". Write nothing else. Answer in English, even if the transcript is in another language."),
    (kt "fr", kt "Voici de quoi parle une causerie :\n%1$s\n\nEt voici, dans l'ordre, des notes sur les parties %2$s de cette causerie :\n%3$s\n\nÉcris les %4$d points principaux de ces parties, dans l'ordre, un par ligne, chaque ligne commençant par « - ». Chaque point énonce une idée en une phrase complète, comme l'orateur la dirait — jamais « la causerie aborde » ni « l'orateur insiste ». N'écris rien d'autre. Réponds en français, même si la transcription est dans une autre langue."),
    (kt "de", kt "Darum geht es in einem Vortrag:\n%1$s\n\nUnd hier sind, der Reihe nach, Notizen zu den Teilen %2$s dieses Vortrags:\n%3$s\n\nSchreibe die %4$d wichtigsten Punkte dieser Teile, der Reihe nach, einen pro Zeile, jede Zeile beginnt mit „- “. Jeder Punkt formuliert einen Gedanken als ganzen Satz, so wie der Redner ihn sagen würde — nie „der Vortrag behandelt“ oder „der Redner betont“. Schreibe sonst nichts. Antworte auf Deutsch, auch wenn die Abschrift in einer anderen Sprache ist."),
    (kt "es", kt "De esto trata una charla:\n%1$s\n\nY estas son, en orden, notas sobre las partes %2$s de esa charla:\n%3$s\n\nEscribe los %4$d puntos principales de estas partes, en orden, uno por línea, cada línea empezando por «- ». Cada punto enuncia una idea como una frase completa, tal como la diría el orador — nunca «la charla trata» ni «el orador insiste». No escribas nada más. Responde en español, aunque la transcripción esté en otro idioma."),
    (kt "pt", kt "É disto que trata uma palestra:\n%1$s\n\nE estas são, por ordem, notas sobre as partes %2$s dessa palestra:\n%3$s\n\nEscreve os %4$d pontos principais destas partes, por ordem, um por linha, cada linha a começar por «- ». Cada ponto enuncia uma ideia numa frase completa, como o orador a diria — nunca «a palestra aborda» nem «o orador sublinha». Não escrevas mais nada. Responde em português, mesmo que a transcrição esteja noutra língua."),
    (kt "ru", kt "Вот о чём беседа:\n%1$s\n\nА вот по порядку заметки о частях %2$s этой беседы:\n%3$s\n\nНапиши %4$d основных мыслей этих частей, по порядку, по одной в строке, каждая строка начинается с «- ». Каждая мысль — законченное предложение, как сказал бы сам докладчик, никогда «в беседе говорится» или «докладчик подчёркивает». Больше ничего не пиши. Отвечай по-русски, даже если расшифровка на другом языке.")]

/-- "1 to 4" in each language, for the parts a points call is given. -/
def to_ : List (Str × Str) :=
  [(kt "en", kt "%d to %d"), (kt "fr", kt "%d à %d"), (kt "de", kt "%d bis %d"),
    (kt "es", kt "%d a %d"), (kt "pt", kt "%d a %d"), (kt "ru", kt "%d–%d")]

def partWord : List (Str × Str) :=
  [(kt "en", kt "Part"), (kt "fr", kt "Partie"), (kt "de", kt "Teil"), (kt "es", kt "Parte"),
    (kt "pt", kt "Parte"), (kt "ru", kt "Часть")]

def tongue (u : Unicode) (language : Str) : Str :=
  let lang := (u.lowercase language).take 2
  if (part.lookup lang).isSome then lang else kt "en"

/-- `table[lang]!!`; every table has the languages that `tongue` gives. -/
def said (table : List (Str × Str)) (lang : Str) : Str := (table.lookup lang).getD []

/-- `template.format(args)`: `%s` and `%d` take the next argument, `%2$s` the second. -/
def formatFrom (args : List Str) : Nat → Str → Str
  | n, c :: d :: e :: f :: rest =>
    if c == codeUnit '%' && (d == codeUnit 's' || d == codeUnit 'd') then
      args.getD n [] ++ formatFrom args (n + 1) (e :: f :: rest)
    else if c == codeUnit '%' && e == codeUnit '$' then
      args.getD (d.toNat - 49) [] ++ formatFrom args n rest
    else c :: formatFrom args n (d :: e :: f :: rest)
  | n, c :: d :: rest =>
    if c == codeUnit '%' && (d == codeUnit 's' || d == codeUnit 'd') then args.getD n [] ++ rest
    else c :: formatFrom args n (d :: rest)
  | _, short => short

def format (template : Str) (args : List Str) : Str := formatFrom args 0 template

def decimal (n : Nat) : Str := kt (toString n)

/-- The notes with their part numbers, `start` onwards, as the theme and points steps read them. -/
def labelled (notes : List Str) (start : Nat) (word : Str) : Str :=
  joinToString (kt "\n\n") (notes.mapIdx fun i n =>
    word ++ kt " " ++ decimal (start + i) ++ kt ": " ++ n)

def carriageReturn : UInt16 := codeUnit '\r'

/-- `\r\n`, `\n` or `\r`. -/
def lineBreak : Pattern UInt16 := fun _ s =>
  match s with
  | c :: d :: _ =>
    if c = carriageReturn then (if d = newline then 2 else 1) else if c = newline then 1 else 0
  | [c] => if c = carriageReturn ∨ c = newline then 1 else 0
  | [] => 0

def lines (s : Str) : List Str := split lineBreak s

/-- A note without the preamble a small model sometimes opens with. -/
def unprefaced (answer : Str) : Str :=
  let t := trim answer
  let first := trim ((lines t).headD [])
  if (kt ":").isSuffixOf first && decide (first.length < 120) then trim (removePrefix first t) else t

/-- The alternatives of `META`. -/
def narrators : List Str :=
  [kt "the talk", kt "the speaker", kt "this talk", kt "this part", kt "la causerie",
    kt "le discours", kt "l'orateur", kt "l'oratrice", kt "la conférence", kt "der vortrag",
    kt "der redner", kt "die rednerin", kt "la charla", kt "el orador", kt "la oradora",
    kt "a palestra", kt "o orador", kt "a oradora", kt "доклад", kt "лектор", kt "оратор"]

/-- `META.containsMatchIn(p)`: one of them at the start, and a word boundary after it. -/
def narrates (d : Device) (p : Str) : Bool :=
  narrators.any fun n =>
    decide (n.length ≤ p.length) && (n.zip p).all (fun c => d.sameLetter c.1 c.2) &&
      ((p.take n.length).getLast?.any d.wordChar != (p[n.length]?).any d.wordChar)

/-- The loop of `firstSentences`, with its builder. -/
def firstFrom (u : Unicode) (out : Str) : List Str → Str
  | [] => out
  | sentence :: rest =>
    if out ≠ [] ∧ pointWords < words u out + words u sentence then out
    else firstFrom u (out ++ sentence ++ kt " ") rest

def firstSentences (u : Unicode) (p : Str) : Str :=
  if words u p ≤ pointWords then p
  else
    let t := trim (firstFrom u [] (split (afterMark u) p))
    if isBlank t then p else t

/-- The pieces between runs of what is neither letter nor digit. -/
def between (u : Unicode) (inRun : Bool) (cur : Str) : List (Nat × Str) → List Str
  | [] => [cur]
  | (p, c) :: rest =>
    if u.word p then between u false (cur ++ c) rest
    else if inRun then between u true cur rest
    else cur :: between u true [] rest

/-- The words of more than two characters, each once. -/
def wordSet (u : Unicode) (s : Str) : List Str :=
  ((between u false [] (codePoints (u.lowercase s))).filter fun w => decide (2 < w.length)).dedup

/-- Two points that say the same thing in nearly the same words. -/
def alike (u : Unicode) (a b : Str) : Bool :=
  let wa := wordSet u a
  let wb := wordSet u b
  if wa.isEmpty || wb.isEmpty then u.equalsIgnoreCase a b
  else
    let shared := (wa.filter (wb.contains ·)).length
    decide ((7 / 10 : ℚ) ≤ shared / (min wa.length wb.length : ℕ))

def bullet (line : Str) : Bool :=
  (kt "-").isPrefixOf line || (kt "•").isPrefixOf line || (kt "*").isPrefixOf line

def unbulleted (line : Str) : Str :=
  let p := trim (trimBy (· == codeUnit '*') (trim (removePrefix (kt "*")
    (removePrefix (kt "•") (removePrefix (kt "-") line)))))
  trim (removePrefix (kt "-") p)

/-- A line the model broke in the middle of a sentence is no point. -/
def isPoint (d : Device) (p : Str) : Bool :=
  (decide (3 < p.length) && !narrates d p) &&
    (decide (4 ≤ words d.toUnicode p) &&
      !(kt ",").isSuffixOf (p.rdropWhile isWhitespace) &&
      !(kt ";").isSuffixOf (p.rdropWhile isWhitespace))

def unlike (u : Unicode) (acc : List Str) (p : Str) : List Str :=
  if acc.any fun q => alike u q p then acc else acc ++ [p]

def keepPoints (d : Device) (raw : Str) (limit : Nat) : List Str :=
  let bullets := ((lines raw).map trim).filter bullet
  let cleaned := bullets.map fun line => firstSentences d.toUnicode (unbulleted line)
  ((cleaned.filter (isPoint d)).foldl (unlike d.toUnicode) []).take limit

end ReadersSpeech.Summariser
