import Mathlib.Algebra.Order.Ring.Rat
import ReadersSpeech.Remembering
import ReadersSpeech.Text
import ReadersSpeech.Transition

/-! `ModelFiles.holder` and `ModelFiles.refresh`, called from any number of threads; `available` is
`holder`, and tells only whether it is null. What the apps hold changes at any time, and the wall
clock shows anything. Real time is in milliseconds.
-/

set_option autoImplicit false

namespace ReadersSpeech.ModelFiles
open Remembering Transition

def SIBLINGS : List Str :=
  [kt "com.freedomfighter.readersaudio", kt "com.freedomfighter.readersrecorder",
    kt "com.freedomfighter.readerspodcasts", kt "com.freedomfighter.readersnotes",
    kt "com.freedomfighter.readersphone"]

def CACHE_MS : Int64 := 5000

/-- A call of `holder`, when it started, and how often `refresh` had completed by then. -/
structure Query where
  name : Str
  minBytes : Int64
  started : ℚ
  refreshes : ℕ
  deriving DecidableEq

inductive Pc where
  | idle
  | readingOwn (q : Query)
  | readingClock (q : Query)
  | looking (q : Query) (now : Reading ℚ)
  | asking (q : Query) (now : Reading ℚ) (rest : List Str)
  | storing (q : Query) (now : Reading ℚ) (who : Answer (Option Str) ℚ)
  deriving DecidableEq

/-- What a call returned, and the earlier answer it was when it came from the cache. -/
structure Return where
  query : Query
  who : Option Str
  cached : Option (Answer (Option Str) ℚ)
  deriving DecidableEq

/-- `own` is the length of a file of ours, `shared` the size of a descriptor that another app hands
over: `none` when there is no such file, or no descriptor. -/
structure State (ι : Type) where
  own : Str → Option Int64
  shared : Str → Str → Option Int64
  cache : Memory Str (Option Str) ℚ
  calls : ι → Pc
  time : ℚ
  refreshes : ℕ
  returned : List Return

inductive Event (ι : Type) where
  | call (i : ι) (name : Str) (minBytes : Int64)
  /-- `System.currentTimeMillis` shows `shown`. -/
  | reads (i : ι) (shown : Int64)
  | go (i : ι)
  | refresh
  | holds (own : Str → Option Int64) (shared : Str → Str → Option Int64)
  | passes (t : ℚ)

variable {ι : Type} [DecidableEq ι]

def enough (size : Option Int64) (minBytes : Int64) : Bool :=
  match size with
  | none => false
  | some n => decide (minBytes ≤ n)

def goTo (x : State ι) (i : ι) (pc : Pc) : State ι :=
  { x with calls := Function.update x.calls i pc }

def returns (x : State ι) (i : ι) (r : Return) : State ι :=
  { goTo x i .idle with returned := x.returned ++ [r] }

/-- The question goes to the first app of `rest`, unless it is ours. -/
def ask (packageName : Str) (x : State ι) (i : ι) (q : Query) (now : Reading ℚ) :
    List Str → State ι
  | [] => goTo x i (.storing q now ⟨none, x.time, x.refreshes⟩)
  | pkg :: rest =>
    if pkg ≠ packageName ∧ enough (x.shared pkg q.name) q.minBytes = true then
      goTo x i (.storing q now ⟨some pkg, x.time, x.refreshes⟩)
    else goTo x i (.asking q now rest)

/-- The next step of a call, after it has read the clock or before. -/
def go (packageName : Str) (x : State ι) (i : ι) : Option (State ι) :=
  match x.calls i with
  | .idle | .readingClock _ => none
  | .readingOwn q =>
    some (if enough (x.own q.name) q.minBytes then returns x i ⟨q, some packageName, none⟩
      else goTo x i (.readingClock q))
  | .looking q now =>
    some (match x.cache.look CACHE_MS q.name now with
      | some a => returns x i ⟨q, a.value, some a⟩
      | none => goTo x i (.asking q now SIBLINGS))
  | .asking q now rest => some (ask packageName x i q now rest)
  | .storing q now who =>
    some { returns x i ⟨q, who.value, none⟩ with cache := x.cache.put q.name now who }

def step (packageName : Str) (x : State ι) : Event ι → Option (State ι)
  | .call i name minBytes =>
    if x.calls i = .idle then
      some (goTo x i (.readingOwn ⟨name, minBytes, x.time, x.refreshes⟩))
    else none
  | .reads i shown =>
    match x.calls i with
    | .readingClock q => some (goTo x i (.looking q ⟨shown, x.time⟩))
    | _ => none
  | .go i => go packageName x i
  | .refresh => some { x with cache := Memory.clear, refreshes := x.refreshes + 1 }
  | .holds own shared => some { x with own := own, shared := shared }
  | .passes t => if x.time ≤ t then some { x with time := t } else none

/-- Nothing is remembered yet, and nobody has called. -/
structure Fresh (x : State ι) : Prop where
  cache : x.cache = Memory.clear
  calls : ∀ i, x.calls i = .idle
  returned : x.returned = []

/-- An answer is stored only where no `refresh` has completed since it was obtained, and the clock
shows the five seconds that have passed. -/
def Kept (x : State ι) : Event ι → Prop
  | .go i =>
    match x.calls i with
    | .looking q now => x.cache.Shows CACHE_MS 5000 q.name now
    | .storing _ _ who => who.epoch = x.refreshes
    | _ => True
  | _ => True

/-- No answer from the cache was obtained before a `refresh` that had completed when the call
started, or more than five seconds before it started. -/
def Forgotten (x : State ι) : Prop :=
  ∀ r ∈ x.returned, ∀ a ∈ r.cached,
    r.query.refreshes ≤ a.epoch ∧ r.query.started - a.time ≤ 5000

end ReadersSpeech.ModelFiles
