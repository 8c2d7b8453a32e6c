import Mathlib.Logic.Function.Basic
import ReadersSpeech.Text
import ReadersSpeech.Transition

/-! `Download.fetch`, step by step, on a disk whose names stand for files as the system keeps them:
an open file stays the same file when its name is given away by a rename. A call may be killed
between any two steps, and the process that was killed leaves its files as they are.
-/

set_option autoImplicit false

namespace ReadersSpeech.Download
open Transition

abbrev Bytes := List UInt8
abbrev Name := Str

structure Disk where
  entry : Name → Option Nat
  data : Nat → Bytes
  fresh : Nat

def Disk.content (d : Disk) (n : Name) : Option Bytes := (d.entry n).map d.data

/-- `FileOutputStream(file, append)`: the file it writes to. -/
def Disk.openFile (d : Disk) (n : Name) (append : Bool) : Nat × Disk :=
  match d.entry n with
  | some i => (i, if append then d else { d with data := Function.update d.data i [] })
  | none => (d.fresh, {
      entry := Function.update d.entry n (some d.fresh)
      data := Function.update d.data d.fresh []
      fresh := d.fresh + 1 })

def Disk.write (d : Disk) (fd offset : Nat) (chunk : Bytes) : Disk :=
  let old := d.data fd
  let gap := List.replicate (offset - old.length) 0
  let new := old.take offset ++ gap ++ chunk ++ old.drop (offset + chunk.length)
  { d with data := Function.update d.data fd new }

def Disk.rename (d : Disk) (source target : Name) : Option Disk :=
  match d.entry source with
  | none => none
  | some i => some { d with
      entry := Function.update (Function.update d.entry target (some i)) source none }

def Disk.delete (d : Disk) (n : Name) : Disk := { d with entry := Function.update d.entry n none }

/-- What the connection answers: the status, the declared length, the whole body. -/
structure Response where
  status : Nat
  contentLength : Int
  body : Bytes
  deriving DecidableEq, Repr

/-- The variables of the read loop, and the bytes the connection still holds. -/
structure Loop where
  fd : Nat
  resuming : Bool
  offset : Nat
  done : Nat
  total : Int
  last : Int
  body : Bytes
  deriving DecidableEq, Repr

inductive Pc where
  | measuring
  | asking (have_ : Nat)
  | opening (have_ : Nat) (r : Response)
  | testing (l : Loop)
  | reading (l : Loop)
  | writing (l : Loop) (chunk : Bytes)
  | checking (l : Loop)
  | renameTo
  | deleting
  | renameAgain
  deriving DecidableEq, Repr

inductive Failure where
  | http (status : Nat)
  | cutShort
  | io
  deriving DecidableEq, Repr

/-- The texts of the exceptions `fetch` throws itself; an `IOException` keeps its own. -/
def Failure.message : Failure → Str
  | .http status => kt "download: HTTP " ++ kt (toString status)
  | .cutShort => kt "download cut short"
  | .io => []

inductive Call where
  | idle
  | running (pc : Pc)
  | returned
  | threw (f : Failure)
  deriving DecidableEq, Repr

def Call.busy : Call → Bool
  | .running _ => true
  | _ => false

structure State where
  disk : Disk
  call : Call
  shown : List Int

inductive Event where
  | call
  | go
  | reply (r : Response)
  | unreachable
  | cancelled (b : Bool)
  | bytes (n : Nat)
  | eof
  | broken
  | full (n : Nat)
  | renamed (ok : Bool)
  | kill
  deriving DecidableEq, Repr

def partName (target : Name) : Name := target ++ kt ".part"

/-- Bytes an interrupted attempt already brought down. -/
def partBytes (d : Disk) (target : Name) : Nat := ((d.content (partName target)).getD []).length

def bufferSize : Nat := 512 * 1024

def percent (l : Loop) : Int := if 0 < l.total then (l.done * 100 : Int).tdiv l.total else 0

/-- The loop as it stands after the response headers, with the file just opened. -/
def openLoop (fd : Nat) (have_ : Nat) (r : Response) : Loop :=
  let resuming := r.status == 206
  let have_ := if resuming then have_ else 0
  { fd, resuming, offset := 0, done := have_
    total := if 0 < r.contentLength then r.contentLength + have_ else -1
    last := -1, body := r.body }

/-- A write goes to the end of the file when it was opened to append. -/
def writeAt (d : Disk) (l : Loop) (chunk : Bytes) : Disk :=
  d.write l.fd (if l.resuming then (d.data l.fd).length else l.offset) chunk

def wrote (l : Loop) (chunk : Bytes) : Loop :=
  { l with offset := l.offset + chunk.length, done := l.done + chunk.length }

def stepPc (target : Name) (s : State) : Pc → Event → Option State
  | .measuring, .go => some { s with call := .running (.asking (partBytes s.disk target)) }
  | .asking have_, .reply r =>
    if 400 ≤ r.status then some { s with call := .threw (.http r.status) }
    else some { s with call := .running (.opening have_ r) }
  | .asking _, .unreachable => some { s with call := .threw .io }
  | .opening have_ r, .go =>
    let (fd, disk) := s.disk.openFile (partName target) (r.status == 206)
    some { s with disk, call := .running (.testing (openLoop fd have_ r)) }
  | .testing l, .cancelled b =>
    some { s with call := if b then .returned else .running (.reading l) }
  | .reading l, .bytes n =>
    if 1 ≤ n ∧ n ≤ bufferSize ∧ n ≤ l.body.length then
      some { s with call := .running (.writing { l with body := l.body.drop n } (l.body.take n)) }
    else none
  | .reading l, .eof => some { s with call := .running (.checking l) }
  | .reading _, .broken => some { s with call := .threw .io }
  | .writing l chunk, .go =>
    let l' := wrote l chunk
    some {
      disk := writeAt s.disk l chunk
      call := .running (.testing { l' with last := percent l' })
      shown := if percent l' = l.last then s.shown else s.shown ++ [percent l'] }
  | .writing l chunk, .full n =>
    some { s with disk := writeAt s.disk l (chunk.take n), call := .threw .io }
  | .checking l, .go =>
    if 0 < l.total ∧ (l.done : Int) ≠ l.total then some { s with call := .threw .cutShort }
    else some { s with call := .running .renameTo }
  | .renameTo, .renamed true =>
    (s.disk.rename (partName target) target).map fun disk => { s with disk, call := .returned }
  | .renameTo, .renamed false => some { s with call := .running .deleting }
  | .deleting, .go =>
    some { s with disk := s.disk.delete target, call := .running .renameAgain }
  | .renameAgain, .renamed true =>
    (s.disk.rename (partName target) target).map fun disk => { s with disk, call := .returned }
  | .renameAgain, .renamed false => some { s with call := .returned }
  | _, .kill => some { s with call := .idle }
  | _, _ => none

def begin (s : State) : State := { s with call := .running .measuring, shown := [] }

def step (target : Name) (s : State) (e : Event) : Option State :=
  match s.call with
  | .running pc => stepPc target s pc e
  | _ => if e = .call then some (begin s) else none

end ReadersSpeech.Download

namespace ReadersSpeech.ModelProvider
open Download

/-- A half-downloaded file, a path and the names of folders are no model. -/
def isModelName (name : Name) : Bool :=
  !name.contains (codeUnit '/') && !(kt ".part").isSuffixOf name && name != kt "." &&
    name != kt ".."

/-- The descriptor's content, or `none` where `openFile` throws `FileNotFoundException`. -/
def openFile (allowed : Bool) (mode : Str) (lastPathSegment : Option Name) (d : Disk) :
    Option Bytes :=
  if !allowed || mode != kt "r" then none
  else (lastPathSegment.filter isModelName).bind d.content

end ReadersSpeech.ModelProvider
