import ReadersSpeech.ChatTemplate
import ReadersSpeech.Loader

/-! A model that another app handed over, read in jni.c from a duplicate of its descriptor. The
system may hand over less than it is asked for, and the duplicate shares its offset with whoever
read the descriptor before.
-/

set_option autoImplicit false

namespace ReadersSpeech.FdReader
open Loader

/-- `struct fd_reader`, the offset of its descriptor, and how often the system has been asked. -/
structure FdState where
  offset : ℕ
  turn : ℕ
  eof : Bool
  deriving DecidableEq, Repr

/-- `read(2)` on a regular file: at most what is asked for, and at least a byte of what is left.
`answers` says how much less it is each time, or `none` where the read fails. -/
def sysRead (file : Bytes) (answers : ℕ → Option ℕ) (n : ℕ) (s : FdState) :
    Option Bytes × FdState :=
  match answers s.turn with
  | none => (none, { s with turn := s.turn + 1 })
  | some cut =>
    let got := ((file.drop s.offset).take n).take (cut + 1)
    (some got, { s with offset := s.offset + got.length, turn := s.turn + 1 })

/-- The bytes that the loop of `fd_read` brings; their number is what it returns. -/
def fdRead (file : Bytes) (answers : ℕ → Option ℕ) (n : ℕ) (s : FdState) : Bytes × FdState :=
  if n = 0 then ([], s)
  else
    match sysRead file answers n s with
    | (none, s) => ([], { s with eof := true })
    | (some got, s) =>
      if got = [] then ([], { s with eof := true })
      else
        let (rest, s) := fdRead file answers (n - got.length) s
        (got ++ rest, s)
termination_by n
decreasing_by
  have hpos := List.length_pos_iff.mpr ‹got ≠ []›
  omega

def fdReader (file : Bytes) (answers : ℕ → Option ℕ) : Reader FdState where
  read n s :=
    let (bytes, s) := fdRead file answers n s
    (⟨bytes, bytes.length⟩, s)
  eof := FdState.eof

/-- A stream over the file itself, as whisper.cpp opens a path of ours. -/
structure Stream where
  pos : ℕ
  eof : Bool
  deriving DecidableEq, Repr

def streamRead (file : Bytes) (n : ℕ) (s : Stream) : Bytes × Stream :=
  if s.eof then ([], s)
  else
    let got := (file.drop s.pos).take n
    (got, ⟨s.pos + got.length, decide (got.length < n)⟩)

/-- The count whisper.cpp's own loader returns is what was asked for, whatever came. -/
def streamReader (file : Bytes) : Reader Stream where
  read n s :=
    let (bytes, s) := streamRead file n s
    (⟨bytes, n⟩, s)
  eof := Stream.eof

/-- One answer of the system: a failure, or a beginning of what is left, empty only where nothing
is. -/
theorem sysRead_spec (file : Bytes) (answers : ℕ → Option ℕ) {n : ℕ} (hn : n ≠ 0) (s : FdState) :
    answers s.turn = none ∧ sysRead file answers n s = (none, ⟨s.offset, s.turn + 1, s.eof⟩) ∨
    ∃ k ≤ n, sysRead file answers n s =
        (some ((file.drop s.offset).take k), ⟨s.offset + k, s.turn + 1, s.eof⟩) ∧
      k ≤ (file.drop s.offset).length ∧ (k = 0 → file.drop s.offset = []) := by
  cases ha : answers s.turn with
  | none => exact .inl ⟨rfl, by simp [sysRead, ha]⟩
  | some cut =>
    refine .inr ⟨((file.drop s.offset).take (min n (cut + 1))).length, ?_, ?_, ?_, ?_⟩
    · simp only [List.length_take]
      omega
    · simp only [sysRead, ha, List.take_take, Nat.min_comm (cut + 1) n, Prod.mk.injEq,
        Option.some.injEq, and_true]
      rw [List.take_eq_take_iff, List.length_take]
      omega
    · simp only [List.length_take]
      omega
    · intro h
      simp only [List.length_take] at h
      exact List.length_eq_zero_iff.mp (by omega)

/-- However it is cut, and whatever fails, the next bytes of the file come, and the end shows
wherever fewer come than were asked for; where nothing fails, that is at the end of the file. -/
theorem fdRead_spec (file : Bytes) (answers : ℕ → Option ℕ) (n : ℕ) (s : FdState) :
    ∃ k ≤ n, (fdRead file answers n s).1 = (file.drop s.offset).take k ∧
      k ≤ (file.drop s.offset).length ∧
      (fdRead file answers n s).2.offset = s.offset + k ∧
      (fdRead file answers n s).2.eof = (s.eof || decide (k < n)) ∧
      ((∀ t, answers t ≠ none) → k < n → k = (file.drop s.offset).length) := by
  induction n using Nat.strongRecOn generalizing s with
  | ind n ih =>
  rw [fdRead]
  by_cases hn : n = 0
  · exact ⟨0, by simp [hn]⟩
  · rcases sysRead_spec file answers hn s with ⟨hno, hsys⟩ | ⟨k, hkn, hsys, hk, hend⟩
    · rw [if_neg hn, hsys]
      exact ⟨0, Nat.zero_le _, by simp, Nat.zero_le _, rfl,
        by simp [Nat.pos_of_ne_zero hn], fun hall => absurd hno (hall s.turn)⟩
    · rw [if_neg hn, hsys]
      by_cases hk0 : k = 0
      · subst hk0
        have hnil := hend rfl
        exact ⟨0, by simp [hnil, Nat.pos_of_ne_zero hn]⟩
      · have hgot : (file.drop s.offset).take k ≠ [] := by
          rw [← List.length_pos_iff, List.length_take]
          omega
        have hlen : ((file.drop s.offset).take k).length = k := by
          rw [List.length_take]
          omega
        obtain ⟨m, hm, hbytes, hrest, hoffset, heof, hall⟩ :=
          ih (n - k) (by omega) ⟨s.offset + k, s.turn + 1, s.eof⟩
        simp only [List.length_drop] at hrest hk
        refine ⟨k + m, by omega, ?_, by rw [List.length_drop]; omega, ?_, ?_, fun hans hlt => ?_⟩
        · simp only [if_neg hgot, hlen, hbytes]
          rw [List.take_add, List.drop_drop]
        · simp only [if_neg hgot, hlen, hoffset]
          omega
        · simp only [if_neg hgot, hlen, heof]
          congr 1
          rw [decide_eq_decide]
          omega
        · have hm := hall hans (by omega)
          simp only [List.length_drop] at hm ⊢
          omega

/-- The two readers are at the same place, and have run into the end or not alike. -/
def AtSame (file : Bytes) (s : FdState) (t : Stream) : Prop :=
  s.offset = t.pos ∧ s.eof = t.eof ∧ (t.eof = true → file.length ≤ t.pos)

theorem fd_inStep (file : Bytes) {answers : ℕ → Option ℕ} (hall : ∀ t, answers t ≠ none) :
    InStep (fdReader file answers) (streamReader file) (AtSame file) where
  eof s t h := h.2.1
  read n s t h := by
    obtain ⟨hpos, heof, hend⟩ := h
    obtain ⟨k, hkn, hbytes, hk, hoffset, heof', hfull⟩ := fdRead_spec file answers n s
    have htake : (file.drop s.offset).take k = (file.drop s.offset).take n := by
      rcases Nat.lt_or_eq_of_le hkn with hlt | rfl
      · rw [hfull hall hlt, List.take_length, List.take_of_length_le]
        have hfull := hfull hall hlt
        omega
      · rfl
    have hlen : ((file.drop s.offset).take n).length = k := by
      rw [← htake, List.length_take]
      omega
    rw [htake] at hbytes
    simp only [fdReader, streamReader, streamRead, AtSame, hbytes, hoffset, heof', heof]
    rw [hpos] at hlen hk ⊢
    cases ht : t.eof with
    | true =>
      have hnil : file.drop t.pos = [] := List.drop_eq_nil_of_le (hend ht)
      have hk0 : k = 0 := by simpa [hnil] using hlen.symm
      simp [hnil, hk0, ht, hend ht]
    | false =>
      refine ⟨by simp, by simp [hlen], by simp [hlen], fun hshort => ?_⟩
      simp only [Bool.false_eq_true, if_false, decide_eq_true_eq, hlen] at hshort ⊢
      have hfull := hfull hall hshort
      rw [hpos, List.length_drop] at hfull
      omega

def isspace (c : UInt8) : Bool := c == 32 || (9 ≤ c && c ≤ 13)

def isDigit (c : UInt8) : Bool := 48 ≤ c && c ≤ 57

def digits (s : Bytes) : ℕ := (s.takeWhile isDigit).foldl (fun n c => 10 * n + (c.toNat - 48)) 0

def atoi (s : Bytes) : ℤ :=
  match s.dropWhile isspace with
  | 45 :: s => -digits s
  | 43 :: s => digits s
  | s => digits s

/-- What a descriptor stands for. -/
structure Described where
  file : Bytes
  offset : ℕ

def procSelfFd : Bytes := LlamaLib.cstr "/proc/self/fd/"

section Init
variable {β : Type} (table : ℤ → Option Described) (files : Bytes → Option Bytes) (malloc : Bool)
  (answers : ℕ → Option ℕ) (load : Client β)

/-- `lseek` rewinds the duplicate; what whisper.cpp makes of the model is `load`. -/
def initFromFd (path : Bytes) : Option β := do
  let d ← table (atoi (path.drop 14))
  let d := { d with offset := 0 }
  if !malloc then none
  else return (load.run (fdReader d.file answers) ⟨d.offset, 0, false⟩).1

def initContext (path : Bytes) : Option β :=
  if path.take 14 = procSelfFd then initFromFd table malloc answers load path
  else do
    let file ← files path
    return (load.run (streamReader file) ⟨0, false⟩).1

end Init

/-- `path` of a handle that stands for a descriptor. -/
def handlePath (fd : ℕ) : Bytes := procSelfFd ++ LlamaLib.cstr (toString fd)

/-- A digit as a byte. -/
theorem digit_byte {c : Char} (hc : c.isDigit = true) :
    isDigit (UInt8.ofNat c.toNat) = true ∧ (UInt8.ofNat c.toNat).toNat = c.toNat := by
  have hle : 48 ≤ c.toNat ∧ c.toNat ≤ 57 := by
    simpa [Char.isDigit, UInt32.le_iff_toNat_le] using hc
  have hto : (UInt8.ofNat c.toNat).toNat = c.toNat := by
    rw [UInt8.toNat_ofNat']
    omega
  refine ⟨?_, hto⟩
  simp only [isDigit, Bool.and_eq_true, decide_eq_true_eq, UInt8.le_iff_toNat_le, hto]
  exact hle

theorem digits_cstr {cs : List Char} (hcs : ∀ c ∈ cs, c.isDigit = true) :
    digits (cs.map fun c => UInt8.ofNat c.toNat) = Nat.ofDigitChars 10 cs 0 := by
  have hall : (cs.map fun c => UInt8.ofNat c.toNat).takeWhile isDigit =
      cs.map fun c => UInt8.ofNat c.toNat := by
    rw [List.takeWhile_eq_self_iff]
    intro b hb
    obtain ⟨c, hc, rfl⟩ := List.mem_map.mp hb
    exact (digit_byte (hcs c hc)).1
  rw [digits, hall, Nat.ofDigitChars_eq_foldl, List.foldl_map]
  refine List.foldl_ext _ _ _ fun n c hc => ?_
  rw [(digit_byte (hcs c hc)).2]
  rfl

/-- A sign and blanks are looked for before a number, and not found. -/
theorem atoi_digits {c : UInt8} (hc : isDigit c = true) (s : Bytes) :
    atoi (c :: s) = digits (c :: s) := by
  have hle : 48 ≤ c.toNat ∧ c.toNat ≤ 57 := by
    simpa [isDigit, UInt8.le_iff_toNat_le] using hc
  have hspace : isspace c = false := by
    have hne : c ≠ 32 := by
      rintro rfl
      simp at hle
    have hlt : ¬ c.toNat ≤ 13 := by omega
    simp [isspace, hne, UInt8.le_iff_toNat_le, hlt]
  have hdrop : (c :: s).dropWhile isspace = c :: s := by simp [hspace]
  unfold atoi
  rw [hdrop]
  split
  · rename_i h
    obtain rfl := (List.cons.inj h).1
    simp at hle
  · rename_i h
    obtain rfl := (List.cons.inj h).1
    simp at hle
  · rfl

/-- The number in the path is the number of the descriptor. -/
theorem atoi_toString (fd : ℕ) : atoi (LlamaLib.cstr (toString fd)) = fd := by
  have hdigits : ∀ c ∈ Nat.toDigits 10 fd, c.isDigit = true :=
    fun c hc => Nat.isDigit_of_mem_toDigits (by omega) (by omega) hc
  have hcstr : LlamaLib.cstr (toString fd) =
      (Nat.toDigits 10 fd).map fun c => UInt8.ofNat c.toNat := by
    rw [LlamaLib.cstr, Nat.toString_eq_ofList_toDigits, String.toList_ofList]
  rw [hcstr]
  cases hcs : Nat.toDigits 10 fd with
  | nil => exact absurd hcs Nat.toDigits_ne_nil
  | cons c cs =>
    have hc := (digit_byte (hdigits c (by simp [hcs]))).1
    have hvalue := digits_cstr hdigits
    rw [Nat.ofDigitChars_ten_toDigits, hcs, List.map_cons] at hvalue
    rw [List.map_cons, atoi_digits hc, hvalue]

/-- A model that another app handed over is loaded like a file of ours with the same bytes, however
the reads of the descriptor are cut short, and wherever it was left standing. The counts differ at
the end of the file, and whisper.cpp looks at none. -/
theorem shared_loads_like_own {β : Type} {table : ℤ → Option Described}
    {files : Bytes → Option Bytes} {fd : ℕ} {d : Described} {path : Bytes}
    (hfd : table fd = some d) (hfile : files path = some d.file)
    (hown : path.take 14 ≠ procSelfFd) {answers : ℕ → Option ℕ} (hall : ∀ t, answers t ≠ none)
    {load : Client β} (hload : load.Countless) :
    initContext table files true answers load (handlePath fd) =
      initContext table files true answers load path := by
  have hlen : procSelfFd.length = 14 := rfl
  have hpath : (handlePath fd).take 14 = procSelfFd := List.take_left' hlen
  have hdrop : (handlePath fd).drop 14 = LlamaLib.cstr (toString fd) := List.drop_left' hlen
  have hsame : AtSame d.file ⟨0, 0, false⟩ ⟨0, false⟩ := ⟨rfl, rfl, by simp⟩
  have hrun := ((fd_inStep d.file hall).run hload hsame).1
  rw [initContext, if_pos hpath, initContext, if_neg hown, initFromFd, hdrop, atoi_toString, hfd,
    hfile]
  simp [hrun]

/-- Two reads of two bytes, and the end. -/
def twice : Client (Bytes × Bytes × Bool) :=
  .read [0, 0] fun a _ => .read [0, 0] fun b _ => .eof fun e => .done (a, b, e)

/-- The file is read a byte at a time, from a descriptor that was read to its end before. -/
theorem shared_loads_like_own_again :
    initContext (fun n => if n = 37 then some ⟨[1, 2, 3], 3⟩ else none)
      (fun _ => some [1, 2, 3]) true (fun _ => some 0) twice (handlePath 37) =
    some ([1, 2], [3, 0], true) := by
  have hload : twice.Countless :=
    ⟨fun _ _ _ => rfl, fun _ _ => ⟨fun _ _ _ => rfl, fun _ _ _ => trivial⟩⟩
  have hall : ∀ t : ℕ, (fun _ => some 0 : ℕ → Option ℕ) t ≠ none := fun _ => Option.some_ne_none 0
  have hfd : (fun n : ℤ => if n = 37 then some (⟨[1, 2, 3], 3⟩ : Described) else none) (37 : ℕ) =
      some ⟨[1, 2, 3], 3⟩ := rfl
  have hfile : (fun _ => some [1, 2, 3] : Bytes → Option Bytes) (LlamaLib.cstr "/data/models/m") =
      some (⟨[1, 2, 3], 3⟩ : Described).file := rfl
  exact (shared_loads_like_own hfd hfile (by decide) hall hload).trans rfl

end ReadersSpeech.FdReader
