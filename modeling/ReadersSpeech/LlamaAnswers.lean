import ReadersSpeech.LlamaLib

/-! The bytes of an answer as text. A token stands for any piece of the bytes, so a character can
be spread over several of them, and the loop of `generate` can be left between two of these.
-/

set_option autoImplicit false

namespace ReadersSpeech.LlamaLib
open Transition

/-- Well-formed UTF-8. -/
def IsText (b : Bytes) : Prop := b.toByteArray.IsValidUTF8

/-- What begins a text is text itself exactly when a character begins behind it. -/
theorem isText_left_iff {a b : Bytes} (h : IsText (a ++ b)) :
    IsText a ↔ ∀ c ∈ b.head?, c.IsUTF8FirstByte := by
  let s := String.ofByteArray (a ++ b).toByteArray h
  let p : String.Pos.Raw := ⟨a.length⟩
  have hbytes : s.toByteArray = a.toByteArray ++ b.toByteArray := List.toByteArray_append
  have hsize : s.utf8ByteSize = a.length + b.length := by
    show s.toByteArray.size = _
    rw [hbytes]
    simp
  have hleft : s.toByteArray.extract 0 a.length = a.toByteArray := by
    rw [hbytes, ByteArray.extract_append_eq_left (by simp)]
  have hvalid : p.IsValid s ↔ IsText a := by
    rw [String.Pos.Raw.isValid_iff_isValidUTF8_extract_zero, hleft]
    simp [IsText, p, String.Pos.Raw.le_iff, hsize]
  rw [← hvalid, String.Pos.Raw.isValid_iff_isUTF8FirstByte]
  cases b with
  | nil =>
    have hend : p = s.rawEndPos := by
      ext
      simp [p, hsize]
    simp [hend]
  | cons c b =>
    have hlt : p < s.rawEndPos := by
      simp [p, String.Pos.Raw.lt_iff, hsize]
    have hne : p ≠ s.rawEndPos := by
      rintro heq
      rw [heq] at hlt
      simp [String.Pos.Raw.lt_iff] at hlt
    have hc : s.getUTF8Byte p hlt = (a ++ c :: b)[a.length] := List.getElem_toByteArray
    simp [hlt, hne, hc]

/-- What a function of C takes a block of bytes for: what comes before the first NUL. -/
def cString (b : Bytes) : Bytes := b.takeWhile (· != 0)

/-- The bytes a step adds to the answer. -/
def Event.bytes : Event → Bytes
  | .sampled (.piece b) => b
  | _ => []

def spelt (es : List Event) : Bytes := es.flatMap Event.bytes

/-- The answer so far; none where the call gives none. -/
def Pc.out : Pc → Option Bytes
  | .entered | .clearingProgress | .clearingAbort | .tokenising => some []
  | .reading .. | .decodingPrompt .. | .storingRead .. => some []
  | .writing _ out | .sampling _ out | .storingWritten _ out | .decoding _ out => some out
  | .storingDone out => some out
  | .returned (.answered text) => some text
  | .refused | .returned .cancelled | .returned .failed => none

theorem readingOrWriting_out (nPrompt i maxTokens : Int) :
    (readingOrWriting nPrompt i maxTokens).out = some [] := by
  unfold readingOrWriting
  split
  · rfl
  · split <;> rfl

theorem writingOrDone_out (produced maxTokens : Int) (out : Bytes) :
    (writingOrDone produced maxTokens out).out = some out := by
  unfold writingOrDone
  split <;> rfl

theorem afterTokenising_out {s : State} {nPrompt : Int} {text : Bytes}
    (h : (afterTokenising s nPrompt).pc.out = some text) : text = [] := by
  unfold afterTokenising at h
  split at h
  · cases h
  · split at h
    · cases h
    · simpa [readingOrWriting_out, eq_comm] using h

theorem Moves.out {s s' : State} {e : Event} (hm : Moves s e s') {text : Bytes}
    (h : s'.pc.out = some text) : ∃ out, s.pc.out = some out ∧ text = out ++ e.bytes := by
  cases hm with
  | @entered found hpc =>
    cases found <;> simp_all [Pc.out, Event.bytes]
  | clearedProgress hpc | clearedAbort hpc | decodedPrompt hpc | storedWritten hpc
  | writingStopped hpc | answered hpc => simp_all [Pc.out, Event.bytes]
  | noTokens | readingFailed => simp [Pc.out] at h
  | tokenised hpc => exact ⟨[], by rw [hpc]; rfl, afterTokenising_out h⟩
  | testedReading hpc | testedWriting hpc =>
    cases ha : s.abort <;> simp_all [Pc.out, Event.bytes]
  | storedRead hpc =>
    rw [readingOrWriting_out] at h
    exact ⟨[], by rw [hpc]; rfl, (Option.some.inj h).symm⟩
  | @sampled produced out t hpc =>
    cases t <;> simp_all [afterSampling, Pc.out, Event.bytes]
  | @decoded produced out hpc =>
    rw [writingOrDone_out] at h
    exact ⟨out, by rw [hpc]; rfl, by rw [← Option.some.inj h]; exact (List.append_nil out).symm⟩

theorem step_out {s s' : State} {e : Event} (h : step s e = some s') {text : Bytes}
    (ht : s'.pc.out = some text) : ∃ out, s.pc.out = some out ∧ text = out ++ e.bytes := by
  rcases step_moves h with ⟨rfl, rfl⟩ | hm
  · exact ⟨text, ht, (List.append_nil text).symm⟩
  · exact hm.out ht

/-- The answer is what the sampled tokens stand for, one after another. -/
theorem run_out {s t : State} {es : List Event} (h : Steps step s es t) {text : Bytes}
    (ht : t.pc.out = some text) : ∃ out, s.pc.out = some out ∧ text = out ++ spelt es := by
  induction es generalizing s with
  | nil =>
    obtain rfl : s = t := h
    exact ⟨text, ht, (List.append_nil text).symm⟩
  | cons e es ih =>
    obtain ⟨-, s', hs, hr⟩ := h
    obtain ⟨mid, hmid, rfl⟩ := ih hr
    obtain ⟨out, hout, rfl⟩ := step_out hs hmid
    exact ⟨out, hout, by simp [spelt]⟩

/-- Behind the first NUL a character ends. -/
theorem isText_cString_iff {text rest : Bytes} (h : IsText (text ++ rest)) :
    IsText (cString text) ↔ 0 ∈ text ∨ ∀ c ∈ rest.head?, c.IsUTF8FirstByte := by
  have hcut : cString text ++ (text.dropWhile (· != 0) ++ rest) = text ++ rest := by
    rw [← List.append_assoc, cString, List.takeWhile_append_dropWhile]
  rw [isText_left_iff (hcut ▸ h)]
  cases hd : text.dropWhile (· != 0) with
  | nil =>
    have h0 : 0 ∉ text := fun h0 => by
      have hall := List.dropWhile_eq_nil_iff.mp hd 0 h0
      simp at hall
    simp [h0]
  | cons c b =>
    have hc := List.head?_dropWhile_not (· != 0) text
    obtain rfl : c = 0 := by simpa [hd] using hc
    have h0 : 0 ∈ text := (List.dropWhile_suffix _).subset (hd ▸ List.mem_cons_self)
    exact iff_of_true (fun d hd' => by cases hd'; decide) (.inl h0)

/-- The bytes handed to `NewStringUTF` are text exactly when the answer stops, or has a NUL, where
a character begins. -/
theorem answer_isText_iff {s t : State} {es : List Event} {text rest : Bytes}
    (hpc : s.pc = .entered) (h : Steps step s es t) (ht : t.pc = .returned (.answered text))
    (hw : IsText (spelt es ++ rest)) :
    IsText (cString text) ↔ 0 ∈ text ∨ ∀ c ∈ rest.head?, c.IsUTF8FirstByte := by
  have htext : t.pc.out = some text := by rw [ht]; rfl
  obtain ⟨out, hout, rfl⟩ := run_out h htext
  obtain rfl : [] = out := by simpa [hpc, Pc.out] using hout
  exact isText_cString_iff hw

/-- A call that writes at most `maxTokens` tokens. -/
def writing (maxTokens : Int) : State :=
  { nCtx := 4096, maxTokens, progress := 0, abort := false, error := none, pc := .entered }

/-- The answer "é", one byte a token, with as many tokens as are left by `more`. -/
def accent (more : List Event) : List Event :=
  [.session true, .storeProgress 0, .storeAbort, .tokenised (some 1), .loadAbort false,
    .decoded true, .storeProgress 30, .loadAbort false, .sampled (.piece [0xC3])] ++ more

theorem isText_accent : IsText [0xC3, 0xA9] := ⟨['é'], by decide⟩

theorem answer_isText_accent : IsText (cString [0xC3, 0xA9]) ↔
    0 ∈ ([0xC3, 0xA9] : Bytes) ∨ ∀ c ∈ ([] : Bytes).head?, c.IsUTF8FirstByte := by
  have h : Steps step (writing 7) (accent [.storeProgress 40, .decoded true, .loadAbort false,
      .sampled (.piece [0xA9]), .storeProgress 50, .decoded true, .loadAbort false,
      .sampled .endOfGeneration, .storeProgress 100])
      { writing 7 with progress := 100, pc := .returned (.answered [0xC3, 0xA9]) } :=
    steps_of_foldlM rfl
  exact answer_isText_iff rfl h rfl isText_accent

/-- One token is asked for: the answer is the first byte of a character. -/
theorem answer_cuts_accent : ∃ es t, Steps step (writing 1) es t ∧
    t.pc = .returned (.answered [0xC3]) ∧ IsText (spelt es ++ [0xA9]) ∧
    ¬ IsText (cString [0xC3]) := by
  have h : Steps step (writing 1) (accent [.storeProgress 100, .decoded true, .storeProgress 100])
      { writing 1 with progress := 100, pc := .returned (.answered [0xC3]) } :=
    steps_of_foldlM rfl
  refine ⟨_, _, h, rfl, isText_accent, fun ht => ?_⟩
  have hfirst := (isText_left_iff (b := [0xA9]) isText_accent).mp ht 0xA9 rfl
  exact absurd hfirst (by decide)

end ReadersSpeech.LlamaLib
