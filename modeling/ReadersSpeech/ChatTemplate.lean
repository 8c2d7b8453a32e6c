import ReadersSpeech.LlamaLib
import ReadersSpeech.PyannetPlan

/-! `wrap_in_chat_template` of llama_jni.c: a prompt in the model's own chat template. The buffer
is guessed first and asked for again when the template does not fit in it.
-/

set_option autoImplicit false

namespace ReadersSpeech.LlamaLib
open Cells
open PyannetFile (size)
open Pyannet (int)

/-- A literal of the source, without its NUL. -/
def cstr (s : String) : Bytes := s.toList.map fun c => UInt8.ofNat c.toNat

def systemLine : Bytes :=
  cstr "You are Qwen, created by Alibaba Cloud. You are a helpful assistant."

/-- Role and content, as in `struct llama_chat_message`. -/
abbrev Message : Type := Bytes × Bytes

def messages (text : Bytes) : List Message :=
  [(cstr "system", systemLine), (cstr "user", text)]

/-- `llama_chat_apply_template(tmpl, msgs, n, add_ass, buf, length)`: what it returns, and `buf`
as it leaves it. -/
abbrev ApplyTemplate : Type :=
  Bytes → List Message → Bool → Block UInt8 → ℤ → ℤ × Block UInt8

/-- `(int) strlen(text) * 2 + 512`. -/
def guess (text : Bytes) : Option ℤ := do
  int ((← int ((BitVec.ofNat 32 text.length).toInt * 2)) + 512)

/-- `buf[n < cap ? n : cap - 1] = 0`, unless the template came to nothing. -/
def terminate (n cap : ℤ) (buf : Block UInt8) : Option (Option (Block UInt8)) :=
  if n ≤ 0 then some none
  else do
    let i := if n < cap then n else cap - 1
    if i < 0 then none
    else return some (← wr buf i.toNat 0)

/-- `realloc`: what was there, and room nobody wrote to. -/
def resized (buf : Block UInt8) (n : ℕ) : Block UInt8 :=
  buf.take n ++ fresh (n - buf.length)

section Wrap
variable (apply : ApplyTemplate) (malloc realloc : ℕ → Bool)

/-- The buffer, or nothing inside where NULL is returned; no value where an `int` overflows or a
byte is written outside the buffer. -/
def wrapInChatTemplate (tmpl : Option Bytes) (text : Bytes) : Option (Option (Block UInt8)) :=
  match tmpl with
  | none => some none
  | some tmpl => do
    let cap ← guess text
    if !malloc (size cap).toNat then return none
    let (n, buf) := apply tmpl (messages text) true (fresh (size cap).toNat) cap
    if cap < n then
      let room := (size n + 1).toNat
      if !realloc room then return none
      let cap ← int (n + 1)
      let (n, buf) := apply tmpl (messages text) true (resized buf room) cap
      terminate n cap buf
    else terminate n cap buf

end Wrap

/-- What llama.h says of it, for messages that become `T`: the length of `T` is returned, and as
much of `T` as `length` allows is copied. No terminator is promised. -/
structure Contract (apply : ApplyTemplate) (tmpl : Bytes) (msgs : List Message) (T : Bytes) :
    Prop where
  fits : T.length < 2 ^ 31
  returns : ∀ buf length, (apply tmpl msgs true buf length).1 = T.length
  size : ∀ (buf : Block UInt8) (length : ℤ), length ≤ buf.length →
    (apply tmpl msgs true buf length).2.length = buf.length
  copies : ∀ (buf : Block UInt8) (length : ℤ), length ≤ buf.length → ∀ i < T.length, (i : ℤ) < length →
    rd (apply tmpl msgs true buf length).2 i = T[i]?

/-- `T` and a NUL, from the beginning of the buffer. -/
def HoldsText (buf : Block UInt8) (T : Bytes) : Prop :=
  (∀ i < T.length, rd buf i = T[i]?) ∧ rd buf T.length = some 0

/-- NULL for want of memory, or the whole of `T`. -/
def InFull (malloc realloc : ℕ → Bool) (text T : Bytes)
    (result : Option (Option (Block UInt8))) : Prop :=
  result = some none ∧
      ((∃ cap, guess text = some cap ∧ malloc (size cap).toNat = false) ∨
        realloc (T.length + 1) = false) ∨
    ∃ buf, result = some (some buf) ∧ HoldsText buf T

section Terminated
variable {T : Bytes} {buf : Block UInt8}

/-- With room behind the text, the NUL stands there. -/
theorem terminate_room {cap : ℤ} (hT : 0 < T.length) (hcap : (T.length : ℤ) < cap)
    (hlen : (buf.length : ℤ) = cap) (hbuf : ∀ i < T.length, rd buf i = T[i]?) :
    ∃ b, terminate T.length cap buf = some (some b) ∧ HoldsText b T := by
  obtain ⟨b, hb, hput⟩ := yields_wr (a := buf) (i := T.length) (0 : UInt8) (by omega)
  refine ⟨b, ?_, fun i hi => ?_, hput.here⟩
  · rw [terminate, if_neg (by omega), if_pos hcap, if_neg (by omega), Int.toNat_natCast, hb]
    rfl
  · rw [hput.kept i (by omega), hbuf i hi]

/-- Where the text fills the buffer, the NUL takes the place of its last byte. -/
theorem terminate_full (hT : 0 < T.length) (hlen : buf.length = T.length) :
    ∃ b, terminate T.length T.length buf = some (some b) ∧ ¬ HoldsText b T := by
  obtain ⟨b, hb, hput⟩ := yields_wr (a := buf) (i := T.length - 1) (0 : UInt8) (by omega)
  have hlast : ((T.length : ℤ) - 1).toNat = T.length - 1 := by omega
  refine ⟨b, ?_, fun h => ?_⟩
  · rw [terminate, if_neg (by omega), if_neg (lt_irrefl _), if_neg (by omega), hlast, hb]
    rfl
  · have hend := h.2
    rw [rd, List.getElem?_eq_none (by rw [hput.length, hlen])] at hend
    cases hend

end Terminated

section Vendored

/-- `strncpy(buf, s, n)`: as much of `s` as fits, and NULs up to `n`. -/
def strncpy (buf : Block UInt8) (s : Bytes) (n : ℕ) : Block UInt8 :=
  block ((s.takeWhile (· != 0) ++ List.replicate n 0).take n) ++ buf.drop n

/-- The vendored `llama_chat_apply_template`, given what the template makes of the messages. -/
def applyTemplate (expand : Bytes → List Message → Bool → Bytes) : ApplyTemplate :=
  fun tmpl msgs addAss buf length =>
    let T := expand tmpl msgs addAss
    (T.length, if 0 < length then strncpy buf T length.toNat else buf)

theorem contract_applyTemplate {expand : Bytes → List Message → Bool → Bytes} {tmpl T : Bytes}
    {msgs : List Message} (hT : expand tmpl msgs true = T) (hfits : T.length < 2 ^ 31)
    (hnul : 0 ∉ T) : Contract (applyTemplate expand) tmpl msgs T where
  fits := hfits
  returns buf length := by simp only [applyTemplate, hT]
  size buf length hlen := by
    simp only [applyTemplate, hT]
    split
    · simp [strncpy, block]
      omega
    · rfl
  copies buf length hlen i hi hil := by
    have hwhole : T.takeWhile (· != 0) = T := by
      rw [List.takeWhile_eq_self_iff]
      intro b hb
      simpa using fun h0 : b = 0 => hnul (h0 ▸ hb)
    have hpos : 0 < length := by omega
    simp only [applyTemplate, hT, if_pos hpos, strncpy, hwhole]
    have hi' : i < length.toNat := by omega
    simp [rd, block, List.getElem?_append, hi, hi']

/-- The template of the shipped models. -/
def chatml (msgs : List Message) (addAss : Bool) : Bytes :=
  (msgs.flatMap fun m => cstr "<|im_start|>" ++ m.1 ++ cstr "\n" ++ m.2 ++ cstr "<|im_end|>\n") ++
    if addAss then cstr "<|im_start|>assistant\n" else []

theorem length_chatml (text : Bytes) :
    (chatml (messages text) true).length = text.length + 148 := by
  have hframe : (chatml (messages []) true).length = 148 := rfl
  rw [← hframe]
  simp only [chatml, messages, List.flatMap_cons, List.flatMap_nil, List.length_append,
    List.length_nil]
  omega

theorem nul_chatml {text : Bytes} (h : 0 ∉ text) : 0 ∉ chatml (messages text) true := by
  have hframe : 0 ∉ chatml (messages []) true := by decide
  simp only [chatml, messages, List.flatMap_cons, List.flatMap_nil, List.mem_append,
    not_or] at hframe ⊢
  simp_all

theorem guess_eq {text : Bytes} (h : text.length * 2 + 512 < 2 ^ 31) :
    guess text = some (text.length * 2 + 512 : ℤ) := by
  have hlen : (BitVec.ofNat 32 text.length).toInt = text.length := by
    rw [BitVec.toInt_ofNat']
    exact Int.bmod_eq_of_le (by omega) (by omega)
  have hdoubled : int ((text.length : ℤ) * 2) = some ((text.length : ℤ) * 2) := if_pos (by omega)
  have hcap : int ((text.length : ℤ) * 2 + 512) = some (text.length * 2 + 512 : ℤ) :=
    if_pos (by omega)
  rw [guess, hlen, hdoubled, Option.bind_eq_bind, Option.bind_some, hcap]

end Vendored

section Wrapped
variable {apply : ApplyTemplate} {malloc realloc : ℕ → Bool} {tmpl text T : Bytes}

theorem length_resized (buf : Block UInt8) (n : ℕ) : (resized buf n).length = n := by
  rw [resized, List.length_append, List.length_take, fresh, List.length_replicate]
  omega

theorem guess_lt {cap : ℤ} (h : guess text = some cap) : cap < 2 ^ 31 := by
  rw [guess, Option.bind_eq_bind, Option.bind_eq_some_iff] at h
  obtain ⟨doubled, -, hcap⟩ := h
  obtain ⟨rfl, hlt⟩ := Pyannet.int_some hcap
  exact hlt

/-- What is allocated first is as long as the guess. -/
theorem length_guessed {cap : ℤ} (hg : guess text = some cap) (h0 : 0 ≤ cap) :
    ((fresh (size cap).toNat : Block UInt8).length : ℤ) = cap := by
  have hlt := guess_lt hg
  rw [fresh, List.length_replicate, Pyannet.size_toNat h0 (by omega), Int.toNat_of_nonneg h0]

theorem room_eq (h : T.length < 2 ^ 31) : (size (T.length : ℤ) + 1).toNat = T.length + 1 := by
  rw [BitVec.toNat_add, Pyannet.size_toNat (by omega) (by omega), Int.toNat_natCast]
  exact Nat.mod_eq_of_lt (by simp; omega)

theorem wrap_refused {cap : ℤ} (hg : guess text = some cap)
    (hm : malloc (size cap).toNat = false) :
    wrapInChatTemplate apply malloc realloc (some tmpl) text = some none := by
  simp [wrapInChatTemplate, hg, hm]

theorem wrap_first (hc : Contract apply tmpl (messages text) T) {cap : ℤ}
    (hg : guess text = some cap) (hm : malloc (size cap).toNat = true) (hcap : T.length ≤ cap) :
    wrapInChatTemplate apply malloc realloc (some tmpl) text =
      terminate T.length cap (apply tmpl (messages text) true (fresh (size cap).toNat) cap).2 := by
  have hn := hc.returns (fresh (size cap).toNat) cap
  simp only [wrapInChatTemplate, hg, hm, Option.bind_eq_bind, Option.bind_some, Bool.not_true,
    Bool.false_eq_true, if_false, hn, if_neg (not_lt.mpr hcap)]

theorem wrap_again (hc : Contract apply tmpl (messages text) T) {cap : ℤ}
    (hg : guess text = some cap) (hm : malloc (size cap).toNat = true) (hcap : cap < T.length) :
    wrapInChatTemplate apply malloc realloc (some tmpl) text =
      if realloc (T.length + 1) = false then some none
      else (int (T.length + 1)).bind fun room => terminate T.length room
        (apply tmpl (messages text) true
          (resized (apply tmpl (messages text) true (fresh (size cap).toNat) cap).2
            (T.length + 1)) room).2 := by
  have hn := fun buf (room : ℤ) => hc.returns buf room
  simp only [wrapInChatTemplate, hg, hm, Option.bind_eq_bind, Option.bind_some, Bool.not_true,
    Bool.false_eq_true, if_false, hn, if_pos hcap, room_eq hc.fits]
  cases realloc (T.length + 1) with
  | false => rfl
  | true => rfl

/-- The second time there is a byte to spare. -/
theorem second_inFull (hc : Contract apply tmpl (messages text) T) (hT : 0 < T.length)
    (buf : Block UInt8) : ∃ b, terminate T.length (T.length + 1) (apply tmpl (messages text) true
      (resized buf (T.length + 1)) (T.length + 1)).2 = some (some b) ∧ HoldsText b T := by
  have hroom : ((T.length : ℤ) + 1) ≤ (resized buf (T.length + 1)).length := by
    rw [length_resized]
    rfl
  have hlen := hc.size _ _ hroom
  rw [length_resized] at hlen
  refine terminate_room hT (by omega) (by rw [hlen]; rfl) fun i hi => ?_
  exact hc.copies _ _ hroom i hi (by omega)

theorem wrap_longer (hc : Contract apply tmpl (messages text) T) (hT : 0 < T.length) {cap : ℤ}
    (hg : guess text = some cap) (hm : malloc (size cap).toNat = true) (hcap : cap < T.length) :
    InFull malloc realloc text T (wrapInChatTemplate apply malloc realloc (some tmpl) text) ↔
      (realloc (T.length + 1) = true → T.length + 1 < 2 ^ 31) := by
  rw [wrap_again hc hg hm hcap]
  cases hr : realloc (T.length + 1) with
  | false => simp [InFull, hr]
  | true =>
    rw [if_neg (by simp)]
    by_cases hfit : T.length + 1 < 2 ^ 31
    · obtain ⟨b, hb, htext⟩ := second_inFull hc hT
        (apply tmpl (messages text) true (fresh (size cap).toNat) cap).2
      have hroom : int ((T.length : ℤ) + 1) = some ((T.length : ℤ) + 1) := if_pos (by omega)
      rw [hroom, Option.bind_some, hb]
      exact iff_of_true (.inr ⟨b, rfl, htext⟩) fun _ => hfit
    · have hroom : int ((T.length : ℤ) + 1) = none := if_neg (by omega)
      rw [hroom, Option.bind_none]
      exact iff_of_false (by simp [InFull]) fun h => hfit (h rfl)

theorem wrap_exact (hc : Contract apply tmpl (messages text) T) (hT : 0 < T.length)
    (hg : guess text = some T.length) (hm : malloc (size (T.length : ℤ)).toNat = true) :
    ¬ InFull malloc realloc text T
      (wrapInChatTemplate apply malloc realloc (some tmpl) text) := by
  have hlen : (fresh (size (T.length : ℤ)).toNat : Block UInt8).length = T.length :=
    Int.ofNat.inj (length_guessed hg (by omega))
  obtain ⟨b, hb, htext⟩ := terminate_full hT
    ((hc.size (fresh (size (T.length : ℤ)).toNat) T.length (by rw [hlen])).trans hlen)
  rw [wrap_first hc hg hm le_rfl, hb]
  simp [InFull, htext]

theorem wrap_shorter (hc : Contract apply tmpl (messages text) T) (hT : 0 < T.length) {cap : ℤ}
    (hg : guess text = some cap) (hm : malloc (size cap).toNat = true) (hcap : T.length < cap) :
    InFull malloc realloc text T
      (wrapInChatTemplate apply malloc realloc (some tmpl) text) := by
  have hlen : ((fresh (size cap).toNat : Block UInt8).length : ℤ) = cap :=
    length_guessed hg (by omega)
  obtain ⟨b, hb, htext⟩ := terminate_room hT hcap
    ((congrArg Nat.cast (hc.size (fresh (size cap).toNat) cap hlen.ge)).trans hlen)
    fun i hi => hc.copies _ _ hlen.ge i hi (by omega)
  rw [wrap_first hc hg hm hcap.le, hb]
  exact .inr ⟨b, rfl, htext⟩

/-- The prompt is in its template in full when the template does not fill the guessed buffer to
its last byte, and no `int` overflows. -/
theorem wrap_inFull_iff (hc : Contract apply tmpl (messages text) T) (hT : 0 < T.length) :
    InFull malloc realloc text T (wrapInChatTemplate apply malloc realloc (some tmpl) text) ↔
      ∃ cap, guess text = some cap ∧ (malloc (size cap).toNat = true → cap ≠ T.length ∧
        (cap < T.length → realloc (T.length + 1) = true → T.length + 1 < 2 ^ 31)) := by
  cases hg : guess text with
  | none => simp [wrapInChatTemplate, hg, InFull]
  | some cap =>
    simp only [Option.some.injEq, exists_eq_left']
    cases hm : malloc (size cap).toNat with
    | false => simp [InFull, wrap_refused hg hm, hg, hm]
    | true =>
      simp only [forall_const]
      rcases lt_trichotomy cap T.length with hcap | hcap | hcap
      · simp [wrap_longer hc hT hg hm hcap, hcap, hcap.ne]
      · subst hcap
        exact iff_of_false (wrap_exact hc hT hg hm) fun h => h.1 rfl
      · exact iff_of_true (wrap_shorter hc hT hg hm hcap) ⟨hcap.ne', fun h => by omega⟩

def hello : Bytes := cstr "Hello."

theorem wrap_inFull_hello : InFull (fun _ => true) (fun _ => true) hello
    (chatml (messages hello) true) (wrapInChatTemplate (applyTemplate fun _ => chatml)
      (fun _ => true) (fun _ => true) (some []) hello) :=
  (wrap_inFull_iff (contract_applyTemplate rfl (by rw [length_chatml]; decide)
    (nul_chatml (by decide))) (by rw [length_chatml]; decide)).mpr
    ⟨524, guess_eq (by decide), fun _ => by rw [length_chatml]; decide⟩

/-- A template of as many bytes as are guessed. -/
def filling : Bytes := List.replicate 512 120

theorem contract_filling :
    Contract (applyTemplate fun _ _ _ => filling) [] (messages []) filling := by
  refine contract_applyTemplate rfl ?_ ?_
  · rw [filling, List.length_replicate]
    decide
  · exact fun h => absurd (List.eq_of_mem_replicate h) (by decide)

theorem wrap_cuts_filling : Contract (applyTemplate fun _ _ _ => filling) [] (messages []) filling ∧
    ¬ InFull (fun _ => true) (fun _ => true) [] filling (wrapInChatTemplate
      (applyTemplate fun _ _ _ => filling) (fun _ => true) (fun _ => true) (some []) []) := by
  have hlen : filling.length = 512 := List.length_replicate
  refine ⟨contract_filling, wrap_exact contract_filling (by rw [hlen]; decide) ?_ rfl⟩
  rw [hlen]
  exact guess_eq (by decide)

end Wrapped

end ReadersSpeech.LlamaLib
