import ReadersSpeech.Translator

/-! A whole translation. What one turn of the loop does is said once (`passage_first` and
`passage_second`); the run that is never cancelled and the one that is follow from it.
-/

set_option autoImplicit false

namespace ReadersSpeech.Translator
open Splitting

variable {u : Unicode} {session : Session} {target : Str} {size i : Nat}

theorem groupFrom_solid (out : List Block) (start end_ : Int64) (text : Str)
    (segments : List Segment) (ho : ∀ b ∈ out, Solid isWhitespace b.text)
    (ht : text = [] ∨ Solid isWhitespace text) :
    ∀ b ∈ groupFrom out start end_ text segments, Solid isWhitespace b.text := by
  induction segments generalizing out start end_ text with
  | nil =>
    rcases ht with rfl | ht
    · simpa [groupFrom] using ho
    · have hne : text.isEmpty = false := by simp [ht.ne_nil]
      simp only [groupFrom, hne, Bool.false_eq_true, if_false]
      intro b hb
      rcases List.mem_append.mp hb with hb | hb
      · exact ho b hb
      · obtain rfl := List.mem_singleton.mp hb
        exact ht
  | cons s rest ih =>
    simp only [groupFrom]
    by_cases hp : (trim s.text).isEmpty = true
    · rw [if_pos hp]
      exact ih out start end_ text ho ht
    · have hs : Solid isWhitespace (trim s.text) := solid_trimBy (by simpa [trim] using hp)
      have htext : Solid isWhitespace
          ((if text.isEmpty then text else text ++ kt " ") ++ trim s.text) := by
        rcases ht with rfl | ht
        · simpa using hs
        · have hne : text.isEmpty = false := by simp [ht.ne_nil]
          simpa [hne] using ht.append (kt " ") hs
      rw [if_neg hp]
      generalize (if text.isEmpty then text else text ++ kt " ") ++ trim s.text = text' at htext
      split
      · refine ih _ _ _ _ (fun b hb => ?_) (.inl rfl)
        rcases List.mem_append.mp hb with hb | hb
        · exact ho b hb
        · obtain rfl := List.mem_singleton.mp hb
          exact htext
      · exact ih _ _ _ _ ho (.inr htext)

theorem group_solid (segments : List Segment) :
    ∀ b ∈ group segments, Solid isWhitespace b.text :=
  groupFrom_solid [] (-1) 0 [] segments (by simp) (.inl rfl)

theorem trim_strip (u : Unicode) (answer : Str) : trim (strip u answer) = strip u answer :=
  trim_trim _

/-- An answer taken for a translation of `text`, and what is kept of it. -/
structure Accepted (u : Unicode) (text generated clean : Str) : Prop where
  clean_eq : clean = strip u (trim generated)
  differs : u.equalsIgnoreCase clean (trim text) = false
  long : 4 * text.length ≤ 10 * clean.length
  short : 10 * clean.length ≤ 25 * text.length

theorem judge_some {text clean : Str} {answer : Option Str} (ht : text ≠ [])
    (h : judge u text answer = some clean) :
    ∃ generated, answer = some generated ∧ Accepted u text generated clean := by
  cases answer with
  | none => simp [judge] at h
  | some generated =>
    simp only [judge, Option.map_some] at h
    split at h
    · simp at h
    split at h
    · simp at h
    · rename_i hd
      split at h
      · simp at h
      · rename_i hr
        obtain rfl := Option.some.inj h
        have hpos : 0 < text.length := List.length_pos_iff.mpr ht
        have hmax : max text.length 1 = text.length := by omega
        have hq : (0 : ℚ) < text.length := by exact_mod_cast hpos
        simp only [ratio, hmax, not_or, not_lt, le_div_iff₀ hq, div_le_iff₀ hq] at hr
        refine ⟨generated, rfl, rfl, by simpa using hd, ?_, ?_⟩
        · have h₁ : (4 * text.length : ℚ) ≤ 10 * (strip u (trim generated)).length := by
            linarith [hr.1]
          exact_mod_cast h₁
        · have h₂ : (10 * (strip u (trim generated)).length : ℚ) ≤ 25 * text.length := by
            linarith [hr.2]
          exact_mod_cast h₂

theorem Accepted.ne_nil {text generated clean : Str} (h : Accepted u text generated clean)
    (ht : text ≠ []) : clean ≠ [] := by
  have hpos := List.length_pos_iff.mpr ht
  have hl := h.long
  rw [← List.length_pos_iff]
  omega

/-- The figures shown so far; `high` keeps them from going back. -/
structure Showing (w : World) : Prop where
  rising : w.shown.Pairwise (· < ·)
  bounded : ∀ p ∈ w.shown, p ≤ w.high
  below : w.high ≤ 99

theorem figure_le (hi : i < size) (inside : Int) : figure size i inside ≤ 99 := by
  have h₁ := Int.bmod_lt (x := (i * 100 : Int).bmod (2 ^ 32) + min (max inside 0) 99)
    (m := 2 ^ 32) (by decide)
  unfold figure
  generalize hx : ((i * 100 : Int).bmod (2 ^ 32) + min (max inside 0) 99).bmod (2 ^ 32) = x at h₁
  have hlt : x < size * 100 := by
    by_cases hs : 2147483648 ≤ size * 100
    · norm_num at h₁
      omega
    · have hb : (i * 100 : Int).bmod (2 ^ 32) = i * 100 := Int.bmod_eq_of_le (by omega) (by omega)
      rw [hb, Int.bmod_eq_of_le (by omega) (by omega)] at hx
      omega
  have hd : x.tdiv size < 100 := by
    rcases le_or_gt 0 x with h0 | h0
    · rw [Int.tdiv_eq_ediv_of_nonneg h0]
      exact Int.ediv_lt_of_lt_mul (by omega) (by omega)
    · have hn := Int.tdiv_nonneg (b := (size : Int)) (a := -x) (by omega) (by omega)
      rw [Int.neg_tdiv] at hn
      omega
  omega

theorem report_showing {w : World} (hi : i < size) (inside : Int) (h : Showing w) :
    Showing (report size i w inside) := by
  have hle := figure_le hi inside
  unfold report
  generalize figure size i inside = p at hle
  simp only []
  split
  · rename_i hp
    refine ⟨?_, ?_, hle⟩
    · simp only [List.pairwise_append, List.pairwise_singleton, List.mem_singleton]
      refine ⟨h.rising, trivial, fun q hm p' hp' => ?_⟩
      have hb := h.bounded q hm
      omega
    · intro q hm
      rcases List.mem_append.mp hm with hm | hm
      · have hb := h.bounded q hm
        simp only
        omega
      · simp only [List.mem_singleton] at hm
        simp [hm]
  · exact h

/-- From one moment of a run to a later one: what happened in between. -/
structure Goes (w : World) (es : List Event) (w' : World) : Prop where
  events : w'.events = w.events ++ es
  calls : w'.calls = w.calls + es.countP Event.isAsked
  showing : Showing w → Showing w'

theorem Goes.refl (w : World) : Goes w [] w := ⟨by simp, by simp, id⟩

theorem Goes.trans {w₁ w₂ w₃ : World} {a b : List Event} (h₁ : Goes w₁ a w₂)
    (h₂ : Goes w₂ b w₃) : Goes w₁ (a ++ b) w₃ :=
  ⟨by simp [h₁.events, h₂.events], by simp [h₁.calls, h₂.calls, Nat.add_assoc],
    h₂.showing ∘ h₁.showing⟩

theorem Goes.after {w₁ w₂ w₃ : World} {es : List Event} (h₁ : Goes w₁ [] w₂)
    (h₂ : Goes w₂ es w₃) : Goes w₁ es w₃ := by
  have h := h₁.trans h₂
  rwa [List.nil_append] at h

theorem goes_report (hi : i < size) (w : World) (inside : Int) :
    Goes w [] (report size i w inside) := by
  refine ⟨?_, ?_, report_showing hi inside⟩
  · simp only [report]
    split <;> simp
  · simp only [report]
    split <;> simp

theorem goes_reports (hi : i < size) (reports : List Int) (w : World) :
    Goes w [] (reports.foldl (report size i) w) := by
  induction reports generalizing w with
  | nil => exact .refl w
  | cons p rest ih =>
    rw [List.foldl_cons]
    exact (goes_report hi w p).after (ih _)

theorem goes_tested (w : World) : Goes w [.tested] (w.add .tested) :=
  ⟨rfl, rfl, fun h => ⟨h.rising, h.bounded, h.below⟩⟩

def Session.answer (session : Session) (k : Nat) : Option Str :=
  if isBlank (session.attempt k).generated then none else some (session.attempt k).generated

def rendered (u : Unicode) (session : Session) (text : Str) (k : Nat) : Option Str :=
  judge u text (session.answer k)

def exchange (session : Session) (table : List (Str × Str)) (target text : Str) (k : Nat) :
    List Event :=
  [.asked (prompt table target text), .answered (session.attempt k).generated]

theorem exchange_asks (table : List (Str × Str)) (text : Str) (k : Nat) :
    (exchange session table target text k).countP Event.isAsked = 1 := rfl

theorem once_spec (u : Unicode) (session : Session) (target : Str) (hi : i < size)
    (table : List (Str × Str)) (text : Str) (w : World) :
    (once u session text target table (report size i) w).1 = rendered u session text w.calls ∧
      Goes w (exchange session table target text w.calls)
        (once u session text target table (report size i) w).2 := by
  refine ⟨rfl, ?_⟩
  have h := goes_reports hi (session.attempt w.calls).reports
    { w.add (.asked (prompt table target text)) with calls := w.calls + 1 }
  refine ⟨?_, ?_, fun hs => ?_⟩
  · have he := h.events
    simp only [World.add] at he
    simp [once, run, World.add, he, exchange]
  · have hc := h.calls
    simp only [World.add] at hc
    simp [once, run, World.add, hc, exchange_asks]
  · obtain ⟨hr, hb, hl⟩ := h.showing ⟨hs.rising, hs.bounded, hs.below⟩
    exact ⟨hr, hb, hl⟩

/-- The first time a block is asked for. -/
theorem once_reported (u : Unicode) (session : Session) (target : Str) (hi : i < size) (text : Str)
    (w : World) :
    let first := once u session text target ask (report size i) (report size i w 0)
    first.1 = rendered u session text w.calls ∧
      Goes w (exchange session ask target text w.calls) first.2 := by
  have hr := goes_report hi w 0
  have hc : (report size i w 0).calls = w.calls := hr.calls
  obtain ⟨hd, hg⟩ := once_spec u session target hi ask text (report size i w 0)
  rw [hc] at hd hg
  exact ⟨hd, hr.after hg⟩

theorem passage_first (target : Str) (hi : i < size) (w : World) {block : Block} {d : Str}
    (h : rendered u session block.text w.calls = some d) :
    (passage u session target size i block w).1 = { block with text := trim d } ∧
      Goes w (exchange session ask target block.text w.calls)
        (passage u session target size i block w).2 := by
  obtain ⟨hd, hg⟩ := once_reported u session target hi block.text w
  rw [h] at hd
  simp only [passage]
  generalize once u session block.text target ask (report size i) (report size i w 0) = first
    at hd hg ⊢
  simp only [hd]
  exact ⟨by simp, hg⟩

theorem passage_second (target : Str) (hi : i < size) (w : World) {block : Block}
    (h : rendered u session block.text w.calls = none) :
    (passage u session target size i block w).1 =
        { block with
          text := trim ((rendered u session block.text (w.calls + 1)).getD block.text) } ∧
      Goes w (exchange session ask target block.text w.calls ++
          exchange session strict target block.text (w.calls + 1))
        (passage u session target size i block w).2 := by
  obtain ⟨hd, hg⟩ := once_reported u session target hi block.text w
  rw [h] at hd
  simp only [passage]
  generalize once u session block.text target ask (report size i) (report size i w 0) = first
    at hd hg ⊢
  have hc : first.2.calls = w.calls + 1 := by simp [hg.calls, exchange_asks]
  obtain ⟨hd', hg'⟩ := once_spec u session target hi strict block.text first.2
  rw [hc] at hd' hg'
  simp only [hd, hd']
  exact ⟨trivial, hg.trans hg'⟩

/-- One turn of the loop: what happened, and the block it made of `block`. -/
structure Turn (u : Unicode) (block : Block) (trace : List Event) (out : Block) : Prop where
  startMs : out.startMs = block.startMs
  endMs : out.endMs = block.endMs
  text_ne : out.text ≠ []
  text : out.text = block.text ∨
    ∃ generated, .answered generated ∈ trace ∧ Accepted u block.text generated out.text
  asks : trace.countP Event.isAsked ≤ 2

inductive Turns (u : Unicode) : List Block → List Event → List Block → Prop
  | nil : Turns u [] [] []
  | cons {b o : Block} {t ts : List Event} {bs os : List Block} :
      Turn u b t o → Turns u bs ts os → Turns u (b :: bs) (t ++ ts) (o :: os)

theorem rendered_some {text clean : Str} {k : Nat} (ht : text ≠ [])
    (h : rendered u session text k = some clean) :
    Accepted u text (session.attempt k).generated clean := by
  obtain ⟨generated, ha, hj⟩ := judge_some ht h
  unfold Session.answer at ha
  split at ha
  · simp at ha
  · exact Option.some.inj ha ▸ hj

theorem Accepted.turn {block : Block} {trace : List Event} {generated clean : Str}
    (h : Accepted u block.text generated clean) (ht : block.text ≠ [])
    (hm : .answered generated ∈ trace) (hasks : trace.countP Event.isAsked ≤ 2) :
    Turn u block trace { block with text := trim clean } := by
  have htrim : trim clean = clean := by rw [h.clean_eq, trim_strip]
  rw [htrim]
  exact ⟨rfl, rfl, h.ne_nil ht, .inr ⟨generated, hm, h⟩, hasks⟩

theorem passage_turn (u : Unicode) (session : Session) (target : Str) (hi : i < size)
    {block : Block} (w : World) (hb : Solid isWhitespace block.text) :
    ∃ trace, Goes w trace (passage u session target size i block w).2 ∧
      Turn u block trace (passage u session target size i block w).1 := by
  cases h₁ : rendered u session block.text w.calls with
  | some d =>
    obtain ⟨hp, hg⟩ := passage_first target hi w h₁
    have hm : Event.answered (session.attempt w.calls).generated ∈
      exchange session ask target block.text w.calls := by simp [exchange]
    rw [hp]
    exact ⟨_, hg, (rendered_some hb.ne_nil h₁).turn hb.ne_nil hm (by simp [exchange_asks])⟩
  | none =>
    obtain ⟨hp, hg⟩ := passage_second target hi w h₁
    have hasks : (exchange session ask target block.text w.calls ++
        exchange session strict target block.text (w.calls + 1)).countP Event.isAsked ≤ 2 := by
      simp [exchange_asks]
    have hm : Event.answered (session.attempt (w.calls + 1)).generated ∈
      exchange session ask target block.text w.calls ++
        exchange session strict target block.text (w.calls + 1) := by simp [exchange]
    rw [hp]
    cases h₂ : rendered u session block.text (w.calls + 1) with
    | some d => exact ⟨_, hg, (rendered_some hb.ne_nil h₂).turn hb.ne_nil hm hasks⟩
    | none =>
      have hkept : trim block.text = block.text := hb.trimBy_eq
      rw [Option.getD_none, hkept]
      exact ⟨_, hg, rfl, rfl, hb.ne_nil, .inl rfl, hasks⟩

theorem translateFrom_turns (u : Unicode) (session : Session) (target : Str)
    (cancelled : Nat → Bool) (hc : ∀ k, cancelled k = false) (out : List Block) (w : World)
    (blocks : List Block) (hs : i + blocks.length = size)
    (hb : ∀ b ∈ blocks, Solid isWhitespace b.text) :
    ∃ outs trace w', translateFrom u session cancelled target size i out w blocks =
        (some (out ++ outs), { w' with shown := w'.shown ++ [100] }) ∧
      Goes w trace w' ∧ Turns u blocks trace outs := by
  induction blocks generalizing i out w with
  | nil => exact ⟨[], [], w, by simp [translateFrom], .refl w, .nil⟩
  | cons b rest ih =>
    simp only [List.length_cons] at hs
    have hi : i < size := by omega
    obtain ⟨t, hg, ht⟩ := passage_turn u session target hi (w.add .tested) (hb b (by simp))
    generalize hp : passage u session target size i b (w.add .tested) = p at hg ht
    obtain ⟨outs, ts, w', he, hg', hts⟩ := ih (i := i + 1) (out ++ [p.1]) p.2 (by omega)
      fun b hm => hb b (by simp [hm])
    refine ⟨p.1 :: outs, ([.tested] ++ t) ++ ts, w', ?_, ((goes_tested w).trans hg).trans hg',
      .cons ⟨ht.startMs, ht.endMs, ht.text_ne, ?_, ?_⟩ hts⟩
    · simp [translateFrom, hc, hp, he]
    · rcases ht.text with h | ⟨g, hm, ha⟩
      · exact .inl h
      · exact .inr ⟨g, by simp [hm], ha⟩
    · simpa [Event.isAsked] using ht.asks

theorem idle_showing : Showing idle := ⟨by simp [idle], by simp [idle], by decide⟩

/-- No hole and no drift: a block for each block, whatever the model answers. -/
theorem translate_whole (u : Unicode) (session : Session) (segments : List Segment)
    (target : Str) (hl : session.loaded = true) (hb : group segments ≠ []) :
    ∃ out w, translate u session segments target (fun _ => false) = (.ok (some out), w) ∧
      Turns u (group segments) w.events out ∧ w.shown.Pairwise (· < ·) ∧
      ∃ earlier, w.shown = earlier ++ [100] ∧ 100 ∉ earlier := by
  obtain ⟨out, trace, w, he, hg, ht⟩ := translateFrom_turns u session target
    (fun _ => false) (fun _ => rfl) [] idle (group segments) (Nat.zero_add _)
    (group_solid segments)
  have hs := hg.showing idle_showing
  have hlt : ∀ p ∈ w.shown, p < 100 := by
    intro p hp
    have h₁ := hs.bounded p hp
    have h₂ := hs.below
    omega
  refine ⟨out, { w with shown := w.shown ++ [100] }, ?_, ?_, ?_, w.shown, rfl, fun h => ?_⟩
  · simp [translate, hl, hb, he]
  · simpa [hg.events, idle] using ht
  · simp only [List.pairwise_append, List.pairwise_singleton, List.mem_singleton]
    exact ⟨hs.rising, trivial, fun p hp q hq => hq ▸ hlt p hp⟩
  · exact absurd (hlt 100 h) (lt_irrefl _)

/-- A passage of seven hundred characters. -/
def lengthy : Str := kt "Bonjour" ++ (List.replicate 80 (kt ", bonjour")).flatten

/-- Two passages, as the first fills a block. -/
def lecture : List Segment := [⟨0, 60000, lengthy, false⟩, ⟨60000, 61000, kt "Merci.", false⟩]

def rendering : Str := kt "Hello" ++ (List.replicate 80 (kt ", hello")).flatten

/-- The first call is answered; those after it get back what they were given. -/
def answersOnce : Session :=
  ⟨true, [], fun k => if k = 0 then ⟨[40, 90], rendering⟩ else ⟨[], kt "Merci."⟩⟩

theorem translate_whole_lecture : ∃ w,
    translate ascii answersOnce lecture (kt "en") (fun _ => false) =
      (.ok (some [⟨0, 60000, rendering⟩, ⟨60000, 61000, kt "Merci."⟩]), w) ∧
    Turns ascii (group lecture) w.events
      [⟨0, 60000, rendering⟩, ⟨60000, 61000, kt "Merci."⟩] := by
  obtain ⟨out, w, h, hturns, -⟩ :=
    translate_whole ascii answersOnce lecture (kt "en") rfl (by decide +kernel)
  have hout : (translate ascii answersOnce lecture (kt "en") (fun _ => false)).1 =
      .ok (some [⟨0, 60000, rendering⟩, ⟨60000, 61000, kt "Merci."⟩]) := by decide +kernel
  rw [h] at hout
  cases hout
  exact ⟨w, h, hturns⟩

end ReadersSpeech.Translator
