import Mathlib.Data.Nat.Log
import ReadersSpeech.SummariserPrompts

/-! A whole summary that nobody cancels: which calls are made, in which order, on what, and what
comes back. The answers are whatever the session gives, call after call.
-/

set_option autoImplicit false

namespace ReadersSpeech.Summariser
open Splitting Guarded
open Translator (Session)

variable {d : Device} {session : Session} {lang : Str}

def heard (generated : Str) : Option Str := if isBlank generated then none else some generated

/-- What the model generates in its `k`-th call. -/
def generated (session : Session) (k : Nat) : Str := (session.attempt k).generated

/-- The answers to `n` calls, the first of them the `k`-th. -/
def heardFrom (session : Session) (k n : Nat) : List (Option Str) :=
  (answers (generated session) k n).map heard

@[simp] theorem length_answers {α : Type} (oracle : Nat → α) (k n : Nat) :
    (answers oracle k n).length = n := by simp [answers]

@[simp] theorem length_heardFrom (k n : Nat) : (heardFrom session k n).length = n := by
  simp [heardFrom]

abbrev Asks {β : Type} (session : Session) (c : Step β) (w : World Progress Ask Str)
    (asks : List Ask) (r : β) : Prop := Follows (generated session) c w asks r

theorem asks_run (a : Ask) (w : World Progress Ask Str) :
    Asks session (run d session a) w [a] (heard (generated session w.calls)) := by
  have h : Asks session (run d session a) w ([a] ++ []) (heard (generated session w.calls)) :=
    (follows_ask w _ a).bind fun w₁ _ => follows_update_bind w₁ _ fun w₂ _ => follows_pure w₂ _
  exact h

/-- A loop that adds to a list what it makes of each answer. -/
theorem asks_loop (d : Device) (session : Session) {ξ : Type} (a : ξ → Ask)
    (h : ξ → Option Str → List Str) (xs : List ξ) (w : World Progress Ask Str) :
    Asks session (xs.foldlM (fun out x => do
      let answer ← run d session (a x)
      return out ++ h x answer) []) w (xs.map a)
      (List.zipWith h xs (heardFrom session w.calls xs.length)).flatten := by
  have hf := follows_foldlM (f := fun out x => do
      let answer ← run d session (a x)
      return out ++ h x answer)
    (g := fun out x g => out ++ h x (heard g))
    (fun out x w => (asks_run (a x) w).bind_pure fun answer => out ++ h x answer) xs [] w
  have hz : ∀ (ys : List ξ) (gs : List Str) (out : List Str),
      (ys.zip gs).foldl (fun out (xa : ξ × Str) => out ++ h xa.1 (heard xa.2)) out =
        out ++ (List.zipWith h ys (gs.map heard)).flatten := by
    intro ys
    induction ys with
    | nil => simp
    | cons y ys ih =>
      intro gs out
      cases gs with
      | nil => simp
      | cons g gs => simp [ih, List.append_assoc]
  rw [hz, List.nil_append] at hf
  exact hf

theorem zipWith_right {α β γ : Type} (f : β → γ) {xs : List α} {ys : List β}
    (h : xs.length = ys.length) : List.zipWith (fun _ y => f y) xs ys = ys.map f := by
  induction xs generalizing ys with
  | nil => simp [List.length_eq_zero_iff.mp h.symm]
  | cons x xs ih =>
    cases ys with
    | nil => simp at h
    | cons y ys => rw [List.zipWith_cons_cons, ih (by simpa using h), List.map_cons]

theorem asks_takeNotes (parts : List Str) (w : World Progress Ask Str) :
    Asks session (takeNotes d session lang parts) w (parts.mapIdx (partAsk lang parts.length))
      ((heardFrom session w.calls parts.length).filterMap (Option.map unprefaced)) := by
  have h := asks_loop d session
    (fun p : Str × Nat => partAsk lang parts.length p.2 p.1)
    (fun _ answer => (answer.map unprefaced).toList) parts.zipIdx w
  have hbody : takeNotes d session lang parts = parts.zipIdx.foldlM (fun out p => do
      let answer ← run d session (partAsk lang parts.length p.2 p.1)
      return out ++ (answer.map unprefaced).toList) [] := by
    refine congrArg (fun f => parts.zipIdx.foldlM f []) (funext fun out => funext fun p => ?_)
    refine congrArg (run d session _ >>= ·) (funext fun answer => ?_)
    cases answer <;> simp
  rw [hbody, List.mapIdx_eq_zipIdx_map]
  rw [zipWith_right _ (by simp), ← List.flatMap_def, ← List.filterMap_eq_flatMap_toList,
    List.length_zipIdx] at h
  exact h

/-- The paragraphs a round leaves: one for each group. -/
def foldedFrom (session : Session) (k : Nat) (groups : List (List Str)) : List Str :=
  List.zipWith folded groups (heardFrom session k groups.length)

theorem asks_foldRound (groups : List (List Str)) (w : World Progress Ask Str) :
    Asks session (foldRound d session lang groups) w (groups.map (groupAsk lang))
      (foldedFrom session w.calls groups) := by
  have h := asks_loop d session (groupAsk lang)
    (fun g answer => [folded g answer]) groups w
  have hflat : ∀ (gs : List (List Str)) (hs : List (Option Str)),
      (List.zipWith (fun g answer => [folded g answer]) gs hs).flatten =
        List.zipWith folded gs hs := by
    intro gs
    induction gs with
    | nil => simp
    | cons g gs ih =>
      intro hs
      cases hs <;> simp [ih]
  rw [hflat] at h
  exact h

theorem asks_takePoints (d : Device) (session : Session) (lang theme : Str)
    (groups : List (List Str)) (w : World Progress Ask Str) :
    Asks session (takePoints d session lang theme groups) w
      (groups.mapIdx (pointsAsk lang theme groups.length))
      ((heardFrom session w.calls groups.length).map (added d groups.length)).flatten := by
  have h := asks_loop d session
    (fun g : List Str × Nat => pointsAsk lang theme groups.length g.2 g.1)
    (fun _ answer => added d groups.length answer) groups.zipIdx w
  rw [zipWith_right _ (by simp), List.length_zipIdx, ← List.mapIdx_eq_zipIdx_map] at h
  exact h

theorem length_chunked_two {α : Type} (l : List α) :
    (chunked 2 l).length = (l.length + 1) / 2 := by
  induction l using chunked.induct 2 with
  | case1 => simp [chunked]
  | case2 c rest ih =>
    rw [chunked, List.length_cons, ih]
    simp only [Nat.add_one_sub_one, List.length_drop, List.length_cons]
    omega

/-- The rounds of folding from the `k`-th call on: in each the paragraphs are grouped two by two,
and every group is sent once, in order. -/
inductive Folds (d : Device) (session : Session) : Nat → List Str → List (List (List Str)) →
    List Str → Prop
  | fits {k : Nat} {forTheme : List Str} : tooLong d.toUnicode forTheme = false →
      Folds d session k forTheme [] forTheme
  | round {k : Nat} {forTheme last : List Str} {groups : List (List Str)}
      {rounds : List (List (List Str))} : tooLong d.toUnicode forTheme = true →
      groups = chunked 2 forTheme → groups.flatten = forTheme →
      Folds d session (k + groups.length) (foldedFrom session k groups) rounds last →
      Folds d session k forTheme (groups :: rounds) last

theorem length_foldedFrom (k : Nat) (groups : List (List Str)) :
    (foldedFrom session k groups).length = groups.length := by simp [foldedFrom]

/-- Each round halves the number of paragraphs, whatever the answers. -/
theorem Folds.rounds_le {k : Nat} {forTheme last : List Str} {rounds : List (List (List Str))}
    (h : Folds d session k forTheme rounds last) :
    rounds.length ≤ Nat.clog 2 forTheme.length := by
  induction h with
  | fits _ => simp
  | @round k forTheme last groups rounds htoo hg _ _ ih =>
    have hlen : 2 < forTheme.length := by
      simp only [tooLong, Bool.and_eq_true, decide_eq_true_eq] at htoo
      exact htoo.2
    rw [length_foldedFrom, hg, length_chunked_two] at ih
    rw [List.length_cons, Nat.clog_of_two_le (by omega) (by omega)]
    exact Nat.succ_le_succ ih

theorem length_groups_lt {forTheme : List Str} (h : tooLong d.toUnicode forTheme = true) :
    (chunked 2 forTheme).length < forTheme.length := by
  simp only [tooLong, Bool.and_eq_true, decide_eq_true_eq] at h
  rw [length_chunked_two]
  omega

theorem exists_folds (d : Device) (session : Session) (k : Nat) (forTheme : List Str) :
    ∃ rounds last, Folds d session k forTheme rounds last := by
  generalize hn : forTheme.length = n
  induction n using Nat.strongRecOn generalizing k forTheme with
  | ind n ih =>
    cases htoo : tooLong d.toUnicode forTheme with
    | false => exact ⟨[], forTheme, .fits htoo⟩
    | true =>
      have hlt := length_groups_lt htoo
      obtain ⟨rounds, last, h⟩ := ih _ (hn ▸ hlt) (k + (chunked 2 forTheme).length)
        (foldedFrom session k (chunked 2 forTheme)) (length_foldedFrom _ _)
      exact ⟨_, last, .round htoo rfl (chunked_flatten 2 forTheme) h⟩

/-- As many turns as there are paragraphs are enough. -/
theorem asks_fold {turns : Nat} {forTheme last : List Str} {rounds : List (List (List Str))}
    {w : World Progress Ask Str} (h : Folds d session w.calls forTheme rounds last)
    (hturns : forTheme.length ≤ turns) :
    Asks session (fold d session lang turns forTheme) w (rounds.flatten.map (groupAsk lang))
      last := by
  induction turns generalizing forTheme rounds w with
  | zero =>
    cases h with
    | fits _ => exact follows_pure w _
    | round htoo _ _ _ =>
      have hlt := length_groups_lt htoo
      omega
  | succ turns ih =>
    cases h with
    | fits hfits =>
      simp only [fold, hfits]
      exact follows_pure w _
    | round htoo hg _ hr =>
      have hlt := length_groups_lt htoo
      subst hg
      simp only [fold, htoo, if_true, List.flatten_cons, List.map_append]
      refine follows_update_bind w _ fun w₁ h₁ => ?_
      have hc₁ : w₁.calls = w.calls := h₁.calls
      refine (asks_foldRound _ w₁).bind fun w₂ h₂ => ?_
      have hc₂ : w₂.calls = w.calls + (chunked 2 forTheme).length := by
        rw [h₂.calls, hc₁, List.length_map]
      rw [hc₁]
      refine ih (hc₂ ▸ hr) ?_
      rw [length_foldedFrom]
      omega

/-! ### The whole run -/

/-- The notes obtained: of a single piece the text itself, of several one for each answer. -/
def notesOf (session : Session) (clean : Str) (parts : List Str) : List Str :=
  if parts.length = 1 then [trim clean]
  else (heardFrom session 0 parts.length).filterMap (Option.map unprefaced)

def partAsks (lang : Str) (parts : List Str) : List Ask :=
  if parts.length = 1 then [] else parts.mapIdx (partAsk lang parts.length)

/-- What is asked once the paragraphs fit, when `k` calls have been made. -/
def themeOf (session : Session) (k : Nat) : Str := ((heard (generated session k)).map trim).getD []

def lastAsks (session : Session) (lang : Str) (k : Nat) (notes last : List Str) : List Ask :=
  themeAsk lang last :: (chunked notesPerCall notes).mapIdx
    (pointsAsk lang (themeOf session k) (chunked notesPerCall notes).length)

/-- The points kept of each call, in the order of the calls. -/
def pointsOf (d : Device) (session : Session) (k : Nat) (notes : List Str) : List Str :=
  let groups := (chunked notesPerCall notes).length
  ((heardFrom session (k + 1) groups).map (added d groups)).flatten

def outcome (d : Device) (session : Session) (k : Nat) (notes : List Str) : Option Str :=
  let kept := distinctBy d.lowercase (pointsOf d session k notes)
  if kept = [] then none else some (written (themeOf session k) kept)

theorem asks_allNotes (clean : Str) (parts : List Str) (w : World Progress Ask Str)
    (hw : w.calls = 0) : Asks session (allNotes d session lang clean parts) w (partAsks lang parts)
      (notesOf session clean parts) := by
  unfold allNotes partAsks notesOf
  split
  · exact follows_pure w _
  · exact hw ▸ asks_takeNotes parts w

theorem asks_fromNotes {notes last : List Str} {rounds : List (List (List Str))}
    {w : World Progress Ask Str} (hn : notes ≠ [])
    (h : Folds d session w.calls notes rounds last) :
    Asks session (fromNotes d session lang notes) w
      (rounds.flatten.map (groupAsk lang) ++
        lastAsks session lang (w.calls + rounds.flatten.length) notes last)
      (outcome d session (w.calls + rounds.flatten.length) notes) := by
  unfold fromNotes
  rw [if_neg hn]
  refine (asks_fold h (le_refl _)).bind fun w₁ h₁ => ?_
  have hc₁ : w₁.calls = w.calls + rounds.flatten.length := by rw [h₁.calls, List.length_map]
  rw [← hc₁]
  refine Follows.bind (asks_run (themeAsk lang last) w₁) fun w₂ h₂ => ?_
  refine follows_update_bind w₂ _ fun w₃ h₃ => ?_
  have hc₃ : w₃.calls = w₁.calls + 1 := by rw [h₃.calls, h₂.calls]; rfl
  have hp := asks_takePoints d session lang (themeOf session w₁.calls)
    (chunked notesPerCall notes) w₃
  rw [hc₃] at hp
  exact hp.bind_pure fun points => if distinctBy d.lowercase points = [] then none
    else some (written (themeOf session w₁.calls) (distinctBy d.lowercase points))

theorem asks_withSession (clean : Str) (parts : List Str) {last : List Str}
    {rounds : List (List (List Str))} {w : World Progress Ask Str} (hw : w.calls = 0)
    (h : Folds d session (partAsks lang parts).length (notesOf session clean parts) rounds last) :
    Asks session (withSession d session lang clean parts) w
      (partAsks lang parts ++ if notesOf session clean parts = [] then [] else
        rounds.flatten.map (groupAsk lang) ++ lastAsks session lang
          ((partAsks lang parts).length + rounds.flatten.length) (notesOf session clean parts) last)
      (if notesOf session clean parts = [] then none else
        outcome d session ((partAsks lang parts).length + rounds.flatten.length)
          (notesOf session clean parts)) := by
  refine (asks_allNotes clean parts w hw).bind fun w₁ h₁ => ?_
  have hc₁ : w₁.calls = (partAsks lang parts).length := by rw [h₁.calls, hw, Nat.zero_add]
  by_cases hn : notesOf session clean parts = []
  · rw [if_pos hn, if_pos hn, fromNotes, if_pos hn]
    exact follows_pure w₁ none
  · rw [if_neg hn, if_neg hn, ← hc₁]
    exact asks_fromNotes hn (hc₁ ▸ h)

/-- The first of each key, in order: those before which no other has it. -/
structure FirstOfEach (key : Str → Str) (all kept : List Str) : Prop where
  firsts : kept = (all.zipIdx.filter fun x : Str × Nat =>
    decide (∀ q ∈ all.take x.2, key q ≠ key x.1)).map Prod.fst
  sublist : kept.Sublist all
  nodup : (kept.map key).Nodup
  every : ∀ p ∈ all, ∃ q ∈ kept, key q = key p

theorem distinctFrom_spec (key : Str → Str) (seen all : List Str) :
    (distinctFrom key seen all).Sublist all ∧ ((distinctFrom key seen all).map key).Nodup ∧
      (∀ q ∈ distinctFrom key seen all, key q ∉ seen) ∧
      ∀ p ∈ all, key p ∈ seen ∨ ∃ q ∈ distinctFrom key seen all, key q = key p := by
  induction all generalizing seen with
  | nil => simp [distinctFrom]
  | cons p all ih =>
    by_cases hp : key p ∈ seen
    · obtain ⟨h₁, h₂, h₃, h₄⟩ := ih seen
      rw [distinctFrom, if_pos hp]
      exact ⟨h₁.cons p, h₂, h₃, List.forall_mem_cons.mpr ⟨.inl hp, h₄⟩⟩
    · obtain ⟨h₁, h₂, h₃, h₄⟩ := ih (key p :: seen)
      rw [distinctFrom, if_neg hp]
      refine ⟨h₁.cons_cons p, ?_, ?_, ?_⟩
      · rw [List.map_cons, List.nodup_cons]
        refine ⟨fun hm => ?_, h₂⟩
        obtain ⟨q, hq, hk⟩ := List.mem_map.mp hm
        exact h₃ q hq (by simp [hk])
      · rw [List.forall_mem_cons]
        exact ⟨hp, fun q hq hs => h₃ q hq (List.mem_cons_of_mem _ hs)⟩
      · rw [List.forall_mem_cons]
        refine ⟨.inr ⟨p, by simp, rfl⟩, fun q hq => ?_⟩
        rcases h₄ q hq with hs | ⟨q', hq', hk⟩
        · rcases List.mem_cons.mp hs with hk | hs
          · exact .inr ⟨p, by simp, hk.symm⟩
          · exact .inl hs
        · exact .inr ⟨q', by simp [hq'], hk⟩

/-- `seen` are the keys of what stood before. -/
theorem distinctFrom_firsts (key : Str → Str) (before all seen : List Str)
    (hseen : ∀ k, k ∈ seen ↔ ∃ q ∈ before, key q = k) :
    distinctFrom key seen all = ((all.zipIdx before.length).filter fun x : Str × Nat =>
      decide (∀ q ∈ (before ++ all).take x.2, key q ≠ key x.1)).map Prod.fst := by
  induction all generalizing before seen with
  | nil => rfl
  | cons p all ih =>
    have hshift : before ++ p :: all = before ++ [p] ++ all := by simp
    have hlen : before.length + 1 = (before ++ [p]).length := by simp
    have hfirst : (∀ q ∈ (before ++ p :: all).take before.length, key q ≠ key p) ↔
        key p ∉ seen := by
      rw [List.take_left, hseen]
      push Not
      exact Iff.rfl
    rw [List.zipIdx_cons, distinctFrom, List.filter_cons, hlen]
    by_cases hp : key p ∈ seen
    · have hno : decide (∀ q ∈ (before ++ p :: all).take before.length, key q ≠ key p) = false :=
        decide_eq_false (mt hfirst.mp (not_not.mpr hp))
      rw [if_pos hp, hno, hshift]
      refine ih (before ++ [p]) seen fun k => ?_
      rw [hseen]
      constructor
      · rintro ⟨q, hq, hk⟩
        exact ⟨q, List.mem_append_left _ hq, hk⟩
      · rintro ⟨q, hq, rfl⟩
        rcases List.mem_append.mp hq with hq | hq
        · exact ⟨q, hq, rfl⟩
        · obtain rfl := List.mem_singleton.mp hq
          exact (hseen _).mp hp
    · have hyes : decide (∀ q ∈ (before ++ p :: all).take before.length, key q ≠ key p) = true :=
        decide_eq_true (hfirst.mpr hp)
      rw [if_neg hp, hyes, if_pos rfl, List.map_cons, hshift]
      refine congrArg (p :: ·) (ih (before ++ [p]) (key p :: seen) fun k => ?_)
      rw [List.mem_cons, hseen]
      simp only [List.mem_append, List.mem_singleton, or_and_right, exists_or, exists_eq_left]
      rw [or_comm, eq_comm]

theorem distinctBy_firstOfEach (key : Str → Str) (all : List Str) :
    FirstOfEach key all (distinctBy key all) := by
  obtain ⟨h₁, h₂, -, h₄⟩ := distinctFrom_spec key [] all
  exact ⟨distinctFrom_firsts key [] all [] (by simp), h₁, h₂,
    fun p hp => (h₄ p hp).resolve_left (by simp)⟩

theorem FirstOfEach.nil_iff {key : Str → Str} {all kept : List Str}
    (h : FirstOfEach key all kept) : kept = [] ↔ all = [] := by
  constructor
  · rintro rfl
    refine List.eq_nil_iff_forall_not_mem.mpr fun p hp => ?_
    obtain ⟨q, hq, -⟩ := h.every p hp
    simp at hq
  · rintro rfl
    exact List.sublist_nil.mp h.sublist

/-- What each call has to say: a piece, the paragraphs of a group, all that the theme is asked of,
the notes of a group. -/
def texts (session : Session) (clean : Str) (parts : List Str) (rounds : List (List (List Str)))
    (last : List Str) : List (List Str) :=
  (if parts.length = 1 then [] else parts.map fun p => [p]) ++
    if notesOf session clean parts = [] then [] else
      rounds.flatten ++ last :: chunked notesPerCall (notesOf session clean parts)

theorem forall₂_mapIdx {α β γ : Type} {R : β → γ → Prop} (l : List α) (f : Nat → α → β)
    (g : α → γ) (h : ∀ i x, R (f i x) (g x)) : List.Forall₂ R (l.mapIdx f) (l.map g) := by
  induction l generalizing f with
  | nil => exact .nil
  | cons x l ih =>
    rw [List.mapIdx_cons, List.map_cons]
    exact .cons (h 0 x) (ih _ fun i y => h (i + 1) y)

theorem asks_carry (u : Unicode) (language clean : Str) (parts : List Str)
    (rounds : List (List (List Str))) (last : List Str) :
    let lang := tongue u language
    List.Forall₂ (fun (a : Ask) ts => Carries ts a.prompt)
      (partAsks lang parts ++ if notesOf session clean parts = [] then [] else
        rounds.flatten.map (groupAsk lang) ++ lastAsks session lang
          ((partAsks lang parts).length + rounds.flatten.length) (notesOf session clean parts) last)
      (texts session clean parts rounds last) := by
  intro lang
  refine List.rel_append ?_ ?_
  · unfold partAsks
    split
    · exact .nil
    · exact forall₂_mapIdx _ _ _ fun i p => carries_partAsk u language _ i p
  · split
    · exact .nil
    · refine List.rel_append ?_ (.cons (carries_themeAsk u language last) ?_)
      · rw [List.forall₂_map_left_iff]
        exact List.forall₂_same.mpr fun g _ => carries_groupAsk u language g
      · have h := forall₂_mapIdx (chunked notesPerCall (notesOf session clean parts))
          (pointsAsk lang (themeOf session ((partAsks lang parts).length + rounds.flatten.length))
            (chunked notesPerCall (notesOf session clean parts)).length) id
          (R := fun (a : Ask) ts => Carries ts a.prompt)
          fun g notes => carries_pointsAsk u language _ _ g notes
        rwa [List.map_id] at h

/-- What a whole run comes to. `rounds` are the groups of each round of folding, and `last` the
paragraphs the theme is asked of. -/
structure Covered (d : Device) (session : Session) (lang clean : Str) (parts : List Str)
    (rounds : List (List (List Str))) (last : List Str)
    (run : Option Str × World Progress Ask Str) : Prop where
  folds : Folds d session (partAsks lang parts).length (notesOf session clean parts) rounds last
  rounds_le : rounds.length ≤ Nat.clog 2 (notesOf session clean parts).length
  grouped : (chunked notesPerCall (notesOf session clean parts)).flatten =
    notesOf session clean parts
  four : ∀ g ∈ chunked notesPerCall (notesOf session clean parts), g ≠ [] ∧ g.length ≤ 4
  events : run.2.events = exchanges (generated session) 0 (partAsks lang parts ++
    if notesOf session clean parts = [] then [] else
      rounds.flatten.map (groupAsk lang) ++ lastAsks session lang
        ((partAsks lang parts).length + rounds.flatten.length) (notesOf session clean parts) last)
  carried : List.Forall₂ (fun (a : Ask) ts => Carries ts a.prompt) (prompts run.2.events)
    (texts session clean parts rounds last)
  null : run.1 = none ↔ notesOf session clean parts = [] ∨
    pointsOf d session ((partAsks lang parts).length + rounds.flatten.length)
      (notesOf session clean parts) = []
  some_iff : ∀ text, run.1 = some text → ∃ kept,
    FirstOfEach d.lowercase (pointsOf d session
      ((partAsks lang parts).length + rounds.flatten.length) (notesOf session clean parts)) kept ∧
    Carries kept text ∧
      text = written (themeOf session ((partAsks lang parts).length + rounds.flatten.length)) kept

theorem outcome_none_iff (k : Nat) (notes : List Str) :
    outcome d session k notes = none ↔ pointsOf d session k notes = [] := by
  rw [← (distinctBy_firstOfEach d.lowercase (pointsOf d session k notes)).nil_iff, outcome]
  split
  · rename_i h; simp [h]
  · rename_i h; simp [h]

theorem outcome_some {k : Nat} {notes : List Str} {text : Str}
    (h : outcome d session k notes = some text) : ∃ kept,
      FirstOfEach d.lowercase (pointsOf d session k notes) kept ∧
        Carries kept text ∧ text = written (themeOf session k) kept := by
  rw [outcome] at h
  split at h
  · simp at h
  · rename_i hne
    obtain rfl := Option.some.inj h
    exact ⟨_, distinctBy_firstOfEach _ _, carries_written _ hne, rfl⟩

theorem summarise_unasked {transcript : Str} (language : Str) (cancelled : Nat → Bool)
    (h : words d.toUnicode (unstuttered d.toUnicode transcript) < minWords ∨
      session.loaded = false) :
    (summarise d session transcript language cancelled).1 = none ∧
      (summarise d session transcript language cancelled).2.events = [] := by
  unfold summarise
  by_cases hw : words d.toUnicode (unstuttered d.toUnicode transcript) < minWords
  · rw [if_pos hw]
    exact ⟨rfl, rfl⟩
  · rw [if_neg hw, h.resolve_left hw]
    exact ⟨rfl, rfl⟩

theorem summarise_asks {transcript : Str} (language : Str) (cancelled : Nat → Bool)
    (h : ¬ (words d.toUnicode (unstuttered d.toUnicode transcript) < minWords ∨
      session.loaded = false)) :
    let clean := unstuttered d.toUnicode transcript
    let run := withSession d session (tongue d.toUnicode language) clean
      (pieces d.toUnicode clean) cancelled (idle (pieces d.toUnicode clean))
    summarise d session transcript language cancelled = (run.1.join, run.2) := by
  obtain ⟨hw, hl⟩ := not_or.mp h
  rw [summarise, if_neg hw, Bool.not_eq_false _ |>.mp hl]
  rfl

/-- A summary that is never cancelled: nothing is asked of a text too short or without a model,
and else every piece, every paragraph and every note is in its call, in order. -/
theorem summarise_covers (d : Device) (session : Session) (transcript language : Str) :
    let lang := tongue d.toUnicode language
    let clean := unstuttered d.toUnicode transcript
    let parts := pieces d.toUnicode clean
    let run := summarise d session transcript language fun _ => false
    if words d.toUnicode clean < minWords ∨ session.loaded = false then
      run.1 = none ∧ run.2.events = []
    else ∃ rounds last, Covered d session lang clean parts rounds last run := by
  intro lang clean parts run
  split
  · rename_i h
    exact summarise_unasked language _ h
  · rename_i h
    have hrun : run = _ := summarise_asks language _ h
    obtain ⟨rounds, last, hf⟩ := exists_folds d session
      (partAsks lang parts).length (notesOf session clean parts)
    obtain ⟨w', hw, hg⟩ := (asks_withSession (w := idle parts) clean parts rfl hf).completes
      (fun _ => false) fun _ _ => rfl
    have hsome : run.1 = if notesOf session clean parts = [] then none else
        outcome d session ((partAsks lang parts).length + rounds.flatten.length)
          (notesOf session clean parts) := by
      rw [hrun]
      exact congrArg (fun r => r.1.join) hw
    have hevents : run.2.events = w'.events := by
      rw [hrun]
      exact congrArg (fun r => r.2.events) hw
    have hasked : w'.events = _ := hg.events
    refine ⟨rounds, last, hf, hf.rounds_le, chunked_flatten _ _, chunked_sizes (by decide) _,
      ?_, ?_, ?_, fun text ht => ?_⟩
    · rw [hevents, hasked]
      rfl
    · rw [hevents, hasked, show (idle parts).events = [] from rfl, List.nil_append,
        prompts_exchanges]
      exact asks_carry d.toUnicode language clean parts rounds last
    · rw [hsome]
      by_cases hn : notesOf session clean parts = []
      · simp [hn]
      · rw [if_neg hn, outcome_none_iff]
        simp [hn]
    · rw [hsome] at ht
      by_cases hn : notesOf session clean parts = []
      · simp [hn] at ht
      · rw [if_neg hn] at ht
        exact outcome_some ht

/-- The tables of `ascii`, and no rounding. -/
def plain : Device where
  toUnicode := ascii
  sameLetter a b := ascii.lowercase [a] == ascii.lowercase [b]
  wordChar c := ascii.word c.toNat || c == codeUnit '_'
  float q := q

/-- 901 words, in two pieces. -/
def longTalk : Str := (List.replicate 901 (kt "a ")).flatten

theorem longTalk_pieces : (pieces ascii (unstuttered ascii longTalk)).length = 2 ∧
    minWords ≤ words ascii (unstuttered ascii longTalk) := by
  decide +kernel

/-- The model answers on the second piece only, then says the theme and a point. -/
def secondOnly : Session :=
  ⟨true, [], fun k => ⟨[], if k = 0 then [] else kt "- one two three four"⟩⟩

theorem summarise_covers_longTalk :
    (summarise plain secondOnly longTalk (kt "en") fun _ => false).1 =
      some (kt "- one two three four\n\n- one two three four") ∧
    ∃ rounds last, Covered plain secondOnly (tongue ascii (kt "en")) (unstuttered ascii longTalk)
      (pieces ascii (unstuttered ascii longTalk)) rounds last
      (summarise plain secondOnly longTalk (kt "en") fun _ => false) := by
  refine ⟨by decide +kernel, ?_⟩
  obtain ⟨-, hwords⟩ := longTalk_pieces
  -- the talk itself is not to be looked at any more
  generalize longTalk = talk at hwords ⊢
  have h : ¬ (words plain.toUnicode (unstuttered plain.toUnicode talk) < minWords ∨
      secondOnly.loaded = false) := not_or.mpr ⟨Nat.not_lt.mpr hwords, Bool.noConfusion⟩
  have hcovers := summarise_covers plain secondOnly talk (kt "en")
  dsimp only at hcovers
  rw [if_neg h] at hcovers
  exact hcovers

end ReadersSpeech.Summariser
