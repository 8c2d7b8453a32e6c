import Mathlib.Order.Monotone.Basic
import Mathlib.Tactic.Linarith
import Mathlib.Tactic.GCongr
import ReadersSpeech.SummariserCancel

/-! The figures `summarise` passes to `onProgress`. Each is a share of `total`, the calls to come
as far as they are known, and `total` grows at two later points while what was shown stays shown.
-/

set_option autoImplicit false

namespace ReadersSpeech.Summariser
open Splitting Guarded
open Translator (Session)

variable {d : Device} {session : Session} {lang : Str}

/-- What the figures rest on of single precision: rounding keeps the order, leaves a single as it
is and whole numbers up to 2^24, and 1 added to a whole number does not go past the next one. -/
structure Single (float : ℚ → ℚ) : Prop where
  mono : Monotone float
  fixed : ∀ q, float (float q) = float q
  whole : ∀ n : ℕ, n ≤ 2 ^ 24 → float n = n
  next : ∀ n : ℕ, float (float n + 1) ≤ float (n + 1 : ℕ)

/-- The figure for `it` percent of a call, with `done` calls of `total` behind it. -/
def share (d : Device) (total done : Nat) (it : Int) : Int := figure d ⟨total, done, []⟩ it

theorem truncate_mono {p q : ℚ} (hpq : p ≤ q) : truncate p ≤ truncate q := by
  unfold truncate
  split
  · rename_i hp
    rw [if_pos (hp.trans hpq)]
    exact Int.floor_le_floor hpq
  · rename_i hp
    split
    · rename_i hq
      have h₁ : ⌈p⌉ ≤ 0 := Int.ceil_le.mpr (by exact_mod_cast (not_le.mp hp).le)
      exact h₁.trans (Int.floor_nonneg.mpr hq)
    · exact Int.ceil_le_ceil hpq

theorem clamp_mono {a b : Int} (h : a ≤ b) : max 0 (min 99 a) ≤ max 0 (min 99 b) :=
  max_le_max_left _ (min_le_min_left _ h)

theorem share_percent (d : Device) (total done : Nat) (it : Int) :
    0 ≤ share d total done it ∧ share d total done it ≤ 99 :=
  ⟨le_max_left _ _, max_le (by omega) (min_le_left _ _)⟩

section Shares
variable (hd : Single d.float)
include hd

theorem float_total (total : Nat) : 0 ≤ d.float total := by
  have h0 := hd.whole 0 (Nat.zero_le _)
  rw [Nat.cast_zero] at h0
  rw [← h0]
  exact hd.mono (Nat.cast_nonneg total)

theorem quotient_le {x y : ℚ} (total : Nat) (h : x ≤ y) :
    max 0 (min 99 (truncate (d.float (d.float (100 * x) / d.float total)))) ≤
      max 0 (min 99 (truncate (d.float (d.float (100 * y) / d.float total)))) := by
  have hx : d.float (100 * x) ≤ d.float (100 * y) := hd.mono (by linarith)
  have hq : d.float (100 * x) / d.float total ≤ d.float (100 * y) / d.float total :=
    div_le_div_of_nonneg_right hx (float_total hd total)
  exact clamp_mono (truncate_mono (hd.mono hq))

theorem share_mono (total done : Nat) {a b : Int} (hab : a ≤ b) :
    share d total done a ≤ share d total done b := by
  have hfraction : d.float (d.float a / 100) ≤ d.float (d.float b / 100) := by
    have h : d.float a ≤ d.float b := hd.mono (by exact_mod_cast hab)
    exact hd.mono (by linarith)
  exact quotient_le hd total (hd.mono (by linarith))

/-- A call ends no higher than the next one begins. -/
theorem share_next (total done : Nat) :
    share d total done 100 ≤ share d total (done + 1) 0 := by
  have h0 : d.float ((0 : ℤ) : ℚ) = 0 := by exact_mod_cast hd.whole 0 (Nat.zero_le _)
  have h1 : d.float 1 = 1 := by exact_mod_cast hd.whole 1 (by norm_num)
  have h100 : d.float ((100 : ℤ) : ℚ) = 100 := by exact_mod_cast hd.whole 100 (by norm_num)
  have hz : d.float 0 = 0 := by exact_mod_cast h0
  refine quotient_le hd total ?_
  rw [h100, h0, div_self (by norm_num), h1, zero_div, hz, add_zero, hd.fixed]
  exact hd.next done

end Shares

/-! ### What a run has shown -/

/-- The figures of calls from the `k`-th on, with `total` as it stood at each. -/
def shownFrom (d : Device) (session : Session) : Nat → List Nat → List Int
  | _, [] => []
  | k, total :: totals =>
    (session.attempt k).reports.map (share d total k) ++ shownFrom d session (k + 1) totals

theorem shownFrom_append (k : Nat) (a b : List Nat) : shownFrom d session k (a ++ b) =
    shownFrom d session k a ++ shownFrom d session (k + a.length) b := by
  induction a generalizing k with
  | nil => rfl
  | cons t a ih =>
    rw [List.cons_append, shownFrom, shownFrom, ih, List.append_assoc, List.length_cons,
      Nat.add_right_comm, Nat.add_assoc]

/-- A run adds the figures of its calls, one for each of `totals`, and leaves `total` at `t`. -/
def Shows {β : Type} (d : Device) (session : Session) (c : Step β) (w : World Progress Ask Str)
    (totals : List Nat) (t : Nat) : Prop :=
  w.vars.done = w.calls → Leaves c w
    ⟨t, w.calls + totals.length, w.vars.shown ++ shownFrom d session w.calls totals⟩

theorem foldl_step (reports : List Int) (p : Progress) : reports.foldl (step d) p =
    { p with shown := p.shown ++ reports.map (share d p.total p.done) } := by
  induction reports generalizing p with
  | nil => simp
  | cons it reports ih =>
    rw [List.foldl_cons, ih]
    simp only [step, List.append_assoc, List.map_cons, List.singleton_append]
    rfl

theorem shows_pure {β : Type} (w : World Progress Ask Str) (r : β) :
    Shows d session (pure r) w [] w.vars.total := by
  intro hw
  simp only [Leaves, Pure.pure, shownFrom, List.append_nil, List.length_nil, Nat.add_zero, ← hw]

theorem shows_grow (w : World Progress Ask Str) (n : Nat) :
    Shows d session (update fun p => { p with total := p.total + n }) w [] (w.vars.total + n) := by
  intro hw
  rw [shownFrom, List.append_nil, List.length_nil, Nat.add_zero, ← hw]
  exact leaves_update _ w

theorem shows_run (a : Ask) (w : World Progress Ask Str) :
    Shows d session (run d session a) w [w.vars.total] w.vars.total := by
  intro hw
  have hv : Leaves (run d session a) w
      { (session.attempt w.calls).reports.foldl (step d) w.vars with
        done := ((session.attempt w.calls).reports.foldl (step d) w.vars).done + 1 } := rfl
  rw [foldl_step, ← hw] at hv
  rw [shownFrom, shownFrom, List.append_nil, List.length_singleton, ← hw]
  exact hv

theorem Shows.bind {β γ : Type} {c : Step β} {f : β → Step γ} {w : World Progress Ask Str}
    {asks : List Ask} {r : β} {totals totals' : List Nat} {t t' : Nat}
    (h : Shows d session c w totals t) (hc : Asks session c w asks r)
    (hlen : asks.length = totals.length)
    (hf : ∀ w', w'.calls = w.calls + totals.length → w'.vars.total = t →
      Shows d session (f r) w' totals' t') :
    Shows d session (c >>= f) w (totals ++ totals') t' := by
  intro hw
  refine (h hw).bind hc fun w' hg hv => ?_
  have hcalls : w'.calls = w.calls + totals.length := by rw [hg.calls, hlen]
  have hrest := hf w' hcalls (by rw [hv]) (by rw [hv, hcalls])
  rw [hv, hcalls] at hrest
  rwa [shownFrom_append, List.length_append, ← List.append_assoc, ← Nat.add_assoc]

theorem Shows.bind_pure {β γ : Type} {c : Step β} {w : World Progress Ask Str} {asks : List Ask}
    {r : β} {totals : List Nat} {t : Nat} (h : Shows d session c w totals t)
    (hc : Asks session c w asks r) (hlen : asks.length = totals.length) (g : β → γ) :
    Shows d session (c >>= fun b => pure (g b)) w totals t := by
  have hb : Shows d session (c >>= fun b => pure (g b)) w (totals ++ []) t :=
    h.bind hc hlen fun w' _ ht => ht ▸ shows_pure w' _
  rwa [List.append_nil] at hb

theorem shows_grow_bind {γ : Type} {f : Unit → Step γ} {w : World Progress Ask Str}
    {totals : List Nat} {t : Nat} (n : Nat)
    (hf : ∀ w', w'.calls = w.calls → w'.vars.total = w.vars.total + n →
      Shows d session (f ()) w' totals t) :
    Shows d session ((update fun p => { p with total := p.total + n }) >>= f) w totals t := by
  have h : Shows d session ((update fun p => { p with total := p.total + n }) >>= f) w
      ([] ++ totals) t :=
    (shows_grow w n).bind (follows_update w _) rfl hf
  exact h

/-- A loop whose turns are one call each. -/
theorem shows_loop {β ξ : Type} (a : ξ → Ask) (g : β → ξ → Option Str → β) (xs : List ξ) (b : β)
    (w : World Progress Ask Str) :
    Shows d session (xs.foldlM (fun b x => do
      let answer ← run d session (a x)
      return g b x answer) b) w (List.replicate xs.length w.vars.total) w.vars.total := by
  induction xs generalizing b w with
  | nil => exact shows_pure w b
  | cons x xs ih =>
    have hturn : Shows d session (do
        let answer ← run d session (a x)
        return g b x answer) w [w.vars.total] w.vars.total :=
      (shows_run (a x) w).bind_pure (asks_run (a x) w) rfl fun answer => g b x answer
    have hasks : Asks session (run d session (a x)) w [a x] (heard (generated session w.calls)) :=
      asks_run (a x) w
    refine hturn.bind (hasks.bind_pure fun answer => g b x answer) rfl fun w' _ ht => ?_
    have hrest := ih (g b x (heard (generated session w.calls))) w'
    rw [ht] at hrest
    exact hrest

/-- What `total` stands at in each round of folding, the first of its calls the `k`-th. -/
def roundTotals : Nat → List (List (List Str)) → List Nat
  | _, [] => []
  | k, groups :: rounds =>
    List.replicate groups.length (k + groups.length + 2) ++
      roundTotals (k + groups.length) rounds

theorem length_roundTotals (k : Nat) (rounds : List (List (List Str))) :
    (roundTotals k rounds).length = rounds.flatten.length := by
  induction rounds generalizing k with
  | nil => rfl
  | cons groups rounds ih => simp [roundTotals, ih]

theorem shows_fold {turns : Nat} {forTheme last : List Str} {rounds : List (List (List Str))}
    {w : World Progress Ask Str} (h : Folds d session w.calls forTheme rounds last)
    (hturns : forTheme.length ≤ turns) (ht : w.vars.total = w.calls + 2) :
    Shows d session (fold d session lang turns forTheme) w (roundTotals w.calls rounds)
      (w.calls + rounds.flatten.length + 2) := by
  induction turns generalizing forTheme rounds w with
  | zero =>
    cases h with
    | fits _ => exact ht ▸ shows_pure w _
    | round htoo _ _ _ =>
      have hlt := length_groups_lt htoo
      omega
  | succ turns ih =>
    cases h with
    | fits hfits =>
      simp only [fold, hfits]
      exact ht ▸ shows_pure w _
    | round htoo hg _ hr =>
      have hlt := length_groups_lt htoo
      subst hg
      simp only [fold, htoo, if_true]
      refine shows_grow_bind _ fun w₁ hc₁ ht₁ => ?_
      rw [ht, Nat.add_right_comm] at ht₁
      have hround : Shows d session (foldRound d session lang (chunked 2 forTheme)) w₁
          (List.replicate (chunked 2 forTheme).length w₁.vars.total) w₁.vars.total :=
        shows_loop (groupAsk lang) (fun out g a => out ++ [folded g a]) _ _ w₁
      rw [ht₁] at hround
      rw [roundTotals, List.flatten_cons, List.length_append, ← Nat.add_assoc]
      refine hround.bind (asks_foldRound _ w₁) (by simp) fun w₂ hc₂ ht₂ => ?_
      rw [hc₁, List.length_replicate] at hc₂
      rw [hc₁, ← hc₂]
      refine ih (hc₂ ▸ hr) ?_ (by rw [ht₂, hc₂])
      rw [length_foldedFrom]
      omega

/-- What `total` stands at in each call of a whole run. -/
def totalsOf (session : Session) (lang clean : Str) (parts : List Str)
    (rounds : List (List (List Str))) : List Nat :=
  let asked := (partAsks lang parts).length
  let k := asked + rounds.flatten.length
  let groups := (chunked notesPerCall (notesOf session clean parts)).length
  List.replicate asked (asked + 2) ++ if notesOf session clean parts = [] then [] else
    roundTotals asked rounds ++ (k + 2) :: List.replicate groups (k + 1 + groups)

theorem shows_fromNotes {notes last : List Str} {rounds : List (List (List Str))}
    {w : World Progress Ask Str} (hn : notes ≠ [])
    (h : Folds d session w.calls notes rounds last) (ht : w.vars.total = w.calls + 2) :
    let k := w.calls + rounds.flatten.length
    let groups := (chunked notesPerCall notes).length
    Shows d session (fromNotes d session lang notes) w
      (roundTotals w.calls rounds ++ (k + 2) :: List.replicate groups (k + 1 + groups))
      (k + 1 + groups) := by
  intro k groups
  rw [fromNotes, if_neg hn]
  refine (shows_fold h le_rfl ht).bind (asks_fold h le_rfl)
    (by rw [List.length_map, length_roundTotals]) fun w₁ hc₁ ht₁ => ?_
  rw [length_roundTotals] at hc₁
  have htheme : Shows d session (run d session (themeAsk lang last)) w₁ [k + 2] (k + 2) :=
    ht₁ ▸ shows_run (themeAsk lang last) w₁
  rw [← List.singleton_append]
  refine htheme.bind (asks_run (themeAsk lang last) w₁) rfl fun w₂ hc₂ ht₂ => ?_
  refine shows_grow_bind _ fun w₃ hc₃ ht₃ => ?_
  have hpos : 0 < groups := by
    refine List.length_pos_iff.mpr fun hnil => hn ?_
    rw [← chunked_flatten notesPerCall notes, hnil, List.flatten_nil]
  have htotal : w₃.vars.total = k + 1 + groups := by
    rw [ht₃, ht₂]
    omega
  have hpoints : Shows d session (takePoints d session lang (themeOf session w₁.calls)
      (chunked notesPerCall notes)) w₃ (List.replicate groups (k + 1 + groups))
      (k + 1 + groups) := by
    rw [← htotal]
    have hlen : (chunked notesPerCall notes).zipIdx.length = groups := List.length_zipIdx
    rw [← hlen]
    exact shows_loop (fun g : List Str × Nat =>
        pointsAsk lang (themeOf session w₁.calls) groups g.2 g.1)
      (fun points g raw => points ++ added d groups raw) (chunked notesPerCall notes).zipIdx [] w₃
  exact hpoints.bind_pure (asks_takePoints d session lang (themeOf session w₁.calls)
    (chunked notesPerCall notes) w₃) (by simp [groups]) _

theorem shows_allNotes (clean : Str) (parts : List Str) (w : World Progress Ask Str) :
    Shows d session (allNotes d session lang clean parts) w
      (List.replicate (partAsks lang parts).length w.vars.total) w.vars.total := by
  by_cases h : parts.length = 1
  · rw [allNotes, if_pos h, partAsks, if_pos h]
    exact shows_pure w _
  · rw [allNotes, if_neg h, partAsks, if_neg h, List.length_mapIdx, ← List.length_zipIdx]
    exact shows_loop _ _ parts.zipIdx [] w

theorem shows_withSession (clean : Str) (parts : List Str) {last : List Str}
    {rounds : List (List (List Str))} {w : World Progress Ask Str} (hw : w.calls = 0)
    (ht : w.vars.total = (partAsks lang parts).length + 2)
    (h : Folds d session (partAsks lang parts).length (notesOf session clean parts) rounds last) :
    ∃ t, Shows d session (withSession d session lang clean parts) w
      (totalsOf session lang clean parts rounds) t := by
  have hparts : Shows d session (allNotes d session lang clean parts) w
      (List.replicate (partAsks lang parts).length w.vars.total) w.vars.total :=
    shows_allNotes clean parts w
  have hasks : Asks session (allNotes d session lang clean parts) w _ _ :=
    asks_allNotes clean parts w hw
  rw [ht] at hparts
  by_cases hn : notesOf session clean parts = []
  · refine ⟨(partAsks lang parts).length + 2,
      hparts.bind hasks (by simp) fun w₁ hc₁ ht₁ => ?_⟩
    rw [if_pos hn, fromNotes, if_pos hn]
    exact ht₁ ▸ shows_pure w₁ none
  · refine ⟨(partAsks lang parts).length + rounds.flatten.length + 1 +
      (chunked notesPerCall (notesOf session clean parts)).length,
      hparts.bind hasks (by simp) fun w₁ hc₁ ht₁ => ?_⟩
    rw [hw, List.length_replicate, Nat.zero_add] at hc₁
    rw [if_neg hn]
    rw [← hc₁] at h ht₁ ⊢
    exact shows_fromNotes hn h ht₁

/-! ### When the figures only go up -/

def Rising (reports : List Int) : Prop :=
  reports.Pairwise (· ≤ ·) ∧ ∀ it ∈ reports, 0 ≤ it ∧ it ≤ 100

theorem rising_ends : Rising [0, 100] := by simp [Rising]

def Climbs (shown : List Int) : Prop :=
  shown.Pairwise (· ≤ ·) ∧ ∀ p ∈ shown, 0 ≤ p ∧ p ≤ 99

instance (shown : List Int) : Decidable (Climbs shown) := inferInstanceAs (Decidable (_ ∧ _))

/-- Between two calls `total` grows only where the end of the one is shown no higher than the
beginning of the other. -/
def Steady (d : Device) (totals : List Nat) : Prop :=
  ∀ k a b, totals[k]? = some a → totals[k + 1]? = some b → a ≠ b →
    share d a k 100 ≤ share d b (k + 1) 0

theorem Steady.ends (hd : Single d.float) {totals : List Nat} (h : Steady d totals) {k a b : Nat}
    (ha : totals[k]? = some a) (hb : totals[k + 1]? = some b) :
    share d a k 100 ≤ share d b (k + 1) 0 := by
  by_cases hab : a = b
  · exact hab ▸ share_next hd a k
  · exact h k a b ha hb hab

theorem shownFrom_percent (k : Nat) (totals : List Nat) :
    ∀ p ∈ shownFrom d session k totals, 0 ≤ p ∧ p ≤ 99 := by
  induction totals generalizing k with
  | nil => simp [shownFrom]
  | cons t totals ih =>
    intro p hp
    rcases List.mem_append.mp hp with hp | hp
    · obtain ⟨it, -, rfl⟩ := List.mem_map.mp hp
      exact share_percent d t k it
    · exact ih (k + 1) p hp

/-- No figure is below the beginning of the first call, and each is below those behind it. -/
theorem shownFrom_rising (hd : Single d.float) (hr : ∀ k, Rising (session.attempt k).reports)
    (k : Nat) (totals : List Nat) (h : ∀ j a b, totals[j]? = some a → totals[j + 1]? = some b →
      share d a (k + j) 100 ≤ share d b (k + j + 1) 0) :
    (∀ t ∈ totals.head?, ∀ p ∈ shownFrom d session k totals, share d t k 0 ≤ p) ∧
      (shownFrom d session k totals).Pairwise (· ≤ ·) := by
  induction totals generalizing k with
  | nil => simp [shownFrom]
  | cons t totals ih =>
    obtain ⟨hfirst, hrest⟩ := ih (k + 1) fun j a b ha hb => by
      have hj := h (j + 1) a b ha hb
      rwa [Nat.add_right_comm k 1 j]
    have hin : ∀ it ∈ (session.attempt k).reports,
        share d t k 0 ≤ share d t k it ∧ share d t k it ≤ share d t k 100 := fun it hit =>
      ⟨share_mono hd t k ((hr k).2 it hit).1, share_mono hd t k ((hr k).2 it hit).2⟩
    have hafter : ∀ p ∈ shownFrom d session (k + 1) totals, share d t k 100 ≤ p := by
      intro p hp
      cases totals with
      | nil => simp [shownFrom] at hp
      | cons t' totals => exact (h 0 t t' rfl rfl).trans (hfirst t' rfl p hp)
    constructor
    · rintro _ ⟨⟩ p hp
      rcases List.mem_append.mp hp with hp | hp
      · obtain ⟨it, hit, rfl⟩ := List.mem_map.mp hp
        exact (hin it hit).1
      · exact (share_mono hd t k (by norm_num)).trans (hafter p hp)
    · rw [shownFrom, List.pairwise_append]
      refine ⟨(hr k).1.map _ fun a b hab => share_mono hd t k hab, hrest, fun p hp q hq => ?_⟩
      obtain ⟨it, hit, rfl⟩ := List.mem_map.mp hp
      exact (hin it hit).2.trans (hafter q hq)

theorem shares_of_rising (hs : ∀ k, (session.attempt k).reports = [0, 100]) {k : Nat}
    {totals : List Nat} (h : (shownFrom d session k totals).Pairwise (· ≤ ·)) {j a b : Nat}
    (ha : totals[j]? = some a) (hb : totals[j + 1]? = some b) :
    share d a (k + j) 100 ≤ share d b (k + j + 1) 0 := by
  induction totals generalizing k j with
  | nil => simp at ha
  | cons t totals ih =>
    rw [shownFrom, List.pairwise_append] at h
    cases j with
    | succ j =>
      have hj := ih h.2.1 ha hb
      rwa [Nat.add_right_comm k 1 j] at hj
    | zero =>
      obtain rfl : t = a := Option.some.inj ha
      cases totals with
      | nil => simp at hb
      | cons t' totals =>
        obtain rfl : t' = b := Option.some.inj hb
        refine h.2.2 _ ?_ _ ?_
        · simp [hs]
        · simp [shownFrom, hs]

theorem climbs_begin (hd : Single d.float) (hr : ∀ k, Rising (session.attempt k).reports)
    {totals : List Nat} (h : Steady d totals) {shown : List Int}
    (hs : shown <+: shownFrom d session 0 totals) : Climbs shown := by
  obtain ⟨-, hup⟩ := shownFrom_rising hd hr 0 totals fun j a b ha hb => by
    rw [Nat.zero_add]
    exact h.ends hd ha hb
  exact ⟨hup.sublist hs.sublist, fun p hp => shownFrom_percent 0 totals p (hs.subset hp)⟩

/-! ### A run that is cancelled -/

theorem grows_run (a : Ask) : Grows Progress.shown (run d session a) := by
  refine (grows_ask (fun k p => ?_) a).bind fun g => ?_
  · rw [foldl_step]
    exact List.prefix_append _ _
  · have hdone : Grows Progress.shown
        (update fun p => { p with done := p.done + 1 } : Step Unit) :=
      grows_update fun _ => List.prefix_rfl
    exact hdone.bind fun _ => grows_pure _

/-- One turn of a loop over pieces, groups or notes. -/
theorem grows_turn {β : Type} (a : Ask) (g : Option Str → β) :
    Grows Progress.shown (do let answer ← run d session a; return g answer) :=
  (grows_run a).bind fun _ => grows_pure _

theorem grows_grow (n : Nat) :
    Grows Progress.shown (update fun p => { p with total := p.total + n } : Step Unit) :=
  grows_update fun _ => List.prefix_rfl

theorem grows_fold (turns : Nat) (forTheme : List Str) :
    Grows Progress.shown (fold d session lang turns forTheme) := by
  induction turns generalizing forTheme with
  | zero => exact grows_pure forTheme
  | succ turns ih =>
    rw [fold]
    split
    · refine (grows_grow _).bind fun _ => Grows.bind ?_ ih
      exact grows_foldlM (fun _ _ => grows_turn _ _) _ _
    · exact grows_pure forTheme

theorem grows_withSession (clean : Str) (parts : List Str) :
    Grows Progress.shown (withSession d session lang clean parts) := by
  refine Grows.bind ?_ fun notes => ?_
  · unfold allNotes
    split
    · exact grows_pure _
    · exact grows_foldlM (fun _ _ => grows_turn _ _) _ _
  · unfold fromNotes
    split
    · exact grows_pure _
    · refine (grows_fold _ _).bind fun _ => (grows_run _).bind fun _ => (grows_grow _).bind fun _ =>
        Grows.bind ?_ fun _ => grows_pure _
      exact grows_foldlM (fun _ _ => grows_turn _ _) _ _

/-- The same answers, with other figures while they are made. -/
def reporting (session : Session) (reports : Nat → List Int) : Session :=
  { session with attempt := fun k => { session.attempt k with reports := reports k } }

theorem Folds.reporting {k : Nat} {forTheme last : List Str} {rounds : List (List (List Str))}
    (h : Folds d session k forTheme rounds last) (reports : Nat → List Int) :
    Folds d (reporting session reports) k forTheme rounds last := by
  induction h with
  | fits hf => exact .fits hf
  | round ht hg hflat _ ih => exact .round ht hg hflat ih

theorem totalsOf_reporting (reports : Nat → List Int) (clean : Str) (parts : List Str)
    (rounds : List (List (List Str))) :
    totalsOf (reporting session reports) lang clean parts rounds =
      totalsOf session lang clean parts rounds := by
  have hnotes : notesOf (reporting session reports) clean parts = notesOf session clean parts := rfl
  rw [totalsOf, totalsOf, hnotes]

theorem idle_total (lang : Str) (parts : List Str) :
    (idle parts).vars.total = (partAsks lang parts).length + 2 := by
  rw [partAsks]
  split
  · rename_i h
    simp [idle, h]
  · rw [List.length_mapIdx]
    simp only [idle]
    split <;> omega

/-- Whatever figures the calls report on their way from 0 to 100, and wherever the summary is
cancelled. -/
def AlwaysClimbs (d : Device) (session : Session) (transcript language : Str) : Prop :=
  ∀ reports : Nat → List Int, (∀ k, Rising (reports k)) → ∀ cancelled,
    Climbs (summarise d (reporting session reports) transcript language cancelled).2.vars.shown

/-- What is shown when nobody cancels. -/
theorem shown_never {transcript : Str} (language : Str) (reports : Nat → List Int) :
    let lang := tongue d.toUnicode language
    let clean := unstuttered d.toUnicode transcript
    let parts := pieces d.toUnicode clean
    ∀ rounds last, Folds d session (partAsks lang parts).length (notesOf session clean parts)
        rounds last →
      (withSession d (reporting session reports) lang clean parts (fun _ => false)
        (idle parts)).2.vars.shown =
          shownFrom d (reporting session reports) 0 (totalsOf session lang clean parts rounds) := by
  intro lang clean parts rounds last hf
  obtain ⟨t, hs⟩ := shows_withSession (w := idle parts) clean parts rfl (idle_total lang parts)
    (hf.reporting reports)
  have hv := hs rfl
  rw [Leaves] at hv
  rw [hv, totalsOf_reporting]
  exact List.nil_append _

theorem shown_unasked {transcript : Str} (language : Str) (cancelled : Nat → Bool)
    (h : words d.toUnicode (unstuttered d.toUnicode transcript) < minWords ∨
      session.loaded = false) :
    (summarise d session transcript language cancelled).2.vars.shown = [] := by
  unfold summarise
  by_cases hw : words d.toUnicode (unstuttered d.toUnicode transcript) < minWords
  · rw [if_pos hw]
    rfl
  · rw [if_neg hw, h.resolve_left hw]
    rfl

/-- The figures only go up exactly when `total` grows at no moment where that is seen, or nothing
is asked at all. -/
theorem summarise_climbs_iff (d : Device) (session : Session) (transcript language : Str)
    (hd : Single d.float) :
    let lang := tongue d.toUnicode language
    let clean := unstuttered d.toUnicode transcript
    let parts := pieces d.toUnicode clean
    AlwaysClimbs d session transcript language ↔
      words d.toUnicode clean < minWords ∨ session.loaded = false ∨
        ∃ rounds last, Folds d session (partAsks lang parts).length (notesOf session clean parts)
          rounds last ∧ Steady d (totalsOf session lang clean parts rounds) := by
  intro lang clean parts
  by_cases h : words d.toUnicode clean < minWords ∨ session.loaded = false
  · refine iff_of_true (fun reports _ cancelled => ?_) ?_
    · have hnone : (summarise d (reporting session reports) transcript language
          cancelled).2.vars.shown = [] := shown_unasked language cancelled h
      simp [hnone, Climbs]
    · rcases h with h | h
      · exact .inl h
      · exact .inr (.inl h)
  · obtain ⟨hw, hl⟩ := not_or.mp h
    have h' : ∀ reports, ¬ (words d.toUnicode clean < minWords ∨
        (reporting session reports).loaded = false) := fun _ => h
    rw [or_iff_right hw, or_iff_right hl]
    constructor
    · intro halways
      obtain ⟨rounds, last, hf⟩ := exists_folds d session
        (partAsks lang parts).length (notesOf session clean parts)
      refine ⟨rounds, last, hf, fun k a b ha hb _ => ?_⟩
      have hup := (halways (fun _ => [0, 100]) (fun _ => rising_ends) fun _ => false).1
      have hrun := summarise_asks (d := d) language (fun _ => false) (h' fun _ => [0, 100])
      rw [hrun] at hup
      dsimp only at hup
      rw [shown_never language _ rounds last hf] at hup
      have hend := shares_of_rising (fun _ => rfl) hup ha hb
      rwa [Nat.zero_add] at hend
    · rintro ⟨rounds, last, hf, hsteady⟩ reports hr cancelled
      have hgrows : Grows Progress.shown
          (withSession d (reporting session reports) lang clean parts) :=
        grows_withSession clean parts
      have hbegin := hgrows.begin cancelled (idle parts)
      have hnever := shown_never language reports rounds last hf
      rw [summarise_asks language cancelled (h' reports)]
      dsimp only
      rw [hnever] at hbegin
      exact climbs_begin hd hr hsteady hbegin

/-- Nothing is rounded in `plain`. -/
theorem plain_single : Single plain.float where
  mono := monotone_id
  fixed _ := rfl
  whole _ _ := rfl
  next n := by
    show (n : ℚ) + 1 ≤ (n + 1 : ℕ)
    push_cast
    exact le_rfl

theorem shortTalk_totals : tooLong ascii (notesOf onePoint (unstuttered ascii shortTalk)
      (pieces ascii (unstuttered ascii shortTalk))) = false ∧
    totalsOf onePoint (tongue ascii (kt "en")) (unstuttered ascii shortTalk)
      (pieces ascii (unstuttered ascii shortTalk)) [] = [2, 2] := by
  decide +kernel

theorem summarise_climbs_shortTalk : AlwaysClimbs plain onePoint shortTalk (kt "en") := by
  obtain ⟨hfits, htotals⟩ := shortTalk_totals
  have hsteady : Steady plain [2, 2] := by
    intro k a b ha hb hab
    have h2 := fun x hx => List.eq_of_mem_replicate (n := 2) (a := 2) (b := x) hx
    exact absurd ((h2 a (List.mem_of_getElem? ha)).trans (h2 b (List.mem_of_getElem? hb)).symm) hab
  exact (summarise_climbs_iff plain onePoint shortTalk (kt "en") plain_single).mpr
    (.inr (.inr ⟨[], _, .fits hfits, htotals ▸ hsteady⟩))

/-- Three pieces: the second sentence has 901 words. -/
def unended : Str := kt "b. " ++ (List.replicate 901 (kt "a ")).flatten

/-- Notes of 501 words, and every call reports its beginning and its end. -/
def wordy : Session := ⟨true, [], fun _ => ⟨[0, 100], (List.replicate 501 (kt "a ")).flatten⟩⟩

/-- The notes are folded after three calls of five, and the figure falls from 60 to 42. -/
theorem folding_falls_back : (∀ k, Rising (wordy.attempt k).reports) ∧
    ¬ Climbs (summarise plain wordy unended (kt "en") fun _ => false).2.vars.shown :=
  ⟨fun _ => rising_ends, by decide +kernel⟩

end ReadersSpeech.Summariser
