import Mathlib.Algebra.GroupWithZero.Nat
import Mathlib.Data.List.DropRight

/-! Trimming, joining and splitting of words over an arbitrary alphabet. A pattern is given by
the length of what it matches at a position, so that splitting is one structural recursion
whatever the pattern looks at before and after that position.
-/

set_option autoImplicit false

namespace ReadersSpeech.Splitting

variable {α : Type}

def trimBy (p : α → Bool) (l : List α) : List α := (l.dropWhile p).rdropWhile p

theorem trimBy_nil (p : α → Bool) : trimBy p [] = [] := by simp [trimBy]

theorem trimBy_split (p : α → Bool) (l : List α) :
    ∃ a b, l = a ++ trimBy p l ++ b ∧ (∀ c ∈ a, p c = true) ∧ ∀ c ∈ b, p c = true := by
  refine ⟨l.takeWhile p, (l.dropWhile p).rtakeWhile p, ?_, ?_, ?_⟩
  · rw [List.append_assoc, trimBy, List.rdropWhile_append_rtakeWhile,
      List.takeWhile_append_dropWhile]
  · exact fun c hc => List.mem_takeWhile_imp hc
  · exact fun c hc => List.mem_rtakeWhile_imp hc

theorem trimBy_subset (p : α → Bool) (l : List α) : trimBy p l ⊆ l := by
  obtain ⟨a, b, hl, -⟩ := trimBy_split p l
  intro c hc
  rw [hl]
  simp [hc]

theorem rdropWhile_append (p : α → Bool) (a b : List α) : (a ++ b).rdropWhile p =
    if b.rdropWhile p = [] then a.rdropWhile p else a ++ b.rdropWhile p := by
  simp only [List.rdropWhile, List.reverse_append, List.dropWhile_append, List.isEmpty_iff,
    List.reverse_eq_nil_iff]
  split
  · rfl
  · rw [List.reverse_append, List.reverse_reverse]

theorem trimBy_append {p : α → Bool} (l : List α) {b : List α} (hb : ∀ c ∈ b, p c = true) :
    trimBy p (l ++ b) = trimBy p l := by
  rw [trimBy, trimBy, List.dropWhile_append]
  split
  · rename_i hl
    rw [List.dropWhile_eq_nil_iff.mpr hb, List.isEmpty_iff.mp hl]
  · rw [rdropWhile_append, if_pos (List.rdropWhile_eq_nil_iff.mpr hb)]

theorem dropWhile_front (p : α → Bool) {a l : List α} (h : a <+: l) :
    a.dropWhile p <+: l.dropWhile p := by
  obtain ⟨b, rfl⟩ := h
  rw [List.dropWhile_append]
  split
  · rename_i ha
    rw [List.isEmpty_iff.mp ha]
    exact List.nil_prefix
  · exact List.prefix_append _ _

/-- Trimming begins as dropping from the front alone does. -/
theorem trimBy_front (p : α → Bool) {a l : List α} (h : a <+: l) : trimBy p a <+: l.dropWhile p :=
  (List.rdropWhile_prefix ..).trans (dropWhile_front p h)

theorem head?_of_front {a l : List α} (h : a <+: l) (hne : a ≠ []) : a.head? = l.head? := by
  rw [List.head?_eq_some_head hne, h.head hne, ← List.head?_eq_some_head]

structure Solid (p : α → Bool) (l : List α) : Prop where
  ne_nil : l ≠ []
  head : ∀ h : l ≠ [], p (l.head h) = false
  last : ∀ h : l ≠ [], p (l.getLast h) = false

theorem Solid.trimBy_eq {p : α → Bool} {l : List α} (h : Solid p l) : trimBy p l = l := by
  have hd : l.dropWhile p = l := by
    cases l with
    | nil => rfl
    | cons c r => simpa using h.head (by simp)
  unfold trimBy
  rw [hd, List.rdropWhile_eq_self_iff]
  intro hl
  simp [h.last hl]

theorem solid_trimBy {p : α → Bool} {l : List α} (h : trimBy p l ≠ []) : Solid p (trimBy p l) := by
  refine ⟨h, fun _ => ?_, fun hl => ?_⟩
  · have hpre : trimBy p l <+: l.dropWhile p := List.rdropWhile_prefix ..
    have hd := hpre.head h
    have hne : l.dropWhile p ≠ [] := List.IsPrefix.ne_nil hpre h
    rw [hd]
    exact List.head_dropWhile_not p hne
  · have hn := List.rdropWhile_last_not p (l.dropWhile p) hl
    simpa [trimBy] using hn

theorem Solid.append {p : α → Bool} {a b : List α} (ha : Solid p a) (m : List α)
    (hb : Solid p b) : Solid p (a ++ m ++ b) := by
  refine ⟨by simp [ha.ne_nil], fun h => ?_, fun h => ?_⟩
  · simp only [List.append_assoc]
    rw [List.head_append_of_ne_nil ha.ne_nil]
    exact ha.head ha.ne_nil
  · rw [List.getLast_append_of_ne_nil _ hb.ne_nil]
    exact hb.last hb.ne_nil

/-- Joining as what comes before the first separator and what each later piece adds. -/
theorem intercalate_cons_eq (sep x : List α) (xs : List (List α)) :
    sep.intercalate (x :: xs) = x ++ xs.flatMap (sep ++ ·) := by
  induction xs generalizing x with
  | nil => simp
  | cons y ys ih => rw [List.intercalate_cons_cons, ih y]; simp [List.append_assoc]

/-- Joining grows at its end: what a builder holds after one more piece. -/
theorem intercalate_concat (sep : List α) {xs : List (List α)} (hx : xs ≠ []) (y : List α) :
    sep.intercalate (xs ++ [y]) = sep.intercalate xs ++ sep ++ y := by
  cases xs with
  | nil => exact absurd rfl hx
  | cons x xs => simp [intercalate_cons_eq, List.append_assoc]

/-- How many symbols a pattern matches at a position, 0 where it does not match: it may look at
the symbol before. -/
abbrev Pattern (α : Type) := Option α → List α → Nat

def consHead (c : α) : List (List α) → List (List α)
  | [] => [[c]]
  | p :: ps => (c :: p) :: ps

/-- The pieces between the matches; `skip` symbols of a match are still to be passed over. -/
def splitFrom (m : Pattern α) : Option α → Nat → List α → List (List α)
  | _, _, [] => [[]]
  | _, skip + 1, c :: rest => splitFrom m (some c) skip rest
  | prev, 0, c :: rest =>
    match m prev (c :: rest) with
    | 0 => consHead c (splitFrom m (some c) 0 rest)
    | n + 1 => [] :: splitFrom m (some c) n rest

def split (m : Pattern α) (l : List α) : List (List α) := splitFrom m none 0 l

theorem splitFrom_ne_nil (m : Pattern α) (prev : Option α) (skip : Nat) (l : List α) :
    splitFrom m prev skip l ≠ [] := by
  induction l generalizing prev skip with
  | nil => simp [splitFrom]
  | cons c rest ih =>
    cases skip with
    | succ skip => simpa [splitFrom] using ih (some c) skip
    | zero =>
      simp only [splitFrom]
      split
      · cases splitFrom m (some c) 0 rest <;> simp [consHead]
      · simp

theorem splitFrom_cons (m : Pattern α) (prev : Option α) (skip : Nat) (l : List α) :
    ∃ p ps, splitFrom m prev skip l = p :: ps :=
  List.exists_cons_of_ne_nil (splitFrom_ne_nil m prev skip l)

/-- The first piece goes on with the symbol, or a match begins with it. -/
theorem splitFrom_cases {m : Pattern α} {prev : Option α} {c : α} {rest q : List α}
    {qs : List (List α)} (h : splitFrom m prev 0 (c :: rest) = q :: qs) :
    (m prev (c :: rest) = 0 ∧ ∃ r, q = c :: r ∧ splitFrom m (some c) 0 rest = r :: qs) ∨
      ∃ n, m prev (c :: rest) = n + 1 ∧ q = [] ∧ splitFrom m (some c) n rest = qs := by
  cases hn : m prev (c :: rest) with
  | zero =>
    obtain ⟨r, rs, hr⟩ := splitFrom_cons m (some c) 0 rest
    simp only [splitFrom, hn, hr, consHead] at h
    obtain ⟨rfl, rfl⟩ := List.cons.inj h
    exact .inl ⟨rfl, r, rfl, hr⟩
  | succ n =>
    simp only [splitFrom, hn] at h
    obtain ⟨rfl, rfl⟩ := List.cons.inj h
    exact .inr ⟨n, rfl, rfl, rfl⟩

/-- Runs of symbols of `p`, as `\s+` matches them. -/
def runOf (p : α → Bool) : Pattern α := fun _ l => (l.takeWhile p).length

/-- `chunked` of Kotlin: runs of `n`, the last one as long as it happens to be. -/
def chunked (n : Nat) : List α → List (List α)
  | [] => []
  | c :: rest => (c :: rest.take (n - 1)) :: chunked n (rest.drop (n - 1))
termination_by l => l.length
decreasing_by simp only [List.length_drop, List.length_cons]; omega

theorem chunked_sizes {n : Nat} (hn : 0 < n) (l : List α) :
    ∀ g ∈ chunked n l, g ≠ [] ∧ g.length ≤ n := by
  induction l using chunked.induct n with
  | case1 => simp [chunked]
  | case2 c rest ih =>
    rw [chunked, List.forall_mem_cons]
    refine ⟨⟨by simp, ?_⟩, ih⟩
    simp only [List.length_cons, List.length_take]
    omega

theorem chunked_flatten (n : Nat) (l : List α) : (chunked n l).flatten = l := by
  induction l using chunked.induct n with
  | case1 => simp [chunked]
  | case2 c rest ih => simp [chunked, ih]

theorem chunked_map {β : Type} (n : Nat) (f : α → β) (l : List α) :
    chunked n (l.map f) = (chunked n l).map (List.map f) := by
  induction l using chunked.induct n with
  | case1 => simp [chunked]
  | case2 c rest ih =>
    rw [List.map_cons, chunked, chunked, List.map_cons, List.map_cons, List.map_take, ← ih,
      List.map_drop]

theorem getElem?_chunked {n : Nat} (hn : 0 < n) {l g : List α} {i : Nat}
    (h : (chunked n l)[i]? = some g) : g = (l.drop (i * n)).take n := by
  induction l using chunked.induct n generalizing i with
  | case1 => simp [chunked] at h
  | case2 c rest ih =>
    have hcut : ∀ k, (c :: rest).drop (k + n) = (rest.drop (n - 1)).drop k := by
      intro k
      obtain ⟨m, rfl⟩ : ∃ m, n = m + 1 := ⟨n - 1, by omega⟩
      rw [← Nat.add_assoc, List.drop_succ_cons, List.drop_drop]
      congr 1
      omega
    rw [chunked] at h
    cases i with
    | zero =>
      obtain ⟨m, rfl⟩ : ∃ m, n = m + 1 := ⟨n - 1, by omega⟩
      simpa using h.symm
    | succ i =>
      rw [Nat.succ_mul, hcut]
      exact ih h

theorem forall_mem_chunked {n : Nat} (hn : 0 < n) (l : List α) (P : List α → Prop) :
    (∀ g ∈ chunked n l, P g) ↔ ∀ i, i * n < l.length → P ((l.drop (i * n)).take n) := by
  induction l using chunked.induct n with
  | case1 => simp [chunked]
  | case2 c rest ih =>
    obtain ⟨m, rfl⟩ : ∃ m, n = m + 1 := ⟨n - 1, by omega⟩
    have hcut : ∀ i, (c :: rest).drop ((i + 1) * (m + 1)) = (rest.drop m).drop (i * (m + 1)) := by
      intro i
      rw [Nat.succ_mul, ← Nat.add_assoc, List.drop_succ_cons, List.drop_drop,
        Nat.add_comm (i * (m + 1))]
    rw [chunked, List.forall_mem_cons, ih]
    constructor
    · rintro ⟨hfirst, hrest⟩ i hi
      cases i with
      | zero => simpa using hfirst
      | succ i =>
        rw [hcut]
        refine hrest i ?_
        rw [List.length_drop, Nat.add_sub_cancel]
        rw [List.length_cons, Nat.succ_mul] at hi
        omega
    · intro h
      refine ⟨by simpa using h 0 (by simp), fun i hi => ?_⟩
      have hnext := h (i + 1)
      rw [hcut] at hnext
      refine hnext ?_
      rw [List.length_drop, Nat.add_sub_cancel] at hi
      rw [List.length_cons, Nat.succ_mul]
      omega

/-- The runs that have to have a symbol of `P`, where only what may stand before and behind the
middle has none. -/
theorem windows_pass_iff {P : α → Prop} {n : Nat} {a m b : List α} (hn : 2 ≤ n)
    (ha : a.length ≤ 1) (hb : b.length ≤ 1) (hfail : ∀ x ∈ b, ¬ P x) (hpass : ∀ x ∈ m, P x)
    (hne : m ≠ []) :
    (∀ i, i * n < (a ++ m ++ b).length →
        ∃ x ∈ ((a ++ m ++ b).drop (i * n)).take n, P x) ↔
      ¬ (b ≠ [] ∧ n ∣ m.length + a.length) := by
  have hpos := List.length_pos_iff.mpr hne
  constructor
  · rintro h ⟨hbne, k, hk⟩
    have hlast : (a ++ m ++ b).drop (k * n) = b := by
      rw [List.drop_left']
      rw [List.length_append, Nat.mul_comm]
      omega
    have hbpos := List.length_pos_iff.mpr hbne
    obtain ⟨x, hx, hp⟩ := h k (by
      rw [List.length_append, List.length_append, Nat.mul_comm]
      omega)
    rw [hlast] at hx
    exact hfail x (List.mem_of_mem_take hx) hp
  · intro h i hi
    rw [List.length_append, List.length_append] at hi
    by_cases hin : i * n < a.length + m.length
    · have hj : max (i * n) a.length - a.length < m.length := by omega
      have hat : (((a ++ m ++ b).drop (i * n)).take n)[max (i * n) a.length - i * n]? =
          some m[max (i * n) a.length - a.length] := by
        rw [List.getElem?_take_of_lt (by omega), List.getElem?_drop, List.append_assoc,
          List.getElem?_append_right (by omega), List.getElem?_append_left (by omega),
          List.getElem?_eq_getElem (by omega)]
        congr 2
        omega
      exact ⟨_, List.mem_of_getElem? hat, hpass _ (List.getElem_mem hj)⟩
    · refine absurd ⟨?_, i, ?_⟩ h
      · rintro rfl
        rw [List.length_nil] at hi
        omega
      · rw [Nat.mul_comm]
        omega

/-- The last run, by its place among the runs. -/
theorem chunked_last {n : Nat} (hn : 0 < n) {l : List α} (hl : l ≠ []) :
    ∃ i g, (chunked n l)[i]? = some g ∧ g.getLast? = l.getLast? ∧ i * n + g.length = l.length := by
  induction l using chunked.induct n with
  | case1 => exact absurd rfl hl
  | case2 c rest ih =>
    rw [chunked]
    by_cases hr : rest.drop (n - 1) = []
    · refine ⟨0, c :: rest.take (n - 1), rfl, ?_, ?_⟩
      all_goals rw [List.take_of_length_le (List.drop_eq_nil_iff.mp hr)]
      simp
    · obtain ⟨i, g, hi, hlast, hlen⟩ := ih hr
      refine ⟨i + 1, g, hi, ?_, ?_⟩
      · have hsplit : c :: rest = (c :: rest.take (n - 1)) ++ rest.drop (n - 1) := by simp
        rw [hlast, hsplit, List.getLast?_append_of_ne_nil _ hr]
      · have hlt : n - 1 < rest.length := by simpa using hr
        rw [List.length_drop] at hlen
        rw [List.length_cons, Nat.succ_mul]
        omega

/-- Runs closed by the element that fills them, and the one left open; `run` is the open one. -/
def fillFrom (full : List α → Bool) (run : List α) : List α → List (List α)
  | [] => if run.isEmpty then [] else [run]
  | x :: rest =>
    if full (run ++ [x]) then (run ++ [x]) :: fillFrom full [] rest
    else fillFrom full (run ++ [x]) rest

section Fill
variable {full : List α → Bool}

theorem fillFrom_flatten (run l : List α) : (fillFrom full run l).flatten = run ++ l := by
  induction l generalizing run with
  | nil => cases run <;> simp [fillFrom]
  | cons x rest ih =>
    simp only [fillFrom]
    split <;> simp [ih]

theorem fillFrom_full (run l : List α) : ∀ r ∈ (fillFrom full run l).dropLast, full r = true := by
  induction l generalizing run with
  | nil => cases run <;> simp [fillFrom]
  | cons x rest ih =>
    simp only [fillFrom]
    split
    · rename_i hx
      cases hf : fillFrom full [] rest with
      | nil => simp
      | cons r rs =>
        have hr := ih []
        rw [hf] at hr
        simpa [hx] using hr
    · exact ih _

theorem fillFrom_ne_nil (run l : List α) : ∀ r ∈ fillFrom full run l, r ≠ [] := by
  induction l generalizing run with
  | nil => cases run <;> simp [fillFrom]
  | cons x rest ih =>
    simp only [fillFrom]
    split
    · simpa using ih []
    · exact ih _

/-- A run is closed no later than it is full. -/
theorem fillFrom_dropLast {run : List α} (hnil : full [] = false) (hrun : full run = false)
    (hlast : full run.dropLast = false) (l : List α) :
    ∀ r ∈ fillFrom full run l, full r.dropLast = false := by
  induction l generalizing run with
  | nil => cases run <;> simp [fillFrom, hlast]
  | cons x rest ih =>
    simp only [fillFrom]
    split
    · simpa [hrun] using ih hnil hnil
    · rename_i hx
      exact ih (by simpa using hx) (by simpa using hrun)

end Fill

/-- A symbol the pattern matches wherever it stands is in no piece. -/
theorem splitFrom_avoids {m : Pattern α} {c : α} (hm : ∀ prev s, m prev (c :: s) ≠ 0)
    (prev : Option α) (skip : Nat) (l : List α) : ∀ p ∈ splitFrom m prev skip l, c ∉ p := by
  induction l generalizing prev skip with
  | nil => simp [splitFrom]
  | cons d rest ih =>
    cases skip with
    | succ skip => exact ih (some d) skip
    | zero =>
      cases hn : m prev (d :: rest) with
      | zero =>
        have hd : c ≠ d := by rintro rfl; exact hm prev rest hn
        obtain ⟨q, qs, hq⟩ := splitFrom_cons m (some d) 0 rest
        have hr := ih (some d) 0
        rw [hq] at hr
        simp only [splitFrom, hn, hq, consHead]
        simpa [hd] using hr
      | succ n =>
        have hr := ih (some d) n
        simp only [splitFrom, hn]
        simpa using hr

theorem splitFrom_whole {m : Pattern α} {l : List α}
    (hm : ∀ c ∈ l, ∀ prev s, m prev (c :: s) = 0) (prev : Option α) :
    splitFrom m prev 0 l = [l] := by
  induction l generalizing prev with
  | nil => rfl
  | cons c rest ih =>
    have hr := ih (fun d hd => hm d (by simp [hd])) (some c)
    simp only [splitFrom, hm c (by simp), hr, consHead]

theorem splitFrom_congr {m m' : Pattern α} {l : List α}
    (h : ∀ prev s, s <:+ l → m prev s = m' prev s) (prev : Option α) (skip : Nat) :
    splitFrom m prev skip l = splitFrom m' prev skip l := by
  induction l generalizing prev skip with
  | nil => rfl
  | cons c rest ih =>
    have hr := ih fun prev s hs => h prev s (hs.trans (List.suffix_cons c rest))
    cases skip with
    | succ skip => exact hr (some c) skip
    | zero =>
      simp only [splitFrom, h prev (c :: rest) List.suffix_rfl, hr]

theorem intercalate_consHead (sep : List α) (c : α) {ps : List (List α)} (hp : ps ≠ []) :
    sep.intercalate (consHead c ps) = c :: sep.intercalate ps := by
  obtain ⟨p, ps, rfl⟩ := List.exists_cons_of_ne_nil hp
  rw [consHead, intercalate_cons_eq, intercalate_cons_eq, List.cons_append]

/-- Joining the pieces again with one symbol gives no more than there was. -/
theorem length_intercalate_splitFrom (m : Pattern α) (b : α) (prev : Option α) (skip : Nat)
    (l : List α) : ([b].intercalate (splitFrom m prev skip l)).length ≤ l.length - skip := by
  induction l generalizing prev skip with
  | nil => simp [splitFrom]
  | cons c rest ih =>
    cases skip with
    | succ skip =>
      rw [List.length_cons, Nat.succ_sub_succ]
      exact ih (some c) skip
    | zero =>
      cases hn : m prev (c :: rest) with
      | zero =>
        have hr := ih (some c) 0
        simp only [splitFrom, hn, intercalate_consHead _ _ (splitFrom_ne_nil _ _ _ _),
          List.length_cons, Nat.sub_zero] at hr ⊢
        omega
      | succ n =>
        have hr := ih (some c) n
        obtain ⟨q, qs, hq⟩ := splitFrom_cons m (some c) n rest
        simp only [splitFrom, hn, hq, List.intercalate_cons_cons, List.nil_append,
          List.singleton_append, List.length_cons, Nat.sub_zero] at hr ⊢
        omega

/-- The runs of symbols that are no separators. -/
def fields (p : α → Bool) (l : List α) : List (List α) := (l.splitOnP p).filter fun w => !w.isEmpty

section Fields
variable {p : α → Bool}

@[simp] theorem fields_nil : fields p [] = [] := rfl

/-- Parting at a separator, from which the other equations follow. -/
theorem fields_append_cons (a b : List α) {c : α} (hc : p c = true) :
    fields p (a ++ c :: b) = fields p a ++ fields p b := by
  rw [fields, List.splitOnP_append_cons a b hc, List.filter_append]
  rfl

theorem fields_cons {c : α} (hc : p c = true) (b : List α) : fields p (c :: b) = fields p b := by
  simpa using fields_append_cons [] b hc

theorem fields_whole {w : List α} (hw : ∀ c ∈ w, p c = false) :
    fields p w = if w.isEmpty then [] else [w] := by
  rw [fields, List.splitOnP_eq_singleton hw]
  cases w <;> simp

theorem fields_separators_append {a : List α} (ha : ∀ c ∈ a, p c = true) (b : List α) :
    fields p (a ++ b) = fields p b := by
  induction a with
  | nil => rfl
  | cons c a ih =>
    rw [List.cons_append, fields_cons (ha c (by simp)), ih fun d hd => ha d (by simp [hd])]

theorem fields_append_separators (a : List α) {b : List α} (hb : ∀ c ∈ b, p c = true) :
    fields p (a ++ b) = fields p a := by
  cases b with
  | nil => rw [List.append_nil]
  | cons c b =>
    have hrest := fields_separators_append (fun d hd => hb d (by simp [hd]) : ∀ d ∈ b, p d = true) []
    rw [fields_append_cons a b (hb c (by simp)), ← List.append_nil b, hrest, fields_nil,
      List.append_nil]

theorem fields_trimBy (l : List α) : fields p (trimBy p l) = fields p l := by
  obtain ⟨a, b, hl, ha, hb⟩ := trimBy_split p l
  have h : fields p l = fields p (a ++ trimBy p l ++ b) := congrArg (fields p) hl
  rw [h, fields_append_separators _ hb, fields_separators_append ha]

theorem splitFrom_runOf_prev (prev prev' : Option α) (skip : Nat) (l : List α) :
    splitFrom (runOf p) prev skip l = splitFrom (runOf p) prev' skip l := by
  cases l with
  | nil => rfl
  | cons c rest => cases skip <;> rfl

theorem splitFrom_runOf_skip (prev : Option α) (a l : List α) :
    splitFrom (runOf p) prev a.length (a ++ l) = split (runOf p) l := by
  induction a generalizing prev with
  | nil => exact splitFrom_runOf_prev prev none 0 l
  | cons c a ih => exact ih (some c)

/-- One run of separators, or one more symbol of a piece. -/
theorem split_runOf_cons (c : α) (l : List α) : split (runOf p) (c :: l) =
    if p c = true then [] :: split (runOf p) (l.dropWhile p)
    else consHead c (split (runOf p) l) := by
  cases hc : p c with
  | true =>
    have hm : runOf p none (c :: l) = (l.takeWhile p).length + 1 := by simp [runOf, hc]
    have hrun := splitFrom_runOf_skip (p := p) (some c) (l.takeWhile p) (l.dropWhile p)
    rw [List.takeWhile_append_dropWhile] at hrun
    simp only [split, splitFrom, hm, if_true]
    exact congrArg ([] :: ·) hrun
  | false =>
    have hm : runOf p none (c :: l) = 0 := by simp [runOf, hc]
    simp only [split, splitFrom, hm, Bool.false_eq_true, if_false]
    exact congrArg (consHead c) (splitFrom_runOf_prev (some c) none 0 l)

theorem fields_dropWhile (l : List α) : fields p (l.dropWhile p) = fields p l := by
  have h := fields_separators_append (p := p) (fun c hc => List.mem_takeWhile_imp hc)
    (a := l.takeWhile p) (l.dropWhile p)
  rwa [List.takeWhile_append_dropWhile, eq_comm] at h

theorem fields_cons_cons {c d : α} (hc : p c = false) (hd : p d = false) (l : List α) :
    fields p (c :: d :: l) = consHead c (fields p (d :: l)) := by
  obtain ⟨q, qs, hq⟩ := List.exists_cons_of_ne_nil (List.splitOnP_ne_nil p l)
  simp [fields, List.splitOnP_cons_eq_if_modifyHead, hc, hd, hq, consHead]

theorem fields_ne_nil {c : α} (hc : p c = false) (l : List α) : fields p (c :: l) ≠ [] := by
  obtain ⟨q, qs, hq⟩ := List.exists_cons_of_ne_nil (List.splitOnP_ne_nil p l)
  simp [fields, List.splitOnP_cons_eq_if_modifyHead, hc, hq]

theorem head?_any_dropWhile (l : List α) : (l.dropWhile p).head?.any p = false := by
  have h := List.head?_dropWhile_not p l
  cases hd : (l.dropWhile p).head? with
  | none => rfl
  | some d => simpa [hd] using h

theorem getLast?_all_dropWhile {c : α} (hc : p c = true) (l : List α) :
    (c :: l).getLast?.all p = (l.dropWhile p).getLast?.all p := by
  by_cases hd : l.dropWhile p = []
  · have hall : ∀ d ∈ c :: l, p d = true :=
      List.forall_mem_cons.mpr ⟨hc, List.dropWhile_eq_nil_iff.mp hd⟩
    rw [hd, List.getLast?_eq_some_getLast (List.cons_ne_nil c l)]
    exact hall _ (List.getLast_mem _)
  · have hcut : c :: l = (c :: l.takeWhile p) ++ l.dropWhile p := by simp
    rw [hcut, List.getLast?_append_of_ne_nil _ hd]

/-- An empty piece comes out where a run of separators begins or ends the list. -/
theorem split_runOf (l : List α) : split (runOf p) l =
    (if l.head?.any p then [[]] else []) ++ fields p l ++
      if l.getLast?.all p then [[]] else [] := by
  induction hn : l.length using Nat.strong_induction_on generalizing l with
  | h n ih =>
    cases l with
    | nil => rfl
    | cons c l =>
      rw [List.length_cons] at hn
      rw [split_runOf_cons]
      cases hc : p c with
      | true =>
        have hshort := (List.dropWhile_suffix p (l := l)).length_le
        rw [if_pos rfl, ih _ (by omega) (l.dropWhile p) rfl, head?_any_dropWhile,
          getLast?_all_dropWhile hc, fields_cons hc, fields_dropWhile]
        simp [hc]
      | false =>
        rw [if_neg Bool.false_ne_true, ih _ (by omega) l rfl]
        have hone : fields p [c] = [[c]] := fields_whole (by simpa using hc)
        cases l with
        | nil => simp [hone, hc, consHead]
        | cons d l =>
          rw [List.getLast?_cons_cons]
          cases hd : p d with
          | true =>
            have hcut := fields_append_cons [c] l hd
            rw [hone, List.singleton_append] at hcut
            simp [hc, hd, hcut, fields_cons hd, consHead]
          | false =>
            obtain ⟨q, qs, hq⟩ := List.exists_cons_of_ne_nil (fields_ne_nil hd l)
            simp [hc, hd, fields_cons_cons hc hd, hq, consHead]

/-- The pattern matches nothing but separators. -/
def Within (p : α → Bool) (m : Pattern α) : Prop :=
  ∀ (prev : Option α) (s : List α), ∀ c ∈ s.take (m prev s), p c = true

/-- The fields read on from `open_`, which is what the first piece goes on with. -/
theorem fields_splitFrom {m : Pattern α} (hm : Within p m)
    (open_ : List α) (prev : Option α) (skip : Nat) (l : List α)
    (hl : ∀ c ∈ l.take skip, p c = true) (hskip : 0 < skip → open_ = []) :
    ∀ q qs, splitFrom m prev skip l = q :: qs →
      fields p (open_ ++ l) = fields p (open_ ++ q) ++ qs.flatMap (fields p) := by
  induction l generalizing open_ prev skip with
  | nil =>
    intro q qs h
    obtain ⟨rfl, rfl⟩ := List.cons.inj h
    simp
  | cons c rest ih =>
    intro q qs h
    cases skip with
    | succ skip =>
      obtain rfl := hskip (Nat.succ_pos _)
      rw [List.nil_append, fields_cons (hl c (by simp)), ← List.nil_append rest]
      exact ih [] (some c) skip (fun d hd => hl d (by simp [hd])) (fun _ => rfl) q qs h
    | zero =>
      obtain ⟨-, r, rfl, hr⟩ | ⟨n, hn, rfl, hr⟩ := splitFrom_cases h
      · have hrest := ih (open_ ++ [c]) (some c) 0 (by simp) (fun h => absurd h (lt_irrefl _)) r qs hr
        simpa [List.append_assoc] using hrest
      · have hsp := hm prev (c :: rest)
        rw [hn] at hsp
        obtain ⟨r, rs, hqs⟩ := splitFrom_cons m (some c) n rest
        obtain rfl : qs = r :: rs := hr.symm.trans hqs
        have hrest := ih [] (some c) n (fun d hd => hsp d (by simp [hd])) (fun _ => rfl) r rs hr
        rw [fields_append_cons open_ rest (hsp c (by simp)), List.append_nil, List.flatMap_cons]
        exact congrArg (fields p open_ ++ ·) hrest

/-- Splitting where only separators match loses no field and cuts none. -/
theorem fields_split {m : Pattern α} (hm : Within p m)
    (l : List α) : (split m l).flatMap (fields p) = fields p l := by
  obtain ⟨q, qs, h⟩ := splitFrom_cons m none 0 l
  have hl := fields_splitFrom hm [] none 0 l (by simp) (fun _ => rfl) q qs h
  rw [split, h, List.flatMap_cons]
  exact hl.symm

theorem fields_join {c : α} (hc : p c = true) (ls : List (List α)) :
    fields p ([c].intercalate ls) = ls.flatMap (fields p) := by
  cases ls with
  | nil => rfl
  | cons l ls =>
    rw [intercalate_cons_eq, List.flatMap_cons]
    induction ls generalizing l with
    | nil => simp
    | cons k ks ih =>
      rw [List.flatMap_cons, List.singleton_append, List.cons_append, fields_append_cons l _ hc,
        ih k, List.flatMap_cons]

end Fields

/-- The places between consecutive pieces, as sums of their sizes counted from `n`: each is one
of `ends`. -/
def Stops (ends : Nat → Prop) : Nat → List Nat → Prop
  | _, [] => True
  | n, m :: rest => (rest ≠ [] → ends (n + m)) ∧ Stops ends (n + m) rest

theorem stops_append (ends : Nat → Prop) (n : Nat) (a b : List Nat) :
    Stops ends n (a ++ b) ↔
      Stops ends n a ∧ (a ≠ [] → b ≠ [] → ends (n + a.sum)) ∧ Stops ends (n + a.sum) b := by
  induction a generalizing n with
  | nil => simp [Stops]
  | cons m a ih =>
    simp only [List.cons_append, Stops, ih, List.sum_cons, Nat.add_assoc]
    cases a with
    | nil => simp [Stops]
    | cons m' a => simp; tauto

end ReadersSpeech.Splitting
