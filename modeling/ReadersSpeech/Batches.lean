import Mathlib.Data.List.Basic

/-! Things that come in items and leave in batches. What has come waits until the item that fills a
batch, or the last item; a room holds only so much. Whoever takes the batches may say to stop.
-/

set_option autoImplicit false

namespace ReadersSpeech.Batches

variable {κ α β : Type}

structure Item (κ α : Type) where
  key : κ
  values : List α
  last : Bool

def Item.map (f : α → β) (i : Item κ α) : Item κ β := ⟨i.key, i.values.map f, i.last⟩

/-- Each value with the key it comes under. -/
def Item.tag (i : Item κ α) : Item κ (κ × α) := ⟨i.key, i.values.map fun x => (i.key, x), i.last⟩

theorem untag (is : List (Item κ α)) : (is.map Item.tag).map (Item.map Prod.snd) = is := by
  have htag : Item.map Prod.snd ∘ Item.tag = @id (Item κ α) := by
    funext i
    simp [Item.tag, Item.map, Function.comp_def]
  rw [List.map_map, htag, List.map_id]

/-- All that comes until the last item, that one included. -/
def arrived : List (Item κ α) → List α
  | [] => []
  | i :: is => i.values ++ if i.last then [] else arrived is

/-- A batch goes by the key of the item that closed it. -/
def batches (full : κ → ℕ → Bool) (room : ℕ) : List α → List (Item κ α) → List (κ × List α)
  | _, [] => []
  | waiting, i :: is =>
    let w := waiting ++ i.values
    if room < w.length then []
    else if w ≠ [] ∧ (i.last ∨ full i.key w.length) then
      (i.key, w) :: if i.last then [] else batches full room [] is
    else if i.last then [] else batches full room w is

variable {full : κ → ℕ → Bool} {room : ℕ} {waiting : List α}

theorem batches_sizes {is : List (Item κ α)} :
    ∀ b ∈ batches full room waiting is, b.2 ≠ [] ∧ b.2.length ≤ room := by
  induction is generalizing waiting with
  | nil => simp [batches]
  | cons i is ih =>
    simp only [batches]
    split_ifs with hroom hclose hlast hlast
    · simp
    · rw [List.forall_mem_singleton]
      exact ⟨hclose.1, Nat.le_of_not_lt hroom⟩
    · simp only [List.forall_mem_cons]
      exact ⟨⟨hclose.1, Nat.le_of_not_lt hroom⟩, ih⟩
    · simp
    · exact ih

theorem batches_ne_nil {is : List (Item κ α)} :
    ∀ b ∈ batches full room waiting is, b.2 ≠ [] := fun b hb => (batches_sizes b hb).1

theorem batches_fit {is : List (Item κ α)} :
    ∀ b ∈ batches full room waiting is, b.2.length ≤ room := fun b hb => (batches_sizes b hb).2

/-- Every batch with another after it was closed because it was full. -/
theorem batches_full {is : List (Item κ α)} :
    ∀ b ∈ (batches full room waiting is).dropLast, full b.1 b.2.length := by
  induction is generalizing waiting with
  | nil => simp [batches]
  | cons i is ih =>
    simp only [batches]
    split_ifs with hroom hclose hlast hlast
    · simp
    · simp
    · cases hb : batches full room [] is with
      | nil => simp
      | cons b bs =>
        have hrest := @ih []
        rw [hb] at hrest
        simp only [List.dropLast_cons_cons, List.forall_mem_cons]
        exact ⟨hclose.2.resolve_left hlast, hrest⟩
    · simp
    · exact ih

theorem batches_prefix {is : List (Item κ α)} :
    (batches full room waiting is).flatMap (·.2) <+: waiting ++ arrived is := by
  induction is generalizing waiting with
  | nil => simp [batches]
  | cons i is ih =>
    simp only [batches, arrived, ← List.append_assoc]
    by_cases hroom : room < (waiting ++ i.values).length
    · rw [if_pos hroom]
      exact List.nil_prefix
    rw [if_neg hroom]
    cases hi : i.last with
    | true =>
      simp only [if_true, true_or, and_true]
      split_ifs <;> simp
    | false =>
      simp only [Bool.false_eq_true, if_false, false_or]
      split_ifs
      · rw [List.flatMap_cons]
        exact (List.prefix_append_right_inj _).mpr (by simpa using @ih [])
      · exact ih

/-- Nothing is lost when the last item comes and the room holds everything. -/
theorem batches_all {is : List (Item κ α)} (hlast : ∃ i ∈ is, i.last = true)
    (hroom : (waiting ++ arrived is).length ≤ room) :
    (batches full room waiting is).flatMap (·.2) = waiting ++ arrived is := by
  induction is generalizing waiting with
  | nil => simp at hlast
  | cons i is ih =>
    have hw : (waiting ++ i.values).length ≤ room := by
      simp only [arrived, List.length_append] at hroom ⊢
      omega
    simp only [batches, arrived, if_neg (Nat.not_lt.mpr hw)]
    cases hi : i.last with
    | true =>
      by_cases hne : waiting ++ i.values = []
      · simp [List.append_eq_nil_iff.mp hne]
      · simp [hne]
    | false =>
      have hlast' : ∃ i ∈ is, i.last = true := by
        simpa [hi] using hlast
      have hroom' : (waiting ++ i.values ++ arrived is).length ≤ room := by
        simpa [arrived, hi, Nat.add_assoc] using hroom
      simp only [Bool.false_eq_true, if_false, false_or]
      split_ifs with hclose
      · have hrest : (arrived is).length ≤ room := by
          simp only [List.length_append] at hroom'
          omega
        rw [List.flatMap_cons, @ih [] hlast' (by simpa using hrest)]
        simp
      · rw [ih hlast' hroom', List.append_assoc]

theorem batches_map (f : α → β) (waiting : List α) {is : List (Item κ α)} :
    batches full room (waiting.map f) (is.map (Item.map f)) =
      (batches full room waiting is).map fun b => (b.1, b.2.map f) := by
  induction is generalizing waiting with
  | nil => simp [batches]
  | cons i is ih =>
    have hw : waiting.map f ++ (i.map f).values = (waiting ++ i.values).map f := by
      simp [Item.map]
    have hnil := ih []
    simp only [List.map_nil] at hnil
    simp only [List.map_cons, batches, hw]
    simp only [Item.map, List.length_map, ih, ne_eq, List.map_eq_nil_iff, hnil]
    split_ifs <;> simp

section Stopping

/-- What is handed over to someone who, having all of it before, may say to stop. -/
def asked (answer : List β → Bool) : List β → List β → List β
  | _, [] => []
  | past, p :: ps =>
    p :: if answer (past ++ [p]) then asked answer (past ++ [p]) ps else []

variable {answer : List β → Bool} {past ps : List β}

theorem asked_prefix : asked answer past ps <+: ps := by
  induction ps generalizing past with
  | nil => simp [asked]
  | cons p ps ih =>
    simp only [asked]
    split_ifs
    · exact (List.prefix_cons_inj p).mpr ih
    · simp

theorem asked_always : asked (fun _ : List β => true) past ps = ps := by
  induction ps generalizing past with
  | nil => simp [asked]
  | cons p ps ih => simp [asked, ih]

theorem asked_map (f : α → β) (past ps : List α) :
    asked answer (past.map f) (ps.map f) =
      (asked (fun xs => answer (xs.map f)) past ps).map f := by
  induction ps generalizing past with
  | nil => simp [asked]
  | cons p ps ih =>
    have hrest := ih (past ++ [p])
    rw [List.map_append, List.map_singleton] at hrest
    simp only [List.map_cons, asked, List.map_append, List.map_nil, hrest]
    split_ifs <;> rfl

/-- The first answer to stop is the last thing heard. -/
theorem asked_stop {j : ℕ} (hj : j < ps.length)
    (hgo : ∀ i < j, answer (past ++ ps.take (i + 1)) = true)
    (hstop : answer (past ++ ps.take (j + 1)) = false) :
    asked answer past ps = ps.take (j + 1) := by
  induction ps generalizing past j with
  | nil => simp at hj
  | cons p ps ih =>
    cases j with
    | zero =>
      simp only [List.take_succ_cons, List.take_zero] at hstop
      simp [asked, hstop]
    | succ j =>
      have hp : answer (past ++ [p]) = true := by simpa using hgo 0 (by omega)
      have hgo' : ∀ i < j, answer (past ++ [p] ++ ps.take (i + 1)) = true :=
        fun i hi => by simpa using hgo (i + 1) (by omega)
      have hrest := ih (by simpa using hj) hgo' (by simpa using hstop)
      simp [asked, hp, hrest]

end Stopping

end ReadersSpeech.Batches
