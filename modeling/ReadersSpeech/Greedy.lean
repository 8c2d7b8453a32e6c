import Mathlib.Data.List.Sublists

/-! Going through a list and keeping what is not like anything kept before. -/

set_option autoImplicit false

namespace ReadersSpeech.Greedy

variable {α β : Type} {alike : α → α → Bool}

def add (alike : α → α → Bool) (kept : List α) (x : α) : List α :=
  if kept.any fun y => alike y x then kept else kept ++ [x]

def pick (alike : α → α → Bool) (l : List α) : List α := l.foldl (add alike) []

theorem pick_concat (l : List α) (x : α) : pick alike (l ++ [x]) = add alike (pick alike l) x :=
  List.foldl_concat ..

theorem pick_sublist (l : List α) : (pick alike l).Sublist l := by
  induction l using List.reverseRecOn with
  | nil => exact List.Sublist.refl _
  | append_singleton l x ih =>
    rw [pick_concat, add]
    split
    · exact ih.trans (List.sublist_append_left l [x])
    · exact ih.append (List.Sublist.refl [x])

theorem pick_pairwise (l : List α) : (pick alike l).Pairwise fun y x => alike y x = false := by
  induction l using List.reverseRecOn with
  | nil => exact List.Pairwise.nil
  | append_singleton l x ih =>
    rw [pick_concat, add]
    split
    · exact ih
    · rename_i hx
      rw [List.pairwise_append]
      refine ⟨ih, List.pairwise_singleton _ _, fun y hy z hz => ?_⟩
      obtain rfl := List.mem_singleton.mp hz
      simpa using fun ha : alike y z = true => hx (List.any_eq_true.mpr ⟨y, hy, ha⟩)

/-- Only what is compared counts. -/
theorem pick_map (f : β → α) (l : List β) :
    pick alike (l.map f) = (pick (fun a b => alike (f a) (f b)) l).map f := by
  induction l using List.reverseRecOn with
  | nil => rfl
  | append_singleton l x ih =>
    rw [List.map_append, List.map_singleton, pick_concat, pick_concat, ih, add, add, List.any_map]
    simp only [Function.comp_def]
    split
    · rfl
    · rw [List.map_append, List.map_singleton]

/-- What is left out is like something kept that came before. -/
theorem pick_complete {before : α → α → Prop} {l : List α} (hl : l.Pairwise before) {x : α}
    (hx : x ∈ l) : x ∈ pick alike l ∨ ∃ y ∈ pick alike l, before y x ∧ alike y x = true := by
  induction l using List.reverseRecOn with
  | nil => cases hx
  | append_singleton l z ih =>
    obtain ⟨hl, -, hz⟩ := List.pairwise_append.mp hl
    have hgrow : ∀ y ∈ pick alike l, y ∈ pick alike (l ++ [z]) := by
      intro y hy
      rw [pick_concat, add]
      split
      · exact hy
      · exact List.mem_append_left [z] hy
    rcases List.mem_append.mp hx with hx | hx
    · rcases ih hl hx with h | ⟨y, hy, hr⟩
      · exact .inl (hgrow x h)
      · exact .inr ⟨y, hgrow y hy, hr⟩
    · obtain rfl := List.mem_singleton.mp hx
      by_cases ha : (pick alike l).any fun y => alike y x
      · obtain ⟨y, hy, hyx⟩ := List.any_eq_true.mp ha
        have hin := (pick_sublist l).subset hy
        exact .inr ⟨y, hgrow y hy, hz y hin x hx, hyx⟩
      · rw [pick_concat, add, if_neg ha]
        exact .inl (List.mem_append_right _ hx)

/-- What is not among the first `n` comes after all of them, and there are `n`. -/
theorem take_complete {before : α → α → Prop} {l : List α} (hl : l.Pairwise before) (n : Nat)
    {x : α} (hx : x ∈ l) :
    x ∈ l.take n ∨ (l.take n).length = n ∧ ∀ y ∈ l.take n, before y x := by
  rw [← List.take_append_drop n l, List.pairwise_append] at hl
  rw [← List.take_append_drop n l] at hx
  rcases List.mem_append.mp hx with hx | hx
  · exact .inl hx
  · have hlen := List.length_pos_of_mem hx
    rw [List.length_drop] at hlen
    exact .inr ⟨by rw [List.length_take]; omega, fun y hy => hl.2.2 y hy x hx⟩

end ReadersSpeech.Greedy
