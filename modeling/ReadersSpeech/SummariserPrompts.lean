import ReadersSpeech.SummariserRun

/-! What a prompt says. A template names the arguments it is given, and each stands in the text that
comes of it, so a piece, a paragraph or a note is in the prompt it was handed to.
-/

set_option autoImplicit false

namespace ReadersSpeech.Summariser

variable {lang : Str}

/-- The texts stand in `s` one after another. -/
def Carries : List Str → Str → Prop
  | [], _ => True
  | t :: ts, s => ∃ a b, s = a ++ t ++ b ∧ Carries ts b

theorem Carries.behind {ts : List Str} {s : Str} (h : Carries ts s) (a : Str) :
    Carries ts (a ++ s) := by
  cases ts with
  | nil => trivial
  | cons t ts =>
    obtain ⟨b, c, rfl, hc⟩ := h
    exact ⟨a ++ b, c, by simp only [List.append_assoc], hc⟩

theorem Carries.before {ts : List Str} {s : Str} (h : Carries ts s) (b : Str) :
    Carries ts (s ++ b) := by
  induction ts generalizing s with
  | nil => trivial
  | cons t ts ih =>
    obtain ⟨a, c, rfl, hc⟩ := h
    exact ⟨a, c ++ b, by simp only [List.append_assoc], ih hc⟩

theorem Carries.cons {ts : List Str} {s : Str} (h : Carries ts s) (t : Str) :
    Carries (t :: ts) (t ++ s) := ⟨[], s, rfl, h⟩

theorem Carries.tail {t : Str} {ts : List Str} {s : Str} (h : Carries (t :: ts) s) :
    Carries ts s := by
  obtain ⟨a, b, rfl, hb⟩ := h
  exact hb.behind (a ++ t)

/-- What the first text carries, the whole carries. -/
theorem Carries.within {t : Str} {rest ts : List Str} {s : Str} (h : Carries (t :: rest) s)
    (ht : Carries ts t) : Carries ts s := by
  obtain ⟨a, b, rfl, -⟩ := h
  exact (ht.behind a).before b

theorem carries_join (sep : Str) {α : Type} (say : α → Str) (text : α → Str)
    (hsay : ∀ x, ∃ label, say x = label ++ text x) (xs : List α) :
    Carries (xs.map text) (joinToString sep (xs.map say)) := by
  induction xs with
  | nil => trivial
  | cons x xs ih =>
    obtain ⟨label, hx⟩ := hsay x
    cases xs with
    | nil => exact ⟨label, [], by simp [joinToString, hx], trivial⟩
    | cons y ys =>
      refine ⟨label, sep ++ joinToString sep ((y :: ys).map say), ?_, ih.behind sep⟩
      simp [joinToString, hx, List.append_assoc]

theorem carries_labelled (notes : List Str) (start : Nat) (word : Str) :
    Carries notes (labelled notes start word) := by
  have h := carries_join (kt "\n\n")
    (fun n : Str × Nat => word ++ kt " " ++ decimal (start + n.2) ++ kt ": " ++ n.1) Prod.fst
    (fun _ => ⟨_, rfl⟩) notes.zipIdx
  rw [List.zipIdx_map_fst] at h
  rw [labelled, List.mapIdx_eq_zipIdx_map]
  exact h

/-- The points are in the summary, in their order. -/
theorem carries_written (theme : Str) {kept : List Str} (hne : kept ≠ []) :
    Carries kept (written theme kept) := by
  have hpoints : Carries kept (joinToString (kt "\n") (kept.map (kt "- " ++ ·))) := by
    simpa using carries_join (kt "\n") (kt "- " ++ ·) id (fun _ => ⟨_, rfl⟩) kept
  have hspoken : isBlank (joinToString (kt "\n") (kept.map (kt "- " ++ ·))) = false := by
    obtain ⟨p, ps, rfl⟩ := List.exists_cons_of_ne_nil hne
    have hdash : isBlank (kt "- ") = false := by decide
    cases ps <;> simp [joinToString, hdash]
  unfold written
  generalize joinToString (kt "\n") (kept.map (kt "- " ++ ·)) = text at hpoints hspoken
  cases htheme : isBlank theme with
  | true => simpa [htheme, hspoken, joinToString] using hpoints
  | false =>
    have hbehind := (hpoints.behind (kt "\n\n")).behind theme
    simpa [htheme, hspoken, joinToString, List.append_assoc] using hbehind

/-! ### Templates -/

/-- The arguments a template names, in the order of its text. -/
def slots : Nat → Str → List Nat
  | n, c :: d :: e :: f :: rest =>
    if c == codeUnit '%' && (d == codeUnit 's' || d == codeUnit 'd') then
      n :: slots (n + 1) (e :: f :: rest)
    else if c == codeUnit '%' && e == codeUnit '$' then (d.toNat - 49) :: slots n rest
    else slots n (d :: e :: f :: rest)
  | n, c :: d :: rest =>
    if c == codeUnit '%' && (d == codeUnit 's' || d == codeUnit 'd') then [n]
    else slots n (d :: rest)
  | _, _ => []

/-- Each argument stands where the template names it. -/
theorem carries_formatFrom (args : List Str) : ∀ (n : Nat) (s : Str),
    Carries ((slots n s).map fun i => args.getD i []) (formatFrom args n s)
  | n, c :: d :: e :: f :: rest => by
    rw [slots, formatFrom]
    split
    · exact (carries_formatFrom args (n + 1) (e :: f :: rest)).cons _
    · split
      · exact (carries_formatFrom args n rest).cons _
      · exact (carries_formatFrom args n (d :: e :: f :: rest)).behind [c]
  | n, [c, d, e] => by
    simp only [slots, formatFrom]
    split
    · have hrest : Carries [] [e] := trivial
      exact hrest.cons _
    · exact (carries_formatFrom args n [d, e]).behind [c]
  | n, [c, d] => by
    simp only [slots, formatFrom]
    split
    · have hrest : Carries [] [] := trivial
      exact hrest.cons _
    · exact (carries_formatFrom args n [d]).behind [c]
  | n, [c] => by simp [slots, Carries]
  | n, [] => by simp [slots, Carries]

theorem slots_kt {s : String} {cs : List Char} {l : List Nat} (hs : s = String.ofList cs)
    (h : slots 0 (cs.map codeUnit) = l) : slots 0 (kt s) = l := by
  rwa [hs, kt, String.toList_ofList]

set_option maxRecDepth 20000 in
theorem slots_part : ∀ entry ∈ part, slots 0 entry.2 = [0, 1, 2] := by
  simp only [part, List.forall_mem_cons]
  refine ⟨slots_kt rfl ?_, slots_kt rfl ?_, slots_kt rfl ?_, slots_kt rfl ?_, slots_kt rfl ?_,
    slots_kt rfl ?_, by simp⟩
  all_goals decide +kernel

set_option maxRecDepth 20000 in
theorem slots_group : ∀ entry ∈ group, slots 0 entry.2 = [0] := by
  simp only [group, List.forall_mem_cons]
  refine ⟨slots_kt rfl ?_, slots_kt rfl ?_, slots_kt rfl ?_, slots_kt rfl ?_, slots_kt rfl ?_,
    slots_kt rfl ?_, by simp⟩
  all_goals decide +kernel

set_option maxRecDepth 20000 in
theorem slots_theme : ∀ entry ∈ theme, slots 0 entry.2 = [0] := by
  simp only [theme, List.forall_mem_cons]
  refine ⟨slots_kt rfl ?_, slots_kt rfl ?_, slots_kt rfl ?_, slots_kt rfl ?_, slots_kt rfl ?_,
    slots_kt rfl ?_, by simp⟩
  all_goals decide +kernel

set_option maxRecDepth 20000 in
theorem slots_points : ∀ entry ∈ points, slots 0 entry.2 = [0, 1, 2, 3] := by
  simp only [points, List.forall_mem_cons]
  refine ⟨slots_kt rfl ?_, slots_kt rfl ?_, slots_kt rfl ?_, slots_kt rfl ?_, slots_kt rfl ?_,
    slots_kt rfl ?_, by simp⟩
  all_goals decide +kernel

/-- Every table has the same languages as `part`. -/
theorem tongue_said {table : List (Str × Str)} (hkeys : table.map Prod.fst = part.map Prod.fst)
    (u : Unicode) (language : Str) :
    (tongue u language, said table (tongue u language)) ∈ table := by
  have hmem : tongue u language ∈ table.map Prod.fst := by
    rw [hkeys]
    unfold tongue
    dsimp only
    split
    · rename_i h
      obtain ⟨entry, hentry, he⟩ := List.lookup_isSome_iff.mp h
      rw [eq_of_beq he]
      exact List.mem_map_of_mem hentry
    · exact List.mem_cons_self
  obtain ⟨entry, hentry, he⟩ := List.mem_map.mp hmem
  have hsome : (table.lookup (tongue u language)).isSome = true :=
    List.lookup_isSome_iff.mpr ⟨entry, hentry, beq_iff_eq.mpr he.symm⟩
  obtain ⟨text, ht⟩ := Option.isSome_iff_exists.mp hsome
  obtain ⟨a, b, hab, -⟩ := List.lookup_eq_some_iff.mp ht
  rw [said, ht, hab]
  simp

theorem points_languages : points.map Prod.fst = part.map Prod.fst := by
  simp only [points, part, List.map_cons, List.map_nil]

section Asks
variable (u : Unicode) (language : Str)

theorem carries_partAsk (size i : Nat) (piece : Str) :
    Carries [piece] (partAsk (tongue u language) size i piece).prompt := by
  have h := carries_formatFrom [decimal (i + 1), decimal size, piece] 0
    (said part (tongue u language))
  rw [slots_part _ (tongue_said rfl u language)] at h
  exact h.tail.tail

theorem carries_groupAsk (g : List Str) :
    Carries g (groupAsk (tongue u language) g).prompt := by
  have hkeys : group.map Prod.fst = part.map Prod.fst := by
    simp only [group, part, List.map_cons, List.map_nil]
  have h := carries_formatFrom [joinToString (kt "\n\n") g] 0 (said group (tongue u language))
  rw [slots_group _ (tongue_said hkeys u language)] at h
  refine h.within ?_
  simpa using carries_join (kt "\n\n") id id (fun _ => ⟨[], rfl⟩) g

theorem carries_themeAsk (forTheme : List Str) :
    Carries forTheme (themeAsk (tongue u language) forTheme).prompt := by
  have hkeys : theme.map Prod.fst = part.map Prod.fst := by
    simp only [theme, part, List.map_cons, List.map_nil]
  have h := carries_formatFrom
    [labelled forTheme 1 (said partWord (tongue u language))] 0 (said theme (tongue u language))
  rw [slots_theme _ (tongue_said hkeys u language)] at h
  exact h.within (carries_labelled _ _ _)

theorem carries_pointsAsk (theme : Str) (groups g : Nat) (notes : List Str) :
    Carries notes (pointsAsk (tongue u language) theme groups g notes).prompt := by
  rw [pointsAsk]
  dsimp only
  generalize hargs : [theme, _, labelled notes (g * notesPerCall + 1)
    (said partWord (tongue u language)), decimal (perGroup groups)] = args
  have h := carries_formatFrom args 0 (said points (tongue u language))
  rw [slots_points _ (tongue_said points_languages u language), ← hargs] at h
  rw [← hargs]
  exact h.tail.tail.within (carries_labelled _ _ _)

end Asks

end ReadersSpeech.Summariser
