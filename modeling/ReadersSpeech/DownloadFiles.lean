import ReadersSpeech.Download

/-! What the file operations keep of a folder: something that holds of the `.part` file and
something that holds of the target, in different files, whatever the two are.
-/

set_option autoImplicit false

namespace ReadersSpeech.Download

variable {P W : Bytes → Prop} {target : Name} {d d' : Disk}

theorem partName_ne (target : Name) : partName target ≠ target := by
  intro h
  have hl := congrArg List.length h
  simp [partName, kt] at hl

structure Files (part whole : Bytes → Prop) (target : Name) (d : Disk) : Prop where
  part : ∀ i, d.entry (partName target) = some i → part (d.data i)
  whole : ∀ i, d.entry target = some i → whole (d.data i)
  apart : ∀ i, d.entry (partName target) = some i → d.entry target ≠ some i
  old : ∀ n i, d.entry n = some i → i < d.fresh

theorem Files.mono {P' W' : Bytes → Prop} (h : Files P W target d) (hP : ∀ b, P b → P' b)
    (hW : ∀ b, W b → W' b) : Files P' W' target d :=
  ⟨fun i hi => hP _ (h.part i hi), fun i hi => hW _ (h.whole i hi), h.apart, h.old⟩

theorem Files.content (h : Files P W target d) :
    (∀ b, d.content (partName target) = some b → P b) ∧
      (∀ b, d.content target = some b → W b) := by
  simp only [Disk.content, Option.map_eq_some_iff]
  exact ⟨fun b ⟨i, hi, hb⟩ => hb ▸ h.part i hi, fun b ⟨i, hi, hb⟩ => hb ▸ h.whole i hi⟩

/-- Opening for writing either empties the file, keeps it, or makes a new one. -/
theorem openFile_cases {n : Name} {append : Bool} {fd : Nat}
    (ho : d.openFile n append = (fd, d')) :
    (d.entry n = some fd ∧
      d' = if append then d else { d with data := Function.update d.data fd [] }) ∨
    (d.entry n = none ∧ fd = d.fresh ∧ d' = {
      entry := Function.update d.entry n (some d.fresh)
      data := Function.update d.data d.fresh []
      fresh := d.fresh + 1 }) := by
  cases he : d.entry n with
  | some i =>
    simp only [Disk.openFile, he, Prod.mk.injEq] at ho
    obtain ⟨rfl, rfl⟩ := ho
    exact .inl ⟨rfl, rfl⟩
  | none =>
    simp only [Disk.openFile, he, Prod.mk.injEq] at ho
    obtain ⟨rfl, rfl⟩ := ho
    exact .inr ⟨rfl, rfl, rfl⟩

theorem Files.openFile (h : Files P W target d) (hnil : P []) (append : Bool) {fd : Nat}
    (ho : d.openFile (partName target) append = (fd, d')) :
    Files P W target d' ∧ d'.entry (partName target) = some fd ∧
      d'.data fd = if append then (d.content (partName target)).getD [] else [] := by
  have hne := partName_ne target
  obtain ⟨he, rfl⟩ | ⟨he, rfl, rfl⟩ := openFile_cases ho
  · cases append with
    | true => exact ⟨h, he, by simp [Disk.content, he]⟩
    | false =>
      refine ⟨⟨?_, ?_, h.apart, h.old⟩, he, by simp⟩
      · intro j hj
        obtain rfl : fd = j := Option.some.inj (he.symm.trans hj)
        simpa using hnil
      · intro j hj
        have hij : j ≠ fd := by rintro rfl; exact h.apart j he hj
        simpa [hij] using h.whole j hj
  · refine ⟨⟨?_, ?_, ?_, ?_⟩, by simp, by simp [Disk.content, he]⟩
    · intro j hj
      obtain rfl : d.fresh = j := by simpa using hj
      simpa using hnil
    · intro j hj
      simp only [Function.update_of_ne hne.symm] at hj
      have hij : j ≠ d.fresh := Nat.ne_of_lt (h.old _ j hj)
      simpa [hij] using h.whole j hj
    · intro j hj hjt
      obtain rfl : d.fresh = j := by simpa using hj
      simp only [Function.update_of_ne hne.symm] at hjt
      exact absurd (h.old _ _ hjt) (Nat.lt_irrefl _)
    · intro n j hj
      by_cases hn : n = partName target
      · subst hn
        obtain rfl : d.fresh = j := by simpa using hj
        exact Nat.lt_succ_self _
      · simp only [Function.update_of_ne hn] at hj
        exact Nat.lt_succ_of_lt (h.old n j hj)

theorem Disk.write_end (d : Disk) {fd offset : Nat} (chunk : Bytes)
    (ho : offset = (d.data fd).length) :
    (d.write fd offset chunk).data fd = d.data fd ++ chunk := by
  subst ho
  simp [Disk.write]

theorem Disk.write_other (d : Disk) {fd offset i : Nat} (chunk : Bytes) (hi : i ≠ fd) :
    (d.write fd offset chunk).data i = d.data i := by
  simp [Disk.write, hi]

theorem Files.write (h : Files P W target d) {fd offset : Nat} {chunk : Bytes}
    (hp : d.entry (partName target) = some fd → P ((d.write fd offset chunk).data fd))
    (hw : d.entry target = some fd → W ((d.write fd offset chunk).data fd)) :
    Files P W target (d.write fd offset chunk) := by
  refine ⟨?_, ?_, h.apart, h.old⟩
  · intro i hi
    by_cases hif : i = fd
    · subst hif; exact hp hi
    · rw [d.write_other chunk hif]; exact h.part i hi
  · intro i hi
    by_cases hif : i = fd
    · subst hif; exact hw hi
    · rw [d.write_other chunk hif]; exact h.whole i hi

theorem rename_cases {source : Name} (hr : d.rename source target = some d') :
    ∃ i, d.entry source = some i ∧
      d' = { d with
        entry := Function.update (Function.update d.entry target (some i)) source none } := by
  cases he : d.entry source with
  | none => simp [Disk.rename, he] at hr
  | some i =>
    simp only [Disk.rename, he, Option.some.injEq] at hr
    exact ⟨i, rfl, hr.symm⟩

theorem Files.rename (h : Files P W target d)
    (hr : d.rename (partName target) target = some d')
    (hc : ∀ b, d.content (partName target) = some b → W b) :
    Files P W target d' ∧ d'.entry (partName target) = none ∧
      d'.content target = d.content (partName target) := by
  have hne := partName_ne target
  obtain ⟨i, he, rfl⟩ := rename_cases hr
  refine ⟨⟨?_, ?_, ?_, ?_⟩, by simp, by simp [Disk.content, hne.symm, he]⟩
  · simp
  · intro j hj
    simp only [Function.update_of_ne hne.symm, Function.update_self, Option.some.injEq] at hj
    exact hj ▸ hc _ (by simp [Disk.content, he])
  · simp
  · intro n j hj
    by_cases hn : n = partName target
    · subst hn; simp at hj
    · by_cases ht : n = target
      · subst ht
        simp only [Function.update_of_ne hn, Function.update_self, Option.some.injEq] at hj
        exact hj ▸ h.old _ i he
      · simp only [Function.update_of_ne hn, Function.update_of_ne ht] at hj
        exact h.old n j hj

theorem Files.delete (h : Files P W target d) : Files P W target (d.delete target) := by
  have hne := partName_ne target
  refine ⟨?_, ?_, ?_, ?_⟩
  · simpa [Disk.delete, Function.update_of_ne hne] using h.part
  · simp [Disk.delete]
  · simp [Disk.delete]
  · intro n i hi
    by_cases hn : n = target
    · subst hn; simp [Disk.delete] at hi
    · simp only [Disk.delete, Function.update_of_ne hn] at hi
      exact h.old n i hi

end ReadersSpeech.Download
