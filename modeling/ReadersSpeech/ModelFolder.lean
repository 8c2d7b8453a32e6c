import ReadersSpeech.DownloadRuns

/-! A folder of models. Each model is fetched into it by a call of its own, side by side with those
of the other models, and files are taken out of it while they are read: a file keeps what it holds
when its name goes to another file, or to none.
-/

set_option autoImplicit false

namespace ReadersSpeech.ModelFolder
open Download Transition

/-- A ggml Whisper model. -/
structure Model where
  key : Str
  file : Name
  mb : Nat

def NORMAL : Model := ⟨kt "normal", kt "ggml-small-q5_1.bin", 190⟩

def HIGH : Model := ⟨kt "high", kt "ggml-large-v3-turbo-q5_0.bin", 574⟩

def ALL : List Model := [NORMAL, HIGH]

/-- Remove model files neither quality uses any more: `files` is what the folder lists. -/
def cleanup (files : List Name) (d : Disk) : Disk :=
  files.foldl (fun d n =>
    if (kt ".bin").isSuffixOf n && !(ALL.map Model.file).contains n then d.delete n else d) d

structure Folder where
  disk : Disk
  calls : Name → Call

inductive Event where
  | fetch (target : Name) (e : Download.Event)
  | remove (target : Name)
  | cleanup (files : List Name)

/-- The call that fetches `target`, with what it shows left out. -/
def Folder.fetching (f : Folder) (target : Name) : State := ⟨f.disk, f.calls target, []⟩

def step (f : Folder) : Event → Option Folder
  | .fetch target e =>
    if ModelProvider.isModelName target then
      (Download.step target (f.fetching target) e).map fun s =>
        ⟨s.disk, Function.update f.calls target s.call⟩
    else none
  | .remove target =>
    if ModelProvider.isModelName target then some { f with disk := f.disk.delete target } else none
  | .cleanup files => some { f with disk := cleanup files f.disk }

/-- Nothing is in the folder, and nothing is being fetched. -/
def empty : Folder := ⟨⟨fun _ => none, fun _ => [], 0⟩, fun _ => .idle⟩

section Names
variable {m n target : Name}

theorem partName_injective : Function.Injective partName := fun _ _ h => List.append_cancel_right h

theorem partName_suffix (target : Name) : (kt ".part").isSuffixOf (partName target) = true :=
  List.isSuffixOf_iff_suffix.mpr (List.suffix_append target _)

/-- No model is what another is fetched into. -/
theorem model_ne_part (h : ModelProvider.isModelName n = true) (target : Name) :
    n ≠ partName target := by
  rintro rfl
  simp [ModelProvider.isModelName, partName_suffix] at h

theorem bin_ne_part (h : (kt ".bin").isSuffixOf n = true) (target : Name) :
    n ≠ partName target := by
  rintro rfl
  obtain ⟨a, ha⟩ := List.isSuffixOf_iff_suffix.mp h
  have hend := congrArg (fun s => s.reverse.take 4) ha
  simp [partName, kt, codeUnit] at hend

end Names

/-- Each name has a file of its own, and all of them were made some time. -/
structure Named (d : Disk) : Prop where
  own : ∀ m n i, d.entry m = some i → d.entry n = some i → m = n
  old : ∀ n i, d.entry n = some i → i < d.fresh

/-- What fetching `target` can do to a disk: only the `.part` file is written, and only the two
names change. -/
structure Touched (target : Name) (d d' : Disk) : Prop where
  entry : ∀ n, n ≠ target → n ≠ partName target → d'.entry n = d.entry n
  data : ∀ i, i < d.fresh → d.entry (partName target) ≠ some i → d'.data i = d.data i
  part : ∀ i, d'.entry (partName target) = some i →
    d.entry (partName target) = some i ∨ i = d.fresh
  fresh : d.fresh ≤ d'.fresh

theorem Touched.refl (target : Name) (d : Disk) : Touched target d d :=
  ⟨fun _ _ _ => rfl, fun _ _ _ => rfl, fun _ h => .inl h, Nat.le_refl _⟩

section Disk
variable {target : Name} {d d' : Disk}

theorem Named.write (h : Named d) (fd offset : Nat) (chunk : Bytes) :
    Named (d.write fd offset chunk) := ⟨h.own, h.old⟩

theorem Named.delete (h : Named d) (n : Name) : Named (d.delete n) := by
  have hkept : ∀ m i, (d.delete n).entry m = some i → d.entry m = some i := by
    intro m i hm
    by_cases hmn : m = n
    · simp [Disk.delete, hmn] at hm
    · simpa [Disk.delete, Function.update_of_ne hmn] using hm
  exact ⟨fun m m' i hm hm' => h.own m m' i (hkept m i hm) (hkept m' i hm'),
    fun m i hm => h.old m i (hkept m i hm)⟩

/-- A new entry, `new`, for a file that no other name has. -/
theorem Named.entries (h : Named d) (new : Name) (j : Nat)
    (hentry : ∀ m i, d'.entry m = some i → m = new ∧ i = j ∨ d.entry m = some i)
    (hown : ∀ m, d'.entry m = some j → m = new) (hj : j < d'.fresh) (hf : d.fresh ≤ d'.fresh) :
    Named d' := by
  constructor
  · intro m m' i hm hm'
    rcases hentry m i hm with ⟨rfl, rfl⟩ | hold
    · exact (hown m' hm').symm
    · rcases hentry m' i hm' with ⟨rfl, rfl⟩ | hold'
      · exact hown m hm
      · exact h.own m m' i hold hold'
  · intro m i hm
    rcases hentry m i hm with ⟨-, rfl⟩ | hold
    · exact hj
    · exact Nat.lt_of_lt_of_le (h.old m i hold) hf

theorem Named.openFile (h : Named d) {n : Name} {append : Bool} {fd : Nat}
    (ho : d.openFile n append = (fd, d')) : Named d' := by
  obtain ⟨he, rfl⟩ | ⟨he, rfl, rfl⟩ := openFile_cases ho
  · cases append <;> exact ⟨h.own, h.old⟩
  · have hne : ∀ m, d.entry m ≠ some d.fresh := fun m hm => Nat.lt_irrefl _ (h.old m _ hm)
    refine h.entries n d.fresh (fun m i hm => ?_) (fun m hm => ?_)
      (Nat.lt_succ_self _) (Nat.le_succ _)
    · by_cases hmn : m = n
      · subst hmn
        exact .inl ⟨rfl, by simpa using hm.symm⟩
      · exact .inr (by simpa [Function.update_of_ne hmn] using hm)
    · by_contra hmn
      exact hne m (by simpa [Function.update_of_ne hmn] using hm)

theorem Named.rename (h : Named d) {source : Name} (hr : d.rename source target = some d') :
    Named d' := by
  obtain ⟨j, hj, rfl⟩ := rename_cases hr
  have hmoved : ∀ m i, Function.update (Function.update d.entry target (some j)) source none m =
      some i → m ≠ source ∧ (m = target ∧ i = j ∨ m ≠ target ∧ d.entry m = some i) := by
    intro m i hm
    have hms : m ≠ source := by rintro rfl; simp at hm
    rw [Function.update_of_ne hms] at hm
    by_cases hmt : m = target
    · subst hmt
      exact ⟨hms, .inl ⟨rfl, by simpa using hm.symm⟩⟩
    · exact ⟨hms, .inr ⟨hmt, by simpa [Function.update_of_ne hmt] using hm⟩⟩
  refine h.entries target j (fun m i hm => ?_) (fun m hm => ?_) (h.old _ _ hj)
    (Nat.le_refl _)
  · exact (hmoved m i hm).2.imp_right And.right
  · obtain ⟨hms, hmt | ⟨-, hm'⟩⟩ := hmoved m j hm
    · exact hmt.1
    · exact absurd (h.own m source j hm' hj) hms

theorem Touched.openFile {append : Bool} {fd : Nat}
    (ho : d.openFile (partName target) append = (fd, d')) :
    Touched target d d' ∧ d'.entry (partName target) = some fd := by
  obtain ⟨he, rfl⟩ | ⟨he, rfl, rfl⟩ := openFile_cases ho
  · cases append with
    | true => exact ⟨.refl target d, he⟩
    | false =>
      refine ⟨⟨fun _ _ _ => rfl, fun i _ hi => ?_, fun _ h => .inl h, Nat.le_refl _⟩, he⟩
      exact Function.update_of_ne (fun hif => hi (by rw [hif]; exact he)) _ _
  · refine ⟨⟨fun n _ hn => Function.update_of_ne hn _ _, fun i hi _ => ?_, fun i hi => ?_,
      Nat.le_succ _⟩, by simp⟩
    · exact Function.update_of_ne (Nat.ne_of_lt hi) _ _
    · exact .inr (by simpa using hi.symm)

theorem Touched.write {fd offset : Nat} (chunk : Bytes)
    (hfd : d.entry (partName target) = some fd) : Touched target d (d.write fd offset chunk) :=
  ⟨fun _ _ _ => rfl, fun _ _ hi => d.write_other chunk fun hif => hi (hif ▸ hfd),
    fun _ h => .inl h, Nat.le_refl _⟩

theorem Touched.rename (hr : d.rename (partName target) target = some d') :
    Touched target d d' := by
  obtain ⟨j, -, rfl⟩ := rename_cases hr
  refine ⟨fun n ht hp => ?_, fun _ _ _ => rfl, fun i hi => ?_, Nat.le_refl _⟩
  · exact (Function.update_of_ne hp _ _).trans (Function.update_of_ne ht _ _)
  · simp at hi

theorem Touched.delete : Touched target d (d.delete target) := by
  refine ⟨fun n ht _ => Function.update_of_ne ht _ _, fun _ _ _ => rfl, fun i hi => .inl ?_,
    Nat.le_refl _⟩
  simpa [Disk.delete, Function.update_of_ne (partName_ne target)] using hi

end Disk

/-- The loop of a call, while it has its file open. -/
def loopOf : Pc → Option Loop
  | .testing l | .reading l | .writing l _ | .checking l => some l
  | _ => none

/-- The file a call writes to is the `.part` file. -/
def Writes (target : Name) (s : State) : Prop :=
  ∀ pc l, s.call = .running pc → loopOf pc = some l → s.disk.entry (partName target) = some l.fd

theorem writes_of_stopped {target : Name} {s : State} (h : s.call.busy = false) :
    Writes target s := by
  intro pc l hpc
  simp [hpc, Call.busy] at h

theorem writes_of_running {target : Name} {s : State} {pc : Pc} (hpc : s.call = .running pc)
    (h : ∀ l, loopOf pc = some l → s.disk.entry (partName target) = some l.fd) :
    Writes target s := by
  intro pc' l hpc' hl
  obtain rfl : pc = pc' := by simpa [hpc] using hpc'
  exact h l hl

/-- One step of a call: what it touches, and that it goes on writing to the `.part` file. -/
theorem touched_of_moves {target : Name} {s s' : State} {pc : Pc} {e : Download.Event}
    (h : Moves target s pc e s') (hpc : s.call = .running pc) (hn : Named s.disk)
    (hw : Writes target s) :
    Touched target s.disk s'.disk ∧ Named s'.disk ∧ Writes target s' := by
  have hkept : ∀ l, loopOf pc = some l → s.disk.entry (partName target) = some l.fd :=
    fun l hl => hw pc l hpc hl
  cases h with
  | measured | answered _ | occupied =>
    exact ⟨.refl target _, hn, writes_of_running rfl (by simp [loopOf])⟩
  | refused _ | unreachable | stopped | broke | short _ | left | killed =>
    exact ⟨.refl target _, hn, writes_of_stopped rfl⟩
  | @opened have_ r fd disk ho =>
    obtain ⟨ht, hp⟩ := Touched.openFile ho
    refine ⟨ht, hn.openFile ho, writes_of_running rfl fun l hl => ?_⟩
    obtain rfl := Option.some.inj hl
    exact hp
  | @goesOn l | @ended l | @read l n _ _ _ =>
    refine ⟨.refl target _, hn, writes_of_running rfl fun l' hl' => ?_⟩
    obtain rfl := Option.some.inj hl'
    exact hkept l rfl
  | @appended l chunk =>
    refine ⟨.write chunk (hkept l rfl), hn.write _ _ _, writes_of_running rfl fun l' hl' => ?_⟩
    obtain rfl := Option.some.inj hl'
    exact hkept l rfl
  | @filled l chunk n =>
    exact ⟨.write _ (hkept l rfl), hn.write _ _ _, writes_of_stopped rfl⟩
  | complete _ => exact ⟨.refl target _, hn, writes_of_running rfl (by simp [loopOf])⟩
  | placed hr | placedAgain hr =>
    exact ⟨.rename hr, hn.rename hr, writes_of_stopped rfl⟩
  | cleared => exact ⟨.delete, hn.delete target, writes_of_running rfl (by simp [loopOf])⟩

/-- What taking names out of the folder leaves: all the files, and what the models are fetched
into. -/
structure Removed (d d' : Disk) : Prop where
  entry : ∀ n i, d'.entry n = some i → d.entry n = some i
  part : ∀ target, d'.entry (partName target) = d.entry (partName target)
  data : d'.data = d.data
  fresh : d'.fresh = d.fresh

theorem Removed.delete {n : Name} (hn : ∀ target, n ≠ partName target) (d : Disk) :
    Removed d (d.delete n) := by
  refine ⟨fun m i hm => ?_, fun target => Function.update_of_ne (hn target).symm _ _, rfl, rfl⟩
  by_cases hmn : m = n
  · simp [Disk.delete, hmn] at hm
  · simpa [Disk.delete, Function.update_of_ne hmn] using hm

theorem Removed.trans {d₁ d₂ d₃ : Disk} (h : Removed d₁ d₂) (h' : Removed d₂ d₃) :
    Removed d₁ d₃ :=
  ⟨fun n i hi => h.entry n i (h'.entry n i hi), fun t => (h'.part t).trans (h.part t),
    h'.data.trans h.data, h'.fresh.trans h.fresh⟩

theorem removed_by_cleanup (files : List Name) (d : Disk) : Removed d (cleanup files d) := by
  induction files generalizing d with
  | nil => exact ⟨fun _ _ h => h, fun _ => rfl, rfl, rfl⟩
  | cons n files ih =>
    simp only [cleanup, List.foldl_cons]
    split
    · rename_i hbin
      rw [Bool.and_eq_true] at hbin
      exact (Removed.delete (bin_ne_part hbin.1) d).trans (ih _)
    · exact ih d

theorem Removed.named {d d' : Disk} (h : Removed d d') (hn : Named d) : Named d' :=
  ⟨fun m n i hm hn' => hn.own m n i (h.entry m i hm) (h.entry n i hn'),
    fun n i hi => h.fresh ▸ hn.old n i (h.entry n i hi)⟩

/-- Everything that can happen in a folder: a step of a call, or names that go. -/
theorem step_cases {f f' : Folder} {e : Event} (h : step f e = some f') :
    (∃ target e' s, e = .fetch target e' ∧ ModelProvider.isModelName target = true ∧
      Download.step target (f.fetching target) e' = some s ∧
      f' = ⟨s.disk, Function.update f.calls target s.call⟩) ∨
    ((∀ target e', e ≠ .fetch target e') ∧ Removed f.disk f'.disk ∧ f'.calls = f.calls) := by
  cases e with
  | fetch target e' =>
    simp only [step] at h
    split at h
    · obtain ⟨s, hs, rfl⟩ := Option.map_eq_some_iff.mp h
      exact .inl ⟨target, e', s, rfl, ‹_›, hs, rfl⟩
    · simp at h
  | remove target =>
    simp only [step] at h
    split at h
    · obtain rfl := Option.some.inj h
      exact .inr ⟨by simp, .delete (model_ne_part ‹_›) f.disk, rfl⟩
    · simp at h
  | cleanup files =>
    obtain rfl := Option.some.inj h
    exact .inr ⟨by simp, removed_by_cleanup files f.disk, rfl⟩

/-- No file has two names, and each call writes to the `.part` file of its own model. -/
structure Tidy (f : Folder) : Prop where
  named : Named f.disk
  writes : ∀ target, ModelProvider.isModelName target = true → Writes target (f.fetching target)

theorem empty_tidy : Tidy empty :=
  ⟨⟨by simp [empty], by simp [empty]⟩, fun _ _ => writes_of_stopped rfl⟩

theorem fetch_touched {target : Name} {s s' : State} {e : Download.Event}
    (h : Download.step target s e = some s') (hn : Named s.disk) (hw : Writes target s) :
    Touched target s.disk s'.disk ∧ Named s'.disk ∧ Writes target s' := by
  unfold Download.step at h
  split at h
  · rename_i pc hpc
    exact touched_of_moves (stepPc_moves h) hpc hn hw
  · split at h
    · obtain rfl := Option.some.inj h
      exact ⟨.refl target _, hn, writes_of_running rfl (by simp [loopOf])⟩
    · simp at h

/-- What a step leaves of a model that it is not about. -/
structure Undisturbed (target : Name) (d d' : Disk) : Prop where
  part : d'.entry (partName target) = d.entry (partName target)
  whole : ∀ i, d'.entry target = some i → d.entry target = some i
  data : ∀ n i, n = partName target ∨ n = target → d.entry n = some i → d'.data i = d.data i

theorem Touched.undisturbed {t target : Name} {d d' : Disk} (h : Touched t d d') (hn : Named d)
    (ht : ModelProvider.isModelName t = true) (htarget : ModelProvider.isModelName target = true)
    (hne : target ≠ t) : Undisturbed target d d' := by
  have hp : partName target ≠ t := (model_ne_part ht target).symm
  have hpp : partName target ≠ partName t := fun he => hne (partName_injective he)
  have htp : target ≠ partName t := model_ne_part htarget t
  refine ⟨h.entry _ hp hpp, fun i hi => (h.entry _ hne htp).symm.trans hi, fun n i hni hi => ?_⟩
  refine h.data i (hn.old n i hi) fun hi' => ?_
  rcases hni with rfl | rfl
  · exact hpp (hn.own _ _ i hi hi')
  · exact htp (hn.own _ _ i hi hi')

theorem Removed.undisturbed {target : Name} {d d' : Disk} (h : Removed d d') :
    Undisturbed target d d' :=
  ⟨h.part target, fun i hi => h.entry _ i hi, fun _ i _ _ => by rw [h.data]⟩

theorem Undisturbed.content {target : Name} {d d' : Disk} (h : Undisturbed target d d') :
    d'.content (partName target) = d.content (partName target) := by
  unfold Disk.content
  rw [h.part]
  cases he : d.entry (partName target) with
  | none => rfl
  | some i => simp [h.data _ i (.inl rfl) he]

/-- A step that is not one of the call that fetches a model does not disturb it. -/
theorem step_undisturbed {target : Name} {f f' : Folder} {e : Event} (hf : Tidy f)
    (htarget : ModelProvider.isModelName target = true) (he : ∀ e', e ≠ .fetch target e')
    (h : step f e = some f') :
    Undisturbed target f.disk f'.disk ∧ f'.calls target = f.calls target := by
  obtain ⟨t, e', s, rfl, ht, hs, rfl⟩ | ⟨-, hr, hc⟩ := step_cases h
  · have hne : target ≠ t := fun hte => he e' (by rw [hte])
    obtain ⟨htouched, -, -⟩ := fetch_touched hs hf.named (hf.writes t ht)
    exact ⟨htouched.undisturbed hf.named ht htarget hne, Function.update_of_ne hne _ _⟩
  · exact ⟨hr.undisturbed, by rw [hc]⟩

theorem Undisturbed.writes {target : Name} {f f' : Folder}
    (h : Undisturbed target f.disk f'.disk) (hc : f'.calls target = f.calls target)
    (hw : Writes target (f.fetching target)) : Writes target (f'.fetching target) := by
  intro pc l hpc hl
  exact h.part.trans (hw pc l (hc.symm.trans hpc) hl)

theorem step_tidy {f f' : Folder} {e : Event} (hf : Tidy f) (h : step f e = some f') :
    Tidy f' := by
  constructor
  · obtain ⟨t, e', s, rfl, ht, hs, rfl⟩ | ⟨-, hr, hc⟩ := step_cases h
    · exact (fetch_touched hs hf.named (hf.writes t ht)).2.1
    · exact hr.named hf.named
  · intro target htarget
    by_cases he : ∀ e', e ≠ .fetch target e'
    · obtain ⟨hu, hc⟩ := step_undisturbed hf htarget he h
      exact hu.writes hc (hf.writes target htarget)
    · obtain ⟨e', rfl⟩ := not_forall_not.mp he
      obtain ⟨t, e'', s, heq, ht, hs, rfl⟩ | ⟨hno, -, -⟩ := step_cases h
      · obtain ⟨rfl, rfl⟩ : target = t ∧ e' = e'' := by simpa using heq
        have hw := (fetch_touched hs hf.named (hf.writes _ ht)).2.2
        intro pc l hpc hl
        exact hw pc l (by simpa [Folder.fetching] using hpc) hl
      · exact absurd rfl (hno target e')

/-- A file that stands under no `.part` name, and will not. -/
structure Sealed (i : Nat) (f : Folder) : Prop where
  old : i < f.disk.fresh
  apart : ∀ target, ModelProvider.isModelName target = true →
    f.disk.entry (partName target) ≠ some i

theorem Tidy.seals {f : Folder} (hf : Tidy f) {n : Name} {i : Nat}
    (hn : ModelProvider.isModelName n = true) (hi : f.disk.entry n = some i) : Sealed i f :=
  ⟨hf.named.old n i hi, fun target _ hp =>
    model_ne_part hn target (hf.named.own _ _ i hi hp)⟩

theorem step_sealed {f f' : Folder} {e : Event} {i : Nat} (hf : Tidy f) (hi : Sealed i f)
    (h : step f e = some f') : Sealed i f' ∧ f'.disk.data i = f.disk.data i := by
  obtain ⟨t, e', s, rfl, ht, hs, rfl⟩ | ⟨-, hr, -⟩ := step_cases h
  · obtain ⟨htouched, -, -⟩ := fetch_touched hs hf.named (hf.writes t ht)
    refine ⟨⟨Nat.lt_of_lt_of_le hi.old htouched.fresh, fun target htarget hp => ?_⟩,
      htouched.data i hi.old (hi.apart t ht)⟩
    by_cases htt : target = t
    · subst htt
      rcases htouched.part i hp with hold | rfl
      · exact hi.apart target ht hold
      · exact Nat.lt_irrefl _ hi.old
    · have hsame := (htouched.undisturbed hf.named ht htarget htt).part
      exact hi.apart target htarget (hsame.symm.trans hp)
  · refine ⟨⟨hr.fresh ▸ hi.old, fun target ht hp => ?_⟩, by rw [hr.data]⟩
    exact hi.apart target ht ((hr.part target).symm.trans hp)

abbrev Anyhow (_ : Folder) (_ : Event) : Prop := True

theorem run_tidy {f : Folder} (h : Run step Anyhow empty f) : Tidy f :=
  h.invariant (I := Tidy) (fun _ _ _ hf _ hst => step_tidy hf hst) empty_tidy

theorem run_sealed {f f' : Folder} {i : Nat} (hf : Tidy f) (hi : Sealed i f)
    (h : Run step Anyhow f f') : Sealed i f' ∧ f'.disk.data i = f.disk.data i := by
  have hkept := h.invariant
    (I := fun g => Tidy g ∧ Sealed i g ∧ g.disk.data i = f.disk.data i)
    (fun g e g' ⟨hg, hs, hd⟩ _ hst =>
      have hs' := step_sealed hg hs hst
      ⟨step_tidy hg hst, hs'.1, hs'.2.trans hd⟩) ⟨hf, hi, rfl⟩
  exact hkept.2

/-- A file that stood under the name of a model is not written again, whatever is fetched, removed
or cleaned up afterwards, whatever the servers answer, and wherever a call is killed. -/
theorem model_file_kept {f f' : Folder} {n : Name} {i : Nat} (h : Run step Anyhow empty f)
    (hn : ModelProvider.isModelName n = true) (hi : f.disk.entry n = some i)
    (h' : Run step Anyhow f f') : f'.disk.data i = f.disk.data i := by
  have hf := run_tidy h
  exact (run_sealed hf (hf.seals hn hi) h').2

/-- One fetch from its start to its end. -/
def fetchAll (target : Name) (b : Bytes) : List Event :=
  [.call, .go, .reply ⟨200, b.length, b⟩, .go, .cancelled false, .bytes b.length, .go,
    .cancelled false, .eof, .go, .renamed true].map (.fetch target)

def fetchedAll (target : Name) (b : Bytes) : Folder :=
  ((fetchAll target b).foldlM step empty).getD empty

/-- The model is removed while its file is read, and fetched again from a server that has another
one by now. -/
theorem model_file_kept_replaced : ∃ f f' i, Run step Anyhow empty f ∧ Run step Anyhow f f' ∧
    f.disk.entry (kt "m") = some i ∧ f.disk.data i = [7, 8] ∧
    f'.disk.content (kt "m") = some [9] ∧ f'.disk.data i = f.disk.data i := by
  have h : Steps step empty (fetchAll (kt "m") [7, 8]) (fetchedAll (kt "m") [7, 8]) :=
    steps_of_foldlM rfl
  have h' : Steps step (fetchedAll (kt "m") [7, 8])
      (.remove (kt "m") :: fetchAll (kt "m") [9]) _ := steps_of_foldlM rfl
  exact ⟨_, _, 0, replay_run h, replay_run h', by decide, by decide, by decide,
    model_file_kept (n := kt "m") (replay_run h) (by decide) (by decide) (replay_run h')⟩

section Whole
variable {R : Bytes} {target : Name} {d d' : Disk}

theorem Undisturbed.sound (h : Undisturbed target d d') (hs : Sound R target d) (hn : Named d') :
    Sound R target d' := by
  refine ⟨fun i hi => ?_, fun i hi => ?_, fun i hi ht => ?_, hn.old⟩
  · have hi' := h.part.symm.trans hi
    exact h.data _ i (.inl rfl) hi' ▸ hs.part i hi'
  · have hi' := h.whole i hi
    exact (h.data _ i (.inr rfl) hi').trans (hs.whole i hi')
  · exact hs.apart i (h.part.symm.trans hi) (h.whole i ht)

theorem Undisturbed.reading (h : Undisturbed target d d') {l : Loop} {read : Bytes}
    (hr : Reading R target d l read) : Reading R target d' l read := by
  have hd := h.data _ l.fd (.inl rfl) hr.fd
  exact ⟨h.part.trans hr.fd, by rw [hd]; exact hr.rest, by rw [hd]; exact hr.done,
    by rw [hd]; exact hr.offset, hr.total⟩

theorem Undisturbed.atPc (h : Undisturbed target d d') {pc : Pc} (hp : AtPc R target d pc) :
    AtPc R target d' pc := by
  have hc := h.content
  have hb : partBytes d' target = partBytes d target := by rw [partBytes, hc, partBytes]
  cases pc with
  | measuring => trivial
  | asking have_ => exact Eq.trans hp hb.symm
  | opening have_ r => exact ⟨hp.1.trans hb.symm, hp.2⟩
  | testing l | reading l | checking l | writing l chunk => exact h.reading hp
  | renameTo | deleting => exact hc.trans hp
  | renameAgain =>
    refine ⟨hc.trans hp.1, ?_⟩
    cases ht : d'.entry target with
    | none => rfl
    | some i => exact absurd (h.whole i ht) (by simp [hp.2])

end Whole

/-- Each model has a server that serves it. -/
def Serving (R : Name → Bytes) (f : Folder) : Event → Prop
  | .fetch target e => Serves (R target) (f.fetching target) e
  | _ => True

/-- For each model, the invariant of the call that fetches it. -/
structure Fetched (R : Name → Bytes) (f : Folder) : Prop where
  tidy : Tidy f
  inv : ∀ target, ModelProvider.isModelName target = true →
    Inv (R target) target (f.fetching target)

theorem step_fetched {R : Name → Bytes} {f f' : Folder} {e : Event} (hf : Fetched R f)
    (ha : Serving R f e) (h : step f e = some f') : Fetched R f' := by
  have htidy := step_tidy hf.tidy h
  refine ⟨htidy, fun target htarget => ?_⟩
  by_cases he : ∀ e', e ≠ .fetch target e'
  · obtain ⟨hu, hc⟩ := step_undisturbed hf.tidy htarget he h
    have hi := hf.inv target htarget
    exact ⟨hu.sound hi.sound htidy.named, fun pc hpc => hu.atPc (hi.atPc pc (hc.symm.trans hpc))⟩
  · obtain ⟨e', rfl⟩ := not_forall_not.mp he
    obtain ⟨t, e'', s, heq, ht, hs, rfl⟩ | ⟨hno, -, -⟩ := step_cases h
    · obtain ⟨rfl, rfl⟩ : target = t ∧ e' = e'' := by simpa using heq
      have hi := step_inv (hf.inv target htarget) ha hs
      refine ⟨hi.sound, fun pc hpc => hi.atPc pc ?_⟩
      simpa [Folder.fetching] using hpc
    · exact absurd rfl (hno target e')

theorem run_fetched {R : Name → Bytes} {f : Folder} (h : Run step (Serving R) empty f) :
    Fetched R f := by
  refine h.invariant (I := Fetched R) (fun _ _ _ hf ha hst => step_fetched hf ha hst) ?_
  exact ⟨empty_tidy, fun target _ => .stop ⟨by simp [empty, Folder.fetching],
    by simp [empty, Folder.fetching], by simp [empty, Folder.fetching],
    by simp [empty, Folder.fetching]⟩ rfl⟩

/-- Models fetched side by side, while others are removed or swept away: each name holds the whole
of its own model, each `.part` file a beginning of it, and what the call of one model has brought
down is not touched by anything that happens to the others. -/
theorem models_fetched_together (R : Name → Bytes) {f : Folder}
    (h : Run step (Serving R) empty f) {target : Name}
    (ht : ModelProvider.isModelName target = true) :
    (∀ b, f.disk.content target = some b → b = R target) ∧
    (∀ b, f.disk.content (partName target) = some b → b <+: R target) ∧
    (∀ e f', (∀ e', e ≠ .fetch target e') → step f e = some f' →
      f'.disk.content (partName target) = f.disk.content (partName target) ∧
      f'.calls target = f.calls target) := by
  have hf := run_fetched h
  obtain ⟨hpart, hwhole⟩ := (sound_iff.mp (hf.inv target ht).sound).content
  refine ⟨hwhole, hpart, fun e f' he hst => ?_⟩
  obtain ⟨hu, hc⟩ := step_undisturbed hf.tidy ht he hst
  exact ⟨hu.content, hc⟩

theorem serving_fetchAll (R : Name → Bytes) (target : Name) :
    ∀ e ∈ fetchAll target (R target), ∀ f, Serving R f e := by
  simp only [fetchAll, List.map_cons, List.map_nil, List.forall_mem_cons, Serving, Serves]
  simpa using fun _ _ _ => .full rfl rfl rfl

/-- Part of a fetch, as far as the first byte. -/
def halfFetch (target : Name) (b : Bytes) : List Event :=
  [.call, .go, .reply ⟨200, b.length, b⟩, .go, .cancelled false, .bytes 1, .go].map (.fetch target)

theorem serving_halfFetch (R : Name → Bytes) (target : Name) :
    ∀ e ∈ halfFetch target (R target), ∀ f, Serving R f e := by
  simp only [halfFetch, List.map_cons, List.map_nil, List.forall_mem_cons, Serving, Serves]
  simpa using fun _ _ _ => .full rfl rfl rfl

/-- Two models, and a run that fetches and removes one while the other is half fetched, and then
killed. -/
def served (n : Name) : Bytes := if n = kt "a" then [7, 8] else [9]

def sideBySide : List Event :=
  halfFetch (kt "a") (served (kt "a")) ++ (fetchAll (kt "b") (served (kt "b")) ++
    [.remove (kt "b"), .fetch (kt "a") .kill])

theorem models_fetched_together_killed : ∃ f, Run step (Serving served) empty f ∧
    f.disk.content (partName (kt "a")) = some [7] ∧ f.disk.content (kt "b") = none ∧
    (∀ b, f.disk.content (partName (kt "a")) = some b → b <+: [7, 8]) := by
  have ha : ∀ e ∈ sideBySide, ∀ f, Serving served f e := by
    simp only [sideBySide, List.forall_mem_append, List.forall_mem_cons]
    exact ⟨serving_halfFetch served (kt "a"), serving_fetchAll served (kt "b"),
      fun _ => trivial, fun _ => trivial, by simp⟩
  have hr : replay step (Serving served) empty sideBySide _ := replay_of_foldlM ha rfl
  exact ⟨_, replay_run hr, by decide, by decide,
    (models_fetched_together served (replay_run hr) (by decide)).2.1⟩

end ReadersSpeech.ModelFolder
