import ReadersSpeech.ModelFolder

/-! `Vad.modelPath`: the detector is unpacked from the assets once a version, by calls that come one
after another, in a process that may be killed between any two steps. The name carries the version:
`assets` says what each name stands for.
-/

set_option autoImplicit false

namespace ReadersSpeech.Vad
open Download ModelFolder Transition

/-- The buffer of `copyTo`. -/
def bufferSize : ℕ := 8 * 1024

/-- What the file system answered and nobody looks at: whether the renaming was done, and whether
the others were all listed and deleted. -/
structure Unread where
  placed : Bool
  swept : Bool
  deriving DecidableEq, Repr

inductive Pc where
  | testing
  | opening
  | creating
  | copying (fd done : ℕ)
  | renaming
  | listing (placed : Bool)
  | sweeping (names : List Name) (u : Unread)
  deriving DecidableEq

inductive Call where
  | idle
  | running (pc : Pc)
  | returned (path : Option Name) (u : Unread)
  deriving DecidableEq

/-- The folder, and the `FILE` of the version that is installed. -/
structure State where
  disk : Disk
  file : Name
  call : Call

/-- `broke` is a copy that fails with the last `n` bytes written; `upgrade` installs a version. -/
inductive Event where
  | call
  | go
  | asset (ok : Bool)
  | created (ok : Bool)
  | wrote (n : ℕ)
  | broke (n : ℕ)
  | copied
  | renamed (ok : Bool)
  | listed (names : Option (List Name))
  | deleted (ok : Bool)
  | kill
  | upgrade (file : Name)

section Step
variable (assets : Name → Bytes)

def returns (s : State) (path : Option Name) (u : Unread) : State :=
  { s with call := .returned path u }

def goes (s : State) (pc : Pc) : State := { s with call := .running pc }

def stepPc (s : State) : Pc → Event → Option State
  | .testing, .go =>
    some (if (s.disk.entry s.file).isSome then returns s (some s.file) ⟨true, false⟩
      else goes s .opening)
  | .opening, .asset ok => some (if ok then goes s .creating else returns s none ⟨false, false⟩)
  | .creating, .created ok =>
    if ok then
      let (fd, disk) := s.disk.openFile (partName s.file) false
      some (goes { s with disk } (.copying fd 0))
    else some (returns s none ⟨false, false⟩)
  | .copying fd done, .wrote n =>
    if 1 ≤ n ∧ n ≤ bufferSize ∧ done + n ≤ (assets s.file).length then
      some (goes { s with disk := s.disk.write fd done (((assets s.file).drop done).take n) }
        (.copying fd (done + n)))
    else none
  | .copying fd done, .broke n =>
    if n ≤ bufferSize ∧ done + n ≤ (assets s.file).length then
      some (returns { s with disk := s.disk.write fd done (((assets s.file).drop done).take n) }
        none ⟨false, false⟩)
    else none
  | .copying _ done, .copied =>
    if done = (assets s.file).length then some (goes s .renaming) else none
  | .renaming, .renamed true =>
    (s.disk.rename (partName s.file) s.file).map fun disk => goes { s with disk } (.listing true)
  | .renaming, .renamed false => some (goes s (.listing false))
  | .listing placed, .listed none => some (returns s (some s.file) ⟨placed, false⟩)
  | .listing placed, .listed (some names) =>
    some (goes s (.sweeping (names.filter (· != s.file)) ⟨placed, true⟩))
  | .sweeping [] u, .go => some (returns s (some s.file) u)
  | .sweeping (n :: names) u, .deleted ok =>
    some (goes { s with disk := if ok then s.disk.delete n else s.disk }
      (.sweeping names { u with swept := u.swept && ok }))
  | _, _ => none

def step (s : State) : Event → Option State
  | .kill => some { s with call := .idle }
  | .upgrade file => some { s with file, call := .idle }
  | e =>
    match s.call with
    | .running pc => stepPc assets s pc e
    | _ => match e with
      | .call => some (goes s .testing)
      | _ => none

end Step

/-- A listing shows everything that is there, and no version is called like what it is unpacked
into. -/
def Listing (s : State) : Event → Prop
  | .listed (some names) => ∀ n, s.disk.entry n ≠ none → n ∈ names
  | .upgrade file => ∀ n, file ≠ partName n
  | _ => True

def start (file : Name) : State := ⟨⟨fun _ => none, fun _ => [], 0⟩, file, .idle⟩

section Disk
variable {assets : Name → Bytes} {target : Name} {d d' : Disk}

/-- What only the `.part` file of `target` is touched by. -/
structure PartOnly (target : Name) (d d' : Disk) : Prop where
  entry : ∀ n, n ≠ partName target → d'.entry n = d.entry n
  data : ∀ i, i < d.fresh → d.entry (partName target) ≠ some i → d'.data i = d.data i

theorem PartOnly.openFile {fd : ℕ} (ho : d.openFile (partName target) false = (fd, d')) :
    PartOnly target d d' ∧ d'.entry (partName target) = some fd ∧ d'.data fd = [] := by
  obtain ⟨he, rfl⟩ | ⟨he, rfl, rfl⟩ := openFile_cases ho
  · exact ⟨⟨fun _ _ => rfl, fun i _ hi => Function.update_of_ne (by rintro rfl; exact hi he) _ _⟩,
      he, by simp⟩
  · exact ⟨⟨fun n hn => Function.update_of_ne hn _ _,
      fun i hi _ => Function.update_of_ne (Nat.ne_of_lt hi) _ _⟩, by simp, by simp⟩

theorem PartOnly.write {fd : ℕ} (hfd : d.entry (partName target) = some fd) (offset : ℕ)
    (chunk : Bytes) : PartOnly target d (d.write fd offset chunk) :=
  ⟨fun _ _ => rfl, fun _ _ hi => d.write_other chunk fun hif => hi (hif ▸ hfd)⟩

/-- What a version was unpacked into is its asset, and no file has two names. -/
structure Kept (assets : Name → Bytes) (d : Disk) : Prop where
  named : Named d
  whole : ∀ n i, (∀ m, n ≠ partName m) → d.entry n = some i → d.data i = assets n

theorem Kept.content (h : Kept assets d) {n : Name} (hn : ∀ m, n ≠ partName m)
    (he : (d.entry n).isSome) : d.content n = some (assets n) := by
  obtain ⟨i, hi⟩ := Option.isSome_iff_exists.mp he
  simp [Disk.content, hi, h.whole n i hn hi]

theorem Kept.partOnly (h : Kept assets d) (hp : PartOnly target d d') (hn : Named d') :
    Kept assets d' := by
  refine ⟨hn, fun n i hpart hi => ?_⟩
  have hi' : d.entry n = some i := (hp.entry n (hpart target)).symm.trans hi
  have hne : d.entry (partName target) ≠ some i :=
    fun he => hpart target (h.named.own _ _ i hi' he)
  rw [hp.data i (h.named.old n i hi') hne]
  exact h.whole n i hpart hi'

theorem Kept.rename (h : Kept assets d) (hr : d.rename (partName target) target = some d')
    (hc : d.content (partName target) = some (assets target)) :
    Kept assets d' ∧ d'.content target = some (assets target) := by
  have hnamed := h.named.rename hr
  obtain ⟨j, hj, rfl⟩ := rename_cases hr
  have hdata : d.data j = assets target := by simpa [Disk.content, hj] using hc
  refine ⟨⟨hnamed, fun n i hpart hi => ?_⟩, ?_⟩
  · simp only [Function.update_of_ne (hpart target)] at hi
    by_cases hn : n = target
    · subst hn
      simp only [Function.update_self, Option.some.injEq] at hi
      exact hi ▸ hdata
    · exact h.whole n i hpart (by simpa [Function.update_of_ne hn] using hi)
  · simp [Disk.content, (partName_ne target).symm, hdata]

theorem Kept.delete (h : Kept assets d) (n : Name) : Kept assets (d.delete n) := by
  refine ⟨h.named.delete n, fun m i hpart hi => h.whole m i hpart ?_⟩
  have hmn : m ≠ n := by rintro rfl; simp [Disk.delete] at hi
  simpa [Disk.delete, Function.update_of_ne hmn] using hi

theorem delete_content {n : Name} (hn : n ≠ target) :
    (d.delete n).content target = d.content target := by
  simp [Disk.content, Disk.delete, Function.update_of_ne hn.symm]

theorem write_next {fd done n : ℕ} {asset : Bytes} (hd : d.data fd = asset.take done)
    (hl : done ≤ asset.length) :
    (d.write fd done ((asset.drop done).take n)).data fd = asset.take (done + n) := by
  rw [d.write_end _ (by rw [hd, List.length_take_of_le hl]), hd, List.take_add]

end Disk

section Invariant
variable (assets : Name → Bytes) (file : Name) (d : Disk)

/-- What is known of the folder once the file has, or has not, been put in place. -/
structure Unpacked (left : List Name) (u : Unread) : Prop where
  placed : u.placed → d.content file = some (assets file)
  swept : u.swept → ∀ n, n ≠ file → d.entry n ≠ none → n ∈ left

def AtPc : Pc → Prop
  | .testing | .opening | .creating => True
  | .copying fd done => d.entry (partName file) = some fd ∧ d.data fd = (assets file).take done
  | .renaming => d.content (partName file) = some (assets file)
  | .listing placed => placed → d.content file = some (assets file)
  | .sweeping names u => file ∉ names ∧ Unpacked assets file d names u

def AtCall : Call → Prop
  | .idle | .returned none _ => True
  | .running pc => AtPc assets file d pc
  | .returned (some path) u => path = file ∧ Unpacked assets file d [] u

structure Inv (s : State) : Prop where
  kept : Kept assets s.disk
  current : ∀ n, s.file ≠ partName n
  atCall : AtCall assets s.file s.disk s.call

end Invariant

section Steps
variable {assets : Name → Bytes} {file : Name} {d : Disk} {s s' : State}

theorem Unpacked.delete {n : Name} {names : List Name} {u : Unread}
    (h : Unpacked assets file d (n :: names) u) (hn : n ≠ file) :
    Unpacked assets file (d.delete n) names u := by
  refine ⟨fun hp => (delete_content hn).trans (h.placed hp), fun hs m hm he => ?_⟩
  have hmn : m ≠ n := by rintro rfl; simp [Disk.delete] at he
  have hmem := h.swept hs m hm (by simpa [Disk.delete, Function.update_of_ne hmn] using he)
  exact (List.mem_cons.mp hmem).resolve_left hmn

theorem testing_inv {e : Event} (hi : Inv assets s) (h : stepPc assets s .testing e = some s') :
    Inv assets s' := by
  cases e with
  | go =>
    obtain rfl := Option.some.inj h
    split
    · rename_i hsome
      exact ⟨hi.kept, hi.current, rfl, fun _ => hi.kept.content hi.current hsome, by simp⟩
    · exact ⟨hi.kept, hi.current, trivial⟩
  | _ => cases h

theorem opening_inv {e : Event} (hi : Inv assets s) (h : stepPc assets s .opening e = some s') :
    Inv assets s' := by
  cases e with
  | asset ok =>
    obtain rfl := Option.some.inj h
    split <;> exact ⟨hi.kept, hi.current, trivial⟩
  | _ => cases h

theorem creating_inv {e : Event} (hi : Inv assets s) (h : stepPc assets s .creating e = some s') :
    Inv assets s' := by
  cases e with
  | created ok =>
    cases ok with
    | true =>
      obtain rfl := Option.some.inj h
      have ho : s.disk.openFile (partName s.file) false =
          s.disk.openFile (partName s.file) false := rfl
      obtain ⟨hp, hentry, hdata⟩ := PartOnly.openFile ho
      exact ⟨hi.kept.partOnly hp (hi.kept.named.openFile rfl), hi.current, hentry,
        hdata.trans List.take_zero.symm⟩
    | false =>
      obtain rfl := Option.some.inj h
      exact ⟨hi.kept, hi.current, trivial⟩
  | _ => cases h

theorem copying_inv {fd done : ℕ} {e : Event} (hi : Inv assets s)
    (hat : AtPc assets s.file s.disk (.copying fd done))
    (h : stepPc assets s (.copying fd done) e = some s') : Inv assets s' := by
  have hwrite : ∀ n, Kept assets (s.disk.write fd done (((assets s.file).drop done).take n)) :=
    fun n => hi.kept.partOnly (PartOnly.write hat.1 done _) (hi.kept.named.write _ _ _)
  cases e with
  | wrote n =>
    obtain ⟨hn, h⟩ := Option.ite_none_right_eq_some.mp h
    obtain rfl := Option.some.inj h
    exact ⟨hwrite n, hi.current, hat.1, write_next hat.2 (by omega)⟩
  | broke n =>
    obtain ⟨-, h⟩ := Option.ite_none_right_eq_some.mp h
    obtain rfl := Option.some.inj h
    exact ⟨hwrite n, hi.current, trivial⟩
  | copied =>
    obtain ⟨hdone, h⟩ := Option.ite_none_right_eq_some.mp h
    obtain rfl := Option.some.inj h
    refine ⟨hi.kept, hi.current, ?_⟩
    simp [goes, AtCall, AtPc, Disk.content, hat.1, hat.2, hdone]
  | _ => cases h

theorem renaming_inv {e : Event} (hi : Inv assets s) (hat : AtPc assets s.file s.disk .renaming)
    (h : stepPc assets s .renaming e = some s') : Inv assets s' := by
  cases e with
  | renamed ok =>
    cases ok with
    | true =>
      obtain ⟨d', hr, rfl⟩ := Option.map_eq_some_iff.mp h
      obtain ⟨hk, hc⟩ := hi.kept.rename hr hat
      exact ⟨hk, hi.current, fun _ => hc⟩
    | false =>
      obtain rfl := Option.some.inj h
      exact ⟨hi.kept, hi.current, by simp [goes, AtCall, AtPc]⟩
  | _ => cases h

theorem listing_inv {placed : Bool} {e : Event} (hi : Inv assets s)
    (hat : AtPc assets s.file s.disk (.listing placed)) (ha : Listing s e)
    (h : stepPc assets s (.listing placed) e = some s') : Inv assets s' := by
  cases e with
  | listed names =>
    cases names with
    | none =>
      obtain rfl := Option.some.inj h
      exact ⟨hi.kept, hi.current, rfl, hat, by simp⟩
    | some names =>
      obtain rfl := Option.some.inj h
      refine ⟨hi.kept, hi.current, by simp [goes], hat, fun _ n hn he => ?_⟩
      exact List.mem_filter.mpr ⟨ha n he, by simpa [goes] using hn⟩
  | _ => cases h

theorem sweeping_inv {names : List Name} {u : Unread} {e : Event} (hi : Inv assets s)
    (hat : AtPc assets s.file s.disk (.sweeping names u))
    (h : stepPc assets s (.sweeping names u) e = some s') : Inv assets s' := by
  obtain ⟨hnot, hu⟩ := hat
  cases names with
  | nil =>
    cases e with
    | go =>
      obtain rfl := Option.some.inj h
      exact ⟨hi.kept, hi.current, rfl, hu⟩
    | _ => cases h
  | cons n names =>
    have hn : n ≠ s.file := by rintro rfl; simp at hnot
    have hnot' : s.file ∉ names := fun hm => hnot (by simp [hm])
    cases e with
    | deleted ok =>
      obtain rfl := Option.some.inj h
      cases ok with
      | true =>
        have hu' := hu.delete hn
        exact ⟨hi.kept.delete n, hi.current, hnot', hu'.placed,
          fun hs => hu'.swept (by simpa using hs)⟩
      | false => exact ⟨hi.kept, hi.current, hnot', hu.placed, by simp⟩
    | _ => cases h

theorem stepPc_inv {pc : Pc} {e : Event} (hi : Inv assets s) (hpc : s.call = .running pc)
    (ha : Listing s e) (h : stepPc assets s pc e = some s') : Inv assets s' := by
  have hat := hi.atCall
  rw [hpc] at hat
  cases pc with
  | testing => exact testing_inv hi h
  | opening => exact opening_inv hi h
  | creating => exact creating_inv hi h
  | copying fd done => exact copying_inv hi hat h
  | «renaming» => exact renaming_inv hi hat h
  | listing placed => exact listing_inv hi hat ha h
  | sweeping names u => exact sweeping_inv hi hat h

theorem step_inv {e : Event} (hi : Inv assets s) (ha : Listing s e)
    (h : step assets s e = some s') : Inv assets s' := by
  unfold step at h
  split at h
  · obtain rfl := Option.some.inj h
    exact ⟨hi.kept, hi.current, trivial⟩
  · obtain rfl := Option.some.inj h
    exact ⟨hi.kept, ha, trivial⟩
  · split at h
    · exact stepPc_inv hi ‹_› ha h
    · split at h
      · obtain rfl := Option.some.inj h
        exact ⟨hi.kept, hi.current, trivial⟩
      · simp at h

theorem start_inv (assets : Name → Bytes) (hf : ∀ n, file ≠ partName n) :
    Inv assets (start file) :=
  ⟨⟨⟨by simp [start], by simp [start]⟩, by simp [start]⟩, hf, trivial⟩

/-- Whatever calls were killed, failed or made before an upgrade: a detector in the folder is the
whole asset of its version, and a call gives nothing or the name of the version installed, whose
file is there unless its renaming failed and is alone there once the sweep has done its work. -/
theorem detector_whole (h : Run (step assets) Listing (start file) s)
    (hf : ∀ n, file ≠ partName n) :
    (∀ n b, (∀ m, n ≠ partName m) → s.disk.content n = some b → b = assets n) ∧
    (∀ path u, s.call = .returned (some path) u → path = s.file ∧
      (u.placed → s.disk.content path = some (assets path)) ∧
      (u.swept → ∀ n, n ≠ path → s.disk.entry n = none)) := by
  have hi := h.invariant (I := Inv assets) (fun _ _ _ hi ha hst => step_inv hi ha hst)
    (start_inv assets hf)
  constructor
  · intro n b hn hb
    obtain ⟨i, he, rfl⟩ := Option.map_eq_some_iff.mp hb
    exact hi.kept.whole n i hn he
  · intro path u hc
    have hat := hi.atCall
    rw [hc] at hat
    obtain ⟨rfl, hu⟩ := hat
    refine ⟨rfl, hu.placed, fun hs n hn => ?_⟩
    by_contra he
    simpa using hu.swept hs n hn he

end Steps

/-- Two versions of the detector. -/
def shipped (n : Name) : Bytes := if n = kt "v1.bin" then [7, 8] else [9]

/-- A call, as far as the listing. -/
def copies (n : Name) : List Event :=
  [.call, .go, .asset true, .created true, .wrote (shipped n).length, .copied, .renamed true]

def after (s : State) (es : List Event) : State := (es.foldlM (step shipped) s).getD s

def first : State := after (start (kt "v1.bin")) (copies (kt "v1.bin"))

/-- The first version is in place; the second is killed over its copy, and called again. -/
def upgraded : List Event :=
  [.go, .upgrade (kt "v2.bin"), .call, .go, .asset true,
    .created true, .wrote 1, .kill] ++ copies (kt "v2.bin")

def second : State := after first (.listed (some [kt "v1.bin"]) :: upgraded)

theorem first_listed : Listing first (.listed (some [kt "v1.bin"])) := by
  have he : first.disk.entry = Function.update (Function.update (Function.update (fun _ => none)
      (partName (kt "v1.bin")) (some 0)) (kt "v1.bin") (some 0)) (partName (kt "v1.bin")) none :=
    rfl
  intro n hn
  rw [he] at hn
  simp only [Function.update_apply] at hn
  split at hn <;> simp_all

theorem second_listed : Listing second (.listed (some [kt "v1.bin", kt "v2.bin"])) := by
  have he : second.disk.entry = Function.update (Function.update (Function.update
      first.disk.entry (partName (kt "v2.bin")) (some 1)) (kt "v2.bin") (some 1))
      (partName (kt "v2.bin")) none := rfl
  intro n hn
  rw [he] at hn
  simp only [Function.update_apply] at hn
  split at hn
  · exact absurd rfl hn
  · split at hn
    · simp [*]
    · have hv : n ∈ [kt "v1.bin"] := first_listed n hn
      simpa using .inl (by simpa using hv)

theorem detector_whole_upgraded : ∃ s, Run (step shipped) Listing (start (kt "v1.bin")) s ∧
    s.call = .returned (some (kt "v2.bin")) ⟨true, true⟩ ∧
    s.disk.content (kt "v2.bin") = some [9] ∧
    ∀ n, n ≠ kt "v2.bin" → s.disk.entry n = none := by
  have hv : ∀ v ∈ [kt "v1.bin", kt "v2.bin"], ∀ n, v ≠ partName n := by
    simpa using ⟨bin_ne_part rfl, bin_ne_part rfl⟩
  have h₁ : replay (step shipped) Listing (start (kt "v1.bin")) (copies (kt "v1.bin")) first :=
    replay_of_foldlM (by simp [copies, Listing]) rfl
  have h₂ : replay (step shipped) Listing first (.listed (some [kt "v1.bin"]) :: upgraded)
      second :=
    ⟨first_listed, _, rfl, replay_of_foldlM
      (by simpa [upgraded, copies, Listing] using fun _ : State => hv (kt "v2.bin") (by simp)) rfl⟩
  have h₃ : replay (step shipped) Listing second
      [.listed (some [kt "v1.bin", kt "v2.bin"]), .deleted true, .go] _ :=
    ⟨second_listed, _, rfl, trivial, _, rfl, trivial, _, rfl, rfl⟩
  have hr := ((replay_run h₁).trans (replay_run h₂)).trans (replay_run h₃)
  obtain ⟨-, hp, hs⟩ := (detector_whole hr (hv _ (by simp))).2 (kt "v2.bin") ⟨true, true⟩ rfl
  exact ⟨_, hr, rfl, hp rfl, hs rfl⟩

end ReadersSpeech.Vad
