import ReadersSpeech.DownloadFiles

/-! What a disk can hold after any number of `fetch` calls, each stopped anywhere. The invariant
ties the counter of the loop to the file on disk, and both to the resource being served.
-/

set_option autoImplicit false

namespace ReadersSpeech.Download
open Transition

variable {R : Bytes} {target : Name} {d : Disk}

/-- What is on disk between two steps: a part of `R` under the `.part` name, all of `R` under the
target's, in different files. -/
structure Sound (R : Bytes) (target : Name) (d : Disk) : Prop where
  part : ∀ i, d.entry (partName target) = some i → d.data i <+: R
  whole : ∀ i, d.entry target = some i → d.data i = R
  apart : ∀ i, d.entry (partName target) = some i → d.entry target ≠ some i
  old : ∀ n i, d.entry n = some i → i < d.fresh

theorem sound_iff : Sound R target d ↔ Files (· <+: R) (· = R) target d :=
  ⟨fun h => ⟨h.part, h.whole, h.apart, h.old⟩, fun h => ⟨h.part, h.whole, h.apart, h.old⟩⟩

theorem Sound.rename (h : Sound R target d) {d' : Disk}
    (hr : d.rename (partName target) target = some d')
    (hc : d.content (partName target) = some R) :
    Sound R target d' ∧ d'.entry (partName target) = none ∧ d'.content target = some R := by
  obtain ⟨hf, he, ht⟩ := (sound_iff.mp h).rename hr fun b hb => by simpa [hc] using hb.symm
  exact ⟨sound_iff.mpr hf, he, ht.trans hc⟩

theorem Sound.part_prefix (h : Sound R target d) :
    (d.content (partName target)).getD [] <+: R := by
  cases he : d.entry (partName target) with
  | none => simp [Disk.content, he]
  | some i => simpa [Disk.content, he] using h.part i he

theorem Sound.partBytes_le (h : Sound R target d) : partBytes d target ≤ R.length :=
  h.part_prefix.length_le

/-- An answer to the request for the bytes from `have_` on, by a server whose resource is `R`. -/
inductive Answers (R : Bytes) (have_ : Nat) (r : Response) : Prop
  | partial_ : r.status = 206 → r.body = R.drop have_ → r.contentLength = r.body.length →
      Answers R have_ r
  | full : r.status = 200 → r.body = R → r.contentLength = R.length → Answers R have_ r
  | error : 400 ≤ r.status → Answers R have_ r

def Serves (R : Bytes) (s : State) : Event → Prop
  | .reply r => ∀ have_, s.call = .running (.asking have_) → Answers R have_ r
  | _ => True

/-- Inside the loop: what is on disk, what was read and what is still to come make up `R`, the
counter is the length of the file, and the declared total is the length of `R`. -/
structure Reading (R : Bytes) (target : Name) (d : Disk) (l : Loop) (read : Bytes) : Prop where
  fd : d.entry (partName target) = some l.fd
  rest : d.data l.fd ++ read ++ l.body = R
  done : l.done = (d.data l.fd).length
  offset : l.resuming = false → l.offset = (d.data l.fd).length
  total : l.total = R.length ∨ (l.total ≤ 0 ∧ read = [] ∧ l.body = [])

def AtPc (R : Bytes) (target : Name) (d : Disk) : Pc → Prop
  | .measuring => True
  | .asking have_ => have_ = partBytes d target
  | .opening have_ r => have_ = partBytes d target ∧ r.status < 400 ∧ Answers R have_ r
  | .testing l | .reading l | .checking l => Reading R target d l []
  | .writing l chunk => Reading R target d l chunk
  | .renameTo | .deleting => d.content (partName target) = some R
  | .renameAgain => d.content (partName target) = some R ∧ d.entry target = none

structure Inv (R : Bytes) (target : Name) (s : State) : Prop where
  sound : Sound R target s.disk
  atPc : ∀ pc, s.call = .running pc → AtPc R target s.disk pc

/-- With the file just opened, what is on disk and what the answer declares add up to `R`. -/
theorem openLoop_start {have_ : Nat} {r : Response} {fd : Nat} {d' : Disk}
    (hpre : r.status = 206 → (d.content (partName target)).getD [] <+: R)
    (hh : have_ = partBytes d target) (hlt : r.status < 400) (ha : Answers R have_ r)
    (hd : d'.data fd =
      if r.status == 206 then (d.content (partName target)).getD [] else []) :
    d'.data fd ++ r.body = R ∧ (openLoop fd have_ r).done = (d'.data fd).length ∧
      r.contentLength = r.body.length := by
  cases ha with
  | error herr => omega
  | full h200 hb hc => simp [hd, openLoop, h200, hb, hc]
  | partial_ h206 hb hc =>
    simp only [h206, beq_self_eq_true, if_true] at hd
    refine ⟨?_, ?_, hc⟩
    · obtain ⟨rest, rfl⟩ := hpre h206
      rw [hb, hh, partBytes, hd, List.drop_left]
    · simp [openLoop, h206, hd, hh, partBytes]

theorem openLoop_reading {have_ : Nat} {r : Response} {fd : Nat} {d' : Disk}
    (hpre : r.status = 206 → (d.content (partName target)).getD [] <+: R)
    (hh : have_ = partBytes d target) (hlt : r.status < 400) (ha : Answers R have_ r)
    (he : d'.entry (partName target) = some fd)
    (hd : d'.data fd =
      if r.status == 206 then (d.content (partName target)).getD [] else []) :
    Reading R target d' (openLoop fd have_ r) [] := by
  obtain ⟨hR, hdone, hc⟩ := openLoop_start hpre hh hlt ha hd
  refine ⟨he, by simpa [openLoop] using hR, hdone, ?_, ?_⟩
  · intro hr
    have hst : (r.status == 206) = false := hr
    simp [hd, hst, openLoop]
  · have hlen := congrArg List.length hR
    simp only [List.length_append, ← hdone] at hlen
    cases hb : r.body with
    | nil => right; simp [openLoop, hc, hb]
    | cons b rest =>
      left
      have hpos : 0 < r.contentLength := by simp [hc, hb]
      simp only [openLoop, hpos, if_true] at hlen ⊢
      omega

theorem Reading.read {l : Loop} (hr : Reading R target d l []) (n : Nat) :
    Reading R target d { l with body := l.body.drop n } (l.body.take n) := by
  refine ⟨hr.fd, by simpa using hr.rest, hr.done, hr.offset, ?_⟩
  rcases hr.total with ht | ⟨ht, -, hb⟩
  · exact .inl ht
  · exact .inr ⟨ht, by simp [hb], by simp [hb]⟩

theorem Reading.writeAt_data {l : Loop} {chunk : Bytes} (hr : Reading R target d l chunk)
    (n : Nat) : (writeAt d l (chunk.take n)).data l.fd = d.data l.fd ++ chunk.take n := by
  refine d.write_end _ ?_
  cases hl : l.resuming with
  | true => simp
  | false => simpa using hr.offset hl

theorem Reading.written_prefix {l : Loop} {chunk : Bytes} (hr : Reading R target d l chunk)
    (n : Nat) : d.data l.fd ++ chunk.take n <+: R := by
  rw [← hr.rest]
  simp only [List.append_assoc]
  exact (List.prefix_append_right_inj _).mpr ((List.take_prefix n chunk).trans
    (List.prefix_append _ _))

/-- A write goes to the `.part` file only, which the target is not. -/
theorem Reading.writeAt_files {P W : Bytes → Prop} {l : Loop} {chunk : Bytes}
    (hr : Reading R target d l chunk) (h : Files P W target d) (n : Nat)
    (hP : P (d.data l.fd ++ chunk.take n)) : Files P W target (writeAt d l (chunk.take n)) := by
  have hw := hr.writeAt_data n
  refine h.write (fun _ => ?_) fun ht => absurd ht (h.apart _ hr.fd)
  rw [← writeAt, hw]
  exact hP

theorem Sound.writeAt (h : Sound R target d) {l : Loop} {chunk : Bytes}
    (hr : Reading R target d l chunk) (n : Nat) : Sound R target (writeAt d l (chunk.take n)) :=
  sound_iff.mpr (hr.writeAt_files (sound_iff.mp h) n (hr.written_prefix n))

theorem wrote_reading {l : Loop} {chunk : Bytes} (hr : Reading R target d l chunk) (last : Int) :
    Reading R target (writeAt d l chunk) { wrote l chunk with last } [] := by
  have hd : (writeAt d l chunk).data l.fd = d.data l.fd ++ chunk := by
    simpa using hr.writeAt_data chunk.length
  refine ⟨hr.fd, ?_, ?_, ?_, ?_⟩
  · simpa [wrote, hd] using hr.rest
  · simp [wrote, hd, hr.done]
  · intro hl
    simp [wrote, hd, hr.offset hl]
  · rcases hr.total with ht | ⟨ht, -, hb⟩
    · exact .inl ht
    · exact .inr ⟨ht, rfl, hb⟩

/-- The completeness test lets through exactly the whole resource. -/
theorem Reading.complete_iff {l : Loop} (hr : Reading R target d l []) :
    (0 < l.total ∧ (l.done : Int) ≠ l.total) ↔ d.content (partName target) ≠ some R := by
  have hrest : d.data l.fd ++ l.body = R := by simpa using hr.rest
  have hlen := congrArg List.length hrest
  simp only [List.length_append] at hlen
  have hc : d.content (partName target) = some (d.data l.fd) := by simp [Disk.content, hr.fd]
  have hiff : d.data l.fd = R ↔ l.body = [] := by
    constructor
    · intro h; rw [h] at hrest; simpa using hrest
    · intro h; rw [h] at hrest; simpa using hrest
  rw [hc, ne_eq, ne_eq, Option.some_inj, hiff, hr.done]
  rcases hr.total with ht | ⟨ht, -, hb⟩
  · rw [ht, ← List.length_eq_zero_iff]
    omega
  · simp [hb]; omega

/-- Everything a running call can do, one constructor for each way on. -/
inductive Moves (target : Name) (s : State) : Pc → Event → State → Prop
  | measured : Moves target s .measuring .go
      { s with call := .running (.asking (partBytes s.disk target)) }
  | refused {have_ : Nat} {r : Response} : 400 ≤ r.status →
      Moves target s (.asking have_) (.reply r) { s with call := .threw (.http r.status) }
  | answered {have_ : Nat} {r : Response} : r.status < 400 →
      Moves target s (.asking have_) (.reply r) { s with call := .running (.opening have_ r) }
  | unreachable {have_ : Nat} : Moves target s (.asking have_) .unreachable
      { s with call := .threw .io }
  | opened {have_ : Nat} {r : Response} {fd : Nat} {disk : Disk} :
      s.disk.openFile (partName target) (r.status == 206) = (fd, disk) →
      Moves target s (.opening have_ r) .go
        { s with disk, call := .running (.testing (openLoop fd have_ r)) }
  | stopped {l : Loop} : Moves target s (.testing l) (.cancelled true) { s with call := .returned }
  | goesOn {l : Loop} : Moves target s (.testing l) (.cancelled false)
      { s with call := .running (.reading l) }
  | read {l : Loop} {n : Nat} : 1 ≤ n → n ≤ bufferSize → n ≤ l.body.length →
      Moves target s (.reading l) (.bytes n)
        { s with call := .running (.writing { l with body := l.body.drop n } (l.body.take n)) }
  | ended {l : Loop} : Moves target s (.reading l) .eof { s with call := .running (.checking l) }
  | broke {l : Loop} : Moves target s (.reading l) .broken { s with call := .threw .io }
  | appended {l : Loop} {chunk : Bytes} : Moves target s (.writing l chunk) .go {
      disk := writeAt s.disk l chunk
      call := .running (.testing { wrote l chunk with last := percent (wrote l chunk) })
      shown := if percent (wrote l chunk) = l.last then s.shown
        else s.shown ++ [percent (wrote l chunk)] }
  | filled {l : Loop} {chunk : Bytes} {n : Nat} : Moves target s (.writing l chunk) (.full n)
      { s with disk := writeAt s.disk l (chunk.take n), call := .threw .io }
  | short {l : Loop} : 0 < l.total ∧ (l.done : Int) ≠ l.total →
      Moves target s (.checking l) .go { s with call := .threw .cutShort }
  | complete {l : Loop} : ¬ (0 < l.total ∧ (l.done : Int) ≠ l.total) →
      Moves target s (.checking l) .go { s with call := .running .renameTo }
  | placed {disk : Disk} : s.disk.rename (partName target) target = some disk →
      Moves target s .renameTo (.renamed true) { s with disk, call := .returned }
  | placedAgain {disk : Disk} : s.disk.rename (partName target) target = some disk →
      Moves target s .renameAgain (.renamed true) { s with disk, call := .returned }
  | occupied : Moves target s .renameTo (.renamed false) { s with call := .running .deleting }
  | cleared : Moves target s .deleting .go
      { s with disk := s.disk.delete target, call := .running .renameAgain }
  | left : Moves target s .renameAgain (.renamed false) { s with call := .returned }
  | killed {pc : Pc} : Moves target s pc .kill { s with call := .idle }

theorem stepPc_moves {s s' : State} {pc : Pc} {e : Event} (h : stepPc target s pc e = some s') :
    Moves target s pc e s' := by
  unfold stepPc at h
  split at h
  case h_2 =>
    split at h
    · obtain rfl := Option.some.inj h; exact .refused ‹_›
    · obtain rfl := Option.some.inj h; exact .answered (by omega)
  case h_4 => obtain rfl := Option.some.inj h; exact .opened rfl
  case h_5 l b =>
    obtain rfl := Option.some.inj h
    cases b with
    | true => exact .stopped
    | false => exact .goesOn
  case h_6 =>
    split at h
    · rename_i hn
      obtain rfl := Option.some.inj h
      exact .read hn.1 hn.2.1 hn.2.2
    · simp at h
  case h_11 =>
    split at h
    · obtain rfl := Option.some.inj h; exact .short ‹_›
    · obtain rfl := Option.some.inj h; exact .complete ‹_›
  case h_12 =>
    obtain ⟨d', hr, rfl⟩ := Option.map_eq_some_iff.mp h
    exact .placed hr
  case h_15 =>
    obtain ⟨d', hr, rfl⟩ := Option.map_eq_some_iff.mp h
    exact .placedAgain hr
  case h_18 => simp at h
  all_goals obtain rfl := Option.some.inj h; constructor

theorem Inv.stop {s : State} (h : Sound R target s.disk) (hc : s.call.busy = false) :
    Inv R target s := by
  refine ⟨h, fun pc hpc => ?_⟩
  simp [hpc, Call.busy] at hc

theorem Inv.go {s : State} {pc : Pc} (h : Sound R target s.disk) (hc : s.call = .running pc)
    (hp : AtPc R target s.disk pc) : Inv R target s := by
  refine ⟨h, fun pc' hpc' => ?_⟩
  obtain rfl : pc = pc' := by simpa [hc] using hpc'
  exact hp

theorem Moves.inv {s s' : State} {pc : Pc} {e : Event} (h : Moves target s pc e s')
    (hi : Inv R target s) (hpc : s.call = .running pc) (ha : Serves R s e) :
    Inv R target s' := by
  have hs := hi.sound
  have hat := hi.atPc pc hpc
  cases h with
  | measured => exact .go hs rfl rfl
  | refused _ | unreachable | stopped | broke | short _ | left | killed => exact .stop hs rfl
  | answered hlt => exact .go hs rfl ⟨hat, hlt, ha _ hpc⟩
  | opened ho =>
    obtain ⟨hf, he, hd⟩ := (sound_iff.mp hs).openFile List.nil_prefix _ ho
    exact .go (sound_iff.mpr hf) rfl
      (openLoop_reading (fun _ => hs.part_prefix) hat.1 hat.2.1 hat.2.2 he hd)
  | goesOn | ended => exact .go hs rfl hat
  | @read l n _ _ _ =>
    have hr : Reading R target s.disk l [] := hat
    exact .go hs rfl (hr.read n)
  | @appended l chunk =>
    have hr : Reading R target s.disk l chunk := hat
    have hs' := hs.writeAt hr chunk.length
    rw [List.take_length] at hs'
    exact .go hs' rfl (wrote_reading hr _)
  | @filled l chunk n =>
    have hr : Reading R target s.disk l chunk := hat
    exact .stop (hs.writeAt hr n) rfl
  | complete hn =>
    have hr : Reading R target s.disk _ [] := hat
    refine .go hs rfl ?_
    by_contra hne
    exact hn (hr.complete_iff.mpr hne)
  | placed hren => exact .stop (hs.rename hren hat).1 rfl
  | placedAgain hren => exact .stop (hs.rename hren hat.1).1 rfl
  | occupied => exact .go hs rfl hat
  | cleared =>
    have hc : s.disk.content (partName target) = some R := hat
    refine .go (sound_iff.mpr (sound_iff.mp hs).delete) rfl ⟨?_, by simp [Disk.delete]⟩
    simpa [Disk.delete, Disk.content, Function.update_of_ne (partName_ne target)] using hc

theorem step_inv {s s' : State} {e : Event} (hi : Inv R target s) (ha : Serves R s e)
    (h : step target s e = some s') : Inv R target s' := by
  unfold step at h
  split at h
  · rename_i pc hpc
    exact (stepPc_moves h).inv hi hpc ha
  · split at h
    · obtain rfl := Option.some.inj h
      exact .go hi.sound rfl trivial
    · simp at h

/-- No call is running, and the folder knows neither the target nor its `.part`. -/
structure Clean (target : Name) (s : State) : Prop where
  quiet : s.call.busy = false
  noPart : s.disk.entry (partName target) = none
  noTarget : s.disk.entry target = none
  old : ∀ n i, s.disk.entry n = some i → i < s.disk.fresh

theorem Clean.inv {s : State} (h : Clean target s) : Inv R target s :=
  .stop ⟨by simp [h.noPart], by simp [h.noTarget], by simp [h.noPart], h.old⟩ h.quiet

theorem run_inv {s s' : State} (hc : Clean target s)
    (h : Run (step target) (Serves R) s s') : Inv R target s' :=
  h.invariant (I := Inv R target) (fun _ _ _ hi ha hst => step_inv hi ha hst) hc.inv

def partContent (d : Disk) (target : Name) : Bytes := (d.content (partName target)).getD []

/-- From one step to the next the `.part` file only grows, unless it becomes the target or a
whole new answer (200) makes it worthless. -/
inductive Grows (target : Name) (s s' : State) : Prop
  | longer : partContent s.disk target <+: partContent s'.disk target → Grows target s s'
  | placed : s'.disk.content (partName target) = none →
      s'.disk.content target = s.disk.content (partName target) → Grows target s s'
  | startedOver (have_ : Nat) (r : Response) : s.call = .running (.opening have_ r) →
      r.status = 200 → Grows target s s'

theorem Moves.grows {s s' : State} {pc : Pc} {e : Event} (h : Moves target s pc e s')
    (hi : Inv R target s) (hpc : s.call = .running pc) : Grows target s s' := by
  have hs := hi.sound
  have hat := hi.atPc pc hpc
  have hwrite : ∀ l chunk n, Reading R target s.disk l chunk →
      partContent s.disk target <+: partContent (writeAt s.disk l (chunk.take n)) target := by
    intro l chunk n hr
    have he : (writeAt s.disk l (chunk.take n)).entry = s.disk.entry := rfl
    simp [partContent, Disk.content, he, hr.fd, hr.writeAt_data n]
  cases h with
  | @opened have_ r fd disk ho =>
    obtain ⟨-, hlt, ha⟩ := hat
    cases ha with
    | error herr => omega
    | full h200 _ _ => exact .startedOver have_ r hpc h200
    | partial_ h206 _ _ =>
      obtain ⟨-, he, hd⟩ := (sound_iff.mp hs).openFile List.nil_prefix _ ho
      rw [h206] at hd
      refine .longer ?_
      simp only [partContent]
      rw [Disk.content, Disk.content, he]
      simp only [Option.map_some, Option.getD_some]
      rw [hd]
      simp [Disk.content]
  | @appended l chunk =>
    have h := hwrite l chunk chunk.length hat
    rw [List.take_length] at h
    exact .longer h
  | @filled l chunk n => exact .longer (hwrite l chunk n hat)
  | placed hren =>
    have hc : s.disk.content (partName target) = some R := hat
    obtain ⟨-, he, ht⟩ := hs.rename hren hc
    exact .placed (by simp [Disk.content, he]) (ht.trans hc.symm)
  | placedAgain hren =>
    obtain ⟨-, he, ht⟩ := hs.rename hren hat.1
    exact .placed (by simp [Disk.content, he]) (ht.trans hat.1.symm)
  | cleared =>
    refine .longer ?_
    simp [partContent, Disk.delete, Disk.content, Function.update_of_ne (partName_ne target)]
  | _ => exact .longer (List.prefix_refl _)

theorem step_grows {s s' : State} {e : Event} (hi : Inv R target s)
    (h : step target s e = some s') : Grows target s s' := by
  unfold step at h
  split at h
  · rename_i pc hpc
    exact (stepPc_moves h).grows hi hpc
  · split at h
    · obtain rfl := Option.some.inj h
      exact .longer (List.prefix_refl _)
    · simp at h

theorem openFile_content {allowed : Bool} {mode : Str} {name : Name} {b : Bytes}
    (h : ModelProvider.openFile allowed mode (some name) d = some b) : d.content name = some b := by
  unfold ModelProvider.openFile at h
  split at h
  · simp at h
  · obtain ⟨n, hn, hb⟩ := Option.bind_eq_some_iff.mp h
    obtain rfl := Option.some.inj (Option.filter_eq_some_iff.mp hn).1
    exact hb

theorem openFile_part (allowed : Bool) (mode : Str) (target : Name) (d : Disk) :
    ModelProvider.openFile allowed mode (some (partName target)) d = none := by
  have hsuf : (kt ".part").isSuffixOf (partName target) = true := by
    rw [List.isSuffixOf_iff_suffix]
    exact List.suffix_append target _
  simp [ModelProvider.openFile, Option.filter, ModelProvider.isModelName, hsuf]

def fresh : State := ⟨⟨fun _ => none, fun _ => [], 0⟩, .idle, []⟩

theorem fresh_clean (target : Name) : Clean target fresh := ⟨rfl, rfl, rfl, by simp [fresh]⟩

/-- After every step of every sequence of calls, stopped anywhere or run to their end. -/
theorem fetch_only_whole (R : Bytes) (target : Name) {s₀ s : State} (hc : Clean target s₀)
    (h : Run (step target) (Serves R) s₀ s) :
    (∀ b, s.disk.content (partName target) = some b → b <+: R) ∧
    (∀ b, s.disk.content target = some b → b = R) ∧
    (∀ e s', Serves R s e → step target s e = some s' → Grows target s s') ∧
    (∀ allowed mode b, ModelProvider.openFile allowed mode (some target) s.disk = some b → b = R) ∧
    (∀ allowed mode,
      ModelProvider.openFile allowed mode (some (partName target)) s.disk = none) := by
  have hi := run_inv hc h
  obtain ⟨hpart, hwhole⟩ := (sound_iff.mp hi.sound).content
  refine ⟨hpart, hwhole, fun e s' _ hst => step_grows hi hst, ?_, ?_⟩
  · intro allowed mode b hb
    exact hwhole b (openFile_content hb)
  · intro allowed mode
    exact openFile_part allowed mode target s.disk

/-- One byte of two is written, and the process is killed. -/
theorem fetch_only_whole_killed : ∃ s, Run (step (kt "m")) (Serves [7, 8]) fresh s ∧
    s.disk.content (partName (kt "m")) = some [7] ∧
    (∀ b, s.disk.content (partName (kt "m")) = some b → b <+: [7, 8]) ∧
    (∀ b, s.disk.content (kt "m") = some b → b = [7, 8]) := by
  have hrun : ∃ s, Run (step (kt "m")) (Serves [7, 8]) fresh s ∧
      s.disk.content (partName (kt "m")) = some [7] := by
    have hr : replay (step (kt "m")) (Serves [7, 8]) fresh
        [.call, .go, .reply ⟨200, 2, [7, 8]⟩, .go, .cancelled false, .bytes 1, .go, .kill] _ :=
      ⟨trivial, _, rfl, trivial, _, rfl, fun _ _ => .full rfl rfl rfl, _, rfl, trivial, _, rfl,
        trivial, _, rfl, trivial, _, rfl, trivial, _, rfl, trivial, _, rfl, rfl⟩
    exact ⟨_, replay_run hr, by decide⟩
  obtain ⟨s, h, hp⟩ := hrun
  have hw := fetch_only_whole [7, 8] (kt "m") (fresh_clean _) h
  exact ⟨s, h, hp, hw.1, hw.2.1⟩

end ReadersSpeech.Download
