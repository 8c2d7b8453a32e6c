import ReadersSpeech.DownloadResume

/-! Calls of `fetch` for one target that run side by side: each has its own connection and its own
counters, and all of them write to one folder.
-/

set_option autoImplicit false

namespace ReadersSpeech.Download
open Transition

variable {ι : Type} {R : Bytes} {target : Name} {d d' : Disk}

structure Folder (ι : Type) where
  disk : Disk
  calls : ι → Call

/-- The next step of one of the calls. -/
def togetherStep [DecidableEq ι] (target : Name) (x : Folder ι) : ι × Event → Option (Folder ι)
  | (i, e) =>
    match x.calls i with
    | .running pc => (stepPc target ⟨x.disk, x.calls i, []⟩ pc e).map fun s =>
        ⟨s.disk, Function.update x.calls i s.call⟩
    | _ => none

def AnswersAll (R : Bytes) (x : Folder ι) : ι × Event → Prop
  | (i, .reply r) => ∀ have_, x.calls i = .running (.asking have_) → r = serve R have_
  | _ => True

/-- A call that has the `.part` file open and has counted no byte of it, or has no file open. -/
def Unwritten (target : Name) (d : Disk) : Pc → Prop
  | .measuring | .asking _ | .opening _ _ => True
  | .testing l | .reading l | .checking l | .writing l _ =>
    l.done = 0 ∧ d.entry (partName target) = some l.fd
  | .renameTo | .deleting | .renameAgain => False

/-- No call empties the `.part` file, or makes a new one, while another has bytes of it to its
count; and one that resumes writes only where its count says the file ends. -/
def InTurn (target : Name) (x : Folder ι) : ι × Event → Prop
  | (_, .kill) => True
  | (i, _) =>
    match x.calls i with
    | .running (.opening _ r) =>
      (r.status = 206 ∧ x.disk.entry (partName target) ≠ none) ∨
        ∀ j pc, j ≠ i → x.calls j = .running pc → Unwritten target x.disk pc
    | .running (.writing l _) => l.resuming = true → (x.disk.data l.fd).length = l.done
    | _ => True

/-- What a loop knows of the file it writes, whoever else writes to it. -/
structure Shares (R : Bytes) (target : Name) (d : Disk) (l : Loop) (read : Bytes) : Prop where
  known : l.fd < d.fresh
  pre : d.data l.fd <+: R
  rest : read ++ l.body = R.drop l.done
  offset : l.resuming = false → l.offset = l.done
  total : R ≠ [] → l.total = R.length
  here : ∀ i, d.entry (partName target) = some i → i = l.fd
  long : l.done ≤ (d.data l.fd).length ∨ (l.resuming = true ∧ l.done < R.length)

def AtShared (R : Bytes) (target : Name) (d : Disk) : Pc → Prop
  | .measuring | .asking _ => True
  | .opening have_ r => r = serve R have_ ∧ r.status < 400
  | .testing l | .reading l | .checking l => Shares R target d l []
  | .writing l chunk => Shares R target d l chunk
  | .renameTo | .deleting | .renameAgain =>
    ∀ i, d.entry (partName target) = some i → d.data i = R

structure SharedInv (R : Bytes) (target : Name) (x : Folder ι) : Prop where
  sound : Sound R target x.disk
  atPc : ∀ i pc, x.calls i = .running pc → AtShared R target x.disk pc

/-- A write at or before the end of the file, of the bytes of `R` that belong there. -/
theorem write_inside {old R : Bytes} (hp : old <+: R) {o : Nat} (ho : o ≤ old.length)
    {chunk : Bytes} (hc : chunk <+: R.drop o) :
    old <+: old.take o ++ chunk ++ old.drop (o + chunk.length) ∧
      old.take o ++ chunk ++ old.drop (o + chunk.length) <+: R := by
  have hold := List.prefix_iff_eq_take.mp hp
  have hchunk := List.prefix_iff_eq_take.mp hc
  have hstart : old.take o ++ chunk = R.take (o + chunk.length) := by
    rw [List.take_add, ← hchunk, hold, List.take_take, Nat.min_eq_left ho]
  rcases Nat.le_total (o + chunk.length) old.length with hle | hle
  · have hall : old.take o ++ chunk ++ old.drop (o + chunk.length) = old := by
      rw [hstart]
      conv_rhs => rw [← List.take_append_drop (o + chunk.length) old]
      congr 1
      conv_rhs => rw [hold, List.take_take, Nat.min_eq_left hle]
    rw [hall]
    exact ⟨List.prefix_refl _, hp⟩
  · rw [List.drop_eq_nil_of_le hle, List.append_nil, hstart]
    refine ⟨?_, List.take_prefix _ _⟩
    rw [hold]
    exact List.take_prefix_take_left hle

/-- Files keep what they hold of `R`, and the `.part` file stays the one it was while there is
one. -/
structure Grown (R : Bytes) (target : Name) (d d' : Disk) : Prop where
  fresh : d.fresh ≤ d'.fresh
  data : ∀ i, i < d.fresh → d.data i <+: R → d.data i <+: d'.data i ∧ d'.data i <+: R
  part : ∀ i, d'.entry (partName target) = some i → d.entry (partName target) = some i

theorem Grown.refl (R : Bytes) (target : Name) (d : Disk) : Grown R target d d :=
  ⟨Nat.le_refl _, fun _ _ h => ⟨List.prefix_refl _, h⟩, fun _ h => h⟩

theorem Shares.grown {l : Loop} {read : Bytes} (h : Shares R target d l read)
    (hg : Grown R target d d') : Shares R target d' l read := by
  obtain ⟨hlonger, hpre⟩ := hg.data _ h.known h.pre
  exact ⟨Nat.lt_of_lt_of_le h.known hg.fresh, hpre, h.rest, h.offset, h.total,
    fun i hi => h.here i (hg.part i hi), h.long.imp_left fun hl => hl.trans hlonger.length_le⟩

theorem AtShared.grown {pc : Pc} (h : AtShared R target d pc) (hs : Sound R target d)
    (hg : Grown R target d d') : AtShared R target d' pc := by
  cases pc with
  | measuring => exact h
  | asking _ => exact h
  | opening _ _ => exact h
  | testing _ | reading _ | checking _ | writing _ _ => exact Shares.grown h hg
  | renameTo | deleting | renameAgain =>
    intro i hi
    have hi₀ := hg.part i hi
    have hR : d.data i = R := h i hi₀
    obtain ⟨hlonger, hpre⟩ := hg.data i (hs.old _ i hi₀) (hR ▸ List.prefix_refl R)
    rw [hR] at hlonger
    exact hpre.eq_of_length_le hlonger.length_le

/-- Emptying the `.part` file, or making one, harms no call that has counted nothing of it. -/
theorem AtShared.emptied {pc : Pc} (h : AtShared R target d pc) (hu : Unwritten target d pc)
    {append : Bool} {fd : Nat} (ho : d.openFile (partName target) append = (fd, d'))
    (hnew : append = false ∨ d.entry (partName target) = none) : AtShared R target d' pc := by
  have hloop : ∀ l read, Shares R target d l read →
      l.done = 0 ∧ d.entry (partName target) = some l.fd → Shares R target d' l read := by
    intro l read hl ⟨hdone, he⟩
    obtain rfl : append = false := hnew.resolve_right (by simp [he])
    obtain ⟨he', rfl⟩ | ⟨he', -⟩ := openFile_cases ho
    · obtain rfl : l.fd = fd := Option.some.inj (he.symm.trans he')
      exact ⟨hl.known, by simp, hl.rest, hl.offset, hl.total, hl.here, .inl (by simp [hdone])⟩
    · simp [he] at he'
  cases pc with
  | measuring => exact h
  | asking _ => exact h
  | opening _ _ => exact h
  | testing l | reading l | checking l => exact hloop l [] h hu
  | writing l chunk => exact hloop l chunk h hu
  | renameTo | deleting | renameAgain => exact hu.elim

/-- The loop of a call that has just opened its file. -/
theorem openLoop_shares (hs : Sound R target d) {have_ : Nat} {r : Response} {fd : Nat}
    (hr : r = serve R have_) (hlt : r.status < 400)
    (ho : d.openFile (partName target) (r.status == 206) = (fd, d')) :
    Sound R target d' ∧ Shares R target d' (openLoop fd have_ r) [] := by
  obtain ⟨hf, he, hd⟩ := (sound_iff.mp hs).openFile List.nil_prefix _ ho
  have hs' := sound_iff.mpr hf
  have hhere : ∀ i, d'.entry (partName target) = some i → i = fd :=
    fun i hi => Option.some.inj (hi.symm.trans he)
  refine ⟨hs', ?_⟩
  unfold serve at hr
  split at hr
  · subst hr
    refine ⟨hf.old _ _ he, hs'.part _ he, by simp [openLoop], fun _ => rfl, ?_, hhere, ?_⟩
    · intro hR
      simp [openLoop, List.length_pos_iff.mpr hR]
    · exact .inl (by simp [openLoop])
  · split at hr
    · rename_i hpos hlt'
      subst hr
      refine ⟨hf.old _ _ he, hs'.part _ he, by simp [openLoop], by simp [openLoop], ?_, hhere, ?_⟩
      · intro _
        have hl : (0 : Int) < (R.length - have_ : Nat) := by omega
        simp only [openLoop, List.length_drop, hl, if_true, beq_self_eq_true]
        omega
      · exact .inr ⟨by simp [openLoop], by simpa [openLoop] using hlt'⟩
    · subst hr
      exact absurd hlt (by decide)

/-- A write where the count of the call says the file ends, or inside the file. -/
theorem Shares.writes {l : Loop} {chunk : Bytes} (h : Shares R target d l chunk)
    (hw : l.resuming = true → (d.data l.fd).length = l.done) (n : Nat) :
    d.data l.fd <+: (writeAt d l (chunk.take n)).data l.fd ∧
      (writeAt d l (chunk.take n)).data l.fd <+: R ∧
      l.done + (chunk.take n).length ≤ ((writeAt d l (chunk.take n)).data l.fd).length := by
  have hat : (if l.resuming then (d.data l.fd).length else l.offset) = l.done := by
    cases hl : l.resuming with
    | true => simpa using hw hl
    | false => simpa using h.offset hl
  have hin : l.done ≤ (d.data l.fd).length := by
    rcases h.long with hle | ⟨hres, -⟩
    · exact hle
    · exact (hw hres).ge
  have hgap : l.done - (d.data l.fd).length = 0 := Nat.sub_eq_zero_of_le hin
  have hnew : (writeAt d l (chunk.take n)).data l.fd = (d.data l.fd).take l.done ++
      chunk.take n ++ (d.data l.fd).drop (l.done + (chunk.take n).length) := by
    simp [writeAt, hat, Disk.write, hgap]
  have hchunk : chunk.take n <+: R.drop l.done := by
    rw [← h.rest]
    exact (List.take_prefix n chunk).trans (List.prefix_append _ _)
  obtain ⟨h₁, h₂⟩ := write_inside h.pre hin hchunk
  rw [hnew]
  refine ⟨h₁, h₂, ?_⟩
  simp only [List.length_append, List.length_take, List.length_drop]
  omega

theorem Shares.writeAt_grown {l : Loop} {chunk : Bytes} (h : Shares R target d l chunk)
    (hw : l.resuming = true → (d.data l.fd).length = l.done) (n : Nat) :
    Grown R target d (writeAt d l (chunk.take n)) := by
  obtain ⟨hlonger, hpre, -⟩ := h.writes hw n
  refine ⟨Nat.le_refl _, fun i _ hi => ?_, fun _ hi => hi⟩
  by_cases hif : i = l.fd
  · subst hif; exact ⟨hlonger, hpre⟩
  · rw [writeAt, d.write_other _ hif]
    exact ⟨List.prefix_refl _, hi⟩

theorem Shares.writeAt_sound {l : Loop} {chunk : Bytes} (h : Shares R target d l chunk)
    (hs : Sound R target d) (hw : l.resuming = true → (d.data l.fd).length = l.done) (n : Nat) :
    Sound R target (writeAt d l (chunk.take n)) := by
  obtain ⟨hlonger, hpre, -⟩ := h.writes hw n
  refine sound_iff.mpr ((sound_iff.mp hs).write (fun _ => hpre) fun ht => ?_)
  have hR := hs.whole _ ht
  rw [hR] at hlonger
  exact hpre.eq_of_length_le hlonger.length_le

theorem Shares.counts {l : Loop} {chunk : Bytes} (h : Shares R target d l chunk)
    (hw : l.resuming = true → (d.data l.fd).length = l.done) (last : Int) :
    Shares R target (writeAt d l chunk) { wrote l chunk with last } [] := by
  obtain ⟨-, hpre, hlong⟩ := h.writes hw chunk.length
  rw [List.take_length] at hpre hlong
  refine ⟨h.known, hpre, ?_, ?_, h.total, h.here, .inl hlong⟩
  · have hrest := congrArg (List.drop chunk.length) h.rest
    simpa [wrote] using hrest
  · intro hl
    simp [wrote, h.offset hl]

/-- Whoever passes the test has all of `R` in the `.part` file, if there is one. -/
theorem Shares.complete {l : Loop} (h : Shares R target d l [])
    (hn : ¬ (0 < l.total ∧ (l.done : Int) ≠ l.total)) {i : Nat}
    (hi : d.entry (partName target) = some i) : d.data i = R := by
  obtain rfl := h.here i hi
  by_cases hR : R = []
  · subst hR
    exact List.prefix_nil.mp h.pre
  · have htotal := h.total hR
    have hpos := List.length_pos_iff.mpr hR
    refine h.pre.eq_of_length_le ?_
    rcases h.long with hle | ⟨-, hlt⟩ <;> omega

theorem rename_grown {target : Name}
    (hr : d.rename (partName target) target = some d') : Grown R target d d' := by
  obtain ⟨i, -, rfl⟩ := rename_cases hr
  exact ⟨Nat.le_refl _, fun _ _ h => ⟨List.prefix_refl _, h⟩, by simp⟩

theorem delete_grown : Grown R target d (d.delete target) :=
  ⟨Nat.le_refl _, fun _ _ h => ⟨List.prefix_refl _, h⟩, by
    simp [Disk.delete, Function.update_of_ne (partName_ne target)]⟩

/-- What one step of call `i` gives: a sound folder, its own knowledge of it, and that of the
others. -/
structure Stepped (R : Bytes) (target : Name) (x : Folder ι) (i : ι) (s' : State) : Prop where
  sound : Sound R target s'.disk
  own : ∀ pc, s'.call = .running pc → AtShared R target s'.disk pc
  others : ∀ j pc, j ≠ i → x.calls j = .running pc → AtShared R target s'.disk pc

theorem Stepped.grow {x : Folder ι} (hi : SharedInv R target x) {i : ι} {s' : State}
    (hs : Sound R target s'.disk) (hg : Grown R target x.disk s'.disk)
    (hown : ∀ pc, s'.call = .running pc → AtShared R target s'.disk pc) :
    Stepped R target x i s' :=
  ⟨hs, hown, fun j pc _ hj => (hi.atPc j pc hj).grown hi.sound hg⟩

theorem own_stop {s' : State} (hc : s'.call.busy = false) :
    ∀ pc, s'.call = .running pc → AtShared R target s'.disk pc := by
  intro pc hpc
  simp [hpc, Call.busy] at hc

theorem own_go {s' : State} {pc : Pc} (hc : s'.call = .running pc)
    (h : AtShared R target s'.disk pc) :
    ∀ pc, s'.call = .running pc → AtShared R target s'.disk pc := by
  intro pc' hpc'
  obtain rfl : pc = pc' := by simpa [hc] using hpc'
  exact h

theorem Moves.stepped {x : Folder ι} {i : ι} {s' : State} {pc : Pc} {e : Event}
    (h : Moves target ⟨x.disk, x.calls i, []⟩ pc e s') (hi : SharedInv R target x)
    (hpc : x.calls i = .running pc) (ha : AnswersAll R x (i, e)) (ht : InTurn target x (i, e)) :
    Stepped R target x i s' := by
  have hs := hi.sound
  have hat := hi.atPc i pc hpc
  have hsame := Grown.refl R target x.disk
  cases h with
  | measured => exact .grow hi hs hsame (own_go rfl trivial)
  | refused _ | unreachable | stopped | broke | short _ | left | killed =>
    exact .grow hi hs hsame (own_stop rfl)
  | answered hlt => exact .grow hi hs hsame (own_go rfl ⟨ha _ hpc, hlt⟩)
  | @opened have_ r fd disk ho =>
    obtain ⟨hs', hown⟩ := openLoop_shares hs hat.1 hat.2 ho
    refine ⟨hs', own_go rfl hown, fun j pc' hji hj => ?_⟩
    have hj' := hi.atPc j pc' hj
    by_cases hkeep : r.status = 206 ∧ x.disk.entry (partName target) ≠ none
    · obtain ⟨-, rfl⟩ | ⟨he, -⟩ := openFile_cases ho
      · simpa [hkeep.1] using hj'
      · exact absurd he hkeep.2
    · simp only [InTurn, hpc] at ht
      refine hj'.emptied (ht.resolve_left hkeep j pc' hji hj) ho ?_
      rw [not_and_or, not_not] at hkeep
      exact hkeep.imp_left fun h => by simpa using h
  | goesOn | ended => exact .grow hi hs hsame (own_go rfl hat)
  | @read l n _ _ _ =>
    have hl : Shares R target x.disk l [] := hat
    exact .grow hi hs hsame (own_go rfl
      ⟨hl.known, hl.pre, by simpa using hl.rest, hl.offset, hl.total, hl.here, hl.long⟩)
  | @appended l chunk =>
    have hl : Shares R target x.disk l chunk := hat
    simp only [InTurn, hpc] at ht
    have hs' := hl.writeAt_sound hs ht chunk.length
    have hg := hl.writeAt_grown ht chunk.length
    rw [List.take_length] at hs' hg
    exact .grow hi hs' hg (own_go rfl (hl.counts ht _))
  | @filled l chunk n =>
    have hl : Shares R target x.disk l chunk := hat
    simp only [InTurn, hpc] at ht
    exact .grow hi (hl.writeAt_sound hs ht n) (hl.writeAt_grown ht n) (own_stop rfl)
  | complete hn =>
    have hl : Shares R target x.disk _ [] := hat
    exact .grow hi hs hsame (own_go rfl fun _ hp => hl.complete hn hp)
  | placed hren | placedAgain hren =>
    have hf := (sound_iff.mp hs).rename hren fun b hb => by
      obtain ⟨p, hp, rfl⟩ := Option.map_eq_some_iff.mp hb
      exact hat p hp
    exact .grow hi (sound_iff.mpr hf.1) (rename_grown hren) (own_stop rfl)
  | occupied => exact .grow hi hs hsame (own_go rfl hat)
  | cleared =>
    have hg : Grown R target x.disk (x.disk.delete target) := delete_grown
    have hat' : AtShared R target x.disk .renameAgain := hat
    exact .grow hi (sound_iff.mpr (sound_iff.mp hs).delete) hg
      (own_go rfl (hat'.grown hs hg))

variable [DecidableEq ι]

theorem Stepped.inv {x : Folder ι} {i : ι} {s' : State} (h : Stepped R target x i s') :
    SharedInv R target ⟨s'.disk, Function.update x.calls i s'.call⟩ := by
  refine ⟨h.sound, fun j pc hj => ?_⟩
  by_cases hji : j = i
  · subst hji
    exact h.own pc (by simpa using hj)
  · exact h.others j pc hji (by simpa [hji] using hj)

theorem togetherStep_inv {x x' : Folder ι} {e : ι × Event} (hi : SharedInv R target x)
    (ha : AnswersAll R x e ∧ InTurn target x e) (hst : togetherStep target x e = some x') :
    SharedInv R target x' := by
  obtain ⟨i, e⟩ := e
  simp only [togetherStep] at hst
  split at hst
  · rename_i pc hpc
    obtain ⟨s', hs, rfl⟩ := Option.map_eq_some_iff.mp hst
    exact ((stepPc_moves hs).stepped hi hpc ha.1 ha.2).inv
  · simp at hst

/-- Any number of calls, none of which has done anything yet. -/
def Unstarted (x : Folder ι) : Prop := ∀ i pc, x.calls i = .running pc → pc = .measuring

/-- Calls that take turns with the `.part` file put nothing but `R` in place. -/
theorem fetch_together (R : Bytes) (target : Name) {x₀ x : Folder ι}
    (hs : Sound R target x₀.disk) (hu : Unstarted x₀)
    (h : Run (togetherStep target) (fun x e => AnswersAll R x e ∧ InTurn target x e) x₀ x) :
    ∀ b, x.disk.content target = some b → b = R := by
  have h₀ : SharedInv R target x₀ := by
    refine ⟨hs, fun i pc hpc => ?_⟩
    obtain rfl := hu i pc hpc
    trivial
  have hi := h.invariant (I := SharedInv R target)
    (fun _ _ _ hi ha hst => togetherStep_inv hi ha hst) h₀
  exact (sound_iff.mp hi.sound).content.2

def twoCalls : Folder Bool := ⟨fresh.disk, fun _ => .running .measuring⟩

/-- Both calls empty the file before either writes, and one of them ends. -/
theorem fetch_together_turns : ∃ x,
    Run (togetherStep (kt "m")) (fun x e => AnswersAll [7, 8] x e ∧ InTurn (kt "m") x e)
      twoCalls x ∧
    x.disk.content (kt "m") = some [7, 8] ∧
    (∀ b, x.disk.content (kt "m") = some b → b = [7, 8]) := by
  have hr : replay (togetherStep (kt "m"))
      (fun x e => AnswersAll [7, 8] x e ∧ InTurn (kt "m") x e) twoCalls
      [(false, .go), (true, .go), (false, .reply (serve [7, 8] 0)), (true, .reply (serve [7, 8] 0)),
        (false, .go), (true, .go), (false, .cancelled false), (false, .bytes 2), (false, .go),
        (false, .cancelled false), (false, .eof), (false, .go), (false, .renamed true)] _ :=
    ⟨⟨trivial, trivial⟩, _, rfl, ⟨trivial, trivial⟩, _, rfl,
      ⟨serve_asked _ _, trivial⟩, _, rfl, ⟨serve_asked _ _, trivial⟩, _, rfl,
      ⟨trivial, .inr fun j pc hji hj => by
        obtain rfl : j = true := by simpa using hji
        obtain rfl := Call.running.inj hj
        trivial⟩, _, rfl,
      ⟨trivial, .inr fun j pc hji hj => by
        obtain rfl : j = false := by simpa using hji
        obtain rfl := Call.running.inj hj
        exact ⟨rfl, rfl⟩⟩, _, rfl,
      ⟨trivial, trivial⟩, _, rfl, ⟨trivial, trivial⟩, _, rfl,
      ⟨trivial, fun h => by simp [openLoop, serve] at h⟩, _, rfl,
      ⟨trivial, trivial⟩, _, rfl, ⟨trivial, trivial⟩, _, rfl, ⟨trivial, trivial⟩, _, rfl,
      ⟨trivial, trivial⟩, _, rfl, rfl⟩
  have hs : Sound [7, 8] (kt "m") twoCalls.disk :=
    ⟨by simp [twoCalls, fresh], by simp [twoCalls, fresh], by simp [twoCalls, fresh],
      by simp [twoCalls, fresh]⟩
  have hu : Unstarted twoCalls := fun _ _ h => (Call.running.inj h).symm
  exact ⟨_, replay_run hr, by decide, fetch_together [7, 8] (kt "m") hs hu (replay_run hr)⟩

/-- The second call opens the file after the first has read to the end, before it renames. -/
theorem fetch_together_emptied : ∃ x,
    Run (togetherStep (kt "m")) (AnswersAll [7, 8]) twoCalls x ∧
    x.disk.content (kt "m") = some [] := by
  have hr : replay (togetherStep (kt "m")) (AnswersAll [7, 8]) twoCalls
      [(false, .go), (true, .go), (false, .reply (serve [7, 8] 0)), (true, .reply (serve [7, 8] 0)),
        (false, .go), (false, .cancelled false), (false, .bytes 2), (false, .go),
        (false, .cancelled false), (false, .eof), (true, .go), (false, .go),
        (false, .renamed true)] _ :=
    ⟨trivial, _, rfl, trivial, _, rfl, serve_asked _ _, _, rfl, serve_asked _ _, _, rfl,
      trivial, _, rfl, trivial, _, rfl, trivial, _, rfl, trivial, _, rfl, trivial, _, rfl,
      trivial, _, rfl, trivial, _, rfl, trivial, _, rfl, trivial, _, rfl, rfl⟩
  exact ⟨_, replay_run hr, by decide⟩

end ReadersSpeech.Download
