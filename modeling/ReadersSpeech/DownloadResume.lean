import ReadersSpeech.DownloadRuns

/-! Whether a download can always be finished: one more call that nothing stops, after any
sequence of calls that were. The server keeps its resource and answers ranges.
-/

set_option autoImplicit false

namespace ReadersSpeech.Download
open Transition

variable {R : Bytes} {target : Name} {replaces : Bool} {s : State}

/-- The whole resource, the bytes from `have_` on, or 416 when there are none. -/
def serve (R : Bytes) (have_ : Nat) : Response :=
  if have_ = 0 then ⟨200, R.length, R⟩
  else if have_ < R.length then ⟨206, (R.drop have_).length, R.drop have_⟩
  else ⟨416, 0, []⟩

theorem serve_answers (R : Bytes) (have_ : Nat) : Answers R have_ (serve R have_) := by
  unfold serve
  split
  · exact .full rfl rfl rfl
  · split
    · exact .partial_ rfl rfl rfl
    · exact .error (by decide)

theorem serve_asked (R : Bytes) (h h' : Nat)
    (hc : Call.running (.asking h) = .running (.asking h')) : serve R h = serve R h' := by
  obtain rfl : h = h' := by simpa using hc
  rfl

/-- `replaces` says whether `renameTo` may take the place of an existing file, as it may on a
phone and may not everywhere. -/
def Faithful (R : Bytes) (target : Name) (replaces : Bool) (s : State) : Event → Prop
  | .reply r => ∀ have_, s.call = .running (.asking have_) → r = serve R have_
  | .renamed ok => ok = (replaces || (s.disk.entry target).isNone)
  | _ => True

/-- A call that is neither cancelled, nor cut, nor killed. -/
def Unhindered (R : Bytes) (target : Name) (replaces : Bool) (s : State) : Event → Prop
  | .call | .unreachable | .broken | .full _ | .kill => False
  | .cancelled b => b = false
  | .eof => ∀ l, s.call = .running (.reading l) → l.body = []
  | e => Faithful R target replaces s e

theorem Faithful.serves {e : Event} (h : Faithful R target replaces s e) : Serves R s e := by
  cases e with
  | reply r => exact fun have_ hc => h have_ hc ▸ serve_answers R have_
  | _ => trivial

theorem Unhindered.faithful {e : Event} (h : Unhindered R target replaces s e) :
    Faithful R target replaces s e := by
  cases e <;> first | exact h | trivial

def Finished (R : Bytes) (target : Name) (s : State) : Prop :=
  s.call = .returned ∧ s.disk.content target = some R

abbrev Next (R : Bytes) (target : Name) (replaces : Bool) (s s' : State) : Prop :=
  Move (step target) (Unhindered R target replaces) s s'

/-- The call ends, and ends in `P`, whatever the sizes of the reads. -/
abbrev EndsIn (R : Bytes) (target : Name) (replaces : Bool) (P : State → Prop) (s : State) : Prop :=
  Inevitable (step target) (Unhindered R target replaces) P s

theorem next_stuck (hq : s.call.busy = false) (s' : State) : ¬ Next R target replaces s s' := by
  rintro ⟨e, ha, hst⟩
  cases hc : s.call with
  | running pc => simp [hc, Call.busy] at hq
  | _ =>
    simp only [step, hc] at hst
    split at hst
    · subst e; exact ha
    · simp at hst

/-- One step of a running call: some step is possible, and every possible one leads on. -/
theorem endsIn_step {P : State → Prop} {pc : Pc} (hi : Inv R target s)
    (hpc : s.call = .running pc)
    (hex : ∃ e s', Unhindered R target replaces s e ∧ stepPc target s pc e = some s')
    (hall : ∀ e s', Unhindered R target replaces s e → Moves target s pc e s' →
      Inv R target s' → EndsIn R target replaces P s') : EndsIn R target replaces P s := by
  have hstep : ∀ e, step target s e = stepPc target s pc e := fun e => by simp only [step, hpc]
  refine .later ?_ fun s' ⟨e, ha, hst⟩ => ?_
  · obtain ⟨e, s', ha, hst⟩ := hex
    exact ⟨s', e, ha, by rw [hstep, hst]⟩
  · have hm := stepPc_moves ((hstep e).symm.trans hst)
    exact hall e s' ha hm (step_inv hi ha.faithful.serves hst)

theorem rename_exists {d : Disk} {b : Bytes} (h : d.content (partName target) = some b) :
    ∃ d', d.rename (partName target) target = some d' := by
  cases he : d.entry (partName target) with
  | none => simp [Disk.content, he] at h
  | some i => simp [Disk.rename, he]

theorem endsIn_renameAgain (hi : Inv R target s) (hpc : s.call = .running .renameAgain) :
    EndsIn R target replaces (Finished R target) s := by
  obtain ⟨hc, ht⟩ := hi.atPc _ hpc
  refine endsIn_step hi hpc ?_ fun e s' ha hm _ => ?_
  · obtain ⟨d', hr⟩ := rename_exists hc
    exact ⟨.renamed true, _, by simp [Unhindered, Faithful, ht], by simp only [stepPc, hr]; rfl⟩
  · cases hm with
    | placedAgain hr => exact .now ⟨rfl, (hi.sound.rename hr hc).2.2⟩
    | left => simp [Unhindered, Faithful, ht] at ha
    | killed => exact ha.elim

theorem endsIn_deleting (hi : Inv R target s) (hpc : s.call = .running .deleting) :
    EndsIn R target replaces (Finished R target) s := by
  refine endsIn_step hi hpc ⟨.go, _, trivial, rfl⟩ fun e s' ha hm hi' => ?_
  cases hm with
  | cleared => exact endsIn_renameAgain hi' rfl
  | killed => exact ha.elim

theorem endsIn_renameTo (hi : Inv R target s) (hpc : s.call = .running .renameTo) :
    EndsIn R target replaces (Finished R target) s := by
  have hc : s.disk.content (partName target) = some R := hi.atPc _ hpc
  refine endsIn_step hi hpc ?_ fun e s' ha hm hi' => ?_
  · cases hok : replaces || (s.disk.entry target).isNone with
    | false => exact ⟨.renamed false, _, hok.symm, rfl⟩
    | true =>
      obtain ⟨d', hr⟩ := rename_exists hc
      exact ⟨.renamed true, _, hok.symm, by simp only [stepPc, hr]; rfl⟩
  · cases hm with
    | placed hr => exact .now ⟨rfl, (hi.sound.rename hr hc).2.2⟩
    | occupied => exact endsIn_deleting hi' rfl
    | killed => exact ha.elim

theorem endsIn_checking {l : Loop} (hi : Inv R target s) (hpc : s.call = .running (.checking l))
    (hb : l.body = []) : EndsIn R target replaces (Finished R target) s := by
  have hr : Reading R target s.disk l [] := hi.atPc _ hpc
  have hno : ¬ (0 < l.total ∧ (l.done : Int) ≠ l.total) := by
    rw [hr.complete_iff, not_not]
    have hrest := hr.rest
    simp only [hb, List.append_nil] at hrest
    simp [Disk.content, hr.fd, hrest]
  refine endsIn_step hi hpc ⟨.go, _, trivial, if_neg hno⟩ fun e s' ha hm hi' => ?_
  cases hm with
  | short h => exact absurd h hno
  | complete _ => exact endsIn_renameTo hi' rfl
  | killed => exact ha.elim

/-- Every read takes at least one byte from the connection, which is what makes the loop end. -/
theorem endsIn_testing (n : Nat) : ∀ {s : State} {l : Loop}, Inv R target s →
    s.call = .running (.testing l) → l.body.length = n →
    EndsIn R target replaces (Finished R target) s := by
  induction n using Nat.strongRecOn with
  | ind n ih =>
    intro s l hi hpc hlen
    refine endsIn_step hi hpc ⟨.cancelled false, _, rfl, rfl⟩ fun e s₁ ha hm hi₁ => ?_
    cases hm with
    | stopped => simp [Unhindered] at ha
    | killed => exact ha.elim
    | goesOn =>
      refine endsIn_step hi₁ rfl ?_ fun e s₂ ha hm hi₂ => ?_
      · cases hb : l.body with
        | nil =>
          refine ⟨.eof, _, fun l' hl => ?_, rfl⟩
          obtain rfl : l = l' := by simpa using hl
          exact hb
        | cons b rest =>
          have hn : 1 ≤ 1 ∧ 1 ≤ bufferSize ∧ 1 ≤ l.body.length := by simp [bufferSize, hb]
          exact ⟨.bytes 1, _, trivial, if_pos hn⟩
      · cases hm with
        | ended => exact endsIn_checking hi₂ rfl (ha l rfl)
        | broke | killed => exact ha.elim
        | @read l n h₁ _ h₂ =>
          refine endsIn_step hi₂ rfl ⟨.go, _, trivial, rfl⟩ fun e s₃ ha hm hi₃ => ?_
          cases hm with
          | filled | killed => exact ha.elim
          | appended =>
            refine ih _ ?_ hi₃ rfl rfl
            simp only [wrote, List.length_drop]
            omega

theorem serve_status_lt {have_ : Nat} (h : have_ < R.length) : (serve R have_).status < 400 := by
  unfold serve
  split
  · exact (by decide : 200 < 400)
  · exact (by decide : 206 < 400)

/-- The first two steps: the length of the `.part` file, and the answer to what is asked for. -/
theorem endsIn_answer {P : State → Prop} (hi : Inv R target s)
    (h : ∀ s', Moves target { begin s with call := .running (.asking (partBytes s.disk target)) }
        (.asking (partBytes s.disk target)) (.reply (serve R (partBytes s.disk target))) s' →
      Inv R target s' → EndsIn R target replaces P s') :
    EndsIn R target replaces P (begin s) := by
  have hi₀ : Inv R target (begin s) := .go hi.sound rfl trivial
  refine endsIn_step hi₀ rfl ⟨.go, _, trivial, rfl⟩ fun e s₁ ha hm hi₁ => ?_
  cases hm with
  | killed => exact ha.elim
  | measured =>
    refine endsIn_step hi₁ rfl ?_ fun e s₂ ha hm hi₂ => ?_
    · have hserve : Unhindered R target replaces
          { begin s with call := .running (.asking (partBytes (begin s).disk target)) }
          (.reply (serve R (partBytes s.disk target))) := by
        intro have_ hc
        obtain rfl : partBytes (begin s).disk target = have_ := by simpa using hc
        rfl
      by_cases hlt : 400 ≤ (serve R (partBytes s.disk target)).status
      · exact ⟨_, _, hserve, if_pos hlt⟩
      · exact ⟨_, _, hserve, if_neg hlt⟩
    · cases hm with
      | unreachable | killed => exact ha.elim
      | @refused _ r hr =>
        obtain rfl : r = serve R (partBytes s.disk target) := ha _ rfl
        exact h _ (.refused hr) hi₂
      | @answered _ r hr =>
        obtain rfl : r = serve R (partBytes s.disk target) := ha _ rfl
        exact h _ (.answered hr) hi₂

theorem endsIn_finished (hi : Inv R target s) (hp : partBytes s.disk target ≠ R.length) :
    EndsIn R target replaces (Finished R target) (begin s) := by
  have hlt : partBytes s.disk target < R.length := Nat.lt_of_le_of_ne hi.sound.partBytes_le hp
  have hst := serve_status_lt hlt
  refine endsIn_answer hi fun s₁ hm hi₁ => ?_
  cases hm with
  | refused h => omega
  | answered _ =>
    refine endsIn_step hi₁ rfl ⟨.go, _, trivial, rfl⟩ fun e s₂ ha hm hi₂ => ?_
    cases hm with
    | killed => exact ha.elim
    | opened _ => exact endsIn_testing _ hi₂ rfl rfl

/-- The server has no byte to give past the end, and 416 is an error like any other. -/
theorem endsIn_refused (hR : R ≠ []) (hi : Inv R target s)
    (hp : partBytes s.disk target = R.length) :
    EndsIn R target replaces (fun s' => s'.call = .threw (.http 416)) (begin s) := by
  have hpos : R.length ≠ 0 := by simpa using hR
  have hserve : serve R (partBytes s.disk target) = ⟨416, 0, []⟩ := by
    simp [serve, hp, hpos]
  refine endsIn_answer hi fun s₁ hm _ => ?_
  rw [hserve] at hm
  cases hm with
  | refused _ => exact .now rfl
  | answered h => exact absurd h (by decide)

theorem not_endsIn_finished (hR : R ≠ []) (hi : Inv R target s)
    (hp : partBytes s.disk target = R.length) :
    ¬ EndsIn R target replaces (Finished R target) (begin s) := by
  intro hf
  have hstuck : ∀ s : State, s.call.busy = false → ∀ s', ¬ Next R target replaces s s' :=
    fun _ hq s' => next_stuck hq s'
  obtain ⟨s', hp, hq⟩ := hf.meet (Q := fun s' => s'.call = .threw (.http 416))
    (fun s h => hstuck s (by simp [h.1, Call.busy])) (fun s h => hstuck s (by simp [h, Call.busy]))
    (endsIn_refused hR hi hp)
  rw [hp.1] at hq
  simp at hq

theorem faithful_inv {s₀ : State} (hc : Clean target s₀)
    (h : Run (step target) (Faithful R target replaces) s₀ s) : Inv R target s :=
  run_inv hc (h.mono fun _ _ ha => ha.serves)

/-- After any sequence of stopped calls, one more that nothing stops puts the resource in place
unless the whole of it is already in the `.part` file. -/
theorem fetch_finishes_iff (R : Bytes) (target : Name) (replaces : Bool) (hR : R ≠ [])
    {s₀ s : State} (hc : Clean target s₀)
    (h : Run (step target) (Faithful R target replaces) s₀ s) :
    EndsIn R target replaces (Finished R target) (begin s) ↔
      partBytes s.disk target ≠ R.length :=
  ⟨fun hf hp => not_endsIn_finished hR (faithful_inv hc h) hp hf,
    endsIn_finished (faithful_inv hc h)⟩

/-- The first byte of `[7, 8]` is written, and the process is killed. -/
def killedHalfway : List Event :=
  [.call, .go, .reply (serve [7, 8] 0), .go, .cancelled false, .bytes 1, .go, .kill]

theorem fetch_finishes_halfway : ∃ s, Run (step (kt "m")) (Faithful [7, 8] (kt "m") true) fresh s ∧
    s.disk.content (partName (kt "m")) = some [7] ∧
    EndsIn [7, 8] (kt "m") true (Finished [7, 8] (kt "m")) (begin s) := by
  have hr : replay (step (kt "m")) (Faithful [7, 8] (kt "m") true) fresh killedHalfway _ :=
    ⟨trivial, _, rfl, trivial, _, rfl, serve_asked _ _, _, rfl, trivial, _, rfl, trivial, _, rfl,
      trivial, _, rfl, trivial, _, rfl, trivial, _, rfl, rfl⟩
  have hrun := replay_run hr
  exact ⟨_, hrun, rfl,
    (fetch_finishes_iff [7, 8] (kt "m") true (by decide) (fresh_clean _) hrun).mpr (by decide)⟩

/-- The one byte of `[7]` is written, and the process is killed before the rename. -/
def killedBeforeRename : List Event :=
  [.call, .go, .reply (serve [7] 0), .go, .cancelled false, .bytes 1, .go, .kill]

theorem fetch_stuck_at_full : ∃ s, Run (step (kt "m")) (Faithful [7] (kt "m") true) fresh s ∧
    s.call.busy = false ∧
    ¬ EndsIn [7] (kt "m") true (Finished [7] (kt "m")) (begin s) := by
  have hrun : ∃ s, Run (step (kt "m")) (Faithful [7] (kt "m") true) fresh s ∧
      s.call = .idle ∧ partBytes s.disk (kt "m") = 1 := by
    have hr : replay (step (kt "m")) (Faithful [7] (kt "m") true) fresh killedBeforeRename _ :=
      ⟨trivial, _, rfl, trivial, _, rfl, serve_asked _ _, _, rfl, trivial, _, rfl, trivial, _, rfl,
        trivial, _, rfl, trivial, _, rfl, trivial, _, rfl, rfl⟩
    exact ⟨_, replay_run hr, rfl, by decide⟩
  obtain ⟨s, h, hc, hp⟩ := hrun
  exact ⟨s, h, by simp [hc, Call.busy],
    not_endsIn_finished (by decide) (faithful_inv (fresh_clean _) h) hp⟩

end ReadersSpeech.Download
