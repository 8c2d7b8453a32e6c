import ReadersSpeech.DownloadResume

/-! Downloads from a server that may put another version in place of its resource. Nothing ties the
bytes on disk to the answer that continues them but their number.
-/

set_option autoImplicit false

namespace ReadersSpeech.Download
open Transition

variable {target : Name}

/-- The phone, the version the server has now, and those it had before. -/
structure Hosted where
  client : State
  version : Bytes
  past : List Bytes

def Hosted.versions (x : Hosted) : List Bytes := x.version :: x.past

inductive Happening where
  | fetch (e : Event)
  | replace (V : Bytes)

def hostedStep (target : Name) (x : Hosted) : Happening → Option Hosted
  | .fetch e => (step target x.client e).map fun s => { x with client := s }
  | .replace V => some { x with version := V, past := x.versions }

/-- The server answers from the version it has. -/
def Served (x : Hosted) : Happening → Prop
  | .fetch e => Serves x.version x.client e
  | .replace _ => True

/-- Where a 206 arrives, what is on disk is the beginning of the version it comes from. -/
def Continues (target : Name) (x : Hosted) : Happening → Prop
  | .fetch (.reply r) => r.status = 206 → partContent x.client.disk target <+: x.version
  | _ => True

def VersionAt (versions : List Bytes) (target : Name) (d : Disk) : Pc → Prop
  | .measuring => True
  | .asking have_ => have_ = partBytes d target
  | .opening have_ r => have_ = partBytes d target ∧ r.status < 400 ∧
      ∃ V ∈ versions, Answers V have_ r ∧ (r.status = 206 → partContent d target <+: V)
  | .testing l | .reading l | .checking l => ∃ V ∈ versions, Reading V target d l []
  | .writing l chunk => ∃ V ∈ versions, Reading V target d l chunk
  | .renameTo | .deleting | .renameAgain => ∃ V ∈ versions, d.content (partName target) = some V

/-- The `.part` file may hold anything between two calls: a running call vouches for it. -/
structure VersionInv (was : Bytes → Prop) (target : Name) (x : Hosted) : Prop where
  files : Files (fun _ => True) (fun b => was b ∨ b ∈ x.versions) target x.client.disk
  atPc : ∀ pc, x.client.call = .running pc → VersionAt x.versions target x.client.disk pc

variable {was : Bytes → Prop}

theorem VersionInv.stop {x : Hosted}
    (h : Files (fun _ => True) (fun b => was b ∨ b ∈ x.versions) target x.client.disk)
    (hc : x.client.call.busy = false) : VersionInv was target x := by
  refine ⟨h, fun pc hpc => ?_⟩
  simp [hpc, Call.busy] at hc

theorem VersionInv.go {x : Hosted} {pc : Pc}
    (h : Files (fun _ => True) (fun b => was b ∨ b ∈ x.versions) target x.client.disk)
    (hc : x.client.call = .running pc) (hp : VersionAt x.versions target x.client.disk pc) :
    VersionInv was target x := by
  refine ⟨h, fun pc' hpc' => ?_⟩
  obtain rfl : pc = pc' := by simpa [hc] using hpc'
  exact hp

theorem VersionAt.mono {versions versions' : List Bytes} {d : Disk} {pc : Pc}
    (h : VersionAt versions target d pc) (hsub : ∀ V ∈ versions, V ∈ versions') :
    VersionAt versions' target d pc := by
  cases pc with
  | measuring => exact h
  | asking _ => exact h
  | opening have_ r =>
    obtain ⟨hh, hlt, V, hV, ha⟩ := h
    exact ⟨hh, hlt, V, hsub V hV, ha⟩
  | testing _ | reading _ | checking _ | writing _ _ | renameTo | deleting | renameAgain =>
    obtain ⟨V, hV, hr⟩ := h
    exact ⟨V, hsub V hV, hr⟩

/-- The two renames put the `.part` file in place, which a running call knows to be a version. -/
theorem VersionInv.placed {x : Hosted} (hi : VersionInv was target x) {disk : Disk}
    (hr : x.client.disk.rename (partName target) target = some disk)
    (hp : ∃ V ∈ x.versions, x.client.disk.content (partName target) = some V) :
    Files (fun _ => True) (fun b => was b ∨ b ∈ x.versions) target disk ∧
      ∃ V ∈ x.versions, disk.content target = some V := by
  obtain ⟨V, hV, hc⟩ := hp
  have hw : ∀ b, x.client.disk.content (partName target) = some b → was b ∨ b ∈ x.versions := by
    intro b hb
    obtain rfl : V = b := Option.some.inj (hc.symm.trans hb)
    exact .inr hV
  obtain ⟨hf, -, ht⟩ := hi.files.rename hr hw
  exact ⟨hf, V, hV, ht.trans hc⟩

theorem Moves.versionInv {x : Hosted} {s' : State} {pc : Pc} {e : Event}
    (h : Moves target x.client pc e s') (hi : VersionInv was target x)
    (hpc : x.client.call = .running pc) (ha : Served x (.fetch e))
    (hk : Continues target x (.fetch e)) : VersionInv was target { x with client := s' } := by
  have hf := hi.files
  have hat := hi.atPc pc hpc
  cases h with
  | measured => exact .go hf rfl rfl
  | refused _ | unreachable | stopped | broke | short _ | left | killed => exact .stop hf rfl
  | answered hlt =>
    exact .go hf rfl ⟨hat, hlt, x.version, List.mem_cons_self, ha _ hpc, hk⟩
  | opened ho =>
    obtain ⟨hh, hlt, V, hV, hans, hpre⟩ := hat
    obtain ⟨hf', he, hd⟩ := hf.openFile trivial _ ho
    exact .go hf' rfl ⟨V, hV, openLoop_reading hpre hh hlt hans he hd⟩
  | goesOn | ended => exact .go hf rfl hat
  | @read l n _ _ _ =>
    obtain ⟨V, hV, hr⟩ := hat
    exact .go hf rfl ⟨V, hV, hr.read n⟩
  | @appended l chunk =>
    obtain ⟨V, hV, hr⟩ := hat
    have hf' := hr.writeAt_files hf chunk.length trivial
    rw [List.take_length] at hf'
    exact .go hf' rfl ⟨V, hV, wrote_reading hr _⟩
  | @filled l chunk n =>
    obtain ⟨V, hV, hr⟩ := hat
    exact .stop (hr.writeAt_files hf n trivial) rfl
  | complete hn =>
    obtain ⟨V, hV, hr⟩ := hat
    refine .go hf rfl ⟨V, hV, ?_⟩
    by_contra hne
    exact hn (hr.complete_iff.mpr hne)
  | placed hren | placedAgain hren => exact .stop (hi.placed hren hat).1 rfl
  | occupied => exact .go hf rfl hat
  | cleared =>
    obtain ⟨V, hV, hc⟩ := hat
    refine .go hf.delete rfl ⟨V, hV, ?_⟩
    simpa [Disk.delete, Disk.content, Function.update_of_ne (partName_ne target)] using hc

theorem hostedStep_inv {x x' : Hosted} {h : Happening} (hi : VersionInv was target x)
    (ha : Served x h ∧ Continues target x h) (hst : hostedStep target x h = some x') :
    VersionInv was target x' := by
  cases h with
  | replace V =>
    obtain rfl := Option.some.inj hst
    have hsub : ∀ U ∈ x.versions, U ∈ V :: x.versions := fun U hU => List.mem_cons_of_mem V hU
    exact ⟨hi.files.mono (fun _ h => h) fun b hb => hb.imp_right (hsub b),
      fun pc hpc => (hi.atPc pc hpc).mono hsub⟩
  | fetch e =>
    obtain ⟨s', hs, rfl⟩ := Option.map_eq_some_iff.mp hst
    unfold step at hs
    split at hs
    · rename_i pc hpc
      exact (stepPc_moves hs).versionInv hi hpc ha.1 ha.2
    · split at hs
      · obtain rfl := Option.some.inj hs
        exact .go hi.files rfl trivial
      · simp at hs

/-- No call is running, and no two names stand for one file. -/
structure Settled (target : Name) (s : State) : Prop where
  quiet : s.call.busy = false
  apart : ∀ i, s.disk.entry (partName target) = some i → s.disk.entry target ≠ some i
  old : ∀ n i, s.disk.entry n = some i → i < s.disk.fresh

theorem Settled.inv {x : Hosted} (h : Settled target x.client) :
    VersionInv (fun b => x.client.disk.content target = some b) target x :=
  .stop ⟨fun _ _ => trivial, fun i hi => .inl (by simp [Disk.content, hi]), h.apart, h.old⟩ h.quiet

theorem versions_run {x₀ x : Hosted} (hs : Settled target x₀.client)
    (h : Run (hostedStep target) (fun x e => Served x e ∧ Continues target x e) x₀ x) :
    VersionInv (fun b => x₀.client.disk.content target = some b) target x :=
  h.invariant (fun _ _ _ hi ha hst => hostedStep_inv hi ha hst) hs.inv

theorem renamed_places {x x' : Hosted} (hi : VersionInv was target x)
    (hst : hostedStep target x (.fetch (.renamed true)) = some x') :
    ∃ V ∈ x'.versions, x'.client.disk.content target = some V := by
  obtain ⟨s', hs, rfl⟩ := Option.map_eq_some_iff.mp hst
  unfold step at hs
  split at hs
  · rename_i pc hpc
    have hat := hi.atPc pc hpc
    cases stepPc_moves hs with
    | placed hren | placedAgain hren => exact (hi.placed hren hat).2
  · simp at hs

/-- As long as every 206 goes on with the version on disk, what a call renames into place is one
version, and the target never holds anything else. -/
theorem fetch_keeps_versions (target : Name) {x₀ x : Hosted} (hs : Settled target x₀.client)
    (h : Run (hostedStep target) (fun x e => Served x e ∧ Continues target x e) x₀ x) :
    (∀ x', hostedStep target x (.fetch (.renamed true)) = some x' →
      ∃ V ∈ x'.versions, x'.client.disk.content target = some V) ∧
    (∀ b, x.client.disk.content target = some b →
      x₀.client.disk.content target = some b ∨ b ∈ x.versions) := by
  have hi := versions_run hs h
  exact ⟨fun x' hst => renamed_places hi hst, hi.files.content.2⟩

/-- One call brings down a byte and is killed, the server takes up `new`, and a second call goes on
from that byte to its end. -/
def resumedAfter (old new : Bytes) : List Happening :=
  [.fetch .call, .fetch .go, .fetch (.reply (serve old 0)), .fetch .go, .fetch (.cancelled false),
    .fetch (.bytes 1), .fetch .go, .fetch .kill, .replace new,
    .fetch .call, .fetch .go, .fetch (.reply (serve new 1)), .fetch .go, .fetch (.cancelled false),
    .fetch (.bytes 1), .fetch .go, .fetch (.cancelled false), .fetch .eof, .fetch .go,
    .fetch (.renamed true)]

/-- A server that does all that is asked of it, and takes up a version only between two calls. -/
def Exact (target : Name) (x : Hosted) : Happening → Prop
  | .fetch e => Faithful x.version target true x.client e
  | .replace _ => x.client.call.busy = false

theorem Exact.served {x : Hosted} {h : Happening} (he : Exact target x h) : Served x h := by
  cases h with
  | fetch e => exact Faithful.serves he
  | replace V => trivial

/-- The second version begins as the first did. -/
theorem fetch_keeps_versions_replaced : ∃ x,
    Run (hostedStep (kt "m")) (fun x e => Served x e ∧ Continues (kt "m") x e)
      ⟨fresh, [1, 2], []⟩ x ∧
    x.client.disk.content (kt "m") = some [1, 3] ∧
    (∀ b, x.client.disk.content (kt "m") = some b →
      fresh.disk.content (kt "m") = some b ∨ b ∈ x.versions) := by
  have hr : replay (hostedStep (kt "m"))
      (fun x e => Exact (kt "m") x e ∧ Continues (kt "m") x e) ⟨fresh, [1, 2], []⟩
      (resumedAfter [1, 2] [1, 3]) _ :=
    ⟨⟨trivial, trivial⟩, _, rfl, ⟨trivial, trivial⟩, _, rfl,
      ⟨serve_asked _ _, fun _ => List.nil_prefix⟩, _, rfl, ⟨trivial, trivial⟩, _, rfl,
      ⟨trivial, trivial⟩, _, rfl, ⟨trivial, trivial⟩, _, rfl, ⟨trivial, trivial⟩, _, rfl,
      ⟨trivial, trivial⟩, _, rfl, ⟨rfl, trivial⟩, _, rfl, ⟨trivial, trivial⟩, _, rfl,
      ⟨trivial, trivial⟩, _, rfl, ⟨serve_asked _ _, fun _ => by decide⟩, _, rfl,
      ⟨trivial, trivial⟩, _, rfl, ⟨trivial, trivial⟩, _, rfl, ⟨trivial, trivial⟩, _, rfl,
      ⟨trivial, trivial⟩, _, rfl, ⟨trivial, trivial⟩, _, rfl, ⟨trivial, trivial⟩, _, rfl,
      ⟨trivial, trivial⟩, _, rfl, ⟨rfl, trivial⟩, _, rfl, rfl⟩
  have hrun := (replay_run hr).mono fun _ _ h => And.intro h.1.served h.2
  have hs : Settled (kt "m") fresh := ⟨rfl, by simp [fresh], by simp [fresh]⟩
  exact ⟨_, hrun, by decide, (fetch_keeps_versions (kt "m") hs hrun).2⟩

/-- The second version shares no byte with the first. -/
theorem fetch_mixes_versions : ∃ x,
    Run (hostedStep (kt "m")) (Exact (kt "m")) ⟨fresh, [1, 2], []⟩ x ∧
    x.client.call = .returned ∧ x.client.disk.content (kt "m") = some [1, 4] ∧
    [1, 4] ∉ x.versions := by
  have hr : replay (hostedStep (kt "m")) (Exact (kt "m")) ⟨fresh, [1, 2], []⟩
      (resumedAfter [1, 2] [3, 4]) _ :=
    ⟨trivial, _, rfl, trivial, _, rfl, serve_asked _ _, _, rfl, trivial, _, rfl,
      trivial, _, rfl, trivial, _, rfl, trivial, _, rfl, trivial, _, rfl, rfl, _, rfl,
      trivial, _, rfl, trivial, _, rfl, serve_asked _ _, _, rfl, trivial, _, rfl,
      trivial, _, rfl, trivial, _, rfl, trivial, _, rfl, trivial, _, rfl, trivial, _, rfl,
      trivial, _, rfl, rfl, _, rfl, rfl⟩
  exact ⟨_, replay_run hr, rfl, by decide, by decide⟩

end ReadersSpeech.Download
