import ReadersSpeech.ModelFiles
import ReadersSpeech.ModelFolder

/-! `ModelFiles.open`, called in any of the apps while all of them go on fetching, removing and
sweeping. A descriptor stands for the file it was opened on, in the folder of the app that handed
it over, whatever becomes of the name.
-/

set_option autoImplicit false

namespace ReadersSpeech.ModelSharing
open Download ModelFiles ModelFolder Transition

structure Request where
  name : Name
  minBytes : Int64
  deriving DecidableEq

structure Descriptor where
  owner : Str
  file : Nat
  deriving DecidableEq

/-- Where a call of `open` stands. What it returns is held until it is closed: a descriptor, or
the path of our own file, for which nothing is open. -/
inductive Call where
  | idle
  | readingOwn (q : Request)
  | asking (q : Request) (rest : List Str)
  | testing (q : Request) (pfd : Descriptor) (rest : List Str)
  | closing (q : Request) (pfd : Descriptor) (rest : List Str)
  | holding (q : Request) (pfd : Option Descriptor)
  | refused (q : Request)
  deriving DecidableEq

/-- `descriptors` is what the system has open for each call. -/
structure State (κ : Type) where
  folder : Str → ModelFolder.Folder
  call : κ → Call
  descriptors : κ → List Descriptor

inductive Event (κ : Type) where
  | folder (app : Str) (e : ModelFolder.Event)
  | open_ (k : κ) (q : Request)
  | go (k : κ)
  /-- The app that is asked checks who asks. -/
  | answer (k : κ) (allowed : Bool)
  | close (k : κ)
  | kill (k : κ)

/-- The file behind the descriptor that `ModelProvider.openFile` returns. -/
def provided (allowed : Bool) (name : Name) (d : Disk) : Option Nat :=
  if !allowed then none else ((some name).filter ModelProvider.isModelName).bind d.entry

def statSize (d : Disk) (file : Nat) : Int64 := Int64.ofNat (d.data file).length

/-- `File.length`, where the file is there. -/
def ownLength (d : Disk) (name : Name) : Option Int64 := (d.entry name).map (statSize d)

variable {κ : Type} [DecidableEq κ]

def goTo (s : State κ) (k : κ) (c : Call) : State κ :=
  { s with call := Function.update s.call k c }

def opens (s : State κ) (k : κ) (pfd : Descriptor) : State κ :=
  { s with descriptors := Function.update s.descriptors k (pfd :: s.descriptors k) }

def closes (s : State κ) (k : κ) (pfd : Descriptor) : State κ :=
  { s with descriptors := Function.update s.descriptors k ((s.descriptors k).erase pfd) }

variable (home : κ → Str)

/-- What a call does by itself. -/
def go (s : State κ) (k : κ) : Option (State κ) :=
  match s.call k with
  | .readingOwn q =>
    some (if enough (ownLength (s.folder (home k)).disk q.name) q.minBytes then
      goTo s k (.holding q none) else goTo s k (.asking q SIBLINGS))
  | .asking q [] => some (goTo s k (.refused q))
  | .asking q (pkg :: rest) =>
    if pkg = home k then some (goTo s k (.asking q rest)) else none
  | .testing q pfd rest =>
    some (if enough (some (statSize (s.folder pfd.owner).disk pfd.file)) q.minBytes then
      goTo s k (.holding q (some pfd)) else goTo s k (.closing q pfd rest))
  | .closing q pfd rest => some (goTo (closes s k pfd) k (.asking q rest))
  | _ => none

/-- What the app that is asked hands over. -/
def answer (s : State κ) (k : κ) (allowed : Bool) : Option (State κ) :=
  match s.call k with
  | .asking q (pkg :: rest) =>
    if pkg = home k then none
    else match provided allowed q.name (s.folder pkg).disk with
      | none => some (goTo s k (.asking q rest))
      | some file => some (goTo (opens s k ⟨pkg, file⟩) k (.testing q ⟨pkg, file⟩ rest))
  | _ => none

def close (s : State κ) (k : κ) : Option (State κ) :=
  match s.call k with
  | .holding _ none => some (goTo s k .idle)
  | .holding _ (some pfd) => some (goTo (closes s k pfd) k .idle)
  | _ => none

def step (s : State κ) : Event κ → Option (State κ)
  | .folder app e =>
    (ModelFolder.step (s.folder app) e).map fun f =>
      { s with folder := Function.update s.folder app f }
  | .open_ k q =>
    match s.call k with
    | .idle | .refused _ => some (goTo s k (.readingOwn q))
    | _ => none
  | .go k => go home s k
  | .answer k allowed => answer home s k allowed
  | .close k => close s k
  | .kill k => some { goTo s k .idle with descriptors := Function.update s.descriptors k [] }

/-- Nobody has fetched anything, and nothing is open. -/
def start : State κ := ⟨fun _ => empty, fun _ => .idle, fun _ => []⟩

/-- The request and the descriptor of a call that has one. -/
def Call.held : Call → Option (Request × Descriptor)
  | .testing q pfd _ | .closing q pfd _ | .holding q (some pfd) => some (q, pfd)
  | _ => none

/-- The apps a call has still to ask. -/
def Call.rest : Call → List Str
  | .asking _ rest | .testing _ _ rest | .closing _ _ rest => rest
  | _ => []

/-- What is open for a call is what it knows of, and a descriptor stands for a file that once had
the name of the model in another app's folder. -/
structure CallInv (home : κ → Str) (R : Name → Bytes) (s : State κ) (k : κ) : Prop where
  open_ : s.descriptors k = (s.call k).held.toList.map Prod.snd
  rest : ∀ pkg ∈ (s.call k).rest, pkg ∈ SIBLINGS
  sibling : ∀ q pfd, (s.call k).held = some (q, pfd) → pfd.owner ∈ SIBLINGS ∧ pfd.owner ≠ home k
  sealed_ : ∀ q pfd, (s.call k).held = some (q, pfd) → Sealed pfd.file (s.folder pfd.owner)
  whole : ∀ q pfd, (s.call k).held = some (q, pfd) →
    (s.folder pfd.owner).disk.data pfd.file = R q.name
  enough_ : ∀ q pfd, s.call k = .holding q (some pfd) →
    enough (some (statSize (s.folder pfd.owner).disk pfd.file)) q.minBytes = true

structure Inv (home : κ → Str) (R : Name → Bytes) (s : State κ) : Prop where
  folders : ∀ app, Fetched R (s.folder app)
  calls : ∀ k, CallInv home R s k

def Serving (R : Name → Bytes) (s : State κ) : Event κ → Prop
  | .folder app e => ModelFolder.Serving R (s.folder app) e
  | _ => True

section Steps
variable {home : κ → Str} {R : Name → Bytes} {s s' : State κ} {k : κ}

omit [DecidableEq κ] in
/-- A call without a descriptor, with none open. -/
theorem CallInv.bare (hd : s.descriptors k = []) (hc : (s.call k).held = none)
    (hr : ∀ pkg ∈ (s.call k).rest, pkg ∈ SIBLINGS) : CallInv home R s k where
  open_ := by simp [hd, hc]
  rest := hr
  sibling q pfd h := by simp [hc] at h
  sealed_ q pfd h := by simp [hc] at h
  whole q pfd h := by simp [hc] at h
  enough_ q pfd h := by simp [h, Call.held] at hc

omit [DecidableEq κ] in
/-- A call with its descriptor, the only one open. -/
theorem CallInv.having (q : Request) (pfd : Descriptor) (hc : (s.call k).held = some (q, pfd))
    (hd : s.descriptors k = [pfd]) (hr : ∀ pkg ∈ (s.call k).rest, pkg ∈ SIBLINGS)
    (hsib : pfd.owner ∈ SIBLINGS ∧ pfd.owner ≠ home k)
    (hs : Sealed pfd.file (s.folder pfd.owner))
    (hw : (s.folder pfd.owner).disk.data pfd.file = R q.name)
    (he : s.call k = .holding q (some pfd) →
      enough (some (statSize (s.folder pfd.owner).disk pfd.file)) q.minBytes = true) :
    CallInv home R s k := by
  have hsame : ∀ q' pfd', (s.call k).held = some (q', pfd') → q = q' ∧ pfd = pfd' := by
    intro q' pfd' h
    simpa [hc] using h
  constructor
  · simp [hd, hc]
  · exact hr
  · intro q' pfd' h
    obtain ⟨rfl, rfl⟩ := hsame q' pfd' h
    exact hsib
  · intro q' pfd' h
    obtain ⟨rfl, rfl⟩ := hsame q' pfd' h
    exact hs
  · intro q' pfd' h
    obtain ⟨rfl, rfl⟩ := hsame q' pfd' h
    exact hw
  · intro q' pfd' h
    obtain ⟨rfl, rfl⟩ := hsame q' pfd' (by rw [h]; rfl)
    exact he h

/-- The other calls do not notice. -/
theorem Inv.only (hi : Inv home R s) (hf : s'.folder = s.folder)
    (hother : ∀ j, j ≠ k → s'.call j = s.call j ∧ s'.descriptors j = s.descriptors j)
    (hk : CallInv home R s' k) : Inv home R s' := by
  refine ⟨fun app => by rw [hf]; exact hi.folders app, fun j => ?_⟩
  by_cases hjk : j = k
  · exact hjk ▸ hk
  · obtain ⟨hc, hd⟩ := hother j hjk
    have hj := hi.calls j
    constructor
    · rw [hc, hd]; exact hj.open_
    · rw [hc]; exact hj.rest
    · rw [hc]; exact hj.sibling
    · rw [hc, hf]; exact hj.sealed_
    · rw [hc, hf]; exact hj.whole
    · rw [hc, hf]; exact hj.enough_

theorem goTo_other (s : State κ) {k j : κ} (c : Call) (h : j ≠ k) :
    (goTo s k c).call j = s.call j ∧ (goTo s k c).descriptors j = s.descriptors j :=
  ⟨Function.update_of_ne h _ _, rfl⟩

theorem closes_other (s : State κ) {k j : κ} (pfd : Descriptor) (c : Call) (h : j ≠ k) :
    (goTo (closes s k pfd) k c).call j = s.call j ∧
      (goTo (closes s k pfd) k c).descriptors j = s.descriptors j :=
  ⟨Function.update_of_ne h _ _, Function.update_of_ne h _ _⟩

/-- A call goes on without a descriptor, as it had none. -/
theorem Inv.goes (hi : Inv home R s) {c : Call} (hnone : (s.call k).held = none)
    (hc : c.held = none) (hr : ∀ pkg ∈ c.rest, pkg ∈ SIBLINGS) : Inv home R (goTo s k c) := by
  refine hi.only rfl (fun j hj => goTo_other s c hj) (.bare ?_ (by simpa [goTo] using hc)
    (by simpa [goTo] using hr))
  simpa [goTo, hnone] using (hi.calls k).open_

/-- A call closes the one descriptor it had. -/
theorem Inv.closed (hi : Inv home R s) {q : Request} {pfd : Descriptor} {c : Call}
    (hpfd : (s.call k).held = some (q, pfd)) (hc : c.held = none)
    (hr : ∀ pkg ∈ c.rest, pkg ∈ SIBLINGS) : Inv home R (goTo (closes s k pfd) k c) := by
  refine hi.only rfl (fun j hj => closes_other s pfd c hj) (.bare ?_ (by simpa [goTo] using hc)
    (by simpa [goTo] using hr))
  simp [goTo, closes, (hi.calls k).open_, hpfd]

/-- A call keeps the descriptor it has. -/
theorem Inv.keeps (hi : Inv home R s) {q : Request} {pfd : Descriptor} {c : Call}
    (hpfd : (s.call k).held = some (q, pfd)) (hc : c.held = some (q, pfd))
    (hr : ∀ pkg ∈ c.rest, pkg ∈ SIBLINGS)
    (he : ∀ pfd', c = .holding q (some pfd') →
      enough (some (statSize (s.folder pfd'.owner).disk pfd'.file)) q.minBytes = true) :
    Inv home R (goTo s k c) := by
  have hk := hi.calls k
  have hcall : (goTo s k c).call k = c := Function.update_self ..
  refine hi.only rfl (fun j hj => goTo_other s c hj) ?_
  refine .having q pfd (by rw [hcall, hc]) (hk.open_.trans (by rw [hpfd]; rfl))
    (by rw [hcall]; exact hr) (hk.sibling q pfd hpfd) (hk.sealed_ q pfd hpfd)
    (hk.whole q pfd hpfd) fun h => ?_
  exact he pfd (hcall.symm.trans h)

theorem Inv.go (hi : Inv home R s) (h : go home s k = some s') : Inv home R s' := by
  have hk := hi.calls k
  unfold ModelSharing.go at h
  split at h
  · rename_i q hpc
    obtain rfl := Option.some.inj h
    split
    · exact hi.goes (by simp [hpc, Call.held]) rfl (by simp [Call.rest])
    · exact hi.goes (by simp [hpc, Call.held]) rfl (by simp [Call.rest])
  · rename_i q hpc
    obtain rfl := Option.some.inj h
    exact hi.goes (by simp [hpc, Call.held]) rfl (by simp [Call.rest])
  · rename_i q pkg rest hpc
    split at h
    · obtain rfl := Option.some.inj h
      have hr := hk.rest
      rw [hpc] at hr
      exact hi.goes (by simp [hpc, Call.held]) rfl fun p hp => hr p (.tail _ hp)
    · simp at h
  · rename_i q pfd rest hpc
    obtain rfl := Option.some.inj h
    have hr := hk.rest
    rw [hpc] at hr
    split
    · rename_i he
      refine hi.keeps (by rw [hpc]; rfl) rfl (by simp [Call.rest]) fun pfd' hp => ?_
      obtain rfl : pfd = pfd' := by simpa using hp
      exact he
    · exact hi.keeps (by rw [hpc]; rfl) rfl hr nofun
  · rename_i q pfd rest hpc
    obtain rfl := Option.some.inj h
    have hr := hk.rest
    rw [hpc] at hr
    exact hi.closed (by rw [hpc]; rfl) rfl hr
  · simp at h

/-- A file that the provider hands over is the whole model, and stays it. -/
theorem provided_whole {f : ModelFolder.Folder} (hf : Fetched R f) {allowed : Bool} {name : Name}
    {file : Nat} (h : provided allowed name f.disk = some file) :
    Sealed file f ∧ f.disk.data file = R name := by
  unfold provided at h
  split at h
  · simp at h
  · obtain ⟨n, hn, he⟩ := Option.bind_eq_some_iff.mp h
    obtain ⟨hname, hmodel⟩ := Option.filter_eq_some_iff.mp hn
    obtain rfl := Option.some.inj hname
    exact ⟨hf.tidy.seals hmodel he, (hf.inv name hmodel).sound.whole file he⟩

theorem Inv.answer (hi : Inv home R s) {allowed : Bool}
    (h : answer home s k allowed = some s') : Inv home R s' := by
  have hk := hi.calls k
  unfold ModelSharing.answer at h
  split at h
  · rename_i q pkg rest hpc
    have hr := hk.rest
    rw [hpc] at hr
    have hnone : (s.call k).held = none := by rw [hpc]; rfl
    split at h
    · simp at h
    · rename_i hne
      split at h
      · obtain rfl := Option.some.inj h
        exact hi.goes hnone rfl fun p hp => hr p (.tail _ hp)
      · rename_i file hfile
        obtain rfl := Option.some.inj h
        obtain ⟨hsealed, hwhole⟩ := provided_whole (hi.folders pkg) hfile
        have hopen := hk.open_
        rw [hnone] at hopen
        refine hi.only rfl (fun j hj => ⟨Function.update_of_ne hj _ _,
          Function.update_of_ne hj _ _⟩) ?_
        have hcall : (goTo (opens s k ⟨pkg, file⟩) k (.testing q ⟨pkg, file⟩ rest)).call k =
            .testing q ⟨pkg, file⟩ rest := Function.update_self ..
        refine .having q ⟨pkg, file⟩ (by rw [hcall]; rfl) ?_
          (by rw [hcall]; exact fun p hp => hr p (.tail _ hp)) ⟨hr pkg (.head _), hne⟩ hsealed
          hwhole fun h => ?_
        · simp [goTo, opens, hopen]
        · simp [hcall] at h
  · simp at h

theorem Inv.close (hi : Inv home R s) (h : close s k = some s') : Inv home R s' := by
  unfold ModelSharing.close at h
  split at h
  · rename_i q hpc
    obtain rfl := Option.some.inj h
    exact hi.goes (by simp [hpc, Call.held]) rfl (by simp [Call.rest])
  · rename_i q pfd hpc
    obtain rfl := Option.some.inj h
    exact hi.closed (by rw [hpc]; rfl) rfl (by simp [Call.rest])
  · simp at h

omit [DecidableEq κ] in
/-- What happens in a folder leaves the files that were handed over from it as they are. -/
theorem Inv.folder (hi : Inv home R s) {app : Str} {e : ModelFolder.Event} {f : ModelFolder.Folder}
    (ha : ModelFolder.Serving R (s.folder app) e)
    (h : ModelFolder.step (s.folder app) e = some f) :
    Inv home R { s with folder := Function.update s.folder app f } := by
  have hkept : ∀ a i, Sealed i (s.folder a) →
      Sealed i (Function.update s.folder app f a) ∧
        (Function.update s.folder app f a).disk.data i = (s.folder a).disk.data i := by
    intro a i hs
    by_cases haa : a = app
    · subst haa
      simpa using step_sealed (hi.folders a).tidy hs h
    · simpa [Function.update_of_ne haa] using hs
  constructor
  · intro a
    by_cases haa : a = app
    · subst haa
      simpa using step_fetched (hi.folders a) ha h
    · simpa [Function.update_of_ne haa] using hi.folders a
  · intro k
    have hk := hi.calls k
    refine ⟨hk.open_, hk.rest, hk.sibling, fun q pfd hq => ?_, fun q pfd hq => ?_,
      fun q pfd hq => ?_⟩
    · exact (hkept _ _ (hk.sealed_ q pfd hq)).1
    · exact (hkept _ _ (hk.sealed_ q pfd hq)).2.trans (hk.whole q pfd hq)
    · have hd := (hkept _ _ (hk.sealed_ q pfd (by rw [hq]; rfl))).2
      simpa [statSize, hd] using hk.enough_ q pfd hq

theorem Inv.step (hi : Inv home R s) {e : Event κ} (ha : Serving R s e)
    (h : step home s e = some s') : Inv home R s' := by
  cases e with
  | folder app e =>
    obtain ⟨f, hf, rfl⟩ := Option.map_eq_some_iff.mp h
    exact hi.folder ha hf
  | open_ k q =>
    simp only [ModelSharing.step] at h
    split at h
    · obtain rfl := Option.some.inj h
      exact hi.goes (by simp [*, Call.held]) rfl (by simp [Call.rest])
    · obtain rfl := Option.some.inj h
      exact hi.goes (by simp [*, Call.held]) rfl (by simp [Call.rest])
    · simp at h
  | go k => exact hi.go h
  | answer k allowed => exact hi.answer h
  | close k => exact hi.close h
  | kill k =>
    obtain rfl := Option.some.inj h
    refine hi.only rfl (fun j hj => ⟨Function.update_of_ne hj _ _, Function.update_of_ne hj _ _⟩)
      (.bare (Function.update_self k [] s.descriptors) ?_ ?_)
    · simp [goTo, Call.held]
    · simp [goTo, Call.rest]

end Steps

omit [DecidableEq κ] in
theorem start_inv (home : κ → Str) (R : Name → Bytes) : Inv home R (start : State κ) :=
  ⟨fun _ => run_fetched .refl, fun _ => .bare rfl rfl (by simp [start, Call.rest])⟩

section Given
variable {home : κ → Str} {s s' : State κ} {k : κ}

theorem goTo_call (s : State κ) (j k : κ) (c : Call) :
    (goTo s j c).call k = if k = j then c else s.call k := Function.update_apply ..

end Given

/-- The first of the apps that is another one and hands over enough. -/
def firstHolder (packageName : Str) (shared : Str → Option Int64) (minBytes : Int64) :
    List Str → Option Str :=
  List.find? fun pkg => decide (pkg ≠ packageName) && enough (shared pkg) minBytes

/-- The size of what an app hands over, where `allowed` says who is let in. -/
def handed (allowed : Str → Bool) (folder : Str → ModelFolder.Folder) (name pkg : Str) :
    Option Int64 :=
  (provided (allowed pkg) name (folder pkg).disk).map (statSize (folder pkg).disk)

/-- The app whose file a call of `open` comes to hold, when nothing else happens. -/
def opensFrom (packageName : Str) (allowed : Str → Bool) (folder : Str → ModelFolder.Folder) :
    Call → Option Str
  | .readingOwn q =>
    if enough (ownLength (folder packageName).disk q.name) q.minBytes then some packageName
    else firstHolder packageName (handed allowed folder q.name) q.minBytes SIBLINGS
  | .asking q rest | .closing q _ rest =>
    firstHolder packageName (handed allowed folder q.name) q.minBytes rest
  | .testing q pfd rest =>
    if enough (some (statSize (folder pfd.owner).disk pfd.file)) q.minBytes then some pfd.owner
    else firstHolder packageName (handed allowed folder q.name) q.minBytes rest
  | .holding _ none => some packageName
  | .holding _ (some pfd) => some pfd.owner
  | .idle | .refused _ => none

/-- Only the call goes on, and the apps it asks answer it. -/
def Alone (allowed : Str → Bool) (k : κ) (s : State κ) (e : Event κ) : Prop :=
  e = .go k ∨ ∃ q pkg rest, s.call k = .asking q (pkg :: rest) ∧ e = .answer k (allowed pkg)

/-- A step of the call that leads where it was going. -/
structure Leads (home : κ → Str) (allowed : Str → Bool) (k : κ) (s s' : State κ) : Prop where
  folder : s'.folder = s.folder
  opens : opensFrom (home k) allowed s.folder (s'.call k) =
    opensFrom (home k) allowed s.folder (s.call k)

section Alone
variable {home : κ → Str} {allowed : Str → Bool} {s s' : State κ} {k : κ}

theorem go_leads (h : go home s k = some s') : Leads home allowed k s s' := by
  unfold go at h
  split at h
  · rename_i q hpc
    obtain rfl := Option.some.inj h
    split <;> rename_i he <;> exact ⟨rfl, by simp [opensFrom, goTo, hpc, he]⟩
  · rename_i q hpc
    obtain rfl := Option.some.inj h
    exact ⟨rfl, by simp [opensFrom, goTo, hpc, firstHolder]⟩
  · rename_i q pkg rest hpc
    split at h
    · rename_i heq
      obtain rfl := Option.some.inj h
      exact ⟨rfl, by simp [opensFrom, goTo, hpc, firstHolder, heq]⟩
    · simp at h
  · rename_i q pfd rest hpc
    obtain rfl := Option.some.inj h
    split <;> rename_i he <;> exact ⟨rfl, by simp [opensFrom, goTo, hpc, he]⟩
  · rename_i q pfd rest hpc
    obtain rfl := Option.some.inj h
    exact ⟨rfl, by simp [opensFrom, goTo, closes, hpc]⟩
  · simp at h

theorem answer_leads {q : Request} {pkg : Str} {rest : List Str}
    (hpc : s.call k = .asking q (pkg :: rest)) (h : answer home s k (allowed pkg) = some s') :
    Leads home allowed k s s' := by
  simp only [answer, hpc] at h
  split at h
  · simp at h
  · rename_i hne
    split at h
    · rename_i hnone
      obtain rfl := Option.some.inj h
      exact ⟨rfl, by simp [opensFrom, goTo, hpc, firstHolder, handed, hnone, enough]⟩
    · rename_i file hfile
      obtain rfl := Option.some.inj h
      refine ⟨rfl, ?_⟩
      simp only [opensFrom, goTo, opens, hpc, firstHolder, handed, hfile, Function.update_self,
        Option.map_some, List.find?_cons, hne, ne_eq, not_false_eq_true, decide_true,
        Bool.true_and]
      split <;> rename_i he <;> simp [he]

theorem run_leads (h : Run (step home) (Alone allowed k) s s') : Leads home allowed k s s' := by
  refine h.invariant (I := Leads home allowed k s) (fun t e t' ht ha hst => ?_) ⟨rfl, rfl⟩
  have hnext : Leads home allowed k t t' := by
    rcases ha with rfl | ⟨q, pkg, rest, hpc, rfl⟩
    · exact go_leads hst
    · exact answer_leads hpc hst
  refine ⟨hnext.folder.trans ht.folder, ?_⟩
  rw [← ht.folder, hnext.opens, ht.folder, ht.opens]

end Alone

section Holder
variable {ι : Type} [DecidableEq ι] {packageName : Str} {x x' : ModelFiles.State ι} {i : ι}

/-- The app that a call of `holder` comes to name, when nothing else happens and nothing is
remembered. -/
def names (packageName : Str) (own : Str → Option Int64) (shared : Str → Str → Option Int64) :
    ModelFiles.Pc → Option Str
  | .idle => none
  | .readingOwn q =>
    if enough (own q.name) q.minBytes then some packageName
    else firstHolder packageName (shared · q.name) q.minBytes SIBLINGS
  | .readingClock q | .looking q _ =>
    firstHolder packageName (shared · q.name) q.minBytes SIBLINGS
  | .asking q _ rest => firstHolder packageName (shared · q.name) q.minBytes rest
  | .storing _ _ who => who.value

def OnlyCall (i : ι) (_ : ModelFiles.State ι) (e : ModelFiles.Event ι) : Prop :=
  e = .go i ∨ ∃ shown, e = .reads i shown

def queryOf : ModelFiles.Pc → Option Query
  | .idle => none
  | .readingOwn q | .readingClock q | .looking q _ | .asking q _ _ | .storing q _ _ => some q

/-- Until it returns, the call knows of no answer but those of the apps, and is to name `who`. What
was returned before is `old`. -/
structure Naming (packageName : Str) (who : Option Str) (i : ι) (old : List Return)
    (x : ModelFiles.State ι) : Prop where
  cache : ∀ q, queryOf (x.calls i) = some q → x.cache q.name = none
  named : x.calls i ≠ .idle → names packageName x.own x.shared (x.calls i) = who
  returned : ∃ new, x.returned = old ++ new ∧ ∀ r ∈ new, r.who = who

variable {who : Option Str} {old : List Return}

theorem Naming.goTo (h : Naming packageName who i old x) (hi : x.calls i ≠ .idle)
    {pc : ModelFiles.Pc} (hq : queryOf pc = queryOf (x.calls i))
    (hpc : names packageName x.own x.shared pc = names packageName x.own x.shared (x.calls i)) :
    Naming packageName who i old (ModelFiles.goTo x i pc) := by
  refine ⟨fun q hpq => h.cache q ?_, fun _ => ?_, h.returned⟩
  · rw [← hq]
    simpa [ModelFiles.goTo] using hpq
  · simpa [ModelFiles.goTo, hpc] using h.named hi

theorem Naming.returns (h : Naming packageName who i old x) (hi : x.calls i ≠ .idle)
    {r : ModelFiles.Return} (hr : r.who = names packageName x.own x.shared (x.calls i)) :
    Naming packageName who i old (ModelFiles.returns x i r) := by
  have hidle : (ModelFiles.returns x i r).calls i = .idle := Function.update_self ..
  obtain ⟨new, hnew, hwho⟩ := h.returned
  refine ⟨fun q hq => by simp [hidle, queryOf] at hq, fun hne => absurd hidle hne, new ++ [r], ?_,
    fun r' hr' => ?_⟩
  · rw [← List.append_assoc, ← hnew]
    rfl
  · rcases List.mem_append.mp hr' with hr' | hr'
    · exact hwho r' hr'
    · obtain rfl := List.mem_singleton.mp hr'
      exact hr.trans (h.named hi)

theorem Naming.go (h : Naming packageName who i old x)
    (hs : ModelFiles.go packageName x i = some x') : Naming packageName who i old x' := by
  unfold ModelFiles.go at hs
  cases hpc : x.calls i with
  | idle | readingClock q => simp [hpc] at hs
  | readingOwn q =>
    have hi : x.calls i ≠ .idle := by simp [hpc]
    simp only [hpc, Option.some.injEq] at hs
    subst hs
    split <;> rename_i he
    · exact h.returns hi (by simp [names, hpc, he])
    · exact h.goTo hi (by simp [queryOf, hpc]) (by simp [names, hpc, he])
  | looking q now =>
    have hi : x.calls i ≠ .idle := by simp [hpc]
    have hlook : x.cache.look CACHE_MS q.name now = none := by
      rw [Remembering.Memory.look, h.cache q (by simp [queryOf, hpc])]
    simp only [hpc, Option.some.injEq, hlook] at hs
    subst hs
    exact h.goTo hi (by simp [queryOf, hpc]) (by simp [names, hpc])
  | asking q now rest =>
    have hi : x.calls i ≠ .idle := by simp [hpc]
    simp only [hpc, Option.some.injEq] at hs
    subst hs
    cases rest with
    | nil => exact h.goTo hi (by simp [queryOf, hpc]) (by simp [names, hpc, firstHolder])
    | cons pkg rest =>
      simp only [ask]
      split <;> rename_i hask
      · exact h.goTo hi (by simp [queryOf, hpc])
          (by simp [names, hpc, firstHolder, hask.1, hask.2])
      · exact h.goTo hi (by simp [queryOf, hpc]) (by simp [names, hpc, firstHolder]; grind)
  | storing q now who' =>
    have hi : x.calls i ≠ .idle := by simp [hpc]
    simp only [hpc, Option.some.injEq] at hs
    subst hs
    have hr := h.returns hi (r := ⟨q, who'.value, none⟩) (by simp [names, hpc])
    have hidle : (ModelFiles.returns x i ⟨q, who'.value, none⟩).calls i = .idle :=
      Function.update_self ..
    exact ⟨fun q' hq => by simp [hidle, queryOf] at hq, fun hne => absurd hidle hne, hr.returned⟩

theorem Naming.step (h : Naming packageName who i old x) {e : ModelFiles.Event ι}
    (he : OnlyCall i x e) (hs : ModelFiles.step packageName x e = some x') :
    Naming packageName who i old x' := by
  rcases he with rfl | ⟨shown, rfl⟩
  · exact h.go hs
  · simp only [ModelFiles.step] at hs
    split at hs
    · rename_i q hpc
      obtain rfl := Option.some.inj hs
      exact h.goTo (by simp [hpc]) (by simp [queryOf, hpc]) (by simp [names, hpc])
    · simp at hs

/-- `open` and `holder` name the same app, when nobody fetches or removes anything and nothing is
remembered for the name: `available` says yes where `open` has something to hold, and only there.
What was returned before, and what is remembered for other names, is of no matter. -/
theorem open_agrees_with_holder {home : κ → Str} {allowed : Str → Bool} {s s' : State κ} {k : κ}
    {q : Request} {q' : Query} (hs : s.call k = .readingOwn q) (hx : x.calls i = .readingOwn q')
    (hname : q'.name = q.name) (hmin : q'.minBytes = q.minBytes)
    (hown : x.own q.name = ownLength (s.folder (home k)).disk q.name)
    (hshared : ∀ pkg, x.shared pkg q.name = handed allowed s.folder q.name pkg)
    (hcache : x.cache q.name = none)
    (h : Run (step home) (Alone allowed k) s s')
    (h' : Run (ModelFiles.step (home k)) (OnlyCall i) x x') :
    ∃ new, x'.returned = x.returned ++ new ∧ ∀ r ∈ new,
      (∀ pfd, s'.call k = .holding q pfd → r.who = some (pfd.elim (home k) Descriptor.owner)) ∧
      (s'.call k = .refused q → r.who = none) := by
  have hn : Naming (home k) (opensFrom (home k) allowed s.folder (s.call k)) i x.returned x := by
    refine ⟨fun q'' hq => ?_, fun _ => ?_, [], by simp, by simp⟩
    · obtain rfl : q' = q'' := by simpa [hx, queryOf] using hq
      rw [hname]
      exact hcache
    · have hsh : (fun pkg => x.shared pkg q.name) = handed allowed s.folder q.name :=
        funext hshared
      simp only [hx, hs, names, opensFrom, hname, hmin, hown, hsh]
  have hi := h'.invariant (I := fun t => Naming (home k) _ i x.returned t)
    (fun _ _ _ ht ha hst => ht.step ha hst) hn
  have ho := (run_leads h).opens
  obtain ⟨new, hnew, hall⟩ := hi.returned
  refine ⟨new, hnew, fun r hr => ?_⟩
  have hwho := (hall r hr).trans ho.symm
  refine ⟨fun pfd hp => ?_, fun hp => ?_⟩
  · rw [hwho, hp]
    cases pfd <;> rfl
  · rw [hwho, hp]
    rfl

end Holder

/-- The first of the siblings has the model. -/
def oneHas (app : Str) : ModelFolder.Folder :=
  if app = kt "com.freedomfighter.readersaudio" then fetchedAll (kt "m") [9] else empty

def opening : State Unit := ⟨oneHas, fun _ => .readingOwn ⟨kt "m", 1⟩, fun _ => []⟩

def asked : ModelFiles.State Unit where
  own _ := none
  shared pkg name := handed (fun _ => true) oneHas name pkg
  cache name := if name = kt "n" then some (⟨0, 0⟩, ⟨none, 0, 0⟩) else none
  calls _ := .readingOwn ⟨kt "m", 1, 0, 0⟩
  time := 0
  refreshes := 0
  returned := [⟨⟨kt "n", 1, 0, 0⟩, none, none⟩]

/-- Another name is remembered, and its answer was returned. -/
theorem open_agrees_with_holder_first : ∃ s' x' r,
    Run (step fun _ : Unit => kt "com.freedomfighter.readersrecorder") (Alone (fun _ => true) ())
      opening s' ∧
    Run (ModelFiles.step (kt "com.freedomfighter.readersrecorder")) (OnlyCall ()) asked x' ∧
    s'.call () = .holding ⟨kt "m", 1⟩ (some ⟨kt "com.freedomfighter.readersaudio", 0⟩) ∧
    r ∈ x'.returned ∧ r.who = some (kt "com.freedomfighter.readersaudio") := by
  have hs : replay (step fun _ : Unit => kt "com.freedomfighter.readersrecorder")
      (Alone (fun _ => true) ()) opening [.go (), .answer () true, .go ()] _ :=
    ⟨.inl rfl, _, rfl, .inr ⟨_, _, _, rfl, rfl⟩, _, rfl, .inl rfl, _, rfl, rfl⟩
  have hx : replay (ModelFiles.step (kt "com.freedomfighter.readersrecorder")) (OnlyCall ()) asked
      [.go (), .reads () 0, .go (), .go (), .go ()] _ :=
    ⟨.inl rfl, _, rfl, .inr ⟨0, rfl⟩, _, rfl, .inl rfl, _, rfl, .inl rfl, _, rfl, .inl rfl, _, rfl,
      rfl⟩
  let found : Return :=
    ⟨⟨kt "m", 1, 0, 0⟩, some (kt "com.freedomfighter.readersaudio"), none⟩
  obtain ⟨new, hnew, hall⟩ := open_agrees_with_holder rfl rfl rfl rfl rfl (fun _ => rfl) rfl
    (replay_run hs) (replay_run hx)
  have hreturned : asked.returned ++ new = asked.returned ++ [found] := hnew.symm
  obtain rfl := List.append_cancel_left hreturned
  refine ⟨_, _, found, replay_run hs, replay_run hx, by decide, .tail _ (.head _), ?_⟩
  exact (hall found (.head _)).1 (some ⟨kt "com.freedomfighter.readersaudio", 0⟩) (by decide)

end ReadersSpeech.ModelSharing
