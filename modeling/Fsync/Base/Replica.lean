import Fsync.Base.Run
import Mathlib.Logic.Function.Basic
import Mathlib.Tactic.Common

/-!
# Two replicas with copies in flight

Files that are on two machines.  A user saves a file on either of them.  A push
copies the client's version to the server at once; a pull is started when something
changes on the server, and copies back what is there when it runs.  Nothing compares
versions.

A version knows the time at which it was saved, so "older" has a meaning.  `Keeps`
says that a step replaces a version of a file only by one that was saved later.

* `keeps_along_iff`: every step of a run keeps a file if and only if no pull of it
  finds a newer version on the client and no push of it a newer one on the server;
* `inOrder_of_careful`: what the users can take care of so that this is so.
-/

namespace Replica

variable {φ δ : Type*}

/-! ## The two machines -/

/-- What a file holds, and when that was saved. -/
structure Version (δ : Type*) where
  /-- when it was saved -/
  time : ℕ
  data : δ
  deriving DecidableEq

/-- Files on a client and their copies on a server. -/
structure State (φ δ : Type*) where
  clock : ℕ
  client : φ → Version δ
  /-- The server may not have the file. -/
  server : φ → Option (Version δ)
  /-- The pulls that were started and did not run yet. -/
  pending : List φ

/-- What changes the files or starts and runs a pull. -/
inductive Action (φ δ : Type*) where
  | saveClient (f : φ) (data : δ)
  /-- A push, and the pulls that the write on the server starts. -/
  | push (f : φ) (fired : List φ)
  | saveServer (f : φ) (data : δ) (fired : List φ)
  /-- Something else changes on the server. -/
  | notice (fired : List φ)
  /-- The pull at a position of `pending` runs. -/
  | pull (i : ℕ)

/-- The client's files at the start; the server has none of them. -/
def start (data : φ → δ) : State φ δ := ⟨0, fun f => ⟨0, data f⟩, fun _ => none, []⟩

variable [DecidableEq φ]

/-- A save gets the next time of the clock; a push and a pull copy the whole version. -/
def step (s : State φ δ) : Action φ δ → Option (State φ δ)
  | .saveClient f data => some { s with
      clock := s.clock + 1
      client := Function.update s.client f ⟨s.clock + 1, data⟩ }
  | .push f fired => some { s with
      server := Function.update s.server f (some (s.client f))
      pending := s.pending ++ fired }
  | .saveServer f data fired =>
    if (s.server f).isSome then
      some { s with
        clock := s.clock + 1
        server := Function.update s.server f (some ⟨s.clock + 1, data⟩)
        pending := s.pending ++ fired }
    else none
  | .notice fired => some { s with pending := s.pending ++ fired }
  | .pull i => (s.pending[i]?).map fun f => { s with
      client := (s.server f).elim s.client (Function.update s.client f)
      pending := s.pending.eraseIdx i }

theorem step_saveServer {s : State φ δ} {f : φ} (h : (s.server f).isSome = true) (data : δ)
    (fired : List φ) : step s (.saveServer f data fired) = some { s with
      clock := s.clock + 1
      server := Function.update s.server f (some ⟨s.clock + 1, data⟩)
      pending := s.pending ++ fired } := if_pos h

theorem step_pull {s : State φ δ} {f : φ} {i : ℕ} (h : s.pending[i]? = some f) :
    step s (.pull i) = some { s with
      client := (s.server f).elim s.client (Function.update s.client f)
      pending := s.pending.eraseIdx i } := by
  rw [step, h, Option.map_some]

/-! ## What a step does to one file -/

/-- The client's version is on the server, or a later one is. -/
def Sent (f : φ) (s : State φ δ) : Prop := ∀ v, s.server f = some v → (s.client f).time ≤ v.time

/-- The server's version is on the client, or a later one is. -/
def Received (f : φ) (s : State φ δ) : Prop :=
  ∀ v, s.server f = some v → v.time ≤ (s.client f).time

/-- A version of the file `f` is replaced only by one that was saved later. -/
structure Keeps (f : φ) (s s' : State φ δ) : Prop where
  client : s'.client f = s.client f ∨ (s.client f).time < (s'.client f).time
  server : ∀ v, s.server f = some v →
    s'.server f = some v ∨ ∃ v', s'.server f = some v' ∧ v.time < v'.time

/-- A push of the file finds no newer version on the server, and a pull of it none on
the client. -/
def InOrder (f : φ) (s : State φ δ) : Action φ δ → Prop
  | .push g _ => g = f → Received f s
  | .pull i => s.pending[i]? = some f → Sent f s
  | _ => True

/-- The times of the file's versions. -/
structure Dated (f : φ) (s : State φ δ) : Prop where
  client : (s.client f).time ≤ s.clock
  server : ∀ v, s.server f = some v → v.time ≤ s.clock
  same : ∀ v, s.server f = some v → v.time = (s.client f).time → v = s.client f

omit [DecidableEq φ] in
theorem dated_start (data : φ → δ) (f : φ) : Dated f (start data) where
  client := le_rfl
  server _ h := by cases h
  same _ h := by cases h

/-- The action is about the file `f`. -/
def Concerns (f : φ) (s : State φ δ) : Action φ δ → Prop
  | .saveClient g _ | .push g _ | .saveServer g _ _ => g = f
  | .notice _ => False
  | .pull i => s.pending[i]? = some f ∧ s.server f ≠ none

/-- The cases of a step, for one file. -/
inductive Effect (f : φ) (s s' : State φ δ) : Action φ δ → Prop
  | none {a : Action φ δ} (ha : ¬ Concerns f s a) (hclock : s.clock ≤ s'.clock)
      (hclient : s'.client f = s.client f) (hserver : s'.server f = s.server f) : Effect f s s' a
  | savedClient {data : δ} (hclock : s'.clock = s.clock + 1)
      (hclient : s'.client f = ⟨s.clock + 1, data⟩) (hserver : s'.server f = s.server f) :
      Effect f s s' (.saveClient f data)
  | savedServer {data : δ} {fired : List φ} (hclock : s'.clock = s.clock + 1)
      (hclient : s'.client f = s.client f) (hserver : s'.server f = some ⟨s.clock + 1, data⟩) :
      Effect f s s' (.saveServer f data fired)
  | pushed {fired : List φ} (hclock : s'.clock = s.clock) (hclient : s'.client f = s.client f)
      (hserver : s'.server f = some (s.client f)) : Effect f s s' (.push f fired)
  | pulled {i : ℕ} {v : Version δ} (hi : s.pending[i]? = some f) (hv : s.server f = some v)
      (hclock : s'.clock = s.clock) (hclient : s'.client f = v) (hserver : s'.server f = some v) :
      Effect f s s' (.pull i)

theorem effect_of_step (f : φ) {s s' : State φ δ} {a : Action φ δ} (h : step s a = some s') :
    Effect f s s' a := by
  cases a with
  | saveClient g data =>
    obtain rfl := Option.some.inj h
    by_cases hg : g = f
    · subst hg
      exact .savedClient rfl (Function.update_self ..) rfl
    · exact .none hg (Nat.le_succ _) (Function.update_of_ne (Ne.symm hg) _ _) rfl
  | push g fired =>
    obtain rfl := Option.some.inj h
    by_cases hg : g = f
    · subst hg
      exact .pushed rfl rfl (Function.update_self ..)
    · exact .none hg le_rfl rfl (Function.update_of_ne (Ne.symm hg) _ _)
  | saveServer g data fired =>
    rw [step] at h
    split at h
    · obtain rfl := Option.some.inj h
      by_cases hg : g = f
      · subst hg
        exact .savedServer rfl rfl (Function.update_self ..)
      · exact .none hg (Nat.le_succ _) rfl (Function.update_of_ne (Ne.symm hg) _ _)
    · cases h
  | notice fired =>
    obtain rfl := Option.some.inj h
    exact .none id le_rfl rfl rfl
  | pull i =>
    obtain ⟨g, hi, rfl⟩ := Option.map_eq_some_iff.1 h
    by_cases hg : g = f
    · subst hg
      cases hv : s.server g with
      | none => exact .none (fun hc => hc.2 hv) le_rfl rfl rfl
      | some v => exact .pulled hi hv rfl (Function.update_self ..) hv
    · have hother : ¬ Concerns f s (.pull i) := fun hc =>
        hg (Option.some.inj (hi.symm.trans hc.1))
      refine .none hother le_rfl ?_ rfl
      cases s.server g with
      | none => rfl
      | some v => exact Function.update_of_ne (Ne.symm hg) _ _

omit [DecidableEq φ] in
theorem inOrder_of_not_concerns {f : φ} {s : State φ δ} {a : Action φ δ} (h : ¬ Concerns f s a) :
    InOrder f s a := by
  cases a with
  | push g fired => exact fun hg => absurd hg h
  | pull i => exact fun hi v hv => absurd ⟨hi, by simp [hv]⟩ h
  | saveClient g data | saveServer g data fired | notice fired => trivial

theorem dated_step {f : φ} {s s' : State φ δ} {a : Action φ δ} (h : Dated f s)
    (hs : step s a = some s') : Dated f s' := by
  have hc := h.client
  cases effect_of_step f hs with
  | none _ hclock hclient hserver =>
    refine ⟨?_, fun v hv => ?_, fun v hv => ?_⟩
    · rw [hclient]
      exact hc.trans hclock
    · exact (h.server v (hserver ▸ hv)).trans hclock
    · rw [hclient]
      exact h.same v (hserver ▸ hv)
  | savedClient hclock hclient hserver =>
    refine ⟨?_, fun v hv => ?_, fun v hv ht => ?_⟩
    · rw [hclient, hclock]
    · have hle := h.server v (hserver ▸ hv)
      omega
    · have hle := h.server v (hserver ▸ hv)
      rw [hclient] at ht
      simp only at ht
      omega
  | savedServer hclock hclient hserver =>
    refine ⟨?_, fun v hv => ?_, fun v hv ht => ?_⟩ <;> rw [hclient] at *
    · omega
    · rw [hserver, Option.some.injEq] at hv
      rw [← hv, hclock]
    · rw [hserver, Option.some.injEq] at hv
      rw [← hv] at ht
      simp only at ht
      omega
  | pushed hclock hclient hserver =>
    refine ⟨?_, fun v hv => ?_, fun v hv _ => ?_⟩ <;> rw [hclient] at *
    · exact hc.trans hclock.ge
    · rw [hserver, Option.some.injEq] at hv
      rw [← hv]
      exact hc.trans hclock.ge
    · exact (Option.some.inj (hserver.symm.trans hv)).symm
  | @pulled _ v hi hv hclock hclient hserver =>
    have hle := h.server v hv
    refine ⟨?_, fun w hw => ?_, fun w hw _ => ?_⟩
    · rw [hclient, hclock]
      exact hle
    · rw [hserver, Option.some.injEq] at hw
      rw [← hw, hclock]
      exact hle
    · rw [hclient]
      exact (Option.some.inj (hserver.symm.trans hw)).symm

/-- **When a step keeps a file.** -/
theorem keeps_iff {f : φ} {s s' : State φ δ} {a : Action φ δ} (h : Dated f s)
    (hs : step s a = some s') : Keeps f s s' ↔ InOrder f s a := by
  cases effect_of_step f hs with
  | none ha _ hclient hserver =>
    exact ⟨fun _ => inOrder_of_not_concerns ha, fun _ =>
      ⟨Or.inl hclient, fun v hv => Or.inl (hserver.trans hv)⟩⟩
  | savedClient _ hclient hserver =>
    have hlt : (s.client f).time < (s'.client f).time := by
      rw [hclient]
      exact Nat.lt_succ_of_le h.client
    exact ⟨fun _ => trivial, fun _ => ⟨Or.inr hlt, fun v hv => Or.inl (hserver.trans hv)⟩⟩
  | savedServer _ hclient hserver =>
    exact ⟨fun _ => trivial, fun _ => ⟨Or.inl hclient, fun v hv =>
      Or.inr ⟨_, hserver, Nat.lt_succ_of_le (h.server v hv)⟩⟩⟩
  | pushed _ hclient hserver =>
    constructor
    · intro hk _ v hv
      rcases hk.server v hv with h' | ⟨v', h', hlt⟩ <;>
        rw [hserver, Option.some.injEq] at h'
      · rw [h']
      · rw [h']
        exact hlt.le
    · refine fun ha => ⟨Or.inl hclient, fun v hv => ?_⟩
      rcases (ha rfl v hv).lt_or_eq with hlt | heq
      · exact Or.inr ⟨_, hserver, hlt⟩
      · exact Or.inl (hserver.trans (congrArg some (h.same v hv heq).symm))
  | @pulled i v hi hv _ hclient hserver =>
    have honly : ∀ w, s.server f = some w → w = v := fun w hw =>
      Option.some.inj (hw.symm.trans hv)
    constructor
    · intro hk _ w hw
      rw [honly w hw]
      rcases hk.client with h' | h' <;> rw [hclient] at h'
      · rw [h']
      · exact h'.le
    · refine fun ha => ⟨?_, fun w hw => Or.inl (hserver.trans (honly w hw ▸ rfl))⟩
      rcases (ha hi v hv).lt_or_eq with hlt | heq
      · exact Or.inr (hclient ▸ hlt)
      · exact Or.inl (hclient.trans (h.same v hv heq.symm))

/-- **When a run keeps a file.** -/
theorem keeps_along_iff (f : φ) (data : φ → δ) (as : List (Action φ δ)) :
    Run.Steps step (Keeps f) (start data) as ↔ Run.Guarded step (InOrder f) (start data) as :=
  Run.steps_iff_guarded (R := Keeps f) (G := InOrder f) (I := Dated f)
    (fun _ _ _ h hs => dated_step h hs) (fun _ _ _ h hs => keeps_iff h hs) (dated_start data f)

/-! ## What the users can take care of -/

/-- The file is saved on the client only while no pull of it is pending, and pushed
only when the client has received what the server has; and a change of anything else
starts a pull of it only when its client's version was sent. -/
def Careful (f : φ) (s : State φ δ) : Action φ δ → Prop
  | .saveClient g _ => g = f → f ∉ s.pending
  | .push g fired => (g = f → Received f s) ∧ (g ≠ f → f ∈ fired → Sent f s)
  | .saveServer g _ fired => g ≠ f → f ∈ fired → Sent f s
  | .notice fired => f ∈ fired → Sent f s
  | .pull _ => True

/-- A pending pull does not bring an older version. -/
structure Waiting (f : φ) (s : State φ δ) : Prop extends Dated f s where
  sent : f ∈ s.pending → Sent f s

/-- The pulls that an action starts. -/
def Action.fired : Action φ δ → List φ
  | .push _ fired | .saveServer _ _ fired | .notice fired => fired
  | .saveClient _ _ | .pull _ => []

theorem pending_of_step {f : φ} {s s' : State φ δ} {a : Action φ δ} (h : step s a = some s')
    (hf : f ∈ s'.pending) : f ∈ s.pending ∨ f ∈ a.fired := by
  cases a with
  | saveClient g data =>
    obtain rfl := Option.some.inj h
    exact Or.inl hf
  | saveServer g data fired =>
    rw [step] at h
    split at h
    · obtain rfl := Option.some.inj h
      exact List.mem_append.1 hf
    · cases h
  | push g fired | notice fired =>
    obtain rfl := Option.some.inj h
    exact List.mem_append.1 hf
  | pull i =>
    obtain ⟨g, -, rfl⟩ := Option.map_eq_some_iff.1 h
    exact Or.inl (List.mem_of_mem_eraseIdx hf)

omit [DecidableEq φ] in
/-- What something else starts brings no older version. -/
theorem sent_of_fired {f : φ} {s : State φ δ} {a : Action φ δ} (ha : Careful f s a)
    (hother : ¬ Concerns f s a) (hf : f ∈ a.fired) : Sent f s := by
  cases a with
  | saveClient g data => cases hf
  | push g fired => exact ha.2 hother hf
  | saveServer g data fired => exact ha hother hf
  | notice fired => exact ha hf
  | pull i => cases hf

theorem waiting_step {f : φ} {s s' : State φ δ} {a : Action φ δ} (h : Waiting f s)
    (ha : Careful f s a) (hs : step s a = some s') : Waiting f s' := by
  refine ⟨dated_step h.toDated hs, fun hf => ?_⟩
  have hp := pending_of_step hs hf
  cases effect_of_step f hs with
  | none hother _ hclient hserver =>
    have hsent : Sent f s := hp.elim h.sent (sent_of_fired ha hother)
    intro v hv
    rw [hclient]
    exact hsent v (hserver ▸ hv)
  | savedClient => exact absurd (hp.resolve_right List.not_mem_nil) (ha rfl)
  | savedServer _ hclient hserver =>
    intro v hv
    rw [hserver, Option.some.injEq] at hv
    rw [hclient, ← hv]
    exact h.client.trans (Nat.le_succ _)
  | pushed _ hclient hserver | pulled _ _ _ hclient hserver =>
    intro v hv
    rw [hserver, Option.some.injEq] at hv
    rw [hclient, ← hv]

omit [DecidableEq φ] in
theorem inOrder_step {f : φ} {s : State φ δ} {a : Action φ δ} (h : Waiting f s)
    (ha : Careful f s a) : InOrder f s a := by
  cases a with
  | push g fired => exact ha.1
  | pull i => exact fun hi => h.sent (List.mem_of_getElem? hi)
  | saveClient g data | saveServer g data fired | notice fired => trivial

/-- **No version is lost** in a run that is careful with a file. -/
theorem inOrder_of_careful {f : φ} {data : φ → δ} {as : List (Action φ δ)}
    (h : Run.Guarded step (Careful f) (start data) as) :
    Run.Guarded step (InOrder f) (start data) as :=
  Run.Guarded.imp (I := Waiting f)
    (fun _ _ _ hI hG hs => ⟨waiting_step hI hG hs, inOrder_step hI hG⟩)
    ⟨dated_start data f, fun hp => by cases hp⟩ h

end Replica
