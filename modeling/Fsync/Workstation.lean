import Fsync.Client.Runs
import Fsync.Watches

/-!
# A workstation

What a run of `fs` and the files it opens meet of a server: its file tree, the
answers to the two requests, and the pulls that a write starts.  A `Workstation`
carries what all of this has in common on the two servers; `Mac.workstation` and
`Ubuntu.workstation` are its instances.
-/

namespace Fsync

open Posix Os Program

/-- A server with the states `σ`. -/
structure Workstation (σ : Type) where
  tree : σ → FileTree Bytes
  withTree : σ → FileTree Bytes → σ
  /-- The state after a mkdir request, if the reply is `'OK'`. -/
  mkdir : σ → Str → Option σ
  /-- The state after a path message. -/
  message : σ → PathMsg → σ
  /-- What the pulls copy back that a write at a place starts. -/
  fired : σ → Path → List Route
  tree_withTree : ∀ s t, tree (withTree s t) = t
  fired_withTree : ∀ s t w, fired (withTree s t) w = fired s w
  onlyMakes : ∀ {s s' dir}, isabs dir = true → dotdot ∉ dir.splitOn '/' →
    mkdir s dir = some s' → OnlyMakes (tree s) (tree s') (absComps dir)
  tree_message : ∀ s msg, tree (message s msg) = tree s
  fired_message : ∀ {s msg w r}, r ∈ fired (message s msg) w → r ∈ fired s w ∨ r = msg.route

theorem absCompsFrom_of_isabs {s : Str} (h : isabs s = true) (cwd : Path) :
    absCompsFrom cwd s = absComps s := by
  rw [absCompsFrom, if_pos h, absComps]

/-! ## The Mac -/

namespace Mac

/-- The state after a mkdir request, if the reply is `'OK'`. -/
def App.mkdirReply {T : Type} [FileSystem T Bytes] (cwd : Path) (mayCreate : Path → Bool)
    (s : App T) (dir : Str) : Option (App T) :=
  if (poll cwd mayCreate (.mkdir dir) s).terminated then none
  else some (poll cwd mayCreate (.mkdir dir) s)

theorem tree_sendReply {T : Type} (s : App T) : (sendReply s).tree = s.tree := by
  rw [sendReply]
  split <;> rfl

theorem tree_mkdirForClient {T : Type} [FileSystem T Bytes] (cwd : Path)
    (mayCreate : Path → Bool) (dir : Str) (s : App T) :
    (mkdirForClient cwd mayCreate dir s).tree = if pathExists s.tree cwd dir then s.tree
      else (FileSystem.createDirectories mayCreate s.tree cwd dir).1 := by
  rw [mkdirForClient]
  split <;> rfl

theorem streams_sendReply (s : App) : (sendReply s).streams = s.streams := by
  rw [sendReply]
  split <;> rfl

theorem onlyMakes_mkdirReply {cwd : Path} {mayCreate : Path → Bool} {s s' : App} {dir : Str}
    (habs : isabs dir = true) (hdd : dotdot ∉ dir.splitOn '/')
    (h : s.mkdirReply cwd mayCreate dir = some s') : OnlyMakes s.tree s'.tree (absComps dir) := by
  rw [App.mkdirReply] at h
  split at h
  · cases h
  · rw [← Option.some.inj h, poll, tree_sendReply, tree_mkdirForClient]
    split
    · exact OnlyMakes.refl _ _
    · show OnlyMakes s.tree (createDirectories mayCreate s.tree (if isabs dir then [] else cwd)
        (dir.splitOn '/')).1 (absComps dir)
      rw [if_pos habs]
      exact onlyMakes_createDirectories s.tree hdd

theorem tree_message (cwd : Path) (mayCreate : Path → Bool) (s : App) (msg : PathMsg) :
    (poll cwd mayCreate (.path msg) s).tree = s.tree := by
  rw [poll, tree_sendReply]
  rcases registerNewPath_cases cwd msg s with ⟨-, -, h⟩ | ⟨-, -, h⟩ | ⟨-, h⟩ <;> rw [h] <;> rfl

theorem fired_message {cwd : Path} {mayCreate : Path → Bool} {s : App} {msg : PathMsg} {w : Path}
    {r : Route} (h : r ∈ (poll cwd mayCreate (.path msg) s).fired w) :
    r ∈ s.fired w ∨ r = msg.route := by
  have hstreams : (poll cwd mayCreate (.path msg) s).streams = s.streams ∨
      (poll cwd mayCreate (.path msg) s).streams =
        (s.newItem cwd msg).watchFolder.stream :: s.streams := by
    rw [poll, streams_sendReply]
    rcases registerNewPath_cases cwd msg s with ⟨-, -, h⟩ | ⟨-, -, h⟩ | ⟨-, h⟩ <;> rw [h]
    · exact Or.inl rfl
    · exact Or.inr rfl
    · exact Or.inl rfl
  rw [App.fired, App.reporting] at h
  rcases hstreams with hs | hs <;> rw [hs] at h
  · exact Or.inl h
  · obtain ⟨stream, hstream, rfl⟩ := List.mem_map.1 h
    obtain ⟨hmem, hw⟩ := List.mem_filter.1 hstream
    rcases List.mem_cons.1 hmem with rfl | hmem
    · exact Or.inr rfl
    · exact Or.inl (List.mem_map.2 ⟨stream, List.mem_filter.2 ⟨hmem, hw⟩, rfl⟩)

/-- The Mac server, which runs in the directory `cwd`. -/
def workstation (cwd : Path) (mayCreate : Path → Bool) : Workstation App where
  tree s := s.tree
  withTree s t := { s with tree := t }
  mkdir := App.mkdirReply cwd mayCreate
  message s msg := poll cwd mayCreate (.path msg) s
  fired := App.fired
  tree_withTree _ _ := rfl
  fired_withTree _ _ _ := rfl
  onlyMakes := onlyMakes_mkdirReply
  tree_message := tree_message cwd mayCreate
  fired_message := fired_message

end Mac

/-! ## Ubuntu -/

namespace Ubuntu

/-- The state after a mkdir request, if the reply is `'OK'`. -/
def State.mkdirReply {T : Type} [FileSystem T Bytes] (env : Env) (s : State T) (dir : Str) :
    Option (State T) :=
  match (zmqMsg env (.object (mkdirMsg dir))).run s with
  | .ok _ s' => some s'
  | .error _ _ => none

/-- The state that a path message leaves, answered or not. -/
def State.message (env : Env) (s : State) (msg : PathMsg) : State :=
  (handle env (.object msg.toDict) ⟨s, []⟩).fsync

theorem onlyMakes_mkdirReply {env : Env} (henv : ∀ c ∈ env.cwd, IsName c) {s s' : State} {dir : Str}
    (habs : isabs dir = true) (hdd : dotdot ∉ dir.splitOn '/')
    (h : s.mkdirReply env dir = some s') : OnlyMakes s.tree s'.tree (absComps dir) := by
  rw [State.mkdirReply] at h
  split at h
  · rename_i reply t hrun
    obtain rfl := Option.some.inj h
    obtain ⟨-, rfl⟩ := zmqMsg_mkdir_ok ⟨mkdirMsg dir, rfl, rfl, rfl⟩ rfl hrun
    rw [← absCompsFrom_of_isabs habs env.cwd]
    exact onlyMakes_makedirs henv s.tree hdd
  · cases h

/-- What a path message leaves: the state, or that of a registration. -/
theorem message_cases (env : Env) (s : State) (msg : PathMsg) :
    s.message env msg = s ∨ ∃ editor serverFn t launched,
      Registers env s (msg.toDict.pop "type") editor serverFn t ∧
        s.message env msg = { t with launched := launched } := by
  have hrun : (zmqMsg env (.object msg.toDict)).run s =
      (registerNewPath env (msg.toDict.pop "type") >>= fun _ => pure "OK".toList).run s := rfl
  rw [State.message, handle, hrun, EStateM.run_bind]
  cases h : (registerNewPath env (msg.toDict.pop "type")).run s with
  | ok _ s' =>
    obtain ⟨editor, serverFn, t, hr, -, rfl⟩ := registerNewPath_eq_ok.1 h
    exact Or.inr ⟨editor, serverFn, t, _, hr, rfl⟩
  | error e s' =>
    rcases registerNewPath_error h with ⟨rfl, -⟩ | ⟨editor, serverFn, hr, -⟩
    · exact Or.inl rfl
    · exact Or.inr ⟨editor, serverFn, s', s'.launched, hr, rfl⟩

/-- A registration leaves the tree, and adds at most a monitor of the message. -/
theorem registration_cases {env : Env} {s t : State} {msg : PathMsg}
    (h : Registration env s (msg.toDict.pop "type") t) :
    t.tree = s.tree ∧ (t.monitors = s.monitors ∨
      ∃ m, m.owner = msg.route ∧ t.monitors = m :: s.monitors) := by
  cases h with
  | kept => exact ⟨rfl, Or.inl rfl⟩
  | @added item _ hw =>
    refine ⟨rfl, Or.inr ⟨item.monitor, ?_, rfl⟩⟩
    have hfn : Value.str msg.serverFn = .str item.serverFn := Option.some.inj hw.serverFn
    have hhost : Value.str msg.hostname = item.hostname := Option.some.inj hw.hostname
    have hcfn : Value.str msg.clientFn = item.clientFn := Option.some.inj hw.clientFn
    rw [hw.monitor, WatchFileMenuItem.route, ← hhost, ← hcfn, ← Value.str.inj hfn]
    rfl

theorem tree_message (env : Env) (s : State) (msg : PathMsg) :
    (s.message env msg).tree = s.tree := by
  rcases message_cases env s msg with h | ⟨_, _, t, _, hr, h⟩
  · rw [h]
  · rw [h]
    exact (registration_cases hr.registration).1

theorem fired_message {env : Env} {s : State} {msg : PathMsg} {w : Path} {r : Route}
    (h : r ∈ (s.message env msg).fired w) : r ∈ s.fired w ∨ r = msg.route := by
  rcases message_cases env s msg with hs | ⟨_, _, t, _, hr, hs⟩
  · rw [hs] at h
    exact Or.inl h
  · have hmon : (s.message env msg).monitors = t.monitors := by rw [hs]
    rw [State.fired, hmon] at h
    rcases (registration_cases hr.registration).2 with ht | ⟨m, hm, ht⟩ <;> rw [ht] at h
    · exact Or.inl h
    · obtain ⟨x, hx, rfl⟩ := List.mem_map.1 h
      obtain ⟨hmem, hw⟩ := List.mem_filter.1 hx
      rcases List.mem_cons.1 hmem with rfl | hmem
      · exact Or.inr hm
      · exact Or.inl (List.mem_map.2 ⟨x, List.mem_filter.2 ⟨hmem, hw⟩, rfl⟩)

/-- The Ubuntu server, whose handlers find `env`. -/
def workstation (env : Env) (henv : ∀ c ∈ env.cwd, IsName c) : Workstation State where
  tree s := s.tree
  withTree s t := { s with tree := t }
  mkdir := State.mkdirReply env
  message := State.message env
  fired := State.fired
  tree_withTree _ _ := rfl
  fired_withTree _ _ _ := rfl
  onlyMakes := onlyMakes_mkdirReply henv
  tree_message := tree_message env
  fired_message := fired_message

end Ubuntu

end Fsync
