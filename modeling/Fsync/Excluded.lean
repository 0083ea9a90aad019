import Fsync.Base.Run
import Fsync.Client.Pull

/-!
# Excluded files

The exclude list is an option of the push.  The server is not sent it, and its pull
carries everything that is at the place of the copy.  So an excluded file does not
travel to the server, but one that the server has travels back.

Runs of pushes of a directory, of changes on either machine and of pulls, in any
order.  A push or a connection that fails half way, and a directory that the server
makes, are changes on the server.

* `push_leaves`: a push makes nothing at an excluded place;
* `pull_leaves`: a pull changes nothing where there is no copy;
* `excluded_untouched`: so an excluded file of the client stays as its user left it
  in every run in which nothing on the server makes a file at its place.
-/

namespace Fsync.Client

open Posix Os Rsync

variable {net : Network} {env : Env} {path : Str} {client server : FileTree Bytes} {r : Path}

/-! ## One push and one pull -/

/-- A push of a directory makes nothing at an excluded place. -/
theorem push_leaves (hacc : refused env path = false) (hr : r ≠ [])
    (hdir : isdir client env.cwd path = true)
    (hex : (pushOptions net env).filter.Excludes r)
    (h : server.node (serverPlace env path ++ r) = none) :
    (push net env path (serverFn env path true) client server).1.node
      (serverPlace env path ++ r) = none := by
  cases hl : fileList (pushOptions net env).filter client env.cwd path with
  | none => rw [push, net.rsync.missing hl, h]
  | some l =>
    obtain ⟨p, hp, hs⟩ := fileList_eq_some.1 hl
    cases l with
    | tree tr =>
      have hnone : tr.tree.node r = none := by
        cases hn : tr.tree.node r with
        | none => rfl
        | some e =>
          refine absurd hex ?_
          cases hs with
          | contents hd hc => exact not_excludes_of_sent hr hn
          | named hd hc hname => exact not_excludes_of_sent hr hn
      cases hdest : destDir server [] (serverFn env path true) with
      | none => rw [push, net.rsync.noDir hl hdest, h]
      | some d =>
        obtain rfl := eq_of_destDir_serverFn hacc hdest
        have hlaid := net.rsync.laid hl hdest r
        rw [hnone, h] at hlaid
        exact hlaid.fresh
    | file n c =>
      cases hs with
      | file hf hc hn =>
        rw [isdir_of_node hp hf] at hdir
        cases hdir
    | nothing =>
      rcases push_of_nothing hacc true hl server with ⟨ok, hsame, -⟩ | ⟨-, -, hmade⟩
      · rw [hsame, h]
      · rw [hmade, DirTree.put_node_of_ne server .dir (by simpa using hr), h]

/-- A pull changes nothing at a place where there is no copy. -/
theorem pull_leaves (hacc : refused env path = false)
    (h : server.node (serverPlace env path ++ r) = none) :
    (pull net (serverFn env path true) (clientFn env path true) server client).1.node
        (clientPlace env path ++ r) = client.node (clientPlace env path ++ r) := by
  have hc : contentsOperand (serverFn env path true) = true := by
    simp [contentsOperand, (basename_serverFn hacc).1]
  cases hl : fileList (pullOptions net).filter server [] (serverFn env path true) with
  | none => rw [pull, net.rsync.missing hl]
  | some l =>
    obtain ⟨p, hp, hs⟩ := fileList_eq_some.1 hl
    obtain rfl := eq_of_namei_serverFn hacc hp
    cases hs with
    | contents hd hc' =>
      have hnone : (contents (pullOptions net).filter server (serverPlace env path) hd).tree.node
          r = none := by
        by_contra hne
        obtain ⟨e, he⟩ := Option.ne_none_iff_exists'.1 hne
        rw [contents_node_of_some he] at h
        cases h
      cases hdest : destDir client [] (clientFn env path true) with
      | none => rw [pull, net.rsync.noDir hl hdest]
      | some d =>
        obtain rfl := eq_of_destDir_clientFn hdest
        have hlaid := net.rsync.laid hl hdest r
        rw [hnone] at hlaid
        exact hlaid.kept
    | named hd hc' | file hd hc' | excludedDir hd hc' | excludedFile hd hc' | link hd hc' =>
      rw [hc] at hc'
      cases hc'

/-! ## Runs -/

/-- The two machines, and the client's files as its user last left them. -/
structure Machines where
  client : FileTree Bytes
  server : FileTree Bytes
  own : FileTree Bytes

/-- What may happen to the two copies of a directory. -/
inductive Sync where
  /-- `fs` pushes the directory. -/
  | push
  /-- The pull that a change to the copy starts, on either server. -/
  | pull
  /-- Editors, interpreters and builds change the server's files. -/
  | serverChange (tree : FileTree Bytes)
  | clientChange (tree : FileTree Bytes)

/-- One step; a push needs a directory at the path. -/
def syncStep (net : Network) (env : Env) (path : Str) (s : Machines) : Sync → Option Machines
  | .push =>
    if isdir s.client env.cwd path then
      some { s with server := (push net env path (serverFn env path true) s.client s.server).1 }
    else none
  | .pull => some { s with
      client := (pull net (serverFn env path true) (clientFn env path true) s.server s.client).1 }
  | .serverChange tree => some { s with server := tree }
  | .clientChange tree => some { s with client := tree, own := tree }

/-- At the place `r` below the directory the client has what its user left there. -/
def Untouched (env : Env) (path : Str) (r : Path) (s : Machines) : Prop :=
  s.client.node (clientPlace env path ++ r) = s.own.node (clientPlace env path ++ r)

/-- A change on the server makes nothing at the place `r` of the copy. -/
def MakesNothing (env : Env) (path : Str) (r : Path) (_ : Machines) : Sync → Prop
  | .serverChange tree => tree.node (serverPlace env path ++ r) = none
  | _ => True

theorem syncStep_keeps (hacc : refused env path = false) (hr : r ≠ [])
    (hex : (pushOptions net env).filter.Excludes r) {s s' : Machines} {a : Sync}
    (h : Untouched env path r s ∧ s.server.node (serverPlace env path ++ r) = none)
    (ha : MakesNothing env path r s a) (hs : syncStep net env path s a = some s') :
    Untouched env path r s' ∧ s'.server.node (serverPlace env path ++ r) = none := by
  cases a with
  | push =>
    rw [syncStep] at hs
    split at hs
    · rename_i hdir
      obtain rfl := Option.some.inj hs
      exact ⟨h.1, push_leaves hacc hr hdir hex h.2⟩
    · cases hs
  | pull =>
    obtain rfl := Option.some.inj hs
    exact ⟨(pull_leaves hacc h.2).trans h.1, h.2⟩
  | serverChange tree =>
    obtain rfl := Option.some.inj hs
    exact ⟨h.1, ha⟩
  | clientChange tree =>
    obtain rfl := Option.some.inj hs
    exact ⟨rfl, h.2⟩

/-- **Excluded files.**  In every run, an excluded place below the directory holds on
the client what its user left there, as long as the server has nothing at that place
of the copy at the start and no change on the server makes something there. -/
theorem excluded_untouched (hacc : refused env path = false) (hr : r ≠ [])
    (hex : (pushOptions net env).filter.Excludes r) {s : Machines} {as : List Sync}
    (hown : Untouched env path r s) (hstart : s.server.node (serverPlace env path ++ r) = none)
    (has : Run.Guarded (syncStep net env path) (MakesNothing env path r) s as) :
    Run.Along (syncStep net env path) (Untouched env path r) s as :=
  (Run.along_of_guarded (fun _ _ _ h ha hs => syncStep_keeps hacc hr hex h ha hs)
    ⟨hown, hstart⟩ has).mono fun _ h => h.1

/-- Ann's home directory with a directory `d`. -/
def annTree : FileTree Bytes :=
  ((DirTree.empty.put ["home".toList] .dir).put ["home".toList, "ann".toList] .dir).put
    ["home".toList, "ann".toList, "d".toList] .dir

/-- The workstation with its copy, and a file that a program left there. -/
def pycTree : FileTree Bytes :=
  (((DirTree.empty.put ["tmp".toList] .dir).put ["tmp".toList, "h".toList] .dir).put
    ["tmp".toList, "h".toList, "d".toList] .dir).put
    ["tmp".toList, "h".toList, "d".toList, "foo.pyc".toList] (.file [7])

theorem excluded_untouched_sample : Run.Along (syncStep sampleNet ann "d/".toList)
    (Untouched ann "d/".toList ["foo.pyc".toList]) ⟨annTree, DirTree.empty, annTree⟩ [.push, .pull] :=
  excluded_untouched (by decide) (by decide) (Or.inl (by decide)) rfl (by decide)
    fun _ _ => ⟨trivial, fun _ _ => ⟨trivial, trivial⟩⟩

/-- A `.pyc` file that the server makes in the copy is pulled to the client. -/
theorem excluded_file_pulled : ∃ s, Run.exec (syncStep sampleNet ann "d/".toList)
      ⟨annTree, DirTree.empty, annTree⟩ [.push, .serverChange pycTree, .pull] = some s ∧
    (pushOptions sampleNet ann).filter.Excludes ["foo.pyc".toList] ∧
    s.own.node ["home".toList, "ann".toList, "d".toList, "foo.pyc".toList] = none ∧
    s.client.node ["home".toList, "ann".toList, "d".toList, "foo.pyc".toList] = some (.file [7]) :=
  ⟨_, rfl, Or.inl (by decide), by decide, by decide⟩

end Fsync.Client
