import Fsync.Client.Runs

/-!
# What a pull brings back

Both servers run `rsync -r server_fn hostname:client_fn` with the two strings of a
path message.  The result depends on what is at the place of the copy.

* `pull_missing`: nothing is there, and nothing happens;
* `pull_file`: a file is there, and replaces the client's;
* `pull_laid`: a directory is there, and what it holds is laid over the client's
  place by place.
-/

namespace Fsync.Client

open Posix Os Rsync

variable {net : Network} {env : Env} {path : Str} {client server : FileTree Bytes}

/-! ## Where the operands lead -/

theorem basename_of_endsWithSlash {s : Str} (h : endsWithSlash s = true) : basename s = [] := by
  obtain ⟨t, rfl⟩ := endsWithSlash_iff.1 h
  exact basename_concat_slash t

/-- An operand that leads to a file is no operand of contents. -/
theorem contentsOperand_of_file {t : FileTree Bytes} {cwd p : Path} {operand : Str} {c : Bytes}
    (hp : namei t cwd operand = some p) (h : t.node p = some (.file c)) :
    contentsOperand operand = false := by
  rw [← Bool.not_eq_true]
  intro hc
  have hb : basename operand = [] ∨ basename operand = dot ∨ basename operand = dotdot := by
    simpa [contentsOperand, or_assoc] using hc
  rw [node_of_basename hb hp] at h
  cases h

/-- A path that leads somewhere leads to its place. -/
theorem eq_clientPlace {p : Path} (hp : namei client env.cwd path = some p) :
    p = clientPlace env path := namei_eq env.names hp

theorem namei_of_lstat {e : Entry Bytes} (h : lstat client env.cwd path = some e) :
    namei client env.cwd path = some (clientPlace env path) ∧
      client.node (clientPlace env path) = some e := by
  obtain ⟨p, hp, he⟩ := Option.bind_eq_some_iff.1 h
  obtain rfl := eq_clientPlace hp
  exact ⟨hp, he⟩

/-- `client_fn` leads to the place of the path. -/
theorem namei_clientFn {e : Entry Bytes} (h : lstat client env.cwd path = some e) :
    namei client [] (clientFn env path false) = some (clientPlace env path) := by
  rw [clientFn_false]
  exact namei_abspath env.names (namei_of_lstat h).1 []

theorem destDir_clientFn (h : lstat client env.cwd path = some .dir) :
    destDir client [] (clientFn env path true) = some (clientPlace env path) := by
  have hslash : endsWithSlash (clientFn env path true) = true := endsWithSlash_append (by simp)
  rw [destDir_eq_some, destName, if_pos hslash]
  refine ⟨?_, Or.inr (namei_of_lstat h).2⟩
  rw [clientFn_true, List.dropLast_concat, ← clientFn_false]
  exact namei_clientFn h

/-- `client_fn` leads to no other directory. -/
theorem eq_of_destDir_clientFn {d : Path}
    (h : destDir client [] (clientFn env path true) = some d) : d = clientPlace env path := by
  have hname := (destDir_eq_some.1 h).1
  have hslash : endsWithSlash (clientFn env path true) = true := endsWithSlash_append (by simp)
  rw [destName, if_pos hslash, clientFn_true, List.dropLast_concat] at hname
  rw [namei_eq (by simp) hname, absCompsFrom, if_pos (isabs_abspath env.names path)]
  exact absComps_abspath env.names path

/-! ## The three pulls -/

theorem pull_missing (hacc : refused env path = false) (isDir : Bool)
    (h : server.node (serverPlace env path) = none) :
    (pull net (serverFn env path isDir) (clientFn env path isDir) server client).1 = client := by
  have hnone : fileList (pullOptions net).filter server [] (serverFn env path isDir) = none :=
    fileList_eq_none fun p hp => by rw [eq_of_namei_serverFn hacc hp, h]
  rw [pull, net.rsync.missing hnone]

theorem pull_file {c c' : Bytes}
    (hclient : lstat client env.cwd path = some (.file c))
    (hfn : namei server [] (serverFn env path false) = some (serverPlace env path))
    (hserver : server.node (serverPlace env path) = some (.file c')) :
    (pull net (serverFn env path false) (clientFn env path false) server client).1 =
      client.put (clientPlace env path) (.file c') := by
  have hnode := (namei_of_lstat hclient).2
  have hcn := namei_clientFn hclient
  have hslash : endsWithSlash (clientFn env path false) = false := by
    rw [← Bool.not_eq_true]
    intro hc
    rw [node_of_basename (Or.inl (basename_of_endsWithSlash hc)) hcn] at hnode
    cases hnode
  have hsent : Sends (pullOptions net).filter server (serverFn env path false)
      (serverPlace env path) (.file (basename (serverFn env path false)) c') :=
    .file hserver (contentsOperand_of_file hfn hserver) rfl
  have hdir : client.isDir (clientPlace env path) = false := by rw [DirTree.isDir, hnode]
  rw [pull, net.rsync.file (fileList_of_sends hfn hsent), receive_file _ c' hslash hcn hdir]

/-- A directory is sent with what is in it. -/
theorem fileList_serverFn (net : Network) (hacc : refused env path = false)
    (hserver : server.node (serverPlace env path) = some .dir) :
    fileList (pullOptions net).filter server [] (serverFn env path true) =
      some (.tree (contents Filter.none server (serverPlace env path) hserver)) := by
  have hc : contentsOperand (serverFn env path true) = true := by
    simp [contentsOperand, (basename_serverFn hacc).1]
  exact fileList_of_sends (namei_serverFn hacc true hserver) (.contents hserver hc)

/-! ## The pull of a directory, place by place -/

/-- Without a filter everything but symbolic links is sent. -/
theorem contents_none_node {t : FileTree Bytes} {p : Path} {h : t.node p = some .dir} {r : Path}
    (hlink : ∀ l, t.node (p ++ r) ≠ some (.symlink l)) :
    (contents Filter.none t p h).tree.node r = t.node (p ++ r) := by
  cases hr : t.node (p ++ r) with
  | none =>
    by_contra hne
    obtain ⟨e, he⟩ := Option.ne_none_iff_exists'.1 hne
    rw [contents_node_of_some he] at hr
    cases hr
  | some e =>
    have hpass : (t.subtree p h).passes Filter.none.keep r = true := by
      refine DirTree.passes_iff.2 fun q hq hq0 => ?_
      by_cases hqr : q = r
      · subst hqr
        refine ⟨e, hr, ?_⟩
        cases e with
        | file c => rfl
        | dir => rfl
        | symlink l => exact absurd hr (hlink l)
      · have hused : ((t.subtree p h).node r).isSome := by rw [DirTree.subtree_node, hr]; rfl
        exact ⟨.dir, (t.subtree p h).dir_of_isPrefix hq hqr hused, rfl⟩
    rw [contents, DirTree.prune_node, if_pos hpass]
    exact hr

theorem pull_outside (hacc : refused env path = false)
    (hclient : lstat client env.cwd path = some .dir)
    (hserver : server.node (serverPlace env path) = some .dir) {p : Path}
    (hp : ¬ clientPlace env path <+: p) :
    (pull net (serverFn env path true) (clientFn env path true) server client).1.node p =
      client.node p :=
  net.rsync.outside (fileList_serverFn net hacc hserver) (destDir_clientFn hclient) hp

theorem pull_laid (net : Network) (hacc : refused env path = false)
    (hclient : lstat client env.cwd path = some .dir)
    (hserver : server.node (serverPlace env path) = some .dir) {r : Path}
    (hlink : ∀ l, server.node (serverPlace env path ++ r) ≠ some (.symlink l)) :
    Laid false (server.node (serverPlace env path ++ r)) (client.node (clientPlace env path ++ r))
      ((pull net (serverFn env path true) (clientFn env path true) server client).1.node
        (clientPlace env path ++ r)) := by
  have hlaid := net.rsync.laid (fileList_serverFn net hacc hserver) (destDir_clientFn hclient) r
  rwa [contents_none_node hlink] at hlaid

end Fsync.Client
