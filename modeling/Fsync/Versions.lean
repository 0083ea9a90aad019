import Fsync.Base.Replica
import Fsync.Client.Pull
import Fsync.Workstation

/-!
# Versions of a file on the two machines

Files that one client opens with `fs`, with their copies on a workstation.  The
users save on both machines, `fs` runs again, and the pulls that the watches start
run at any later time and in any order.

The machines and their watches simulate `Replica`, where every version has the time
at which it was saved: `Desk.step_refines` is the simulation, and `versions_kept`
says of both servers what of the two users' versions is kept.
-/

namespace Fsync

open Posix Os Rsync Program Client

/-! ## The machines -/

/-- A network that does not break. -/
def unbroken (rsync : Copier Bytes) (matcher : Matcher) (emptyDest : Bool) : Network :=
  ⟨rsync, matcher, emptyDest, none, none⟩

/-- A run of `fs` of the same user, in some directory and for some editor. -/
def Client.Env.run (env : Client.Env) (cwd : Path) (names : ∀ c ∈ cwd, IsName c) (editor : Str) :
    Client.Env :=
  { env with cwd := cwd, names := names, editor := editor }

/-- Where the copy of the client's file `f` is. -/
def copyOf (env : Client.Env) (f : Path) : Path :=
  "tmp".toList :: env.clientHostname :: f.drop (absComps env.home).length

/-- The client's file that a pull copies to. -/
def Route.file (r : Route) : Path := absComps r.clientFn

/-- A client and a server, and the pulls between them. -/
structure Desk (σ : Type) where
  client : FileTree Bytes
  server : σ
  /-- The pulls that were started and did not run yet. -/
  pending : List Route

/-- What changes files or starts a pull. -/
inductive Event where
  /-- The client's user saves a file. -/
  | saveClient (f : Path) (data : Bytes)
  /-- A run of `fs` for a file, and the pulls that its write starts. -/
  | fs (cwd : Path) (names : ∀ c ∈ cwd, IsName c) (editor path : Str) (fired : List Route)
  /-- The editor on the server saves the copy of a file. -/
  | saveServer (f : Path) (data : Bytes) (fired : List Route)
  /-- A watch sees something else at a place of the server. -/
  | notice (w : Path) (fired : List Route)
  /-- The pull at a position of `pending` runs. -/
  | pull (i : ℕ)

/-- The path of a run is that of a file that is not excluded, or of nothing yet. -/
def opensFile (net : Network) (env : Client.Env) (path : Str) (client : FileTree Bytes) : Bool :=
  (match lstat client env.cwd path with
    | none | some (.file _) => true
    | _ => false) && !(pushOptions net env).filter.hits [basename path] false

variable {σ : Type} (W : Workstation σ) (net : Network) (env : Client.Env)

/-- What the server makes of its tree for a mkdir request. -/
def Workstation.makes (server : σ) (tree : FileTree Bytes) (dir : Str) : Option (FileTree Bytes) :=
  (W.mkdir (W.withTree server tree) dir).map W.tree

/-- A write starts pulls of the watches that see it, each any number of times. -/
def Desk.step (s : Desk σ) : Event → Option (Desk σ)
  | .saveClient f data =>
    match s.client.node f with
    | some (.file _) => some { s with client := s.client.put f (.file data) }
    | _ => none
  | .fs cwd names editor path fired =>
    if opensFile net (env.run cwd names editor) path s.client then
      match (main net (W.makes s.server) (env.run cwd names editor) path).run
          ⟨s.client, W.tree s.server, []⟩ with
      | .ok _ w =>
        let server := W.message (W.withTree s.server w.server)
          (pathMessage (env.run cwd names editor) path (isdir w.client cwd path))
        if fired ⊆ W.fired server (serverPlace (env.run cwd names editor) path) then
          some ⟨w.client, server, s.pending ++ fired⟩
        else none
      | .error _ _ => none
    else none
  | .saveServer f data fired =>
    match s.client.node f, (W.tree s.server).node (copyOf env f) with
    | some (.file _), some (.file _) =>
      if absComps env.home <+: f ∧ fired ⊆ W.fired s.server (copyOf env f) then
        some { s with
          server := W.withTree s.server ((W.tree s.server).put (copyOf env f) (.file data))
          pending := s.pending ++ fired }
      else none
    | _, _ => none
  | .notice w fired =>
    if fired ⊆ W.fired s.server w then some { s with pending := s.pending ++ fired } else none
  | .pull i => (s.pending[i]?).map fun r =>
    { s with
      client := (pull net r.serverFn r.clientFn (W.tree s.server) s.client).1
      pending := s.pending.eraseIdx i }

/-- What an event does to the versions. -/
def Event.action : Event → Replica.Action Path Bytes
  | .saveClient f data => .saveClient f data
  | .fs cwd _ _ path fired => .push (absCompsFrom cwd path) (fired.map Route.file)
  | .saveServer f data fired => .saveServer f data (fired.map Route.file)
  | .notice _ fired => .notice (fired.map Route.file)
  | .pull i => .pull i

/-! ## The client's files -/

/-- The data of a file, and nothing where no file is. -/
def dataAt (t : FileTree Bytes) (p : Path) : Bytes :=
  match t.node p with
  | some (.file c) => c
  | _ => []

theorem dataAt_of_file {t : FileTree Bytes} {p : Path} {c : Bytes} (h : t.node p = some (.file c)) :
    dataAt t p = c := by
  rw [dataAt, h]

theorem dataAt_congr {t u : FileTree Bytes} {p : Path} (h : t.node p = u.node p) :
    dataAt t p = dataAt u p := by
  rw [dataAt, dataAt, h]

/-- Directories and files stay what they are. -/
structure SameKinds (t u : FileTree Bytes) : Prop where
  dir : ∀ p, u.node p = some .dir ↔ t.node p = some .dir
  file : ∀ p c, t.node p = some (.file c) → ∃ c', u.node p = some (.file c')

theorem SameKinds.refl (t : FileTree Bytes) : SameKinds t t :=
  ⟨fun _ => Iff.rfl, fun _ c h => ⟨c, h⟩⟩

theorem put_node_self {t : FileTree Bytes} {p : Path} {c : Bytes} (d : Bytes)
    (h : t.node p = some (.file c)) : (t.put p (.file d)).node p = some (.file d) := by
  rw [DirTree.put_node_of_fits (DirTree.fits_of_file h), if_pos rfl]

theorem sameKinds_put {t : FileTree Bytes} {p : Path} (h : t.node p ≠ some .dir) (d : Bytes) :
    SameKinds t (t.put p (.file d)) := by
  refine ⟨fun q => ?_, fun q c hq => ?_⟩
  · by_cases hqp : q = p
    · subst hqp
      rw [DirTree.put]
      split
      · rename_i hf
        have hnode : (t.putAt q (.file d) hf).node q = some (.file d) := if_pos rfl
        rw [hnode]
        exact ⟨fun hc => absurd hc (by simp), fun hc => absurd hc h⟩
      · exact Iff.rfl
    · rw [DirTree.put_node_of_ne t _ hqp]
  · by_cases hqp : q = p
    · subst hqp
      exact ⟨d, put_node_self d hq⟩
    · exact ⟨c, by rw [DirTree.put_node_of_ne t _ hqp, hq]⟩

theorem dataAt_put {t : FileTree Bytes} {p : Path} {c : Bytes} (h : t.node p = some (.file c))
    (d : Bytes) : dataAt (t.put p (.file d)) = Function.update (dataAt t) p d := by
  funext q
  by_cases hqp : q = p
  · subst hqp
    rw [dataAt_of_file (put_node_self d h), Function.update_self]
  · rw [dataAt_congr (DirTree.put_node_of_ne t _ hqp), Function.update_of_ne hqp]

theorem SameKinds.lstat {t u : FileTree Bytes} (h : SameKinds t u) {cwd : Path} {path : Str}
    {c : Bytes} (hl : Os.lstat t cwd path = some (.file c)) :
    ∃ c', Os.lstat u cwd path = some (.file c') := by
  obtain ⟨p, hp, hnode⟩ := Option.bind_eq_some_iff.1 hl
  obtain ⟨c', hc'⟩ := h.file p c hnode
  refine ⟨c', ?_⟩
  rw [Os.lstat, namei_mono (fun q => (h.dir q).2) hp, Option.bind_some, hc']

variable {W net env}

/-- After the check that it exists, the file is there, and no other file changed. -/
theorem touched_file {path : Str} {client client' : FileTree Bytes}
    (hopen : opensFile net env path client = true) (h : Touched env path client client') :
    (∃ c, lstat client' env.cwd path = some (.file c)) ∧ SameKinds client client' ∧
      dataAt client' = dataAt client := by
  rw [opensFile, Bool.and_eq_true] at hopen
  rw [Touched] at h
  cases hl : lstat client env.cwd path with
  | some e =>
    rw [hl] at hopen
    cases e with
    | file c =>
      have hex : pathExists client env.cwd path = true := by
        rw [pathExists_eq, stat, hl]
        rfl
      rw [if_pos hex] at h
      subst h
      exact ⟨⟨c, hl⟩, SameKinds.refl _, rfl⟩
    | dir => cases hopen.1
    | symlink l => cases hopen.1
  | none =>
    have hex : pathExists client env.cwd path = false := by
      rw [pathExists_eq, stat, hl]
      rfl
    rw [hex, if_neg Bool.false_ne_true] at h
    obtain ⟨q, e, hq, hfits, rfl, ⟨hnone, rfl⟩ | ⟨hlink, -⟩⟩ := openWrite_of_missing hex h
    · have hdir : client.node q ≠ some .dir := by rw [hnone]; simp
      have hnode : (client.put q (.file [])).node q = some (.file []) := by
        rw [DirTree.put_node_of_fits hfits, if_pos rfl]
      have hkinds := sameKinds_put hdir []
      refine ⟨⟨[], ?_⟩, hkinds, ?_⟩
      · rw [lstat, namei_mono (fun p => (hkinds.dir p).2) hq, Option.bind_some, hnode]
      · funext p
        by_cases hpq : p = q
        · subst hpq
          rw [dataAt_of_file hnode, dataAt, hnone]
        · exact dataAt_congr (DirTree.put_node_of_ne client _ hpq)
    · rw [lstat, hq, Option.bind_some, hlink] at hl
      cases hl

/-! ## A run of `fs` for a file -/

/-- The place of the copy of a client's file. -/
theorem serverPlace_eq {path : Str} (habs : isabs env.home = true) :
    serverPlace env path = copyOf env (clientPlace env path) := by
  rw [serverPlace, belowHome, copyOf, clientPlace, clientPlace, absCompsFrom_of_isabs habs]

theorem prefix_of_accepted {path : Str} (habs : isabs env.home = true)
    (hacc : refused env path = false) : absComps env.home <+: clientPlace env path := by
  have hpre := (accepted hacc).1
  rwa [clientPlace, absCompsFrom_of_isabs habs] at hpre

/-- A file is below the home directory, not the home directory. -/
theorem belowHome_ne_nil {path : Str} {client : FileTree Bytes} {c : Bytes}
    (habs : isabs env.home = true) (hhome : client.node (absComps env.home) = some .dir)
    (hacc : refused env path = false) (h : client.node (clientPlace env path) = some (.file c)) :
    belowHome env path ≠ [] := by
  intro h0
  rw [belowHome, clientPlace, absCompsFrom_of_isabs habs] at h0
  obtain ⟨r, hr⟩ := prefix_of_accepted habs hacc
  rw [← hr, List.drop_left] at h0
  rw [← hr, h0, List.append_nil, hhome] at h
  cases h

/-- A file that is pushed to a place that is no directory is there if the push
succeeds; if it fails nothing happened. -/
theorem push_file {path : Str} {client server : FileTree Bytes} {c : Bytes}
    (hfile : lstat client env.cwd path = some (.file c))
    (hkeep : (pushOptions net env).filter.hits [basename path] false = false)
    (hacc : refused env path = false) (hdir : server.node (serverPlace env path) ≠ some .dir) :
    push net env path (serverFn env path false) client server = (server, false) ∨
      (server.Fits (serverPlace env path) (.file c) ∧
        push net env path (serverFn env path false) client server =
          (server.put (serverPlace env path) (.file c), true)) := by
  obtain ⟨hp, hnode⟩ := namei_of_lstat hfile
  have hsent : Sends (pushOptions net env).filter client path (clientPlace env path)
      (.file (basename path) c) := .file hnode (contentsOperand_of_file hp hnode) hkeep
  rw [push, net.rsync.file (fileList_of_sends hp hsent)]
  cases hn : namei server [] (serverFn env path false) with
  | none =>
    left
    rw [receive, endsWithSlash_serverFn hacc, if_neg Bool.false_ne_true, hn]
  | some q =>
    obtain rfl := eq_of_namei_serverFn hacc hn
    have hnot : server.isDir (serverPlace env path) = false := by
      rw [← Bool.not_eq_true, DirTree.isDir_iff]
      exact hdir
    rw [receive_file _ c (endsWithSlash_serverFn hacc false) hn hnot]
    by_cases hfits : server.Fits (serverPlace env path) (.file c)
    · exact Or.inr ⟨hfits, by rw [decide_eq_true hfits]⟩
    · exact Or.inl (by rw [decide_eq_false hfits, DirTree.put, dif_neg hfits])

/-- The push of a file that succeeds, from what it finds. -/
theorem push_file_ok {path : Str} {client server after : FileTree Bytes} {c : Bytes}
    (hfile : lstat client env.cwd path = some (.file c))
    (hkeep : (pushOptions net env).filter.hits [basename path] false = false)
    (hacc : refused env path = false) (hdir : server.node (serverPlace env path) ≠ some .dir)
    (hok : push net env path (serverFn env path false) client server = (after, true)) :
    server.Fits (serverPlace env path) (.file c) ∧
      after = server.put (serverPlace env path) (.file c) := by
  rcases push_file hfile hkeep hacc hdir with hno | ⟨hfits, hyes⟩
  · rw [hno] at hok
    cases hok
  · rw [hyes] at hok
    exact ⟨hfits, (Prod.mk.inj hok).1.symm⟩

/-- The attempts at a push of a file: directories above the copy may be made first. -/
theorem pushed_file {rsync : Copier Bytes} {matcher : Matcher} {emptyDest : Bool} {path : Str}
    {client before after : FileTree Bytes} {server : σ} {c : Bytes} {asked : List Dict}
    (hfile : lstat client env.cwd path = some (.file c))
    (hkeep : (pushOptions (unbroken rsync matcher emptyDest) env).filter.hits [basename path]
      false = false)
    (hacc : refused env path = false) (hne : belowHome env path ≠ [])
    (hdir : (W.tree server).node (serverPlace env path) ≠ some .dir)
    (h : Pushed (unbroken rsync matcher emptyDest) (W.makes server) env path
      (serverFn env path false) client (W.tree server) before after asked) :
    OnlyMakes (W.tree server) before (serverPlace env path).dropLast ∧
      before.Fits (serverPlace env path) (.file c) ∧
      after = before.put (serverPlace env path) (.file c) := by
  cases h with
  | first hok => exact ⟨OnlyMakes.refl _ _, push_file_ok hfile hkeep hacc hdir hok⟩
  | @second broken _ _ hfail hmkdir hok =>
    have hbroken : broken = W.tree server := by
      rcases push_file hfile hkeep hacc hdir with hno | ⟨-, hyes⟩
      · exact (Prod.mk.inj (hfail.symm.trans hno)).1
      · exact absurd (Prod.mk.inj (hfail.symm.trans hyes)).2 Bool.false_ne_true
    obtain ⟨server', hserver', rfl⟩ := Option.map_eq_some_iff.1 hmkdir
    have habs := isabs_serverFn hacc false
    have hdd := (absCompsFrom_dirname_isPrefix [] (dotdot_notMem_serverFn hacc false)
      (dirname_ne_nil habs)).1
    have hmakes := W.onlyMakes (isabs_dirname habs) hdd hserver'
    rw [W.tree_withTree, hbroken, absComps_dirname_serverFn hacc hne] at hmakes
    refine ⟨hmakes, push_file_ok hfile hkeep hacc ?_ hok⟩
    rcases hmakes (serverPlace env path) with hsame | ⟨-, -, hpre⟩
    · rw [hsame]
      exact hdir
    · -- only directories above the copy were made
      have hlen := hpre.length_le
      rw [List.length_dropLast, serverPlace, List.length_cons] at hlen
      omega

/-- What a run of `fs` for a file leaves. -/
theorem main_file {rsync : Copier Bytes} {matcher : Matcher} {emptyDest : Bool} {path : Str}
    {client : FileTree Bytes} {server : σ} {w : World} {u : Unit} (habs : isabs env.home = true)
    (hhome : client.node (absComps env.home) = some .dir)
    (hopen : opensFile (unbroken rsync matcher emptyDest) env path client = true)
    (hdir : refused env path = false → client.node (clientPlace env path) ≠ some .dir →
      (W.tree server).node (serverPlace env path) ≠ some .dir)
    (h : (main (unbroken rsync matcher emptyDest) (W.makes server) env path).run
      ⟨client, W.tree server, []⟩ = .ok u w) :
    refused env path = false ∧ SameKinds client w.client ∧ dataAt w.client = dataAt client ∧
      ∃ c before, lstat w.client env.cwd path = some (.file c) ∧
        OnlyMakes (W.tree server) before (serverPlace env path).dropLast ∧
        before.Fits (serverPlace env path) (.file c) ∧
        w.server = before.put (serverPlace env path) (.file c) := by
  obtain ⟨client', htouch, hacc, before, after, asked, hpush, rfl⟩ := main_eq_ok.1 h
  obtain ⟨⟨c, hfile⟩, hkinds, hdata⟩ := touched_file hopen htouch
  obtain ⟨hp, hnode⟩ := namei_of_lstat hfile
  have hisdir : isdir client' env.cwd path = false := by
    rw [isdir_of_node hp hnode]
    rfl
  have hne := belowHome_ne_nil habs ((hkinds.dir _).2 hhome) hacc hnode
  have hcopy := hdir hacc fun hd => by
    rw [(hkinds.dir _).2 hd] at hnode
    cases hnode
  have hkeep : (pushOptions (unbroken rsync matcher emptyDest) env).filter.hits [basename path]
      false = false := by
    rw [opensFile, Bool.and_eq_true] at hopen
    simpa using hopen.2
  rw [hisdir] at hpush
  exact ⟨hacc, hkinds, hdata, c, before, hfile, pushed_file hfile hkeep hacc hne hcopy hpush⟩

/-! ## The simulation -/

/-- The route of a file that a run of `fs` opened. -/
def OwnRoute (env : Client.Env) (client : FileTree Bytes) (r : Route) : Prop :=
  ∃ cwd names editor path c, refused (env.run cwd names editor) path = false ∧
    lstat client (env.run cwd names editor).cwd path = some (.file c) ∧
    r = (pathMessage (env.run cwd names editor) path false).route

theorem OwnRoute.mono {client client' : FileTree Bytes} {r : Route} (h : OwnRoute env client r)
    (hkinds : SameKinds client client') : OwnRoute env client' r := by
  obtain ⟨cwd, names, editor, path, c, hacc, hfile, rfl⟩ := h
  obtain ⟨c', hc'⟩ := hkinds.lstat hfile
  exact ⟨cwd, names, editor, path, c', hacc, hc', rfl⟩

theorem file_pathMessage (env : Client.Env) (path : Str) :
    (pathMessage env path false).route.file = clientPlace env path := by
  have hfn : (pathMessage env path false).route.clientFn = abspath (toStr env.cwd) path :=
    clientFn_false env path
  rw [Route.file, hfn, absComps_abspath env.names, clientPlace]

/-- What the versions say is what the machines hold. -/
structure Agrees (W : Workstation σ) (env : Client.Env) (s : Desk σ)
    (t : Replica.State Path Bytes) : Prop where
  client : ∀ f, (t.client f).data = dataAt s.client f
  server : ∀ f, absComps env.home <+: f → s.client.node f ≠ some .dir →
    (W.tree s.server).node (copyOf env f) = (t.server f).map fun v => .file v.data
  pending : t.pending = s.pending.map Route.file

/-- The watches and the pulls are those of files that `fs` opened. -/
structure Desk.Own (W : Workstation σ) (env : Client.Env) (s : Desk σ) : Prop where
  home : s.client.node (absComps env.home) = some .dir
  pending : ∀ r ∈ s.pending, OwnRoute env s.client r
  fired : ∀ w, ∀ r ∈ W.fired s.server w, OwnRoute env s.client r

theorem Desk.Own.mono {s : Desk σ} {client : FileTree Bytes} (h : s.Own W env)
    (hkinds : SameKinds s.client client) : ({ s with client := client } : Desk σ).Own W env :=
  ⟨(hkinds.dir _).2 h.home, fun r hr => (h.pending r hr).mono hkinds,
    fun w r hr => (h.fired w r hr).mono hkinds⟩

/-- A copy is of one file only. -/
theorem copyOf_inj {f g : Path} (hf : absComps env.home <+: f) (hg : absComps env.home <+: g)
    (h : copyOf env f = copyOf env g) : f = g := by
  obtain ⟨p, rfl⟩ := hf
  obtain ⟨q, rfl⟩ := hg
  simpa [copyOf] using h

/-- A directory that is made for the copy of a file is the copy of a directory. -/
theorem dir_of_copyOf_isPrefix {client : FileTree Bytes} {f g : Path} {c : Bytes}
    (hf : absComps env.home <+: f) (hg : absComps env.home <+: g)
    (hfile : client.node f = some (.file c)) (hne : g ≠ f)
    (h : copyOf env g <+: (copyOf env f).dropLast) : client.node g = some .dir := by
  obtain ⟨p, rfl⟩ := hf
  obtain ⟨q, rfl⟩ := hg
  have hpre := h.trans (List.dropLast_prefix _)
  rw [copyOf, copyOf, List.cons_prefix_cons, List.cons_prefix_cons, List.drop_left,
    List.drop_left] at hpre
  have habove : absComps env.home ++ q <+: absComps env.home ++ p :=
    (List.prefix_append_right_inj _).2 hpre.2.2
  exact client.dir_of_isPrefix habove hne (by rw [hfile]; rfl)

section Step

variable {rsync : Copier Bytes} {matcher : Matcher} {emptyDest : Bool} {s s' : Desk σ}
  {t : Replica.State Path Bytes}

theorem refines_saveClient {f : Path} {data : Bytes} (ho : s.Own W env) (h : Agrees W env s t)
    (hs : s.step W net env (.saveClient f data) = some s') :
    ∃ t', Replica.step t (.saveClient f data) = some t' ∧ s'.Own W env ∧ Agrees W env s' t' := by
  rw [Desk.step] at hs
  split at hs
  · rename_i c hfile
    obtain rfl := Option.some.inj hs
    have hkinds := sameKinds_put (by rw [hfile]; simp) data
    refine ⟨_, rfl, ho.mono hkinds, fun g => ?_, fun g hg hdir => ?_, h.pending⟩
    · rw [dataAt_put hfile]
      by_cases hgf : g = f
      · subst hgf
        simp
      · simp [Function.update_of_ne hgf, h.client]
    · exact h.server g hg fun hd => hdir ((hkinds.dir g).2 hd)
  · cases hs

theorem refines_saveServer {f : Path} {data : Bytes} {fired : List Route} (ho : s.Own W env)
    (h : Agrees W env s t) (hs : s.step W net env (.saveServer f data fired) = some s') :
    ∃ t', Replica.step t (.saveServer f data (fired.map Route.file)) = some t' ∧
      s'.Own W env ∧ Agrees W env s' t' := by
  rw [Desk.step] at hs
  split at hs
  · rename_i c d hfile hcopy
    split at hs
    · rename_i hguard
      obtain ⟨hbelow, hfired⟩ := hguard
      obtain rfl := Option.some.inj hs
      have hthere : (t.server f).isSome = true := by
        have hsrv := h.server f hbelow (by rw [hfile]; simp)
        rw [hcopy] at hsrv
        cases hv : t.server f with
        | none => rw [hv] at hsrv; cases hsrv
        | some v => rfl
      refine ⟨_, Replica.step_saveServer hthere data _,
        ⟨ho.home, fun r hr => ?_, fun w r hr => ?_⟩, h.client, fun g hg hdir => ?_, ?_⟩
      · exact (List.mem_append.1 hr).elim (ho.pending r) fun hr => ho.fired _ r (hfired hr)
      · rw [W.fired_withTree] at hr
        exact ho.fired w r hr
      · rw [W.tree_withTree]
        by_cases hgf : g = f
        · subst hgf
          simp [put_node_self data hcopy]
        · rw [DirTree.put_node_of_ne _ _ fun hc => hgf (copyOf_inj hg hbelow hc),
            h.server g hg hdir]
          simp [Function.update_of_ne hgf]
      · simp [h.pending]
    · cases hs
  · cases hs

theorem refines_notice {w : Path} {fired : List Route} (ho : s.Own W env)
    (h : Agrees W env s t) (hs : s.step W net env (.notice w fired) = some s') :
    ∃ t', Replica.step t (.notice (fired.map Route.file)) = some t' ∧ s'.Own W env ∧
      Agrees W env s' t' := by
  rw [Desk.step] at hs
  split at hs
  · rename_i hfired
    obtain rfl := Option.some.inj hs
    refine ⟨_, rfl, ⟨ho.home, fun r hr => ?_, ho.fired⟩, h.client, h.server, ?_⟩
    · exact (List.mem_append.1 hr).elim (ho.pending r) fun hr => ho.fired _ r (hfired hr)
    · simp [h.pending]
  · cases hs

/-- A pull brings the version of the server, if it has one. -/
theorem pull_own {cwd : Path} {names : ∀ c ∈ cwd, IsName c} {editor path : Str} {c : Bytes}
    (habs : isabs env.home = true) (h : Agrees W env s t)
    (hhome : s.client.node (absComps env.home) = some .dir)
    (hacc : refused (env.run cwd names editor) path = false)
    (hfile : lstat s.client (env.run cwd names editor).cwd path = some (.file c)) :
    (pull net (serverFn (env.run cwd names editor) path false)
        (clientFn (env.run cwd names editor) path false) (W.tree s.server) s.client).1 =
      (t.server (absCompsFrom cwd path)).elim s.client
        fun v => s.client.put (absCompsFrom cwd path) (.file v.data) := by
  have habs' : isabs (env.run cwd names editor).home = true := habs
  have hnode := (namei_of_lstat hfile).2
  have hbelow : absComps env.home <+: clientPlace (env.run cwd names editor) path :=
    prefix_of_accepted habs' hacc
  have hsrv := h.server _ hbelow (by rw [hnode]; simp)
  have hplace : serverPlace (env.run cwd names editor) path = copyOf env (absCompsFrom cwd path) :=
    serverPlace_eq habs'
  have hne : belowHome (env.run cwd names editor) path ≠ [] :=
    belowHome_ne_nil habs' hhome hacc hnode
  have hcopy : (W.tree s.server).node (serverPlace (env.run cwd names editor) path) =
      (t.server (absCompsFrom cwd path)).map fun v => .file v.data := by
    rw [hplace]
    exact hsrv
  cases hv : t.server (absCompsFrom cwd path) with
  | none =>
    rw [hv] at hcopy
    exact pull_missing hacc false hcopy
  | some v =>
    rw [hv] at hcopy
    exact pull_file hfile (namei_serverFn_of_file hacc hne hcopy) hcopy

theorem agrees_pulled {f : Path} {c : Bytes} {client : FileTree Bytes} {i : ℕ} (ho : s.Own W env)
    (h : Agrees W env s t) (hnode : s.client.node f = some (.file c))
    (hclient : client = (t.server f).elim s.client fun v => s.client.put f (.file v.data)) :
    Desk.Own W env ⟨client, s.server, s.pending.eraseIdx i⟩ ∧
      Agrees W env ⟨client, s.server, s.pending.eraseIdx i⟩ { t with
        client := (t.server f).elim t.client (Function.update t.client f)
        pending := t.pending.eraseIdx i } := by
  have hown : Desk.Own W env ⟨s.client, s.server, s.pending.eraseIdx i⟩ :=
    ⟨ho.home, fun r hr => ho.pending r (List.mem_of_mem_eraseIdx hr), ho.fired⟩
  have herase : t.pending.eraseIdx i = (s.pending.eraseIdx i).map Route.file := by
    rw [h.pending, List.eraseIdx_map]
  subst hclient
  cases t.server f with
  | none => exact ⟨hown, h.client, h.server, herase⟩
  | some v =>
    have hkinds := sameKinds_put (by rw [hnode]; simp) v.data
    refine ⟨hown.mono hkinds, fun g => ?_, fun g hg hdir => ?_, herase⟩
    · show (Function.update t.client f v g).data = dataAt (s.client.put f (.file v.data)) g
      rw [dataAt_put hnode]
      by_cases hgf : g = f
      · subst hgf
        rw [Function.update_self, Function.update_self]
      · rw [Function.update_of_ne hgf, Function.update_of_ne hgf, h.client]
    · exact h.server g hg fun hd => hdir ((hkinds.dir g).2 hd)

theorem refines_pull {i : ℕ} (habs : isabs env.home = true) (ho : s.Own W env)
    (h : Agrees W env s t) (hs : s.step W net env (.pull i) = some s') :
    ∃ t', Replica.step t (.pull i) = some t' ∧ s'.Own W env ∧ Agrees W env s' t' := by
  obtain ⟨r, hr, rfl⟩ := Option.map_eq_some_iff.1 hs
  obtain ⟨cwd, names, editor, path, c, hacc, hfile, rfl⟩ :=
    ho.pending r (List.mem_of_getElem? hr)
  have hpend : t.pending[i]? = some (absCompsFrom cwd path) := by
    rw [h.pending, List.getElem?_map, hr, Option.map_some, file_pathMessage]
    rfl
  have hnode := (namei_of_lstat hfile).2
  exact ⟨_, Replica.step_pull hpend, agrees_pulled ho h hnode (pull_own habs h ho.home hacc hfile)⟩

/-- What the write of a push leaves of the copies. -/
theorem agrees_pushed {f : Path} {c : Bytes} {client before : FileTree Bytes} {server : σ}
    {fired : List Route} (h : Agrees W env s t) (hkinds : SameKinds s.client client)
    (hdata : dataAt client = dataAt s.client) (hbelow : absComps env.home <+: f)
    (hnode : client.node f = some (.file c))
    (hmakes : OnlyMakes (W.tree s.server) before (copyOf env f).dropLast)
    (hfits : before.Fits (copyOf env f) (.file c))
    (hserver : W.tree server = before.put (copyOf env f) (.file c)) :
    Agrees W env ⟨client, server, s.pending ++ fired⟩ { t with
      server := Function.update t.server f (some (t.client f))
      pending := t.pending ++ fired.map Route.file } := by
  refine ⟨fun g => ?_, fun g hg hdir => ?_, ?_⟩
  · rw [hdata]
    exact h.client g
  · by_cases hgf : g = f
    · subst hgf
      have hc : (t.client g).data = c := by rw [h.client, ← hdata, dataAt_of_file hnode]
      simp only [hserver, DirTree.put_node_of_fits hfits, if_pos, Function.update_self,
        Option.map_some, hc]
    · have hold := h.server g hg fun hd => hdir ((hkinds.dir g).2 hd)
      have hne : copyOf env g ≠ copyOf env f := fun hc => hgf (copyOf_inj hg hbelow hc)
      simp only [hserver, DirTree.put_node_of_ne before _ hne, Function.update_of_ne hgf]
      rcases hmakes (copyOf env g) with hsame | ⟨-, -, hpre⟩
      · rw [hsame, hold]
      · exact absurd (dir_of_copyOf_isPrefix hbelow hg hnode hgf hpre) hdir
  · rw [List.map_append, h.pending]

/-- What a run of `fs` does to the machines. -/
theorem step_fs_eq_some {cwd : Path} {names : ∀ c ∈ cwd, IsName c}
    {editor path : Str} {fired : List Route}
    (h : s.step W net env (.fs cwd names editor path fired) = some s') :
    opensFile net (env.run cwd names editor) path s.client = true ∧
      ∃ w, (main net (W.makes s.server) (env.run cwd names editor) path).run
          ⟨s.client, W.tree s.server, []⟩ = .ok () w ∧
        fired ⊆ W.fired (W.message (W.withTree s.server w.server)
          (pathMessage (env.run cwd names editor) path (isdir w.client cwd path)))
            (serverPlace (env.run cwd names editor) path) ∧
        s' = ⟨w.client, W.message (W.withTree s.server w.server)
          (pathMessage (env.run cwd names editor) path (isdir w.client cwd path)),
            s.pending ++ fired⟩ := by
  rw [Desk.step] at h
  split at h
  · rename_i hopen
    split at h
    · rename_i w hrun
      dsimp only at h
      split at h
      · rename_i hfired
        exact ⟨hopen, w, hrun, hfired, (Option.some.inj h).symm⟩
      · cases h
    · cases h
  · cases h

/-- A run of `fs` is a push. -/
theorem refines_fs {cwd : Path} {names : ∀ c ∈ cwd, IsName c} {editor path : Str}
    {fired : List Route} (habs : isabs env.home = true) (ho : s.Own W env) (h : Agrees W env s t)
    (hs : s.step W (unbroken rsync matcher emptyDest) env (.fs cwd names editor path fired) =
      some s') :
    ∃ t', Replica.step t (.push (absCompsFrom cwd path) (fired.map Route.file)) = some t' ∧
      s'.Own W env ∧ Agrees W env s' t' := by
  obtain ⟨hopen, w, hrun, hfired, rfl⟩ := step_fs_eq_some hs
  have habs' : isabs (env.run cwd names editor).home = true := habs
  have hhome : s.client.node (absComps (env.run cwd names editor).home) = some .dir := ho.home
  have hplace : serverPlace (env.run cwd names editor) path =
      copyOf env (clientPlace (env.run cwd names editor) path) :=
    serverPlace_eq habs'
  have hbelow : refused (env.run cwd names editor) path = false →
      absComps env.home <+: clientPlace (env.run cwd names editor) path :=
    fun hacc => prefix_of_accepted habs' hacc
  have hfree : refused (env.run cwd names editor) path = false →
      s.client.node (clientPlace (env.run cwd names editor) path) ≠ some .dir →
      (W.tree s.server).node (serverPlace (env.run cwd names editor) path) ≠ some .dir := by
    intro hacc hdir hc
    have hold := h.server _ (hbelow hacc) hdir
    rw [hplace, hold] at hc
    cases hv : t.server (clientPlace (env.run cwd names editor) path) <;> rw [hv] at hc <;>
      cases hc
  obtain ⟨hacc, hkinds, hdata, c, before, hfile, hmakes, hfits, hserver⟩ :=
    main_file habs' hhome hopen hfree hrun
  obtain ⟨hp, hnode⟩ := namei_of_lstat hfile
  have hisdir : isdir w.client cwd path = false := isdir_of_node hp hnode
  rw [hisdir] at hfired ⊢
  rw [hplace] at hmakes hfits hserver
  have hroute : OwnRoute env w.client (pathMessage (env.run cwd names editor) path false).route :=
    ⟨cwd, names, editor, path, c, hacc, hfile, rfl⟩
  have hown : ∀ v, ∀ r ∈ W.fired (W.message (W.withTree s.server w.server)
      (pathMessage (env.run cwd names editor) path false)) v, OwnRoute env w.client r := by
    intro v r hr
    rcases W.fired_message hr with hr | rfl
    · rw [W.fired_withTree] at hr
      exact (ho.fired v r hr).mono hkinds
    · exact hroute
  refine ⟨_, rfl, ⟨(hkinds.dir _).2 ho.home, fun r hr => ?_, hown⟩, ?_⟩
  · rcases List.mem_append.1 hr with hr | hr
    · exact (ho.pending r hr).mono hkinds
    · exact hown _ r (hfired hr)
  · refine agrees_pushed h hkinds hdata (hbelow hacc) hnode hmakes hfits ?_
    exact (W.tree_message _ _).trans ((W.tree_withTree _ _).trans hserver)

/-- **One step.** -/
theorem Desk.step_refines {e : Event} (habs : isabs env.home = true) (ho : s.Own W env)
    (h : Agrees W env s t) (hs : s.step W (unbroken rsync matcher emptyDest) env e = some s') :
    ∃ t', Replica.step t e.action = some t' ∧ s'.Own W env ∧ Agrees W env s' t' := by
  cases e with
  | saveClient f data => exact refines_saveClient ho h hs
  | fs cwd names editor path fired => exact refines_fs habs ho h hs
  | saveServer f data fired => exact refines_saveServer ho h hs
  | notice w fired => exact refines_notice ho h hs
  | pull i => exact refines_pull habs ho h hs

end Step

/-! ## Runs -/

/-- In every run the machines hold what the versions say.  Every step keeps a file if
and only if it is in order, and it is in order if the users are careful with it. -/
def VersionsKept (W : Workstation σ) (net : Network) (env : Client.Env) (client : FileTree Bytes)
    (server : σ) : Prop :=
  ∀ events s, Run.exec (Desk.step W net env) ⟨client, server, []⟩ events = some s →
    (∃ t, Run.exec Replica.step (Replica.start (dataAt client)) (events.map Event.action) = some t ∧
      Agrees W env s t) ∧
    ∀ f, (Run.Steps Replica.step (Replica.Keeps f) (Replica.start (dataAt client))
          (events.map Event.action) ↔
        Run.Guarded Replica.step (Replica.InOrder f) (Replica.start (dataAt client))
          (events.map Event.action)) ∧
      (Run.Guarded Replica.step (Replica.Careful f) (Replica.start (dataAt client))
          (events.map Event.action) →
        Run.Steps Replica.step (Replica.Keeps f) (Replica.start (dataAt client))
          (events.map Event.action))

theorem versionsKept_of_start {rsync : Copier Bytes} {matcher : Matcher} {emptyDest : Bool}
    {client : FileTree Bytes} {server : σ} (habs : isabs env.home = true)
    (hhome : client.node (absComps env.home) = some .dir)
    (hcopies : ∀ f, absComps env.home <+: f → client.node f ≠ some .dir →
      (W.tree server).node (copyOf env f) = none)
    (hfired : ∀ w, W.fired server w = []) :
    VersionsKept W (unbroken rsync matcher emptyDest) env client server := by
  intro events s hrun
  have hown : Desk.Own W env ⟨client, server, []⟩ := by
    refine ⟨hhome, fun r hr => absurd hr List.not_mem_nil, fun w r hr => ?_⟩
    rw [hfired w] at hr
    exact absurd hr List.not_mem_nil
  have hagrees : Agrees W env ⟨client, server, []⟩ (Replica.start (dataAt client)) :=
    ⟨fun _ => rfl, hcopies, rfl⟩
  obtain ⟨t, ht, -, hagrees'⟩ := Run.exec_sim (R := fun s t => Desk.Own W env s ∧ Agrees W env s t)
    Event.action (fun _ _ _ _ hR hs => Desk.step_refines habs hR.1 hR.2 hs) ⟨hown, hagrees⟩ hrun
  refine ⟨⟨t, ht, hagrees'⟩, fun f => ?_⟩
  have hiff := Replica.keeps_along_iff f (dataAt client) (events.map Event.action)
  exact ⟨hiff, fun hcareful => hiff.2 (Replica.inOrder_of_careful hcareful)⟩

/-- **Which versions are kept**, on a workstation that starts without copies and
without watches. -/
theorem versions_kept {rsync : Copier Bytes} {matcher : Matcher} {emptyDest : Bool}
    {client tree : FileTree Bytes}
    (habs : isabs env.home = true) (hhome : client.node (absComps env.home) = some .dir)
    (hcopies : ∀ f, absComps env.home <+: f → client.node f ≠ some .dir →
      tree.node (copyOf env f) = none)
    (cwd : Path) (mayCreate : Path → Bool) (ubuntu : Ubuntu.Env)
    (names : ∀ c ∈ ubuntu.cwd, IsName c) :
    VersionsKept (Mac.workstation cwd mayCreate) (unbroken rsync matcher emptyDest) env client
        (Mac.awakeFromNib tree) ∧
      VersionsKept (Ubuntu.workstation ubuntu names) (unbroken rsync matcher emptyDest) env client
        (Ubuntu.init tree) :=
  ⟨versionsKept_of_start habs hhome hcopies fun _ => rfl,
    versionsKept_of_start habs hhome hcopies fun _ => rfl⟩

/-- Ann's home directory with the files `a` and `b`. -/
def annFiles : FileTree Bytes :=
  (((DirTree.empty.put ["home".toList] .dir).put ["home".toList, "ann".toList] .dir).put
    ["home".toList, "ann".toList, "a".toList] (.file [1])).put
    ["home".toList, "ann".toList, "b".toList] (.file [1])

/-- A workstation with the directory `/tmp/h`. -/
def tmpTree : FileTree Bytes :=
  (DirTree.empty.put ["tmp".toList] .dir).put ["tmp".toList, "h".toList] .dir

/-- `fs` in Ann's home directory. -/
def annOpens (path : Str) (fired : List Route) : Event :=
  .fs ann.cwd ann.names ann.editor path fired

theorem versions_kept_sample :
    VersionsKept (Mac.workstation [] fun _ => true) (unbroken copier wildcards false) ann annFiles
        (Mac.awakeFromNib DirTree.empty) ∧
      VersionsKept (Ubuntu.workstation Ubuntu.sampleEnv (by decide))
        (unbroken copier wildcards false) ann annFiles (Ubuntu.init DirTree.empty) :=
  versions_kept rfl (by decide) (fun _ _ _ => rfl) [] (fun _ => true) Ubuntu.sampleEnv (by decide)

/-- On the Mac the write of `b` starts a pull of `a`, which nobody edited on the
server, and the pull reverts what Ann saved; on Ubuntu a push discards what was saved
on the server. -/
theorem older_version_wins :
    (∃ events s, Run.exec (Desk.step (Mac.workstation [] fun _ => true)
          (unbroken copier wildcards false) ann) ⟨annFiles, Mac.awakeFromNib tmpTree, []⟩ events =
            some s ∧
        events = [annOpens "a".toList [], annOpens "b".toList [],
          .saveClient ["home".toList, "ann".toList, "a".toList] [3],
          annOpens "b".toList [(pathMessage ann "a".toList false).route], .pull 0] ∧
        s.client.node ["home".toList, "ann".toList, "a".toList] = some (.file [1]) ∧
        ¬ Run.Steps Replica.step (Replica.Keeps ["home".toList, "ann".toList, "a".toList])
          (Replica.start (dataAt annFiles)) (events.map Event.action)) ∧
    ∃ events s, Run.exec (Desk.step (Ubuntu.workstation Ubuntu.sampleEnv (by decide))
          (unbroken copier wildcards false) ann) ⟨annFiles, Ubuntu.init tmpTree, []⟩ events =
            some s ∧
        events = [annOpens "a".toList [],
          .saveServer ["home".toList, "ann".toList, "a".toList] [2] [],
          annOpens "a".toList []] ∧
        s.server.tree.node ["tmp".toList, "h".toList, "a".toList] = some (.file [1]) ∧
        ¬ Run.Steps Replica.step (Replica.Keeps ["home".toList, "ann".toList, "a".toList])
          (Replica.start (dataAt annFiles)) (events.map Event.action) := by
  refine ⟨⟨_, _, rfl, rfl, by decide, fun h => ?_⟩, ⟨_, _, rfl, rfl, by decide, fun h => ?_⟩⟩
  · obtain ⟨hkeeps, -⟩ := ((((h _ rfl).2 _ rfl).2 _ rfl).2 _ rfl).2 _ rfl
    exact absurd hkeeps.client (by decide)
  · obtain ⟨hkeeps, -⟩ := ((h _ rfl).2 _ rfl).2 _ rfl
    rcases hkeeps.server ⟨1, [2]⟩ rfl with hv | ⟨v, hv, hlt⟩
    · exact absurd hv (by decide)
    · obtain rfl := Option.some.inj hv
      exact absurd hlt (by decide)

end Fsync
