import Fsync.Client.Pull

/-!
# Push, edit and pull

A push copies a file or a directory to an empty place on the server, a file of the
copy is edited there, and a pull brings it back.

* `push_fresh`: what is at the place of the copy after the push;
* `acts_as_edit_iff`: the three together act as the edit itself if and only if the
  operand copies contents, or is a file, or is excluded; a directory typed without a
  final slash comes back into a subdirectory of its own name.
-/

namespace Fsync.Client

open Posix Os Rsync

variable {net : Network} {env : Env} {path : Str} {client server server' : FileTree Bytes}

/-! ## Statement -/

/-- Where the client has the file that is copied to the place `r` below the copy. -/
def origin (env : Env) (path : Str) (r : Path) : Path :=
  clientPlace env path ++ if contentsOperand path then r else r.tail

/-- There is no copy yet; the directory of a directory may be there. -/
structure NoCopy (env : Env) (path : Str) (isDir : Bool) (server : FileTree Bytes) : Prop where
  below : ∀ r, r ≠ [] → server.node (serverPlace env path ++ r) = none
  place : server.node (serverPlace env path) = none ∨
    (isDir = true ∧ server.node (serverPlace env path) = some .dir)

/-- The pull brings back every edit of a file of the copy to where the file is from,
and nothing else. -/
structure ActsAsEdit (net : Network) (env : Env) (path : Str) (isDir : Bool)
    (client server : FileTree Bytes) : Prop where
  unchanged : (pull net (serverFn env path isDir) (clientFn env path isDir) server client).1 = client
  edit : ∀ r c c', server.node (serverPlace env path ++ r) = some (.file c) →
    (pull net (serverFn env path isDir) (clientFn env path isDir)
      (server.put (serverPlace env path ++ r) (.file c')) client).1 =
        client.put (origin env path r) (.file c')

/-- The operand copies contents, or what it sends as a tree is directories that the
client has in a subdirectory of the directory's own name as well. -/
def ComesBack (net : Network) (env : Env) (path : Str) (client : FileTree Bytes) : Prop :=
  contentsOperand path = true ∨
    ∀ tr, fileList (pushOptions net env).filter client env.cwd path = some (.tree tr) →
      ∀ r e, tr.tree.node r = some e → e = .dir ∧ client.node (clientPlace env path ++ r) = some .dir

/-! ## The copy -/

/-- After the push of a tree the copy is what was sent. -/
theorem push_fresh (hacc : refused env path = false) {tr : Transfer Bytes}
    (hsent : fileList (pushOptions net env).filter client env.cwd path = some (.tree tr))
    (hno : NoCopy env path true server)
    (hpush : push net env path (serverFn env path true) client server = (server', true))
    (r : Path) :
    server'.node (serverPlace env path ++ r) = tr.tree.node r := by
  cases hdest : destDir server [] (serverFn env path true) with
  | none =>
    rw [push, net.rsync.noDir hsent hdest] at hpush
    cases hpush
  | some d =>
    obtain rfl := eq_of_destDir_serverFn hacc hdest
    have hlaid := net.rsync.laid hsent hdest r
    rw [push] at hpush
    rw [hpush] at hlaid
    by_cases hr : r = []
    · subst hr
      rw [tr.tree.root] at hlaid ⊢
      exact hlaid.dir_there
    · rw [hno.below r hr] at hlaid
      exact hlaid.fresh

/-- After a push that sends nothing there is no file in the copy. -/
theorem push_nothing (hacc : refused env path = false) {isDir : Bool}
    (hsent : fileList (pushOptions net env).filter client env.cwd path = some .nothing)
    (hno : NoCopy env path isDir server)
    (hpush : push net env path (serverFn env path isDir) client server = (server', true)) :
    NoCopy env path isDir server' := by
  rcases push_of_nothing hacc isDir hsent server with ⟨ok, hsame, -⟩ | ⟨hmake, -, hmade⟩
  · obtain rfl := (Prod.mk.inj (hsame.symm.trans hpush)).1
    exact hno
  · obtain rfl := (congrArg Prod.fst hpush).symm.trans hmade
    refine ⟨fun r hr => ?_, ?_⟩
    · rw [DirTree.put_node_of_ne server .dir (by simpa using hr)]
      exact hno.below r hr
    · rw [DirTree.put]
      split
      · exact Or.inr ⟨hmake.2, if_pos rfl⟩
      · exact hno.place

/-! ## The pull -/

/-- A pull without a copy changes nothing. -/
theorem actsAsEdit_of_noCopy (hacc : refused env path = false) {isDir : Bool}
    (hclient : isDir = true → lstat client env.cwd path = some .dir)
    (hno : NoCopy env path isDir server) : ActsAsEdit net env path isDir client server := by
  refine ⟨?_, fun r c c' hfile => ?_⟩
  · rcases hno.place with hplace | ⟨rfl, hplace⟩
    · exact pull_missing hacc isDir hplace
    · have hdir := hclient rfl
      ext1 p
      by_cases hp : clientPlace env path <+: p
      · obtain ⟨r, rfl⟩ := hp
        by_cases hr : r = []
        · subst hr
          have hlaid := pull_laid net hacc hdir hplace (r := []) (by simp [hplace])
          rw [List.append_nil, List.append_nil, hplace] at hlaid
          rw [List.append_nil, hlaid.dir_there, (namei_of_lstat hdir).2]
        · have hlaid := pull_laid net hacc hdir hplace (r := r) (by simp [hno.below r hr])
          rw [hno.below r hr] at hlaid
          exact hlaid.kept
      · exact pull_outside hacc hdir hplace hp
  · by_cases hr : r = []
    · rw [hr, List.append_nil] at hfile
      rcases hno.place with h | ⟨-, h⟩ <;> rw [h] at hfile <;> cases hfile
    · rw [hno.below r hr] at hfile
      cases hfile

section Copy

variable {u : FileTree Bytes}

/-- A pull of a copy that holds the tree `u`, place by place. -/
theorem pull_copy_laid (net : Network) (hacc : refused env path = false)
    (hclient : lstat client env.cwd path = some .dir)
    (hlinks : ∀ r l, u.node r ≠ some (.symlink l))
    (hcopy : ∀ r, server.node (serverPlace env path ++ r) = u.node r) (r : Path) :
    Laid false (u.node r) (client.node (clientPlace env path ++ r))
      ((pull net (serverFn env path true) (clientFn env path true) server client).1.node
        (clientPlace env path ++ r)) := by
  have hroot : server.node (serverPlace env path) = some .dir := by
    have h := hcopy []
    rwa [List.append_nil, u.root] at h
  rw [← hcopy]
  exact pull_laid net hacc hclient hroot (by rw [hcopy]; exact hlinks r)

theorem pull_copy_outside (hacc : refused env path = false)
    (hclient : lstat client env.cwd path = some .dir)
    (hcopy : ∀ r, server.node (serverPlace env path ++ r) = u.node r) {p : Path}
    (hp : ¬ clientPlace env path <+: p) :
    (pull net (serverFn env path true) (clientFn env path true) server client).1.node p =
      client.node p := by
  have hroot : server.node (serverPlace env path) = some .dir := by
    have h := hcopy []
    rwa [List.append_nil, u.root] at h
  exact pull_outside hacc hclient hroot hp

/-- So it changes nothing if `u` is at the client's place already. -/
theorem pull_copy_eq_self (hacc : refused env path = false)
    (hclient : lstat client env.cwd path = some .dir)
    (hlinks : ∀ r l, u.node r ≠ some (.symlink l))
    (hcopy : ∀ r, server.node (serverPlace env path ++ r) = u.node r)
    (hthere : ∀ r e, u.node r = some e → client.node (clientPlace env path ++ r) = some e) :
    (pull net (serverFn env path true) (clientFn env path true) server client).1 = client := by
  ext1 p
  by_cases hp : clientPlace env path <+: p
  · obtain ⟨r, rfl⟩ := hp
    exact (pull_copy_laid net hacc hclient hlinks hcopy r).unchanged (hthere r)
  · exact pull_copy_outside hacc hclient hcopy hp

/-- The copy with one file edited holds `u` with that file edited. -/
theorem copy_edited {r₀ : Path} {c : Bytes} (c' : Bytes)
    (hcopy : ∀ r, server.node (serverPlace env path ++ r) = u.node r)
    (hr₀ : u.node r₀ = some (.file c)) (r : Path) :
    (server.put (serverPlace env path ++ r₀) (.file c')).node (serverPlace env path ++ r) =
      (u.put r₀ (.file c')).node r := by
  have hfile : server.node (serverPlace env path ++ r₀) = some (.file c) := by rw [hcopy, hr₀]
  rw [DirTree.put_node_of_fits (DirTree.fits_of_file hfile),
    DirTree.put_node_of_fits (DirTree.fits_of_file hr₀), hcopy]
  simp

theorem links_edited {r₀ : Path} (c' : Bytes) (hlinks : ∀ r l, u.node r ≠ some (.symlink l))
    (r : Path) (l : Option Kind) : (u.put r₀ (.file c')).node r ≠ some (.symlink l) := by
  by_cases hr : r = r₀
  · subst hr
    rw [DirTree.put]
    split
    · rw [DirTree.putAt, DirTree.ofNode_node, if_pos rfl]
      exact fun h => by cases h
    · exact hlinks r l
  · rw [DirTree.put_node_of_ne u _ hr]
    exact hlinks r l

end Copy

/-! ## The three kinds of operands -/

theorem actsAsEdit_contents (hacc : refused env path = false)
    (hclient : lstat client env.cwd path = some .dir) (hc : contentsOperand path = true)
    (hcopy : ∀ r, server.node (serverPlace env path ++ r) =
      (contents (pushOptions net env).filter client (clientPlace env path)
        (namei_of_lstat hclient).2).tree.node r) : ActsAsEdit net env path true client server := by
  have hlinks : ∀ r l, (contents (pushOptions net env).filter client (clientPlace env path)
      (namei_of_lstat hclient).2).tree.node r ≠ some (.symlink l) :=
    fun _ _ => not_symlink_of_sent
  refine ⟨pull_copy_eq_self hacc hclient hlinks hcopy fun r e => contents_node_of_some, ?_⟩
  intro r₀ c c' hfile
  rw [hcopy] at hfile
  have hold := contents_node_of_some hfile
  rw [origin, if_pos hc]
  ext1 p
  rw [DirTree.put_node_of_fits (DirTree.fits_of_file hold)]
  by_cases hp : clientPlace env path <+: p
  · obtain ⟨r, rfl⟩ := hp
    have hlaid := pull_copy_laid net hacc hclient (links_edited c' hlinks)
      (copy_edited c' hcopy hfile) r
    rw [DirTree.put_node_of_fits (DirTree.fits_of_file hfile)] at hlaid
    by_cases hr : r = r₀
    · subst hr
      rw [if_pos rfl, hold] at hlaid
      rw [if_pos rfl, hlaid.file_replaced]
    · rw [if_neg hr] at hlaid
      rw [if_neg (by simpa using hr)]
      exact hlaid.unchanged fun e => contents_node_of_some
  · rw [pull_copy_outside hacc hclient (copy_edited c' hcopy hfile) hp, if_neg]
    rintro rfl
    exact hp (List.prefix_append _ _)

theorem actsAsEdit_file {c : Bytes} (hclient : lstat client env.cwd path = some (.file c))
    (hfn : namei server [] (serverFn env path false) = some (serverPlace env path))
    (hserver : server.node (serverPlace env path) = some (.file c)) :
    ActsAsEdit net env path false client server := by
  refine ⟨?_, fun r c₁ c' hfile => ?_⟩
  · rw [pull_file hclient hfn hserver]
    exact DirTree.put_eq_self (namei_of_lstat hclient).2
  · have hr : r = [] := by
      by_contra hr
      have hnotDir : server.node (serverPlace env path) ≠ some .dir := by
        rw [hserver]
        exact fun h => by cases h
      rw [server.node_append_eq_none hnotDir hr] at hfile
      cases hfile
    rw [hr, List.append_nil] at hfile ⊢
    have hfn' := namei_mono (fun q => DirTree.put_file_dir (serverPlace env path) c' (q := q)) hfn
    have hfits := DirTree.fits_of_file (d := c') hfile
    rw [pull_file hclient hfn' (by rw [DirTree.put_node_of_fits hfits, if_pos rfl])]
    simp [origin]

/-- A directory that is sent under its own name comes back below that name. -/
theorem actsAsEdit_named_iff (hacc : refused env path = false)
    (hclient : lstat client env.cwd path = some .dir) (hc : contentsOperand path = false)
    {tr : Transfer Bytes} (htr : tr = named (pushOptions net env).filter client (basename path)
      (clientPlace env path) (namei_of_lstat hclient).2)
    (hcopy : ∀ r, server.node (serverPlace env path ++ r) = tr.tree.node r) :
    ActsAsEdit net env path true client server ↔ ∀ r e, tr.tree.node r = some e →
      e = .dir ∧ client.node (clientPlace env path ++ r) = some .dir := by
  have hlinks : ∀ r l, tr.tree.node r ≠ some (.symlink l) := by
    rw [htr]
    exact fun _ _ => not_symlink_of_sent
  constructor
  · intro h r e hr
    cases e with
    | symlink l => exact absurd hr (hlinks r l)
    | dir =>
      refine ⟨rfl, ?_⟩
      have hsame := congrArg (fun t => t.node (clientPlace env path ++ r)) h.unchanged
      have hlaid := pull_copy_laid net hacc hclient hlinks hcopy r
      rw [hr] at hlaid
      exact hsame.symm.trans hlaid.dir_there
    | file c =>
      exfalso
      have hr0 : r ≠ [] := by
        rintro rfl
        rw [tr.tree.root] at hr
        cases hr
      obtain ⟨q, rfl, hq⟩ := named_node_of_some hr0 (htr ▸ hr)
      have hne : q ≠ basename path :: q := (List.cons_ne_self _ _).symm
      -- the client's file gets the same data, however the copy is edited
      have hedit : ∀ c', Laid false (tr.tree.node q) (some (.file c)) (some (.file c')) := by
        intro c'
        have hpull := h.edit (basename path :: q) c c' (by rw [hcopy, hr])
        have hlaid := pull_copy_laid net hacc hclient (links_edited c' hlinks)
          (copy_edited c' hcopy hr) q
        rwa [hpull, DirTree.put_node_of_ne tr.tree _ hne, hq, origin, hc, List.tail_cons,
          if_neg Bool.false_ne_true, DirTree.put_node_of_fits (DirTree.fits_of_file hq),
          if_pos rfl] at hlaid
      have hboth := (hedit []).unique (hedit [0])
      cases hboth
  · intro h
    refine ⟨pull_copy_eq_self hacc hclient hlinks hcopy fun r e hr => ?_, fun r c c' hfile => ?_⟩
    · obtain ⟨rfl, hdir⟩ := h r e hr
      exact hdir
    · rw [hcopy] at hfile
      cases (h r _ hfile).1

/-- **When push, edit and pull act as the edit itself.**  For every accepted path that
leads to a file or a directory, and a push of it that succeeds where there was no
copy. -/
theorem acts_as_edit_iff (hacc : refused env path = false)
    (hkind : lstat client env.cwd path = some .dir ∨ ∃ c, lstat client env.cwd path = some (.file c))
    (hno : NoCopy env path (isdir client env.cwd path) server)
    (hpush : push net env path (serverFn env path (isdir client env.cwd path)) client server =
      (server', true)) :
    ActsAsEdit net env path (isdir client env.cwd path) client server' ↔
      ComesBack net env path client := by
  obtain ⟨p, l, hp, hs⟩ := sends_of_push hpush
  obtain rfl := eq_clientPlace hp
  have hsent := fileList_of_sends hp hs
  cases hs with
  | contents h hc =>
    have hdir : isdir client env.cwd path = true := by rw [isdir_of_node hp h]; rfl
    rw [hdir] at hno hpush ⊢
    exact iff_of_true (actsAsEdit_contents hacc (lstat_of_node hp h) hc
      (push_fresh hacc hsent hno hpush)) (Or.inl hc)
  | named h hc hn =>
    have hdir : isdir client env.cwd path = true := by rw [isdir_of_node hp h]; rfl
    rw [hdir] at hno hpush ⊢
    rw [actsAsEdit_named_iff hacc (lstat_of_node hp h) hc rfl
      (push_fresh hacc hsent hno hpush), ComesBack, hc, hsent]
    simp
  | @file c h hc hn =>
    have hdir : isdir client env.cwd path = false := by rw [isdir_of_node hp h]; rfl
    rw [hdir] at hno hpush ⊢
    have hback : ComesBack net env path client := Or.inr fun tr htr => by
      rw [hsent] at htr
      cases htr
    -- the push wrote the file to the place that `server_fn` leads to
    rw [push, net.rsync.file hsent, receive, endsWithSlash_serverFn hacc,
      if_neg Bool.false_ne_true] at hpush
    split at hpush
    · cases hpush
    · rename_i q hq
      obtain rfl := eq_of_namei_serverFn hacc hq
      have hfree : server.isDir (serverPlace env path) = false := by
        rw [DirTree.isDir]
        rcases hno.place with h | ⟨h, -⟩
        · rw [h]
        · cases h
      rw [hfree, if_neg Bool.false_ne_true] at hpush
      obtain ⟨rfl, hfits⟩ := Prod.mk.injEq .. ▸ hpush
      refine iff_of_true (actsAsEdit_file (lstat_of_node hp h) ?_ ?_) hback
      · exact namei_mono (fun q => DirTree.put_file_dir (serverPlace env path) c (q := q)) hq
      · rw [DirTree.put_node_of_fits (of_decide_eq_true hfits), if_pos rfl]
  | excludedDir h hc hn =>
    have hdir : isdir client env.cwd path = true := by rw [isdir_of_node hp h]; rfl
    refine iff_of_true (actsAsEdit_of_noCopy hacc (fun _ => lstat_of_node hp h)
      (push_nothing hacc hsent hno hpush)) (Or.inr fun tr htr => ?_)
    rw [hsent] at htr
    cases htr
  | excludedFile h hc hn =>
    have hdir : isdir client env.cwd path = false := by rw [isdir_of_node hp h]; rfl
    refine iff_of_true (actsAsEdit_of_noCopy hacc (fun hd => ?_)
      (push_nothing hacc hsent hno hpush)) (Or.inr fun tr htr => ?_)
    · rw [hdir] at hd
      cases hd
    · rw [hsent] at htr
      cases htr
  | link h hc =>
    rw [lstat_of_node hp h] at hkind
    rcases hkind with hkind | ⟨c, hkind⟩ <;> cases hkind

/-- Ann's home directory with a directory `d` that holds a file `f`. -/
def homeTree : FileTree Bytes :=
  (((DirTree.empty.put ["home".toList] .dir).put ["home".toList, "ann".toList] .dir).put
    ["home".toList, "ann".toList, "d".toList] .dir).put
    ["home".toList, "ann".toList, "d".toList, "f".toList] (.file [1])

/-- A workstation with the directory for her host. -/
def hostTree : FileTree Bytes :=
  (DirTree.empty.put ["tmp".toList] .dir).put ["tmp".toList, "h".toList] .dir

theorem noCopy_hostTree : NoCopy ann "d/".toList true hostTree :=
  ⟨fun _ => hostTree.node_append_eq_none (by decide), Or.inl (by decide)⟩

theorem acts_as_edit_contents :
    ActsAsEdit sampleNet ann "d/".toList true homeTree
        (push sampleNet ann "d/".toList (serverFn ann "d/".toList true) homeTree hostTree).1 ↔
      ComesBack sampleNet ann "d/".toList homeTree :=
  @acts_as_edit_iff sampleNet ann "d/".toList homeTree hostTree _ (by decide) (Or.inl (by decide))
    noCopy_hostTree (Prod.ext rfl (by decide))

/-- Typed without a final slash, `d` comes back as `d/d`. -/
theorem named_directory_comes_back_below : ∃ server',
    push sampleNet ann "d".toList (serverFn ann "d".toList true) homeTree hostTree =
      (server', true) ∧
    (pull sampleNet (serverFn ann "d".toList true) (clientFn ann "d".toList true) server'
        homeTree).1.node
      ["home".toList, "ann".toList, "d".toList, "d".toList, "f".toList] = some (.file [1]) ∧
    ¬ ActsAsEdit sampleNet ann "d".toList true homeTree server' :=
  ⟨_, Prod.ext rfl (by decide), by decide, fun h => absurd (congrArg (fun t => t.node
    ["home".toList, "ann".toList, "d".toList, "d".toList, "f".toList]) h.unchanged) (by decide)⟩

end Fsync.Client
