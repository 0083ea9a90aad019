import Fsync.Base.Links
import Fsync.Base.Transfer
import Fsync.Client.Paths

/-!
# What a run of `fs` leaves

* `mainOn_eq_ok`, `main_eq_ok`: a run gets to the path message exactly if the path is
  accepted and one of its two commands succeeds, and what it then leaves;
* `mainOn_eq_valueError`: what a refused path leaves;
* `refused_unchanged_iff`: it leaves everything as it was exactly if it exists;
* `skipped_of_touched`: the check that the file exists does not change whether `rsync`
  skips the operand;
* `pathExists_push`: `server_fn` exists after a push that succeeds, unless the
  operand is skipped.
-/

namespace Fsync.Client

open Posix Os Program Rsync Links

/-! ## The parts of `main` -/

section Generic

variable {K S : Type} [FileSystem K Bytes] {commands : Commands K S}
  {mkdir : S → Str → Option S} {env : Env} {path : Str} {w w' : World K S} {u : Unit}

/-- The client after the check that the file exists. -/
def Touched (env : Env) (path : Str) (before after : K) : Prop :=
  if pathExists before env.cwd path then after = before
  else FileSystem.openWrite env.mayCreate before env.cwd path [] = some after

theorem touch_eq_ok : (touch env path).run w = .ok u w' ↔
    ∃ client, Touched env path w.client client ∧ w' = { w with client := client } := by
  have hrun : (touch env path).run w = .ok u w' ↔
      (bif pathExists w.client env.cwd path then pure () else do
        let client ←
          orRaise (FileSystem.openWrite env.mayCreate w.client env.cwd path []) .ioError
        set { w with client := client } : Action K S Unit).run w = .ok u w' := Iff.rfl
  rw [hrun]
  unfold Touched
  cases pathExists w.client env.cwd path with
  | true =>
    rw [cond_true, pure_eq_ok]
    constructor
    · rintro ⟨-, rfl⟩
      exact ⟨_, rfl, rfl⟩
    · rintro ⟨_, rfl, rfl⟩
      exact ⟨rfl, rfl⟩
  | false =>
    simp only [cond_false, bind_eq_ok, orRaise_eq_ok, set_eq_ok]
    constructor
    · rintro ⟨client, _, ⟨hwrite, rfl⟩, rfl⟩
      exact ⟨client, hwrite, rfl⟩
    · rintro ⟨client, hwrite, rfl⟩
      exact ⟨client, w, ⟨hwrite, rfl⟩, rfl⟩

/-- The operand is skipped: its own name is excluded, or it is neither a file nor a
directory. -/
def Skipped (flt : Filter) (env : Env) (path : Str) (client : K) : Prop :=
  contentsOperand path = false ∧ (FileSystem.fileType client env.cwd path = some .symlink ∨
    FileSystem.fileType client env.cwd path = some .special ∨
      flt.hits [basename path] (isdir client env.cwd path) = true)

section Lawful

variable [LawfulFileSystem K] {before after : K}

end Lawful

section Commands

omit [FileSystem K Bytes]

theorem doRsync_run {command : K → S → (K × S) × Bool} {client : K} {server : S} {ok : Bool}
    (h : command w.client w.server = ((client, server), ok)) :
    (doRsync command).run w =
      if ok then .ok () { w with client := client, server := server }
      else .error .calledProcessError { w with client := client, server := server } := by
  have hrun : (doRsync command).run w =
      (raiseIf (!(command w.client w.server).2) .calledProcessError : Action K S Unit).run
        { w with
          client := (command w.client w.server).1.1
          server := (command w.client w.server).1.2 } := rfl
  rw [hrun, h]
  cases ok <;> rfl

theorem doRsync_eq_ok {command : K → S → (K × S) × Bool} :
    (doRsync command).run w = .ok u w' ↔
      ∃ client server, command w.client w.server = ((client, server), true) ∧
        w' = { w with client := client, server := server } := by
  rcases h : command w.client w.server with ⟨⟨client, server⟩, ok⟩
  rw [doRsync_run h]
  cases ok with
  | true =>
    constructor
    · intro hok
      cases hok
      exact ⟨client, server, rfl, rfl⟩
    · rintro ⟨client', server', heq, rfl⟩
      cases heq
      rfl
  | false => simp

theorem doRsync_eq_error {command : K → S → (K × S) × Bool} {e : Exn} :
    (doRsync command).run w = .error e w' ↔ e = .calledProcessError ∧
      ∃ client server, command w.client w.server = ((client, server), false) ∧
        w' = { w with client := client, server := server } := by
  rcases h : command w.client w.server with ⟨⟨client, server⟩, ok⟩
  rw [doRsync_run h]
  cases ok with
  | false =>
    constructor
    · intro herr
      cases herr
      exact ⟨rfl, client, server, rfl, rfl⟩
    · rintro ⟨rfl, client', server', heq, rfl⟩
      cases heq
      rfl
  | true => simp

theorem requestMkdir_eq_ok {dir : Str} : (requestMkdir mkdir dir).run w = .ok u w' ↔
    ∃ server, mkdir w.server dir = some server ∧
      w' = { w with server := server, sent := w.sent ++ [mkdirMsg dir] } := by
  rw [requestMkdir]
  simp only [bind_eq_ok, get_eq_ok, set_eq_ok, orRaise_eq_ok, modify_eq_ok]
  constructor
  · rintro ⟨_, _, ⟨rfl, rfl⟩, _, _, rfl, server, _, ⟨hserver, rfl⟩, rfl⟩
    exact ⟨server, hserver, rfl⟩
  · rintro ⟨server, hserver, rfl⟩
    exact ⟨w, w, ⟨rfl, rfl⟩, ⟨⟩, _, rfl, server, _, ⟨hserver, rfl⟩, rfl⟩

/-- A command of `main` succeeds: the first one, or the second one after the server made
the directory.  It finds the file systems `k` and `before` and leaves `client` and
`after`. -/
inductive Succeeds (commands : Commands K S) (mkdir : S → Str → Option S) (path serverFn : Str)
    (start : K) (server : S) : K → S → K → S → List Dict → Prop
  | first {client : K} {after : S}
      (h : commands.first path serverFn start server = ((client, after), true)) :
      Succeeds commands mkdir path serverFn start server start server client after []
  | second {k client : K} {broken before after : S}
      (h : commands.first path serverFn start server = ((k, broken), false))
      (hmkdir : mkdir broken (dirname serverFn) = some before)
      (h' : commands.second path serverFn k before = ((client, after), true)) :
      Succeeds commands mkdir path serverFn start server k before client after
        [mkdirMsg (dirname serverFn)]

end Commands

/-- **When a run of `fs` gets to the path message**, and what it leaves. -/
theorem mainOn_eq_ok : (mainOn commands mkdir env path).run w = .ok u w' ↔
    ∃ start, Touched env path w.client start ∧ refused env path = false ∧
      ∃ k before client after asked, Succeeds commands mkdir path
          (serverFn env path (isdir start env.cwd path)) start w.server k before client after
            asked ∧
        w' = ⟨client, after, w.sent ++ asked ++
          [(pathMessage env path (isdir start env.cwd path)).toDict]⟩ := by
  rw [mainOn]
  simp only [bind_eq_ok, touch_eq_ok, raiseIf_eq_ok, get_eq_ok, tryCatch_eq_ok, modify_eq_ok]
  constructor
  · rintro ⟨_, _, ⟨start, htouch, rfl⟩, _, _, ⟨hno, rfl⟩, _, _, ⟨rfl, rfl⟩, _, v, hpush, rfl⟩
    refine ⟨start, htouch, hno, ?_⟩
    rcases hpush with h | ⟨e, v₁, h, h'⟩
    · obtain ⟨client, after, hafter, rfl⟩ := doRsync_eq_ok.1 h
      exact ⟨_, _, client, after, [], .first hafter, by simp⟩
    · obtain ⟨rfl, k, broken, hbroken, rfl⟩ := doRsync_eq_error.1 h
      rw [if_pos rfl] at h'
      obtain ⟨_, v₂, hask, hretry⟩ := bind_eq_ok.1 h'
      obtain ⟨before, hbefore, rfl⟩ := requestMkdir_eq_ok.1 hask
      obtain ⟨client, after, hafter, rfl⟩ := doRsync_eq_ok.1 hretry
      exact ⟨k, before, client, after, _, .second hbroken hbefore hafter, rfl⟩
  · rintro ⟨start, htouch, hno, k, before, client, after, asked, hpush, rfl⟩
    refine ⟨(), _, ⟨start, htouch, rfl⟩, (), _, ⟨hno, rfl⟩, _, _, ⟨rfl, rfl⟩, ?_⟩
    cases hpush with
    | first h => exact ⟨(), _, Or.inl (doRsync_eq_ok.2 ⟨client, after, h, rfl⟩), by simp⟩
    | second h hmkdir h' =>
      refine ⟨(), ⟨client, after, w.sent ++ [mkdirMsg (dirname _)]⟩,
        Or.inr ⟨_, _, doRsync_eq_error.2 ⟨rfl, k, _, h, rfl⟩, ?_⟩, rfl⟩
      rw [if_pos rfl]
      exact bind_eq_ok.2 ⟨(), _, requestMkdir_eq_ok.2 ⟨before, hmkdir, rfl⟩,
        doRsync_eq_ok.2 ⟨client, after, h', rfl⟩⟩

/-! ## A refused path -/

theorem throws_touch (env : Env) (path : Str) (w : World K S) :
    Throws (· = .ioError) (touch env path) w := by
  refine Throws.bind (throws_get w) fun a s _ => ?_
  cases pathExists a.client env.cwd path with
  | true => exact throws_pure () s
  | false =>
    refine Throws.bind ?_ fun client s' _ => throws_set _ s'
    exact throws_orRaise (fun _ => by rfl) s

omit [FileSystem K Bytes] in
/-- Behind the check of the path, a run raises other exceptions than the check. -/
theorem throws_push (path serverFn : Str) (w : World K S) :
    Throws (fun e => ∀ text, e ≠ .valueError text)
      (tryCatch (doRsync (commands.first path serverFn)) fun e =>
        if e = .calledProcessError then do
          requestMkdir mkdir (dirname serverFn)
          doRsync (commands.second path serverFn)
        else throw e) w := by
  have hrsync : ∀ command s, Throws (fun e => ∀ text, e ≠ .valueError text)
      (doRsync (K := K) (S := S) command) s := by
    rintro command s e s' h text rfl
    cases (doRsync_eq_error.1 h).1
  refine throws_tryCatch fun e s h => ?_
  rw [if_pos (doRsync_eq_error.1 h).1]
  refine Throws.bind ?_ fun _ s' _ => hrsync _ s'
  refine Throws.bind (throws_get s) fun _ s₁ _ => Throws.bind (throws_set _ s₁) fun _ s₂ _ => ?_
  exact Throws.bind (throws_orRaise (fun _ text => by simp) s₂) fun _ s₃ _ => throws_modify _ s₃

/-- **When the check of the path raises**, and what is then left: the touched file. -/
theorem mainOn_eq_valueError {text : Str} :
    (mainOn commands mkdir env path).run w = .error (.valueError text) w' ↔
      Touched env path w.client w'.client ∧ w'.server = w.server ∧ w'.sent = w.sent ∧
        refused env path = true ∧
        text = "Sorry, ".toList ++ path ++ " is not in the home directory".toList := by
  rw [mainOn, bind_eq_error]
  constructor
  · rintro (h | ⟨_, s, htouch, h⟩)
    · cases throws_touch env path w _ _ h
    · obtain ⟨client, hclient, rfl⟩ := touch_eq_ok.1 htouch
      rcases bind_eq_error.1 h with h | ⟨_, s, -, h⟩
      · obtain ⟨href, htext, rfl⟩ := raiseIf_eq_error.1 h
        exact ⟨hclient, rfl, rfl, href, Exn.valueError.inj htext⟩
      · obtain ⟨_, s', -, h⟩ := (bind_eq_error.1 h).resolve_left fun h => by cases h
        rcases bind_eq_error.1 h with h | ⟨_, _, -, h⟩
        · exact absurd rfl (throws_push path _ s' _ _ h text)
        · cases h
  · rintro ⟨hclient, hserver, hsent, href, rfl⟩
    refine Or.inr ⟨(), w', touch_eq_ok.2 ⟨w'.client, hclient, ?_⟩, ?_⟩
    · rw [← hserver, ← hsent]
    · exact bind_eq_error.2 (Or.inl (raiseIf_eq_error.2 ⟨href, rfl, rfl⟩))

/-- **A refused path leaves everything as it was** exactly if it exists: `main` makes
the file before it looks at the path. -/
theorem refused_unchanged_iff [LawfulFileSystem K] (commands : Commands K S)
    (mkdir : S → Str → Option S) (env : Env) (path : Str) (w : World K S) :
    (∀ text w', (mainOn commands mkdir env path).run w = .error (.valueError text) w' → w' = w) ↔
      (refused env path = true →
        FileSystem.openWrite env.mayCreate w.client env.cwd path [] ≠ none →
          pathExists w.client env.cwd path = true) := by
  constructor
  · intro h href hmay
    by_contra hmissing
    obtain ⟨client, hclient⟩ := Option.ne_none_iff_exists'.1 hmay
    have htouch : Touched env path w.client client := by
      rw [Touched, if_neg hmissing]
      exact hclient
    have heq := h _ { w with client := client }
      (mainOn_eq_valueError.2 ⟨htouch, rfl, rfl, href, rfl⟩)
    exact ne_of_openWrite (Bool.eq_false_iff.2 hmissing) hclient (congrArg World.client heq)
  · intro h text w' hrun
    obtain ⟨htouch, hserver, hsent, href, -⟩ := mainOn_eq_valueError.1 hrun
    have hclient : w'.client = w.client := by
      rw [Touched] at htouch
      split at htouch
      · exact htouch
      · rename_i hmissing
        exact absurd (h href (by rw [htouch]; simp)) hmissing
    cases w'
    cases w
    simp_all

end Generic

/-- Files outside ann's home directory: `/usr/bin/x`, the link `/bin` to the directory
above it, and the link `/l` into a directory that is missing. -/
def outside : LinkFs Bytes where
  tree := ((((DirTree.empty.put ["usr".toList] .dir).put ["usr".toList, "bin".toList] .dir).put
    ["usr".toList, "bin".toList, "x".toList] (.file [1])).put ["bin".toList]
      (.symlink "usr/bin".toList)).put ["l".toList] (.symlink "nowhere/x".toList)
  limit := 40

/-- `fs /bin/x` and `fs /l` change nothing: the one file is there, at the end of a link,
and the other cannot be made. -/
theorem refused_unchanged_sample :
    (∀ text w', (mainOn ⟨fun _ _ k s => ((k, s), false), fun _ _ k s => ((k, s), false)⟩
        (fun (_ : Unit) _ => none) ann "/bin/x".toList).run ⟨outside, (), []⟩ =
          .error (.valueError text) w' → w' = ⟨outside, (), []⟩) ∧
    ∀ text w', (mainOn ⟨fun _ _ k s => ((k, s), false), fun _ _ k s => ((k, s), false)⟩
        (fun (_ : Unit) _ => none) ann "/l".toList).run ⟨outside, (), []⟩ =
          .error (.valueError text) w' → w' = ⟨outside, (), []⟩ := by
  have hthere : pathExists outside ann.cwd "/bin/x".toList = true := by decide +kernel
  have hnowhere : (FileSystem.openWrite ann.mayCreate outside ann.cwd "/l".toList []).isNone =
      true := by decide +kernel
  refine ⟨(refused_unchanged_iff _ _ ann _ _).2 fun _ _ => hthere,
    (refused_unchanged_iff _ _ ann _ _).2 fun _ hmay => ?_⟩
  exact absurd (Option.isNone_iff_eq_none.1 hnowhere) hmay

/-! ## `main` on trees -/

variable {net : Network} {mkdir : FileTree Bytes → Str → Option (FileTree Bytes)} {env : Env}
  {path : Str} {w w' : World} {u : Unit}

/-- An attempt of `main` succeeds: the first one, or the second one after the server
made the directory.  `before` is the server that it finds and `after` the one that
it leaves. -/
inductive Pushed (net : Network) (mkdir : FileTree Bytes → Str → Option (FileTree Bytes))
    (env : Env) (path serverFn : Str) (client server : FileTree Bytes) :
    FileTree Bytes → FileTree Bytes → List Dict → Prop
  | first {after : FileTree Bytes}
      (h : attempt net env path serverFn net.firstFault client server = (after, true)) :
      Pushed net mkdir env path serverFn client server server after []
  | second {broken before after : FileTree Bytes}
      (h : attempt net env path serverFn net.firstFault client server = (broken, false))
      (hmkdir : mkdir broken (dirname serverFn) = some before)
      (h' : attempt net env path serverFn net.secondFault client before = (after, true)) :
      Pushed net mkdir env path serverFn client server before after [mkdirMsg (dirname serverFn)]

/-- The commands leave the client as it is. -/
theorem succeeds_iff {serverFn : Str} {start server k before client after : FileTree Bytes}
    {asked : List Dict} :
    Succeeds (net.commands env) mkdir path serverFn start server k before client after asked ↔
      k = start ∧ client = start ∧
        Pushed net mkdir env path serverFn start server before after asked := by
  have hcommand : ∀ (r : FileTree Bytes × Bool) (k client after : FileTree Bytes) (ok : Bool),
      ((k, r.1), r.2) = ((client, after), ok) ↔ k = client ∧ r = (after, ok) := by
    rintro ⟨server, ok⟩ k client after ok'
    simp only [Prod.mk.injEq, and_assoc]
  constructor
  · intro h
    cases h with
    | first h =>
      obtain ⟨rfl, hpush⟩ := (hcommand _ _ _ _ _).1 h
      exact ⟨rfl, rfl, .first hpush⟩
    | second h hmkdir h' =>
      obtain ⟨rfl, hfail⟩ := (hcommand _ _ _ _ _).1 h
      obtain ⟨rfl, hpush⟩ := (hcommand _ _ _ _ _).1 h'
      exact ⟨rfl, rfl, .second hfail hmkdir hpush⟩
  · rintro ⟨rfl, rfl, h⟩
    cases h with
    | first h => exact .first ((hcommand _ _ _ _ _).2 ⟨rfl, h⟩)
    | second h hmkdir h' =>
      exact .second ((hcommand _ _ _ _ _).2 ⟨rfl, h⟩) hmkdir ((hcommand _ _ _ _ _).2 ⟨rfl, h'⟩)

/-- **When a run of `fs` gets to the path message**, and what it leaves. -/
theorem main_eq_ok : (main net mkdir env path).run w = .ok u w' ↔
    ∃ client, Touched env path w.client client ∧ refused env path = false ∧
      ∃ before after asked, Pushed net mkdir env path
          (serverFn env path (isdir client env.cwd path)) client w.server before after asked ∧
        w' = ⟨client, after, w.sent ++ asked ++
          [(pathMessage env path (isdir client env.cwd path)).toDict]⟩ := by
  rw [main, mainOn_eq_ok]
  constructor
  · rintro ⟨start, htouch, hacc, k, before, client, after, asked, h, rfl⟩
    obtain ⟨-, rfl, hpush⟩ := succeeds_iff.1 h
    exact ⟨_, htouch, hacc, before, after, asked, hpush, rfl⟩
  · rintro ⟨start, htouch, hacc, before, after, asked, hpush, rfl⟩
    exact ⟨start, htouch, hacc, start, before, start, after, asked,
      succeeds_iff.2 ⟨rfl, rfl, hpush⟩, rfl⟩

theorem isdir_of_node {client : FileTree Bytes} {p : Path} {e : Entry Bytes}
    (hp : namei client env.cwd path = some p) (he : client.node p = some e) :
    isdir client env.cwd path = decide (follow e = some .dir) := by
  rw [isdir_eq, stat, lstat, hp, Option.bind_some, he, Option.bind_some, Bool.eq_iff_iff]
  simp

theorem lstat_of_node {client : FileTree Bytes} {p : Path} {e : Entry Bytes}
    (hp : namei client env.cwd path = some p) (he : client.node p = some e) :
    lstat client env.cwd path = some e := by
  rw [lstat, hp, Option.bind_some, he]

/-- A push that succeeds has something at its operand. -/
theorem sends_of_push {serverFn : Str} {client server after : FileTree Bytes}
    (h : push net env path serverFn client server = (after, true)) :
    ∃ p l, namei client env.cwd path = some p ∧
      Sends (pushOptions net env).filter client path p l := by
  cases hl : fileList (pushOptions net env).filter client env.cwd path with
  | none =>
    rw [push, net.rsync.missing hl] at h
    cases h
  | some l =>
    obtain ⟨p, hp, hs⟩ := fileList_eq_some.1 hl
    exact ⟨p, l, hp, hs⟩

/-! ## The copy -/

/-- `server_fn` leads to the place of the copy if a directory is there. -/
theorem namei_serverFn (hacc : refused env path = false) (isDir : Bool) {server : FileTree Bytes}
    (h : server.node (serverPlace env path) = some .dir) :
    namei server [] (serverFn env path isDir) = some (serverPlace env path) := by
  have hplace : absCompsFrom [] (serverFn env path isDir) = serverPlace env path := by
    rw [absCompsFrom, if_pos (isabs_serverFn hacc isDir)]
    exact absComps_serverFn hacc isDir
  rw [← hplace]
  refine namei_of_dir ?_ (dotdot_notMem_serverFn hacc isDir) (by rw [hplace]; exact h)
  rw [serverFn_eq hacc]
  simp [toStr]

theorem isName_basename_serverFn (hacc : refused env path = false) (hne : belowHome env path ≠ []) :
    IsName (basename (serverFn env path false)) := by
  rw [(basename_serverFn hacc).2 hne]
  exact belowHome_names env path _ (List.getLast_mem hne)

/-- `server_fn` leads to the place of the copy if a file is there. -/
theorem namei_serverFn_of_file (hacc : refused env path = false) (hne : belowHome env path ≠ [])
    {server : FileTree Bytes} {e : Entry Bytes} (h : server.node (serverPlace env path) = some e) :
    namei server [] (serverFn env path false) = some (serverPlace env path) := by
  have hplace : absCompsFrom [] (serverFn env path false) = serverPlace env path := by
    rw [absCompsFrom, if_pos (isabs_serverFn hacc false)]
    exact absComps_serverFn hacc false
  rw [← hplace] at h ⊢
  exact namei_of_node (dotdot_notMem_serverFn hacc false) (isName_basename_serverFn hacc hne) h

/-- The directory that a run of `fs` asks for is the one of the copy. -/
theorem absComps_dirname_serverFn (hacc : refused env path = false) (hne : belowHome env path ≠ []) :
    absComps (dirname (serverFn env path false)) = (serverPlace env path).dropLast := by
  have habs := isabs_serverFn hacc false
  have hsplit := absCompsFrom_split [] (dirname_ne_nil habs)
  rw [absCompsFrom, if_pos habs, absCompsFrom, if_pos (isabs_dirname habs),
    pushComp_name true _ (isName_basename_serverFn hacc hne)] at hsplit
  have hplace : serverPlace env path =
      absComps (dirname (serverFn env path false)) ++ [basename (serverFn env path false)] := by
    rw [← absComps_serverFn hacc false]
    exact hsplit
  rw [hplace, List.dropLast_concat]

/-- `server_fn` leads nowhere else. -/
theorem eq_of_namei_serverFn (hacc : refused env path = false) {isDir : Bool}
    {server : FileTree Bytes} {q : Path} (h : namei server [] (serverFn env path isDir) = some q) :
    q = serverPlace env path := by
  rw [namei_eq (by simp) h, absCompsFrom, if_pos (isabs_serverFn hacc isDir)]
  exact absComps_serverFn hacc isDir

/-- The directory that a directory is pushed into. -/
theorem eq_of_destDir_serverFn (hacc : refused env path = false) {isDir : Bool}
    {server : FileTree Bytes} {d : Path}
    (h : destDir server [] (serverFn env path isDir) = some d) : d = serverPlace env path := by
  have hname := (destDir_eq_some.1 h).1
  rw [destName, endsWithSlash_serverFn hacc] at hname
  cases isDir with
  | true =>
    rw [if_pos rfl, dropLast_serverFn] at hname
    exact eq_of_namei_serverFn hacc hname
  | false =>
    rw [if_neg Bool.false_ne_true] at hname
    exact eq_of_namei_serverFn hacc hname

/-- A push that sends nothing leaves the server as it is, or makes the directory of the
copy. -/
theorem push_of_nothing (hacc : refused env path = false) (isDir : Bool)
    {client : FileTree Bytes}
    (h : fileList (pushOptions net env).filter client env.cwd path = some .nothing)
    (server : FileTree Bytes) :
    (∃ ok, push net env path (serverFn env path isDir) client server = (server, ok) ∧
        (net.emptyDest = true ∧ isDir = true → ok = false)) ∨
      (net.emptyDest = true ∧ isDir = true) ∧
        destDir server [] (serverFn env path isDir) = some (serverPlace env path) ∧
          (push net env path (serverFn env path isDir) client server).1 =
            server.put (serverPlace env path) .dir := by
  have hslash := endsWithSlash_serverFn hacc isDir
  cases hempty : (pushOptions net env).emptyDest && endsWithSlash (serverFn env path isDir) with
  | true =>
    have hmake : net.emptyDest = true ∧ isDir = true := by
      rwa [hslash, Bool.and_eq_true] at hempty
    rcases net.rsync.emptyDest h hempty with hfail | ⟨d, hdest, hmade⟩
    · exact Or.inl ⟨false, hfail, fun _ => rfl⟩
    · obtain rfl := eq_of_destDir_serverFn hacc hdest
      exact Or.inr ⟨hmake, hdest, hmade⟩
  | false =>
    refine Or.inl ⟨_, Prod.ext (net.rsync.nothing h hempty) rfl, fun hmake => ?_⟩
    rw [hslash, pushOptions, hmake.1, hmake.2] at hempty
    cases hempty

/-- Ann opens `/x` by mistake: the path is refused, and the empty file `/x` is there. -/
theorem refused_path_touched :
    ¬ ∀ text w', (main sampleNet (fun _ _ => none) ann "/x".toList).run
        ⟨DirTree.empty, DirTree.empty, []⟩ = .error (.valueError text) w' →
      w' = ⟨DirTree.empty, DirTree.empty, []⟩ := by
  intro h
  have htouch : Touched ann "/x".toList DirTree.empty
      ((DirTree.empty : FileTree Bytes).put ["x".toList] (.file [])) := by
    rw [Touched, if_neg (by decide)]
    rfl
  have heq := h _ ⟨DirTree.empty.put ["x".toList] (.file []), DirTree.empty, []⟩
    (mainOn_eq_valueError.2 ⟨htouch, rfl, rfl, by decide, rfl⟩)
  have hnode := congrArg (fun v => v.client.node ["x".toList]) heq
  revert hnode
  decide

end Fsync.Client
