import Fsync.Base.Makedirs
import Fsync.Ubuntu.ZmqThread
import Fsync.Workstation

/-!
# What an `'OK'` to a mkdir request says

Both servers answer `'OK'` whatever came of the request: the Mac asks first whether
anything is at the path, a directory or not, and only logs a failure; Ubuntu passes
over every `OSError`.  The client takes the answer as the go-ahead for its second
push.  The files are those of a system with symbolic links (`LinkFs`), so that a path
may run through a link to a directory, as `/tmp` is one on a Mac.

* `granted_iff_makeable`: the answer is true exactly if the directory can be made, on
  either server, and only then does the second push find the directory above its target;
* `ok_without_a_directory`: answers that are not.
-/

namespace Fsync

open Posix Os Links Program Client

/-- What the reply `'OK'` says: the directory is there, and what was there is as it was. -/
structure Granted (before after : LinkFs Bytes) (cwd : Path) (dir : Str) : Prop where
  there : isdir after cwd dir = true
  kept : ∀ p e, before.tree.node p = some e → after.tree.node p = some e

/-- Making directories keeps what is there. -/
theorem granted_iff {before after : LinkFs Bytes} {mayCreate : Path → Bool} {cwd : Path}
    {dir : Str} (h : MadeBy mayCreate before.tree after.tree) :
    Granted before after cwd dir ↔ isdir after cwd dir = true :=
  ⟨fun hg => hg.there, fun hdir => ⟨hdir, fun _ _ => h.keeps⟩⟩

/-- An absolute path is read the same in every directory. -/
theorem makeable_of_isabs {t : LinkFs Bytes} {mayCreate : Path → Bool} {dir : Str}
    (h : isabs dir = true) (cwd cwd' : Path) :
    t.Makeable mayCreate cwd dir ↔ t.Makeable mayCreate cwd' dir := by
  have hstart : start cwd dir = start cwd' dir := by rw [start, start, if_pos h, if_pos h]
  constructor
  · rintro ⟨hne, hcomps⟩
    exact ⟨hne, hstart ▸ hcomps⟩
  · rintro ⟨hne, hcomps⟩
    exact ⟨hne, hstart.symm ▸ hcomps⟩

/-! ## The Mac -/

namespace Mac

theorem madeBy_poll (cwd : Path) (mayCreate : Path → Bool) (dir : Str) (s : App (LinkFs Bytes)) :
    MadeBy mayCreate s.tree.tree (poll cwd mayCreate (.mkdir dir) s).tree.tree := by
  rw [poll, tree_sendReply, tree_mkdirForClient]
  split
  · exact DirTree.Made.refl _ _
  · exact madeBy_descent

theorem granted_poll_iff (cwd : Path) (mayCreate : Path → Bool) (dir : Str)
    (s : App (LinkFs Bytes)) :
    Granted s.tree (poll cwd mayCreate (.mkdir dir) s).tree cwd dir ↔
      s.tree.Makeable mayCreate cwd dir := by
  rw [granted_iff (madeBy_poll cwd mayCreate dir s), poll, tree_sendReply, tree_mkdirForClient,
    isdir_createDirectories_iff]

/-- What the Mac makes of its files for a mkdir request, if it replies `'OK'`. -/
def App.makes {T : Type} [FileSystem T Bytes] (cwd : Path) (mayCreate : Path → Bool) (s : App T)
    (tree : T) (dir : Str) : Option T :=
  (App.mkdirReply cwd mayCreate { s with tree := tree } dir).map (·.tree)

/-- A mkdir request for an absolute path leaves a directory exactly if one can be made. -/
theorem isdir_makes_iff {cwd : Path} {mayCreate : Path → Bool} {s : App (LinkFs Bytes)}
    {tree after : LinkFs Bytes} {dir : Str} (habs : isabs dir = true)
    (h : s.makes cwd mayCreate tree dir = some after) :
    isdir after [] dir = true ↔ tree.Makeable mayCreate [] dir := by
  obtain ⟨s', hs', rfl⟩ := Option.map_eq_some_iff.1 h
  rw [App.mkdirReply] at hs'
  split at hs'
  · cases hs'
  · obtain rfl := Option.some.inj hs'
    rw [isdir_of_isabs habs _ [] cwd, makeable_of_isabs habs [] cwd]
    exact (granted_iff (madeBy_poll cwd mayCreate dir _)).symm.trans
      (granted_poll_iff cwd mayCreate dir _)

theorem madeBy_makes {cwd : Path} {mayCreate : Path → Bool} {s : App (LinkFs Bytes)}
    {tree after : LinkFs Bytes} {dir : Str} (h : s.makes cwd mayCreate tree dir = some after) :
    MadeBy mayCreate tree.tree after.tree ∧ after.limit = tree.limit := by
  obtain ⟨s', hs', rfl⟩ := Option.map_eq_some_iff.1 h
  rw [App.mkdirReply] at hs'
  split at hs'
  · cases hs'
  · obtain rfl := Option.some.inj hs'
    rw [poll, tree_sendReply, tree_mkdirForClient]
    split
    · exact ⟨DirTree.Made.refl _ _, rfl⟩
    · exact ⟨madeBy_descent, rfl⟩

end Mac

/-! ## Ubuntu -/

namespace Ubuntu

/-- The request asks for the directory `dir`. -/
def AsksFor (loads : Bytes → Option Json) (data : Bytes) (dir : Str) : Prop :=
  ∃ req msg, loads data = some req ∧ IsRequest req (.str "mkdir".toList) msg ∧
    msg.get? "dir" = some (.str dir)

theorem granted_zmqMsg_iff {env : Env} {req : Json} {msg : Dict} {dir reply : Str}
    {s s' : State (LinkFs Bytes)} (hreq : IsRequest req (.str "mkdir".toList) msg)
    (hdir : msg.get? "dir" = some (.str dir)) (h : (zmqMsg env req).run s = .ok reply s') :
    Granted s.tree s'.tree env.cwd dir ↔ s.tree.Makeable env.mayCreate env.cwd dir := by
  obtain ⟨htakes, rfl⟩ := zmqMsg_mkdir_ok hreq hdir h
  rw [granted_iff, isdir_makedirs_iff htakes]
  rw [makedirs_eq_descent htakes]
  exact madeBy_descent

theorem granted_turn_iff {loads : Bytes → Option Json} {env : Env} {data : Bytes} {dir reply : Str}
    {s s' : State (LinkFs Bytes)} (hdata : AsksFor loads data dir)
    (h : (turn loads env data).run s = .ok reply s') :
    Granted s.tree s'.tree env.cwd dir ↔ s.tree.Makeable env.mayCreate env.cwd dir := by
  obtain ⟨req, msg, hreq, hmsg, hdir⟩ := hdata
  obtain ⟨-, req', hreq', hok⟩ := (turn_eq_ok loads).1 h
  obtain rfl : req = req' := Option.some.inj (hreq.symm.trans hreq')
  exact granted_zmqMsg_iff hmsg hdir hok

/-- What Ubuntu makes of its files for a mkdir request, if it replies `'OK'`. -/
def State.makes {T : Type} [FileSystem T Bytes] (env : Env) (s : State T) (tree : T) (dir : Str) :
    Option T :=
  (State.mkdirReply env { s with tree := tree } dir).map (·.tree)

/-- A mkdir request for an absolute path leaves a directory exactly if one can be made. -/
theorem isdir_makes_iff {env : Env} {s : State (LinkFs Bytes)} {tree after : LinkFs Bytes}
    {dir : Str} (habs : isabs dir = true) (h : s.makes env tree dir = some after) :
    isdir after [] dir = true ↔ tree.Makeable env.mayCreate [] dir := by
  obtain ⟨s', hs', rfl⟩ := Option.map_eq_some_iff.1 h
  rw [State.mkdirReply] at hs'
  split at hs'
  · rename_i reply t hrun
    obtain rfl := Option.some.inj hs'
    obtain ⟨htakes, rfl⟩ := zmqMsg_mkdir_ok ⟨mkdirMsg dir, rfl, rfl, rfl⟩ rfl hrun
    rw [isdir_of_isabs habs _ [] env.cwd, makeable_of_isabs habs [] env.cwd]
    exact isdir_makedirs_iff htakes
  · cases hs'

theorem madeBy_makes {env : Env} {s : State (LinkFs Bytes)} {tree after : LinkFs Bytes} {dir : Str}
    (h : s.makes env tree dir = some after) :
    MadeBy env.mayCreate tree.tree after.tree ∧ after.limit = tree.limit := by
  obtain ⟨s', hs', rfl⟩ := Option.map_eq_some_iff.1 h
  rw [State.mkdirReply] at hs'
  split at hs'
  · rename_i reply t hrun
    obtain rfl := Option.some.inj hs'
    obtain ⟨htakes, rfl⟩ := zmqMsg_mkdir_ok ⟨mkdirMsg dir, rfl, rfl, rfl⟩ rfl hrun
    rw [makedirs_eq_descent htakes]
    exact ⟨madeBy_descent, rfl⟩
  · cases hs'

end Ubuntu

/-! ## Both servers and the client -/

/-- What the second push of a run of `fs` finds, if the answer is `'OK'`. -/
theorem isdir_requestMkdir_iff {K : Type} {mkdir : LinkFs Bytes → Str → Option (LinkFs Bytes)}
    {mayCreate : Path → Bool} (hmkdir : ∀ {tree after dir}, isabs dir = true →
      mkdir tree dir = some after →
        (isdir after [] dir = true ↔ tree.Makeable mayCreate [] dir))
    {env : Client.Env} {path : Str} {isDir : Bool} {w w' : World K (LinkFs Bytes)}
    (hacc : refused env path = false)
    (h : (requestMkdir mkdir (dirname (serverFn env path isDir))).run w = .ok () w') :
    isdir w'.server [] (dirname (serverFn env path isDir)) = true ↔
      w.server.Makeable mayCreate [] (dirname (serverFn env path isDir)) := by
  obtain ⟨server, hserver, rfl⟩ := requestMkdir_eq_ok.1 h
  exact hmkdir (isabs_dirname (isabs_serverFn hacc isDir)) hserver

/-- **An `'OK'` is true exactly if the directory can be made**, whatever is on the way:
on the Mac, on Ubuntu, and for the client, whose second push then finds the directory
above `server_fn`. -/
theorem granted_iff_makeable (loads : Bytes → Option Json) (K : Type) :
    (∀ cwd mayCreate dir (s : Mac.App (LinkFs Bytes)),
      (Mac.poll cwd mayCreate (.mkdir dir) s).replies = s.replies ++ ["OK".toList] →
      (Granted s.tree (Mac.poll cwd mayCreate (.mkdir dir) s).tree cwd dir ↔
        s.tree.Makeable mayCreate cwd dir)) ∧
    (∀ (env : Ubuntu.Env) data dir (s s' : Ubuntu.State (LinkFs Bytes)),
      Ubuntu.AsksFor loads data dir →
      (Ubuntu.turn loads env data).run s = .ok "OK".toList s' →
      (Granted s.tree s'.tree env.cwd dir ↔ s.tree.Makeable env.mayCreate env.cwd dir)) ∧
    (∀ (env : Client.Env) path isDir (w w' : World K (LinkFs Bytes)), refused env path = false →
      (∀ cwd mayCreate (s : Mac.App (LinkFs Bytes)),
        (requestMkdir (s.makes cwd mayCreate) (dirname (serverFn env path isDir))).run w =
          .ok () w' →
        (isdir w'.server [] (dirname (serverFn env path isDir)) = true ↔
          w.server.Makeable mayCreate [] (dirname (serverFn env path isDir)))) ∧
      (∀ (uenv : Ubuntu.Env) (s : Ubuntu.State (LinkFs Bytes)),
        (requestMkdir (s.makes uenv) (dirname (serverFn env path isDir))).run w = .ok () w' →
        (isdir w'.server [] (dirname (serverFn env path isDir)) = true ↔
          w.server.Makeable uenv.mayCreate [] (dirname (serverFn env path isDir))))) := by
  refine ⟨?_, ?_, ?_⟩
  · intro cwd mayCreate dir s _
    exact Mac.granted_poll_iff cwd mayCreate dir s
  · intro env data dir s s' hdata h
    exact Ubuntu.granted_turn_iff hdata h
  · intro env path isDir w w' hacc
    refine ⟨?_, ?_⟩
    · intro cwd mayCreate s h
      exact isdir_requestMkdir_iff Mac.isdir_makes_iff hacc h
    · intro uenv s h
      exact isdir_requestMkdir_iff Ubuntu.isdir_makes_iff hacc h

/-- The directory that ann's run for `~/f` asks for. -/
theorem asked_directory : dirname (serverFn ann "f".toList false) = "/tmp/h".toList := rfl

/-- A workstation on which `/tmp` is a link to `/private/tmp`, as on a Mac. -/
def linkedTmp : LinkFs Bytes where
  tree := ((DirTree.empty.put ["private".toList] .dir).put ["private".toList, "tmp".toList]
    .dir).put ["tmp".toList] (.symlink "private/tmp".toList)
  limit := 32

/-- The directory for ann's host can be made there. -/
theorem makeable_linkedTmp : linkedTmp.Makeable (fun _ => true) [] "/tmp/h".toList := by
  have hplain : IsPlain "h".toList := ⟨by decide, by decide, by decide⟩
  refine ⟨by decide, ?_⟩
  -- Through the link to `/private/tmp`, where `h` is made.
  have hroot : walk linkedTmp.tree 32 [] [[]] = some (32, []) := by decide +kernel
  have htmp : walk linkedTmp.tree 32 [] ["tmp".toList] =
      some (31, ["private".toList, "tmp".toList]) := by decide +kernel
  have hfree : linkedTmp.tree.node (["private".toList, "tmp".toList] ++ ["h".toList]) = none := rfl
  have hdir : linkedTmp.tree.node ["private".toList, "tmp".toList] = some .dir := rfl
  have hcomps : "/tmp/h".toList.splitOn '/' = [[], "tmp".toList, "h".toList] := by decide +kernel
  rw [hcomps]
  exact .enter hroot rfl (.enter htmp hdir (.make hdir hplain hfree rfl
    (.done rfl)))

/-- It is made through the link, and ann's second push finds it. -/
theorem granted_sample :
    Granted linkedTmp (Mac.poll [] (fun _ => true) (.mkdir "/tmp/h".toList)
      (Mac.awakeFromNib linkedTmp)).tree [] "/tmp/h".toList ∧
    (∃ s', (Ubuntu.turn Ubuntu.sampleLoads Ubuntu.sampleEnv Ubuntu.sampleMkdir).run
        (Ubuntu.init linkedTmp) = .ok "OK".toList s' ∧
      Granted linkedTmp s'.tree [] "/tmp/h".toList) ∧
    ∃ w', (requestMkdir ((Mac.awakeFromNib linkedTmp).makes [] fun _ => true)
        (dirname (serverFn ann "f".toList false))).run ⟨(), linkedTmp, []⟩ = .ok () w' ∧
      isdir w'.server [] (dirname (serverFn ann "f".toList false)) = true := by
  have hasks : Ubuntu.AsksFor Ubuntu.sampleLoads Ubuntu.sampleMkdir "/tmp/h".toList :=
    ⟨_, _, rfl, ⟨_, rfl, rfl, rfl⟩, rfl⟩
  have hturn : ∃ s', (Ubuntu.turn Ubuntu.sampleLoads Ubuntu.sampleEnv Ubuntu.sampleMkdir).run
      (Ubuntu.init linkedTmp) = .ok "OK".toList s' := ⟨_, rfl⟩
  have hask : ∃ w', (requestMkdir ((Mac.awakeFromNib linkedTmp).makes [] fun _ => true)
      (dirname (serverFn ann "f".toList false))).run ⟨(), linkedTmp, []⟩ = .ok () w' := by
    rw [asked_directory]
    exact ⟨_, requestMkdir_eq_ok.2 ⟨_, rfl, rfl⟩⟩
  obtain ⟨s', hs'⟩ := hturn
  obtain ⟨w', hw'⟩ := hask
  obtain ⟨hmac, hubuntu, hclient⟩ := granted_iff_makeable Ubuntu.sampleLoads Unit
  refine ⟨?_, ⟨s', hs', ?_⟩, w', hw', ?_⟩
  · exact (hmac [] (fun _ => true) "/tmp/h".toList (Mac.awakeFromNib linkedTmp) rfl).2
      makeable_linkedTmp
  · exact (hubuntu Ubuntu.sampleEnv _ _ _ _ hasks hs').2 makeable_linkedTmp
  · exact ((hclient ann _ false _ w' rfl).1 _ _ _ hw').2 (asked_directory ▸ makeable_linkedTmp)

/-- A workstation with the file `/f`. -/
def oneFile : LinkFs Bytes := ⟨DirTree.empty.put ["f".toList] (.file []), 32⟩

/-- Both servers answer `'OK'` for the path of a file, and where the directory may not be
made; the client then pushes below a directory that is not there. -/
theorem ok_without_a_directory :
    ((Mac.poll [] (fun _ => true) (.mkdir "/f".toList) (Mac.awakeFromNib oneFile)).replies =
        ["OK".toList] ∧
      isdir (Mac.poll [] (fun _ => true) (.mkdir "/f".toList)
        (Mac.awakeFromNib oneFile)).tree [] "/f".toList = false) ∧
    ((Ubuntu.zmqMsg Ubuntu.sampleEnv (.object (mkdirMsg "/f".toList))).run
        (Ubuntu.init oneFile) = .ok "OK".toList (Ubuntu.init oneFile) ∧
      isdir oneFile [] "/f".toList = false) ∧
    ∃ w', (requestMkdir ((Mac.awakeFromNib linkedTmp).makes [] fun _ => false)
        (dirname (serverFn ann "f".toList false))).run ⟨(), linkedTmp, []⟩ = .ok () w' ∧
      isdir w'.server [] (dirname (serverFn ann "f".toList false)) = false := by
  refine ⟨⟨rfl, by decide +kernel⟩, ⟨rfl, by decide +kernel⟩, ?_⟩
  rw [asked_directory]
  exact ⟨_, requestMkdir_eq_ok.2 ⟨_, rfl, rfl⟩, by decide +kernel⟩

end Fsync
