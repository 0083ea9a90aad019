import Fsync.Base.Os
import Fsync.Message

/-!
# The Mac server

`AppDelegate.m` and `WatchFolder.m`: the menu of watched files, the FSEvents
streams, the handlers of requests, the editor that is started in the background,
and what its end and the end of a pull leave to the main thread.  How a path is looked
up is a parameter (`FileSystem`).

A call that a background thread leaves to the main thread is queued with the name
of its method; whether `AppDelegate` has such a method shows when it is performed.
-/

namespace Fsync.Mac

open Posix Os

/-! ## State -/

/-- An FSEvents stream, with the `WatchFolder` its callback is handed. -/
structure Stream where
  id : ℕ
  /-- The directory whose changes it reports. -/
  root : Str
  owner : Route
  deriving DecidableEq, Repr

/-- A watched file: its two names, the client's host, and its stream. -/
structure WatchFolder where
  serverFn : Str
  clientFn : Str
  hostname : Str
  stream : Stream
  deriving DecidableEq, Repr

/-- What its pulls copy, and where to. -/
def WatchFolder.route (wf : WatchFolder) : Route := ⟨wf.serverFn, wf.hostname, wf.clientFn⟩

/-- A menu item whose represented object is a `WatchFolder`. -/
structure WatchItem where
  title : Str
  watchFolder : WatchFolder
  deriving DecidableEq, Repr

/-- What the pulls of its folder copy. -/
def WatchItem.route (item : WatchItem) : Route := item.watchFolder.route

/-- The items of the menu: watches, and the four fixed ones. -/
inductive MenuItem where
  | watch (item : WatchItem)
  | topSeparator
  | about
  | separator
  | quit
  deriving DecidableEq, Repr

/-- The items of a menu that watch a file. -/
def watchItems (menu : List MenuItem) : List WatchItem :=
  menu.filterMap fun
    | .watch item => some item
    | _ => none

/-- The methods that are performed on the main thread by name. -/
inductive Selector where
  | raiseAlert
  | raiseLaunchAlert
  deriving DecidableEq, Repr

/-- The methods that `AppDelegate` has. -/
def Selector.implemented : Selector → Bool
  | .raiseAlert => true
  | .raiseLaunchAlert => false

/-- The app, on a system whose files are in the state `T`. -/
structure App (T : Type := FileTree Bytes) where
  menu : List MenuItem
  /-- `topSeparator` is hidden. -/
  topHidden : Bool
  /-- The streams that are started and not stopped. -/
  streams : List Stream
  nextStream : ℕ
  /-- The editors that background threads are to launch, with their argument. -/
  editors : List (Str × Str)
  /-- The programs that were started. -/
  launched : List (List Str)
  /-- The calls left to the main thread, and all names they were ever left under. -/
  queue : List (Selector × Str)
  performed : List Selector
  /-- The texts of the alerts that were shown. -/
  alerts : List Str
  replies : List Str
  terminated : Bool
  /-- `objectAtIndex:` was handed an index out of range. -/
  rangeError : Bool
  tree : T

/-- The items that `awakeFromNib` puts into the menu. -/
def fixedItems : List MenuItem := [.topSeparator, .about, .separator, .quit]

variable {T : Type}

/-- `awakeFromNib`, on a system whose files are `tree`. -/
def awakeFromNib (tree : T) : App T where
  menu := fixedItems
  topHidden := true
  streams := []
  nextStream := 0
  editors := []
  launched := []
  queue := []
  performed := []
  alerts := []
  replies := []
  terminated := false
  rangeError := false
  tree := tree

/-! ## `WatchFolder` -/

/-- `stringByDeletingLastPathComponent` -/
def deletingLastPathComponent (s : Str) : Str :=
  dirname (if rstripSlash s = [] then s else rstripSlash s)

/-- The directory to watch: the path itself, or the directory a file is in. -/
def watchRoot [FileSystem T Bytes] (tree : T) (cwd : Path) (serverFn : Str) : Str :=
  if isdir tree cwd serverFn then serverFn else deletingLastPathComponent serverFn

/-- `initWithServerFn:client_fn:hostname:` behind its check that the file exists. -/
def initWithServerFn [FileSystem T Bytes] (cwd : Path) (serverFn clientFn hostname : Str)
    (s : App T) : WatchFolder × App T :=
  let stream : Stream :=
    ⟨s.nextStream, watchRoot s.tree cwd serverFn, ⟨serverFn, hostname, clientFn⟩⟩
  (⟨serverFn, clientFn, hostname, stream⟩,
    { s with streams := stream :: s.streams, nextStream := s.nextStream + 1 })

/-- `unregisterStream` of the represented object of an item; the other items have
none, and a message to `nil` does nothing. -/
def unregisterStream (item : MenuItem) (s : App T) : App T :=
  match item with
  | .watch item =>
    { s with streams := s.streams.filter fun x => x.id ≠ item.watchFolder.stream.id }
  | _ => s

/-- `callback`: the command it runs. -/
def callback (stream : Stream) : List Str := stream.owner.pullCommand

/-! ## `AppDelegate` -/

/-- Leave a call to the main thread. -/
def performOnMainThread (selector : Selector) (msg : Str) (s : App T) : App T :=
  { s with queue := s.queue ++ [(selector, msg)], performed := s.performed ++ [selector] }

/-- `terminateApp:`; nothing runs behind it. -/
def terminate (s : App T) : App T := { s with terminated := true }

/-- `removeMenuItem:` of the item at an index. -/
def removeMenuItem (i : ℕ) (s : App T) : App T :=
  match s.menu[i]? with
  | none => s
  | some item =>
    let s := unregisterStream item s
    let menu := s.menu.eraseIdx i
    -- if there are no items being watched, hide the top separator
    { s with menu := menu, topHidden := if menu.length ≤ 4 then true else s.topHidden }

/-- One turn of the scan of the menu in `registerNewPath:`. -/
def scan (serverFn : Str) (isUnique : Bool) (item : MenuItem) : Bool :=
  match item with
  | .watch item => if serverFn = item.watchFolder.serverFn then false else isUnique
  | _ => isUnique

/-- No item of the menu has the `server_fn` of the message. -/
def isUnique (menu : List MenuItem) (serverFn : Str) : Bool := menu.foldl (scan serverFn) true

/-- `registerNewPath:`.  A file that does not exist ends the app. -/
def registerNewPath [FileSystem T Bytes] (cwd : Path) (msg : PathMsg) (s : App T) : App T :=
  if isUnique s.menu msg.serverFn then
    if pathExists s.tree cwd msg.serverFn then
      let (wf, s) := initWithServerFn cwd msg.serverFn msg.clientFn msg.hostname s
      { s with
        menu := .watch ⟨itemTitle msg.hostname msg.displayname, wf⟩ :: s.menu
        topHidden := false
        editors := s.editors ++ [(msg.editor, msg.serverFn)] }
    else terminate { s with alerts := s.alerts ++ ["File doesn't exist".toList] }
  else { s with editors := s.editors ++ [(msg.editor, msg.serverFn)] }

/-- `raiseAlert:` removes the item at index 0 and shows the text. -/
def raiseAlert (msg : Str) (s : App T) : App T :=
  if s.menu = [] then { s with rangeError := true }
  else
    let s := removeMenuItem 0 s
    { s with alerts := s.alerts ++ [msg] }

/-- What a background thread finds when it launches an editor. -/
structure EditorEnv where
  cwd : Path
  /-- `$PATH` -/
  searchPath : Option Str
  /-- `stringByStandardizingPath` -/
  standardize : Str → Str
  /-- The path can be launched; `launch` raises where it cannot. -/
  accessible : Str → Bool
  terminationStatus : ℕ
  stderr : Str

/-- `searchFileInPath:searchPath:` -/
def searchFileInPath [FileSystem T Bytes] (env : EditorEnv) (tree : T) (filename : Str) :
    Option Str :=
  match env.searchPath with
  | none => none
  | some searchPath =>
    ((searchPath.splitOn ':').find? fun path =>
      pathExists tree env.cwd (path ++ '/' :: filename)).map fun path =>
        env.standardize (path ++ '/' :: filename)

/-- The absolute path of an editor. -/
def absEditorPath [FileSystem T Bytes] (env : EditorEnv) (tree : T) (editorPath : Str) :
    Option Str :=
  if isabs editorPath then some editorPath else searchFileInPath env tree editorPath

/-- `launchEditor:` -/
def launchEditor [FileSystem T Bytes] (env : EditorEnv) (editorPath arg : Str) (s : App T) :
    App T :=
  match absEditorPath env s.tree editorPath with
  | none => performOnMainThread .raiseLaunchAlert
      ("The executable '".toList ++ editorPath ++ "' was not found in the $PATH".toList) s
  | some path =>
    -- an exception that leaves a background thread ends the app
    if env.accessible path = false then terminate s
    else
      let s := { s with launched := s.launched ++ [[path, arg]] }
      if env.terminationStatus ≠ 0 then performOnMainThread .raiseLaunchAlert env.stderr s else s

/-- `mkdirForClient:` -/
def mkdirForClient [FileSystem T Bytes] (cwd : Path) (mayCreate : Path → Bool)
    (dirToCreate : Str) (s : App T) : App T :=
  if pathExists s.tree cwd dirToCreate then s
  else { s with tree := (FileSystem.createDirectories mayCreate s.tree cwd dirToCreate).1 }

/-- The requests: messages with their string fields, or a message of another type. -/
inductive Request where
  | path (msg : PathMsg)
  | mkdir (dir : Str)
  | bad
  deriving DecidableEq, Repr

/-- `[self.sock send:reply]`, which a terminated app does not get to. -/
def sendReply (s : App T) : App T :=
  if s.terminated then s else { s with replies := s.replies ++ ["OK".toList] }

/-- `poll` with a request in the socket. -/
def poll [FileSystem T Bytes] (cwd : Path) (mayCreate : Path → Bool) (req : Request) (s : App T) :
    App T :=
  match req with
  | .path msg => sendReply (registerNewPath cwd msg s)
  | .mkdir dir => sendReply (mkdirForClient cwd mayCreate dir s)
  | .bad => sendReply (terminate s)

/-- FSEvents reports what changes anywhere below the watched directory. -/
def Stream.reports (stream : Stream) (w : Path) : Prop := absComps stream.root <+: w

instance (stream : Stream) (w : Path) : Decidable (stream.reports w) :=
  inferInstanceAs (Decidable (_ <+: _))

/-- The streams that a change at a place is reported to. -/
def App.reporting (s : App) (w : Path) : List Stream := s.streams.filter fun x => x.reports w

/-- The routes of these streams. -/
def App.fired (s : App) (w : Path) : List Route := (s.reporting w).map (·.owner)

/-- The commands that run when `path` changes: those of all streams that report it. -/
def App.pulls (s : App) (path : Str) : List (List Str) :=
  (s.reporting (absComps path)).map callback

/-! ## Runs -/

/-- What the app does, one event at a time. -/
inductive Action where
  /-- `poll` finds a request. -/
  | request (cwd : Path) (mayCreate : Path → Bool) (req : Request)
  /-- A click on the item at an index. -/
  | click (i : ℕ)
  /-- The pull of the stream at a place of `streams` exits with an error. -/
  | pullFails (i : ℕ) (stderr : Str)
  /-- A background thread launches its editor and waits for it. -/
  | editorEnds (k : ℕ) (env : EditorEnv)
  /-- The main thread performs a call that was left to it. -/
  | runQueued (k : ℕ)
  /-- Somebody changes the file tree. -/
  | disk (tree : FileTree Bytes)

/-- A click is on a watch item: the others do nothing to the registry. -/
def clicked (i : ℕ) (s : App) : Option App :=
  match s.menu[i]? with
  | some (.watch _) => some (removeMenuItem i s)
  | _ => none

/-- The main thread performs a call.  A method that is not there raises. -/
def perform (selector : Selector) (msg : Str) (s : App) : App :=
  match selector with
  | .raiseAlert => raiseAlert msg s
  | .raiseLaunchAlert => s

/-- What a running app does. -/
def act (s : App) : Action → Option App
  | .request cwd mayCreate req => some (poll cwd mayCreate req s)
  | .click i => clicked i s
  | .pullFails i stderr =>
    (s.streams[i]?).map fun _ => performOnMainThread .raiseAlert stderr s
  | .editorEnds k env =>
    (s.editors[k]?).map fun (editor, arg) =>
      launchEditor env editor arg { s with editors := s.editors.eraseIdx k }
  | .runQueued k =>
    (s.queue[k]?).map fun (selector, msg) =>
      perform selector msg { s with queue := s.queue.eraseIdx k }
  | .disk tree => some { s with tree := tree }

/-- A step of the app; there is none once it was terminated. -/
def step (s : App) (a : Action) : Option App := if s.terminated then none else act s a

/-- An app that takes a step runs. -/
theorem act_of_step {s s' : App} {a : Action} (h : step s a = some s') :
    s.terminated = false ∧ act s a = some s' := by
  rw [step] at h
  split at h
  · cases h
  · rename_i halive
    exact ⟨by simpa using halive, h⟩

end Fsync.Mac
