import Fsync.Base.Os
import Fsync.Base.Program
import Fsync.Message

/-!
# The Ubuntu server

`FsyncWindow.py` and `zmqthread.py`: the menu of watched files, the handlers of
the two kinds of request, the callback that starts a pull, the click that
removes an item, and the loop that answers requests.

A handler is a program that raises or returns; what it changed before it raised
stays changed.  What the operating system and the toolkit answer to one handler
is its `Env`: any of these answers may come at any time.  How a path is looked up is a
parameter (`FileSystem`).
-/

namespace Fsync.Ubuntu

open Posix Os Program

/-! ## State -/

/-- What a Python call raises. -/
inductive Exn where
  | keyError (key : String)
  | typeError
  | attributeError
  | nameError
  | unicodeError
  | valueError (text : Str)
  | osError
  | gioError
  deriving DecidableEq, Repr

/-- A file system monitor, connected to the `file_changed` of one menu item. -/
structure Monitor where
  id : ℕ
  path : Str
  /-- It was made for a directory. -/
  isDir : Bool
  /-- What the item it is connected to copies back, and to where. -/
  owner : Route
  deriving DecidableEq, Repr

/-- An item of the menu, with the fields of its message and its monitor. -/
structure WatchFileMenuItem where
  clientFn : Value
  serverFn : Str
  hostname : Value
  label : Str
  monitor : Monitor
  deriving DecidableEq, Repr

/-- What its pulls copy, and where to. -/
def WatchFileMenuItem.route (item : WatchFileMenuItem) : Route :=
  ⟨item.serverFn, item.hostname.text, item.clientFn.text⟩

/-- What is in the menu. -/
inductive Widget where
  | watch (item : WatchFileMenuItem)
  | separator
  | menuItem (label : Str)
  deriving DecidableEq, Repr

/-- The items of a menu that are a `WatchFileMenuItem`. -/
def watchItems (menu : List Widget) : List WatchFileMenuItem :=
  menu.filterMap fun
    | .watch item => some item
    | _ => none

/-- The server, on a system whose files are in the state `T`. -/
structure State (T : Type := FileTree Bytes) where
  menu : List Widget
  /-- The monitors that are connected and not cancelled. -/
  monitors : List Monitor
  nextMonitor : ℕ
  /-- The programs that were started. -/
  launched : List (List Str)
  tree : T

/-- What the system answers to one handler. -/
structure Env where
  cwd : Path
  /-- Entries may be made in the directory. -/
  mayCreate : Path → Bool
  /-- The text has an encoding for system calls. -/
  encodes : Str → Bool
  monitorFails : Bool
  canExecute : Str → Bool

/-- A handler. -/
abbrev Handler (T : Type) := EStateM Exn (State T)

variable {T : Type}

/-! ## System calls -/

/-- A text that can be handed to the system or the toolkit: it can be encoded
and has no null character. -/
def Env.takes (env : Env) (s : Str) : Bool := env.encodes s && '\x00' ∉ s

/-- What handing over a text raises that the system does not take. -/
def textError (env : Env) (s : Str) : Exn :=
  if env.encodes s = false then .unicodeError else .typeError

/-- A value handed over as a path, an argument or a label. -/
def osString (env : Env) : Value → Handler T Str
  | .other _ => throw .typeError
  | .str s => do
    raiseIf (!env.takes s) (textError env s)
    pure s

/-- `subprocess.Popen([editor, arg])` -/
def popen (env : Env) (editor arg : Value) : Handler T Unit := do
  let editor ← osString env editor
  let arg ← osString env arg
  raiseIf (!env.canExecute editor) .osError
  modify fun s => { s with launched := s.launched ++ [[editor, arg]] }

/-! ## `WatchFileMenuItem` -/

/-- The parameters of `WatchFileMenuItem.__init__`. -/
def initParameters : List String := ["client_fn", "server_fn", "hostname", "displayname"]

/-- `WatchFileMenuItem(**msg)`: the monitor is made and connected last. -/
def watchFileMenuItem [FileSystem T Bytes] (env : Env) (msg : Dict) :
    Handler T WatchFileMenuItem := do
  raiseIf (msg.any fun kv => kv.1 ∉ initParameters) .typeError
  let clientFn ← orRaise (msg.get? "client_fn") .typeError
  let serverFn ← orRaise (msg.get? "server_fn") .typeError
  let hostname ← orRaise (msg.get? "hostname") .typeError
  let displayname ← orRaise (msg.get? "displayname") .typeError
  let label ← osString env (.str (itemTitle hostname.text displayname.text))
  let serverFn ← osString env serverFn
  let s ← get
  raiseIf (!pathExists s.tree env.cwd serverFn)
    (.valueError ("server_fn does not exist: ".toList ++ serverFn))
  raiseIf env.monitorFails .gioError
  let monitor : Monitor := ⟨s.nextMonitor, serverFn, isdir s.tree env.cwd serverFn,
    ⟨serverFn, hostname.text, clientFn.text⟩⟩
  set { s with monitors := monitor :: s.monitors, nextMonitor := s.nextMonitor + 1 }
  pure ⟨clientFn, serverFn, hostname, label, monitor⟩

/-- The events of a monitor. -/
inductive MonitorEvent where
  | changed
  | changesDoneHint
  | created
  | deleted
  | attributeChanged
  | unmounted
  deriving DecidableEq, Repr

/-- `file_changed`: the command it starts. -/
def fileChanged (owner : Route) (event : MonitorEvent) : Option (List Str) :=
  if event = .changesDoneHint then some owner.pullCommand else none

/-- A GIO monitor reports the file it was made for, or the direct children of the
directory it was made for. -/
def Monitor.reports (m : Monitor) (w : Path) : Prop :=
  if m.isDir then w ≠ [] ∧ w.dropLast = absComps m.path else w = absComps m.path

instance (m : Monitor) (w : Path) : Decidable (m.reports w) :=
  inferInstanceAs (Decidable (if m.isDir then _ else _))

/-- The routes of the monitors that a completed write at a place is reported to. -/
def State.fired (s : State) (w : Path) : List Route :=
  (s.monitors.filter fun m => m.reports w).map (·.owner)

/-- The commands started when the monitors of a path end a completed write. -/
def State.pulls (s : State) (path : Str) : List (List Str) :=
  (s.monitors.filter fun m => m.path = path).filterMap fun m => fileChanged m.owner .changesDoneHint

/-! ## `Fsync` -/

/-- `create_menu` -/
def createMenu : List Widget :=
  [.separator, .menuItem "About fsync".toList, .separator, .menuItem "Quit".toList]

/-- `Fsync.__init__`, on a system whose files are `tree`. -/
def init (tree : T) : State T := ⟨createMenu, [], 0, [], tree⟩

/-- `item_clicked` of the watch item at a position of the menu: its monitor is
cancelled and the item destroyed. -/
def itemClicked (i : ℕ) (s : State) : Option State :=
  match s.menu[i]? with
  | some (.watch item) =>
    some { s with
      monitors := s.monitors.filter fun m => m.id ≠ item.monitor.id
      menu := s.menu.eraseIdx i }
  | _ => none

/-- `mkdir_for_client` -/
def mkdirForClient [FileSystem T Bytes] (env : Env) (msg : Dict) : Handler T Unit := do
  match ← orRaise (msg.get? "dir") (.keyError "dir") with
  | .other _ => throw .attributeError
  | .str dir =>
    let s ← get
    let (tree, result) := makedirs env.mayCreate env.takes s.tree env.cwd dir
    set { s with tree := tree }
    match result with
    | .error (.text text) => throw (textError env text)
    -- `except OSError: pass`
    | _ => pure ()

/-- One turn of the scan of the menu in `register_new_path`. -/
def scan (serverFn : Value) (unique : Bool) (currentItem : Widget) : Bool :=
  match currentItem with
  | .watch item => if .str item.serverFn = serverFn then false else unique
  | _ => unique

/-- No item of the menu has the `server_fn` of the message. -/
def unique (menu : List Widget) (serverFn : Value) : Bool := menu.foldl (scan serverFn) true

/-- `required_keys` -/
def requiredKeys : List String := ["server_fn", "client_fn", "hostname", "editor", "displayname"]

/-- "only add unique items": the part of `register_new_path` behind `if unique`. -/
def addItem [FileSystem T Bytes] (env : Env) (msg : Dict) : Handler T Unit := do
  let newitem ← watchFileMenuItem env msg
  modify fun s => { s with menu := .watch newitem :: s.menu }

/-- `register_new_path` -/
def registerNewPath [FileSystem T Bytes] (env : Env) (msg : Dict) : Handler T Unit := do
  raiseIf (requiredKeys.any fun key => !msg.has key)
    (.valueError "Bad message. Doesn't have the right keys".toList)
  let editor ← orRaise (msg.get? "editor") (.keyError "editor")
  let msg := msg.pop "editor"
  let serverFn ← orRaise (msg.get? "server_fn") (.keyError "server_fn")
  let s ← get
  bif unique s.menu serverFn then addItem env msg else pure ()
  -- launch the editor regardless
  popen env editor serverFn

/-- `zmq_msg` -/
def zmqMsg [FileSystem T Bytes] (env : Env) : Json → Handler T Str
  | .array => throw .typeError
  | .scalar => throw .attributeError
  | .object msg => do
    let type ← orRaise (msg.get? "type") (.keyError "type")
    let msg := msg.pop "type"
    if type = .str "path".toList then registerNewPath env msg
    else if type = .str "mkdir".toList then mkdirForClient env msg
    -- the text of the `ValueError` names `message`, which is not bound
    else throw .nameError
    pure "OK".toList

end Fsync.Ubuntu
