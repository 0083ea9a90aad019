import Fsync.Base.Program
import Fsync.Base.Transfer
import Fsync.Message

/-!
# The client

`main` of the script `fs`: check that a path is in the home directory, build the
two names the file has on the two machines, push it with `rsync`, ask the server
for a directory if that fails and push again, and send the server a path message.

What a command line does is a parameter of `mainOn`, as is how a path is looked up; in
`Fsync.Client.Machine` it is the line that `do_rsync` builds.  In `main` the push and the
pull are those of any `Rsync.Copier` on the operands that `main` and the servers build, as
the shell and `rsync` are meant to read them.
-/

namespace Fsync.Client

open Posix Os Program

/-! ## Paths -/

/-- One run of `fs`: who runs it, where, and with which options. -/
structure Env where
  /-- `getpass.getuser()` -/
  user : Str
  clientHostname : Str
  /-- A host name is no path of its own. -/
  host : IsName clientHostname
  /-- `$HOME` -/
  home : Str
  /-- `os.getcwd()` -/
  cwd : Path
  names : ∀ c ∈ cwd, IsName c
  editor : Str
  /-- `$FSYNC_EXCLUDE`, split at `':'` -/
  exclude : List Str
  /-- Entries may be made in the directory. -/
  mayCreate : Path → Bool

/-- `SERVER_ROOT_DIR` -/
def serverRootDir : Str := "/tmp".toList

/-- `EXCLUDE.split()` -/
def excludePatterns : List Str :=
  ["*.pyc".toList, "*.pyo".toList, "*.pyd".toList, "*.so".toList, "*.sqlite3".toList,
    "build/".toList, "dist/".toList]

/-- "Return the cannonical path of a file, relative to $HOME" -/
def normalizePath (env : Env) (path : Str) : Str :=
  relpath (toStr env.cwd) (abspath (toStr env.cwd) path) env.home

/-- `'..' in npath` -/
def refused (env : Env) (path : Str) : Bool := decide (dotdot <:+: normalizePath env path)

/-- The name of the file on the server. -/
def serverFn (env : Env) (path : Str) (isDir : Bool) : Str :=
  join serverRootDir [env.clientHostname, normalizePath env path] ++ if isDir then ['/'] else []

/-- The name of the file on the client. -/
def clientFn (env : Env) (path : Str) (isDir : Bool) : Str :=
  abspath (toStr env.cwd) path ++ if isDir then ['/'] else []

/-- `'%s@%s' % (getpass.getuser(), client_hostname)` -/
def userAtClient (env : Env) : Str := env.user ++ '@' :: env.clientHostname

/-- The message that tells the server of the file. -/
def pathMessage (env : Env) (path : Str) (isDir : Bool) : PathMsg where
  displayname := "~/".toList ++ normalizePath env path
  editor := env.editor
  serverFn := serverFn env path isDir
  hostname := userAtClient env
  clientFn := clientFn env path isDir

/-- The message of a run of `fs`, if the path is not refused.  `isDir` is what
`os.path.isdir` answers. -/
def opened (env : Env) (path : Str) (isDir : Bool) : Option PathMsg :=
  if refused env path then none else some (pathMessage env path isDir)

/-- A user of the host `h`, in their own home directory. -/
def homeOf (user : Str) (h : IsName user) : Env where
  user := user
  clientHostname := "h".toList
  host := by decide
  home := "/home/".toList ++ user
  cwd := ["home".toList, user]
  names := by simpa [h] using (by decide : IsName "home".toList)
  editor := "vi".toList
  exclude := []
  mayCreate _ := true

/-- A user of the host `h`. -/
def ann : Env := homeOf "ann".toList (by decide)

/-- Another user of that host. -/
def bob : Env := homeOf "bob".toList (by decide)

/-! ## Push and pull -/

/-- What `rsync` and the network are like: the program that copies, how patterns are
matched, whether a directory is made for an empty transfer, and what the connection
leaves on the server if it breaks during the first or the second push. -/
structure Network where
  rsync : Rsync.Copier Bytes
  matcher : Rsync.Matcher
  emptyDest : Bool
  firstFault : Option (FileTree Bytes)
  secondFault : Option (FileTree Bytes)

/-- A network that does not break, with plain wildcards. -/
def sampleNet : Network := ⟨Rsync.copier, Rsync.wildcards, false, none, none⟩

/-- `--delete` and the exclude patterns, as `rsync` gets them: a pattern that holds a
single quote is not what was typed (`shell_runs_iff`). -/
def pushOptions (net : Network) (env : Env) : Rsync.Options where
  delete := true
  filter := net.matcher.filter (excludePatterns ++ env.exclude)
  emptyDest := net.emptyDest

/-- The server "will NOT use --delete", and is not sent the exclude list. -/
def pullOptions (net : Network) : Rsync.Options where
  delete := false
  filter := Rsync.Filter.none
  emptyDest := net.emptyDest

/-- `rsync --delete -r path server_addr:server_fn --exclude ...`, with the operands read
as they are meant. -/
def push (net : Network) (env : Env) (path serverFn : Str) (client server : FileTree Bytes) :
    FileTree Bytes × Bool :=
  net.rsync.run (pushOptions net env) client env.cwd path server [] serverFn

/-- `rsync -r server_fn hostname:client_fn`, run by either server. -/
def pull (net : Network) (serverFn clientFn : Str) (server client : FileTree Bytes) :
    FileTree Bytes × Bool :=
  net.rsync.run (pullOptions net) server [] serverFn client [] clientFn

/-! ## `main` -/

/-- What a Python call raises. -/
inductive Exn where
  | ioError
  | valueError (text : Str)
  | calledProcessError
  | assertionError
  deriving DecidableEq, Repr

/-- The two file systems and the messages that were sent. -/
structure World (K : Type := FileTree Bytes) (S : Type := FileTree Bytes) where
  client : K
  server : S
  sent : List Dict

/-- Code of `fs`: it changes the two file systems and the messages sent, and may raise. -/
abbrev Action (K S : Type) := EStateM Exn (World K S)

/-- What the first and the second command of a run do, for the path and `server_fn`: they
leave the two file systems in some state, and exit with 0 or not. -/
structure Commands (K S : Type) where
  first : Str → Str → K → S → (K × S) × Bool
  second : Str → Str → K → S → (K × S) × Bool

section Main

variable {K S : Type} [FileSystem K Bytes]

/-- "if the file doesn't exist, touch it" -/
def touch (env : Env) (path : Str) : Action K S Unit := do
  let w ← get
  bif pathExists w.client env.cwd path then pure ()
  else do
    let client ← orRaise (FileSystem.openWrite env.mayCreate w.client env.cwd path []) .ioError
    set { w with client := client }

/-- `do_rsync` with the command that it runs. -/
def doRsync (command : K → S → (K × S) × Bool) : Action K S Unit := do
  let w ← get
  let ((client, server), ok) := command w.client w.server
  set { w with client := client, server := server }
  raiseIf (!ok) .calledProcessError

/-- Ask the server for a directory; `mkdir` is what the server makes of its tree, if
it replies `'OK'`. -/
def requestMkdir (mkdir : S → Str → Option S) (dir : Str) : Action K S Unit := do
  let w ← get
  set { w with sent := w.sent ++ [mkdirMsg dir] }
  let server ← orRaise (mkdir w.server dir) .assertionError
  modify fun w => { w with server := server }

/-- `main`, up to the reply to the path message, with the commands that it runs. -/
def mainOn (commands : Commands K S) (mkdir : S → Str → Option S) (env : Env) (path : Str) :
    Action K S Unit := do
  touch env path
  raiseIf (refused env path)
    (.valueError ("Sorry, ".toList ++ path ++ " is not in the home directory".toList))
  let w ← get
  let isDir := isdir w.client env.cwd path
  let serverFn := serverFn env path isDir
  tryCatch (doRsync (commands.first path serverFn)) fun e =>
    if e = .calledProcessError then do
      requestMkdir mkdir (dirname serverFn)
      doRsync (commands.second path serverFn)
    else throw e
  modify fun w => { w with sent := w.sent ++ [(pathMessage env path isDir).toDict] }

end Main

/-! ## `main` with `rsync` on trees -/

/-- An attempt to push; a connection that breaks leaves some tree on the server. -/
def attempt (net : Network) (env : Env) (path serverFn : Str) (fault : Option (FileTree Bytes))
    (client server : FileTree Bytes) : FileTree Bytes × Bool :=
  match fault with
  | some broken => (broken, false)
  | none => push net env path serverFn client server

/-- Commands that push what is meant.  `meant_iff` says for which texts the shell and `rsync`
read the command line as that, and `mainOn_machine` that `fs` then runs these commands. -/
def Network.commands (net : Network) (env : Env) : Commands (FileTree Bytes) (FileTree Bytes) where
  first path serverFn client server :=
    let r := attempt net env path serverFn net.firstFault client server
    ((client, r.1), r.2)
  second path serverFn client server :=
    let r := attempt net env path serverFn net.secondFault client server
    ((client, r.1), r.2)

/-- `main` where the commands push what is meant. -/
def main (net : Network) (mkdir : FileTree Bytes → Str → Option (FileTree Bytes)) (env : Env)
    (path : Str) : Action (FileTree Bytes) (FileTree Bytes) Unit :=
  mainOn (net.commands env) mkdir env path

end Fsync.Client
