import Fsync.Base.PosixPath

/-!
# Requests

The client sends JSON objects to port 34401 of the workstation, and both servers
read them.  This file has what the three programs share: the values of a decoded
request, the two messages a client sends, the command that copies an edited file
back, and the place an item of either server's menu routes to.
-/

namespace Fsync

open Posix

/-- The bytes of a file or of a request. -/
abbrev Bytes := List UInt8

/-! ## Decoded JSON -/

/-- A value in a request: a string, or anything else with the text that `'%s'`
makes of it. -/
inductive Value where
  | str (s : Str)
  | other (text : Str)
  deriving DecidableEq, Repr

/-- `'%s' % value` -/
def Value.text : Value → Str
  | .str s => s
  | .other text => text

/-- A decoded object; the first entry of a key counts. -/
abbrev Dict := List (String × Value)

namespace Dict

/-- `msg.get(key)` -/
def get? (msg : Dict) (key : String) : Option Value := (msg.find? fun kv => kv.1 = key).map (·.2)

/-- `key in msg` -/
def has (msg : Dict) (key : String) : Bool := msg.any fun kv => kv.1 = key

/-- What `msg.pop(key)` leaves. -/
def pop (msg : Dict) (key : String) : Dict := msg.filter fun kv => kv.1 ≠ key

theorem has_iff {msg : Dict} {key : String} : msg.has key = true ↔ ∃ v, msg.get? key = some v := by
  rw [has, get?, List.any_eq_true]
  constructor
  · rintro ⟨kv, hkv, hk⟩
    cases hf : msg.find? fun kv => kv.1 = key with
    | none => exact absurd hk (by simpa using List.find?_eq_none.1 hf kv hkv)
    | some x => exact ⟨x.2, rfl⟩
  · rintro ⟨v, hv⟩
    obtain ⟨kv, hkv, -⟩ := Option.map_eq_some_iff.1 hv
    exact ⟨kv, List.mem_of_find?_eq_some hkv,
      List.find?_some (p := fun kv : String × Value => kv.1 = key) hkv⟩

/-- Popping a key leaves the others. -/
theorem get?_pop {msg : Dict} {k key : String} (h : k ≠ key) :
    (msg.pop key).get? k = msg.get? k := by
  rw [get?, get?, pop, List.find?_filter]
  congr 2
  funext kv
  by_cases hk : kv.1 = k
  · simp [hk, h]
  · simp [hk]

end Dict

/-- A decoded request. -/
inductive Json where
  | object (msg : Dict)
  | array
  /-- a number, a string, `true`, `false` or `null` -/
  | scalar
  deriving DecidableEq, Repr

/-! ## The messages of the client -/

/-- The fields of a `'path'` message. -/
structure PathMsg where
  displayname : Str
  editor : Str
  serverFn : Str
  hostname : Str
  clientFn : Str
  deriving DecidableEq, Repr

/-- `{'type': 'path', 'displayname': ..., ...}` -/
def PathMsg.toDict (m : PathMsg) : Dict :=
  [("type", .str "path".toList), ("displayname", .str m.displayname), ("editor", .str m.editor),
    ("server_fn", .str m.serverFn), ("hostname", .str m.hostname), ("client_fn", .str m.clientFn)]

/-- `{"type": "mkdir", "dir": dir}` -/
def mkdirMsg (dir : Str) : Dict := [("type", .str "mkdir".toList), ("dir", .str dir)]

/-! ## Where a registered file goes back to -/

/-- The three fields a menu item keeps of its message. -/
structure Route where
  serverFn : Str
  hostname : Str
  clientFn : Str
  deriving DecidableEq, Repr

namespace Route

/-- `'%s:%s' % (hostname, client_fn)` -/
def destination (r : Route) : Str := r.hostname ++ ':' :: r.clientFn

/-- The command that copies the file back. -/
def pullCommand (r : Route) : List Str :=
  ["/usr/bin/rsync".toList, "-r".toList, r.serverFn, r.destination]

end Route

/-- Where the sender of a message wants its edits. -/
def PathMsg.route (m : PathMsg) : Route := ⟨m.serverFn, m.hostname, m.clientFn⟩

/-- The text of a menu item, `'%s: %s' % (hostname, displayname)`. -/
def itemTitle (hostname displayname : Str) : Str := hostname ++ ": ".toList ++ displayname

end Fsync
