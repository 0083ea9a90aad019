import Fsync.Client.Fs

/-!
# The command line of the client

`dispatch` of the script `fs`: read the options and the environment, and call `main`.

* `dispatch`: what it does with the arguments behind the name of the script;
* `ByGrammar`: what the usage line promises;
* `dispatch_byGrammar_iff`: when the two agree.
-/

namespace Fsync.Client

open Posix

/-! ## The environment -/

/-- The variables of `os.environ` that `dispatch` reads. -/
structure Environ where
  fsyncEditor : Option Str
  fsyncServer : Option Str
  sshClient : Option Str
  fsyncUser : Option Str
  fsyncClientHostname : Option Str
  fsyncExclude : Option Str
  deriving DecidableEq, Repr

/-- `str.isspace` of one character of a byte string. -/
def isSpace (c : Char) : Bool :=
  c ∈ [' ', '\t', '\n', '\r', Char.ofNat 11, Char.ofNat 12]

/-- `str.split()` -/
def splitWords (s : Str) : List Str := (s.splitOnP isSpace).filter (· ≠ [])

/-- "the editor to use. this can be overriden with an env variable or on the command line" -/
def defaultEditor : Str := "/usr/local/bin/mate".toList

/-- The server that a variable names.  The first word of `SSH_CLIENT` is taken without
a look whether there is one: then an `IndexError` is raised. -/
def serverName (environ : Environ) : Option (Except Unit Str) :=
  match environ.fsyncServer with
  | some server => some (.ok server)
  | none =>
    environ.sshClient.map fun ssh =>
      match splitWords ssh with
      | [] => .error ()
      | word :: _ => .ok word

/-- `server_addr` -/
def serverAddr (environ : Environ) (server : Str) : Str :=
  match environ.fsyncUser with
  | some user => user ++ '@' :: server
  | none => server

/-- `client_hostname` -/
def clientHostname (environ : Environ) (gethostname : Str) : Str :=
  environ.fsyncClientHostname.getD gethostname

/-- `exclude` -/
def exclude (environ : Environ) : List Str :=
  match environ.fsyncExclude with
  | some patterns => patterns.splitOn ':'
  | none => []

/-! ## `dispatch` -/

/-- `['-h', '--help']` -/
def helpOptions : List Str := ["-h".toList, "--help".toList]

/-- `['-e', '--editor']` -/
def editorOptions : List Str := ["-e".toList, "--editor".toList]

/-- `usage(script_name)` -/
def usage (scriptName : Str) : Str :=
  "Usage: ".toList ++ scriptName ++ " [-h] [-e EDITOR] \x7bfile_or_directory\x7d".toList

/-- The lines of `help()`. -/
def helpLines : List String :=
  ["",
    "#########################################################################",
    "##                           fsync client                              ##",
    "##                  http://github.com/rmcgibbo/fsync                   ##",
    "#########################################################################",
    "",
    "Inside your SSH session, launch your local editor to work on remote files.",
    "",
    "This script will open up a file or directory on your local workstation,",
    "and any edits you make will by synced back to the remote machine. To get",
    "going, you need to run the fsync server on your local workstation -- tt's",
    "a tiny little status bar app.",
    "",
    "Note, the default editor is `mate`, so if you don't have textmate, you",
    "might want to change that by setting $FSYNC_EDITOR.",
    "",
    "requirements:",
    "  * fsync server app running on local workstation",
    "  * symmetrical passwordless SSH via public keys between your workstation",
    "    and remote.",
    "",
    "customize with env variables:",
    "  * $FSYNC_EDITOR                  Set which editor to use on your local",
    "                                   workstation.",
    "  * $FSYNC_USER, $FSYNC_SERVER     Override looking at SSH_CLIENT. If you set",
    "                                   FSYNC_USER=robert and FSYNC_SERVER=vspm10,",
    "                                   your files will be synced to robert@vspm10",
    "                                   instead of whatever's in SSH_CLIENT.",
    "  * $FSYNC_CLIENT_HOSTNAME         Override the hostname of the client.",
    "                                   (machine that you're executing `fs` on)",
    "                                   Use this option if you need to SSH into",
    "                                   the client from your workstation with",
    "                                   a special address",
    "",
    "optional arguments:",
    "  -h, --help            Show this help message and exit",
    "  -e, --editor          Choose which editor to use on you local workstation",
    "",
    "positional argument:",
    "  \x7bfile_or_directory\x7d   The file or directory to open on your local machine"]

/-- `help()` -/
def help : Str := ("\n".intercalate helpLines).toList

/-- The arguments of `main`. -/
structure MainArgs where
  path : Str
  editor : Str
  serverAddr : Str
  clientHostname : Str
  exclude : List Str
  deriving DecidableEq, Repr

/-- What `dispatch` comes to.  It returns nothing behind the call of `main`. -/
inductive Outcome where
  | called (args : MainArgs)
  | returned (status : ℕ) (stdout stderr : List Str)
  | indexError
  deriving DecidableEq, Repr

/-- `dispatch` behind the options; `args` are the arguments that are left. -/
def callMain (environ : Environ) (gethostname scriptName editor : Str) (args : List Str) : Outcome :=
  match serverName environ with
  | none => .returned 1 [] [usage scriptName, scriptName ++
      ": error: could not find SSH_CLIENT or FSYNC_SERVER env vars".toList]
  | some (.error ()) => .indexError
  | some (.ok server) =>
    match args with
    | [] => .indexError
    | path :: _ => .called
      { path := path
        editor := editor
        serverAddr := serverAddr environ server
        clientHostname := clientHostname environ gethostname
        exclude := exclude environ }

/-- `dispatch`, for the script `argv0` with the arguments `args`. -/
def dispatch (environ : Environ) (gethostname argv0 : Str) (args : List Str) : Outcome :=
  let scriptName := basename argv0
  match args with
  | [] => .returned 1 [] [usage scriptName, scriptName ++ ": error: too few arguments".toList]
  | arg :: rest =>
    if arg ∈ helpOptions then .returned 0 [help] []
    else if arg ∈ editorOptions then
      match rest with
      -- `pop` from a list that has nothing there
      | [] => .indexError
      | editor :: rest => callMain environ gethostname scriptName editor rest
    else
      callMain environ gethostname scriptName (environ.fsyncEditor.getD defaultEditor) (arg :: rest)

/-! ## The grammar of the usage line -/

/-- All options. -/
def options : List Str := helpOptions ++ editorOptions

/-- `[-e EDITOR] {file_or_directory}`: the path and the editor that the arguments
stand for. -/
def parsed (environ : Environ) (args : List Str) : Option (Str × Str) :=
  match args with
  | [path] => if path ∈ options then none else some (path, environ.fsyncEditor.getD defaultEditor)
  | [option, editor, path] =>
    if option ∈ editorOptions ∧ editor ∉ options ∧ path ∉ options then some (path, editor) else none
  | _ => none

/-- The server that can be derived: `FSYNC_SERVER`, or the first word of `SSH_CLIENT`. -/
def derived (environ : Environ) : Option Str :=
  environ.fsyncServer <|> environ.sshClient.bind fun ssh => (splitWords ssh).head?

/-- **What the usage line promises**: help for a help option in front; `main` for
arguments of the grammar and a server; the usage and status 1 for everything else. -/
def ByGrammar (environ : Environ) (gethostname argv0 : Str) (args : List Str) (o : Outcome) : Prop :=
  if ∃ arg ∈ args.head?, arg ∈ helpOptions then o = .returned 0 [help] []
  else
    match parsed environ args, derived environ with
    | some (path, editor), some server => o = .called
      ⟨path, editor, serverAddr environ server, clientHostname environ gethostname,
        exclude environ⟩
    | _, _ => ∃ text, o = .returned 1 [] (usage (basename argv0) :: text)

/-- The cases in which `dispatch` keeps to it: no argument, a help option in front, no
variable that could name a server and not a lone editor option, or a server and
arguments of the grammar. -/
def Understood (environ : Environ) (args : List Str) : Prop :=
  args = [] ∨ (∃ arg ∈ args.head?, arg ∈ helpOptions) ∨
    (environ.fsyncServer = none ∧ environ.sshClient = none ∧ ∀ o ∈ editorOptions, args ≠ [o]) ∨
    ((derived environ).isSome = true ∧ (parsed environ args).isSome = true)

variable {environ : Environ} {gethostname argv0 : Str}

theorem serverName_eq_none : serverName environ = none ↔
    environ.fsyncServer = none ∧ environ.sshClient = none := by
  rw [serverName]
  cases environ.fsyncServer <;> simp

theorem derived_of_serverName {server : Except Unit Str} (h : serverName environ = some server) :
    derived environ = server.toOption := by
  rw [serverName] at h
  rw [derived]
  cases hserver : environ.fsyncServer with
  | some s =>
    rw [hserver] at h
    obtain rfl := Option.some.inj h
    rfl
  | none =>
    rw [hserver] at h
    obtain ⟨ssh, hssh, rfl⟩ := Option.map_eq_some_iff.1 h
    rw [hssh]
    cases hwords : splitWords ssh <;> simp [hwords, Except.toOption]

theorem derived_of_serverName_none (h : serverName environ = none) : derived environ = none := by
  rw [derived, (serverName_eq_none.1 h).1, (serverName_eq_none.1 h).2]
  rfl

/-- Behind the help options: the promise is `main` or the usage. -/
theorem byGrammar_iff {args : List Str} {o : Outcome}
    (h : ¬ ∃ arg ∈ args.head?, arg ∈ helpOptions) :
    ByGrammar environ gethostname argv0 args o ↔
      match parsed environ args, derived environ with
      | some (path, editor), some server => o = .called
        ⟨path, editor, serverAddr environ server, clientHostname environ gethostname,
          exclude environ⟩
      | _, _ => ∃ text, o = .returned 1 [] (usage (basename argv0) :: text) := by
  rw [ByGrammar, if_neg h]

/-- Without a server, the usage is promised. -/
theorem byGrammar_of_derived_none {args : List Str} {o : Outcome}
    (h : ¬ ∃ arg ∈ args.head?, arg ∈ helpOptions) (hd : derived environ = none) :
    ByGrammar environ gethostname argv0 args o ↔
      ∃ text, o = .returned 1 [] (usage (basename argv0) :: text) := by
  rw [byGrammar_iff h, hd]
  cases parsed environ args <;> rfl

/-- Without arguments of the grammar, the usage is promised. -/
theorem byGrammar_of_parsed_none {args : List Str} {o : Outcome}
    (h : ¬ ∃ arg ∈ args.head?, arg ∈ helpOptions) (hp : parsed environ args = none) :
    ByGrammar environ gethostname argv0 args o ↔
      ∃ text, o = .returned 1 [] (usage (basename argv0) :: text) := by
  rw [byGrammar_iff h, hp]

theorem parsed_of_option (environ : Environ) {arg : Str} (h : arg ∈ editorOptions) (args : List Str) :
    parsed environ (arg :: args) =
      match args with
      | [editor, path] => if editor ∉ options ∧ path ∉ options then some (path, editor) else none
      | _ => none := by
  have hopt : arg ∈ options := List.mem_append_right _ h
  rcases args with _ | ⟨editor, _ | ⟨path, _ | ⟨_, _⟩⟩⟩
  · rw [parsed, if_pos hopt]
  · rfl
  · simp [parsed, h]
  · rfl

theorem parsed_of_not_option (environ : Environ) {arg : Str} (h : arg ∉ options) (args : List Str) :
    parsed environ (arg :: args) =
      if args = [] then some (arg, environ.fsyncEditor.getD defaultEditor) else none := by
  have hopt : arg ∉ editorOptions := fun hm => h (List.mem_append_right _ hm)
  rcases args with _ | ⟨editor, _ | ⟨path, _ | ⟨_, _⟩⟩⟩
  · simp [parsed, h]
  · rfl
  · simp [parsed, hopt]
  · rfl

/-! ## When `dispatch` keeps to the grammar -/

theorem callMain_usage_iff {scriptName editor : Str} {args : List Str} :
    (∃ text, callMain environ gethostname scriptName editor args =
        .returned 1 [] (usage scriptName :: text)) ↔ serverName environ = none := by
  rw [callMain]
  cases serverName environ with
  | none => exact ⟨fun _ => rfl, fun _ => ⟨_, rfl⟩⟩
  | some server =>
    cases server with
    | error u => simp
    | ok server => cases args <;> simp

/-- Behind the options: `left` are the arguments that are left of `args`. -/
theorem callMain_byGrammar_iff {editor : Str} {args left : List Str}
    (h : ¬ ∃ arg ∈ args.head?, arg ∈ helpOptions)
    (hleft : parsed environ args = none ∨
      ∃ path, left = [path] ∧ parsed environ args = some (path, editor)) :
    ByGrammar environ gethostname argv0 args
        (callMain environ gethostname (basename argv0) editor left) ↔
      (environ.fsyncServer = none ∧ environ.sshClient = none) ∨
        ((derived environ).isSome = true ∧ (parsed environ args).isSome = true) := by
  rw [← serverName_eq_none]
  cases hs : serverName environ with
  | none =>
    rw [byGrammar_of_derived_none h (derived_of_serverName_none hs), callMain_usage_iff]
    simp [hs]
  | some server =>
    have hd := derived_of_serverName hs
    cases server with
    | error u =>
      rw [byGrammar_of_derived_none h hd, callMain_usage_iff, hs, hd]
      simp [Except.toOption]
    | ok server =>
      rcases hleft with hp | ⟨path, rfl, hp⟩
      · rw [byGrammar_of_parsed_none h hp, callMain_usage_iff, hs, hp]
        simp
      · rw [byGrammar_iff h, hp, hd, callMain, hs]
        simp [Except.toOption]

/-- **When `dispatch` keeps to the usage line.**  A lone editor option, an
`SSH_CLIENT` without words and missing arguments raise an `IndexError`; further
arguments are ignored. -/
theorem dispatch_byGrammar_iff (environ : Environ) (gethostname argv0 : Str) (args : List Str) :
    ByGrammar environ gethostname argv0 args (dispatch environ gethostname argv0 args) ↔
      Understood environ args := by
  cases args with
  | nil =>
    rw [byGrammar_of_parsed_none (by simp) rfl]
    exact ⟨fun _ => Or.inl rfl, fun _ => ⟨_, rfl⟩⟩
  | cons arg rest =>
    rw [Understood]
    unfold dispatch
    dsimp only
    by_cases hhelp : arg ∈ helpOptions
    · rw [if_pos hhelp, ByGrammar, if_pos ⟨arg, rfl, hhelp⟩]
      exact ⟨fun _ => Or.inr (Or.inl ⟨arg, rfl, hhelp⟩), fun _ => rfl⟩
    · have hhead : ¬ ∃ a ∈ (arg :: rest).head?, a ∈ helpOptions := by
        rintro ⟨a, ha, hmem⟩
        obtain rfl := Option.some.inj ha
        exact hhelp hmem
      rw [if_neg hhelp]
      by_cases hopt : arg ∈ editorOptions
      · rw [if_pos hopt]
        have hparsed := parsed_of_option environ hopt rest
        cases rest with
        | nil =>
          rw [byGrammar_of_parsed_none hhead hparsed, hparsed]
          simpa [hhelp] using fun _ _ => hopt
        | cons editor left =>
          dsimp only
          rw [callMain_byGrammar_iff hhead]
          · simp [hhelp]
          · rcases left with _ | ⟨path, _ | ⟨_, _⟩⟩
            · exact Or.inl hparsed
            · dsimp only at hparsed
              split at hparsed
              · exact Or.inr ⟨path, rfl, hparsed⟩
              · exact Or.inl hparsed
            · exact Or.inl hparsed
      · have hno : arg ∉ options := fun hm => (List.mem_append.1 hm).elim hhelp hopt
        have hparsed := parsed_of_not_option environ hno rest
        rw [if_neg hopt, callMain_byGrammar_iff hhead]
        · have hlone : ∀ o ∈ editorOptions, arg :: rest ≠ [o] := by
            rintro o ho heq
            obtain ⟨rfl, -⟩ := List.cons.inj heq
            exact hopt ho
          rw [and_iff_left hlone]
          simp [hhelp]
        · split at hparsed
          · rename_i hrest
            exact Or.inr ⟨arg, by rw [hrest], hparsed⟩
          · exact Or.inl hparsed

/-- `fs -e` over `ssh`, with the editor forgotten. -/
theorem editor_forgotten :
    ¬ ByGrammar ⟨none, none, some "10.0.0.2 50022 22".toList, none, none, none⟩ "h".toList
        "/usr/local/bin/fs".toList ["-e".toList]
      (dispatch ⟨none, none, some "10.0.0.2 50022 22".toList, none, none, none⟩ "h".toList
        "/usr/local/bin/fs".toList ["-e".toList]) := by
  have hrun : dispatch ⟨none, none, some "10.0.0.2 50022 22".toList, none, none, none⟩ "h".toList
      "/usr/local/bin/fs".toList ["-e".toList] = .indexError := by decide
  rw [hrun, byGrammar_of_parsed_none (by simp [helpOptions]) (by decide)]
  simp

end Fsync.Client
