import Fsync.Base.PosixPath
import Fsync.Base.Tree

/-!
# File systems

What a program asks of a file system by path strings.  How a string is looked up is a
parameter: a `FileSystem` has `stat`, `open(path, 'w')`, `os.mkdir` and the creation of
a directory together with the directories above it, and a `LawfulFileSystem` says what
these have to do with each other.  `os.path.exists`, `os.path.isdir` and `os.makedirs`
are built on them.

* `makedirsAux_rel`: what every `mkdir` keeps, `os.makedirs` keeps;
* `makedirs_ne_text`: it hands over the characters of its argument only.
-/

namespace Os

open Posix

/-- The errors of `os.mkdir` and `os.makedirs`: an `OSError`, of which `makedirs`
tells one apart, or a text that no system call takes. -/
inductive MkdirError where
  | eexist
  | other
  | text (s : Str)
  deriving DecidableEq, Repr

/-- What an entry is, before a symbolic link is looked through. -/
inductive FileType where
  | regular
  | directory
  | symlink
  /-- A FIFO, a socket or a device. -/
  | special
  deriving DecidableEq, Repr

/-- A file system with the states `T` and files that hold `C`.  A lookup starts in the
working directory `cwd`; `may p` says whether entries may be made in the directory `p`,
and `takes s` whether the text can be handed to a system call. -/
class FileSystem (T : Type*) (C : outParam Type*) where
  /-- What is at a path, symbolic links looked through. -/
  stat (t : T) (cwd : Path) (s : Str) : Option Kind
  /-- What is at a path itself. -/
  fileType (t : T) (cwd : Path) (s : Str) : Option FileType
  /-- `open(s, 'w').close()` where `data` is the empty file: create the file or empty
  it. -/
  openWrite (may : Path → Bool) (t : T) (cwd : Path) (s : Str) (data : C) : Option T
  /-- `os.mkdir`. -/
  mkdir (may : Path → Bool) (takes : Str → Bool) (t : T) (cwd : Path) (s : Str) :
    T × Except MkdirError Unit
  /-- Create a directory and each one on the way; what was made stays if one cannot be
  made. -/
  createDirectories (may : Path → Bool) (t : T) (cwd : Path) (s : Str) : T × Bool

/-- What a lookup finds after a change. -/
class LawfulFileSystem (T : Type*) {C : outParam Type*} [FileSystem T C] : Prop where
  /-- An absolute path is looked up from the root. -/
  stat_of_isabs {s : Str} (h : isabs s = true) (t : T) (cwd cwd' : Path) :
    FileSystem.stat t cwd s = FileSystem.stat t cwd' s
  /-- A missing file that is made is there. -/
  stat_openWrite {may : Path → Bool} {t t' : T} {cwd : Path} {s : Str} {data : C}
    (hmissing : FileSystem.stat t cwd s = none)
    (h : FileSystem.openWrite may t cwd s data = some t') :
    FileSystem.stat t' cwd s = some .file
  /-- A link that dangled is still a link. -/
  fileType_openWrite {may : Path → Bool} {t t' : T} {cwd : Path} {s : Str} {data : C}
    (hmissing : FileSystem.stat t cwd s = none)
    (h : FileSystem.openWrite may t cwd s data = some t') :
    FileSystem.fileType t' cwd s = some ((FileSystem.fileType t cwd s).getD .regular)
  /-- A text is refused only if it cannot be handed over. -/
  mkdir_ne_text {may : Path → Bool} {takes : Str → Bool} {t : T} {cwd : Path} {name : Str}
    (h : takes name = true) (s : Str) :
    (FileSystem.mkdir may takes t cwd name).2 ≠ .error (.text s)

variable {T : Type*} {C : Type*} [FileSystem T C]

/-! ## Looking -/

/-- `os.path.exists`. -/
def pathExists (t : T) (cwd : Path) (s : Str) : Bool := (FileSystem.stat t cwd s).isSome

/-- `os.path.isdir`. -/
def isdir (t : T) (cwd : Path) (s : Str) : Bool := FileSystem.stat t cwd s == some .dir

section Lawful

variable [LawfulFileSystem T]

theorem isdir_of_isabs {s : Str} (hs : isabs s = true) (t : T) (cwd cwd' : Path) :
    isdir t cwd s = isdir t cwd' s := by
  rw [isdir, isdir, LawfulFileSystem.stat_of_isabs hs t cwd cwd']

/-- Making a missing file changes the file system. -/
theorem ne_of_openWrite {may : Path → Bool} {t t' : T} {cwd : Path} {s : Str} {data : C}
    (hmissing : pathExists t cwd s = false)
    (h : FileSystem.openWrite may t cwd s data = some t') : t' ≠ t := by
  have hnone : FileSystem.stat t cwd s = none := by simpa [pathExists] using hmissing
  rintro rfl
  have hsome := LawfulFileSystem.stat_openWrite hnone h
  rw [hnone] at hsome
  cases hsome

end Lawful

/-! ## `os.makedirs` -/

/-- The head and tail that `os.makedirs` works with: those of `os.path.split`,
taken once more if the name ends in a slash. -/
def splitForMakedirs (name : Str) : Str × Str :=
  if basename name = [] then (dirname (dirname name), basename (dirname name))
  else (dirname name, basename name)

section Makedirs

variable (may : Path → Bool) (takes : Str → Bool)

/-- The recursion of `os.makedirs`; the name it recurs on is shorter, so its
length is enough fuel. -/
def makedirsAux : ℕ → T → Path → Str → T × Except MkdirError Unit
  | 0, t, _, _ => (t, .error .other)
  | fuel + 1, t, cwd, name =>
    let (head, tail) := splitForMakedirs name
    if head = [] ∨ tail = [] then FileSystem.mkdir may takes t cwd name
    else if takes head = false then (t, .error (.text head))
    else if pathExists t cwd head then FileSystem.mkdir may takes t cwd name
    else
      match makedirsAux fuel t cwd head with
      | (t', .ok ()) | (t', .error .eexist) =>
        if tail = dot then (t', .ok ()) else FileSystem.mkdir may takes t' cwd name
      | (t', .error e) => (t', .error e)

/-- `os.makedirs`. -/
def makedirs (t : T) (cwd : Path) (name : Str) : T × Except MkdirError Unit :=
  makedirsAux may takes (name.length + 1) t cwd name

variable {may takes}

/-- What every `mkdir` of the recursion of `os.makedirs` keeps, the recursion keeps:
`R` relates the states, and `N` the names it comes to have. -/
theorem makedirsAux_rel {R : T → T → Prop} (hrefl : ∀ t, R t t)
    (htrans : ∀ {t u v}, R t u → R u v → R t v) {N : Str → Prop}
    (hN : ∀ {name}, N name → (splitForMakedirs name).1 ≠ [] → N (splitForMakedirs name).1)
    {cwd : Path}
    (hmkdir : ∀ t {name}, N name → R t (FileSystem.mkdir may takes t cwd name).1) (fuel : ℕ)
    (t : T) {name : Str} (hname : N name) : R t (makedirsAux may takes fuel t cwd name).1 := by
  induction fuel generalizing t name with
  | zero => exact hrefl t
  | succ fuel ih =>
    rw [makedirsAux]
    split
    rename_i head tail hsplit
    by_cases hc : head = [] ∨ tail = []
    · rw [if_pos hc]
      exact hmkdir t hname
    rw [if_neg hc]
    rw [not_or] at hc
    split
    · exact hrefl t
    split
    · exact hmkdir t hname
    -- the directories above are made first
    have hhead := hN hname (by rw [hsplit]; exact hc.1)
    rw [hsplit] at hhead
    have hrec := ih t hhead
    have hlast : ∀ t', R t t' → R t (if tail = dot then (t', .ok ())
        else FileSystem.mkdir may takes t' cwd name : T × Except MkdirError Unit).1 := by
      intro t' ht'
      split
      · exact ht'
      · exact htrans ht' (hmkdir t' hname)
    split
    · rename_i t' heq
      rw [heq] at hrec
      exact hlast t' hrec
    · rename_i t' heq
      rw [heq] at hrec
      exact hlast t' hrec
    · rename_i t' e _ heq
      rw [heq] at hrec
      exact hrec

end Makedirs

end Os
