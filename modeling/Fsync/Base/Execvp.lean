import Fsync.Base.Links

/-!
# The search of a program in `$PATH`

The path that `execvp` executes for the name of a program: the name itself if it has
a slash, and else the first of the paths that the components of `$PATH` make of it, an
empty component being the working directory.

* `IsFirst`: the first element of a list with a property, the result of `find?`;
* `execvp_eq_some_iff`, `execvp_eq_none_iff`: what is found, and when nothing is.
-/

namespace Os

open Posix Links

/-! ## The first element with a property -/

/-- `x` is in the list and has the property, and no element in front of it has it. -/
def IsFirst {α : Type*} (p : α → Bool) (xs : List α) (x : α) : Prop :=
  ∃ pre post, xs = pre ++ x :: post ∧ p x = true ∧ ∀ y ∈ pre, p y = false

section First

variable {α β : Type*} {p : α → Bool} {xs : List α} {x : α}

theorem isFirst_iff : IsFirst p xs x ↔ xs.find? p = some x := by
  rw [List.find?_eq_some_iff_append]
  simp only [Bool.not_eq_eq_eq_not, Bool.not_true]
  constructor
  · rintro ⟨pre, post, hxs, hx, hpre⟩
    exact ⟨hx, pre, post, hxs, hpre⟩
  · rintro ⟨hx, pre, post, hxs, hpre⟩
    exact ⟨pre, post, hxs, hx, hpre⟩

theorem IsFirst.mem (h : IsFirst p xs x) : x ∈ xs := by
  obtain ⟨pre, post, rfl, -, -⟩ := h
  simp

theorem IsFirst.holds (h : IsFirst p xs x) : p x = true := by
  obtain ⟨_, _, _, hx, _⟩ := h
  exact hx

theorem IsFirst.unique {y : α} (h : IsFirst p xs x) (h' : IsFirst p xs y) : x = y :=
  Option.some.inj ((isFirst_iff.1 h).symm.trans (isFirst_iff.1 h'))

theorem isFirst_map {f : β → α} {ys : List β} : IsFirst p (ys.map f) x ↔
    ∃ pre y post, ys = pre ++ y :: post ∧ f y = x ∧ p (f y) = true ∧
      ∀ z ∈ pre, p (f z) = false := by
  rw [isFirst_iff, List.find?_map, Option.map_eq_some_iff]
  constructor
  · rintro ⟨y, hy, rfl⟩
    obtain ⟨pre, post, hys, hp, hpre⟩ := isFirst_iff.2 hy
    exact ⟨pre, y, post, hys, rfl, hp, hpre⟩
  · rintro ⟨pre, y, post, hys, rfl, hp, hpre⟩
    exact ⟨y, isFirst_iff.1 ⟨pre, post, hys, hp, hpre⟩, rfl⟩

end First

/-! ## `execvp` -/

/-- The path that a component of `$PATH` makes of a name. -/
def candidate (file dir : Str) : Str := if dir = [] then file else dir ++ '/' :: file

/-- The paths that `execvp` tries. -/
def candidates (searchPath file : Str) : List Str :=
  if '/' ∈ file then [file] else (searchPath.splitOn ':').map (candidate file)

/-- The path that `execvp` executes, if there is one; `program s` says whether the path
`s` leads to a program. -/
def execvp (program : Str → Bool) (searchPath file : Str) : Option Str :=
  (candidates searchPath file).find? program

section Search

variable {program : Str → Bool} {searchPath file s : Str}

theorem execvp_eq_some_iff : execvp program searchPath file = some s ↔
    IsFirst program (candidates searchPath file) s := isFirst_iff.symm

theorem execvp_eq_none_iff : execvp program searchPath file = none ↔
    ∀ s ∈ candidates searchPath file, program s = false := by
  rw [execvp, List.find?_eq_none]
  simp only [Bool.not_eq_true]

/-- A name with a slash is tried as it is. -/
theorem execvp_of_slash (h : '/' ∈ file) : execvp program searchPath file =
    if program file then some file else none := by
  rw [execvp, candidates, if_pos h, List.find?_singleton]

/-- For a bare name, the first component with a program is the one that counts. -/
theorem isFirst_candidates (hbare : '/' ∉ file) : IsFirst program (candidates searchPath file) s ↔
    ∃ pre dir post, searchPath.splitOn ':' = pre ++ dir :: post ∧ candidate file dir = s ∧
      program (candidate file dir) = true ∧ ∀ c ∈ pre, program (candidate file c) = false := by
  rw [candidates, if_neg hbare, isFirst_map]

theorem candidate_of_ne {dir : Str} (h : dir ≠ []) : candidate file dir = dir ++ '/' :: file :=
  if_neg h

end Search

/-! ## Programs of a file system -/

variable {C : Type*} {t : LinkFs C} {exec : Path → Bool} {cwd : Path} {s s' : Str}

/-- The path leads to a file that may be executed.  `exec q` says whether what is at a
place may be. -/
def runnable (t : LinkFs C) (exec : Path → Bool) (cwd : Path) (s : Str) : Bool :=
  match t.namei cwd s with
  | none => false
  | some q => t.kindAt q == some .file && exec q

theorem runnable_congr (h : t.namei cwd s = t.namei cwd s') :
    runnable t exec cwd s = runnable t exec cwd s' := by
  rw [runnable, runnable, h]

/-- A program is an entry. -/
theorem pathExists_of_runnable (h : runnable t exec cwd s = true) : pathExists t cwd s = true := by
  rw [runnable] at h
  split at h
  · cases h
  · rename_i q hq
    rw [Bool.and_eq_true, beq_iff_eq] at h
    show (t.stat cwd s).isSome = true
    rw [LinkFs.stat, hq, Option.bind_some, h.1]
    rfl

end Os
