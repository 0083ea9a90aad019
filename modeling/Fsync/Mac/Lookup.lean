import Fsync.Base.Execvp
import Fsync.Mac.AppDelegate

/-!
# The editor that the Mac launches

`launchEditor:` looks for an editor in `$PATH` with its own loop, where the Ubuntu server
leaves the search to `execvp`.  The loop stops at the first path that exists, be it a
directory or no program; it reads an empty component as the root; and it searches `$PATH`
for a relative name with a slash as well.

* `likeExecvp_iff`: when the program that is launched is the one that `execvp` executes, and
  nothing is found when it finds nothing (`FindsAlike`);
* `likeExecvp_bare_iff`: for a bare name and plain directories only, exactly if the first
  entry is a program;
* `directory_hides_the_editor`: launches that differ.
-/

namespace Fsync.Mac

open Posix Os Links

variable {env : EditorEnv} {exec : Path → Bool} {defaultPath editor arg : Str}
  {T : Type} [FileSystem T Bytes] {t : T} {s : App T}

/-! ## The search -/

/-- The paths that `searchFileInPath:searchPath:` tries. -/
def tried (env : EditorEnv) (filename : Str) : List Str :=
  match env.searchPath with
  | none => []
  | some searchPath => (searchPath.splitOn ':').map fun path => path ++ '/' :: filename

theorem searchFileInPath_eq (env : EditorEnv) (t : T) (filename : Str) :
    searchFileInPath env t filename =
      ((tried env filename).find? (pathExists t env.cwd)).map env.standardize := by
  rw [searchFileInPath, tried]
  cases env.searchPath with
  | none => rfl
  | some searchPath =>
    rw [List.find?_map, Option.map_map]
    rfl

theorem absEditorPath_eq_some (hrel : isabs editor = false) {path : Str} :
    absEditorPath env t editor = some path ↔
      ∃ p, IsFirst (pathExists t env.cwd) (tried env editor) p ∧ env.standardize p = path := by
  rw [absEditorPath, if_neg (by simp [hrel]), searchFileInPath_eq, Option.map_eq_some_iff]
  simp only [isFirst_iff]

theorem absEditorPath_eq_none (hrel : isabs editor = false) :
    absEditorPath env t editor = none ↔
      ∀ p ∈ tried env editor, pathExists t env.cwd p = false := by
  rw [absEditorPath, if_neg (by simp [hrel]), searchFileInPath_eq, Option.map_eq_none_iff,
    List.find?_eq_none]
  simp only [Bool.not_eq_true]

/-! ## The launch -/

/-- The state after the branch for an editor that was not found. -/
def App.notFound {T : Type} (s : App T) (editor : Str) : App T :=
  performOnMainThread .raiseLaunchAlert
    ("The executable '".toList ++ editor ++ "' was not found in the $PATH".toList) s

theorem launched_launchEditor {path : Str} :
    (launchEditor env editor arg s).launched = s.launched ++ [[path, arg]] ↔
      absEditorPath env s.tree editor = some path ∧ env.accessible path = true := by
  rw [launchEditor]
  cases hp : absEditorPath env s.tree editor with
  | none => simp [performOnMainThread]
  | some p =>
    by_cases hacc : env.accessible p = false
    · simp only [if_pos hacc, terminate]
      refine iff_of_false (by simp) ?_
      rintro ⟨hpath, htrue⟩
      rw [← Option.some.inj hpath, hacc] at htrue
      cases htrue
    · have hlaunched : (if env.terminationStatus ≠ 0 then
          performOnMainThread .raiseLaunchAlert env.stderr
            { s with launched := s.launched ++ [[p, arg]] }
          else { s with launched := s.launched ++ [[p, arg]] }).launched =
          s.launched ++ [[p, arg]] := by
        split <;> rfl
      simp only [if_neg hacc]
      rw [hlaunched]
      constructor
      · intro h
        have hp : p = path := by simpa using h
        exact ⟨congrArg some hp, by rw [← hp]; simpa using hacc⟩
      · rintro ⟨hpath, -⟩
        rw [Option.some.inj hpath]

theorem launchEditor_eq_notFound :
    launchEditor env editor arg s = s.notFound editor ↔ absEditorPath env s.tree editor = none := by
  constructor
  · intro h
    cases hp : absEditorPath env s.tree editor with
    | none => rfl
    | some path =>
      exfalso
      rw [launchEditor, hp] at h
      dsimp only at h
      split at h
      · have hqueue := congrArg (fun s : App T => s.queue.length) h
        simp [terminate, App.notFound, performOnMainThread] at hqueue
      · have hlaunched := congrArg (fun s : App T => s.launched.length) h
        split at hlaunched <;> simp [App.notFound, performOnMainThread] at hlaunched
  · intro h
    rw [launchEditor, h]
    rfl

/-! ## Agreement with `execvp` -/

section Agreement

variable {t : LinkFs Bytes} {s : App (LinkFs Bytes)}

/-- The Mac launches the program that `execvp` executes, and takes the branch for an
editor that was not found exactly when `execvp` finds none.  `defaultPath` is searched
where there is no `$PATH`. -/
structure LikeExecvp (env : EditorEnv) (exec : Path → Bool) (defaultPath editor arg : Str)
    (s : App (LinkFs Bytes)) : Prop where
  runs : ∀ program,
    execvp (runnable s.tree exec env.cwd) (env.searchPath.getD defaultPath) editor =
        some program →
      ∃ path, s.tree.namei env.cwd path = s.tree.namei env.cwd program ∧
        (launchEditor env editor arg s).launched = s.launched ++ [[path, arg]]
  notFound : launchEditor env editor arg s = s.notFound editor ↔
    execvp (runnable s.tree exec env.cwd) (env.searchPath.getD defaultPath) editor = none

/-- Standardizing may lead elsewhere: a tilde in front is expanded, and a `/private` in
front may be dropped, be it written or where a `..` leads. -/
def Rewritten (dir : Str) : Prop :=
  dir.head? = some '~' ∨ "private".toList ∈ dir.splitOn '/' ∨ dotdot ∈ dir.splitOn '/'

instance (dir : Str) : Decidable (Rewritten dir) := inferInstanceAs (Decidable (_ ∨ _ ∨ _))

/-- The path of an entry of any other directory leads to the same place after it was
standardized. -/
def KeepsPlace (env : EditorEnv) (t : LinkFs Bytes) : Prop :=
  ∀ dir name, dir ≠ [] → ¬ Rewritten dir → '/' ∉ name →
    pathExists t env.cwd (dir ++ '/' :: name) = true →
      t.namei env.cwd (env.standardize (dir ++ '/' :: name)) = t.namei env.cwd (dir ++ '/' :: name)

/-- The first component of `$PATH` with an entry for the editor is `dir`, and `pre` are
those before it. -/
structure FirstEntry (env : EditorEnv) (t : LinkFs Bytes) (editor : Str) (pre : List Str)
    (dir : Str) : Prop where
  split : ∃ searchPath post, env.searchPath = some searchPath ∧
    searchPath.splitOn ':' = pre ++ dir :: post
  entry : pathExists t env.cwd (dir ++ '/' :: editor) = true
  before : ∀ c ∈ pre, pathExists t env.cwd (c ++ '/' :: editor) = false

/-- The first component of a search path with a program for the bare name is `dir`, an
empty one being the working directory. -/
structure FirstProgram (program : Str → Bool) (searchPath editor dir : Str) : Prop where
  split : ∃ pre post, searchPath.splitOn ':' = pre ++ dir :: post ∧
    ∀ c ∈ pre, program (candidate editor c) = false
  holds : program (candidate editor dir) = true

/-- The condition for it. -/
inductive FindsAlike (env : EditorEnv) (exec : Path → Bool) (defaultPath : Str)
    (t : LinkFs Bytes) (editor : Str) : Prop
  /-- The absolute path of a program. -/
  | absolute (habs : isabs editor = true) (hrun : runnable t exec env.cwd editor = true)
  /-- No path that the Mac tries exists, and none that `execvp` tries is a program. -/
  | nowhere (hrel : isabs editor = false)
      (hentry : ∀ p ∈ tried env editor, pathExists t env.cwd p = false)
      (hprogram : ∀ p ∈ candidates (env.searchPath.getD defaultPath) editor,
        runnable t exec env.cwd p = false)
  /-- A relative path of a program, and the first component with an entry leads to the
  same file. -/
  | slash {pre : List Str} {dir : Str} (hrel : isabs editor = false) (hslash : '/' ∈ editor)
      (hentry : FirstEntry env t editor pre dir) (hrun : runnable t exec env.cwd editor = true)
      (hsame : t.namei env.cwd (env.standardize (dir ++ '/' :: editor)) =
        t.namei env.cwd editor)
  /-- The first component with an entry for a bare name is the name of a directory, and
  the entry is a program; if an empty component is before it, there is no other program of
  that name in the working directory. -/
  | named {pre : List Str} {dir : Str} (hbare : '/' ∉ editor)
      (hentry : FirstEntry env t editor pre dir) (hdir : dir ≠ []) (hkept : ¬ Rewritten dir)
      (hrun : runnable t exec env.cwd (dir ++ '/' :: editor) = true)
      (hcwd : [] ∈ pre → runnable t exec env.cwd editor = false ∨
        t.namei env.cwd editor = t.namei env.cwd (dir ++ '/' :: editor))
  /-- It is a component that the Mac reads in its own way, empty for the root or one that is
  rewritten: the first component with a program leads to the same file. -/
  | foreign {pre : List Str} {dir dir' : Str} (hbare : '/' ∉ editor)
      (hentry : FirstEntry env t editor pre dir) (hdir : dir = [] ∨ Rewritten dir)
      (hprogram : FirstProgram (runnable t exec env.cwd) (env.searchPath.getD defaultPath)
        editor dir')
      (hsame : t.namei env.cwd (env.standardize (dir ++ '/' :: editor)) =
        t.namei env.cwd (candidate editor dir'))

/-- Two elements of one list: they are at one place, or one is in front of the other. -/
theorem split_cases {α : Type} {pre pre' post post' : List α} {x y : α}
    (h : pre ++ x :: post = pre' ++ y :: post') : (pre = pre' ∧ x = y) ∨ x ∈ pre' ∨ y ∈ pre := by
  rcases List.append_eq_append_iff.1 h with ⟨l, rfl, hl⟩ | ⟨l, rfl, hl⟩
  · cases l with
    | nil => exact Or.inl ⟨(List.append_nil pre).symm, (List.cons.inj hl).1⟩
    | cons z l =>
      obtain ⟨rfl, -⟩ := List.cons.inj hl
      simp
  · cases l with
    | nil => exact Or.inl ⟨List.append_nil pre', ((List.cons.inj hl).1).symm⟩
    | cons z l =>
      obtain ⟨rfl, -⟩ := List.cons.inj hl
      simp

theorem firstEntry_of_isFirst {p : Str}
    (h : IsFirst (pathExists t env.cwd) (tried env editor) p) :
    ∃ pre dir, p = dir ++ '/' :: editor ∧ FirstEntry env t editor pre dir := by
  cases hpath : env.searchPath with
  | none =>
    rw [tried, hpath] at h
    exact absurd h.mem (by simp)
  | some searchPath =>
    rw [tried, hpath] at h
    obtain ⟨pre, dir, post, hsplit, rfl, hex, hpre⟩ := isFirst_map.1 h
    exact ⟨pre, dir, rfl, ⟨searchPath, post, hpath, hsplit⟩, hex, hpre⟩

theorem FirstEntry.isFirst {pre : List Str} {dir : Str} (h : FirstEntry env t editor pre dir) :
    IsFirst (pathExists t env.cwd) (tried env editor) (dir ++ '/' :: editor) := by
  obtain ⟨searchPath, post, hpath, hsplit⟩ := h.split
  rw [tried, hpath, isFirst_map]
  exact ⟨pre, dir, post, hsplit, rfl, h.entry, h.before⟩

theorem firstProgram_of_isFirst {program : Str → Bool} {searchPath p : Str} (hbare : '/' ∉ editor)
    (h : IsFirst program (candidates searchPath editor) p) :
    ∃ dir, p = candidate editor dir ∧ FirstProgram program searchPath editor dir := by
  obtain ⟨pre, dir, post, hsplit, rfl, hrun, hpre⟩ := (isFirst_candidates hbare).1 h
  exact ⟨dir, rfl, ⟨pre, post, hsplit, hpre⟩, hrun⟩

theorem FirstProgram.isFirst {program : Str → Bool} {searchPath dir : Str} (hbare : '/' ∉ editor)
    (h : FirstProgram program searchPath editor dir) :
    IsFirst program (candidates searchPath editor) (candidate editor dir) := by
  obtain ⟨pre, post, hsplit, hpre⟩ := h.split
  exact (isFirst_candidates hbare).2 ⟨pre, dir, post, hsplit, rfl, h.holds, hpre⟩

/-- Where the searches stop if the first entry is in a named directory: at that directory,
or at the working directory before it. -/
theorem FirstEntry.cases {pre : List Str} {dir dir' : Str}
    (h : FirstEntry env t editor pre dir) (hdir : dir ≠ [])
    (h' : FirstProgram (runnable t exec env.cwd) (env.searchPath.getD defaultPath) editor dir')
    (hrun : runnable t exec env.cwd (dir ++ '/' :: editor) = true) :
    dir' = dir ∨ (dir' = [] ∧ [] ∈ pre) := by
  obtain ⟨searchPath, post, hpath, hsplit⟩ := h.split
  obtain ⟨pre', post', hsplit', hpre'⟩ := h'.split
  rw [hpath, Option.getD_some, hsplit] at hsplit'
  rcases split_cases hsplit' with ⟨-, rfl⟩ | hmem | hmem
  · exact Or.inl rfl
  · -- the directory has a program
    have hno := hpre' dir hmem
    rw [candidate_of_ne hdir, hrun] at hno
    cases hno
  · by_cases h0 : dir' = []
    · exact Or.inr ⟨h0, h0 ▸ hmem⟩
    · have hex := pathExists_of_runnable h'.holds
      rw [candidate_of_ne h0, h.before dir' hmem] at hex
      cases hex

/-- What the two searches find: nothing, or two paths of one file. -/
theorem likeExecvp_iff_same
    (haccess : ∀ p, env.accessible p = runnable s.tree exec env.cwd p) :
    LikeExecvp env exec defaultPath editor arg s ↔
      (absEditorPath env s.tree editor = none ∧
        execvp (runnable s.tree exec env.cwd) (env.searchPath.getD defaultPath) editor = none) ∨
      ∃ path program, absEditorPath env s.tree editor = some path ∧
        execvp (runnable s.tree exec env.cwd) (env.searchPath.getD defaultPath) editor =
          some program ∧
        s.tree.namei env.cwd path = s.tree.namei env.cwd program := by
  constructor
  · rintro ⟨hruns, hnot⟩
    rw [launchEditor_eq_notFound] at hnot
    cases hx : execvp (runnable s.tree exec env.cwd) (env.searchPath.getD defaultPath) editor with
    | none => exact Or.inl ⟨hnot.2 hx, rfl⟩
    | some program =>
      obtain ⟨path, hsame, hlaunched⟩ := hruns program hx
      exact Or.inr ⟨path, program, (launched_launchEditor.1 hlaunched).1, rfl, hsame⟩
  · rintro (⟨hpath, hx⟩ | ⟨path, program, hpath, hx, hsame⟩)
    · refine ⟨fun program hx' => ?_, ?_⟩
      · rw [hx] at hx'
        cases hx'
      · rw [launchEditor_eq_notFound]
        exact iff_of_true hpath hx
    · refine ⟨fun program' hx' => ?_, ?_⟩
      · obtain rfl : program = program' := Option.some.inj (hx.symm.trans hx')
        refine ⟨path, hsame, launched_launchEditor.2 ⟨hpath, ?_⟩⟩
        rw [haccess, runnable_congr hsame]
        exact (execvp_eq_some_iff.1 hx).holds
      · rw [launchEditor_eq_notFound, hpath, hx]
        simp

/-- The condition holds where both searches find one file. -/
theorem findsAlike_of_same (hkeeps : KeepsPlace env t) {entry program : Str}
    (hrel : isabs editor = false) (hentry : IsFirst (pathExists t env.cwd) (tried env editor) entry)
    (hprogram : IsFirst (runnable t exec env.cwd)
      (candidates (env.searchPath.getD defaultPath) editor) program)
    (hsame : t.namei env.cwd (env.standardize entry) = t.namei env.cwd program) :
    FindsAlike env exec defaultPath t editor := by
  obtain ⟨pre, dir, rfl, hfirst⟩ := firstEntry_of_isFirst hentry
  by_cases hslash : '/' ∈ editor
  · rw [candidates, if_pos hslash] at hprogram
    obtain rfl := List.mem_singleton.1 hprogram.mem
    exact .slash hrel hslash hfirst hprogram.holds hsame
  obtain ⟨dir', rfl, hfirst'⟩ := firstProgram_of_isFirst hslash hprogram
  by_cases hdir : dir = [] ∨ Rewritten dir
  · exact .foreign hslash hfirst hdir hfirst' hsame
  rw [not_or] at hdir
  have hstd := hkeeps dir editor hdir.1 hdir.2 hslash hfirst.entry
  rw [hstd] at hsame
  have hrun : runnable t exec env.cwd (dir ++ '/' :: editor) = true := by
    rw [runnable_congr hsame]
    exact hfirst'.holds
  refine .named hslash hfirst hdir.1 hdir.2 hrun fun hempty => ?_
  rcases hfirst.cases hdir.1 hfirst' hrun with rfl | ⟨rfl, -⟩
  · -- the working directory comes first, and has no program
    left
    obtain ⟨searchPath, post, hpath, hsplit⟩ := hfirst.split
    obtain ⟨pre', post', hsplit', hpre'⟩ := hfirst'.split
    rw [hpath, Option.getD_some, hsplit] at hsplit'
    have hfront : [] ∈ pre' := by
      rcases split_cases hsplit' with ⟨rfl, -⟩ | hmem | hmem
      · exact hempty
      · have hno := hpre' _ hmem
        rw [hfirst'.holds] at hno
        cases hno
      · have hno := hfirst.before _ hmem
        rw [hfirst.entry] at hno
        cases hno
    exact hpre' [] hfront
  · exact Or.inr hsame.symm

theorem findsAlike_of_likeExecvp
    (haccess : ∀ p, env.accessible p = runnable s.tree exec env.cwd p)
    (hkeeps : KeepsPlace env s.tree) (h : LikeExecvp env exec defaultPath editor arg s) :
    FindsAlike env exec defaultPath s.tree editor := by
  by_cases habs : isabs editor = true
  · have hslash : '/' ∈ editor := by
      rw [isabs, beq_iff_eq] at habs
      exact List.mem_of_mem_head? habs
    rcases (likeExecvp_iff_same haccess).1 h with ⟨hpath, -⟩ | ⟨path, program, -, hx, -⟩
    · rw [absEditorPath, if_pos habs] at hpath
      cases hpath
    · rw [execvp_of_slash hslash] at hx
      split at hx
      · exact .absolute habs ‹_›
      · cases hx
  rw [Bool.not_eq_true] at habs
  rcases (likeExecvp_iff_same haccess).1 h with ⟨hpath, hx⟩ | ⟨path, program, hpath, hx, hsame⟩
  · exact .nowhere habs ((absEditorPath_eq_none habs).1 hpath) (execvp_eq_none_iff.1 hx)
  · obtain ⟨entry, hentry, rfl⟩ := (absEditorPath_eq_some habs).1 hpath
    exact findsAlike_of_same hkeeps habs hentry (execvp_eq_some_iff.1 hx) hsame

theorem likeExecvp_of_findsAlike
    (haccess : ∀ p, env.accessible p = runnable s.tree exec env.cwd p)
    (hkeeps : KeepsPlace env s.tree) (h : FindsAlike env exec defaultPath s.tree editor) :
    LikeExecvp env exec defaultPath editor arg s := by
  rw [likeExecvp_iff_same haccess]
  have hfound : ∀ {pre dir}, isabs editor = false → FirstEntry env s.tree editor pre dir →
      absEditorPath env s.tree editor = some (env.standardize (dir ++ '/' :: editor)) :=
    fun hrel hfirst => (absEditorPath_eq_some hrel).2 ⟨_, hfirst.isFirst, rfl⟩
  cases h with
  | absolute habs hrun =>
    have hslash : '/' ∈ editor := by
      rw [isabs, beq_iff_eq] at habs
      exact List.mem_of_mem_head? habs
    refine Or.inr ⟨editor, editor, by rw [absEditorPath, if_pos habs], ?_, rfl⟩
    rw [execvp_of_slash hslash, if_pos hrun]
  | nowhere hrel hentry hprogram =>
    exact Or.inl ⟨(absEditorPath_eq_none hrel).2 hentry, execvp_eq_none_iff.2 hprogram⟩
  | slash hrel hslash hentry hrun hsame =>
    refine Or.inr ⟨_, editor, hfound hrel hentry, ?_, hsame⟩
    rw [execvp_of_slash hslash, if_pos hrun]
  | @named pre dir hbare hentry hdir hkept hrun hcwd =>
    have hstd := hkeeps dir editor hdir hkept hbare hentry.entry
    obtain ⟨searchPath, post, hpath, hsplit⟩ := hentry.split
    cases hx : execvp (runnable s.tree exec env.cwd) (env.searchPath.getD defaultPath) editor with
    | none =>
      -- the entry is one of the programs
      have hno := execvp_eq_none_iff.1 hx (candidate editor dir) (by
        rw [candidates, if_neg hbare, hpath, Option.getD_some, hsplit]
        simp)
      rw [candidate_of_ne hdir, hrun] at hno
      cases hno
    | some program =>
      refine Or.inr ⟨_, program, hfound (isabs_of_notMem hbare) hentry, rfl, ?_⟩
      obtain ⟨dir', rfl, hfirst'⟩ := firstProgram_of_isFirst hbare (execvp_eq_some_iff.1 hx)
      rw [hstd]
      rcases hentry.cases hdir hfirst' hrun with rfl | ⟨rfl, hempty⟩
      · rw [candidate_of_ne hdir]
      · have hholds := hfirst'.holds
        rw [candidate, if_pos rfl] at hholds ⊢
        rcases hcwd hempty with hno | hsame
        · rw [hholds] at hno
          cases hno
        · exact hsame.symm
  | foreign hbare hentry hdir hprogram hsame =>
    exact Or.inr ⟨_, _, hfound (isabs_of_notMem hbare) hentry,
      execvp_eq_some_iff.2 (hprogram.isFirst hbare), hsame⟩

/-- For a bare name and a `$PATH` of plain directories: the search is right exactly if the
first entry it meets is a program. -/
theorem likeExecvp_bare_iff {searchPath : Str}
    (haccess : ∀ p, env.accessible p = runnable s.tree exec env.cwd p)
    (hkeeps : KeepsPlace env s.tree) (hbare : '/' ∉ editor)
    (hpath : env.searchPath = some searchPath)
    (hplain : ∀ dir ∈ searchPath.splitOn ':', dir ≠ [] ∧ ¬ Rewritten dir) :
    LikeExecvp env exec defaultPath editor arg s ↔
      ∀ pre dir, FirstEntry env s.tree editor pre dir →
        runnable s.tree exec env.cwd (dir ++ '/' :: editor) = true := by
  have hmem : ∀ {pre dir}, FirstEntry env s.tree editor pre dir → dir ∈ searchPath.splitOn ':' := by
    intro pre dir h
    obtain ⟨searchPath', post, hpath', hsplit⟩ := h.split
    obtain rfl := Option.some.inj (hpath.symm.trans hpath')
    rw [hsplit]
    simp
  refine ⟨fun hlike => ?_, fun h => likeExecvp_of_findsAlike haccess hkeeps ?_⟩
  · intro pre dir hfirst
    have hunique : ∀ {pre' dir'}, FirstEntry env s.tree editor pre' dir' →
        dir' ++ '/' :: editor = dir ++ '/' :: editor :=
      fun h' => h'.isFirst.unique hfirst.isFirst
    cases findsAlike_of_likeExecvp haccess hkeeps hlike with
    | absolute habs =>
      rw [isabs_of_notMem hbare] at habs
      cases habs
    | nowhere _ hentry =>
      have hno := hentry _ hfirst.isFirst.mem
      rw [hfirst.entry] at hno
      cases hno
    | slash _ hslash => exact absurd hslash hbare
    | named _ hentry _ _ hrun => exact hunique hentry ▸ hrun
    | foreign _ hentry hdir =>
      have hno := hplain _ (hmem hentry)
      exact absurd hdir (not_or.2 hno)
  · cases hx : (tried env editor).find? (pathExists s.tree env.cwd) with
    | none =>
      have hentry : ∀ p ∈ tried env editor, pathExists s.tree env.cwd p = false := by
        simpa using List.find?_eq_none.1 hx
      refine .nowhere (isabs_of_notMem hbare) hentry ?_
      rw [hpath, Option.getD_some, candidates, if_neg hbare]
      intro p hp
      obtain ⟨c, hc, rfl⟩ := List.mem_map.1 hp
      rw [candidate_of_ne (hplain c hc).1, Bool.eq_false_iff]
      intro hrun
      have hex := pathExists_of_runnable hrun
      rw [hentry _ (by rw [tried, hpath]; exact List.mem_map_of_mem hc)] at hex
      cases hex
    | some p =>
      obtain ⟨pre, dir, rfl, hfirst⟩ := firstEntry_of_isFirst (isFirst_iff.2 hx)
      have hdir := hplain dir (hmem hfirst)
      refine .named hbare hfirst hdir.1 hdir.2 (h pre dir hfirst) fun hempty => ?_
      obtain ⟨searchPath', post, hpath', hsplit⟩ := hfirst.split
      obtain rfl := Option.some.inj (hpath.symm.trans hpath')
      exact absurd rfl (hplain [] (by rw [hsplit]; simp [hempty])).1

end Agreement

end Fsync.Mac
