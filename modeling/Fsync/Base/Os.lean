import Fsync.Base.FileSystem

/-!
# Looking at and changing a file tree by path strings

How the operating system reads a path string in a file tree, and the calls that
the programs make: `os.path.exists`, `os.path.isdir`, `open(path, 'w')`,
`os.mkdir` and `os.makedirs` of Python, and the creation of a directory together
with the directories above it of Cocoa.

A path is walked component by component, each time from a place that is a
directory: a path that runs through a missing place or through a file leads
nowhere, and so does `'f/'` for a file `f`.  A symbolic link is looked through
where it ends a path (`stat`); inside a path only real directories are walked, so this
is the file system for what does not depend on links to directories.  Where they lead
is walked in `Fsync.Base.Links`.

* `namei_eq`: a walk that succeeds ends where the string says, that is at the
  names that are left when `'.'` and `'..'` have been taken into account;
* `namei_of_dir`, `namei_of_name`: an absolute string without `'..'` is walked
  to the end if the directories are there;
* `namei_abspath`: so a path and its `abspath` are the same place.
-/

namespace Os

open Posix

variable {C : Type*}

/-- A file tree of an operating system: names are strings. -/
abbrev FileTree (C : Type*) := DirTree Str C

/-! ## Path lookup -/

/-- One component of a walk, from the place `cur`. -/
def enter (t : FileTree C) (cur : Path) (c : Str) : Option Path :=
  if t.isDir cur then
    some (if c = [] ∨ c = dot then cur else if c = dotdot then cur.dropLast else cur ++ [c])
  else none

/-- The walk of a list of components. -/
def walk (t : FileTree C) : Path → List Str → Option Path
  | cur, [] => some cur
  | cur, c :: cs => (enter t cur c).bind fun cur' => walk t cur' cs

/-- The place a path string leads to for a process in the directory `cwd`.  The
place itself may be unused, the place above it is a directory. -/
def namei (t : FileTree C) (cwd : Path) (s : Str) : Option Path :=
  if s = [] then none else walk t (if isabs s then [] else cwd) (s.splitOn '/')

/-- What is at a path, symbolic links not looked through. -/
def lstat (t : FileTree C) (cwd : Path) (s : Str) : Option (Entry C) :=
  (namei t cwd s).bind t.node

/-- What a look through the entry finds. -/
def follow : Entry C → Option Kind
  | .file _ => some .file
  | .dir => some .dir
  | .symlink leadsTo => leadsTo

/-- What the entry is. -/
def type : Entry C → FileType
  | .file _ => .regular
  | .dir => .directory
  | .symlink _ => .symlink

/-- What is at a path. -/
def stat (t : FileTree C) (cwd : Path) (s : Str) : Option Kind := (lstat t cwd s).bind follow

/-! ## Changing the tree -/

section Change

variable (may : Path → Bool) (takes : Str → Bool)

/-- `open(s, 'w').close()` where `data` is the empty file: create the file or
empty it.  `may p` says whether entries may be made in the directory `p`. -/
def openWrite (t : FileTree C) (cwd : Path) (s : Str) (data : C) : Option (FileTree C) :=
  match namei t cwd s with
  | none => none
  | some q =>
    match t.node q with
    | none => if may q.dropLast then some (t.put q (.file data)) else none
    | some (.file _) => some (t.put q (.file data))
    | some (.symlink none) => some (t.put q (.symlink (some .file)))
    | some (.symlink (some .file)) => some t
    | some (.symlink (some .dir)) => none
    | some .dir => none

/-- `os.mkdir`.  `takes s` says whether the text can be handed to a system call. -/
def mkdir (t : FileTree C) (cwd : Path) (s : Str) : FileTree C × Except MkdirError Unit :=
  if takes s = false then (t, .error (.text s))
  else
    match namei t cwd (if rstripSlash s = [] then s else rstripSlash s) with
    | none => (t, .error .other)
    | some q =>
      if (t.node q).isSome then (t, .error .eexist)
      else if may q.dropLast then (t.put q .dir, .ok ()) else (t, .error .other)

/-- Create the directory at the end of the components, from the place `cur`,
and each one on the way; stop at the first that cannot be made. -/
def createDirectories : FileTree C → Path → List Str → FileTree C × Bool
  | t, _, [] => (t, true)
  | t, cur, c :: cs =>
    -- the place to start from may be gone
    if t.isDir cur = false then (t, false)
    else if c = [] ∨ c = dot then createDirectories t cur cs
    else if c = dotdot then createDirectories t cur.dropLast cs
    else
      match t.node (cur ++ [c]) with
      | some .dir => createDirectories t (cur ++ [c]) cs
      | some _ => (t, false)
      | none =>
        if may cur then createDirectories (t.put (cur ++ [c]) .dir) (cur ++ [c]) cs
        else (t, false)

end Change

instance : FileSystem (FileTree C) C where
  stat := stat
  fileType t cwd s := (lstat t cwd s).map type
  openWrite := openWrite
  mkdir := mkdir
  createDirectories may t cwd s :=
    createDirectories may t (if isabs s then [] else cwd) (s.splitOn '/')

/-! ## Where a walk ends -/

theorem enter_eq_some {t : FileTree C} {cur q : Path} {c : Str} :
    enter t cur c = some q ↔ t.node cur = some .dir ∧
      q = if c = [] ∨ c = dot then cur else if c = dotdot then cur.dropLast else cur ++ [c] := by
  rw [enter, ← DirTree.isDir_iff]
  split
  · rename_i h
    rw [h, Option.some.injEq, eq_comm]
    simp
  · rename_i h
    simp [h]

theorem walk_append (t : FileTree C) (cur : Path) (cs ds : List Str) :
    walk t cur (cs ++ ds) = (walk t cur cs).bind fun q => walk t q ds := by
  induction cs generalizing cur with
  | nil => rfl
  | cons c cs ih =>
    rw [List.cons_append, walk, walk]
    cases h : enter t cur c with
    | none => rfl
    | some q => simpa using ih q

/-- A step of a walk moves as the loop of `normpath` does. -/
theorem enter_eq_pushComp {t : FileTree C} {cur q : Path} {c : Str}
    (hcur : ∀ x ∈ cur, IsName x) (hc : '/' ∉ c) (h : enter t cur c = some q) :
    q = pushComp true cur c := by
  obtain ⟨-, rfl⟩ := enter_eq_some.1 h
  by_cases h0 : c = [] ∨ c = dot
  · rw [if_pos h0, pushComp, if_pos h0]
  · rw [if_neg h0]
    by_cases hd : c = dotdot
    · rw [if_pos hd, hd, pushComp_dotdot fun x hx => (hcur x hx).2.2.1]
    · rw [not_or] at h0
      rw [if_neg hd, pushComp_name true cur ⟨h0.1, h0.2, hd, hc⟩]

theorem walk_eq_foldl {t : FileTree C} {cs : List Str} {cur q : Path}
    (hcur : ∀ x ∈ cur, IsName x) (hcs : ∀ c ∈ cs, '/' ∉ c) (h : walk t cur cs = some q) :
    q = cs.foldl (pushComp true) cur := by
  induction cs generalizing cur with
  | nil => exact (Option.some.inj h).symm
  | cons c cs ih =>
    obtain ⟨r, hr, hrest⟩ := Option.bind_eq_some_iff.1 h
    have hr' := enter_eq_pushComp hcur (hcs c (by simp)) hr
    subst hr'
    rw [List.foldl_cons]
    exact ih (pushComp_names hcur (hcs c (by simp))) (fun d hd => hcs d (by simp [hd])) hrest

/-- **A path leads where it says.** -/
theorem namei_eq {t : FileTree C} {cwd q : Path} {s : Str} (hcwd : ∀ x ∈ cwd, IsName x)
    (h : namei t cwd s = some q) : q = absCompsFrom cwd s := by
  rw [namei] at h
  split at h
  · cases h
  · refine walk_eq_foldl ?_ (slash_notMem_splitOn s) h
    split
    · simp
    · exact hcwd

/-- The place a step of a walk reaches is the root or in a directory. -/
theorem enter_parent {t : FileTree C} {cur q : Path} {c : Str} (h : enter t cur c = some q) :
    q = [] ∨ t.node q.dropLast = some .dir := by
  obtain ⟨hdir, rfl⟩ := enter_eq_some.1 h
  have hup : ∀ p : Path, p <+: cur → p = [] ∨ t.node p.dropLast = some .dir := by
    intro p hp
    by_cases h0 : p = []
    · exact Or.inl h0
    · refine Or.inr (t.dir_of_isPrefix ((List.dropLast_prefix p).trans hp) ?_ (by rw [hdir]; rfl))
      intro he
      have hlen := hp.length_le
      rw [← he, List.length_dropLast] at hlen
      exact h0 (List.eq_nil_of_length_eq_zero (by omega))
  split
  · exact hup cur (List.prefix_refl _)
  · split
    · exact hup _ (List.dropLast_prefix cur)
    · right; rwa [List.dropLast_concat]

theorem walk_parent {t : FileTree C} {cs : List Str} {cur q : Path} (hne : cs ≠ [])
    (h : walk t cur cs = some q) : q = [] ∨ t.node q.dropLast = some .dir := by
  induction cs generalizing cur with
  | nil => exact absurd rfl hne
  | cons c cs ih =>
    obtain ⟨r, hr, hrest⟩ := Option.bind_eq_some_iff.1 h
    by_cases hcs : cs = []
    · subst hcs
      rw [← Option.some.inj hrest]
      exact enter_parent hr
    · exact ih hcs hrest

/-- The place a path leads to is the root or in a directory. -/
theorem namei_parent {t : FileTree C} {cwd q : Path} {s : Str} (h : namei t cwd s = some q) :
    q = [] ∨ t.node q.dropLast = some .dir := by
  rw [namei] at h
  split at h
  · cases h
  · exact walk_parent (List.splitOn_ne_nil _ _) h

/-! ## Walks that succeed -/

/-- A walk without `'..'` that stays among directories reaches its end. -/
theorem walk_of_dir {t : FileTree C} {cs : List Str} {cur : Path} (hdd : dotdot ∉ cs)
    (hdir : t.node (cs.foldl (pushComp true) cur) = some .dir) :
    walk t cur cs = some (cs.foldl (pushComp true) cur) := by
  induction cs generalizing cur with
  | nil => rfl
  | cons c cs ih =>
    have hcur : t.node cur = some .dir := by
      have hpre := prefix_foldl_pushComp hdd cur
      by_cases he : cur = (c :: cs).foldl (pushComp true) cur
      · rw [he]; exact hdir
      · exact t.dir_of_isPrefix hpre he (by rw [hdir]; rfl)
    rw [List.mem_cons, not_or] at hdd
    have hpush := pushComp_of_ne_dotdot cur (Ne.symm hdd.1)
    rw [walk, enter, if_pos (DirTree.isDir_iff.2 hcur), if_neg (Ne.symm hdd.1), ← hpush,
      Option.bind_some]
    exact ih hdd.2 hdir

/-- A string without `'..'` is walked to the end if the end is a directory. -/
theorem namei_of_dir {t : FileTree C} {cwd : Path} {s : Str} (hs : s ≠ [])
    (hdd : dotdot ∉ s.splitOn '/') (hdir : t.node (absCompsFrom cwd s) = some .dir) :
    namei t cwd s = some (absCompsFrom cwd s) := by
  rw [namei, if_neg hs]
  exact walk_of_dir hdd hdir

/-- A string without `'..'` that ends in a name is walked to the end if the end
is in a directory. -/
theorem namei_of_name {t : FileTree C} {cwd p : Path} {s : Str} {cs : List Str} {n : Str}
    (hs : s ≠ []) (hsplit : s.splitOn '/' = cs ++ [n]) (hdd : dotdot ∉ cs) (hn : IsName n)
    (hp : cs.foldl (pushComp true) (if isabs s then [] else cwd) = p)
    (hdir : t.node p = some .dir) : namei t cwd s = some (p ++ [n]) := by
  rw [namei, if_neg hs, hsplit, walk_append, walk_of_dir hdd (by rw [hp]; exact hdir), hp,
    Option.bind_some, walk, enter, if_pos (DirTree.isDir_iff.2 hdir),
    if_neg (not_or.2 ⟨hn.1, hn.2.1⟩), if_neg hn.2.2.1]
  rfl

/-- A string without `'..'` that ends in a name is walked to the end if something is there. -/
theorem namei_of_node {t : FileTree C} {cwd : Path} {s : Str} {e : Entry C}
    (hdd : dotdot ∉ s.splitOn '/') (hb : IsName (basename s))
    (h : t.node (absCompsFrom cwd s) = some e) : namei t cwd s = some (absCompsFrom cwd s) := by
  have hs : s ≠ [] := by
    rintro rfl
    exact hb.1 rfl
  obtain ⟨cs, hcs⟩ := splitOn_basename s
  have hplace : absCompsFrom cwd s =
      cs.foldl (pushComp true) (if isabs s then [] else cwd) ++ [basename s] := by
    rw [absCompsFrom, hcs, List.foldl_append, List.foldl_cons, List.foldl_nil,
      pushComp_name true _ hb]
  rw [hcs, List.mem_append, not_or] at hdd
  rw [hplace] at h ⊢
  exact namei_of_name hs hcs hdd.1 hb rfl (t.dir_of_concat h)

/-- **A path and its `abspath` are the same place**, whether it is in use or not. -/
theorem namei_abspath {t : FileTree C} {cwd q : Path} {s : Str} (hcwd : ∀ x ∈ cwd, IsName x)
    (h : namei t cwd s = some q) (cwd' : Path) :
    namei t cwd' (abspath (toStr cwd) s) = some q := by
  obtain rfl := namei_eq hcwd h
  have hne : abspath (toStr cwd) s ≠ [] := by
    intro hc
    have habs := isabs_abspath hcwd s
    rw [hc] at habs
    cases habs
  have hfrom : absCompsFrom cwd' (abspath (toStr cwd) s) = absCompsFrom cwd s := by
    rw [← absComps_abspath hcwd s, absCompsFrom, if_pos (isabs_abspath hcwd s), absComps]
  by_cases h0 : absCompsFrom cwd s = []
  · rw [← hfrom]
    refine namei_of_dir hne (dotdot_notMem_abspath hcwd s) ?_
    rw [hfrom, h0, t.root]
  · have hdir := (namei_parent h).resolve_left h0
    have hlast := List.dropLast_append_getLast h0
    have hnames := absCompsFrom_names hcwd s
    have hinit : ∀ c ∈ (absCompsFrom cwd s).dropLast, IsName c :=
      fun c hc => hnames c (List.mem_of_mem_dropLast hc)
    obtain ⟨k, hk⟩ := splitOn_abspath hcwd s
    rw [if_neg h0, ← hlast, ← List.append_assoc] at hk
    have hdd : dotdot ∉ List.replicate k [] ++ (absCompsFrom cwd s).dropLast := by
      rw [List.mem_append, not_or]
      exact ⟨fun hm => absurd (List.eq_of_mem_replicate hm) (by decide),
        fun hm => (hinit _ hm).2.2.1 rfl⟩
    rw [namei_of_name hne hk hdd (hnames _ (List.getLast_mem h0)) ?_ hdir, hlast]
    rw [if_pos (isabs_abspath hcwd s), List.foldl_append, foldl_pushComp_replicate_nil,
      foldl_pushComp_of_names true [] hinit, List.nil_append]

theorem enter_dir {t : FileTree C} {cur q : Path} {c : Str} (hc : c = [] ∨ c = dot ∨ c = dotdot)
    (h : enter t cur c = some q) : t.node q = some .dir := by
  obtain ⟨hdir, rfl⟩ := enter_eq_some.1 h
  split
  · exact hdir
  · rename_i h0
    rw [not_or] at h0
    rw [if_pos ((hc.resolve_left h0.1).resolve_left h0.2)]
    by_cases hcur : cur.dropLast = cur
    · rw [hcur]; exact hdir
    · exact t.dir_of_isPrefix (List.dropLast_prefix cur) hcur (by rw [hdir]; rfl)

/-- What a string leads to that ends in a slash, `'.'` or `'..'` is a directory. -/
theorem node_of_basename {t : FileTree C} {cwd q : Path} {s : Str}
    (hb : basename s = [] ∨ basename s = dot ∨ basename s = dotdot)
    (h : namei t cwd s = some q) : t.node q = some .dir := by
  obtain ⟨cs, hcs⟩ := splitOn_basename s
  rw [namei] at h
  split at h
  · cases h
  · rw [hcs, walk_append] at h
    obtain ⟨r, -, hr⟩ := Option.bind_eq_some_iff.1 h
    obtain ⟨q', hq', hrest⟩ := Option.bind_eq_some_iff.1 hr
    cases hrest
    exact enter_dir hb hq'

/-! ## Looking again -/

theorem namei_of_isabs {s : Str} (hs : isabs s = true) (t : FileTree C) (cwd cwd' : Path) :
    namei t cwd s = namei t cwd' s := by
  rw [namei, namei, if_pos hs, if_pos hs]

theorem pathExists_eq (t : FileTree C) (cwd : Path) (s : Str) :
    pathExists t cwd s = (stat t cwd s).isSome := rfl

theorem isdir_eq (t : FileTree C) (cwd : Path) (s : Str) :
    isdir t cwd s = (stat t cwd s == some .dir) := rfl

theorem pathExists_iff {t : FileTree C} {cwd : Path} {s : Str} :
    pathExists t cwd s = true ↔
      ∃ q e, namei t cwd s = some q ∧ t.node q = some e ∧ (follow e).isSome = true := by
  rw [pathExists_eq, stat, lstat]
  cases namei t cwd s with
  | none => simp
  | some q => cases h : t.node q <;> simp [h]

theorem walk_mono {t t' : FileTree C} (h : ∀ p, t.node p = some .dir → t'.node p = some .dir)
    {cs : List Str} {cur q : Path} (hw : walk t cur cs = some q) : walk t' cur cs = some q := by
  induction cs generalizing cur with
  | nil => exact hw
  | cons c cs ih =>
    obtain ⟨r, hr, hrest⟩ := Option.bind_eq_some_iff.1 hw
    obtain ⟨hdir, hstep⟩ := enter_eq_some.1 hr
    rw [walk, enter_eq_some.2 ⟨h cur hdir, hstep⟩]
    exact ih hrest

/-- A path still leads where it led if the directories are still there. -/
theorem namei_mono {t t' : FileTree C} (h : ∀ p, t.node p = some .dir → t'.node p = some .dir)
    {cwd q : Path} {s : Str} (hn : namei t cwd s = some q) : namei t' cwd s = some q := by
  rw [namei] at hn ⊢
  split at hn
  · cases hn
  · rename_i hs
    rw [if_neg hs]
    exact walk_mono h hn

/-! ## What making directories changes -/

/-- From `t` to `t'` the only change is that places on the way to `q` that were
unused have become directories. -/
def OnlyMakes (t t' : FileTree C) (q : Path) : Prop :=
  ∀ p, t'.node p = t.node p ∨ (t.node p = none ∧ t'.node p = some .dir ∧ p <+: q)

theorem OnlyMakes.refl (t : FileTree C) (q : Path) : OnlyMakes t t q := DirTree.Made.refl _ t

theorem OnlyMakes.mono {t t' : FileTree C} {p q : Path} (h : OnlyMakes t t' p) (hpq : p <+: q) :
    OnlyMakes t t' q := DirTree.Made.mono h fun _ hr => hr.trans hpq

theorem OnlyMakes.trans {t u v : FileTree C} {q : Path} (h : OnlyMakes t u q)
    (h' : OnlyMakes u v q) : OnlyMakes t v q := DirTree.Made.trans h h'

variable {may : Path → Bool} {takes : Str → Bool}

theorem onlyMakes_put {t : FileTree C} {q : Path} (hq : t.node q = none) :
    OnlyMakes t (t.put q .dir) q := DirTree.made_put hq (List.prefix_refl q)

theorem onlyMakes_mkdir (t : FileTree C) {cwd : Path} (hcwd : ∀ x ∈ cwd, IsName x) (s : Str) :
    OnlyMakes t (mkdir may takes t cwd s).1 (absCompsFrom cwd s) := by
  rw [mkdir]
  split
  · exact OnlyMakes.refl t _
  set s' := if rstripSlash s = [] then s else rstripSlash s with hs'
  have hplace : absCompsFrom cwd s' = absCompsFrom cwd s := by
    rw [hs']
    split
    · rfl
    · rename_i hne
      obtain ⟨k, hk⟩ := rstripSlash_spec s
      conv_rhs => rw [hk]
      exact (absCompsFrom_append_replicate cwd hne k).symm
  split
  · exact OnlyMakes.refl t _
  · rename_i q hq
    have hq' : q = absCompsFrom cwd s := (namei_eq hcwd hq).trans hplace
    split
    · exact OnlyMakes.refl t _
    · rename_i hfree
      split
      · rw [← hq']
        exact onlyMakes_put (by simpa using hfree)
      · exact OnlyMakes.refl t _

theorem splitForMakedirs_isPrefix (cwd : Path) {name : Str} (hdd : dotdot ∉ name.splitOn '/')
    (hne : (splitForMakedirs name).1 ≠ []) :
    dotdot ∉ (splitForMakedirs name).1.splitOn '/' ∧
      absCompsFrom cwd (splitForMakedirs name).1 <+: absCompsFrom cwd name := by
  rw [splitForMakedirs] at hne ⊢
  split at hne
  · rename_i hb
    rw [if_pos hb]
    have hne' : dirname name ≠ [] := by
      intro h0
      rw [h0] at hne
      exact hne rfl
    obtain ⟨hd1, hp1⟩ := absCompsFrom_dirname_isPrefix cwd hdd hne'
    obtain ⟨hd2, hp2⟩ := absCompsFrom_dirname_isPrefix cwd hd1 hne
    exact ⟨hd2, hp2.trans hp1⟩
  · rename_i hb
    rw [if_neg hb]
    exact absCompsFrom_dirname_isPrefix cwd hdd hne

/-- `os.makedirs` only makes directories on the way to its argument. -/
theorem onlyMakes_makedirs {cwd : Path} (hcwd : ∀ x ∈ cwd, IsName x) (t : FileTree C)
    {name : Str} (hdd : dotdot ∉ name.splitOn '/') :
    OnlyMakes t (makedirs may takes t cwd name).1 (absCompsFrom cwd name) := by
  refine makedirsAux_rel (R := fun t u => OnlyMakes t u (absCompsFrom cwd name))
    (N := fun n => dotdot ∉ n.splitOn '/' ∧ absCompsFrom cwd n <+: absCompsFrom cwd name)
    (fun t => OnlyMakes.refl t _) OnlyMakes.trans ?_
    (fun t n hn => (onlyMakes_mkdir t hcwd n).mono hn.2) _ t ⟨hdd, List.prefix_refl _⟩
  intro n hn hne
  obtain ⟨hdd', hpre⟩ := splitForMakedirs_isPrefix cwd hn.1 hne
  exact ⟨hdd', hpre.trans hn.2⟩

theorem onlyMakes_createDirectories (t : FileTree C) {cs : List Str} {cur : Path}
    (hdd : dotdot ∉ cs) :
    OnlyMakes t (createDirectories may t cur cs).1 (cs.foldl (pushComp true) cur) := by
  induction cs generalizing t cur with
  | nil => exact OnlyMakes.refl t _
  | cons c cs ih =>
    have hpre := prefix_foldl_pushComp hdd cur
    rw [List.mem_cons, not_or] at hdd
    rw [createDirectories, List.foldl_cons, pushComp_of_ne_dotdot cur (Ne.symm hdd.1)]
    split
    · exact OnlyMakes.refl t _
    by_cases h0 : c = [] ∨ c = dot
    · rw [if_pos h0, if_pos h0]
      exact ih t hdd.2
    · rw [if_neg h0, if_neg h0, if_neg (Ne.symm hdd.1)]
      split
      · exact ih t hdd.2
      · exact OnlyMakes.refl t _
      · rename_i hfree
        split
        · exact ((onlyMakes_put hfree).mono (prefix_foldl_pushComp hdd.2 _)).trans (ih _ hdd.2)
        · exact OnlyMakes.refl t _

/-- `os.mkdir` and `os.makedirs` are handed the characters of the name only. -/
theorem mkdir_ne_text {t : FileTree C} {cwd : Path} {name : Str} (h : takes name = true) (s : Str) :
    (mkdir may takes t cwd name).2 ≠ .error (.text s) := by
  rw [mkdir, h, if_neg (by simp)]
  split
  · simp
  · split
    · simp
    · split <;> simp

/-! ## Touching a path where nothing is -/

/-- What `openWrite` writes for a path that does not exist, and where: the place is
unused or holds a link that dangles. -/
theorem openWrite_of_missing {t t' : FileTree C} {cwd : Path} {s : Str} {data : C}
    (hmissing : pathExists t cwd s = false) (h : openWrite may t cwd s data = some t') :
    ∃ q e, namei t cwd s = some q ∧ t.Fits q e ∧ t' = t.put q e ∧
      ((t.node q = none ∧ e = .file data) ∨
        (t.node q = some (.symlink none) ∧ e = .symlink (some .file))) := by
  rw [openWrite] at h
  cases hq : namei t cwd s with
  | none => rw [hq] at h; cases h
  | some q =>
    rw [hq] at h
    dsimp only at h
    have hseen : ∀ e, t.node q = some e → follow e = none := by
      intro e he
      by_contra hne
      have hex := pathExists_iff.2 ⟨q, e, hq, he, Option.isSome_iff_ne_none.2 hne⟩
      rw [hmissing] at hex
      cases hex
    have hdir : t.node q ≠ some .dir := fun hd => by cases hseen _ hd
    have hq0 : q ≠ [] := by
      rintro rfl
      exact hdir t.root
    have hfits : ∀ e, t.Fits q e := fun e =>
      ⟨hq0, (namei_parent hq).resolve_left hq0, fun hd => absurd hd hdir⟩
    cases hn : t.node q with
    | none =>
      rw [hn] at h
      dsimp only at h
      split at h
      · exact ⟨q, .file data, rfl, hfits _, (Option.some.inj h).symm, Or.inl ⟨hn, rfl⟩⟩
      · cases h
    | some e =>
      rw [hn] at h
      cases e with
      | file c => cases hseen _ hn
      | dir => exact absurd hn hdir
      | symlink l =>
        obtain rfl : l = none := hseen _ hn
        exact ⟨q, .symlink (some .file), rfl, hfits _, (Option.some.inj h).symm,
          Or.inr ⟨hn, rfl⟩⟩

/-- What is then at the path itself. -/
theorem lstat_openWrite {t t' : FileTree C} {cwd : Path} {s : Str} {data : C}
    (hmissing : pathExists t cwd s = false) (h : openWrite may t cwd s data = some t') :
    ∃ e, lstat t' cwd s = some e ∧ ((lstat t cwd s = none ∧ e = .file data) ∨
      (lstat t cwd s = some (.symlink none) ∧ e = .symlink (some .file))) := by
  obtain ⟨q, e, hq, hfits, rfl, hnew⟩ := openWrite_of_missing hmissing h
  have hdir : t.node q ≠ some .dir := by
    rcases hnew with ⟨hn, -⟩ | ⟨hn, -⟩ <;> rw [hn] <;> simp
  have hq' : namei (t.put q e) cwd s = some q :=
    namei_mono (fun p hp => DirTree.put_dir hdir e hp) hq
  have hnode := DirTree.put_node_of_fits hfits q
  rw [if_pos rfl] at hnode
  refine ⟨e, ?_, ?_⟩
  · rw [lstat, hq', Option.bind_some, hnode]
  · rw [lstat, hq, Option.bind_some]
    exact hnew

/-! ## The laws -/

instance : LawfulFileSystem (FileTree C) where
  stat_of_isabs {s} hs t cwd cwd' := by
    show stat t cwd s = stat t cwd' s
    rw [stat, stat, lstat, lstat, namei_of_isabs hs t cwd cwd']
  stat_openWrite {may t t' cwd s data} hmissing h := by
    obtain ⟨e, he, hnew⟩ := lstat_openWrite (by rw [pathExists, hmissing]; rfl) h
    show stat t' cwd s = some .file
    rw [stat, he]
    rcases hnew with ⟨-, rfl⟩ | ⟨-, rfl⟩ <;> rfl
  fileType_openWrite {may t t' cwd s data} hmissing h := by
    obtain ⟨e, he, hnew⟩ := lstat_openWrite (by rw [pathExists, hmissing]; rfl) h
    show (lstat t' cwd s).map type = some (((lstat t cwd s).map type).getD .regular)
    rcases hnew with ⟨hn, rfl⟩ | ⟨hn, rfl⟩ <;> rw [he, hn] <;> rfl
  mkdir_ne_text h s := mkdir_ne_text h s

end Os
