import Fsync.Base.FileSystem

/-!
# Path lookup through symbolic links

A file system whose symbolic links hold the text of a path.  A lookup goes on from a
link with the components of its text, from the root or from the directory of the link,
and then with what is left of the path; it follows only so many links.  The last
component of a path is followed as well, but for `os.mkdir` and `lstat`, which take
the link itself.

* `walk_append`: a walk goes on where its first part ends;
* `walk_of_agrees`: it leads where it led if the directories and the links are as they
  were, so what is made on its way does not turn it;
* `LinkFs` is a lawful file system.
-/

namespace Links

open Posix Os

variable {C : Type*}

/-- A tree whose links hold the text of a path. -/
abbrev LinkTree (C : Type*) := DirTree Str C Str

/-! ## Lookup -/

/-- What one component leads to. -/
inductive Found where
  | place (p : Path)
  /-- A link, and where its text is read from. -/
  | link (start : Path) (comps : List Str)
  deriving DecidableEq, Repr

/-- Where the reading of a string starts. -/
def start (cwd : Path) (s : Str) : Path := if isabs s then [] else cwd

/-- One component, from the place `cur`.  A link that holds no text leads nowhere. -/
def look (t : LinkTree C) (cur : Path) (c : Str) : Option Found :=
  if t.isDir cur = false then none
  else if c = [] ∨ c = dot then some (.place cur)
  else if c = dotdot then some (.place cur.dropLast)
  else
    match t.node (cur ++ [c]) with
    | some (.symlink text) =>
      if text = [] then none else some (.link (start cur text) (text.splitOn '/'))
    | _ => some (.place (cur ++ [c]))

/-- The walk of a list of components that may follow `n` links, where `jump` goes on
from a link.  The number of links that are left is handed on. -/
def walkWith (t : LinkTree C) (n : ℕ) (jump : Path → List Str → Option (ℕ × Path)) :
    Path → List Str → Option (ℕ × Path)
  | cur, [] => some (n, cur)
  | cur, c :: cs =>
    match look t cur c with
    | none => none
    | some (.place p) => walkWith t n jump p cs
    | some (.link start comps) => jump start (comps ++ cs)

/-- The walk of a list of components that may follow so many links. -/
def walk (t : LinkTree C) : ℕ → Path → List Str → Option (ℕ × Path)
  | 0 => walkWith t 0 fun _ _ => none
  | n + 1 => walkWith t (n + 1) (walk t n)

/-- A file system with symbolic links. -/
structure LinkFs (C : Type*) where
  tree : LinkTree C
  /-- How many links a lookup follows. -/
  limit : ℕ

namespace LinkFs

/-- The walk of a path string. -/
def walkPath (t : LinkFs C) (cwd : Path) (s : Str) : Option (ℕ × Path) :=
  if s = [] then none else walk t.tree t.limit (start cwd s) (s.splitOn '/')

/-- The place a path string leads to for a process in the directory `cwd`.  The place
itself may be unused. -/
def namei (t : LinkFs C) (cwd : Path) (s : Str) : Option Path := (t.walkPath cwd s).map (·.2)

/-- What is at a place that a lookup ends at. -/
def kindAt (t : LinkFs C) (p : Path) : Option Kind :=
  match t.tree.node p with
  | some (.file _) => some .file
  | some .dir => some .dir
  | _ => none

/-- `stat`: links are followed to the end. -/
def stat (t : LinkFs C) (cwd : Path) (s : Str) : Option Kind :=
  (t.namei cwd s).bind t.kindAt

/-- The directory in which the last component is looked up, and the component. -/
def parent (t : LinkFs C) (cwd : Path) (s : Str) : Option (Path × Str) :=
  if s = [] then none
  else
    (walk t.tree t.limit (start cwd s) (s.splitOn '/').dropLast).map fun (_, dir) =>
      (dir, (s.splitOn '/').getLastD [])

/-- What an entry is. -/
def type : Entry C Str → FileType
  | .file _ => .regular
  | .dir => .directory
  | .symlink _ => .symlink

/-- `lstat`: the last component is not followed. -/
def fileType (t : LinkFs C) (cwd : Path) (s : Str) : Option FileType :=
  (t.parent cwd s).bind fun (dir, c) =>
    match look t.tree dir c with
    | none => none
    | some (.place p) => (t.tree.node p).map type
    | some (.link _ _) => some .symlink

variable (may : Path → Bool) (takes : Str → Bool)

/-- `open(s, 'w').close()`: a link that dangles is followed to the file that is made. -/
def openWrite (t : LinkFs C) (cwd : Path) (s : Str) (data : C) : Option (LinkFs C) :=
  match t.namei cwd s with
  | none => none
  | some q =>
    match t.tree.node q with
    | none =>
      if may q.dropLast then some { t with tree := t.tree.put q (.file data) } else none
    | some (.file _) => some { t with tree := t.tree.put q (.file data) }
    | some _ => none

/-- `os.mkdir`: slashes at the end are dropped, and the last component is not
followed. -/
def mkdir (t : LinkFs C) (cwd : Path) (s : Str) : LinkFs C × Except MkdirError Unit :=
  if takes s = false then (t, .error (.text s))
  else
    match t.parent cwd (if rstripSlash s = [] then s else rstripSlash s) with
    | none => (t, .error .other)
    | some (dir, c) =>
      match look t.tree dir c with
      | none => (t, .error .other)
      | some (.link _ _) => (t, .error .eexist)
      | some (.place p) =>
        if (t.tree.node p).isSome then (t, .error .eexist)
        else if may dir then ({ t with tree := t.tree.put p .dir }, .ok ())
        else (t, .error .other)

end LinkFs

/-! ## Making a directory and those above it -/

/-- What the creation of a directory and of those above it has come to: the tree, the
links that a lookup may still follow, and the directory. -/
structure Descent (C : Type*) where
  tree : LinkTree C
  left : ℕ
  dir : Path

/-- One component: it leads to a directory, or one is made under an unused name.  A link
that dangles is not followed.  Where neither is possible the tree stays. -/
def advance (may : Path → Bool) (d : Descent C) (c : Str) : Except (LinkTree C) (Descent C) :=
  match walk d.tree d.left d.dir [c] with
  | none => .error d.tree
  | some (n, p) =>
    match d.tree.node p with
    | some .dir => .ok ⟨d.tree, n, p⟩
    | some _ => .error d.tree
    | none =>
      if look d.tree d.dir c = some (.place p) ∧ may d.dir then .ok ⟨d.tree.put p .dir, n, p⟩
      else .error d.tree

/-- All components, up to the first at which there is no directory. -/
def descend (may : Path → Bool) (d : Descent C) (cs : List Str) :
    Except (LinkTree C) (Descent C) :=
  cs.foldlM (advance may) d

/-- The tree that is left. -/
def treeOf : Except (LinkTree C) (Descent C) → LinkTree C
  | .ok d => d.tree
  | .error t => t

/-- The descent along a path string. -/
def LinkFs.descent (may : Path → Bool) (t : LinkFs C) (cwd : Path) (s : Str) :
    Except (LinkTree C) (Descent C) :=
  descend may ⟨t.tree, t.limit, start cwd s⟩ (s.splitOn '/')

instance : FileSystem (LinkFs C) C where
  stat := LinkFs.stat
  fileType := LinkFs.fileType
  openWrite := LinkFs.openWrite
  mkdir := LinkFs.mkdir
  createDirectories may t cwd s :=
    ({ t with tree := treeOf (t.descent may cwd s) }, (t.descent may cwd s).isOk)

/-! ## Walks -/

section Walk

variable {t t' : LinkTree C} {n m : ℕ} {cur p q : Path} {c : Str} {cs : List Str}

theorem look_dir {f : Found} (h : look t cur c = some f) : t.node cur = some .dir := by
  rw [look] at h
  split at h
  · cases h
  · rename_i hdir
    rw [Bool.not_eq_false] at hdir
    exact DirTree.isDir_iff.1 hdir

theorem look_of_not_dir (h : t.node cur ≠ some .dir) : look t cur c = none := by
  rw [look, if_pos]
  rw [← Bool.not_eq_true, DirTree.isDir_iff]
  exact h

@[simp] theorem walk_nil : walk t n cur [] = some (n, cur) := by
  cases n <;> rfl

theorem walk_of_none (h : look t cur c = none) : walk t n cur (c :: cs) = none := by
  cases n <;> rw [walk, walkWith, h]

theorem walk_of_place (h : look t cur c = some (.place p)) :
    walk t n cur (c :: cs) = walk t n p cs := by
  cases n <;> rw [walk, walkWith, h]

theorem walk_zero_of_link {st : Path} {comps : List Str}
    (h : look t cur c = some (.link st comps)) :
    walk t 0 cur (c :: cs) = none := by
  rw [walk, walkWith, h]

theorem walk_of_link {st : Path} {comps : List Str} (h : look t cur c = some (.link st comps)) :
    walk t (n + 1) cur (c :: cs) = walk t n st (comps ++ cs) := by
  rw [walk, walkWith, h]

/-- **A walk goes on where its first part ends**, with the links that are left. -/
theorem walk_append (t : LinkTree C) (n : ℕ) (cur : Path) (cs ds : List Str) :
    walk t n cur (cs ++ ds) = (walk t n cur cs).bind fun (m, p) => walk t m p ds := by
  induction n generalizing cur cs with
  | zero =>
    induction cs generalizing cur with
    | nil => simp
    | cons c cs ih =>
      rw [List.cons_append]
      rcases h : look t cur c with _ | p | ⟨st, comps⟩
      · rw [walk_of_none h, walk_of_none h]; rfl
      · rw [walk_of_place h, walk_of_place h, ih]
      · rw [walk_zero_of_link h, walk_zero_of_link h]; rfl
  | succ n ihn =>
    induction cs generalizing cur with
    | nil => simp
    | cons c cs ih =>
      rw [List.cons_append]
      rcases h : look t cur c with _ | p | ⟨st, comps⟩
      · rw [walk_of_none h, walk_of_none h]; rfl
      · rw [walk_of_place h, walk_of_place h, ih]
      · rw [walk_of_link h, walk_of_link h, ← List.append_assoc, ihn]

theorem walk_append_eq_some {a b : List Str} {r : ℕ × Path} : walk t n cur (a ++ b) = some r ↔
    ∃ m p, walk t n cur a = some (m, p) ∧ walk t m p b = some r := by
  rw [walk_append, Option.bind_eq_some_iff]
  constructor
  · rintro ⟨⟨m, p⟩, hw, hrest⟩
    exact ⟨m, p, hw, hrest⟩
  · rintro ⟨m, p, hw, hrest⟩
    exact ⟨(m, p), hw, hrest⟩

/-- A walk step by step. -/
theorem walk_cons_eq_some {r : ℕ × Path} : walk t n cur (c :: cs) = some r ↔
    ∃ m p, walk t n cur [c] = some (m, p) ∧ walk t m p cs = some r :=
  walk_append_eq_some (a := [c])

/-- Nothing is below a place that is no directory. -/
theorem walk_of_not_dir (h : t.node cur ≠ some .dir) : walk t n cur (c :: cs) = none :=
  walk_of_none (look_of_not_dir h)

/-- The steps of a walk that leads to a place. -/
@[elab_as_elim]
theorem walk_rec {motive : (n : ℕ) → (cur : Path) → (cs : List Str) → (r : ℕ × Path) →
      walk t n cur cs = some r → Prop}
    (nil : ∀ {n cur}, motive n cur [] (n, cur) walk_nil)
    (place : ∀ {n cur p c cs r} (hl : look t cur c = some (.place p))
      (hw : walk t n p cs = some r), motive n p cs r hw →
      motive n cur (c :: cs) r (by rwa [walk_of_place hl]))
    (link : ∀ {n cur st comps c cs r} (hl : look t cur c = some (.link st comps))
      (hw : walk t n st (comps ++ cs) = some r), motive n st (comps ++ cs) r hw →
      motive (n + 1) cur (c :: cs) r (by rwa [walk_of_link hl]))
    {n : ℕ} {cur : Path} {cs : List Str} {r : ℕ × Path} (h : walk t n cur cs = some r) :
    motive n cur cs r h := by
  induction n generalizing cur cs with
  | zero =>
    induction cs generalizing cur with
    | nil =>
      obtain rfl := Option.some.inj (walk_nil.symm.trans h)
      exact nil
    | cons c cs ih =>
      rcases hl : look t cur c with _ | p | ⟨st, comps⟩
      · rw [walk_of_none hl] at h; cases h
      · exact place hl (by rwa [walk_of_place hl] at h) (ih _)
      · rw [walk_zero_of_link hl] at h; cases h
  | succ n ihn =>
    induction cs generalizing cur with
    | nil =>
      obtain rfl := Option.some.inj (walk_nil.symm.trans h)
      exact nil
    | cons c cs ih =>
      rcases hl : look t cur c with _ | p | ⟨st, comps⟩
      · rw [walk_of_none hl] at h; cases h
      · exact place hl (by rwa [walk_of_place hl] at h) (ih _)
      · exact link hl (by rwa [walk_of_link hl] at h) (ihn _)

/-! ### What a walk depends on -/

/-- Every directory of `t` is one of `t'`, and the links are the same. -/
structure Agrees (t t' : LinkTree C) : Prop where
  dir : ∀ p, t.node p = some .dir → t'.node p = some .dir
  link : ∀ p text, t'.node p = some (.symlink text) ↔ t.node p = some (.symlink text)

/-- A file or a directory that is written where none of these was. -/
theorem agrees_put {e : Entry C Str} (hq : t.node q ≠ some .dir)
    (hlink : ∀ text, t.node q ≠ some (.symlink text)) (he : ∀ text, e ≠ .symlink text) :
    Agrees t (t.put q e) := by
  refine ⟨fun p hp => DirTree.put_dir hq e hp, fun p text => ?_⟩
  by_cases hpq : p = q
  · subst hpq
    refine iff_of_false ?_ (hlink text)
    by_cases hfits : t.Fits p e
    · rw [DirTree.put_node_of_fits hfits, if_pos rfl, Option.some.injEq]
      exact he text
    · rw [DirTree.put, dif_neg hfits]
      exact hlink text
  · rw [DirTree.put_node_of_ne t e hpq]

theorem look_of_agrees (h : Agrees t t') {f : Found} (hf : look t cur c = some f) :
    look t' cur c = some f := by
  have hcur := look_dir hf
  rw [look, DirTree.isDir_iff.2 hcur, if_neg (by simp)] at hf
  rw [look, DirTree.isDir_iff.2 (h.dir cur hcur), if_neg (by simp)]
  split
  · rename_i h0
    rwa [if_pos h0] at hf
  rename_i h0
  rw [if_neg h0] at hf
  split
  · rename_i hdd
    rwa [if_pos hdd] at hf
  rename_i hdd
  rw [if_neg hdd] at hf
  split at hf
  · rename_i text htext
    rwa [(h.link _ text).2 htext]
  · rename_i hfree
    split
    · rename_i text htext
      exact absurd ((h.link _ text).1 htext) (hfree text)
    · exact hf

/-- **A walk leads where it led** if the directories are still there and the links are
the same. -/
theorem walk_of_agrees (h : Agrees t t') {r : ℕ × Path} (hw : walk t n cur cs = some r) :
    walk t' n cur cs = some r := by
  induction hw using walk_rec with
  | nil => exact walk_nil
  | place hl ih => rwa [walk_of_place (look_of_agrees h hl)]
  | link hl ih => rwa [walk_of_link (look_of_agrees h hl)]

/-! ### The place that is reached -/

/-- The place is the root or in a directory. -/
def Held (t : LinkTree C) (p : Path) : Prop := p = [] ∨ t.node p.dropLast = some .dir

theorem held_of_dir (h : t.node p = some .dir) : Held t p := by
  by_cases h0 : p = []
  · exact Or.inl h0
  · refine Or.inr (t.dir_of_isPrefix (List.dropLast_prefix p) (fun hc => h0 ?_) (by rw [h]; rfl))
    have hlen := congrArg List.length hc
    rw [List.length_dropLast] at hlen
    exact List.eq_nil_of_length_eq_zero (by omega)

theorem held_dropLast (h : t.node p = some .dir) : Held t p.dropLast := by
  rcases held_of_dir h with rfl | h
  · exact Or.inl rfl
  · exact held_of_dir h

theorem held_of_look (h : look t cur c = some (.place p)) : Held t p := by
  have hcur := look_dir h
  rw [look, DirTree.isDir_iff.2 hcur, if_neg (by simp)] at h
  split at h
  · obtain rfl := Found.place.inj (Option.some.inj h)
    exact held_of_dir hcur
  split at h
  · obtain rfl := Found.place.inj (Option.some.inj h)
    exact held_dropLast hcur
  split at h
  · split at h <;> cases h
  · obtain rfl := Found.place.inj (Option.some.inj h)
    exact Or.inr (by rwa [List.dropLast_concat])

/-- The components that are names. -/
def IsPlain (c : Str) : Prop := c ≠ [] ∧ c ≠ dot ∧ c ≠ dotdot

/-- A component that leads to an unused place is a name there. -/
theorem look_unused_iff (hfree : t.node p = none) :
    look t cur c = some (.place p) ↔ t.node cur = some .dir ∧ IsPlain c ∧ p = cur ++ [c] := by
  constructor
  · intro h
    have hcur := look_dir h
    rw [look, DirTree.isDir_iff.2 hcur, if_neg (by simp)] at h
    split at h
    · obtain rfl := Found.place.inj (Option.some.inj h)
      rw [hcur] at hfree; cases hfree
    rename_i h0
    split at h
    · obtain rfl := Found.place.inj (Option.some.inj h)
      by_cases hroot : cur.dropLast = cur
      · rw [hroot, hcur] at hfree; cases hfree
      · rw [t.dir_of_isPrefix (List.dropLast_prefix cur) hroot (by rw [hcur]; rfl)] at hfree
        cases hfree
    rename_i hdd
    rw [not_or] at h0
    split at h
    · split at h <;> cases h
    · exact ⟨hcur, ⟨h0.1, h0.2, hdd⟩, (Found.place.inj (Option.some.inj h)).symm⟩
  · rintro ⟨hcur, ⟨h1, h2, h3⟩, rfl⟩
    rw [look, DirTree.isDir_iff.2 hcur, if_neg (by simp), if_neg (not_or.2 ⟨h1, h2⟩), if_neg h3,
      hfree]

/-- A link that is followed has components. -/
theorem comps_ne_nil {st : Path} {comps : List Str} (h : look t cur c = some (.link st comps)) :
    comps ≠ [] := by
  have hcur := look_dir h
  rw [look, DirTree.isDir_iff.2 hcur, if_neg (by simp)] at h
  split at h
  · cases h
  split at h
  · cases h
  split at h
  · split at h
    · cases h
    · obtain ⟨-, rfl⟩ := Found.link.inj (Option.some.inj h)
      exact List.splitOn_ne_nil _ _
  · cases h

theorem held_of_walk (hcs : cs ≠ []) {r : ℕ × Path} (hw : walk t n cur cs = some r) :
    Held t r.2 := by
  induction hw using walk_rec with
  | nil => exact absurd rfl hcs
  | @place n cur p c cs r hl hw ih =>
    by_cases h0 : cs = []
    · subst h0
      rw [walk_nil] at hw
      obtain rfl := Option.some.inj hw
      exact held_of_look hl
    · exact ih h0
  | link hl hw ih => exact ih (by simp [comps_ne_nil hl])

end Walk

/-! ## The file system -/

namespace LinkFs

variable {t t' : LinkFs C} {cwd q : Path} {s : Str} {may : Path → Bool} {data : C}

theorem namei_eq_some : t.namei cwd s = some q ↔
    s ≠ [] ∧ ∃ m, walk t.tree t.limit (start cwd s) (s.splitOn '/') = some (m, q) := by
  rw [namei, walkPath, Option.map_eq_some_iff]
  split
  · rename_i hs
    simp [hs]
  · rename_i hs
    simp [hs]

theorem parent_eq_some {dir : Path} {c : Str} : t.parent cwd s = some (dir, c) ↔
    s ≠ [] ∧ c = (s.splitOn '/').getLastD [] ∧
      ∃ m, walk t.tree t.limit (start cwd s) (s.splitOn '/').dropLast = some (m, dir) := by
  rw [parent]
  split
  · rename_i hs
    simp [hs]
  · rename_i hs
    rw [Option.map_eq_some_iff]
    constructor
    · rintro ⟨⟨m, dir'⟩, hw, heq⟩
      obtain ⟨rfl, rfl⟩ := Prod.mk.inj heq
      exact ⟨hs, rfl, m, hw⟩
    · rintro ⟨-, rfl, m, hw⟩
      exact ⟨(m, dir), hw, rfl⟩

/-- A path that leads to a place leads through the directory it is looked up in. -/
theorem parent_of_namei (h : t.namei cwd s = some q) :
    ∃ dir c n m, t.parent cwd s = some (dir, c) ∧ walk t.tree n dir [c] = some (m, q) := by
  obtain ⟨hs, m, hw⟩ := namei_eq_some.1 h
  have hlast := List.dropLast_append_getLast (List.splitOn_ne_nil '/' s)
  rw [← hlast, walk_append_eq_some] at hw
  obtain ⟨n, dir, hdir, hstep⟩ := hw
  refine ⟨dir, _, n, m, parent_eq_some.2 ⟨hs, rfl, n, hdir⟩, ?_⟩
  rwa [List.getLastD_eq_getLast?, List.getLast?_eq_getLast_of_ne_nil (List.splitOn_ne_nil '/' s)]

theorem namei_of_agrees (h : Agrees t.tree t'.tree) (hlimit : t'.limit = t.limit)
    (hn : t.namei cwd s = some q) : t'.namei cwd s = some q := by
  obtain ⟨hs, m, hw⟩ := namei_eq_some.1 hn
  exact namei_eq_some.2 ⟨hs, m, by rw [hlimit]; exact walk_of_agrees h hw⟩

theorem parent_of_agrees (h : Agrees t.tree t'.tree) (hlimit : t'.limit = t.limit) {dir : Path}
    {c : Str} (hp : t.parent cwd s = some (dir, c)) : t'.parent cwd s = some (dir, c) := by
  obtain ⟨hs, hc, m, hw⟩ := parent_eq_some.1 hp
  exact parent_eq_some.2 ⟨hs, hc, m, by rw [hlimit]; exact walk_of_agrees h hw⟩

/-- What `openWrite` makes of a path at which nothing is. -/
theorem openWrite_of_missing (hmissing : t.stat cwd s = none)
    (h : openWrite may t cwd s data = some t') :
    ∃ q, t.namei cwd s = some q ∧ t.tree.node q = none ∧
      t' = { t with tree := t.tree.put q (.file data) } ∧ t'.tree.node q = some (.file data) ∧
      Agrees t.tree t'.tree := by
  rw [openWrite] at h
  cases hq : t.namei cwd s with
  | none => rw [hq] at h; cases h
  | some q =>
    rw [stat, hq, Option.bind_some, kindAt] at hmissing
    rw [hq] at h
    dsimp only at h
    cases hn : t.tree.node q with
    | some e => cases e <;> simp [hn] at hmissing h
    | none =>
      rw [hn] at h
      dsimp only at h
      split at h
      · obtain rfl := Option.some.inj h
        obtain ⟨-, m, hw⟩ := namei_eq_some.1 hq
        have hq0 : q ≠ [] := by
          rintro rfl
          rw [t.tree.root] at hn
          cases hn
        have hfits : t.tree.Fits q (.file data) :=
          ⟨hq0, (held_of_walk (List.splitOn_ne_nil _ _) hw).resolve_left hq0,
            fun hd => by rw [hn] at hd; cases hd⟩
        refine ⟨q, rfl, hn, rfl, ?_, ?_⟩
        · rw [DirTree.put_node_of_fits hfits, if_pos rfl]
        · exact agrees_put (by simp [hn]) (by simp [hn]) (by simp)
      · cases h

theorem limit_openWrite (h : openWrite may t cwd s data = some t') : t'.limit = t.limit := by
  rw [openWrite] at h
  split at h
  · cases h
  · split at h
    · split at h
      · rw [← Option.some.inj h]
      · cases h
    · rw [← Option.some.inj h]
    · cases h

end LinkFs

instance : LawfulFileSystem (LinkFs C) where
  stat_of_isabs {s} hs t cwd cwd' := by
    show t.stat cwd s = t.stat cwd' s
    rw [LinkFs.stat, LinkFs.stat, LinkFs.namei, LinkFs.namei, LinkFs.walkPath, LinkFs.walkPath,
      start, start, if_pos hs, if_pos hs]
  stat_openWrite {may t t' cwd s data} hmissing h := by
    obtain ⟨q, hq, -, rfl, hfile, hagrees⟩ := LinkFs.openWrite_of_missing hmissing h
    show LinkFs.stat _ cwd s = some .file
    rw [LinkFs.stat, LinkFs.namei_of_agrees hagrees rfl hq, Option.bind_some, LinkFs.kindAt, hfile]
  fileType_openWrite {may t t' cwd s data} hmissing h := by
    obtain ⟨q, hq, hfree, -, hfile, hagrees⟩ := LinkFs.openWrite_of_missing hmissing h
    have hlimit := LinkFs.limit_openWrite h
    obtain ⟨dir, c, n, m, hp, hstep⟩ := LinkFs.parent_of_namei hq
    show LinkFs.fileType _ cwd s = some ((LinkFs.fileType t cwd s).getD .regular)
    rw [LinkFs.fileType, LinkFs.fileType, hp, LinkFs.parent_of_agrees hagrees hlimit hp,
      Option.bind_some, Option.bind_some]
    dsimp only
    rcases hl : look t.tree dir c with _ | p | ⟨st, comps⟩
    · rw [walk_of_none hl] at hstep; cases hstep
    · rw [walk_of_place hl, walk_nil] at hstep
      obtain ⟨-, rfl⟩ := Prod.mk.inj (Option.some.inj hstep)
      rw [look_of_agrees hagrees hl]
      simp [hfile, hfree, LinkFs.type]
    · rw [look_of_agrees hagrees hl]
      rfl
  mkdir_ne_text {may takes t cwd name} h s := by
    show (LinkFs.mkdir may takes t cwd name).2 ≠ .error (.text s)
    rw [LinkFs.mkdir, h, if_neg (by simp)]
    split
    · simp
    · split
      · simp
      · simp
      · split
        · simp
        · split <;> simp

end Links
