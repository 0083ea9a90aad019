import Fsync.Base.Os

/-!
# `rsync -r`

What `rsync -r [--delete] [--exclude PATTERN]... SRC DST` does to the tree that
holds `DST`, from the tree that holds `SRC`:

* a source operand that ends in `'/'`, `'.'` or `'..'` copies the contents of a
  directory; a directory named in any other way is copied as a subdirectory
  under its own name; a file is copied to the destination name;
* the exclude patterns apply to the place of an entry in the transfer, the
  operand's own name included, and a directory that is left out takes
  everything below it with it;
* symbolic links are skipped;
* `--delete` removes, in the directories that are copied, what the source has
  not; what a pattern excludes is protected;
* a directory is not replaced by a file, except that `--delete` clears it first;
* it exits 0 if no transfer it attempted failed.

`fileList` is the sender's half; `receive` is a receiver that keeps to these rules, and
`rsync` the two together.  The results about copies hold of every program that keeps to
them (`Copier` in `Fsync.Base.Transfer`), which leaves open what `--delete` removes,
whether a file takes the place of a directory, and the status of an empty transfer and of
a tree.  A copier writes every file that is sent, without the check that leaves one of the
same size and time alone, and there are no special files.  How the arguments of a command
line are read is in `Fsync.Base.Operand`.

How a pattern is matched against a name is the parameter `Matcher`; `overlay` carries the
proof that a tree laid over a directory of another one is a tree.
-/

namespace Rsync

open Posix Os

variable {C : Type*}

/-! ## Exclude patterns -/

/-- How patterns are matched: pattern, place in the transfer, is it a directory.
A pattern that leaves out a file of some name leaves out a directory of that
name as well. -/
structure Matcher where
  hits : Str → Path → Bool → Bool
  dir_of_file : ∀ pat p, hits pat p false = true → hits pat p true = true

/-- The names an exclude list leaves out. -/
structure Filter where
  hits : Path → Bool → Bool
  dir_of_file : ∀ p, hits p false = true → hits p true = true

/-- No `--exclude` at all. -/
def Filter.none : Filter := ⟨fun _ _ => false, fun _ h => h⟩

/-- The filter of a list of `--exclude` patterns. -/
def Matcher.filter (m : Matcher) (patterns : List Str) : Filter where
  hits p isDir := patterns.any fun pat => m.hits pat p isDir
  dir_of_file p h := by
    rw [List.any_eq_true] at h ⊢
    obtain ⟨pat, hpat, hhit⟩ := h
    exact ⟨pat, hpat, m.dir_of_file pat p hhit⟩

/-- A file at the place `r` is left out: its own name is, or that of a directory
on the way to it. -/
def Filter.Excludes (flt : Filter) (r : Path) : Prop :=
  flt.hits r false = true ∨ ∃ p, p <+: r ∧ p ≠ r ∧ p ≠ [] ∧ flt.hits p true = true

/-- What of a tree is sent. -/
def Filter.keep (flt : Filter) (p : Path) : Entry C → Bool
  | .file _ => !flt.hits p false
  | .dir => !flt.hits p true
  | .symlink _ => false

/-! ### Wildcards -/

/-- Does a name match a wildcard of literal characters, `'?'` and `'*'`? -/
def glob : Str → Str → Bool
  | [], s => s.isEmpty
  | c :: pat, s =>
    if c = '*' then s.tails.any (glob pat)
    else
      match s with
      | [] => false
      | d :: s => (c = '?' || c = d) && glob pat s

/-- The matching of patterns without an inner slash: the last name is matched,
and a pattern that ends in `'/'` matches directories only. -/
def wildcards : Matcher where
  hits pat p isDir :=
    if endsWithSlash pat then isDir && glob pat.dropLast (p.getLastD [])
    else glob pat (p.getLastD [])
  dir_of_file pat p h := by
    split at h
    · simp at h
    · rename_i hslash
      rwa [if_neg hslash]

/-! ## The sender -/

/-- The operand copies the contents of a directory, not the directory by name. -/
def contentsOperand (operand : Str) : Bool :=
  basename operand = [] || basename operand = dot || basename operand = dotdot

/-- A tree that is sent.  `kept` is the name the operand keeps in the transfer,
and everything sent is below it. -/
structure Transfer (C : Type*) where
  kept : Path
  tree : FileTree C
  below : ∀ r, r ≠ [] → (tree.node r).isSome → kept <+: r

/-- What an operand sends. -/
inductive Listing (C : Type*) where
  /-- The operand's own name is excluded, or it is a symbolic link. -/
  | nothing
  | file (name : Str) (data : C)
  | tree (transfer : Transfer C)

/-- The contents of the directory `p`. -/
def contents (flt : Filter) (t : FileTree C) (p : Path) (h : t.node p = some .dir) :
    Transfer C where
  kept := []
  tree := (t.subtree p h).prune flt.keep
  below _ _ _ := List.nil_prefix

/-- The directory `p`, under its own name `n`. -/
def named (flt : Filter) (t : FileTree C) (n : Str) (p : Path) (h : t.node p = some .dir) :
    Transfer C where
  kept := [n]
  tree := (DirTree.nest n (t.subtree p h)).prune flt.keep
  below r hr hs := by
    rw [DirTree.prune_node] at hs
    split at hs
    · cases r with
      | nil => exact absurd rfl hr
      | cons m q =>
        rw [DirTree.nest_node_cons] at hs
        split at hs
        · rename_i hm
          rw [hm]
          exact List.cons_prefix_cons.2 ⟨rfl, List.nil_prefix⟩
        · cases hs
    · cases hs

/-- The file list of a source operand; `none` if it is not there. -/
def fileList (flt : Filter) (t : FileTree C) (cwd : Path) (operand : Str) : Option (Listing C) :=
  match namei t cwd operand with
  | none => none
  | some p =>
    if h : t.isDir p = true then
      if contentsOperand operand then some (.tree (contents flt t p (DirTree.isDir_iff.1 h)))
      else if flt.hits [basename operand] true then some .nothing
      else some (.tree (named flt t (basename operand) p (DirTree.isDir_iff.1 h)))
    else if contentsOperand operand then none
    else
      match t.node p with
      | some (.file c) =>
        if flt.hits [basename operand] false then some .nothing
        else some (.file (basename operand) c)
      | some (.symlink _) => some .nothing
      | _ => none

/-! ## The receiver -/

/-- The options of one run. -/
structure Options where
  /-- `--delete` -/
  delete : Bool
  /-- the `--exclude` patterns -/
  filter : Filter
  /-- whether a destination written with a final `'/'` is made even if nothing is sent -/
  emptyDest : Bool

variable (o : Options)

/-- The entry at the place `q` below the destination directory `d` is excluded. -/
def hidden (dst : FileTree C) (d q : Path) : Bool :=
  q.inits.any fun p => !p.isEmpty && o.filter.hits p (dst.isDir (d ++ p))

/-- An excluded entry is at the place `r` below the destination directory or
below that place. -/
def guarded (dst : FileTree C) (d r : Path) : Bool :=
  decide (∃ q ∈ dst.dom, d ++ r <+: q ∧ hidden o dst d (q.drop d.length) = true)

/-- `--delete` may clear the place `r` below the destination directory. -/
def clears (dst : FileTree C) (d r : Path) : Bool := o.delete && !guarded o dst d r

/-- The place `r` is in a directory that is copied. -/
def covered (tr : Transfer C) (r : Path) : Bool := decide (tr.kept <+: r ∧ tr.kept ≠ r)

theorem covered_concat {tr : Transfer C} {r : Path} (h : tr.kept <+: r) (n : Str) :
    covered tr (r ++ [n]) = true := by
  rw [covered, decide_eq_true_eq]
  refine ⟨h.trans (List.prefix_append r [n]), fun hc => ?_⟩
  have hlen := h.length_le
  rw [hc, List.length_append, List.length_singleton] at hlen
  omega

/-- What is at `p` when `tr` has been copied into the directory `d`. -/
def overlayNode (tr : Transfer C) (dst : FileTree C) (d p : Path) : Option (Entry C) :=
  if d <+: p then
    match tr.tree.node (p.drop d.length) with
    | some (.file c) =>
      if dst.isDir p && !clears o dst d (p.drop d.length) then some .dir else some (.file c)
    | some _ => some .dir
    | none =>
      if clears o dst d (p.drop d.length) && covered tr (p.drop d.length) then none
      else dst.node p
  else dst.node p

theorem overlayNode_append (tr : Transfer C) (dst : FileTree C) (d r : Path) :
    overlayNode o tr dst d (d ++ r) =
      match tr.tree.node r with
      | some (.file c) =>
        if dst.isDir (d ++ r) && !clears o dst d r then some .dir else some (.file c)
      | some _ => some .dir
      | none => if clears o dst d r && covered tr r then none else dst.node (d ++ r) := by
  rw [overlayNode, if_pos (List.prefix_append d r), List.drop_left]

theorem guarded_above {dst : FileTree C} {d p r : Path} (hpr : p <+: r)
    (h : guarded o dst d r = true) : guarded o dst d p = true := by
  rw [guarded, decide_eq_true_eq] at h ⊢
  obtain ⟨q, hq, hpre, hhid⟩ := h
  exact ⟨q, hq, ((List.prefix_append_right_inj d).2 hpr).trans hpre, hhid⟩

theorem clears_below {dst : FileTree C} {d p r : Path} (hpr : p <+: r)
    (h : clears o dst d p = true) : clears o dst d r = true := by
  rw [clears, Bool.and_eq_true] at h ⊢
  refine ⟨h.1, ?_⟩
  by_contra hc
  rw [guarded_above o hpr (by simpa using hc)] at h
  simp at h

theorem overlayNode_root (tr : Transfer C) (dst : FileTree C) (d : Path) :
    overlayNode o tr dst d d = some .dir := by
  have h := overlayNode_append o tr dst d []
  rw [List.append_nil, tr.tree.root] at h
  exact h

/-- What is there below the destination has a directory above it. -/
theorem overlayNode_below {tr : Transfer C} {dst : FileTree C} {d r : Path} {n : Str}
    (h : (overlayNode o tr dst d (d ++ (r ++ [n]))).isSome) :
    overlayNode o tr dst d (d ++ r) = some .dir := by
  rw [overlayNode_append] at h ⊢
  cases hrn : tr.tree.node (r ++ [n]) with
  | some e => rw [tr.tree.parent r n (by rw [hrn]; rfl)]
  | none =>
    rw [hrn] at h
    simp only at h
    split at h
    · cases h
    · rename_i hkeep
      have hdir : dst.node (d ++ r) = some .dir :=
        dst.parent (d ++ r) n (by rwa [List.append_assoc])
      have hcov : covered tr r = true → covered tr (r ++ [n]) = true := fun hc =>
        covered_concat (of_decide_eq_true hc).1 n
      have hstay : clears o dst d r = true → covered tr (r ++ [n]) = false := fun hc => by
        by_contra hcn
        exact hkeep (by
          rw [clears_below o (List.prefix_append r [n]) hc, Bool.true_and]
          simpa using hcn)
      cases hr : tr.tree.node r with
      | none =>
        have : ¬ (clears o dst d r && covered tr r) = true := fun hc => by
          rw [Bool.and_eq_true] at hc
          rw [hcov hc.2] at hstay
          exact absurd (hstay hc.1) (by simp)
        simp only [if_neg this, hdir]
      | some e =>
        cases e with
        | dir => rfl
        | symlink l => rfl
        | file c =>
          have hr0 : r ≠ [] := by
            rintro rfl
            rw [tr.tree.root] at hr
            cases hr
          have hcr := covered_concat (tr.below r hr0 (by rw [hr]; rfl)) n
          have hno : clears o dst d r = false := by
            by_contra hc
            rw [hstay (by simpa using hc)] at hcr
            cases hcr
          simp [DirTree.isDir_iff.2 hdir, hno]

/-- Copying keeps directories above used places. -/
theorem overlayNode_parent {tr : Transfer C} {dst : FileTree C} {d : Path}
    (hd : d = [] ∨ dst.node d.dropLast = some .dir) (p : Path) (n : Str)
    (h : (overlayNode o tr dst d (p ++ [n])).isSome) :
    overlayNode o tr dst d p = some .dir := by
  by_cases hdn : d <+: p ++ [n]
  · rcases List.prefix_concat_iff.1 hdn with hd' | hdp
    · -- `p` is the directory above the destination
      have hp : ¬ d <+: p := fun hc => by
        have hlen := hc.length_le
        rw [hd', List.length_append, List.length_singleton] at hlen
        omega
      rw [overlayNode, if_neg hp]
      simpa [hd'] using hd
    · obtain ⟨r, rfl⟩ := hdp
      rw [List.append_assoc] at h
      exact overlayNode_below o h
  · have hdp : ¬ d <+: p := fun hc => hdn (hc.trans (List.prefix_append p [n]))
    rw [overlayNode, if_neg hdn] at h
    rw [overlayNode, if_neg hdp]
    exact dst.parent p n h

/-- The tree `dst` when `tr` has been copied into its directory `d`. -/
def overlay (tr : Transfer C) (dst : FileTree C) (d : Path)
    (hd : d = [] ∨ dst.node d.dropLast = some .dir) : FileTree C :=
  DirTree.ofNode (overlayNode o tr dst d) (dst.dom ∪ tr.tree.dom.image (d ++ ·))
    (by
      intro p hp
      rw [Finset.mem_union, Finset.mem_image]
      by_cases hdp : d <+: p
      · obtain ⟨r, rfl⟩ := hdp
        rw [overlayNode_append] at hp
        cases hr : tr.tree.node r with
        | some e => exact Or.inr ⟨r, (tr.tree.mem_dom r).2 (by rw [hr]; rfl), rfl⟩
        | none =>
          rw [hr] at hp
          simp only at hp
          split at hp
          · cases hp
          · exact Or.inl ((dst.mem_dom _).2 hp)
      · rw [overlayNode, if_neg hdp] at hp
        exact Or.inl ((dst.mem_dom p).2 hp))
    (by
      by_cases hd0 : d = []
      · subst hd0; exact overlayNode_root o tr dst []
      · rw [overlayNode, if_neg (by simpa using hd0), dst.root])
    (overlayNode_parent o hd)

@[simp] theorem overlay_node (tr : Transfer C) (dst : FileTree C) (d : Path) (hd) (p : Path) :
    (overlay o tr dst d hd).node p = overlayNode o tr dst d p := rfl

/-- Some file could not take the place of a directory. -/
def conflicts (tr : Transfer C) (dst : FileTree C) (d : Path) : Bool :=
  decide (∃ r ∈ tr.tree.dom, tr.tree.isDir r = false ∧ dst.isDir (d ++ r) = true ∧
    clears o dst d r = false)

/-- The directory a destination names: it is there, or it can be made because
the directory above it is there. -/
def destDir (dst : FileTree C) (cwd : Path) (target : Str) : Option Path :=
  match namei dst cwd (if endsWithSlash target then target.dropLast else target) with
  | none => none
  | some d => if dst.node d matches none | some .dir then some d else none

variable [DecidableEq C]

/-- The receiver: the tree afterwards, and whether rsync exits 0. -/
def receive (dst : FileTree C) (cwd : Path) (target : Str) : Listing C → FileTree C × Bool
  | .nothing =>
    if o.emptyDest && endsWithSlash target then
      match destDir dst cwd target with
      | none => (dst, false)
      | some d => (dst.put d .dir, true)
    else (dst, true)
  | .file n c =>
    if endsWithSlash target then
      match destDir dst cwd target with
      | none => (dst, false)
      | some d =>
        let dst' := dst.put d .dir
        (dst'.put (d ++ [n]) (.file c), decide (dst'.Fits (d ++ [n]) (.file c)))
    else
      match namei dst cwd target with
      | none => (dst, false)
      | some p =>
        let p := if dst.isDir p then p ++ [n] else p
        (dst.put p (.file c), decide (dst.Fits p (.file c)))
  | .tree tr =>
    match destDir dst cwd target with
    | none => (dst, false)
    | some d =>
      if hd : d = [] ∨ dst.node d.dropLast = some .dir then
        (overlay o tr dst d hd, !conflicts o tr dst d)
      else (dst, false)

/-- `rsync -r`: the tree of the destination afterwards, and whether it exits 0. -/
def rsync (src : FileTree C) (srcCwd : Path) (operand : Str) (dst : FileTree C) (dstCwd : Path)
    (target : Str) : FileTree C × Bool :=
  match fileList o.filter src srcCwd operand with
  | none => (dst, false)
  | some l => receive o dst dstCwd target l

end Rsync
