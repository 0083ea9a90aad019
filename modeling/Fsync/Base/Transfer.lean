import Fsync.Base.Rsync

/-!
# What a transfer changes

The sender's half of `rsync -r` as a list of cases, and the programs that copy as
`rsync -r` does.

* `fileList_eq_some`: what an operand sends;
* `not_excludes_of_sent`: nothing at an excluded place is sent;
* `Laid`: what may be at a place below the destination after a copy;
* `Copier`: a program, with what is relied on;
* `pathExists_receive_file`: the destination exists after a copy of a file.
-/

namespace Rsync

open Posix Os

variable {C : Type*}

/-! ## The sender -/

/-- What the operand sends if it leads to the place `p`. -/
inductive Sends (flt : Filter) (t : FileTree C) (operand : Str) (p : Path) : Listing C → Prop
  | contents (h : t.node p = some .dir) (hc : contentsOperand operand = true) :
      Sends flt t operand p (.tree (contents flt t p h))
  | named (h : t.node p = some .dir) (hc : contentsOperand operand = false)
      (hn : flt.hits [basename operand] true = false) :
      Sends flt t operand p (.tree (named flt t (basename operand) p h))
  | file {c : C} (h : t.node p = some (.file c)) (hc : contentsOperand operand = false)
      (hn : flt.hits [basename operand] false = false) :
      Sends flt t operand p (.file (basename operand) c)
  | excludedDir (h : t.node p = some .dir) (hc : contentsOperand operand = false)
      (hn : flt.hits [basename operand] true = true) : Sends flt t operand p .nothing
  | excludedFile {c : C} (h : t.node p = some (.file c)) (hc : contentsOperand operand = false)
      (hn : flt.hits [basename operand] false = true) : Sends flt t operand p .nothing
  | link {l : Option Kind} (h : t.node p = some (.symlink l))
      (hc : contentsOperand operand = false) : Sends flt t operand p .nothing

theorem fileList_of_sends {flt : Filter} {t : FileTree C} {cwd p : Path} {operand : Str}
    {l : Listing C} (hp : namei t cwd operand = some p) (h : Sends flt t operand p l) :
    fileList flt t cwd operand = some l := by
  unfold fileList
  rw [hp]
  cases h with
  | contents h hc => simp [DirTree.isDir, h, hc]
  | named h hc hn => simp [DirTree.isDir, h, hc, hn]
  | file h hc hn => simp [DirTree.isDir, h, hc, hn]
  | excludedDir h hc hn => simp [DirTree.isDir, h, hc, hn]
  | excludedFile h hc hn => simp [DirTree.isDir, h, hc, hn]
  | link h hc => simp [DirTree.isDir, h, hc]

/-- **What an operand sends.** -/
theorem fileList_eq_some {flt : Filter} {t : FileTree C} {cwd : Path} {operand : Str}
    {l : Listing C} : fileList flt t cwd operand = some l ↔
      ∃ p, namei t cwd operand = some p ∧ Sends flt t operand p l := by
  refine ⟨fun h => ?_, fun ⟨p, hp, h⟩ => fileList_of_sends hp h⟩
  unfold fileList at h
  split at h
  · cases h
  · rename_i p hp
    refine ⟨p, hp, ?_⟩
    split at h
    · rename_i hdir
      split at h
      · rename_i hc
        cases h
        exact .contents (DirTree.isDir_iff.1 hdir) hc
      · rename_i hc
        split at h
        · rename_i hn
          cases h
          exact .excludedDir (DirTree.isDir_iff.1 hdir) (by simpa using hc) hn
        · rename_i hn
          cases h
          exact .named (DirTree.isDir_iff.1 hdir) (by simpa using hc) (by simpa using hn)
    · split at h
      · cases h
      · rename_i hc
        split at h
        · rename_i c hfile
          split at h
          · rename_i hn
            cases h
            exact .excludedFile hfile (by simpa using hc) hn
          · rename_i hn
            cases h
            exact .file hfile (by simpa using hc) (by simpa using hn)
        · rename_i hlink
          cases h
          exact .link hlink (by simpa using hc)
        · cases h

/-- An operand that leads nowhere fails. -/
theorem fileList_eq_none {flt : Filter} {t : FileTree C} {cwd : Path} {operand : Str}
    (h : ∀ p, namei t cwd operand = some p → t.node p = none) :
    fileList flt t cwd operand = none := by
  cases hl : fileList flt t cwd operand with
  | none => rfl
  | some l =>
    obtain ⟨p, hp, hs⟩ := fileList_eq_some.1 hl
    have hnone := h p hp
    cases hs <;> simp_all

/-- What passes the filter is a file or a directory. -/
theorem not_symlink_of_sent {flt : Filter} {u : FileTree C} {r : Path} {l : Option Kind} :
    (u.prune flt.keep).node r ≠ some (.symlink l) := by
  intro h
  by_cases hr : r = []
  · rw [hr, (u.prune flt.keep).root] at h
    cases h
  · rw [DirTree.prune_node] at h
    split at h
    · rename_i hpass
      obtain ⟨e, he, hkeep⟩ := DirTree.passes_iff.1 hpass r (List.prefix_refl r) hr
      rw [h, Option.some.injEq] at he
      subst he
      cases hkeep
    · cases h

/-- Nothing at an excluded place is sent. -/
theorem not_excludes_of_sent {flt : Filter} {u : FileTree C} {r : Path} {e : Entry C}
    (hr : r ≠ []) (h : (u.prune flt.keep).node r = some e) : ¬ flt.Excludes r := by
  have hpass : u.passes flt.keep r = true := by
    by_contra hno
    rw [DirTree.prune_node, if_neg hno] at h
    cases h
  have hnode : u.node r = some e := by rwa [DirTree.prune_node, if_pos hpass] at h
  rintro (hown | ⟨p, hpr, hne, hp, hhit⟩)
  · obtain ⟨e', he', hkeep⟩ := DirTree.passes_iff.1 hpass r (List.prefix_refl r) hr
    cases e' with
    | file c => simp [Filter.keep, hown] at hkeep
    | dir => simp [Filter.keep, flt.dir_of_file r hown] at hkeep
    | symlink l => cases hkeep
  · -- the directory on the way would have to pass
    obtain ⟨e', he', hkeep⟩ := DirTree.passes_iff.1 hpass p hpr hp
    rw [u.dir_of_isPrefix hpr hne (by rw [hnode]; rfl), Option.some.injEq] at he'
    subst he'
    simp [Filter.keep, hhit] at hkeep

/-- What is sent has no symbolic links. -/
theorem not_symlink_of_fileList {flt : Filter} {t : FileTree C} {cwd : Path} {operand : Str}
    {tr : Transfer C} (h : fileList flt t cwd operand = some (.tree tr)) (r : Path)
    (l : Option Kind) : tr.tree.node r ≠ some (.symlink l) := by
  obtain ⟨p, -, hs⟩ := fileList_eq_some.1 h
  cases hs with
  | contents => exact not_symlink_of_sent
  | named => exact not_symlink_of_sent

theorem contents_node_of_some {flt : Filter} {t : FileTree C} {p : Path} {h : t.node p = some .dir}
    {r : Path} {e : Entry C} (hr : (contents flt t p h).tree.node r = some e) :
    t.node (p ++ r) = some e := by
  rw [contents, DirTree.prune_node] at hr
  split at hr
  · exact hr
  · cases hr

/-- What a named directory sends keeps its place below the directory's own name. -/
theorem named_node_of_some {flt : Filter} {t : FileTree C} {n : Str} {p : Path}
    {h : t.node p = some .dir} {r : Path} {e : Entry C} (hr0 : r ≠ [])
    (hr : (named flt t n p h).tree.node r = some e) :
    ∃ q, r = n :: q ∧ t.node (p ++ q) = some e := by
  rw [named, DirTree.prune_node] at hr
  split at hr
  · cases r with
    | nil => exact absurd rfl hr0
    | cons m q =>
      rw [DirTree.nest_node_cons] at hr
      split at hr
      · rename_i hm
        exact ⟨q, by rw [hm], hr⟩
      · cases hr
  · cases hr

/-! ## Place by place -/

/-- What may be at a place of the destination after a copy, from what is sent to it and
what was there.  Where nothing is sent the old entry stays, or `--delete` removes it; a
file may be unable to take the place of a directory. -/
inductive Laid (delete : Bool) :
    Option (Entry C) → Option (Entry C) → Option (Entry C) → Prop
  | stays (old : Option (Entry C)) : Laid delete none old old
  | deleted (h : delete = true) (old : Option (Entry C)) : Laid delete none old none
  | file (c : C) (old : Option (Entry C)) : Laid delete (some (.file c)) old (some (.file c))
  | blocked (c : C) : Laid delete (some (.file c)) (some .dir) (some .dir)
  | dir (old : Option (Entry C)) : Laid delete (some .dir) old (some .dir)

namespace Laid

variable {delete : Bool} {sent old new new' : Option (Entry C)}

/-- A copy to an empty place leaves there what is sent. -/
theorem fresh (h : Laid delete sent none new) : new = sent := by
  cases h <;> rfl

/-- Without `--delete` an old entry stays where nothing is sent. -/
theorem kept (h : Laid false none old new) : new = old := by
  cases h with
  | stays => rfl
  | deleted h => cases h

theorem dir_there (h : Laid delete (some .dir) old new) : new = some .dir := by
  cases h
  rfl

/-- A place keeps its entry if nothing else is sent to it. -/
theorem unchanged (h : Laid false sent old new) (hsent : ∀ e, sent = some e → old = some e) :
    new = old := by
  cases sent with
  | none => exact h.kept
  | some e =>
    rw [hsent e rfl] at h ⊢
    cases h <;> rfl

theorem file_replaced {c c' : C} (h : Laid delete (some (.file c')) (some (.file c)) new) :
    new = some (.file c') := by
  cases h
  rfl

/-- What replaces a file does not depend on the program. -/
theorem unique {c : C} (h : Laid false sent (some (.file c)) new)
    (h' : Laid false sent (some (.file c)) new') : new = new' := by
  cases h with
  | stays => exact h'.kept.symm
  | deleted h => cases h
  | file => exact h'.file_replaced.symm
  | dir => exact h'.dir_there.symm

end Laid

/-! ## The receiver -/

variable {o : Options}

/-- An entry that a tree is laid over. -/
theorem laid_overlay {tr : Transfer C} {dst : FileTree C} {d : Path} (hd)
    (hlinks : ∀ r l, tr.tree.node r ≠ some (.symlink l)) (r : Path) :
    Laid o.delete (tr.tree.node r) (dst.node (d ++ r)) ((overlay o tr dst d hd).node (d ++ r)) := by
  rw [overlay_node, overlayNode_append]
  cases hr : tr.tree.node r with
  | none =>
    dsimp only
    split
    · rename_i hclear
      rw [Bool.and_eq_true, clears, Bool.and_eq_true] at hclear
      exact .deleted hclear.1.1 _
    · exact .stays _
  | some e =>
    cases e with
    | file c =>
      dsimp only
      split
      · rename_i hblock
        rw [Bool.and_eq_true, DirTree.isDir_iff] at hblock
        rw [hblock.1]
        exact .blocked c
      · exact .file c _
    | dir => exact .dir _
    | symlink l => exact absurd hr (hlinks r l)

/-- Outside its directory a copy changes nothing. -/
theorem overlayNode_outside {tr : Transfer C} {dst : FileTree C} {d p : Path} (h : ¬ d <+: p) :
    overlayNode o tr dst d p = dst.node p := if_neg h

/-! ### Destinations -/

/-- The string that names the directory of a destination. -/
def destName (target : Str) : Str := if endsWithSlash target then target.dropLast else target

theorem destDir_eq_some {dst : FileTree C} {cwd d : Path} {target : Str} :
    destDir dst cwd target = some d ↔ namei dst cwd (destName target) = some d ∧
      (dst.node d = none ∨ dst.node d = some .dir) := by
  unfold destDir destName
  cases hn : namei dst cwd (if endsWithSlash target then target.dropLast else target) with
  | none => simp
  | some p =>
    cases hp : dst.node p with
    | none => simp [hp]; grind
    | some e => cases e <;> simp [hp] <;> grind

variable [DecidableEq C]

/-- A tree is laid over the directory that the destination names. -/
theorem receive_tree {dst : FileTree C} {cwd d : Path} {target : Str}
    (h : destDir dst cwd target = some d) (tr : Transfer C) :
    ∃ hd, receive o dst cwd target (.tree tr) = (overlay o tr dst d hd, !conflicts o tr dst d) := by
  have hd := namei_parent (destDir_eq_some.1 h).1
  refine ⟨hd, ?_⟩
  rw [receive, h]
  exact dif_pos hd

/-- A file that is sent to a name that is no directory. -/
theorem receive_file {dst : FileTree C} {cwd p : Path} {target : Str} (n : Str) (c : C)
    (hslash : endsWithSlash target = false) (hp : namei dst cwd target = some p)
    (hdir : dst.isDir p = false) : receive o dst cwd target (.file n c) =
      (dst.put p (.file c), decide (dst.Fits p (.file c))) := by
  rw [receive, hslash, if_neg Bool.false_ne_true, hp]
  simp [hdir]

/-- A program that copies as `rsync -r` does, with what is relied on.  The status of an
empty transfer and of a transfer of a tree is open, and so is what `--delete` removes. -/
structure Copier (C : Type*) [DecidableEq C] where
  /-- options; source tree, working directory and operand; destination tree, working
  directory and target: the destination afterwards, and whether the status is 0 -/
  run : Options → FileTree C → Path → Str → FileTree C → Path → Str → FileTree C × Bool
  /-- An operand that is not there is an error. -/
  missing : ∀ {o src cwd operand dst cwd' target}, fileList o.filter src cwd operand = none →
    run o src cwd operand dst cwd' target = (dst, false)
  /-- A file is copied to the destination name, or into the directory of that name. -/
  file : ∀ {o src cwd operand dst cwd' target n c},
    fileList o.filter src cwd operand = some (.file n c) →
    run o src cwd operand dst cwd' target = receive o dst cwd' target (.file n c)
  /-- An empty transfer changes nothing, -/
  nothing : ∀ {o src cwd operand dst cwd' target},
    fileList o.filter src cwd operand = some .nothing →
    (o.emptyDest && endsWithSlash target) = false →
    (run o src cwd operand dst cwd' target).1 = dst
  /-- but that the directory of the destination may be made. -/
  emptyDest : ∀ {o src cwd operand dst cwd' target},
    fileList o.filter src cwd operand = some .nothing →
    (o.emptyDest && endsWithSlash target) = true →
    run o src cwd operand dst cwd' target = (dst, false) ∨
      ∃ d, destDir dst cwd' target = some d ∧
        (run o src cwd operand dst cwd' target).1 = dst.put d .dir
  /-- A tree needs a directory to be laid over, -/
  noDir : ∀ {o src cwd operand dst cwd' target tr},
    fileList o.filter src cwd operand = some (.tree tr) → destDir dst cwd' target = none →
    run o src cwd operand dst cwd' target = (dst, false)
  /-- it changes nothing outside of it, -/
  outside : ∀ {o src cwd operand dst cwd' target tr d p},
    fileList o.filter src cwd operand = some (.tree tr) → destDir dst cwd' target = some d →
    ¬ d <+: p → (run o src cwd operand dst cwd' target).1.node p = dst.node p
  /-- and below it each place gets what is sent to it. -/
  laid : ∀ {o src cwd operand dst cwd' target tr d},
    fileList o.filter src cwd operand = some (.tree tr) → destDir dst cwd' target = some d →
    ∀ r, Laid o.delete (tr.tree.node r) (dst.node (d ++ r))
      ((run o src cwd operand dst cwd' target).1.node (d ++ r))

theorem rsync_of_fileList {o : Options} {src : FileTree C} {cwd : Path} {operand : Str}
    {l : Listing C} (h : fileList o.filter src cwd operand = some l) (dst : FileTree C)
    (cwd' : Path) (target : Str) :
    rsync o src cwd operand dst cwd' target = receive o dst cwd' target l := by
  rw [rsync, h]

theorem receive_nothing (o : Options) (dst : FileTree C) (cwd : Path) (target : Str) :
    receive o dst cwd target .nothing =
      if o.emptyDest && endsWithSlash target then
        match destDir dst cwd target with
        | none => (dst, false)
        | some d => (dst.put d .dir, true)
      else (dst, true) := rfl

/-- `rsync` on trees. -/
def copier : Copier C where
  run o := rsync o
  missing h := by rw [rsync, h]
  file h := rsync_of_fileList h _ _ _
  nothing h hno := by
    rw [rsync_of_fileList h, receive_nothing, hno]
    rfl
  emptyDest h hyes := by
    rw [rsync_of_fileList h, receive_nothing, hyes, if_pos rfl]
    split
    · exact Or.inl rfl
    · rename_i d hd
      exact Or.inr ⟨d, hd, rfl⟩
  noDir h hd := by rw [rsync_of_fileList h, receive, hd]
  outside h hd hp := by
    obtain ⟨hd', heq⟩ := receive_tree hd _
    rw [rsync_of_fileList h, heq, overlay_node, overlayNode_outside hp]
  laid h hd r := by
    obtain ⟨hd', heq⟩ := receive_tree hd _
    rw [rsync_of_fileList h, heq]
    exact laid_overlay hd' (not_symlink_of_fileList h) r

end Rsync
