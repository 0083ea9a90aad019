import Fsync.Base.Links

/-!
# When a directory is there after a request for it

`os.makedirs` of Python and the creation of a directory of Cocoa make the missing
directories that a path string runs through, links to directories included.  Both come
to the directory for the same strings, and both leave the same tree when they do not.

* `Makeable`: component by component, the string leads to a directory, or to an unused
  name in a directory where one can be made;
* `isdir_descent_iff`: the directory is there after a descent along the string exactly
  for these;
* `makedirs_eq_descent`: `os.makedirs` leaves what the descent leaves.
-/

namespace Links

open Posix Os

variable {C : Type*} {may : Path → Bool} {takes : Str → Bool}

/-! ## Made directories -/

/-- From `t` to `t'` directories were made, where they can be made. -/
abbrev MadeBy (may : Path → Bool) (t t' : LinkTree C) : Prop :=
  DirTree.Made (fun p => may p.dropLast = true) t t'

theorem MadeBy.agrees {t t' : LinkTree C} (h : MadeBy may t t') : Agrees t t' := by
  refine ⟨fun p hp => h.keeps hp, fun p text => ?_⟩
  rcases h p with h | ⟨h1, h2, -⟩
  · rw [h]
  · rw [h1, h2]
    simp

/-! ## The descent -/

section Descent

variable {d d' : Descent C} {c : Str} {cs : List Str} {u : LinkTree C}

theorem advance_of_not_dir (h : d.tree.node d.dir ≠ some .dir) (c : Str) :
    advance may d c = .error d.tree := by
  rw [advance, walk_of_not_dir h]

/-- A component that leads to what is there. -/
theorem advance_of_walk {n : ℕ} {p : Path} {e : Entry C Str}
    (hw : walk d.tree d.left d.dir [c] = some (n, p)) (he : d.tree.node p = some e) :
    advance may d c = if e.isDir then .ok ⟨d.tree, n, p⟩ else .error d.tree := by
  rw [advance, hw]
  dsimp only
  rw [he]
  cases e <;> rfl

/-- The empty component and `'.'` stay in the directory. -/
theorem advance_of_stay (hdir : d.tree.node d.dir = some .dir) (hc : c = [] ∨ c = dot) :
    advance may d c = .ok d := by
  have hl : look d.tree d.dir c = some (.place d.dir) := by
    rw [look, DirTree.isDir_iff.2 hdir, if_neg (by simp), if_pos hc]
  rw [advance_of_walk (by rw [walk_of_place hl, walk_nil]) hdir]
  rfl

/-- What a component that is passed leaves. -/
theorem advance_eq_ok (h : advance may d c = .ok d') :
    d'.tree.node d'.dir = some .dir ∧ MadeBy may d.tree d'.tree ∧
      walk d'.tree d.left d.dir [c] = some (d'.left, d'.dir) := by
  rw [advance] at h
  rcases hw : walk d.tree d.left d.dir [c] with _ | ⟨n, p⟩
  · rw [hw] at h; cases h
  rw [hw] at h
  dsimp only at h
  rcases hn : d.tree.node p with _ | e
  · rw [hn] at h
    dsimp only at h
    split at h
    · rename_i hmake
      obtain ⟨hdir, -, rfl⟩ := (look_unused_iff hn).1 hmake.1
      obtain rfl := Except.ok.inj h
      have hdrop : (d.dir ++ [c]).dropLast = d.dir := List.dropLast_concat
      have hfits : d.tree.Fits (d.dir ++ [c]) .dir := ⟨by simp, by rw [hdrop, hdir], fun _ => rfl⟩
      have hmade : MadeBy may d.tree (d.tree.put (d.dir ++ [c]) .dir) :=
        DirTree.made_put hn (by rw [hdrop]; exact hmake.2)
      exact ⟨by rw [DirTree.put_node_of_fits hfits, if_pos rfl], hmade,
        walk_of_agrees hmade.agrees hw⟩
    · cases h
  · rw [hn] at h
    cases e with
    | dir =>
      obtain rfl := Except.ok.inj h
      exact ⟨hn, DirTree.Made.refl _ _, hw⟩
    | file c => cases h
    | symlink text => cases h

/-- What a component that is not passed leaves, and that there is no directory. -/
theorem advance_eq_error (h : advance may d c = .error u) :
    u = d.tree ∧ ∀ n p, walk d.tree d.left d.dir [c] = some (n, p) →
      d.tree.node p ≠ some .dir := by
  rw [advance] at h
  rcases hw : walk d.tree d.left d.dir [c] with _ | ⟨n, p⟩
  · rw [hw] at h
    exact ⟨(Except.error.inj h).symm, by simp⟩
  rw [hw] at h
  dsimp only at h
  have hend : ∀ n' p', some (n, p) = some (n', p') → p' = p := by
    rintro n' p' heq
    exact (Prod.mk.inj (Option.some.inj heq)).2.symm
  rcases hn : d.tree.node p with _ | e
  · rw [hn] at h
    dsimp only at h
    split at h
    · cases h
    · refine ⟨(Except.error.inj h).symm, fun n' p' heq => ?_⟩
      rw [hend n' p' heq, hn]
      simp
  · rw [hn] at h
    cases e with
    | dir => cases h
    | file c =>
      refine ⟨(Except.error.inj h).symm, fun n' p' heq => ?_⟩
      rw [hend n' p' heq, hn]
      simp
    | symlink text =>
      refine ⟨(Except.error.inj h).symm, fun n' p' heq => ?_⟩
      rw [hend n' p' heq, hn]
      simp

theorem descend_cons : descend may d (c :: cs) = advance may d c >>= fun d' => descend may d' cs :=
  List.foldlM_cons

@[simp] theorem descend_singleton : descend may d [c] = advance may d c := by
  rw [descend_cons]
  cases advance may d c <;> rfl

theorem descend_append (cs ds : List Str) :
    descend may d (cs ++ ds) = descend may d cs >>= fun d' => descend may d' ds :=
  List.foldlM_append

/-- The first component of a descent that gets to its end. -/
theorem descend_cons_eq_ok : descend may d (c :: cs) = .ok d' ↔
    ∃ d₁, advance may d c = .ok d₁ ∧ descend may d₁ cs = .ok d' := by
  rw [descend_cons]
  cases advance may d c <;> simp [bind, Except.bind]

theorem descend_cons_eq_error : descend may d (c :: cs) = .error u ↔
    advance may d c = .error u ∨ ∃ d₁, advance may d c = .ok d₁ ∧ descend may d₁ cs = .error u := by
  rw [descend_cons]
  cases advance may d c <;> simp [bind, Except.bind]

/-- **What a descent leaves that gets to its end**: directories were made, and the
components now lead to a directory. -/
theorem descend_eq_ok (hdir : cs = [] → d.tree.node d.dir = some .dir)
    (h : descend may d cs = .ok d') :
    d'.tree.node d'.dir = some .dir ∧ MadeBy may d.tree d'.tree ∧
      walk d'.tree d.left d.dir cs = some (d'.left, d'.dir) := by
  induction cs generalizing d with
  | nil =>
    obtain rfl := Except.ok.inj h
    exact ⟨hdir rfl, DirTree.Made.refl _ _, walk_nil⟩
  | cons c cs ih =>
    obtain ⟨d₁, h₁, hrest⟩ := descend_cons_eq_ok.1 h
    obtain ⟨hdir₁, hmade₁, hw₁⟩ := advance_eq_ok h₁
    obtain ⟨hdir', hmade', hw'⟩ := ih (fun _ => hdir₁) hrest
    exact ⟨hdir', hmade₁.trans hmade',
      walk_cons_eq_some.2 ⟨_, _, walk_of_agrees hmade'.agrees hw₁, hw'⟩⟩

/-- **What a descent leaves that stops**: the components lead to no directory. -/
theorem descend_eq_error (h : descend may d cs = .error u) :
    MadeBy may d.tree u ∧
      ∀ n p, walk u d.left d.dir cs = some (n, p) → u.node p ≠ some .dir := by
  induction cs generalizing d with
  | nil => cases h
  | cons c cs ih =>
    rcases descend_cons_eq_error.1 h with h₁ | ⟨d₁, h₁, hrest⟩
    · obtain ⟨rfl, hno⟩ := advance_eq_error h₁
      refine ⟨DirTree.Made.refl _ _, fun n p hw => ?_⟩
      obtain ⟨n₁, p₁, hw₁, hrest⟩ := walk_cons_eq_some.1 hw
      cases cs with
      | nil =>
        obtain ⟨-, rfl⟩ := Prod.mk.inj (Option.some.inj (walk_nil.symm.trans hrest))
        exact hno n₁ _ hw₁
      | cons c' cs =>
        rw [walk_of_not_dir (hno n₁ p₁ hw₁)] at hrest
        cases hrest
    · obtain ⟨-, hmade₁, hw₁⟩ := advance_eq_ok h₁
      obtain ⟨hmade', hno⟩ := ih hrest
      refine ⟨hmade₁.trans hmade', fun n p hw => ?_⟩
      obtain ⟨n₁, p₁, hw₁', hw'⟩ := walk_cons_eq_some.1 hw
      obtain ⟨rfl, rfl⟩ := Prod.mk.inj
        (Option.some.inj (hw₁'.symm.trans (walk_of_agrees hmade'.agrees hw₁)))
      exact hno n p hw'

/-- Components that lead to what is there: nothing is made. -/
theorem descend_of_walk {t : LinkTree C} {n m : ℕ} {cur q : Path} {e : Entry C Str} (hcs : cs ≠ [])
    (hw : walk t n cur cs = some (m, q)) (he : t.node q = some e) :
    descend may ⟨t, n, cur⟩ cs = if e.isDir then .ok ⟨t, m, q⟩ else .error t := by
  induction cs generalizing n cur with
  | nil => exact absurd rfl hcs
  | cons c cs ih =>
    obtain ⟨n₁, p₁, hw₁, hrest⟩ := walk_cons_eq_some.1 hw
    rw [descend_cons]
    cases cs with
    | nil =>
      obtain ⟨rfl, rfl⟩ := Prod.mk.inj (Option.some.inj (walk_nil.symm.trans hrest))
      rw [advance_of_walk hw₁ he]
      cases e.isDir <;> rfl
    | cons c' cs =>
      have hdir : t.node p₁ = some .dir := by
        by_contra hno
        rw [walk_of_not_dir hno] at hrest
        cases hrest
      rw [advance_of_walk hw₁ hdir]
      exact ih (by simp) hrest

/-- Empty components stay in the directory. -/
theorem descend_replicate (hdir : d.tree.node d.dir = some .dir) (k : ℕ) :
    descend may d (List.replicate k []) = .ok d := by
  induction k with
  | zero => rfl
  | succ k ih =>
    rw [List.replicate_succ, descend_cons, advance_of_stay hdir (Or.inl rfl)]
    exact ih

end Descent

/-! ## Paths a directory can be made for -/

/-- A directory can be made of the components, from the place `cur` and with `n` links
left to follow. -/
inductive Makeable (may : Path → Bool) : LinkTree C → ℕ → Path → List Str → Prop
  | done {t : LinkTree C} {n : ℕ} {cur : Path} (hdir : t.node cur = some .dir) :
    Makeable may t n cur []
  /-- The component leads to a directory, through a link or not. -/
  | enter {t : LinkTree C} {n m : ℕ} {cur p : Path} {c : Str} {cs : List Str}
    (hw : walk t n cur [c] = some (m, p)) (hdir : t.node p = some .dir)
    (hrest : Makeable may t m p cs) : Makeable may t n cur (c :: cs)
  /-- It is an unused name in a directory where entries may be made, and a directory can
  be made of the rest once it is one. -/
  | make {t : LinkTree C} {n : ℕ} {cur : Path} {c : Str} {cs : List Str}
    (hdir : t.node cur = some .dir) (hname : IsPlain c) (hfree : t.node (cur ++ [c]) = none)
    (hmay : may cur = true) (hrest : Makeable may (t.put (cur ++ [c]) .dir) n (cur ++ [c]) cs) :
    Makeable may t n cur (c :: cs)

/-- A directory can be made for the path string. -/
structure LinkFs.Makeable (may : Path → Bool) (t : LinkFs C) (cwd : Path) (dir : Str) : Prop where
  ne : dir ≠ []
  comps : Links.Makeable may t.tree t.limit (start cwd dir) (dir.splitOn '/')

theorem exists_ok_iff {d : Descent C} {cs : List Str}
    (hdir : cs = [] → d.tree.node d.dir = some .dir) :
    (∃ d', descend may d cs = .ok d') ↔ Makeable may d.tree d.left d.dir cs := by
  constructor
  · rintro ⟨d', h⟩
    induction cs generalizing d with
    | nil => exact .done (hdir rfl)
    | cons c cs ih =>
      obtain ⟨d₁, h₁, hrest⟩ := descend_cons_eq_ok.1 h
      have hdir₁ := (advance_eq_ok h₁).1
      have hmake := ih (fun _ => hdir₁) hrest
      rw [advance] at h₁
      rcases hw : walk d.tree d.left d.dir [c] with _ | ⟨n, p⟩
      · rw [hw] at h₁; cases h₁
      rw [hw] at h₁
      dsimp only at h₁
      rcases hn : d.tree.node p with _ | e
      · rw [hn] at h₁
        dsimp only at h₁
        split at h₁
        · rename_i hnew
          obtain ⟨hcur, hname, rfl⟩ := (look_unused_iff hn).1 hnew.1
          obtain rfl := Except.ok.inj h₁
          rw [walk_of_place hnew.1, walk_nil] at hw
          obtain ⟨rfl, -⟩ := Prod.mk.inj (Option.some.inj hw)
          exact .make hcur hname hn hnew.2 hmake
        · cases h₁
      · rw [hn] at h₁
        cases e with
        | dir =>
          obtain rfl := Except.ok.inj h₁
          exact .enter hw hn hmake
        | file c => cases h₁
        | symlink text => cases h₁
  · intro h
    obtain ⟨t, n, cur⟩ := d
    dsimp only at h
    clear hdir
    induction h with
    | done hdir => exact ⟨_, rfl⟩
    | @enter t n m cur p c cs hw hdir _ ih =>
      obtain ⟨d', hd'⟩ := ih
      refine ⟨d', descend_cons_eq_ok.2 ⟨⟨t, m, p⟩, ?_, hd'⟩⟩
      rw [advance_of_walk hw hdir]
      rfl
    | @make t n cur c cs hdir hname hfree hmay _ ih =>
      obtain ⟨d', hd'⟩ := ih
      have hl := (look_unused_iff hfree).2 ⟨hdir, hname, rfl⟩
      refine ⟨d', descend_cons_eq_ok.2 ⟨⟨t.put (cur ++ [c]) .dir, n, cur ++ [c]⟩, ?_, hd'⟩⟩
      rw [advance, walk_of_place hl, walk_nil]
      dsimp only
      rw [hfree]
      exact if_pos ⟨hl, hmay⟩

/-! ## The creation of a directory by Cocoa -/

section Cocoa

variable {t : LinkFs C} {cwd : Path} {dir : Str}

theorem isdir_iff : isdir t cwd dir = true ↔ dir ≠ [] ∧
    ∃ m p, walk t.tree t.limit (start cwd dir) (dir.splitOn '/') = some (m, p) ∧
      t.tree.node p = some .dir := by
  have hkind : ∀ p, t.kindAt p = some .dir ↔ t.tree.node p = some .dir := by
    intro p
    rw [LinkFs.kindAt]
    split <;> simp_all
  have hstat : isdir t cwd dir = true ↔ ∃ p, t.namei cwd dir = some p ∧ t.kindAt p = some .dir := by
    rw [isdir, beq_iff_eq]
    exact Option.bind_eq_some_iff
  rw [hstat]
  constructor
  · rintro ⟨p, hp, hdir⟩
    obtain ⟨hne, m, hw⟩ := LinkFs.namei_eq_some.1 hp
    exact ⟨hne, m, p, hw, (hkind p).1 hdir⟩
  · rintro ⟨hne, m, p, hw, hdir⟩
    exact ⟨p, LinkFs.namei_eq_some.2 ⟨hne, m, hw⟩, (hkind p).2 hdir⟩

theorem madeBy_descent : MadeBy may t.tree (treeOf (t.descent may cwd dir)) := by
  cases h : t.descent may cwd dir with
  | ok d => exact (descend_eq_ok (fun h0 => absurd h0 (List.splitOn_ne_nil _ _)) h).2.1
  | error u => exact (descend_eq_error h).1

/-- What exists still exists when directories were made. -/
theorem pathExists_of_madeBy {t' : LinkFs C} {s : Str} (h : MadeBy may t.tree t'.tree)
    (hlimit : t'.limit = t.limit) (hthere : pathExists t cwd s = true) :
    pathExists t' cwd s = true := by
  obtain ⟨k, hk⟩ := Option.isSome_iff_exists.1 hthere
  obtain ⟨q, hq, hkind⟩ := Option.bind_eq_some_iff.1 hk
  refine Option.isSome_iff_exists.2 ⟨k, Option.bind_eq_some_iff.2
    ⟨q, LinkFs.namei_of_agrees h.agrees hlimit hq, ?_⟩⟩
  rw [LinkFs.kindAt] at hkind ⊢
  split at hkind
  · rename_i hnode
    rw [h.keeps hnode]
    exact hkind
  · rename_i hnode
    rw [h.keeps hnode]
    exact hkind
  · cases hkind

/-- **A directory is there after a descent along the path** exactly if it can be made. -/
theorem isdir_descent_iff :
    isdir { t with tree := treeOf (t.descent may cwd dir) } cwd dir = true ↔
      t.Makeable may cwd dir := by
  have hcomps := List.splitOn_ne_nil '/' dir
  rw [isdir_iff]
  constructor
  · rintro ⟨hne, m, p, hw, hdir⟩
    refine ⟨hne, (exists_ok_iff (d := ⟨_, _, _⟩) fun h0 => absurd h0 hcomps).1 ?_⟩
    cases h : t.descent may cwd dir with
    | ok d => exact ⟨d, h⟩
    | error u =>
      rw [h] at hw hdir
      exact absurd hdir ((descend_eq_error h).2 m p hw)
  · rintro ⟨hne, hmake⟩
    obtain ⟨d, hd⟩ := (exists_ok_iff (d := ⟨_, _, _⟩) fun h0 => absurd h0 hcomps).2 hmake
    have hdescent : t.descent may cwd dir = .ok d := hd
    obtain ⟨hdir, -, hw⟩ := descend_eq_ok (fun h0 => absurd h0 hcomps) hd
    rw [hdescent]
    exact ⟨hne, d.left, d.dir, hw, hdir⟩

/-- Nothing is made for a path that exists. -/
theorem treeOf_descent_of_pathExists (h : pathExists t cwd dir = true) :
    treeOf (t.descent may cwd dir) = t.tree := by
  obtain ⟨k, hk⟩ := Option.isSome_iff_exists.1 h
  obtain ⟨p, hp, hkind⟩ := Option.bind_eq_some_iff.1 hk
  obtain ⟨-, m, hw⟩ := LinkFs.namei_eq_some.1 hp
  cases hn : t.tree.node p with
  | none =>
    rw [LinkFs.kindAt, hn] at hkind
    cases hkind
  | some e =>
    rw [LinkFs.descent, descend_of_walk (List.splitOn_ne_nil _ _) hw hn]
    cases e.isDir <;> rfl

/-- What is there already is not asked for. -/
theorem isdir_createDirectories_iff :
    isdir (if pathExists t cwd dir then t
        else (FileSystem.createDirectories may t cwd dir).1) cwd dir = true ↔
      t.Makeable may cwd dir := by
  rw [← isdir_descent_iff]
  split
  · rename_i hex
    rw [treeOf_descent_of_pathExists hex]
  · rfl

end Cocoa

/-! ## The name that `mkdir` looks up -/

/-- The string without the slashes at its end, unless there is nothing else. -/
def stripped (s : Str) : Str := if rstripSlash s = [] then s else rstripSlash s

theorem stripped_spec (s : Str) : ∃ k, s = stripped s ++ List.replicate k '/' := by
  unfold stripped
  split
  · exact ⟨0, (List.append_nil s).symm⟩
  · exact rstripSlash_spec s

theorem stripped_ne_nil {s : Str} (h : s ≠ []) : stripped s ≠ [] := by
  unfold stripped
  split
  · exact h
  · assumption

/-- A name that `mkdir` looks up ends in a slash only if it is the root. -/
theorem stripped_of_basename {name : Str} (hne : name ≠ []) (hb : basename (stripped name) = []) :
    ∃ k, k ≠ 0 ∧ stripped name = List.replicate k '/' := by
  have hnil : rstripSlash name = [] := by
    by_contra hstrip
    rw [stripped, if_neg hstrip] at hb
    have hlast := List.rdropWhile_last_not (p := (· = '/')) name hstrip
    have hslash := List.rtakeWhile_eq_nil_iff.1 hb hstrip
    simp only [ne_eq, decide_not, Bool.not_eq_eq_eq_not, Bool.not_true, decide_eq_false_iff_not,
      not_not, decide_eq_true_eq] at hlast hslash
    exact hlast hslash
  obtain ⟨k, hk⟩ := rstripSlash_spec name
  rw [hnil, List.nil_append] at hk
  refine ⟨k, ?_, by rw [stripped, if_pos hnil, hk]⟩
  rintro rfl
  exact hne hk

/-- `os.makedirs` takes the name apart that `mkdir` looks up. -/
theorem splitForMakedirs_eq (s : Str) :
    splitForMakedirs s = (dirname (stripped s), basename (stripped s)) := by
  by_cases hb : basename s = []
  · have hhead : s.rdropWhile (· ≠ '/') = s := by
      have h := List.rdropWhile_append_rtakeWhile (p := (· ≠ '/')) (l := s)
      rw [basename] at hb
      rwa [hb, List.append_nil] at h
    have hdir : dirname s = stripped s := by
      have hnil : rstripSlash s = [] ↔ s.all (· = '/') = true := by
        rw [rstripSlash, List.rdropWhile_eq_nil_iff, List.all_eq_true]
      rw [dirname, stripped, hhead]
      by_cases hall : s.all (· = '/') = true
      · rw [if_pos hall, if_pos (hnil.2 hall)]
      · rw [if_neg hall, if_neg fun h0 => hall (hnil.1 h0)]
    rw [splitForMakedirs, if_pos hb, hdir]
  · have hstrip : stripped s = s := by
      rw [stripped, rstripSlash_of_basename hb, ite_self]
    rw [splitForMakedirs, if_neg hb, hstrip]

/-- The head is shorter, so the recursion of `os.makedirs` has fuel enough. -/
theorem length_dirname_lt {s : Str} (hb : basename s ≠ []) : (dirname s).length < s.length := by
  have hpos := List.length_pos_iff.2 hb
  rcases dirname_spec s with ⟨-, -, hs⟩ | ⟨k, hs⟩
  · have hlen := congrArg List.length hs
    rw [List.length_append] at hlen
    omega
  · have hlen := congrArg List.length hs
    simp only [List.length_append, List.length_cons] at hlen
    omega

/-- The name that `os.makedirs` recurs on is shorter. -/
theorem length_head_lt {name : Str} (hb : basename (stripped name) ≠ []) :
    (dirname (stripped name)).length < name.length := by
  have hlt := length_dirname_lt hb
  obtain ⟨k, hk⟩ := stripped_spec name
  have hlen := congrArg List.length hk
  rw [List.length_append] at hlen
  omega

theorem start_append (cwd : Path) {h : Str} (hh : h ≠ []) (rest : Str) :
    start cwd (h ++ rest) = start cwd h := by
  cases h with
  | nil => exact absurd rfl hh
  | cons c h => rfl

/-- **Head and tail**: the components of a string are those of its `dirname`, but for
empty ones at their end, and its `basename`. -/
theorem splitOn_dirname {s : Str} (hne : dirname s ≠ []) (cwd : Path) :
    start cwd s = start cwd (dirname s) ∧ ∃ zs i j, zs ≠ [] ∧
      (dirname s).splitOn '/' = zs ++ List.replicate i [] ∧
      s.splitOn '/' = zs ++ List.replicate j [] ++ [basename s] := by
  have hstart : start cwd s = start cwd (dirname s) := by
    obtain ⟨rest, hrest⟩ := dirname_isPrefix s
    conv_lhs => rw [← hrest]
    exact start_append cwd hne rest
  refine ⟨hstart, ?_⟩
  rcases dirname_spec s with ⟨k, hk, hs⟩ | ⟨k, hs⟩
  · -- the head is the root
    have hk0 : k ≠ 0 := by
      rintro rfl
      exact hne hk
    refine ⟨List.replicate k [], 1, 0, by simp [hk0], ?_, ?_⟩
    · rw [hk, splitOn_slashes, List.replicate_succ']
      rfl
    · conv_lhs => rw [hs, hk]
      rw [splitOn_slashes_basename]
      simp
  · refine ⟨(dirname s).splitOn '/', 0, k, List.splitOn_ne_nil _ _, by simp, ?_⟩
    conv_lhs => rw [hs]
    rw [splitOn_append_slash, splitOn_slashes_basename, List.append_assoc]

/-! ## `os.makedirs` -/

section Python

variable {t t₁ : LinkFs C} {cwd : Path} {name s : Str}

/-- Empty components stay in the directory. -/
theorem walk_replicate {t : LinkTree C} {n : ℕ} {p : Path} (hdir : t.node p = some .dir) (k : ℕ) :
    walk t n p (List.replicate k []) = some (n, p) := by
  induction k with
  | zero => exact walk_nil
  | succ k ih =>
    have hl : look t p [] = some (.place p) := by
      rw [look, DirTree.isDir_iff.2 hdir, if_neg (by simp), if_pos (Or.inl rfl)]
    rw [List.replicate_succ, walk_of_place hl, ih]

/-- They make no difference to a walk to a directory. -/
theorem walk_append_replicate {t : LinkTree C} {n m : ℕ} {cur p : Path} {zs : List Str} {k : ℕ}
    (hdir : t.node p = some .dir) :
    walk t n cur (zs ++ List.replicate k []) = some (m, p) ↔ walk t n cur zs = some (m, p) := by
  rw [walk_append_eq_some]
  constructor
  · rintro ⟨m', p', hw, hrest⟩
    have hdir' : t.node p' = some .dir := by
      cases k with
      | zero =>
        obtain ⟨-, rfl⟩ := Prod.mk.inj (Option.some.inj (walk_nil.symm.trans hrest))
        exact hdir
      | succ k =>
        by_contra hno
        rw [List.replicate_succ, walk_of_not_dir hno] at hrest
        cases hrest
    obtain ⟨rfl, rfl⟩ := Prod.mk.inj (Option.some.inj ((walk_replicate hdir' k).symm.trans hrest))
    exact hw
  · exact fun hw => ⟨m, p, hw, walk_replicate hdir k⟩

theorem descend_append_replicate {d : Descent C} {zs : List Str} (hzs : zs ≠ []) (k : ℕ) :
    descend may d (zs ++ List.replicate k []) = descend may d zs := by
  rw [descend_append]
  cases h : descend may d zs with
  | error u => rfl
  | ok d' => exact descend_replicate (descend_eq_ok (fun h0 => absurd h0 hzs) h).1 k

/-- The slashes at the end of a name make no difference to a descent. -/
theorem descent_stripped (t : LinkFs C) (cwd : Path) (name : Str) :
    t.descent may cwd (stripped name) = t.descent may cwd name := by
  obtain ⟨k, hk⟩ := stripped_spec name
  by_cases hne : name = []
  · rw [hne]
    rfl
  cases k with
  | zero =>
    rw [List.replicate_zero, List.append_nil] at hk
    rw [← hk]
  | succ k =>
    have hstrip := stripped_ne_nil hne
    have hsplit : name.splitOn '/' =
        (stripped name).splitOn '/' ++ List.replicate (k + 1) [] := by
      conv_lhs => rw [hk, List.replicate_succ, splitOn_append_slash, splitOn_slashes]
    have hstart : start cwd name = start cwd (stripped name) := by
      conv_lhs => rw [hk]
      exact start_append cwd hstrip _
    rw [LinkFs.descent, LinkFs.descent, hsplit, hstart,
      descend_append_replicate (List.splitOn_ne_nil _ _)]

/-- A descent goes on from the head of a name by its tail. -/
theorem descent_split (hne : dirname s ≠ []) : t.descent may cwd s =
    t.descent may cwd (dirname s) >>= fun d => advance may d (basename s) := by
  obtain ⟨hstart, zs, i, j, hzs, hhead, hs⟩ := splitOn_dirname hne cwd
  rw [LinkFs.descent, LinkFs.descent, hstart, hhead, hs, descend_append,
    descend_append_replicate hzs, descend_append_replicate hzs]
  simp only [descend_singleton]

/-- The directory in which `mkdir` looks for the last component of a name. -/
structure LookedUpIn (t : LinkFs C) (cwd : Path) (s : Str) (m : ℕ) (dir : Path) (c : Str) :
    Prop where
  ne : s ≠ []
  walk : walk t.tree t.limit (start cwd s) (s.splitOn '/').dropLast = some (m, dir)
  last : (s.splitOn '/').getLastD [] = c

/-- It is the directory of the head. -/
theorem lookedUpIn_iff (hne : dirname s ≠ []) {m : ℕ} {dir : Path} {c : Str}
    (hdir : t.tree.node dir = some .dir) : LookedUpIn t cwd s m dir c ↔
      Links.walk t.tree t.limit (start cwd (dirname s)) ((dirname s).splitOn '/') =
        some (m, dir) ∧ basename s = c := by
  obtain ⟨hstart, zs, i, j, -, hhead, hs⟩ := splitOn_dirname hne cwd
  have hs0 : s ≠ [] := by
    rintro rfl
    exact hne rfl
  have hlast : (s.splitOn '/').getLastD [] = basename s := by rw [hs]; simp
  have hinit : (s.splitOn '/').dropLast = zs ++ List.replicate j [] := by
    rw [hs, List.dropLast_concat]
  constructor
  · rintro ⟨-, hw, hc⟩
    rw [hinit, hstart, walk_append_replicate hdir] at hw
    rw [hhead, walk_append_replicate hdir, ← hlast]
    exact ⟨hw, hc⟩
  · rintro ⟨hw, hc⟩
    rw [hhead, walk_append_replicate hdir] at hw
    refine ⟨hs0, ?_, hlast.trans hc⟩
    rw [hinit, hstart, walk_append_replicate hdir]
    exact hw

theorem lookedUpIn_of_parent {dir : Path} {c : Str} (h : t.parent cwd s = some (dir, c)) :
    ∃ m, LookedUpIn t cwd s m dir c := by
  obtain ⟨hne, rfl, m, hw⟩ := LinkFs.parent_eq_some.1 h
  exact ⟨m, hne, hw, rfl⟩

/-- What a call leaves that comes to what a descent comes to: the same tree, and it
succeeds or finds an entry where the descent gets to its end. -/
structure MadeAs (t : LinkFs C) (r : LinkFs C × Except MkdirError Unit)
    (a : Except (LinkTree C) (Descent C)) : Prop where
  tree : r.1 = { t with tree := treeOf a }
  found : (∃ d, a = .ok d) → r.2 = .ok () ∨ r.2 = .error .eexist

/-- `mkdir` does what a descent does with the last component. -/
theorem mkdir_madeAs (htakes : takes name = true) {m : ℕ} {dir : Path} {c : Str}
    (h : LookedUpIn t cwd (stripped name) m dir c) :
    MadeAs t (FileSystem.mkdir may takes t cwd name) (advance may ⟨t.tree, m, dir⟩ c) := by
  have hparent : t.parent cwd (if rstripSlash name = [] then name else rstripSlash name) =
      some (dir, c) := LinkFs.parent_eq_some.2 ⟨h.ne, h.last.symm, m, h.walk⟩
  show MadeAs t (LinkFs.mkdir may takes t cwd name) _
  rw [LinkFs.mkdir, htakes, if_neg (by simp), hparent]
  dsimp only
  rcases hl : look t.tree dir c with _ | p | ⟨st, comps⟩
  · rw [advance, walk_of_none hl]
    exact ⟨rfl, by simp⟩
  · rw [advance, walk_of_place hl, walk_nil]
    dsimp only
    cases hn : t.tree.node p with
    | none =>
      dsimp only
      by_cases hmay : may dir = true
      · rw [if_neg (by simp), if_pos hmay, if_pos ⟨hl, hmay⟩]
        exact ⟨rfl, fun _ => Or.inl rfl⟩
      · rw [if_neg (by simp), if_neg hmay, if_neg fun h => hmay h.2]
        exact ⟨rfl, by simp⟩
    | some e =>
      simp only [Option.isSome_some, if_true]
      cases e <;> exact ⟨rfl, fun _ => Or.inr rfl⟩
  · -- the link is an entry, whatever it leads to
    refine ⟨?_, fun _ => Or.inr rfl⟩
    rw [advance]
    rcases hw : walk t.tree m dir [c] with _ | ⟨n, p⟩
    · rfl
    · dsimp only
      cases hn : t.tree.node p with
      | none =>
        rw [if_neg (by rw [hl]; simp)]
        rfl
      | some e => cases e <;> rfl

/-- `mkdir` makes nothing where there is no directory to make it in. -/
theorem mkdir_of_no_dir
    (h : ∀ m dir c, LookedUpIn t cwd (stripped name) m dir c → t.tree.node dir ≠ some .dir) :
    (FileSystem.mkdir may takes t cwd name).1 = t := by
  show (LinkFs.mkdir may takes t cwd name).1 = t
  rw [LinkFs.mkdir]
  split
  · rfl
  split
  · rfl
  · rename_i dir c hparent
    obtain ⟨m, hm⟩ := lookedUpIn_of_parent (s := stripped name) hparent
    rw [look_of_not_dir (h m dir c hm)]

/-- `mkdir` of a name whose head was descended to. -/
theorem mkdir_of_head (htakes : takes name = true) (hne : dirname (stripped name) ≠ [])
    (hlimit : t₁.limit = t.limit)
    (ht₁ : t₁.tree = treeOf (t.descent may cwd (dirname (stripped name)))) :
    MadeAs t (FileSystem.mkdir may takes t₁ cwd name) (t.descent may cwd name) := by
  have hcomps := List.splitOn_ne_nil '/' (dirname (stripped name))
  rw [← descent_stripped, descent_split hne]
  cases h : t.descent may cwd (dirname (stripped name)) with
  | ok d =>
    rw [h] at ht₁
    obtain ⟨hdir, -, hw⟩ := descend_eq_ok (fun h0 => absurd h0 hcomps) h
    have htree : d.tree = t₁.tree := ht₁.symm
    rw [htree] at hdir hw
    rw [← hlimit] at hw
    have hmade : MadeAs t₁ (FileSystem.mkdir may takes t₁ cwd name)
        (advance may ⟨t₁.tree, d.left, d.dir⟩ (basename (stripped name))) :=
      mkdir_madeAs htakes ((lookedUpIn_iff hne hdir).2 ⟨hw, rfl⟩)
    rw [← htree] at hmade
    refine ⟨hmade.tree.trans ?_, hmade.found⟩
    cases t₁
    cases t
    cases hlimit
    rfl
  | error u =>
    rw [h] at ht₁
    have hno := (descend_eq_error h).2
    have htree : t₁ = { t with tree := u } := by
      cases t₁
      cases t
      cases hlimit
      cases ht₁
      rfl
    refine ⟨?_, by rintro ⟨d, hd⟩; cases hd⟩
    rw [mkdir_of_no_dir]
    · exact htree
    · intro m dir c hlooked hdir
      have hw := ((lookedUpIn_iff hne hdir).1 hlooked).1
      rw [htree] at hw hdir
      exact hno m dir hw hdir

/-- `mkdir` of a name without a proper head. -/
theorem mkdir_of_leaf (htakes : takes name = true) (hne : name ≠ [])
    (hleaf : dirname (stripped name) = [] ∨ basename (stripped name) = []) :
    MadeAs t (FileSystem.mkdir may takes t cwd name) (t.descent may cwd name) := by
  rw [← descent_stripped]
  rcases hleaf with hhead | htail
  · -- a component of the working directory
    have hslash : '/' ∉ stripped name := by
      intro hmem
      rcases dirname_spec (stripped name) with ⟨k, -, hs⟩ | ⟨k, hs⟩
      · rw [hhead, List.nil_append] at hs
        rw [hs] at hmem
        exact slash_notMem_basename _ hmem
      · rw [hhead] at hs
        exact dirname_ne_nil (by rw [hs]; rfl) hhead
    have hsplit := List.splitOn_eq_singleton hslash
    rw [LinkFs.descent, hsplit, descend_singleton]
    exact mkdir_madeAs htakes
      ⟨stripped_ne_nil hne, by rw [hsplit]; exact walk_nil, by rw [hsplit]; rfl⟩
  · -- the root
    obtain ⟨k, hk0, hk⟩ := stripped_of_basename hne htail
    have hstart : start cwd (stripped name) = [] := by
      rw [hk, start, if_pos]
      cases k with
      | zero => exact absurd rfl hk0
      | succ k => rfl
    have hsplit : (stripped name).splitOn '/' = List.replicate (k + 1) [] := by
      rw [hk, splitOn_slashes]
    have hinit : (List.replicate (k + 1) ([] : Str)).dropLast = List.replicate k [] := by
      rw [List.replicate_succ', List.dropLast_concat]
    have hmade : MadeAs t (FileSystem.mkdir may takes t cwd name)
        (advance may ⟨t.tree, t.limit, []⟩ []) := by
      refine mkdir_madeAs htakes ⟨stripped_ne_nil hne, ?_, ?_⟩
      · rw [hsplit, hstart, hinit, walk_replicate t.tree.root]
      · rw [hsplit, List.replicate_succ']
        simp
    rw [advance_of_stay t.tree.root (Or.inl rfl)] at hmade
    rw [LinkFs.descent, hstart, hsplit, descend_replicate t.tree.root]
    exact hmade

/-- The end of a turn of `os.makedirs` whose head was made or found. -/
theorem makedirs_of_head (hne : dirname (stripped name) ≠ [])
    (ht₁ : t₁ = { t with tree := treeOf (t.descent may cwd (dirname (stripped name))) })
    (htakes : basename (stripped name) ≠ dot → takes name = true) :
    MadeAs t (if basename (stripped name) = dot then (t₁, .ok ())
      else FileSystem.mkdir may takes t₁ cwd name) (t.descent may cwd name) := by
  split
  · rename_i hdot
    have hstay : t.descent may cwd name = t.descent may cwd (dirname (stripped name)) := by
      rw [← descent_stripped, descent_split hne, hdot]
      cases h : t.descent may cwd (dirname (stripped name)) with
      | ok d =>
        have hcomps := List.splitOn_ne_nil '/' (dirname (stripped name))
        exact advance_of_stay (descend_eq_ok (fun h0 => absurd h0 hcomps) h).1 (Or.inr rfl)
      | error u => rfl
    rw [hstay]
    exact ⟨ht₁, fun _ => Or.inl rfl⟩
  · rename_i hdot
    exact mkdir_of_head (htakes hdot) hne (by rw [ht₁]) (by rw [ht₁])

/-- The recursion of `os.makedirs` comes to what the descent comes to. -/
theorem makedirsAux_madeAs (fuel : ℕ) (hfuel : name.length < fuel) (hne : name ≠ [])
    (htext : ∀ s, (makedirsAux may takes fuel t cwd name).2 ≠ .error (.text s)) :
    MadeAs t (makedirsAux may takes fuel t cwd name) (t.descent may cwd name) := by
  induction fuel generalizing name with
  | zero => omega
  | succ fuel ih =>
    have hmkdir : ∀ {u : LinkFs C},
        (∀ s, (FileSystem.mkdir may takes u cwd name).2 ≠ .error (.text s)) →
          takes name = true := by
      intro u h
      by_contra htakes
      refine h name ?_
      show (LinkFs.mkdir may takes u cwd name).2 = _
      rw [LinkFs.mkdir, if_pos (by simpa using htakes)]
    rw [makedirsAux, splitForMakedirs_eq] at htext ⊢
    dsimp only at htext ⊢
    by_cases hleaf : dirname (stripped name) = [] ∨ basename (stripped name) = []
    · rw [if_pos hleaf] at htext ⊢
      exact mkdir_of_leaf (hmkdir htext) hne hleaf
    rw [if_neg hleaf] at htext ⊢
    rw [not_or] at hleaf
    split at htext
    · exact absurd rfl (htext _)
    rename_i hhead
    rw [if_neg hhead]
    split at htext
    · rename_i hex
      rw [if_pos hex]
      exact mkdir_of_head (hmkdir htext) hleaf.1 rfl (treeOf_descent_of_pathExists hex).symm
    rename_i hex
    rw [if_neg hex]
    -- the directories above are made first
    have hfuel' : (dirname (stripped name)).length < fuel :=
      Nat.lt_of_lt_of_le (length_head_lt hleaf.2) (Nat.lt_succ_iff.1 hfuel)
    have hrec := ih hfuel' hleaf.1
    have hlast : ∀ {u : LinkFs C}, (∀ s, (if basename (stripped name) = dot then (u, .ok ())
          else FileSystem.mkdir may takes u cwd name : LinkFs C × Except MkdirError Unit).2 ≠
        .error (.text s)) → basename (stripped name) ≠ dot → takes name = true := by
      intro u h hdot
      rw [if_neg hdot] at h
      exact hmkdir h
    rcases hres : makedirsAux may takes fuel t cwd (dirname (stripped name)) with ⟨t₁, result⟩
    rw [hres] at hrec htext
    rcases result with e | ⟨⟩
    · cases e with
      | text s => exact absurd rfl (htext s)
      | eexist => exact makedirs_of_head hleaf.1 (hrec (by simp)).tree (hlast htext)
      | other =>
        -- the head was not made, and nothing is made below it
        have hmade := hrec (by simp)
        rw [← descent_stripped, descent_split hleaf.1]
        cases h : t.descent may cwd (dirname (stripped name)) with
        | ok d => exact absurd (hmade.found ⟨d, h⟩) (by simp)
        | error u =>
          have htree := hmade.tree
          rw [h] at htree
          exact ⟨htree, by rintro ⟨d, hd⟩; cases hd⟩
    · exact makedirs_of_head hleaf.1 (hrec (by simp)).tree (hlast htext)

/-- **`os.makedirs` leaves what a descent along its argument leaves.** -/
theorem makedirs_eq_descent (htext : ∀ s, (makedirs may takes t cwd name).2 ≠ .error (.text s)) :
    (makedirs may takes t cwd name).1 = { t with tree := treeOf (t.descent may cwd name) } := by
  by_cases hne : name = []
  · subst hne
    have hnone : ∀ m dir c, LookedUpIn t cwd (stripped []) m dir c →
        t.tree.node dir ≠ some .dir := fun m dir c h => absurd rfl h.ne
    have hleft : (makedirs may takes t cwd []).1 = t := mkdir_of_no_dir hnone
    have hstay : treeOf (t.descent may cwd []) = t.tree := by
      show treeOf (descend may ⟨t.tree, t.limit, cwd⟩ [[]]) = t.tree
      rw [descend_singleton]
      by_cases hdir : t.tree.node cwd = some .dir
      · rw [advance_of_stay hdir (Or.inl rfl)]
        rfl
      · rw [advance_of_not_dir hdir]
        rfl
    rw [hleft, hstay]
  · exact (makedirsAux_madeAs _ (Nat.lt_succ_self _) hne htext).tree

/-- **A directory is there after `os.makedirs`** exactly if it can be made. -/
theorem isdir_makedirs_iff
    (htext : ∀ s, (makedirs may takes t cwd name).2 ≠ .error (.text s)) :
    isdir (makedirs may takes t cwd name).1 cwd name = true ↔ t.Makeable may cwd name := by
  rw [makedirs_eq_descent htext, isdir_descent_iff]

end Python

end Links
