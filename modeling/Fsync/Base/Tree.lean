import Mathlib.Data.Finset.Image
import Mathlib.Data.List.Infix
import Mathlib.Tactic.Common

/-!
# File trees

A file tree maps a place, the list of names that leads to it from the root, to
what is there: a file with its data, a directory, or a symbolic link.  The
structure `DirTree` carries what makes such a map a tree: only finitely many
places are used, the root is a directory, and so is the place above every used
one.  A symbolic link is a leaf.  What it holds is a parameter: the text of a path, or
only what a look through it finds, for what does not depend on where it leads.

Every operation builds a `DirTree` again, so the proofs that it stays well formed
are made here once: `put` (write one entry), `subtree`, `nest` (put a tree below
a name), `prune` (drop the places a test refuses) and `overlay` (lay a tree over
a directory of another one).
-/

/-! ## Entries and trees -/

/-- What a look at a path reports. -/
inductive Kind where
  | file
  | dir
  deriving DecidableEq, Repr

/-- What a place holds. -/
inductive Entry (C : Type*) (L : Type := Option Kind) where
  | file (data : C)
  | dir
  /-- A symbolic link; the default is what is found at its other end (nothing if it
  dangles). -/
  | symlink (leadsTo : L)
  deriving DecidableEq, Repr

/-- The entry is a directory. -/
def Entry.isDir {C : Type*} {L : Type} : Entry C L → Bool
  | .dir => true
  | _ => false

theorem Entry.isDir_iff {C : Type*} {L : Type} {e : Entry C L} : e.isDir = true ↔ e = .dir := by
  cases e <;> simp [Entry.isDir]

/-- A finite tree of files, directories and symbolic links over names `ν`. -/
structure DirTree (ν C : Type*) (L : Type := Option Kind) where
  /-- What the place holds. -/
  node : List ν → Option (Entry C L)
  /-- The places in use. -/
  dom : Finset (List ν)
  mem_dom : ∀ p, p ∈ dom ↔ (node p).isSome
  root : node [] = some .dir
  parent : ∀ p n, (node (p ++ [n])).isSome → node p = some .dir

namespace DirTree

variable {ν C : Type*} {L : Type}

@[ext] theorem ext {t u : DirTree ν C L} (h : ∀ p, t.node p = u.node p) : t = u := by
  have hnode : t.node = u.node := funext h
  have hdom : t.dom = u.dom := by
    ext p
    rw [t.mem_dom, u.mem_dom, h p]
  cases t; cases u
  simp only at hnode hdom
  subst hnode hdom
  rfl

/-- Is there a directory at `p`? -/
def isDir (t : DirTree ν C L) (p : List ν) : Bool :=
  match t.node p with
  | some .dir => true
  | _ => false

theorem isDir_iff {t : DirTree ν C L} {p : List ν} :
    t.isDir p = true ↔ t.node p = some .dir := by
  rw [isDir]
  split <;> simp_all

/-- The place above a used one is a directory. -/
theorem dir_of_concat (t : DirTree ν C L) {p : List ν} {n : ν} {e : Entry C L}
    (h : t.node (p ++ [n]) = some e) : t.node p = some .dir :=
  t.parent p n (by rw [h]; rfl)

/-- Every place on the way to a used one is a directory. -/
theorem dir_of_append (t : DirTree ν C L) {p q : List ν} (hq : q ≠ [])
    (h : (t.node (p ++ q)).isSome) : t.node p = some .dir := by
  induction q using List.reverseRecOn with
  | nil => exact absurd rfl hq
  | append_singleton q n ih =>
    have hdir : t.node (p ++ q) = some .dir := t.parent (p ++ q) n (by rwa [List.append_assoc])
    by_cases h0 : q = []
    · subst h0; simpa using hdir
    · exact ih h0 (by rw [hdir]; rfl)

theorem dir_of_isPrefix (t : DirTree ν C L) {p q : List ν} (hpq : p <+: q) (hne : p ≠ q)
    (h : (t.node q).isSome) : t.node p = some .dir := by
  obtain ⟨r, rfl⟩ := hpq
  exact t.dir_of_append (by rintro rfl; simp at hne) h

/-- Nothing is below a place that is not a directory. -/
theorem node_append_eq_none (t : DirTree ν C L) {p q : List ν} (hp : t.node p ≠ some .dir)
    (hq : q ≠ []) : t.node (p ++ q) = none := by
  by_contra h
  exact hp (t.dir_of_append hq (Option.isSome_iff_ne_none.2 h))

/-- A tree from its node map and any finite set that holds the places in use. -/
def ofNode (node : List ν → Option (Entry C L)) (bound : Finset (List ν))
    (hbound : ∀ p, (node p).isSome → p ∈ bound) (root : node [] = some .dir)
    (parent : ∀ p n, (node (p ++ [n])).isSome → node p = some .dir) : DirTree ν C L where
  node := node
  dom := bound.filter fun p => (node p).isSome
  mem_dom p := by
    rw [Finset.mem_filter]
    exact ⟨fun h => h.2, fun h => ⟨hbound p h, h⟩⟩
  root := root
  parent := parent

@[simp] theorem ofNode_node (node : List ν → Option (Entry C L)) (bound : Finset (List ν))
    (hb hr hp) : (ofNode node bound hb hr hp).node = node := rfl

/-- The tree that holds only its root. -/
def empty : DirTree ν C L :=
  ofNode (fun p => if p.isEmpty then some .dir else none) {[]}
    (by intro p hp; cases p <;> simp_all) rfl (by simp)

/-! ## Writing one entry -/

/-- The entry `e` can be written at `p`: the place above is a directory, and a
directory that is already there stays one. -/
def Fits (t : DirTree ν C L) (p : List ν) (e : Entry C L) : Prop :=
  p ≠ [] ∧ t.node p.dropLast = some .dir ∧ (t.node p = some .dir → e = .dir)

/-- A file that is there can be written again. -/
theorem fits_of_file {t : DirTree ν C L} {p : List ν} {c d : C} (h : t.node p = some (.file c)) :
    t.Fits p (.file d) := by
  have hp : p ≠ [] := by
    rintro rfl
    rw [t.root] at h
    cases h
  refine ⟨hp, ?_, fun hd => by rw [h] at hd; cases hd⟩
  refine t.dir_of_isPrefix (List.dropLast_prefix p) (fun hc => hp ?_) (by rw [h]; rfl)
  have hlen := congrArg List.length hc
  rw [List.length_dropLast] at hlen
  exact List.eq_nil_of_length_eq_zero (by omega)

variable [DecidableEq ν]

instance (t : DirTree ν C L) (p : List ν) (e : Entry C L) : Decidable (t.Fits p e) :=
  decidable_of_iff (p ≠ [] ∧ t.isDir p.dropLast = true ∧ (t.isDir p = true → e.isDir = true))
    (by simp only [isDir_iff, Entry.isDir_iff, Fits])

/-- Write the entry `e` at `p`, where it fits. -/
def putAt (t : DirTree ν C L) (p : List ν) (e : Entry C L) (h : t.Fits p e) : DirTree ν C L :=
  ofNode (fun q => if q = p then some e else t.node q) (insert p t.dom)
    (by
      intro q hq
      by_cases hqp : q = p
      · simp [hqp]
      · rw [if_neg hqp] at hq
        exact Finset.mem_insert_of_mem ((t.mem_dom q).2 hq))
    (by rw [if_neg (Ne.symm h.1)]; exact t.root)
    (by
      intro q n hq
      by_cases hqn : q ++ [n] = p
      · subst hqn
        have hdir : t.node q = some .dir := by simpa using h.2.1
        rw [if_neg (by simp), hdir]
      · rw [if_neg hqn] at hq
        have hdir : t.node q = some .dir := t.parent q n hq
        by_cases hqp : q = p
        · rw [if_pos hqp, h.2.2 (hqp ▸ hdir)]
        · rw [if_neg hqp, hdir])

/-- Write the entry `e` at `p`; the tree is left as it is where it does not fit. -/
def put (t : DirTree ν C L) (p : List ν) (e : Entry C L) : DirTree ν C L :=
  if h : t.Fits p e then t.putAt p e h else t

theorem put_node_of_fits {t : DirTree ν C L} {p : List ν} {e : Entry C L}
    (h : t.Fits p e) (q : List ν) : (t.put p e).node q = if q = p then some e else t.node q := by
  rw [put, dif_pos h]
  rfl

@[simp] theorem put_node_of_ne (t : DirTree ν C L) {p q : List ν} (e : Entry C L)
    (h : q ≠ p) : (t.put p e).node q = t.node q := by
  rw [put]
  split
  · exact if_neg h
  · rfl

/-- Writing what is there already changes nothing. -/
theorem put_eq_self {t : DirTree ν C L} {p : List ν} {e : Entry C L}
    (h : t.node p = some e) : t.put p e = t := by
  ext1 q
  rw [put]
  split
  · by_cases hq : q = p
    · subst hq
      rw [h]
      exact if_pos rfl
    · exact if_neg hq
  · rfl

/-- Writing where no directory is leaves every directory. -/
theorem put_dir {t : DirTree ν C L} {p q : List ν} (hp : t.node p ≠ some .dir)
    (e : Entry C L) (h : t.node q = some .dir) : (t.put p e).node q = some .dir := by
  rw [put_node_of_ne t e (by rintro rfl; exact hp h)]
  exact h

/-- Writing a file leaves every directory. -/
theorem put_file_dir {t : DirTree ν C L} (p : List ν) (c : C) {q : List ν}
    (h : t.node q = some .dir) : (t.put p (.file c)).node q = some .dir := by
  by_cases hq : q = p
  · subst hq
    rw [put, dif_neg (fun hf => by cases hf.2.2 h)]
    exact h
  · rw [put_node_of_ne t _ hq]
    exact h

/-! ## Made directories -/

/-- From `t` to `t'` the only change is that places with `Q` that were unused have
become directories. -/
def Made (Q : List ν → Prop) (t t' : DirTree ν C L) : Prop :=
  ∀ p, t'.node p = t.node p ∨ (t.node p = none ∧ t'.node p = some .dir ∧ Q p)

section Made

variable {Q Q' : List ν → Prop} {t u v : DirTree ν C L} {p : List ν}

omit [DecidableEq ν] in
theorem Made.refl (Q : List ν → Prop) (t : DirTree ν C L) : Made Q t t := fun _ => Or.inl rfl

omit [DecidableEq ν] in
theorem Made.mono (h : Made Q t u) (hQ : ∀ p, Q p → Q' p) : Made Q' t u := by
  intro p
  rcases h p with h | ⟨h1, h2, h3⟩
  · exact Or.inl h
  · exact Or.inr ⟨h1, h2, hQ p h3⟩

omit [DecidableEq ν] in
theorem Made.trans (h : Made Q t u) (h' : Made Q u v) : Made Q t v := by
  intro p
  rcases h p with h1 | ⟨h1, h2, h3⟩ <;> rcases h' p with h4 | ⟨h4, h5, h6⟩
  · exact Or.inl (h4.trans h1)
  · exact Or.inr ⟨h1 ▸ h4, h5, h6⟩
  · exact Or.inr ⟨h1, h4.trans h2, h3⟩
  · rw [h2] at h4; cases h4

omit [DecidableEq ν] in
/-- What is there stays as it is. -/
theorem Made.keeps {e : Entry C L} (h : Made Q t u) (hp : t.node p = some e) :
    u.node p = some e := by
  rcases h p with h | ⟨h, -, -⟩
  · rw [h, hp]
  · rw [hp] at h; cases h

theorem made_put (hp : t.node p = none) (hQ : Q p) : Made Q t (t.put p .dir) := by
  intro q
  by_cases hq : q = p
  · subst hq
    rw [put]
    split
    · exact Or.inr ⟨hp, if_pos rfl, hQ⟩
    · exact Or.inl rfl
  · exact Or.inl (put_node_of_ne t .dir hq)

end Made

/-! ## The tree below a directory, and a tree put below a name -/

/-- The tree below the directory `p`. -/
def subtree (t : DirTree ν C L) (p : List ν) (h : t.node p = some .dir) : DirTree ν C L :=
  ofNode (fun q => t.node (p ++ q)) ((t.dom.filter (p <+: ·)).image (·.drop p.length))
    (by
      intro q hq
      rw [Finset.mem_image]
      exact ⟨p ++ q, Finset.mem_filter.2 ⟨(t.mem_dom _).2 hq, List.prefix_append p q⟩, by simp⟩)
    (by rwa [List.append_nil])
    (by
      intro q n hq
      exact t.parent (p ++ q) n (by rwa [List.append_assoc]))

@[simp] theorem subtree_node (t : DirTree ν C L) (p : List ν) (h : t.node p = some .dir)
    (q : List ν) : (t.subtree p h).node q = t.node (p ++ q) := rfl

/-- The node map of `nest`. -/
def nestNode (n : ν) (t : DirTree ν C L) : List ν → Option (Entry C L)
  | [] => some .dir
  | m :: q => if m = n then t.node q else none

/-- The tree whose root holds `t` under the name `n` and nothing else. -/
def nest (n : ν) (t : DirTree ν C L) : DirTree ν C L :=
  ofNode (nestNode n t) (insert [] (t.dom.image (n :: ·)))
    (by
      intro p hp
      cases p with
      | nil => simp
      | cons m q =>
        rw [nestNode] at hp
        split at hp
        · rename_i hm
          subst hm
          exact Finset.mem_insert_of_mem (Finset.mem_image_of_mem _ ((t.mem_dom q).2 hp))
        · cases hp)
    rfl
    (by
      intro p k hp
      cases p with
      | nil => rfl
      | cons m q =>
        rw [List.cons_append, nestNode] at hp
        rw [nestNode]
        split at hp
        · rename_i hm
          rw [if_pos hm]
          exact t.parent q k hp
        · cases hp)

@[simp] theorem nest_node_nil (n : ν) (t : DirTree ν C L) : (nest n t).node [] = some .dir := rfl

@[simp] theorem nest_node_cons (n m : ν) (t : DirTree ν C L) (q : List ν) :
    (nest n t).node (m :: q) = if m = n then t.node q else none := rfl

/-! ## Dropping places -/

/-- A place passes a test if every used place on the way to it does, itself
included; the root is not asked. -/
def passes (t : DirTree ν C L) (keep : List ν → Entry C L → Bool) (p : List ν) : Bool :=
  p.inits.all fun q => q.isEmpty || (t.node q).any (keep q)

omit [DecidableEq ν] in
theorem passes_iff {t : DirTree ν C L} {keep : List ν → Entry C L → Bool} {p : List ν} :
    t.passes keep p = true ↔
      ∀ q, q <+: p → q ≠ [] → ∃ e, t.node q = some e ∧ keep q e = true := by
  simp only [passes, List.all_eq_true, List.mem_inits, Bool.or_eq_true, List.isEmpty_iff,
    Option.any_eq_true]
  exact ⟨fun h q hq hne => (h q hq).resolve_left hne, fun h q hq =>
    or_iff_not_imp_left.2 (h q hq)⟩

omit [DecidableEq ν] in
theorem passes_above {t : DirTree ν C L} {keep : List ν → Entry C L → Bool} {p q : List ν}
    (hqp : q <+: p) (h : t.passes keep p = true) : t.passes keep q = true :=
  passes_iff.2 fun r hr => passes_iff.1 h r (hr.trans hqp)

/-- The places that pass a test, with the root. -/
def prune (t : DirTree ν C L) (keep : List ν → Entry C L → Bool) : DirTree ν C L :=
  ofNode (fun p => if t.passes keep p then t.node p else none) t.dom
    (by
      intro p hp
      split at hp
      · exact (t.mem_dom p).2 hp
      · cases hp)
    (by rw [if_pos (passes_iff.2 fun q hq hne => absurd (List.prefix_nil.1 hq) hne), t.root])
    (by
      intro p n hp
      split at hp
      · rename_i hk
        rw [if_pos (passes_above (List.prefix_append p [n]) hk), t.parent p n hp]
      · cases hp)

omit [DecidableEq ν] in
theorem prune_node (t : DirTree ν C L) (keep : List ν → Entry C L → Bool) (p : List ν) :
    (t.prune keep).node p = if t.passes keep p then t.node p else none := rfl

end DirTree
