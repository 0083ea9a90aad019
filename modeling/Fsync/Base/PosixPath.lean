import Mathlib.Data.List.DropRight
import Mathlib.Data.List.Infix
import Mathlib.Tactic.Common

/-!
# Python's `posixpath`

The string functions of Python 2.7's `os.path` on a POSIX system: `join`,
`normpath`, `abspath`, `relpath`, `dirname` and `basename`.  A string is the
list of its characters, and a path string is taken apart by splitting it at
`'/'`.

The main results concern absolute paths.  `absComps` is the list of names that
is left of a path string once empty and `'.'` components are dropped and `'..'`
has removed the component before it; `comps_normpath` says that these are the
non-empty components of the normalised string, and `absComps_join_toStr` how a
relative path continues the directory it is relative to.
-/

namespace Posix

/-- A string, as the list of its characters. -/
abbrev Str := List Char

/-- A place in a file tree, as the list of names that leads to it. -/
abbrev Path := List Str

/-- The component `'.'`. -/
def dot : Str := ['.']

/-- The component `'..'`. -/
def dotdot : Str := ['.', '.']

/-! ## The functions -/

/-- `s.startswith('/')`. -/
def isabs (s : Str) : Bool := s.head? == some '/'

/-- `s.endswith('/')`. -/
def endsWithSlash (s : Str) : Bool := s.getLast? == some '/'

/-- `os.path.join` of two strings. -/
def join₂ (a b : Str) : Str :=
  if isabs b then b
  else if a = [] ∨ endsWithSlash a then a ++ b
  else a ++ '/' :: b

/-- `os.path.join(a, *ps)`. -/
def join (a : Str) (ps : List Str) : Str := ps.foldl join₂ a

/-- One turn of the loop of `normpath`: `new_comps` is kept in order, so the
component a `'..'` removes is the last one. -/
def pushComp (absolute : Bool) (newComps : List Str) (comp : Str) : List Str :=
  if comp = [] ∨ comp = dot then newComps
  else if comp ≠ dotdot ∨ (absolute = false ∧ newComps = []) ∨
      newComps.getLast? = some dotdot then newComps ++ [comp]
  else newComps.dropLast

/-- How many slashes `normpath` keeps in front: POSIX gives two a meaning of
their own, three or more are one. -/
def initialSlashes (s : Str) : ℕ :=
  if ['/', '/'] <+: s ∧ ¬ ['/', '/', '/'] <+: s then 2
  else if isabs s then 1 else 0

/-- `os.path.normpath`. -/
def normpath (s : Str) : Str :=
  if s = [] then dot
  else
    let slashes := initialSlashes s
    let comps := (s.splitOn '/').foldl (pushComp (slashes != 0)) []
    let path := List.replicate slashes '/' ++ ['/'].intercalate comps
    if path = [] then dot else path

/-- `os.path.abspath`, for a process whose working directory is `cwd`. -/
def abspath (cwd s : Str) : Str := normpath (if isabs s then s else join cwd [s])

/-- The non-empty components of a path string. -/
def comps (s : Str) : List Str := (s.splitOn '/').filter (· ≠ [])

/-- `os.path.commonprefix` of two lists of components. -/
def commonPrefix : List Str → List Str → List Str
  | a :: as, b :: bs => if a = b then a :: commonPrefix as bs else []
  | _, _ => []

/-- `os.path.relpath(path, start)`. -/
def relpath (cwd path start : Str) : Str :=
  let startList := comps (abspath cwd start)
  let pathList := comps (abspath cwd path)
  let i := (commonPrefix startList pathList).length
  let relList := List.replicate (startList.length - i) dotdot ++ pathList.drop i
  match relList with
  | [] => dot
  | a :: rest => join a rest

/-- `s.rstrip('/')`. -/
def rstripSlash (s : Str) : Str := s.rdropWhile (· = '/')

/-- `os.path.dirname`: the head of `os.path.split`. -/
def dirname (s : Str) : Str :=
  let head := s.rdropWhile (· ≠ '/')
  if head.all (· = '/') then head else rstripSlash head

/-- `os.path.basename`: the tail of `os.path.split`. -/
def basename (s : Str) : Str := s.rtakeWhile (· ≠ '/')

/-! ## Names and absolute paths -/

/-- A component that names something itself: not empty, not `'.'` or `'..'`,
and without a slash. -/
def IsName (c : Str) : Prop := c ≠ [] ∧ c ≠ dot ∧ c ≠ dotdot ∧ '/' ∉ c

instance : DecidablePred IsName := fun _ => inferInstanceAs (Decidable (_ ∧ _ ∧ _ ∧ _))

/-- The string of an absolute path. -/
def toStr (p : Path) : Str := '/' :: ['/'].intercalate p

/-- The place an absolute path string leads to. -/
def absComps (s : Str) : Path := (s.splitOn '/').foldl (pushComp true) []

/-- The place a path string leads to, read in the directory `p`. -/
def absCompsFrom (p : Path) (s : Str) : Path :=
  (s.splitOn '/').foldl (pushComp true) (if isabs s then [] else p)

/-! ## The loop of `normpath` -/

@[simp] theorem pushComp_nil (b : Bool) (st : List Str) : pushComp b st [] = st := by
  simp [pushComp]

@[simp] theorem pushComp_dot (b : Bool) (st : List Str) : pushComp b st dot = st := by
  simp [pushComp]

theorem foldl_pushComp_replicate_nil (b : Bool) (k : ℕ) (st : List Str) :
    (List.replicate k []).foldl (pushComp b) st = st := by
  induction k with
  | zero => rfl
  | succ k ih => rw [List.replicate_succ, List.foldl_cons, pushComp_nil, ih]

theorem pushComp_name (b : Bool) (st : List Str) {c : Str} (h : IsName c) :
    pushComp b st c = st ++ [c] := by
  simp [pushComp, h.1, h.2.1, h.2.2.1]

/-- In an absolute path whose stack holds names only, `'..'` pops. -/
theorem pushComp_dotdot {st : List Str} (h : ∀ c ∈ st, c ≠ dotdot) :
    pushComp true st dotdot = st.dropLast := by
  have hlast : st.getLast? ≠ some dotdot := fun hc => h _ (List.mem_of_getLast? hc) rfl
  rw [pushComp, if_neg (by decide), if_neg (by simp [hlast])]

/-- Names only stay on the stack of an absolute path. -/
theorem pushComp_names {st : List Str} {c : Str} (hst : ∀ x ∈ st, IsName x) (hc : '/' ∉ c) :
    ∀ x ∈ pushComp true st c, IsName x := by
  intro x hx
  by_cases hd : c = dotdot
  · subst hd
    rw [pushComp_dotdot fun y hy => (hst y hy).2.2.1] at hx
    exact hst x (List.mem_of_mem_dropLast hx)
  · by_cases h0 : c = [] ∨ c = dot
    · rw [pushComp, if_pos h0] at hx
      exact hst x hx
    · rw [not_or] at h0
      rw [pushComp_name true st ⟨h0.1, h0.2, hd, hc⟩] at hx
      rcases List.mem_append.1 hx with hx | hx
      · exact hst x hx
      · rw [List.mem_singleton.1 hx]
        exact ⟨h0.1, h0.2, hd, hc⟩

theorem foldl_pushComp_names {cs : List Str} {st : List Str} (hst : ∀ x ∈ st, IsName x)
    (hcs : ∀ c ∈ cs, '/' ∉ c) : ∀ x ∈ cs.foldl (pushComp true) st, IsName x := by
  induction cs generalizing st with
  | nil => exact hst
  | cons c cs ih =>
    rw [List.foldl_cons]
    exact ih (pushComp_names hst (hcs c (by simp))) fun d hd => hcs d (by simp [hd])

theorem foldl_pushComp_of_names {cs : List Str} (b : Bool) (st : List Str)
    (h : ∀ c ∈ cs, IsName c) : cs.foldl (pushComp b) st = st ++ cs := by
  induction cs generalizing st with
  | nil => simp
  | cons c cs ih =>
    rw [List.foldl_cons, pushComp_name b st (h c (by simp)), ih _ fun d hd => h d (by simp [hd])]
    simp

/-- Without a `'..'` a component is pushed or skipped. -/
theorem pushComp_of_ne_dotdot (st : List Str) {c : Str} (hc : c ≠ dotdot) :
    pushComp true st c = if c = [] ∨ c = dot then st else st ++ [c] := by
  by_cases h0 : c = [] ∨ c = dot
  · rw [if_pos h0, pushComp, if_pos h0]
  · rw [if_neg h0, pushComp, if_neg h0, if_pos (Or.inl hc)]

/-- Without a `'..'` the stack only grows. -/
theorem prefix_foldl_pushComp {cs : List Str} (hcs : dotdot ∉ cs) (st : List Str) :
    st <+: cs.foldl (pushComp true) st := by
  induction cs generalizing st with
  | nil => exact List.prefix_refl st
  | cons c cs ih =>
    rw [List.mem_cons, not_or] at hcs
    rw [List.foldl_cons, pushComp_of_ne_dotdot st (Ne.symm hcs.1)]
    split
    · exact ih hcs.2 st
    · exact (List.prefix_append st [c]).trans (ih hcs.2 _)

theorem slash_notMem_splitOn (s : Str) : ∀ c ∈ s.splitOn '/', '/' ∉ c := by
  induction s with
  | nil => simp
  | cons a s ih =>
    rw [List.splitOn_cons_eq_if_modifyHead]
    by_cases h : a = '/'
    · simpa [h] using ih
    · cases hs : s.splitOn '/' with
      | nil => exact absurd hs (List.splitOn_ne_nil _ _)
      | cons p ps =>
        rw [hs] at ih
        intro c hc
        simp only [beq_iff_eq, h, if_false, List.modifyHead_cons, List.mem_cons] at hc
        rcases hc with rfl | hc
        · simpa [Ne.symm h] using ih p (by simp)
        · exact ih c (by simp [hc])

/-- The place an absolute path leads to is made of names. -/
theorem absComps_names (s : Str) : ∀ c ∈ absComps s, IsName c :=
  foldl_pushComp_names (by simp) (slash_notMem_splitOn s)

/-! ## Splitting the strings that `toStr`, `join` and `normpath` build -/

theorem splitOn_toStr {p : Path} (h : ∀ c ∈ p, '/' ∉ c) :
    (toStr p).splitOn '/' = [] :: if p = [] then [[]] else p := by
  have h0 : (toStr p).splitOn '/' = [] :: (['/'].intercalate p).splitOn '/' :=
    List.splitOn_append_cons_self [] (['/'].intercalate p)
  rw [h0]
  by_cases hp : p = []
  · simp [hp, List.intercalate_nil]
  · rw [if_neg hp, List.splitOn_intercalate '/' h hp]

theorem foldl_pushComp_toStr {p : Path} (h : ∀ c ∈ p, IsName c) (b : Bool) (st : List Str) :
    ((toStr p).splitOn '/').foldl (pushComp b) st = st ++ p := by
  rw [splitOn_toStr fun c hc => (h c hc).2.2.2]
  by_cases hp : p = []
  · simp [hp]
  · rw [if_neg hp, List.foldl_cons, pushComp_nil, foldl_pushComp_of_names b st h]

/-- A path of names is where its string leads. -/
theorem absComps_toStr {p : Path} (h : ∀ c ∈ p, IsName c) : absComps (toStr p) = p := by
  rw [absComps, foldl_pushComp_toStr h, List.nil_append]

/-! ## Where `join`, `normpath` and `abspath` lead -/

theorem endsWithSlash_iff {s : Str} : endsWithSlash s = true ↔ ∃ t, s = t ++ ['/'] := by
  rw [endsWithSlash, beq_iff_eq, List.getLast?_eq_some_iff]

theorem splitOn_append_slash (s t : Str) :
    (s ++ '/' :: t).splitOn '/' = s.splitOn '/' ++ t.splitOn '/' :=
  List.splitOn_append_cons_self s t

/-- A relative string continues from where the string before it leads. -/
theorem absComps_join₂ (a : Str) {b : Str} (hb : isabs b = false) :
    absComps (join₂ a b) = (b.splitOn '/').foldl (pushComp true) (absComps a) := by
  rw [join₂, if_neg (by simp [hb])]
  split
  · rename_i h
    rcases h with rfl | h
    · rfl
    · obtain ⟨t, rfl⟩ := endsWithSlash_iff.1 h
      rw [List.append_assoc, List.singleton_append, absComps, absComps, splitOn_append_slash,
        splitOn_append_slash]
      simp
  · rw [absComps, absComps, splitOn_append_slash, List.foldl_append]

theorem absComps_join_toStr {p : Path} (hp : ∀ c ∈ p, IsName c) {s : Str} (hs : isabs s = false) :
    absComps (join (toStr p) [s]) = (s.splitOn '/').foldl (pushComp true) p := by
  rw [join, List.foldl_cons, List.foldl_nil, absComps_join₂ _ hs, absComps_toStr hp]

theorem isabs_toStr (p : Path) : isabs (toStr p) = true := rfl

theorem isabs_join₂_of_isabs {a b : Str} (ha : isabs a = true) : isabs (join₂ a b) = true := by
  rw [join₂]
  split
  · assumption
  · cases a with
    | nil => simp [isabs] at ha
    | cons c a => split <;> simpa [isabs] using ha

theorem initialSlashes_pos {s : Str} (h : isabs s = true) :
    initialSlashes s = 1 ∨ initialSlashes s = 2 := by
  rw [initialSlashes, if_pos h]
  split
  · exact Or.inr rfl
  · exact Or.inl rfl

/-- Splitting a string that has `k` slashes in front of its names. -/
theorem splitOn_slashes_intercalate (k : ℕ) {p : Path} (h : ∀ c ∈ p, '/' ∉ c) :
    (List.replicate k '/' ++ ['/'].intercalate p).splitOn '/' =
      List.replicate k [] ++ if p = [] then [[]] else p := by
  induction k with
  | zero =>
    by_cases hp : p = []
    · simp [hp, List.intercalate_nil]
    · simpa [hp] using List.splitOn_intercalate '/' h hp
  | succ k ih =>
    rw [List.replicate_succ, List.replicate_succ, List.cons_append, List.cons_append, ← ih]
    exact splitOn_append_slash [] _

theorem splitOn_slashes (k : ℕ) :
    (List.replicate k '/').splitOn '/' = List.replicate (k + 1) [] := by
  have h := splitOn_slashes_intercalate k (p := []) (by simp)
  rwa [List.intercalate_nil, List.append_nil, if_pos rfl, ← List.replicate_succ'] at h

theorem slash_notMem_basename (s : Str) : '/' ∉ basename s := by
  intro h
  simpa using List.mem_rtakeWhile_imp h

theorem basename_concat_slash (s : Str) : basename (s ++ ['/']) = [] := by
  rw [basename, List.rtakeWhile_concat, if_neg (by simp)]

theorem splitOn_slashes_basename (k : ℕ) (s : Str) :
    (List.replicate k '/' ++ basename s).splitOn '/' = List.replicate k [] ++ [basename s] := by
  have h := splitOn_slashes_intercalate k (p := [basename s])
    (by simpa using slash_notMem_basename s)
  rwa [List.intercalate_singleton, if_neg (by simp)] at h

theorem comps_slashes_intercalate (k : ℕ) {p : Path} (h : ∀ c ∈ p, IsName c) :
    comps (List.replicate k '/' ++ ['/'].intercalate p) = p := by
  have hfilter : p.filter (· ≠ []) = p := by
    rw [List.filter_eq_self]
    exact fun c hc => by simpa using (h c hc).1
  rw [comps, splitOn_slashes_intercalate k fun c hc => (h c hc).2.2.2, List.filter_append,
    List.filter_eq_nil_iff.2 (by simp), List.nil_append]
  split
  · rename_i hp; simp [hp]
  · exact hfilter

/-! ## Heads of a path string -/

/-- The head `h` of a string `h ++ '/' :: rest` leads to a place on the way. -/
theorem absCompsFrom_append_slash (p : Path) {h : Str} (hh : h ≠ []) (rest : Str) :
    absCompsFrom p (h ++ '/' :: rest) =
      (rest.splitOn '/').foldl (pushComp true) (absCompsFrom p h) := by
  have habs : isabs (h ++ '/' :: rest) = isabs h := by
    cases h with
    | nil => exact absurd rfl hh
    | cons c h => rfl
  rw [absCompsFrom, absCompsFrom, habs, splitOn_append_slash, List.foldl_append]

theorem rstripSlash_spec (s : Str) : ∃ k, s = rstripSlash s ++ List.replicate k '/' := by
  refine ⟨(s.rtakeWhile (· = '/')).length, ?_⟩
  have hall : s.rtakeWhile (· = '/') = List.replicate (s.rtakeWhile (· = '/')).length '/' :=
    List.eq_replicate_iff.2 ⟨rfl, fun c hc => by simpa using List.mem_rtakeWhile_imp hc⟩
  rw [← hall]
  exact (List.rdropWhile_append_rtakeWhile (p := (· = '/'))).symm

/-- A string with slashes behind it leads where the string itself leads. -/
theorem absCompsFrom_append_replicate (p : Path) {h : Str} (hh : h ≠ []) (k : ℕ) :
    absCompsFrom p (h ++ List.replicate k '/') = absCompsFrom p h := by
  cases k with
  | zero => simp
  | succ k =>
    rw [List.replicate_succ, absCompsFrom_append_slash p hh, splitOn_slashes,
      foldl_pushComp_replicate_nil]

/-- A proper head as `dirname` gives it: slashes only, or followed by a slash. -/
theorem dirname_spec (s : Str) :
    (∃ k, dirname s = List.replicate k '/' ∧ s = dirname s ++ basename s) ∨
      ∃ k, s = dirname s ++ '/' :: (List.replicate k '/' ++ basename s) := by
  have hsplit : s = s.rdropWhile (· ≠ '/') ++ s.rtakeWhile (· ≠ '/') :=
    (List.rdropWhile_append_rtakeWhile (p := (· ≠ '/'))).symm
  by_cases hall : (s.rdropWhile (· ≠ '/')).all (· = '/') = true
  · left
    refine ⟨(s.rdropWhile (· ≠ '/')).length, ?_, ?_⟩
    · rw [dirname, if_pos hall]
      exact List.eq_replicate_iff.2 ⟨rfl, fun c hc => by simpa using List.all_eq_true.1 hall c hc⟩
    · rw [dirname, if_pos hall]
      exact hsplit
  · right
    obtain ⟨k, hk⟩ := rstripSlash_spec (s.rdropWhile (· ≠ '/'))
    cases k with
    | zero =>
      -- the head ends in a slash, so one is stripped
      exfalso
      have hne : s.rdropWhile (· ≠ '/') ≠ [] := fun h0 => hall (by rw [h0]; rfl)
      have hlast := List.rdropWhile_last_not (p := (· ≠ '/')) s hne
      have hself : rstripSlash (s.rdropWhile (· ≠ '/')) = s.rdropWhile (· ≠ '/') := by
        simpa using hk.symm
      have hnot := List.rdropWhile_eq_self_iff.1 hself hne
      simp at hlast hnot
      exact hnot hlast
    | succ k =>
      refine ⟨k, ?_⟩
      rw [dirname, if_neg hall, basename]
      conv_lhs => rw [hsplit, hk]
      simp [List.replicate_succ]

/-- Without `'..'`, the directory a string names is on the way to its end. -/
theorem absCompsFrom_dirname_isPrefix (p : Path) {s : Str} (hdd : dotdot ∉ s.splitOn '/')
    (hne : dirname s ≠ []) :
    dotdot ∉ (dirname s).splitOn '/' ∧ absCompsFrom p (dirname s) <+: absCompsFrom p s := by
  rcases dirname_spec s with ⟨k, hk, hs⟩ | ⟨k, hs⟩
  · rw [hk] at hne ⊢
    have habs : isabs (List.replicate k '/') = true := by
      cases k with
      | zero => exact absurd rfl hne
      | succ k => rfl
    refine ⟨?_, ?_⟩
    · rw [splitOn_slashes]
      exact fun h => absurd (List.eq_of_mem_replicate h) (by decide)
    · rw [absCompsFrom, if_pos habs, splitOn_slashes, foldl_pushComp_replicate_nil]
      exact List.nil_prefix
  · set rest := List.replicate k '/' ++ basename s
    have hsplit : s.splitOn '/' = (dirname s).splitOn '/' ++ rest.splitOn '/' := by
      conv_lhs => rw [hs]
      exact splitOn_append_slash _ _
    rw [hsplit, List.mem_append, not_or] at hdd
    refine ⟨hdd.1, ?_⟩
    conv_rhs => rw [hs]
    rw [absCompsFrom_append_slash p hne]
    exact prefix_foldl_pushComp hdd.2 _

/-- The last component of a string is its `basename`. -/
theorem splitOn_basename (s : Str) : ∃ cs, s.splitOn '/' = cs ++ [basename s] := by
  rcases dirname_spec s with ⟨k, hk, hs⟩ | ⟨k, hs⟩
  · rw [hk] at hs
    exact ⟨List.replicate k [], by rw [← splitOn_slashes_basename, ← hs]⟩
  · refine ⟨(dirname s).splitOn '/' ++ List.replicate k [], ?_⟩
    conv_lhs => rw [hs]
    rw [splitOn_append_slash, splitOn_slashes_basename, List.append_assoc]

/-- A string that ends in a component has no slash to strip. -/
theorem rstripSlash_of_basename {s : Str} (h : basename s ≠ []) : rstripSlash s = s := by
  rw [rstripSlash, List.rdropWhile_eq_self_iff]
  intro hl hc
  refine h (List.rtakeWhile_eq_nil_iff.2 fun hl' => ?_)
  simpa using hc

theorem dirname_ne_nil {s : Str} (h : isabs s = true) : dirname s ≠ [] := by
  intro hd
  rw [dirname] at hd
  split at hd
  · have hall := List.rdropWhile_eq_nil_iff.1 hd
    cases s with
    | nil => simp [isabs] at h
    | cons c s =>
      have hc : c = '/' := by simpa [isabs] using h
      simpa [hc] using hall c List.mem_cons_self
  · rename_i hno
    exact hno (List.all_eq_true.2 (List.rdropWhile_eq_nil_iff.1 hd))

/-- A string leads from the place of its `dirname` on by its `basename`. -/
theorem absCompsFrom_split (p : Path) {s : Str} (hne : dirname s ≠ []) :
    absCompsFrom p s = pushComp true (absCompsFrom p (dirname s)) (basename s) := by
  have hpush : ∀ (k : ℕ) (cur : Path),
      (List.replicate k [] ++ [basename s]).foldl (pushComp true) cur =
        pushComp true cur (basename s) := by
    intro k cur
    rw [List.foldl_append, foldl_pushComp_replicate_nil]
    rfl
  rcases dirname_spec s with ⟨k, hk, hs⟩ | ⟨k, hs⟩
  · rw [hk] at hne hs ⊢
    have habs : ∀ t, isabs (List.replicate k '/' ++ t) = true := by
      intro t
      cases k with
      | zero => exact absurd rfl hne
      | succ k => rfl
    have hroot : absCompsFrom p (List.replicate k '/') = [] := by
      have habs' := habs []
      rw [List.append_nil] at habs'
      rw [absCompsFrom, if_pos habs', splitOn_slashes, foldl_pushComp_replicate_nil]
    conv_lhs => rw [hs]
    rw [hroot, absCompsFrom, if_pos (habs _), splitOn_slashes_basename, hpush]
  · conv_lhs => rw [hs]
    rw [absCompsFrom_append_slash p hne, splitOn_slashes_basename, hpush]

/-- The directory a string names is on the way to its end, unless it ends in `'..'`. -/
theorem absCompsFrom_dirname (p : Path) {s : Str} (hb : basename s ≠ dotdot)
    (hne : dirname s ≠ []) : absCompsFrom p (dirname s) <+: absCompsFrom p s := by
  have hdd : dotdot ∉ [basename s] := by simpa [eq_comm] using hb
  rw [absCompsFrom_split p hne]
  exact prefix_foldl_pushComp hdd _

theorem dirname_isPrefix (s : Str) : dirname s <+: s := by
  have hhead := List.rdropWhile_prefix (· ≠ '/') s
  rw [dirname]
  split
  · exact hhead
  · exact (List.rdropWhile_prefix (· = '/') _).trans hhead

theorem isabs_dirname {s : Str} (h : isabs s = true) : isabs (dirname s) = true := by
  have hne := dirname_ne_nil h
  have hhead : ∀ t : Str, dirname s ++ t = s → isabs (dirname s) = true := by
    intro t ht
    rw [← ht] at h
    cases hd : dirname s with
    | nil => exact absurd hd hne
    | cons c d => rwa [hd] at h
  rcases dirname_spec s with ⟨k, -, hs⟩ | ⟨k, hs⟩
  · exact hhead _ hs.symm
  · exact hhead _ hs.symm

/-! ## The strings of `normpath` and `abspath` -/

/-- The string `normpath` makes of an absolute path. -/
theorem normpath_eq {s : Str} (h : isabs s = true) : normpath s =
    List.replicate (initialSlashes s) '/' ++ ['/'].intercalate (absComps s) := by
  have hne : s ≠ [] := by rintro rfl; simp [isabs] at h
  have hk : 0 < initialSlashes s := by rcases initialSlashes_pos h with h | h <;> omega
  have hb : (initialSlashes s != 0) = true := by simpa using hk.ne'
  have hpath : List.replicate (initialSlashes s) '/' ++ ['/'].intercalate (absComps s) ≠ [] := by
    intro hc
    rw [List.append_eq_nil_iff, List.replicate_eq_nil_iff] at hc
    omega
  simp only [normpath, if_neg hne, hb]
  rw [show (s.splitOn '/').foldl (pushComp true) [] = absComps s from rfl, if_neg hpath]

/-- **Normalising an absolute path** leaves exactly the names it leads through. -/
theorem comps_normpath {s : Str} (h : isabs s = true) : comps (normpath s) = absComps s := by
  rw [normpath_eq h]
  exact comps_slashes_intercalate _ (absComps_names s)

/-- The components of an absolute path string, read again, lead to themselves. -/
theorem absComps_of_comps {s : Str} (h : ∀ c ∈ comps s, IsName c) : absComps s = comps s := by
  have key : ∀ (cs : List Str) (st : List Str), (∀ c ∈ cs.filter (· ≠ []), IsName c) →
      cs.foldl (pushComp true) st = st ++ cs.filter (· ≠ []) := by
    intro cs
    induction cs with
    | nil => intro st _; simp
    | cons c cs ih =>
      intro st hcs
      by_cases hc : c = []
      · subst hc
        rw [List.foldl_cons, pushComp_nil, ih st fun d hd => hcs d (by simpa using hd)]
        simp
      · have hname : IsName c := hcs c (by simp [hc])
        rw [List.foldl_cons, pushComp_name true st hname,
          ih _ fun d hd => hcs d (by rw [List.filter_cons]; split <;> simp_all)]
        simp [hc]
  rw [absComps, key (s.splitOn '/') [] h, List.nil_append, comps]

/-- `abspath` leads to the place its argument names in the working directory. -/
theorem comps_abspath {p : Path} (hp : ∀ c ∈ p, IsName c) (s : Str) :
    comps (abspath (toStr p) s) = absCompsFrom p s := by
  by_cases hs : isabs s = true
  · rw [abspath, if_pos hs, comps_normpath hs, absCompsFrom, if_pos hs, absComps]
  · have hs' : isabs s = false := by simpa using hs
    rw [abspath, if_neg hs, comps_normpath, absComps_join_toStr hp hs', absCompsFrom, if_neg hs]
    exact isabs_join₂_of_isabs (isabs_toStr p)

theorem absCompsFrom_names {p : Path} (hp : ∀ c ∈ p, IsName c) (s : Str) :
    ∀ c ∈ absCompsFrom p s, IsName c := by
  refine foldl_pushComp_names ?_ (slash_notMem_splitOn s)
  split
  · simp
  · exact hp

theorem absComps_abspath {p : Path} (hp : ∀ c ∈ p, IsName c) (s : Str) :
    absComps (abspath (toStr p) s) = absCompsFrom p s := by
  rw [absComps_of_comps, comps_abspath hp]
  rw [comps_abspath hp]
  exact absCompsFrom_names hp s

/-- The string `abspath` makes: one or two slashes and the names of the place. -/
theorem abspath_eq {p : Path} (hp : ∀ c ∈ p, IsName c) (s : Str) :
    ∃ k, 0 < k ∧ abspath (toStr p) s =
      List.replicate k '/' ++ ['/'].intercalate (absCompsFrom p s) := by
  have key : ∀ a, isabs a = true → absComps a = absCompsFrom p s → ∃ k, 0 < k ∧
      normpath a = List.replicate k '/' ++ ['/'].intercalate (absCompsFrom p s) := by
    intro a ha hc
    refine ⟨initialSlashes a, ?_, by rw [normpath_eq ha, hc]⟩
    rcases initialSlashes_pos ha with h | h <;> omega
  rw [abspath]
  by_cases hs : isabs s = true
  · rw [if_pos hs]
    exact key s hs (by rw [absCompsFrom, if_pos hs, absComps])
  · have hs' : isabs s = false := by simpa using hs
    rw [if_neg hs]
    exact key _ (isabs_join₂_of_isabs (isabs_toStr p))
      (by rw [absComps_join_toStr hp hs', absCompsFrom, if_neg hs])

theorem splitOn_abspath {p : Path} (hp : ∀ c ∈ p, IsName c) (s : Str) :
    ∃ k, (abspath (toStr p) s).splitOn '/' =
      List.replicate k [] ++ if absCompsFrom p s = [] then [[]] else absCompsFrom p s := by
  obtain ⟨k, -, hk⟩ := abspath_eq hp s
  exact ⟨k, by rw [hk, splitOn_slashes_intercalate k fun c hc =>
    (absCompsFrom_names hp s c hc).2.2.2]⟩

theorem isabs_abspath {p : Path} (hp : ∀ c ∈ p, IsName c) (s : Str) :
    isabs (abspath (toStr p) s) = true := by
  obtain ⟨k, hk, heq⟩ := abspath_eq hp s
  obtain ⟨j, rfl⟩ : ∃ j, k = j + 1 := ⟨k - 1, by omega⟩
  simp [heq, isabs, List.replicate_succ]

theorem dotdot_notMem_abspath {p : Path} (hp : ∀ c ∈ p, IsName c) (s : Str) :
    dotdot ∉ (abspath (toStr p) s).splitOn '/' := by
  obtain ⟨k, hk⟩ := splitOn_abspath hp s
  rw [hk, List.mem_append, not_or]
  refine ⟨fun h => absurd (List.eq_of_mem_replicate h) (by decide), ?_⟩
  split
  · decide
  · exact fun h => (absCompsFrom_names hp s _ h).2.2.1 rfl

/-! ## Joining components, and relative paths -/

theorem endsWithSlash_append {a b : Str} (hb : b ≠ []) :
    endsWithSlash (a ++ b) = endsWithSlash b := by
  rw [endsWithSlash, endsWithSlash, List.getLast?_append_of_ne_nil a hb]

theorem endsWithSlash_of_notMem {s : Str} (h : '/' ∉ s) : endsWithSlash s = false := by
  rw [endsWithSlash, beq_eq_false_iff_ne]
  exact fun hc => h (List.mem_of_getLast? hc)

theorem isabs_of_notMem {s : Str} (h : '/' ∉ s) : isabs s = false := by
  rw [isabs, beq_eq_false_iff_ne]
  exact fun hc => h (List.mem_of_head? hc)

/-- Joining components puts a slash between any two of them. -/
theorem join_eq_intercalate {cs : List Str} (hcs : ∀ c ∈ cs, c ≠ [] ∧ '/' ∉ c) {a : Str}
    (ha : a ≠ []) (hslash : endsWithSlash a = false) :
    join a cs = ['/'].intercalate (a :: cs) := by
  induction cs generalizing a with
  | nil => simp [join, List.intercalate_singleton]
  | cons c cs ih =>
    obtain ⟨hc, hn⟩ := hcs c List.mem_cons_self
    have hstep : join₂ a c = a ++ '/' :: c := by
      rw [join₂, if_neg (by simp [isabs_of_notMem hn]), if_neg (by simp [ha, hslash])]
    have hlast : endsWithSlash (a ++ '/' :: c) = false := by
      rw [List.append_cons, endsWithSlash_append hc]
      exact endsWithSlash_of_notMem hn
    have hrest := ih (fun d hd => hcs d (List.mem_cons_of_mem c hd)) (by simp) hlast
    rw [join, List.foldl_cons, hstep]
    rw [join] at hrest
    rw [hrest]
    cases cs with
    | nil => simp [List.intercalate]
    | cons d cs => simp [List.intercalate, List.intersperse]

theorem commonPrefix_isPrefix_left (as bs : List Str) : commonPrefix as bs <+: as := by
  induction as generalizing bs with
  | nil => cases bs <;> exact List.nil_prefix
  | cons a as ih =>
    cases bs with
    | nil => exact List.nil_prefix
    | cons b bs =>
      rw [commonPrefix]
      split
      · exact List.cons_prefix_cons.2 ⟨rfl, ih bs⟩
      · exact List.nil_prefix

theorem commonPrefix_isPrefix_right (as bs : List Str) : commonPrefix as bs <+: bs := by
  induction as generalizing bs with
  | nil => cases bs <;> exact List.nil_prefix
  | cons a as ih =>
    cases bs with
    | nil => exact List.nil_prefix
    | cons b bs =>
      rw [commonPrefix]
      split
      · rename_i hab
        exact List.cons_prefix_cons.2 ⟨hab, ih bs⟩
      · exact List.nil_prefix

/-- The string of a relative path. -/
def relStr (p : Path) : Str := if p = [] then dot else ['/'].intercalate p

/-- The components of the string of a relative path. -/
def relParts (p : Path) : List Str := if p = [] then [dot] else p

theorem join₂_relStr {p : Path} (hp : ∀ c ∈ p, c ≠ [] ∧ '/' ∉ c) {a : Str} (ha : a ≠ [])
    (hslash : endsWithSlash a = false) :
    join₂ a (relStr p) = ['/'].intercalate (a :: relParts p) := by
  have hrel : isabs (relStr p) = false := by
    rw [relStr]
    split
    · rfl
    · cases p with
      | nil => contradiction
      | cons c p =>
        obtain ⟨hc, hn⟩ := hp c List.mem_cons_self
        cases c with
        | nil => exact absurd rfl hc
        | cons x c =>
          have hx : x ≠ '/' := by rintro rfl; exact hn List.mem_cons_self
          cases p <;> simp [isabs, List.intercalate, List.intersperse, hx]
  rw [join₂, if_neg (by simp [hrel]), if_neg (by simp [ha, hslash])]
  cases p with
  | nil => simp [relStr, relParts, List.intercalate, List.intersperse]
  | cons c p => simp [relStr, relParts, List.intercalate]

/-- The components that `relpath` joins: up from `start` to the part the two have in
common, and down to the path. -/
def relComps (start path : Path) : Path :=
  List.replicate (start.length - (commonPrefix start path).length) dotdot ++
    path.drop (commonPrefix start path).length

/-- **What `relpath` makes**, for a process in the directory `p`. -/
theorem relpath_eq {p : Path} (hp : ∀ c ∈ p, IsName c) (s start : Str) :
    relpath (toStr p) s start = relStr (relComps (absCompsFrom p start) (absCompsFrom p s)) := by
  have hcs : ∀ c ∈ relComps (absCompsFrom p start) (absCompsFrom p s), c ≠ [] ∧ '/' ∉ c := by
    intro c hc
    rcases List.mem_append.1 hc with hc | hc
    · rw [List.eq_of_mem_replicate hc]
      decide
    · have hname := absCompsFrom_names hp s c (List.mem_of_mem_drop hc)
      exact ⟨hname.1, hname.2.2.2⟩
  unfold relpath
  simp only [comps_abspath hp]
  change (match relComps (absCompsFrom p start) (absCompsFrom p s) with
    | [] => dot
    | a :: rest => join a rest) = _
  revert hcs
  cases relComps (absCompsFrom p start) (absCompsFrom p s) with
  | nil => intro _; rfl
  | cons a rest =>
    intro hcs
    obtain ⟨ha, hn⟩ := hcs a List.mem_cons_self
    rw [relStr, if_neg (by simp)]
    exact join_eq_intercalate (fun c hc => hcs c (List.mem_cons_of_mem a hc)) ha
      (endsWithSlash_of_notMem hn)

/-- A relative path without `'..'` in its string goes down only. -/
theorem prefix_of_relStr {start path : Path} (h : ¬ dotdot <:+: relStr (relComps start path)) :
    start <+: path ∧ relComps start path = path.drop start.length := by
  have hlen : start.length - (commonPrefix start path).length = 0 := by
    by_contra hpos
    obtain ⟨k, hk⟩ := Nat.exists_eq_succ_of_ne_zero hpos
    apply h
    rw [relStr, relComps, hk, List.replicate_succ, List.cons_append, if_neg (by simp)]
    cases hrest : List.replicate k dotdot ++ path.drop (commonPrefix start path).length with
    | nil => simp [List.intercalate_singleton]
    | cons c cs =>
      refine ⟨[], '/' :: ['/'].intercalate (c :: cs), ?_⟩
      simp [List.intercalate, List.intersperse]
  have hle := (commonPrefix_isPrefix_left start path).length_le
  have heq : commonPrefix start path = start :=
    (commonPrefix_isPrefix_left start path).eq_of_length (by omega)
  have hpre := commonPrefix_isPrefix_right start path
  rw [heq] at hpre
  refine ⟨hpre, ?_⟩
  rw [relComps, hlen, heq]
  rfl

theorem commonPrefix_of_isPrefix {start path : List Str} (h : start <+: path) :
    commonPrefix start path = start := by
  induction start generalizing path with
  | nil => cases path <;> rfl
  | cons a as ih =>
    obtain ⟨t, rfl⟩ := h
    rw [List.cons_append, commonPrefix, if_pos rfl, ih (List.prefix_append as t)]

theorem relComps_of_isPrefix {start path : Path} (h : start <+: path) :
    relComps start path = path.drop start.length := by
  rw [relComps, commonPrefix_of_isPrefix h, Nat.sub_self]
  rfl

/-- An infix without the character `x` is on one side of it. -/
theorem infix_append_cons_iff {w a b : Str} {x : Char} (hx : x ∉ w) :
    w <:+: a ++ x :: b ↔ w <:+: a ∨ w <:+: b := by
  constructor
  · rintro ⟨s, t, h⟩
    rcases List.append_eq_append_iff.1 h with ⟨r, hr, -⟩ | ⟨r, hr, ht⟩
    · exact Or.inl ⟨s, r, hr.symm⟩
    · cases r with
      | nil => exact Or.inl ⟨s, [], by simpa using hr⟩
      | cons y r =>
        obtain ⟨rfl, rfl⟩ := List.cons.inj ht
        -- the `x` is in the infix or in what stands before it
        rcases List.append_eq_append_iff.1 hr with ⟨q, -, hq⟩ | ⟨q, -, hq⟩
        · exact absurd (hq ▸ List.mem_append_right q List.mem_cons_self) hx
        · cases q with
          | nil =>
            rw [List.nil_append] at hq
            exact absurd (hq ▸ List.mem_cons_self) hx
          | cons z q =>
            obtain ⟨-, rfl⟩ := List.cons.inj hq
            exact Or.inr ⟨q, t, rfl⟩
  · rintro (h | h)
    · exact h.trans (List.prefix_append a _).isInfix
    · exact h.trans ((List.suffix_cons x b).trans (List.suffix_append a _)).isInfix

theorem infix_intercalate_iff {w : Str} (hw : '/' ∉ w) (h0 : w ≠ []) {cs : List Str} :
    w <:+: ['/'].intercalate cs ↔ ∃ c ∈ cs, w <:+: c := by
  induction cs with
  | nil => simp [List.intercalate, h0]
  | cons c cs ih =>
    cases cs with
    | nil => simp [List.intercalate_singleton]
    | cons d cs =>
      have hsplit : ['/'].intercalate (c :: d :: cs) = c ++ '/' :: ['/'].intercalate (d :: cs) := by
        simp [List.intercalate, List.intersperse]
      rw [hsplit, infix_append_cons_iff hw, ih]
      simp

/-- The string of a path has `'..'` in it if a name of the path does. -/
theorem dotdot_infix_relStr_iff {p : Path} : dotdot <:+: relStr p ↔ ∃ c ∈ p, dotdot <:+: c := by
  rw [relStr]
  split
  · rename_i h
    subst h
    exact ⟨fun hc => absurd hc (by decide), fun ⟨c, hc, _⟩ => absurd hc List.not_mem_nil⟩
  · exact infix_intercalate_iff (by decide) (by decide)

end Posix
