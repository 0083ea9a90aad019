import Fsync.Client.Fs

/-!
# The two names of an accepted path

An accepted path leads to a place below the home directory.  `server_fn` leads to
the place with the same names below `/tmp/<client host>`, and `client_fn` to the
place itself.

* `accepted`: what acceptance says about the place;
* `splitOn_serverFn`: the components of `server_fn`, from which its place, its
  ends and its `basename` follow.
-/

namespace Fsync.Client

open Posix Os

variable {env : Env} {path : Str}

/-- The place that the path of a run leads to. -/
def clientPlace (env : Env) (path : Str) : Path := absCompsFrom env.cwd path

/-- The names of that place below the home directory. -/
def belowHome (env : Env) (path : Str) : Path :=
  (clientPlace env path).drop (clientPlace env env.home).length

/-- The place of the copy on the server. -/
def serverPlace (env : Env) (path : Str) : Path :=
  "tmp".toList :: env.clientHostname :: belowHome env path

theorem clientPlace_names (env : Env) (path : Str) : ∀ c ∈ clientPlace env path, IsName c :=
  absCompsFrom_names env.names path

theorem belowHome_names (env : Env) (path : Str) : ∀ c ∈ belowHome env path, IsName c :=
  fun c hc => clientPlace_names env path c (List.mem_of_mem_drop hc)

theorem normalizePath_eq (env : Env) (path : Str) : normalizePath env path =
    relStr (relComps (clientPlace env env.home) (clientPlace env path)) := by
  have habs : absCompsFrom env.cwd (abspath (toStr env.cwd) path) = clientPlace env path := by
    rw [absCompsFrom, if_pos (isabs_abspath env.names path)]
    exact absComps_abspath env.names path
  rw [normalizePath, relpath_eq env.names, habs]
  rfl

/-- **An accepted path** is below the home directory, and is known by its names there. -/
theorem accepted (h : refused env path = false) :
    clientPlace env env.home <+: clientPlace env path ∧
      normalizePath env path = relStr (belowHome env path) := by
  rw [refused, normalizePath_eq, decide_eq_false_iff_not] at h
  obtain ⟨hpre, hdown⟩ := prefix_of_relStr h
  refine ⟨hpre, ?_⟩
  rw [normalizePath_eq, hdown]
  rfl

/-! ## The check -/

/-- The components of the path begin with those of the home directory. -/
def Inside (env : Env) (path : Str) : Prop :=
  comps (abspath (toStr env.cwd) env.home) <+: comps (abspath (toStr env.cwd) path)

/-- The path is inside, with two dots somewhere in a name below the home directory. -/
def DottedBelow (env : Env) (path : Str) : Prop :=
  Inside env path ∧
    ∃ c ∈ (comps (abspath (toStr env.cwd) path)).drop (comps (abspath (toStr env.cwd) env.home)).length,
      dotdot <:+: c

theorem inside_iff : Inside env path ↔ clientPlace env env.home <+: clientPlace env path := by
  rw [Inside, comps_abspath env.names, comps_abspath env.names]
  rfl

theorem dottedBelow_iff : DottedBelow env path ↔
    Inside env path ∧ ∃ c ∈ belowHome env path, dotdot <:+: c := by
  rw [DottedBelow, comps_abspath env.names, comps_abspath env.names]
  rfl

/-- Of the paths inside, those with two dots in a name are refused. -/
theorem refused_of_inside (h : Inside env path) :
    refused env path = true ↔ ∃ c ∈ belowHome env path, dotdot <:+: c := by
  rw [refused, normalizePath_eq, relComps_of_isPrefix (inside_iff.1 h), decide_eq_true_iff]
  exact dotdot_infix_relStr_iff

/-- **The home-directory check** accepts exactly the paths inside the home directory,
but for those with two dots in a name: `'..' in npath` looks at the string and not at
its components. -/
theorem check_right_iff (env : Env) (path : Str) :
    (refused env path = false ↔ Inside env path) ↔ ¬ DottedBelow env path := by
  rw [dottedBelow_iff]
  constructor
  · rintro h ⟨hin, hdots⟩
    have hacc := h.2 hin
    rw [(refused_of_inside hin).2 hdots] at hacc
    exact Bool.noConfusion hacc
  · intro h
    constructor
    · intro hacc
      exact inside_iff.2 (accepted hacc).1
    · intro hin
      rw [← Bool.not_eq_true, refused_of_inside hin]
      exact fun hdots => h ⟨hin, hdots⟩

/-- A file `a..b` in the home directory is refused. -/
theorem two_dots_refused :
    ¬ (refused ann "a..b".toList = false ↔ Inside ann "a..b".toList) := by
  have hin : Inside ann "a..b".toList := by
    rw [Inside]
    decide
  have href : refused ann "a..b".toList = true := by decide
  intro h
  rw [h.2 hin] at href
  exact Bool.noConfusion href

/-! ## `server_fn` -/

theorem serverFn_eq (h : refused env path = false) (isDir : Bool) :
    serverFn env path isDir =
      toStr ("tmp".toList :: env.clientHostname :: relParts (belowHome env path)) ++
        if isDir then ['/'] else [] := by
  have hhost : join₂ serverRootDir env.clientHostname =
      serverRootDir ++ '/' :: env.clientHostname := by
    rw [join₂, if_neg (by simp [isabs_of_notMem env.host.2.2.2]), if_neg (by decide)]
  have hlast : endsWithSlash (serverRootDir ++ '/' :: env.clientHostname) = false := by
    rw [List.append_cons, endsWithSlash_append env.host.1]
    exact endsWithSlash_of_notMem env.host.2.2.2
  have hnames : ∀ c ∈ belowHome env path, c ≠ [] ∧ '/' ∉ c := fun c hc =>
    ⟨(belowHome_names env path c hc).1, (belowHome_names env path c hc).2.2.2⟩
  have hjoin : join serverRootDir [env.clientHostname, normalizePath env path] =
      ['/'].intercalate ((serverRootDir ++ '/' :: env.clientHostname) ::
        relParts (belowHome env path)) := by
    rw [join, List.foldl_cons, List.foldl_cons, List.foldl_nil, hhost, (accepted h).2]
    exact join₂_relStr hnames (by simp [serverRootDir]) hlast
  rw [serverFn, hjoin]
  congr 1
  cases relParts (belowHome env path) with
  | nil => simp [toStr, serverRootDir, List.intercalate, List.intersperse]
  | cons c cs => simp [toStr, serverRootDir, List.intercalate, List.intersperse]

theorem splitOn_serverFn (h : refused env path = false) (isDir : Bool) :
    (serverFn env path isDir).splitOn '/' =
      [] :: "tmp".toList :: env.clientHostname :: relParts (belowHome env path) ++
        if isDir then [[]] else [] := by
  have hslash : ∀ c ∈ "tmp".toList :: env.clientHostname :: relParts (belowHome env path),
      '/' ∉ c := by
    intro c hc
    rcases List.mem_cons.1 hc with rfl | hc
    · decide
    · rcases List.mem_cons.1 hc with rfl | hc
      · exact env.host.2.2.2
      · rw [relParts] at hc
        split at hc
        · rw [List.mem_singleton.1 hc]
          decide
        · exact (belowHome_names env path c hc).2.2.2
  have hsplit := splitOn_toStr hslash
  rw [if_neg (by simp)] at hsplit
  rw [serverFn_eq h]
  cases isDir with
  | false => simpa using hsplit
  | true =>
    rw [if_pos rfl, if_pos rfl, splitOn_append_slash, hsplit]
    rfl

theorem isabs_serverFn (h : refused env path = false) (isDir : Bool) :
    isabs (serverFn env path isDir) = true := by
  rw [serverFn_eq h]
  rfl

theorem dotdot_notMem_serverFn (h : refused env path = false) (isDir : Bool) :
    dotdot ∉ (serverFn env path isDir).splitOn '/' := by
  have hparts : dotdot ∉ relParts (belowHome env path) := by
    rw [relParts]
    split
    · decide
    · exact fun hm => (belowHome_names env path _ hm).2.2.1 rfl
  have hhost : dotdot ≠ env.clientHostname := fun hc => env.host.2.2.1 hc.symm
  have hhead : dotdot ∉ [] :: "tmp".toList :: env.clientHostname :: relParts (belowHome env path) := by
    rw [List.mem_cons, List.mem_cons, List.mem_cons, not_or, not_or, not_or]
    exact ⟨by decide, by decide, hhost, hparts⟩
  rw [splitOn_serverFn h, List.mem_append, not_or]
  refine ⟨hhead, ?_⟩
  cases isDir <;> decide

/-- `server_fn` leads to the place of the copy. -/
theorem absComps_serverFn (h : refused env path = false) (isDir : Bool) :
    absComps (serverFn env path isDir) = serverPlace env path := by
  have hroot : ["tmp".toList, env.clientHostname].foldl (pushComp true) [] =
      ["tmp".toList, env.clientHostname] :=
    foldl_pushComp_of_names true [] (by simpa [env.host] using (by decide : IsName "tmp".toList))
  have hparts : (relParts (belowHome env path)).foldl (pushComp true)
      ["tmp".toList, env.clientHostname] = serverPlace env path := by
    rw [relParts]
    split
    · rename_i h0
      rw [List.foldl_cons, pushComp_dot, List.foldl_nil, serverPlace, h0]
    · rw [foldl_pushComp_of_names true _ (belowHome_names env path)]
      rfl
  have hall : ([] :: "tmp".toList :: env.clientHostname ::
      relParts (belowHome env path)).foldl (pushComp true) [] = serverPlace env path := by
    rw [List.foldl_cons, pushComp_nil, ← hparts, ← hroot]
    rfl
  rw [absComps, splitOn_serverFn h, List.foldl_append, hall]
  cases isDir with
  | false => rfl
  | true => rw [if_pos rfl, List.foldl_cons, pushComp_nil, List.foldl_nil]

/-- `server_fn` ends in a slash for a directory only. -/
theorem endsWithSlash_serverFn (h : refused env path = false) (isDir : Bool) :
    endsWithSlash (serverFn env path isDir) = isDir := by
  rw [serverFn_eq h]
  cases isDir with
  | true => exact endsWithSlash_append (by simp)
  | false =>
    rw [if_neg Bool.false_ne_true, List.append_nil, ← Bool.not_eq_true]
    intro hc
    obtain ⟨t, ht⟩ := endsWithSlash_iff.1 hc
    -- the last component would be empty
    have hsplit := splitOn_serverFn h false
    rw [serverFn_eq h, if_neg Bool.false_ne_true, List.append_nil, ht, splitOn_append_slash,
      if_neg Bool.false_ne_true, List.append_nil] at hsplit
    have hmem : ∀ cs : List Str, cs ≠ [] → [] ∉ cs →
        t.splitOn '/' ++ [[]] ≠ [] :: "tmp".toList :: env.clientHostname :: cs := by
      intro cs h0 hcs heq
      rw [← List.dropLast_append_getLast h0] at heq
      have hsplit' : t.splitOn '/' ++ [[]] =
          ([] :: "tmp".toList :: env.clientHostname :: cs.dropLast) ++ [cs.getLast h0] := heq
      have hlast := (List.append_inj' hsplit' rfl).2
      rw [List.singleton_inj.1 hlast] at hcs
      exact hcs (List.getLast_mem h0)
    refine hmem _ ?_ ?_ hsplit <;> rw [relParts] <;> split
    · simp
    · assumption
    · decide
    · exact fun hm => (belowHome_names env path _ hm).1 rfl

theorem dropLast_serverFn (env : Env) (path : Str) :
    (serverFn env path true).dropLast = serverFn env path false := by
  simp [serverFn]

/-- The last component of `server_fn`. -/
theorem basename_serverFn (h : refused env path = false) :
    basename (serverFn env path true) = [] ∧
      ∀ hne : belowHome env path ≠ [],
        basename (serverFn env path false) = (belowHome env path).getLast hne := by
  constructor
  · obtain ⟨cs, hcs⟩ := splitOn_basename (serverFn env path true)
    rw [splitOn_serverFn h, if_pos rfl] at hcs
    exact (List.append_inj' hcs rfl).2 |> List.singleton_inj.1 |>.symm
  · intro hne
    obtain ⟨cs, hcs⟩ := splitOn_basename (serverFn env path false)
    rw [splitOn_serverFn h, if_neg Bool.false_ne_true, List.append_nil, relParts, if_neg hne,
      ← List.dropLast_append_getLast hne] at hcs
    have hsplit : ([] :: "tmp".toList :: env.clientHostname :: (belowHome env path).dropLast) ++
        [(belowHome env path).getLast hne] = cs ++ [basename (serverFn env path false)] := hcs
    exact (List.singleton_inj.1 (List.append_inj' hsplit rfl).2).symm

/-! ## `server_fn` names one place -/

theorem relParts_injective {p q : Path} (hp : ∀ c ∈ p, IsName c) (hq : ∀ c ∈ q, IsName c)
    (h : relParts p = relParts q) : p = q := by
  have hdot : ∀ r : Path, (∀ c ∈ r, IsName c) → r ≠ [dot] := by
    rintro r hr rfl
    exact (hr dot List.mem_cons_self).2.1 rfl
  rw [relParts, relParts] at h
  by_cases hp0 : p = [] <;> by_cases hq0 : q = []
  · rw [hp0, hq0]
  · rw [if_pos hp0, if_neg hq0] at h
    exact absurd h.symm (hdot q hq)
  · rw [if_neg hp0, if_pos hq0] at h
    exact absurd h (hdot p hp)
  · rwa [if_neg hp0, if_neg hq0] at h

theorem clientPlace_eq (h : refused env path = false) :
    clientPlace env path = clientPlace env env.home ++ belowHome env path := by
  obtain ⟨t, ht⟩ := (accepted h).1
  rw [belowHome, ← ht, List.drop_left]

/-- An absolute home directory is the same place from every working directory. -/
theorem clientPlace_home {env' : Env} (habs : isabs env.home = true) (hhome : env'.home = env.home) :
    clientPlace env' env'.home = clientPlace env env.home := by
  rw [clientPlace, clientPlace, hhome, absCompsFrom, absCompsFrom, if_pos habs, if_pos habs]

theorem comps_serverFn (h : refused env path = false) (isDir : Bool) :
    comps (serverFn env path isDir) =
      "tmp".toList :: env.clientHostname :: relParts (belowHome env path) := by
  have hparts : ∀ c ∈ relParts (belowHome env path), c ≠ [] := by
    intro c hc
    rw [relParts] at hc
    split at hc
    · rw [List.mem_singleton.1 hc]
      decide
    · exact (belowHome_names env path c hc).1
  have hall : ∀ c ∈ "tmp".toList :: env.clientHostname :: relParts (belowHome env path), c ≠ [] := by
    intro c hc
    rcases List.mem_cons.1 hc with rfl | hc
    · decide
    · rcases List.mem_cons.1 hc with rfl | hc
      · exact env.host.1
      · exact hparts c hc
  have hfilter := List.filter_eq_self.2 fun c hc => decide_eq_true (hall c hc)
  rw [comps, splitOn_serverFn h, List.filter_append, List.filter_cons_of_neg (by simp), hfilter]
  cases isDir <;> simp

/-- Equal names come from equal hosts and equal places below the home directory. -/
theorem serverFn_eq_iff {env' : Env} {path' : Str} (h : refused env path = false)
    (h' : refused env' path' = false) {d d' : Bool} :
    serverFn env path d = serverFn env' path' d' ↔
      env.clientHostname = env'.clientHostname ∧ belowHome env path = belowHome env' path' ∧
        d = d' := by
  constructor
  · intro heq
    have hcomps := congrArg comps heq
    rw [comps_serverFn h, comps_serverFn h'] at hcomps
    obtain ⟨hhost, hparts⟩ := List.cons.inj (List.cons.inj hcomps).2
    have hslash := congrArg endsWithSlash heq
    rw [endsWithSlash_serverFn h, endsWithSlash_serverFn h'] at hslash
    exact ⟨hhost, relParts_injective (belowHome_names env path) (belowHome_names env' path') hparts,
      hslash⟩
  · rintro ⟨hhost, hbelow, rfl⟩
    rw [serverFn_eq h, serverFn_eq h', hhost, hbelow]

/-- **`server_fn` is below `/tmp/<host>` and names one place of one host**, for one
home directory: two paths have the same name exactly if they are spellings of the
same place, both or none of them with the slash of a directory. -/
theorem serverFn_injective {env env' : Env} {path path' : Str} (habs : isabs env.home = true)
    (hhome : env'.home = env.home) (h : refused env path = false)
    (h' : refused env' path' = false) (d d' : Bool) :
    (isabs (serverFn env path d) = true ∧
      ["tmp".toList, env.clientHostname] <+: comps (serverFn env path d) ∧
      dotdot ∉ comps (serverFn env path d)) ∧
    (serverFn env path d = serverFn env' path' d' ↔
      env.clientHostname = env'.clientHostname ∧
        comps (abspath (toStr env.cwd) path) = comps (abspath (toStr env'.cwd) path') ∧
        d = d') := by
  have hplaces : belowHome env path = belowHome env' path' ↔
      clientPlace env path = clientPlace env' path' := by
    rw [clientPlace_eq h, clientPlace_eq h', clientPlace_home habs hhome,
      List.append_cancel_left_eq]
  refine ⟨⟨isabs_serverFn h d, ?_, ?_⟩, ?_⟩
  · rw [comps_serverFn h]
    exact ⟨_, rfl⟩
  · exact fun hm => dotdot_notMem_serverFn h d (List.mem_of_mem_filter hm)
  · rw [comps_abspath env.names, comps_abspath env'.names, serverFn_eq_iff h h', hplaces]
    rfl

/-- Two spellings of a file in ann's home directory. -/
theorem serverFn_injective_sample :
    serverFn ann "notes.txt".toList false = serverFn ann "./work/..//notes.txt".toList false :=
  (serverFn_injective (by decide) rfl (by decide) (by decide) false false).2.2
    ⟨rfl, by decide, rfl⟩

/-! ## `client_fn` -/

theorem clientFn_false (env : Env) (path : Str) :
    clientFn env path false = abspath (toStr env.cwd) path := by
  simp [clientFn]

theorem clientFn_true (env : Env) (path : Str) :
    clientFn env path true = abspath (toStr env.cwd) path ++ ['/'] := rfl

end Fsync.Client
