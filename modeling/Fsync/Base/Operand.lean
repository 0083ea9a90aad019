import Fsync.Base.PosixPath

/-!
# How rsync reads its arguments

An operand is the name of a local file, or a host and a path with a colon between
them, two colons for a daemon.  The host ends at the first colon that has no slash
before it, unless it is an IPv6 literal in brackets, with a user before it or not.

* `readOperand`: the reading;
* `readOperand_host_path_iff`: the texts `host` for which `host:path` is read as the
  host and the path it was built from, for an absolute path;
* `readArgv`: the operands of an argument vector and its exclude patterns.
-/

namespace Rsync

open Posix

/-- What an operand names: a local file, a path on a host, or one of a daemon's modules. -/
inductive Operand where
  | localFile (path : Str)
  | remote (host path : Str)
  | daemon (host path : Str)
  deriving DecidableEq, Repr

/-- A character that ends the host where no brackets are. -/
def isEnd (c : Char) : Bool := c = ':' || c = '/'

/-- The host that ends at the first colon, and what follows the colon. -/
def readPlain (s : Str) : Option (Str × Str) :=
  match s.dropWhile (!isEnd ·) with
  | ':' :: rest => some (s.takeWhile (!isEnd ·), rest)
  | _ => none

/-- `[literal]:` at the start of the text: the literal, and what follows the colon. -/
def readLiteral (s : Str) : Option (Str × Str) :=
  match s with
  | '[' :: s =>
    match s.takeWhile (fun c => c ≠ ']' && c ≠ '/'), s.dropWhile (fun c => c ≠ ']' && c ≠ '/') with
    | c :: literal, ']' :: ':' :: rest => some (c :: literal, rest)
    | _, _ => none
  | _ => none

/-- A host starts here: nothing is before it, or a user with the `@`. -/
def isUser (s : Str) : Bool := s = [] || s.getLast? = some '@'

/-- The host that is a literal in brackets, as it is written, and what follows the colon. -/
def readBracketed (s : Str) : Option (Str × Str) :=
  let user := s.takeWhile fun c => !isEnd c && c ≠ '['
  if isUser user then
    (readLiteral (s.dropWhile fun c => !isEnd c && c ≠ '[')).map fun (literal, rest) =>
      (user ++ '[' :: literal ++ [']'], rest)
  else none

/-- The host of an operand and what follows its colon. -/
def readHost (s : Str) : Option (Str × Str) := readBracketed s <|> readPlain s

/-- A second colon behind the first one stands for a daemon. -/
def readOperand (s : Str) : Operand :=
  match readHost s with
  | none => .localFile s
  | some (host, ':' :: path) => .daemon host path
  | some (host, path) => .remote host path

/-! ## Hosts that are read back -/

/-- A user and a literal in brackets. -/
def Bracketed (host : Str) : Prop :=
  ∃ user literal, host = user ++ '[' :: literal ++ [']'] ∧ isUser user = true ∧ literal ≠ [] ∧
    (∀ c ∈ user, isEnd c = false ∧ c ≠ '[') ∧ ∀ c ∈ literal, c ≠ ']' ∧ c ≠ '/'

/-- A text that is read as a host: it has no colon and no slash, but for those of a
literal in brackets. -/
def HostLike (host : Str) : Prop := (∀ c ∈ host, isEnd c = false) ∨ Bracketed host

/-! ## What is read -/

/-- A text is split before the first character without the property. -/
theorem span_eq_iff {α : Type*} {p : α → Bool} {s a b : List α} (hb : ∀ c ∈ b.head?, p c = false) :
    s.takeWhile p = a ∧ s.dropWhile p = b ↔ s = a ++ b ∧ ∀ c ∈ a, p c = true := by
  constructor
  · rintro ⟨rfl, rfl⟩
    exact ⟨List.takeWhile_append_dropWhile.symm, fun c hc => List.mem_takeWhile_imp hc⟩
  · rintro ⟨rfl, ha⟩
    have hstop : b.takeWhile p = [] ∧ b.dropWhile p = b := by
      cases b with
      | nil => exact ⟨rfl, rfl⟩
      | cons c b =>
        have hc := hb c rfl
        simp [hc]
    rw [List.takeWhile_append_of_pos ha, List.dropWhile_append_of_pos ha, hstop.1, hstop.2,
      List.append_nil]
    exact ⟨rfl, rfl⟩

theorem readPlain_eq_some {s host rest : Str} :
    readPlain s = some (host, rest) ↔ s = host ++ ':' :: rest ∧ ∀ c ∈ host, isEnd c = false := by
  have hspan := span_eq_iff (p := (!isEnd ·)) (s := s) (a := host) (b := ':' :: rest)
    (by rintro c ⟨⟩; decide)
  simp only [Bool.not_eq_true'] at hspan
  rw [← hspan, readPlain]
  constructor
  · intro h
    split at h
    · rename_i rest' hdrop
      obtain ⟨rfl, rfl⟩ := Prod.mk.inj (Option.some.inj h)
      exact ⟨rfl, hdrop⟩
    · cases h
  · rintro ⟨rfl, hdrop⟩
    rw [hdrop]
    rfl

theorem readLiteral_eq_some {s literal rest : Str} :
    readLiteral s = some (literal, rest) ↔
      s = '[' :: literal ++ ']' :: ':' :: rest ∧ literal ≠ [] ∧ ∀ c ∈ literal, c ≠ ']' ∧ c ≠ '/' := by
  have hspan := fun t => span_eq_iff (p := fun c => c ≠ ']' && c ≠ '/') (s := t) (a := literal)
    (b := ']' :: ':' :: rest) (by rintro c ⟨⟩; decide)
  simp only [Bool.and_eq_true, decide_eq_true_eq] at hspan
  constructor
  · intro h
    unfold readLiteral at h
    split at h
    · rename_i t
      split at h
      · rename_i c literal' rest' htake hdrop
        obtain ⟨rfl, rfl⟩ := Prod.mk.inj (Option.some.inj h)
        obtain ⟨rfl, hlit⟩ := (hspan t).1 ⟨htake, hdrop⟩
        exact ⟨rfl, by simp, hlit⟩
      · cases h
    · cases h
  · rintro ⟨rfl, hne, hlit⟩
    obtain ⟨htake, hdrop⟩ := (hspan _).2 ⟨rfl, hlit⟩
    rw [List.cons_append, readLiteral, htake, hdrop]
    cases literal with
    | nil => exact absurd rfl hne
    | cons c literal => rfl

/-- A literal that is read is a host in brackets. -/
theorem readBracketed_eq_some {s host rest : Str} :
    readBracketed s = some (host, rest) ↔ s = host ++ ':' :: rest ∧ Bracketed host := by
  rw [readBracketed]
  dsimp only
  constructor
  · intro h
    split at h
    · rename_i huser
      obtain ⟨⟨literal, rest'⟩, hread, heq⟩ := Option.map_eq_some_iff.1 h
      obtain ⟨rfl, rfl⟩ := Prod.mk.inj heq
      obtain ⟨hdrop, hne, hlit⟩ := readLiteral_eq_some.1 hread
      refine ⟨?_, _, literal, rfl, huser, hne, fun c hc => ?_, hlit⟩
      · conv_lhs => rw [← List.takeWhile_append_dropWhile (p := fun c => !isEnd c && c ≠ '[') (l := s),
          hdrop]
        simp
      · simpa using List.mem_takeWhile_imp hc
    · cases h
  · rintro ⟨rfl, user, literal, rfl, huser, hne, hchars, hlit⟩
    obtain ⟨htake, hdrop⟩ := (span_eq_iff (p := fun c => !isEnd c && c ≠ '[')
      (s := user ++ '[' :: literal ++ [']'] ++ ':' :: rest) (a := user)
      (b := '[' :: literal ++ ']' :: ':' :: rest) (by rintro c ⟨⟩; decide)).2
      ⟨by simp, fun c hc => by simpa using hchars c hc⟩
    rw [htake, hdrop, if_pos huser, readLiteral_eq_some.2 ⟨rfl, hne, hlit⟩]
    rfl

theorem slash_notMem_of_bracketed {host : Str} (h : Bracketed host) : '/' ∉ host := by
  obtain ⟨user, literal, rfl, -, -, huser, hlit⟩ := h
  have hu : '/' ∉ user := fun hc => Bool.noConfusion (huser '/' hc).1
  have hl : '/' ∉ literal := fun hc => (hlit '/' hc).2 rfl
  simp [hu, hl]

theorem readHost_eq_some {s host rest : Str} (h : readHost s = some (host, rest)) :
    s = host ++ ':' :: rest ∧ HostLike host := by
  rw [readHost] at h
  cases hb : readBracketed s with
  | some x =>
    rw [hb] at h
    obtain rfl := Option.some.inj h
    obtain ⟨hs, hhost⟩ := readBracketed_eq_some.1 hb
    exact ⟨hs, Or.inr hhost⟩
  | none =>
    rw [hb] at h
    obtain ⟨hs, hhost⟩ := readPlain_eq_some.1 h
    exact ⟨hs, Or.inl hhost⟩

/-- In front of an absolute path, the host that is read back is the only one. -/
theorem readHost_append {host path : Str} (habs : isabs path = true) (h : HostLike host) :
    readHost (host ++ ':' :: path) = some (host, path) := by
  rcases h with h | h
  · rw [readHost]
    cases hb : readBracketed (host ++ ':' :: path) with
    | none => exact readPlain_eq_some.2 ⟨rfl, h⟩
    | some x =>
      obtain ⟨host', rest⟩ := x
      obtain ⟨heq, hhost'⟩ := readBracketed_eq_some.1 hb
      have hcolon : ':' ∉ host := fun hc => Bool.noConfusion (h ':' hc)
      rcases List.append_eq_append_iff.1 heq with ⟨t, rfl, ht⟩ | ⟨t, rfl, ht⟩
      · cases t with
        | nil =>
          obtain ⟨-, rfl⟩ := List.cons.inj ht
          rw [List.append_nil]
          rfl
        | cons c t =>
          -- the literal would go on past the slash of the path
          exfalso
          obtain ⟨rfl, hpath⟩ := List.cons.inj ht
          cases t with
          | nil => rw [hpath] at habs; cases habs
          | cons d t =>
            rw [hpath, isabs] at habs
            obtain rfl : d = '/' := by simpa using habs
            exact slash_notMem_of_bracketed hhost' (by simp)
      · cases t with
        | nil =>
          obtain ⟨-, rfl⟩ := List.cons.inj ht
          rw [List.append_nil]
          rfl
        | cons c t =>
          obtain ⟨rfl, -⟩ := List.cons.inj ht
          exact absurd (List.mem_append_right host' List.mem_cons_self) hcolon
  · rw [readHost, readBracketed_eq_some.2 ⟨rfl, h⟩]
    rfl

/-- **An operand with an absolute path is read back** exactly if its host can be read
as one. -/
theorem readOperand_host_path_iff {host path : Str} (habs : isabs path = true) :
    readOperand (host ++ ':' :: path) = .remote host path ↔ HostLike host := by
  rw [readOperand]
  constructor
  · intro h
    split at h
    · cases h
    · cases h
    · rename_i host' path' hread
      obtain ⟨rfl, rfl⟩ := Operand.remote.inj h
      exact (readHost_eq_some hread).2
  · intro h
    rw [readHost_append habs h]
    split
    · rename_i heq
      cases heq
    · rename_i host' path' heq
      obtain ⟨rfl, rfl⟩ := Prod.mk.inj (Option.some.inj heq)
      cases habs
    · rename_i heq
      obtain ⟨rfl, rfl⟩ := Prod.mk.inj (Option.some.inj heq)
      rfl

/-! ## The arguments of a copy -/

/-- The operands of a copy, the last of which is its destination, and the exclude
patterns. -/
structure Arguments where
  sources : List Str
  dest : Str
  exclude : List Str
  deriving DecidableEq, Repr

/-- The patterns of `--exclude PATTERN ...`. -/
def readExcludes : List Str → Option (List Str)
  | [] => some []
  | [_] => none
  | option :: pattern :: args =>
    if option = "--exclude".toList then (readExcludes args).map (pattern :: ·) else none

/-- A text that begins with a dash is an option. -/
def isOption (s : Str) : Bool := s.head? = some '-'

/-- The arguments of `rsync --delete -r SRC... DEST --exclude PATTERN ...`, where no
operand is read as an option. -/
def readArgv : List Str → Option Arguments
  | program :: delete :: recursive :: args =>
    let operands := args.takeWhile (!isOption ·)
    if program = "/usr/bin/rsync".toList ∧ delete = "--delete".toList ∧
        recursive = "-r".toList ∧ 2 ≤ operands.length then
      (readExcludes (args.dropWhile (!isOption ·))).map fun exclude =>
        ⟨operands.dropLast, operands.getLastD [], exclude⟩
    else none
  | _ => none

/-- The operand names a local file. -/
def isLocal (operand : Str) : Bool := readOperand operand matches .localFile _

end Rsync
