import Fsync.Base.Run

/-!
# The shell's command line

How the POSIX shell reads a command line of one line: it is cut into words at its
blanks, quotes and backslashes are removed, and a word with a tilde in front or with a
pattern in it is expanded.

* `words`: the words of a line, lexed character by character;
* `argv`: the argument vector of a line that is one simple command, with no operator and
  no substitution in it, on a machine that expands its words in some way;
* `argv_all_iff`: the lines that have the same one on all machines;
* `kept_exec`: lexing only deletes characters;
* `exec_lossless`: a line that keeps its double quotes, its backslashes and its `#` has
  only single quotes for syntax, and keeps none of these.
-/

namespace Shell

/-! ## Words -/

/-- A piece of a word; a mark is left where a quotation begins. -/
inductive Piece where
  | plain (c : Char)
  | quoted (c : Char)
  | mark
  deriving DecidableEq, Repr

/-- It stands in the line as it is. -/
def Piece.isPlain : Piece → Bool
  | .plain _ => true
  | _ => false

/-- What quote removal leaves of it. -/
def Piece.text : Piece → List Char
  | .plain c => [c]
  | .quoted c => [c]
  | .mark => []

/-- A word before quote removal. -/
abbrev Word := List Piece

/-- Quote removal. -/
def textOf (w : Word) : List Char := w.flatMap Piece.text

@[simp] theorem textOf_nil : textOf [] = [] := rfl

@[simp] theorem textOf_append (v w : Word) : textOf (v ++ w) = textOf v ++ textOf w :=
  List.flatMap_append

@[simp] theorem textOf_singleton (p : Piece) : textOf [p] = p.text := List.flatMap_singleton _ _

@[simp] theorem textOf_plain (u : List Char) : textOf (u.map .plain) = u := by
  induction u with
  | nil => rfl
  | cons c u ih => exact congrArg (c :: ·) ih

@[simp] theorem textOf_quoted (u : List Char) : textOf (.mark :: u.map .quoted) = u := by
  induction u with
  | nil => rfl
  | cons c u ih => exact congrArg (c :: ·) ih

/-! ## The lexer -/

/-- The characters that words are cut at. -/
def blanks : List Char := [' ', '\t']

/-- The characters that operators begin with, and the end of the line. -/
def operators : List Char := ['|', '&', ';', '<', '>', '(', ')', '\n']

/-- The characters that parameters and commands are substituted at. -/
def substitutions : List Char := ['$', '\x60']

/-- Where the lexer is: outside quotations, behind a backslash, in single or double quotes,
behind a backslash in double quotes, or in a comment. -/
inductive Mode where
  | unquoted
  | escaped
  | single
  | double
  | doubleEscaped
  | comment
  deriving DecidableEq, Repr

/-- The words that are complete, the one that was begun, and where the lexer is. -/
structure Lexer where
  words : List Word
  /-- The word that was begun. -/
  word : Word
  mode : Mode

namespace Lexer

/-- The lexer at the start of a line. -/
def start : Lexer := ⟨[], [], .unquoted⟩

/-- A piece is added to the word. -/
def push (s : Lexer) (p : Piece) : Lexer := { s with word := s.word ++ [p] }

/-- The lexer goes on elsewhere. -/
def enter (s : Lexer) (m : Mode) : Lexer := { s with mode := m }

/-- A blank ends the word that was begun; two blanks do not make an empty word. -/
def endWord (s : Lexer) : Lexer :=
  if s.word = [] then s else { s with words := s.words ++ [s.word], word := [] }

end Lexer

/-- One character.  There is no step where the line is no simple command or a
substitution begins. -/
def step (s : Lexer) (c : Char) : Option Lexer :=
  match s.mode with
  | .unquoted =>
    if c ∈ blanks then some s.endWord
    else if c = '\'' then some ((s.push .mark).enter .single)
    else if c = '"' then some ((s.push .mark).enter .double)
    else if c = '\\' then some (s.enter .escaped)
    else if c = '#' ∧ s.word = [] then some (s.enter .comment)
    else if c ∈ operators ∨ c ∈ substitutions then none
    else some (s.push (.plain c))
  | .escaped =>
    -- a backslash and a newline continue the line
    if c = '\n' then some (s.enter .unquoted)
    else some ((s.push (.quoted c)).enter .unquoted)
  | .single =>
    if c = '\'' then some (s.enter .unquoted)
    else some (s.push (.quoted c))
  | .double =>
    if c = '"' then some (s.enter .unquoted)
    else if c = '\\' then some (s.enter .doubleEscaped)
    else if c ∈ substitutions then none
    else some (s.push (.quoted c))
  | .doubleEscaped =>
    if c = '\n' then some (s.enter .double)
    else if c ∈ substitutions ∨ c = '"' ∨ c = '\\' then some ((s.push (.quoted c)).enter .double)
    else some (((s.push (.quoted '\\')).push (.quoted c)).enter .double)
  | .comment => if c = '\n' then none else some s

/-- The words at the end of the line, if no quotation is left open. -/
def Lexer.finish (s : Lexer) : Option (List Word) :=
  if s.mode = .unquoted ∨ s.mode = .comment then some s.endWord.words else none

/-- The words of a line. -/
def words (line : List Char) : Option (List Word) :=
  (Run.exec step .start line).bind Lexer.finish

/-! ## Expansions -/

/-- A tilde in front, and no quotation before the first slash. -/
def hasTilde (w : Word) : Bool :=
  decide (w.head? = some (.plain '~')) && (w.takeWhile (· ≠ .plain '/')).all Piece.isPlain

/-- A `]` before the next slash. -/
def closes : Word → Bool
  | [] => false
  | p :: w => decide (p = .plain ']') || (decide (p.text ≠ ['/']) && closes w)

/-- What follows a `[` makes a bracket expression of it: `!` is skipped, and a `]` that
comes first is a member. -/
def brackets (w : Word) : Bool :=
  let members := if w.head? = some (.plain '!') then w.tail else w
  decide (members.head?.map Piece.text ≠ some ['/']) && closes members.tail

/-- A bracket expression begins somewhere in the word. -/
def hasBracket : Word → Bool
  | [] => false
  | p :: w => (decide (p = .plain '[') && brackets w) || hasBracket w

/-- The word is a pattern for path names. -/
def globs (w : Word) : Bool :=
  (w.any fun p => decide (p = .plain '*' ∨ p = .plain '?')) || hasBracket (w.filter (· ≠ .mark))

/-- The word is expanded: it has a tilde in front or is a pattern. -/
def expands (w : Word) : Bool := hasTilde w || globs w

/-- What a machine makes of a word that is to be expanded: it depends on its files and
home directories. -/
abbrev Expansion := Word → List (List Char)

/-- Every pattern is without a match, and every tilde without a user. -/
def unmatched : Expansion := fun w => [textOf w]

/-- The arguments that a word becomes. -/
def fields (expansion : Expansion) (w : Word) : List (List Char) :=
  if expands w then expansion w else [textOf w]

/-- The argument vector of a line that begins with a slash, so that its first word is
neither a keyword nor an assignment. -/
def argv (expansion : Expansion) (line : List Char) : Option (List (List Char)) :=
  (words line).bind fun ws =>
    if ws.head?.bind List.head? = some (.plain '/') then some (ws.flatMap (fields expansion))
    else none

theorem flatMap_fields {ws : List Word} (h : ∀ w ∈ ws, expands w = false) (expansion : Expansion) :
    ws.flatMap (fields expansion) = ws.map textOf := by
  induction ws with
  | nil => rfl
  | cons w ws ih =>
    have hw : expands w = false := h w List.mem_cons_self
    have hfields : fields expansion w = [textOf w] := by simp [fields, hw]
    rw [List.flatMap_cons, hfields, ih fun x hx => h x (List.mem_cons_of_mem w hx)]
    rfl

/-- Words that become the same arguments on all machines are not expanded: where the
expansions are nothing there are fewer arguments than where they are something. -/
theorem expands_eq_false {ws : List Word} {v : List (List Char)}
    (h : ∀ expansion, ws.flatMap (fields expansion) = v) : ∀ w ∈ ws, expands w = false := by
  have hnone : (ws.flatMap (fields fun _ => [])).length = ws.countP fun w => !expands w := by
    clear h
    induction ws with
    | nil => rfl
    | cons w ws ih =>
      rw [List.flatMap_cons, List.length_append, ih, List.countP_cons]
      cases hw : expands w <;> simp [fields, hw, Nat.add_comm]
  have hone : (ws.flatMap (fields unmatched)).length = ws.length := by
    clear h hnone
    induction ws with
    | nil => rfl
    | cons w ws ih =>
      rw [List.flatMap_cons, List.length_append, ih, List.length_cons]
      cases hw : expands w <;> simp [fields, unmatched, hw, Nat.add_comm]
  have hall : (ws.countP fun w => !expands w) = ws.length := by
    rw [← hnone, ← hone, h, h]
  intro w hw
  simpa using List.countP_eq_length.1 hall w hw

/-- **The lines with one argument vector on all machines**: none of their words is
expanded. -/
theorem argv_all_iff {line : List Char} {v : List (List Char)} :
    (∀ expansion, argv expansion line = some v) ↔
      ∃ ws, words line = some ws ∧ ws.head?.bind List.head? = some (.plain '/') ∧
        (∀ w ∈ ws, expands w = false) ∧ ws.map textOf = v := by
  constructor
  · intro h
    obtain ⟨ws, hws, hread⟩ := Option.bind_eq_some_iff.1 (h unmatched)
    split_ifs at hread with hslash
    have hfields : ∀ expansion, ws.flatMap (fields expansion) = v := by
      intro expansion
      have he := h expansion
      rw [argv, hws, Option.bind_some, if_pos hslash] at he
      exact Option.some.inj he
    have hexp := expands_eq_false hfields
    exact ⟨ws, hws, hslash, hexp, (flatMap_fields hexp unmatched).symm.trans (hfields unmatched)⟩
  · rintro ⟨ws, hws, hslash, hexp, rfl⟩ expansion
    rw [argv, hws, Option.bind_some, if_pos hslash, flatMap_fields hexp]

/-- The argument vector that a line has on all machines. -/
def plainArgv (line : List Char) : Option (List (List Char)) :=
  (words line).bind fun ws =>
    if ws.head?.bind List.head? = some (.plain '/') ∧ ∀ w ∈ ws, expands w = false then
      some (ws.map textOf)
    else none

example : argv unmatched "/bin/echo a'b c'\\ d \"$\"".toList = none := by decide

example : argv unmatched "/bin/echo a'b c'\\ d # e".toList =
    some ["/bin/echo".toList, "ab c d".toList] := by decide

/-! ## What lexing keeps -/

namespace Lexer

/-- The text of the words so far. -/
def text (s : Lexer) : List Char := s.words.flatMap textOf ++ textOf s.word

/-- The same with a backslash that may turn out to be text. -/
def kept (s : Lexer) : List Char :=
  s.text ++ if s.mode = .doubleEscaped then ['\\'] else []

variable (s : Lexer)

@[simp] theorem mode_push (p : Piece) : (s.push p).mode = s.mode := rfl

@[simp] theorem mode_enter (m : Mode) : (s.enter m).mode = m := rfl

@[simp] theorem mode_endWord : s.endWord.mode = s.mode := by
  rw [endWord]
  split <;> rfl

@[simp] theorem text_push (p : Piece) : (s.push p).text = s.text ++ p.text := by
  simp [text, push]

@[simp] theorem text_enter (m : Mode) : (s.enter m).text = s.text := rfl

@[simp] theorem text_endWord : s.endWord.text = s.text := by
  rw [endWord]
  split
  · rfl
  · simp [text]

@[simp] theorem word_endWord : s.endWord.word = [] := by
  rw [endWord]
  split
  · assumption
  · rfl

end Lexer

/-- **A step only deletes characters.** -/
theorem kept_step {s t : Lexer} {c : Char} (h : step s c = some t) :
    t.kept.Sublist (s.kept ++ [c]) := by
  rw [step] at h
  cases hm : s.mode with
  | unquoted =>
    rw [hm] at h
    dsimp only at h
    split_ifs at h <;> obtain rfl := Option.some.inj h <;> simp [Lexer.kept, Piece.text, hm]
  | escaped =>
    rw [hm] at h
    dsimp only at h
    split_ifs at h <;> obtain rfl := Option.some.inj h <;> simp [Lexer.kept, Piece.text, hm]
  | single =>
    rw [hm] at h
    dsimp only at h
    split_ifs at h <;> obtain rfl := Option.some.inj h <;> simp [Lexer.kept, Piece.text, hm]
  | double =>
    rw [hm] at h
    dsimp only at h
    split_ifs at h with hq he
    · obtain rfl := Option.some.inj h
      simp [Lexer.kept, hm]
    · -- the backslash is kept until the next character
      obtain rfl := Option.some.inj h
      simp [Lexer.kept, hm, he]
    · obtain rfl := Option.some.inj h
      simp [Lexer.kept, Piece.text, hm]
  | doubleEscaped =>
    rw [hm] at h
    dsimp only at h
    split_ifs at h <;> obtain rfl := Option.some.inj h <;> simp [Lexer.kept, Piece.text, hm]
  | comment =>
    rw [hm] at h
    dsimp only at h
    split_ifs at h
    obtain rfl := Option.some.inj h
    simp [Lexer.kept, hm]

theorem kept_exec {s t : Lexer} {line : List Char} (h : Run.exec step s line = some t) :
    t.kept.Sublist (s.kept ++ line) := by
  induction line generalizing s with
  | nil =>
    obtain rfl := Option.some.inj h
    simp
  | cons c line ih =>
    obtain ⟨m, hm, hrest⟩ := Option.bind_eq_some_iff.1 h
    refine (ih hrest).trans ?_
    simpa using (kept_step hm).append_right line

/-! ## Lines that lose no quote, backslash or comment

A line whose words together have every double quote, backslash and `#` of the line has
only single quotes for syntax, and these it loses.
-/

/-- The characters that a line is compared by. -/
def witnesses : List Char := ['"', '\\', '#']

/-- No witness of the line is lost between the two states. -/
def Lossless (s : Lexer) (line : List Char) (t : Lexer) : Prop :=
  ∀ c ∈ witnesses, t.kept.count c = s.kept.count c + line.count c

theorem count_kept_exec {s t : Lexer} {line : List Char} (h : Run.exec step s line = some t)
    (c : Char) : t.kept.count c ≤ s.kept.count c + line.count c := by
  rw [← List.count_append]
  exact (kept_exec h).count_le c

/-- If a line loses nothing, none of its parts does. -/
theorem Lossless.split {s m t : Lexer} {u v : List Char} (hu : Run.exec step s u = some m)
    (hv : Run.exec step m v = some t) (h : Lossless s (u ++ v) t) :
    Lossless s u m ∧ Lossless m v t := by
  have hsum : ∀ c ∈ witnesses, m.kept.count c = s.kept.count c + u.count c ∧
      t.kept.count c = m.kept.count c + v.count c := by
    intro c hc
    have htotal := h c hc
    rw [List.count_append] at htotal
    have hfirst := count_kept_exec hu c
    have hsecond := count_kept_exec hv c
    omega
  exact ⟨fun c hc => (hsum c hc).1, fun c hc => (hsum c hc).2⟩

theorem exec_split {s t : Lexer} {u v : List Char} (h : Run.exec step s (u ++ v) = some t) :
    ∃ m, Run.exec step s u = some m ∧ Run.exec step m v = some t := by
  rw [Run.exec_append] at h
  exact Option.bind_eq_some_iff.1 h

theorem Lossless.cons {s m t : Lexer} {c : Char} {line : List Char} (hm : step s c = some m)
    (hrest : Run.exec step m line = some t) (h : Lossless s (c :: line) t) :
    Lossless s [c] m ∧ Lossless m line t := by
  have hone : Run.exec step s [c] = some m := by
    rw [Run.exec_cons, hm]
    rfl
  exact h.split hone hrest

/-- A witness that a step does not keep is lost. -/
theorem not_lossless_of_kept {s t : Lexer} {c : Char} (hc : c ∈ witnesses)
    (h : t.kept = s.kept) : ¬ Lossless s [c] t := by
  intro hl
  have hcount := hl c hc
  rw [h, List.count_singleton_self] at hcount
  omega

/-- A character that stands for itself in a word. -/
def Ordinary (c : Char) : Prop :=
  c ∉ blanks ∧ c ≠ '\'' ∧ c ≠ '"' ∧ c ≠ '\\' ∧ c ∉ operators ∧ c ∉ substitutions

instance (c : Char) : Decidable (Ordinary c) := inferInstanceAs (Decidable (_ ∧ _))

theorem kept_of_unquoted {s : Lexer} (h : s.mode ≠ .doubleEscaped) : s.kept = s.text := by
  rw [Lexer.kept, if_neg h, List.append_nil]

/-- What a step outside quotations does if it loses nothing. -/
theorem step_unquoted {s t : Lexer} {c : Char} (hs : s.mode = .unquoted)
    (h : step s c = some t) (hl : Lossless s [c] t) :
    (c ∈ blanks ∧ t = s.endWord) ∨ (c = '\'' ∧ t = (s.push .mark).enter .single) ∨
      (Ordinary c ∧ (s.word = [] → c ≠ '#') ∧ t = s.push (.plain c)) := by
  rw [step, hs] at h
  dsimp only at h
  split_ifs at h with hb hq hd he hc ho
  · exact Or.inl ⟨hb, (Option.some.inj h).symm⟩
  · exact Or.inr (Or.inl ⟨hq, (Option.some.inj h).symm⟩)
  · obtain rfl := Option.some.inj h
    have hkept : ((s.push .mark).enter .double).kept = s.kept := by
      simp [Lexer.kept, hs, Piece.text]
    exact absurd hl (not_lossless_of_kept (by simp [hd, witnesses]) hkept)
  · obtain rfl := Option.some.inj h
    have hkept : (s.enter .escaped).kept = s.kept := by simp [Lexer.kept, hs]
    exact absurd hl (not_lossless_of_kept (by simp [he, witnesses]) hkept)
  · obtain rfl := Option.some.inj h
    have hkept : (s.enter .comment).kept = s.kept := by simp [Lexer.kept, hs]
    exact absurd hl (not_lossless_of_kept (by simp [hc.1, witnesses]) hkept)
  · refine Or.inr (Or.inr ⟨⟨hb, hq, hd, he, ?_, ?_⟩, ?_, (Option.some.inj h).symm⟩)
    · exact fun hop => ho (Or.inl hop)
    · exact fun hsub => ho (Or.inr hsub)
    · exact fun hw hh => hc ⟨hh, hw⟩

/-- Lexing without a loss goes on outside quotations or in single quotes, and single
quotes are lost. -/
theorem exec_lossless {s t : Lexer} {line : List Char} (hs : s.mode = .unquoted ∨ s.mode = .single)
    (h : Run.exec step s line = some t) (hl : Lossless s line t) :
    (t.mode = .unquoted ∨ t.mode = .single) ∧ t.text.count '\'' = s.text.count '\'' := by
  induction line generalizing s with
  | nil =>
    obtain rfl := Option.some.inj h
    exact ⟨hs, rfl⟩
  | cons c line ih =>
    obtain ⟨m, hm, hrest⟩ := Option.bind_eq_some_iff.1 h
    obtain ⟨hl₁, hl₂⟩ := hl.cons hm hrest
    have hmid : (m.mode = .unquoted ∨ m.mode = .single) ∧
        m.text.count '\'' = s.text.count '\'' := by
      rcases hs with hs | hs
      · rcases step_unquoted hs hm hl₁ with ⟨-, rfl⟩ | ⟨-, rfl⟩ | ⟨ho, -, rfl⟩
        · simp [hs]
        · simp [Piece.text]
        · simp [hs, Piece.text, ho.2.1]
      · rw [step, hs] at hm
        dsimp only at hm
        split_ifs at hm with hq
        · obtain rfl := Option.some.inj hm
          simp
        · obtain rfl := Option.some.inj hm
          simp [hs, Piece.text, hq]
    obtain ⟨hmode, hcount⟩ := ih hmid.1 hrest hl₂
    exact ⟨hmode, hcount.trans hmid.2⟩

/-- A text without single quotes, outside quotations. -/
theorem exec_bare {s t : Lexer} {u : List Char} (hs : s.mode = .unquoted)
    (hu : '\'' ∉ u) (h : Run.exec step s u = some t) (hl : Lossless s u t) :
    t.mode = .unquoted ∧ t.text = s.text ++ u.filter (· ∉ blanks) ∧
      (∀ c ∈ u, c ∈ blanks ∨ Ordinary c) ∧ (s.word = [] → u.head? ≠ some '#') := by
  induction u generalizing s with
  | nil =>
    obtain rfl := Option.some.inj h
    exact ⟨hs, by simp, by simp, by simp⟩
  | cons c u ih =>
    obtain ⟨m, hm, hrest⟩ := Option.bind_eq_some_iff.1 h
    obtain ⟨hl₁, hl₂⟩ := hl.cons hm hrest
    have hu' : '\'' ∉ u := fun hmem => hu (List.mem_cons_of_mem c hmem)
    rcases step_unquoted hs hm hl₁ with ⟨hb, rfl⟩ | ⟨rfl, -⟩ | ⟨ho, hhash, rfl⟩
    · obtain ⟨hmode, htext, hall, -⟩ := ih (by simpa using hs) hu' hrest hl₂
      refine ⟨hmode, ?_, ?_, ?_⟩
      · rw [htext, Lexer.text_endWord, List.filter_cons_of_neg (by simpa using hb)]
      · exact List.forall_mem_cons.2 ⟨Or.inl hb, hall⟩
      · rintro - ⟨⟩
        simp [blanks] at hb
    · exact absurd List.mem_cons_self hu
    · obtain ⟨hmode, htext, hall, -⟩ := ih (by simpa using hs) hu' hrest hl₂
      refine ⟨hmode, ?_, ?_, ?_⟩
      · rw [htext, Lexer.text_push, List.filter_cons_of_pos (by simpa using ho.1)]
        simp [Piece.text]
      · exact List.forall_mem_cons.2 ⟨Or.inr ho, hall⟩
      · intro hw hh
        exact hhash hw (Option.some.inj hh)

end Shell
