import Fsync.Base.Shell

/-!
# Arguments in a command line

A program that joins arguments with blanks, some of them in single quotes, and leaves
the line to the shell.

* `exec_spaced`: what arguments that suit the line are lexed as;
* `lexes_of_words`: if the texts of all arguments come back, they do suit it;
* `argv_commandLine_iff`: exactly when the shell reads the arguments back.
-/

namespace Shell

/-! ## Lines that join arguments -/

/-- An argument as it is put into a line: as it is, or in single quotes. -/
inductive Arg where
  | bare (u : List Char)
  | quoted (u : List Char)
  deriving DecidableEq, Repr

namespace Arg

/-- The argument that is meant. -/
def text : Arg → List Char
  | bare u => u
  | quoted u => u

/-- How it stands in the line. -/
def render : Arg → List Char
  | bare u => u
  | quoted u => '\'' :: u ++ ['\'']

/-- The word it should be lexed as. -/
def word : Arg → Word
  | bare u => u.map .plain
  | quoted u => .mark :: u.map .quoted

/-- The characters that are lexed as text. -/
def strip : Arg → List Char
  | bare u => u.filter (· ∉ blanks)
  | quoted u => u

@[simp] theorem textOf_word (a : Arg) : textOf a.word = a.text := by
  cases a with
  | bare u => exact textOf_plain u
  | quoted u => exact textOf_quoted u

theorem strip_sublist (a : Arg) : a.strip.Sublist a.text := by
  cases a with
  | bare u => exact List.filter_sublist
  | quoted u => exact List.Sublist.refl u

/-- It is lexed as its word. -/
def Lexes : Arg → Prop
  | bare u => (∀ c ∈ u, Ordinary c) ∧ u.head? ≠ some '#'
  | quoted u => '\'' ∉ u

instance : (a : Arg) → Decidable a.Lexes
  -- by cases on the list, not on all characters
  | bare u => @instDecidableAnd _ _ (List.decidableBAll Ordinary u) inferInstance
  | quoted u => inferInstanceAs (Decidable ('\'' ∉ u))

end Arg

/-- `' '.join` -/
def commandLine (args : List Arg) : List Char := [' '].intercalate (args.map Arg.render)

/-- A line with a blank before each argument. -/
def spaced (args : List Arg) : List Char := args.flatMap fun a => ' ' :: a.render

theorem commandLine_cons (a : Arg) (args : List Arg) :
    commandLine (a :: args) = a.render ++ spaced args := by
  induction args generalizing a with
  | nil => simp [commandLine, spaced, List.intercalate]
  | cons b args ih =>
    have hcons : commandLine (a :: b :: args) = a.render ++ ' ' :: commandLine (b :: args) := by
      simp [commandLine, List.intercalate]
    rw [hcons, ih b]
    simp [spaced]

/-- The first blank does not matter. -/
theorem words_commandLine {args : List Arg} (h : args ≠ []) :
    words (commandLine args) = words (spaced args) := by
  cases args with
  | nil => exact absurd rfl h
  | cons a args =>
    rw [commandLine_cons]
    rfl

/-! ### Lexing arguments -/

theorem exec_plain {s : Lexer} {u : List Char} (hs : s.mode = .unquoted)
    (hu : ∀ c ∈ u, Ordinary c) (hhash : s.word = [] → u.head? ≠ some '#') :
    Run.exec step s u = some { s with word := s.word ++ u.map .plain } := by
  induction u generalizing s with
  | nil => simp
  | cons c u ih =>
    obtain ⟨hb, hq, hd, he, hop, hsub⟩ := hu c List.mem_cons_self
    have hc : ¬ (c = '#' ∧ s.word = []) := fun h => hhash h.2 (congrArg some h.1)
    have hstep : step s c = some (s.push (.plain c)) := by
      rw [step, hs]
      simp only [if_neg hb, if_neg hq, if_neg hd, if_neg he, if_neg hc, hop, hsub, or_self,
        if_false]
    have hrest := ih (s := s.push (.plain c)) hs (fun x hx => hu x (List.mem_cons_of_mem c hx))
      (fun h => absurd h (by simp [Lexer.push]))
    rw [Run.exec_cons, hstep, Option.bind_some, hrest]
    simp [Lexer.push]

theorem exec_single {s : Lexer} {u : List Char} (hs : s.mode = .single) (hu : '\'' ∉ u) :
    Run.exec step s u = some { s with word := s.word ++ u.map .quoted } := by
  induction u generalizing s with
  | nil => simp
  | cons c u ih =>
    have hc : c ≠ '\'' := fun h => hu (h ▸ List.mem_cons_self)
    have hstep : step s c = some (s.push (.quoted c)) := by
      rw [step, hs]
      simp only [if_neg hc]
    have hrest := ih (s := s.push (.quoted c)) hs fun h => hu (List.mem_cons_of_mem c h)
    rw [Run.exec_cons, hstep, Option.bind_some, hrest]
    simp [Lexer.push]

/-- An argument that is lexed as its word ends the word before it. -/
theorem exec_arg {s : Lexer} {a : Arg} (hs : s.mode = .unquoted) (ha : a.Lexes) :
    Run.exec step s (' ' :: a.render) = some ⟨s.endWord.words, a.word, .unquoted⟩ := by
  have hblank : step s ' ' = some s.endWord := by
    rw [step, hs]
    rfl
  have hend : s.endWord.mode = .unquoted := by simpa using hs
  rw [Run.exec_cons, hblank, Option.bind_some]
  cases a with
  | bare u =>
    rw [Arg.render, exec_plain hend ha.1 fun _ => ha.2, hend, Lexer.word_endWord]
    rfl
  | quoted u =>
    have hopen : step s.endWord '\'' = some ((s.endWord.push .mark).enter .single) := by
      rw [step, hend]
      rfl
    rw [Arg.render, List.cons_append, Run.exec_cons, hopen, Option.bind_some, Run.exec_append,
      exec_single rfl ha]
    simp [step, Arg.word, Lexer.push, Lexer.enter]

/-- The words of arguments that are lexed as theirs; an empty one is none. -/
theorem exec_spaced {s : Lexer} {args : List Arg} (hs : s.mode = .unquoted)
    (h : ∀ a ∈ args, a.Lexes) :
    ∃ t, Run.exec step s (spaced args) = some t ∧ t.mode = .unquoted ∧
      t.endWord.words = s.endWord.words ++ (args.map Arg.word).filter (· ≠ []) := by
  induction args generalizing s with
  | nil => exact ⟨s, rfl, hs, by simp⟩
  | cons a args ih =>
    obtain ⟨t, ht, hmode, hwords⟩ := ih (s := ⟨s.endWord.words, a.word, .unquoted⟩) rfl
      fun b hb => h b (List.mem_cons_of_mem a hb)
    refine ⟨t, ?_, hmode, ?_⟩
    · have hsplit : spaced (a :: args) = (' ' :: a.render) ++ spaced args := rfl
      rw [hsplit, Run.exec_append, exec_arg hs (h a List.mem_cons_self)]
      exact ht
    · rw [hwords, List.map_cons]
      by_cases hw : a.word = []
      · rw [List.filter_cons_of_neg (by simpa using hw)]
        simp [Lexer.endWord, hw]
      · rw [List.filter_cons_of_pos (by simpa using hw)]
        simp [Lexer.endWord, hw]

/-! ### Arguments that are read back -/

theorem count_spaced {c : Char} (h : c ∈ witnesses) (args : List Arg) :
    (spaced args).count c = (args.map Arg.text).flatten.count c := by
  have hblank : (' ' == c) = false := by
    rw [beq_eq_false_iff_ne]
    rintro rfl
    simp [witnesses] at h
  have hquote : ('\'' == c) = false := by
    rw [beq_eq_false_iff_ne]
    rintro rfl
    simp [witnesses] at h
  induction args with
  | nil => rfl
  | cons a args ih =>
    have hsplit : spaced (a :: args) = (' ' :: a.render) ++ spaced args := rfl
    rw [hsplit, List.count_append, ih, List.map_cons, List.flatten_cons, List.count_append,
      List.count_cons, hblank]
    cases a with
    | bare u => rfl
    | quoted u => simp [Arg.render, Arg.text, List.count_cons, hquote]

/-- What is lexed of arguments that hold no single quote, if nothing is lost. -/
theorem exec_spaced_lossless {s t : Lexer} {args : List Arg} (hs : s.mode = .unquoted)
    (hq : ∀ a ∈ args, '\'' ∉ a.text) (h : Run.exec step s (spaced args) = some t)
    (hl : Lossless s (spaced args) t) :
    t.text = s.text ++ (args.map Arg.strip).flatten ∧
      ∀ u, .bare u ∈ args → (∀ c ∈ u, c ∈ blanks ∨ Ordinary c) ∧ u.head? ≠ some '#' := by
  induction args generalizing s with
  | nil =>
    obtain rfl := Option.some.inj h
    simp
  | cons a args ih =>
    obtain ⟨m, hm, hrest⟩ := exec_split (u := ' ' :: a.render) h
    obtain ⟨hl₁, hl₂⟩ := hl.split (u := ' ' :: a.render) hm hrest
    have htail : ∀ b ∈ args, '\'' ∉ b.text := fun b hb => hq b (List.mem_cons_of_mem a hb)
    have ha := hq a List.mem_cons_self
    have hend : s.endWord.mode = .unquoted := by simpa using hs
    cases a with
    | bare u =>
      have hblank : step s ' ' = some s.endWord := by
        rw [step, hs]
        rfl
      rw [Run.exec_cons, hblank, Option.bind_some] at hm
      obtain ⟨hmode, htext, hall, hhash⟩ := exec_bare hend ha hm (hl₁.cons hblank hm).2
      obtain ⟨hrtext, hrall⟩ := ih hmode htail hrest hl₂
      refine ⟨?_, ?_⟩
      · rw [hrtext, htext, Lexer.text_endWord, List.append_assoc]
        rfl
      · intro v hv
        rcases List.mem_cons.1 hv with heq | hv
        · cases heq
          exact ⟨hall, hhash (Lexer.word_endWord s)⟩
        · exact hrall v hv
    | quoted u =>
      obtain rfl := Option.some.inj ((exec_arg (a := .quoted u) hs ha).symm.trans hm)
      obtain ⟨hrtext, hrall⟩ := ih rfl htail hrest hl₂
      refine ⟨?_, ?_⟩
      · have htext : Lexer.text ⟨s.endWord.words, Arg.word (.quoted u), .unquoted⟩ =
            s.endWord.text ++ u := by
          rw [Lexer.text, Lexer.text, Lexer.word_endWord, Arg.textOf_word]
          simp [Arg.text]
        rw [hrtext, htext, Lexer.text_endWord, List.append_assoc]
        rfl
      · intro v hv
        rcases List.mem_cons.1 hv with heq | hv
        · cases heq
        · exact hrall v hv

theorem flatten_strip_sublist (args : List Arg) :
    (args.map Arg.strip).flatten.Sublist (args.map Arg.text).flatten := by
  induction args with
  | nil => exact List.Sublist.refl _
  | cons a args ih => exact a.strip_sublist.append ih

/-- Nothing is stripped from arguments whose text is as long as what is left of it. -/
theorem strip_eq_text {args : List Arg}
    (h : (args.map Arg.strip).flatten = (args.map Arg.text).flatten) :
    ∀ a ∈ args, a.strip = a.text := by
  induction args with
  | nil => simp
  | cons a args ih =>
    simp only [List.map_cons, List.flatten_cons] at h
    have htail := (flatten_strip_sublist args).length_le
    have hlen := congrArg List.length h
    rw [List.length_append, List.length_append] at hlen
    have hle := a.strip_sublist.length_le
    have ha : a.strip = a.text := a.strip_sublist.eq_of_length (by omega)
    rw [ha] at h
    exact List.forall_mem_cons.2 ⟨ha, ih (List.append_cancel_left h)⟩

/-- The words at the end of a line hold the text of the line, and no backslash is left over. -/
theorem text_of_finish {t : Lexer} {ws : List Word} (h : t.finish = some ws) :
    t.text = ws.flatMap textOf ∧ t.kept = t.text := by
  rw [Lexer.finish] at h
  split_ifs at h with hmode
  obtain rfl := Option.some.inj h
  have hne : t.mode ≠ .doubleEscaped := by
    rcases hmode with hm | hm <;> rw [hm] <;> decide
  refine ⟨?_, kept_of_unquoted hne⟩
  rw [← Lexer.text_endWord, Lexer.text, Lexer.word_endWord]
  simp

/-- A line from which the texts of its arguments come back loses nothing. -/
theorem lossless_of_text {t : Lexer} {args : List Arg}
    (h : t.kept = (args.map Arg.text).flatten) : Lossless .start (spaced args) t := by
  intro c hc
  rw [h, count_spaced hc]
  exact (Nat.zero_add _).symm

/-- It keeps none of its single quotes, so there is none in the arguments. -/
theorem quote_notMem_of_text {t : Lexer} {args : List Arg}
    (ht : Run.exec step .start (spaced args) = some t) (hl : Lossless .start (spaced args) t)
    (h : t.text = (args.map Arg.text).flatten) : ∀ a ∈ args, '\'' ∉ a.text := by
  intro a ha hmem
  have hcount := (exec_lossless (Or.inl rfl) ht hl).2
  rw [h] at hcount
  have hnone : '\'' ∉ (args.map Arg.text).flatten := List.count_eq_zero.1 hcount
  exact hnone (List.mem_flatten.2 ⟨a.text, List.mem_map_of_mem ha, hmem⟩)

theorem lexes_of_text {t : Lexer} {args : List Arg}
    (ht : Run.exec step .start (spaced args) = some t) (hl : Lossless .start (spaced args) t)
    (h : t.text = (args.map Arg.text).flatten) : ∀ a ∈ args, a.Lexes := by
  have hq := quote_notMem_of_text ht hl h
  obtain ⟨hstrip, hall⟩ := exec_spaced_lossless rfl hq ht hl
  have hsame : (args.map Arg.strip).flatten = (args.map Arg.text).flatten := by
    rw [← h, hstrip]
    rfl
  intro a ha
  cases a with
  | bare u =>
    refine ⟨fun c hc => ((hall u ha).1 c hc).resolve_left ?_, (hall u ha).2⟩
    have hu : u.filter (· ∉ blanks) = u := strip_eq_text hsame _ ha
    rw [← hu] at hc
    exact of_decide_eq_true (List.mem_filter.1 hc).2
  | quoted u => exact hq _ ha

/-- **Arguments whose texts come back are lexed as their words**, and none is empty. -/
theorem lexes_of_words {args : List Arg} {ws : List Word} (h : words (spaced args) = some ws)
    (htext : ws.map textOf = args.map Arg.text) :
    ws = args.map Arg.word ∧ ∀ a ∈ args, a.Lexes ∧ a.word ≠ [] := by
  obtain ⟨t, ht, hfin⟩ := Option.bind_eq_some_iff.1 h
  obtain ⟨hlast, hkept⟩ := text_of_finish hfin
  rw [List.flatMap_def, htext] at hlast
  have hlex := lexes_of_text ht (lossless_of_text (hkept.trans hlast)) hlast
  obtain ⟨t', ht', hmode, hwords⟩ := exec_spaced (s := .start) rfl hlex
  obtain rfl := Option.some.inj (ht.symm.trans ht')
  rw [Lexer.finish, if_pos (Or.inl hmode), hwords] at hfin
  obtain rfl := Option.some.inj hfin
  -- as many words as arguments, so that none was dropped
  have hlen := congrArg List.length htext
  have hfull : ((args.map Arg.word).filter (· ≠ [])).length = (args.map Arg.word).length := by
    simpa [Lexer.endWord, Lexer.start] using hlen
  have hne : ∀ w ∈ args.map Arg.word, w ≠ [] := by
    intro w hw
    simpa using List.length_filter_eq_length_iff.1 hfull w hw
  refine ⟨?_, fun a ha => ⟨hlex a ha, hne _ (List.mem_map_of_mem ha)⟩⟩
  rw [List.filter_eq_self.2 fun w hw => by simpa using hne w hw]
  rfl

/-! ### Words that are not expanded -/

/-- The text has a bracket expression in it. -/
def HasBrackets (u : List Char) : Prop :=
  ∃ v m w, u = v ++ '[' :: m ++ ']' :: w ∧ '/' ∉ m ∧ m ≠ [] ∧ m ≠ ['!']

theorem closes_plain (u : List Char) :
    closes (u.map .plain) = true ↔ ∃ m w, u = m ++ ']' :: w ∧ '/' ∉ m := by
  induction u with
  | nil => simp [closes]
  | cons c u ih =>
    simp only [List.map_cons, closes, Bool.or_eq_true, Bool.and_eq_true, decide_eq_true_eq, ih,
      Piece.plain.injEq, Piece.text, ne_eq, List.cons.injEq, and_true]
    constructor
    · rintro (rfl | ⟨hc, m, w, rfl, hm⟩)
      · exact ⟨[], u, rfl, List.not_mem_nil⟩
      · exact ⟨c :: m, w, rfl, by simp [Ne.symm hc, hm]⟩
    · rintro ⟨m, w, h, hm⟩
      cases m with
      | nil => exact Or.inl (List.cons.inj h).1
      | cons d m =>
        obtain ⟨rfl, rfl⟩ := List.cons.inj h
        simp only [List.mem_cons, not_or] at hm
        exact Or.inr ⟨Ne.symm hm.1, m, w, rfl, hm.2⟩

/-- The first member is skipped. -/
theorem closes_tail_plain (u : List Char) :
    (decide ((u.map Piece.plain).head?.map Piece.text ≠ some ['/']) &&
      closes (u.map Piece.plain).tail) = true ↔ ∃ m w, u = m ++ ']' :: w ∧ '/' ∉ m ∧ m ≠ [] := by
  cases u with
  | nil => simp [closes]
  | cons c u =>
    simp only [List.map_cons, List.head?_cons, Option.map_some, Piece.text, ne_eq, Option.some.injEq,
      List.cons.injEq, and_true, List.tail_cons, Bool.and_eq_true, decide_eq_true_eq, closes_plain]
    constructor
    · rintro ⟨hc, m, w, rfl, hm⟩
      exact ⟨c :: m, w, rfl, by simp [Ne.symm hc, hm], List.cons_ne_nil c m⟩
    · rintro ⟨m, w, h, hm, hne⟩
      cases m with
      | nil => exact absurd rfl hne
      | cons d m =>
        obtain ⟨rfl, rfl⟩ := List.cons.inj h
        simp only [List.mem_cons, not_or] at hm
        exact ⟨Ne.symm hm.1, m, w, rfl, hm.2⟩

theorem brackets_plain (u : List Char) : brackets (u.map .plain) = true ↔
    ∃ m w, u = m ++ ']' :: w ∧ '/' ∉ m ∧ m ≠ [] ∧ m ≠ ['!'] := by
  rw [brackets]
  by_cases hbang : (u.map Piece.plain).head? = some (.plain '!')
  · obtain ⟨v, rfl⟩ : ∃ v, u = '!' :: v := by
      cases u with
      | nil => cases hbang
      | cons c v =>
        cases hbang
        exact ⟨v, rfl⟩
    rw [if_pos hbang, List.map_cons, List.tail_cons, closes_tail_plain]
    constructor
    · rintro ⟨m, w, rfl, hm, hne⟩
      exact ⟨'!' :: m, w, rfl, by simp [hm], by simp, by simpa using hne⟩
    · rintro ⟨m, w, h, hm, hne, hone⟩
      cases m with
      | nil => exact absurd rfl hne
      | cons d m =>
        obtain ⟨rfl, rfl⟩ := List.cons.inj h
        exact ⟨m, w, rfl, fun hmem => hm (List.mem_cons_of_mem _ hmem), by simpa using hone⟩
  · rw [if_neg hbang, closes_tail_plain]
    constructor
    · rintro ⟨m, w, rfl, hm, hne⟩
      exact ⟨m, w, rfl, hm, hne, by rintro rfl; exact hbang rfl⟩
    · rintro ⟨m, w, rfl, hm, hne, -⟩
      exact ⟨m, w, rfl, hm, hne⟩

theorem hasBracket_plain (u : List Char) :
    hasBracket (u.map .plain) = true ↔ HasBrackets u := by
  induction u with
  | nil => simp [hasBracket, HasBrackets]
  | cons c u ih =>
    simp only [List.map_cons, hasBracket, Bool.or_eq_true, Bool.and_eq_true, decide_eq_true_eq, ih,
      Piece.plain.injEq, brackets_plain]
    constructor
    · rintro (⟨rfl, m, w, rfl, h⟩ | ⟨v, m, w, rfl, h⟩)
      · exact ⟨[], m, w, rfl, h⟩
      · exact ⟨c :: v, m, w, rfl, h⟩
    · rintro ⟨v, m, w, heq, h⟩
      cases v with
      | nil =>
        obtain ⟨rfl, rfl⟩ := List.cons.inj heq
        exact Or.inl ⟨rfl, m, w, rfl, h⟩
      | cons d v =>
        obtain ⟨rfl, rfl⟩ := List.cons.inj heq
        exact Or.inr ⟨v, m, w, rfl, h⟩

theorem hasBracket_quoted (u : List Char) : hasBracket (u.map .quoted) = false := by
  induction u with
  | nil => rfl
  | cons c u ih =>
    rw [List.map_cons, hasBracket, ih]
    rfl

theorem expands_quoted (u : List Char) : expands (Arg.word (.quoted u)) = false := by
  have hmarks : (Arg.word (.quoted u)).filter (· ≠ .mark) = u.map .quoted := by
    simp [Arg.word, List.filter_map, Function.comp_def]
  rw [expands, globs, hmarks, hasBracket_quoted]
  simp [Arg.word, hasTilde]

theorem expands_bare (u : List Char) : expands (Arg.word (.bare u)) = false ↔
    u.head? ≠ some '~' ∧ '*' ∉ u ∧ '?' ∉ u ∧ ¬ HasBrackets u := by
  have hmarks : (u.map Piece.plain).filter (· ≠ .mark) = u.map .plain := by
    simp [List.filter_map, Function.comp_def]
  have hall : ∀ p ∈ (u.map Piece.plain).takeWhile (· ≠ .plain '/'), p.isPlain = true := by
    intro p hp
    obtain ⟨c, -, rfl⟩ := List.mem_map.1 ((List.takeWhile_sublist _).subset hp)
    rfl
  have htilde : hasTilde (u.map .plain) = true ↔ u.head? = some '~' := by
    rw [hasTilde, List.all_eq_true.2 hall, Bool.and_true, decide_eq_true_eq]
    cases u <;> simp
  have hany : ((u.map Piece.plain).any fun p => decide (p = .plain '*' ∨ p = .plain '?')) = true ↔
      '*' ∈ u ∨ '?' ∈ u := by
    rw [List.any_map, List.any_eq_true]
    constructor
    · rintro ⟨c, hc, heq⟩
      rcases of_decide_eq_true heq with heq | heq <;> cases heq
      · exact Or.inl hc
      · exact Or.inr hc
    · rintro (hmem | hmem)
      · exact ⟨'*', hmem, rfl⟩
      · exact ⟨'?', hmem, rfl⟩
  rw [expands, globs, Arg.word, hmarks, ← Bool.not_eq_true, Bool.or_eq_true, Bool.or_eq_true,
    htilde, hany, hasBracket_plain]
  tauto

/-- A text that the shell takes for a word as it stands. -/
structure PlainWord (u : List Char) : Prop where
  ne_nil : u ≠ []
  ordinary : ∀ c ∈ u, Ordinary c
  /-- It is no comment. -/
  hash : u.head? ≠ some '#'
  tilde : u.head? ≠ some '~'
  star : '*' ∉ u
  mark : '?' ∉ u
  brackets : ¬ HasBrackets u

/-- The argument is put into the line in a way that suits it. -/
def Arg.Safe : Arg → Prop
  | bare u => PlainWord u
  | quoted u => '\'' ∉ u

theorem Arg.safe_iff (a : Arg) :
    a.Safe ↔ (a.Lexes ∧ a.word ≠ []) ∧ expands a.word = false := by
  cases a with
  | bare u =>
    rw [expands_bare]
    constructor
    · intro h
      exact ⟨⟨⟨h.ordinary, h.hash⟩, by simpa [Arg.word] using h.ne_nil⟩, h.tilde, h.star, h.mark,
        h.brackets⟩
    · rintro ⟨⟨⟨hord, hhash⟩, hne⟩, htilde, hstar, hmark, hbr⟩
      exact ⟨by simpa [Arg.word] using hne, hord, hhash, htilde, hstar, hmark, hbr⟩
  | quoted u =>
    rw [expands_quoted]
    exact ⟨fun h => ⟨⟨h, List.cons_ne_nil _ _⟩, rfl⟩, fun h => h.1.1⟩

instance (a : Arg) : Decidable a.Safe := decidable_of_iff _ a.safe_iff.symm

/-- **When arguments are read back**: the shell finds them in the line that joins them,
on all machines, exactly if those put there as they are are plain words and those in
quotes hold no quote. -/
theorem argv_commandLine_iff {u : List Char} {args : List Arg}
    (hargs : args.head? = some (.bare ('/' :: u))) :
    (∀ expansion, argv expansion (commandLine args) = some (args.map Arg.text)) ↔
      ∀ a ∈ args, a.Safe := by
  have hne : args ≠ [] := by
    rintro rfl
    cases hargs
  rw [argv_all_iff, words_commandLine hne]
  constructor
  · rintro ⟨ws, hws, -, hexp, htext⟩
    obtain ⟨rfl, hlex⟩ := lexes_of_words hws htext
    exact fun a ha => a.safe_iff.2 ⟨hlex a ha, hexp _ (List.mem_map_of_mem ha)⟩
  · intro h
    obtain ⟨t, ht, hmode, hwords⟩ := exec_spaced (s := .start) rfl fun a ha =>
      (a.safe_iff.1 (h a ha)).1.1
    have hall : (args.map Arg.word).filter (· ≠ []) = args.map Arg.word := by
      refine List.filter_eq_self.2 fun w hw => ?_
      obtain ⟨a, ha, rfl⟩ := List.mem_map.1 hw
      simpa using (a.safe_iff.1 (h a ha)).1.2
    have hread : words (spaced args) = some (args.map Arg.word) := by
      rw [words, ht, Option.bind_some, Lexer.finish, if_pos (Or.inl hmode), hwords, hall]
      rfl
    refine ⟨_, hread, ?_, fun w hw => ?_, ?_⟩
    · rw [List.head?_map, hargs]
      rfl
    · obtain ⟨a, ha, rfl⟩ := List.mem_map.1 hw
      exact (a.safe_iff.1 (h a ha)).2
    · rw [List.map_map]
      simp [Function.comp_def]

end Shell
