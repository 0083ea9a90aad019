import Fsync.Zmq.Pipe

/-!
# A pipe whose operations are single steps

`InPipe`, the pipe of `xrep_t`, does in one step what the threads at a pipe do in several:
a message arrives, the delimiter is put behind it, the reader reads, and is woken.

* `Sim`: how the two look at the same time.  Between the compare-and-swap of a flush and
  the end of it the message has arrived;
* `pipe_refines`: each run of the two threads, in which the owner of the reader does not
  close it, is a run of an `InPipe` that returns the same parts.
-/

namespace Fsync.Zmq

open Streams

/-! ## Operations of an `InPipe` -/

/-- The steps of a pipe whose messages arrive whole. -/
inductive InPipe.Action where
  | arrive (msg : List Msg)
  | terminate
  | read
  | activated

/-- A pipe, and what its reader returned. -/
abbrev InPipe.Line := InPipe × List Msg

/-- One step; what is read is kept. -/
def InPipe.step (s : InPipe.Line) : InPipe.Action → Option InPipe.Line
  | .arrive msg =>
    if whole Msg.more msg && s.1.open? then some (s.1.arrive msg, s.2) else none
  | .terminate => if s.1.open? then some (s.1.terminate, s.2) else none
  | .read => some (s.1.read.2, s.2 ++ s.1.read.1.toList)
  | .activated =>
    if s.1.reader = .waking then some ({ s.1 with active := true, reader := .awake }, s.2)
    else none

/-- A reader that finds nothing goes to sleep, or takes the delimiter. -/
theorem InPipe.read_nil {p : InPipe} (hawake : p.reader = .awake) (hparts : p.parts = []) :
    p.read = (none, { p with
      reader := if p.delimiter then .terminating else .asleep
      delimiter := false }) := by
  rw [read, if_pos hawake]
  split
  · rename_i hcons
    rw [hparts] at hcons
    cases hcons
  · rfl

/-- Some messages arrive one after another. -/
theorem InPipe.exec_arrive {p : InPipe} {out : List Msg} (hopen : p.open? = true)
    {ms : List (List Msg)} (hms : ∀ m ∈ ms, whole Msg.more m = true) :
    ∃ q, Run.exec InPipe.step (p, out) (ms.map .arrive) = some (q, out) ∧ q.open? = true ∧
      q.parts = p.parts ++ ms.flatten ∧ q.delimiter = p.delimiter ∧
      q.reader = if ms ≠ [] ∧ p.reader = .asleep then .waking else p.reader := by
  induction ms generalizing p with
  | nil => exact ⟨p, rfl, hopen, by simp, rfl, by simp⟩
  | cons m ms ih =>
    have hm := hms m List.mem_cons_self
    have hstep : InPipe.step (p, out) (.arrive m) = some (p.arrive m, out) := by
      rw [step, hm, hopen]
      rfl
    have hopen' : (p.arrive m).open? = true := open?_wake hopen
    obtain ⟨q, hq, hqopen, hparts, hdelim, hreader⟩ :=
      ih hopen' fun m' hm' => hms m' (List.mem_cons_of_mem m hm')
    refine ⟨q, ?_, hqopen, ?_, hdelim, ?_⟩
    · rw [List.map_cons, Run.exec_cons, hstep, Option.bind_some, hq]
    · rw [hparts, List.flatten_cons, ← List.append_assoc]
      rfl
    · rw [hreader]
      show (if ms ≠ [] ∧ (if p.reader = .asleep then Reader.waking else p.reader) = .asleep then
        Reader.waking else if p.reader = .asleep then .waking else p.reader) = _
      cases p.reader <;> simp

namespace Pipe

/-! ## What can be read -/

/-- Flushed, or being flushed, and not read yet. -/
def unread (s : Pipe) : List Item := (s.queue.items.take s.shown).drop s.queue.front

/-- What the reader is doing. -/
def reader (s : Pipe) : Reader :=
  if s.readerTerminating then .terminating
  else if s.readerActive then .awake
  else if s.queue.c = none ∧ s.flushing = .idle then .asleep
  else .waking

/-- The two pipes look the same. -/
structure Shows (s : Pipe) (t : InPipe.Line) : Prop where
  reader : t.1.reader = s.reader
  parts : t.1.parts = partsOf s.unread
  delimiter : t.1.delimiter = s.unread.any Item.isDelimiter
  taken : t.2 = s.taken

variable {s s' : Pipe} {t : InPipe.Line} {wakes : ℕ}

theorem Shows.same (h : s.Shows t) (hreader : s'.reader = s.reader) (hunread : s'.unread = s.unread)
    (htaken : s'.taken = s.taken) : s'.Shows t :=
  ⟨h.reader.trans hreader.symm, by rw [hunread, h.parts], by rw [hunread, h.delimiter],
    h.taken.trans htaken.symm⟩

/-- The delimiter was taken, and nothing happens any more. -/
structure Ended (s : Pipe) : Prop where
  reader : s.readerActive = false
  idle : s.flushing = .idle
  c : s.queue.c = some s.queue.w
  front : s.queue.front = s.queue.items.length
  writer : s.writerTerminating = true
  toReader : .activateReader ∉ s.toReader

/-- The threads at a pipe and the pipe of single steps. -/
structure Sim (s : Pipe) (t : InPipe.Line) : Prop where
  inv : ∃ k, s.Inv k
  shows : s.Shows t
  ended : s.readerTerminating = true → s.Ended
  /-- The delimiter was flushed with what is in front of it. -/
  closed : s.writerTerminating = true → s.shown = s.queue.items.length

theorem sim_start (identity : Bytes) (active : Bool) :
    start.Sim (⟨identity, active, .awake, [], false⟩, []) :=
  ⟨⟨0, inv_start⟩, ⟨rfl, rfl, rfl, rfl⟩, fun h => (by cases h), fun h => (by cases h)⟩

/-- A step that does not show. -/
theorem Sim.hidden (hinv : ∃ k, s'.Inv k) (hshows : s'.Shows t)
    (hended : s'.readerTerminating = true → s'.Ended)
    (hclosed : s'.writerTerminating = true → s'.shown = s'.queue.items.length) :
    ∃ bs t', Run.exec InPipe.step t bs = some t' ∧ s'.Sim t' :=
  ⟨[], t, rfl, hinv, hshows, hended, hclosed⟩

theorem Sim.refl (h : s.Sim t) : ∃ bs t', Run.exec InPipe.step t bs = some t' ∧ s.Sim t' :=
  ⟨[], t, rfl, h⟩

/-! ## The writer -/

/-- What can be read is left by what happens behind `w`. -/
theorem unread_of_take {queue : Ypipe Item} (active terminating : Bool)
    (hidle : s.flushing = .idle) (hw : queue.w = s.queue.w) (hfront : queue.front = s.queue.front)
    (htake : queue.items.take s.queue.w = s.queue.items.take s.queue.w) :
    unread { s with writerTerminating := terminating, writerActive := active, queue := queue } =
      s.unread := by
  rw [unread, unread, shown_of_idle hidle, shown_of_idle (by exact hidle)]
  show (queue.items.take queue.w).drop queue.front = _
  rw [hw, hfront, htake]

theorem write_items (queue : Ypipe Item) (item : Item) (incomplete : Bool) :
    (queue.write item incomplete).items = queue.items ++ [item] ∧
      (queue.write item incomplete).front = queue.front := by
  rw [Ypipe.write]
  split <;> exact ⟨rfl, rfl⟩

theorem Contents.w_le (h : s.Contents) : s.queue.w ≤ s.queue.items.length :=
  h.ok.flushed.trans h.ok.written

theorem Sim.write (h : s.Sim t) (hfree : s.WriterFree) (m : Msg) :
    ∃ bs t', Run.exec InPipe.step t bs = some t' ∧ (s.write m).Sim t' := by
  obtain ⟨k, hinv⟩ := h.inv
  have hwrite := hinv.write m
  rw [Pipe.write] at hwrite ⊢
  split
  · rename_i hact
    rw [if_pos hact] at hwrite
    have hopen : s.writerTerminating = false := by
      have hactive := hinv.contents.active
      rw [hact] at hactive
      simpa using hactive.symm
    have htake : (s.queue.write (.part m) m.more).items.take s.queue.w =
        s.queue.items.take s.queue.w := by
      rw [(write_items _ _ _).1, List.take_append_of_le_length hinv.contents.w_le]
    have hunread := unread_of_take s.writerActive s.writerTerminating hfree.2 (write_w _ _ _).1
      (write_items _ _ _).2 htake
    refine Sim.hidden ⟨k, hwrite⟩ (h.shows.same ?_ hunread rfl) (fun ht => ?_) fun hc => ?_
    · show Pipe.reader _ = _
      rw [reader, reader]
      simp only [(write_w s.queue (.part m) m.more).2]
    · exact absurd (hopen.symm.trans (h.ended ht).writer) Bool.false_ne_true
    · exact absurd (hopen.symm.trans hc) Bool.false_ne_true
  · exact h.refl

theorem Sim.rollback (h : s.Sim t) (hfree : s.WriterFree) {queue : Ypipe Item}
    (hr : Pipe.rollback s.queue.back s.queue = some queue) :
    ∃ bs t', Run.exec InPipe.step t bs = some t' ∧ ({ s with queue := queue } : Pipe).Sim t' := by
  obtain ⟨k, hinv⟩ := h.inv
  obtain ⟨items, hroll, hpre, hc, -⟩ := hinv.contents.rollback s.queue.back
  have hroll' := hinv.rollback hr
  obtain rfl := Option.some.inj (hr.symm.trans hroll)
  have hle : s.queue.w ≤ items.length := hc.w_le
  have htake : items.take s.queue.w = s.queue.items.take s.queue.w := by
    obtain ⟨rest, hrest⟩ := hpre
    rw [← hrest, List.take_append_of_le_length hle]
  have hunread : unread { s with queue := { s.queue with items := items } } = s.unread :=
    unread_of_take s.writerActive s.writerTerminating hfree.2 rfl rfl htake
  have hsame : s.writerTerminating = true → s.queue.w = s.queue.items.length ∧
      items.length = s.queue.items.length := by
    intro hterm
    have hshown := h.closed hterm
    rw [shown_of_idle hfree.2] at hshown
    have hlen := hpre.length_le
    exact ⟨hshown, by omega⟩
  refine Sim.hidden ⟨k, hroll'⟩ (h.shows.same rfl hunread rfl) (fun ht => ?_) fun hterm => ?_
  · have he := h.ended ht
    refine ⟨he.reader, he.idle, he.c, ?_, he.writer, he.toReader⟩
    show s.queue.front = items.length
    rw [(hsame he.writer).2, he.front]
  · rw [shown_of_idle (by exact hfree.2)]
    show s.queue.w = items.length
    rw [(hsame hterm).1, (hsame hterm).2]

theorem partsOf_map (ms : List Msg) : partsOf (ms.map .part) = ms := by
  induction ms with
  | nil => rfl
  | cons m ms ih =>
    show m :: partsOf (ms.map .part) = m :: ms
    rw [ih]

theorem partsOf_append (xs ys : List Item) : partsOf (xs ++ ys) = partsOf xs ++ partsOf ys :=
  List.filterMap_append

/-- More can be read: messages, and perhaps the delimiter.  A reader that is asleep is being
woken. -/
theorem Shows.publish (h : s.Shows t) (hopen : t.1.open? = true) {ms : List Msg} (last : Bool)
    (hms : Terminated Msg.more ms) (hnew : ms ≠ [] ∨ last = true)
    (hunread : s'.unread = s.unread ++ (ms.map .part ++ if last then [.delimiter] else []))
    (hreader : s'.reader = if s.reader = .asleep then .waking else s.reader)
    (htaken : s'.taken = s.taken) :
    ∃ bs t', Run.exec InPipe.step t bs = some t' ∧ s'.Shows t' := by
  obtain ⟨p, out⟩ := t
  obtain ⟨wholes, hwholes, rfl⟩ := hms.exists_wholes
  obtain ⟨q, hq, hqopen, hqparts, hqdelim, hqreader⟩ := InPipe.exec_arrive hopen hwholes
  rw [InPipe.open?, Bool.and_eq_true, Bool.not_eq_true'] at hopen
  have hno : s.unread.any Item.isDelimiter = false := h.delimiter.symm.trans hopen.1
  have hparts : p.parts ++ wholes.flatten = partsOf s'.unread := by
    rw [hunread, partsOf_append, partsOf_append, partsOf_map, ← h.parts]
    cases last <;> simp [partsOf, Item.part?]
  have hdelim : last = s'.unread.any Item.isDelimiter := by
    rw [hunread, List.any_append, hno, List.any_append]
    cases last <;> simp [Item.isDelimiter]
  have hpr : p.reader = s.reader := h.reader
  rw [← hpr] at hreader
  cases last with
  | false =>
    have hsome : wholes ≠ [] := by
      rintro rfl
      exact (hnew.resolve_right Bool.false_ne_true) rfl
    refine ⟨_, (q, out), hq, ?_, hqparts.trans hparts, ?_, h.taken.trans htaken.symm⟩
    · rw [hreader]
      simpa [hsome] using hqreader
    · rw [← hdelim]
      exact hqdelim.trans hopen.1
  | true =>
    have hstep : InPipe.step (q, out) .terminate = some (q.terminate, out) := by
      rw [InPipe.step, if_pos hqopen]
    refine ⟨wholes.map .arrive ++ [.terminate], (q.terminate, out), ?_, ?_, hqparts.trans hparts,
      hdelim, h.taken.trans htaken.symm⟩
    · rw [Run.exec_append, hq, Option.bind_some, Run.exec_cons, hstep]
      rfl
    · rw [hreader]
      show (if q.reader = .asleep then Reader.waking else q.reader) = _
      rw [hqreader]
      cases p.reader <;> simp

/-- What a flush adds to what can be read. -/
theorem unread_flush (h : s.Inv wakes) (hidle : s.flushing = .idle) :
    s.flush.unread = s.unread ++ (s.queue.items.take s.queue.f).drop s.queue.w ∧
      s.flush.shown = s.queue.f ∧ s.flush.taken = s.taken ∧
      s.flush.queue.items = s.queue.items := by
  have hok := h.contents.ok
  have htake : (s.queue.items.take s.queue.f).drop s.queue.front = s.unread ++
      (s.queue.items.take s.queue.f).drop s.queue.w := by
    have hlen : s.queue.front ≤ (s.queue.items.take s.queue.w).length := by
      rw [List.length_take]
      exact Nat.le_min.2 ⟨hok.front, hok.front.trans h.contents.w_le⟩
    have hsplit : s.queue.items.take s.queue.f = s.queue.items.take s.queue.w ++
        (s.queue.items.take s.queue.f).drop s.queue.w := by
      conv_lhs => rw [← List.take_append_drop s.queue.w (s.queue.items.take s.queue.f)]
      rw [List.take_take, Nat.min_eq_left hok.flushed]
    conv_lhs => rw [hsplit]
    rw [List.drop_append_of_le_length hlen, unread, shown_of_idle hidle]
  rcases h.contents.flush_cases with ⟨-, heq⟩ | ⟨-, hwf, heq⟩ | ⟨-, -, heq⟩ <;> rw [heq]
  · have hshown : shown { s with queue := { s.queue with c := some s.queue.f, w := s.queue.f } } =
        s.queue.f := shown_of_idle hidle
    refine ⟨?_, hshown, rfl, rfl⟩
    rw [unread, hshown]
    exact htake
  · have hshown : s.shown = s.queue.f := (shown_of_idle hidle).trans hwf
    refine ⟨?_, hshown, rfl, rfl⟩
    rw [← htake, unread, hshown]
  · have hshown : shown { s with flushing := .found } = s.queue.f := if_pos rfl
    refine ⟨?_, hshown, rfl, rfl⟩
    rw [unread, hshown]
    exact htake

/-- A flush of something wakes a reader that is asleep. -/
theorem reader_flush (h : s.Inv wakes) (hidle : s.flushing = .idle)
    (hne : s.queue.w ≠ s.queue.f) :
    s.flush.reader = if s.reader = .asleep then .waking else s.reader := by
  rcases h.contents.flush_cases with ⟨hc, heq⟩ | ⟨-, hwf, heq⟩ | ⟨hc, -, heq⟩ <;> rw [heq]
  · rw [reader, reader]
    cases s.readerTerminating <;> cases s.readerActive <;> simp [hc, hidle]
  · exact absurd hwf hne
  · rw [reader, reader]
    have hact : s.readerActive = false := by
      rw [← Bool.not_eq_true]
      intro ha
      exact absurd (hc.symm.trans (h.phase.c_of_active ha)) (by simp)
    cases s.readerTerminating <;> simp [hc, hidle, hact]

theorem Sim.open? (h : s.Sim t) (hopen : s.writerTerminating = false) : t.1.open? = true := by
  obtain ⟨k, hinv⟩ := h.inv
  have hparts : s.unread.any Item.isDelimiter = false := by
    rw [← Bool.not_eq_true, List.any_eq_true]
    rintro ⟨item, hitem, hdelim⟩
    obtain ⟨ms, hms⟩ := hinv.contents.items
    rw [hopen, if_neg Bool.false_ne_true, List.append_nil] at hms
    have hmem : item ∈ s.queue.items := List.mem_of_mem_take (List.mem_of_mem_drop hitem)
    rw [hms] at hmem
    obtain ⟨m, -, rfl⟩ := List.mem_map.1 hmem
    cases hdelim
  have hreader : s.reader ≠ .terminating := by
    have hno : s.readerTerminating = false := by
      rw [← Bool.not_eq_true]
      intro ht
      exact absurd (hopen.symm.trans (h.ended ht).writer) Bool.false_ne_true
    rw [Pipe.reader, hno, if_neg Bool.false_ne_true]
    split
    · simp
    · split <;> simp
  rw [InPipe.open?, h.shows.delimiter, hparts, h.shows.reader]
  simpa using hreader

theorem terminated_of_parts {ms : List Msg} (h : Terminated Item.more (ms.map .part)) :
    Terminated Msg.more ms := by
  intro m hm
  refine h (.part m) ?_
  rw [List.getLast?_map, hm]
  rfl

/-- What was completed and not flushed, as long as there is no delimiter. -/
theorem Contents.completed (h : s.Contents) (hopen : s.writerTerminating = false) :
    ∃ ms : List Msg, (s.queue.items.take s.queue.f).drop s.queue.w = ms.map .part ∧
      Terminated Msg.more ms := by
  obtain ⟨ms, hms⟩ := h.items
  rw [hopen, if_neg Bool.false_ne_true, List.append_nil] at hms
  have hparts : (s.queue.items.take s.queue.f).drop s.queue.w =
      ((ms.take s.queue.f).drop s.queue.w).map .part := by
    rw [hms, List.map_drop, List.map_take]
  refine ⟨_, hparts, terminated_of_parts ?_⟩
  rw [← hparts]
  have hcomplete := h.complete
  rw [← List.take_append_drop s.queue.w (s.queue.items.take s.queue.f)] at hcomplete
  exact hcomplete.suffix

theorem Contents.flush_same (h : s.Contents) (hwf : s.queue.w = s.queue.f) : s.flush = s := by
  rcases h.flush_cases with ⟨hc, heq⟩ | ⟨-, -, heq⟩ | ⟨-, hne, -⟩
  · rw [heq, Ypipe.flushed_eq hc hwf]
  · exact heq
  · exact absurd hwf hne

theorem flush_flags (h : s.Contents) : s.flush.readerTerminating = s.readerTerminating ∧
    s.flush.writerTerminating = s.writerTerminating := by
  rcases h.flush_cases with ⟨-, heq⟩ | ⟨-, -, heq⟩ | ⟨-, -, heq⟩ <;> rw [heq] <;> exact ⟨rfl, rfl⟩

theorem Sim.flush (h : s.Sim t) (hfree : s.WriterFree) :
    ∃ bs t', Run.exec InPipe.step t bs = some t' ∧ s.flush.Sim t' := by
  obtain ⟨k, hinv⟩ := h.inv
  have hc := hinv.contents
  by_cases hwf : s.queue.w = s.queue.f
  · rw [hc.flush_same hwf]
    exact h.refl
  · obtain ⟨hunread, hshown, htaken, hitems⟩ := unread_flush hinv hfree.2
    have hopen : s.writerTerminating = false := by
      rw [← Bool.not_eq_true]
      intro hterm
      have hall := h.closed hterm
      rw [shown_of_idle hfree.2] at hall
      exact hwf (Nat.le_antisymm hc.ok.flushed (hall ▸ hc.ok.written))
    obtain ⟨ms, hms, hterm⟩ := hc.completed hopen
    have hsome : ms ≠ [] := by
      rintro rfl
      have hlen := congrArg List.length hms
      have hlt := hc.ok.flushed
      have hle : s.queue.f ≤ s.queue.items.length := hc.ok.written
      rw [List.length_drop, List.length_take, List.map_nil, List.length_nil] at hlen
      omega
    rw [hms] at hunread
    obtain ⟨bs, t', hrun, hshows⟩ := h.shows.publish (h.open? hopen) false hterm
      (Or.inl hsome) (by rw [hunread]; simp) (reader_flush hinv hfree.2 hwf) htaken
    refine ⟨bs, t', hrun, ⟨k, hinv.flush hfree⟩, hshows, fun ht => ?_, fun ht => ?_⟩
    · rw [(flush_flags hc).1] at ht
      exact absurd (hopen.symm.trans (h.ended ht).writer) Bool.false_ne_true
    · rw [(flush_flags hc).2] at ht
      exact absurd (hopen.symm.trans ht) Bool.false_ne_true

/-- The delimiter is put behind what was completed. -/
theorem Sim.pushDelimiter (h : s.Sim t) (hfree : s.WriterFree)
    (hopen : s.writerTerminating = false) (hall : s.queue.f = s.queue.items.length) :
    ∃ bs t', Run.exec InPipe.step t bs = some t' ∧ s.pushDelimiter.flush.Sim t' := by
  obtain ⟨k, hinv⟩ := h.inv
  have hpush := hinv.pushDelimiter hopen
  have hc := hinv.contents
  obtain ⟨hunread, hshown, htaken, hitems⟩ := unread_flush hpush hfree.2
  obtain ⟨ms, hms, hterm⟩ := hc.completed hopen
  rw [hall, List.take_length] at hms
  have htake : (s.queue.write .delimiter false).items.take s.queue.w =
      s.queue.items.take s.queue.w := by
    rw [(write_items _ _ _).1, List.take_append_of_le_length hc.w_le]
  have hsame : s.pushDelimiter.unread = s.unread :=
    unread_of_take false true hfree.2 (write_w _ _ _).1 (write_items _ _ _).2 htake
  have hnew : (s.pushDelimiter.queue.items.take s.pushDelimiter.queue.f).drop
      s.pushDelimiter.queue.w = ms.map .part ++ [.delimiter] := by
    show ((s.queue.items ++ [Item.delimiter]).take (s.queue.items ++ [Item.delimiter]).length).drop
      s.queue.w = _
    rw [List.take_length, List.drop_append_of_le_length hc.w_le, hms]
  have hne : s.pushDelimiter.queue.w ≠ s.pushDelimiter.queue.f := by
    show s.queue.w ≠ (s.queue.items ++ [Item.delimiter]).length
    have hle := hc.w_le
    rw [List.length_append, List.length_singleton]
    omega
  rw [hsame, hnew] at hunread
  have hreader : s.pushDelimiter.reader = s.reader := rfl
  have hflush := reader_flush hpush hfree.2 hne
  rw [hreader] at hflush
  obtain ⟨bs, t', hrun, hshows⟩ := h.shows.publish (h.open? hopen) true hterm
    (Or.inr rfl) hunread hflush htaken
  refine ⟨bs, t', hrun, ⟨k, hpush.flush hfree⟩, hshows, fun ht => ?_, fun _ => ?_⟩
  · rw [(flush_flags hpush.contents).1] at ht
    exact absurd (hopen.symm.trans (h.ended ht).writer) Bool.false_ne_true
  · rw [hshown, hitems]
    rfl

theorem Sim.terminate (h : s.Sim t) (hfree : s.WriterFree) (hs : s.terminate = some s') :
    ∃ bs t', Run.exec InPipe.step t bs = some t' ∧ s'.Sim t' := by
  obtain ⟨k, hinv⟩ := h.inv
  rw [Pipe.terminate] at hs
  split at hs
  · obtain rfl := Option.some.inj hs
    exact h.refl
  · rename_i hno
    rw [Bool.not_eq_true] at hno
    obtain ⟨items, hroll, -, hc, hend⟩ := hinv.contents.rollback s.queue.back
    rw [hroll, Option.map_some, Option.some.injEq] at hs
    subst hs
    obtain ⟨bs, t₁, hrun, hsim⟩ := h.rollback hfree hroll
    obtain ⟨bs', t', hrun', hsim'⟩ := hsim.pushDelimiter hfree hno (hend (Nat.le_add_left _ _))
    exact ⟨bs ++ bs', t', by rw [Run.exec_append, hrun]; exact hrun', hsim'⟩

/-! ## The reader -/

/-- A reader that is awake was not terminated, and its writer is in no flush. -/
theorem Sim.awake (h : s.Sim t) (hact : s.readerActive = true) : s.readerTerminating = false ∧
    s.flushing = .idle ∧ s.queue.c = some s.queue.w ∧ t.1.reader = .awake ∧
      .activateReader ∉ s.toReader := by
  obtain ⟨k, hinv⟩ := h.inv
  have hno : s.readerTerminating = false := by
    rw [← Bool.not_eq_true]
    intro ht
    exact absurd ((h.ended ht).reader.symm.trans hact) Bool.false_ne_true
  have hto := hinv.handshake.toReader
  cases hinv.phase with
  | awake ha hi hc =>
    refine ⟨hno, hi, hc, ?_, ?_⟩
    · rw [h.shows.reader, reader, hno, hact]
      rfl
    · rw [hto, List.replicate_zero, List.nil_append]
      split <;> simp
  | asleep ha | found ha | set ha | waking ha | stopped ha =>
    exact absurd (ha.symm.trans hact) Bool.false_ne_true

/-- The reader finds nothing. -/
theorem Sim.sleep (h : s.Sim t) (hact : s.readerActive = true)
    (hempty : s.queue.front = s.queue.w) :
    ∃ bs t', Run.exec InPipe.step t bs = some t' ∧ ({ s with
      queue := { s.queue with r := s.queue.c, c := none }
      readerActive := false } : Pipe).Sim t' := by
  obtain ⟨k, hinv⟩ := h.inv
  obtain ⟨hno, hidle, -, hawake, -⟩ := h.awake hact
  have hnil : s.unread = [] := by
    rw [unread, shown_of_idle hidle, hempty, List.drop_eq_nil_iff, List.length_take]
    exact Nat.min_le_left _ _
  have hparts : t.1.parts = [] := by
    rw [h.shows.parts, hnil]
    rfl
  have hdelim : t.1.delimiter = false := by
    rw [h.shows.delimiter, hnil]
    rfl
  have hread : t.1.read = (none, { t.1 with reader := .asleep, delimiter := false }) := by
    rw [InPipe.read_nil hawake hparts, hdelim]
    rfl
  refine ⟨[.read], ({ t.1 with reader := .asleep, delimiter := false }, t.2 ++ []), ?_,
    ⟨k, hinv.sleep hact hempty⟩, ⟨?_, ?_, ?_, ?_⟩, fun ht => ?_, fun ht => ?_⟩
  · rw [Run.exec_cons, InPipe.step, hread]
    rfl
  · rw [reader]
    simp [hno, hidle]
  · exact hparts.trans (congrArg partsOf hnil).symm
  · exact (congrArg (List.any · Item.isDelimiter) hnil).symm
  · exact (List.append_nil _).trans h.shows.taken
  · exact absurd (hno.symm.trans ht) Bool.false_ne_true
  · exact h.closed ht

/-- The first of what can be read. -/
theorem unread_cons (hidle : s.flushing = .idle) (hlt : s.queue.front < s.queue.w) {item : Item}
    (hitem : s.queue.items[s.queue.front]? = some item) :
    s.unread = item :: (s.queue.items.take s.queue.w).drop (s.queue.front + 1) := by
  have htake : (s.queue.items.take s.queue.w)[s.queue.front]? = some item := by
    rw [List.getElem?_take_of_lt hlt, hitem]
  rw [unread, shown_of_idle hidle]
  obtain ⟨hlen, hget⟩ := List.getElem?_eq_some_iff.1 htake
  rw [List.drop_eq_getElem_cons hlen, hget]

/-- The reader takes the delimiter. -/
theorem Sim.delimited (h : s.Sim t) (hact : s.readerActive = true)
    (hlt : s.queue.front < s.queue.w) (hitem : s.queue.items[s.queue.front]? = some .delimiter)
    {p : ℕ} (hinv' : ∃ k, Inv ({ s with
      queue := { s.queue with r := some p, front := s.queue.front + 1 } } :
        Pipe).readerTerminate k) :
    ∃ bs t', Run.exec InPipe.step t bs = some t' ∧ ({ s with
      queue := { s.queue with r := some p, front := s.queue.front + 1 } } :
        Pipe).readerTerminate.Sim t' := by
  obtain ⟨k, hinv⟩ := h.inv
  obtain ⟨hno, hidle, hc, hawake, hto⟩ := h.awake hact
  have hlast := hinv.contents.delimiter_last hitem
  have hcons := unread_cons hidle hlt hitem
  have hrest : (s.queue.items.take s.queue.w).drop (s.queue.front + 1) = [] := by
    rw [List.drop_eq_nil_iff, List.length_take]
    omega
  rw [hrest] at hcons
  have hparts : t.1.parts = [] := by
    rw [h.shows.parts, hcons]
    rfl
  have hdelim : t.1.delimiter = true := by
    rw [h.shows.delimiter, hcons]
    rfl
  have hread : t.1.read = (none, { t.1 with reader := .terminating, delimiter := false }) := by
    rw [InPipe.read_nil hawake hparts, hdelim]
    rfl
  have hend : ({ s with queue := { s.queue with r := some p, front := s.queue.front + 1 } } :
      Pipe).readerTerminate = { s with
        queue := { s.queue with r := some p, front := s.queue.front + 1 }
        readerActive := false, readerTerminating := true, toWriter := s.toWriter + 1 } := by
    rw [readerTerminate, if_neg (by simp [hno])]
  rw [hend] at hinv' ⊢
  have hwriter : s.writerTerminating = true := by
    obtain ⟨ms, hms⟩ := hinv.contents.items
    by_contra hopen
    rw [if_neg hopen, List.append_nil] at hms
    have hmem := List.mem_of_getElem? hitem
    rw [hms] at hmem
    obtain ⟨m, -, hm⟩ := List.mem_map.1 hmem
    cases hm
  have hunread : unread { s with
      queue := { s.queue with r := some p, front := s.queue.front + 1 }
      readerActive := false, readerTerminating := true, toWriter := s.toWriter + 1 } = [] := by
    rw [unread, shown_of_idle (by exact hidle)]
    exact hrest
  refine ⟨[.read], ({ t.1 with reader := .terminating, delimiter := false }, t.2 ++ []), ?_, hinv',
    ⟨rfl, ?_, ?_, ?_⟩, fun _ => ⟨rfl, hidle, hc, hlast, hwriter, hto⟩, fun ht => h.closed ht⟩
  · rw [Run.exec_cons, InPipe.step, hread]
    rfl
  · exact hparts.trans (congrArg partsOf hunread).symm
  · exact (congrArg (List.any · Item.isDelimiter) hunread).symm
  · exact (List.append_nil _).trans h.shows.taken

theorem Sim.read (h : s.Sim t) :
    ∃ bs t', Run.exec InPipe.step t bs = some t' ∧ s.read.2.Sim t' := by
  obtain ⟨k, hinv⟩ := h.inv
  by_cases hact : s.readerActive = true
  · have hinv' := hinv.read
    rcases hinv.contents.ok.front.lt_or_eq with hlt | heq
    · obtain ⟨p, -, -, ⟨m, hitem, hread⟩ | ⟨hitem, hread⟩⟩ := hinv.read_unread hact hlt
      · obtain ⟨hno, hidle, hc, hawake, hto⟩ := h.awake hact
        have hcons := unread_cons hidle hlt hitem
        have hparts : t.1.parts =
            m :: partsOf ((s.queue.items.take s.queue.w).drop (s.queue.front + 1)) := by
          rw [h.shows.parts, hcons]
          rfl
        have hunread : s.read.2.unread =
            (s.queue.items.take s.queue.w).drop (s.queue.front + 1) := by
          rw [hread, unread, shown_of_idle (by exact hidle)]
        rw [hread] at hinv' hunread ⊢
        refine ⟨[.read], ({ t.1 with parts := partsOf ((s.queue.items.take s.queue.w).drop
          (s.queue.front + 1)) }, t.2 ++ [m]), ?_, ⟨k, hinv'⟩, ⟨h.shows.reader, ?_, ?_, ?_⟩,
          fun ht => ?_, fun ht => h.closed ht⟩
        · rw [Run.exec_cons, InPipe.step, InPipe.read, if_pos hawake, hparts]
          rfl
        · rw [hunread]
        · rw [hunread]
          show t.1.delimiter = _
          rw [h.shows.delimiter, hcons]
          rfl
        · show t.2 ++ [m] = s.taken ++ [m]
          rw [h.shows.taken]
        · exact absurd (hno.symm.trans ht) Bool.false_ne_true
      · rw [hread] at hinv' ⊢
        exact h.delimited hact hlt hitem ⟨k, hinv'⟩
    · rw [hinv.read_empty hact heq]
      exact h.sleep hact heq
  · rw [Pipe.read, if_neg hact]
    exact h.refl

theorem Sim.checkRead (h : s.Sim t) {found : Bool} (hs : s.checkRead = some (found, s')) :
    ∃ bs t', Run.exec InPipe.step t bs = some t' ∧ s'.Sim t' := by
  obtain ⟨k, hinv⟩ := h.inv
  obtain ⟨found', s'', hs', hinv'⟩ := hinv.checkRead
  obtain ⟨rfl, rfl⟩ := Prod.mk.inj (Option.some.inj (hs'.symm.trans hs))
  by_cases hact : s.readerActive = true
  · rcases hinv.contents.ok.front.lt_or_eq with hlt | heq
    · obtain ⟨p, -, -, ⟨m, hitem, hcheck⟩ | ⟨hitem, hcheck⟩⟩ := hinv.checkRead_unread hact hlt
      · obtain ⟨-, rfl⟩ := Prod.mk.inj (Option.some.inj (hcheck.symm.trans hs))
        refine Sim.hidden ⟨k, hinv'⟩ (h.shows.same rfl rfl rfl) (fun ht => ?_)
          fun ht => h.closed ht
        have he := h.ended ht
        exact ⟨he.reader, he.idle, he.c, he.front, he.writer, he.toReader⟩
      · obtain ⟨-, rfl⟩ := Prod.mk.inj (Option.some.inj (hcheck.symm.trans hs))
        exact h.delimited hact hlt hitem ⟨k, hinv'⟩
    · have hcheck := (hinv.checkRead_empty hact heq).symm.trans hs
      obtain ⟨-, rfl⟩ := Prod.mk.inj (Option.some.inj hcheck)
      exact h.sleep hact heq
  · rw [Pipe.checkRead, if_neg hact] at hs
    obtain ⟨-, rfl⟩ := Prod.mk.inj (Option.some.inj hs)
    exact h.refl

theorem Sim.command (h : s.Sim t) (hs : s.command = some s') :
    ∃ bs t', Run.exec InPipe.step t bs = some t' ∧ s'.Sim t' := by
  obtain ⟨k, hinv⟩ := h.inv
  obtain ⟨k', hinv'⟩ := hinv.command hs
  rw [Pipe.command] at hs
  split at hs
  · cases hs
  · rename_i rest hrest
    have hmem : .activateReader ∈ s.toReader := by
      rw [hrest]
      exact List.mem_cons_self
    have hno : s.readerTerminating = false := by
      rw [← Bool.not_eq_true]
      exact fun ht => (h.ended ht).toReader hmem
    have hwaking : t.1.reader = .waking := by
      have hto := hinv.handshake.toReader
      rw [h.shows.reader, reader, hno, if_neg Bool.false_ne_true]
      cases hinv.phase with
      | waking ha hi hc => simp [ha, hc]
      | awake | asleep | found | set | stopped =>
        rw [hto, List.replicate_zero, List.nil_append] at hmem
        split at hmem <;> simp at hmem
    obtain rfl := Option.some.inj hs
    refine ⟨[.activated], ({ t.1 with active := true, reader := .awake }, t.2), ?_, ⟨k', hinv'⟩,
      ⟨?_, h.shows.parts, h.shows.delimiter, h.shows.taken⟩, fun ht => ?_, fun ht => h.closed ht⟩
    · rw [Run.exec_cons, InPipe.step, if_pos hwaking]
      rfl
    · rw [reader]
      simp [hno]
    · exact absurd (hno.symm.trans ht) Bool.false_ne_true
  · rename_i rest hrest
    obtain rfl := Option.some.inj hs
    refine Sim.hidden ⟨k', hinv'⟩ (h.shows.same rfl rfl rfl) (fun ht => ?_) fun ht => h.closed ht
    have he := h.ended ht
    refine ⟨he.reader, he.idle, he.c, he.front, he.writer, fun hmem => he.toReader ?_⟩
    rw [hrest]
    exact List.mem_cons_of_mem _ hmem

/-! ## Runs -/

/-- What arrived when `NULL` was found can be read once `c` is set. -/
theorem Sim.setFlushed (h : s.Sim t) (hfound : s.flushing = .found)
    (hinv' : ∃ k, Inv { s with queue := s.queue.setFlushed, flushing := .set } k) :
    ∃ bs t', Run.exec InPipe.step t bs = some t' ∧
      Sim { s with queue := s.queue.setFlushed, flushing := .set } t' := by
  obtain ⟨k, hinv⟩ := h.inv
  have hasleep : s.readerActive = false := by
    cases hinv.phase with
    | found ha _ hc => exact ha
    | awake _ hi | asleep _ hi | set _ hi | waking _ hi | stopped _ hi =>
      exact absurd (hi.symm.trans hfound) (by simp)
  have hno : ¬ s.readerTerminating = true := fun ht =>
    absurd ((h.ended ht).idle.symm.trans hfound) (by simp)
  have hshown : s.shown = s.queue.f := if_pos hfound
  refine Sim.hidden hinv' (h.shows.same ?_ ?_ rfl) (fun ht => absurd ht hno) fun ht => ?_
  · rw [reader, reader]
    simp [hno, hasleep, hfound]
  · rw [unread, unread, hshown]
    rfl
  · exact hshown.symm.trans (h.closed ht)

theorem Sim.sendActivate (h : s.Sim t) (hset : s.flushing = .set)
    (hinv' : ∃ k, Inv { s with toReader := s.toReader ++ [.activateReader], flushing := .idle } k) :
    ∃ bs t', Run.exec InPipe.step t bs = some t' ∧
      Sim { s with toReader := s.toReader ++ [.activateReader], flushing := .idle } t' := by
  obtain ⟨k, hinv⟩ := h.inv
  have hc : s.queue.c ≠ none := by
    cases hinv.phase with
    | set _ _ hc => simp [hc]
    | awake _ hi | asleep _ hi | found _ hi | waking _ hi | stopped _ hi =>
      exact absurd (hi.symm.trans hset) (by simp)
  have hshown : s.shown = s.queue.w := by rw [shown, hset, if_neg (by simp)]
  refine Sim.hidden hinv' (h.shows.same ?_ ?_ rfl) (fun ht => ?_) fun ht => ?_
  · rw [reader, reader]
    simp [hc]
  · rw [unread, unread, hshown]
    rfl
  · exact absurd ((h.ended ht).idle.symm.trans hset) (by simp)
  · exact hshown.symm.trans (h.closed ht)

theorem Sim.processPipeTerm (h : s.Sim t) (hs : s.processPipeTerm = some s')
    (hinv' : ∃ k, s'.Inv k) : ∃ bs t', Run.exec InPipe.step t bs = some t' ∧ s'.Sim t' := by
  rw [Pipe.processPipeTerm] at hs
  split at hs
  · cases hs
  · obtain rfl := Option.some.inj hs
    refine Sim.hidden hinv' (h.shows.same rfl rfl rfl) (fun ht => ?_) fun ht => h.closed ht
    have he := h.ended ht
    refine ⟨he.reader, he.idle, he.c, he.front, he.writer, fun hmem => ?_⟩
    rcases List.mem_append.1 hmem with hmem | hmem
    · exact he.toReader hmem
    · simp at hmem

/-- **One step** of a thread is some steps of the pipe. -/
theorem sim_step {a : Action} (ha : a ≠ .readerTerminate) (h : s.Sim t) (hs : step s a = some s') :
    ∃ bs t', Run.exec InPipe.step t bs = some t' ∧ s'.Sim t' := by
  have hinv' := inv_step h.inv hs
  cases a with
  | write m =>
    rw [step] at hs
    split at hs
    · rename_i hfree
      obtain rfl := Option.some.inj hs
      exact h.write hfree m
    · cases hs
  | rollback =>
    rw [step] at hs
    split at hs
    · rename_i hfree
      obtain ⟨queue, hroll, rfl⟩ := Option.map_eq_some_iff.1 hs
      exact h.rollback hfree hroll
    · cases hs
  | flush =>
    rw [step] at hs
    split at hs
    · rename_i hfree
      obtain rfl := Option.some.inj hs
      exact h.flush hfree
    · cases hs
  | setFlushed =>
    rw [step] at hs
    split at hs
    · rename_i hfound
      obtain rfl := Option.some.inj hs
      exact h.setFlushed hfound hinv'
    · cases hs
  | sendActivate =>
    rw [step] at hs
    split at hs
    · rename_i hset
      obtain rfl := Option.some.inj hs
      exact h.sendActivate hset hinv'
    · cases hs
  | terminate =>
    rw [step] at hs
    split at hs
    · rename_i hfree
      exact h.terminate hfree hs
    · cases hs
  | processPipeTerm =>
    rw [step] at hs
    split at hs
    · exact h.processPipeTerm hs hinv'
    · cases hs
  | read =>
    rw [step] at hs
    split at hs
    · cases hs
    · obtain rfl := Option.some.inj hs
      exact h.read
  | checkRead =>
    rw [step] at hs
    split at hs
    · cases hs
    · obtain ⟨⟨found, s''⟩, hcheck, rfl⟩ := Option.map_eq_some_iff.1 hs
      exact h.checkRead hcheck
  | readerTerminate => exact absurd rfl ha
  | command =>
    rw [step] at hs
    split at hs
    · cases hs
    · exact h.command hs

/-- Each run of the threads is one of a pipe whose operations are single steps. -/
def Refines (actions : List Action) : Prop :=
  (∀ a ∈ actions, a ≠ .readerTerminate) → ∀ s, Run.exec step start actions = some s →
    ∀ identity, ∃ bs t, s.Shows t ∧
      Run.exec InPipe.step (⟨identity, true, .awake, [], false⟩, []) bs = some t

/-- **A pipe without a lock** does what a pipe does whose operations are single steps. -/
theorem pipe_refines (actions : List Action) : Refines actions := by
  intro hopen s hrun identity
  obtain ⟨bs, t, hbs, hsim⟩ := Run.exec_refines (R := Sim)
    (fun s t a s' ha h hs => sim_step ha h hs) hopen (sim_start identity true) hrun
  exact ⟨bs, t, hsim.shows, hbs⟩

end Pipe

end Fsync.Zmq
