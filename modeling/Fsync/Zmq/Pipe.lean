import Fsync.Base.Run
import Fsync.Zmq.Xrep
import Fsync.Zmq.Ypipe

/-!
# A pipe between two threads

`writer_t` and `reader_t` are the two ends of a pipe, each in a thread of its own.  They
share the queue of `Ypipe` and send each other commands: the writer wakes the reader, the
reader asks for the end of the pipe, and the writer agrees.  Commands arrive in the order in
which they were sent, as those in a mailbox do.  Neither a high-water mark nor a swap is set,
so the commands that resume a writer are never sent.

A step is what one thread does up to its next use of the shared pointer or its next
command, and the steps of the threads are taken in any order.

* `pipe_safe`: in every state of every run the parts come out as they went in and only
  whole messages are there to be read, a reader that sleeps while something is to be read
  is being woken, no assertion fails, and nobody uses what the other thread deleted;
* `pipe_arrives`: no wake-up is lost.  If nobody writes any more, the steps that are under
  way and reads bring all that was flushed to the reader.
-/

namespace Fsync.Zmq

open Streams

/-- What is in a queue: parts, and the delimiter that ends the pipe. -/
inductive Item where
  | part (m : Msg)
  | delimiter
  deriving DecidableEq, Repr

namespace Item

/-- `ZMQ_MSG_MORE`; the flags of the delimiter are 0. -/
def more : Item → Bool
  | .part m => m.more
  | .delimiter => false

/-- The part of a message that it is, if it is no delimiter. -/
def part? : Item → Option Msg
  | .part m => some m
  | .delimiter => none

/-- `is_delimiter` -/
def isDelimiter : Item → Bool
  | .part _ => false
  | .delimiter => true

end Item

/-- Where the writer is in `flush`. -/
inductive Flushing where
  /-- not in it -/
  | idle
  /-- The compare-and-swap found `NULL`. -/
  | found
  /-- `c` is set, and the reader is still to be woken. -/
  | set
  deriving DecidableEq, Repr

/-- The commands to the reader. -/
inductive ToReader where
  | activateReader
  | pipeTermAck
  deriving DecidableEq, Repr

/-- The two ends of a pipe, and the queue and the commands between them. -/
structure Pipe where
  queue : Ypipe Item
  /-- `active` and `terminating` of the reader. -/
  readerActive : Bool
  readerTerminating : Bool
  /-- The reader deleted itself and the queue. -/
  readerDeleted : Bool
  /-- `active` and `terminating` of the writer. -/
  writerActive : Bool
  writerTerminating : Bool
  writerDeleted : Bool
  flushing : Flushing
  toReader : List ToReader
  /-- How many `pipe_term` commands are on their way to the writer. -/
  toWriter : ℕ
  /-- What the reader returned. -/
  taken : List Msg
  deriving DecidableEq, Repr

namespace Pipe

/-- A new pipe. -/
def start : Pipe where
  queue := Ypipe.start
  readerActive := true
  readerTerminating := false
  readerDeleted := false
  writerActive := true
  writerTerminating := false
  writerDeleted := false
  flushing := .idle
  toReader := []
  toWriter := 0
  taken := []

/-! ## `reader_t` -/

/-- `reader_t::terminate`: "If termination was already started by the peer, do nothing." -/
def readerTerminate (s : Pipe) : Pipe :=
  if s.readerTerminating then s
  else { s with readerActive := false, readerTerminating := true, toWriter := s.toWriter + 1 }

/-- `reader_t::read` -/
def read (s : Pipe) : Option Msg × Pipe :=
  if s.readerActive then
    match s.queue.read with
    | (none, queue) => (none, { s with queue := queue, readerActive := false })
    | (some .delimiter, queue) => (none, { s with queue := queue }.readerTerminate)
    | (some (.part m), queue) => (some m, { s with queue := queue, taken := s.taken ++ [m] })
  else (none, s)

/-- `reader_t::check_read`; none where an assertion fails. -/
def checkRead (s : Pipe) : Option (Bool × Pipe) :=
  if s.readerActive then
    match s.queue.checkRead with
    | (false, queue) => some (false, { s with queue := queue, readerActive := false })
    | (true, queue) =>
      match queue.probe Item.isDelimiter with
      | none => none
      | some (false, queue) => some (true, { s with queue := queue })
      | some (true, queue) =>
        match queue.read with
        | (none, _) => none
        | (some _, queue) => some (false, { s with queue := queue }.readerTerminate)
  else some (false, s)

/-- `process_activate_reader` and `process_pipe_term_ack`. -/
def command (s : Pipe) : Option Pipe :=
  match s.toReader with
  | [] => none
  | .activateReader :: rest => some { s with toReader := rest, readerActive := true }
  | .pipeTermAck :: rest => some { s with toReader := rest, readerDeleted := true }

/-! ## `writer_t` -/

/-- `writer_t::write` -/
def write (m : Msg) (s : Pipe) : Pipe :=
  if s.writerActive then { s with queue := s.queue.write (.part m) m.more } else s

/-- `writer_t::rollback`, at most so many times around its loop; none where its assertion
fails. -/
def rollback : ℕ → Ypipe Item → Option (Ypipe Item)
  | 0, queue => some queue
  | count + 1, queue =>
    match queue.unwrite with
    | none => some queue
    | some (item, queue) => if item.more then rollback count queue else none

/-- `writer_t::flush`, up to the compare-and-swap. -/
def flush (s : Pipe) : Pipe :=
  match s.queue.tryFlush with
  | (true, queue) => { s with queue := queue }
  | (false, queue) => { s with queue := queue, flushing := .found }

/-- "Push delimiter into the pipe." -/
def pushDelimiter (s : Pipe) : Pipe :=
  { s with
    writerTerminating := true
    writerActive := false
    queue := s.queue.write .delimiter false }

/-- `writer_t::terminate`: "Rollback any unfinished messages", and push the delimiter. -/
def terminate (s : Pipe) : Option Pipe :=
  if s.writerTerminating then some s
  else
    (rollback s.queue.back s.queue).map fun queue =>
      ({ s with queue := queue } : Pipe).pushDelimiter.flush

/-- `process_pipe_term` -/
def processPipeTerm (s : Pipe) : Option Pipe :=
  if s.toWriter = 0 then none
  else
    some { s with
      toWriter := s.toWriter - 1
      toReader := s.toReader ++ [.pipeTermAck]
      writerDeleted := true }

/-! ## Steps -/

/-- The steps of the two ends. -/
inductive Action where
  | write (m : Msg)
  | rollback
  | flush
  /-- `c.set`, behind a compare-and-swap that found `NULL`. -/
  | setFlushed
  /-- `send_activate_reader` -/
  | sendActivate
  | terminate
  | processPipeTerm
  | read
  | checkRead
  /-- `reader_t::terminate`, by the owner of the reader. -/
  | readerTerminate
  /-- The thread of the reader processes a command. -/
  | command
  deriving DecidableEq, Repr

/-- The writer exists and is in none of its functions. -/
def WriterFree (s : Pipe) : Prop := s.writerDeleted = false ∧ s.flushing = .idle

instance (s : Pipe) : Decidable s.WriterFree := inferInstanceAs (Decidable (_ ∧ _))

/-- A step of one of the threads. -/
def step (s : Pipe) : Action → Option Pipe
  | .write m => if s.WriterFree then some (s.write m) else none
  | .rollback =>
    if s.WriterFree then
      (Pipe.rollback s.queue.back s.queue).map fun queue => { s with queue := queue }
    else none
  | .flush => if s.WriterFree then some s.flush else none
  | .setFlushed =>
    if s.flushing = .found then
      some { s with queue := s.queue.setFlushed, flushing := .set }
    else none
  | .sendActivate =>
    if s.flushing = .set then
      some { s with toReader := s.toReader ++ [.activateReader], flushing := .idle }
    else none
  | .terminate => if s.WriterFree then s.terminate else none
  | .processPipeTerm => if s.WriterFree then s.processPipeTerm else none
  | .read => if s.readerDeleted then none else some s.read.2
  | .checkRead => if s.readerDeleted then none else s.checkRead.map (·.2)
  | .readerTerminate => if s.readerDeleted then none else some s.readerTerminate
  | .command => if s.readerDeleted then none else s.command

/-! ## What is in the queue -/

/-- The parts among some items. -/
def partsOf (items : List Item) : List Msg := items.filterMap Item.part?

/-- The delimiter is the last item, the reader returned what is in front, and up to `w` and
up to `f` there are whole messages. -/
structure Contents (s : Pipe) : Prop where
  ok : s.queue.Ok
  items : ∃ ms : List Msg,
    s.queue.items = ms.map .part ++ if s.writerTerminating then [.delimiter] else []
  flushed : Terminated Item.more (s.queue.items.take s.queue.w)
  complete : Terminated Item.more (s.queue.items.take s.queue.f)
  incomplete : ∀ item ∈ s.queue.items.drop s.queue.f, item.more = true
  active : s.writerActive = !s.writerTerminating
  taken : s.taken = partsOf (s.queue.items.take s.queue.front)

theorem contents_start : start.Contents :=
  ⟨Ypipe.ok_start, ⟨[], rfl⟩, terminated_nil, terminated_nil, by simp [start, Ypipe.start],
    rfl, rfl⟩

variable {s s' : Pipe}

/-- Operations that move other pointers than `f` and `front`. -/
theorem Contents.pointers (h : s.Contents) {queue : Ypipe Item} (hok : queue.Ok)
    (hitems : queue.items = s.queue.items) (hf : queue.f = s.queue.f)
    (hfront : queue.front = s.queue.front) (hw : queue.w = s.queue.w ∨ queue.w = s.queue.f) :
    { s with queue := queue }.Contents := by
  refine ⟨hok, ?_, ?_, ?_, ?_, h.active, ?_⟩
  · rw [hitems]
    exact h.items
  · rw [hitems]
    rcases hw with hw | hw <;> rw [hw]
    · exact h.flushed
    · exact h.complete
  · rw [hitems, hf]
    exact h.complete
  · rw [hitems, hf]
    exact h.incomplete
  · rw [hitems, hfront]
    exact h.taken

/-- What is in the queue does not depend on the rest. -/
theorem Contents.other (h : s.Contents) (hq : s'.queue = s.queue)
    (hactive : s'.writerActive = s.writerActive)
    (hterm : s'.writerTerminating = s.writerTerminating) (htaken : s'.taken = s.taken) :
    s'.Contents := by
  refine ⟨?_, ?_, ?_, ?_, ?_, ?_, ?_⟩ <;> simp only [hq, hactive, hterm, htaken]
  · exact h.ok
  · exact h.items
  · exact h.flushed
  · exact h.complete
  · exact h.incomplete
  · exact h.active
  · exact h.taken

/-- An item is put behind the others. -/
theorem Contents.push (h : s.Contents) (item : Item) (terminating : Bool)
    (hitems : ∃ ms : List Msg, s.queue.items ++ [item] =
      ms.map .part ++ if terminating then [.delimiter] else []) :
    { s with
      writerTerminating := terminating
      writerActive := !terminating
      queue := s.queue.write item item.more }.Contents := by
  have hle : s.queue.front ≤ s.queue.items.length := by
    have hfront := h.ok.front
    have hflushed := h.ok.flushed
    have hwritten := h.ok.written
    rw [Ypipe.back] at hwritten
    omega
  have hf : s.queue.f ≤ s.queue.items.length := h.ok.written
  have hw : s.queue.w ≤ s.queue.items.length := h.ok.flushed.trans hf
  have hq : (s.queue.write item item.more).items = s.queue.items ++ [item] := by
    rw [Ypipe.write]
    split <;> rfl
  have hfr : (s.queue.write item item.more).front = s.queue.front := by
    rw [Ypipe.write]
    split <;> rfl
  have hwr : (s.queue.write item item.more).w = s.queue.w := by
    rw [Ypipe.write]
    split <;> rfl
  have hlast : (s.queue.write item item.more).f =
      if item.more then s.queue.f else (s.queue.items ++ [item]).length := by
    rw [Ypipe.write]
    split <;> rfl
  refine ⟨h.ok.write item item.more, ?_, ?_, ?_, ?_, rfl, ?_⟩
  · rw [hq]
    exact hitems
  · rw [hq, hwr, List.take_append_of_le_length hw]
    exact h.flushed
  · rw [hq, hlast]
    split
    · rw [List.take_append_of_le_length hf]
      exact h.complete
    · rename_i hm
      rw [List.take_length]
      intro x hx
      rw [List.getLast?_concat] at hx
      obtain rfl := Option.some.inj hx
      exact Bool.eq_false_iff.2 hm
  · rw [hq, hlast]
    split
    · rename_i hm
      rw [List.drop_append_of_le_length hf]
      intro x hx
      rcases List.mem_append.1 hx with hx | hx
      · exact h.incomplete x hx
      · rw [List.mem_singleton.1 hx]
        exact hm
    · rw [List.drop_length]
      simp
  · rw [hq, hfr, List.take_append_of_le_length hle]
    exact h.taken

theorem Contents.write (h : s.Contents) (m : Msg) : (s.write m).Contents := by
  rw [Pipe.write]
  split
  · rename_i hact
    have hno : s.writerTerminating = false := by
      have hactive := h.active
      rw [hact] at hactive
      simpa using hactive.symm
    obtain ⟨ms, hms⟩ := h.items
    rw [hno, if_neg Bool.false_ne_true, List.append_nil] at hms
    have hpush := h.push (.part m) false ⟨ms ++ [m], by rw [hms]; simp⟩
    rw [← hno, ← h.active] at hpush
    exact hpush
  · exact h

/-- What is taken back is the start of a message. -/
theorem Contents.unwrite (h : s.Contents) {item : Item} {queue : Ypipe Item}
    (hu : s.queue.unwrite = some (item, queue)) :
    item.more = true ∧ { s with queue := queue }.Contents := by
  obtain ⟨hne, hitems, heq⟩ := Ypipe.unwrite_eq_some hu
  have hok := h.ok.unwrite hu
  have hf : queue.f = s.queue.f := by rw [heq]
  have hfr : queue.front = s.queue.front := by rw [heq]
  have hw : queue.w = s.queue.w := by rw [heq]
  have hle : s.queue.f ≤ queue.items.length := by
    rw [← hf]
    exact hok.written
  have hle' : s.queue.front ≤ queue.items.length :=
    (h.ok.front.trans h.ok.flushed).trans hle
  have hmore : item.more = true := by
    refine h.incomplete item ?_
    rw [hitems, List.drop_append_of_le_length hle]
    exact List.mem_append_right _ List.mem_cons_self
  refine ⟨hmore, hok, ?_, ?_, ?_, ?_, h.active, ?_⟩
  · obtain ⟨ms, hms⟩ := h.items
    rw [hitems] at hms
    have hno : s.writerTerminating = false := by
      rw [← Bool.not_eq_true]
      intro hterm
      rw [hterm, if_pos rfl] at hms
      rw [List.singleton_inj.1 (List.append_inj' hms rfl).2] at hmore
      cases hmore
    rw [hno, if_neg Bool.false_ne_true, List.append_nil] at hms
    refine ⟨ms.dropLast, ?_⟩
    show queue.items = _ ++ if s.writerTerminating then _ else _
    rw [hno, if_neg Bool.false_ne_true, List.map_dropLast, ← hms, List.dropLast_concat,
      List.append_nil]
  · show Terminated _ (queue.items.take queue.w)
    have hflushed := h.flushed
    rw [hitems, List.take_append_of_le_length (h.ok.flushed.trans hle)] at hflushed
    rw [hw]
    exact hflushed
  · show Terminated _ (queue.items.take queue.f)
    have hcomplete := h.complete
    rw [hitems, List.take_append_of_le_length hle] at hcomplete
    rw [hf]
    exact hcomplete
  · show ∀ x ∈ queue.items.drop queue.f, x.more = true
    intro x hx
    refine h.incomplete x ?_
    rw [hitems, List.drop_append_of_le_length hle, ← hf]
    exact List.mem_append_left _ hx
  · show s.taken = partsOf (queue.items.take queue.front)
    rw [h.taken, hitems, List.take_append_of_le_length hle', hfr]

/-- **The assertion of `rollback` holds**, and nothing incomplete is left. -/
theorem Contents.rollback (h : s.Contents) (count : ℕ) :
    ∃ items, Pipe.rollback count s.queue = some { s.queue with items := items } ∧
      items <+: s.queue.items ∧ { s with queue := { s.queue with items := items } }.Contents ∧
      (s.queue.back ≤ s.queue.f + count → s.queue.f = items.length) := by
  induction count generalizing s with
  | zero =>
    refine ⟨s.queue.items, rfl, List.prefix_refl _, h, fun hle => ?_⟩
    have hwritten := h.ok.written
    rw [Ypipe.back] at hwritten hle
    omega
  | succ count ih =>
    rw [Pipe.rollback]
    cases hu : s.queue.unwrite with
    | none =>
      refine ⟨s.queue.items, rfl, List.prefix_refl _, h, fun _ => ?_⟩
      exact (h.ok.unwrite_eq_none).1 hu
    | some v =>
      obtain ⟨item, queue⟩ := v
      obtain ⟨hmore, hq⟩ := h.unwrite hu
      obtain ⟨-, hitems, heq⟩ := Ypipe.unwrite_eq_some hu
      obtain ⟨items, hroll, hpre, hcontents, hend⟩ := ih hq
      simp only [hmore, if_true]
      have hsame : ({ queue with items := items } : Ypipe Item) =
          { s.queue with items := items } := by
        rw [heq]
      rw [hroll, hsame]
      rw [hsame] at hcontents
      have hfirst : queue.items <+: s.queue.items := ⟨[item], hitems.symm⟩
      refine ⟨items, rfl, hpre.trans hfirst, hcontents, fun hle => ?_⟩
      have hf : queue.f = s.queue.f := by rw [heq]
      rw [← hf]
      refine hend ?_
      show queue.items.length ≤ queue.f + count
      rw [Ypipe.back, hitems, List.length_append, List.length_singleton] at hle
      omega

/-! ## Who is asleep -/

/-- Whether the reader sleeps, and where the command that wakes it is; the number says how
many such commands are on their way. -/
inductive Phase (s : Pipe) : ℕ → Prop
  | awake (active : s.readerActive = true) (idle : s.flushing = .idle)
      (c : s.queue.c = some s.queue.w) : Phase s 0
  | asleep (active : s.readerActive = false) (idle : s.flushing = .idle)
      (c : s.queue.c = none) : Phase s 0
  | found (active : s.readerActive = false) (found : s.flushing = .found)
      (c : s.queue.c = none) : Phase s 0
  | set (active : s.readerActive = false) (set : s.flushing = .set)
      (c : s.queue.c = some s.queue.w) : Phase s 0
  | waking (active : s.readerActive = false) (idle : s.flushing = .idle)
      (c : s.queue.c = some s.queue.w) : Phase s 1
  /-- The reader was terminated while it was awake. -/
  | stopped (active : s.readerActive = false) (idle : s.flushing = .idle)
      (c : s.queue.c = some s.queue.w) (terminating : s.readerTerminating = true) : Phase s 0

/-- The commands on their way, and how the two ends are deleted. -/
structure Handshake (s : Pipe) (wakes : ℕ) : Prop where
  toReader : s.toReader = List.replicate wakes .activateReader ++
    if s.writerDeleted && !s.readerDeleted then [.pipeTermAck] else []
  toWriter : s.toWriter = if s.readerTerminating && !s.writerDeleted then 1 else 0
  writer : s.writerDeleted = true → s.readerTerminating = true ∧ s.flushing = .idle
  reader : s.readerDeleted = true → s.writerDeleted = true ∧ wakes = 0

/-- What holds in every state of a pipe. -/
structure Inv (s : Pipe) (wakes : ℕ) : Prop where
  contents : s.Contents
  phase : s.Phase wakes
  handshake : s.Handshake wakes

theorem inv_start : start.Inv 0 where
  contents := contents_start
  phase := .awake rfl rfl rfl
  handshake := ⟨rfl, rfl, fun h => (by cases h), fun h => (by cases h)⟩

variable {wakes : ℕ}

/-- The phase depends on the pointers that the threads share. -/
theorem Phase.other (h : s.Phase wakes) (hactive : s'.readerActive = s.readerActive)
    (hflushing : s'.flushing = s.flushing) (hw : s'.queue.w = s.queue.w)
    (hc : s'.queue.c = s.queue.c) (hterm : s'.readerTerminating = s.readerTerminating) :
    s'.Phase wakes := by
  cases h with
  | awake ha hi hcw =>
    exact .awake (hactive.trans ha) (hflushing.trans hi) (by rw [hc, hcw, hw])
  | asleep ha hi hcw => exact .asleep (hactive.trans ha) (hflushing.trans hi) (hc.trans hcw)
  | found ha hi hcw => exact .found (hactive.trans ha) (hflushing.trans hi) (hc.trans hcw)
  | set ha hi hcw => exact .set (hactive.trans ha) (hflushing.trans hi) (by rw [hc, hcw, hw])
  | waking ha hi hcw =>
    exact .waking (hactive.trans ha) (hflushing.trans hi) (by rw [hc, hcw, hw])
  | stopped ha hi hcw ht =>
    exact .stopped (hactive.trans ha) (hflushing.trans hi) (by rw [hc, hcw, hw]) (hterm.trans ht)

/-- The writer moves the end of the queue. -/
theorem Inv.writes (h : s.Inv wakes) {queue : Ypipe Item} {active terminating : Bool}
    (hc : Contents { s with
      writerTerminating := terminating, writerActive := active, queue := queue })
    (hw : queue.w = s.queue.w) (hcc : queue.c = s.queue.c) :
    Inv { s with
      writerTerminating := terminating, writerActive := active, queue := queue } wakes :=
  ⟨hc, h.phase.other rfl rfl hw hcc rfl, h.handshake.toReader, h.handshake.toWriter,
    h.handshake.writer, h.handshake.reader⟩

theorem write_w (q : Ypipe Item) (item : Item) (incomplete : Bool) :
    (q.write item incomplete).w = q.w ∧ (q.write item incomplete).c = q.c := by
  rw [Ypipe.write]
  split <;> exact ⟨rfl, rfl⟩

theorem Inv.write (h : s.Inv wakes) (m : Msg) : (s.write m).Inv wakes := by
  have hc := h.contents.write m
  rw [Pipe.write] at hc ⊢
  split
  · rename_i hact
    rw [if_pos hact] at hc
    exact h.writes hc (write_w _ _ _).1 (write_w _ _ _).2
  · exact h

theorem Inv.rollback (h : s.Inv wakes) {queue : Ypipe Item} {count : ℕ}
    (hr : Pipe.rollback count s.queue = some queue) : { s with queue := queue }.Inv wakes := by
  obtain ⟨items, hroll, -, hc, -⟩ := h.contents.rollback count
  obtain rfl := Option.some.inj (hr.symm.trans hroll)
  exact h.writes hc rfl rfl

/-- A flush shows the reader what was completed, or finds it asleep. -/
theorem Contents.flush_cases (h : s.Contents) :
    (s.queue.c = some s.queue.w ∧
        s.flush = { s with queue := { s.queue with c := some s.queue.f, w := s.queue.f } }) ∨
      (s.queue.c = none ∧ s.queue.w = s.queue.f ∧ s.flush = s) ∨
      (s.queue.c = none ∧ s.queue.w ≠ s.queue.f ∧ s.flush = { s with flushing := .found }) := by
  rcases h.ok.c with hc | hc
  · by_cases hwf : s.queue.w = s.queue.f
    · exact Or.inr (Or.inl ⟨hc, hwf, by rw [flush, Ypipe.tryFlush_asleep hc, decide_eq_true hwf]⟩)
    · exact Or.inr (Or.inr ⟨hc, hwf, by rw [flush, Ypipe.tryFlush_asleep hc, decide_eq_false hwf]⟩)
  · exact Or.inl ⟨hc, by rw [flush, Ypipe.tryFlush_awake hc]⟩

/-- **A flush.** -/
theorem Inv.flush (h : s.Inv wakes) (hfree : s.WriterFree) : s.flush.Inv wakes := by
  have hc := h.contents
  rcases hc.flush_cases with ⟨hw, heq⟩ | ⟨-, -, heq⟩ | ⟨hnone, -, heq⟩ <;> rw [heq]
  · refine ⟨hc.pointers hc.ok.flush rfl rfl rfl (Or.inr rfl), ?_, h.handshake.toReader,
      h.handshake.toWriter, h.handshake.writer, h.handshake.reader⟩
    cases h.phase with
    | awake ha hi _ => exact .awake ha hi rfl
    | asleep ha hi hc | found ha hi hc => exact absurd (hc.symm.trans hw) (by simp)
    | set ha hi _ => exact .set ha hi rfl
    | waking ha hi _ => exact .waking ha hi rfl
    | stopped ha hi _ ht => exact .stopped ha hi rfl ht
  · exact h
  · have hsleeps : s.readerActive = false ∧ wakes = 0 := by
      cases h.phase with
      | asleep ha | found ha => exact ⟨ha, rfl⟩
      | awake _ _ hw | set _ _ hw | waking _ _ hw | stopped _ _ hw =>
        exact absurd (hnone.symm.trans hw) (by simp)
    obtain ⟨ha, rfl⟩ := hsleeps
    refine ⟨hc.other rfl rfl rfl rfl, .found ha rfl hnone, h.handshake.toReader,
      h.handshake.toWriter, fun hd => ?_, h.handshake.reader⟩
    exact absurd (hfree.1.symm.trans hd) Bool.false_ne_true

theorem Inv.setFlushed (h : s.Inv wakes) (hfound : s.flushing = .found) :
    Inv { s with queue := s.queue.setFlushed, flushing := .set } wakes := by
  have hc := h.contents.pointers h.contents.ok.flush rfl rfl rfl (Or.inr rfl)
  cases h.phase with
  | awake ha hi | asleep ha hi | set ha hi | waking ha hi | stopped ha hi =>
    exact absurd (hi.symm.trans hfound) (by simp)
  | found ha hi hnone =>
    refine ⟨hc.other rfl rfl rfl rfl,
      .set ha rfl rfl, h.handshake.toReader, h.handshake.toWriter, fun hd => ?_,
      h.handshake.reader⟩
    exact absurd ((h.handshake.writer hd).2.symm.trans hfound) (by simp)

theorem Inv.sendActivate (h : s.Inv wakes) (hset : s.flushing = .set) :
    Inv { s with toReader := s.toReader ++ [.activateReader], flushing := .idle } 1 := by
  have hc := h.contents
  have hno : s.writerDeleted = false := by
    rw [← Bool.not_eq_true]
    intro hd
    exact absurd ((h.handshake.writer hd).2.symm.trans hset) (by simp)
  cases h.phase with
  | awake ha hi | asleep ha hi | found ha hi | waking ha hi | stopped ha hi =>
    exact absurd (hi.symm.trans hset) (by simp)
  | set ha hi hcw =>
    refine ⟨hc.other rfl rfl rfl rfl,
      .waking ha rfl hcw, ?_, h.handshake.toWriter, fun hd => ?_, fun hd => ?_⟩
    · show s.toReader ++ [.activateReader] = _
      rw [h.handshake.toReader, hno]
      rfl
    · exact absurd (hno.symm.trans hd) Bool.false_ne_true
    · exact absurd (hno.symm.trans (h.handshake.reader hd).1) Bool.false_ne_true

theorem Inv.pushDelimiter (h : s.Inv wakes) (hopen : s.writerTerminating = false) :
    s.pushDelimiter.Inv wakes := by
  obtain ⟨ms, hms⟩ := h.contents.items
  rw [hopen, if_neg Bool.false_ne_true, List.append_nil] at hms
  have hpush := h.contents.push .delimiter true ⟨ms, by rw [hms]; rfl⟩
  exact h.writes hpush (write_w _ _ _).1 (write_w _ _ _).2

/-- **The end of the pipe** is put behind whole messages. -/
theorem Inv.terminate (h : s.Inv wakes) (hfree : s.WriterFree) :
    ∃ s', s.terminate = some s' ∧ s'.Inv wakes := by
  rw [Pipe.terminate]
  split
  · exact ⟨s, rfl, h⟩
  · rename_i hno
    rw [Bool.not_eq_true] at hno
    obtain ⟨items, hroll, -⟩ := h.contents.rollback s.queue.back
    rw [hroll, Option.map_some]
    exact ⟨_, rfl, ((h.rollback hroll).pushDelimiter hno).flush hfree⟩

theorem Inv.processPipeTerm (h : s.Inv wakes) (hfree : s.WriterFree)
    (hs : s.processPipeTerm = some s') : s'.Inv wakes := by
  rw [Pipe.processPipeTerm] at hs
  split at hs
  · cases hs
  · rename_i hne
    obtain rfl := Option.some.inj hs
    have hshake := h.handshake
    have hterm : s.readerTerminating = true := by
      by_contra hno
      rw [hshake.toWriter, Bool.eq_false_iff.2 hno] at hne
      exact hne rfl
    have hlive : s.readerDeleted = false := by
      rw [← Bool.not_eq_true]
      intro hd
      exact absurd (hfree.1.symm.trans (hshake.reader hd).1) Bool.false_ne_true
    have hc := h.contents
    refine ⟨hc.other rfl rfl rfl rfl, h.phase.other rfl rfl rfl rfl rfl, ?_, ?_,
      fun _ => ⟨hterm, hfree.2⟩, fun hd => ?_⟩
    · show s.toReader ++ [.pipeTermAck] = _
      rw [hshake.toReader, hfree.1, hlive]
      simp
    · show s.toWriter - 1 = _
      rw [hshake.toWriter, hterm, hfree.1]
      rfl
    · exact absurd (hlive.symm.trans hd) Bool.false_ne_true

/-! ## The reader -/

theorem Inv.readerTerminate (h : s.Inv wakes) : s.readerTerminate.Inv wakes := by
  rw [Pipe.readerTerminate]
  split
  · exact h
  · rename_i hno
    rw [Bool.not_eq_true] at hno
    have hc := h.contents
    have hlive : s.writerDeleted = false := by
      rw [← Bool.not_eq_true]
      intro hd
      exact absurd (hno.symm.trans (h.handshake.writer hd).1) Bool.false_ne_true
    refine ⟨hc.other rfl rfl rfl rfl, ?_,
      h.handshake.toReader, ?_, fun hd => ?_, h.handshake.reader⟩
    · cases h.phase with
      | awake ha hi hcw => exact .stopped rfl hi hcw rfl
      | asleep ha hi hcw => exact .asleep rfl hi hcw
      | found ha hi hcw => exact .found rfl hi hcw
      | set ha hi hcw => exact .set rfl hi hcw
      | waking ha hi hcw => exact .waking rfl hi hcw
      | stopped ha hi hcw ht => exact .stopped rfl hi hcw rfl
    · show s.toWriter + 1 = _
      rw [h.handshake.toWriter, hno, hlive]
      rfl
    · exact absurd (hlive.symm.trans hd) Bool.false_ne_true

/-- A reader that is awake and finds nothing goes to sleep. -/
theorem Inv.sleep (h : s.Inv wakes) (hact : s.readerActive = true)
    (hempty : s.queue.front = s.queue.w) :
    Inv { s with
      queue := { s.queue with r := s.queue.c, c := none }
      readerActive := false } wakes := by
  have hc := h.contents.pointers (h.contents.ok.sleep hempty) rfl rfl rfl (Or.inl rfl)
  refine ⟨hc.other rfl rfl rfl rfl, ?_,
    h.handshake.toReader, h.handshake.toWriter, h.handshake.writer, h.handshake.reader⟩
  cases h.phase with
  | awake ha hi hcw => exact .asleep rfl hi rfl
  | asleep ha | found ha | set ha | waking ha | stopped ha =>
    exact absurd (ha.symm.trans hact) Bool.false_ne_true

theorem Phase.c_of_active (h : s.Phase wakes) (hact : s.readerActive = true) :
    s.queue.c = some s.queue.w := by
  cases h with
  | awake ha hi hcw => exact hcw
  | asleep ha | found ha | set ha | waking ha | stopped ha =>
    exact absurd (ha.symm.trans hact) Bool.false_ne_true

/-- An item is taken. -/
theorem Inv.take (h : s.Inv wakes) {item : Item} {p : ℕ}
    (hitem : s.queue.items[s.queue.front]? = some item) (hact : s.readerActive = true)
    (hlt : s.queue.front < p) (hle : p ≤ s.queue.w) :
    Inv { s with
      queue := { s.queue with r := some p, front := s.queue.front + 1 }
      taken := s.taken ++ partsOf [item] } wakes := by
  have hc := h.contents
  have hcw := h.phase.c_of_active hact
  refine ⟨⟨hc.ok.take hlt hle (by rw [hcw]; simp), hc.items, hc.flushed, hc.complete,
    hc.incomplete, hc.active, ?_⟩, ?_, h.handshake.toReader, h.handshake.toWriter,
    h.handshake.writer, h.handshake.reader⟩
  · show s.taken ++ partsOf [item] = partsOf (s.queue.items.take (s.queue.front + 1))
    rw [List.take_add_one, hitem, hc.taken, partsOf, partsOf, partsOf, List.filterMap_append]
    rfl
  · cases h.phase with
    | awake ha hi hcw => exact .awake ha hi hcw
    | asleep ha | found ha | set ha | waking ha | stopped ha =>
      exact absurd (ha.symm.trans hact) Bool.false_ne_true

/-- What `read` does to a reader that is awake and has something to read. -/
theorem Inv.read_unread (h : s.Inv wakes) (hact : s.readerActive = true)
    (hlt : s.queue.front < s.queue.w) : ∃ p, s.queue.front < p ∧ p ≤ s.queue.w ∧
    ((∃ m, s.queue.items[s.queue.front]? = some (.part m) ∧ s.read = (some m, { s with
        queue := { s.queue with r := some p, front := s.queue.front + 1 }
        taken := s.taken ++ [m] })) ∨
      (s.queue.items[s.queue.front]? = some .delimiter ∧ s.read = (none, { s with
        queue := { s.queue with r := some p, front := s.queue.front + 1 } }.readerTerminate))) := by
  have hok := h.contents.ok
  obtain ⟨p, hp, hle, hread⟩ := hok.read_unread (h.phase.c_of_active hact) hlt
  obtain ⟨item, hitem⟩ := hok.exists_front hlt
  refine ⟨p, hp, hle, ?_⟩
  rw [Pipe.read, if_pos hact, hread, hitem]
  cases item with
  | part m => exact Or.inl ⟨m, rfl, rfl⟩
  | delimiter => exact Or.inr ⟨rfl, rfl⟩

/-- If there is nothing, it goes to sleep. -/
theorem Inv.read_empty (h : s.Inv wakes) (hact : s.readerActive = true)
    (hempty : s.queue.front = s.queue.w) : s.read = (none, { s with
      queue := { s.queue with r := s.queue.c, c := none }, readerActive := false }) := by
  rw [Pipe.read, if_pos hact, h.contents.ok.read_empty hempty]

/-- **A read.** -/
theorem Inv.read (h : s.Inv wakes) : s.read.2.Inv wakes := by
  by_cases hact : s.readerActive = true
  · rcases h.contents.ok.front.lt_or_eq with hlt | heq
    · obtain ⟨p, hp, hle, ⟨m, hitem, hread⟩ | ⟨hitem, hread⟩⟩ := h.read_unread hact hlt
      · rw [hread]
        exact h.take hitem hact hp hle
      · have htake := h.take hitem hact hp hle
        rw [partsOf, List.filterMap_cons_none rfl, List.filterMap_nil, List.append_nil] at htake
        rw [hread]
        exact htake.readerTerminate
    · rw [h.read_empty hact heq]
      exact h.sleep hact heq
  · rw [Pipe.read, if_neg hact]
    exact h

/-- What `check_read` does to a reader that is awake and has something to read. -/
theorem Inv.checkRead_unread (h : s.Inv wakes) (hact : s.readerActive = true)
    (hlt : s.queue.front < s.queue.w) : ∃ p, s.queue.front < p ∧ p ≤ s.queue.w ∧
    ((∃ m, s.queue.items[s.queue.front]? = some (.part m) ∧
        s.checkRead = some (true, { s with queue := { s.queue with r := some p } })) ∨
      (s.queue.items[s.queue.front]? = some .delimiter ∧ s.checkRead = some (false, { s with
        queue := { s.queue with r := some p, front := s.queue.front + 1 } }.readerTerminate))) := by
  have hok := h.contents.ok
  have hcw := h.phase.c_of_active hact
  obtain ⟨p, hp, hle, hcheck⟩ := hok.checkRead_unread hcw hlt
  have hok₁ := hok.prefetch hp.le hle
  obtain ⟨item, q, hitem, hq, hqle, hprobe⟩ := hok₁.probe_unread hcw hlt Item.isDelimiter
  have hitem' : s.queue.items[s.queue.front]? = some item := hitem
  rw [Pipe.checkRead, if_pos hact, hcheck]
  simp only [hprobe]
  cases item with
  | part m => exact ⟨q, hq, hqle, Or.inl ⟨m, hitem', rfl⟩⟩
  | delimiter =>
    obtain ⟨p', hp', hle', hread⟩ := (hok₁.prefetch hq.le hqle).read_unread hcw hlt
    refine ⟨p', hp', hle', Or.inr ⟨hitem', ?_⟩⟩
    simp only [Item.isDelimiter, hread, hitem']

theorem Inv.checkRead_empty (h : s.Inv wakes) (hact : s.readerActive = true)
    (hempty : s.queue.front = s.queue.w) : s.checkRead = some (false, { s with
      queue := { s.queue with r := s.queue.c, c := none }, readerActive := false }) := by
  rw [Pipe.checkRead, if_pos hact, h.contents.ok.checkRead_empty hempty]

/-- **The assertions of `check_read` hold.** -/
theorem Inv.checkRead (h : s.Inv wakes) :
    ∃ found s', s.checkRead = some (found, s') ∧ s'.Inv wakes := by
  by_cases hact : s.readerActive = true
  · have hok := h.contents.ok
    rcases hok.front.lt_or_eq with hlt | heq
    · obtain ⟨p, hp, hle, ⟨m, hitem, hcheck⟩ | ⟨hitem, hcheck⟩⟩ := h.checkRead_unread hact hlt
      · refine ⟨_, _, hcheck, ?_, h.phase.other rfl rfl rfl rfl rfl, h.handshake.toReader,
          h.handshake.toWriter, h.handshake.writer, h.handshake.reader⟩
        exact h.contents.pointers (hok.prefetch hp.le hle) rfl rfl rfl (Or.inl rfl)
      · have htake := h.take hitem hact hp hle
        rw [partsOf, List.filterMap_cons_none rfl, List.filterMap_nil, List.append_nil] at htake
        exact ⟨_, _, hcheck, htake.readerTerminate⟩
    · exact ⟨_, _, h.checkRead_empty hact heq, h.sleep hact heq⟩
  · exact ⟨false, s, by rw [Pipe.checkRead, if_neg hact], h⟩

theorem Inv.command (h : s.Inv wakes) (hs : s.command = some s') : ∃ k, s'.Inv k := by
  have hc := h.contents
  have hto := h.handshake.toReader
  rw [Pipe.command] at hs
  split at hs
  · cases hs
  · rename_i rest hrest
    obtain rfl := Option.some.inj hs
    -- only a reader that is being woken gets the command
    have hone : wakes = 1 ∧ s.readerActive = false ∧ s.flushing = .idle ∧
        s.queue.c = some s.queue.w := by
      cases h.phase with
      | waking ha hi hcw => exact ⟨rfl, ha, hi, hcw⟩
      | awake | asleep | found | set | stopped =>
        rw [hrest, List.replicate_zero, List.nil_append] at hto
        split at hto <;> cases hto
    obtain ⟨rfl, -, hi, hcw⟩ := hone
    refine ⟨0, hc.other rfl rfl rfl rfl,
      .awake rfl hi hcw, ?_, h.handshake.toWriter, h.handshake.writer, fun hd => ?_⟩
    · rw [hrest] at hto
      exact (List.cons.inj hto).2
    · exact absurd (h.handshake.reader hd).2 Nat.one_ne_zero
  · rename_i rest hrest
    obtain rfl := Option.some.inj hs
    rw [hrest] at hto
    have hnone : wakes = 0 ∧ s.writerDeleted = true ∧ s.readerDeleted = false ∧ rest = [] := by
      cases wakes with
      | succ k => cases hto
      | zero =>
        rw [List.replicate_zero, List.nil_append] at hto
        split at hto
        · rename_i hdel
          rw [Bool.and_eq_true, Bool.not_eq_true'] at hdel
          exact ⟨rfl, hdel.1, hdel.2, (List.cons.inj hto).2⟩
        · cases hto
    obtain ⟨rfl, hdel, -, rfl⟩ := hnone
    refine ⟨0, hc.other rfl rfl rfl rfl, h.phase.other rfl rfl rfl rfl rfl, ?_,
      h.handshake.toWriter, h.handshake.writer, fun _ => ⟨hdel, rfl⟩⟩
    rw [hdel]
    rfl

/-- **One step.** -/
theorem inv_step {a : Action} (h : ∃ k, s.Inv k) (hs : step s a = some s') : ∃ k, s'.Inv k := by
  obtain ⟨k, h⟩ := h
  cases a with
  | write m =>
    rw [step] at hs
    split at hs
    · obtain rfl := Option.some.inj hs
      exact ⟨k, h.write m⟩
    · cases hs
  | rollback =>
    rw [step] at hs
    split at hs
    · obtain ⟨queue, hroll, rfl⟩ := Option.map_eq_some_iff.1 hs
      exact ⟨k, h.rollback hroll⟩
    · cases hs
  | flush =>
    rw [step] at hs
    split at hs
    · rename_i hfree
      obtain rfl := Option.some.inj hs
      exact ⟨k, h.flush hfree⟩
    · cases hs
  | setFlushed =>
    rw [step] at hs
    split at hs
    · rename_i hfound
      obtain rfl := Option.some.inj hs
      exact ⟨k, h.setFlushed hfound⟩
    · cases hs
  | sendActivate =>
    rw [step] at hs
    split at hs
    · rename_i hset
      obtain rfl := Option.some.inj hs
      exact ⟨1, h.sendActivate hset⟩
    · cases hs
  | terminate =>
    rw [step] at hs
    split at hs
    · rename_i hfree
      obtain ⟨t, ht, hinv⟩ := h.terminate hfree
      obtain rfl := Option.some.inj (ht.symm.trans hs)
      exact ⟨k, hinv⟩
    · cases hs
  | processPipeTerm =>
    rw [step] at hs
    split at hs
    · rename_i hfree
      exact ⟨k, h.processPipeTerm hfree hs⟩
    · cases hs
  | read =>
    rw [step] at hs
    split at hs
    · cases hs
    · obtain rfl := Option.some.inj hs
      exact ⟨k, h.read⟩
  | checkRead =>
    rw [step] at hs
    split at hs
    · cases hs
    · obtain ⟨found, t, ht, hinv⟩ := h.checkRead
      rw [ht, Option.map_some] at hs
      obtain rfl := Option.some.inj hs
      exact ⟨k, hinv⟩
  | readerTerminate =>
    rw [step] at hs
    split at hs
    · cases hs
    · obtain rfl := Option.some.inj hs
      exact ⟨k, h.readerTerminate⟩
  | command =>
    rw [step] at hs
    split at hs
    · cases hs
    · exact h.command hs

/-! ## Safety -/

/-- What holds in every state of a pipe, in terms of what its users see. -/
structure Safe (s : Pipe) : Prop where
  /-- The parts come out as they went in. -/
  taken : s.taken <+: partsOf s.queue.items
  /-- What can be read are whole messages. -/
  whole : Terminated Item.more (s.queue.items.take s.queue.w)
  /-- A reader that sleeps while something is to be read is being woken. -/
  woken : s.readerActive = false → s.readerTerminating = false → s.queue.front < s.queue.w →
    s.flushing = .set ∨ .activateReader ∈ s.toReader
  /-- The cells that are read are not those that are taken back. -/
  apart : ∀ p, s.queue.r = some p → p ≤ s.queue.f
  /-- "Compare-and-swap was unseccessful because 'c' is NULL." -/
  failed : s.flushing = .found → s.queue.c = none
  rollback : Pipe.rollback s.queue.back s.queue ≠ none
  checkRead : s.checkRead ≠ none
  /-- The reader is deleted last, and gets no command any more. -/
  readerDeleted : s.readerDeleted = true →
    s.writerDeleted = true ∧ s.flushing = .idle ∧ s.toReader = []
  /-- The writer that is deleted gets no command any more. -/
  writerDeleted : s.writerDeleted = true → s.flushing = .idle ∧ s.toWriter = 0

theorem Inv.safe (h : s.Inv wakes) : s.Safe := by
  have hok := h.contents.ok
  refine ⟨?_, h.contents.flushed, fun ha ht hlt => ?_, fun p hp => ?_, fun hf => ?_, ?_, ?_,
    fun hd => ?_, fun hd => ?_⟩
  · rw [h.contents.taken]
    exact (List.take_prefix _ _).filterMap _
  · have hne : s.queue.c ≠ none := fun hc => absurd (hok.asleep hc) (by omega)
    cases h.phase with
    | awake ha' => exact absurd (ha.symm.trans ha') (by simp)
    | asleep _ _ hc => exact absurd hc hne
    | found _ _ hc => exact absurd hc hne
    | set _ hi => exact Or.inl hi
    | waking =>
      refine Or.inr ?_
      rw [h.handshake.toReader]
      exact List.mem_cons_self
    | stopped _ _ _ ht' => exact absurd (ht.symm.trans ht') (by simp)
  · exact (hok.prefetched p hp).2.trans hok.flushed
  · cases h.phase with
    | found _ _ hc => exact hc
    | awake _ hi | asleep _ hi | set _ hi | waking _ hi | stopped _ hi =>
      exact absurd (hi.symm.trans hf) (by simp)
  · obtain ⟨items, hroll, -⟩ := h.contents.rollback s.queue.back
    rw [hroll]
    simp
  · obtain ⟨found, t, ht, -⟩ := h.checkRead
    rw [ht]
    simp
  · obtain ⟨hw, rfl⟩ := h.handshake.reader hd
    refine ⟨hw, (h.handshake.writer hw).2, ?_⟩
    rw [h.handshake.toReader, hd]
    simp
  · refine ⟨(h.handshake.writer hd).2, ?_⟩
    rw [h.handshake.toWriter, hd]
    simp

/-- **Two threads at a pipe**, in any order of their steps. -/
theorem pipe_safe (actions : List Action) : Run.Along step Safe start actions := by
  refine (Run.along_of_inv (I := fun s => ∃ k, s.Inv k) (fun _ _ _ h hs => inv_step h hs)
    ⟨0, inv_start⟩).mono ?_
  rintro s ⟨k, h⟩
  exact h.safe

/-! ## What is flushed arrives -/

/-- The end of what is flushed, or is being flushed. -/
def shown (s : Pipe) : ℕ := if s.flushing = .found then s.queue.f else s.queue.w

/-- The steps that end what was begun: nothing is written, flushed or terminated. -/
def Action.Settles : Action → Prop
  | .setFlushed | .sendActivate | .command | .read => True
  | _ => False

theorem shown_of_idle (h : s.flushing = .idle) : s.shown = s.queue.w := by
  rw [shown, h, if_neg (by simp)]

/-- Behind the delimiter there is nothing. -/
theorem Contents.delimiter_last (h : s.Contents) {i : ℕ}
    (hi : s.queue.items[i]? = some .delimiter) : i + 1 = s.queue.items.length := by
  obtain ⟨ms, hms⟩ := h.items
  have hparts : ∀ j : ℕ, (ms.map Item.part)[j]? ≠ some Item.delimiter := by
    intro j hj
    rw [List.getElem?_map] at hj
    obtain ⟨m, -, hm⟩ := Option.map_eq_some_iff.1 hj
    cases hm
  rw [hms] at hi ⊢
  split at hi
  · rename_i hterm
    rw [if_pos hterm, List.length_append, List.length_singleton]
    by_cases hlt : i < (ms.map Item.part).length
    · rw [List.getElem?_append_left hlt] at hi
      exact absurd hi (hparts i)
    · rw [List.getElem?_append_right (Nat.le_of_not_lt hlt), List.getElem?_singleton] at hi
      split at hi
      · omega
      · cases hi
  · rw [List.append_nil] at hi
    exact absurd hi (hparts i)

@[simp] theorem readerTerminate_queue (s : Pipe) : s.readerTerminate.queue = s.queue := by
  rw [Pipe.readerTerminate]
  split <;> rfl

@[simp] theorem readerTerminate_readerDeleted (s : Pipe) :
    s.readerTerminate.readerDeleted = s.readerDeleted := by
  rw [Pipe.readerTerminate]
  split <;> rfl

/-- A reader that is awake reads all there is. -/
theorem Inv.reads (h : s.Inv wakes) (hlive : s.readerDeleted = false)
    (hready : s.readerActive = true ∨ s.queue.front = s.queue.w) :
    ∃ s', Run.exec step s (List.replicate (s.queue.w - s.queue.front) .read) = some s' ∧
      s'.taken = partsOf (s.queue.items.take s.queue.w) := by
  induction hn : s.queue.w - s.queue.front generalizing s with
  | zero =>
    refine ⟨s, rfl, ?_⟩
    have hfront := h.contents.ok.front
    rw [h.contents.taken, show s.queue.front = s.queue.w by omega]
  | succ n ih =>
    have hlt : s.queue.front < s.queue.w := by omega
    have hact : s.readerActive = true := hready.resolve_right (by omega)
    have hstep : step s .read = some s.read.2 := by
      rw [step, hlive, if_neg Bool.false_ne_true]
    rw [List.replicate_succ, Run.exec_cons, hstep, Option.bind_some]
    have hinv := h.read
    obtain ⟨p, -, -, ⟨m, -, hread⟩ | ⟨hitem, hread⟩⟩ := h.read_unread hact hlt
    · rw [hread] at hinv ⊢
      refine ih hinv hlive (Or.inl hact) ?_
      show s.queue.w - (s.queue.front + 1) = n
      omega
    · have hlast := h.contents.delimiter_last hitem
      have hflushed := h.contents.ok.flushed
      have hwritten : s.queue.f ≤ s.queue.items.length := h.contents.ok.written
      rw [hread] at hinv ⊢
      have hall := ih hinv (by simpa using hlive) (Or.inr (by simp; omega)) (by simp; omega)
      simpa using hall

theorem command_activate (h : s.toReader = [.activateReader]) :
    s.command = some { s with toReader := [], readerActive := true } := by
  rw [command, h]

/-- A reader that is not terminated is awake, or can be woken if there is something. -/
theorem Inv.wakes_up (h : s.Inv wakes) (hterm : s.readerTerminating = false) :
    ∃ more s', (∀ a ∈ more, a.Settles) ∧ Run.exec step s more = some s' ∧ (∃ k, s'.Inv k) ∧
      s'.readerDeleted = false ∧ s'.queue.items = s.queue.items ∧ s'.queue.w = s.shown ∧
      (s'.readerActive = true ∨ s'.queue.front = s'.queue.w) := by
  have hwriter : s.writerDeleted = false := by
    rw [← Bool.not_eq_true]
    intro hd
    exact absurd (hterm.symm.trans (h.handshake.writer hd).1) Bool.false_ne_true
  have hlive : s.readerDeleted = false := by
    rw [← Bool.not_eq_true]
    intro hd
    exact absurd (hwriter.symm.trans (h.handshake.reader hd).1) Bool.false_ne_true
  have hto : s.toReader = List.replicate wakes .activateReader := by
    rw [h.handshake.toReader, hwriter]
    simp
  have hinv : ∀ {more s'}, Run.exec step s more = some s' → ∃ k, s'.Inv k :=
    Run.exec_inv (fun _ _ _ h hs => inv_step h hs) ⟨wakes, h⟩
  cases h.phase with
  | awake ha hi hcw =>
    exact ⟨[], s, by simp, rfl, ⟨0, h⟩, hlive, rfl, (shown_of_idle hi).symm, Or.inl ha⟩
  | asleep ha hi hc =>
    exact ⟨[], s, by simp, rfl, ⟨0, h⟩, hlive, rfl, (shown_of_idle hi).symm,
      Or.inr (h.contents.ok.asleep hc)⟩
  | found ha hi hc =>
    have hrun : Run.exec step s [.setFlushed, .sendActivate, .command] = some { s with
        queue := s.queue.setFlushed, flushing := .idle, readerActive := true } := by
      simp [step, hi, hlive, hto, command_activate]
    refine ⟨_, _, ?_, hrun, hinv hrun, hlive, rfl, ?_, Or.inl rfl⟩
    · simp [Action.Settles]
    · rw [shown, hi, if_pos rfl]
      rfl
  | set ha hi hcw =>
    have hrun : Run.exec step s [.sendActivate, .command] = some { s with
        flushing := .idle, readerActive := true } := by
      simp [step, hi, hlive, hto, command_activate]
    refine ⟨_, _, ?_, hrun, hinv hrun, hlive, rfl, ?_, Or.inl rfl⟩
    · simp [Action.Settles]
    · rw [shown, hi, if_neg (by simp)]
  | waking ha hi hcw =>
    have hrun : Run.exec step s [.command] =
        some { s with toReader := [], readerActive := true } := by
      simp [step, hlive, command_activate hto]
    refine ⟨_, _, ?_, hrun, hinv hrun, hlive, rfl, (shown_of_idle hi).symm, Or.inl rfl⟩
    simp [Action.Settles]
  | stopped _ _ _ ht => exact absurd (hterm.symm.trans ht) Bool.false_ne_true

/-- What was flushed, and what is being flushed, is read to its end if the threads only go
on with what they began. -/
def Arrives (s : Pipe) : Prop :=
  s.readerTerminating = false → ∃ more s', (∀ a ∈ more, a.Settles) ∧
    Run.exec step s more = some s' ∧ s'.taken = partsOf (s.queue.items.take s.shown)

/-- **No wake-up is lost.** -/
theorem pipe_arrives (actions : List Action) : Run.Along step Arrives start actions := by
  refine (Run.along_of_inv (I := fun s => ∃ k, s.Inv k) (fun _ _ _ h hs => inv_step h hs)
    ⟨0, inv_start⟩).mono ?_
  rintro s ⟨k, h⟩ hterm
  obtain ⟨more, t, hmore, hrun, ⟨k', ht⟩, hlive, hitems, hw, hready⟩ := h.wakes_up hterm
  obtain ⟨s', hrun', htaken⟩ := ht.reads hlive hready
  refine ⟨more ++ List.replicate (t.queue.w - t.queue.front) .read, s', fun a ha => ?_, ?_, ?_⟩
  · rcases List.mem_append.1 ha with ha | ha
    · exact hmore a ha
    · rw [List.eq_of_mem_replicate ha]
      exact trivial
  · rw [Run.exec_append, hrun]
    exact hrun'
  · rw [htaken, hitems, hw]

end Pipe

end Fsync.Zmq
