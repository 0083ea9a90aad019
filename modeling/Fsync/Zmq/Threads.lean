import Fsync.Zmq.InMemory
import Fsync.Zmq.Mailbox
import Fsync.Zmq.Pipe

/-!
# Threads that share memory

The two ends of a pipe and the threads at a mailbox use their queue by calls of `ypipe_t`
only, and in `flush` the writer calls nothing else.  So a queue in memory does for the queue
of positions that `Pipe` and `Mailbox` have.

* `Leads`: the calls that lead from one queue to another;
* `Pipe.pipe_in_memory`, `Mailbox.mailbox_in_memory`: in every state of every run, the queue
  is what a queue in memory shows that got the same calls, and the memory that is allocated
  is in proportion to what was not read yet.
-/

namespace Fsync.Zmq

open Memory

namespace Ypipe

variable {α : Type} {q q' q'' : Ypipe α} {found found' found'' : Bool}

/-- Calls lead from one queue to another, with the writer inside `flush` or not. -/
def Leads (q : Ypipe α) (found : Bool) (q' : Ypipe α) (found' : Bool) : Prop :=
  ∃ calls, ∀ answers, ∃ answers',
    Run.exec step ⟨q, found, answers⟩ calls = some ⟨q', found', answers'⟩

namespace Leads

theorem refl : Leads q found q found := ⟨[], fun answers => ⟨answers, rfl⟩⟩

theorem trans (h : Leads q found q' found') (h' : Leads q' found' q'' found'') :
    Leads q found q'' found'' := by
  obtain ⟨calls, hcalls⟩ := h
  obtain ⟨calls', hcalls'⟩ := h'
  refine ⟨calls ++ calls', fun answers => ?_⟩
  obtain ⟨answers', hrun⟩ := hcalls answers
  rw [Run.exec_append, hrun]
  exact hcalls' answers'

theorem of_call {c : Call α} {answer : Answer α} (hallowed : c.allowed found = true)
    (h : q.call c = some (answer, q')) : Leads q found q' (c.inFlush found answer) := by
  refine ⟨[c], fun answers => ⟨answers ++ [answer], ?_⟩⟩
  rw [Run.exec_cons, step, Line.answer, if_pos hallowed, h]
  rfl

theorem write (value : α) (incomplete : Bool) : Leads q false (q.write value incomplete) false :=
  of_call (c := .write value incomplete) rfl rfl

theorem unwrite {value : α} (h : q.unwrite = some (value, q')) : Leads q false q' false :=
  of_call (c := .unwrite) rfl (by rw [call, h])

theorem tryFlush : Leads q false q.tryFlush.2 (!q.tryFlush.1) := of_call (c := .tryFlush) rfl rfl

theorem setFlushed : Leads q true q.setFlushed false := of_call (c := .setFlushed) rfl rfl

theorem checkRead : Leads q found q.checkRead.2 found := of_call (c := .checkRead) rfl rfl

theorem read : Leads q found q.read.2 found := of_call (c := .read) rfl rfl

theorem probe {fn : α → Bool} {b : Bool} (h : q.probe fn = some (b, q')) :
    Leads q found q' found :=
  of_call (c := .probe fn) rfl (by rw [call, h, Option.map_some])

end Leads

/-- There are calls such that a queue in memory that gets them shows this one, for chunks of
any size and whatever memory `malloc` finds. -/
def InMemory.Held (q : Ypipe α) : Prop :=
  ∃ calls : List (Call α), ∀ (N : ℕ+) (a b : Allocator (Values α))
    (cs : List (Call α × Allocator (Values α))), cs.map Prod.fst = calls →
    ∃ m s addr, InMemory.start N a b = some m ∧
      Run.exec (InMemory.step N) (Line.start m) cs = some s ∧ InMemory.Shows N addr s.pipe q ∧
      s.pipe.queue.memory.keys.card ≤ (q.items.length + 1 - q.front) / N + 3

theorem Leads.held (h : Leads start false q found) : InMemory.Held q := by
  obtain ⟨calls, hcalls⟩ := h
  obtain ⟨answers, hrun⟩ := hcalls []
  refine ⟨calls, fun N a b cs hcs => ?_⟩
  obtain ⟨m, s, hm, hs, hsame⟩ := InMemory.exists_alike N a b cs (t := ⟨q, found, answers⟩)
    (hcs ▸ hrun : Run.exec step (Line.start start) (cs.map Prod.fst) = _)
  obtain ⟨addr, hshows⟩ := hsame.shows
  exact ⟨m, s, addr, hm, hs, hshows, hshows.lies.card_le N.pos⟩

/-- Where each step of a component leads from its queue to the next one, every queue of a
run is held. -/
theorem along_held {σ β : Type*} {step : σ → β → Option σ} (queue : σ → Ypipe α)
    (found : σ → Bool) {s₀ : σ} (h₀ : Leads Ypipe.start false (queue s₀) (found s₀))
    (hstep : ∀ s b s', step s b = some s' → Leads (queue s) (found s) (queue s') (found s'))
    (bs : List β) : Run.Along step (fun s => InMemory.Held (queue s)) s₀ bs :=
  (Run.along_of_inv (I := fun s => Leads Ypipe.start false (queue s) (found s))
    (fun s b s' h hs => h.trans (hstep s b s' hs)) h₀).mono fun _ => Leads.held

end Ypipe

/-! ## The ends of a pipe -/

namespace Pipe

open Ypipe (Leads)

variable {s s' : Pipe}

/-- The writer is inside `flush`. -/
def found (s : Pipe) : Bool := decide (s.flushing = .found)

theorem leads_rollback {count : ℕ} {q q' : Ypipe Item} (h : rollback count q = some q') :
    Leads q false q' false := by
  induction count generalizing q with
  | zero => exact Option.some.inj h ▸ Leads.refl
  | succ count ih =>
    rw [rollback] at h
    split at h
    · exact Option.some.inj h ▸ Leads.refl
    · rename_i item queue hu
      split at h
      · exact (Leads.unwrite hu).trans (ih h)
      · cases h

theorem found_of_free (h : s.WriterFree) : s.found = false := by
  rw [found, h.2]
  rfl

theorem leads_flush (hidle : s.flushing = .idle) :
    Leads s.queue false s.flush.queue s.flush.found := by
  have hflush : Leads s.queue false s.queue.tryFlush.2 (!s.queue.tryFlush.1) := Leads.tryFlush
  rw [flush]
  cases hq : s.queue.tryFlush with
  | mk b queue =>
    rw [hq] at hflush
    cases b with
    | true => simpa [found, hidle] using hflush
    | false => simpa [found] using hflush

theorem leads_terminate (hfree : s.WriterFree) (h : s.terminate = some s') :
    Leads s.queue false s'.queue s'.found := by
  rw [terminate] at h
  split at h
  · obtain rfl := Option.some.inj h
    rw [found_of_free hfree]
    exact Leads.refl
  · obtain ⟨queue, hroll, rfl⟩ := Option.map_eq_some_iff.1 h
    have hpush : Leads queue false (queue.write .delimiter false) false := Leads.write _ _
    exact ((leads_rollback hroll).trans hpush).trans
      (leads_flush (s := ({ s with queue := queue } : Pipe).pushDelimiter) hfree.2)

theorem leads_readerTerminate :
    Leads s.queue s.found s.readerTerminate.queue s.readerTerminate.found := by
  rw [readerTerminate]
  split <;> exact Leads.refl

theorem leads_read : Leads s.queue s.found s.read.2.queue s.read.2.found := by
  have hread : Leads s.queue s.found s.queue.read.2 s.found := Leads.read
  rw [Pipe.read]
  split
  · cases hq : s.queue.read with
    | mk item queue =>
      rw [hq] at hread
      cases item with
      | none => exact hread
      | some item =>
        cases item with
        | part m => exact hread
        | delimiter => exact hread.trans (leads_readerTerminate (s := { s with queue := queue }))
  · exact Leads.refl

theorem leads_checkRead {b : Bool} (h : s.checkRead = some (b, s')) :
    Leads s.queue s.found s'.queue s'.found := by
  have hcheck : Leads s.queue s.found s.queue.checkRead.2 s.found := Leads.checkRead
  rw [Pipe.checkRead] at h
  split at h
  · cases hq : s.queue.checkRead with
    | mk ready queue =>
      rw [hq] at h hcheck
      cases ready with
      | false =>
        obtain ⟨-, rfl⟩ := Prod.mk.inj (Option.some.inj h)
        exact hcheck
      | true =>
        simp only at h
        split at h
        · cases h
        · rename_i queue' hp
          obtain ⟨-, rfl⟩ := Prod.mk.inj (Option.some.inj h)
          exact hcheck.trans (Leads.probe hp)
        · rename_i queue' hp
          have hread : Leads queue' s.found queue'.read.2 s.found := Leads.read
          split at h
          · cases h
          · rename_i item queue'' hr
            rw [hr] at hread
            obtain ⟨-, rfl⟩ := Prod.mk.inj (Option.some.inj h)
            have hend := leads_readerTerminate (s := { s with queue := queue'' })
            exact ((hcheck.trans (Leads.probe hp)).trans hread).trans hend
  · obtain ⟨-, rfl⟩ := Prod.mk.inj (Option.some.inj h)
    exact Leads.refl

/-- A step of one of the threads calls the queue. -/
theorem leads_step {a : Action} (h : step s a = some s') :
    Leads s.queue s.found s'.queue s'.found := by
  cases a with
  | write m =>
    rw [step] at h
    obtain ⟨hfree, hs⟩ := Option.ite_none_right_eq_some.1 h
    obtain rfl := Option.some.inj hs
    rw [found_of_free hfree, Pipe.write]
    split
    · show Leads s.queue false (s.queue.write (.part m) m.more) s.found
      rw [found_of_free hfree]
      exact Leads.write _ _
    · rw [found_of_free hfree]
      exact Leads.refl
  | rollback =>
    rw [step] at h
    obtain ⟨hfree, hs⟩ := Option.ite_none_right_eq_some.1 h
    obtain ⟨queue, hroll, rfl⟩ := Option.map_eq_some_iff.1 hs
    show Leads s.queue s.found queue s.found
    rw [found_of_free hfree]
    exact leads_rollback hroll
  | flush =>
    rw [step] at h
    obtain ⟨hfree, hs⟩ := Option.ite_none_right_eq_some.1 h
    obtain rfl := Option.some.inj hs
    rw [found_of_free hfree]
    exact leads_flush hfree.2
  | setFlushed =>
    rw [step] at h
    obtain ⟨hf, hs⟩ := Option.ite_none_right_eq_some.1 h
    obtain rfl := Option.some.inj hs
    have hfound : s.found = true := decide_eq_true hf
    rw [hfound]
    exact Leads.setFlushed
  | sendActivate =>
    rw [step] at h
    obtain ⟨hf, hs⟩ := Option.ite_none_right_eq_some.1 h
    obtain rfl := Option.some.inj hs
    have hfound : s.found = false := by simp [found, hf]
    rw [hfound]
    exact Leads.refl
  | terminate =>
    rw [step] at h
    obtain ⟨hfree, hs⟩ := Option.ite_none_right_eq_some.1 h
    rw [found_of_free hfree]
    exact leads_terminate hfree hs
  | processPipeTerm =>
    rw [step, processPipeTerm] at h
    obtain ⟨-, hs⟩ := Option.ite_none_right_eq_some.1 h
    obtain ⟨-, ht⟩ := Option.ite_none_left_eq_some.1 hs
    exact Option.some.inj ht ▸ Leads.refl
  | read =>
    rw [step] at h
    obtain ⟨-, hs⟩ := Option.ite_none_left_eq_some.1 h
    exact Option.some.inj hs ▸ leads_read
  | checkRead =>
    rw [step] at h
    obtain ⟨-, hs⟩ := Option.ite_none_left_eq_some.1 h
    obtain ⟨⟨b, t⟩, hcheck, rfl⟩ := Option.map_eq_some_iff.1 hs
    exact leads_checkRead hcheck
  | readerTerminate =>
    rw [step] at h
    obtain ⟨-, hs⟩ := Option.ite_none_left_eq_some.1 h
    exact Option.some.inj hs ▸ leads_readerTerminate
  | command =>
    rw [step, command] at h
    obtain ⟨-, hs⟩ := Option.ite_none_left_eq_some.1 h
    split at hs
    · cases hs
    · exact Option.some.inj hs ▸ Leads.refl
    · exact Option.some.inj hs ▸ Leads.refl

/-- **A pipe between two threads, in memory.** -/
theorem pipe_in_memory (actions : List Action) :
    Run.Along step (fun s => Ypipe.InMemory.Held s.queue) start actions :=
  Ypipe.along_held Pipe.queue found Leads.refl (fun _ _ _ h => leads_step h) actions

end Pipe

/-! ## A mailbox -/

namespace Mailbox

open Ypipe (Leads)

variable {κ : Type} {s s' : Mailbox κ}

theorem leads_send (hl : s.locked = false) (cmd : κ) :
    Leads s.cpipe false (s.send cmd).cpipe (s.send cmd).locked := by
  have hwrite : Leads s.cpipe false (s.cpipe.write cmd false) false := Leads.write _ _
  have hflush := Leads.tryFlush (q := s.cpipe.write cmd false)
  rw [send]
  cases hq : (s.cpipe.write cmd false).tryFlush with
  | mk b cpipe =>
    rw [hq] at hflush
    cases b with
    | true =>
      show Leads s.cpipe false cpipe s.locked
      rw [hl]
      exact hwrite.trans hflush
    | false => exact hwrite.trans hflush

theorem leads_recv (h : s.recv = some s') : Leads s.cpipe s.locked s'.cpipe s'.locked := by
  have hread : Leads s.cpipe s.locked s.cpipe.read.2 s.locked := Leads.read
  rw [recv] at h
  split at h
  · rw [wait] at h
    split at h
    · exact Option.some.inj h ▸ Leads.refl
    · split at h
      · rename_i cmd cpipe hq
        rw [hq] at hread
        exact Option.some.inj h ▸ hread
      · cases h
  · obtain rfl := Option.some.inj h
    rw [tryRecv]
    split
    · rename_i cmd cpipe hq
      rw [hq] at hread
      exact hread
    · rename_i cpipe hq
      rw [hq] at hread
      exact hread
  · rw [drain] at h
    obtain ⟨-, hs⟩ := Option.ite_none_left_eq_some.1 h
    exact Option.some.inj hs ▸ Leads.refl

theorem leads_step {a : Action κ} (h : step s a = some s') :
    Leads s.cpipe s.locked s'.cpipe s'.locked := by
  cases a with
  | send cmd =>
    rw [step] at h
    obtain ⟨hl, hs⟩ := Option.ite_none_left_eq_some.1 h
    obtain rfl := Option.some.inj hs
    have hfree : s.locked = false := Bool.eq_false_iff.2 hl
    have hsend := leads_send hfree cmd
    rwa [← hfree] at hsend
  | setFlushed =>
    rw [step] at h
    obtain ⟨hl, hs⟩ := Option.ite_none_right_eq_some.1 h
    obtain rfl := Option.some.inj hs
    rw [hl]
    exact Leads.setFlushed
  | signal =>
    rw [step] at h
    obtain ⟨-, hs⟩ := Option.ite_none_left_eq_some.1 h
    exact Option.some.inj hs ▸ Leads.refl
  | recv => exact leads_recv h

/-- **A mailbox, in memory.** -/
theorem mailbox_in_memory (κ : Type) (actions : List (Action κ)) :
    Run.Along step (fun s => Ypipe.InMemory.Held s.cpipe) start actions :=
  Ypipe.along_held Mailbox.cpipe Mailbox.locked Leads.read (fun _ _ _ h => leads_step h) actions

end Mailbox

end Fsync.Zmq
