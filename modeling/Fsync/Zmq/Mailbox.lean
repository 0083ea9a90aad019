import Fsync.Base.Run
import Fsync.Zmq.Ypipe

/-!
# Commands between threads

Commands to a thread go into its mailbox, and the ends of a pipe rely on that they come out
in order, each once.  `mailbox_t` is a queue without a lock and a `signaler_t`, a socket in
which a byte says that the thread has to be woken.  Any number of threads send: a mutex lets
one of them at a time to the queue, but the byte is sent behind the mutex.

A step is what one thread does up to its next use of the shared pointer, of the mutex or of
the signaler.  A wait that is interrupted or takes too long changes nothing.

* `mailbox_safe`: in every state of every run the commands come out as they went in, no
  assertion fails, there are never more than two bytes under way, and a receiver that is
  passive while there is a command is being woken;
* `received_append_pending`: what was sent was received or is still to come, in its order;
* `mailbox_arrives`: no command is lost.
-/

namespace Fsync.Zmq

/-- Where the receiver is. -/
inductive Receiving where
  /-- It waits for a byte: `active` is false. -/
  | passive
  | active
  /-- It found no command, and has still to take the byte. -/
  | draining
  deriving DecidableEq, Repr

/-- A mailbox: its pipe of commands, its receiver, its senders, and the bytes that wake. -/
structure Mailbox (κ : Type) where
  cpipe : Ypipe κ
  receiving : Receiving
  /-- The mutex is held by a thread whose compare-and-swap found `NULL`. -/
  locked : Bool
  /-- How many threads have still to send a byte. -/
  owed : ℕ
  /-- How many bytes are in the socket. -/
  signals : ℕ
  /-- What `recv` returned. -/
  received : List κ
  deriving DecidableEq, Repr

namespace Mailbox

variable {κ : Type}

/-- "Get the pipe into passive state." -/
def start : Mailbox κ := ⟨(Ypipe.start : Ypipe κ).read.2, .passive, false, 0, 0, []⟩

/-! ## `mailbox_t::send` -/

/-- The part that needs the mutex, up to the compare-and-swap. -/
def send (cmd : κ) (s : Mailbox κ) : Mailbox κ :=
  match (s.cpipe.write cmd false).tryFlush with
  | (true, cpipe) => { s with cpipe := cpipe }
  | (false, cpipe) => { s with cpipe := cpipe, locked := true }

/-- `c.set`, and the mutex is unlocked. -/
def setFlushed (s : Mailbox κ) : Mailbox κ :=
  { s with cpipe := s.cpipe.setFlushed, locked := false, owed := s.owed + 1 }

/-- `signaler_t::send` -/
def signal (s : Mailbox κ) : Mailbox κ :=
  { s with owed := s.owed - 1, signals := s.signals + 1 }

/-! ## `mailbox_t::recv` -/

/-- "Try to get the command straight away." -/
def tryRecv (s : Mailbox κ) : Mailbox κ :=
  match s.cpipe.read with
  | (some cmd, cpipe) => { s with cpipe := cpipe, received := s.received ++ [cmd] }
  | (none, cpipe) => { s with cpipe := cpipe, receiving := .draining }

/-- `signaler_t::recv`; none where an assertion fails. -/
def drain (s : Mailbox κ) : Option (Mailbox κ) :=
  if s.signals = 0 then none
  else some { s with signals := s.signals - 1, receiving := .passive }

/-- "Wait for signal from the command sender", and get the command; none where an assertion
fails. -/
def wait (s : Mailbox κ) : Option (Mailbox κ) :=
  if s.signals = 0 then some s
  else
    match s.cpipe.read with
    | (some cmd, cpipe) => some { s with
        cpipe := cpipe, receiving := .active, received := s.received ++ [cmd] }
    | (none, _) => none

/-- `mailbox_t::recv`, as far as it comes without another thread. -/
def recv (s : Mailbox κ) : Option (Mailbox κ) :=
  match s.receiving with
  | .passive => s.wait
  | .active => some s.tryRecv
  | .draining => s.drain

/-! ## Steps -/

/-- The steps of the senders and of the receiver. -/
inductive Action (κ : Type) where
  | send (cmd : κ)
  | setFlushed
  | signal
  | recv
  deriving DecidableEq, Repr

/-- A step of one of the threads. -/
def step (s : Mailbox κ) : Action κ → Option (Mailbox κ)
  | .send cmd => if s.locked then none else some (s.send cmd)
  | .setFlushed => if s.locked then some s.setFlushed else none
  | .signal => if s.owed = 0 then none else some s.signal
  | .recv => s.recv

/-! ## Bytes and commands -/

/-- Where the receiver is, whether `c` is `NULL`, and the bytes. -/
inductive Phase (s : Mailbox κ) : Prop where
  | asleep (hr : s.receiving = .passive) (hc : s.cpipe.c = none) (hs : s.signals = 0)
      (ho : s.owed = 0)
  /-- A byte is there or under way. -/
  | woken (hr : s.receiving = .passive) (hc : s.cpipe.c = some s.cpipe.w)
      (hlt : s.cpipe.front < s.cpipe.w) (hone : s.signals + s.owed = 1)
  /-- The byte that woke the receiver is still there. -/
  | awake (hr : s.receiving = .active) (hc : s.cpipe.c = some s.cpipe.w) (hs : s.signals = 1)
      (ho : s.owed = 0)
  | drowsy (hr : s.receiving = .draining) (hc : s.cpipe.c = none) (hs : s.signals = 1)
      (ho : s.owed = 0)
  /-- It is woken again before it took the byte. -/
  | overtaken (hr : s.receiving = .draining) (hc : s.cpipe.c = some s.cpipe.w)
      (hlt : s.cpipe.front < s.cpipe.w) (hs : 0 < s.signals) (htwo : s.signals + s.owed = 2)

/-- What holds in every state. -/
structure Inv (s : Mailbox κ) : Prop where
  ok : s.cpipe.Ok
  complete : s.cpipe.f = s.cpipe.items.length
  received : s.received = s.cpipe.items.take s.cpipe.front
  /-- What was put into the queue is flushed, or being flushed. -/
  unlocked : s.locked = false → s.cpipe.w = s.cpipe.f
  locked : s.locked = true → s.cpipe.c = none ∧ s.cpipe.w < s.cpipe.f
  phase : s.Phase

theorem inv_start : (start : Mailbox κ).Inv := by
  have hread := (Ypipe.ok_start (α := κ)).read_empty rfl
  have hok := (Ypipe.ok_start (α := κ)).sleep rfl
  rw [start, hread]
  exact ⟨hok, rfl, rfl, fun _ => rfl, fun h => absurd h Bool.false_ne_true, .asleep rfl rfl rfl rfl⟩

variable {s s' : Mailbox κ}

/-! ### Senders -/

theorem Inv.send (h : s.Inv) (hl : s.locked = false) (cmd : κ) : (s.send cmd).Inv := by
  have hok := h.ok.write cmd false
  have hw : s.cpipe.w = s.cpipe.items.length := (h.unlocked hl).trans h.complete
  have hfront : s.cpipe.front ≤ s.cpipe.items.length := hw ▸ h.ok.front
  have hlen : (s.cpipe.items ++ [cmd]).length = s.cpipe.w + 1 := by simp [hw]
  have hreceived : s.received = (s.cpipe.items ++ [cmd]).take s.cpipe.front := by
    rw [List.take_append_of_le_length hfront]
    exact h.received
  have hawake : s.cpipe.c = some s.cpipe.w → s.send cmd = { s with
      cpipe := { s.cpipe.write cmd false with
        c := some (s.cpipe.write cmd false).f, w := (s.cpipe.write cmd false).f } } := by
    intro hc
    rw [Mailbox.send, Ypipe.tryFlush_awake (y := s.cpipe.write cmd false) hc]
  have hasleep : s.cpipe.c = none → s.send cmd = { s with
      cpipe := s.cpipe.write cmd false, locked := true } := by
    intro hc
    have hne : ¬ (s.cpipe.write cmd false).w = (s.cpipe.write cmd false).f := by
      show ¬ s.cpipe.w = (s.cpipe.items ++ [cmd]).length
      omega
    rw [Mailbox.send, Ypipe.tryFlush_asleep (y := s.cpipe.write cmd false) hc,
      decide_eq_false hne]
  have hgrown : s.cpipe.front < s.cpipe.w → s.cpipe.front < (s.cpipe.items ++ [cmd]).length := by
    omega
  rcases h.ok.c with hc | hc
  · have hphase : (s.send cmd).Phase := by
      rw [hasleep hc]
      cases h.phase with
      | asleep hr _ hs ho => exact .asleep hr hc hs ho
      | drowsy hr _ hs ho => exact .drowsy hr hc hs ho
      | woken _ hc' | awake _ hc' | overtaken _ hc' => exact absurd (hc.symm.trans hc') (by simp)
    rw [hasleep hc] at hphase ⊢
    refine ⟨hok, rfl, hreceived, fun h => absurd h (by simp), fun _ => ⟨hc, ?_⟩, hphase⟩
    show s.cpipe.w < (s.cpipe.items ++ [cmd]).length
    omega
  · have hphase : (s.send cmd).Phase := by
      rw [hawake hc]
      cases h.phase with
      | woken hr _ hlt hone => exact .woken hr rfl (hgrown hlt) hone
      | awake hr _ hs ho => exact .awake hr rfl hs ho
      | overtaken hr _ hlt hs htwo => exact .overtaken hr rfl (hgrown hlt) hs htwo
      | asleep _ hc' | drowsy _ hc' => exact absurd (hc.symm.trans hc') (by simp)
    rw [hawake hc] at hphase ⊢
    exact ⟨hok.flush, rfl, hreceived, fun _ => rfl, fun h => absurd (hl.symm.trans h) (by simp),
      hphase⟩

theorem Inv.setFlushed (h : s.Inv) (hl : s.locked = true) : s.setFlushed.Inv := by
  obtain ⟨hc, hlt⟩ := h.locked hl
  have hfront : s.cpipe.front < s.cpipe.f := h.ok.asleep hc ▸ hlt
  have hphase : s.setFlushed.Phase := by
    cases h.phase with
    | asleep hr _ hs ho => exact .woken hr rfl hfront (by simp [Mailbox.setFlushed, hs, ho])
    | drowsy hr _ hs ho =>
      exact .overtaken hr rfl hfront (by simp [Mailbox.setFlushed, hs])
        (by simp [Mailbox.setFlushed, hs, ho])
    | woken _ hc' | awake _ hc' | overtaken _ hc' => exact absurd (hc.symm.trans hc') (by simp)
  exact ⟨h.ok.flush, h.complete, h.received, fun _ => rfl, fun h => absurd h Bool.false_ne_true,
    hphase⟩

theorem Inv.signal (h : s.Inv) (howed : s.owed ≠ 0) : s.signal.Inv := by
  have hsum : s.signals + 1 + (s.owed - 1) = s.signals + s.owed := by omega
  refine ⟨h.ok, h.complete, h.received, h.unlocked, h.locked, ?_⟩
  cases h.phase with
  | woken hr hc hlt hone => exact .woken hr hc hlt (hsum.trans hone)
  | overtaken hr hc hlt hs htwo =>
    exact .overtaken hr hc hlt (Nat.succ_pos _) (hsum.trans htwo)
  | asleep _ _ _ ho | awake _ _ _ ho | drowsy _ _ _ ho => exact absurd ho howed

/-! ### The receiver -/

/-- Another command is received. -/
theorem Inv.take (h : s.Inv) {p : ℕ} (hp : s.cpipe.front < p) (hpw : p ≤ s.cpipe.w)
    (hc : s.cpipe.c = some s.cpipe.w) {cmd : κ} (hcmd : s.cpipe.items[s.cpipe.front]? = some cmd)
    (hs : s.signals = 1) (ho : s.owed = 0) :
    Inv { s with
      cpipe := { s.cpipe with r := some p, front := s.cpipe.front + 1 }
      receiving := .active
      received := s.received ++ [cmd] } := by
  have hne : s.cpipe.c ≠ none := by simp [hc]
  refine ⟨h.ok.take hp hpw hne, h.complete, ?_, h.unlocked, h.locked, .awake rfl hc hs ho⟩
  show s.received ++ [cmd] = s.cpipe.items.take (s.cpipe.front + 1)
  rw [List.take_add_one, hcmd, h.received]
  rfl

/-- A receiver that is awake gets the next command. -/
theorem Inv.tryRecv_unread (h : s.Inv) (hr : s.receiving = .active)
    (hc : s.cpipe.c = some s.cpipe.w) (hlt : s.cpipe.front < s.cpipe.w) (hs : s.signals = 1)
    (ho : s.owed = 0) : s.tryRecv.Inv ∧ s.tryRecv.receiving = .active ∧
      s.tryRecv.cpipe.items = s.cpipe.items ∧ s.tryRecv.cpipe.w = s.cpipe.w ∧
      s.tryRecv.cpipe.front = s.cpipe.front + 1 ∧ s.tryRecv.locked = s.locked := by
  obtain ⟨p, hp, hpw, hread⟩ := h.ok.read_unread hc hlt
  obtain ⟨cmd, hcmd⟩ := h.ok.exists_front hlt
  have heq : s.tryRecv = { s with
      cpipe := { s.cpipe with r := some p, front := s.cpipe.front + 1 }
      receiving := .active
      received := s.received ++ [cmd] } := by
    rw [tryRecv, hread, hcmd, ← hr]
  rw [heq]
  exact ⟨h.take hp hpw hc hcmd hs ho, rfl, rfl, rfl, rfl, rfl⟩

/-- If there is none, the receiver goes to sleep. -/
theorem Inv.tryRecv_empty (h : s.Inv) (hc : s.cpipe.c = some s.cpipe.w)
    (heq : s.cpipe.front = s.cpipe.w) (hs : s.signals = 1) (ho : s.owed = 0) :
    s.tryRecv.Inv := by
  have hl : s.locked = false := by
    rw [← Bool.not_eq_true]
    intro hl
    exact absurd ((h.locked hl).1.symm.trans hc) (by simp)
  rw [tryRecv, h.ok.read_empty heq]
  exact ⟨h.ok.sleep heq, h.complete, h.received, h.unlocked,
    fun hl' => absurd (hl.symm.trans hl') Bool.false_ne_true, .drowsy rfl rfl hs ho⟩

/-- The byte wakes the receiver, and there is a command. -/
theorem Inv.wait_woken (h : s.Inv) (hc : s.cpipe.c = some s.cpipe.w)
    (hlt : s.cpipe.front < s.cpipe.w) (hs : s.signals = 1) (ho : s.owed = 0) :
    ∃ t, s.wait = some t ∧ t.Inv ∧ t.receiving = .active ∧ t.cpipe.items = s.cpipe.items ∧
      t.locked = s.locked := by
  obtain ⟨p, hp, hpw, hread⟩ := h.ok.read_unread hc hlt
  obtain ⟨cmd, hcmd⟩ := h.ok.exists_front hlt
  refine ⟨_, ?_, h.take hp hpw hc hcmd hs ho, rfl, rfl, rfl⟩
  rw [wait, hs, if_neg Nat.one_ne_zero, hread, hcmd]

/-- What is left when the byte was taken. -/
theorem Inv.drain (h : s.Inv) (hr : s.receiving = .draining) :
    ∃ t, s.drain = some t ∧ t.Inv ∧ t.cpipe = s.cpipe ∧ t.locked = s.locked := by
  have hpos : s.signals ≠ 0 := by
    cases h.phase with
    | drowsy _ _ hs => omega
    | overtaken _ _ _ hs => omega
    | asleep hr' | woken hr' | awake hr' => exact absurd (hr.symm.trans hr') (by simp)
  refine ⟨{ s with signals := s.signals - 1, receiving := .passive }, ?_, ?_, rfl, rfl⟩
  · rw [Mailbox.drain, if_neg hpos]
  · refine ⟨h.ok, h.complete, h.received, h.unlocked, h.locked, ?_⟩
    cases h.phase with
    | drowsy _ hc hs ho => exact .asleep rfl hc (show s.signals - 1 = 0 by omega) ho
    | overtaken _ hc hlt hs htwo =>
      exact .woken rfl hc hlt (show s.signals - 1 + s.owed = 1 by omega)
    | asleep hr' | woken hr' | awake hr' => exact absurd (hr.symm.trans hr') (by simp)

/-- No assertion of `recv` fails. -/
theorem Inv.recv (h : s.Inv) : ∃ t, s.recv = some t ∧ t.Inv := by
  rw [Mailbox.recv]
  cases h.phase with
  | asleep hr _ hs =>
    rw [hr]
    exact ⟨s, by simp only [wait, hs, if_pos], h⟩
  | woken hr hc hlt hone =>
    rw [hr]
    by_cases hs : s.signals = 0
    · exact ⟨s, by simp only [wait, hs, if_pos], h⟩
    · obtain ⟨t, ht, hinv, -⟩ := h.wait_woken hc hlt (by omega) (by omega)
      exact ⟨t, ht, hinv⟩
  | awake hr hc hs ho =>
    rw [hr]
    rcases Nat.lt_or_eq_of_le h.ok.front with hlt | heq
    · exact ⟨_, rfl, (h.tryRecv_unread hr hc hlt hs ho).1⟩
    · exact ⟨_, rfl, h.tryRecv_empty hc heq hs ho⟩
  | drowsy hr | overtaken hr =>
    rw [hr]
    obtain ⟨t, ht, hinv, -⟩ := h.drain hr
    exact ⟨t, ht, hinv⟩

theorem inv_step {a : Action κ} (h : s.Inv) (hs : step s a = some s') : s'.Inv := by
  cases a with
  | send cmd =>
    rw [step] at hs
    split at hs
    · cases hs
    · rename_i hl
      obtain rfl := Option.some.inj hs
      exact h.send (Bool.eq_false_iff.2 hl) cmd
  | setFlushed =>
    rw [step] at hs
    split at hs
    · rename_i hl
      obtain rfl := Option.some.inj hs
      exact h.setFlushed hl
    · cases hs
  | signal =>
    rw [step] at hs
    split at hs
    · cases hs
    · rename_i howed
      obtain rfl := Option.some.inj hs
      exact h.signal howed
  | recv =>
    obtain ⟨t, ht, hinv⟩ := h.recv
    obtain rfl := Option.some.inj (ht.symm.trans hs)
    exact hinv

/-! ## Results -/

/-- What a user of the mailbox relies on. -/
structure Safe (s : Mailbox κ) : Prop where
  /-- The commands come out in order, each once. -/
  received : s.received <+: s.cpipe.items
  /-- No assertion fails. -/
  recv : s.recv ≠ none
  /-- The socket has room for the bytes. -/
  signals : s.signals + s.owed ≤ 2
  /-- A receiver that waits although there is a command is being woken: there is a byte, or
  a sender is about to send one. -/
  woken : s.receiving = .passive → s.received ≠ s.cpipe.items →
    s.locked = true ∨ 0 < s.owed ∨ 0 < s.signals

/-- The commands that are sent, in the order in which their threads get the mutex. -/
def sentBy (actions : List (Action κ)) : List κ :=
  actions.filterMap fun
    | .send cmd => some cmd
    | _ => none

/-- What was sent, and not received yet. -/
def pending (s : Mailbox κ) : List κ := s.cpipe.items.drop s.cpipe.front

theorem recv_items (h : s.recv = some s') : s'.cpipe.items = s.cpipe.items := by
  have hread : s.cpipe.read.2.items = s.cpipe.items := Ypipe.read_items _
  rw [Mailbox.recv] at h
  split at h
  · rw [wait] at h
    split at h
    · rw [Option.some.inj h]
    · split at h
      · rename_i hq
        rw [hq] at hread
        exact Option.some.inj h ▸ hread
      · cases h
  · rw [← Option.some.inj h, tryRecv]
    split <;> rename_i hq <;> rw [hq] at hread <;> exact hread
  · rw [Mailbox.drain] at h
    split at h
    · cases h
    · exact Option.some.inj h ▸ rfl

theorem send_items (cmd : κ) : (s.send cmd).cpipe.items = s.cpipe.items ++ [cmd] := by
  have hflush : (s.cpipe.write cmd false).tryFlush.2.items = s.cpipe.items ++ [cmd] := by
    have hcas := (s.cpipe.write cmd false).cas_items (some (s.cpipe.write cmd false).w)
      (some (s.cpipe.write cmd false).f)
    rw [Ypipe.tryFlush]
    split
    · rfl
    · split
      rename_i hold
      rw [hold] at hcas
      split <;> exact hcas
  rw [Mailbox.send]
  split <;> rename_i hq <;> rw [hq] at hflush <;> exact hflush

/-- What is put into the queue is what is sent. -/
theorem exec_items {actions : List (Action κ)} (h : Run.exec step s actions = some s') :
    s'.cpipe.items = s.cpipe.items ++ sentBy actions := by
  induction actions generalizing s with
  | nil =>
    obtain rfl := Option.some.inj h
    exact (List.append_nil _).symm
  | cons a actions ih =>
    obtain ⟨t, ht, hrest⟩ := Option.bind_eq_some_iff.1 h
    rw [ih hrest]
    cases a with
    | send cmd =>
      rw [step] at ht
      split at ht
      · cases ht
      · rw [← Option.some.inj ht, send_items, List.append_assoc]
        rfl
    | setFlushed =>
      rw [step] at ht
      split at ht
      · exact Option.some.inj ht ▸ rfl
      · cases ht
    | signal =>
      rw [step] at ht
      split at ht
      · cases ht
      · exact Option.some.inj ht ▸ rfl
    | recv =>
      rw [recv_items ht]
      rfl

/-- What is in the queue was received if it is empty. -/
theorem Inv.received_all (h : s.Inv) (hl : s.locked = false) (heq : s.cpipe.front = s.cpipe.w) :
    s.received = s.cpipe.items := by
  rw [h.received, heq, h.unlocked hl, h.complete, List.take_length]

theorem Inv.safe (h : s.Inv) : s.Safe := by
  refine ⟨?_, ?_, ?_, fun hr hne => ?_⟩
  · rw [h.received]
    exact List.take_prefix _ _
  · obtain ⟨t, ht, -⟩ := h.recv
    simp [ht]
  · cases h.phase <;> omega
  · cases hl : s.locked with
    | true => exact Or.inl rfl
    | false =>
      refine Or.inr ?_
      cases h.phase with
      | asleep _ hc => exact absurd (h.received_all hl (h.ok.asleep hc)) hne
      | woken _ _ _ hone => omega
      | awake hr' | drowsy hr' | overtaken hr' => exact absurd (hr.symm.trans hr') (by simp)

/-- **A mailbox** between any number of senders and its thread, in any order of their steps. -/
theorem mailbox_safe (κ : Type) (actions : List (Action κ)) :
    Run.Along step Safe start actions :=
  (Run.along_of_inv (fun _ _ _ h hs => inv_step h hs) inv_start).mono fun _ => Inv.safe

/-- **First in, first out.**  What was received, and what is still to come, is what was sent. -/
theorem received_append_pending {actions : List (Action κ)}
    (h : Run.exec step start actions = some s) : s.received ++ s.pending = sentBy actions := by
  have hinv : s.Inv := Run.exec_inv (fun _ _ _ h hs => inv_step h hs) inv_start h
  have hitems : s.cpipe.items = [] ++ sentBy actions := by
    rw [exec_items h, start, Ypipe.read_items]
    rfl
  rw [hinv.received, pending, List.take_append_drop, hitems, List.nil_append]

theorem received_append_pending_sample : ∃ s,
    Run.exec step start [.send 1, .setFlushed, .signal, .recv, .send 2] = some s ∧
      s.received ++ s.pending = [1, 2] := by
  obtain ⟨s, hs⟩ : ∃ s, Run.exec step (start : Mailbox ℕ)
      [.send 1, .setFlushed, .signal, .recv, .send 2] = some s := ⟨_, rfl⟩
  exact ⟨s, hs, received_append_pending hs⟩

/-- One byte does for two commands. -/
example : (Run.exec step start [.send 1, .setFlushed, .send 2, .recv, .signal, .recv, .recv,
    .recv, .recv]).map (fun s => (s.received, s.signals)) = some ([1, 2], 0) := by
  decide

/-- The steps that end what was begun. -/
def Action.Settles : Action κ → Prop
  | .send _ => False
  | .setFlushed | .signal | .recv => True

/-- What was sent is received, if the threads only go on with what they began. -/
def Arrives (s : Mailbox κ) : Prop :=
  ∃ more s', (∀ a ∈ more, a.Settles) ∧ Run.exec step s more = some s' ∧
    s'.received = s.cpipe.items

theorem Arrives.of_step {a : Action κ} (h : s'.Arrives) (hs : step s a = some s')
    (ha : a.Settles) (hitems : s'.cpipe.items = s.cpipe.items) : s.Arrives := by
  obtain ⟨more, t, hmore, hrun, hreceived⟩ := h
  refine ⟨a :: more, t, ?_, ?_, hreceived.trans hitems⟩
  · rintro b hb
    rcases List.mem_cons.1 hb with rfl | hb
    · exact ha
    · exact hmore b hb
  · rw [Run.exec_cons, hs]
    exact hrun

theorem Inv.arrives_of_empty (h : s.Inv) (hl : s.locked = false)
    (heq : s.cpipe.front = s.cpipe.w) : s.Arrives :=
  ⟨[], s, by simp, rfl, h.received_all hl heq⟩

/-- A receiver that is awake receives all there is. -/
theorem Inv.arrives_awake (h : s.Inv) (hl : s.locked = false) (hr : s.receiving = .active) :
    s.Arrives := by
  induction hn : s.cpipe.w - s.cpipe.front generalizing s with
  | zero =>
    have hfront := h.ok.front
    exact h.arrives_of_empty hl (by omega)
  | succ n ih =>
    cases h.phase with
    | awake _ hc hs ho =>
      obtain ⟨hinv, hr', hitems, hw, hfront, hl'⟩ :=
        h.tryRecv_unread hr hc (by omega) hs ho
      have hstep : step s .recv = some s.tryRecv := by rw [step, Mailbox.recv, hr]
      exact (ih hinv (hl'.trans hl) hr' (by omega)).of_step hstep trivial hitems
    | asleep hr' | woken hr' | drowsy hr' | overtaken hr' =>
      exact absurd (hr.symm.trans hr') (by simp)

theorem Inv.arrives_passive (h : s.Inv) (hl : s.locked = false) (hr : s.receiving = .passive) :
    s.Arrives := by
  have hsignalled : ∀ {t : Mailbox κ}, t.Inv → t.locked = false → t.receiving = .passive →
      t.cpipe.c = some t.cpipe.w → t.cpipe.front < t.cpipe.w → t.signals = 1 → t.owed = 0 →
      t.Arrives := by
    intro t ht hl hr hc hlt hs ho
    obtain ⟨u, hu, hinv, hr', hitems, hl'⟩ := ht.wait_woken hc hlt hs ho
    have hstep : step t .recv = some u := by rw [step, Mailbox.recv, hr, ← hu]
    exact (hinv.arrives_awake (hl'.trans hl) hr').of_step hstep trivial hitems
  cases h.phase with
  | asleep _ hc => exact h.arrives_of_empty hl (h.ok.asleep hc)
  | woken _ hc hlt hone =>
    by_cases howed : s.owed = 0
    · exact hsignalled h hl hr hc hlt (by omega) howed
    · have hstep : step s .signal = some s.signal := by rw [step, if_neg howed]
      exact (hsignalled (h.signal howed) hl hr hc hlt (show s.signals + 1 = 1 by omega)
        (show s.owed - 1 = 0 by omega)).of_step hstep trivial rfl
  | awake hr' | drowsy hr' | overtaken hr' => exact absurd (hr.symm.trans hr') (by simp)

theorem Inv.arrives_unlocked (h : s.Inv) (hl : s.locked = false) : s.Arrives := by
  cases hr : s.receiving with
  | passive => exact h.arrives_passive hl hr
  | active => exact h.arrives_awake hl hr
  | draining =>
    obtain ⟨t, ht, hinv, hcpipe, hl'⟩ := h.drain hr
    have hstep : step s .recv = some t := by rw [step, Mailbox.recv, hr, ← ht]
    have hr' : t.receiving = .passive := by
      rw [Mailbox.drain] at ht
      split at ht
      · cases ht
      · exact Option.some.inj ht ▸ rfl
    exact (hinv.arrives_passive (hl'.trans hl) hr').of_step hstep trivial (by rw [hcpipe])

theorem Inv.arrives (h : s.Inv) : s.Arrives := by
  cases hl : s.locked with
  | false => exact h.arrives_unlocked hl
  | true =>
    have hstep : step s .setFlushed = some s.setFlushed := by rw [step, if_pos hl]
    exact ((h.setFlushed hl).arrives_unlocked rfl).of_step hstep trivial rfl

/-- **No command is lost.** -/
theorem mailbox_arrives (κ : Type) (actions : List (Action κ)) :
    Run.Along step Arrives start actions :=
  (Run.along_of_inv (fun _ _ _ h hs => inv_step h hs) inv_start).mono fun _ => Inv.arrives

end Mailbox

end Fsync.Zmq
