import Mathlib.Data.List.Flatten
import Fsync.Mac.Registry
import Fsync.Zmq.Rep
import Fsync.Zmq.Req

/-!
# A client and the Mac server

A client, its `ZMQ_REQ` socket, one connection, the `ZMQ_REP` socket of the Mac server
and `poll` in its timer, in a world of other peers that come and go and may send anything
at any time.

A `poll` is two steps, as peers may come and go between them, and the threads of the app
that run pulls and editors may act: it receives and handles a request, and it replies.
Between two messages `recv` with `ZMQ_NOBLOCK` processes the
commands at hand and tries again, so a `poll` that finds nothing may be followed by
commands and another one.

* `good_step`: what a step keeps, whoever takes it;
* `exchange_agrees`: no assertion of the library fails; the app does what it would do if
  the requests were handed to it one by one; the requests of the client are read in
  order, each at most once, and those whose replies it received were handled;
* `acknowledged_registered`: where a client has the reply to a path message, the message
  was registered.
-/

namespace Fsync

open Streams Zmq

/-- `[@"OK" dataUsingEncoding: NSUTF8StringEncoding]` -/
def okMsg : Msg := Msg.init [79, 75]

/-- What comes of `ZMQSocket.recv:`. -/
inductive Received where
  /-- `nil` -/
  | nothing
  | bytes (data : Bytes)
  /-- The assertion of `zmq_msg_size` failed, on a message that was closed. -/
  | aborted

/-- `ZMQSocket.recv:` returns at `EAGAIN` only; after another error it goes on with the
message that it has closed. -/
def received : Except Errno Msg → Received
  | .ok m => .bytes m.data
  | .error .again => .nothing
  | .error .fsm => .aborted

/-! ## The client and its connection -/

/-- A client and its connection to the server. -/
structure Client where
  /-- none where an assertion failed -/
  req : Option Req
  /-- what the client sent and received -/
  asked : Assembled Msg
  answered : Assembled Msg
  /-- how many parts of its requests arrived at the server -/
  up : ℕ
  /-- the parts of the replies that the connection took from the server -/
  taken : List Msg
  /-- how many of them arrived at the client -/
  down : ℕ

/-- The next `n` parts of a stream of which `k` arrived, as they arrive. -/
def onWay (sent : List Msg) (k n : ℕ) : List Msg := ((sent.drop k).take n).map Msg.sent

namespace Client

/-- The client before its first request. -/
def start : Client := ⟨some .start, .empty, .empty, 0, [], 0⟩

/-- `zmq_send` of the client; a part that is refused changes nothing but the socket. -/
def send (msg : Msg) (q : Req) (c : Client) : Client :=
  match q.xsend msg with
  | (.ok _, q') => { c with req := some q', asked := c.asked.push Msg.more msg }
  | (.error _, q') => { c with req := some q' }

/-- `zmq_recv` of the client. -/
def recv (q : Req) (c : Client) : Client :=
  match q.xrecv with
  | none => { c with req := none }
  | some (.ok m, q') => { c with req := some q', answered := c.answered.push Msg.more m }
  | some (.error _, q') => { c with req := some q' }

/-- The command is processed that wakes the reader. -/
def activated (q : Req) (c : Client) : Option Client :=
  if q.inpipe.reader = .waking then some { c with req := some q.activated } else none

/-- The connection takes parts of replies out of a pipe of the server. -/
def take (n : ℕ) (p : OutPipe) (c : Client) : Client :=
  { c with taken := c.taken ++ (p.sent.drop c.taken.length).take n }

/-- The next parts arrive, as a whole message. -/
def deliver (n : ℕ) (q : Req) (c : Client) : Option Client :=
  let msg := onWay c.taken c.down n
  if whole Msg.more msg then
    some { c with req := some (q.deliver msg), down := c.down + msg.length }
  else none

end Client

/-! ## The whole -/

/-- The service with the app behind it, and one client. -/
structure Exchange where
  service : Service
  app : Mac.App
  /-- `poll` is behind a request and has not replied. -/
  busy : Bool
  /-- what the app did -/
  trace : List Mac.Action
  client : Client

namespace Exchange

/-- What may happen: to the service, to the app, to the client, and on the connection. -/
inductive Action where
  /-- Other peers, and the pipes of all. -/
  | socket (a : Service.Action)
  /-- `poll` receives a request and handles it; then it replies. -/
  | receive (cwd : Posix.Path) (mayCreate : Posix.Path → Bool)
  | reply
  /-- What else the app does. -/
  | app (a : Mac.Action)
  /-- The client sends or receives a part. -/
  | send (msg : Msg)
  | recv
  | activated
  /-- Parts of requests arrive at the server. -/
  | arrive (n : ℕ)
  /-- Parts of replies leave the server, and arrive at the client. -/
  | take (n : ℕ)
  | deliver (n : ℕ)

/-- Nobody is connected, and the app has just started. -/
def start (tree : Os.FileTree Bytes) : Exchange where
  service := .start
  app := Mac.awakeFromNib tree
  busy := false
  trace := []
  client := .start

/- `decode` is what `NSJSONSerialization` and `poll` read in the bytes of a request: none
where they raise, as for an array. -/
variable (identity : Bytes) (decode : Bytes → Option Mac.Request)

/-- What happens to the socket of the server from outside; the messages of the client
come over its connection only. -/
def outside (a : Service.Action) : Bool :=
  match a with
  | .recv => false
  | .send _ => false
  | .arrive peer _ => peer ≠ identity
  | _ => true

/-- `poll` up to the reply.  There is no step where the message raises. -/
def receive (cwd : Posix.Path) (mayCreate : Posix.Path → Bool) (r : Rep) (x : Exchange) :
    Option Exchange :=
  if x.busy || x.app.terminated then none
  else
    match r.xrecv with
    | none => some { x with service := x.service.recv r }
    | some (answer, _) =>
      match received answer with
      | .nothing => some { x with service := x.service.recv r }
      | .aborted => some { x with service := { x.service.recv r with rep := none } }
      | .bytes data =>
        (decode data).bind fun req =>
          (Mac.step x.app (.request cwd mayCreate req)).map fun app => { x with
            service := x.service.recv r
            app := app
            busy := true
            trace := x.trace ++ [.request cwd mayCreate req] }

/-- `poll` replies `'OK'`, unless the app has ended. -/
def reply (r : Rep) (x : Exchange) : Option Exchange :=
  if x.busy && !x.app.terminated then
    some { x with service := x.service.send okMsg r, busy := false }
  else none

/-- The request of an action of the app. -/
def request? : Mac.Action → Option Mac.Request
  | .request _ _ req => some req
  | _ => none

/-- What the main thread does, which `poll` runs on. -/
def onMainThread : Mac.Action → Bool
  | .click _ => true
  | .runQueued _ => true
  | _ => false

/-- A request is handled by `poll` only. -/
def act (a : Mac.Action) (x : Exchange) : Option Exchange :=
  if (request? a).isSome || x.busy && onMainThread a then none
  else (Mac.step x.app a).map fun app => { x with app := app, trace := x.trace ++ [a] }

/-- Parts of the client's requests reach the service. -/
def arrive (n : ℕ) (r : Rep) (q : Req) (x : Exchange) : Option Exchange :=
  let msg := onWay q.sent x.client.up n
  (x.service.arrive identity msg r).map fun service =>
    { x with service := service, client := { x.client with up := x.client.up + msg.length } }

/-- The connection takes parts of replies from the client's pipe on the service. -/
def take (n : ℕ) (r : Rep) (x : Exchange) : Option Exchange :=
  (r.outgoing.outpipes.find? fun p => p.identity = identity).map fun p =>
    { x with client := x.client.take n p }

/-- One step; there is none after an assertion failed. -/
def step (x : Exchange) (a : Action) : Option Exchange :=
  match x.service.rep, x.client.req with
  | some r, some q =>
    match a with
    | .socket a =>
      if outside identity a then
        (x.service.step a).map fun service => { x with service := service }
      else none
    | .receive cwd mayCreate => x.receive decode cwd mayCreate r
    | .reply => x.reply r
    | .app a => x.act a
    | .send msg => some { x with client := x.client.send msg q }
    | .recv => some { x with client := x.client.recv q }
    | .activated => (x.client.activated q).map fun client => { x with client := client }
    | .arrive n => x.arrive identity n r q
    | .take n => x.take identity n r
    | .deliver n => (x.client.deliver n q).map fun client => { x with client := client }
  | _, _ => none

/-- No two peers come with one identity. -/
def Fresh (x : Exchange) : Action → Prop
  | .socket a => x.service.Fresh a
  | _ => True

/-! ## The socket of the server -/

variable {identity decode}

section Log

variable {s s' : Service} {r : Rep} {log : List Entry} {stage : Service.Stage}

/-- The messages of a peer that were read to their end. -/
def messages (identity : Bytes) (s : Service) (log : List Entry) (stage : Service.Stage) :
    List (List Msg) :=
  ofKey identity (stage.history s.arrived log).returned

theorem log_isPrefix (identity : Bytes) (s : Service) (log : List Entry) (stage : Service.Stage) :
    ((ofPeer identity log).map fun e => e.backtrace ++ e.request) <+:
      messages identity s log stage := by
  rw [← ofKey_messages, messages]
  cases stage with
  | idle => exact List.prefix_refl _
  | reading peer backtrace request => exact List.prefix_refl _
  | replying peer backtrace request reply =>
    rw [Service.Stage.history, ofKey_append]
    exact List.prefix_append _ _

/-- What was read is some of what arrived. -/
theorem messages_arrived (h : s.Explains r log stage) (identity : Bytes) :
    ∃ rest, (messages identity s log stage).flatten ++ rest =
      (ofKey identity s.arrived).flatten := by
  have harrived : (stage.history s.arrived log).arrived = s.arrived := by cases stage <;> rfl
  by_cases hin : identity ∈ r.incoming.identities
  · obtain ⟨p, hp, rfl⟩ := List.mem_map.1 hin
    have hw := h.reads.waiting p hp
    rw [harrived, History.read, List.append_assoc, List.append_assoc] at hw
    exact ⟨_, hw.symm⟩
  · have hg := h.reads.gone identity hin
    rw [harrived, History.read] at hg
    exact ⟨_, hg.symm⟩

theorem whole_messages (h : s.Explains r log stage) (identity : Bytes) :
    ∀ m ∈ messages identity s log stage, whole Msg.more m = true := by
  intro m hm
  obtain ⟨e, he, rfl⟩ := List.mem_map.1 hm
  exact h.reads.whole e (List.mem_filter.1 he).1

theorem sent_eq_answers (h : s.Explains r log stage) {p : OutPipe}
    (hp : p ∈ r.outgoing.outpipes) : p.sent = answers log p.identity := by
  have hsending : ∀ {peer parts why}, r.outgoing.Sending (answers log) peer parts why →
      p.sent = answers log p.identity := fun hs => by
    rcases hs with hs | hs
    · exact (hs.holds p hp).1
    · exact (hs.1.holds p hp).1
  have hat := h.at_
  cases stage with
  | idle => exact (hat.2.2.1.holds p hp).1
  | reading peer backtrace request => exact hsending hat.2.2.2.2
  | replying peer backtrace request reply => exact hsending hat.2.2.2.2.2

/-- A message with an empty part in front of others has that part as its backtrace. -/
theorem backtrace_eq {e : Entry} (hwf : e.Wf) {body : List Msg}
    (h : e.backtrace ++ e.request = bottom :: body) :
    e.fate ≠ .skipped ∧ e.backtrace = [bottom] ∧ e.request = body := by
  -- above the bottom there is nothing
  have habove : ∀ {above : List Msg} {last : Msg}, e.backtrace = above ++ [last] → Stack above →
      above = [] ∧ last = bottom ∧ e.request = body := by
    intro above last hbt habove
    rw [hbt] at h
    cases above with
    | nil =>
      rw [List.nil_append, List.singleton_append, List.cons.injEq] at h
      exact ⟨rfl, h⟩
    | cons m above =>
      rw [List.cons_append, List.cons_append, List.cons.injEq] at h
      exact absurd (h.1 ▸ rfl) (habove m List.mem_cons_self).2
  have hfate : e.fate ≠ .skipped := by
    intro hskip
    obtain ⟨above, last, hbt, hstack, hlast⟩ := (hwf.skipped hskip).1
    obtain ⟨-, rfl, -⟩ := habove hbt hstack
    rw [Req.more_bottom] at hlast
    cases hlast
  obtain ⟨above, last, hbt, hstack, -⟩ := (hwf.answered hfate).1
  obtain ⟨rfl, rfl, hreq⟩ := habove hbt hstack
  exact ⟨hfate, hbt, hreq⟩

/-- **The messages of a client are read as it sent them.** -/
theorem messages_prefix (h : s.Explains r log stage) {identity : Bytes} {asked : List (List Msg)}
    (hwhole : ∀ a ∈ asked, whole Msg.more a = true)
    (harr : ∃ rest, (ofKey identity s.arrived).flatten ++ rest =
      (asked.map fun a => (bottom :: a).map Msg.sent).flatten) :
    messages identity s log stage <+: asked.map fun a => (bottom :: a).map Msg.sent := by
  obtain ⟨rest, hrest⟩ := messages_arrived h identity
  obtain ⟨rest', hrest'⟩ := harr
  rw [← hrest, List.append_assoc] at hrest'
  obtain ⟨os, hos, -⟩ := prefix_of_flatten (whole_messages h identity) (fun n hn => by
    obtain ⟨a, ha, rfl⟩ := List.mem_map.1 hn
    rw [whole_map Msg.more_sent, whole, if_pos Req.more_bottom]
    exact hwhole a ha) hrest'
  exact ⟨os, hos.symm⟩

/-- Its messages in the log are its first requests, none of them malformed. -/
theorem entries_of_messages (h : s.Explains r log stage) {identity : Bytes}
    {asked : List (List Msg)}
    (hm : messages identity s log stage <+: asked.map fun a => (bottom :: a).map Msg.sent) :
    (∀ e ∈ ofPeer identity log, e.fate ≠ .skipped ∧ e.backtrace = [bottom]) ∧
      (ofPeer identity log).map Entry.request <+: asked.map (List.map Msg.sent) := by
  have hlog := (log_isPrefix identity s log stage).trans hm
  have hentry : ∀ e ∈ ofPeer identity log, e.fate ≠ .skipped ∧ e.backtrace = [bottom] := by
    intro e he
    obtain ⟨a, -, ha⟩ := List.mem_map.1 (hlog.subset (List.mem_map_of_mem he))
    have hwf := h.wf e (List.mem_filter.1 he).1
    obtain ⟨hfate, hbt, -⟩ := @backtrace_eq e hwf (a.map Msg.sent) ha.symm
    exact ⟨hfate, hbt⟩
  refine ⟨hentry, ?_⟩
  have htail := hlog.map List.tail
  rw [List.map_map, List.map_map] at htail
  have hrequest : (ofPeer identity log).map Entry.request =
      (ofPeer identity log).map (List.tail ∘ fun e => e.backtrace ++ e.request) := by
    refine List.map_congr_left fun e he => ?_
    rw [Function.comp_apply, (hentry e he).2]
    rfl
  rw [hrequest]
  exact htail

end Log

/-! ## Replies -/

theorem bottom_sent : bottom.sent = bottom := by decide

theorem okMsg_sent : okMsg.sent = okMsg := by decide

/-- The replies to a peer that were put into its pipe. -/
def sentTo (identity : Bytes) (log : List Entry) : List Entry :=
  (ofPeer identity log).filter fun e => e.fate = .sent

theorem sentTo_length_le (identity : Bytes) (log : List Entry) :
    (sentTo identity log).length ≤ (ofPeer identity log).length := List.length_filter_le _ _

/-- A whole reply of which each part is `OK` is `OK`. -/
theorem eq_ok {reply : List Msg} (hw : whole Msg.more reply = true) (hok : ∀ m ∈ reply, m = okMsg) :
    reply = [okMsg] := by
  obtain ⟨m, rest, rfl⟩ := List.exists_cons_of_ne_nil (ne_nil_of_whole hw)
  obtain rfl := hok m List.mem_cons_self
  rw [whole, if_neg (by decide), List.isEmpty_iff] at hw
  rw [hw]

/-- The pipe to a client gets `OK` after `OK`. -/
theorem answers_ok {s : Service} {r : Rep} {log : List Entry} {stage : Service.Stage}
    (h : s.Explains r log stage) {identity : Bytes}
    (hentry : ∀ e ∈ ofPeer identity log, e.fate ≠ .skipped ∧ e.backtrace = [bottom])
    (hok : ∀ m ∈ s.gave, m = okMsg) :
    answers log identity =
      (List.replicate (sentTo identity log).length [bottom, okMsg]).flatten := by
  rw [answers_eq, List.flatMap_def]
  congr 1
  refine List.map_eq_replicate_iff.2 fun e he => ?_
  have hmine := (List.mem_filter.1 he).1
  have hlog := (List.mem_filter.1 hmine).1
  obtain ⟨hfate, hbt⟩ := hentry e hmine
  have hreply : e.reply = [okMsg] := by
    refine eq_ok ((h.wf e hlog).answered hfate).2.2 fun m hm => hok m ?_
    rw [h.gave]
    exact List.mem_append_left _ (List.mem_flatMap.2 ⟨e, hlog, hm⟩)
  rw [hbt, hreply]
  rfl

theorem drop_replicate {α : Type*} (a b : α) (n k : ℕ) :
    (List.replicate n [a, b]).flatten.drop (2 * k) = (List.replicate (n - k) [a, b]).flatten := by
  induction k generalizing n with
  | zero => rfl
  | succ k ih =>
    cases n with
    | zero => simp
    | succ n =>
      rw [List.replicate_succ, List.flatten_cons, Nat.mul_succ, Nat.add_sub_add_right, ← ih n]
      rfl

/-- What arrives behind `k` replies is the next one. -/
theorem reply_of_onWay {taken : List Msg} {n k m : ℕ}
    (htaken : taken <+: (List.replicate n [bottom, okMsg]).flatten)
    (hw : whole Msg.more (onWay taken (2 * k) m) = true) :
    k < n ∧ onWay taken (2 * k) m = [bottom, okMsg] := by
  obtain ⟨rest, hrest⟩ :
      onWay taken (2 * k) m <+: (List.replicate (n - k) [bottom, okMsg]).flatten := by
    have hdrop := (htaken.drop (2 * k)).map Msg.sent
    rw [drop_replicate, List.map_flatten, List.map_replicate] at hdrop
    rw [show [bottom, okMsg].map Msg.sent = [bottom, okMsg] by
      rw [List.map_cons, List.map_singleton, bottom_sent, okMsg_sent]] at hdrop
    exact ((List.take_prefix m _).map Msg.sent).trans hdrop
  have hwhole : ∀ x ∈ List.replicate (n - k) [bottom, okMsg], whole Msg.more x = true :=
    fun x hx => by rw [List.eq_of_mem_replicate hx]; decide
  obtain ⟨os, hos, -⟩ : ∃ os, List.replicate (n - k) [bottom, okMsg] =
      [onWay taken (2 * k) m] ++ os ∧ rest = os.flatten :=
    prefix_of_flatten (by simpa using hw) hwhole (by simpa using hrest)
  have hmem : onWay taken (2 * k) m ∈ List.replicate (n - k) [bottom, okMsg] := by
    rw [hos]
    exact List.mem_append_left _ List.mem_cons_self
  obtain ⟨hne, heq⟩ := List.mem_replicate.1 hmem
  exact ⟨by omega, heq⟩

/-! ## What holds in every run -/

/-- The socket of the client, the connection and the log of the server agree; `k` replies
arrived.  Of the messages of the client in the log, only the last one may be without a
reply in its pipe. -/
structure ClientOk (identity : Bytes) (log : List Entry) (arrived : List (Bytes × List Msg))
    (c : Client) (q : Req) (k : ℕ) : Prop where
  inv : q.Inv c.asked c.answered (List.replicate k [okMsg])
  arrived : (ofKey identity arrived).flatten = (q.sent.take c.up).map Msg.sent
  up : c.up ≤ q.sent.length
  taken : c.taken <+: answers log identity
  down : c.down = 2 * k
  replied : k ≤ (sentTo identity log).length
  order : ∀ e ∈ (ofPeer identity log).dropLast, e.fate = .sent

/-- The app did what it was asked, and replied so; where it is not behind a request, it
was not a request that ended it. -/
structure AppOk (decode : Bytes → Option Mac.Request) (app₀ : Mac.App) (x : Exchange) (r : Rep) :
    Prop where
  replies : ∀ m ∈ x.service.gave, m = okMsg
  ready : x.busy = false → r.sendingReply = false
  behind : x.busy = true → r.sendingReply = true ∨ r.requestBegins = false
  quit : x.busy = false → x.app.terminated = true → ∀ a ∈ x.trace.getLast?, request? a = none
  run : Run.exec Mac.step app₀ x.trace = some x.app
  handled : (x.trace.filterMap request?).map some = x.service.got.map fun m => decode m.data

/-- No assertion failed, and both sides are right. -/
def Good (identity : Bytes) (decode : Bytes → Option Mac.Request) (app₀ : Mac.App)
    (x : Exchange) : Prop :=
  ∃ r log stage q k, x.service.rep = some r ∧ x.client.req = some q ∧
    x.service.Explains r log stage ∧ ClientOk identity log x.service.arrived x.client q k ∧
    AppOk decode app₀ x r

section Client

variable {log new : List Entry} {arrived : List (Bytes × List Msg)} {c : Client} {k : ℕ} {q : Req}

theorem ClientOk.arrivals (h : ClientOk identity log arrived c q k) :
    ∃ rest, (ofKey identity arrived).flatten ++ rest =
      (c.asked.whole.map fun a => (bottom :: a).map Msg.sent).flatten := by
  refine ⟨(q.sent.drop c.up).map Msg.sent, ?_⟩
  rw [h.arrived, ← List.map_append, List.take_append_drop, h.inv.sent, List.map_flatten,
    List.map_map]
  rfl

theorem ClientOk.messages (h : ClientOk identity log arrived c q k) {s : Service} {r : Rep}
    {stage : Service.Stage} (hs : s.Explains r log stage) (harr : s.arrived = arrived) :
    messages identity s log stage <+: c.asked.whole.map fun a => (bottom :: a).map Msg.sent :=
  messages_prefix hs h.inv.asked.1 (harr ▸ h.arrivals)

/-- Only the last message of the client may be without a reply, as it does not send
another one before it has the reply. -/
theorem order_append (hlen : (ofPeer identity (log ++ new)).length ≤ k + 1)
    (hk : k ≤ (sentTo identity log).length)
    (horder : ∀ e ∈ (ofPeer identity log).dropLast, e.fate = .sent) :
    ∀ e ∈ (ofPeer identity (log ++ new)).dropLast, e.fate = .sent := by
  have happ : ofPeer identity (log ++ new) = ofPeer identity log ++ ofPeer identity new :=
    List.filter_append _ _
  have hle := sentTo_length_le identity log
  rw [happ] at hlen ⊢
  rw [List.length_append] at hlen
  rcases hnew : ofPeer identity new with _ | ⟨e, rest⟩
  · rw [List.append_nil]
    exact horder
  · rw [hnew, List.length_cons] at hlen
    have hrest : rest = [] := List.eq_nil_of_length_eq_zero (by omega)
    have hall : (sentTo identity log).length = (ofPeer identity log).length := by omega
    rw [hrest, List.dropLast_concat]
    intro x hx
    simpa using List.length_filter_eq_length_iff.1 hall x hx

/-- The server goes on: messages arrive, and are read and answered. -/
theorem ClientOk.grow (h : ClientOk identity log arrived c q k) {s : Service} {r : Rep}
    {stage : Service.Stage} {up : ℕ} (hs : s.Explains r (log ++ new) stage)
    (harr : (ofKey identity s.arrived).flatten = (q.sent.take up).map Msg.sent)
    (hup : up ≤ q.sent.length) :
    ClientOk identity (log ++ new) s.arrived { c with up := up } q k := by
  have hmessages : Exchange.messages identity s (log ++ new) stage <+:
      c.asked.whole.map fun a => (bottom :: a).map Msg.sent := by
    refine messages_prefix hs h.inv.asked.1 ⟨(q.sent.drop up).map Msg.sent, ?_⟩
    rw [harr, ← List.map_append, List.take_append_drop, h.inv.sent, List.map_flatten, List.map_map]
    rfl
  have hlen := (entries_of_messages hs hmessages).2.length_le
  rw [List.length_map, List.length_map] at hlen
  obtain ⟨hasked, hanswered⟩ := h.inv.lengths
  rw [List.length_replicate] at hanswered
  refine ⟨h.inv, harr, hup, h.taken.trans ?_, h.down, h.replied.trans ?_,
    order_append (by omega) h.replied h.order⟩
  · rw [answers, answers, List.flatMap_append]
    exact List.prefix_append _ _
  · rw [sentTo, sentTo, ofPeer, ofPeer, List.filter_append, List.filter_append, List.length_append]
    exact Nat.le_add_right _ _

/-! ### Steps of the client -/

theorem ClientOk.send (h : ClientOk identity log arrived c q k) (msg : Msg) :
    ∃ q', (c.send msg q).req = some q' ∧ ClientOk identity log arrived (c.send msg q) q' k := by
  rcases Req.inv_send h.inv msg with hx | ⟨q', hx, hsent, hinv⟩
  · rw [Client.send, hx]
    exact ⟨q, rfl, h.inv, h.arrived, h.up, h.taken, h.down, h.replied, h.order⟩
  · obtain ⟨rest, hrest⟩ := hsent
    rw [Client.send, hx]
    refine ⟨q', rfl, hinv, ?_, ?_, h.taken, h.down, h.replied, h.order⟩
    · rw [h.arrived, ← hrest, List.take_append_of_le_length h.up]
    · rw [← hrest, List.length_append]
      exact h.up.trans (Nat.le_add_right _ _)

theorem ClientOk.recv (h : ClientOk identity log arrived c q k) :
    ∃ q', (c.recv q).req = some q' ∧ ClientOk identity log arrived (c.recv q) q' k := by
  obtain ⟨r, q', hx, hsent, hinv⟩ := Req.inv_recv h.inv
  rw [Client.recv, hx]
  cases r <;> exact ⟨q', rfl, hinv, hsent ▸ h.arrived, hsent ▸ h.up, h.taken, h.down, h.replied,
    h.order⟩

theorem ClientOk.activated (h : ClientOk identity log arrived c q k) {c' : Client}
    (hc : c.activated q = some c') :
    ∃ q', c'.req = some q' ∧ ClientOk identity log arrived c' q' k := by
  rw [Client.activated] at hc
  split at hc
  · obtain rfl := Option.some.inj hc
    exact ⟨_, rfl, Req.inv_activated h.inv, h.arrived, h.up, h.taken, h.down, h.replied, h.order⟩
  · cases hc

theorem ClientOk.take (h : ClientOk identity log arrived c q k) (n : ℕ) {p : OutPipe}
    (hp : p.sent = answers log identity) :
    ClientOk identity log arrived (c.take n p) q k := by
  refine ⟨h.inv, h.arrived, h.up, ?_, h.down, h.replied, h.order⟩
  obtain ⟨rest, hrest⟩ := h.taken
  rw [Client.take, hp, ← hrest, List.drop_left]
  exact List.prefix_append_right_inj _ |>.2 (List.take_prefix n rest)

/-- A reply arrives: the next `OK`, to a request without a reply. -/
theorem ClientOk.deliver (h : ClientOk identity log arrived c q k) {s : Service} {r : Rep}
    {stage : Service.Stage} (hs : s.Explains r log stage) (harr : s.arrived = arrived)
    (hok : ∀ m ∈ s.gave, m = okMsg) {n : ℕ} {c' : Client} (hc : c.deliver n q = some c') :
    ∃ q', c'.req = some q' ∧ ClientOk identity log arrived c' q' (k + 1) := by
  obtain ⟨hentry, hrequests⟩ := entries_of_messages hs (h.messages hs harr)
  have htaken := h.taken
  rw [answers_ok hs hentry hok] at htaken
  rw [Client.deliver] at hc
  split at hc
  · rename_i hw
    obtain rfl := Option.some.inj hc
    rw [h.down] at hw ⊢
    obtain ⟨hk, hmsg⟩ := reply_of_onWay htaken hw
    have hlen := hrequests.length_le
    rw [List.length_map, List.length_map] at hlen
    have hle := sentTo_length_le identity log
    have hinv : (q.deliver [bottom, okMsg]).Inv c.asked c.answered
        (List.replicate k [okMsg] ++ [[okMsg]]) :=
      Req.inv_deliver h.inv (by decide) (by rw [List.length_replicate]; omega)
    rw [hmsg]
    refine ⟨_, rfl, ?_, h.arrived, h.up, h.taken, ?_, hk, h.order⟩
    · rw [List.replicate_succ']
      exact hinv
    · show 2 * k + 2 = 2 * (k + 1)
      omega
  · cases hc

end Client

/-! ### Steps of the server -/

section Server

variable {x x' : Exchange} {r : Rep} {log : List Entry} {stage : Service.Stage} {q : Req} {k : ℕ}
  {app₀ : Mac.App}

/-- A command changes one side of the socket only. -/
theorem command_spec {s s' : Service} {state : Reader} {peer : Bytes}
    {f : Incoming → Option Incoming} {r' : Rep} (hs : s.command state peer f r = some s')
    (hr' : s'.rep = some r') :
    s'.got = s.got ∧ s'.gave = s.gave ∧ s'.arrived = s.arrived ∧
      r'.sendingReply = r.sendingReply ∧ r'.requestBegins = r.requestBegins := by
  rw [Service.command] at hs
  split at hs
  · cases hs
  · split at hs
    · obtain rfl := Option.some.inj hs
      obtain ⟨i, -, rfl⟩ := Option.map_eq_some_iff.1 hr'
      exact ⟨rfl, rfl, rfl, rfl, rfl⟩
    · cases hs

/-- What comes from outside is not a part of a request, nor of a reply, nor a message of
the client. -/
theorem outside_spec {s s' : Service} {a : Service.Action} {r' : Rep} (hr : s.rep = some r)
    (hout : outside identity a = true) (hs : s.step a = some s') (hr' : s'.rep = some r') :
    s'.got = s.got ∧ s'.gave = s.gave ∧ ofKey identity s'.arrived = ofKey identity s.arrived ∧
      r'.sendingReply = r.sendingReply ∧ r'.requestBegins = r.requestBegins := by
  rw [Service.step, hr] at hs
  cases a with
  | recv => cases hout
  | send msg => cases hout
  | activated peer | readerTerminated peer =>
    obtain ⟨hgot, hgave, harrived, hrest⟩ := command_spec hs hr'
    exact ⟨hgot, hgave, by rw [harrived], hrest⟩
  | attach uuid name =>
    obtain rfl := Option.some.inj hs
    obtain ⟨o, -, rfl⟩ := Option.map_eq_some_iff.1 hr'
    exact ⟨rfl, rfl, rfl, rfl, rfl⟩
  | arrive peer msg =>
    have hpeer : peer ≠ identity := by simpa [outside] using hout
    simp only [Service.arrive] at hs
    split at hs
    · cases hs
    · split at hs
      · obtain rfl := Option.some.inj hs
        obtain rfl := Option.some.inj hr'
        refine ⟨rfl, rfl, ?_, rfl, rfl⟩
        rw [ofKey_append, ofKey_of_ne hpeer, List.append_nil]
      · cases hs
  | terminate peer =>
    simp only [Service.terminate] at hs
    split at hs
    · cases hs
    · split at hs
      · obtain rfl := Option.some.inj hs
        obtain rfl := Option.some.inj hr'
        exact ⟨rfl, rfl, rfl, rfl, rfl⟩
      · cases hs
  | writerTerminated peer =>
    simp only [Service.writerTerminated] at hs
    split at hs
    · obtain rfl := Option.some.inj hs
      obtain ⟨o, -, rfl⟩ := Option.map_eq_some_iff.1 hr'
      exact ⟨rfl, rfl, rfl, rfl, rfl⟩
    · cases hs

theorem recv_arrived (s : Service) (r : Rep) : (s.recv r).arrived = s.arrived := by
  rw [Service.recv]
  split <;> rfl

theorem send_arrived (s : Service) (msg : Msg) (r : Rep) : (s.send msg r).arrived = s.arrived := by
  rw [Service.send]
  split <;> rfl

theorem payload_sendingReply {i : Incoming} {o : Outgoing} {r' : Rep} {answer : Except Errno Msg}
    (h : Rep.payload i o = some (answer, r')) :
    answer = .error .again ∧ r'.sendingReply = false ∨
      ∃ m, answer = .ok m ∧ (r'.sendingReply = true ∨ r'.requestBegins = false) := by
  rw [Rep.payload] at h
  split at h
  · cases h
  · obtain ⟨rfl, rfl⟩ := Prod.mk.inj (Option.some.inj h)
    exact Or.inl ⟨rfl, rfl⟩
  · rename_i m _ _
    obtain ⟨rfl, rfl⟩ := Prod.mk.inj (Option.some.inj h)
    refine Or.inr ⟨m, rfl, ?_⟩
    cases m.more with
    | true => exact Or.inr rfl
    | false => exact Or.inl rfl

/-- A socket that need not send a reply receives a part, or there is none. -/
theorem xrecv_sendingReply {r' : Rep} {answer : Except Errno Msg} (hready : r.sendingReply = false)
    (h : r.xrecv = some (answer, r')) :
    answer = .error .again ∧ r'.sendingReply = false ∨
      ∃ m, answer = .ok m ∧ (r'.sendingReply = true ∨ r'.requestBegins = false) := by
  rw [Rep.xrecv, if_neg (by simp [hready])] at h
  split at h
  · split at h
    · cases h
    · obtain ⟨rfl, rfl⟩ := Prod.mk.inj (Option.some.inj h)
      exact Or.inl ⟨rfl, hready⟩
    · exact payload_sendingReply h
  · exact payload_sendingReply h

/-- `recv:` and `send:` where no assertion fails. -/
theorem recv_of_xrecv {s : Service} {r' : Rep} (hr' : (s.recv r).rep = some r') :
    ∃ answer, r.xrecv = some (answer, r') ∧ (s.recv r).gave = s.gave ∧
      (s.recv r).got = match answer with | .ok m => s.got ++ [m] | .error _ => s.got := by
  rw [Service.recv] at hr' ⊢
  split at hr'
  · cases hr'
  · rename_i m _ hx
    obtain rfl := Option.some.inj hr'
    rw [hx]
    exact ⟨.ok m, rfl, rfl, rfl⟩
  · rename_i e _ hx
    obtain rfl := Option.some.inj hr'
    rw [hx]
    exact ⟨.error e, rfl, rfl, rfl⟩

/-- The reply is sent, or it is refused since the request goes on. -/
theorem send_ok {s : Service} {r' : Rep} (hr' : (s.send okMsg r).rep = some r') :
    r'.sendingReply = false ∧ (s.send okMsg r).got = s.got ∧
      ((s.send okMsg r).gave = s.gave ∨ (s.send okMsg r).gave = s.gave ++ [okMsg]) := by
  cases hsend : r.sendingReply with
  | false =>
    have hx : r.xsend okMsg = some (.error .fsm, r) := if_neg (by simp [hsend])
    rw [Service.send, hx] at hr' ⊢
    obtain rfl := Option.some.inj hr'
    exact ⟨hsend, rfl, Or.inl rfl⟩
  | true =>
    have hx : r.xsend okMsg = (r.outgoing.xsend okMsg).map fun o =>
        (.ok (), { r with outgoing := o, sendingReply := okMsg.more }) := if_pos hsend
    rw [Service.send, hx] at hr' ⊢
    cases ho : r.outgoing.xsend okMsg with
    | none =>
      rw [ho] at hr'
      cases hr'
    | some o =>
      rw [ho] at hr'
      obtain rfl := Option.some.inj hr'
      exact ⟨rfl, rfl, Or.inr rfl⟩

/-! ### Every step -/

/-- The parts of `Good` behind a step that leaves the client alone. -/
theorem good_of_server {s : Service} (hc : ClientOk identity log x.service.arrived x.client q k)
    (hq : x.client.req = some q) (hs : s.Continues log)
    (harr : ofKey identity s.arrived = ofKey identity x.service.arrived)
    (hx : x'.service = s ∧ x'.client = x.client)
    (happ : ∀ r', s.rep = some r' → AppOk decode app₀ x' r') :
    Good identity decode app₀ x' := by
  obtain ⟨r', hr', new, stage', hs'⟩ := hs
  obtain ⟨rfl, hx⟩ := hx
  refine ⟨r', log ++ new, stage', q, k, hr', hx ▸ hq, hs', ?_, happ r' hr'⟩
  rw [hx]
  exact hc.grow hs' (harr ▸ hc.arrived) hc.up

theorem good_receive (hs : x.service.Explains r log stage)
    (hq : x.client.req = some q) (hc : ClientOk identity log x.service.arrived x.client q k)
    (ha : AppOk decode app₀ x r) {cwd : Posix.Path} {mayCreate : Posix.Path → Bool}
    (hx : x.receive decode cwd mayCreate r = some x') : Good identity decode app₀ x' := by
  have hcontinues := Service.answered_recv hs
  have harr := congrArg (ofKey identity) (recv_arrived x.service r)
  obtain ⟨r', hr', -⟩ := Service.answered_recv hs
  obtain ⟨answer, hxrecv, hgave, hgot⟩ := recv_of_xrecv hr'
  rw [receive] at hx
  split at hx
  · cases hx
  rename_i hguard
  rw [Bool.or_eq_true, not_or, Bool.not_eq_true, Bool.not_eq_true] at hguard
  obtain ⟨hbusy, halive⟩ := hguard
  rw [hxrecv] at hx
  rcases xrecv_sendingReply (ha.ready hbusy) hxrecv with ⟨rfl, hready⟩ | ⟨m, rfl, hbehind⟩
  · obtain rfl := Option.some.inj hx
    refine good_of_server hc hq hcontinues harr ⟨rfl, rfl⟩ fun r₁ hr₁ => ?_
    obtain rfl : r' = r₁ := Option.some.inj (hr'.symm.trans hr₁)
    refine ⟨hgave ▸ ha.replies, fun _ => hready, fun hb => ?_, ha.quit, ha.run,
      ha.handled.trans (by rw [hgot])⟩
    rw [hbusy] at hb
    cases hb
  · obtain ⟨req, hreq, hx⟩ := Option.bind_eq_some_iff.1 hx
    obtain ⟨app, happ, rfl⟩ := Option.map_eq_some_iff.1 hx
    refine good_of_server hc hq hcontinues harr ⟨rfl, rfl⟩ fun r₁ hr₁ => ?_
    obtain rfl : r' = r₁ := Option.some.inj (hr'.symm.trans hr₁)
    refine ⟨hgave ▸ ha.replies, fun hb => ?_, fun _ => hbehind, fun hb => ?_, ?_, ?_⟩
    · cases hb
    · cases hb
    · rw [Run.exec_append, ha.run]
      simp [happ]
    · show List.map some (List.filterMap request? (x.trace ++ _)) = (x.service.recv r).got.map _
      rw [List.filterMap_append, List.map_append, ha.handled, hgot, List.map_append]
      simp [request?, hreq]

theorem good_reply (hs : x.service.Explains r log stage)
    (hq : x.client.req = some q) (hc : ClientOk identity log x.service.arrived x.client q k)
    (ha : AppOk decode app₀ x r) (hx : x.reply r = some x') : Good identity decode app₀ x' := by
  rw [reply] at hx
  split at hx
  · rename_i hguard
    rw [Bool.and_eq_true, Bool.not_eq_true'] at hguard
    obtain rfl := Option.some.inj hx
    refine good_of_server hc hq (Service.answered_send hs okMsg)
      (congrArg (ofKey identity) (send_arrived x.service okMsg r)) ⟨rfl, rfl⟩ fun r' hr' => ?_
    obtain ⟨hready, hgot, hgave⟩ := send_ok hr'
    refine ⟨fun m hm => ?_, fun _ => hready, fun hb => (by cases hb), fun _ ht => ?_, ha.run,
      ha.handled.trans (by rw [hgot])⟩
    · rcases hgave with hgave | hgave
      · exact ha.replies m (hgave ▸ hm)
      · rcases List.mem_append.1 (hgave ▸ hm) with hm | hm
        · exact ha.replies m hm
        · exact List.mem_singleton.1 hm
    · rw [hguard.2] at ht
      cases ht
  · cases hx

theorem good_socket (hr : x.service.rep = some r) (hs : x.service.Explains r log stage)
    (hq : x.client.req = some q) (hc : ClientOk identity log x.service.arrived x.client q k)
    (ha : AppOk decode app₀ x r) {a : Service.Action} {s : Service}
    (hout : outside identity a = true) (hnew : x.service.Fresh a)
    (hstep : x.service.step a = some s) : Good identity decode app₀ { x with service := s } := by
  obtain ⟨r', hr', -⟩ := Service.answered_step hr hs hnew hstep
  obtain ⟨hgot, hgave, harr, hsend, hbegin⟩ := outside_spec hr hout hstep hr'
  refine good_of_server hc hq (Service.answered_step hr hs hnew hstep) harr ⟨rfl, rfl⟩ fun r₁ hr₁ => ?_
  obtain rfl : r' = r₁ := Option.some.inj (hr'.symm.trans hr₁)
  exact ⟨hgave ▸ ha.replies, fun hb => hsend.trans (ha.ready hb),
    fun hb => by rw [hsend, hbegin]; exact ha.behind hb, ha.quit, ha.run,
    ha.handled.trans (by rw [hgot])⟩

/-- A message of the client arrives at the server. -/
theorem good_arrive (hs : x.service.Explains r log stage)
    (hq : x.client.req = some q) (hc : ClientOk identity log x.service.arrived x.client q k)
    (ha : AppOk decode app₀ x r) {n : ℕ} (hx : x.arrive identity n r q = some x') :
    Good identity decode app₀ x' := by
  obtain ⟨s, hstep, rfl⟩ := Option.map_eq_some_iff.1 hx
  obtain ⟨r', hr', new, stage', hs'⟩ := Service.answered_arrive hs hstep
  have hshape : s.got = x.service.got ∧ s.gave = x.service.gave ∧
      s.arrived = x.service.arrived ++ [(identity, onWay q.sent x.client.up n)] ∧
      r'.sendingReply = r.sendingReply ∧ r'.requestBegins = r.requestBegins := by
    rw [Service.arrive] at hstep
    split at hstep
    · cases hstep
    · split at hstep
      · obtain rfl := Option.some.inj hstep
        obtain rfl := Option.some.inj hr'
        exact ⟨rfl, rfl, rfl, rfl, rfl⟩
      · cases hstep
  obtain ⟨hgot, hgave, harr, hsend, hbegin⟩ := hshape
  refine ⟨r', log ++ new, stage', q, k, hr', hq, hs', hc.grow hs' ?_ ?_, hgave ▸ ha.replies,
    fun hb => hsend.trans (ha.ready hb), fun hb => by rw [hsend, hbegin]; exact ha.behind hb,
    ha.quit, ha.run, ha.handled.trans (by rw [hgot])⟩
  · rw [harr, ofKey_append, ofKey_self, List.flatten_append, hc.arrived, List.flatten_singleton,
      onWay, ← List.map_append, List.length_map, List.take_add]
    congr 2
    rw [List.length_take, List.take_eq_take_iff]
    omega
  · rw [onWay, List.length_map, List.length_take, List.length_drop]
    have hup := hc.up
    omega

theorem good_act (hr : x.service.rep = some r) (hs : x.service.Explains r log stage)
    (hq : x.client.req = some q) (hc : ClientOk identity log x.service.arrived x.client q k)
    (ha : AppOk decode app₀ x r) {a : Mac.Action} (hx : x.act a = some x') :
    Good identity decode app₀ x' := by
  rw [act] at hx
  split at hx
  · cases hx
  rename_i hguard
  rw [Bool.or_eq_true, not_or, Bool.not_eq_true, Option.isSome_eq_false_iff,
    Option.isNone_iff_eq_none] at hguard
  obtain ⟨app, happ, rfl⟩ := Option.map_eq_some_iff.1 hx
  refine ⟨r, log, stage, q, k, hr, hq, hs, hc, ha.replies, ha.ready, ha.behind, fun _ _ b hb => ?_,
    ?_, ?_⟩
  · obtain rfl : a = b := by simpa using hb
    exact hguard.1
  · rw [Run.exec_append, ha.run]
    simp [happ]
  · rw [List.filterMap_append, List.filterMap_cons, hguard.1]
    simpa using ha.handled

/-- A step of the client or of its connection. -/
theorem good_client (hr : x.service.rep = some r) (hs : x.service.Explains r log stage)
    (ha : AppOk decode app₀ x r) {c : Client}
    (hc : ∃ q', c.req = some q' ∧ ∃ k, ClientOk identity log x.service.arrived c q' k) :
    Good identity decode app₀ { x with client := c } := by
  obtain ⟨q', hq', k, hc⟩ := hc
  exact ⟨r, log, stage, q', k, hr, hq', hs, hc, ha.replies, ha.ready, ha.behind, ha.quit, ha.run,
    ha.handled⟩

theorem good_step {a : Action} (h : Good identity decode app₀ x) (hnew : x.Fresh a)
    (hx : step identity decode x a = some x') : Good identity decode app₀ x' := by
  obtain ⟨r, log, stage, q, k, hr, hq, hs, hc, ha⟩ := h
  rw [step, hr, hq] at hx
  cases a with
  | socket a =>
    simp only at hx
    split at hx
    · rename_i hout
      obtain ⟨s, hstep, rfl⟩ := Option.map_eq_some_iff.1 hx
      exact good_socket hr hs hq hc ha hout hnew hstep
    · cases hx
  | receive cwd mayCreate => exact good_receive hs hq hc ha hx
  | reply => exact good_reply hs hq hc ha hx
  | app a => exact good_act hr hs hq hc ha hx
  | send msg =>
    obtain ⟨q', hq', hc'⟩ := hc.send msg
    exact Option.some.inj hx ▸ good_client hr hs ha ⟨q', hq', k, hc'⟩
  | recv =>
    obtain ⟨q', hq', hc'⟩ := hc.recv
    exact Option.some.inj hx ▸ good_client hr hs ha ⟨q', hq', k, hc'⟩
  | activated =>
    obtain ⟨c, hact, rfl⟩ := Option.map_eq_some_iff.1 hx
    obtain ⟨q', hq', hc'⟩ := hc.activated hact
    exact good_client hr hs ha ⟨q', hq', k, hc'⟩
  | arrive n => exact good_arrive hs hq hc ha hx
  | take n =>
    obtain ⟨p, hp, rfl⟩ := Option.map_eq_some_iff.1 hx
    have hid : p.identity = identity := by simpa using List.find?_some hp
    have hsent := sent_eq_answers hs (List.mem_of_find?_eq_some hp)
    exact good_client hr hs ha ⟨q, hq, k, hc.take n (hid ▸ hsent)⟩
  | deliver n =>
    obtain ⟨c, hdel, rfl⟩ := Option.map_eq_some_iff.1 hx
    obtain ⟨q', hq', hc'⟩ := hc.deliver hs rfl ha.replies hdel
    exact good_client hr hs ha ⟨q', hq', k + 1, hc'⟩

theorem good_start (identity : Bytes) (decode : Bytes → Option Mac.Request)
    (tree : Os.FileTree Bytes) : Good identity decode (Mac.awakeFromNib tree) (start tree) := by
  refine ⟨.start, [], .idle, .start, 0, rfl, rfl, Service.explains_start, ?_, ?_⟩
  · exact ⟨Req.inv_start, rfl, le_refl 0, List.prefix_refl [], rfl, le_refl 0, by simp [ofPeer]⟩
  · exact ⟨by simp [start, Service.start], fun _ => rfl, fun hb => (by cases hb),
      fun _ ht => (by cases ht), rfl, rfl⟩

end Server

/-! ## What client and server rely on -/

/-- The requests that `poll` is done with. -/
def finished (x : Exchange) : List Mac.Request :=
  if x.busy then (x.trace.filterMap request?).dropLast else x.trace.filterMap request?

/-- What server, client and app can say of each other; `log` is what became of the
messages that the server read, of all its peers. -/
structure Agrees (identity : Bytes) (decode : Bytes → Option Mac.Request) (app₀ : Mac.App)
    (log : List Entry) (stage : Service.Stage) (x : Exchange) : Prop where
  /-- The messages of the client that the server read are the first ones it sent. -/
  read : messages identity x.service log stage <+:
    x.client.asked.whole.map fun a => (bottom :: a).map Msg.sent
  /-- Requests and replies alternate, and every reply that arrived is in the log. -/
  turns : x.client.asked.whole.length ≤ x.client.answered.whole.length + 1
  answered : ∀ a ∈ x.client.answered.whole, a = [okMsg]
  replied : x.client.answered.whole.length ≤ (sentTo identity log).length
  /-- The reply is lost to the last request at most. -/
  order : ∀ e ∈ (ofPeer identity log).dropLast, e.fate = .sent
  /-- The app handled what was received, in order, each part once. -/
  run : Run.exec Mac.step app₀ x.trace = some x.app
  handled : (x.trace.filterMap request?).map some = x.service.got.map fun m => decode m.data
  /-- `poll` is done with the requests whose replies the client has, in its order. -/
  acknowledged : List.Sublist
    ((x.client.asked.whole.take x.client.answered.whole.length).flatten.map fun m => decode m.data)
    (x.finished.map some)

/-- The first requests of a peer are among the parts that were received. -/
theorem requests_sublist {identity : Bytes} {log : List Entry} {asked : List (List Msg)} {n : ℕ}
    (hrequests : (ofPeer identity log).map Entry.request <+: asked.map (List.map Msg.sent))
    (hn : n ≤ (ofPeer identity log).length) :
    ((asked.take n).flatten.map Msg.sent).Sublist (log.flatMap Entry.request) := by
  have htake : (asked.take n).map (List.map Msg.sent) =
      ((ofPeer identity log).map Entry.request).take n := by
    rw [List.map_take, List.prefix_iff_eq_take.1 hrequests, List.take_take, List.length_map,
      Nat.min_eq_left hn]
  rw [List.map_flatten, htake, List.flatMap_def]
  exact ((List.take_sublist _ _).trans (List.filter_sublist.map _)).flatten

/-- The requests in the log are done with. -/
theorem log_finished {x : Exchange} {r : Rep} {log : List Entry} {stage : Service.Stage}
    {app₀ : Mac.App} (hs : x.service.Explains r log stage) (ha : AppOk decode app₀ x r) :
    ((log.flatMap Entry.request).map fun m => decode m.data).Sublist (x.finished.map some) := by
  rw [finished]
  cases hb : x.busy with
  | false =>
    rw [if_neg (by simp), ha.handled, hs.got]
    exact (List.sublist_append_left _ _).map _
  | true =>
    have hne : stage.request ≠ [] := by
      have hat := hs.at_
      rcases ha.behind hb with hsend | hbegin
      · cases stage with
        | idle => simp [hat.1] at hsend
        | reading peer backtrace request => simp [hat.1] at hsend
        | replying peer backtrace request reply => exact ne_nil_of_whole hat.2.2.2.1
      · cases stage with
        | idle => simp [hat.2.1] at hbegin
        | reading peer backtrace request => exact hat.2.2.2.1.1
        | replying peer backtrace request reply => simp [hat.2.1] at hbegin
    rw [if_pos rfl, List.map_dropLast, ha.handled, hs.got, ← List.map_dropLast,
      List.dropLast_append_of_ne_nil hne]
    exact (List.sublist_append_left _ _).map _

theorem Good.agrees {identity : Bytes} {app₀ : Mac.App} {x : Exchange}
    (h : Good identity decode app₀ x) :
    ∃ r log stage, x.service.rep = some r ∧ x.client.req.isSome = true ∧
      x.service.Explains r log stage ∧ Agrees identity decode app₀ log stage x := by
  obtain ⟨r, log, stage, q, k, hr, hq, hs, hc, ha⟩ := h
  have hread := hc.messages hs rfl
  obtain ⟨-, hrequests⟩ := entries_of_messages hs hread
  obtain ⟨hturns, hle⟩ := hc.inv.lengths
  rw [List.length_replicate] at hle
  have hreplied := hle.trans hc.replied
  refine ⟨r, log, stage, hr, by rw [hq]; rfl, hs, hread, hturns, fun a ha' => ?_, hreplied,
    hc.order, ha.run, ha.handled, ?_⟩
  · exact List.eq_of_mem_replicate (hc.inv.answered_prefix.subset ha')
  · have hsub := (requests_sublist hrequests
      (hreplied.trans (sentTo_length_le identity log))).map fun m => decode m.data
    rw [List.map_map] at hsub
    exact hsub.trans (log_finished hs ha)

/-- Nothing goes wrong in a run in which no two peers come with one identity. -/
theorem good_along (identity : Bytes) (decode : Bytes → Option Mac.Request)
    (tree : Os.FileTree Bytes) {as : List Action}
    (h : Run.Guarded (step identity decode) Fresh (start tree) as) :
    Run.Along (step identity decode) (Good identity decode (Mac.awakeFromNib tree))
      (start tree) as :=
  Run.along_of_guarded (fun _ _ _ h ha hx => good_step h ha hx) (good_start identity decode tree) h

/-- **A request whose reply arrived was handled, in order and once**, in every run, whatever
other peers do, if none comes with the identity of another one. -/
theorem exchange_agrees (identity : Bytes) (decode : Bytes → Option Mac.Request)
    (tree : Os.FileTree Bytes) {as : List Action}
    (h : Run.Guarded (step identity decode) Fresh (start tree) as) :
    Run.Along (step identity decode)
      (fun x => ∃ r log stage, x.service.rep = some r ∧ x.client.req.isSome = true ∧
        x.service.Explains r log stage ∧
        Agrees identity decode (Mac.awakeFromNib tree) log stage x)
      (start tree) as :=
  (good_along identity decode tree h).mono fun _ h => h.agrees

/-- A client with a name comes, sends a request and has the reply. -/
def sampleRun : List Action :=
  [.socket (.attach [1] (.init [7])), .send (.init [5]), .arrive 2, .receive [] fun _ => true,
    .reply, .take 2, .deliver 2, .recv]

/-- Every request is read as the sample path message. -/
def sampleDecode (_ : Bytes) : Option Mac.Request := some (.path Mac.sampleMsg)

/-- One peer comes in this run. -/
theorem guarded_sampleRun : Run.Guarded (step [7] sampleDecode) Fresh (start Mac.sampleTree)
    sampleRun := by
  refine fun _ _ => ⟨by simp [Fresh, Service.Fresh, start, Service.start], ?_⟩
  exact fun _ _ => ⟨trivial, fun _ _ => ⟨trivial, fun _ _ => ⟨trivial, fun _ _ => ⟨trivial,
    fun _ _ => ⟨trivial, fun _ _ => ⟨trivial, fun _ _ => ⟨trivial, trivial⟩⟩⟩⟩⟩⟩⟩

theorem exchange_agrees_sample :
    Run.Along (step [7] sampleDecode)
      (fun x => ∃ r log stage, x.service.rep = some r ∧ x.client.req.isSome = true ∧
        x.service.Explains r log stage ∧
        Agrees [7] sampleDecode (Mac.awakeFromNib Mac.sampleTree) log stage x)
      (start Mac.sampleTree) sampleRun :=
  exchange_agrees [7] sampleDecode Mac.sampleTree guarded_sampleRun

example : (Run.exec (step [7] sampleDecode) (start Mac.sampleTree) sampleRun).map
    (·.client.answered.whole) = some [[okMsg]] := by decide +kernel

/-! ## What a reply promises -/

theorem mem_dropLast_filterMap {α β : Type*} {f : α → Option β} {as : List α} {b : β}
    (h : b ∈ (as.filterMap f).dropLast) :
    ∃ before a after, as = before ++ a :: after ∧ f a = some b ∧ after ≠ [] := by
  induction as with
  | nil => simp at h
  | cons a as ih =>
    rw [List.filterMap_cons] at h
    split at h
    · obtain ⟨before, a', after, rfl, hf, hne⟩ := ih h
      exact ⟨a :: before, a', after, rfl, hf, hne⟩
    · rename_i c hc
      by_cases hnil : as.filterMap f = []
      · simp [hnil] at h
      · rw [List.dropLast_cons_of_ne_nil hnil] at h
        rcases List.mem_cons.1 h with rfl | h
        · exact ⟨[], a, as, rfl, hc, fun has => hnil (by rw [has]; rfl)⟩
        · obtain ⟨before, a', after, rfl, hf, hne⟩ := ih h
          exact ⟨a :: before, a', after, rfl, hf, hne⟩

/-- Something happened behind a request that is done with, or `poll` is not behind it. -/
theorem split_of_finished {x : Exchange} {req : Mac.Request} (hreq : req ∈ x.finished) :
    ∃ before a after, x.trace = before ++ a :: after ∧ request? a = some req ∧
      (after ≠ [] ∨ x.busy = false) := by
  rw [finished] at hreq
  split at hreq
  · obtain ⟨before, a, after, htrace, ha, hne⟩ := mem_dropLast_filterMap hreq
    exact ⟨before, a, after, htrace, ha, Or.inl hne⟩
  · rename_i hbusy
    obtain ⟨a, ha, hf⟩ := List.mem_filterMap.1 hreq
    obtain ⟨before, after, htrace⟩ := List.append_of_mem ha
    exact ⟨before, a, after, htrace, hf, Or.inr (by simpa using hbusy)⟩

/-- A request that is done with was handled by an app that went on. -/
theorem handled_of_finished {x : Exchange} {r : Rep} {app₀ : Mac.App}
    (ha : AppOk decode app₀ x r) {req : Mac.Request} (hreq : req ∈ x.finished) :
    ∃ before cwd mayCreate after s s', x.trace = before ++ .request cwd mayCreate req :: after ∧
      Mac.step s (.request cwd mayCreate req) = some s' ∧ s'.terminated = false ∧
      Run.exec Mac.step s' after = some x.app := by
  obtain ⟨before, a, after, htrace, hreq, hafter⟩ := split_of_finished hreq
  have hrun := ha.run
  rw [htrace, Run.exec_append] at hrun
  obtain ⟨s, -, hrun⟩ := Option.bind_eq_some_iff.1 hrun
  obtain ⟨s', hstep, hrest⟩ := Option.bind_eq_some_iff.1 hrun
  have halive : s'.terminated = false := by
    cases after with
    | cons b after =>
      obtain ⟨_, hb, -⟩ := Option.bind_eq_some_iff.1 hrest
      exact (Mac.act_of_step hb).1
    | nil =>
      obtain rfl := Option.some.inj hrest
      rw [← Bool.not_eq_true]
      intro hterm
      have hnone := ha.quit (hafter.resolve_left fun hne => hne rfl) hterm a (by simp [htrace])
      rw [hreq] at hnone
      cases hnone
  cases a with
  | request cwd mayCreate req' =>
    obtain rfl : req' = req := Option.some.inj hreq
    exact ⟨before, cwd, mayCreate, after, s, s', htrace, hstep, halive, hrest⟩
  | _ => cases hreq

/-- The item of a path is in the menu. -/
def Registered (serverFn : Posix.Str) (app : Mac.App) : Prop :=
  ∃ item ∈ Mac.watchItems app.menu, item.watchFolder.serverFn = serverFn

/-- What can take an item out of the menu: a click, or an alert. -/
def Removes (a : Mac.Action) : Prop := (∃ i, a = .click i) ∨ ∃ k, a = .runQueued k

theorem registered_of_step {s s' : Mac.App} {cwd : Posix.Path} {mayCreate : Posix.Path → Bool}
    {msg : PathMsg} (hs : Mac.step s (.request cwd mayCreate (.path msg)) = some s')
    (halive : s'.terminated = false) : Registered msg.serverFn s' := by
  obtain ⟨-, hs⟩ := Mac.act_of_step hs
  obtain rfl := Option.some.inj hs
  rw [Mac.poll, Mac.terminated_sendReply] at halive
  rw [Registered, Mac.poll, Mac.menu_sendReply]
  rcases Mac.registerNewPath_cases cwd msg s with ⟨-, -, h⟩ | ⟨-, -, h⟩ | ⟨⟨item, hitem, hfn⟩, h⟩
  · rw [h] at halive
    cases halive
  · rw [h]
    exact ⟨s.newItem cwd msg, List.mem_cons_self, rfl⟩
  · rw [h]
    exact ⟨item, hitem, hfn⟩

/-- An item stays until it is removed. -/
theorem registered_exec {serverFn : Posix.Str} {s s' : Mac.App} {as : List Mac.Action}
    (hs : Run.exec Mac.step s as = some s') (h : Registered serverFn s) :
    Registered serverFn s' ∨ ∃ a ∈ as, Removes a := by
  induction as generalizing s with
  | nil => exact Or.inl (Option.some.inj hs ▸ h)
  | cons a as ih =>
    obtain ⟨t, ht, hrest⟩ := Option.bind_eq_some_iff.1 hs
    have hgo : Registered serverFn t →
        Registered serverFn s' ∨ ∃ b ∈ a :: as, Removes b := fun h =>
      (ih hrest h).imp_right fun ⟨b, hb, hr⟩ => ⟨b, List.mem_cons_of_mem a hb, hr⟩
    cases Mac.registryStep_of_step ht with
    | same hsame =>
      refine hgo ?_
      rw [Registered, hsame.menu]
      exact h
    | register _ _ hsame =>
      obtain ⟨item, hitem, hfn⟩ := h
      refine hgo ?_
      rw [Registered, hsame.menu, Mac.watchItems_register]
      exact ⟨item, List.mem_cons_of_mem _ hitem, hfn⟩
    | click => exact Or.inr ⟨_, List.mem_cons_self, Or.inl ⟨_, rfl⟩⟩
    | alert => exact Or.inr ⟨_, List.mem_cons_self, Or.inr ⟨_, rfl⟩⟩

/-- **A client that has the reply to a path message has its file registered**, unless it was
unregistered since; it never has the reply to a message of another type. -/
theorem acknowledged_registered (identity : Bytes) (decode : Bytes → Option Mac.Request)
    (tree : Os.FileTree Bytes) {as : List Action}
    (h : Run.Guarded (step identity decode) Fresh (start tree) as) :
    Run.Along (step identity decode)
      (fun x => ∀ a ∈ x.client.asked.whole.take x.client.answered.whole.length, ∀ m ∈ a,
        ∃ req before cwd mayCreate after, decode m.data = some req ∧ req ≠ .bad ∧
          x.trace = before ++ .request cwd mayCreate req :: after ∧
          ∀ msg, req = .path msg →
            Registered msg.serverFn x.app ∨ ∃ a ∈ after, Removes a)
      (start tree) as := by
  refine (good_along identity decode tree h).mono fun x h a ha m hm => ?_
  obtain ⟨_, _, _, -, -, -, hagrees⟩ := h.agrees
  obtain ⟨r, log, stage, q, k, -, -, -, -, happ⟩ := h
  have hmem := hagrees.acknowledged.subset (List.mem_map_of_mem (List.mem_flatten.2 ⟨a, ha, hm⟩))
  obtain ⟨req, hreq, hdecode⟩ := List.mem_map.1 hmem
  obtain ⟨before, cwd, mayCreate, after, s, s', htrace, hstep, halive, hrest⟩ :=
    handled_of_finished happ hreq
  refine ⟨req, before, cwd, mayCreate, after, hdecode.symm, ?_, htrace, ?_⟩
  · rintro rfl
    obtain ⟨-, hs⟩ := Mac.act_of_step hstep
    obtain rfl := Option.some.inj hs
    rw [Mac.poll, Mac.terminated_sendReply] at halive
    cases halive
  · rintro msg rfl
    exact registered_exec hrest (registered_of_step hstep halive)

theorem acknowledged_registered_sample :
    Run.Along (step [7] sampleDecode)
      (fun x => ∀ a ∈ x.client.asked.whole.take x.client.answered.whole.length, ∀ m ∈ a,
        ∃ req before cwd mayCreate after, sampleDecode m.data = some req ∧ req ≠ .bad ∧
          x.trace = before ++ .request cwd mayCreate req :: after ∧
          ∀ msg, req = .path msg →
            Registered msg.serverFn x.app ∨ ∃ a ∈ after, Removes a)
      (start Mac.sampleTree) sampleRun :=
  acknowledged_registered [7] sampleDecode Mac.sampleTree guarded_sampleRun

end Exchange

end Fsync
