import Fsync.Ubuntu.Registry

/-!
# The loop that answers requests

`ZMQThread.run` receives a request, calls `zmq_msg` and sends what it returns.
Nothing in the loop or above it catches an exception, so one that leaves `zmq_msg`
(or `recv_json`) ends the thread.

* `turn_eq_ok`: exactly when a turn of the loop answers (`Answerable`);
* `served_or_stopped`: every request is answered `'OK'` once, in order, up to the
  first one that is not answerable; that one and all later ones get no answer.
-/

namespace Fsync.Ubuntu

open Posix Os Program Registry

/-! ## The loop -/

/-- One turn of the loop up to `send`: `self.callback(self.sock.recv_json()) or 'OK'`.
`loads` is `json.loads`. -/
def turn {T : Type} [FileSystem T Bytes] (loads : Bytes → Option Json) (env : Env) (data : Bytes) :
    Handler T Str := do
  let msg ← orRaise (loads data) (.valueError "No JSON object could be decoded".toList)
  let returnMessage ← zmqMsg env msg
  pure (if returnMessage = [] then "OK".toList else returnMessage)

/-- What happens while the server runs. -/
inductive Event where
  | request (env : Env) (data : Bytes)
  | click (i : ℕ)
  | disk (tree : FileTree Bytes)

/-- The server with its thread.  `answers` has the answer to each request that
arrived, in order, `none` where none was sent. -/
structure Daemon where
  fsync : State
  alive : Bool
  answers : List (Option Str)

variable (loads : Bytes → Option Json)

/-- An exception that leaves `run` ends the thread; from then on nobody receives. -/
def advance (d : Daemon) : Event → Daemon
  | .request env data =>
    if d.alive then
      match (turn loads env data).run d.fsync with
      | .ok reply fsync => ⟨fsync, true, d.answers ++ [some reply]⟩
      | .error _ fsync => ⟨fsync, false, d.answers ++ [none]⟩
    else { d with answers := d.answers ++ [none] }
  | .click i => { d with fsync := (itemClicked i d.fsync).getD d.fsync }
  | .disk tree => { d with fsync := { d.fsync with tree := tree } }

/-- A sequence of events. -/
def serve (d : Daemon) (es : List Event) : Daemon := es.foldl (advance loads) d

/-- The server after `Fsync.__init__`. -/
def launch (tree : FileTree Bytes) : Daemon := ⟨init tree, true, []⟩

/-- How many requests are among the events. -/
def requests (es : List Event) : ℕ := es.countP fun
  | .request _ _ => true
  | _ => false

/-! ## Which requests are answered -/

/-- A path message whose fields are there and usable, whose file is registered or
can be, and whose editor can be launched; or a `mkdir` message whose `dir` is a
text the system takes. -/
def Answerable (d : Daemon) : Event → Prop
  | .request env data => ∃ req, loads data = some req ∧
    ((∃ msg editor serverFn s', IsRequest req (.str "path".toList) msg ∧
        Registers env d.fsync msg editor serverFn s' ∧ CanLaunch env editor serverFn) ∨
      ∃ msg dir, IsRequest req (.str "mkdir".toList) msg ∧
        msg.get? "dir" = some (.str dir) ∧ MkdirTakes env d.fsync dir)
  | _ => True

/-- A turn of the loop answers `'OK'` or nothing. -/
theorem turn_eq_ok {T : Type} [FileSystem T Bytes] {env : Env} {data : Bytes} {s s' : State T}
    {reply : Str} :
    (turn loads env data).run s = .ok reply s' ↔ reply = "OK".toList ∧
      ∃ req, loads data = some req ∧ (zmqMsg env req).run s = .ok "OK".toList s' := by
  rw [turn]
  simp only [bind_eq_ok, orRaise_eq_ok, pure_eq_ok]
  constructor
  · rintro ⟨req, _, ⟨hreq, rfl⟩, r, _, hr, rfl, rfl⟩
    obtain ⟨rfl, -⟩ := zmqMsg_eq_ok.1 hr
    exact ⟨rfl, req, hreq, hr⟩
  · rintro ⟨rfl, req, hreq, hr⟩
    exact ⟨req, s, ⟨hreq, rfl⟩, _, s', hr, rfl, rfl⟩

/-- A request is answered exactly if it is answerable. -/
theorem turn_ok_iff {env : Env} {data : Bytes} {d : Daemon} :
    (∃ s', (turn loads env data).run d.fsync = .ok "OK".toList s') ↔
      Answerable loads d (.request env data) := by
  constructor
  · rintro ⟨s', h⟩
    obtain ⟨-, req, hreq, hok⟩ := (turn_eq_ok loads).1 h
    refine ⟨req, hreq, ?_⟩
    obtain ⟨-, ⟨msg, hmsg, hr⟩ | ⟨msg, hmsg, hr⟩⟩ := zmqMsg_eq_ok.1 hok
    · obtain ⟨editor, serverFn, t, ht, hl, -⟩ := registerNewPath_eq_ok.1 hr
      exact Or.inl ⟨msg, editor, serverFn, t, hmsg, ht, hl⟩
    · obtain ⟨dir, hd, ht, -⟩ := mkdirForClient_eq_ok.1 hr
      exact Or.inr ⟨msg, dir, hmsg, hd, ht⟩
  · rintro ⟨req, hreq, ⟨msg, editor, serverFn, t, hmsg, ht, hl⟩ | ⟨msg, dir, hmsg, hd, ht⟩⟩
    · have hok := (registerNewPath_eq_ok (u := ())).2 ⟨editor, serverFn, t, ht, hl, rfl⟩
      have hmsg' := zmqMsg_eq_ok.2 ⟨rfl, Or.inl ⟨msg, hmsg, hok⟩⟩
      exact ⟨_, (turn_eq_ok loads).2 ⟨rfl, req, hreq, hmsg'⟩⟩
    · have hok := (mkdirForClient_eq_ok (u := ())).2 ⟨dir, hd, ht, rfl⟩
      have hmsg' := zmqMsg_eq_ok.2 ⟨rfl, Or.inr ⟨msg, hmsg, hok⟩⟩
      exact ⟨_, (turn_eq_ok loads).2 ⟨rfl, req, hreq, hmsg'⟩⟩

/-! ## One event -/

theorem advance_of_answerable {d : Daemon} {e : Event} (halive : d.alive = true)
    (h : Answerable loads d e) : (advance loads d e).alive = true ∧
      (advance loads d e).answers =
        d.answers ++ List.replicate (requests [e]) (some "OK".toList) := by
  cases e with
  | request env data =>
    obtain ⟨s', hs⟩ := (turn_ok_iff loads).2 h
    rw [advance, if_pos halive, hs]
    exact ⟨rfl, rfl⟩
  | click i => exact ⟨halive, (List.append_nil _).symm⟩
  | disk tree => exact ⟨halive, (List.append_nil _).symm⟩

theorem advance_of_not_answerable {d : Daemon} {e : Event} (halive : d.alive = true)
    (h : ¬ Answerable loads d e) : (advance loads d e).alive = false ∧
      (advance loads d e).answers = d.answers ++ List.replicate (requests [e]) none := by
  cases e with
  | request env data =>
    rcases ok_or_error (turn loads env data) d.fsync with ⟨reply, s', hs⟩ | ⟨x, s', hs⟩
    · obtain ⟨rfl, -⟩ := (turn_eq_ok loads).1 hs
      exact absurd ((turn_ok_iff loads).1 ⟨s', hs⟩) h
    · rw [advance, if_pos halive, hs]
      exact ⟨rfl, rfl⟩
  | click i => exact absurd trivial h
  | disk tree => exact absurd trivial h

theorem advance_of_dead {d : Daemon} {e : Event} (hdead : d.alive = false) :
    (advance loads d e).alive = false ∧
      (advance loads d e).answers = d.answers ++ List.replicate (requests [e]) none := by
  cases e with
  | request env data =>
    rw [advance, if_neg (by simp [hdead])]
    exact ⟨hdead, rfl⟩
  | click i => exact ⟨hdead, (List.append_nil _).symm⟩
  | disk tree => exact ⟨hdead, (List.append_nil _).symm⟩

/-! ## Runs -/

theorem requests_cons (e : Event) (es : List Event) :
    requests (e :: es) = requests [e] + requests es := by
  rw [requests, requests, requests, ← List.countP_append]
  rfl

theorem replicate_requests {α : Type*} (a : α) (e : Event) (es : List Event) :
    List.replicate (requests (e :: es)) a =
      List.replicate (requests [e]) a ++ List.replicate (requests es) a := by
  rw [requests_cons, List.replicate_add]

/-- A thread that has ended answers nothing. -/
theorem serve_of_dead {d : Daemon} (es : List Event) (hdead : d.alive = false) :
    (serve loads d es).alive = false ∧
      (serve loads d es).answers = d.answers ++ List.replicate (requests es) none := by
  induction es generalizing d with
  | nil => exact ⟨hdead, (List.append_nil _).symm⟩
  | cons e es ih =>
    obtain ⟨h1, h2⟩ := advance_of_dead loads (e := e) hdead
    obtain ⟨h3, h4⟩ := ih h1
    rw [serve, List.foldl_cons]
    exact ⟨h3, by rw [replicate_requests, ← List.append_assoc, ← h2]; exact h4⟩

/-- Every event of the run finds the server ready for it. -/
def AllAnswerable (d : Daemon) (es : List Event) : Prop :=
  Run.Guarded (fun d e => some (advance loads d e)) (Answerable loads) d es

theorem allAnswerable_cons {d : Daemon} {e : Event} {es : List Event} :
    AllAnswerable loads d (e :: es) ↔
      Answerable loads d e ∧ AllAnswerable loads (advance loads d e) es :=
  ⟨fun h => h _ rfl, fun h _ ht => Option.some.inj ht ▸ h⟩

/-- A run whose requests are all answerable, and one with a first request that is not. -/
theorem serve_cases (d : Daemon) (es : List Event) (halive : d.alive = true) :
    (AllAnswerable loads d es ∧ (serve loads d es).alive = true ∧
      (serve loads d es).answers =
        d.answers ++ List.replicate (requests es) (some "OK".toList)) ∨
    ∃ pre e post, es = pre ++ e :: post ∧ AllAnswerable loads d pre ∧
      ¬ Answerable loads (serve loads d pre) e ∧ (serve loads d es).alive = false ∧
      (serve loads d es).answers =
        d.answers ++ (List.replicate (requests pre) (some "OK".toList) ++
          List.replicate (requests (e :: post)) none) := by
  induction es generalizing d with
  | nil => exact Or.inl ⟨trivial, halive, (List.append_nil _).symm⟩
  | cons e es ih =>
    by_cases h : Answerable loads d e
    · obtain ⟨h1, h2⟩ := advance_of_answerable loads halive h
      rcases ih (advance loads d e) h1 with ⟨hall, h3, h4⟩ | ⟨pre, x, post, rfl, hall, hx, h3, h4⟩
      · refine Or.inl ⟨(allAnswerable_cons loads).2 ⟨h, hall⟩, h3, ?_⟩
        rw [replicate_requests, ← List.append_assoc, ← h2]
        exact h4
      · refine Or.inr ⟨e :: pre, x, post, rfl, (allAnswerable_cons loads).2 ⟨h, hall⟩, hx, h3, ?_⟩
        rw [replicate_requests _ e pre, List.append_assoc, ← List.append_assoc d.answers, ← h2]
        exact h4
    · obtain ⟨h1, h2⟩ := advance_of_not_answerable loads halive h
      obtain ⟨h3, h4⟩ := serve_of_dead loads es h1
      refine Or.inr ⟨[], e, es, rfl, trivial, h, h3, ?_⟩
      rw [replicate_requests, requests, List.countP_nil, List.replicate_zero, List.nil_append,
        ← List.append_assoc, ← h2]
      exact h4

/-- **The server answers until a request raises.**  Either every request of the run
is answerable when it arrives, and each gets one `'OK'`, in order, from a thread
that lives on; or there is a first one that is not: those before it get one `'OK'`
each, it ends the thread, and neither it nor any later one gets an answer. -/
theorem served_or_stopped (tree : FileTree Bytes) (es : List Event) :
    (AllAnswerable loads (launch tree) es ∧ (serve loads (launch tree) es).alive = true ∧
      (serve loads (launch tree) es).answers =
        List.replicate (requests es) (some "OK".toList)) ∨
    ∃ pre e post, es = pre ++ e :: post ∧ AllAnswerable loads (launch tree) pre ∧
      ¬ Answerable loads (serve loads (launch tree) pre) e ∧
      (serve loads (launch tree) es).alive = false ∧
      (serve loads (launch tree) es).answers =
        List.replicate (requests pre) (some "OK".toList) ++
          List.replicate (requests (e :: post)) none :=
  serve_cases loads (launch tree) es rfl

/-- The bytes of a `mkdir` message. -/
def sampleMkdir : Bytes :=
  "\x7b\x22type\x22: \x22mkdir\x22, \x22dir\x22: \x22/tmp/h\x22\x7d".toList.map
    fun c => c.toNat.toUInt8

/-- The decoder on two requests: an object without fields and a `mkdir` message. -/
def sampleLoads (data : Bytes) : Option Json :=
  if data = [123, 125] then some (.object [])
  else if data = sampleMkdir then some (.object (mkdirMsg "/tmp/h".toList))
  else none

/-- A request without a `type` gets no answer, and the request of another client
behind it, which would be answered, gets none either. -/
theorem request_without_type_stops_the_server :
    (serve sampleLoads (launch DirTree.empty)
      [.request sampleEnv [123, 125], .request sampleEnv sampleMkdir]).answers = [none, none] ∧
    (serve sampleLoads (launch DirTree.empty) [.request sampleEnv sampleMkdir]).answers =
      [some "OK".toList] :=
  ⟨rfl, rfl⟩

end Fsync.Ubuntu
