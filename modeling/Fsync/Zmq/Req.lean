import Fsync.Zmq.Xrep

/-!
# The socket of a client

`req_t` puts an empty part in front of a request, the bottom of its backtrace, and
receives a reply before it sends the next request.  Below it, `lb_t` writes into the
pipes of the connections in turn and `fq_t` reads from them in turn; the client connects
to one server, so there is one pipe for each.  The connecting side has its pipes from the
start, and keeps them.

* `Req.inv_send`, `Req.inv_recv`, `Req.inv_deliver`: requests and replies alternate, and
  a request is on its way as a whole or not at all.
-/

namespace Fsync.Zmq

open Streams

/-- "First part of the request is empty message part (stack bottom)." -/
def bottom : Msg := (Msg.init []).withMore

/-- `req_t`, connected to one server. -/
structure Req where
  receivingReply : Bool
  messageBegins : Bool
  /-- the reader of the pipe of replies; `fq_t` counts it among its `active` pipes -/
  inpipe : InPipe
  /-- `fq_t::more` -/
  more : Bool
  /-- flushed into the pipe of requests so far -/
  sent : List Msg
  /-- written, and not flushed -/
  draft : List Msg
  deriving DecidableEq, Repr

namespace Req

/-- A new socket with one connection. -/
def start : Req := ⟨false, true, ⟨[], true, .awake, [], false⟩, false, [], []⟩

/-- `lb_t::send`: the pipe has room, and is flushed behind the last part. -/
def lbSend (msg : Msg) (q : Req) : Req :=
  if msg.more then { q with draft := q.draft ++ [msg] }
  else { q with sent := q.sent ++ (q.draft ++ [msg]), draft := [] }

/-- `fq_t::recv`; within a message there must be a part. -/
def fqRecv (q : Req) : Option (Option Msg × Req) :=
  match q.inpipe.fetch with
  | (some m, p) => some (some m, { q with inpipe := p, more := m.more })
  | (none, p) =>
    if q.inpipe.active && q.more then none
    else some (none, { q with inpipe := { p with active := false } })

/-- The bottom of the backtrace, if the message begins. -/
def begin (q : Req) : Req :=
  if q.messageBegins then { q.lbSend bottom with messageBegins := false } else q

/-- `req_t::xsend` -/
def xsend (msg : Msg) (q : Req) : Except Errno Unit × Req :=
  if q.receivingReply then (.error .fsm, q)
  else
    let q := q.begin.lbSend msg
    (.ok (), if msg.more then q else { q with receivingReply := true, messageBegins := true })

/-- The part of a reply behind the bottom. -/
def payload (q : Req) : Option (Except Errno Msg × Req) :=
  match q.fqRecv with
  | none => none
  | some (none, q) => some (.error .again, q)
  | some (some m, q) =>
    some (.ok m, if m.more then q else { q with receivingReply := false, messageBegins := true })

/-- `req_t::xrecv` -/
def xrecv (q : Req) : Option (Except Errno Msg × Req) :=
  if q.receivingReply then
    if q.messageBegins then
      match q.fqRecv with
      | none => none
      | some (none, q) => some (.error .again, q)
      | some (some m, q) =>
        if m.more = false ∨ m.data ≠ [] then some (.error .again, q)
        else payload { q with messageBegins := false }
    else payload q
  else some (.error .fsm, q)

/-- A reply arrives in the pipe. -/
def deliver (msg : List Msg) (q : Req) : Req := { q with inpipe := q.inpipe.arrive msg }

/-- `process_activate_reader` -/
def activated (q : Req) : Req :=
  { q with inpipe := { q.inpipe with active := true, reader := .awake } }

/-! ## What the socket keeps -/

/-- Where the socket is between a request and its reply; `received` are the replies that
arrived in its pipe, without their bottoms. -/
inductive Phase (q : Req) (asked answered : Assembled Msg) (received : List (List Msg)) : Prop where
  | composing (hsend : q.receivingReply = false) (hbegin : q.messageBegins = asked.parts.isEmpty)
    (hdraft : q.draft = if asked.parts = [] then [] else bottom :: asked.parts)
    (hmore : q.more = false) (hin : q.inpipe.parts = []) (hparts : answered.parts = [])
    (hreceived : received = answered.whole) (hlen : asked.whole.length = answered.whole.length)
  | waiting (hsend : q.receivingReply = true) (hbegin : q.messageBegins = true)
    (hdraft : q.draft = []) (hmore : q.more = false) (hasked : asked.parts = [])
    (hparts : answered.parts = [])
    (hreceived : q.inpipe.parts = [] ∧ received = answered.whole ∨
      ∃ reply, q.inpipe.parts = bottom :: reply ∧ received = answered.whole ++ [reply])
    (hlen : asked.whole.length = answered.whole.length + 1)
  | reading (hsend : q.receivingReply = true) (hbegin : q.messageBegins = false)
    (hdraft : q.draft = []) (hmore : q.more = true) (hasked : asked.parts = [])
    (hact : q.inpipe.active = true) (hin : q.inpipe.parts ≠ [])
    (hreceived : received = answered.whole ++ [answered.parts ++ q.inpipe.parts])
    (hlen : asked.whole.length = answered.whole.length + 1)

/-- What was sent are the requests, and what is received are their replies, in turn. -/
structure Inv (asked answered : Assembled Msg) (received : List (List Msg)) (q : Req) : Prop where
  pipe : q.inpipe.Ok
  opened : q.inpipe.open? = true
  phase : q.Phase asked answered received
  sent : q.sent = (asked.whole.map fun a => bottom :: a).flatten
  asked : (∀ a ∈ asked.whole, whole Msg.more a = true) ∧ ∀ m ∈ asked.parts, m.more = true
  received : ∀ a ∈ received, whole Msg.more a = true

variable {q : Req} {asked answered : Assembled Msg} {received : List (List Msg)}

theorem inv_start : start.Inv .empty .empty [] where
  pipe := ⟨terminated_nil, by simp [start], by simp [start]⟩
  opened := rfl
  phase := .composing rfl rfl rfl rfl rfl rfl rfl rfl
  sent := rfl
  asked := by simp [Assembled.empty]
  received := by simp
/-- **Requests and replies alternate.** -/
theorem Inv.lengths (h : q.Inv asked answered received) :
    asked.whole.length ≤ answered.whole.length + 1 ∧
      answered.whole.length ≤ received.length := by
  cases h.phase with
  | composing _ _ _ _ _ _ hreceived hlen =>
    rw [hreceived]
    omega
  | waiting _ _ _ _ _ _ hreceived hlen =>
    rcases hreceived with ⟨-, hreceived⟩ | ⟨_, -, hreceived⟩
    · rw [hreceived]
      omega
    · rw [hreceived, List.length_append]
      omega
  | reading _ _ _ _ _ _ _ hreceived hlen =>
    rw [hreceived, List.length_append]
    omega

/-- The replies that were received are those that arrived. -/
theorem Inv.answered_prefix (h : q.Inv asked answered received) : answered.whole <+: received := by
  cases h.phase with
  | composing _ _ _ _ _ _ hreceived => exact hreceived ▸ List.prefix_refl _
  | waiting _ _ _ _ _ _ hreceived =>
    rcases hreceived with ⟨-, hreceived⟩ | ⟨_, -, hreceived⟩
    · exact hreceived ▸ List.prefix_refl _
    · exact hreceived ▸ List.prefix_append _ _
  | reading _ _ _ _ _ _ _ hreceived => exact hreceived ▸ List.prefix_append _ _

/-! ### Sending -/

theorem more_bottom : bottom.more = true := Msg.more_withMore []

/-- Behind `begin`, the bottom of the backtrace is written. -/
theorem begin_eq (h : q.messageBegins = asked.parts.isEmpty)
    (hdraft : q.draft = if asked.parts = [] then [] else bottom :: asked.parts) :
    q.begin = { q with messageBegins := false, draft := bottom :: asked.parts } := by
  cases hb : q.messageBegins with
  | true =>
    rw [hb, eq_comm, List.isEmpty_iff] at h
    rw [if_pos h] at hdraft
    rw [begin, if_pos hb, lbSend, if_pos more_bottom, hdraft, h]
    rfl
  | false =>
    rw [hb] at h
    rw [if_neg (by rintro hnil; simp [hnil] at h)] at hdraft
    rw [begin, if_neg (by simp [hb]), ← hdraft, ← hb]

/-- A part is refused behind a request, or it is the next one of a request. -/
theorem inv_send (h : q.Inv asked answered received) (msg : Msg) :
    q.xsend msg = (.error .fsm, q) ∨ ∃ q', q.xsend msg = (.ok (), q') ∧ q.sent <+: q'.sent ∧
      q'.Inv (asked.push Msg.more msg) answered received := by
  have hrefused : q.receivingReply = true → q.xsend msg = (.error .fsm, q) := fun hr => if_pos hr
  cases h.phase with
  | waiting hsend => exact Or.inl (hrefused hsend)
  | reading hsend => exact Or.inl (hrefused hsend)
  | composing hsend hbegin hdraft hmore hin hparts hreceived hlen =>
    refine Or.inr ?_
    have hx : q.xsend msg = (.ok (), if msg.more then q.begin.lbSend msg
        else { q.begin.lbSend msg with receivingReply := true, messageBegins := true }) := by
      rw [xsend, if_neg (by simp [hsend])]
    rw [hx, begin_eq hbegin hdraft, lbSend]
    cases hm : msg.more with
    | true =>
      refine ⟨_, rfl, List.prefix_refl _, ⟨h.pipe, h.opened, ?_, ?_, ?_, h.received⟩⟩
      · rw [Assembled.push_more hm]
        exact .composing hsend (by simp) (by simp) hmore hin hparts hreceived hlen
      · rw [Assembled.push_more hm]
        exact h.sent
      · rw [Assembled.push_more hm]
        refine ⟨h.asked.1, fun x hx => ?_⟩
        rcases List.mem_append.1 hx with hx | hx
        · exact h.asked.2 x hx
        · rw [List.mem_singleton.1 hx]
          exact hm
    | false =>
      refine ⟨_, rfl, List.prefix_append _ _, ⟨h.pipe, h.opened, ?_, ?_, ?_, h.received⟩⟩
      · rw [Assembled.push_last hm]
        exact .waiting rfl rfl rfl hmore rfl hparts (Or.inl ⟨hin, hreceived⟩) (by simp [hlen])
      · rw [Assembled.push_last hm]
        simp [h.sent]
      · rw [Assembled.push_last hm]
        refine ⟨fun a ha => ?_, by simp⟩
        rcases List.mem_append.1 ha with ha | ha
        · exact h.asked.1 a ha
        · rw [List.mem_singleton.1 ha]
          exact whole_append h.asked.2 hm

/-! ### Receiving -/

/-- A part of a reply is received. -/
theorem payload_spec (h : q.Inv asked answered received) (hsend : q.receivingReply = true)
    (hbegin : q.messageBegins = false) :
    ∃ m q', q.payload = some (.ok m, q') ∧ q'.sent = q.sent ∧
      q'.Inv asked (answered.push Msg.more m) received := by
  cases h.phase with
  | composing hsend' => simp [hsend] at hsend'
  | waiting _ hbegin' => simp [hbegin] at hbegin'
  | reading _ _ hdraft hmore hasked hact hin hreceived hlen =>
    obtain ⟨m, rest, hrest⟩ := List.exists_cons_of_ne_nil hin
    obtain ⟨hfetch, hok⟩ := h.pipe.fetch_cons hact hrest
    have hwhole := h.received (answered.parts ++ q.inpipe.parts) (by simp [hreceived])
    rw [hrest] at hwhole
    have hrecv : q.fqRecv = some (some m, { q with
        inpipe := { q.inpipe with parts := rest }, more := m.more }) := by rw [fqRecv, hfetch]
    have hterm := h.pipe.terminated
    rw [hrest] at hterm
    cases hm : m.more with
    | true =>
      refine ⟨m, { q with inpipe := { q.inpipe with parts := rest }, more := true },
        by rw [payload, hrecv]; simp [hm], rfl, hok, h.opened, ?_, h.sent, h.asked, h.received⟩
      rw [Assembled.push_more hm]
      refine .reading hsend hbegin hdraft rfl hasked hact (hterm.rest_ne_nil hm) ?_ hlen
      rw [hreceived, hrest]
      simp
    | false =>
      obtain rfl := whole_append_cons hwhole hm
      refine ⟨m, ⟨false, true, { q.inpipe with parts := [] }, false, q.sent, q.draft⟩,
        by rw [payload, hrecv]; simp [hm], rfl, hok, h.opened, ?_, h.sent, h.asked, h.received⟩
      rw [Assembled.push_last hm]
      refine .composing rfl (by simp [hasked]) (by simp [hdraft, hasked]) rfl rfl rfl ?_
        (by simp [hlen])
      rw [hreceived, hrest]

/-- Where nothing is found, the reader goes to sleep. -/
theorem inv_fetch_none (h : q.Inv asked answered received) {p : InPipe}
    (hf : q.inpipe.fetch = (none, p)) :
    Inv asked answered received { q with inpipe := { p with active := false } } := by
  obtain ⟨-, hparts, hnone, hok⟩ := h.pipe.fetch_none hf
  have hopen : p.open? = true := InPipe.open?_fetch h.opened hf
  refine ⟨hok, hopen, ?_, h.sent, h.asked, h.received⟩
  cases h.phase with
  | composing hsend hbegin hdraft hmore hin hans hreceived hlen =>
    exact .composing hsend hbegin hdraft hmore (hparts.trans hin) hans hreceived hlen
  | waiting hsend hbegin hdraft hmore hasked hans hreceived hlen =>
    refine .waiting hsend hbegin hdraft hmore hasked hans ?_ hlen
    show p.parts = [] ∧ _ ∨ ∃ reply, p.parts = bottom :: reply ∧ _
    rw [hparts]
    exact hreceived
  | reading _ _ _ _ _ hact hin => exact absurd (hnone hact) hin

/-- A part of the reply is received, or none is there, or no request was sent. -/
theorem inv_recv (h : q.Inv asked answered received) :
    ∃ r q', q.xrecv = some (r, q') ∧ q'.sent = q.sent ∧
      q'.Inv asked (match r with | .ok m => answered.push Msg.more m | .error _ => answered)
        received := by
  cases h.phase with
  | composing hsend => exact ⟨.error .fsm, q, if_neg (by simp [hsend]), rfl, h⟩
  | reading hsend hbegin =>
    obtain ⟨m, q', hp, hsent, hq'⟩ := payload_spec h hsend hbegin
    exact ⟨.ok m, q', by rw [xrecv, if_pos hsend, if_neg (by simp [hbegin]), hp], hsent, hq'⟩
  | waiting hsend hbegin hdraft hmore hasked hans hreceived hlen =>
    have hx : q.xrecv = match q.fqRecv with
        | none => none
        | some (none, q) => some (.error .again, q)
        | some (some m, q) =>
          if m.more = false ∨ m.data ≠ [] then some (.error .again, q)
          else payload { q with messageBegins := false } := by
      rw [xrecv, if_pos hsend, if_pos hbegin]
    obtain ⟨r, p, hf⟩ : ∃ r p, q.inpipe.fetch = (r, p) := ⟨_, _, rfl⟩
    cases r with
    | none =>
      refine ⟨.error .again, { q with inpipe := { p with active := false } }, ?_, rfl,
        inv_fetch_none h hf⟩
      rw [hx, fqRecv, hf]
      simp [hmore]
    | some m =>
      obtain ⟨hact, hparts, hp, hok⟩ := h.pipe.fetch_some hf
      rcases hreceived with ⟨hnil, -⟩ | ⟨reply, hin, hreceived⟩
      · rw [hnil] at hparts
        cases hparts
      · rw [hin, List.cons.injEq] at hparts
        obtain ⟨rfl, hreply⟩ := hparts
        have hne : reply ≠ [] := ne_nil_of_whole (h.received reply (by simp [hreceived]))
        -- the bottom is taken off
        have hinv : Inv asked answered received
            { q with inpipe := p, more := true, messageBegins := false } := by
          refine ⟨hok, InPipe.open?_fetch h.opened hf, ?_, h.sent, h.asked, h.received⟩
          refine .reading hsend rfl hdraft rfl hasked (by rw [hp]; exact hact) (hreply ▸ hne) ?_
            hlen
          rw [hreceived, hans, ← hreply]
          rfl
        obtain ⟨m, q', hpay, hsent, hq'⟩ := payload_spec hinv hsend rfl
        refine ⟨.ok m, q', ?_, hsent, hq'⟩
        rw [hx, fqRecv, hf]
        exact hpay

/-! ### The pipe of replies -/

/-- The reply to the request that was sent arrives. -/
theorem inv_deliver (h : q.Inv asked answered received) {reply : List Msg}
    (hw : Streams.whole Msg.more reply = true) (hlen : received.length < asked.whole.length) :
    (q.deliver (bottom :: reply)).Inv asked answered (received ++ [reply]) := by
  have hwhole : Streams.whole Msg.more (bottom :: reply) = true := by
    rw [Streams.whole, if_pos more_bottom, hw]
  refine ⟨h.pipe.wake (terminated_append _ hwhole) h.opened, InPipe.open?_wake h.opened, ?_,
    h.sent, h.asked, fun a ha => ?_⟩
  · cases h.phase with
    | composing _ _ _ _ _ _ hreceived hlen' =>
      rw [hreceived] at hlen
      omega
    | reading _ _ _ _ _ _ _ hreceived hlen' =>
      rw [hreceived, List.length_append, List.length_singleton] at hlen
      omega
    | waiting hsend hbegin hdraft hmore hasked hans hreceived hlen' =>
      rcases hreceived with ⟨hnil, hreceived⟩ | ⟨_, _, hreceived⟩
      · refine .waiting hsend hbegin hdraft hmore hasked hans (Or.inr ⟨reply, ?_, ?_⟩) hlen'
        · show q.inpipe.parts ++ bottom :: reply = _
          rw [hnil, List.nil_append]
        · rw [hreceived]
      · rw [hreceived, List.length_append, List.length_singleton] at hlen
        omega
  · rcases List.mem_append.1 ha with ha | ha
    · exact h.received a ha
    · rw [List.mem_singleton.1 ha]
      exact hw

theorem inv_activated (h : q.Inv asked answered received) :
    q.activated.Inv asked answered received := by
  refine ⟨⟨h.pipe.terminated, by simp [activated], by simp [activated]⟩, ?_, ?_, h.sent, h.asked,
    h.received⟩
  · have hopen := h.opened
    rw [InPipe.open?, Bool.and_eq_true] at hopen
    rw [InPipe.open?, Bool.and_eq_true]
    exact ⟨hopen.1, rfl⟩
  · cases h.phase with
    | composing hsend hbegin hdraft hmore hin hans hreceived hlen =>
      exact .composing hsend hbegin hdraft hmore hin hans hreceived hlen
    | waiting hsend hbegin hdraft hmore hasked hans hreceived hlen =>
      exact .waiting hsend hbegin hdraft hmore hasked hans hreceived hlen
    | reading hsend hbegin hdraft hmore hasked hact hin hreceived hlen =>
      exact .reading hsend hbegin hdraft hmore hasked rfl hin hreceived hlen

end Req

end Fsync.Zmq
