import Fsync.Base.Run
import Fsync.Zmq.Engine
import Fsync.Zmq.Xrep

/-!
# The socket of the server

`rep_t` reads a request, behind the backtrace that says where its reply goes, and sends
the reply before it reads the next request.  The backtrace is everything up to the first
empty part; a message without one is skipped.

* `Service.requests_answered`: in every state of every run in which no two peers come with
  one identity, whatever the order in which peers come, send and go and the application
  reads and replies, no assertion failed,
  and a log tells for each message that was read what became of it: it was skipped as
  malformed, or the application got it and its reply was put, behind its backtrace,
  into the pipe of the peer it came from, and into no other one.
* `LostOnly`: a reply is lost only if its peer went, or if behind the reply before it
  a malformed message was skipped whose peer had gone: `rollback` then leaves `more_out`
  set, and the next backtrace is taken for the rest of the message that was dropped.
-/

namespace Fsync.Zmq

open Streams

/-! ## Operations -/

namespace Incoming

/-- A bound on the parts that can still be returned. -/
def work (s : Incoming) : ℕ :=
  2 * (s.inpipes.map fun p => p.parts.length).sum + s.prefetched.toList.length

theorem sum_set {l : List InPipe} {i : ℕ} {p : InPipe} (hp : l[i]? = some p) (p' : InPipe) :
    ((l.set i p').map fun q => q.parts.length).sum + p.parts.length =
      (l.map fun q => q.parts.length).sum + p'.parts.length := by
  induction l generalizing i with
  | nil => simp at hp
  | cons q l ih =>
    cases i with
    | zero =>
      rw [List.getElem?_cons_zero, Option.some.injEq] at hp
      subst hp
      simp only [List.set_cons_zero, List.map_cons, List.sum_cons]
      omega
    | succ i =>
      rw [List.getElem?_cons_succ] at hp
      have hi := ih hp
      simp only [List.set_cons_succ, List.map_cons, List.sum_cons]
      omega

theorem fetch_length {p p' : InPipe} {r : Option Msg} (h : p.fetch = (r, p')) :
    p'.identity = p.identity ∧ p'.parts.length + r.toList.length = p.parts.length := by
  rw [InPipe.fetch] at h
  split at h
  · rw [InPipe.read] at h
    split at h
    · split at h <;> obtain ⟨rfl, rfl⟩ := Prod.mk.inj h
      · rename_i hparts
        simp [hparts]
      · exact ⟨rfl, rfl⟩
    · obtain ⟨rfl, rfl⟩ := Prod.mk.inj h
      exact ⟨rfl, rfl⟩
  · obtain ⟨rfl, rfl⟩ := Prod.mk.inj h
    exact ⟨rfl, rfl⟩

theorem scan_work {k : ℕ} {s s' : Incoming} {r : Option Msg} (hpre : s.prefetched = none)
    (h : scan k s = some (r, s')) :
    s'.identities = s.identities ∧ (r.isSome = true → s'.work < s.work) := by
  induction k generalizing s with
  | zero =>
    obtain ⟨rfl, rfl⟩ := Prod.mk.inj (Option.some.inj h)
    exact ⟨rfl, by simp⟩
  | succ k ih =>
    rw [scan] at h
    split at h
    · cases h
    · rename_i p hp
      split at h
      · rename_i m p' hf
        obtain ⟨rfl, rfl⟩ := Prod.mk.inj (Option.some.inj h)
        obtain ⟨hid, hlen⟩ := fetch_length hf
        have hsum := sum_set hp p'
        refine ⟨identities_setCurrent hp hid, fun _ => ?_⟩
        simp only [work, setCurrent, hpre, Option.toList_none, Option.toList_some,
          List.length_nil, List.length_singleton] at hsum hlen ⊢
        omega
      · rename_i p' hf
        obtain ⟨hid, hlen⟩ := fetch_length hf
        have hsum := sum_set hp { p' with active := false }
        have hids : (s.setCurrent { p' with active := false }).identities = s.identities :=
          identities_setCurrent hp hid
        obtain ⟨hids', hwork⟩ := ih (s := s.pass p') hpre h
        refine ⟨hids'.trans hids, fun hr => ?_⟩
        have hlt := hwork hr
        simp only [work, pass, setCurrent, Option.toList_none, List.length_nil] at hsum hlen hlt ⊢
        omega

/-- A part that is returned is not there any more, and the pipes stay. -/
theorem xrecv_work {s s' : Incoming} {r : Option Msg} (h : s.xrecv = some (r, s')) :
    s'.identities = s.identities ∧ (r.isSome = true → s'.work < s.work) := by
  rw [xrecv] at h
  split at h
  · rename_i m hpre
    obtain ⟨rfl, rfl⟩ := Prod.mk.inj (Option.some.inj h)
    exact ⟨rfl, fun _ => by simp [work, hpre]⟩
  · rename_i hpre
    split at h
    · rw [grab] at h
      split at h
      · cases h
      · rename_i p hp
        split at h
        · rename_i hact
          split at h
          · rename_i m p' hread
            obtain ⟨rfl, rfl⟩ := Prod.mk.inj (Option.some.inj h)
            obtain ⟨hid, hlen⟩ := fetch_length (p := p) (by rw [InPipe.fetch, if_pos hact, hread])
            have hsum := sum_set hp p'
            refine ⟨identities_setCurrent hp hid, fun _ => ?_⟩
            simp only [work, setCurrent, hpre, Option.toList_none, Option.toList_some,
              List.length_nil, List.length_singleton] at hsum hlen ⊢
            omega
          · cases h
        · cases h
    · exact scan_work hpre h

end Incoming

/-- `rep_t`, an `xrep_t` with two flags. -/
structure Rep where
  incoming : Incoming
  outgoing : Outgoing
  sendingReply : Bool
  requestBegins : Bool
  deriving DecidableEq, Repr

namespace Rep

/-- A new socket. -/
def start : Rep := ⟨.start, .start, false, true⟩

/-- "Copy the backtrace stack to the reply pipe."  The loop ends behind the bottom of a
stack, or where there is no message. -/
def backtrace (i : Incoming) (o : Outgoing) : Option (Bool × Incoming × Outgoing) :=
  match _h : i.xrecv with
  | none => none
  | some (none, i') => some (false, i', o)
  | some (some m, i') =>
    if m.more then
      match o.xsend m with
      | none => none
      | some o' => if m.data = [] then some (true, i', o') else backtrace i' o'
    else
      match o.rollback with
      | none => none
      | some o' => backtrace i' o'
termination_by i.work
decreasing_by all_goals exact (Incoming.xrecv_work _h).2 rfl

/-- "Get the first part of the message payload and exit." -/
def payload (i : Incoming) (o : Outgoing) : Option (Except Errno Msg × Rep) :=
  match i.xrecv with
  | none => none
  | some (none, i') => some (.error .again, ⟨i', o, false, false⟩)
  | some (some m, i') =>
    some (.ok m, if m.more then ⟨i', o, false, false⟩ else ⟨i', o, true, true⟩)

/-- `rep_t::xrecv` -/
def xrecv (r : Rep) : Option (Except Errno Msg × Rep) :=
  if r.sendingReply then some (.error .fsm, r)
  else if r.requestBegins then
    match backtrace r.incoming r.outgoing with
    | none => none
    | some (false, i, o) => some (.error .again, { r with incoming := i, outgoing := o })
    | some (true, i, o) => payload i o
  else payload r.incoming r.outgoing

/-- `rep_t::xsend` -/
def xsend (msg : Msg) (r : Rep) : Option (Except Errno Unit × Rep) :=
  if r.sendingReply then
    (r.outgoing.xsend msg).map fun o =>
      (.ok (), { r with outgoing := o, sendingReply := msg.more })
  else some (.error .fsm, r)

end Rep

/-! ## The log -/

/-- What became of a message: it was malformed; its reply was put into the pipe of its
peer; the reply was dropped. -/
inductive Fate where
  | skipped
  | sent
  | lost
  deriving DecidableEq, Repr

/-- A message that was read, with the reply. -/
structure Entry where
  peer : Bytes
  /-- the whole message, where it is malformed -/
  backtrace : List Msg
  request : List Msg
  reply : List Msg
  fate : Fate
  deriving DecidableEq, Repr

/-- Parts of a backtrace above its bottom. -/
def Stack (parts : List Msg) : Prop := ∀ m ∈ parts, m.more = true ∧ m.data ≠ []

/-- "Empty message part delimits the traceback stack." -/
def Backtrace (parts : List Msg) : Prop :=
  ∃ above bottom, parts = above ++ [bottom] ∧ Stack above ∧ bottom.more = true ∧ bottom.data = []

/-- A whole message without an empty part that another one follows. -/
def Malformed (parts : List Msg) : Prop :=
  ∃ above last, parts = above ++ [last] ∧ Stack above ∧ last.more = false

namespace Entry

/-- The message as it was read. -/
def message (e : Entry) : Bytes × List Msg := (e.peer, e.backtrace ++ e.request)

/-- What was put into the pipe of a peer. -/
def answer (identity : Bytes) (e : Entry) : List Msg :=
  if e.peer = identity ∧ e.fate = .sent then e.backtrace ++ e.reply else []

/-- What an entry of the log is made of. -/
structure Wf (e : Entry) : Prop where
  skipped : e.fate = .skipped → Malformed e.backtrace ∧ e.request = [] ∧ e.reply = []
  answered : e.fate ≠ .skipped → Backtrace e.backtrace ∧ whole Msg.more e.request = true ∧
    whole Msg.more e.reply = true

end Entry

theorem Stack.more {parts : List Msg} (h : Stack parts) : ∀ m ∈ parts, m.more = true :=
  fun m hm => (h m hm).1

/-- What was put into the pipe of a peer so far. -/
def answers (log : List Entry) (identity : Bytes) : List Msg :=
  log.flatMap (Entry.answer identity)

/-- Behind the last reply a malformed message was skipped whose peer had gone. -/
def Stale (ended : List Bytes) (log : List Entry) : Prop :=
  ∃ before e after, log = before ++ e :: after ∧ e.fate = .skipped ∧ e.peer ∈ ended ∧
    ∀ x ∈ after, x.fate = .skipped

/-- Why a reply to a peer does not reach it. -/
def Unreachable (ended : List Bytes) (log : List Entry) (peer : Bytes) : Prop :=
  peer ∈ ended ∨ Stale ended log

/-- Every reply that was lost could not reach its peer, and a peer that went gets nothing
more. -/
def LostOnly (ended : List Bytes) (log : List Entry) : Prop :=
  ∀ before e after, log = before ++ e :: after → e.fate = .lost →
    (e.peer ∈ ended ∧ ∀ x ∈ after, x.peer = e.peer → x.fate ≠ .sent) ∨ Stale ended before

section Log

variable {ended : List Bytes} {log : List Entry} {e : Entry} {peer : Bytes}

theorem Stale.snoc (h : Stale ended log) (he : e.fate = .skipped) : Stale ended (log ++ [e]) := by
  obtain ⟨before, x, after, rfl, hx, hpeer, hafter⟩ := h
  refine ⟨before, x, after ++ [e], by simp, hx, hpeer, fun y hy => ?_⟩
  rcases List.mem_append.1 hy with hy | hy
  · exact hafter y hy
  · rw [List.mem_singleton.1 hy]
    exact he

/-- What was left behind by a message that is skipped for a peer that cannot be reached. -/
theorem Unreachable.stale (h : Unreachable ended log e.peer) (he : e.fate = .skipped) :
    Stale ended (log ++ [e]) := by
  rcases h with h | h
  · exact ⟨log, e, [], rfl, he, h, by simp⟩
  · exact h.snoc he

theorem Stale.mono (h : Stale ended log) {identity : Bytes} : Stale (identity :: ended) log := by
  obtain ⟨before, x, after, hlog, hx, hpeer, hafter⟩ := h
  exact ⟨before, x, after, hlog, hx, List.mem_cons_of_mem _ hpeer, hafter⟩

theorem Unreachable.mono (h : Unreachable ended log peer) {identity : Bytes} :
    Unreachable (identity :: ended) log peer :=
  h.imp (List.mem_cons_of_mem _) fun h => h.mono

theorem LostOnly.mono (h : LostOnly ended log) {identity : Bytes} :
    LostOnly (identity :: ended) log :=
  fun before e after hlog he => (h before e after hlog he).imp
    (fun ⟨hpeer, hafter⟩ => ⟨List.mem_cons_of_mem _ hpeer, hafter⟩) fun h => h.mono

theorem LostOnly.snoc (h : LostOnly ended log)
    (hlost : e.fate = .lost → Unreachable ended log e.peer)
    (hsent : e.fate = .sent → e.peer ∉ ended) : LostOnly ended (log ++ [e]) := by
  intro before x after hlog hx
  rcases List.eq_nil_or_concat after with rfl | ⟨after, y, rfl⟩
  · obtain ⟨rfl, hex⟩ := List.append_inj' hlog rfl
    obtain rfl : e = x := by simpa using hex
    exact (hlost hx).imp_left fun hpeer => ⟨hpeer, by simp⟩
  · rw [List.concat_eq_append, ← List.cons_append, ← List.append_assoc] at hlog
    obtain ⟨rfl, hey⟩ := List.append_inj' hlog rfl
    obtain rfl : e = y := by simpa using hey
    refine (h before x after rfl hx).imp_left fun ⟨hpeer, hafter⟩ => ⟨hpeer, fun z hz hzx => ?_⟩
    rw [List.concat_eq_append] at hz
    rcases List.mem_append.1 hz with hz | hz
    · exact hafter z hz hzx
    · rw [List.mem_singleton.1 hz] at hzx ⊢
      exact fun hs => hsent hs (hzx ▸ hpeer)

/-- Malformed messages are not replies that were lost. -/
theorem LostOnly.append (h : LostOnly ended log) {new : List Entry}
    (hnew : ∀ e ∈ new, e.fate = .skipped) : LostOnly ended (log ++ new) := by
  induction new generalizing log with
  | nil =>
    rw [List.append_nil]
    exact h
  | cons e new ih =>
    have hlog : log ++ e :: new = (log ++ [e]) ++ new := by simp
    rw [hlog]
    have he := hnew e List.mem_cons_self
    exact ih (h.snoc (by simp [he]) (by simp [he])) fun x hx => hnew x (List.mem_cons_of_mem e hx)

theorem answers_snoc (log : List Entry) (e : Entry) (identity : Bytes) :
    answers (log ++ [e]) identity = answers log identity ++ e.answer identity := by
  simp [answers]

theorem answers_skipped (he : e.fate = .skipped) : answers (log ++ [e]) = answers log := by
  funext identity
  simp [answers_snoc, Entry.answer, he]

/-- The messages of a peer. -/
def ofPeer (identity : Bytes) (log : List Entry) : List Entry :=
  log.filter fun e => e.peer = identity

theorem ofKey_messages (identity : Bytes) (log : List Entry) :
    ofKey identity (log.map Entry.message) =
      (ofPeer identity log).map fun e => e.backtrace ++ e.request := by
  rw [ofKey, ofPeer, List.filter_map, List.map_map]
  rfl

theorem answers_eq (log : List Entry) (identity : Bytes) :
    answers log identity = ((ofPeer identity log).filter fun e => e.fate = .sent).flatMap fun e =>
      e.backtrace ++ e.reply := by
  induction log with
  | nil => rfl
  | cons e log ih =>
    rw [answers] at ih
    rw [answers, List.flatMap_cons, ih, ofPeer, ofPeer, List.filter_cons, Entry.answer]
    by_cases hp : e.peer = identity <;> by_cases hf : e.fate = .sent <;> simp [hp, hf]

theorem messages_snoc (log : List Entry) (e : Entry) :
    (log ++ [e]).map Entry.message = log.map Entry.message ++ [e.message] := by simp

end Log

/-! ## The loop over the backtrace -/

theorem Incoming.Reads.peer_mem {i : Incoming} {h : History} (hr : i.Reads h) {peer : Bytes}
    {parts : List Msg} (hcur : h.current = some (peer, parts)) : peer ∈ i.identities := by
  have hplace := hr.place
  rw [hcur] at hplace
  obtain ⟨p, hp, rfl, -⟩ := hplace
  exact List.mem_map_of_mem (List.mem_of_getElem? hp)

namespace Rep

variable {i i' : Incoming} {o o' : Outgoing} {m : Msg}

theorem backtrace_again (h : i.xrecv = some (none, i')) (o : Outgoing) :
    backtrace i o = some (false, i', o) := by
  rw [backtrace]
  split
  · rename_i h'
    rw [h] at h'
    cases h'
  · rename_i t h'
    rw [h] at h'
    cases h'
    rfl
  · rename_i t h'
    rw [h] at h'
    cases h'

theorem backtrace_part (h : i.xrecv = some (some m, i')) (hmore : m.more = true)
    (ho : o.xsend m = some o') :
    backtrace i o = if m.data = [] then some (true, i', o') else backtrace i' o' := by
  rw [backtrace]
  split
  · rename_i h'
    rw [h] at h'
    cases h'
  · rename_i h'
    rw [h] at h'
    cases h'
  · rename_i m' t h'
    rw [h] at h'
    cases h'
    rw [if_pos hmore, ho]

theorem backtrace_last (h : i.xrecv = some (some m, i')) (hmore : m.more = false)
    (ho : o.rollback = some o') : backtrace i o = backtrace i' o' := by
  rw [backtrace]
  split
  · rename_i h'
    rw [h] at h'
    cases h'
  · rename_i h'
    rw [h] at h'
    cases h'
  · rename_i m' t h'
    rw [h] at h'
    cases h'
    rw [if_neg (by simp [hmore]), ho]

variable (ended : List Bytes) (arrived : List (Bytes × List Msg))

/-- Between two messages. -/
structure Between (log : List Entry) (i : Incoming) (o : Outgoing) : Prop where
  reads : i.Reads ⟨arrived, log.map Entry.message, none⟩
  closed : o.Closed (answers log)
  stale : o.moreOut = true → Stale ended log

/-- Behind some parts of the backtrace of a message. -/
structure Inside (log : List Entry) (peer : Bytes) (parts : List Msg) (i : Incoming)
    (o : Outgoing) : Prop where
  reads : i.Reads ⟨arrived, log.map Entry.message, some (peer, parts)⟩
  sending : o.Sending (answers log) peer parts (Unreachable ended log peer)

/-- What the loop leaves: the bottom of a backtrace, or no message, behind malformed ones. -/
structure Looped (log : List Entry) (i : Incoming) (o : Outgoing) (b : Bool) (i' : Incoming)
    (o' : Outgoing) (new : List Entry) : Prop where
  inIdentities : i'.identities = i.identities
  outIdentities : o'.identities = o.identities
  skipped : ∀ e ∈ new, e.fate = .skipped ∧ e.Wf ∧ e.peer ∈ i.identities
  between : b = false → Between ended arrived (log ++ new) i' o'
  inside : b = true → ∃ peer parts, Backtrace parts ∧
    Inside ended arrived (log ++ new) peer parts i' o'

variable {ended arrived} {log : List Entry}

/-- A turn of the loop that reads a message to its end. -/
theorem Looped.skip {e : Entry} {b : Bool} {i'' : Incoming} {o'' : Outgoing} {new : List Entry}
    (h : Looped ended arrived (log ++ [e]) i' o' b i'' o'' new)
    (hi : i'.identities = i.identities) (ho : o'.identities = o.identities)
    (he : e.fate = .skipped ∧ e.Wf ∧ e.peer ∈ i.identities) :
    Looped ended arrived log i o b i'' o'' (e :: new) where
  inIdentities := h.inIdentities.trans hi
  outIdentities := h.outIdentities.trans ho
  skipped := List.forall_mem_cons.2 ⟨he, fun x hx => hi ▸ h.skipped x hx⟩
  between hb := by
    have hbetween := h.between hb
    rwa [List.append_assoc] at hbetween
  inside hb := by
    have hinside := h.inside hb
    rwa [List.append_assoc] at hinside

/-- A turn of the loop within a message. -/
theorem Looped.turn {b : Bool} {i'' : Incoming} {o'' : Outgoing} {new : List Entry}
    (h : Looped ended arrived log i' o' b i'' o'' new)
    (hi : i'.identities = i.identities) (ho : o'.identities = o.identities) :
    Looped ended arrived log i o b i'' o'' new where
  inIdentities := h.inIdentities.trans hi
  outIdentities := h.outIdentities.trans ho
  skipped x hx := hi ▸ h.skipped x hx
  between := h.between
  inside := h.inside

/-- **The loop ends, without a failed assertion.** -/
theorem backtrace_spec (hcon : ∀ id ∈ i.identities, id ∈ o.identities ∨ id ∈ ended)
    (h : Between ended arrived log i o ∨
      ∃ peer parts, Stack parts ∧ Inside ended arrived log peer parts i o) :
    ∃ b i' o' new, backtrace i o = some (b, i', o') ∧
      Looped ended arrived log i o b i' o' new := by
  -- by induction on the parts that can still be returned
  induction hn : i.work using Nat.strong_induction_on generalizing i o log with
  | _ n ih =>
  subst hn
  rcases h with h | ⟨peer, parts, hstack, h⟩
  · obtain ⟨r, i₁, hx, hcase⟩ := Incoming.xrecv_scan h.reads rfl
    have hids := (Incoming.xrecv_work hx).1
    rcases hcase with ⟨rfl, hreads, -⟩ | ⟨peer, hne, rfl, hreads⟩
    · refine ⟨false, i₁, o, [], backtrace_again hx o, hids, rfl, by simp, fun _ => ?_, by simp⟩
      rw [List.append_nil]
      exact ⟨hreads, h.closed, h.stale⟩
    · have hmore := Msg.more_withMore peer
      obtain ⟨o₁, ho, hoids, hsending⟩ := h.closed.xsend_prefix h.stale hmore
      have hpeer := hreads.peer_mem rfl
      rw [hids] at hpeer
      have hinside : Inside ended arrived log peer [] i₁ o₁ := by
        refine ⟨hreads, hsending.mono fun hwhy => hwhy.imp_left fun hout => ?_⟩
        exact (hcon peer hpeer).resolve_left hout
      obtain ⟨b, i', o', new, hloop, hspec⟩ := ih i₁.work ((Incoming.xrecv_work hx).2 rfl)
        (fun id hid => by rw [hoids]; exact hcon id (hids ▸ hid))
        (Or.inr ⟨peer, [], by simp [Stack], hinside⟩) rfl
      refine ⟨b, i', o', new, ?_, hspec.turn hids hoids⟩
      rw [backtrace_part hx hmore ho]
      exact (if_neg hne).trans hloop
  · obtain ⟨m, i₁, hx, hreads⟩ := Incoming.xrecv_part h.reads rfl
    have hids := (Incoming.xrecv_work hx).1
    cases hmore : m.more with
    | true =>
      obtain ⟨o₁, ho, hoids, hsending⟩ := h.sending.xsend_more hmore
      rw [History.part, if_pos hmore] at hreads
      by_cases hbottom : m.data = []
      · refine ⟨true, i₁, o₁, [], ?_, hids, hoids, by simp, by simp, fun _ => ?_⟩
        · rw [backtrace_part hx hmore ho, if_pos hbottom]
        · rw [List.append_nil]
          exact ⟨peer, parts ++ [m], ⟨parts, m, rfl, hstack, hmore, hbottom⟩, hreads, hsending⟩
      · have hstack' : Stack (parts ++ [m]) := by
          intro x hx
          rcases List.mem_append.1 hx with hx | hx
          · exact hstack x hx
          · rw [List.mem_singleton.1 hx]
            exact ⟨hmore, hbottom⟩
        obtain ⟨b, i', o', new, hloop, hspec⟩ := ih i₁.work ((Incoming.xrecv_work hx).2 rfl)
          (fun id hid => by rw [hoids]; exact hcon id (hids ▸ hid))
          (Or.inr ⟨peer, parts ++ [m], hstack', hreads, hsending⟩) rfl
        refine ⟨b, i', o', new, ?_, hspec.turn hids hoids⟩
        rw [backtrace_part hx hmore ho, if_neg hbottom, hloop]
    | false =>
      -- the end of a malformed message
      obtain ⟨o₁, ho, hoids, hclosed, hstale⟩ := h.sending.rollback hstack.more
      let e : Entry := ⟨peer, parts ++ [m], [], [], .skipped⟩
      have hwf : e.Wf :=
        ⟨fun _ => ⟨⟨parts, m, rfl, hstack, hmore⟩, rfl, rfl⟩, fun hne => absurd rfl hne⟩
      have hpeer := h.reads.peer_mem rfl
      have hbetween : Between ended arrived (log ++ [e]) i₁ o₁ := by
        refine ⟨?_, ?_, fun hm => (hstale hm).stale rfl⟩
        · rw [History.part, if_neg (by simp [hmore])] at hreads
          simpa [e, Entry.message] using hreads
        · rw [answers_skipped rfl]
          exact hclosed
      obtain ⟨b, i', o', new, hloop, hspec⟩ := ih i₁.work ((Incoming.xrecv_work hx).2 rfl)
        (fun id hid => by rw [hoids]; exact hcon id (hids ▸ hid)) (Or.inl hbetween) rfl
      refine ⟨b, i', o', e :: new, ?_, hspec.skip hids hoids ⟨rfl, hwf, hpeer⟩⟩
      rw [backtrace_last hx hmore ho, hloop]

end Rep

/-! ## The socket and its users -/

/-- A `ZMQ_REP` socket, with what happened to it. -/
structure Service where
  /-- none where an assertion failed -/
  rep : Option Rep
  /-- the identities of all peers that ever came -/
  used : List Bytes
  /-- the peers to which nothing can be written any more -/
  ended : List Bytes
  /-- the messages that were written into the pipes from the peers -/
  arrived : List (Bytes × List Msg)
  /-- the parts that the application received and sent -/
  got : List Msg
  gave : List Msg

namespace Service

/-- A new socket, and nobody is connected. -/
def start : Service := ⟨some .start, [], [], [], [], []⟩

/-- What may happen to the socket and its pipes. -/
inductive Action where
  /-- The handshake with a new peer is over, and its pipes are bound to the socket. -/
  | attach (uuid : Bytes) (identity : Msg)
  /-- The session of a peer writes a message into its pipe, or closes it. -/
  | arrive (peer : Bytes) (msg : List Msg)
  | terminate (peer : Bytes)
  /-- The command is processed that wakes a reader. -/
  | activated (peer : Bytes)
  /-- The commands are processed that end the pipes of a peer. -/
  | readerTerminated (peer : Bytes)
  | writerTerminated (peer : Bytes)
  /-- The application receives or sends a part. -/
  | recv
  | send (msg : Msg)

/-- `xattach_pipes`.  The assertion fails if there is a pipe to a peer of this identity. -/
def attach (identity : Bytes) (r : Rep) (s : Service) : Service :=
  { s with
    rep := (r.outgoing.attach identity).map fun o =>
      { r with incoming := r.incoming.attach identity, outgoing := o }
    used := identity :: s.used }

/-- The session of a peer writes a whole message into its open pipe. -/
def arrive (peer : Bytes) (msg : List Msg) (r : Rep) (s : Service) : Option Service :=
  match r.incoming.pipe? peer with
  | none => none
  | some p =>
    if whole Msg.more msg && p.open? then
      some { s with
        rep := some { r with incoming := r.incoming.modify peer (InPipe.arrive msg) }
        arrived := s.arrived ++ [(peer, msg)] }
    else none

/-- The session of a peer closes its pipe. -/
def terminate (peer : Bytes) (r : Rep) (s : Service) : Option Service :=
  match r.incoming.pipe? peer with
  | none => none
  | some p =>
    if p.open? then
      some { s with rep := some { r with incoming := r.incoming.modify peer InPipe.terminate } }
    else none

/-- A command for the reader of a peer that is in a certain state. -/
def command (state : Reader) (peer : Bytes) (f : Incoming → Option Incoming) (r : Rep)
    (s : Service) : Option Service :=
  match r.incoming.pipe? peer with
  | none => none
  | some p =>
    if p.reader = state then
      some { s with rep := (f r.incoming).map fun i => { r with incoming := i } }
    else none

/-- The writer to a peer has ended. -/
def writerTerminated (peer : Bytes) (r : Rep) (s : Service) : Option Service :=
  if peer ∈ r.outgoing.identities then
    some { s with
      rep := (r.outgoing.terminated peer).map fun o => { r with outgoing := o }
      ended := peer :: s.ended }
  else none

/-- The application receives a part. -/
def recv (r : Rep) (s : Service) : Service :=
  match r.xrecv with
  | none => { s with rep := none }
  | some (.ok m, r') => { s with rep := some r', got := s.got ++ [m] }
  | some (.error _, r') => { s with rep := some r' }

/-- The application sends a part. -/
def send (msg : Msg) (r : Rep) (s : Service) : Service :=
  match r.xsend msg with
  | none => { s with rep := none }
  | some (.ok _, r') => { s with rep := some r', gave := s.gave ++ [msg] }
  | some (.error _, r') => { s with rep := some r' }

/-- Nothing happens to a socket any more once an assertion failed. -/
def step (s : Service) (a : Action) : Option Service :=
  match s.rep with
  | none => none
  | some r =>
    match a with
    | .attach uuid identity => some (s.attach (Inout.peerIdentity uuid identity) r)
    | .arrive peer msg => s.arrive peer msg r
    | .terminate peer => s.terminate peer r
    | .activated peer => s.command .waking peer (Incoming.activated peer) r
    | .readerTerminated peer => s.command .terminating peer (Incoming.terminated peer) r
    | .writerTerminated peer => s.writerTerminated peer r
    | .recv => some (s.recv r)
    | .send msg => some (s.send msg r)

/-- A peer that comes has an identity that no peer had before.  Generated ones are new, and
the pipes of a peer with a name stay when it connects again; but two peers may give one name
that begins with a zero, and the assertion then fails. -/
def Fresh (s : Service) : Action → Prop
  | .attach uuid identity => Inout.peerIdentity uuid identity ∉ s.used
  | _ => True

example : (Run.exec step start [.attach [1] (.init [0]), .attach [2] (.init [0])]).map (·.rep) =
    some none := rfl

/-! ## What the log explains -/

/-- Where the application is: between two requests; behind some parts of a request; behind
a request and some parts of its reply. -/
inductive Stage where
  | idle
  | reading (peer : Bytes) (backtrace request : List Msg)
  | replying (peer : Bytes) (backtrace request reply : List Msg)

namespace Stage

/-- What was read so far, at each stage. -/
def history (arrived : List (Bytes × List Msg)) (log : List Entry) : Stage → History
  | idle => ⟨arrived, log.map Entry.message, none⟩
  | reading peer backtrace request =>
    ⟨arrived, log.map Entry.message, some (peer, backtrace ++ request)⟩
  | replying peer backtrace request _ =>
    ⟨arrived, log.map Entry.message ++ [(peer, backtrace ++ request)], none⟩

/-- The parts of the request that were read. -/
def request : Stage → List Msg
  | idle => []
  | reading _ _ request => request
  | replying _ _ request _ => request

/-- The parts of the reply that were sent. -/
def reply : Stage → List Msg
  | idle => []
  | reading _ _ _ => []
  | replying _ _ _ reply => reply

/-- The peer whose request it is. -/
def peer? : Stage → Option Bytes
  | idle => none
  | reading peer _ _ => some peer
  | replying peer _ _ _ => some peer

end Stage

/-- The flags and the sending side at a stage. -/
def At (ended : List Bytes) (log : List Entry) (r : Rep) : Stage → Prop
  | .idle => r.sendingReply = false ∧ r.requestBegins = true ∧ r.outgoing.Closed (answers log) ∧
      (r.outgoing.moreOut = true → Stale ended log)
  | .reading peer backtrace request => r.sendingReply = false ∧ r.requestBegins = false ∧
      Backtrace backtrace ∧ (request ≠ [] ∧ ∀ m ∈ request, m.more = true) ∧
      r.outgoing.Sending (answers log) peer backtrace (Unreachable ended log peer)
  | .replying peer backtrace request reply => r.sendingReply = true ∧ r.requestBegins = true ∧
      Backtrace backtrace ∧ whole Msg.more request = true ∧ (∀ m ∈ reply, m.more = true) ∧
      r.outgoing.Sending (answers log) peer (backtrace ++ reply) (Unreachable ended log peer)

/-- The log says what became of everything that was read: the parts of each peer are those
of its messages in the log, of the message at hand and of its pipe (`reads`); its pipe got
its replies (`at_`); the application got the requests and gave the replies of the log. -/
structure Explains (s : Service) (r : Rep) (log : List Entry) (stage : Stage) : Prop where
  reads : r.incoming.Reads (stage.history s.arrived log)
  at_ : At s.ended log r stage
  got : s.got = log.flatMap Entry.request ++ stage.request
  gave : s.gave = log.flatMap Entry.reply ++ stage.reply
  wf : ∀ e ∈ log, e.Wf
  lost : LostOnly s.ended log
  connected : ∀ id ∈ r.incoming.identities, id ∈ r.outgoing.identities ∨ id ∈ s.ended
  usedIn : ∀ id ∈ r.incoming.identities, id ∈ s.used
  usedOut : ∀ id ∈ r.outgoing.identities, id ∈ s.used ∧ id ∉ s.ended
  usedEnded : ∀ id ∈ s.ended, id ∈ s.used
  usedLog : ∀ e ∈ log, e.peer ∈ s.used
  usedStage : ∀ id ∈ stage.peer?, id ∈ s.used

/-- No assertion failed, and a log that continues this one explains everything. -/
def Continues (log : List Entry) (s : Service) : Prop :=
  ∃ r, s.rep = some r ∧ ∃ new stage, s.Explains r (log ++ new) stage

/-- No assertion failed, and a log explains everything. -/
def Answered (s : Service) : Prop := ∃ r, s.rep = some r ∧ ∃ log stage, s.Explains r log stage

/-! ## What a step keeps -/

variable {s s' : Service} {r : Rep} {log : List Entry} {stage : Stage}

theorem continues_of (stage : Stage) (hr : s.rep = some r) (h : s.Explains r log stage) :
    s.Continues log :=
  ⟨r, hr, [], stage, by rwa [List.append_nil]⟩

theorem Continues.answered (h : s.Continues log) : s.Answered := by
  obtain ⟨r, hr, new, stage, h⟩ := h
  exact ⟨r, hr, log ++ new, stage, h⟩

theorem Stage.history_arrived (stage : Stage) (arrived arrived' : List (Bytes × List Msg))
    (log : List Entry) :
    { stage.history arrived log with arrived := arrived' } = stage.history arrived' log := by
  cases stage <;> rfl

theorem answers_of_unused (h : s.Explains r log stage) {id : Bytes} (hid : id ∉ s.used) :
    answers log id = [] := by
  rw [answers, List.flatMap_eq_nil_iff]
  intro e he
  rw [Entry.answer, if_neg]
  rintro ⟨rfl, -⟩
  exact hid (h.usedLog e he)

theorem explains_start : start.Explains .start [] .idle where
  reads := Incoming.reads_start
  at_ := ⟨rfl, rfl, ⟨rfl, by simp [Outgoing.Holds, Outgoing.start, Rep.start]⟩,
    by simp [Outgoing.start, Rep.start]⟩
  got := rfl
  gave := rfl
  wf := by simp
  lost := by simp [LostOnly]
  connected := by simp [Incoming.start, Rep.start, Incoming.identities]
  usedIn := by simp [Incoming.start, Rep.start, Incoming.identities]
  usedOut := by simp [Outgoing.start, Rep.start, Outgoing.identities]
  usedEnded := by simp [start]
  usedLog := by simp
  usedStage := by simp [Stage.peer?]

/-- Something happens on the reading side. -/
theorem Explains.incoming (h : s.Explains r log stage) {i : Incoming}
    {arrived : List (Bytes × List Msg)} (hids : ∀ id ∈ i.identities, id ∈ r.incoming.identities)
    (hreads : i.Reads (stage.history arrived log)) :
    Explains { s with rep := some { r with incoming := i }, arrived := arrived }
      { r with incoming := i } log stage where
  reads := hreads
  at_ := by
    have hat := h.at_
    cases stage <;> exact hat
  got := h.got
  gave := h.gave
  wf := h.wf
  lost := h.lost
  connected id hid := h.connected id (hids id hid)
  usedIn id hid := h.usedIn id (hids id hid)
  usedOut := h.usedOut
  usedEnded := h.usedEnded
  usedLog := h.usedLog
  usedStage := h.usedStage

/-- A new peer does not change where the socket is. -/
theorem Explains.at_attach (h : s.Explains r log stage) {identity : Bytes}
    (hnew : identity ∉ s.used) : ∃ o, r.outgoing.attach identity = some o ∧
      At s.ended log { r with incoming := r.incoming.attach identity, outgoing := o } stage := by
  have hout : identity ∉ r.outgoing.identities := fun hid => hnew (h.usedOut _ hid).1
  have hat := h.at_
  cases stage with
  | idle =>
    obtain ⟨hsend, hbegin, hclosed, hstale⟩ := hat
    obtain ⟨o, ho, hclosed', hm⟩ := hclosed.attach hout (answers_of_unused h hnew)
    exact ⟨o, ho, hsend, hbegin, hclosed', fun hmore => hstale (hm ▸ hmore)⟩
  | reading peer backtrace request =>
    obtain ⟨hsend, hbegin, hbt, hreq, hsending⟩ := hat
    have hpeer : identity ≠ peer := fun hid => hnew (hid ▸ h.usedStage peer rfl)
    obtain ⟨o, ho, hsending'⟩ := hsending.attach hout (answers_of_unused h hnew) hpeer
    exact ⟨o, ho, hsend, hbegin, hbt, hreq, hsending'⟩
  | replying peer backtrace request reply =>
    obtain ⟨hsend, hbegin, hbt, hreq, hrep, hsending⟩ := hat
    have hpeer : identity ≠ peer := fun hid => hnew (hid ▸ h.usedStage peer rfl)
    obtain ⟨o, ho, hsending'⟩ := hsending.attach hout (answers_of_unused h hnew) hpeer
    exact ⟨o, ho, hsend, hbegin, hbt, hreq, hrep, hsending'⟩

theorem answered_attach (h : s.Explains r log stage) {identity : Bytes} (hne : identity ≠ [])
    (hnew : identity ∉ s.used) : (s.attach identity r).Continues log := by
  have hin : identity ∉ r.incoming.identities := fun hid => hnew (h.usedIn _ hid)
  have hout : identity ∉ r.outgoing.identities := fun hid => hnew (h.usedOut _ hid).1
  obtain ⟨o, ho, hat⟩ := h.at_attach hnew
  have hoids : o.identities = r.outgoing.identities ++ [identity] := by
    rw [Outgoing.attach, if_neg hout, Option.some.injEq] at ho
    rw [← ho]
    simp [Outgoing.identities]
  have hiids : (r.incoming.attach identity).identities = r.incoming.identities ++ [identity] := by
    simp [Incoming.attach, Incoming.identities]
  rw [attach, ho]
  refine continues_of stage rfl ⟨h.reads.attach hne hin, hat, h.got, h.gave, h.wf, h.lost,
    fun id hid => ?_, fun id hid => ?_, fun id hid => ?_, fun id hid => ?_, fun e he => ?_,
    fun id hid => ?_⟩
  · rw [hiids, List.mem_append] at hid
    show id ∈ o.identities ∨ _
    rw [hoids, List.mem_append]
    rcases hid with hid | hid
    · exact (h.connected id hid).imp_left Or.inl
    · exact Or.inl (Or.inr hid)
  · rw [hiids, List.mem_append, List.mem_singleton] at hid
    rcases hid with hid | rfl
    · exact List.mem_cons_of_mem _ (h.usedIn id hid)
    · exact List.mem_cons_self
  · have hid : id ∈ o.identities := hid
    rw [hoids, List.mem_append, List.mem_singleton] at hid
    rcases hid with hid | rfl
    · exact ⟨List.mem_cons_of_mem _ (h.usedOut id hid).1, (h.usedOut id hid).2⟩
    · exact ⟨List.mem_cons_self, fun hid => hnew (h.usedEnded id hid)⟩
  · exact List.mem_cons_of_mem _ (h.usedEnded id hid)
  · exact List.mem_cons_of_mem _ (h.usedLog e he)
  · exact List.mem_cons_of_mem _ (h.usedStage id hid)

/-- What is being sent to the peer is lost. -/
theorem Explains.at_writerTerminated (h : s.Explains r log stage) {peer : Bytes}
    (hin : peer ∈ r.outgoing.identities) : ∃ o, r.outgoing.terminated peer = some o ∧
      At (peer :: s.ended) log { r with outgoing := o } stage := by
  have hat := h.at_
  have hunreachable : ∀ {p}, Unreachable s.ended log p ∨ peer = p →
      Unreachable (peer :: s.ended) log p := by
    rintro p (hwhy | rfl)
    · exact hwhy.mono
    · exact Or.inl List.mem_cons_self
  cases stage with
  | idle =>
    obtain ⟨hsend, hbegin, hclosed, hstale⟩ := hat
    obtain ⟨o, ho, hclosed', hm⟩ := hclosed.terminated hin
    exact ⟨o, ho, hsend, hbegin, hclosed', fun hmore => (hstale (hm ▸ hmore)).mono⟩
  | reading p backtrace request =>
    obtain ⟨hsend, hbegin, hbt, hreq, hsending⟩ := hat
    obtain ⟨o, ho, hsending'⟩ := hsending.terminated hin
    exact ⟨o, ho, hsend, hbegin, hbt, hreq, hsending'.mono hunreachable⟩
  | replying p backtrace request reply =>
    obtain ⟨hsend, hbegin, hbt, hreq, hrep, hsending⟩ := hat
    obtain ⟨o, ho, hsending'⟩ := hsending.terminated hin
    exact ⟨o, ho, hsend, hbegin, hbt, hreq, hrep, hsending'.mono hunreachable⟩

theorem answered_writerTerminated (h : s.Explains r log stage) {peer : Bytes}
    (hs : s.writerTerminated peer r = some s') : s'.Continues log := by
  rw [writerTerminated] at hs
  split at hs
  · rename_i hin
    obtain ⟨o, ho, hat⟩ := h.at_writerTerminated hin
    have hoids : o.identities = r.outgoing.identities.filter fun id => id ≠ peer := by
      rw [Outgoing.terminated, if_pos hin, Option.some.injEq] at ho
      rw [← ho, Outgoing.identities, Outgoing.identities, List.filter_map]
      rfl
    rw [ho, Option.some.injEq] at hs
    subst hs
    refine continues_of stage rfl ⟨h.reads, hat, h.got, h.gave, h.wf, h.lost.mono, fun id hid => ?_,
      h.usedIn, fun id hid => ?_, fun id hid => ?_, h.usedLog, h.usedStage⟩
    · show id ∈ o.identities ∨ id ∈ peer :: s.ended
      rw [hoids, List.mem_filter]
      by_cases hp : id = peer
      · subst hp
        exact Or.inr List.mem_cons_self
      · rcases h.connected id hid with hid | hid
        · exact Or.inl ⟨hid, by simpa using hp⟩
        · exact Or.inr (List.mem_cons_of_mem _ hid)
    · have hid : id ∈ o.identities := hid
      rw [hoids] at hid
      obtain ⟨hid, hne⟩ := List.mem_filter.1 hid
      refine ⟨(h.usedOut id hid).1, fun hend => ?_⟩
      rcases List.mem_cons.1 hend with rfl | hend
      · simp at hne
      · exact (h.usedOut id hid).2 hend
    · rcases List.mem_cons.1 hid with rfl | hid
      · exact (h.usedOut _ hin).1
      · exact h.usedEnded id hid
  · cases hs

theorem answered_arrive (h : s.Explains r log stage) {peer : Bytes} {msg : List Msg}
    (hs : s.arrive peer msg r = some s') : s'.Continues log := by
  rw [arrive] at hs
  split at hs
  · cases hs
  rename_i p hp
  split at hs
  · rename_i hguard
    obtain ⟨hw, hopen⟩ := Bool.and_eq_true_iff.1 hguard
    obtain ⟨hmem, hid⟩ := Incoming.pipe?_spec hp
    obtain rfl := Option.some.inj hs
    have hin : peer ∈ r.incoming.identities := hid ▸ List.mem_map_of_mem hmem
    have hids := Incoming.identities_modify (s := r.incoming) peer (f := InPipe.arrive msg)
      fun _ => rfl
    have hreads := h.reads.arrive hin hw fun q hq hqid => h.reads.eq_of_pipe? hp hq hqid ▸ hopen
    rw [Stage.history_arrived] at hreads
    have harrived : (stage.history s.arrived log).arrived = s.arrived := by cases stage <;> rfl
    rw [harrived] at hreads
    exact continues_of stage rfl (h.incoming (fun id hid => hids ▸ hid) hreads)
  · cases hs

theorem answered_terminate (h : s.Explains r log stage) {peer : Bytes}
    (hs : s.terminate peer r = some s') : s'.Continues log := by
  rw [terminate] at hs
  split at hs
  · cases hs
  rename_i p hp
  split at hs
  · rename_i hopen
    obtain ⟨hmem, hid⟩ := Incoming.pipe?_spec hp
    obtain rfl := Option.some.inj hs
    have hin : peer ∈ r.incoming.identities := hid ▸ List.mem_map_of_mem hmem
    have hids := Incoming.identities_modify (s := r.incoming) peer (f := InPipe.terminate)
      fun _ => rfl
    have hreads := h.reads.terminate hin fun q hq hqid => h.reads.eq_of_pipe? hp hq hqid ▸ hopen
    exact continues_of stage rfl (h.incoming (fun id hid => hids ▸ hid) hreads)
  · cases hs

/-- A command for a reader that succeeds and keeps what was read. -/
theorem answered_command (h : s.Explains r log stage) {state : Reader} {peer : Bytes}
    {f : Incoming → Option Incoming}
    (hf : ∀ p, r.incoming.pipe? peer = some p → p.reader = state →
      ∃ i, f r.incoming = some i ∧ i.Reads (stage.history s.arrived log) ∧
        ∀ id ∈ i.identities, id ∈ r.incoming.identities)
    (hs : s.command state peer f r = some s') : s'.Continues log := by
  rw [command] at hs
  split at hs
  · cases hs
  rename_i p hp
  split at hs
  · rename_i hstate
    obtain ⟨i, hi, hreads, hids⟩ := hf p hp hstate
    obtain rfl := Option.some.inj hs
    rw [hi]
    exact continues_of stage rfl (h.incoming hids hreads)
  · cases hs

/-- Another part of a request is received. -/
theorem payload_spec {i : Incoming} {arrived : List (Bytes × List Msg)} {peer : Bytes}
    {parts : List Msg}
    (hr : i.Reads ⟨arrived, log.map Entry.message, some (peer, parts)⟩) (o : Outgoing) :
    ∃ m i', i'.identities = i.identities ∧
      i'.Reads (History.part peer parts m ⟨arrived, log.map Entry.message, some (peer, parts)⟩) ∧
      Rep.payload i o =
        some (.ok m, if m.more then ⟨i', o, false, false⟩ else ⟨i', o, true, true⟩) := by
  obtain ⟨m, i', hx, hreads⟩ := Incoming.xrecv_part hr rfl
  exact ⟨m, i', (Incoming.xrecv_work hx).1, hreads, by rw [Rep.payload, hx]⟩

theorem flatMap_skipped {f : Entry → List Msg} {new : List Entry}
    (h : ∀ e ∈ new, f e = []) : (log ++ new).flatMap f = log.flatMap f := by
  rw [List.flatMap_append, List.flatMap_eq_nil_iff.2 h, List.append_nil]

/-- Malformed messages are added to the log. -/
theorem Explains.skip (h : s.Explains r log stage) {new : List Entry}
    (hnew : ∀ e ∈ new, e.fate = .skipped ∧ e.Wf ∧ e.peer ∈ r.incoming.identities) :
    (∀ e ∈ log ++ new, e.Wf) ∧ LostOnly s.ended (log ++ new) ∧ (∀ e ∈ log ++ new, e.peer ∈ s.used) ∧
      s.got = (log ++ new).flatMap Entry.request ++ stage.request ∧
      s.gave = (log ++ new).flatMap Entry.reply ++ stage.reply := by
  refine ⟨fun e he => ?_, ?_, fun e he => ?_, ?_, ?_⟩
  · rcases List.mem_append.1 he with he | he
    · exact h.wf e he
    · exact (hnew e he).2.1
  · exact h.lost.append fun e he => (hnew e he).1
  · rcases List.mem_append.1 he with he | he
    · exact h.usedLog e he
    · exact h.usedIn _ (hnew e he).2.2
  · rw [flatMap_skipped fun e he => ((hnew e he).2.1.skipped (hnew e he).1).2.1]
    exact h.got
  · rw [flatMap_skipped fun e he => ((hnew e he).2.1.skipped (hnew e he).1).2.2]
    exact h.gave

/-- The application receives a part of a request, behind malformed messages that were
skipped and some parts of the request. -/
theorem answered_payload (h : s.Explains r log stage) (hreply : stage.reply = []) {i : Incoming}
    {o : Outgoing} {new : List Entry} {peer : Bytes} {backtrace : List Msg}
    (hiids : i.identities = r.incoming.identities) (hoids : o.identities = r.outgoing.identities)
    (hnew : ∀ e ∈ new, e.fate = .skipped ∧ e.Wf ∧ e.peer ∈ r.incoming.identities)
    (hr : i.Reads ⟨s.arrived, (log ++ new).map Entry.message,
      some (peer, backtrace ++ stage.request)⟩)
    (hbt : Backtrace backtrace) (hreq : ∀ m ∈ stage.request, m.more = true)
    (hsending : o.Sending (answers (log ++ new)) peer backtrace
      (Unreachable s.ended (log ++ new) peer))
    (hx : r.xrecv = Rep.payload i o) : (s.recv r).Continues log := by
  obtain ⟨m, i', hids, hreads, hpay⟩ := payload_spec hr o
  obtain ⟨hwf, hlost, hused, hgot, hgave⟩ := h.skip hnew
  rw [hreply, List.append_nil] at hgave
  have hpeer : peer ∈ s.used := h.usedIn peer (hiids ▸ hr.peer_mem rfl)
  have hgot' : s.got ++ [m] =
      (log ++ new).flatMap Entry.request ++ (stage.request ++ [m]) := by
    rw [hgot, List.append_assoc]
  have hcon : ∀ id ∈ i'.identities, id ∈ o.identities ∨ id ∈ s.ended := fun id hid => by
    rw [hoids]
    exact h.connected id (hiids ▸ hids ▸ hid)
  have hin : ∀ id ∈ i'.identities, id ∈ s.used := fun id hid => h.usedIn id (hiids ▸ hids ▸ hid)
  have hout : ∀ id ∈ o.identities, id ∈ s.used ∧ id ∉ s.ended :=
    fun id hid => h.usedOut id (hoids ▸ hid)
  rw [recv, hx, hpay]
  cases hm : m.more with
  | true =>
    rw [History.part, if_pos hm, List.append_assoc] at hreads
    refine ⟨_, rfl, new, .reading peer backtrace (stage.request ++ [m]), hreads,
      ⟨rfl, rfl, hbt, ⟨by simp, fun x hx => ?_⟩, hsending⟩, hgot',
      hgave.trans (List.append_nil _).symm, hwf, hlost, hcon, hin, hout, h.usedEnded, hused,
      by simpa [Stage.peer?] using hpeer⟩
    rcases List.mem_append.1 hx with hx | hx
    · exact hreq x hx
    · rw [List.mem_singleton.1 hx]
      exact hm
  | false =>
    rw [History.part, if_neg (by simp [hm]), List.append_assoc] at hreads
    refine ⟨_, rfl, new, .replying peer backtrace (stage.request ++ [m]) [], hreads,
      ⟨rfl, rfl, hbt, whole_append hreq hm, by simp, ?_⟩, hgot',
      hgave.trans (List.append_nil _).symm, hwf, hlost, hcon, hin, hout, h.usedEnded, hused,
      by simpa [Stage.peer?] using hpeer⟩
    rw [List.append_nil]
    exact hsending

theorem answered_recv (h : s.Explains r log stage) : (s.recv r).Continues log := by
  have hat := h.at_
  cases stage with
  | idle =>
    obtain ⟨hsend, hbegin, hclosed, hstale⟩ := hat
    obtain ⟨b, i, o, new, hloop, hspec⟩ := Rep.backtrace_spec h.connected
      (Or.inl ⟨h.reads, hclosed, hstale⟩)
    have hx : r.xrecv = if b then Rep.payload i o
        else some (.error .again, { r with incoming := i, outgoing := o }) := by
      rw [Rep.xrecv, if_neg (by simp [hsend]), if_pos hbegin, hloop]
      cases b <;> rfl
    cases b with
    | false =>
      have hbetween := hspec.between rfl
      obtain ⟨hwf, hlost, hused, hgot, hgave⟩ := h.skip hspec.skipped
      rw [recv, hx]
      refine ⟨_, rfl, new, .idle, hbetween.reads, ⟨hsend, hbegin, hbetween.closed,
        hbetween.stale⟩, hgot, hgave, hwf, hlost, fun id hid => ?_, fun id hid => ?_,
        fun id hid => ?_, h.usedEnded, hused, by simp [Stage.peer?]⟩
      · show id ∈ o.identities ∨ _
        rw [hspec.outIdentities]
        exact h.connected id (hspec.inIdentities ▸ hid)
      · exact h.usedIn id (hspec.inIdentities ▸ hid)
      · exact h.usedOut id (hspec.outIdentities ▸ hid)
    | true =>
      obtain ⟨peer, parts, hbt, hinside⟩ := hspec.inside rfl
      exact answered_payload h rfl hspec.inIdentities hspec.outIdentities hspec.skipped
        (by rw [Stage.request, List.append_nil]; exact hinside.reads) hbt (by simp [Stage.request])
        hinside.sending hx
  | reading peer backtrace request =>
    obtain ⟨hsend, hbegin, hbt, hreq, hsending⟩ := hat
    have hx : r.xrecv = Rep.payload r.incoming r.outgoing := by
      rw [Rep.xrecv, if_neg (by simp [hsend]), if_neg (by simp [hbegin])]
    have hlog : log ++ [] = log := List.append_nil log
    have hskipped : ∀ e ∈ ([] : List Entry), e.fate = .skipped ∧ e.Wf ∧
        e.peer ∈ r.incoming.identities := by simp
    exact answered_payload h rfl rfl rfl hskipped (by rw [hlog]; exact h.reads) hbt hreq.2
      (by rw [hlog]; exact hsending) hx
  | replying peer backtrace request reply =>
    rw [recv, Rep.xrecv, if_pos hat.1]
    exact continues_of _ rfl ⟨h.reads, hat, h.got, h.gave, h.wf, h.lost, h.connected, h.usedIn,
      h.usedOut, h.usedEnded, h.usedLog, h.usedStage⟩

/-- A part of a reply that is not the last one. -/
theorem answered_send_more {peer : Bytes} {backtrace request reply : List Msg}
    (h : s.Explains r log (.replying peer backtrace request reply)) {msg : Msg}
    (hm : msg.more = true) : (s.send msg r).Continues log := by
  obtain ⟨hsend, hbegin, hbt, hreq, hrep, hsending⟩ := h.at_
  have hgave : s.gave ++ [msg] = log.flatMap Entry.reply ++ (reply ++ [msg]) := by
    rw [h.gave, List.append_assoc]
    rfl
  obtain ⟨o, ho, hoids, hsending'⟩ := hsending.xsend_more hm
  rw [List.append_assoc] at hsending'
  rw [send, Rep.xsend, if_pos hsend, ho]
  refine continues_of (.replying peer backtrace request (reply ++ [msg])) rfl ⟨h.reads,
    ⟨hm, hbegin, hbt, hreq, fun x hx => ?_, hsending'⟩, h.got, hgave, h.wf, h.lost,
    fun id hid => hoids ▸ h.connected id hid, h.usedIn,
    fun id hid => h.usedOut id (hoids ▸ hid), h.usedEnded, h.usedLog, h.usedStage⟩
  rcases List.mem_append.1 hx with hx | hx
  · exact hrep x hx
  · rw [List.mem_singleton.1 hx]
    exact hm

/-- The reply is complete, and the log grows. -/
theorem answered_send_last {peer : Bytes} {backtrace request reply : List Msg}
    (h : s.Explains r log (.replying peer backtrace request reply)) {msg : Msg}
    (hm : msg.more = false) : (s.send msg r).Continues log := by
  obtain ⟨hsend, hbegin, hbt, hreq, hrep, hsending⟩ := h.at_
  have hgave : s.gave ++ [msg] = log.flatMap Entry.reply ++ (reply ++ [msg]) := by
    rw [h.gave, List.append_assoc]
    rfl
  obtain ⟨o, lost, ho, hoids, hmore, hwhy, hthere, hclosed⟩ := hsending.xsend_last hm
  let e : Entry := ⟨peer, backtrace, request, reply ++ [msg], if lost then .lost else .sent⟩
  have hanswers : answers (log ++ [e]) = fun id => answers log id ++
      if id = peer ∧ lost = false then backtrace ++ reply ++ [msg] else [] := by
    funext id
    rw [answers_snoc]
    cases lost <;> simp [e, Entry.answer, eq_comm]
  have hwf : e.Wf := by
    refine ⟨fun hskip => ?_, fun _ => ⟨hbt, hreq, whole_append hrep hm⟩⟩
    cases lost <;> cases hskip
  have hlost : e.fate = .lost → Unreachable s.ended log e.peer := fun hl => hwhy (by
    cases lost with
    | true => rfl
    | false => cases hl)
  have hsent : e.fate = .sent → e.peer ∉ s.ended := fun hs => (h.usedOut peer (hthere (by
    cases lost with
    | true => cases hs
    | false => rfl))).2
  rw [send, Rep.xsend, if_pos hsend, ho]
  refine ⟨_, rfl, [e], .idle, ?_, ⟨hm, hbegin, hanswers ▸ hclosed, ?_⟩, ?_, ?_,
    fun x hx => ?_, h.lost.snoc hlost hsent, fun id hid => hoids ▸ h.connected id hid,
    h.usedIn, fun id hid => h.usedOut id (hoids ▸ hid), h.usedEnded, fun x hx => ?_,
    by simp [Stage.peer?]⟩
  · have hreads := h.reads
    rw [Stage.history] at hreads
    rw [Stage.history, messages_snoc]
    exact hreads
  · intro hmo
    rw [hmore] at hmo
    cases hmo
  · rw [List.flatMap_append, List.flatMap_singleton]
    simpa [Stage.request] using h.got
  · rw [List.flatMap_append, List.flatMap_singleton]
    simpa [Stage.reply] using hgave
  · rcases List.mem_append.1 hx with hx | hx
    · exact h.wf x hx
    · rw [List.mem_singleton.1 hx]
      exact hwf
  · rcases List.mem_append.1 hx with hx | hx
    · exact h.usedLog x hx
    · rw [List.mem_singleton.1 hx]
      exact h.usedStage peer rfl

theorem answered_send (h : s.Explains r log stage) (msg : Msg) : (s.send msg r).Continues log := by
  have hat := h.at_
  have hrefused : r.sendingReply = false → (s.send msg r).Continues log := fun hsend => by
    rw [send, Rep.xsend, if_neg (by simp [hsend])]
    exact continues_of stage rfl ⟨h.reads, h.at_, h.got, h.gave, h.wf, h.lost, h.connected,
      h.usedIn, h.usedOut, h.usedEnded, h.usedLog, h.usedStage⟩
  cases stage with
  | idle => exact hrefused hat.1
  | reading peer backtrace request => exact hrefused hat.1
  | replying peer backtrace request reply =>
    cases hm : msg.more with
    | true => exact answered_send_more h hm
    | false => exact answered_send_last h hm

/-- What a step adds is explained behind what was there. -/
theorem answered_step (hr : s.rep = some r) (h : s.Explains r log stage) {a : Action}
    (ha : s.Fresh a) (hs : step s a = some s') : s'.Continues log := by
  rw [step, hr] at hs
  cases a with
  | attach uuid identity =>
    obtain rfl := Option.some.inj hs
    exact answered_attach h (Inout.peerIdentity_ne_nil uuid identity) ha
  | arrive peer msg => exact answered_arrive h hs
  | terminate peer => exact answered_terminate h hs
  | activated peer =>
    refine answered_command h (fun p hp hstate => ?_) hs
    obtain ⟨i, hi, hreads⟩ := h.reads.activated hp hstate
    exact ⟨i, hi, hreads, Incoming.activated_identities hi⟩
  | readerTerminated peer =>
    refine answered_command h (fun p hp hstate => ?_) hs
    obtain ⟨i, hi, hreads⟩ := h.reads.terminated hp hstate
    exact ⟨i, hi, hreads, Incoming.terminated_identities hi⟩
  | writerTerminated peer => exact answered_writerTerminated h hs
  | recv => exact Option.some.inj hs ▸ answered_recv h
  | send msg => exact Option.some.inj hs ▸ answered_send h msg

/-- **Every request is answered once, to the peer it came from**, in the order in which
the requests are read, whatever peers and application do, if no two peers come with one
identity. -/
theorem requests_answered {as : List Action} (h : Run.Guarded step Fresh start as) :
    Run.Along step Answered start as :=
  Run.along_of_guarded
    (fun _ _ _ ⟨_, hr, _, _, h⟩ ha hs => (answered_step hr h ha hs).answered)
    ⟨_, rfl, [], .idle, explains_start⟩ h

/-- A nameless peer and one with a name come, and the first one sends a request. -/
theorem requests_answered_two : Run.Along step Answered start
    [.attach [1] (.init []), .attach [2] (.init [7]),
      .arrive [0, 1] [(Msg.init []).withMore, .init [8]], .recv, .send (.init [9])] := by
  refine requests_answered fun s hs => ⟨by simp [Fresh, start], fun s' hs' => ⟨?_, ?_⟩⟩
  · obtain rfl := Option.some.inj hs
    show Inout.peerIdentity [2] (.init [7]) ∉ [Inout.peerIdentity [1] (.init [])]
    decide
  · exact fun _ _ => ⟨trivial, fun _ _ => ⟨trivial, fun _ _ => ⟨trivial, trivial⟩⟩⟩

end Service

end Fsync.Zmq
