import Fsync.Base.Registry
import Fsync.Base.Streams
import Fsync.Zmq.Wire

/-!
# Many peers on one socket

`xrep_t` reads the messages of its peers in turn, each with the identity of its peer in
front, and sends a message to the peer whose identity is in front of it.  Both sides of
the socket are independent, and are taken apart here.  Neither a high-water mark nor a
swap is set, so a pipe always has room, and the socket is not closed.

An operation gives none where an assertion of the source fails, or where it would read
an element that is not there.

* `Incoming.xrecv_scan`, `Incoming.xrecv_part`: the reading side returns the messages of a
  peer in the order they arrived, each as a whole behind the identity of its peer;
* `Outgoing.Sending.xsend_more`, `Outgoing.Sending.xsend_last`: the sending side puts a
  message as a whole into the pipe of its peer, or drops it as a whole.
-/

namespace Fsync.Zmq

open Streams

instance (identity : Bytes) (identities : List Bytes) : Decidable (identity ∈ identities) :=
  inferInstance

/-- `EFSM` and `EAGAIN` -/
inductive Errno where
  | fsm
  | again
  deriving DecidableEq, Repr

/-! ## The reading side -/

/-- The reader of a pipe: `active`; the pipe holds no part and its reader waits to be
woken; the command that wakes it is on its way; the delimiter was read. -/
inductive Reader where
  | awake
  | asleep
  | waking
  | terminating
  deriving DecidableEq, Repr

/-- `inpipe_t`, with its reader and what is in the pipe. -/
structure InPipe where
  identity : Bytes
  active : Bool
  reader : Reader
  /-- flushed, and not read yet -/
  parts : List Msg
  /-- The delimiter is behind the parts. -/
  delimiter : Bool
  deriving DecidableEq, Repr

namespace InPipe

/-- `reader_t::read` -/
def read (p : InPipe) : Option Msg × InPipe :=
  if p.reader = .awake then
    match p.parts with
    | m :: parts => (some m, { p with parts := parts })
    | [] =>
      (none,
        { p with reader := if p.delimiter then .terminating else .asleep, delimiter := false })
  else (none, p)

/-- "Try to fetch new message." -/
def fetch (p : InPipe) : Option Msg × InPipe := if p.active then p.read else (none, p)

/-- `writer_t::flush`: the reader is woken if it is asleep. -/
def wake (p : InPipe) : InPipe :=
  { p with reader := if p.reader = .asleep then .waking else p.reader }

/-- The session writes a message and flushes the pipe. -/
def arrive (msg : List Msg) (p : InPipe) : InPipe := { p with parts := p.parts ++ msg }.wake

/-- `writer_t::terminate`: the session pushes the delimiter. -/
def terminate (p : InPipe) : InPipe := { p with delimiter := true }.wake

/-- The session can still write. -/
def open? (p : InPipe) : Bool := !p.delimiter && p.reader ≠ .terminating

end InPipe

/-- The reading side of `xrep_t`. -/
structure Incoming where
  inpipes : List InPipe
  currentIn : ℕ
  /-- `prefetched` and `prefetched_msg` -/
  prefetched : Option Msg
  moreIn : Bool
  deriving DecidableEq, Repr

namespace Incoming

/-- No pipe is bound. -/
def start : Incoming := ⟨[], 0, none, false⟩

/-- The identities of the peers with an inbound pipe. -/
def identities (s : Incoming) : List Bytes := s.inpipes.map InPipe.identity

/-- `current_in++; if (current_in >= inpipes.size ()) current_in = 0;` -/
def next (s : Incoming) : ℕ := if s.inpipes.length ≤ s.currentIn + 1 then 0 else s.currentIn + 1

/-- The pipe at `current_in` is replaced. -/
def setCurrent (p : InPipe) (s : Incoming) : Incoming :=
  { s with inpipes := s.inpipes.set s.currentIn p }

/-- "If me don't have a message, mark the pipe as passive and move to next pipe." -/
def pass (p : InPipe) (s : Incoming) : Incoming :=
  { s.setCurrent { p with active := false } with currentIn := s.next }

/-- "Round-robin over the pipes to get the next message."  Where there is one, its peer's
identity is returned as a prefix. -/
def scan : ℕ → Incoming → Option (Option Msg × Incoming)
  | 0, s => some (none, s)
  | count + 1, s =>
    match s.inpipes[s.currentIn]? with
    | none => none
    | some p =>
      match p.fetch with
      | (some m, p') =>
        some (some (Msg.init p.identity).withMore, { s.setCurrent p' with prefetched := some m })
      | (none, p') => scan count (s.pass p')

/-- "If we are in the middle of reading a message, just grab next part of it." -/
def grab (s : Incoming) : Option (Option Msg × Incoming) :=
  match s.inpipes[s.currentIn]? with
  | none => none
  | some p =>
    if p.active then
      match p.read with
      | (some m, p') =>
        some (some m,
          { s.setCurrent p' with
            moreIn := m.more
            currentIn := if m.more then s.currentIn else s.next })
      | (none, _) => none
    else none

/-- `xrep_t::xrecv`: a part, or none with `EAGAIN`. -/
def xrecv (s : Incoming) : Option (Option Msg × Incoming) :=
  match s.prefetched with
  | some m => some (some m, { s with prefetched := none, moreIn := m.more })
  | none => if s.moreIn then s.grab else s.scan s.inpipes.length

/-- `xattach_pipes` -/
def attach (identity : Bytes) (s : Incoming) : Incoming :=
  { s with inpipes := s.inpipes ++ [⟨identity, true, .awake, [], false⟩] }

/-- Something happens to the pipe of a peer. -/
def modify (identity : Bytes) (f : InPipe → InPipe) (s : Incoming) : Incoming :=
  { s with inpipes := s.inpipes.map fun p => if p.identity = identity then f p else p }

/-- The inbound pipe of a peer. -/
def pipe? (identity : Bytes) (s : Incoming) : Option InPipe :=
  s.inpipes.find? fun p => p.identity = identity

/-- `process_activate_reader`, and `activated` of its pipe. -/
def activated (identity : Bytes) (s : Incoming) : Option Incoming :=
  match s.pipe? identity with
  | none => none
  | some p =>
    if p.active then none
    else some (s.modify identity fun p => { p with active := true, reader := .awake })

/-- `terminated` of the reader of a peer. -/
def terminated (identity : Bytes) (s : Incoming) : Option Incoming :=
  let i := s.inpipes.findIdx fun p => p.identity = identity
  if i < s.inpipes.length then
    let currentIn := if i < s.currentIn then s.currentIn - 1 else s.currentIn
    let inpipes := s.inpipes.eraseIdx i
    some { s with
      inpipes := inpipes
      currentIn := if inpipes.length ≤ currentIn then 0 else currentIn }
  else none

end Incoming

/-! ### What the reading side keeps -/

/-- What arrived at a socket, and what it returned: the whole messages, and the parts of
the one that is being read, each with the identity of its peer. -/
structure History where
  arrived : List (Bytes × List Msg)
  returned : List (Bytes × List Msg)
  current : Option (Bytes × List Msg)

namespace History

/-- The parts of the message that is being read, if it is from this peer. -/
def begun (identity : Bytes) (h : History) : List Msg :=
  match h.current with
  | some (peer, parts) => if peer = identity then parts else []
  | none => []

/-- The parts of a peer that were returned. -/
def read (identity : Bytes) (h : History) : List Msg :=
  (ofKey identity h.returned).flatten ++ h.begun identity

/-- Another part of a message was returned. -/
def part (peer : Bytes) (parts : List Msg) (m : Msg) (h : History) : History :=
  if m.more then { h with current := some (peer, parts ++ [m]) }
  else { h with returned := h.returned ++ [(peer, parts ++ [m])], current := none }

theorem read_part {h : History} {peer : Bytes} {parts : List Msg}
    (hcur : h.current = some (peer, parts)) (m : Msg) (identity : Bytes) :
    (h.part peer parts m).read identity =
      h.read identity ++ if peer = identity then [m] else [] := by
  by_cases hid : peer = identity
  · subst hid
    cases hm : m.more <;> simp [part, read, begun, hm, hcur]
  · cases hm : m.more <;> simp [part, read, begun, hm, hcur, hid, ofKey_of_ne]

@[simp] theorem part_arrived (h : History) (peer : Bytes) (parts : List Msg) (m : Msg) :
    (h.part peer parts m).arrived = h.arrived := by
  rw [part]
  split <;> rfl

theorem whole_part {h : History} {parts : List Msg}
    (hw : ∀ e ∈ h.returned, whole Msg.more e.2 = true) (hparts : ∀ x ∈ parts, x.more = true)
    (peer : Bytes) (m : Msg) :
    ∀ e ∈ (h.part peer parts m).returned, whole Msg.more e.2 = true := by
  rw [part]
  split
  · exact hw
  · rename_i hm
    intro e he
    rcases List.mem_append.1 he with he | he
    · exact hw e he
    · rw [List.mem_singleton.1 he]
      exact whole_append hparts (Bool.eq_false_iff.2 hm)

end History

namespace InPipe

/-- What holds of the pipe of a peer. -/
structure Ok (p : InPipe) : Prop where
  terminated : Terminated Msg.more p.parts
  active_iff : p.active = true ↔ p.reader = .awake
  /-- Only a reader that is awake, or is being woken, has something to read. -/
  silent : p.reader = .asleep ∨ p.reader = .terminating → p.parts = [] ∧ p.delimiter = false

theorem Ok.fetch_some {p p' : InPipe} {m : Msg} (h : p.Ok) (hf : p.fetch = (some m, p')) :
    p.active = true ∧ p.parts = m :: p'.parts ∧ p' = { p with parts := p'.parts } ∧ p'.Ok := by
  rw [fetch] at hf
  split at hf
  · rename_i ha
    rw [read, if_pos (h.active_iff.1 ha)] at hf
    split at hf
    · rename_i m' parts hparts
      rw [Prod.mk.injEq, Option.some.injEq] at hf
      obtain ⟨rfl, rfl⟩ := hf
      have hterm := h.terminated
      rw [hparts] at hterm
      refine ⟨ha, hparts, rfl, hterm.rest, h.active_iff, fun hr => ?_⟩
      exact absurd ((h.silent hr).1.symm.trans hparts) (by simp)
    · cases hf
  · cases hf

theorem Ok.fetch_cons {p : InPipe} {m : Msg} {parts : List Msg} (h : p.Ok) (hact : p.active = true)
    (hparts : p.parts = m :: parts) :
    p.fetch = (some m, { p with parts := parts }) ∧ { p with parts := parts }.Ok := by
  have hf : p.fetch = (some m, { p with parts := parts }) := by
    rw [fetch, if_pos hact, read, if_pos (h.active_iff.1 hact), hparts]
  exact ⟨hf, (h.fetch_some hf).2.2.2⟩

/-- A pipe in which nothing was found is marked as passive. -/
theorem Ok.fetch_none {p p' : InPipe} (h : p.Ok) (hf : p.fetch = (none, p')) :
    p'.identity = p.identity ∧ p'.parts = p.parts ∧ (p.active = true → p.parts = []) ∧
      { p' with active := false }.Ok := by
  rw [fetch] at hf
  split at hf
  · rename_i ha
    rw [read, if_pos (h.active_iff.1 ha)] at hf
    split at hf
    · cases hf
    · rename_i hparts
      rw [Prod.mk.injEq] at hf
      obtain ⟨-, rfl⟩ := hf
      refine ⟨rfl, rfl, fun _ => hparts, h.terminated, ?_, fun _ => ⟨hparts, rfl⟩⟩
      show false = true ↔ (if p.delimiter then Reader.terminating else .asleep) = .awake
      cases p.delimiter <;> simp
  · rename_i ha
    rw [Prod.mk.injEq] at hf
    obtain ⟨-, rfl⟩ := hf
    refine ⟨rfl, rfl, fun hact => absurd hact ha, h.terminated, ?_, h.silent⟩
    simpa using h.active_iff.not.1 ha

theorem open?_fetch {p p' : InPipe} {r : Option Msg} (h : p.open? = true) (hf : p.fetch = (r, p')) :
    p'.open? = true := by
  rw [open?, Bool.and_eq_true, Bool.not_eq_true'] at h ⊢
  rw [fetch] at hf
  split at hf
  · rw [read] at hf
    split at hf
    · split at hf <;> obtain ⟨rfl, rfl⟩ := Prod.mk.inj hf
      · exact h
      · exact ⟨rfl, by simp [h.1]⟩
    · obtain ⟨rfl, rfl⟩ := Prod.mk.inj hf
      exact h
  · obtain ⟨rfl, rfl⟩ := Prod.mk.inj hf
    exact h

theorem open?_wake {p : InPipe} {parts : List Msg} (h : p.open? = true) :
    (wake { p with parts := parts }).open? = true := by
  rw [open?, Bool.and_eq_true] at h ⊢
  refine ⟨h.1, ?_⟩
  show decide ((if p.reader = .asleep then Reader.waking else p.reader) ≠ .terminating) = true
  have hne := h.2
  cases hr : p.reader <;> simp [hr] at hne ⊢

/-- What is written into an open pipe is found: its reader is awake, or it is woken. -/
theorem Ok.wake {p : InPipe} (h : p.Ok) {parts : List Msg} {delimiter : Bool}
    (hparts : Terminated Msg.more parts) (hopen : p.open? = true) :
    (InPipe.wake { p with parts := parts, delimiter := delimiter }).Ok := by
  have hne : p.reader ≠ .terminating := by
    rw [open?, Bool.and_eq_true, decide_eq_true_eq] at hopen
    exact hopen.2
  have hreader : (if p.reader = .asleep then Reader.waking else p.reader) = .awake ↔
      p.reader = .awake := by
    cases p.reader <;> simp
  refine ⟨hparts, h.active_iff.trans hreader.symm, fun hs => ?_⟩
  have hs' : (if p.reader = .asleep then Reader.waking else p.reader) = .asleep ∨
      (if p.reader = .asleep then Reader.waking else p.reader) = .terminating := hs
  cases hr : p.reader <;> simp [hr] at hs' hne

end InPipe

namespace Incoming

/-- The table of the pipes. -/
structure Table (s : Incoming) : Prop where
  nodup : s.identities.Nodup
  named : [] ∉ s.identities
  current : s.currentIn < s.inpipes.length ∨ s.currentIn = 0
  pipe : ∀ p ∈ s.inpipes, p.Ok

/-- Where the socket is in a message: not in one; the prefix was returned, and the first
part is at hand; behind some parts of the message of the current pipe. -/
def At (s : Incoming) : Option (Bytes × List Msg) → Prop
  | none => s.prefetched = none ∧ s.moreIn = false
  | some (peer, parts) => ∃ p, s.inpipes[s.currentIn]? = some p ∧ p.identity = peer ∧
      p.active = true ∧ (∀ m ∈ parts, m.more = true) ∧
      if parts = [] then ∃ m, s.prefetched = some m ∧ (m.more = true → p.parts ≠ [])
      else s.prefetched = none ∧ s.moreIn = true ∧ p.parts ≠ []

/-- What is at hand of the messages of a peer. -/
def atHand (identity : Bytes) (h : History) (s : Incoming) : List Msg :=
  if h.current.map Prod.fst = some identity then s.prefetched.toList else []

/-- **Nothing is lost**: what a peer sent was read, is at hand, or is in its pipe. -/
structure Reads (h : History) (s : Incoming) : Prop where
  table : s.Table
  place : s.At h.current
  whole : ∀ e ∈ h.returned, whole Msg.more e.2 = true
  waiting : ∀ p ∈ s.inpipes, (ofKey p.identity h.arrived).flatten =
    h.read p.identity ++ s.atHand p.identity h ++ p.parts
  gone : ∀ identity ∉ s.identities, (ofKey identity h.arrived).flatten = h.read identity

/-! ### Replacing the current pipe -/

variable {s : Incoming} {p p' : InPipe}

theorem identities_setCurrent (hp : s.inpipes[s.currentIn]? = some p)
    (hid : p'.identity = p.identity) : (s.setCurrent p').identities = s.identities := by
  obtain ⟨hlt, rfl⟩ := List.getElem?_eq_some_iff.1 hp
  rw [identities, setCurrent, List.map_set, hid, identities]
  exact List.ext_getElem (by simp) fun i hi _ => by
    rw [List.getElem_set]
    split
    · rename_i h
      subst h
      simp
    · rfl

theorem mem_setCurrent (h : s.Table) (hp : s.inpipes[s.currentIn]? = some p)
    (hid : p'.identity = p.identity) {q : InPipe} (hq : q ∈ (s.setCurrent p').inpipes) :
    q = p' ∨ q ∈ s.inpipes ∧ q.identity ≠ p.identity := by
  have hnodup := h.nodup
  rw [← identities_setCurrent hp hid] at hnodup
  have hlt : s.currentIn < s.inpipes.length := (List.getElem?_eq_some_iff.1 hp).1
  have hp' : p' ∈ (s.setCurrent p').inpipes := List.mem_set hlt p'
  rcases List.mem_or_eq_of_mem_set hq with hmem | rfl
  · by_cases hk : q.identity = p.identity
    · exact Or.inl (List.inj_on_of_nodup_map hnodup hq hp' (hk.trans hid.symm))
    · exact Or.inr ⟨hmem, hk⟩
  · exact Or.inl rfl

theorem Table.setCurrent (h : s.Table) (hp : s.inpipes[s.currentIn]? = some p)
    (hid : p'.identity = p.identity) (hok : p'.Ok) : (s.setCurrent p').Table where
  nodup := by
    rw [identities_setCurrent hp hid]
    exact h.nodup
  named := by
    rw [identities_setCurrent hp hid]
    exact h.named
  current := by
    refine Or.inl ?_
    rw [Incoming.setCurrent, List.length_set]
    exact (List.getElem?_eq_some_iff.1 hp).1
  pipe q hq := by
    rcases mem_setCurrent h hp hid hq with rfl | ⟨hq, -⟩
    · exact hok
    · exact h.pipe q hq

theorem next_lt (h : s.currentIn < s.inpipes.length) : s.next < s.inpipes.length := by
  rw [next]
  split <;> omega

/-! ### Reading -/

variable {h : History}

theorem atHand_of_none (hs : s.prefetched = none) (identity : Bytes) :
    s.atHand identity h = [] := by
  simp [atHand, hs]

/-- A peer that is not there has nothing more to read when a part of another one is. -/
theorem Reads.gone_part (hr : s.Reads h) {peer : Bytes} {parts : List Msg}
    (hcur : h.current = some (peer, parts)) (hpeer : peer ∈ s.identities) (m : Msg) :
    ∀ identity ∉ s.identities, (ofKey identity (h.part peer parts m).arrived).flatten =
      (h.part peer parts m).read identity := by
  intro identity hid
  have hne : peer ≠ identity := fun he => hid (he ▸ hpeer)
  rw [History.part_arrived, History.read_part hcur, if_neg hne, List.append_nil]
  exact hr.gone identity hid

/-- The first part of a message is at hand behind its prefix. -/
theorem xrecv_prefetched (hr : s.Reads h) {peer : Bytes} (hcur : h.current = some (peer, [])) :
    ∃ m s', s.xrecv = some (some m, s') ∧ s'.Reads (h.part peer [] m) := by
  have hplace := hr.place
  rw [hcur] at hplace
  obtain ⟨p, hp, hid, hact, -, hif⟩ := hplace
  rw [if_pos rfl] at hif
  obtain ⟨m, hm, hrest⟩ := hif
  refine ⟨m, { s with prefetched := none, moreIn := m.more }, by simp [xrecv, hm], ?_⟩
  have hpeer : peer ∈ s.identities := by
    rw [← hid]
    exact List.mem_map_of_mem (List.mem_of_getElem? hp)
  refine ⟨⟨hr.table.nodup, hr.table.named, hr.table.current, hr.table.pipe⟩, ?_,
    History.whole_part hr.whole (by simp) peer m, fun q hq => ?_, hr.gone_part hcur hpeer m⟩
  · rw [History.part]
    split
    · rename_i hmore
      refine ⟨p, hp, hid, hact, by simp [hmore], ?_⟩
      rw [if_neg (by simp)]
      exact ⟨rfl, hmore, hrest hmore⟩
    · rename_i hmore
      exact ⟨rfl, Bool.eq_false_iff.2 hmore⟩
  · rw [History.part_arrived, History.read_part hcur, atHand_of_none rfl, List.append_nil,
      hr.waiting q hq, atHand, hcur, hm]
    simp

/-- The other parts are read from its pipe. -/
theorem xrecv_grab (hr : s.Reads h) {peer : Bytes} {parts : List Msg}
    (hcur : h.current = some (peer, parts)) (hne : parts ≠ []) :
    ∃ m s', s.xrecv = some (some m, s') ∧ s'.Reads (h.part peer parts m) := by
  have hplace := hr.place
  rw [hcur] at hplace
  obtain ⟨p, hp, rfl, hact, hparts, hif⟩ := hplace
  rw [if_neg hne] at hif
  obtain ⟨hpre, hmore, hrest⟩ := hif
  have hok := hr.table.pipe p (List.mem_of_getElem? hp)
  have hlt : s.currentIn < s.inpipes.length := (List.getElem?_eq_some_iff.1 hp).1
  obtain ⟨m, ps, hps⟩ := List.exists_cons_of_ne_nil hrest
  obtain ⟨hfetch, hok'⟩ := hok.fetch_cons hact hps
  have hread : p.read = (some m, { p with parts := ps }) := by
    rwa [InPipe.fetch, if_pos hact] at hfetch
  have hid : { p with parts := ps }.identity = p.identity := rfl
  have hids : (s.setCurrent { p with parts := ps }).identities = s.identities :=
    identities_setCurrent hp hid
  have htable := hr.table.setCurrent hp hid hok'
  refine ⟨m, ⟨(s.setCurrent { p with parts := ps }).inpipes,
    if m.more then s.currentIn else s.next, s.prefetched, m.more⟩, ?_, ?_⟩
  · rw [xrecv, hpre]
    simp only [hmore, if_true, grab, hp, hact, hread, setCurrent, hpre]
  refine ⟨?_, ?_, History.whole_part hr.whole hparts p.identity m, fun q hq => ?_, ?_⟩
  · refine ⟨htable.nodup, htable.named, ?_, htable.pipe⟩
    have hnext := next_lt hlt
    cases m.more <;> simp [setCurrent, hlt, hnext]
  · rw [History.part]
    split
    · rename_i hm
      refine ⟨{ p with parts := ps }, ?_, rfl, hact, ?_, ?_⟩
      · simp [setCurrent, hlt]
      · intro x hx
        rcases List.mem_append.1 hx with hx | hx
        · exact hparts x hx
        · rw [List.mem_singleton.1 hx]
          exact hm
      · rw [if_neg (by simp)]
        have hterm := hok.terminated
        rw [hps] at hterm
        exact ⟨hpre, hm, hterm.rest_ne_nil hm⟩
    · rename_i hm
      exact ⟨hpre, Bool.eq_false_iff.2 hm⟩
  · rw [History.part_arrived, History.read_part hcur]
    simp only [atHand, hpre, Option.toList_none, ite_self, List.append_nil]
    rcases mem_setCurrent hr.table hp hid hq with rfl | ⟨hq, hk⟩
    · have hw := hr.waiting p (List.mem_of_getElem? hp)
      rw [atHand_of_none hpre, List.append_nil, hps] at hw
      simpa using hw
    · rw [hr.waiting q hq, atHand_of_none hpre, if_neg (Ne.symm hk)]
  · intro identity hid
    refine hr.gone_part hcur (List.mem_map_of_mem (List.mem_of_getElem? hp)) m identity ?_
    rw [← hids]
    exact hid

/-! ### Round-robin -/

/-- How many pipes are looked at before the one at `i`. -/
def ahead (i : ℕ) (s : Incoming) : ℕ :=
  if s.currentIn ≤ i then i - s.currentIn else i + s.inpipes.length - s.currentIn

theorem ahead_lt (hc : s.currentIn < s.inpipes.length) {i : ℕ} (hi : i < s.inpipes.length) :
    s.ahead i < s.inpipes.length := by
  rw [ahead]
  split <;> omega

/-- Passing a pipe comes nearer to the others. -/
theorem ahead_pass (hc : s.currentIn < s.inpipes.length) {i : ℕ} (hi : i < s.inpipes.length)
    (hne : i ≠ s.currentIn) (p : InPipe) : (s.pass p).ahead i + 1 = s.ahead i := by
  have hlen : (s.pass p).inpipes.length = s.inpipes.length := List.length_set
  have hcur : (s.pass p).currentIn = s.next := rfl
  rw [ahead, ahead, hlen, hcur, next]
  split <;> split <;> split <;> omega

/-- **The rule of the scan.**  What passing a pipe in which nothing is found keeps holds
where the scan ends: behind all pipes, or at one in which a part is found. -/
theorem scan_rule {P : ℕ → Incoming → Prop}
    (hcur : ∀ k s, P (k + 1) s → s.currentIn < s.inpipes.length)
    (hpass : ∀ k s p p', P (k + 1) s → s.inpipes[s.currentIn]? = some p →
      p.fetch = (none, p') → P k (s.pass p')) (k : ℕ) (s : Incoming) (h : P k s) :
    (∃ s', scan k s = some (none, s') ∧ P 0 s') ∨
      ∃ j t p p' m, P (j + 1) t ∧ t.inpipes[t.currentIn]? = some p ∧ p.fetch = (some m, p') ∧
        scan k s = some (some (Msg.init p.identity).withMore,
          ⟨(t.setCurrent p').inpipes, t.currentIn, some m, t.moreIn⟩) := by
  induction k generalizing s with
  | zero => exact Or.inl ⟨s, rfl, h⟩
  | succ k ih =>
    obtain ⟨p, hp⟩ : ∃ p, s.inpipes[s.currentIn]? = some p :=
      ⟨_, List.getElem?_eq_getElem (hcur k s h)⟩
    rw [scan, hp]
    obtain ⟨r, p', hf⟩ : ∃ r p', p.fetch = (r, p') := ⟨_, _, rfl⟩
    cases r with
    | none =>
      simp only [hf]
      exact ih (s.pass p') (hpass k s p p' h hp hf)
    | some m => exact Or.inr ⟨k, s, p, p', m, h, hp, hf, by simp only [hf]; rfl⟩

theorem Reads.pass (hr : s.Reads h) (hcur : h.current = none)
    (hp : s.inpipes[s.currentIn]? = some p) (hf : p.fetch = (none, p')) :
    (s.pass p').Reads h := by
  have hmem := List.mem_of_getElem? hp
  have hlt : s.currentIn < s.inpipes.length := (List.getElem?_eq_some_iff.1 hp).1
  obtain ⟨hid, hparts, -, hok⟩ := (hr.table.pipe p hmem).fetch_none hf
  have hid' : { p' with active := false }.identity = p.identity := hid
  have htable := hr.table.setCurrent hp hid' hok
  have hplace := hr.place
  rw [hcur] at hplace
  refine ⟨⟨htable.nodup, htable.named, Or.inl ?_, htable.pipe⟩, ?_, hr.whole, fun q hq => ?_, ?_⟩
  · have hnext := next_lt hlt
    simpa [Incoming.pass, setCurrent] using hnext
  · rw [hcur]
    exact hplace
  · have hw : ∀ identity, (s.pass p').atHand identity h = s.atHand identity h := fun _ => rfl
    rw [hw]
    rcases mem_setCurrent hr.table hp hid' hq with rfl | ⟨hq, -⟩
    · have hw := hr.waiting p hmem
      rw [← hid', ← hparts] at hw
      exact hw
    · exact hr.waiting q hq
  · intro identity hn
    refine hr.gone identity ?_
    rw [← identities_setCurrent hp hid']
    exact hn

/-- Where a message is found, its first part is at hand. -/
theorem Reads.found (hr : s.Reads h) (hcur : h.current = none)
    (hp : s.inpipes[s.currentIn]? = some p) {m : Msg} (hf : p.fetch = (some m, p')) :
    Reads { h with current := some (p.identity, []) }
      ⟨(s.setCurrent p').inpipes, s.currentIn, some m, s.moreIn⟩ := by
  have hmem := List.mem_of_getElem? hp
  have hlt : s.currentIn < s.inpipes.length := (List.getElem?_eq_some_iff.1 hp).1
  obtain ⟨hact, hparts, hp', hok⟩ := (hr.table.pipe p hmem).fetch_some hf
  have hid : p'.identity = p.identity := by rw [hp']
  have htable := hr.table.setCurrent hp hid hok
  have hplace := hr.place
  rw [hcur] at hplace
  have hread : ∀ identity,
      History.read identity { h with current := some (p.identity, []) } = h.read identity := by
    intro identity
    simp [History.read, History.begun, hcur]
  refine ⟨⟨htable.nodup, htable.named, Or.inl ?_, htable.pipe⟩, ?_, hr.whole, fun q hq => ?_, ?_⟩
  · simpa [setCurrent] using hlt
  · refine ⟨p', ?_, hid, by rw [hp']; exact hact, by simp, ?_⟩
    · simp [setCurrent, hlt]
    · have hterm := (hr.table.pipe p hmem).terminated
      rw [hparts] at hterm
      exact ⟨m, rfl, hterm.rest_ne_nil⟩
  · rw [hread]
    simp only [atHand, Option.map_some, Option.some.injEq, Option.toList_some]
    rcases mem_setCurrent hr.table hp hid hq with rfl | ⟨hq, hk⟩
    · have hw := hr.waiting p hmem
      rw [atHand_of_none hplace.1, List.append_nil, hparts] at hw
      rw [hid, if_pos rfl, hw]
      simp
    · rw [if_neg (Ne.symm hk), hr.waiting q hq, atHand_of_none hplace.1]
  · intro identity hn
    rw [hread]
    refine hr.gone identity ?_
    rw [← identities_setCurrent hp hid]
    exact hn

/-- Between two messages, the socket finds one, or no reader that is awake has any. -/
theorem xrecv_scan (hr : s.Reads h) (hcur : h.current = none) :
    ∃ r s', s.xrecv = some (r, s') ∧
      ((r = none ∧ s'.Reads h ∧ ∀ p ∈ s'.inpipes, p.active = false) ∨
        ∃ peer ≠ [], r = some (Msg.init peer).withMore ∧
          s'.Reads { h with current := some (peer, []) }) := by
  have hplace := hr.place
  rw [hcur] at hplace
  have hx : s.xrecv = s.scan s.inpipes.length := by rw [xrecv, hplace.1]; simp [hplace.2]
  let P : ℕ → Incoming → Prop := fun k t => t.Reads h ∧ k ≤ t.inpipes.length ∧
    ∀ i p, t.inpipes[i]? = some p → p.active = true → t.ahead i < k
  have hlt : ∀ k t, P (k + 1) t → t.currentIn < t.inpipes.length := by
    rintro k t ⟨ht, hk, -⟩
    rcases ht.table.current with hc | hc
    · exact hc
    · omega
  have hpass : ∀ k t p p', P (k + 1) t → t.inpipes[t.currentIn]? = some p →
      p.fetch = (none, p') → P k (t.pass p') := by
    rintro k t p p' ⟨ht, hk, hahead⟩ hp hf
    have hc := hlt k t ⟨ht, hk, hahead⟩
    refine ⟨ht.pass hcur hp hf, ?_, fun i q hq hact => ?_⟩
    · simpa [Incoming.pass, setCurrent] using Nat.le_of_succ_le hk
    · have hq' : (t.inpipes.set t.currentIn { p' with active := false })[i]? = some q := hq
      rw [List.getElem?_set] at hq'
      split at hq'
      · -- the pipe that was passed is passive
        rw [← Option.some.inj hq'] at hact
        cases hact
      · rename_i hne
        have hi : i < t.inpipes.length := (List.getElem?_eq_some_iff.1 hq').1
        have hstep := ahead_pass hc hi (Ne.symm hne) p'
        have hbound := hahead i q hq' hact
        omega
  have hstart : P s.inpipes.length s := by
    refine ⟨hr, le_refl _, fun i p hp _ => ?_⟩
    have hi : i < s.inpipes.length := (List.getElem?_eq_some_iff.1 hp).1
    refine ahead_lt ?_ hi
    rcases hr.table.current with hc | hc <;> omega
  rcases scan_rule hlt hpass s.inpipes.length s hstart with
    ⟨s', hs', ht, -, hquiet⟩ | ⟨j, t, p, p', m, ht, hp, hf, hs'⟩
  · refine ⟨none, s', hx.trans hs', Or.inl ⟨rfl, ht, fun p hp => ?_⟩⟩
    obtain ⟨i, hi⟩ := List.getElem?_of_mem hp
    exact Bool.eq_false_iff.2 fun hact => absurd (hquiet i p hi hact) (Nat.not_lt_zero _)
  · have hne : p.identity ≠ [] := fun hnil =>
      ht.1.table.named (hnil ▸ List.mem_map_of_mem (List.mem_of_getElem? hp))
    exact ⟨_, _, hx.trans hs',
      Or.inr ⟨p.identity, hne, rfl, ht.1.found hcur hp hf⟩⟩

/-- In a message, the socket returns its next part. -/
theorem xrecv_part (hr : s.Reads h) {peer : Bytes} {parts : List Msg}
    (hcur : h.current = some (peer, parts)) :
    ∃ m s', s.xrecv = some (some m, s') ∧ s'.Reads (h.part peer parts m) := by
  by_cases hne : parts = []
  · subst hne
    exact xrecv_prefetched hr hcur
  · exact xrecv_grab hr hcur hne

/-! ### What happens to the pipes -/

theorem reads_start : start.Reads ⟨[], [], none⟩ where
  table := ⟨List.nodup_nil, by simp [identities, start], Or.inr rfl, by simp [start]⟩
  place := ⟨rfl, rfl⟩
  whole := by simp
  waiting := by simp [start]
  gone := by simp [History.read, History.begun]

theorem Reads.attach (hr : s.Reads h) {identity : Bytes} (hne : identity ≠ [])
    (hnew : identity ∉ s.identities) : (s.attach identity).Reads h := by
  have hmem : ∀ q ∈ (s.attach identity).inpipes,
      q ∈ s.inpipes ∨ q = ⟨identity, true, .awake, [], false⟩ := by
    intro q hq
    simpa [Incoming.attach] using hq
  have hids : (s.attach identity).identities = s.identities ++ [identity] := by
    simp [Incoming.attach, identities]
  have hcurrent : ∀ i : ℕ, ∀ q, s.inpipes[i]? = some q →
      (s.attach identity).inpipes[i]? = some q := by
    intro i q hq
    rw [Incoming.attach, List.getElem?_append_left (List.getElem?_eq_some_iff.1 hq).1]
    exact hq
  refine ⟨⟨?_, ?_, ?_, fun q hq => ?_⟩, ?_, hr.whole, fun q hq => ?_, fun id hid => ?_⟩
  · rw [hids]
    exact List.nodup_append.2 ⟨hr.table.nodup, List.nodup_singleton _, by
      intro a ha b hb hab
      rw [List.mem_singleton.1 hb] at hab
      exact hnew (hab ▸ ha)⟩
  · rw [hids, List.mem_append, List.mem_singleton, not_or]
    exact ⟨hr.table.named, Ne.symm hne⟩
  · have hlen : (s.attach identity).inpipes.length = s.inpipes.length + 1 := by
      simp [Incoming.attach]
    rcases hr.table.current with hc | hc
    · exact Or.inl (by rw [hlen]; exact Nat.lt_succ_of_lt hc)
    · exact Or.inr hc
  · rcases hmem q hq with hq | rfl
    · exact hr.table.pipe q hq
    · exact ⟨terminated_nil, by simp, by simp⟩
  · have hplace := hr.place
    cases hc : h.current with
    | none =>
      rw [hc] at hplace
      exact hplace
    | some c =>
      rw [hc] at hplace
      obtain ⟨p, hp, hrest⟩ := hplace
      exact ⟨p, hcurrent _ p hp, hrest⟩
  · rcases hmem q hq with hq | rfl
    · exact hr.waiting q hq
    · have hgone := hr.gone identity hnew
      have hhand : s.atHand identity h = [] := by
        rw [atHand, if_neg]
        intro hc
        obtain ⟨⟨peer, parts⟩, hcur, rfl⟩ := Option.map_eq_some_iff.1 hc
        have hplace := hr.place
        rw [hcur] at hplace
        obtain ⟨p, hp, rfl, -⟩ := hplace
        exact hnew (List.mem_map_of_mem (List.mem_of_getElem? hp))
      show _ = h.read identity ++ s.atHand identity h ++ []
      rw [hhand, hgone]
      simp
  · rw [hids] at hid
    exact hr.gone id fun hin => hid (List.mem_append_left _ hin)

theorem identities_modify (identity : Bytes) {f : InPipe → InPipe}
    (hf : ∀ p, (f p).identity = p.identity) : (s.modify identity f).identities = s.identities := by
  rw [Incoming.modify, identities, List.map_map, identities]
  refine List.map_congr_left fun p _ => ?_
  show (if p.identity = identity then f p else p).identity = p.identity
  split
  · exact hf p
  · rfl

theorem mem_modify {identity : Bytes} {f : InPipe → InPipe} {q : InPipe}
    (hq : q ∈ (s.modify identity f).inpipes) :
    (∃ p ∈ s.inpipes, p.identity = identity ∧ q = f p) ∨
      q ∈ s.inpipes ∧ q.identity ≠ identity := by
  obtain ⟨p, hp, rfl⟩ := List.mem_map.1 hq
  by_cases hid : p.identity = identity
  · rw [if_pos hid]
    exact Or.inl ⟨p, hp, hid, rfl⟩
  · rw [if_neg hid]
    exact Or.inr ⟨hp, hid⟩

/-- The pipe that is being read stays active, and is not emptied from the other end. -/
theorem At.modify {current : Option (Bytes × List Msg)} (hplace : s.At current) (identity : Bytes)
    {f : InPipe → InPipe} (hfid : ∀ p, (f p).identity = p.identity)
    (hf : ∀ p ∈ s.inpipes, p.identity = identity →
      (p.active = true → (f p).active = true) ∧ (p.parts ≠ [] → (f p).parts ≠ [])) :
    (s.modify identity f).At current := by
  cases current with
  | none => exact hplace
  | some c =>
    obtain ⟨p, hp, hid, hact, hparts, hif⟩ := hplace
    have hget : (s.modify identity f).inpipes[s.currentIn]? =
        some (if p.identity = identity then f p else p) := by
      rw [Incoming.modify, List.getElem?_map, hp]
      rfl
    by_cases hpid : p.identity = identity
    · obtain ⟨hfact, hne⟩ := hf p (List.mem_of_getElem? hp) hpid
      rw [if_pos hpid] at hget
      refine ⟨f p, hget, (hfid p).trans hid, hfact hact, hparts, ?_⟩
      split at hif
      · rename_i hnil
        obtain ⟨m, hm, hrest⟩ := hif
        rw [if_pos hnil]
        exact ⟨m, hm, fun hmore => hne (hrest hmore)⟩
      · rename_i hcons
        rw [if_neg hcons]
        exact ⟨hif.1, hif.2.1, hne hif.2.2⟩
    · rw [if_neg hpid] at hget
      exact ⟨p, hget, hid, hact, hparts, hif⟩

/-- What happens to a pipe from the other end. -/
theorem Reads.modify (hr : s.Reads h) {identity : Bytes} {f : InPipe → InPipe}
    (new : List (List Msg)) (hin : identity ∈ s.identities)
    (hfid : ∀ p, (f p).identity = p.identity)
    (hf : ∀ p ∈ s.inpipes, p.identity = identity → (f p).Ok ∧
      (p.active = true → (f p).active = true) ∧ (f p).parts = p.parts ++ new.flatten) :
    Reads { h with arrived := h.arrived ++ new.map fun m => (identity, m) }
      (s.modify identity f) := by
  have hids := identities_modify (s := s) identity hfid
  have hlen : (s.modify identity f).inpipes.length = s.inpipes.length := List.length_map _
  refine ⟨⟨?_, ?_, ?_, fun q hq => ?_⟩, ?_, hr.whole, fun q hq => ?_, fun id hid => ?_⟩
  · rw [hids]
    exact hr.table.nodup
  · rw [hids]
    exact hr.table.named
  · rw [hlen]
    exact hr.table.current
  · rcases mem_modify hq with ⟨p, hp, hid, rfl⟩ | ⟨hq, -⟩
    · exact (hf p hp hid).1
    · exact hr.table.pipe q hq
  · refine hr.place.modify identity hfid fun p hp hid => ?_
    obtain ⟨-, hfact, hfparts⟩ := hf p hp hid
    refine ⟨hfact, ?_⟩
    rw [hfparts]
    intro hne hnil
    exact hne (List.append_eq_nil_iff.1 hnil).1
  · have hw : ∀ id, (s.modify identity f).atHand id { h with
        arrived := h.arrived ++ new.map fun m => (identity, m) } = s.atHand id h := fun _ => rfl
    show (ofKey q.identity (h.arrived ++ _)).flatten = h.read q.identity ++ _ ++ q.parts
    rw [ofKey_append_map, hw]
    rcases mem_modify hq with ⟨p, hp, hid, rfl⟩ | ⟨hq, hne⟩
    · obtain ⟨-, -, hfparts⟩ := hf p hp hid
      rw [hfid, if_pos hid, hfparts, List.flatten_append, hr.waiting p hp]
      simp
    · rw [if_neg hne, List.append_nil]
      exact hr.waiting q hq
  · rw [hids] at hid
    have hne : id ≠ identity := fun he => hid (he ▸ hin)
    show (ofKey id (h.arrived ++ _)).flatten = h.read id
    rw [ofKey_append_map, if_neg hne, List.append_nil]
    exact hr.gone id hid

/-- A whole message arrives. -/
theorem Reads.arrive (hr : s.Reads h) {identity : Bytes} {msg : List Msg}
    (hin : identity ∈ s.identities) (hw : Streams.whole Msg.more msg = true)
    (hopen : ∀ p ∈ s.inpipes, p.identity = identity → p.open? = true) :
    Reads { h with arrived := h.arrived ++ [(identity, msg)] }
      (s.modify identity (InPipe.arrive msg)) := by
  refine hr.modify [msg] hin (fun _ => rfl) fun p hp hid =>
    ⟨?_, fun hact => hact, by simp [InPipe.arrive, InPipe.wake]⟩
  exact (hr.table.pipe p hp).wake (terminated_append p.parts hw) (hopen p hp hid)

/-- The other end is closed. -/
theorem Reads.terminate (hr : s.Reads h) {identity : Bytes} (hin : identity ∈ s.identities)
    (hopen : ∀ p ∈ s.inpipes, p.identity = identity → p.open? = true) :
    Reads h (s.modify identity InPipe.terminate) := by
  have hkeep := hr.modify (f := InPipe.terminate) [] hin (fun _ => rfl) fun p hp hid =>
    ⟨(hr.table.pipe p hp).wake (hr.table.pipe p hp).terminated (hopen p hp hid),
      fun hact => hact, by simp [InPipe.terminate, InPipe.wake]⟩
  simpa using hkeep

theorem pipe?_spec {identity : Bytes} (hp : s.pipe? identity = some p) :
    p ∈ s.inpipes ∧ p.identity = identity :=
  ⟨List.mem_of_find?_eq_some hp, by simpa using List.find?_some hp⟩

theorem Reads.eq_of_pipe? (hr : s.Reads h) {identity : Bytes} (hp : s.pipe? identity = some p)
    {q : InPipe} (hq : q ∈ s.inpipes) (hid : q.identity = identity) : q = p :=
  List.inj_on_of_nodup_map hr.table.nodup hq (pipe?_spec hp).1 (hid.trans (pipe?_spec hp).2.symm)

theorem activated_identities {s' : Incoming} {identity : Bytes}
    (h : s.activated identity = some s') : ∀ id ∈ s'.identities, id ∈ s.identities := by
  rw [Incoming.activated] at h
  split at h
  · cases h
  split at h
  · cases h
  · obtain rfl := Option.some.inj h
    have hids := identities_modify (s := s) identity
      (f := fun p => { p with active := true, reader := .awake }) fun _ => rfl
    exact fun id hid => hids ▸ hid

theorem terminated_identities {s' : Incoming} {identity : Bytes}
    (h : s.terminated identity = some s') : ∀ id ∈ s'.identities, id ∈ s.identities := by
  rw [Incoming.terminated] at h
  simp only [Option.ite_none_right_eq_some, Option.some.injEq] at h
  obtain ⟨-, rfl⟩ := h
  intro id hid
  obtain ⟨p, hp, rfl⟩ := List.mem_map.1 hid
  exact List.mem_map_of_mem (List.mem_of_mem_eraseIdx hp)

/-- The reader of a pipe is woken. -/
theorem Reads.activated (hr : s.Reads h) {identity : Bytes} (hp : s.pipe? identity = some p)
    (hwaking : p.reader = .waking) : ∃ s', s.activated identity = some s' ∧ s'.Reads h := by
  obtain ⟨hmem, hid⟩ := pipe?_spec hp
  have hpassive : p.active = false := by
    rw [Bool.eq_false_iff, Ne, (hr.table.pipe p hmem).active_iff, hwaking]
    simp
  refine ⟨_, by simp only [Incoming.activated, hp, hpassive]; rfl, ?_⟩
  have hin : identity ∈ s.identities := hid ▸ List.mem_map_of_mem hmem
  have hkeep := hr.modify (f := fun p => { p with active := true, reader := .awake }) [] hin
    (fun _ => rfl) fun q hq _ => ⟨?_, fun _ => rfl, by simp⟩
  · simpa using hkeep
  · have hok := hr.table.pipe q hq
    exact ⟨hok.terminated, by simp, by simp⟩

/-- A pipe whose reader is terminating is not the one that is being read. -/
theorem Reads.current_ne (hr : s.Reads h) {i : ℕ} (hp : s.inpipes[i]? = some p)
    (hterm : p.reader = .terminating) {peer : Bytes} {parts : List Msg}
    (hcur : h.current = some (peer, parts)) : i ≠ s.currentIn ∧ peer ≠ p.identity := by
  have hplace := hr.place
  rw [hcur] at hplace
  obtain ⟨q, hq, rfl, hact, -⟩ := hplace
  have hne : p ≠ q := by
    rintro rfl
    rw [(hr.table.pipe p (List.mem_of_getElem? hp)).active_iff, hterm] at hact
    cases hact
  refine ⟨?_, fun hid => hne ?_⟩
  · rintro rfl
    exact hne (Option.some.inj (hp.symm.trans hq))
  · exact List.inj_on_of_nodup_map hr.table.nodup (List.mem_of_getElem? hp)
      (List.mem_of_getElem? hq) hid.symm

/-- Where `inpipes.index` finds the pipe of a peer. -/
theorem Reads.getElem?_findIdx (hr : s.Reads h) {identity : Bytes}
    (hp : s.pipe? identity = some p) :
    ∃ i, i = s.inpipes.findIdx (fun q => q.identity = identity) ∧ s.inpipes[i]? = some p := by
  obtain ⟨hmem, hid⟩ := pipe?_spec hp
  have hlt : s.inpipes.findIdx (fun q => q.identity = identity) < s.inpipes.length :=
    List.findIdx_lt_length_of_exists ⟨p, hmem, by simpa using hid⟩
  have hkey : (s.inpipes[s.inpipes.findIdx fun q => q.identity = identity]).identity =
      identity := by
    simpa using List.findIdx_getElem (w := hlt)
  refine ⟨_, rfl, ?_⟩
  rw [List.getElem?_eq_getElem hlt]
  exact congrArg some (hr.eq_of_pipe? hp (List.getElem_mem hlt) hkey)

/-- A pipe whose delimiter was read was read to its end. -/
theorem Reads.drained (hr : s.Reads h) (hmem : p ∈ s.inpipes) (hterm : p.reader = .terminating) :
    (ofKey p.identity h.arrived).flatten = h.read p.identity := by
  obtain ⟨i, hget⟩ := List.mem_iff_getElem?.1 hmem
  have hwaiting := hr.waiting p hmem
  have hhand : s.atHand p.identity h = [] := by
    rw [atHand, if_neg]
    intro hcur
    obtain ⟨⟨peer, parts⟩, hcur, hpeer⟩ := Option.map_eq_some_iff.1 hcur
    exact (hr.current_ne hget hterm hcur).2 hpeer
  rw [hhand, ((hr.table.pipe p hmem).silent (Or.inr hterm)).1] at hwaiting
  simpa using hwaiting

/-- The pipe of a peer is taken out of the table. -/
theorem Reads.terminated (hr : s.Reads h) {identity : Bytes} (hp : s.pipe? identity = some p)
    (hterm : p.reader = .terminating) : ∃ s', s.terminated identity = some s' ∧ s'.Reads h := by
  obtain ⟨hmem, hid⟩ := pipe?_spec hp
  obtain ⟨i, hi, hget⟩ := hr.getElem?_findIdx hp
  have hlt : i < s.inpipes.length := (List.getElem?_eq_some_iff.1 hget).1
  have hsub : ∀ q ∈ s.inpipes.eraseIdx i, q ∈ s.inpipes := fun q hq => List.mem_of_mem_eraseIdx hq
  have hlen : (s.inpipes.eraseIdx i).length = s.inpipes.length - 1 :=
    List.length_eraseIdx_of_lt hlt
  obtain ⟨c, hc⟩ : ∃ c, c = if i < s.currentIn then s.currentIn - 1 else s.currentIn := ⟨_, rfl⟩
  refine ⟨⟨s.inpipes.eraseIdx i, if (s.inpipes.eraseIdx i).length ≤ c then 0 else c,
    s.prefetched, s.moreIn⟩, ?_, ?_⟩
  · rw [Incoming.terminated, ← hi]
    simp only [hlt, if_true, ← hc]
  refine ⟨⟨?_, fun hnil => ?_, ?_, fun q hq => hr.table.pipe q (hsub q hq)⟩, ?_, hr.whole,
    fun q hq => hr.waiting q (hsub q hq), fun id hn => ?_⟩
  · exact Registry.nodup_eraseIdx hr.table.nodup i
  · obtain ⟨q, hq, hqid⟩ := List.mem_map.1 hnil
    exact hr.table.named (hqid ▸ List.mem_map_of_mem (hsub q hq))
  · by_cases hle : (s.inpipes.eraseIdx i).length ≤ c
    · exact Or.inr (if_pos hle)
    · refine Or.inl ?_
      show (if (s.inpipes.eraseIdx i).length ≤ c then 0 else c) < (s.inpipes.eraseIdx i).length
      rw [if_neg hle]
      exact Nat.lt_of_not_le hle
  · have hplace := hr.place
    cases hcur : h.current with
    | none =>
      rw [hcur] at hplace
      exact hplace
    | some cur =>
      obtain ⟨peer, parts⟩ := cur
      obtain ⟨hne, -⟩ := hr.current_ne hget hterm hcur
      rw [hcur] at hplace
      obtain ⟨q, hq, hrest⟩ := hplace
      have hq_lt : s.currentIn < s.inpipes.length := (List.getElem?_eq_some_iff.1 hq).1
      refine ⟨q, ?_, hrest⟩
      show (s.inpipes.eraseIdx i)[if (s.inpipes.eraseIdx i).length ≤ c then 0 else c]? = some q
      rw [if_neg (by rw [hc, hlen]; split <;> omega), List.getElem?_eraseIdx, hc, ← hq]
      by_cases hbefore : i < s.currentIn
      · rw [if_pos hbefore, if_neg (by omega), Nat.sub_add_cancel (by omega)]
      · rw [if_neg hbefore, if_pos (by omega)]
  · by_cases hold : id ∈ s.identities
    · -- it is the peer whose pipe was drained
      obtain ⟨q, hq, rfl⟩ := List.mem_map.1 hold
      have hqp : q = p := by
        by_contra hne
        have hk : q.identity ≠ p.identity :=
          fun hk => hne (List.inj_on_of_nodup_map hr.table.nodup hq hmem hk)
        exact hn (List.mem_map_of_mem (Registry.mem_eraseIdx_of_key_ne InPipe.identity hget hq hk))
      rw [hqp]
      exact hr.drained hmem hterm
    · exact hr.gone id hold

end Incoming

/-! ## The sending side -/

/-- `outpipe_t`, with what was written into its pipe. -/
structure OutPipe where
  identity : Bytes
  /-- flushed so far -/
  sent : List Msg
  /-- written, and not flushed -/
  draft : List Msg
  deriving DecidableEq, Repr

/-- The sending side of `xrep_t`. -/
structure Outgoing where
  outpipes : List OutPipe
  /-- the identity of the peer whose pipe it is -/
  currentOut : Option Bytes
  moreOut : Bool
  deriving DecidableEq, Repr

namespace Outgoing

/-- No pipe is bound. -/
def start : Outgoing := ⟨[], none, false⟩

/-- The identities of the peers with an outbound pipe. -/
def identities (s : Outgoing) : List Bytes := s.outpipes.map OutPipe.identity

/-- Change the outbound pipe of a peer. -/
def modify (identity : Bytes) (f : OutPipe → OutPipe) (s : Outgoing) : Outgoing :=
  { s with outpipes := s.outpipes.map fun p => if p.identity = identity then f p else p }

/-- `xrep_t::xsend` -/
def xsend (msg : Msg) (s : Outgoing) : Option Outgoing :=
  if s.moreOut then
    match s.currentOut with
    -- "If there's no out pipe, just drop it."
    | none => some { s with moreOut := msg.more }
    | some identity =>
      let write := fun p : OutPipe => { p with draft := p.draft ++ [msg] }
      let flush := fun p : OutPipe => { p with sent := p.sent ++ p.draft, draft := [] }
      if msg.more then some (s.modify identity write)
      else some { (s.modify identity write).modify identity flush with
        currentOut := none, moreOut := false }
  else if s.currentOut.isSome then none
  else if msg.more then
    some { s with
      moreOut := true, currentOut := if msg.data ∈ s.identities then some msg.data else none }
  else some s

/-- `xrep_t::rollback`; all that is taken back must be incomplete. -/
def rollback (s : Outgoing) : Option Outgoing :=
  match s.currentOut with
  | none => some s
  | some identity =>
    if s.outpipes.all fun p => p.identity ≠ identity || p.draft.all Msg.more then
      some { s.modify identity fun p => { p with draft := [] } with
        currentOut := none, moreOut := false }
    else none

/-- `xattach_pipes`; the identity must be new. -/
def attach (identity : Bytes) (s : Outgoing) : Option Outgoing :=
  if identity ∈ s.identities then none
  else some { s with outpipes := s.outpipes ++ [⟨identity, [], []⟩] }

/-- `terminated` of the writer of a peer. -/
def terminated (identity : Bytes) (s : Outgoing) : Option Outgoing :=
  if identity ∈ s.identities then
    some { s with
      outpipes := s.outpipes.filter fun p => p.identity ≠ identity
      currentOut := if s.currentOut = some identity then none else s.currentOut }
  else none

/-! ### What the sending side keeps -/

/-- What was flushed into the pipes, and what is written and not flushed. -/
def Holds (sent draft : Bytes → List Msg) (s : Outgoing) : Prop :=
  ∀ p ∈ s.outpipes, p.sent = sent p.identity ∧ p.draft = draft p.identity

/-- No pipe is being written to. -/
structure Closed (sent : Bytes → List Msg) (s : Outgoing) : Prop where
  current : s.currentOut = none
  holds : s.Holds sent fun _ => []

/-- A message for a peer is being written into its pipe. -/
structure Routed (sent : Bytes → List Msg) (peer : Bytes) (parts : List Msg) (s : Outgoing) :
    Prop where
  current : s.currentOut = some peer
  more : s.moreOut = true
  inTable : peer ∈ s.identities
  holds : s.Holds sent fun identity => if identity = peer then parts else []

/-- A message for a peer is being written into its pipe, or it is dropped for the reason
`why`. -/
def Sending (sent : Bytes → List Msg) (peer : Bytes) (parts : List Msg) (why : Prop)
    (s : Outgoing) : Prop :=
  s.Routed sent peer parts ∨ s.Closed sent ∧ s.moreOut = true ∧ why

variable {s : Outgoing} {sent : Bytes → List Msg} {peer : Bytes} {parts : List Msg} {why : Prop}

theorem Sending.mono (h : s.Sending sent peer parts why) {why' : Prop} (hwhy : why → why') :
    s.Sending sent peer parts why' :=
  h.imp_right fun ⟨hc, hm, hw⟩ => ⟨hc, hm, hwhy hw⟩

theorem identities_modify (identity : Bytes) {f : OutPipe → OutPipe}
    (hf : ∀ p, (f p).identity = p.identity) : (s.modify identity f).identities = s.identities := by
  rw [modify, identities, List.map_map, identities]
  refine List.map_congr_left fun p _ => ?_
  show (if p.identity = identity then f p else p).identity = p.identity
  split
  · exact hf p
  · rfl

theorem Holds.modify {draft sent' draft' : Bytes → List Msg} (h : s.Holds sent draft)
    {f : OutPipe → OutPipe} (hid : ∀ p, (f p).identity = p.identity)
    (hf : ∀ p, p.identity = peer → p.sent = sent peer → p.draft = draft peer →
      (f p).sent = sent' peer ∧ (f p).draft = draft' peer)
    (hother : ∀ identity ≠ peer,
      sent' identity = sent identity ∧ draft' identity = draft identity) :
    (s.modify peer f).Holds sent' draft' := by
  intro q hq
  obtain ⟨p, hp, rfl⟩ := List.mem_map.1 hq
  obtain ⟨hsent, hdraft⟩ := h p hp
  by_cases hk : p.identity = peer
  · rw [if_pos hk, hid p, hk]
    exact hf p hk (by rw [hsent, hk]) (by rw [hdraft, hk])
  · rw [if_neg hk, (hother _ hk).1, (hother _ hk).2]
    exact ⟨hsent, hdraft⟩

/-- The prefix of a message chooses its pipe; behind a message that was cut off it is
dropped as one of its parts. -/
theorem Closed.xsend_prefix (h : s.Closed sent) {stale : Prop} (hstale : s.moreOut = true → stale)
    {msg : Msg} (hmore : msg.more = true) :
    ∃ s', s.xsend msg = some s' ∧ s'.identities = s.identities ∧
      s'.Sending sent msg.data [] (msg.data ∉ s.identities ∨ stale) := by
  cases hm : s.moreOut with
  | true =>
    refine ⟨{ s with moreOut := msg.more }, ?_, rfl, Or.inr ⟨⟨h.current, h.holds⟩, hmore, ?_⟩⟩
    · rw [xsend, if_pos hm, h.current]
    · exact Or.inr (hstale hm)
  | false =>
    refine ⟨{ s with
      moreOut := true
      currentOut := if msg.data ∈ s.identities then some msg.data else none }, ?_, rfl, ?_⟩
    · rw [xsend, if_neg (by simp [hm]), if_neg (by simp [h.current]), if_pos hmore]
    · by_cases hin : msg.data ∈ s.identities
      · refine Or.inl ⟨if_pos hin, rfl, hin, fun p hp => ?_⟩
        have hp := h.holds p hp
        simpa using hp
      · exact Or.inr ⟨⟨if_neg hin, h.holds⟩, rfl, Or.inl hin⟩

/-- Another part of the message is written. -/
theorem Sending.xsend_more (h : s.Sending sent peer parts why) {msg : Msg}
    (hmore : msg.more = true) :
    ∃ s', s.xsend msg = some s' ∧ s'.identities = s.identities ∧
      s'.Sending sent peer (parts ++ [msg]) why := by
  rcases h with h | ⟨h, hm, hwhy⟩
  · have hids := identities_modify (s := s) peer
      (f := fun p => { p with draft := p.draft ++ [msg] }) fun _ => rfl
    refine ⟨s.modify peer fun p => { p with draft := p.draft ++ [msg] }, ?_, hids,
      Or.inl ⟨h.current, h.more, hids ▸ h.inTable, ?_⟩⟩
    · rw [xsend, if_pos h.more, h.current]
      exact if_pos hmore
    · refine h.holds.modify (fun _ => rfl) (fun p _ hsent hdraft => ⟨hsent, ?_⟩) fun id hne => ?_
      · rw [hdraft, if_pos rfl, if_pos rfl]
      · rw [if_neg hne, if_neg hne]
        exact ⟨rfl, rfl⟩
  · refine ⟨{ s with moreOut := msg.more }, ?_, rfl, Or.inr ⟨⟨h.current, h.holds⟩, hmore, hwhy⟩⟩
    rw [xsend, if_pos hm, h.current]

/-- The last part of the message is written, and the message is flushed or was dropped. -/
theorem Sending.xsend_last (h : s.Sending sent peer parts why) {msg : Msg}
    (hlast : msg.more = false) :
    ∃ s' lost, s.xsend msg = some s' ∧ s'.identities = s.identities ∧ s'.moreOut = false ∧
      (lost = true → why) ∧ (lost = false → peer ∈ s.identities) ∧ s'.Closed fun identity =>
        sent identity ++ if identity = peer ∧ lost = false then parts ++ [msg] else [] := by
  rcases h with h | ⟨h, hm, hwhy⟩
  · let write := fun p : OutPipe => { p with draft := p.draft ++ [msg] }
    let flush := fun p : OutPipe => { p with sent := p.sent ++ p.draft, draft := [] }
    refine ⟨⟨((s.modify peer write).modify peer flush).outpipes, none, false⟩, false, ?_, ?_, rfl,
      by simp, fun _ => h.inTable, rfl, ?_⟩
    · rw [xsend, if_pos h.more, h.current]
      exact if_neg (by simp [hlast])
    · show ((s.modify peer write).modify peer flush).identities = _
      rw [identities_modify peer (f := flush) fun _ => rfl,
        identities_modify peer (f := write) fun _ => rfl]
    · have hwrite : (s.modify peer write).Holds sent
          fun identity => if identity = peer then parts ++ [msg] else [] :=
        h.holds.modify (fun _ => rfl)
          (fun p _ hsent hdraft => ⟨hsent, by
            show p.draft ++ [msg] = _
            rw [hdraft, if_pos rfl, if_pos rfl]⟩)
          fun id hne => by rw [if_neg hne, if_neg hne]; exact ⟨rfl, rfl⟩
      show ((s.modify peer write).modify peer flush).Holds (fun identity => sent identity ++
        if identity = peer ∧ false = false then parts ++ [msg] else []) fun _ => []
      refine hwrite.modify (f := flush) (fun _ => rfl) (fun p _ hsent hdraft => ⟨?_, rfl⟩)
        fun id hne => by simp [hne]
      show p.sent ++ p.draft = _
      rw [hsent, hdraft]
      simp
  · refine ⟨{ s with moreOut := msg.more }, true, ?_, rfl, hlast, fun _ => hwhy, by simp,
      h.current, ?_⟩
    · rw [xsend, if_pos hm, h.current]
    · intro p hp
      simpa using h.holds p hp

/-- What was written of a malformed message is taken back. -/
theorem Sending.rollback (h : s.Sending sent peer parts why)
    (hparts : ∀ m ∈ parts, m.more = true) :
    ∃ s', s.rollback = some s' ∧ s'.identities = s.identities ∧ s'.Closed sent ∧
      (s'.moreOut = true → why) := by
  rcases h with h | ⟨h, hm, hwhy⟩
  · refine ⟨⟨(s.modify peer fun p => { p with draft := [] }).outpipes, none, false⟩, ?_,
      identities_modify peer fun _ => rfl, ⟨rfl, ?_⟩, by simp⟩
    · have hall : (s.outpipes.all fun p => p.identity ≠ peer || p.draft.all Msg.more) = true := by
        refine List.all_eq_true.2 fun p hp => ?_
        have hdraft := (h.holds p hp).2
        by_cases hk : p.identity = peer
        · simpa [hdraft, hk] using hparts
        · simp [hk]
      rw [Outgoing.rollback, h.current]
      exact if_pos hall
    · exact h.holds.modify (f := fun p => { p with draft := [] }) (fun _ => rfl)
        (fun p _ hsent _ => ⟨hsent, rfl⟩) fun id hne => ⟨rfl, (if_neg hne).symm⟩
  · exact ⟨s, by rw [Outgoing.rollback, h.current], rfl, h, fun _ => hwhy⟩

/-! ### Peers come and go -/

theorem Holds.filter {draft : Bytes → List Msg} (h : s.Holds sent draft) (q : OutPipe → Bool) :
    ∀ p ∈ s.outpipes.filter q, p.sent = sent p.identity ∧ p.draft = draft p.identity :=
  fun p hp => h p (List.mem_filter.1 hp).1

/-- A peer that goes loses what is being written for it. -/
theorem Sending.terminated (h : s.Sending sent peer parts why) {identity : Bytes}
    (hin : identity ∈ s.identities) :
    ∃ s', s.terminated identity = some s' ∧
      s'.Sending sent peer parts (why ∨ identity = peer) := by
  refine ⟨_, if_pos hin, ?_⟩
  rcases h with h | ⟨h, hm, hwhy⟩
  · by_cases hid : identity = peer
    · subst hid
      refine Or.inr ⟨⟨if_pos h.current, fun p hp => ?_⟩, h.more, Or.inr rfl⟩
      obtain ⟨hp, hne⟩ := List.mem_filter.1 hp
      have hne : p.identity ≠ identity := by simpa using hne
      simpa [hne] using h.holds p hp
    · refine Or.inl ⟨?_, h.more, ?_, h.holds.filter _⟩
      swap
      · obtain ⟨p, hp, hpeer⟩ := List.mem_map.1 h.inTable
        exact List.mem_map.2 ⟨p, List.mem_filter.2 ⟨hp, by simpa [hpeer] using Ne.symm hid⟩, hpeer⟩
      show (if s.currentOut = some identity then none else s.currentOut) = some peer
      rw [h.current, if_neg (by simpa using Ne.symm hid)]
  · refine Or.inr ⟨⟨?_, h.holds.filter _⟩, hm, Or.inl hwhy⟩
    show (if s.currentOut = some identity then none else s.currentOut) = none
    rw [h.current, ite_self]

theorem Closed.terminated (h : s.Closed sent) {identity : Bytes} (hin : identity ∈ s.identities) :
    ∃ s', s.terminated identity = some s' ∧ s'.Closed sent ∧ s'.moreOut = s.moreOut := by
  refine ⟨_, if_pos hin, ⟨?_, h.holds.filter _⟩, rfl⟩
  show (if s.currentOut = some identity then none else s.currentOut) = none
  rw [h.current, ite_self]

theorem Holds.attach {draft : Bytes → List Msg} (h : s.Holds sent draft) {identity : Bytes}
    (hsent : sent identity = []) (hdraft : draft identity = []) :
    ∀ p ∈ s.outpipes ++ [⟨identity, [], []⟩],
      p.sent = sent p.identity ∧ p.draft = draft p.identity := by
  intro p hp
  rcases List.mem_append.1 hp with hp | hp
  · exact h p hp
  · rw [List.mem_singleton.1 hp]
    exact ⟨hsent.symm, hdraft.symm⟩

theorem Sending.attach (h : s.Sending sent peer parts why) {identity : Bytes}
    (hnew : identity ∉ s.identities) (hsent : sent identity = []) (hne : identity ≠ peer) :
    ∃ s', s.attach identity = some s' ∧ s'.Sending sent peer parts why := by
  refine ⟨_, if_neg hnew, ?_⟩
  rcases h with h | ⟨h, hm, hwhy⟩
  · refine Or.inl ⟨h.current, h.more, ?_, h.holds.attach hsent (if_neg hne)⟩
    rw [identities, List.map_append]
    exact List.mem_append_left _ h.inTable
  · exact Or.inr ⟨⟨h.current, h.holds.attach hsent rfl⟩, hm, hwhy⟩

theorem Closed.attach (h : s.Closed sent) {identity : Bytes} (hnew : identity ∉ s.identities)
    (hsent : sent identity = []) :
    ∃ s', s.attach identity = some s' ∧ s'.Closed sent ∧ s'.moreOut = s.moreOut :=
  ⟨_, if_neg hnew, ⟨h.current, h.holds.attach hsent rfl⟩, rfl⟩

end Outgoing

end Fsync.Zmq
