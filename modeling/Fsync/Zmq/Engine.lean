import Fsync.Base.Run
import Fsync.Zmq.Wire

/-!
# A connection

`zmq_engine_t` moves what its encoder makes of parts into a TCP connection, and what
comes out of one through its decoder.  Either side moves as many bytes as the socket
takes or has at that moment, buffers are refilled only when they are empty, and the
parts go to a destination that may refuse them: a pipe that is full, or nobody while
the engine is handed from `zmq_init_t` to a session.

* `link_delivers`: in every state of every run, the destination has taken the parts
  that were handed to the encoder, in order, up to some; and all of them, once nothing
  is on its way;
* `handshake_first`: what the session gets is what was handed over behind the identity.
-/

namespace Fsync.Zmq

/-- `in_batch_size` and `out_batch_size` -/
def batchSize : ℕ := 8192

/-- Where an engine puts the parts that arrive, `i_inout`. -/
structure Destination (δ : Type) where
  fresh : δ
  /-- none where the part is refused -/
  write : δ → Msg → Option δ
  /-- the parts that were taken so far -/
  got : δ → List Msg
  got_fresh : got fresh = []
  records : Decoder.Records write got

/-- One direction of a connection, with an engine at both ends. -/
structure Link (δ : Type) where
  /-- the parts that were handed to the encoder so far -/
  handed : List Msg
  encoder : Encoder
  /-- from `outpos` on -/
  out : Bytes
  /-- sent, and not received yet -/
  stream : Bytes
  /-- from `inpos` on -/
  pending : Bytes
  decoder : Decoder δ
  /-- The engines have not given up. -/
  up : Bool

namespace Link

variable {δ : Type}

/-- Two engines before the first byte. -/
def start (D : Destination δ) : Link δ := ⟨[], .start [], [], [], [], .start D.fresh, true⟩

/-- Another part is there for the encoder. -/
def hand (m : Msg) (l : Link δ) : Link δ :=
  { l with
    handed := l.handed ++ [m]
    encoder := { l.encoder with source := l.encoder.source ++ [m] } }

/-- "If write buffer is empty, try to read new data from the encoder." -/
def nextOut (l : Link δ) : Bytes × Encoder :=
  if l.out = [] then Encoder.getData batchSize l.encoder [] else (l.out, l.encoder)

/-- `out_event`, where the socket takes `n` bytes. -/
def outEvent (n : ℕ) (l : Link δ) : Link δ :=
  { l with
    encoder := l.nextOut.2
    out := l.nextOut.1.drop n
    stream := l.stream ++ l.nextOut.1.take n }

variable (alloc : ℕ → Bool) (D : Destination δ)

/-- `get_buffer`: whether data are read straight into the body of a large part, and how
many are read at most. -/
def getBuffer (d : Decoder δ) : Bool × ℕ :=
  if batchSize ≤ d.toRead then (true, d.toRead) else (false, batchSize)

/-- `process_buffer`.  Data that were read straight into a body are not copied. -/
def processBuffer (direct : Bool) (d : Decoder δ) (data : Bytes) : Decoder δ × Bytes :=
  let M := Decoder.machine alloc D.write
  if direct then (M.settle (M.fill d data), []) else M.process d data

/-- "If there's no data to process in the buffer": the number of bytes that are read,
where the socket has `n`. -/
def readSize (n : ℕ) (l : Link δ) : ℕ := if l.pending = [] then min n (getBuffer l.decoder).2 else 0

/-- "Push the data to the decoder." -/
def pushIn (n : ℕ) (l : Link δ) : Decoder δ × Bytes :=
  if l.pending = [] then
    processBuffer alloc D (getBuffer l.decoder).1 l.decoder (l.stream.take (l.readSize n))
  else processBuffer alloc D false l.decoder l.pending

/-- `in_event`, where the socket has `n` bytes. -/
def inEvent (n : ℕ) (l : Link δ) : Link δ :=
  { l with
    decoder := (l.pushIn alloc D n).1
    pending := (l.pushIn alloc D n).2
    stream := l.stream.drop (l.readSize n)
    up := (l.pushIn alloc D n).1.next.isSome }

/-- A message is handed to the sender, a socket is ready, or the destination changes. -/
inductive Event (δ : Type) where
  | hand (m : Msg)
  | outEvent (n : ℕ)
  | inEvent (n : ℕ)
  /-- What becomes of the destination without the engine. -/
  | destination (dest : δ)

/-- The parts have a size that fits a `size_t`, and a destination does not forget what it
has taken. -/
def step (l : Link δ) (e : Event δ) : Option (Link δ) :=
  if l.up then
    match e with
    | .hand m => if m.data.length + 1 < 2 ^ 64 then some (l.hand m) else none
    | .outEvent n => some (l.outEvent n)
    | .inEvent n => some (l.inEvent alloc D n)
    | .destination dest =>
      if D.got dest = D.got l.decoder.dest then
        some { l with decoder := { l.decoder with dest := dest } }
      else none
  else none

variable {alloc D}

/-! ## One event -/

/-- **The way without copying is the other way.** -/
theorem processBuffer_eq {d : Decoder δ} {data : Bytes} (hneed : d.toRead ≠ 0)
    (h : data.length ≤ d.toRead) :
    processBuffer alloc D true d data = processBuffer alloc D false d data := by
  have hfill := Chunked.Machine.process_fill (M := Decoder.machine alloc D.write) h hneed []
  rw [List.append_nil, Chunked.Machine.process_nil] at hfill
  exact hfill.symm

/-- What is on its way, and what the decoder has begun to read, as the decoder would read
it with a destination that takes every part. -/
def due (alloc : ℕ → Bool) (D : Destination δ) (l : Link δ) : Decoder (List Msg) × Bytes :=
  (Decoder.machine alloc Decoder.collect).process (l.decoder.collected D.got)
    (l.pending ++ (l.stream ++ (l.out ++ l.encoder.remaining)))

theorem due_outEvent (n : ℕ) (l : Link δ) : (l.outEvent n).due alloc D = l.due alloc D := by
  have hnext : l.nextOut.1 ++ l.nextOut.2.remaining = l.out ++ l.encoder.remaining := by
    rw [nextOut]
    split
    · rename_i h
      rw [h]
      exact (Encoder.getData_spec batchSize l.encoder []).1
    · rfl
  have hstream : (l.stream ++ l.nextOut.1.take n) ++ (l.nextOut.1.drop n ++ l.nextOut.2.remaining) =
      l.stream ++ (l.out ++ l.encoder.remaining) := by
    rw [← hnext, List.append_assoc, ← List.append_assoc (l.nextOut.1.take n),
      List.take_append_drop]
  exact congrArg (fun rest => Chunked.Machine.process _ _ (l.pending ++ rest)) hstream

/-- The way that `in_event` chooses is the plain one. -/
theorem pushIn_eq (n : ℕ) (l : Link δ) :
    l.pushIn alloc D n = (Decoder.machine alloc D.write).process l.decoder
      (l.pending ++ l.stream.take (l.readSize n)) := by
  rw [pushIn, readSize]
  split
  · rename_i hp
    rw [hp, List.nil_append, getBuffer]
    split
    · rename_i hbig
      have hneed : l.decoder.toRead ≠ 0 := by
        have := hbig
        unfold batchSize at this
        omega
      refine processBuffer_eq hneed ?_
      rw [List.length_take]
      omega
    · rfl
  · rw [List.take_zero, List.append_nil]
    rfl

theorem due_inEvent (n : ℕ) (l : Link δ) :
    (l.inEvent alloc D n).due alloc D = l.due alloc D := by
  have hsim := Chunked.Machine.process_sim (@Decoder.covers δ alloc _ _ D.records) l.decoder
    (l.pending ++ l.stream.take (l.readSize n))
    (l.stream.drop (l.readSize n) ++ (l.out ++ l.encoder.remaining))
  rw [← pushIn_eq, List.append_assoc, ← List.append_assoc (l.stream.take _),
    List.take_append_drop] at hsim
  exact hsim

/-! ## Runs -/

/-- What is due is what was handed to the encoder, unless the decoder gives up. -/
def Inv (alloc : ℕ → Bool) (D : Destination δ) (l : Link δ) : Prop :=
  Decoder.Reads l.handed (l.due alloc D)

theorem inv_start : (start D).Inv alloc D := by
  have hneed : (Decoder.machine alloc Decoder.collect).need
      (Decoder.collected D.got (Decoder.start D.fresh)) ≠ 0 := Nat.one_ne_zero
  have hdue : (start D).due alloc D = (Decoder.atFrame 0 0 [], []) := by
    show Chunked.Machine.process _ (Decoder.collected D.got (Decoder.start D.fresh)) [] = _
    rw [Chunked.Machine.process_nil, Chunked.Machine.settle_of_need hneed, Decoder.collected]
    simp [Decoder.start, Decoder.atFrame, D.got_fresh]
  rw [Inv, hdue]
  exact .all 0 0

theorem inv_hand {l : Link δ} {m : Msg} (hm : m.data.length + 1 < 2 ^ 64) (h : l.Inv alloc D) :
    (l.hand m).Inv alloc D := by
  have hrem : (l.hand m).encoder.remaining = l.encoder.remaining ++ frame m := by
    have hwire : wire (l.encoder.source ++ [m]) = wire l.encoder.source ++ frame m := by
      simp [wire]
    rw [Encoder.remaining, Encoder.remaining]
    show _ ++ wire (l.encoder.source ++ [m]) = _
    rw [hwire, ← List.append_assoc]
    rfl
  have hsnoc := @Decoder.Reads.snoc alloc _ _ h _ hm
  rw [due, ← Chunked.Machine.process_append] at hsnoc
  rw [Inv, due, hrem]
  simpa [hand] using hsnoc

theorem inv_step {l l' : Link δ} {e : Event δ}
    (h : l.Inv alloc D) (hs : step alloc D l e = some l') : l'.Inv alloc D := by
  unfold step at hs
  split at hs
  · cases e with
    | hand m =>
      simp only [Option.ite_none_right_eq_some, Option.some.injEq] at hs
      obtain ⟨hm, rfl⟩ := hs
      exact inv_hand hm h
    | outEvent n =>
      obtain rfl := Option.some.inj hs
      rw [Inv, due_outEvent]
      exact h
    | inEvent n =>
      obtain rfl := Option.some.inj hs
      rw [Inv, due_inEvent]
      exact h
    | destination dest =>
      simp only [Option.ite_none_right_eq_some, Option.some.injEq] at hs
      obtain ⟨hd, rfl⟩ := hs
      have hc : { l.decoder with dest := dest }.collected D.got = l.decoder.collected D.got := by
        rw [Decoder.collected, Decoder.collected]
        show Decoder.mk _ _ _ _ _ (D.got dest) = _
        rw [hd]
      rw [Inv, due]
      show Decoder.Reads _ (Chunked.Machine.process _
        ({ l.decoder with dest := dest }.collected D.got) _)
      rw [hc]
      exact h
  · cases hs

/-- Nothing is on its way, and the decoder is not stuck with a part. -/
structure Idle (l : Link δ) : Prop where
  remaining : l.encoder.remaining = []
  out : l.out = []
  stream : l.stream = []
  pending : l.pending = []
  toRead : l.decoder.toRead ≠ 0

/-- The destination has the parts that were handed to the encoder, up to some; all of
them, once nothing is on its way. -/
def Delivers (D : Destination δ) (l : Link δ) : Prop :=
  D.got l.decoder.dest <+: l.handed.map Msg.sent ∧
    (l.Idle → D.got l.decoder.dest = l.handed.map Msg.sent)

theorem delivers_of_inv {l : Link δ} (hinv : l.Inv alloc D) : l.Delivers D := by
  have hpre : D.got l.decoder.dest <+: (l.due alloc D).1.dest :=
    Decoder.prefix_process (l.decoder.collected D.got) _
  constructor
  · rw [Inv] at hinv
    generalize l.due alloc D = r at hinv hpre
    cases hinv with
    | all flags size => exact hpre
    | gaveUp hd hpre' => exact hpre.trans hpre'
  · intro hidle
    have hneed : (Decoder.machine alloc Decoder.collect).need (l.decoder.collected D.got) ≠ 0 :=
      hidle.toRead
    have hdue : l.due alloc D = (l.decoder.collected D.got, []) := by
      rw [due, hidle.pending, hidle.stream, hidle.out, hidle.remaining]
      show Chunked.Machine.process _ _ [] = _
      rw [Chunked.Machine.process_nil, Chunked.Machine.settle_of_need hneed]
    have hdest : D.got l.decoder.dest = (l.due alloc D).1.dest := by rw [hdue]; rfl
    have htoRead : l.decoder.toRead = (l.due alloc D).1.toRead := by rw [hdue]; rfl
    rw [Inv] at hinv
    generalize l.due alloc D = r at hinv hdest htoRead
    cases hinv with
    | all flags size => exact hdest
    | gaveUp hd hpre' => exact absurd (htoRead.trans hd.2) hidle.toRead

/-- **A connection delivers the parts in order, each once**, whatever the sizes of the
buffers and of what the sockets take and have, and whenever the destination refuses. -/
theorem link_delivers (alloc : ℕ → Bool) (D : Destination δ) (es : List (Event δ)) :
    Run.Along (step alloc D) (Delivers D) (start D) es :=
  (Run.along_of_inv (fun _ _ _ h hs => inv_step h hs) inv_start).mono fun _ => delivers_of_inv

end Link

/-! ## The handshake -/

/-- Where a new connection puts its parts: `zmq_init_t` takes one, the identity of the
peer; then the engine is unplugged and nobody takes any; then a session does, as far as
its pipe has room. -/
inductive Inout where
  | init (sent : Bool) (received : Option Msg)
  | unplugged (identity : Msg)
  | session (identity : Msg) (taken : List Msg) (room : ℕ)

namespace Inout

/-- `zmq_init_t::write` and `session_t::write` -/
def write : Inout → Msg → Option Inout
  | .init sent none, m => some (if sent then .unplugged m else .init sent (some m))
  | .init _ (some _), _ => none
  | .unplugged _, _ => none
  | .session _ _ 0, _ => none
  | .session identity taken (room + 1), m => some (.session identity (taken ++ [m]) room)

/-- What was handed on, the identity first. -/
def got : Inout → List Msg
  | .init _ received => received.toList
  | .unplugged identity => [identity]
  | .session identity taken _ => identity :: taken

theorem records : Decoder.Records write got := by
  intro d m d' h
  cases d with
  | init sent received =>
    cases received with
    | none =>
      obtain rfl := Option.some.inj h
      cases sent <;> rfl
    | some r => cases h
  | unplugged identity => cases h
  | session identity taken room =>
    cases room with
    | zero => cases h
    | succ room =>
      obtain rfl := Option.some.inj h
      rfl

/-- The object that an engine writes to, from the handshake on. -/
def destination : Destination Inout := ⟨.init false none, write, got, rfl, records⟩

/-- `peer_identity`; `uuid` is what is generated for a peer that has none. -/
def peerIdentity (uuid : Bytes) (identity : Msg) : Bytes :=
  if identity.data = [] then 0 :: uuid else identity.data

theorem peerIdentity_ne_nil (uuid : Bytes) (identity : Msg) : peerIdentity uuid identity ≠ [] := by
  rw [peerIdentity]
  split
  · exact List.cons_ne_nil 0 uuid
  · assumption

end Inout

/-- **The engine is handed over with what it has read.**  The peer has the identity that
its first part tells, and the session gets the parts behind it, in order, each once. -/
theorem handshake_first (alloc : ℕ → Bool) (es : List (Link.Event Inout)) :
    Run.Along (Link.step alloc Inout.destination)
      (fun l => ∀ identity taken room, l.decoder.dest = .session identity taken room →
        ∃ first rest, l.handed = first :: rest ∧ identity = first.sent ∧
          taken <+: rest.map Msg.sent)
      (Link.start Inout.destination) es := by
  refine (Run.along_of_inv (fun _ _ _ h hs => Link.inv_step h hs) Link.inv_start).mono ?_
  intro l h identity taken room hdest
  have hpre := (Link.delivers_of_inv h).1
  rw [hdest] at hpre
  have hgot : identity :: taken <+: l.handed.map Msg.sent := hpre
  cases hh : l.handed with
  | nil =>
    rw [hh] at hgot
    exact absurd hgot (by simp)
  | cons first rest =>
    rw [hh, List.map_cons, List.cons_prefix_cons] at hgot
    exact ⟨first, rest, rfl, hgot.1, hgot.2⟩

end Fsync.Zmq
