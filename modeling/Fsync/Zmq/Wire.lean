import Mathlib
import Fsync.Base.Chunked
import Fsync.Message

/-!
# Messages on the wire

The servers and the client talk through sockets of the library that comes with the
Mac server.  A message is a list of parts.  On the wire each part is a frame: its
size, a byte of flags and its body; `encoder_t` writes frames into buffers of any
size, and `decoder_t` reads them from chunks of any size.

* `Decoder.process_frame`: a frame is read as the part it was made of;
* `Decoder.Reads.snoc`: so is a frame behind others, unless the decoder gave up before it.
-/

namespace Fsync.Zmq

/-! ## Parts of messages -/

/-- `ZMQ_MSG_MORE` -/
def msgMore : UInt8 := 1

/-- `ZMQ_MSG_MASK` -/
def msgMask : UInt8 := 129

/-- `zmq_msg_t` -/
structure Msg where
  flags : UInt8
  data : Bytes
  deriving DecidableEq, Repr

namespace Msg

/-- Another part of the same message follows. -/
def more (m : Msg) : Bool := m.flags &&& msgMore ≠ 0

/-- `zmq_msg_init_size`, with the body copied in. -/
def init (data : Bytes) : Msg := ⟨~~~msgMask, data⟩

/-- The flag is set that another part follows. -/
def withMore (m : Msg) : Msg := { m with flags := m.flags ||| msgMore }

/-- What arrives of a part: of its flags, `ZMQ_MSG_MORE` is sent. -/
def sent (m : Msg) : Msg := ⟨(m.flags &&& msgMore) ||| ~~~msgMask, m.data⟩

/-- The flag arrives. -/
@[simp] theorem more_sent (m : Msg) : m.sent.more = m.more := by
  have h : ((m.flags &&& msgMore) ||| ~~~msgMask) &&& msgMore = m.flags &&& msgMore := by
    have hmask : (~~~msgMask &&& msgMore : UInt8) = 0 := by decide
    have hdist : ((m.flags &&& msgMore) ||| ~~~msgMask) &&& msgMore =
        (m.flags &&& msgMore) &&& msgMore ||| (~~~msgMask &&& msgMore) :=
      UInt8.toBitVec_inj.1 BitVec.and_or_distrib_right
    rw [hdist, hmask, UInt8.or_zero, UInt8.and_assoc, UInt8.and_self]
  simp [more, sent, h]

@[simp] theorem more_init (data : Bytes) : (init data).more = false := by
  have h : (~~~msgMask &&& msgMore : UInt8) = 0 := by decide
  simp [more, init, h]

@[simp] theorem more_withMore (data : Bytes) : (init data).withMore.more = true := by
  have h : ((~~~msgMask ||| msgMore) &&& msgMore : UInt8) ≠ 0 := by decide
  exact decide_eq_true h

end Msg

/-! ## Sizes -/

/-- `put_uint64` -/
def putUint64 (value : ℕ) : Bytes :=
  [UInt8.ofNat (value >>> 56), UInt8.ofNat (value >>> 48), UInt8.ofNat (value >>> 40),
    UInt8.ofNat (value >>> 32), UInt8.ofNat (value >>> 24), UInt8.ofNat (value >>> 16),
    UInt8.ofNat (value >>> 8), UInt8.ofNat value]

/-- `get_uint64` -/
def getUint64 : Bytes → ℕ
  | [b₀, b₁, b₂, b₃, b₄, b₅, b₆, b₇] =>
    b₀.toNat <<< 56 ||| b₁.toNat <<< 48 ||| b₂.toNat <<< 40 ||| b₃.toNat <<< 32 |||
      b₄.toNat <<< 24 ||| b₅.toNat <<< 16 ||| b₆.toNat <<< 8 ||| b₇.toNat
  | _ => 0

/-- Bits that are shifted over a smaller number are added to it. -/
theorem shiftLeft_or {a b k : ℕ} (h : b < 2 ^ k) : a <<< k ||| b = a * 2 ^ k + b := by
  rw [Nat.shiftLeft_eq, Nat.mul_comm, ← Nat.two_pow_add_eq_or_of_lt h]

theorem getUint64_putUint64 {n : ℕ} (h : n < 2 ^ 64) : getUint64 (putUint64 n) = n := by
  simp only [getUint64, putUint64, UInt8.toNat_ofNat', Nat.shiftRight_eq_div_pow, Nat.or_assoc]
  -- from the last byte on, what is to the right of a byte is smaller than its place
  have hlast : n % 2 ^ 8 < 2 ^ 8 := Nat.mod_lt n (by decide)
  rw [shiftLeft_or (k := 8) hlast, shiftLeft_or (k := 16) (by omega),
    shiftLeft_or (k := 24) (by omega), shiftLeft_or (k := 32) (by omega),
    shiftLeft_or (k := 40) (by omega), shiftLeft_or (k := 48) (by omega),
    shiftLeft_or (k := 56) (by omega)]
  omega

/-! ## The encoder -/

/-- `tmpbuf` as `encoder_t::message_ready` fills it: the size, the flags byte included,
in one byte or behind an escape in eight, and the flags. -/
def header (m : Msg) : Bytes :=
  let size := (m.data.length + 1) % 2 ^ 64
  if size < 255 then [UInt8.ofNat size, m.flags &&& msgMore]
  else 0xff :: putUint64 size ++ [m.flags &&& msgMore]

/-- A part as it is on the wire. -/
def frame (m : Msg) : Bytes := header m ++ m.data

/-- What messages are encoded as. -/
def wire (ms : List Msg) : Bytes := ms.flatMap frame

/-- The states of `encoder_t`. -/
inductive EncoderStep where
  | sizeReady
  | messageReady
  deriving DecidableEq, Repr

/-- `encoder_t`, with the parts that its source will hand out. -/
structure Encoder where
  /-- the bytes at `write_pos` -/
  toWrite : Bytes
  next : EncoderStep
  inProgress : Msg
  source : List Msg
  deriving DecidableEq, Repr

namespace Encoder

/-- "Write 0 bytes to the batch and go to message_ready state." -/
def start (source : List Msg) : Encoder := ⟨[], .messageReady, Msg.init [], source⟩

/-- The next action; `none` where the source has no part. -/
def act (e : Encoder) : Option Encoder :=
  match e.next with
  | .sizeReady => some { e with toWrite := e.inProgress.data, next := .messageReady }
  | .messageReady =>
    match e.source with
    | [] => none
    | m :: source => some ⟨header m, .sizeReady, m, source⟩

/-- What is still to come out of the encoder. -/
def remaining (e : Encoder) : Bytes :=
  e.toWrite ++ (if e.next = .sizeReady then e.inProgress.data else []) ++ wire e.source

/-- A bound on the actions that are left. -/
def steps (e : Encoder) : ℕ := 2 * e.source.length + if e.next = .sizeReady then 1 else 0

/-- "If there are no more data to return, run the state machine." -/
def refill (e : Encoder) : Option Encoder := if e.toWrite = [] then e.act else some e

theorem refill_spec {e e' : Encoder} (h : e.refill = some e') :
    e'.remaining = e.remaining ∧ (e' = e ∧ e.toWrite ≠ [] ∨ e'.steps < e.steps) := by
  rw [refill] at h
  split at h
  · rename_i hw
    rw [act] at h
    split at h
    · rename_i hn
      obtain rfl := Option.some.inj h
      simp [remaining, steps, hw, hn]
    · rename_i hn
      split at h
      · cases h
      · rename_i m source hs
        obtain rfl := Option.some.inj h
        simp [remaining, steps, wire, frame, hw, hn, hs]
        omega
  · rename_i hw
    exact ⟨by rw [Option.some.inj h], Or.inl ⟨(Option.some.inj h).symm, hw⟩⟩

theorem refill_eq_none {e : Encoder} (h : e.refill = none) : e.remaining = [] := by
  rw [refill] at h
  split at h
  · rename_i hw
    rw [act] at h
    split at h
    · cases h
    · rename_i hn
      split at h
      · rename_i hs
        simp [remaining, wire, hw, hn, hs]
      · cases h
  · cases h

/-- What was copied is not to come any more. -/
theorem take_append_remaining (e : Encoder) (k : ℕ) :
    e.toWrite.take k ++ { e with toWrite := e.toWrite.drop k }.remaining = e.remaining := by
  simp [remaining, ← List.append_assoc]

/-- A step of the copying loop takes bytes or actions away. -/
theorem copy_lt {e e' : Encoder} (h : e.refill = some e') {k : ℕ} (hk : 0 < k) :
    { e' with toWrite := e'.toWrite.drop (min e'.toWrite.length k) }.remaining.length +
      { e' with toWrite := e'.toWrite.drop (min e'.toWrite.length k) }.steps <
        e.remaining.length + e.steps := by
  obtain ⟨hrem, hcase⟩ := refill_spec h
  have hlen := congrArg List.length (take_append_remaining e' (min e'.toWrite.length k))
  rw [hrem, List.length_append, List.length_take] at hlen
  have hsteps : { e' with toWrite := e'.toWrite.drop (min e'.toWrite.length k) }.steps =
    e'.steps := rfl
  rcases hcase with ⟨rfl, hw⟩ | hlt
  · have hpos : 0 < e'.toWrite.length := List.length_pos_iff.2 hw
    omega
  · omega

/-- `get_data`: fill a buffer of `n` bytes in which `buf` stands already.  If it is
empty and can be filled in one go, the data are handed out as they are. -/
def getData (n : ℕ) (e : Encoder) (buf : Bytes) : Bytes × Encoder :=
  match _h : e.refill with
  | none => (buf, e)
  | some e' =>
    if buf = [] ∧ n ≤ e'.toWrite.length then (e'.toWrite, { e' with toWrite := [] })
    else
      let toCopy := min e'.toWrite.length (n - buf.length)
      let buf' := buf ++ e'.toWrite.take toCopy
      let e'' := { e' with toWrite := e'.toWrite.drop toCopy }
      if _hfull : n ≤ buf'.length then (buf', e'') else getData n e'' buf'
termination_by e.remaining.length + e.steps
decreasing_by
  refine copy_lt _h ?_
  rw [List.length_append] at _hfull
  omega

theorem getData_of_none {e : Encoder} (h : e.refill = none) (n : ℕ) (buf : Bytes) :
    getData n e buf = (buf, e) := by
  rw [getData]
  split
  · rfl
  · rename_i h'
    rw [h] at h'
    cases h'

theorem getData_of_some {e e' : Encoder} (h : e.refill = some e') (n : ℕ) (buf : Bytes) :
    getData n e buf =
      if buf = [] ∧ n ≤ e'.toWrite.length then (e'.toWrite, { e' with toWrite := [] })
      else if n ≤ (buf ++ e'.toWrite.take (min e'.toWrite.length (n - buf.length))).length then
        (buf ++ e'.toWrite.take (min e'.toWrite.length (n - buf.length)),
          { e' with toWrite := e'.toWrite.drop (min e'.toWrite.length (n - buf.length)) })
      else getData n
        { e' with toWrite := e'.toWrite.drop (min e'.toWrite.length (n - buf.length)) }
        (buf ++ e'.toWrite.take (min e'.toWrite.length (n - buf.length))) := by
  rw [getData]
  split
  · rename_i h'
    rw [h] at h'
    cases h'
  · rename_i t h'
    obtain rfl := Option.some.inj (h.symm.trans h')
    rfl

/-- **A buffer holds the next bytes**, and is filled as far as there are any. -/
theorem getData_spec (n : ℕ) (e : Encoder) (buf : Bytes) :
    (getData n e buf).1 ++ (getData n e buf).2.remaining = buf ++ e.remaining ∧
      (n ≤ (getData n e buf).1.length ∨ (getData n e buf).2.remaining = []) := by
  induction e, buf using getData.induct n with
  | case1 e buf h =>
    rw [getData_of_none h]
    exact ⟨rfl, Or.inr (refill_eq_none h)⟩
  | case2 e buf e' h hzero =>
    rw [getData_of_some h, if_pos hzero, ← (refill_spec h).1, hzero.1]
    exact ⟨by simp [remaining], Or.inl hzero.2⟩
  | case3 e buf e' h hzero toCopy buf' hfull =>
    rw [getData_of_some h, if_neg hzero, if_pos hfull, ← (refill_spec h).1]
    exact ⟨by rw [List.append_assoc, take_append_remaining], Or.inl hfull⟩
  | case4 e buf e' h hzero toCopy buf' e'' hfull ih =>
    rw [getData_of_some h, if_neg hzero, if_neg hfull, ← (refill_spec h).1]
    refine ⟨?_, ih.2⟩
    rw [← take_append_remaining e' toCopy, ← List.append_assoc]
    exact ih.1

end Encoder

/-! ## The decoder -/

/-- The states of `decoder_t`. -/
inductive DecoderStep where
  | oneByteSizeReady
  | eightByteSizeReady
  | flagsReady
  | messageReady
  deriving DecidableEq, Repr

/-- `decoder_t`, with the destination that parts are handed to. -/
structure Decoder (δ : Type) where
  /-- what was read since the last action -/
  filled : Bytes
  toRead : ℕ
  /-- none behind a `decoding_error` -/
  next : Option DecoderStep
  /-- the flags and the size of `in_progress` -/
  flags : UInt8
  size : ℕ
  dest : δ
  deriving DecidableEq, Repr

namespace Decoder

variable {δ : Type}

/-- "At the beginning, read one byte and go to one_byte_size_ready state." -/
def start (dest : δ) : Decoder δ := ⟨[], 1, some .oneByteSizeReady, 0, 0, dest⟩

/-- `next_step` -/
def nextStep (d : Decoder δ) (toRead : ℕ) (next : DecoderStep) : Decoder δ :=
  { d with filled := [], toRead := toRead, next := some next }

/-- `decoding_error` -/
def decodingError (d : Decoder δ) : Decoder δ := { d with next := none }

/-- The size of a part is read, the flags byte included; `alloc` says whether there is
memory for a body. -/
def sizeReady (alloc : ℕ → Bool) (d : Decoder δ) (size : ℕ) : Decoder δ :=
  if size = 0 ∨ alloc (size - 1) = false then d.decodingError
  else { d with size := size - 1 }.nextStep 1 .flagsReady

/-- The next action, once its bytes are there; `none` where the destination refuses the
part, or behind an error. -/
def act (alloc : ℕ → Bool) (write : δ → Msg → Option δ) (d : Decoder δ) : Option (Decoder δ) :=
  match d.next with
  | none => none
  | some .oneByteSizeReady =>
    if d.filled = [0xff] then some (d.nextStep 8 .eightByteSizeReady)
    else some (d.sizeReady alloc (d.filled.headD 0).toNat)
  | some .eightByteSizeReady => some (d.sizeReady alloc (getUint64 d.filled))
  | some .flagsReady =>
    some ({ d with flags := d.filled.headD 0 ||| ~~~msgMask }.nextStep d.size .messageReady)
  | some .messageReady =>
    (write d.dest ⟨d.flags, d.filled⟩).map fun dest =>
      { d with dest := dest }.nextStep 1 .oneByteSizeReady

/-- How often the decoder may act before it reads again. -/
def rank (d : Decoder δ) : ℕ :=
  match d.next with
  | none => 0
  | some .flagsReady => 2
  | some _ => 1

theorem rank_sizeReady {alloc : ℕ → Bool} {d : Decoder δ} {size : ℕ}
    (h : (d.sizeReady alloc size).toRead = 0) : (d.sizeReady alloc size).rank = 0 := by
  rw [sizeReady] at h ⊢
  split
  · rfl
  · rename_i hs
    rw [if_neg hs] at h
    cases h

/-- The decoder as a machine; its `process` is `process_buffer`. -/
def machine (alloc : ℕ → Bool) (write : δ → Msg → Option δ) :
    Chunked.Machine (Decoder δ) UInt8 where
  need d := d.toRead
  fill d x := { d with filled := d.filled ++ x, toRead := d.toRead - x.length }
  act := act alloc write
  rank := rank
  fill_nil d := by simp
  fill_append d x y := by simp [Nat.sub_sub]
  need_fill d x _ := rfl
  rank_act d d' h hneed := by
    rw [act] at h
    split at h
    · cases h
    · rename_i hn
      split at h
      · obtain rfl := Option.some.inj h
        cases hneed
      · obtain rfl := Option.some.inj h
        rw [rank_sizeReady hneed, rank, hn]
        exact Nat.one_pos
    · rename_i hn
      obtain rfl := Option.some.inj h
      rw [rank_sizeReady hneed, rank, hn]
      exact Nat.one_pos
    · rename_i hn
      obtain rfl := Option.some.inj h
      rw [rank, rank, hn]
      exact Nat.one_lt_two
    · obtain ⟨dest, -, rfl⟩ := Option.map_eq_some_iff.1 h
      cases hneed

/-! ### Reading a frame -/

/-- Between two frames. -/
def atFrame (flags : UInt8) (size : ℕ) (dest : δ) : Decoder δ :=
  ⟨[], 1, some .oneByteSizeReady, flags, size, dest⟩

/-- A part is read and not handed over. -/
def atPart (m : Msg) (dest : δ) : Decoder δ :=
  ⟨m.data, 0, some .messageReady, m.flags, m.data.length, dest⟩

variable {alloc : ℕ → Bool} {write : δ → Msg → Option δ}

/-- Behind the size, the flags byte and the body are read. -/
theorem process_flags (flags : UInt8) (m : Msg) (dest : δ) (rest : Bytes) :
    (machine alloc write).process ⟨[], 1, some .flagsReady, flags, m.data.length, dest⟩
        ([m.flags &&& msgMore] ++ (m.data ++ rest)) =
      (machine alloc write).process (atPart m.sent dest) rest := by
  have hact : (machine alloc write).act
      ⟨[m.flags &&& msgMore], 0, some .flagsReady, flags, m.data.length, dest⟩ =
      some ⟨[], m.data.length, some .messageReady, m.sent.flags, m.data.length, dest⟩ := rfl
  rw [Chunked.Machine.process_exact rfl]
  refine (Chunked.Machine.process_of_act rfl hact _).trans ?_
  rw [Chunked.Machine.process_exact rfl]
  congr 1
  simp [machine, atPart, Msg.sent]

/-- The size of a frame is read, in one byte or in eight. -/
theorem process_size {m : Msg} (h : m.data.length + 1 < 2 ^ 64) (flags : UInt8) (size : ℕ)
    (dest : δ) (rest : Bytes) : ∃ d : Decoder δ, d.toRead = 0 ∧ d.dest = dest ∧
      (machine alloc write).process (atFrame flags size dest) (frame m ++ rest) =
        (machine alloc write).process (d.sizeReady alloc (m.data.length + 1))
          ([m.flags &&& msgMore] ++ (m.data ++ rest)) := by
  rw [frame, header, Nat.mod_eq_of_lt h]
  split
  · rename_i hshort
    have hnat : (UInt8.ofNat (m.data.length + 1)).toNat = m.data.length + 1 := by
      rw [UInt8.toNat_ofNat', Nat.mod_eq_of_lt (by omega)]
    have hne : UInt8.ofNat (m.data.length + 1) ≠ 0xff := by
      intro he
      rw [he] at hnat
      exact absurd hnat (by simp; omega)
    let d : Decoder δ :=
      ⟨[UInt8.ofNat (m.data.length + 1)], 0, some .oneByteSizeReady, flags, size, dest⟩
    have hact : (machine alloc write).act d = some (d.sizeReady alloc (m.data.length + 1)) := by
      simp only [machine, act, d, List.cons.injEq, hne, false_and, if_false, List.headD_cons, hnat]
    refine ⟨d, rfl, rfl, ?_⟩
    rw [List.append_assoc, List.cons_append, ← List.singleton_append,
      Chunked.Machine.process_exact rfl]
    exact Chunked.Machine.process_of_act rfl hact _
  · let d : Decoder δ :=
      ⟨putUint64 (m.data.length + 1), 0, some .eightByteSizeReady, flags, size, dest⟩
    have hact : (machine alloc write).act d = some (d.sizeReady alloc (m.data.length + 1)) := by
      simp only [machine, act, d, getUint64_putUint64 h]
    have hescape : (machine alloc write).act
        ⟨[0xff], 0, some .oneByteSizeReady, flags, size, dest⟩ =
        some ⟨[], 8, some .eightByteSizeReady, flags, size, dest⟩ := rfl
    refine ⟨d, rfl, rfl, ?_⟩
    rw [List.append_assoc, List.cons_append, List.cons_append, ← List.singleton_append,
      Chunked.Machine.process_exact rfl]
    refine (Chunked.Machine.process_of_act rfl hescape _).trans ?_
    rw [List.append_assoc, Chunked.Machine.process_exact rfl]
    exact Chunked.Machine.process_of_act rfl hact _

/-- A frame is read as its part. -/
theorem process_frame {m : Msg} (h : m.data.length + 1 < 2 ^ 64)
    (halloc : alloc m.data.length = true) (flags : UInt8) (size : ℕ) (dest : δ) (rest : Bytes) :
    (machine alloc write).process (atFrame flags size dest) (frame m ++ rest) =
      (machine alloc write).process (atPart m.sent dest) rest := by
  obtain ⟨d, -, rfl, hd⟩ := @process_size δ alloc write m h flags size dest rest
  rw [hd, sizeReady, if_neg (by simp [halloc]), Nat.add_sub_cancel]
  exact process_flags d.flags m d.dest rest

/-- Behind a `decoding_error` nothing is read. -/
def Broken (d : Decoder δ) : Prop := d.next = none ∧ d.toRead = 0

theorem process_broken {d : Decoder δ} (h : d.Broken) (data : Bytes) :
    (machine alloc write).process d data = (d, data) := by
  have hact : (machine alloc write).act d = none := by simp [machine, act, h.1]
  have hneed : (machine alloc write).need ((machine alloc write).settle d) = 0 := by
    rw [Chunked.Machine.settle_of_stuck hact]
    exact h.2
  rw [Chunked.Machine.process_of_stuck hneed, Chunked.Machine.settle_of_stuck hact]

/-- Without memory for the body, the decoder gives up. -/
theorem process_frame_of_no_memory {m : Msg} (h : m.data.length + 1 < 2 ^ 64)
    (halloc : alloc m.data.length = false) (flags : UInt8) (size : ℕ) (dest : δ) (rest : Bytes) :
    ((machine alloc write).process (atFrame flags size dest) (frame m ++ rest)).1.Broken ∧
      ((machine alloc write).process (atFrame flags size dest) (frame m ++ rest)).1.dest =
        dest := by
  obtain ⟨d, hread, rfl, hd⟩ := @process_size δ alloc write m h flags size dest rest
  rw [hd, sizeReady, if_pos (by simp [halloc])]
  have hbroken : d.decodingError.Broken := ⟨rfl, hread⟩
  rw [process_broken hbroken]
  exact ⟨hbroken, rfl⟩

/-- What is read is handed over, or waits. -/
theorem process_atPart (m : Msg) (dest : δ) (rest : Bytes) :
    (machine alloc write).process (atPart m dest) rest =
      match write dest m with
      | none => (atPart m dest, rest)
      | some dest' => (machine alloc write).process (atFrame m.flags m.data.length dest') rest := by
  cases h : write dest m with
  | none =>
    have hact : (machine alloc write).act (atPart m dest) = none := by
      simp [machine, act, atPart, h]
    rw [Chunked.Machine.process_of_stuck, Chunked.Machine.settle_of_stuck hact]
    rw [Chunked.Machine.settle_of_stuck hact]
    rfl
  | some dest' =>
    refine Chunked.Machine.process_of_act rfl ?_ rest
    simp [machine, act, atPart, h, atFrame, nextStep]

/-! ### Reading everything -/

/-- A destination that takes every part. -/
def collect (ms : List Msg) (m : Msg) : Option (List Msg) := some (ms ++ [m])

/-- What a decoder with such a destination has made of the frames of `ms`, and left of
them: it handed over all of them, or it gave up behind some. -/
inductive Reads (ms : List Msg) : Decoder (List Msg) × Bytes → Prop where
  | all (flags : UInt8) (size : ℕ) : Reads ms (atFrame flags size (ms.map Msg.sent), [])
  | gaveUp {d : Decoder (List Msg)} {left : Bytes} (hd : d.Broken)
      (hpre : d.dest <+: ms.map Msg.sent) : Reads ms (d, left)

/-- One more frame. -/
theorem Reads.snoc {ms : List Msg} {r : Decoder (List Msg) × Bytes} (h : Reads ms r) {m : Msg}
    (hm : m.data.length + 1 < 2 ^ 64) :
    Reads (ms ++ [m]) ((machine alloc collect).process r.1 (r.2 ++ frame m)) := by
  cases h with
  | all flags size =>
    have hf := List.append_nil (frame m)
    cases ha : alloc m.data.length with
    | true =>
      have hneed : (machine alloc collect).need (atFrame m.sent.flags m.sent.data.length
          (ms.map Msg.sent ++ [m.sent])) ≠ 0 := Nat.one_ne_zero
      rw [List.nil_append, ← hf, process_frame hm ha, process_atPart]
      simp only [collect]
      rw [Chunked.Machine.process_nil, Chunked.Machine.settle_of_need hneed]
      have hmap : ms.map Msg.sent ++ [m.sent] = (ms ++ [m]).map Msg.sent := by simp
      simp only [hmap]
      exact .all _ _
    | false =>
      obtain ⟨hbroken, hdest⟩ := @process_frame_of_no_memory _ alloc collect m hm ha flags size
        (ms.map Msg.sent) []
      rw [hf] at hbroken hdest
      refine .gaveUp hbroken ?_
      rw [List.nil_append, hdest]
      simp
  | @gaveUp d left hd hpre =>
    rw [process_broken hd]
    exact .gaveUp hd (hpre.trans (by simp))

/-! ### Destinations that refuse -/

/-- `got` is what a destination has taken so far. -/
def Records (write : δ → Msg → Option δ) (got : δ → List Msg) : Prop :=
  ∀ d m d', write d m = some d' → got d' = got d ++ [m]

/-- The decoder with the parts taken so far as its destination. -/
def collected (got : δ → List Msg) (d : Decoder δ) : Decoder (List Msg) :=
  { d with dest := got d.dest }

theorem collected_sizeReady (got : δ → List Msg) (d : Decoder δ) (size : ℕ) :
    (collected got d).sizeReady alloc size = collected got (d.sizeReady alloc size) := by
  rw [sizeReady, sizeReady]
  split <;> rfl

/-- A destination that takes every part takes those that another one takes. -/
theorem covers {got : δ → List Msg} (hgot : Records write got) :
    (machine alloc collect).Covers (machine alloc write) (collected got) where
  need _ := rfl
  fill _ _ := rfl
  act d d' _ h := by
    obtain ⟨filled, toRead, next, flags, size, dest⟩ := d
    have hact : act alloc write ⟨filled, toRead, next, flags, size, dest⟩ = some d' := h
    show act alloc collect ⟨filled, toRead, next, flags, size, got dest⟩ = some (collected got d')
    cases next with
    | none => cases hact
    | some step =>
      cases step with
      | oneByteSizeReady =>
        simp only [act] at hact ⊢
        split at hact
        · rename_i hescape
          obtain rfl := Option.some.inj hact
          rw [if_pos hescape]
          rfl
        · rename_i hescape
          obtain rfl := Option.some.inj hact
          rw [if_neg hescape, ← collected_sizeReady]
          rfl
      | eightByteSizeReady =>
        obtain rfl := Option.some.inj hact
        rw [← collected_sizeReady]
        rfl
      | flagsReady =>
        obtain rfl := Option.some.inj hact
        rfl
      | messageReady =>
        obtain ⟨dest', hw, rfl⟩ := Option.map_eq_some_iff.1 hact
        simp [act, collect, collected, nextStep, hgot dest _ dest' hw]

/-- A destination that takes every part keeps them. -/
theorem prefix_act {d d' : Decoder (List Msg)} (h : act alloc collect d = some d') :
    d.dest <+: d'.dest := by
  have hsize : ∀ (d : Decoder (List Msg)) (size : ℕ), (d.sizeReady alloc size).dest = d.dest := by
    intro d size
    rw [sizeReady]
    split <;> rfl
  rw [act] at h
  split at h
  · cases h
  · split at h <;> obtain rfl := Option.some.inj h
    · exact List.prefix_refl _
    · rw [hsize]
  · obtain rfl := Option.some.inj h
    rw [hsize]
  · obtain rfl := Option.some.inj h
    exact List.prefix_refl _
  · obtain ⟨dest, hw, rfl⟩ := Option.map_eq_some_iff.1 h
    rw [collect, Option.some.injEq] at hw
    exact ⟨_, hw⟩

theorem prefix_process (d : Decoder (List Msg)) (data : Bytes) :
    d.dest <+: ((machine alloc collect).process d data).1.dest :=
  Chunked.Machine.process_rel (R := fun d d' : Decoder (List Msg) => d.dest <+: d'.dest)
    (fun _ => List.prefix_refl _) (fun _ _ _ => List.IsPrefix.trans) (fun _ _ => prefix_act)
    (fun _ _ => List.prefix_refl _) d data

end Decoder

end Fsync.Zmq
