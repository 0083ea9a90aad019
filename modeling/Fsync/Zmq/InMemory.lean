import Mathlib.Data.PNat.Basic
import Fsync.Base.Run
import Fsync.Zmq.Ypipe
import Fsync.Zmq.Yqueue

/-!
# The queue of a pipe in memory

`Ypipe` takes pointers for positions in all that was written.  In memory they are where
elements are, and memory that was freed is used again: a pointer may be equal to one that
was there before.  The compare-and-swaps are not misled by that.

* `Shows`: a pipe in memory and one of positions;
* `answers_agree`: whatever the memory `malloc` finds, and however the calls of the writer
  and the reader are interleaved, the two give the same answers, so that no pointer to
  memory that is not there is followed;
* `memory_bounded`: what is allocated is in proportion to what was not read yet, and the
  destructor frees it.
-/

namespace Fsync.Zmq

open Memory

namespace Ypipe

variable {α : Type}

/-! ## Calls -/

/-- What the two threads call.  `setFlushed` is the part of `flush` behind a
compare-and-swap that found `NULL`. -/
inductive Call (α : Type) where
  | write (value : α) (incomplete : Bool)
  | unwrite
  | tryFlush
  | setFlushed
  | checkRead
  | read
  | probe (fn : α → Bool)

/-- What a call returns. -/
inductive Answer (α : Type) where
  | done
  | bool (b : Bool)
  | value (v : Option α)
  deriving DecidableEq, Repr

/-- Inside `flush` the writer calls nothing else. -/
def Call.allowed (found : Bool) : Call α → Bool
  | .write _ _ | .unwrite | .tryFlush => !found
  | .setFlushed => found
  | .checkRead | .read | .probe _ => true

/-- Whether the writer is inside `flush`, behind a call. -/
def Call.inFlush (found : Bool) : Call α → Answer α → Bool
  | .tryFlush, .bool b => !b
  | .setFlushed, _ => false
  | _, _ => found

/-- A pipe, whether its writer is inside `flush`, and what was answered. -/
structure Line (π α : Type) where
  pipe : π
  found : Bool
  answers : List (Answer α)

/-- No call was made yet. -/
def Line.start {π : Type} (pipe : π) : Line π α := ⟨pipe, false, []⟩

/-- A call that is allowed now, with its answer recorded. -/
def Line.answer {π : Type} (c : Call α) (result : Option (Answer α × π)) (s : Line π α) :
    Option (Line π α) :=
  if c.allowed s.found then
    result.map fun (answer, pipe) => ⟨pipe, c.inFlush s.found answer, s.answers ++ [answer]⟩
  else none

/-- None where an assertion fails. -/
def call (y : Ypipe α) : Call α → Option (Answer α × Ypipe α)
  | .write value incomplete => some (.done, y.write value incomplete)
  | .unwrite =>
    match y.unwrite with
    | none => some (.value none, y)
    | some (value, y') => some (.value (some value), y')
  | .tryFlush => some (.bool y.tryFlush.1, y.tryFlush.2)
  | .setFlushed => some (.done, y.setFlushed)
  | .checkRead => some (.bool y.checkRead.1, y.checkRead.2)
  | .read => some (.value y.read.1, y.read.2)
  | .probe fn => (y.probe fn).map fun (b, y') => (.bool b, y')

/-- A call of the abstract pipe. -/
def step (s : Line (Ypipe α) α) (c : Call α) : Option (Line (Ypipe α) α) :=
  s.answer c (s.pipe.call c)

/-! ## `ypipe_t` -/

/-- A pipe in memory.  A pointer to an element is its chunk and its place in there. -/
structure InMemory (α : Type) where
  queue : Yqueue α
  w : Option (ℕ × ℕ)
  r : Option (ℕ × ℕ)
  f : Option (ℕ × ℕ)
  c : Option (ℕ × ℕ)

namespace InMemory

variable (N : ℕ)

/-- "Insert terminator element into the queue", "let all the pointers to point to the
terminator". -/
def start (a b : Allocator (Values α)) : Option (InMemory α) := do
  let queue ← (Yqueue.start a).push N b
  return ⟨queue, queue.backPtr, queue.backPtr, queue.backPtr, queue.backPtr⟩

/-- `ypipe_t::write` -/
def write (value : α) (incomplete : Bool) (a : Allocator (Values α)) (y : InMemory α) :
    Option (InMemory α) := do
  let queue ← y.queue.setBack value
  let queue ← queue.push N a
  let y := { y with queue := queue }
  return if incomplete then y else { y with f := queue.backPtr }

/-- `ypipe_t::unwrite` -/
def unwrite (y : InMemory α) : Option (Option α × InMemory α) :=
  if y.f = y.queue.backPtr then some (none, y)
  else do
    let queue ← y.queue.unpush N
    let value ← queue.back
    return (some value, { y with queue := queue })

/-- `c.cas`: the old value is returned. -/
def cas (cmp val : Option (ℕ × ℕ)) (y : InMemory α) : Option (ℕ × ℕ) × InMemory α :=
  (y.c, if y.c = cmp then { y with c := val } else y)

/-- The compare-and-swap of `flush`; it answers false if the reader is asleep. -/
def tryFlush (y : InMemory α) : Bool × InMemory α :=
  if y.w = y.f then (true, y)
  else
    let (old, y') := y.cas y.w y.f
    if old = y.w then (true, { y' with w := y'.f }) else (false, y')

/-- `c.set` and the rest of `flush`, when the reader is asleep. -/
def setFlushed (y : InMemory α) : InMemory α := { y with c := y.f, w := y.f }

/-- `ypipe_t::check_read` -/
def checkRead (y : InMemory α) : Bool × InMemory α :=
  if y.queue.frontPtr ≠ y.r ∧ y.r.isSome then (true, y)
  else
    let (old, y') := y.cas y.queue.frontPtr none
    (decide (y.queue.frontPtr ≠ old ∧ old.isSome), { y' with r := old })

/-- `ypipe_t::read` -/
def read (y : InMemory α) : Option (Option α × InMemory α) :=
  match y.checkRead with
  | (false, y) => some (none, y)
  | (true, y) => do
    let value ← y.queue.front
    let queue ← y.queue.pop N
    return (some value, { y with queue := queue })

/-- `ypipe_t::probe` -/
def probe (fn : α → Bool) (y : InMemory α) : Option (Bool × InMemory α) :=
  match y.checkRead with
  | (false, _) => none
  | (true, y) => do
    let value ← y.queue.front
    return (fn value, y)

/-- None where an assertion fails, or memory is used that is not there. -/
def call (a : Allocator (Values α)) (y : InMemory α) : Call α → Option (Answer α × InMemory α)
  | .write value incomplete => (y.write N value incomplete a).map fun y' => (.done, y')
  | .unwrite => (y.unwrite N).map fun (value, y') => (.value value, y')
  | .tryFlush => some (.bool y.tryFlush.1, y.tryFlush.2)
  | .setFlushed => some (.done, y.setFlushed)
  | .checkRead => some (.bool y.checkRead.1, y.checkRead.2)
  | .read => (y.read N).map fun (value, y') => (.value value, y')
  | .probe fn => (y.probe fn).map fun (b, y') => (.bool b, y')

/-- A call, and the memory that `malloc` finds if it is called. -/
def step (s : Line (InMemory α) α) (c : Call α × Allocator (Values α)) :
    Option (Line (InMemory α) α) :=
  s.answer c.1 (s.pipe.call N c.2 c.1)

variable {N}

/-! ## Positions and pointers -/

/-- A pipe in memory, and the same pipe with positions for pointers. -/
structure Shows (N : ℕ) (addr : ℕ → ℕ) (m : InMemory α) (y : Ypipe α) : Prop where
  ok : y.Ok
  lies : m.queue.Lies N addr y.front (y.items.length + 1)
  items : ∀ p, y.front ≤ p → p < y.items.length → m.queue.elem N addr p = y.items[p]?
  w : m.w = some (Yqueue.ptr N addr y.w)
  r : m.r = y.r.map (Yqueue.ptr N addr)
  f : m.f = some (Yqueue.ptr N addr y.f)
  c : m.c = y.c.map (Yqueue.ptr N addr)

variable {addr : ℕ → ℕ} {m : InMemory α} {y : Ypipe α}

/-- A pointer to an element that is in the queue, or `NULL`. -/
def InRange (y : Ypipe α) (p : Option ℕ) : Prop :=
  ∀ k, p = some k → y.front ≤ k ∧ k ≤ y.items.length

theorem inRange_some {k : ℕ} : InRange y (some k) ↔ y.front ≤ k ∧ k ≤ y.items.length := by
  constructor
  · exact fun h => h k rfl
  · rintro h j hj
    exact Option.some.inj hj ▸ h

theorem inRange_none : InRange y none := fun _ hk => by cases hk

theorem inRange_front (h : y.Ok) : InRange y (some y.front) :=
  inRange_some.2 ⟨Nat.le_refl _, h.front.trans (h.flushed.trans h.written)⟩

theorem inRange_w (h : y.Ok) : InRange y (some y.w) :=
  inRange_some.2 ⟨h.front, h.flushed.trans h.written⟩

theorem inRange_f (h : y.Ok) : InRange y (some y.f) :=
  inRange_some.2 ⟨h.front.trans h.flushed, h.written⟩

theorem inRange_c (h : y.Ok) : InRange y y.c := by
  rcases h.c with hc | hc <;> rw [hc]
  · exact inRange_none
  · exact inRange_w h

theorem inRange_r (h : y.Ok) : InRange y y.r := fun p hp =>
  ⟨(h.prefetched p hp).1, (h.prefetched p hp).2.trans (h.flushed.trans h.written)⟩

/-- **Pointers are equal** if the positions are. -/
theorem Shows.map_inj (h : Shows N addr m y) {p p' : Option ℕ} (hp : InRange y p)
    (hp' : InRange y p') :
    p.map (Yqueue.ptr N addr) = p'.map (Yqueue.ptr N addr) ↔ p = p' := by
  cases p with
  | none => cases p' <;> simp
  | some k =>
    cases p' with
    | none => simp
    | some k' =>
      obtain ⟨hk, hk'⟩ := inRange_some.1 hp
      obtain ⟨hj, hj'⟩ := inRange_some.1 hp'
      rw [Option.map_some, Option.map_some, Option.some.injEq, Option.some.injEq]
      exact h.lies.ptr_inj hk (Nat.le_succ_of_le hk') hj (Nat.le_succ_of_le hj')

theorem Shows.frontPtr (h : Shows N addr m y) :
    m.queue.frontPtr = (some y.front).map (Yqueue.ptr N addr) := h.lies.frontPtr_eq

/-! ## What the calls do -/

theorem Shows.setFlushed (h : Shows N addr m y) : Shows N addr m.setFlushed y.setFlushed :=
  ⟨h.ok.flush, h.lies, h.items, h.f, h.r, h.f, h.f⟩

theorem Shows.tryFlush (h : Shows N addr m y) :
    m.tryFlush.1 = y.tryFlush.1 ∧ Shows N addr m.tryFlush.2 y.tryFlush.2 := by
  have hwf : m.w = m.f ↔ y.w = y.f := by
    have hiff := h.map_inj (inRange_w h.ok) (inRange_f h.ok)
    rw [Option.map_some, Option.map_some, ← h.w, ← h.f, Option.some.injEq] at hiff
    exact hiff
  rw [InMemory.tryFlush]
  rcases h.ok.c with hc | hc
  · have hne : m.c ≠ m.w := by
      rw [h.c, hc, h.w]
      simp
    have hold : m.cas m.w m.f = (m.c, m) := by rw [cas, if_neg hne]
    rw [tryFlush_asleep hc]
    by_cases heq : y.w = y.f
    · rw [if_pos (hwf.2 heq), decide_eq_true heq]
      exact ⟨rfl, h⟩
    · rw [if_neg (fun he => heq (hwf.1 he)), hold, decide_eq_false heq]
      simp only [hne, if_false]
      exact ⟨trivial, h⟩
  · have heqc : m.c = m.w := by rw [h.c, hc, h.w, Option.map_some]
    rw [tryFlush_awake hc]
    by_cases heq : y.w = y.f
    · rw [if_pos (hwf.2 heq), flushed_eq hc heq]
      exact ⟨rfl, h⟩
    · rw [if_neg (fun he => heq (hwf.1 he)), cas, if_pos heqc]
      simp only [heqc, if_true]
      exact ⟨trivial, h.ok.flush, h.lies, h.items, h.f, h.r, h.f, h.f⟩

theorem Shows.checkRead (h : Shows N addr m y) :
    m.checkRead.1 = y.checkRead.1 ∧ Shows N addr m.checkRead.2 y.checkRead.2 := by
  have hr : m.queue.frontPtr = m.r ↔ some y.front = y.r := by
    rw [h.frontPtr, h.r]
    exact h.map_inj (inRange_front h.ok) (inRange_r h.ok)
  have hc : m.queue.frontPtr = m.c ↔ some y.front = y.c := by
    rw [h.frontPtr, h.c]
    exact h.map_inj (inRange_front h.ok) (inRange_c h.ok)
  have hprefetched : m.queue.frontPtr ≠ m.r ∧ m.r.isSome = true ↔
      some y.front ≠ y.r ∧ y.r.isSome = true := by
    rw [ne_eq, hr, h.r, Option.isSome_map]
  have hfound : m.queue.frontPtr ≠ m.c ∧ m.c.isSome = true ↔
      some y.front ≠ y.c ∧ y.c.isSome = true := by
    rw [ne_eq, hc, h.c, Option.isSome_map]
  rw [InMemory.checkRead, Ypipe.checkRead]
  by_cases hp : some y.front ≠ y.r ∧ y.r.isSome = true
  · rw [if_pos hp, if_pos (hprefetched.2 hp)]
    exact ⟨rfl, h⟩
  · rw [if_neg hp, if_neg fun h => hp (hprefetched.1 h), InMemory.cas, Ypipe.cas]
    refine ⟨decide_eq_decide.2 hfound, ?_⟩
    by_cases hfront : y.c = some y.front
    · -- the reader goes to sleep
      have heq : y.front = y.w := by
        rcases h.ok.c with hnone | hsome
        · exact absurd (hfront.symm.trans hnone) (by simp)
        · exact Option.some.inj (hfront.symm.trans hsome)
      rw [if_pos hfront, if_pos (hc.2 hfront.symm).symm]
      exact ⟨h.ok.sleep heq, h.lies, h.items, h.w, h.c, h.f, rfl⟩
    · rw [if_neg hfront, if_neg fun he => hfront (hc.1 he.symm).symm]
      refine ⟨⟨h.ok.front, h.ok.flushed, h.ok.written, h.ok.c, h.ok.asleep, fun p hp => ?_⟩,
        h.lies, h.items, h.w, h.c, h.f, h.c⟩
      rcases h.ok.c with hnone | hsome
      · exact absurd (hp.symm.trans hnone) (by simp)
      · obtain rfl := Option.some.inj (hsome.symm.trans hp)
        exact ⟨h.ok.front, Nat.le_refl _⟩

/-- What was written is there, and can be read. -/
theorem Shows.front (h : Shows N addr m y) (hlt : y.front < y.w) :
    ∃ v, y.items[y.front]? = some v ∧ m.queue.front = some v := by
  obtain ⟨v, hv⟩ := h.ok.exists_front hlt
  refine ⟨v, hv, ?_⟩
  rw [h.lies.front_eq, h.items _ (Nat.le_refl _) (List.getElem?_eq_some_iff.1 hv).1, hv]

/-- A check that finds something leaves the front, and `w`. -/
theorem checkRead_true (h : y.Ok) (hcheck : y.checkRead.1 = true) :
    y.front < y.w ∧ ∃ p, y.front < p ∧ p ≤ y.w ∧ y.checkRead = (true, { y with r := some p }) := by
  rcases Nat.lt_or_eq_of_le h.front with hlt | heq
  · have hc : y.c = some y.w := h.c.resolve_left fun hnone =>
      absurd (h.asleep hnone) (Nat.ne_of_lt hlt)
    exact ⟨hlt, h.checkRead_unread hc hlt⟩
  · rw [h.checkRead_empty heq] at hcheck
    cases hcheck

theorem Shows.probe (h : Shows N addr m y) (fn : α → Bool) :
    m.probe fn = none ∧ y.probe fn = none ∨
      ∃ b m' y', m.probe fn = some (b, m') ∧ y.probe fn = some (b, y') ∧ Shows N addr m' y' := by
  obtain ⟨hb, hshows⟩ := h.checkRead
  rw [InMemory.probe, Ypipe.probe]
  cases hy : y.checkRead.1 with
  | false =>
    have hm : m.checkRead = (false, m.checkRead.2) := Prod.ext (hb.trans hy) rfl
    have hy' : y.checkRead = (false, y.checkRead.2) := Prod.ext hy rfl
    rw [hm, hy']
    exact Or.inl ⟨rfl, rfl⟩
  | true =>
    obtain ⟨hlt, p, -, -, hcheck⟩ := checkRead_true h.ok hy
    have hm : m.checkRead = (true, m.checkRead.2) := Prod.ext (hb.trans hy) rfl
    rw [hcheck] at hshows ⊢
    obtain ⟨v, hv, hfront⟩ := hshows.front hlt
    refine Or.inr ⟨fn v, m.checkRead.2, { y with r := some p }, ?_, ?_, hshows⟩
    · rw [hm]
      show (m.checkRead.2.queue.front).bind _ = _
      rw [hfront]
      rfl
    · show (y.items[y.front]?).map _ = _
      rw [show y.items[y.front]? = some v from hv]
      rfl

theorem Shows.read (hN : 0 < N) (h : Shows N addr m y) :
    ∃ m', m.read N = some (y.read.1, m') ∧ Shows N addr m' y.read.2 := by
  obtain ⟨hb, hshows⟩ := h.checkRead
  rw [InMemory.read, Ypipe.read]
  cases hy : y.checkRead.1 with
  | false =>
    have hm : m.checkRead = (false, m.checkRead.2) := Prod.ext (hb.trans hy) rfl
    have hy' : y.checkRead = (false, y.checkRead.2) := Prod.ext hy rfl
    rw [hm, hy']
    exact ⟨_, rfl, hshows⟩
  | true =>
    obtain ⟨hlt, p, hp, hpw, hcheck⟩ := checkRead_true h.ok hy
    have hm : m.checkRead = (true, m.checkRead.2) := Prod.ext (hb.trans hy) rfl
    have hc : y.c ≠ none := fun hnone => absurd (h.ok.asleep hnone) (Nat.ne_of_lt hlt)
    rw [hcheck] at hshows ⊢
    obtain ⟨v, hv, hfront⟩ := hshows.front hlt
    have hlen : y.front + 1 < y.items.length + 1 :=
      Nat.succ_lt_succ (List.getElem?_eq_some_iff.1 hv).1
    obtain ⟨queue, hpop, hlies, helem⟩ := hshows.lies.pop hN hlen
    refine ⟨{ m.checkRead.2 with queue := queue }, ?_, h.ok.take hp hpw hc, hlies,
      fun k hk hkl => ?_, hshows.w, hshows.r, hshows.f, hshows.c⟩
    · rw [hm]
      show (m.checkRead.2.queue.front).bind _ = some (y.items[y.front]?, _)
      rw [hfront, Option.bind_some, hpop, show y.items[y.front]? = some v from hv]
      rfl
    · rw [helem k hk (Nat.le_succ_of_le (Nat.le_of_lt hkl))]
      exact hshows.items k (Nat.le_of_succ_le hk) hkl

theorem map_ptr_congr {addr' : ℕ → ℕ} {p : Option ℕ} (hp : InRange y p)
    (h : ∀ k ≤ y.items.length, Yqueue.ptr N addr' k = Yqueue.ptr N addr k) :
    p.map (Yqueue.ptr N addr') = p.map (Yqueue.ptr N addr) := by
  cases p with
  | none => rfl
  | some k => rw [Option.map_some, Option.map_some, h k (inRange_some.1 hp).2]

theorem Shows.write (hN : 0 < N) (h : Shows N addr m y) (value : α) (incomplete : Bool)
    (a : Allocator (Values α)) :
    ∃ m' addr', m.write N value incomplete a = some m' ∧
      Shows N addr' m' (y.write value incomplete) := by
  have hfront : y.front ≤ y.items.length := h.ok.front.trans (h.ok.flushed.trans h.ok.written)
  have hlen : (y.items ++ [value]).length = y.items.length + 1 := by simp
  obtain ⟨q₁, hset, hlies₁, hvalue, helem₁⟩ := h.lies.setBack hfront value
  obtain ⟨q₂, addr', hpush, hlies₂, haddr, helem₂⟩ := hlies₁.push hN a
  have hptr : ∀ k ≤ y.items.length, Yqueue.ptr N addr' k = Yqueue.ptr N addr k := fun k hk => by
    rw [Yqueue.ptr, Yqueue.ptr, haddr _ (Nat.div_le_div_right (Nat.le_succ_of_le hk))]
  have hw : m.w = some (Yqueue.ptr N addr' y.w) := by
    rw [hptr _ (h.ok.flushed.trans h.ok.written)]
    exact h.w
  have hr : m.r = y.r.map (Yqueue.ptr N addr') :=
    h.r.trans (map_ptr_congr (inRange_r h.ok) hptr).symm
  have hc : m.c = y.c.map (Yqueue.ptr N addr') :=
    h.c.trans (map_ptr_congr (inRange_c h.ok) hptr).symm
  have hlies : q₂.Lies N addr' y.front ((y.items ++ [value]).length + 1) := by
    rw [hlen]
    exact hlies₂
  have hitems : ∀ p, y.front ≤ p → p < (y.items ++ [value]).length →
      q₂.elem N addr' p = (y.items ++ [value])[p]? := by
    intro p hp hpl
    rw [helem₂ p hp (by omega)]
    rcases Nat.lt_or_eq_of_le (show p ≤ y.items.length by omega) with hlt | rfl
    · rw [helem₁ p hp hlt, h.items p hp hlt, List.getElem?_append_left hlt]
    · rw [hvalue, List.getElem?_concat_length]
  have hwrite : m.write N value incomplete a = some (if incomplete then { m with queue := q₂ }
      else { m with queue := q₂, f := q₂.backPtr }) := by
    rw [InMemory.write, hset]
    simp only [Option.bind_eq_bind, Option.bind_some, hpush, Option.pure_def]
  have hok := h.ok.write value incomplete
  rw [hwrite]
  refine ⟨_, addr', rfl, ?_⟩
  cases incomplete with
  | true =>
    refine ⟨hok, hlies, hitems, hw, hr, ?_, hc⟩
    show m.f = some (Yqueue.ptr N addr' y.f)
    rw [hptr _ h.ok.written]
    exact h.f
  | false => exact ⟨hok, hlies, hitems, hw, hr, hlies.backPtr_eq, hc⟩

theorem Shows.unwrite (hN : 0 < N) (h : Shows N addr m y) :
    y.unwrite = none ∧ m.unwrite N = some (none, m) ∨
      ∃ value m' y', y.unwrite = some (value, y') ∧ m.unwrite N = some (some value, m') ∧
        Shows N addr m' y' := by
  have hback : m.f = m.queue.backPtr ↔ y.f = y.items.length := by
    have hrange := inRange_f h.ok
    have hlen : InRange y (some y.items.length) :=
      inRange_some.2 ⟨h.ok.front.trans (h.ok.flushed.trans h.ok.written), Nat.le_refl _⟩
    have hiff := h.map_inj hrange hlen
    rw [Option.map_some, Option.map_some, ← h.f, Option.some.injEq] at hiff
    rw [h.lies.backPtr_eq]
    exact hiff
  cases hu : y.unwrite with
  | none =>
    refine Or.inl ⟨rfl, ?_⟩
    rw [InMemory.unwrite, if_pos (hback.2 (h.ok.unwrite_eq_none.1 hu))]
  | some v =>
    obtain ⟨value, y'⟩ := v
    obtain ⟨hne, hitems, heq⟩ := unwrite_eq_some hu
    have hok := h.ok.unwrite hu
    have hlen : y.items.length = y'.items.length + 1 := by rw [hitems]; simp
    have hfront : y'.front = y.front := by rw [heq]
    have hle : y.front ≤ y'.items.length := hfront ▸
      hok.front.trans (hok.flushed.trans hok.written)
    have hlies := h.lies
    rw [hlen] at hlies
    obtain ⟨queue, hunpush, hlies', helem⟩ := hlies.unpush hN hle
    have hvalue : queue.back = some value := by
      rw [hlies'.back_eq hle, helem _ hle (Nat.le_succ _), h.items _ hle (by omega), hitems,
        List.getElem?_concat_length]
    refine Or.inr ⟨value, { m with queue := queue }, y', rfl, ?_, hok, ?_, fun p hp hpl => ?_, ?_,
      ?_, ?_, ?_⟩
    · rw [InMemory.unwrite, if_neg fun he => hne (hback.1 he), hunpush]
      show (queue.back).bind _ = _
      rw [hvalue]
      rfl
    · rw [hfront]
      exact hlies'
    · rw [hfront] at hp
      show queue.elem N addr p = _
      rw [helem p hp (by omega), h.items p hp (by omega), hitems, List.getElem?_append_left hpl]
    all_goals rw [heq]
    · exact h.w
    · exact h.r
    · exact h.f
    · exact h.c

theorem exists_start (hN : 0 < N) (a b : Allocator (Values α)) :
    ∃ m addr, start N a b = some m ∧ Shows N addr m Ypipe.start := by
  obtain ⟨queue, addr, hpush, hlies, -, -⟩ := (Yqueue.lies_start N a).push hN b
  refine ⟨⟨queue, queue.backPtr, queue.backPtr, queue.backPtr, queue.backPtr⟩, addr, ?_, ok_start,
    hlies, fun p _ hp => absurd hp (Nat.not_lt_zero p), hlies.backPtr_eq, hlies.backPtr_eq,
    hlies.backPtr_eq, hlies.backPtr_eq⟩
  rw [start, hpush]
  rfl

/-- **A call** is answered alike. -/
theorem Shows.call (hN : 0 < N) (h : Shows N addr m y) (c : Call α)
    (a : Allocator (Values α)) : m.call N a c = none ∧ y.call c = none ∨
      ∃ answer m' y' addr', m.call N a c = some (answer, m') ∧ y.call c = some (answer, y') ∧
        Shows N addr' m' y' := by
  cases c with
  | write value incomplete =>
    obtain ⟨m', addr', hm, hshows⟩ := h.write hN value incomplete a
    refine Or.inr ⟨.done, m', _, addr', ?_, rfl, hshows⟩
    rw [InMemory.call, hm, Option.map_some]
  | unwrite =>
    rcases h.unwrite hN with ⟨hy, hm⟩ | ⟨value, m', y', hy, hm, hshows⟩
    · refine Or.inr ⟨.value none, m, y, addr, ?_, ?_, h⟩
      · rw [InMemory.call, hm, Option.map_some]
      · rw [Ypipe.call, hy]
    · refine Or.inr ⟨.value (some value), m', y', addr, ?_, ?_, hshows⟩
      · rw [InMemory.call, hm, Option.map_some]
      · rw [Ypipe.call, hy]
  | tryFlush =>
    obtain ⟨hb, hshows⟩ := h.tryFlush
    exact Or.inr ⟨.bool y.tryFlush.1, _, _, addr, by rw [InMemory.call, hb], rfl, hshows⟩
  | setFlushed => exact Or.inr ⟨.done, _, _, addr, rfl, rfl, h.setFlushed⟩
  | checkRead =>
    obtain ⟨hb, hshows⟩ := h.checkRead
    exact Or.inr ⟨.bool y.checkRead.1, _, _, addr, by rw [InMemory.call, hb], rfl, hshows⟩
  | read =>
    obtain ⟨m', hm, hshows⟩ := h.read hN
    refine Or.inr ⟨.value y.read.1, m', _, addr, ?_, rfl, hshows⟩
    rw [InMemory.call, hm, Option.map_some]
  | probe fn =>
    rcases h.probe fn with ⟨hm, hy⟩ | ⟨b, m', y', hm, hy, hshows⟩
    · refine Or.inl ⟨?_, ?_⟩
      · rw [InMemory.call, hm, Option.map_none]
      · rw [Ypipe.call, hy, Option.map_none]
    · refine Or.inr ⟨.bool b, m', y', addr, ?_, ?_, hshows⟩
      · rw [InMemory.call, hm, Option.map_some]
      · rw [Ypipe.call, hy, Option.map_some]

/-! ## Runs -/

/-- The same calls were answered alike. -/
structure Alike (N : ℕ) (s : Line (InMemory α) α) (t : Line (Ypipe α) α) : Prop where
  shows : ∃ addr, Shows N addr s.pipe t.pipe
  found : s.found = t.found
  answers : s.answers = t.answers

theorem alike_start {m : InMemory α} (h : Shows N addr m Ypipe.start) :
    Alike N (Line.start m) (Line.start Ypipe.start) := ⟨⟨addr, h⟩, rfl, rfl⟩

theorem alike_step (hN : 0 < N) {s : Line (InMemory α) α} {t : Line (Ypipe α) α}
    (c : Call α × Allocator (Values α)) (h : Alike N s t) :
    step N s c = none ∧ Ypipe.step t c.1 = none ∨
      ∃ s' t', step N s c = some s' ∧ Ypipe.step t c.1 = some t' ∧ Alike N s' t' := by
  obtain ⟨addr, hshows⟩ := h.shows
  rw [step, Ypipe.step, Line.answer, Line.answer, h.found]
  by_cases hallowed : c.1.allowed t.found = true
  · rw [if_pos hallowed, if_pos hallowed]
    rcases hshows.call hN c.1 c.2 with ⟨hm, hy⟩ | ⟨answer, m', y', addr', hm, hy, hshows'⟩
    · rw [hm, hy]
      exact Or.inl ⟨rfl, rfl⟩
    · rw [hm, hy]
      exact Or.inr ⟨_, _, rfl, rfl, ⟨addr', hshows'⟩, rfl, by rw [h.answers]⟩
  · rw [if_neg hallowed, if_neg hallowed]
    exact Or.inl ⟨rfl, rfl⟩

/-- **Pointers do as positions do.**  A pipe in memory answers what a pipe of positions
answers, for chunks of any size, whatever memory `malloc` finds and in whatever order the
two threads call it. -/
theorem answers_agree (N : ℕ+) (a b : Allocator (Values α))
    (calls : List (Call α × Allocator (Values α))) :
    ((start N a b).bind fun m => Run.exec (step N) (Line.start m) calls).map Line.answers =
      (Run.exec Ypipe.step (Line.start Ypipe.start) (calls.map Prod.fst)).map Line.answers := by
  obtain ⟨m, addr, hm, hshows⟩ := exists_start N.pos a b
  rw [hm, Option.bind_some]
  rcases Run.exec_lockstep Prod.fst (fun _ _ c h => alike_step N.pos c h) (alike_start hshows)
    calls with ⟨hs, ht⟩ | ⟨s, t, hs, ht, hsame⟩
  · rw [hs, ht]
    rfl
  · rw [hs, ht, Option.map_some, Option.map_some, hsame.answers]

/-- Where the calls lead, the memory that is allocated is in proportion to what was not read
yet, and the destructor frees it. -/
def Bounded (N : ℕ) (a b : Allocator (Values α)) (calls : List (Call α × Allocator (Values α))) :
    Prop :=
  ∀ t, Run.exec Ypipe.step (Line.start Ypipe.start) (calls.map Prod.fst) = some t →
    ∃ m s, start N a b = some m ∧ Run.exec (step N) (Line.start m) calls = some s ∧
      s.pipe.queue.memory.keys.card ≤ (t.pipe.items.length + 1 - t.pipe.front) / N + 3 ∧
      ∃ fuel, s.pipe.queue.destroy fuel = some ∅

example : ((start 2 (default : Allocator (Values ℕ)) default).bind fun m =>
    Run.exec (step 2) (Line.start m) ([.write 1 false, .write 2 true, .unwrite, .tryFlush, .read,
      .read, .write 3 false, .tryFlush, .setFlushed, .read].map
        fun c => (c, default))).map Line.answers =
    some [.done, .done, .value (some 2), .bool true, .value (some 1), .value none, .done,
      .bool false, .done, .value (some 3)] := by
  decide +kernel

/-- What the calls lead to in memory. -/
theorem exists_alike (N : ℕ+) (a b : Allocator (Values α))
    (calls : List (Call α × Allocator (Values α))) {t : Line (Ypipe α) α}
    (ht : Run.exec Ypipe.step (Line.start Ypipe.start) (calls.map Prod.fst) = some t) :
    ∃ m s, start N a b = some m ∧ Run.exec (step N) (Line.start m) calls = some s ∧
      Alike N s t := by
  obtain ⟨m, addr, hm, hshows⟩ := exists_start N.pos a b
  rcases Run.exec_lockstep Prod.fst (fun _ _ c h => alike_step N.pos c h) (alike_start hshows)
    calls with ⟨-, hnone⟩ | ⟨s, t', hs, ht', hsame⟩
  · exact absurd (ht.symm.trans hnone) (by simp)
  · obtain rfl := Option.some.inj (ht.symm.trans ht')
    exact ⟨m, s, hm, hs, hsame⟩

/-- **No memory is lost**, and none is freed twice. -/
theorem memory_bounded (N : ℕ+) (a b : Allocator (Values α))
    (calls : List (Call α × Allocator (Values α))) : Bounded N a b calls := by
  intro t ht
  obtain ⟨m, s, hm, hs, hsame⟩ := exists_alike N a b calls ht
  obtain ⟨addr, hshows⟩ := hsame.shows
  exact ⟨m, s, hm, hs, hshows.lies.card_le N.pos, hshows.lies.destroy⟩

end InMemory

end Ypipe

end Fsync.Zmq
