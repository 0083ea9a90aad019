import Mathlib.Data.List.Basic
import Mathlib.Tactic.Common

/-!
# The queue of a pipe

`ypipe_t` is a queue between two threads without a lock.  The writer puts values at its
back and the reader takes them from its front; `c` is the only pointer that both use, and
they use it with compare-and-swap.  It points past the last value that was flushed, or is
`NULL`: the reader is asleep.

Pointers are positions in all that was written.  An operation is one step as long as it
uses `c` once; `flush` uses it twice if the reader is asleep, and is two steps then.

* `Ok`: how the pointers are ordered, and that `c` is `NULL` or what the writer left there;
* `Ok.tryFlush_awake`, `Ok.tryFlush_asleep`, `Ok.checkRead_unread`, `Ok.checkRead_empty`:
  what the two compare-and-swaps find.
-/

namespace Fsync.Zmq

/-- `ypipe_t`, with positions in the sequence of all items for pointers. -/
structure Ypipe (α : Type) where
  /-- What was written, with what was read of it; the terminator is behind it. -/
  items : List α
  /-- `&queue.front ()` -/
  front : ℕ
  /-- The first un-flushed item. -/
  w : ℕ
  /-- The first item to be flushed in the future. -/
  f : ℕ
  /-- The first un-prefetched item. -/
  r : Option ℕ
  /-- Past the last flushed item. -/
  c : Option ℕ
  deriving DecidableEq, Repr

namespace Ypipe

variable {α : Type}

/-- A new pipe, with a terminator only. -/
def start : Ypipe α := ⟨[], 0, 0, 0, some 0, some 0⟩

/-- `&queue.back ()` -/
def back (y : Ypipe α) : ℕ := y.items.length

/-! ## The writer -/

/-- "Incomplete items are never flushed down the stream." -/
def write (value : α) (incomplete : Bool) (y : Ypipe α) : Ypipe α :=
  let y := { y with items := y.items ++ [value] }
  if incomplete then y else { y with f := y.back }

/-- "Pop an incomplete item from the pipe." -/
def unwrite (y : Ypipe α) : Option (α × Ypipe α) :=
  if y.f = y.back then none
  else y.items.getLast?.map fun value => (value, { y with items := y.items.dropLast })

/-- `c.cas (cmp, val)` returns what was there. -/
def cas (cmp val : Option ℕ) (y : Ypipe α) : Option ℕ × Ypipe α :=
  (y.c, if y.c = cmp then { y with c := val } else y)

/-- `flush`, up to its compare-and-swap; false if that did not find `w`. -/
def tryFlush (y : Ypipe α) : Bool × Ypipe α :=
  if y.w = y.f then (true, y)
  else
    let (old, y') := y.cas (some y.w) (some y.f)
    if old = some y.w then (true, { y' with w := y'.f }) else (false, y')

/-- "This means that the reader is asleep.  Therefore we don't care about
thread-safeness." -/
def setFlushed (y : Ypipe α) : Ypipe α := { y with c := some y.f, w := y.f }

/-! ## The reader -/

/-- "Check whether item is available for reading." -/
def checkRead (y : Ypipe α) : Bool × Ypipe α :=
  if some y.front ≠ y.r ∧ y.r.isSome then (true, y)
  else
    let (old, y') := y.cas (some y.front) none
    (decide (some y.front ≠ old ∧ old.isSome), { y' with r := old })

/-- `ypipe_t::read` -/
def read (y : Ypipe α) : Option α × Ypipe α :=
  match y.checkRead with
  | (false, y) => (none, y)
  | (true, y) => (y.items[y.front]?, { y with front := y.front + 1 })

/-- `probe`; none where its assertion fails. -/
def probe (fn : α → Bool) (y : Ypipe α) : Option (Bool × Ypipe α) :=
  match y.checkRead with
  | (false, _) => none
  | (true, y) => y.items[y.front]?.map fun value => (fn value, y)

/-! ## What the two threads keep -/

theorem cas_items (y : Ypipe α) (cmp val : Option ℕ) : (y.cas cmp val).2.items = y.items := by
  rw [cas]
  split <;> rfl

theorem checkRead_items (y : Ypipe α) : y.checkRead.2.items = y.items := by
  rw [checkRead]
  split
  · rfl
  · exact y.cas_items _ _

/-- The reader leaves what was written. -/
theorem read_items (y : Ypipe α) : y.read.2.items = y.items := by
  have hcheck := y.checkRead_items
  rw [read]
  split <;> rename_i hy <;> rw [hy] at hcheck <;> exact hcheck

/-- The order of the pointers. -/
structure Ok (y : Ypipe α) : Prop where
  front : y.front ≤ y.w
  flushed : y.w ≤ y.f
  written : y.f ≤ y.back
  /-- "Compare-and-swap was unseccessful because 'c' is NULL." -/
  c : y.c = none ∨ y.c = some y.w
  asleep : y.c = none → y.front = y.w
  prefetched : ∀ p, y.r = some p → y.front ≤ p ∧ p ≤ y.w

theorem ok_start : (start : Ypipe α).Ok :=
  ⟨Nat.le_refl _, Nat.le_refl _, Nat.le_refl _, Or.inr rfl, fun _ => rfl, fun p hp => by
    cases hp
    exact ⟨Nat.le_refl _, Nat.le_refl _⟩⟩

variable {y y' : Ypipe α}

theorem Ok.write (h : y.Ok) (value : α) (incomplete : Bool) : (y.write value incomplete).Ok := by
  have hwritten := h.written
  have hlen : (y.items ++ [value]).length = y.back + 1 := by simp [back]
  cases incomplete with
  | true =>
    refine ⟨h.front, h.flushed, ?_, h.c, h.asleep, h.prefetched⟩
    show y.f ≤ (y.items ++ [value]).length
    omega
  | false =>
    refine ⟨h.front, ?_, Nat.le_refl _, h.c, h.asleep, h.prefetched⟩
    show y.w ≤ (y.items ++ [value]).length
    have hflushed := h.flushed
    omega

theorem unwrite_eq_some {value : α} (h : y.unwrite = some (value, y')) :
    y.f ≠ y.back ∧ y.items = y'.items ++ [value] ∧ y' = { y with items := y'.items } := by
  rw [unwrite] at h
  split at h
  · cases h
  · rename_i hne
    obtain ⟨v, hlast, heq⟩ := Option.map_eq_some_iff.1 h
    obtain ⟨rfl, rfl⟩ := Prod.mk.inj heq
    obtain ⟨items, hitems⟩ := List.getLast?_eq_some_iff.1 hlast
    refine ⟨hne, ?_, rfl⟩
    show y.items = y.items.dropLast ++ [v]
    rw [hitems, List.dropLast_concat]

/-- There is something to take back as long as it was not completed. -/
theorem Ok.unwrite_eq_none (h : y.Ok) : y.unwrite = none ↔ y.f = y.back := by
  rw [unwrite]
  split
  · simpa
  · rename_i hne
    rw [Option.map_eq_none_iff, List.getLast?_eq_none_iff]
    constructor
    · intro hnil
      have hwritten := h.written
      rw [back, hnil] at hwritten ⊢
      exact Nat.le_zero.1 hwritten
    · exact fun heq => absurd heq hne

theorem Ok.unwrite (h : y.Ok) {value : α} (hu : y.unwrite = some (value, y')) : y'.Ok := by
  obtain ⟨hne, hitems, heq⟩ := unwrite_eq_some hu
  rw [heq]
  refine ⟨h.front, h.flushed, ?_, h.c, h.asleep, h.prefetched⟩
  have hwritten := h.written
  rw [back, hitems, List.length_append, List.length_singleton] at hwritten hne
  show y.f ≤ y'.items.length
  omega

/-- If everything was flushed, `c` is there already. -/
theorem flushed_eq (hc : y.c = some y.w) (hwf : y.w = y.f) :
    ({ y with c := some y.f, w := y.f } : Ypipe α) = y := by
  obtain ⟨items, front, w, f, r, c⟩ := y
  simp only at hwf hc
  subst hwf hc
  rfl

/-- The reader is awake, and finds what was flushed. -/
theorem tryFlush_awake (hc : y.c = some y.w) :
    y.tryFlush = (true, { y with c := some y.f, w := y.f }) := by
  rw [tryFlush]
  split
  · rename_i hwf
    rw [flushed_eq hc hwf]
  · rw [cas, if_pos hc]
    simp only [hc, if_true]

/-- The reader is asleep, and has to be woken if there is something new. -/
theorem tryFlush_asleep (hc : y.c = none) : y.tryFlush = (decide (y.w = y.f), y) := by
  rw [tryFlush]
  split
  · rename_i hwf
    rw [decide_eq_true hwf]
  · rename_i hwf
    rw [cas, hc, if_neg (by simp), decide_eq_false hwf]
    simp

theorem Ok.flush (h : y.Ok) : ({ y with c := some y.f, w := y.f } : Ypipe α).Ok where
  front := Nat.le_trans h.front h.flushed
  flushed := Nat.le_refl _
  written := h.written
  c := Or.inr rfl
  asleep hc := by cases hc
  prefetched p hp := ⟨(h.prefetched p hp).1, Nat.le_trans (h.prefetched p hp).2 h.flushed⟩

theorem Ok.prefetch (h : y.Ok) {p : ℕ} (hf : y.front ≤ p) (hw : p ≤ y.w) :
    ({ y with r := some p } : Ypipe α).Ok :=
  ⟨h.front, h.flushed, h.written, h.c, h.asleep, fun q hq => by cases hq; exact ⟨hf, hw⟩⟩

/-- What was flushed and not read is found, if the reader is awake. -/
theorem Ok.checkRead_unread (h : y.Ok) (hc : y.c = some y.w) (hlt : y.front < y.w) :
    ∃ p, y.front < p ∧ p ≤ y.w ∧ y.checkRead = (true, { y with r := some p }) := by
  rw [checkRead]
  split
  · rename_i hr
    obtain ⟨p, hp⟩ := Option.isSome_iff_exists.1 hr.2
    obtain ⟨hle, hw⟩ := h.prefetched p hp
    have hne : y.front ≠ p := fun hc => hr.1 (by rw [hp, hc])
    exact ⟨p, by omega, hw, by rw [← hp]⟩
  · have hne : some y.front ≠ some y.w := fun hc => absurd (Option.some.inj hc) (by omega)
    refine ⟨y.w, hlt, Nat.le_refl _, ?_⟩
    rw [cas, if_neg (by rw [hc]; exact hne.symm)]
    simp [hc, Nat.ne_of_lt hlt]

/-- Else the reader goes to sleep, or is asleep. -/
theorem Ok.checkRead_empty (h : y.Ok) (heq : y.front = y.w) :
    y.checkRead = (false, { y with r := y.c, c := none }) := by
  rw [checkRead]
  split
  · rename_i hr
    obtain ⟨p, hp⟩ := Option.isSome_iff_exists.1 hr.2
    obtain ⟨hle, hw⟩ := h.prefetched p hp
    exact absurd (by rw [hp, Nat.le_antisymm hle (heq ▸ hw)]) hr.1
  · rcases h.c with hc | hc
    · rw [cas, hc, if_neg (by simp)]
      simp [hc]
    · rw [cas, hc, heq, if_pos rfl]
      simp

theorem Ok.sleep (h : y.Ok) (heq : y.front = y.w) :
    ({ y with r := y.c, c := none } : Ypipe α).Ok where
  front := h.front
  flushed := h.flushed
  written := h.written
  c := Or.inl rfl
  asleep _ := heq
  prefetched p hp := by
    rcases h.c with hc | hc
    · exact absurd (hc.symm.trans hp) (by simp)
    · obtain rfl := Option.some.inj (hc.symm.trans hp)
      exact ⟨h.front, Nat.le_refl _⟩

/-- The value at the front. -/
theorem Ok.exists_front (h : y.Ok) (hlt : y.front < y.w) : ∃ v, y.items[y.front]? = some v := by
  have hflushed := h.flushed
  have hwritten := h.written
  have hfront : y.front < y.items.length := by
    rw [back] at hwritten
    omega
  exact ⟨_, List.getElem?_eq_getElem hfront⟩

theorem Ok.take (h : y.Ok) {p : ℕ} (hlt : y.front < p) (hw : p ≤ y.w) (hc : y.c ≠ none) :
    ({ y with r := some p, front := y.front + 1 } : Ypipe α).Ok where
  front := by show y.front + 1 ≤ y.w; omega
  flushed := h.flushed
  written := h.written
  c := h.c
  asleep hnone := absurd hnone hc
  prefetched q hq := by cases hq; exact ⟨hlt, hw⟩

theorem Ok.read_unread (h : y.Ok) (hc : y.c = some y.w) (hlt : y.front < y.w) :
    ∃ p, y.front < p ∧ p ≤ y.w ∧
      y.read = (y.items[y.front]?, { y with r := some p, front := y.front + 1 }) := by
  obtain ⟨p, hp, hw, hcheck⟩ := h.checkRead_unread hc hlt
  exact ⟨p, hp, hw, by rw [read, hcheck]⟩

/-- The value at the front is looked at. -/
theorem Ok.probe_unread (h : y.Ok) (hc : y.c = some y.w) (hlt : y.front < y.w) (fn : α → Bool) :
    ∃ v p, y.items[y.front]? = some v ∧ y.front < p ∧ p ≤ y.w ∧
      y.probe fn = some (fn v, { y with r := some p }) := by
  obtain ⟨p, hp, hw, hcheck⟩ := h.checkRead_unread hc hlt
  obtain ⟨v, hv⟩ := h.exists_front hlt
  refine ⟨v, p, hv, hp, hw, ?_⟩
  rw [probe, hcheck]
  show (y.items[y.front]?).map _ = _
  rw [hv, Option.map_some]

theorem Ok.read_empty (h : y.Ok) (heq : y.front = y.w) :
    y.read = (none, { y with r := y.c, c := none }) := by
  rw [read, h.checkRead_empty heq]

end Ypipe

end Fsync.Zmq
