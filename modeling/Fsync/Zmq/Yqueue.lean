import Fsync.Base.Memory

/-!
# Chunks of elements

`yqueue_t` keeps what is in a queue in chunks of `N` elements that are linked both ways, so
that memory is allocated once in `N` pushes.  The chunk that was emptied last is kept as the
spare one.

The elements that were pushed so far are numbered; the queue is at an element at the front
and before one at the end.

* `Lies`: where the chunks are, and that nothing else is allocated;
* `Lies.push`, `Lies.unpush`, `Lies.pop`: no operation follows a pointer to memory that is
  not there, and the elements stay where they are;
* `Lies.destroy`: the destructor frees everything, once.
-/

namespace Fsync.Zmq

open Memory

/-- `chunk_t` is a node that holds `T values [N]`. -/
abbrev Values (α : Type) := ℕ → Option α

/-- A queue, and the memory it allocated. -/
structure Yqueue (α : Type) where
  memory : Heap (Values α)
  beginChunk : Option ℕ
  beginPos : ℕ
  backChunk : Option ℕ
  backPos : ℕ
  endChunk : Option ℕ
  endPos : ℕ
  spareChunk : Option ℕ

namespace Yqueue

variable {α : Type}

/-! ## Operations -/

/-- `malloc (sizeof (chunk_t))` -/
def malloc (a : Allocator (Values α)) (q : Yqueue α) : ℕ × Yqueue α :=
  let (p, chunk) := a.malloc q.memory
  (p, { q with memory := q.memory.insert p chunk })

/-- "Create the queue." -/
def start (a : Allocator (Values α)) : Yqueue α :=
  let (p, chunk) := a.malloc ∅
  ⟨Finmap.insert p chunk ∅, some p, 0, none, 0, some p, 0, none⟩

/-- `&front ()` -/
def frontPtr (q : Yqueue α) : Option (ℕ × ℕ) := q.beginChunk.map fun p => (p, q.beginPos)

/-- `&back ()` -/
def backPtr (q : Yqueue α) : Option (ℕ × ℕ) := q.backChunk.map fun p => (p, q.backPos)

/-- "Returns reference to the front element of the queue." -/
def front (q : Yqueue α) : Option α := do
  let chunk ← deref q.memory q.beginChunk
  chunk.data q.beginPos

/-- `yqueue_t::back` -/
def back (q : Yqueue α) : Option α := do
  let chunk ← deref q.memory q.backChunk
  chunk.data q.backPos

/-- `back () = value` -/
def setBack (value : α) (q : Yqueue α) : Option (Yqueue α) := do
  let m ← modify q.memory q.backChunk fun chunk =>
    { chunk with data := Function.update chunk.data q.backPos (some value) }
  return { q with memory := m }

/-- The new chunk becomes the one at the end. -/
def link (sc : Option ℕ) (q : Yqueue α) : Option (Yqueue α) := do
  let m ← setNext q.memory q.endChunk sc
  let m ← setPrev m sc q.endChunk
  let chunk ← deref m q.endChunk
  return { q with memory := m, endChunk := chunk.next, endPos := 0 }

variable (N : ℕ)

/-- "Adds an element to the back end of the queue." -/
def push (a : Allocator (Values α)) (q : Yqueue α) : Option (Yqueue α) :=
  let q := { q with backChunk := q.endChunk, backPos := q.endPos, endPos := q.endPos + 1 }
  if q.endPos ≠ N then some q
  else
    match q.spareChunk with
    | some sc => { q with spareChunk := none }.link (some sc)
    | none =>
      let (p, q) := q.malloc a
      q.link (some p)

/-- "First, move 'back' one position backwards." -/
def unpushBack (q : Yqueue α) : Option (Yqueue α) :=
  if q.backPos ≠ 0 then some { q with backPos := q.backPos - 1 }
  else do
    let chunk ← deref q.memory q.backChunk
    return { q with backPos := N - 1, backChunk := chunk.prev }

/-- "Now, move 'end' position backwards." -/
def unpushEnd (q : Yqueue α) : Option (Yqueue α) :=
  if q.endPos ≠ 0 then some { q with endPos := q.endPos - 1 }
  else do
    let chunk ← deref q.memory q.endChunk
    let last ← deref q.memory chunk.prev
    let m ← free q.memory last.next
    let m ← setNext m chunk.prev none
    return { q with memory := m, endChunk := chunk.prev, endPos := N - 1 }

/-- "Removes element from the back end of the queue." -/
def unpush (q : Yqueue α) : Option (Yqueue α) := (q.unpushBack N).bind (unpushEnd N)

/-- "Removes an element from the front end of the queue." -/
def pop (q : Yqueue α) : Option (Yqueue α) :=
  if q.beginPos + 1 ≠ N then some { q with beginPos := q.beginPos + 1 }
  else do
    let chunk ← deref q.memory q.beginChunk
    let m ← setPrev q.memory chunk.next none
    -- "we'll get rid of the spare and use 'o' as the spare"
    let m ← free m q.spareChunk
    return { q with
      memory := m, beginChunk := chunk.next, beginPos := 0, spareChunk := q.beginChunk }

/-- The loop of the destructor, at most so many times around. -/
def destroyChunks : ℕ → Yqueue α → Option (Yqueue α)
  | 0, _ => none
  | fuel + 1, q =>
    if q.beginChunk = q.endChunk then do
      let m ← free q.memory q.beginChunk
      return { q with memory := m }
    else do
      let chunk ← deref q.memory q.beginChunk
      let m ← free q.memory q.beginChunk
      destroyChunks fuel { q with memory := m, beginChunk := chunk.next }

/-- "Destroy the queue."  What is left of the memory. -/
def destroy (fuel : ℕ) (q : Yqueue α) : Option (Heap (Values α)) := do
  let q ← q.destroyChunks fuel
  free q.memory q.spareChunk

/-! ## Numbers of elements -/

variable {N}

theorem succ_of_eq {n : ℕ} (h : n % N + 1 = N) :
    (n + 1) / N = n / N + 1 ∧ (n + 1) % N = 0 := by
  have hdiv := Nat.div_add_mod n N
  refine (Nat.div_mod_unique (by omega)).2 ⟨?_, by omega⟩
  rw [Nat.mul_succ]
  omega

theorem succ_of_ne {n : ℕ} (hN : 0 < N) (h : n % N + 1 ≠ N) :
    (n + 1) / N = n / N ∧ (n + 1) % N = n % N + 1 := by
  have hdiv := Nat.div_add_mod n N
  have hlt := Nat.mod_lt n hN
  exact (Nat.div_mod_unique hN).2 ⟨by omega, by omega⟩

/-! ## Where the chunks are -/

/-- The chunks of a queue whose front is at element `front` and that ends before element
`n`.  The chunk with element `p` has the number `p / N`. -/
structure Lies (N : ℕ) (q : Yqueue α) (addr : ℕ → ℕ) (front n : ℕ) : Prop where
  le : front ≤ n
  chain : Chain q.memory addr (front / N) (n / N)
  beginChunk : q.beginChunk = some (addr (front / N))
  beginPos : q.beginPos = front % N
  backChunk : 0 < n → q.backChunk = some (addr ((n - 1) / N))
  backPos : 0 < n → q.backPos = (n - 1) % N
  endChunk : q.endChunk = some (addr (n / N))
  endPos : q.endPos = n % N
  spare : ∀ a, q.spareChunk = some a → a ∈ q.memory ∧ ¬ OnChain addr (front / N) (n / N) a
  /-- Nothing else is allocated. -/
  only : ∀ a ∈ q.memory, OnChain addr (front / N) (n / N) a ∨ q.spareChunk = some a

/-- What is at the place of an element. -/
def elem (N : ℕ) (q : Yqueue α) (addr : ℕ → ℕ) (p : ℕ) : Option α :=
  ((q.memory.lookup (addr (p / N))).map Node.data).bind fun values => values (p % N)

variable {q q' : Yqueue α} {addr : ℕ → ℕ} {front n : ℕ}

theorem lies_start (N : ℕ) (a : Allocator (Values α)) :
    (start a).Lies N (fun _ => (a.malloc ∅).1) 0 0 := by
  have hmem : (a.malloc ∅).1 ∈ (start a).memory := Finmap.mem_insert.2 (Or.inl rfl)
  refine ⟨Nat.le_refl 0, ?_, rfl, (Nat.zero_mod N).symm, fun h => absurd h (Nat.lt_irrefl 0),
    fun h => absurd h (Nat.lt_irrefl 0), rfl, (Nat.zero_mod N).symm, fun b hb => ?_,
    fun b hb => ?_⟩
  · rw [Nat.zero_div]
    exact chain_single hmem
  · cases hb
  · rcases Finmap.mem_insert.1 hb with rfl | hb
    · exact Or.inl ⟨0 / N, Nat.le_refl _, Nat.le_refl _, rfl⟩
    · exact absurd hb Finmap.notMem_empty

/-! ## Pushing -/

theorem link_eq {lo hi b : ℕ} (h : Chain q.memory addr lo hi) (hend : q.endChunk = some (addr hi))
    (hb : b ∈ q.memory) (hoff : ¬ OnChain addr lo hi b) :
    ∃ m, q.link (some b) = some { q with memory := m, endChunk := some b, endPos := 0 } ∧
      Chain m (Function.update addr (hi + 1) b) lo (hi + 1) ∧ SameData q.memory m := by
  obtain ⟨m₁, m₂, h₁, h₂, hnext, hchain, hdata⟩ := h.link hb hoff
  obtain ⟨chunk, hchunk, hb'⟩ := Option.bind_eq_some_iff.1 hnext
  refine ⟨m₂, ?_, hchain, hdata⟩
  rw [link, hend]
  simp only [h₁, h₂, hchunk, hb', Option.bind_eq_bind, Option.bind_some, Option.pure_def]

/-- The end moves to a chunk that is new in the chain. -/
theorem Lies.crossing (h : q.Lies N addr front n) (hlast : n % N + 1 = N)
    {m : Heap (Values α)} {b : ℕ} (hchain : Chain m addr (front / N) (n / N)) (hb : b ∈ m)
    (hoff : ¬ OnChain addr (front / N) (n / N) b)
    (honly : ∀ a ∈ m, OnChain addr (front / N) (n / N) a ∨ a = b)
    {k : ℕ} : ∃ q', ({ q with
      memory := m, backChunk := q.endChunk, backPos := q.endPos, endPos := k
      spareChunk := none } : Yqueue α).link (some b) = some q' ∧
      q'.Lies N (Function.update addr (n / N + 1) b) front (n + 1) ∧ SameData m q'.memory := by
  obtain ⟨hdiv, hmod⟩ := succ_of_eq hlast
  obtain ⟨m', hlink, hchain', hdata⟩ := link_eq (q := ({ q with
    memory := m, backChunk := q.endChunk, backPos := q.endPos, endPos := k
    spareChunk := none } : Yqueue α)) hchain h.endChunk hb hoff
  have hfront : front / N ≤ n / N := h.chain.le
  have hsame : ∀ k ≤ n / N, Function.update addr (n / N + 1) b k = addr k :=
    fun k hk => Function.update_of_ne (by omega) _ _
  refine ⟨_, hlink, ⟨Nat.le_succ_of_le h.le, ?_, ?_, h.beginPos, fun _ => ?_, fun _ => ?_, ?_, ?_,
    fun a ha => ?_, fun a ha => ?_⟩, hdata⟩
  · rw [hdiv]
    exact hchain'
  · rw [hsame _ hfront]
    exact h.beginChunk
  · rw [Nat.add_sub_cancel, hsame _ (Nat.le_refl _)]
    exact h.endChunk
  · rw [Nat.add_sub_cancel]
    exact h.endPos
  · rw [hdiv, Function.update_self]
  · exact hmod.symm
  · cases ha
  · left
    rw [hdiv]
    rcases honly a ((hdata.mem_iff a).1 ha) with ⟨k, hlo, hhi, rfl⟩ | rfl
    · exact ⟨k, hlo, Nat.le_succ_of_le hhi, hsame k hhi⟩
    · exact ⟨n / N + 1, by omega, Nat.le_refl _, Function.update_self _ _ _⟩

/-- `push` leaves the chunks in use where they are, with what is in them. -/
def Pushes (N : ℕ) (addr : ℕ → ℕ) (front n : ℕ) (a : Allocator (Values α)) (q : Yqueue α) : Prop :=
  ∃ q' addr', q.push N a = some q' ∧ q'.Lies N addr' front (n + 1) ∧
    (∀ k ≤ n / N, addr' k = addr k) ∧
    ∀ p, front ≤ p → p ≤ n → q'.elem N addr' p = q.elem N addr p

theorem update_succ {addr : ℕ → ℕ} {l b k : ℕ} (hk : k ≤ l) :
    Function.update addr (l + 1) b k = addr k := Function.update_of_ne (by omega) _ _

/-- The end stays in its chunk. -/
theorem Lies.push_within (hN : 0 < N) (h : q.Lies N addr front n) (hlast : n % N + 1 ≠ N)
    (a : Allocator (Values α)) : q.Pushes N addr front n a := by
  obtain ⟨hdiv, hmod⟩ := succ_of_ne hN hlast
  have hend : q.endPos + 1 ≠ N := by rwa [h.endPos]
  refine ⟨{ q with backChunk := q.endChunk, backPos := q.endPos, endPos := q.endPos + 1 }, addr,
    ?_, ⟨Nat.le_succ_of_le h.le, ?_, h.beginChunk, h.beginPos, fun _ => ?_,
    fun _ => ?_, ?_, ?_, ?_, ?_⟩, fun _ _ => rfl, fun _ _ _ => rfl⟩
  · exact if_pos hend
  · rw [hdiv]
    exact h.chain
  · rw [Nat.add_sub_cancel]
    exact h.endChunk
  · rw [Nat.add_sub_cancel]
    exact h.endPos
  · rw [hdiv]
    exact h.endChunk
  · rw [hmod, h.endPos]
  · rw [hdiv]
    exact h.spare
  · rw [hdiv]
    exact h.only

/-- The next chunk is the one that `pop` left. -/
theorem Lies.push_spare (h : q.Lies N addr front n) (hlast : n % N + 1 = N) {sc : ℕ}
    (hspare : q.spareChunk = some sc) (a : Allocator (Values α)) : q.Pushes N addr front n a := by
  have hend : ¬ (q.endPos + 1 ≠ N) := by
    rw [h.endPos]
    exact not_not.2 hlast
  obtain ⟨hmem, hoff⟩ := h.spare sc hspare
  have honly : ∀ a ∈ q.memory, OnChain addr (front / N) (n / N) a ∨ a = sc := by
    intro a ha
    refine (h.only a ha).imp_right fun heq => ?_
    rw [hspare] at heq
    exact (Option.some.inj heq).symm
  obtain ⟨q', hlink, hlies, hdata⟩ :=
    h.crossing hlast (k := q.endPos + 1) h.chain hmem hoff honly
  refine ⟨q', _, ?_, hlies, fun k hk => update_succ hk, fun p _ hp => ?_⟩
  · rw [Yqueue.push, if_neg hend, hspare]
    exact hlink
  · rw [elem, update_succ (Nat.div_le_div_right hp), hdata, elem]

/-- The next chunk is a new one. -/
theorem Lies.push_new (h : q.Lies N addr front n) (hlast : n % N + 1 = N)
    (hspare : q.spareChunk = none) (a : Allocator (Values α)) : q.Pushes N addr front n a := by
  have hend : ¬ (q.endPos + 1 ≠ N) := by
    rw [h.endPos]
    exact not_not.2 hlast
  rcases hmalloc : a.malloc q.memory with ⟨b, chunk⟩
  have hfresh : b ∉ q.memory := by
    have hf := a.fresh q.memory
    rwa [hmalloc] at hf
  have hoff : ¬ OnChain addr (front / N) (n / N) b := by
    rintro ⟨k, hlo, hhi, rfl⟩
    exact hfresh (h.chain.mem hlo hhi)
  have honly : ∀ a ∈ q.memory.insert b chunk, OnChain addr (front / N) (n / N) a ∨ a = b := by
    intro a ha
    rcases Finmap.mem_insert.1 ha with rfl | ha
    · exact Or.inr rfl
    · refine (h.only a ha).imp_right fun heq => ?_
      rw [hspare] at heq
      cases heq
  obtain ⟨q', hlink, hlies, hdata⟩ := h.crossing hlast (k := q.endPos + 1)
    (h.chain.insert_off hoff chunk) (Finmap.mem_insert.2 (Or.inl rfl)) hoff honly
  refine ⟨q', _, ?_, hlies, fun k hk => update_succ hk, fun p hfront hp => ?_⟩
  · rw [Yqueue.push, if_neg hend, hspare]
    simp only [malloc, hmalloc]
    exact hlink
  · have hne : addr (p / N) ≠ b := fun heq =>
      hoff ⟨p / N, Nat.div_le_div_right hfront, Nat.div_le_div_right hp, heq⟩
    rw [elem, update_succ (Nat.div_le_div_right hp), hdata, Finmap.lookup_insert_of_ne _ hne, elem]

/-- **A push** leaves every element where it is. -/
theorem Lies.push (hN : 0 < N) (h : q.Lies N addr front n) (a : Allocator (Values α)) :
    q.Pushes N addr front n a := by
  by_cases hlast : n % N + 1 = N
  · cases hspare : q.spareChunk with
    | some sc => exact h.push_spare hlast hspare a
    | none => exact h.push_new hlast hspare a
  · exact h.push_within hN hlast a

/-! ## Taking a push back -/

/-- `back` moves to the element before it. -/
theorem Lies.unpushBack (hN : 0 < N) {l : ℕ} (h : q.Lies N addr front (l + 2)) (hle : front ≤ l) :
    q.unpushBack N = some { q with backChunk := some (addr (l / N)), backPos := l % N } := by
  have hpos : q.backPos = (l + 1) % N := h.backPos (Nat.succ_pos _)
  have hchunk : q.backChunk = some (addr ((l + 1) / N)) := h.backChunk (Nat.succ_pos _)
  rw [Yqueue.unpushBack, hpos]
  by_cases hlast : l % N + 1 = N
  · obtain ⟨hdiv, hmod⟩ := succ_of_eq hlast
    have hfront : front / N ≤ l / N := Nat.div_le_div_right hle
    have hend : (l + 1) / N ≤ (l + 2) / N := Nat.div_le_div_right (Nat.le_succ _)
    obtain ⟨chunk, hlook, -, hprev⟩ := h.chain.node (l / N + 1) (by omega) (by omega)
    rw [if_neg (by rw [hmod]; simp), hchunk, hdiv, deref_some, hlook]
    simp only [Option.bind_eq_bind, Option.bind_some, Option.pure_def]
    rw [hprev (by omega), Nat.add_sub_cancel, show N - 1 = l % N by omega]
  · obtain ⟨hdiv, hmod⟩ := succ_of_ne hN hlast
    rw [if_pos (by rw [hmod]; simp), hchunk, hdiv, hmod, Nat.add_sub_cancel]

/-- **A push is taken back**, and the other elements stay where they are. -/
theorem Lies.unpush (hN : 0 < N) {l : ℕ} (h : q.Lies N addr front (l + 2)) (hle : front ≤ l) :
    ∃ q', q.unpush N = some q' ∧ q'.Lies N addr front (l + 1) ∧
      ∀ p, front ≤ p → p ≤ l + 1 → q'.elem N addr p = q.elem N addr p := by
  have hpos : q.endPos = (l + 1 + 1) % N := h.endPos
  rw [Yqueue.unpush, h.unpushBack hN hle, Option.bind_some, unpushEnd]
  by_cases hlast : (l + 1) % N + 1 = N
  · obtain ⟨hdiv, hmod⟩ := succ_of_eq hlast
    have hfront : front / N ≤ (l + 1) / N := Nat.div_le_div_right (by omega)
    have hchain := h.chain
    rw [show (l + 2) / N = (l + 1) / N + 1 from hdiv] at hchain
    obtain ⟨e, n, m', he, hprev, hn, hnext, hfree, hset, hchain', hdata⟩ := hchain.unlink hfront
    have hgone : ∀ a, a ∈ m' ↔ a ≠ addr ((l + 1) / N + 1) ∧ a ∈ q.memory := fun a =>
      (hdata.mem_iff a).trans Finmap.mem_erase
    refine ⟨{ q with
      memory := m', backChunk := some (addr (l / N)), backPos := l % N
      endChunk := e.prev, endPos := N - 1 }, ?_, ⟨by omega, hchain', h.beginChunk, h.beginPos,
        fun _ => rfl, fun _ => rfl, hprev, ?_, fun a ha => ?_, fun a ha => ?_⟩, fun p hp hp' => ?_⟩
    · rw [if_neg (by rw [hpos, hmod]; simp)]
      simp only [h.endChunk, show (l + 2) / N = (l + 1) / N + 1 from hdiv, he, hn, hfree, hset,
        Option.bind_eq_bind, Option.bind_some, Option.pure_def]
    · show N - 1 = (l + 1) % N
      omega
    · obtain ⟨hmem, hoff⟩ := h.spare a ha
      rw [show (l + 2) / N = (l + 1) / N + 1 from hdiv] at hoff
      refine ⟨(hgone a).2 ⟨?_, hmem⟩, ?_⟩
      · rintro rfl
        exact hoff ⟨_, by omega, Nat.le_refl _, rfl⟩
      · rintro ⟨k, hlo, hhi, rfl⟩
        exact hoff ⟨k, hlo, by omega, rfl⟩
    · obtain ⟨hne, hmem⟩ := (hgone a).1 ha
      refine (h.only a hmem).imp_left ?_
      rw [show (l + 2) / N = (l + 1) / N + 1 from hdiv]
      rintro ⟨k, hlo, hhi, rfl⟩
      refine ⟨k, hlo, ?_, rfl⟩
      rcases Nat.le_succ_iff.1 hhi with hle | rfl
      · exact hle
      · exact absurd rfl hne
    · have hne : addr (p / N) ≠ addr ((l + 1) / N + 1) := fun heq => by
        have hlow : p / N ≤ (l + 1) / N := Nat.div_le_div_right hp'
        exact hchain.off_init ⟨p / N, Nat.div_le_div_right hp, hlow, heq⟩
      rw [elem, hdata, Finmap.lookup_erase_ne hne, elem]
  · obtain ⟨hdiv, hmod⟩ := succ_of_ne hN hlast
    have hdiv' : (l + 2) / N = (l + 1) / N := hdiv
    refine ⟨_, if_pos (by rw [hpos, hmod]; simp), ⟨by omega, hdiv' ▸ h.chain, h.beginChunk,
      h.beginPos, fun _ => rfl, fun _ => rfl, ?_, ?_, hdiv' ▸ h.spare, hdiv' ▸ h.only⟩,
      fun _ _ _ => rfl⟩
    · rw [← hdiv']
      exact h.endChunk
    · show q.endPos - 1 = (l + 1) % N
      rw [hpos, hmod, Nat.add_sub_cancel]

/-! ## Popping -/

/-- **A pop** leaves the elements behind the front where they are. -/
theorem Lies.pop (hN : 0 < N) (h : q.Lies N addr front n) (hlt : front + 1 < n) :
    ∃ q', q.pop N = some q' ∧ q'.Lies N addr (front + 1) n ∧
      ∀ p, front + 1 ≤ p → p ≤ n → q'.elem N addr p = q.elem N addr p := by
  rw [Yqueue.pop, h.beginPos]
  by_cases hlast : front % N + 1 = N
  · obtain ⟨hdiv, hmod⟩ := succ_of_eq hlast
    have hend : (front + 1) / N ≤ n / N := Nat.div_le_div_right (Nat.le_of_lt hlt)
    have hlow : front / N < n / N := by omega
    obtain ⟨chunk, m₁, hchunk, hnext, hset, hchain, hdata⟩ := h.chain.drop_first hlow
    have hfirst : addr (front / N) ∈ q.memory := h.chain.mem (Nat.le_refl _) h.chain.le
    have hshort : ∀ {a}, ¬ OnChain addr (front / N) (n / N) a →
        ¬ OnChain addr (front / N + 1) (n / N) a := by
      rintro a hoff ⟨k, hlo, hhi, rfl⟩
      exact hoff ⟨k, by omega, hhi, rfl⟩
    -- the old spare chunk is freed
    obtain ⟨m₂, hfree, hgone, hlook⟩ : ∃ m₂, free m₁ q.spareChunk = some m₂ ∧
        (∀ a, a ∈ m₂ ↔ a ∈ q.memory ∧ q.spareChunk ≠ some a) ∧
        ∀ a, OnChain addr (front / N) (n / N) a → m₂.lookup a = m₁.lookup a := by
      cases hspare : q.spareChunk with
      | none => exact ⟨m₁, rfl, fun a => by simp [hdata.mem_iff], fun _ _ => rfl⟩
      | some s =>
        obtain ⟨hmem, hoff⟩ := h.spare s hspare
        refine ⟨_, free_eq ((hdata.mem_iff s).2 hmem), fun a => ?_, fun a ha => ?_⟩
        · rw [Finmap.mem_erase, hdata.mem_iff, and_comm, ne_eq, ne_eq, Option.some.injEq, eq_comm]
        · exact Finmap.lookup_erase_ne fun heq => hoff (heq ▸ ha)
    refine ⟨{ q with
      memory := m₂, beginChunk := chunk.next, beginPos := 0, spareChunk := q.beginChunk }, ?_,
      ⟨Nat.le_of_lt hlt, ?_, ?_, hmod.symm, h.backChunk, h.backPos, h.endChunk, h.endPos,
        fun a ha => ?_, fun a ha => ?_⟩, fun p hp hp' => ?_⟩
    · rw [if_neg (not_not.2 hlast)]
      simp only [h.beginChunk, hchunk, hset, hfree, Option.bind_eq_bind, Option.bind_some,
        Option.pure_def]
    · rw [hdiv]
      exact hchain.frame fun k hlo hhi => hlook _ ⟨k, by omega, hhi, rfl⟩
    · rw [hdiv]
      exact hnext
    · obtain rfl : addr (front / N) = a := Option.some.inj (h.beginChunk.symm.trans ha)
      rw [hdiv]
      refine ⟨(hgone _).2 ⟨hfirst, fun hs => ?_⟩, h.chain.off_tail⟩
      exact (h.spare _ hs).2 ⟨_, Nat.le_refl _, h.chain.le, rfl⟩
    · obtain ⟨hmem, hne⟩ := (hgone a).1 ha
      rw [hdiv]
      rcases (h.only a hmem).resolve_right hne with ⟨k, hlo, hhi, rfl⟩
      rcases Nat.eq_or_lt_of_le hlo with rfl | hlo
      · exact Or.inr h.beginChunk
      · exact Or.inl ⟨k, hlo, hhi, rfl⟩
    · have hlo : front / N ≤ p / N := Nat.div_le_div_right (by omega)
      rw [elem, hlook _ ⟨p / N, hlo, Nat.div_le_div_right hp', rfl⟩, hdata, elem]
  · obtain ⟨hdiv, hmod⟩ := succ_of_ne hN hlast
    refine ⟨_, if_pos hlast, ⟨Nat.le_of_lt hlt, ?_, ?_, hmod.symm, h.backChunk, h.backPos,
      h.endChunk, h.endPos, ?_, ?_⟩, fun _ _ _ => rfl⟩ <;> rw [hdiv]
    · exact h.chain
    · exact h.beginChunk
    · exact h.spare
    · exact h.only

/-! ## Elements -/

/-- `&` of an element -/
def ptr (N : ℕ) (addr : ℕ → ℕ) (p : ℕ) : ℕ × ℕ := (addr (p / N), p % N)

theorem Lies.frontPtr_eq (h : q.Lies N addr front n) : q.frontPtr = some (ptr N addr front) := by
  rw [Yqueue.frontPtr, h.beginChunk, Option.map_some, h.beginPos, ptr]

theorem Lies.backPtr_eq (h : q.Lies N addr front (n + 1)) : q.backPtr = some (ptr N addr n) := by
  rw [Yqueue.backPtr, h.backChunk (Nat.succ_pos n), Option.map_some, h.backPos (Nat.succ_pos n),
    ptr]
  rfl

/-- Elements are told apart by where they are. -/
theorem Lies.ptr_inj (h : q.Lies N addr front n) {p p' : ℕ} (hp : front ≤ p) (hpn : p ≤ n)
    (hp' : front ≤ p') (hpn' : p' ≤ n) : ptr N addr p = ptr N addr p' ↔ p = p' := by
  constructor
  · intro heq
    obtain ⟨hchunk, hpos⟩ := Prod.mk.inj heq
    have hdiv := h.chain.injective _ _ (Nat.div_le_div_right hp) (Nat.div_le_div_right hpn)
      (Nat.div_le_div_right hp') (Nat.div_le_div_right hpn') hchunk
    rw [← Nat.div_add_mod p N, ← Nat.div_add_mod p' N, hdiv, hpos]
  · rintro rfl
    rfl

theorem elem_eq {p : ℕ} {chunk : Node (Values α)}
    (h : q.memory.lookup (addr (p / N)) = some chunk) :
    q.elem N addr p = chunk.data (p % N) := by
  rw [elem, h, Option.map_some, Option.bind_some]

theorem Lies.front_eq (h : q.Lies N addr front n) : q.front = q.elem N addr front := by
  obtain ⟨chunk, hchunk, -⟩ := h.chain.node _ (Nat.le_refl _) h.chain.le
  rw [Yqueue.front, h.beginChunk, deref_some, hchunk, h.beginPos, elem_eq hchunk]
  rfl

theorem Lies.back_eq (h : q.Lies N addr front (n + 1)) (hle : front ≤ n) :
    q.back = q.elem N addr n := by
  obtain ⟨chunk, hchunk, -⟩ := h.chain.node (n / N) (Nat.div_le_div_right hle)
    (Nat.div_le_div_right (Nat.le_succ n))
  rw [Yqueue.back, h.backChunk (Nat.succ_pos n), h.backPos (Nat.succ_pos n), Nat.add_sub_cancel,
    deref_some, hchunk, elem_eq hchunk]
  rfl

/-- The element at the back gets a value, and no other one does. -/
theorem Lies.setBack (h : q.Lies N addr front (n + 1)) (hle : front ≤ n) (value : α) :
    ∃ q', q.setBack value = some q' ∧ q'.Lies N addr front (n + 1) ∧
      q'.elem N addr n = some value ∧
      ∀ p, front ≤ p → p < n → q'.elem N addr p = q.elem N addr p := by
  have hlo : front / N ≤ n / N := Nat.div_le_div_right hle
  have hhi : n / N ≤ (n + 1) / N := Nat.div_le_div_right (Nat.le_succ n)
  obtain ⟨chunk, hchunk, -⟩ := h.chain.node (n / N) hlo hhi
  let written : Node (Values α) :=
    { chunk with data := Function.update chunk.data (n % N) (some value) }
  have hmem : ∀ a, a ∈ q.memory.insert (addr (n / N)) written ↔ a ∈ q.memory := by
    intro a
    rw [Finmap.mem_insert, or_iff_right_of_imp]
    rintro rfl
    exact Finmap.mem_of_lookup_eq_some hchunk
  refine ⟨{ q with memory := q.memory.insert (addr (n / N)) written }, ?_,
    ⟨h.le, h.chain.insert_node hlo hhi hchunk written (fun _ => rfl) (fun _ => rfl), h.beginChunk,
      h.beginPos, h.backChunk, h.backPos, h.endChunk, h.endPos,
      fun a ha => ⟨(hmem a).2 (h.spare a ha).1, (h.spare a ha).2⟩,
      fun a ha => h.only a ((hmem a).1 ha)⟩, ?_, fun p hp hlt => ?_⟩
  · rw [Yqueue.setBack, h.backChunk (Nat.succ_pos n), h.backPos (Nat.succ_pos n),
      Nat.add_sub_cancel, modify_eq hchunk]
    rfl
  · rw [elem_eq (Finmap.lookup_insert _)]
    exact Function.update_self _ _ _
  · by_cases hsame : addr (p / N) = addr (n / N)
    · have hdiv := h.chain.injective _ _ (Nat.div_le_div_right hp) (Nat.div_le_div_right (by omega))
        hlo hhi hsame
      have hmod : p % N ≠ n % N := fun hmod => by
        have heq : p = n := by rw [← Nat.div_add_mod p N, ← Nat.div_add_mod n N, hdiv, hmod]
        omega
      rw [← hdiv] at hchunk
      rw [elem_eq hchunk, elem, hdiv, Finmap.lookup_insert, Option.map_some, Option.bind_some]
      exact Function.update_of_ne hmod _ _
    · rw [elem, Finmap.lookup_insert_of_ne _ hsame, elem]

/-! ## Destroying -/

/-- The loop frees the chunks, and nothing else. -/
theorem destroyChunks_eq {lo k : ℕ} (h : Chain q.memory addr lo (lo + k))
    (hbegin : q.beginChunk = some (addr lo)) (hend : q.endChunk = some (addr (lo + k))) :
    ∃ q', q.destroyChunks (k + 1) = some q' ∧ q'.spareChunk = q.spareChunk ∧
      ∀ a, a ∈ q'.memory ↔ a ∈ q.memory ∧ ¬ OnChain addr lo (lo + k) a := by
  have hfirst := h.mem (Nat.le_refl lo) h.le
  induction k generalizing q lo with
  | zero =>
    refine ⟨{ q with memory := q.memory.erase (addr lo) }, ?_, rfl, fun a => ?_⟩
    · rw [destroyChunks, if_pos (hbegin.trans hend.symm), hbegin, free_eq hfirst]
      rfl
    · have hon : OnChain addr lo (lo + 0) a ↔ a = addr lo := by
        constructor
        · rintro ⟨k, hlo, hhi, rfl⟩
          rw [show k = lo by omega]
        · rintro rfl
          exact ⟨lo, Nat.le_refl lo, Nat.le_refl lo, rfl⟩
      rw [hon, and_comm]
      exact Finmap.mem_erase
  | succ k ih =>
    have hlt : lo < lo + (k + 1) := by omega
    have hne : q.beginChunk ≠ q.endChunk := by
      rw [hbegin, hend]
      intro heq
      have hidx := h.injective lo (lo + (k + 1)) (Nat.le_refl lo) h.le h.le (Nat.le_refl _)
        (Option.some.inj heq)
      omega
    obtain ⟨n, hn, hnext, -⟩ := h.node lo (Nat.le_refl lo) h.le
    have hchain : Chain (q.memory.erase (addr lo)) addr (lo + 1) (lo + 1 + k) := by
      rw [Nat.add_right_comm, Nat.add_assoc]
      exact (h.tail hlt).erase_off h.off_tail
    obtain ⟨q', hloop, hspare, hmem⟩ := @ih
      { q with memory := q.memory.erase (addr lo), beginChunk := n.next } (lo + 1) hchain
      (hnext hlt) (by rw [Nat.add_right_comm, Nat.add_assoc]; exact hend)
      (hchain.mem (Nat.le_refl _) hchain.le)
    refine ⟨q', ?_, hspare, fun a => ?_⟩
    · rw [destroyChunks, if_neg hne, hbegin, deref_some, hn, free_eq hfirst]
      exact hloop
    · rw [hmem, Finmap.mem_erase, show lo + 1 + k = lo + (k + 1) by omega]
      constructor
      · rintro ⟨⟨hlo, ha⟩, hoff⟩
        refine ⟨ha, ?_⟩
        rintro ⟨j, hj, hj', rfl⟩
        rcases Nat.eq_or_lt_of_le hj with rfl | hj
        · exact hlo rfl
        · exact hoff ⟨j, hj, hj', rfl⟩
      · rintro ⟨ha, hoff⟩
        refine ⟨⟨?_, ha⟩, ?_⟩
        · rintro rfl
          exact hoff ⟨lo, Nat.le_refl lo, h.le, rfl⟩
        · rintro ⟨j, hj, hj', rfl⟩
          exact hoff ⟨j, by omega, hj', rfl⟩

/-- **The destructor** frees everything that was allocated. -/
theorem Lies.destroy (h : q.Lies N addr front n) :
    ∃ fuel, q.destroy fuel = some ∅ := by
  obtain ⟨k, hk⟩ := Nat.exists_eq_add_of_le h.chain.le
  have hchain := h.chain
  rw [hk] at hchain
  obtain ⟨q', hloop, hspare, hmem⟩ := destroyChunks_eq hchain h.beginChunk (hk ▸ h.endChunk)
  refine ⟨k + 1, ?_⟩
  rw [Yqueue.destroy, hloop]
  show free q'.memory q'.spareChunk = _
  have hleft : ∀ a, a ∈ q'.memory ↔ q.spareChunk = some a := by
    intro a
    rw [hmem, ← hk]
    constructor
    · rintro ⟨ha, hoff⟩
      exact (h.only a ha).resolve_left hoff
    · exact fun ha => h.spare a ha
  rw [hspare]
  cases hs : q.spareChunk with
  | none =>
    refine congrArg some (eq_empty fun a ha => ?_)
    exact absurd ((hleft a).1 ha) (by simp [hs])
  | some s =>
    refine (free_eq ((hleft s).2 hs)).trans (congrArg some (eq_empty fun a ha => ?_))
    obtain ⟨hne, ha⟩ := Finmap.mem_erase.1 ha
    exact hne (Option.some.inj (((hleft a).1 ha).symm.trans hs))

/-- What is allocated: the chunks with what is in the queue, and two more. -/
theorem Lies.card_le (hN : 0 < N) (h : q.Lies N addr front n) :
    q.memory.keys.card ≤ (n - front) / N + 3 := by
  have hsub : q.memory.keys ⊆
      (Finset.Icc (front / N) (n / N)).image addr ∪ q.spareChunk.toFinset := by
    intro a ha
    rw [Finset.mem_union]
    rcases h.only a (Finmap.mem_keys.1 ha) with ⟨k, hlo, hhi, rfl⟩ | hs
    · exact Or.inl (Finset.mem_image_of_mem addr (Finset.mem_Icc.2 ⟨hlo, hhi⟩))
    · exact Or.inr (Option.mem_toFinset.2 hs)
  have hcard := Finset.card_le_card hsub
  have hunion := Finset.card_union_le ((Finset.Icc (front / N) (n / N)).image addr)
    q.spareChunk.toFinset
  have himage := Finset.card_image_le (s := Finset.Icc (front / N) (n / N)) (f := addr)
  rw [Nat.card_Icc] at himage
  have hspare : q.spareChunk.toFinset.card ≤ 1 := by cases q.spareChunk <;> simp
  have hdiv : n / N ≤ front / N + (n - front) / N + 1 := by
    have hle := h.le
    have hsum := Nat.add_div hN (a := front) (b := n - front)
    rw [Nat.add_sub_cancel' hle] at hsum
    rw [hsum]
    split <;> omega
  have hle := h.chain.le
  omega

end Yqueue

end Fsync.Zmq
