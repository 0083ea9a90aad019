import Mathlib

/-!
# Doubly linked lists in memory

Memory holds nodes at addresses.  A pointer is an address, or none: `NULL`.  What follows
a pointer that is `NULL`, or to memory that is not allocated, gives none, and so does
freeing memory that is not allocated.

A chain is a list of nodes that are linked both ways.  The nodes are numbered, so that a
node keeps its number when nodes are added at the end and removed at either end.

* `Chain.link`: a node that is allocated is put at the end;
* `Chain.unlink`: the last node is freed;
* `Chain.drop_first`: the first node is left to its owner.
-/

namespace Memory

/-- A node: what it holds, and the nodes it is linked to. -/
structure Node (γ : Type*) where
  data : γ
  prev : Option ℕ
  next : Option ℕ

/-- What is allocated. -/
abbrev Heap (γ : Type*) := Finmap fun _ : ℕ => Node γ

/-- `malloc`: where it finds memory, and what is in there. -/
structure Allocator (γ : Type*) where
  malloc : Heap γ → ℕ × Node γ
  fresh : ∀ m, (malloc m).1 ∉ m

/-- There is memory behind all that is allocated. -/
instance {γ : Type*} [Inhabited γ] : Inhabited (Allocator γ) where
  default :=
    { malloc m := (m.keys.sup id + 1, ⟨default, none, none⟩)
      fresh m hm := by
        have hle : m.keys.sup id + 1 ≤ m.keys.sup id :=
          Finset.le_sup (f := id) (Finmap.mem_keys.2 hm)
        exact absurd hle (Nat.not_succ_le_self _) }

variable {γ : Type*} {m m' m₁ m₂ : Heap γ}

/-! ## Operations -/

/-- `*p` -/
def deref (m : Heap γ) (p : Option ℕ) : Option (Node γ) := p.bind fun a => m.lookup a

/-- Write through a pointer; there is no step if it points to nothing. -/
def modify (m : Heap γ) (p : Option ℕ) (g : Node γ → Node γ) : Option (Heap γ) :=
  p.bind fun a => (m.lookup a).map fun n => m.insert a (g n)

/-- `p->prev = q` -/
def setPrev (m : Heap γ) (p q : Option ℕ) : Option (Heap γ) :=
  modify m p fun n => { n with prev := q }

/-- `p->next = q` -/
def setNext (m : Heap γ) (p q : Option ℕ) : Option (Heap γ) :=
  modify m p fun n => { n with next := q }

/-- `free (p)`, which does nothing with `NULL`. -/
def free (m : Heap γ) : Option ℕ → Option (Heap γ)
  | none => some m
  | some a => if a ∈ m then some (m.erase a) else none

@[simp] theorem deref_some (m : Heap γ) (a : ℕ) : deref m (some a) = m.lookup a := rfl

theorem modify_eq {a : ℕ} {n : Node γ} (h : m.lookup a = some n) (g : Node γ → Node γ) :
    modify m (some a) g = some (m.insert a (g n)) := by
  rw [modify, Option.bind_some, h, Option.map_some]

theorem free_eq {a : ℕ} (h : a ∈ m) : free m (some a) = some (m.erase a) := by
  rw [free, if_pos h]

theorem eq_empty (h : ∀ a, a ∉ m) : m = ∅ :=
  Finmap.ext_lookup fun a => by rw [Finmap.lookup_eq_none.2 (h a), Finmap.lookup_empty]

/-- The same memory is allocated, and holds the same data. -/
def SameData (m m' : Heap γ) : Prop :=
  ∀ a, (m'.lookup a).map Node.data = (m.lookup a).map Node.data

theorem SameData.trans (h : SameData m m₁) (h' : SameData m₁ m₂) : SameData m m₂ :=
  fun a => (h' a).trans (h a)

theorem SameData.mem_iff (h : SameData m m') (a : ℕ) : a ∈ m' ↔ a ∈ m := by
  rw [← Finmap.lookup_isSome, ← Finmap.lookup_isSome, ← Option.isSome_map (f := Node.data), h a,
    Option.isSome_map]

/-- Links are not data. -/
theorem sameData_insert {a : ℕ} {n n' : Node γ} (h : m.lookup a = some n)
    (hdata : n'.data = n.data) : SameData m (m.insert a n') := by
  intro b
  by_cases hb : b = a
  · rw [hb, Finmap.lookup_insert, h, Option.map_some, Option.map_some, hdata]
  · rw [Finmap.lookup_insert_of_ne _ hb]

/-! ## Chains -/

/-- The nodes `lo` to `hi` are linked both ways. -/
structure Chain (m : Heap γ) (addr : ℕ → ℕ) (lo hi : ℕ) : Prop where
  le : lo ≤ hi
  injective : ∀ j k, lo ≤ j → j ≤ hi → lo ≤ k → k ≤ hi → addr j = addr k → j = k
  node : ∀ k, lo ≤ k → k ≤ hi → ∃ n, m.lookup (addr k) = some n ∧
    (k < hi → n.next = some (addr (k + 1))) ∧ (lo < k → n.prev = some (addr (k - 1)))

/-- The address is that of a node of the chain. -/
def OnChain (addr : ℕ → ℕ) (lo hi a : ℕ) : Prop := ∃ k, lo ≤ k ∧ k ≤ hi ∧ addr k = a

variable {addr : ℕ → ℕ} {lo hi : ℕ}

theorem chain_single {a k : ℕ} (h : a ∈ m) : Chain m (fun _ => a) k k := by
  obtain ⟨n, hn⟩ := Finmap.mem_iff.1 h
  exact ⟨Nat.le_refl k, fun i j hi hi' hj hj' _ => by omega,
    fun j hj hj' => ⟨n, hn, fun h => by omega, fun h => by omega⟩⟩

namespace Chain

theorem mem (h : Chain m addr lo hi) {k : ℕ} (hlo : lo ≤ k) (hhi : k ≤ hi) : addr k ∈ m := by
  obtain ⟨n, hn, -⟩ := h.node k hlo hhi
  exact Finmap.mem_of_lookup_eq_some hn

/-- What happens elsewhere in memory. -/
theorem frame (h : Chain m addr lo hi)
    (hsame : ∀ k, lo ≤ k → k ≤ hi → m'.lookup (addr k) = m.lookup (addr k)) :
    Chain m' addr lo hi :=
  ⟨h.le, h.injective, fun k hlo hhi => by
    rw [hsame k hlo hhi]
    exact h.node k hlo hhi⟩

theorem insert_off (h : Chain m addr lo hi) {a : ℕ} (ha : ¬ OnChain addr lo hi a) (n : Node γ) :
    Chain (m.insert a n) addr lo hi :=
  h.frame fun k hlo hhi => Finmap.lookup_insert_of_ne _ fun heq => ha ⟨k, hlo, hhi, heq⟩

theorem erase_off (h : Chain m addr lo hi) {a : ℕ} (ha : ¬ OnChain addr lo hi a) :
    Chain (m.erase a) addr lo hi :=
  h.frame fun k hlo hhi => Finmap.lookup_erase_ne fun heq => ha ⟨k, hlo, hhi, heq⟩

/-- A node gets new data, or links that the chain does not use. -/
theorem insert_node (h : Chain m addr lo hi) {k : ℕ} (hlo : lo ≤ k) (hhi : k ≤ hi) {n : Node γ}
    (hn : m.lookup (addr k) = some n) (n' : Node γ) (hnext : k < hi → n'.next = n.next)
    (hprev : lo < k → n'.prev = n.prev) : Chain (m.insert (addr k) n') addr lo hi := by
  refine ⟨h.le, h.injective, fun j hjlo hjhi => ?_⟩
  obtain ⟨i, hi', hinext, hiprev⟩ := h.node j hjlo hjhi
  by_cases hjk : addr j = addr k
  · obtain rfl := h.injective j k hjlo hjhi hlo hhi hjk
    obtain rfl := Option.some.inj (hi'.symm.trans hn)
    exact ⟨n', Finmap.lookup_insert m, fun hlt => (hnext hlt).trans (hinext hlt),
      fun hlt => (hprev hlt).trans (hiprev hlt)⟩
  · exact ⟨i, (Finmap.lookup_insert_of_ne _ hjk).trans hi', hinext, hiprev⟩

theorem init (h : Chain m addr lo (hi + 1)) (hlt : lo ≤ hi) : Chain m addr lo hi := by
  refine ⟨hlt, fun j k hj hj' hk hk' => h.injective j k hj (by omega) hk (by omega), ?_⟩
  intro k hlo hhi
  obtain ⟨i, hi', hinext, hiprev⟩ := h.node k hlo (by omega)
  exact ⟨i, hi', fun hk => hinext (by omega), hiprev⟩

theorem off_init (h : Chain m addr lo (hi + 1)) : ¬ OnChain addr lo hi (addr (hi + 1)) := by
  rintro ⟨k, hlo, hhi, heq⟩
  have hk := h.injective k (hi + 1) hlo (by omega) h.le (Nat.le_refl _) heq
  omega

theorem tail (h : Chain m addr lo hi) (hlt : lo < hi) : Chain m addr (lo + 1) hi := by
  refine ⟨hlt, fun j k hj hj' hk hk' => h.injective j k (by omega) hj' (by omega) hk', ?_⟩
  intro k hlo hhi
  obtain ⟨i, hi', hinext, hiprev⟩ := h.node k (by omega) hhi
  exact ⟨i, hi', hinext, fun hk => hiprev (by omega)⟩

theorem off_tail (h : Chain m addr lo hi) : ¬ OnChain addr (lo + 1) hi (addr lo) := by
  rintro ⟨k, hlo, hhi, heq⟩
  have hk := h.injective k lo (by omega) hhi (Nat.le_refl lo) h.le heq
  omega

/-- **A node at the end**: one that is allocated and not in the chain. -/
theorem link (h : Chain m addr lo hi) {b : ℕ} (hb : b ∈ m) (hoff : ¬ OnChain addr lo hi b) :
    ∃ m₁ m₂, setNext m (some (addr hi)) (some b) = some m₁ ∧
      setPrev m₁ (some b) (some (addr hi)) = some m₂ ∧
      (deref m₂ (some (addr hi))).bind Node.next = some b ∧
      Chain m₂ (Function.update addr (hi + 1) b) lo (hi + 1) ∧ SameData m m₂ := by
  obtain ⟨n, hn⟩ := Finmap.mem_iff.1 hb
  obtain ⟨e, he, henext, heprev⟩ := h.node hi h.le (Nat.le_refl hi)
  have hne : ∀ k, lo ≤ k → k ≤ hi → addr k ≠ b := fun k hlo hhi heq => hoff ⟨k, hlo, hhi, heq⟩
  have hlast := hne hi h.le (Nat.le_refl hi)
  have hn₁ : (m.insert (addr hi) { e with next := some b }).lookup b = some n := by
    rw [Finmap.lookup_insert_of_ne _ (Ne.symm hlast), hn]
  have hchain := (h.insert_node h.le (Nat.le_refl hi) he { e with next := some b }
    (fun hlt => absurd hlt (Nat.lt_irrefl hi)) fun _ => rfl).insert_off hoff
    { n with prev := some (addr hi) }
  have hupd : ∀ k, k ≤ hi → Function.update addr (hi + 1) b k = addr k :=
    fun k hk => Function.update_of_ne (by omega) _ _
  have hend : ((m.insert (addr hi) { e with next := some b }).insert b
      { n with prev := some (addr hi) }).lookup (addr hi) = some { e with next := some b } := by
    rw [Finmap.lookup_insert_of_ne _ hlast, Finmap.lookup_insert]
  have hdata₁ : SameData m (m.insert (addr hi) { e with next := some b }) :=
    sameData_insert he rfl
  refine ⟨_, _, modify_eq he _, modify_eq hn₁ _, ?_, ⟨Nat.le_succ_of_le h.le, ?_, ?_⟩,
    hdata₁.trans (sameData_insert hn₁ rfl)⟩
  · rw [deref_some, hend, Option.bind_some]
  · intro j k hj hj' hk hk' heq
    rcases Nat.le_succ_iff.1 hj' with hj' | rfl <;> rcases Nat.le_succ_iff.1 hk' with hk' | rfl
    · rw [hupd j hj', hupd k hk'] at heq
      exact h.injective j k hj hj' hk hk' heq
    · rw [hupd j hj', Function.update_self] at heq
      exact absurd heq (hne j hj hj')
    · rw [hupd k hk', Function.update_self] at heq
      exact absurd heq.symm (hne k hk hk')
    · rfl
  · intro k hk hk'
    rcases Nat.le_succ_iff.1 hk' with hk' | rfl
    · rw [hupd k hk']
      obtain ⟨i, hi', hinext, hiprev⟩ := hchain.node k hk hk'
      refine ⟨i, hi', fun _ => ?_, fun hlt => ?_⟩
      · rcases Nat.lt_or_eq_of_le hk' with hlt | rfl
        · rw [hupd _ hlt]
          exact hinext hlt
        · rw [Function.update_self, ← Option.some.inj (hend.symm.trans hi')]
      · rw [hupd _ (by omega)]
        exact hiprev hlt
    · rw [Function.update_self]
      refine ⟨{ n with prev := some (addr hi) }, Finmap.lookup_insert _, fun hlt => ?_, fun _ => ?_⟩
      · exact absurd hlt (Nat.lt_irrefl _)
      · show some (addr hi) = some (Function.update addr (hi + 1) b hi)
        rw [hupd hi (Nat.le_refl hi)]

/-- **The last node** is freed. -/
theorem unlink (h : Chain m addr lo (hi + 1)) (hlt : lo ≤ hi) :
    ∃ e n m', deref m (some (addr (hi + 1))) = some e ∧ e.prev = some (addr hi) ∧
      deref m e.prev = some n ∧ n.next = some (addr (hi + 1)) ∧
      free m n.next = some (m.erase (addr (hi + 1))) ∧
      setNext (m.erase (addr (hi + 1))) e.prev none = some m' ∧
      Chain m' addr lo hi ∧ SameData (m.erase (addr (hi + 1))) m' := by
  obtain ⟨e, he, -, heprev⟩ := h.node (hi + 1) h.le (Nat.le_refl _)
  obtain ⟨n, hn, hnnext, -⟩ := h.node hi hlt (Nat.le_succ hi)
  have hprev : e.prev = some (addr hi) := by
    rw [heprev (Nat.lt_succ_of_le hlt), Nat.add_sub_cancel]
  have hnext := hnnext (Nat.lt_succ_self hi)
  have hoff := h.off_init
  have hn' : (m.erase (addr (hi + 1))).lookup (addr hi) = some n := by
    rw [Finmap.lookup_erase_ne, hn]
    exact fun heq => hoff ⟨hi, hlt, Nat.le_refl hi, heq⟩
  refine ⟨e, n, _, he, hprev, ?_, hnext, ?_, ?_, ((h.init hlt).erase_off hoff).insert_node hlt
    (Nat.le_refl hi) hn' { n with next := none } (fun hk => absurd hk (Nat.lt_irrefl hi))
    fun _ => rfl, sameData_insert hn' rfl⟩
  · rw [hprev, deref_some, hn]
  · rw [hnext]
    exact free_eq (h.mem h.le (Nat.le_refl _))
  · rw [hprev]
    exact modify_eq hn' _

/-- **The first node** is no longer part of the chain, but still there. -/
theorem drop_first (h : Chain m addr lo hi) (hlt : lo < hi) :
    ∃ n m', deref m (some (addr lo)) = some n ∧ n.next = some (addr (lo + 1)) ∧
      setPrev m n.next none = some m' ∧ Chain m' addr (lo + 1) hi ∧ SameData m m' := by
  obtain ⟨n, hn, hnnext, -⟩ := h.node lo (Nat.le_refl lo) h.le
  obtain ⟨i, hi', -⟩ := h.node (lo + 1) (Nat.le_succ lo) hlt
  have hnext := hnnext hlt
  refine ⟨n, _, hn, hnext, ?_, (h.tail hlt).insert_node (Nat.le_refl _) hlt hi'
    { i with prev := none } (fun _ => rfl) (fun hk => absurd hk (Nat.lt_irrefl _)),
    sameData_insert hi' rfl⟩
  rw [hnext]
  exact modify_eq hi' _

end Chain

end Memory
