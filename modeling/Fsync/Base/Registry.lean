import Mathlib.Data.List.InsertIdx
import Mathlib.Data.List.Nodup
import Mathlib.Data.List.Perm.Basic
import Mathlib.Tactic.Common

/-!
# Registries with one entry for each key

A registry is a list of entries with a key.  A new entry is put in front if no
entry has its key (`insertNew`), and entries are removed by position.  A `Book`
adds what the requesters may count on: the requests that were acknowledged and
whose entry was not removed since (`live`).

* `Book.Ok`: keys are distinct, and every live request has an entry of its key;
  registering and removing keep it (`Ok.register`, `Ok.remove`);
* `Book.Routed`: every live request has an entry of its key that leads where the
  request asked.  `routed_register_iff` says exactly when an acknowledgement
  keeps this: no entry of that key leads elsewhere.
-/

namespace Registry

variable {μ κ δ : Type*} [DecidableEq κ] (key : μ → κ)

/-- Put `x` in front, unless an entry has its key. -/
def insertNew (x : μ) (l : List μ) : List μ :=
  if l.any fun y => key y = key x then l else x :: l

variable {key}

theorem insertNew_of_fresh {x : μ} {l : List μ} (h : ∀ y ∈ l, key y ≠ key x) :
    insertNew key x l = x :: l := by
  rw [insertNew, if_neg]
  simpa using h

theorem insertNew_of_mem {x y : μ} {l : List μ} (hy : y ∈ l) (h : key y = key x) :
    insertNew key x l = l := by
  rw [insertNew, if_pos]
  exact List.any_eq_true.2 ⟨y, hy, by simpa using h⟩

variable (key) in
/-- A key is in the list or is fresh. -/
theorem fresh_or_mem (x : μ) (l : List μ) :
    (∀ y ∈ l, key y ≠ key x) ∨ ∃ y ∈ l, key y = key x := by
  by_cases h : ∃ y ∈ l, key y = key x
  · exact Or.inr h
  · exact Or.inl fun y hy hk => h ⟨y, hy, hk⟩

theorem mem_insertNew_of_mem {x y : μ} {l : List μ} (hy : y ∈ l) : y ∈ insertNew key x l := by
  rcases fresh_or_mem key x l with h | ⟨z, hz, hk⟩
  · rw [insertNew_of_fresh h]
    exact List.mem_cons_of_mem x hy
  · rwa [insertNew_of_mem hz hk]

variable (key) in
/-- After a registration there is an entry of the key. -/
theorem exists_mem_insertNew (x : μ) (l : List μ) : ∃ y ∈ insertNew key x l, key y = key x := by
  rcases fresh_or_mem key x l with h | ⟨z, hz, hk⟩
  · rw [insertNew_of_fresh h]
    exact ⟨x, List.mem_cons_self, rfl⟩
  · rw [insertNew_of_mem hz hk]
    exact ⟨z, hz, hk⟩

theorem nodup_insertNew {x : μ} {l : List μ} (h : (l.map key).Nodup) :
    ((insertNew key x l).map key).Nodup := by
  rcases fresh_or_mem key x l with hf | ⟨z, hz, hk⟩
  · rw [insertNew_of_fresh hf, List.map_cons, List.nodup_cons]
    refine ⟨fun hm => ?_, h⟩
    obtain ⟨y, hy, hyx⟩ := List.mem_map.1 hm
    exact hf y hy hyx
  · rwa [insertNew_of_mem hz hk]

omit [DecidableEq κ] in
theorem nodup_eraseIdx {l : List μ} (h : (l.map key).Nodup) (i : ℕ) :
    ((l.eraseIdx i).map key).Nodup :=
  h.sublist ((List.eraseIdx_sublist l i).map key)

omit [DecidableEq κ] in
/-- With distinct keys, the entry of a key is the only one. -/
theorem eq_of_key_eq {l : List μ} (h : (l.map key).Nodup) {x y : μ} (hx : x ∈ l) (hy : y ∈ l)
    (hk : key x = key y) : x = y :=
  List.inj_on_of_nodup_map h hx hy hk

variable (key) in
omit [DecidableEq κ] in
/-- With distinct keys, removing the entry at a position removes its key only. -/
theorem mem_eraseIdx_of_key_ne {l : List μ} {i : ℕ} {x y : μ} (hx : l[i]? = some x) (hy : y ∈ l)
    (hk : key y ≠ key x) : y ∈ l.eraseIdx i := by
  obtain ⟨j, hj, rfl⟩ := List.mem_iff_getElem.1 hy
  refine List.mem_eraseIdx_iff_getElem.2 ⟨j, hj, fun hji => hk ?_, rfl⟩
  subst hji
  rw [List.getElem?_eq_getElem hj, Option.some.injEq] at hx
  rw [hx]

/-- With distinct keys, dropping the key of an entry is dropping the entry. -/
theorem filter_key_ne {l : List μ} (h : (l.map key).Nodup) {i : ℕ} {x : μ}
    (hx : l[i]? = some x) : l.filter (fun y => key y ≠ key x) = l.eraseIdx i := by
  induction l generalizing i with
  | nil => simp at hx
  | cons y l ih =>
    rw [List.map_cons, List.nodup_cons] at h
    cases i with
    | zero =>
      rw [List.getElem?_cons_zero, Option.some.injEq] at hx
      subst hx
      rw [List.eraseIdx_cons_zero, List.filter_cons_of_neg (by simp), List.filter_eq_self]
      intro z hz
      have hne : key z ≠ key y := fun hk => h.1 (hk ▸ List.mem_map_of_mem hz)
      simpa using hne
    | succ i =>
      rw [List.getElem?_cons_succ] at hx
      have hne : key y ≠ key x :=
        fun hk => h.1 (hk ▸ List.mem_map_of_mem (List.mem_of_getElem? hx))
      rw [List.eraseIdx_cons_succ, List.filter_cons_of_pos (by simpa using hne), ih h.2 hx]

/-! ## Entries in front of fixed items -/

/-- A loop that can only clear a flag leaves it set exactly if no entry clears it. -/
theorem foldl_flag {ω : Type*} {f : Bool → ω → Bool} {P : ω → Prop}
    (h : ∀ b w, f b w = true ↔ b = true ∧ P w) (l : List ω) (b : Bool) :
    l.foldl f b = true ↔ b = true ∧ ∀ w ∈ l, P w := by
  induction l generalizing b with
  | nil => simp
  | cons w l ih => rw [List.foldl_cons, ih, h, List.forall_mem_cons, and_assoc]

/-- In a list of entries followed by items that are none, what is an entry is at
its place among the entries. -/
theorem getElem?_entry_iff {ω : Type*} {f : μ → ω} (hf : Function.Injective f) {l : List μ}
    {rest : List ω} (hrest : ∀ x, f x ∉ rest) {i : ℕ} {x : μ} :
    (l.map f ++ rest)[i]? = some (f x) ↔ l[i]? = some x := by
  by_cases hi : i < l.length
  · rw [List.getElem?_append_left (by simpa using hi), List.getElem?_map,
      Option.map_eq_some_iff]
    constructor
    · rintro ⟨y, hy, hxy⟩
      rw [hy, hf hxy]
    · intro h
      exact ⟨x, h, rfl⟩
  · rw [List.getElem?_append_right (by simpa using hi)]
    constructor
    · intro h
      exact absurd (List.mem_of_getElem? h) (hrest x)
    · intro h
      exact absurd (List.getElem?_eq_some_iff.1 h).1 hi

/-- Removing an entry leaves the items behind the entries. -/
theorem eraseIdx_entry {ω : Type*} (f : μ → ω) {l : List μ} (rest : List ω) {i : ℕ} {x : μ}
    (h : l[i]? = some x) : (l.map f ++ rest).eraseIdx i = (l.eraseIdx i).map f ++ rest := by
  have hi : i < l.length := (List.getElem?_eq_some_iff.1 h).1
  rw [List.eraseIdx_append_of_lt_length (by simpa using hi), List.eraseIdx_map]

/-! ## Acknowledged requests -/

/-- A registry with the requests that were acknowledged and whose entry was not
removed since. -/
structure Book (μ : Type*) where
  items : List μ
  live : List μ

namespace Book

variable (key)

/-- A request `x`, acknowledged or not. -/
def register (b : Book μ) (x : μ) (acked : Bool) : Book μ where
  items := insertNew key x b.items
  live := if acked then x :: b.live else b.live

/-- The removal of the entry at position `i`. -/
def remove (b : Book μ) (i : ℕ) : Book μ :=
  match b.items[i]? with
  | none => b
  | some x => ⟨b.items.eraseIdx i, b.live.filter fun m => key m ≠ key x⟩

/-- Keys are distinct, and every live request has an entry. -/
structure Ok (b : Book μ) : Prop where
  nodup : (b.items.map key).Nodup
  entry : ∀ m ∈ b.live, ∃ x ∈ b.items, key x = key m

/-- Every live request has an entry that leads where the request asked. -/
def Routed (dest : μ → δ) (b : Book μ) : Prop :=
  ∀ m ∈ b.live, ∃ x ∈ b.items, key x = key m ∧ dest x = dest m

/-- No entry of the request's key leads elsewhere. -/
def Agrees (dest : μ → δ) (b : Book μ) (m : μ) : Prop :=
  ∀ x ∈ b.items, key x = key m → dest x = dest m

variable {key}

omit [DecidableEq κ] in
theorem ok_empty : Ok key (⟨[], []⟩ : Book μ) := ⟨by simp, by simp⟩

theorem Ok.register {b : Book μ} (h : Ok key b) (x : μ) (acked : Bool) :
    Ok key (b.register key x acked) := by
  refine ⟨nodup_insertNew h.nodup, fun m hm => ?_⟩
  have hold : m ∈ b.live → ∃ y ∈ insertNew key x b.items, key y = key m := fun hm => by
    obtain ⟨y, hy, hk⟩ := h.entry m hm
    exact ⟨y, mem_insertNew_of_mem hy, hk⟩
  cases acked with
  | false => exact hold hm
  | true =>
    rcases List.mem_cons.1 hm with rfl | hm
    · exact exists_mem_insertNew key m b.items
    · exact hold hm

theorem Ok.remove {b : Book μ} (h : Ok key b) (i : ℕ) : Ok key (b.remove key i) := by
  rw [Book.remove]
  split
  · exact h
  · rename_i x hx
    refine ⟨nodup_eraseIdx h.nodup i, fun m hm => ?_⟩
    obtain ⟨hm, hne⟩ := List.mem_filter.1 hm
    obtain ⟨y, hy, hk⟩ := h.entry m hm
    exact ⟨y, mem_eraseIdx_of_key_ne key hx hy (by rw [hk]; simpa using hne), hk⟩

/-- Removing an entry keeps the other live requests routed. -/
theorem routed_remove {dest : μ → δ} {b : Book μ} (h : Routed key dest b) (i : ℕ) :
    Routed key dest (b.remove key i) := by
  rw [Book.remove]
  split
  · exact h
  · rename_i x hx
    intro m hm
    obtain ⟨hm, hne⟩ := List.mem_filter.1 hm
    obtain ⟨y, hy, hk, hd⟩ := h m hm
    exact ⟨y, mem_eraseIdx_of_key_ne key hx hy (by rw [hk]; simpa using hne), hk, hd⟩

theorem routed_of_not_acked {dest : μ → δ} {b : Book μ} (h : Routed key dest b) (x : μ) :
    Routed key dest (b.register key x false) := by
  intro m hm
  obtain ⟨y, hy, hk, hd⟩ := h m hm
  exact ⟨y, mem_insertNew_of_mem hy, hk, hd⟩

/-- **When an acknowledgement is kept.**  Acknowledging a request leaves every
live request routed exactly when no entry of its key leads elsewhere. -/
theorem routed_register_iff {dest : μ → δ} {b : Book μ} (hok : Ok key b)
    (h : Routed key dest b) (x : μ) :
    Routed key dest (b.register key x true) ↔ Agrees key dest b x := by
  constructor
  · intro hr y hy hk
    obtain ⟨z, hz, hkz, hdz⟩ := hr x List.mem_cons_self
    have hitems : insertNew key x b.items = b.items := insertNew_of_mem hy hk
    rw [Book.register] at hz
    simp only [hitems] at hz
    rw [eq_of_key_eq hok.nodup hy hz (hk.trans hkz.symm), hdz]
  · intro ha m hm
    rcases List.mem_cons.1 hm with rfl | hm
    · obtain ⟨y, hy, hk⟩ := exists_mem_insertNew key m b.items
      refine ⟨y, hy, hk, ?_⟩
      rcases fresh_or_mem key m b.items with hf | ⟨z, hz, hkz⟩
      · rw [insertNew_of_fresh hf] at hy
        rcases List.mem_cons.1 hy with rfl | hy
        · rfl
        · exact ha y hy hk
      · rw [insertNew_of_mem hz hkz] at hy
        exact ha y hy hk
    · obtain ⟨y, hy, hk, hd⟩ := h m hm
      exact ⟨y, mem_insertNew_of_mem hy, hk, hd⟩

end Book

end Registry
