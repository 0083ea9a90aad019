import Mathlib.Tactic.Common

/-!
# Readers that know how much they read next

Input that arrives in chunks of any size is parsed by a machine that always knows
how many symbols are missing before it can act again.  Its actions may refuse: the
machine is then stuck, and what was not read yet waits outside.

* `process_append`: reading two chunks one after the other, the second behind what
  the first one left, is reading them as one;
* `process_fill`: symbols that are copied straight to where the machine wants them
  are read as any others;
* `process_sim`: a machine that refuses loses nothing.  Another one that takes the
  same actions and refuses less ends where it would have ended without the first.
-/

namespace Chunked

variable {σ τ β : Type*}

/-- A machine that knows how many symbols it is to read before its next action. -/
structure Machine (σ β : Type*) where
  /-- how many symbols are missing -/
  need : σ → ℕ
  fill : σ → List β → σ
  /-- What is done when none is missing; `none` where it is refused. -/
  act : σ → Option σ
  /-- A bound on how often it acts without reading. -/
  rank : σ → ℕ
  fill_nil : ∀ s, fill s [] = s
  fill_append : ∀ s x y, fill s (x ++ y) = fill (fill s x) y
  need_fill : ∀ s x, x.length ≤ need s → need (fill s x) = need s - x.length
  rank_act : ∀ s s', act s = some s' → need s' = 0 → rank s' < rank s

namespace Machine

variable (M : Machine σ β)

/-! ## Acting until symbols are missing -/

/-- Act while no symbol is missing. -/
def settle (s : σ) : σ :=
  if M.need s = 0 then
    match _h : M.act s with
    | none => s
    | some s' => settle s'
  else s
termination_by if M.need s = 0 then M.rank s + 1 else 0
decreasing_by
  rename_i hs
  rw [if_pos hs]
  split
  · rename_i hs'
    exact Nat.succ_lt_succ (M.rank_act s s' _h hs')
  · omega

variable {M}

theorem settle_of_need {s : σ} (h : M.need s ≠ 0) : M.settle s = s := by
  rw [settle, if_neg h]

theorem settle_of_act {s s' : σ} (h : M.need s = 0) (ha : M.act s = some s') :
    M.settle s = M.settle s' := by
  rw [settle, if_pos h]
  split
  · rename_i hn
    rw [hn] at ha
    cases ha
  · rename_i t ht
    rw [ht, Option.some.injEq] at ha
    rw [ha]

theorem settle_of_stuck {s : σ} (ha : M.act s = none) : M.settle s = s := by
  rw [settle]
  split
  · split
    · rfl
    · rename_i t ht
      rw [ht] at ha
      cases ha
  · rfl

/-- A settled machine misses symbols or is stuck. -/
theorem settle_spec (s : σ) : M.need (M.settle s) ≠ 0 ∨ M.act (M.settle s) = none := by
  induction s using settle.induct M with
  | case1 s h ha =>
    rw [settle_of_stuck ha]
    exact Or.inr ha
  | case2 s h s' ha ih =>
    rw [settle_of_act h ha]
    exact ih
  | case3 s h =>
    rw [settle_of_need h]
    exact Or.inl h

theorem settle_settle (s : σ) : M.settle (M.settle s) = M.settle s := by
  rcases M.settle_spec s with h | h
  · exact settle_of_need h
  · exact settle_of_stuck h

/-! ## Reading a chunk -/

variable (M) in
/-- Read a chunk: the machine behind it, and what of the chunk is left where the
machine got stuck. -/
def process (s : σ) (data : List β) : σ × List β :=
  if M.need (M.settle s) = 0 then (M.settle s, data)
  else if data = [] then (M.settle s, [])
  else
    process (M.fill (M.settle s) (data.take (M.need (M.settle s))))
      (data.drop (M.need (M.settle s)))
termination_by data.length
decreasing_by
  rename_i hneed hdata
  have hpos : 0 < data.length := List.length_pos_iff.2 hdata
  rw [List.length_drop]
  omega

theorem process_of_stuck {s : σ} (h : M.need (M.settle s) = 0) (data : List β) :
    M.process s data = (M.settle s, data) := by
  rw [process, if_pos h]

theorem process_nil (s : σ) : M.process s [] = (M.settle s, []) := by
  rw [process]
  split <;> simp

theorem process_settle (s : σ) (data : List β) :
    M.process (M.settle s) data = M.process s data := by
  rw [process, settle_settle]
  conv_rhs => rw [process]

/-- Reading goes on behind an action. -/
theorem process_of_act {s s' : σ} (h : M.need s = 0) (ha : M.act s = some s') (data : List β) :
    M.process s data = M.process s' data := by
  rw [← process_settle s, settle_of_act h ha, process_settle]

/-- As much is copied as is missing and there. -/
theorem process_of_need {s : σ} {data : List β} (h : M.need s ≠ 0) (hd : data ≠ []) :
    M.process s data = M.process (M.fill s (data.take (M.need s))) (data.drop (M.need s)) := by
  rw [process, settle_of_need h, if_neg h, if_neg hd]

/-- Symbols that are missing may be filled in first. -/
theorem process_fill {s : σ} {x : List β} (h : x.length ≤ M.need s) (hpos : M.need s ≠ 0)
    (data : List β) : M.process s (x ++ data) = M.process (M.fill s x) data := by
  by_cases hx : x = []
  · rw [hx, M.fill_nil, List.nil_append]
  rw [process_of_need hpos (by simp [hx])]
  rcases Nat.lt_or_ge x.length (M.need s) with hlt | hge
  · -- more is missing: the next copy starts with what `data` has
    have hneed : M.need (M.fill s x) = M.need s - x.length := M.need_fill s x h
    have hpos' : M.need (M.fill s x) ≠ 0 := by omega
    rw [List.take_append, List.drop_append, List.take_of_length_le h, List.drop_of_length_le h,
      List.nil_append, M.fill_append, ← hneed]
    by_cases hd : data = []
    · subst hd
      rw [List.take_nil, List.drop_nil, M.fill_nil]
    · rw [process_of_need hpos' hd]
  · have hx : x.length = M.need s := Nat.le_antisymm h hge
    rw [← hx, List.take_left, List.drop_left]

/-- Just the symbols that are missing, none if none is. -/
theorem process_exact {s : σ} {x : List β} (h : x.length = M.need s) (data : List β) :
    M.process s (x ++ data) = M.process (M.fill s x) data := by
  by_cases hpos : M.need s = 0
  · have hx : x = [] := List.length_eq_zero_iff.1 (by omega)
    rw [hx, M.fill_nil, List.nil_append]
  · exact process_fill (by omega) hpos data

/-- **Chunks.**  To read two chunks, the second behind what is left of the first, is
to read them as one. -/
theorem process_append (s : σ) (a b : List β) :
    M.process s (a ++ b) = M.process (M.process s a).1 ((M.process s a).2 ++ b) := by
  induction s, a using process.induct M with
  | case1 s data h =>
    rw [process_of_stuck h data]
    rw [process_settle]
  | case2 s h =>
    rw [process_nil, process_settle]
  | case3 s data h hd ih =>
    rw [← process_settle s (data ++ b), ← process_settle s data, process_of_need h hd, ← ih]
    generalize M.settle s = t at h
    rcases Nat.lt_or_ge data.length (M.need t) with hlt | hge
    · have hle : data.length ≤ M.need t := Nat.le_of_lt hlt
      rw [List.take_of_length_le hle, List.drop_of_length_le hle, List.nil_append]
      exact process_fill hle h b
    · have hlen : (data.take (M.need t)).length ≤ M.need t := List.length_take_le _ _
      rw [← process_fill hlen h, ← List.append_assoc, List.take_append_drop]

/-- What actions and symbols do to a machine, reading a chunk does. -/
theorem process_rel {R : σ → σ → Prop} (hrefl : ∀ s, R s s)
    (htrans : ∀ s t u, R s t → R t u → R s u) (hact : ∀ s s', M.act s = some s' → R s s')
    (hfill : ∀ s x, R s (M.fill s x)) (s : σ)
    (data : List β) : R s (M.process s data).1 := by
  have hsettle : ∀ s, R s (M.settle s) := by
    intro s
    induction s using settle.induct M with
    | case1 s _ ha =>
      rw [settle_of_stuck ha]
      exact hrefl s
    | case2 s h s' ha ih =>
      rw [settle_of_act h ha]
      exact htrans s s' _ (hact s s' ha) ih
    | case3 s h =>
      rw [settle_of_need h]
      exact hrefl s
  induction s, data using process.induct M with
  | case1 s data h =>
    rw [process_of_stuck h]
    exact hsettle s
  | case2 s h =>
    rw [process_nil]
    exact hsettle s
  | case3 s data h hd ih =>
    rw [← process_settle, process_of_need h hd]
    exact htrans s _ _ (hsettle s) (htrans _ _ _ (hfill _ _) ih)

/-! ## A machine that refuses more -/

/-- `N` takes every action that `M` takes, on the states that `f` makes of `M`'s. -/
structure Covers (N : Machine τ β) (M : Machine σ β) (f : σ → τ) : Prop where
  need : ∀ s, N.need (f s) = M.need s
  fill : ∀ s x, N.fill (f s) x = f (M.fill s x)
  act : ∀ s s', M.need s = 0 → M.act s = some s' → N.act (f s) = some (f s')

variable {N : Machine τ β} {f : σ → τ}

theorem Covers.process_settle (h : Covers N M f) (s : σ) (data : List β) :
    N.process (f (M.settle s)) data = N.process (f s) data := by
  induction s using settle.induct M with
  | case1 s hs ha => rw [settle_of_stuck ha]
  | case2 s hs s' ha ih =>
    rw [settle_of_act hs ha, ih, process_of_act (by rw [h.need, hs]) (h.act s s' hs ha)]
  | case3 s hs => rw [settle_of_need hs]

/-- **Nothing is lost.**  What a machine leaves and has read is read by one that refuses
less as if it had read all by itself. -/
theorem process_sim (h : Covers N M f) (s : σ) (a b : List β) :
    N.process (f (M.process s a).1) ((M.process s a).2 ++ b) = N.process (f s) (a ++ b) := by
  induction s, a using process.induct M with
  | case1 s data hs =>
    rw [process_of_stuck hs, h.process_settle]
  | case2 s hs =>
    rw [process_nil, h.process_settle]
  | case3 s data hs hd ih =>
    rw [← M.process_settle s data, process_of_need hs hd, ih, ← h.fill, ← h.process_settle s]
    have hneed : N.need (f (M.settle s)) ≠ 0 := by rw [h.need]; exact hs
    have hlen : (data.take (M.need (M.settle s))).length ≤ N.need (f (M.settle s)) := by
      rw [h.need]
      exact List.length_take_le _ _
    rw [← process_fill hlen hneed, ← List.append_assoc, List.take_append_drop]

end Machine

end Chunked
