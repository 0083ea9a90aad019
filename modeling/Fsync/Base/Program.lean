import Mathlib.Tactic.Common

/-!
# Programs that change a state and may raise

Handlers are written in `EStateM ε σ`: a handler returns or raises, and what it
changed before it raised stays changed.

* `bind_eq_ok`: a sequence returns exactly if both parts do, one after the other;
  with the lemmas for single steps it turns `run = .ok` into the conjunction of
  what each step asks for;
* `Reads`: a program that leaves the state as it is if it returns;
* `Rollback`: a program that leaves the state as it is if it raises.  Checks first,
  changes last is enough for it (`Rollback.bind`);
* `Throws`: which exceptions a program raises from a state.
-/

namespace Program

variable {ε σ α β : Type}

/-! ## Small programs -/

/-- `if cond: raise e` -/
def raiseIf (cond : Bool) (e : ε) : EStateM ε σ Unit := if cond then throw e else pure ()

/-- The value that is there, else raise. -/
def orRaise (v : Option α) (e : ε) : EStateM ε σ α :=
  match v with
  | none => throw e
  | some a => pure a

/-! ## When a program returns -/

theorem bind_eq_ok {x : EStateM ε σ α} {f : α → EStateM ε σ β} {s t : σ} {b : β} :
    (x >>= f).run s = .ok b t ↔ ∃ a s', x.run s = .ok a s' ∧ (f a).run s' = .ok b t := by
  rw [EStateM.run_bind]
  cases x.run s with
  | ok a s' => simp
  | error e s' => simp

/-- A sequence raises if its first part does, or its second part behind it. -/
theorem bind_eq_error {x : EStateM ε σ α} {f : α → EStateM ε σ β} {s t : σ} {e : ε} :
    (x >>= f).run s = .error e t ↔
      x.run s = .error e t ∨ ∃ a s', x.run s = .ok a s' ∧ (f a).run s' = .error e t := by
  rw [EStateM.run_bind]
  cases x.run s with
  | ok a s' => simp
  | error e' s' => simp

theorem pure_eq_ok {a b : α} {s s' : σ} :
    (pure a : EStateM ε σ α).run s = .ok b s' ↔ b = a ∧ s' = s := by
  rw [EStateM.run_pure, EStateM.Result.ok.injEq, eq_comm, @eq_comm _ s]

theorem throw_ne_ok {e : ε} {a : α} {s s' : σ} :
    (throw e : EStateM ε σ α).run s = .ok a s' ↔ False :=
  iff_false_intro fun h => nomatch h

theorem get_eq_ok {a s s' : σ} :
    (get : EStateM ε σ σ).run s = .ok a s' ↔ a = s ∧ s' = s := by
  rw [EStateM.run_get, EStateM.Result.ok.injEq, eq_comm, @eq_comm _ s s']

theorem set_eq_ok {s s' t : σ} {u : PUnit} :
    (set t : EStateM ε σ PUnit).run s = .ok u s' ↔ s' = t := by
  rw [EStateM.run_set, EStateM.Result.ok.injEq, eq_comm (b := s')]
  simp

theorem modify_eq_ok {f : σ → σ} {s s' : σ} {u : PUnit} :
    (modify f : EStateM ε σ PUnit).run s = .ok u s' ↔ s' = f s := by
  rw [EStateM.run_modify, EStateM.Result.ok.injEq, eq_comm (b := s')]
  simp

theorem raiseIf_eq_ok {cond : Bool} {e : ε} {s s' : σ} {u : Unit} :
    (raiseIf cond e : EStateM ε σ Unit).run s = .ok u s' ↔ cond = false ∧ s' = s := by
  cases cond with
  | false => rw [raiseIf, if_neg (by simp), pure_eq_ok]; simp
  | true => rw [raiseIf, if_pos rfl, throw_ne_ok]; simp

theorem orRaise_eq_ok {v : Option α} {e : ε} {a : α} {s s' : σ} :
    (orRaise v e : EStateM ε σ α).run s = .ok a s' ↔ v = some a ∧ s' = s := by
  cases v with
  | none => rw [orRaise, throw_ne_ok]; simp
  | some b => rw [orRaise, pure_eq_ok, Option.some.injEq, eq_comm]

/-- A handler runs in the state the exception left. -/
theorem run_tryCatch (x : EStateM ε σ α) (h : ε → EStateM ε σ α) (s : σ) :
    (tryCatch x h).run s = match x.run s with
      | .ok b s' => .ok b s'
      | .error e s' => (h e).run s' := by
  show EStateM.tryCatch x h s = _
  unfold EStateM.tryCatch EStateM.run
  cases x s <;> rfl

theorem tryCatch_eq_ok {x : EStateM ε σ α} {h : ε → EStateM ε σ α} {s t : σ} {a : α} :
    (tryCatch x h).run s = .ok a t ↔
      x.run s = .ok a t ∨ ∃ e s', x.run s = .error e s' ∧ (h e).run s' = .ok a t := by
  rw [run_tryCatch]
  cases x.run s with
  | ok b s' => simp
  | error e s' => simp

theorem raiseIf_eq_error {cond : Bool} {e e' : ε} {s s' : σ} :
    (raiseIf cond e : EStateM ε σ Unit).run s = .error e' s' ↔ cond = true ∧ e' = e ∧ s' = s := by
  cases cond with
  | false =>
    constructor
    · intro h
      cases h
    · intro h
      exact Bool.noConfusion h.1
  | true =>
    constructor
    · intro h
      cases h
      exact ⟨rfl, rfl, rfl⟩
    · rintro ⟨-, rfl, rfl⟩
      rfl

/-- A program returns or raises. -/
theorem ok_or_error (x : EStateM ε σ α) (s : σ) :
    (∃ a s', x.run s = .ok a s') ∨ ∃ e s', x.run s = .error e s' := by
  cases x.run s with
  | ok a s' => exact Or.inl ⟨a, s', rfl⟩
  | error e s' => exact Or.inr ⟨e, s', rfl⟩

/-! ## Checks that change nothing -/

/-- The program leaves the state as it is if it returns. -/
def Reads (x : EStateM ε σ α) : Prop := ∀ s a s', x.run s = .ok a s' → s' = s

/-- The program leaves the state as it is if it raises. -/
def Rollback (x : EStateM ε σ α) : Prop := ∀ s e s', x.run s = .error e s' → s' = s

theorem reads_get : Reads (get : EStateM ε σ σ) := fun _ _ _ h => (get_eq_ok.1 h).2

theorem reads_raiseIf (cond : Bool) (e : ε) : Reads (raiseIf cond e : EStateM ε σ Unit) :=
  fun _ _ _ h => (raiseIf_eq_ok.1 h).2

theorem reads_orRaise (v : Option α) (e : ε) : Reads (orRaise v e : EStateM ε σ α) :=
  fun _ _ _ h => (orRaise_eq_ok.1 h).2

theorem rollback_pure (a : α) : Rollback (pure a : EStateM ε σ α) :=
  fun _ _ _ h => by cases h

theorem rollback_throw (e : ε) : Rollback (throw e : EStateM ε σ α) :=
  fun _ _ _ h => by cases h; rfl

theorem rollback_get : Rollback (get : EStateM ε σ σ) := fun _ _ _ h => by cases h

theorem rollback_set (t : σ) : Rollback (set t : EStateM ε σ PUnit) := fun _ _ _ h => by cases h

theorem rollback_modify (f : σ → σ) : Rollback (modify f : EStateM ε σ PUnit) :=
  fun _ _ _ h => by cases h

theorem rollback_raiseIf (cond : Bool) (e : ε) : Rollback (raiseIf cond e : EStateM ε σ Unit) := by
  cases cond with
  | false => exact rollback_pure ()
  | true => exact rollback_throw e

theorem rollback_orRaise (v : Option α) (e : ε) : Rollback (orRaise v e : EStateM ε σ α) := by
  cases v with
  | none => exact rollback_throw e
  | some a => exact rollback_pure a

/-- A check in front of a program that rolls back. -/
theorem Rollback.bind {x : EStateM ε σ α} {f : α → EStateM ε σ β} (hx : Rollback x)
    (hr : Reads x) (hf : ∀ a, Rollback (f a)) : Rollback (x >>= f) := by
  intro s e t h
  rw [EStateM.run_bind] at h
  cases hx' : x.run s with
  | ok a s' =>
    rw [hx'] at h
    rw [hf a s' e t h, hr s a s' hx']
  | error e' s' =>
    rw [hx'] at h
    cases h
    exact hx s e t hx'

/-- A change behind a program that rolls back, if the change cannot raise. -/
theorem Rollback.bind_ok {x : EStateM ε σ α} {f : α → EStateM ε σ β} (hx : Rollback x)
    (hf : ∀ a s e s', (f a).run s ≠ .error e s') : Rollback (x >>= f) := by
  intro s e t h
  rw [EStateM.run_bind] at h
  cases hx' : x.run s with
  | ok a s' =>
    rw [hx'] at h
    exact absurd h (hf a s' e t)
  | error e' s' =>
    rw [hx'] at h
    cases h
    exact hx s e t hx'

/-! ## Which exceptions -/

/-- Every exception that the program raises from the state `s` has the property. -/
def Throws (P : ε → Prop) (x : EStateM ε σ α) (s : σ) : Prop := ∀ e s', x.run s = .error e s' → P e

theorem Throws.bind {P : ε → Prop} {x : EStateM ε σ α} {f : α → EStateM ε σ β} {s : σ}
    (hx : Throws P x s) (hf : ∀ a s', x.run s = .ok a s' → Throws P (f a) s') :
    Throws P (x >>= f) s := by
  intro e t h
  rcases bind_eq_error.1 h with h | ⟨a, s', hok, h⟩
  · exact hx e t h
  · exact hf a s' hok e t h

theorem throws_pure {P : ε → Prop} (a : α) (s : σ) : Throws P (pure a : EStateM ε σ α) s :=
  fun _ _ h => by cases h

theorem throws_throw {P : ε → Prop} {e : ε} (h : P e) (s : σ) :
    Throws P (throw e : EStateM ε σ α) s :=
  fun _ _ he => by cases he; exact h

theorem throws_get {P : ε → Prop} (s : σ) : Throws P (get : EStateM ε σ σ) s :=
  fun _ _ h => by cases h

theorem throws_set {P : ε → Prop} (t s : σ) : Throws P (set t : EStateM ε σ PUnit) s :=
  fun _ _ h => by cases h

theorem throws_modify {P : ε → Prop} (f : σ → σ) (s : σ) :
    Throws P (modify f : EStateM ε σ PUnit) s :=
  fun _ _ h => by cases h

theorem throws_tryCatch {P : ε → Prop} {x : EStateM ε σ α} {h : ε → EStateM ε σ α} {s : σ}
    (hx : ∀ e s', x.run s = .error e s' → Throws P (h e) s') : Throws P (tryCatch x h) s := by
  intro e t hrun
  rw [run_tryCatch] at hrun
  cases hxs : x.run s with
  | ok b s' => rw [hxs] at hrun; cases hrun
  | error e' s' =>
    rw [hxs] at hrun
    exact hx e' s' hxs e t hrun

theorem throws_orRaise {P : ε → Prop} {v : Option α} {e : ε} (h : v = none → P e) (s : σ) :
    Throws P (orRaise v e : EStateM ε σ α) s := by
  cases v with
  | none => exact throws_throw (h rfl) s
  | some a => exact throws_pure a s

end Program
