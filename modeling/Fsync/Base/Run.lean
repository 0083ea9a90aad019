import Mathlib.Data.List.Infix

/-!
# Runs of a partial step function

A system is given by a step function `step : σ → α → Option σ`: the state after
an action, or `none` where the action is not possible.  This file says what a
run is and packages the inductions every result about runs needs:

* `Reachable.inv`: what holds at the start and is kept by a step holds in every
  reachable state;
* `along_iff_guarded`: if a step keeps a property exactly when a guard holds
  before it, the property holds all along a run if and only if every step of
  the run met its guard;
* `exec_sim`, `exec_refines`, `exec_lockstep`: if a system simulates another one step by
  step, it does so run by run.
-/

namespace Run

variable {σ α : Type*} (step : σ → α → Option σ)

/-! ## Runs and reachable states -/

/-- The state a list of actions ends in, if each of them was possible in turn. -/
def exec : σ → List α → Option σ
  | s, [] => some s
  | s, a :: as => (step s a).bind fun s' => exec s' as

@[simp] theorem exec_nil (s : σ) : exec step s [] = some s := rfl

@[simp] theorem exec_cons (s : σ) (a : α) (as : List α) :
    exec step s (a :: as) = (step s a).bind fun s' => exec step s' as := rfl

theorem exec_append (s : σ) (as bs : List α) :
    exec step s (as ++ bs) = (exec step s as).bind fun s' => exec step s' bs := by
  induction as generalizing s with
  | nil => rfl
  | cons a as ih =>
    rw [List.cons_append, exec_cons, exec_cons]
    cases h : step s a with
    | none => rfl
    | some s' => simpa using ih s'

/-- A state some run from `s₀` ends in. -/
def Reachable (s₀ s : σ) : Prop := ∃ as, exec step s₀ as = some s

variable {step}

theorem Reachable.refl (s₀ : σ) : Reachable step s₀ s₀ := ⟨[], rfl⟩

theorem Reachable.tail {s₀ s s' : σ} {a : α} (h : Reachable step s₀ s) (hs : step s a = some s') :
    Reachable step s₀ s' := by
  obtain ⟨as, has⟩ := h
  exact ⟨as ++ [a], by simp [exec_append, has, hs]⟩

/-- What a step keeps, a run keeps. -/
theorem exec_inv {P : σ → Prop} (hstep : ∀ s a s', P s → step s a = some s' → P s')
    {s s' : σ} {as : List α} (hP : P s) (h : exec step s as = some s') : P s' := by
  induction as generalizing s with
  | nil => rw [exec_nil, Option.some.injEq] at h; exact h ▸ hP
  | cons a as ih =>
    obtain ⟨t, ht, hrest⟩ := Option.bind_eq_some_iff.1 h
    exact ih (hstep s a t hP ht) hrest

/-- **Invariants.**  What holds at the start and is kept by every step holds in
every reachable state. -/
theorem Reachable.inv {P : σ → Prop} {s₀ s : σ} (h : Reachable step s₀ s) (h₀ : P s₀)
    (hstep : ∀ s a s', P s → step s a = some s' → P s') : P s := by
  obtain ⟨as, has⟩ := h
  exact exec_inv hstep h₀ has

/-! ## Properties of every state of a run, guards of every step -/

variable (step)

/-- `P` holds in every state the actions lead through, the first one included.
The run ends where an action is not possible. -/
def Along (P : σ → Prop) : σ → List α → Prop
  | s, [] => P s
  | s, a :: as => P s ∧ ∀ s', step s a = some s' → Along P s' as

/-- Every action that is taken meets the guard `G` in the state before it. -/
def Guarded (G : σ → α → Prop) : σ → List α → Prop
  | _, [] => True
  | s, a :: as => ∀ s', step s a = some s' → G s a ∧ Guarded G s' as

variable {step}

theorem Along.head {P : σ → Prop} {s : σ} {as : List α} (h : Along step P s as) : P s := by
  cases as with
  | nil => exact h
  | cons a as => exact h.1

/-- A run all of whose steps meet the guard keeps the property. -/
theorem along_of_guarded {P : σ → Prop} {G : σ → α → Prop}
    (hkeep : ∀ s a s', P s → G s a → step s a = some s' → P s')
    {s : σ} {as : List α} (hP : P s) (hG : Guarded step G s as) : Along step P s as := by
  induction as generalizing s with
  | nil => exact hP
  | cons a as ih =>
    refine ⟨hP, fun s' hs' => ?_⟩
    obtain ⟨hg, hrest⟩ := hG s' hs'
    exact ih (hkeep s a s' hP hg hs') hrest

/-- A run that keeps the property met the guard at every step. -/
theorem guarded_of_along {P : σ → Prop} {G : σ → α → Prop}
    (hneed : ∀ s a s', P s → step s a = some s' → P s' → G s a)
    {s : σ} {as : List α} (h : Along step P s as) : Guarded step G s as := by
  induction as generalizing s with
  | nil => exact trivial
  | cons a as ih =>
    intro s' hs'
    exact ⟨hneed s a s' h.1 hs' (h.2 s' hs').head, ih (h.2 s' hs')⟩

/-- **Exact guards.**  If, from a state with the property, a step leads to a
state with the property exactly when its guard held, then the property holds
all along a run exactly when every step of the run met its guard. -/
theorem along_iff_guarded {P : σ → Prop} {G : σ → α → Prop}
    (hexact : ∀ s a s', P s → step s a = some s' → (P s' ↔ G s a))
    {s : σ} {as : List α} (hP : P s) : Along step P s as ↔ Guarded step G s as :=
  ⟨guarded_of_along fun s a s' h hs h' => (hexact s a s' h hs).1 h',
    along_of_guarded (fun s a s' h hg hs => (hexact s a s' h hs).2 hg) hP⟩

theorem Along.and {P Q : σ → Prop} {s : σ} {as : List α} (hP : Along step P s as)
    (hQ : Along step Q s as) : Along step (fun s => P s ∧ Q s) s as := by
  induction as generalizing s with
  | nil => exact ⟨hP, hQ⟩
  | cons a as ih => exact ⟨⟨hP.1, hQ.1⟩, fun s' hs' => ih (hP.2 s' hs') (hQ.2 s' hs')⟩

theorem Along.mono {P Q : σ → Prop} (hPQ : ∀ s, P s → Q s) {s : σ} {as : List α}
    (h : Along step P s as) : Along step Q s as := by
  induction as generalizing s with
  | nil => exact hPQ s h
  | cons a as ih => exact ⟨hPQ s h.1, fun s' hs' => ih (h.2 s' hs')⟩

/-- What every step keeps holds all along every run. -/
theorem along_of_inv {I : σ → Prop} (hstep : ∀ s a s', I s → step s a = some s' → I s')
    {s : σ} {as : List α} (hI : I s) : Along step I s as := by
  induction as generalizing s with
  | nil => exact hI
  | cons a as ih => exact ⟨hI, fun s' hs' => ih (hstep s a s' hI hs')⟩

/-- Exact guards, where they are exact in states of an invariant `I`. -/
theorem along_iff_guarded_of_inv {I P : σ → Prop} {G : σ → α → Prop}
    (hstep : ∀ s a s', I s → step s a = some s' → I s')
    (hexact : ∀ s a s', I s → P s → step s a = some s' → (P s' ↔ G s a))
    {s : σ} {as : List α} (hI : I s) (hP : P s) : Along step P s as ↔ Guarded step G s as := by
  have hIP : Along step (fun s => I s ∧ P s) s as ↔ Guarded step G s as :=
    along_iff_guarded (fun s a s' h hs =>
      ⟨fun h' => (hexact s a s' h.1 h.2 hs).1 h'.2,
        fun hg => ⟨hstep s a s' h.1 hs, (hexact s a s' h.1 h.2 hs).2 hg⟩⟩) ⟨hI, hP⟩
  exact ⟨fun h => hIP.1 ((along_of_inv hstep hI).and h), fun h => (hIP.2 h).mono fun _ h => h.2⟩

/-! ## What every step does -/

variable (step) in
/-- Every step that is taken is related by `R`. -/
def Steps (R : σ → σ → Prop) : σ → List α → Prop
  | _, [] => True
  | s, a :: as => ∀ s', step s a = some s' → R s s' ∧ Steps R s' as

/-- Guards that agree in states of an invariant hold along the same runs. -/
theorem guarded_iff_guarded {I : σ → Prop} {G H : σ → α → Prop}
    (hstep : ∀ s a s', I s → step s a = some s' → I s')
    (hexact : ∀ s a s', I s → step s a = some s' → (G s a ↔ H s a))
    {s : σ} {as : List α} (hI : I s) : Guarded step G s as ↔ Guarded step H s as := by
  induction as generalizing s with
  | nil => exact Iff.rfl
  | cons a as ih =>
    refine forall_congr' fun s' => forall_congr' fun hs' => ?_
    exact and_congr (hexact s a s' hI hs') (ih (hstep s a s' hI hs'))

/-- If, in states of an invariant, a step does as `R` says exactly when its guard
held, then every step of a run does so exactly when every one met its guard. -/
theorem steps_iff_guarded {I : σ → Prop} {R : σ → σ → Prop} {G : σ → α → Prop}
    (hstep : ∀ s a s', I s → step s a = some s' → I s')
    (hexact : ∀ s a s', I s → step s a = some s' → (R s s' ↔ G s a))
    {s : σ} {as : List α} (hI : I s) : Steps step R s as ↔ Guarded step G s as := by
  induction as generalizing s with
  | nil => exact Iff.rfl
  | cons a as ih =>
    constructor
    · intro h s' hs'
      obtain ⟨hR, hrest⟩ := h s' hs'
      exact ⟨(hexact s a s' hI hs').1 hR, (ih (hstep s a s' hI hs')).1 hrest⟩
    · intro h s' hs'
      obtain ⟨hG, hrest⟩ := h s' hs'
      exact ⟨(hexact s a s' hI hs').2 hG, (ih (hstep s a s' hI hs')).2 hrest⟩

/-- A guard that keeps an invariant implies every guard that it implies in states of
the invariant. -/
theorem Guarded.imp {I : σ → Prop} {G G' : σ → α → Prop}
    (hkeep : ∀ s a s', I s → G s a → step s a = some s' → I s' ∧ G' s a)
    {s : σ} {as : List α} (hI : I s) (h : Guarded step G s as) : Guarded step G' s as := by
  induction as generalizing s with
  | nil => exact trivial
  | cons a as ih =>
    intro s' hs'
    obtain ⟨hG, hrest⟩ := h s' hs'
    obtain ⟨hI', hG'⟩ := hkeep s a s' hI hG hs'
    exact ⟨hG', ih hI' hrest⟩

/-! ## Runs of two systems -/

/-- **Simulation.**  If each step of the first system is matched by a step of the
second one, so is each run. -/
theorem exec_sim {τ β : Type*} {step' : τ → β → Option τ} {R : σ → τ → Prop} (g : α → β)
    (hsim : ∀ s t a s', R s t → step s a = some s' → ∃ t', step' t (g a) = some t' ∧ R s' t')
    {s s' : σ} {t : τ} {as : List α} (hR : R s t) (h : exec step s as = some s') :
    ∃ t', exec step' t (as.map g) = some t' ∧ R s' t' := by
  induction as generalizing s t with
  | nil =>
    rw [exec_nil, Option.some.injEq] at h
    exact ⟨t, rfl, h ▸ hR⟩
  | cons a as ih =>
    obtain ⟨u, hu, hrest⟩ := Option.bind_eq_some_iff.1 h
    obtain ⟨v, hv, hR'⟩ := hsim s t a u hR hu
    obtain ⟨t', ht', hR''⟩ := ih hR' hrest
    exact ⟨t', by rw [List.map_cons, exec_cons, hv]; exact ht', hR''⟩

/-- **Lockstep.**  If two systems can always take the same steps, one of them has a run
exactly if the other one does, and the runs end alike. -/
theorem exec_lockstep {τ β : Type*} {step' : τ → β → Option τ} {R : σ → τ → Prop} (g : α → β)
    (hstep : ∀ s t a, R s t → step s a = none ∧ step' t (g a) = none ∨
      ∃ s' t', step s a = some s' ∧ step' t (g a) = some t' ∧ R s' t')
    {s : σ} {t : τ} (hR : R s t) (as : List α) :
    exec step s as = none ∧ exec step' t (as.map g) = none ∨
      ∃ s' t', exec step s as = some s' ∧ exec step' t (as.map g) = some t' ∧ R s' t' := by
  induction as generalizing s t with
  | nil => exact Or.inr ⟨s, t, rfl, rfl, hR⟩
  | cons a as ih =>
    rw [List.map_cons, exec_cons, exec_cons]
    rcases hstep s t a hR with ⟨hs, ht⟩ | ⟨s', t', hs, ht, hR'⟩
    · rw [hs, ht]
      exact Or.inl ⟨rfl, rfl⟩
    · rw [hs, ht]
      exact ih hR'

/-- **Refinement.**  If each step of some kind of the first system is matched by some steps
of the second one, so is each run of such steps. -/
theorem exec_refines {τ β : Type*} {step' : τ → β → Option τ} {R : σ → τ → Prop} {G : α → Prop}
    (hsim : ∀ s t a s', G a → R s t → step s a = some s' →
      ∃ bs t', exec step' t bs = some t' ∧ R s' t') {s s' : σ} {t : τ} {as : List α}
    (hG : ∀ a ∈ as, G a) (hR : R s t) (h : exec step s as = some s') :
    ∃ bs t', exec step' t bs = some t' ∧ R s' t' := by
  induction as generalizing s t with
  | nil =>
    rw [exec_nil, Option.some.injEq] at h
    exact ⟨[], t, rfl, h ▸ hR⟩
  | cons a as ih =>
    obtain ⟨u, hu, hrest⟩ := Option.bind_eq_some_iff.1 h
    obtain ⟨bs, v, hv, hR'⟩ := hsim s t a u (hG a List.mem_cons_self) hR hu
    obtain ⟨cs, t', ht', hR''⟩ := ih (fun b hb => hG b (List.mem_cons_of_mem a hb)) hR' hrest
    exact ⟨bs ++ cs, t', by rw [exec_append, hv]; exact ht', hR''⟩

end Run
