import Mathlib.Data.List.Infix
import Mathlib.Data.List.Nodup
import Mathlib.Tactic.Common

/-!
# Streams of parts

A message is a list of parts in which every part but the last is marked: another one
follows.  A queue holds the parts of whole messages, perhaps without the first parts of
its first message, which were read already.  A history is a list of messages with the
key of the peer each belongs to.

* `terminated_append`: a queue is terminated once a whole message was put behind it, and
  stays so when a part is read (`Terminated.rest`);
* `prefix_of_flatten`: two lists of whole messages with the same parts, up to some, are
  the same up to some.
-/

namespace Streams

variable {α κ : Type*} (more : α → Bool)

/-! ## Whole messages -/

/-- The last part is not marked, and the others are. -/
def whole : List α → Bool
  | [] => false
  | a :: as => if more a then whole as else as.isEmpty

/-- The last part, if there is one, is not marked. -/
def Terminated (as : List α) : Prop := ∀ a ∈ as.getLast?, more a = false

variable {more}

theorem whole_append {as : List α} (has : ∀ a ∈ as, more a = true) {a : α}
    (ha : more a = false) : whole more (as ++ [a]) = true := by
  induction as with
  | nil => simp [whole, ha]
  | cons b as ih =>
    rw [List.cons_append, whole, if_pos (has b List.mem_cons_self)]
    exact ih fun c hc => has c (List.mem_cons_of_mem b hc)

theorem whole_map {f : α → α} (hf : ∀ a, more (f a) = more a) (as : List α) :
    whole more (as.map f) = whole more as := by
  induction as with
  | nil => rfl
  | cons a as ih => simp [whole, hf, ih]

/-- In a whole message, a part that is not marked is the last one. -/
theorem whole_append_cons {as bs : List α} {b : α} (h : whole more (as ++ b :: bs) = true) :
    more b = false → bs = [] := by
  induction as with
  | nil =>
    intro hb
    rw [List.nil_append, whole, if_neg (by simp [hb]), List.isEmpty_iff] at h
    exact h
  | cons a as ih =>
    rw [List.cons_append, whole] at h
    split at h
    · exact ih h
    · simp at h

theorem ne_nil_of_whole {as : List α} (h : whole more as = true) : as ≠ [] := by
  rintro rfl
  cases h

theorem terminated_nil : Terminated more [] := by simp [Terminated]

theorem terminated_of_whole {as : List α} (h : whole more as = true) : Terminated more as := by
  induction as with
  | nil => exact terminated_nil
  | cons a as ih =>
    rw [whole] at h
    split at h
    · have hne : as ≠ [] := ne_nil_of_whole h
      intro b hb
      rw [List.getLast?_cons_of_ne_nil hne] at hb
      exact ih h b hb
    · rename_i ha
      rw [List.isEmpty_iff] at h
      subst h
      simpa [Terminated] using ha

theorem terminated_append (as : List α) {bs : List α} (hbs : whole more bs = true) :
    Terminated more (as ++ bs) := by
  have hne : bs ≠ [] := ne_nil_of_whole hbs
  intro a ha
  rw [List.getLast?_append_of_ne_nil as hne] at ha
  exact terminated_of_whole hbs a ha

/-- What is left of a queue is terminated. -/
theorem Terminated.rest {a : α} {as : List α} (h : Terminated more (a :: as)) :
    Terminated more as := by
  intro b hb
  cases as with
  | nil => simp at hb
  | cons c as =>
    refine h b ?_
    rwa [List.getLast?_cons_cons]

theorem Terminated.suffix {as bs : List α} (h : Terminated more (as ++ bs)) :
    Terminated more bs := by
  induction as with
  | nil => exact h
  | cons a as ih => exact ih h.rest

/-- Behind a marked part there is another one. -/
theorem Terminated.rest_ne_nil {a : α} {as : List α} (h : Terminated more (a :: as))
    (ha : more a = true) : as ≠ [] := by
  rintro rfl
  have hlast := h a (by simp)
  rw [ha] at hlast
  cases hlast

/-- A queue that is terminated, and begins with a message, is a list of messages. -/
theorem Terminated.exists_wholes {as : List α} (h : Terminated more as) :
    ∃ ms : List (List α), (∀ m ∈ ms, whole more m = true) ∧ ms.flatten = as := by
  induction as with
  | nil => exact ⟨[], by simp, rfl⟩
  | cons a as ih =>
    obtain ⟨ms, hms, hflat⟩ := ih h.rest
    cases ha : more a with
    | false =>
      refine ⟨[a] :: ms, fun m hm => ?_, by rw [List.flatten_cons, hflat]; rfl⟩
      rcases List.mem_cons.1 hm with rfl | hm
      · simp [whole, ha]
      · exact hms m hm
    | true =>
      cases ms with
      | nil => exact absurd hflat.symm (h.rest_ne_nil ha)
      | cons m ms =>
        refine ⟨(a :: m) :: ms, fun m' hm' => ?_, by rw [← hflat]; rfl⟩
        rcases List.mem_cons.1 hm' with rfl | hm'
        · rw [whole, if_pos ha]
          exact hms m List.mem_cons_self
        · exact hms m' (List.mem_cons_of_mem m hm')

/-- The first message of a list of whole messages is the first part and those behind it. -/
theorem eq_of_append_whole {as bs cs ds : List α} (has : whole more as = true)
    (hbs : whole more bs = true) (h : as ++ cs = bs ++ ds) : as = bs ∧ cs = ds := by
  induction as generalizing bs with
  | nil => cases has
  | cons a as ih =>
    cases bs with
    | nil => cases hbs
    | cons b bs =>
      rw [List.cons_append, List.cons_append, List.cons.injEq] at h
      obtain ⟨rfl, h⟩ := h
      rw [whole] at has hbs
      split at has
      · rename_i ha
        rw [if_pos ha] at hbs
        obtain ⟨rfl, hcd⟩ := ih has hbs h
        exact ⟨rfl, hcd⟩
      · rename_i ha
        rw [if_neg ha] at hbs
        rw [List.isEmpty_iff] at has hbs
        subst has hbs
        exact ⟨rfl, h⟩

/-- **Messages are read as they were sent.** -/
theorem prefix_of_flatten {ms ns : List (List α)} {rest : List α}
    (hms : ∀ m ∈ ms, whole more m = true) (hns : ∀ n ∈ ns, whole more n = true)
    (h : ms.flatten ++ rest = ns.flatten) : ∃ os, ns = ms ++ os ∧ rest = os.flatten := by
  induction ms generalizing ns with
  | nil => exact ⟨ns, rfl, h⟩
  | cons m ms ih =>
    have hm := hms m List.mem_cons_self
    cases ns with
    | nil =>
      have hnil : m = [] := by
        rw [List.flatten_cons, List.flatten_nil, List.append_assoc, List.append_eq_nil_iff] at h
        exact h.1
      exact absurd hnil (ne_nil_of_whole hm)
    | cons n ns =>
      rw [List.flatten_cons, List.flatten_cons, List.append_assoc] at h
      obtain ⟨rfl, hrest⟩ := eq_of_append_whole hm (hns n List.mem_cons_self) h
      obtain ⟨os, rfl, hos⟩ := ih (fun x hx => hms x (List.mem_cons_of_mem m hx))
        (fun x hx => hns x (List.mem_cons_of_mem m hx)) hrest
      exact ⟨os, rfl, hos⟩

/-- Messages that are put together from their parts: the whole ones, and the parts of the
next one. -/
structure Assembled (α : Type*) where
  whole : List (List α)
  parts : List α

namespace Assembled

/-- Nothing was put in yet. -/
def empty : Assembled α := ⟨[], []⟩

variable (more) in
/-- Another part. -/
def push (a : α) (m : Assembled α) : Assembled α :=
  if more a then { m with parts := m.parts ++ [a] } else ⟨m.whole ++ [m.parts ++ [a]], []⟩

theorem push_more {a : α} (h : more a = true) (m : Assembled α) :
    m.push more a = ⟨m.whole, m.parts ++ [a]⟩ := if_pos h

theorem push_last {a : α} (h : more a = false) (m : Assembled α) :
    m.push more a = ⟨m.whole ++ [m.parts ++ [a]], []⟩ := if_neg (by simp [h])

end Assembled

/-! ## Histories -/

variable [DecidableEq κ]

/-- The messages of a peer in a history. -/
def ofKey (k : κ) (history : List (κ × List α)) : List (List α) :=
  (history.filter fun e => e.1 = k).map Prod.snd

@[simp] theorem ofKey_nil (k : κ) : ofKey k ([] : List (κ × List α)) = [] := rfl

@[simp] theorem ofKey_append (k : κ) (h₁ h₂ : List (κ × List α)) :
    ofKey k (h₁ ++ h₂) = ofKey k h₁ ++ ofKey k h₂ := by
  simp [ofKey]

@[simp] theorem ofKey_self (k : κ) (as : List α) : ofKey k [(k, as)] = [as] := by
  simp [ofKey]

theorem ofKey_of_ne {k k' : κ} (h : k' ≠ k) (as : List α) : ofKey k [(k', as)] = [] := by
  simp [ofKey, h]

theorem ofKey_of_forall_ne {k : κ} {history : List (κ × List α)} (h : ∀ e ∈ history, e.1 ≠ k) :
    ofKey k history = [] := by
  rw [ofKey, List.filter_eq_nil_iff.2 (by simpa using h), List.map_nil]

/-- Messages of one peer are added. -/
theorem ofKey_append_map (k k' : κ) (history : List (κ × List α)) (new : List (List α)) :
    ofKey k (history ++ new.map fun m => (k', m)) =
      ofKey k history ++ if k = k' then new else [] := by
  rw [ofKey_append]
  by_cases hk : k = k'
  · subst hk
    simp [ofKey, List.filter_map, Function.comp_def]
  · have hnone : ofKey k (new.map fun m => (k', m)) = [] :=
      ofKey_of_forall_ne (by simpa using fun _ _ => Ne.symm hk)
    rw [if_neg hk, hnone]

end Streams
