import Mathlib.Data.List.Basic

/-!
# Runs

A deterministic system takes events one after the other.  A condition on its states may hold
always, that is, before and after every event of a run, and a condition on an event and the
state that meets it may hold along a run.  An invariant that each step keeps, provided that the
step meets a condition, always holds in a run along which the condition holds.
-/

namespace Runs

variable {σ ε : Type*} (step : σ → ε → σ)

/-- The state after a run of events. -/
def run (s : σ) (events : List ε) : σ := events.foldl step s

/-- The condition holds of the start, of the end and of each state between them. -/
def Always (P : σ → Prop) (s : σ) (events : List ε) : Prop :=
  ∀ before after, events = before ++ after → P (run step s before)

/-- The condition holds of each event and the state that meets it. -/
def Along (C : σ → ε → Prop) (s : σ) (events : List ε) : Prop :=
  ∀ before e after, events = before ++ e :: after → C (run step s before) e

/-- No event. -/
@[simp]
theorem run_nil (s : σ) :
  run step s [] = s
  := rfl

/-- The first event, and then the others. -/
@[simp]
theorem run_cons (s : σ) (e : ε) (events : List ε) :
  run step s (e :: events) = run step (step s e) events
  := rfl

/-- The last event, after the others. -/
theorem run_concat (s : σ) (events : List ε) (e : ε) :
  run step s (events ++ [e]) = step (run step s events) e
  := List.foldl_concat step s e events

/-- Events one after another. -/
theorem run_append (s : σ) (before after : List ε) :
  run step s (before ++ after) = run step (run step s before) after
  := List.foldl_append

variable {step} {P Q : σ → Prop} {C : σ → ε → Prop} {s : σ}

/-- With no event there is one state. -/
theorem always_nil :
  Always step P s [] ↔ P s
  := by
  constructor
  · intro h
    exact h [] [] rfl
  · intro h before after heq
    obtain ⟨rfl, -⟩ := List.append_eq_nil_iff.mp heq.symm
    exact h

/-- In the state at the start, and in those after the first event. -/
theorem always_cons {e : ε} {events : List ε} :
  Always step P s (e :: events) ↔ P s ∧ Always step P (step s e) events
  := by
  constructor
  · intro h
    constructor
    · exact h [] (e :: events) rfl
    · intro before after heq
      exact h (e :: before) after (by rw [heq, List.cons_append])
  · rintro ⟨hfirst, hrest⟩ before after heq
    cases before with
    | nil => exact hfirst
    | cons e' before =>
        obtain ⟨rfl, htail⟩ := List.cons.inj heq
        exact hrest before after htail

/-- With no event there is no condition. -/
theorem along_nil :
  Along step C s []
  := by
  intro before e after heq
  simp at heq

/-- The first event meets the condition, and the others after it. -/
theorem along_cons {e : ε} {events : List ε} :
  Along step C s (e :: events) ↔ C s e ∧ Along step C (step s e) events
  := by
  constructor
  · intro h
    constructor
    · exact h [] e events rfl
    · intro before e' after heq
      exact h (e :: before) e' after (by rw [heq, List.cons_append])
  · rintro ⟨hfirst, hrest⟩ before e' after heq
    cases before with
    | nil =>
        obtain ⟨rfl, -⟩ := List.cons.inj heq
        exact hfirst
    | cons e'' before =>
        obtain ⟨rfl, htail⟩ := List.cons.inj heq
        exact hrest before e' after htail

instance decidableAlong [∀ s e, Decidable (C s e)] :
    ∀ (s : σ) (events : List ε), Decidable (Along step C s events)
  | _, [] => isTrue along_nil
  | s, e :: events =>
      have := decidableAlong (step s e) events
      decidable_of_iff (C s e ∧ Along step C (step s e) events) along_cons.symm

/-- A condition along a run holds along its parts. -/
theorem along_append {before after : List ε} :
  Along step C s (before ++ after) ↔ Along step C s before ∧ Along step C (run step s before) after
  := by
  induction before generalizing s with
  | nil => exact ⟨fun h => ⟨along_nil, h⟩, fun h => h.2⟩
  | cons e before ih => rw [List.cons_append, along_cons, along_cons, ih, run_cons, and_assoc]

/-- What always holds, holds at the end. -/
theorem Always.last {events : List ε} (h : Always step P s events) :
  P (run step s events)
  := h events [] (List.append_nil events).symm

/-- A condition that follows from one that always holds, always holds. -/
theorem Always.mono {events : List ε} (h : Always step P s events) (hPQ : ∀ s, P s → Q s) :
  Always step Q s events
  := fun before after heq => hPQ _ (h before after heq)

/-- An invariant kept by each step that meets the condition always holds. -/
theorem Along.always {events : List ε} (h : Along step C s events) (hs : P s)
    (hstep : ∀ s e, P s → C s e → P (step s e)) :
  Always step P s events
  := by
  induction events generalizing s with
  | nil => exact always_nil.mpr hs
  | cons e events ih =>
      obtain ⟨hfirst, hrest⟩ := along_cons.mp h
      exact always_cons.mpr ⟨hs, ih hrest (hstep s e hs hfirst)⟩

/-- Conditions that agree in the states of an invariant agree along a run. -/
theorem along_congr {C' : σ → ε → Prop} {I : σ → Prop} (hs : I s)
    (hkeep : ∀ s e, I s → I (step s e)) (hC : ∀ s e, I s → (C s e ↔ C' s e)) (events : List ε) :
  Along step C s events ↔ Along step C' s events
  := by
  induction events generalizing s with
  | nil => exact ⟨fun _ => along_nil, fun _ => along_nil⟩
  | cons e events ih => rw [along_cons, along_cons, hC s e hs, ih (hkeep s e hs)]

/-- A condition always holds exactly in the runs whose steps all meet another one, when such steps
keep an invariant that implies the first and no other step does. -/
theorem always_iff_along {I : σ → Prop} (hs : I s) (hI : ∀ s, I s → P s)
    (hkeep : ∀ s e, I s → C s e → I (step s e))
    (hbreak : ∀ s e, I s → ¬ C s e → ¬ P (step s e)) (events : List ε) :
  Always step P s events ↔ Along step C s events
  := by
  induction events generalizing s with
  | nil => exact ⟨fun _ => along_nil, fun _ => always_nil.mpr (hI s hs)⟩
  | cons e events ih =>
      rw [always_cons, along_cons]
      constructor
      · rintro ⟨-, hrest⟩
        have hC : C s e := by
          by_contra hC
          exact hbreak s e hs hC (hrest [] events rfl)
        exact ⟨hC, (ih (hkeep s e hs hC)).mp hrest⟩
      · rintro ⟨hC, hrest⟩
        exact ⟨hI s hs, (ih (hkeep s e hs hC)).mpr hrest⟩

end Runs
