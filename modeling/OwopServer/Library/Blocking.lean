import Mathlib

/-!
# Runs that may block

A system whose events may be blocked in some of its states.  An invariant that each step keeps
holds after every run, and a run whose steps all make a measure smaller is no longer than the
measure was.  The threads of a system are a list, in which a step of one thread sets one entry.
-/

namespace Blocking

variable {σ ε : Type*} {step : σ → ε → Option σ}

/-- The state after a run of events, unless one of them is blocked. -/
def run (step : σ → ε → Option σ) (s : σ) (events : List ε) : Option σ := events.foldlM step s

/-- No event. -/
theorem run_nil (s : σ) :
  run step s [] = some s
  := rfl

/-- The first event, and then the others. -/
theorem run_cons {s s' : σ} {e : ε} {events : List ε} :
  run step s (e :: events) = some s' ↔ ∃ t, step s e = some t ∧ run step t events = some s'
  := by
  rw [run, List.foldlM_cons]
  exact Option.bind_eq_some_iff

/-- Events one after another. -/
theorem run_append {s s' : σ} {before after : List ε} :
  run step s (before ++ after) = some s' ↔
    ∃ t, run step s before = some t ∧ run step t after = some s'
  := by
  rw [run, List.foldlM_append]
  exact Option.bind_eq_some_iff

/-- What the steps of a run put out, one after the other. -/
def outputs {α : Type*} (step : σ → ε → Option σ) (out : σ → ε → Option α) : σ → List ε → List α
  | _, [] => []
  | s, e :: events =>
      (out s e).toList ++ match step s e with
        | some t => outputs step out t events
        | none => []

/-- The output of the first event comes first. -/
theorem outputs_cons {α : Type*} {out : σ → ε → Option α} {s t : σ} {e : ε} (events : List ε)
    (hstep : step s e = some t) :
  outputs step out s (e :: events) = (out s e).toList ++ outputs step out t events
  := by
  rw [outputs, hstep]

/-- An invariant that each step keeps is kept by a run. -/
theorem run_keep {P : σ → Prop} (hkeep : ∀ {s e s'}, P s → step s e = some s' → P s') {s s' : σ}
    {events : List ε} (hs : P s) (h : run step s events = some s') :
  P s'
  := by
  induction events generalizing s with
  | nil =>
      obtain rfl := Option.some.inj h
      exact hs
  | cons e events ih =>
      obtain ⟨t, hstep, hrest⟩ := run_cons.mp h
      exact ih (hkeep hs hstep) hrest

/-- An invariant that the steps of some events keep is kept by a run of such events. -/
theorem run_keep_of {P : σ → Prop} {C : ε → Prop}
    (hkeep : ∀ {s e s'}, P s → C e → step s e = some s' → P s') {s s' : σ} {events : List ε}
    (hs : P s) (hevents : ∀ e ∈ events, C e) (h : run step s events = some s') :
  P s'
  := by
  induction events generalizing s with
  | nil =>
      obtain rfl := Option.some.inj h
      exact hs
  | cons e events ih =>
      obtain ⟨he, hevents⟩ := List.forall_mem_cons.mp hevents
      obtain ⟨t, hstep, hrest⟩ := run_cons.mp h
      exact ih (hkeep hs he hstep) hevents hrest

/-- A run of events that all make a measure smaller ends. -/
theorem length_le_of_run {μ : σ → ℕ} {C : ε → Prop}
    (hless : ∀ {s e s'}, C e → step s e = some s' → μ s' < μ s) {s s' : σ} {events : List ε}
    (hevents : ∀ e ∈ events, C e) (h : run step s events = some s') :
  events.length + μ s' ≤ μ s
  := by
  induction events generalizing s with
  | nil =>
      obtain rfl := Option.some.inj h
      exact Nat.le_of_eq (Nat.zero_add _)
  | cons e events ih =>
      obtain ⟨he, hevents⟩ := List.forall_mem_cons.mp hevents
      obtain ⟨t, hstep, hrest⟩ := run_cons.mp h
      have hfirst := hless he hstep
      have hlater := ih hevents hrest
      rw [List.length_cons]
      omega

/-! ### Threads -/

variable {α : Type*}

/-- What a sum over the threads becomes when one of them is set. -/
theorem sum_map_set (f : α → ℕ) {l : List α} {i : ℕ} {a : α} (h : l[i]? = some a) (b : α) :
  ((l.set i b).map f).sum + f a = (l.map f).sum + f b
  := by
  induction l generalizing i with
  | nil => cases h
  | cons c l ih =>
      cases i with
      | zero =>
          obtain rfl := Option.some.inj h
          rw [List.set_cons_zero, List.map_cons, List.map_cons, List.sum_cons, List.sum_cons]
          omega
      | succ i =>
          have hrest := ih h
          rw [List.set_cons_succ, List.map_cons, List.map_cons, List.sum_cons, List.sum_cons]
          omega

/-- The part of one thread in a sum over the threads. -/
theorem le_sum_map (f : α → ℕ) {l : List α} {i : ℕ} {a : α} (h : l[i]? = some a) :
  f a ≤ (l.map f).sum
  := List.single_le_sum (fun _ _ => Nat.zero_le _) _
    (List.mem_map_of_mem (List.mem_of_getElem? h))

/-- What the first entry gives comes first. -/
theorem filterMap_cons_toList {β : Type*} (f : α → Option β) (a : α) (l : List α) :
  (a :: l).filterMap f = (f a).toList ++ l.filterMap f
  := by
  rw [List.filterMap_cons]
  cases f a with
  | none => rfl
  | some b => rfl

/-- What the threads give, when one of them is set. -/
theorem filterMap_set_perm {β : Type*} (f : α → Option β) {l : List α} {i : ℕ} {a : α}
    (h : l[i]? = some a) (b : α) :
  ((l.set i b).filterMap f ++ (f a).toList).Perm (l.filterMap f ++ (f b).toList)
  := by
  induction l generalizing i with
  | nil => cases h
  | cons c l ih =>
      rw [filterMap_cons_toList]
      cases i with
      | zero =>
          obtain rfl := Option.some.inj h
          rw [List.set_cons_zero, filterMap_cons_toList, List.append_assoc, List.append_assoc]
          have hturn : ((f b).toList ++ l.filterMap f).Perm (l.filterMap f ++ (f b).toList) :=
            List.perm_append_comm
          have hfront : ((f b).toList ++ (l.filterMap f ++ (f c).toList)).Perm
              ((f c).toList ++ ((f b).toList ++ l.filterMap f)) := by
            rw [← List.append_assoc]
            exact List.perm_append_comm
          exact hfront.trans (hturn.append_left _)
      | succ i =>
          rw [List.set_cons_succ, filterMap_cons_toList, List.append_assoc, List.append_assoc]
          exact (ih h).append_left _

/-- What the threads give, when one of them is set and gives more than before. -/
theorem filterMap_set_more {β : Type*} (f : α → Option β) {l : List α} {i : ℕ} {a b : α}
    (h : l[i]? = some a) {more : List β} (hmore : (f b).toList = (f a).toList ++ more) :
  ((l.set i b).filterMap f).Perm (l.filterMap f ++ more)
  := by
  have hset := filterMap_set_perm f h b
  have hturn : (l.filterMap f ++ ((f a).toList ++ more)).Perm
      (l.filterMap f ++ more ++ (f a).toList) := by
    rw [List.append_assoc]
    exact List.perm_append_comm.append_left _
  rw [hmore] at hset
  exact (List.perm_append_right_iff _).mp (hset.trans hturn)

end Blocking
