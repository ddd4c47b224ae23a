import Mathlib.Logic.Function.Iterate
import OwopServer.Library.Runs

/-!
# The task buffer

The class `TaskBuffer` of `TaskBuffer.cpp`.  Tasks are queued at the end of a vector.  A pass of
`executeTasks` goes from the start of the vector to the end that it looked up when it began, and
then clears the vector.  Tasks may be queued while a pass is on, by a task that runs or by others.
-/

universe u

namespace Owop

/-- A pass of `executeTasks` that is on: where its iterator is, the end that was looked up, and
whether the vector still has the memory that both point to. -/
structure Pass where
  next : ℕ
  stop : ℕ
  valid : Bool

/-- `TaskBuffer`, with the capacity of its vector and the pass that is on.  The last three
components are history: the tasks that were queued, those that ran, and whether memory that the
vector had given back was read. -/
structure TaskBuffer (α : Type u) where
  taskbuf : List α
  capacity : ℕ
  pass : Option Pass
  queued : List α
  ran : List α
  misused : Bool

/-- What happens to a task buffer. -/
inductive TaskEvent (α : Type u) where
  | queueTask (task : α)
  /-- A pass begins, if none is on. -/
  | executeTasks
  /-- The loop of the pass that is on takes its next turn, or ends. -/
  | proceed

namespace TaskBuffer

variable {α : Type u}

/-- The constructor `TaskBuffer::TaskBuffer`. -/
def new : TaskBuffer α := ⟨[], 0, none, [], [], false⟩

/-- `TaskBuffer::queueTask`.  A vector that is full moves to other memory, `grow` beyond what it
needs. -/
def queueTask (grow : ℕ → ℕ) (b : TaskBuffer α) (task : α) : TaskBuffer α :=
  let fits : Bool := b.taskbuf.length < b.capacity
  { b with
    taskbuf := b.taskbuf ++ [task]
    capacity := if fits then b.capacity else b.taskbuf.length + 1 + grow b.taskbuf.length
    pass := b.pass.map fun p => { p with valid := p.valid && fits }
    queued := b.queued ++ [task] }

/-- The start of `TaskBuffer::executeTasks`. -/
def executeTasks (b : TaskBuffer α) : TaskBuffer α :=
  match b.pass with
  | some _ => b
  | none => { b with pass := some ⟨0, b.taskbuf.length, true⟩ }

/-- The next turn of the loop of `executeTasks`, or its end. -/
def proceed (b : TaskBuffer α) : TaskBuffer α :=
  match b.pass with
  | none => b
  | some p =>
      if p.next = p.stop then { b with taskbuf := [], pass := none }
      else
        let pass := some { p with next := p.next + 1 }
        if p.valid then { b with ran := b.ran ++ b.taskbuf[p.next]?.toList, pass := pass }
        else { b with misused := true, pass := pass }

/-- The task buffer after an event. -/
def step (grow : ℕ → ℕ) (b : TaskBuffer α) : TaskEvent α → TaskBuffer α
  | .queueTask task => b.queueTask grow task
  | .executeTasks => b.executeTasks
  | .proceed => b.proceed

/-- The task buffer when the pass that is on has ended. -/
def finish (b : TaskBuffer α) : TaskBuffer α :=
  match b.pass with
  | none => b
  | some p => proceed^[p.stop - p.next + 1] b

/-- The task buffer when the pass that is on has ended, and one more. -/
def served (b : TaskBuffer α) : TaskBuffer α := b.finish.executeTasks.finish

/-- The tasks that ran are the first of those that were queued, each once and in their order, and
the others run in the same way by the end of the next pass. -/
structure Serves (b : TaskBuffer α) : Prop where
  ran : b.ran <+: b.queued
  served : b.served.ran = b.queued
  safe : b.served.misused = false

/-- No task is queued while a pass is on. -/
def Apart (b : TaskBuffer α) (e : TaskEvent α) : Prop := ∀ task, e = .queueTask task → b.pass = none

/-! ### One pass -/

/-- The tasks in the vector that have not run. -/
def waiting (b : TaskBuffer α) : List α := b.taskbuf.drop (b.pass.elim 0 Pass.next)

/-- While no task was queued during a pass: what was queued has run or waits, and the pass goes to
the end of the vector. -/
structure Kept (b : TaskBuffer α) : Prop where
  queued : b.ran ++ b.waiting = b.queued
  pass : ∀ p, b.pass = some p → p.next ≤ p.stop ∧ p.stop = b.taskbuf.length ∧ p.valid = true
  safe : b.misused = false

variable {grow : ℕ → ℕ} {b : TaskBuffer α}

/-- At the start nothing is missing. -/
theorem kept_new :
  (new : TaskBuffer α).Kept
  := by
  constructor
  case queued => rfl
  case pass =>
    intro p hp
    cases hp
  case safe => rfl

/-- A task that is queued between passes waits. -/
theorem Kept.queueTask (h : b.Kept) (hpass : b.pass = none) (task : α) :
  (b.queueTask grow task).Kept
  := by
  have hqueued := h.queued
  rw [waiting, hpass] at hqueued
  constructor
  case queued =>
    rw [waiting, TaskBuffer.queueTask]
    dsimp only
    rw [hpass, ← hqueued]
    simp
  case pass =>
    intro p hp
    rw [TaskBuffer.queueTask, hpass] at hp
    cases hp
  case safe => exact h.safe

/-- A pass that starts. -/
theorem Kept.executeTasks (h : b.Kept) :
  b.executeTasks.Kept
  := by
  rw [TaskBuffer.executeTasks]
  split
  case h_1 => exact h
  case h_2 hpass =>
    have hqueued := h.queued
    rw [waiting, hpass] at hqueued
    constructor
    case queued => exact hqueued
    case pass =>
      rintro p ⟨⟩
      exact ⟨Nat.zero_le _, rfl, rfl⟩
    case safe => exact h.safe

/-- A turn runs the first task that waits; when none is left, nothing is lost. -/
theorem Kept.proceed (h : b.Kept) :
  b.proceed.Kept
  := by
  rw [TaskBuffer.proceed]
  split
  case h_1 => exact h
  case h_2 p hpass =>
    obtain ⟨hle, hstop, hvalid⟩ := h.pass p hpass
    have hqueued := h.queued
    rw [waiting, hpass, Option.elim_some] at hqueued
    split
    case isTrue hend =>
      constructor
      case queued =>
        rw [hend, hstop, List.drop_length] at hqueued
        exact hqueued
      case pass => simp
      case safe => exact h.safe
    case isFalse hend =>
      have hlt : p.next < b.taskbuf.length := by omega
      dsimp only
      constructor
      case queued =>
        rw [waiting, Option.elim_some, ← hqueued, List.drop_eq_getElem_cons hlt,
          List.getElem?_eq_getElem hlt]
        simp
      case pass =>
        rintro p' ⟨⟩
        exact ⟨by dsimp only; omega, hstop, hvalid⟩
      case safe => exact h.safe

/-- An event that does not queue a task while a pass is running. -/
theorem Kept.step (h : b.Kept) {e : TaskEvent α} (he : b.Apart e) :
  (b.step grow e).Kept
  := by
  cases e with
  | queueTask task => exact h.queueTask (he task rfl) task
  | executeTasks => exact h.executeTasks
  | proceed => exact h.proceed

/-! ### Whole passes -/

/-- Without a pass nothing is to be finished. -/
theorem finish_of_none (h : b.pass = none) :
  b.finish = b
  := by
  rw [finish, h]

/-- A pass ends, and clears the vector; it runs no more tasks than it was to run when it
began. -/
theorem finish_spec {p : Pass} (hpass : b.pass = some p) (hle : p.next ≤ p.stop) :
  b.finish.pass = none ∧ b.finish.taskbuf = [] ∧ b.finish.queued = b.queued ∧
    b.finish.ran.length ≤ b.ran.length + (p.stop - p.next)
  := by
  obtain ⟨n, hn⟩ : ∃ n, n = p.stop - p.next := ⟨_, rfl⟩
  rw [finish, hpass]
  dsimp only
  rw [← hn]
  induction n generalizing b p with
  | zero =>
      have hend : p.next = p.stop := by omega
      rw [Function.iterate_one, proceed, hpass]
      dsimp only
      rw [if_pos hend]
      exact ⟨rfl, rfl, rfl, Nat.le_add_right _ _⟩
  | succ n ih =>
      have hgoes : p.next ≠ p.stop := by omega
      have hturn : b.proceed.pass = some { p with next := p.next + 1 } ∧
          b.proceed.queued = b.queued ∧ b.proceed.ran.length ≤ b.ran.length + 1 := by
        rw [proceed, hpass]
        dsimp only
        rw [if_neg hgoes]
        split
        case isTrue =>
          refine ⟨rfl, rfl, ?_⟩
          rw [List.length_append]
          have hone : b.taskbuf[p.next]?.toList.length ≤ 1 := Option.length_toList_le
          omega
        case isFalse => exact ⟨rfl, rfl, Nat.le_succ _⟩
      obtain ⟨hpass', hqueued, hran⟩ := hturn
      rw [Function.iterate_succ_apply]
      obtain ⟨hnone, hclear, hqueued', hran'⟩ :=
        ih hpass' (show p.next + 1 ≤ p.stop by omega) (show n = p.stop - (p.next + 1) by omega)
      refine ⟨hnone, hclear, hqueued'.trans hqueued, ?_⟩
      omega

/-- A pass starts at the first task. -/
theorem executeTasks_of_none (h : b.pass = none) :
  b.executeTasks = { b with pass := some ⟨0, b.taskbuf.length, true⟩ }
  := by
  rw [executeTasks, h]

/-- A pass that is finished. -/
theorem Kept.finish (h : b.Kept) :
  b.finish.Kept
  := by
  rw [TaskBuffer.finish]
  split
  case h_1 => exact h
  case h_2 p hpass =>
    generalize p.stop - p.next + 1 = n
    clear hpass
    induction n generalizing b with
    | zero => exact h
    | succ n ih =>
        rw [Function.iterate_succ_apply]
        exact ih h.proceed

/-- After the pass that is on and one more, the vector is empty, and no more tasks ran than the
pass that is on was to run, if nothing else waited. -/
theorem served_spec {p : Pass} (hpass : b.pass = some p) (hle : p.next ≤ p.stop) :
  b.served.ran.length ≤ b.ran.length + (p.stop - p.next)
  := by
  obtain ⟨hnone, hclear, -, hran⟩ := finish_spec hpass hle
  rw [served, executeTasks_of_none hnone, hclear]
  obtain ⟨-, -, -, hran'⟩ :=
    finish_spec (b := { b.finish with taskbuf := [], pass := some ⟨0, 0, true⟩ }) rfl (Nat.le_refl 0)
  exact Nat.le_trans hran' hran

/-- What waits runs by the end of the next pass. -/
theorem Kept.serves (h : b.Kept) :
  b.Serves
  := by
  have hnone : ∀ {b : TaskBuffer α}, b.Kept → b.finish.pass = none ∧ b.finish.queued = b.queued := by
    intro b h
    cases hpass : b.pass with
    | none =>
        rw [finish_of_none hpass]
        exact ⟨hpass, rfl⟩
    | some p =>
        obtain ⟨hnone, -, hqueued, -⟩ := finish_spec hpass (h.pass p hpass).1
        exact ⟨hnone, hqueued⟩
  obtain ⟨hfirst, hqueued⟩ := hnone h
  have hbegun := h.finish.executeTasks
  obtain ⟨hlast, hqueued'⟩ := hnone hbegun
  have hdone : b.served.Kept := hbegun.finish
  have hpass : b.finish.executeTasks.pass = some ⟨0, b.finish.taskbuf.length, true⟩ := by
    rw [executeTasks_of_none hfirst]
  obtain ⟨-, hclear, -⟩ := finish_spec hpass (Nat.zero_le _)
  constructor
  case ran => exact ⟨b.waiting, h.queued⟩
  case served =>
    have hran := hdone.queued
    rw [waiting, served, hlast, hclear, Option.elim_none, List.drop_nil, List.append_nil] at hran
    rw [served, hran, hqueued', executeTasks_of_none hfirst]
    exact hqueued
  case safe => exact hdone.safe

/-- A task that is queued while a pass is on is lost, or the vector moves away from the pass. -/
theorem Kept.not_serves (h : b.Kept) {e : TaskEvent α} (he : ¬ b.Apart e) :
  ¬ (b.step grow e).Serves
  := by
  simp only [Apart, not_forall] at he
  obtain ⟨task, rfl, hon⟩ := he
  obtain ⟨p, hpass⟩ := Option.ne_none_iff_exists'.mp hon
  obtain ⟨hle, hstop, -⟩ := h.pass p hpass
  have hlength := congrArg List.length h.queued
  rw [waiting, hpass, Option.elim_some, List.length_append, List.length_drop, ← hstop] at hlength
  intro hserves
  have hran := hserves.served
  have hpass' : (b.step grow (.queueTask task)).pass
      = some { p with valid := p.valid && decide (b.taskbuf.length < b.capacity) } := by
    rw [TaskBuffer.step, TaskBuffer.queueTask]
    dsimp only
    rw [hpass, Option.map_some]
  have hshort := served_spec hpass' hle
  have hran' := congrArg List.length hran
  have hqueued : (b.step grow (.queueTask task)).queued.length = b.queued.length + 1 :=
    List.length_append
  have hsame : (b.step grow (.queueTask task)).ran = b.ran := rfl
  rw [hsame] at hshort
  dsimp only at hshort
  omega

/-! ### Runs -/

/-- In the runs in which no task is queued while a pass is on, and in no others, every task that
was queued runs exactly once, in the order of the queue, in the pass that is on or the next
one. -/
theorem always_serves_iff (grow : ℕ → ℕ) (events : List (TaskEvent α)) :
  Runs.Always (step grow) Serves new events ↔ Runs.Along (step grow) Apart new events
  := by
  apply Runs.always_iff_along kept_new
  · exact fun b h => h.serves
  · exact fun b e h he => h.step he
  · exact fun b e h he => h.not_serves he

/-- The first task queues another one while it runs. -/
def requeue : List (TaskEvent ℕ) :=
  [.queueTask 0, .executeTasks, .proceed, .queueTask 1, .proceed, .executeTasks, .proceed]

/-- The task that is queued by the first one never runs. -/
theorem not_always_serves_requeue :
  ¬ ∀ (grow : ℕ → ℕ) (events : List (TaskEvent ℕ)), Runs.Always (step grow) Serves new events
  := by
  intro h
  have hserves := (h (fun n => n) requeue).last.served
  exact absurd hserves (by decide)

end TaskBuffer

end Owop
