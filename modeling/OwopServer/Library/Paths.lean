import Mathlib.Data.List.Basic

/-!
# Paths

A path is a text that is cut at separators into names.  It is resolved by walking: an empty name
and the name of one dot stay where they are, the name of two dots goes to the parent (which for
the root is the root itself), and any other name goes to the entry of that name.  A place is the
list of the names that lead to it from the root.  There are no links.
-/

namespace Paths

variable {α : Type*} [DecidableEq α] (sep dot : α)

/-- The place that a name leads to. -/
def enter (place : List (List α)) (name : List α) : List (List α) :=
  if name = [] ∨ name = [dot] then place
  else if name = [dot, dot] then place.dropLast
  else place ++ [name]

/-- The place that a path leads to, from the working directory `cwd` unless it starts with a
separator. -/
def resolve (cwd : List (List α)) (path : List α) : List (List α) :=
  (path.splitOn sep).foldl (enter dot) (if path.head? = some sep then [] else cwd)

/-- A name of an entry: not a path, and none of the names with a meaning of their own. -/
structure Plain (name : List α) : Prop where
  whole : sep ∉ name
  some : name ≠ []
  here : name ≠ [dot]
  parent : name ≠ [dot, dot]

variable {sep dot} {cwd place : List (List α)} {name path : List α}

theorem Plain.enter (h : Plain sep dot name) (place : List (List α)) :
  enter dot place name = place ++ [name]
  := by
  rw [Paths.enter, if_neg (not_or.mpr ⟨h.some, h.here⟩), if_neg h.parent]

/-- Exactly the names with a meaning of their own do not lead below. -/
theorem enter_below_iff :
  (∃ below, below ≠ [] ∧ enter dot place name = place ++ below)
    ↔ name ≠ [] ∧ name ≠ [dot] ∧ name ≠ [dot, dot]
  := by
  have hlonger : ∀ below : List (List α), below ≠ [] → place ++ below ≠ place :=
    fun below hbelow heq => hbelow (List.append_right_eq_self.mp heq)
  rw [enter]
  split
  case isTrue hstay =>
    constructor
    · rintro ⟨below, hbelow, heq⟩
      exact absurd heq.symm (hlonger below hbelow)
    · rintro ⟨hsome, hhere, -⟩
      exact absurd hstay (not_or.mpr ⟨hsome, hhere⟩)
  case isFalse hstay =>
    obtain ⟨hsome, hhere⟩ := not_or.mp hstay
    split
    case isTrue hparent =>
      constructor
      · rintro ⟨below, hbelow, heq⟩
        have hlength := congrArg List.length heq
        have hpos := List.length_pos_of_ne_nil hbelow
        rw [List.length_dropLast, List.length_append] at hlength
        omega
      · exact fun h => absurd hparent h.2.2
    case isFalse hparent =>
      constructor
      · exact fun _ => ⟨hsome, hhere, hparent⟩
      · exact fun _ => ⟨[name], List.cons_ne_nil _ _, rfl⟩

/-- A path that goes on after a separator goes on from where it has led. -/
theorem resolve_append (cwd : List (List α)) (path rest : List α) :
  resolve sep dot cwd (path ++ sep :: rest)
    = (rest.splitOn sep).foldl (enter dot) (resolve sep dot cwd (path ++ [sep]))
  := by
  have hhead : (path ++ sep :: rest).head? = (path ++ [sep]).head? := by
    cases path <;> rfl
  have hempty : (path ++ [sep]).splitOn sep = path.splitOn sep ++ [[]] :=
    List.splitOn_append_cons_self path []
  rw [resolve, resolve, hhead, hempty, List.splitOn_append_cons_self, List.foldl_append,
    List.foldl_append, List.foldl_cons, List.foldl_nil]
  rfl

/-- A path that goes on with one name. -/
theorem resolve_name (cwd : List (List α)) (path : List α) (h : sep ∉ name) :
  resolve sep dot cwd (path ++ sep :: name)
    = enter dot (resolve sep dot cwd (path ++ [sep])) name
  := by
  rw [resolve_append, List.splitOn_eq_singleton h, List.foldl_cons, List.foldl_nil]

/-- A path that goes on with the name of a directory. -/
theorem resolve_dir (cwd : List (List α)) (path : List α) (h : sep ∉ name) :
  resolve sep dot cwd (path ++ sep :: (name ++ [sep]))
    = enter dot (resolve sep dot cwd (path ++ [sep])) name
  := by
  rw [resolve_append, List.splitOn_append_cons_self, List.splitOn_eq_singleton h]
  rfl

end Paths
