import Mathlib.Data.Set.Insert
import Mathlib.Logic.Function.Basic

/-!
# Tables and their copies

A table gives values to some keys.  A copy of a table that changes is told of the changes later
and in parts.  Two sets of keys wait to be told: those with a new value, and those that have gone.
The copy agrees with the table up to these sets, so it is the table when both are empty.
-/

namespace Table

/-! ### Changed tables -/

/-- What a changed table has at a key. -/
theorem update_eq_some {α β : Type*} [DecidableEq α] {f : α → Option β} {a a' : α} {b b' : β} :
  Function.update f a (some b) a' = some b' ↔ a' = a ∧ b = b' ∨ a' ≠ a ∧ f a' = some b'
  := by
  rw [Function.update_apply]
  split
  case isTrue ha => simp [ha]
  case isFalse ha => simp [ha]

/-- A table without one of its keys has nothing that it did not have. -/
theorem of_update_none {α β : Type*} [DecidableEq α] {f : α → Option β} {a a' : α} {b : β}
    (h : Function.update f a none a' = some b) :
  f a' = some b
  := by
  rw [Function.update_apply] at h
  split at h
  case isTrue => cases h
  case isFalse => exact h

/-- What is known of a changed table. -/
theorem map_update {α β γ : Type*} [DecidableEq α] (g : β → γ) (f : α → Option β) (a : α)
    (b : Option β) :
  (fun a' => (Function.update f a b a').map g)
    = Function.update (fun a' => (f a').map g) a (b.map g)
  := by
  funext a'
  rw [Function.update_apply, Function.update_apply]
  split <;> rfl

/-- A table whose entry is changed in what is not known of it. -/
theorem map_update_same {α β γ : Type*} [DecidableEq α] {g : β → γ} {f : α → Option β} {a : α}
    {b b' : β} (h : f a = some b) (hg : g b' = g b) :
  (fun a' => (Function.update f a (some b') a').map g) = fun a' => (f a').map g
  := by
  rw [map_update, Option.map_some, hg, ← Option.map_some, ← h, Function.update_eq_self]

/-! ### Copies that follow -/

variable {κ V : Type*}

/-- The copy has the values of the table, except for the keys in `dirty`, and no others, except
for the keys in `gone`. -/
structure Follows (table copy : κ → Option V) (dirty gone : Set κ) : Prop where
  present : ∀ k v, table k = some v → k ∉ dirty → copy k = some v
  absent : ∀ k, table k = none → k ∉ gone → copy k = none

variable {table copy : κ → Option V} {dirty dirty' gone gone' : Set κ} {k : κ} {v : V}

/-- Nothing waits, so the copy is the table. -/
theorem Follows.eq (h : Follows table copy dirty gone) (hdirty : ∀ k, k ∉ dirty)
    (hgone : ∀ k, k ∉ gone) :
  copy = table
  := by
  funext k
  cases hk : table k with
  | none => exact h.absent k hk (hgone k)
  | some v => exact h.present k v hk (hdirty k)

/-- More keys may wait. -/
theorem Follows.mono (h : Follows table copy dirty gone) (hdirty : dirty ⊆ dirty')
    (hgone : gone ⊆ gone') :
  Follows table copy dirty' gone'
  := ⟨fun k v hk hnot => h.present k v hk fun hmem => hnot (hdirty hmem),
    fun k hk hnot => h.absent k hk fun hmem => hnot (hgone hmem)⟩

/-- If all keys with values wait, the copy only has to have no others. -/
theorem follows_of_dirty (hdirty : ∀ k v, table k = some v → k ∈ dirty)
    (hnone : ∀ k, table k = none → k ∉ gone → copy k = none) :
  Follows table copy dirty gone
  := ⟨fun k v hk hnot => absurd (hdirty k v hk) hnot, hnone⟩

section

variable [DecidableEq κ]

/-- A key with a new value waits. -/
theorem Follows.write (h : Follows table copy dirty gone) :
  Follows (Function.update table k (some v)) copy (insert k dirty) gone
  := by
  constructor
  case present =>
    intro k' v' hk' hnot
    rw [Set.mem_insert_iff, not_or] at hnot
    rw [Function.update_of_ne hnot.1] at hk'
    exact h.present k' v' hk' hnot.2
  case absent =>
    intro k' hk' hnot
    have hne : k' ≠ k := by
      rintro rfl
      rw [Function.update_self] at hk'
      cases hk'
    rw [Function.update_of_ne hne] at hk'
    exact h.absent k' hk' hnot

/-- A key that has gone waits as such. -/
theorem Follows.remove (h : Follows table copy dirty gone)
    (hdirty : ∀ k' ∈ dirty, k' ≠ k → k' ∈ dirty') :
  Follows (Function.update table k none) copy dirty' (insert k gone)
  := by
  constructor
  case present =>
    intro k' v' hk' hnot
    have hne : k' ≠ k := by
      rintro rfl
      rw [Function.update_self] at hk'
      cases hk'
    rw [Function.update_of_ne hne] at hk'
    exact h.present k' v' hk' fun hmem => hnot (hdirty k' hmem hne)
  case absent =>
    intro k' hk' hnot
    rw [Set.mem_insert_iff, not_or] at hnot
    rw [Function.update_of_ne hnot.1] at hk'
    exact h.absent k' hk' hnot.2

/-- Set some entries of a copy, then remove some keys. -/
def tell (copy : κ → Option V) (entries : List (κ × V)) (removed : List κ) : κ → Option V :=
  removed.foldl (fun c k => Function.update c k none)
    (entries.foldl (fun c e => Function.update c e.1 (some e.2)) copy)

theorem foldl_remove (c : κ → Option V) (removed : List κ) (k : κ) :
  removed.foldl (fun c k => Function.update c k none) c k = if k ∈ removed then none else c k
  := by
  induction removed generalizing c with
  | nil => rfl
  | cons k' removed ih =>
      rw [List.foldl_cons, ih, Function.update_apply]
      by_cases heq : k = k'
      · simp [heq]
      · simp [heq]

theorem foldl_set {entries : List (κ × V)} (c : κ → Option V)
    (h : ∀ e ∈ entries, table e.1 = some e.2) (k : κ) :
  entries.foldl (fun (c : κ → Option V) e => Function.update c e.1 (some e.2)) c k =
    if k ∈ entries.map Prod.fst then table k else c k
  := by
  induction entries generalizing c with
  | nil => rfl
  | cons e entries ih =>
      rw [List.foldl_cons, ih _ fun e' he' => h e' (List.mem_cons_of_mem e he'),
        Function.update_apply]
      by_cases heq : k = e.1
      · subst heq
        simp [h e List.mem_cons_self]
      · simp only [List.map_cons, List.mem_cons, heq, false_or, if_false]

/-- What a copy has after it was told values of the table. -/
theorem tell_apply {entries : List (κ × V)} (h : ∀ e ∈ entries, table e.1 = some e.2)
    (removed : List κ) (k : κ) :
  tell copy entries removed k =
    if k ∈ removed then none else if k ∈ entries.map Prod.fst then table k else copy k
  := by
  rw [tell, foldl_remove, foldl_set copy h]

/-- The keys that were told of need not wait any more. -/
theorem Follows.tell {entries : List (κ × V)} {removed : List κ}
    (h : Follows table copy dirty gone) (hentries : ∀ e ∈ entries, table e.1 = some e.2)
    (hremoved : ∀ k ∈ removed, table k = none)
    (hdirty : ∀ k ∈ dirty, k ∈ entries.map Prod.fst ∨ k ∈ dirty')
    (hgone : ∀ k ∈ gone, k ∈ removed ∨ k ∈ gone') :
  Follows table (tell copy entries removed) dirty' gone'
  := by
  constructor
  case present =>
    intro k v hk hnot
    have hstays : k ∉ removed := by
      intro hmem
      rw [hremoved k hmem] at hk
      cases hk
    rw [tell_apply hentries, if_neg hstays]
    split
    case isTrue => exact hk
    case isFalse huntold =>
      apply h.present k v hk
      intro hmem
      exact (hdirty k hmem).elim huntold hnot
  case absent =>
    intro k hk hnot
    rw [tell_apply hentries]
    split
    case isTrue => rfl
    case isFalse hstays =>
      split
      case isTrue => exact hk
      case isFalse =>
        apply h.absent k hk
        intro hmem
        exact (hgone k hmem).elim hstays hnot

end

end Table
