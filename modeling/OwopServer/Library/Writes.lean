import Mathlib.Data.List.Induction
import Mathlib.Data.Option.Basic

/-!
# Logs of writes

A write gives values to some of the keys of a store.  A log of writes determines the last value
that each key was given.  A store that takes the writes of a log one after the other, and does not
lose what it holds otherwise, reflects the log: it holds the last values.

Several stores, told apart by tags, make one store whose keys have tags.
-/

universe u v w x

namespace Writes

variable {E : Type u} {K : Type v} {V : Type w} {T : Type x} (gives : E → K → Option V)

/-- The last value that the writes of a log give to a key. -/
def latest (log : List E) (k : K) : Option V := log.foldl (fun last e => (gives e k).or last) none

/-- The store holds the last values of the log. -/
def Reflects (store : K → Option V) (log : List E) : Prop :=
  ∀ k v, latest gives log k = some v → store k = some v

/-- A store after a write: it holds what it is given, and else what it held. -/
structure Takes (store : K → Option V) (e : E) (store' : K → Option V) : Prop where
  given : ∀ k v, gives e k = some v → store' k = some v
  kept : ∀ k v, gives e k = none → store k = some v → store' k = some v

/-- A store after the writes of a log. -/
inductive Follows (store : K → Option V) : List E → (K → Option V) → Prop
  | nil : Follows store [] store
  | concat {log : List E} {store' store'' : K → Option V} {e : E} (h : Follows store log store')
      (he : Takes gives store' e store'') : Follows store (log ++ [e]) store''

/-- A write to the store with a tag. -/
def tagged [DecidableEq T] (e : T × E) (k : T × K) : Option V :=
  if e.1 = k.1 then gives e.2 k.2 else none

/-- The stores when the one with the tag `t` is replaced. -/
def replace [DecidableEq T] (store : T × K → Option V) (t : T) (part : K → Option V)
    (k : T × K) : Option V :=
  if k.1 = t then part k.2 else store k

variable {gives} {store store' store'' : K → Option V} {log more : List E} {e : E}

/-! ### The last values -/

/-- The last write counts, if it gives a value. -/
theorem latest_concat (log : List E) (e : E) (k : K) :
  latest gives (log ++ [e]) k = (gives e k).or (latest gives log k)
  := by
  rw [latest, latest, List.foldl_append, List.foldl_cons, List.foldl_nil]

/-- The last value of a key was given by one of the writes. -/
theorem exists_of_latest {k : K} {v : V} (h : latest gives log k = some v) :
  ∃ e ∈ log, gives e k = some v
  := by
  induction log using List.reverseRecOn with
  | nil => cases h
  | append_singleton log e ih =>
      rw [latest_concat] at h
      cases hgives : gives e k with
      | some v' =>
          rw [hgives, Option.some_or] at h
          exact ⟨e, List.mem_append_right _ List.mem_cons_self, hgives.trans h⟩
      | none =>
          rw [hgives, Option.none_or] at h
          obtain ⟨e', he', hv⟩ := ih h
          exact ⟨e', List.mem_append_left _ he', hv⟩

/-! ### Stores that follow a log -/

/-- One write. -/
theorem Follows.single (h : Takes gives store e store') :
  Follows gives store [e] store'
  := Follows.concat Follows.nil h

/-- Writes one after another. -/
theorem Follows.trans (h : Follows gives store log store') (h' : Follows gives store' more store'') :
  Follows gives store (log ++ more) store''
  := by
  induction h' with
  | nil =>
      rw [List.append_nil]
      exact h
  | concat _ he ih =>
      rw [← List.append_assoc]
      exact Follows.concat ih he

/-- Without writes nothing changes. -/
theorem Follows.eq_of_nil (h : Follows gives store [] store') :
  store' = store
  := by
  generalize hlog : ([] : List E) = log at h
  cases h with
  | nil => rfl
  | concat => exact absurd hlog.symm (List.append_ne_nil_of_right_ne_nil _ (List.cons_ne_nil _ _))

/-- No update is lost. -/
theorem Reflects.take (h : Reflects gives store log) (he : Takes gives store e store') :
  Reflects gives store' (log ++ [e])
  := by
  intro k v hv
  rw [latest_concat] at hv
  cases hgives : gives e k with
  | some v' =>
      rw [hgives, Option.some_or] at hv
      rw [← hv]
      exact he.given k v' hgives
  | none =>
      rw [hgives, Option.none_or] at hv
      exact he.kept k v hgives (h k v hv)

/-- More writes. -/
theorem Reflects.follow (h : Reflects gives store log) (hmore : Follows gives store more store') :
  Reflects gives store' (log ++ more)
  := by
  induction hmore with
  | nil =>
      rw [List.append_nil]
      exact h
  | concat _ he ih =>
      rw [← List.append_assoc]
      exact ih.take he

/-! ### Stores with tags -/

variable [DecidableEq T] {stores : T × K → Option V} {t : T} {part part' : K → Option V}

/-- The part that is replaced. -/
theorem replace_self (stores : T × K → Option V) (t : T) (part : K → Option V) (k : K) :
  replace stores t part (t, k) = part k
  := if_pos rfl

/-- The other parts. -/
theorem replace_of_ne {t' : T} (h : t' ≠ t) (stores : T × K → Option V) (part : K → Option V) (k : K) :
  replace stores t part (t', k) = stores (t', k)
  := if_neg h

/-- Replacing a store by itself changes nothing. -/
theorem replace_eq_self (h : ∀ k, part k = stores (t, k)) :
  replace stores t part = stores
  := by
  funext ⟨t', k⟩
  by_cases ht : t' = t
  · rw [ht, replace_self, h]
  · exact replace_of_ne ht stores part k

/-- One of the stores takes a write. -/
theorem Takes.tag (h : Takes gives part e part') :
  Takes (tagged gives) (replace stores t part) (t, e) (replace stores t part')
  := by
  constructor
  case given =>
    rintro ⟨t', k⟩ v hv
    rw [tagged] at hv
    split at hv
    case isTrue ht =>
      dsimp only at ht
      rw [← ht, replace_self]
      exact h.given k v hv
    case isFalse => cases hv
  case kept =>
    rintro ⟨t', k⟩ v hnone hv
    rw [tagged] at hnone
    split at hnone
    case isTrue ht =>
      dsimp only at ht
      rw [← ht, replace_self] at hv ⊢
      exact h.kept k v hnone hv
    case isFalse ht =>
      have ht' : t' ≠ t := fun heq => ht heq.symm
      rw [replace_of_ne ht'] at hv ⊢
      exact hv

/-- One of the stores follows a log. -/
theorem Follows.tag (hpart : ∀ k, part k = stores (t, k)) (h : Follows gives part log part') :
  Follows (tagged gives) stores (log.map fun e => (t, e)) (replace stores t part')
  := by
  induction h with
  | nil =>
      rw [replace_eq_self hpart]
      exact Follows.nil
  | concat _ he ih =>
      rw [List.map_append]
      exact Follows.concat ih he.tag

end Writes
