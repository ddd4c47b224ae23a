import Mathlib

/-!
# Write-back caches

A `WriteBack` holds some of the values of a store in lines.  A line is loaded from the store,
or from a default value where the store has none; it becomes dirty when its value is changed,
and clean when it is flushed to the store.

`view s k` is the value the cache and the store together hold for `k`, `none` if there never
was any.  Loading, flushing and dropping clean lines do not change the view, and a line always
shows the view.
-/

universe u v

/-- A line of a cache: its value, the default it was loaded with, and whether the value differs
from the stored one. -/
structure CacheLine (V : Type v) where
  val : V
  blank : V
  dirty : Bool

/-- A cache over a store. -/
@[ext]
structure WriteBack (K : Type u) (V : Type v) where
  lines : K → Option (CacheLine V)
  store : K → Option V

namespace WriteBack

variable {K : Type u} {V : Type v}

/-- The value held for `k`. -/
def view (s : WriteBack K V) (k : K) : Option V :=
  match s.lines k with
  | some l => if l.dirty then some l.val else s.store k
  | none => s.store k

/-- Clean lines have the stored value, or their default if there is none. -/
def Coherent (s : WriteBack K V) : Prop :=
  ∀ k l, s.lines k = some l → l.dirty = false → l.val = (s.store k).getD l.blank

/-- Without a line the store is seen. -/
theorem view_of_none {s : WriteBack K V} {k : K} (h : s.lines k = none) :
  s.view k = s.store k
  := by
  rw [view, h]

/-- A value that was written is seen. -/
theorem view_of_dirty {s : WriteBack K V} {k : K} {l : CacheLine V} (h : s.lines k = some l)
    (hl : l.dirty = true) :
  s.view k = some l.val
  := by
  rw [view, h]
  exact if_pos hl

/-- Under a line to which nothing was written the store is seen. -/
theorem view_of_clean {s : WriteBack K V} {k : K} {l : CacheLine V} (h : s.lines k = some l)
    (hl : l.dirty = false) :
  s.view k = s.store k
  := by
  rw [view, h]
  exact if_neg (by simp [hl])

/-- The view of a key depends on its line and the stored value. -/
theorem view_congr {s s' : WriteBack K V} {k : K} (hl : s'.lines k = s.lines k)
    (hs : s'.store k = s.store k) :
  s'.view k = s.view k
  := by
  rw [view, view, hl, hs]

/-- A line shows the view, or its default. -/
theorem Coherent.val_eq {s : WriteBack K V} {k : K} {l : CacheLine V} (hs : s.Coherent)
    (h : s.lines k = some l) :
  l.val = (s.view k).getD l.blank
  := by
  cases hl : l.dirty with
  | false => rw [view_of_clean h hl, hs k l h hl]
  | true => rw [view_of_dirty h hl, Option.getD_some]

/-- Without dirty lines the store holds everything. -/
theorem view_eq_store {s : WriteBack K V} (h : ∀ k l, s.lines k = some l → l.dirty = false) :
  s.view = s.store
  := by
  funext k
  cases hl : s.lines k with
  | none => exact view_of_none hl
  | some l => exact view_of_clean hl (h k l hl)

variable [DecidableEq K]

/-- The cache with a line for `k` loaded from the store. -/
def load (s : WriteBack K V) (k : K) (blank : V) : WriteBack K V :=
  { s with lines := Function.update s.lines k (some ⟨(s.store k).getD blank, blank, false⟩) }

/-- The cache with the line for `k` written to the store. -/
def flush (s : WriteBack K V) (k : K) : WriteBack K V :=
  match s.lines k with
  | some l =>
      if l.dirty then
        ⟨Function.update s.lines k (some { l with dirty := false }),
          Function.update s.store k (some l.val)⟩
      else s
  | none => s

/-- The cache without its line for `k`. -/
def drop (s : WriteBack K V) (k : K) : WriteBack K V :=
  { s with lines := Function.update s.lines k none }

/-- The cache with the value `v` put into the line for `k`. -/
def put (s : WriteBack K V) (k : K) (v : V) : WriteBack K V :=
  match s.lines k with
  | some l => { s with lines := Function.update s.lines k (some ⟨v, l.blank, true⟩) }
  | none => s

/-! ### Loading -/

/-- Loading does not change what is seen. -/
theorem view_load {s : WriteBack K V} {k : K} (h : s.lines k = none) (blank : V) :
  (s.load k blank).view = s.view
  := by
  funext k'
  by_cases hk : k' = k
  · subst hk
    rw [view_of_none h, view_of_clean (Function.update_self ..) rfl]
    rfl
  · exact view_congr (Function.update_of_ne hk _ _) rfl

/-- Loading keeps the cache coherent. -/
theorem Coherent.load {s : WriteBack K V} (hs : s.Coherent) (k : K) (blank : V) :
  (s.load k blank).Coherent
  := by
  intro k' l h hl
  by_cases hk : k' = k
  · subst hk
    rw [WriteBack.load] at h
    dsimp only at h
    rw [Function.update_self] at h
    cases h
    rfl
  · rw [WriteBack.load] at h
    dsimp only at h
    rw [Function.update_of_ne hk] at h
    exact hs k' l h hl

/-! ### Flushing -/

/-- Flushing makes the line clean. -/
theorem lines_flush (s : WriteBack K V) (k : K) :
  (s.flush k).lines
    = Function.update s.lines k ((s.lines k).map fun l => { l with dirty := false })
  := by
  rw [flush]
  cases h : s.lines k with
  | none =>
      have hsame : Function.update s.lines k none = s.lines := by
        rw [← h, Function.update_eq_self]
      rw [Option.map_none, hsame]
  | some l =>
      cases hl : l.dirty with
      | true => simp [hl]
      | false =>
          have hline : ({ l with dirty := false } : CacheLine V) = l := by rw [← hl]
          have hsame : Function.update s.lines k (some l) = s.lines := by
            rw [← h, Function.update_eq_self]
          rw [Option.map_some, hline, hsame]
          simp [hl]

/-- Flushing stores what is seen. -/
theorem store_flush (s : WriteBack K V) (k : K) :
  (s.flush k).store = Function.update s.store k (s.view k)
  := by
  rw [flush]
  cases h : s.lines k with
  | none => rw [view_of_none h, Function.update_eq_self]
  | some l =>
      cases hl : l.dirty with
      | true => simp [hl, view_of_dirty h hl]
      | false => simp [hl, view_of_clean h hl]

/-- Flushing does not change what is seen. -/
theorem view_flush (s : WriteBack K V) (k : K) :
  (s.flush k).view = s.view
  := by
  funext k'
  by_cases hk : k' = k
  · subst hk
    have hline : (s.flush k').lines k' = (s.lines k').map fun l => { l with dirty := false } := by
      rw [lines_flush, Function.update_self]
    have hstore : (s.flush k').store k' = s.view k' := by
      rw [store_flush, Function.update_self]
    cases h : s.lines k' with
    | none =>
        rw [h, Option.map_none] at hline
        rw [view_of_none hline, hstore]
    | some l =>
        rw [h, Option.map_some] at hline
        rw [view_of_clean hline rfl, hstore]
  · apply view_congr
    · rw [lines_flush, Function.update_of_ne hk]
    · rw [store_flush, Function.update_of_ne hk]

/-- Flushing keeps the cache coherent. -/
theorem Coherent.flush {s : WriteBack K V} (hs : s.Coherent) (k : K) :
  (s.flush k).Coherent
  := by
  intro k' l h hl
  rw [lines_flush] at h
  rw [store_flush]
  by_cases hk : k' = k
  · subst hk
    rw [Function.update_self] at h ⊢
    obtain ⟨l', h', rfl⟩ := Option.map_eq_some_iff.mp h
    have hval := hs.val_eq h'
    exact hval
  · rw [Function.update_of_ne hk] at h ⊢
    exact hs k' l h hl

/-- The cache with the lines for the given keys written to the store, one after the other. -/
def flushAll (s : WriteBack K V) (ks : List K) : WriteBack K V := ks.foldl flush s

/-- Flushing several lines does not change what is seen. -/
theorem view_flushAll (s : WriteBack K V) (ks : List K) :
  (s.flushAll ks).view = s.view
  := by
  induction ks generalizing s with
  | nil => rfl
  | cons k ks ih => exact (ih (s.flush k)).trans (view_flush s k)

/-- Flushing several lines keeps the cache coherent. -/
theorem Coherent.flushAll {s : WriteBack K V} (hs : s.Coherent) (ks : List K) :
  (s.flushAll ks).Coherent
  := by
  induction ks generalizing s with
  | nil => exact hs
  | cons k ks ih => exact ih (hs.flush k)

/-- Flushing several lines makes these clean. -/
theorem lines_flushAll (s : WriteBack K V) (ks : List K) (k : K) :
  (s.flushAll ks).lines k
    = if k ∈ ks then (s.lines k).map fun l => { l with dirty := false } else s.lines k
  := by
  induction ks generalizing s with
  | nil => rfl
  | cons k' ks ih =>
      have hstep := ih (s.flush k')
      rw [flushAll] at hstep ⊢
      rw [List.foldl_cons, hstep, lines_flush]
      by_cases hk : k = k'
      · subst hk
        rw [Function.update_self, if_pos List.mem_cons_self, Option.map_map]
        split
        · rfl
        · rfl
      · rw [Function.update_of_ne hk]
        simp [hk]

/-- When all lines have been flushed the store holds everything. -/
theorem store_flushAll {s : WriteBack K V} {ks : List K}
    (h : ∀ k l, s.lines k = some l → k ∈ ks) :
  (s.flushAll ks).store = s.view
  := by
  rw [← view_flushAll s ks]
  symm
  apply view_eq_store
  intro k l hl
  rw [lines_flushAll] at hl
  split at hl
  case isTrue =>
    obtain ⟨l', -, rfl⟩ := Option.map_eq_some_iff.mp hl
    rfl
  case isFalse hk => exact absurd (h k l hl) hk

/-! ### Dropping a line -/

/-- Dropping a clean line does not change what is seen. -/
theorem view_drop {s : WriteBack K V} {k : K} (h : ∀ l, s.lines k = some l → l.dirty = false) :
  (s.drop k).view = s.view
  := by
  funext k'
  by_cases hk : k' = k
  · subst hk
    have hstore : s.view k' = s.store k' := by
      cases hl : s.lines k' with
      | none => exact view_of_none hl
      | some l => exact view_of_clean hl (h l hl)
    rw [hstore, view_of_none (Function.update_self ..)]
    rfl
  · exact view_congr (Function.update_of_ne hk _ _) rfl

/-- Dropping a line keeps the cache coherent. -/
theorem Coherent.drop {s : WriteBack K V} (hs : s.Coherent) (k : K) :
  (s.drop k).Coherent
  := by
  intro k' l h hl
  by_cases hk : k' = k
  · subst hk
    rw [WriteBack.drop] at h
    dsimp only at h
    rw [Function.update_self] at h
    cases h
  · rw [WriteBack.drop] at h
    dsimp only at h
    rw [Function.update_of_ne hk] at h
    exact hs k' l h hl

/-- Flushing a line and dropping it does not change the view. -/
theorem view_drop_flush (s : WriteBack K V) (k : K) :
  ((s.flush k).drop k).view = s.view
  := by
  rw [view_drop, view_flush]
  intro l hl
  rw [lines_flush, Function.update_self] at hl
  obtain ⟨l', -, rfl⟩ := Option.map_eq_some_iff.mp hl
  rfl

/-! ### Putting a value -/

/-- What is written is seen. -/
theorem view_put {s : WriteBack K V} {k : K} {l : CacheLine V} (h : s.lines k = some l) (v : V) :
  (s.put k v).view = Function.update s.view k (some v)
  := by
  funext k'
  rw [put, h]
  by_cases hk : k' = k
  · subst hk
    rw [Function.update_self, view_of_dirty (Function.update_self ..) rfl]
  · rw [Function.update_of_ne hk]
    exact view_congr (Function.update_of_ne hk _ _) rfl

/-- Writing keeps the cache coherent. -/
theorem Coherent.put {s : WriteBack K V} (hs : s.Coherent) (k : K) (v : V) :
  (s.put k v).Coherent
  := by
  intro k' l h hl
  rw [WriteBack.put] at h ⊢
  cases hk' : s.lines k with
  | none =>
      rw [hk'] at h
      exact hs k' l h hl
  | some line =>
      rw [hk'] at h
      dsimp only at h
      by_cases hk : k' = k
      · subst hk
        rw [Function.update_self] at h
        cases h
        cases hl
      · rw [Function.update_of_ne hk] at h
        exact hs k' l h hl

/-! ### Lines changed since they were loaded -/

/-- The cache with the given line for `k`, whatever was loaded. -/
def fill (s : WriteBack K V) (k : K) (l : CacheLine V) : WriteBack K V :=
  { s with lines := Function.update s.lines k (some l) }

omit [DecidableEq K] in
/-- The values of those clean lines that belong to the keys `t` are stored.  Other clean lines
need not have the stored value, as a line may be loaded wrongly. -/
def Stores (s : WriteBack K V) (t : Set K) : Prop :=
  ∀ k ∈ t, ∀ l, s.lines k = some l → l.dirty = false → s.store k = some l.val

omit [DecidableEq K] in
/-- Of what is stored, a part is. -/
theorem Stores.mono {s : WriteBack K V} {t t' : Set K} (h : s.Stores t) (ht : t' ⊆ t) :
  s.Stores t'
  := fun k hk => h k (ht hk)

/-- A line that is loaded has not been changed since. -/
theorem Stores.fill {s : WriteBack K V} {t : Set K} (h : s.Stores t) {k : K} (hk : k ∉ t)
    (l : CacheLine V) :
  (s.fill k l).Stores t
  := by
  intro k' hk' l' hl' hclean
  have hne : k' ≠ k := by
    rintro rfl
    exact hk hk'
  rw [WriteBack.fill] at hl' ⊢
  dsimp only at hl' ⊢
  rw [Function.update_of_ne hne] at hl'
  exact h k' hk' l' hl' hclean

/-- A line that is flushed is stored. -/
theorem Stores.flush {s : WriteBack K V} {t : Set K} (h : s.Stores t) (k : K) :
  (s.flush k).Stores t
  := by
  intro k' hk' l hl hclean
  rw [lines_flush] at hl
  rw [store_flush]
  by_cases hk : k' = k
  · subst hk
    rw [Function.update_self] at hl ⊢
    obtain ⟨l', hl', rfl⟩ := Option.map_eq_some_iff.mp hl
    cases hdirty : l'.dirty with
    | true =>
        have hview := view_of_dirty hl' hdirty
        exact hview
    | false => rw [view_of_clean hl' hdirty, h k' hk' l' hl' hdirty]
  · rw [Function.update_of_ne hk] at hl ⊢
    exact h k' hk' l hl hclean

/-- Flushing keeps what is stored. -/
theorem Stores.flushAll {s : WriteBack K V} {t : Set K} (h : s.Stores t) (ks : List K) :
  (s.flushAll ks).Stores t
  := by
  induction ks generalizing s with
  | nil => exact h
  | cons k ks ih => exact ih (h.flush k)

/-- Dropping a line keeps what is stored. -/
theorem Stores.drop {s : WriteBack K V} {t : Set K} (h : s.Stores t) (k : K) :
  (s.drop k).Stores t
  := by
  intro k' hk' l hl hclean
  rw [WriteBack.drop] at hl ⊢
  dsimp only at hl ⊢
  by_cases hk : k' = k
  · rw [hk, Function.update_self] at hl
    cases hl
  · rw [Function.update_of_ne hk] at hl
    exact h k' hk' l hl hclean

/-- A line with a new value is dirty. -/
theorem Stores.put {s : WriteBack K V} {t : Set K} (h : s.Stores t) (k : K) (v : V) :
  (s.put k v).Stores (insert k t)
  := by
  intro k' hk' l hl hclean
  rw [WriteBack.put] at hl ⊢
  cases hline : s.lines k with
  | none =>
      rw [hline] at hl
      dsimp only at hl ⊢
      obtain rfl | hk' := hk'
      · rw [hline] at hl
        cases hl
      · exact h k' hk' l hl hclean
  | some line =>
      rw [hline] at hl
      dsimp only at hl ⊢
      by_cases hk : k' = k
      · rw [hk, Function.update_self] at hl
        cases hl
        cases hclean
      · rw [Function.update_of_ne hk] at hl
        exact h k' (hk'.resolve_left hk) l hl hclean

end WriteBack
