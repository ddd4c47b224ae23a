import Mathlib.Data.List.AList

/-!
# Caches with a bound

A cache drops an entry before it keeps another, if it has more than a given number of them.  As
the number is compared before the new entry is counted, the cache may grow one entry larger than
that, and no larger.
-/

namespace Cache

variable {κ V : Type*}

/-- How many entries there are. -/
def count (c : AList fun _ : κ => V) : ℕ := c.keys.length

/-- There are as many entries as are counted. -/
theorem length_entries (c : AList fun _ : κ => V) :
  c.entries.length = count c
  := by
  rw [count, AList.keys, List.keys, List.length_map]

variable [DecidableEq κ] {bound : ℕ} {c : AList fun _ : κ => V} {victim k : κ} {v : V}

/-- Keep an entry, after dropping that of `victim` if there are more than `bound`. -/
def keep (bound : ℕ) (victim k : κ) (v : V) (c : AList fun _ : κ => V) : AList fun _ : κ => V :=
  if count c > bound then (c.erase victim).insert k v else c.insert k v

/-- A new value for a key that is there. -/
theorem count_insert_of_mem (hk : k ∈ c) :
  count (c.insert k v) = count c
  := by
  have hpos : 0 < c.keys.length := List.length_pos_of_mem hk
  rw [count, AList.keys_insert, List.length_cons, List.length_erase_of_mem hk, count,
    Nat.sub_add_cancel hpos]

/-- A new key is counted. -/
theorem count_insert_of_notMem (hk : k ∉ c) :
  count (c.insert k v) = count c + 1
  := by
  rw [count, AList.keys_insert, List.length_cons, List.erase_of_not_mem hk, count]

/-- A key that is erased was counted. -/
theorem count_erase_of_mem (hk : k ∈ c) :
  count (c.erase k) + 1 = count c
  := by
  have hpos : 0 < c.keys.length := List.length_pos_of_mem hk
  rw [count, AList.keys_erase, List.length_erase_of_mem hk, count, Nat.sub_add_cancel hpos]

/-- The cache grows while it has at most `bound` entries. -/
theorem count_keep (hk : k ∉ c) (hvictim : bound < count c → victim ∈ c) :
  count (keep bound victim k v c) = if count c > bound then count c else count c + 1
  := by
  rw [keep]
  split
  case isTrue hfull =>
    have hnot : k ∉ c.erase victim := fun hmem => hk (AList.mem_erase.mp hmem).2
    rw [count_insert_of_notMem hnot, count_erase_of_mem (hvictim hfull)]
  case isFalse => exact count_insert_of_notMem hk

/-- Within the bound, exactly the entry that finds `bound` of them breaks it. -/
theorem count_keep_le_iff (hk : k ∉ c) (hle : count c ≤ bound) :
  count (keep bound victim k v c) ≤ bound ↔ count c ≠ bound
  := by
  rw [count_keep hk (by omega), if_neg (by omega)]
  omega

/-- One entry more is never passed. -/
theorem count_keep_le_succ (hk : k ∉ c) (hvictim : bound < count c → victim ∈ c)
    (hle : count c ≤ bound + 1) :
  count (keep bound victim k v c) ≤ bound + 1
  := by
  rw [count_keep hk hvictim]
  split
  case isTrue => exact hle
  case isFalse hroom => omega

/-- What is kept is found. -/
theorem lookup_keep_self :
  (keep bound victim k v c).lookup k = some v
  := by
  rw [keep]
  split
  · exact AList.lookup_insert _
  · exact AList.lookup_insert _

end Cache
