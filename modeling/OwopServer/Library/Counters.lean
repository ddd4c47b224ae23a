import Mathlib.Data.List.AList

/-!
# Counters of one byte

A table counts how often keys occur, with one byte for each key, and has no entry for a key
that does not occur.  It represents the occurrences as long as no key occurs more often than a
byte can tell.
-/

namespace Counters

variable {α : Type*} [DecidableEq α]

/-- Count an occurrence more. -/
def raise (t : AList fun _ : α => UInt8) (a : α) : AList fun _ : α => UInt8 :=
  t.insert a ((t.lookup a).getD 0 + 1)

/-- Count an occurrence less. -/
def lower (t : AList fun _ : α => UInt8) (a : α) : AList fun _ : α => UInt8 :=
  match t.lookup a with
  | some n => if n - 1 = 0 then t.erase a else t.insert a (n - 1)
  | none => t

/-- What is counted for a key. -/
def value (t : AList fun _ : α => UInt8) (a : α) : ℕ := ((t.lookup a).getD 0).toNat

/-- The table counts the occurrences that `n` gives for each key. -/
def Represents (t : AList fun _ : α => UInt8) (n : α → ℕ) : Prop :=
  ∀ a, n a < 256 ∧ t.lookup a = if n a = 0 then none else some (UInt8.ofNat (n a))

variable {t : AList fun _ : α => UInt8} {n : α → ℕ} {a : α}

theorem represents_empty :
  Represents (∅ : AList fun _ : α => UInt8) fun _ => 0
  := fun a => ⟨Nat.zero_lt_succ 255, AList.lookup_empty a⟩

/-- The entry for a key that occurs. -/
theorem Represents.lookup_pos (h : Represents t n) (ha : 0 < n a) :
  t.lookup a = some (UInt8.ofNat (n a))
  := by
  rw [(h a).2, if_neg (Nat.ne_of_gt ha)]

/-- There is no entry for a key that does not occur. -/
theorem Represents.lookup_zero (h : Represents t n) (ha : n a = 0) :
  t.lookup a = none
  := by
  rw [(h a).2, if_pos ha]

/-- What is counted is what occurs. -/
theorem Represents.value (h : Represents t n) (a : α) :
  value t a = n a
  := by
  rw [Counters.value]
  obtain ha | ha := Nat.eq_zero_or_pos (n a)
  · rw [h.lookup_zero ha, ha]
    rfl
  · rw [h.lookup_pos ha, Option.getD_some, UInt8.toNat_ofNat_of_lt' (h a).1]

/-- A table with another entry for one key. -/
theorem Represents.update {t' : AList fun _ : α => UInt8} {m : ℕ} (h : Represents t n)
    (hm : m < 256) (ha : t'.lookup a = if m = 0 then none else some (UInt8.ofNat m))
    (hrest : ∀ b, b ≠ a → t'.lookup b = t.lookup b) :
  Represents t' (Function.update n a m)
  := by
  intro b
  rw [Function.update_apply]
  split
  case isTrue heq =>
    subst heq
    exact ⟨hm, ha⟩
  case isFalse hne =>
    rw [hrest b hne]
    exact h b

omit [DecidableEq α] in
/-- The successor of a count. -/
theorem ofNat_succ (m : ℕ) :
  UInt8.ofNat m + 1 = UInt8.ofNat (m + 1)
  := (UInt8.ofNat_add m 1).symm

/-- What is counted after one more, in the arithmetic of bytes. -/
theorem Represents.lookup_raise (h : Represents t n) (a : α) :
  (raise t a).lookup a = some (UInt8.ofNat (n a + 1))
  := by
  rw [raise, AList.lookup_insert, ← ofNat_succ]
  obtain ha | ha := Nat.eq_zero_or_pos (n a)
  · rw [h.lookup_zero ha, ha]
    rfl
  · rw [h.lookup_pos ha]
    rfl

/-- One more of a key that a byte can still count. -/
theorem Represents.raise (h : Represents t n) (ha : n a + 1 < 256) :
  Represents (raise t a) (Function.update n a (n a + 1))
  := by
  apply h.update ha
  · rw [h.lookup_raise a, if_neg (Nat.succ_ne_zero _)]
  · intro b hb
    exact AList.lookup_insert_ne hb

/-- One more than a byte can count is none. -/
theorem Represents.value_raise_full (h : Represents t n) (ha : n a = 255) :
  Counters.value (Counters.raise t a) a = 0
  := by
  rw [Counters.value, h.lookup_raise a, ha]
  rfl

/-- A key that does not occur is not counted less. -/
theorem Represents.lower_zero (h : Represents t n) (ha : n a = 0) :
  Counters.lower t a = t
  := by
  rw [Counters.lower, h.lookup_zero ha]

/-- The entry after an entry was lowered. -/
theorem lookup_lower {m : UInt8} (ha : t.lookup a = some m) :
  (lower t a).lookup a = if m - 1 = 0 then none else some (m - 1)
  := by
  rw [lower, ha]
  dsimp only
  split
  · exact AList.lookup_erase a t
  · exact AList.lookup_insert t

/-- The other entries stay. -/
theorem lookup_lower_ne {b : α} (hb : b ≠ a) :
  (lower t a).lookup b = t.lookup b
  := by
  rw [lower]
  split
  · split
    · exact AList.lookup_erase_ne hb
    · exact AList.lookup_insert_ne hb
  · rfl

/-- What is counted is lowered by one, unless it was nothing. -/
theorem value_lower (ha : 0 < value t a) :
  value (lower t a) a = value t a - 1
  := by
  rw [value] at ha ⊢
  cases hentry : t.lookup a with
  | none =>
      rw [hentry] at ha
      exact absurd ha (lt_irrefl 0)
  | some m =>
      rw [hentry, Option.getD_some] at ha
      have hpred : (m - 1).toNat = m.toNat - 1 := by
        apply UInt8.toNat_sub_of_le
        exact UInt8.le_iff_toNat_le.mpr ha
      rw [lookup_lower hentry, value, hentry, Option.getD_some, ← hpred]
      split
      case isTrue hzero =>
        rw [hzero]
        rfl
      case isFalse => rfl

/-- What is counted for other keys stays. -/
theorem value_lower_ne {b : α} (hb : b ≠ a) :
  value (lower t a) b = value t b
  := by
  rw [value, value, lookup_lower_ne hb]

omit [DecidableEq α] in
/-- An entry for what is left of a count. -/
theorem entry_ofNat {m : ℕ} (hm : m < 256) :
  (if UInt8.ofNat (m + 1) - 1 = 0 then none else some (UInt8.ofNat (m + 1) - 1))
    = if m = 0 then none else some (UInt8.ofNat m)
  := by
  have hpred : UInt8.ofNat (m + 1) - 1 = UInt8.ofNat m := by
    rw [← ofNat_succ, UInt8.add_sub_cancel]
  have hzero : UInt8.ofNat m = 0 ↔ m = 0 := by
    rw [← UInt8.toNat_inj, UInt8.toNat_ofNat_of_lt' hm]
    rfl
  rw [hpred]
  simp only [hzero]

/-- One less of a key that occurs. -/
theorem Represents.lower (h : Represents t n) (ha : 0 < n a) :
  Represents (lower t a) (Function.update n a (n a - 1))
  := by
  have hlt : n a - 1 < 256 := lt_of_le_of_lt (Nat.sub_le _ _) (h a).1
  apply h.update hlt
  · rw [lookup_lower (h.lookup_pos ha), ← entry_ofNat hlt, Nat.sub_add_cancel ha]
  · intro b hb
    exact lookup_lower_ne hb

/-- One more and one less leave the counts as they were, even if a byte cannot tell the count
between them. -/
theorem Represents.lower_raise (h : Represents t n) (a : α) :
  Represents (Counters.lower (Counters.raise t a) a) n
  := by
  have hsame : Represents (Counters.lower (Counters.raise t a) a) (Function.update n a (n a)) :=
    h.update (h a).1
      (by rw [lookup_lower (h.lookup_raise a), entry_ofNat (h a).1])
      (fun b hb => by rw [lookup_lower_ne hb, Counters.raise, AList.lookup_insert_ne hb])
  rw [Function.update_eq_self] at hsame
  exact hsame

/-- Nothing is lost with the entry of a key that does not occur. -/
theorem Represents.erase (h : Represents t n) (ha : n a = 0) :
  Represents (t.erase a) n
  := by
  have hsame : Represents (t.erase a) (Function.update n a (n a)) := h.update (h a).1
    (by rw [AList.lookup_erase, if_pos ha])
    (fun b hb => AList.lookup_erase_ne hb)
  rw [Function.update_eq_self] at hsame
  exact hsame

end Counters
