import OwopServer.Library.Bytes

/-!
# Records of a fixed size

A `Record` writes values in a fixed number of bytes and reads them back.  A list of records is
written with its length in front, and `readCounted` is the reader of such a list that leaves the
bytes behind it; by `readCounted_eq_some_iff` it accepts what is written, and nothing else.
-/

/-- Values with a representation in a fixed number of bytes. -/
structure Record (α : Type*) where
  size : ℕ
  bytes : α → Bytes
  ofBytes : Bytes → α
  length_bytes : ∀ a, (bytes a).length = size
  ofBytes_bytes : ∀ a, ofBytes (bytes a) = a
  bytes_ofBytes : ∀ bs, bs.length = size → bytes (ofBytes bs) = bs

namespace Record

variable {α : Type*} (r : Record α)

/-- The bytes of some records. -/
def write (as : List α) : Bytes := as.flatMap r.bytes

/-- Read `n` records, and leave the bytes behind them. -/
def read : ℕ → Bytes → Option (List α × Bytes)
  | 0, bs => some ([], bs)
  | n + 1, bs =>
      if r.size ≤ bs.length then do
        let (as, rest) ← read n (bs.drop r.size)
        return (r.ofBytes (bs.take r.size) :: as, rest)
      else none

/-- The bytes of some records, with their number in `k` bytes in front. -/
def writeCounted (k : ℕ) (as : List α) : Bytes := Bytes.leBytes k as.length ++ r.write as

/-- Read records with their number in `k` bytes in front, and leave the bytes behind them. -/
def readCounted (k : ℕ) (bs : Bytes) : Option (List α × Bytes) :=
  if k ≤ bs.length then r.read (Bytes.leNat (bs.take k)) (bs.drop k) else none

/-- What is read is what was written. -/
theorem read_eq_some_iff {n : ℕ} {bs rest : Bytes} {as : List α} :
  r.read n bs = some (as, rest) ↔ as.length = n ∧ bs = r.write as ++ rest
  := by
  induction n generalizing bs as with
  | zero =>
      rw [read, Option.some.injEq, Prod.mk.injEq, List.length_eq_zero_iff]
      constructor
      · rintro ⟨rfl, rfl⟩
        exact ⟨rfl, rfl⟩
      · rintro ⟨rfl, rfl⟩
        exact ⟨rfl, rfl⟩
  | succ n ih =>
      rw [read]
      constructor
      · intro h
        split at h
        case isTrue hle =>
          obtain ⟨⟨as', rest'⟩, hread, h⟩ := Option.bind_eq_some_iff.mp h
          obtain ⟨rfl, rfl⟩ := Prod.mk.inj (Option.some.inj h)
          obtain ⟨hlen, hdrop⟩ := ih.mp hread
          refine ⟨by rw [List.length_cons, hlen], ?_⟩
          rw [write, List.flatMap_cons, r.bytes_ofBytes _ (List.length_take_of_le hle),
            List.append_assoc, ← write, ← hdrop, List.take_append_drop]
        case isFalse => exact absurd h (by simp)
      · rintro ⟨hlen, rfl⟩
        obtain ⟨a, as, rfl⟩ := List.exists_cons_of_length_eq_add_one hlen
        have hread := ih.mpr (⟨Nat.succ.inj hlen, rfl⟩ : as.length = n ∧ r.write as ++ rest = _)
        have hsize := r.length_bytes a
        have hbytes : r.write (a :: as) ++ rest = r.bytes a ++ (r.write as ++ rest) := by
          rw [write, List.flatMap_cons, List.append_assoc, write]
        rw [hbytes, if_pos (by rw [List.length_append, hsize]; omega), ← hsize, List.drop_left,
          List.take_left, hread, r.ofBytes_bytes]
        rfl

/-- What is read with its number is what was written so, if the number fits. -/
theorem readCounted_eq_some_iff {k : ℕ} {bs rest : Bytes} {as : List α} :
  r.readCounted k bs = some (as, rest) ↔
    as.length < 256 ^ k ∧ bs = r.writeCounted k as ++ rest
  := by
  rw [readCounted]
  constructor
  · intro h
    split at h
    case isTrue hle =>
      obtain ⟨hlen, hdrop⟩ := r.read_eq_some_iff.mp h
      have htake : (bs.take k).length = k := List.length_take_of_le hle
      constructor
      · rw [hlen]
        nth_rewrite 2 [← htake]
        exact Bytes.leNat_lt _
      · have hnumber : Bytes.leBytes k as.length = bs.take k := by
          rw [hlen]
          nth_rewrite 1 [← htake]
          exact Bytes.leBytes_leNat _
        rw [writeCounted, hnumber, List.append_assoc, ← hdrop, List.take_append_drop]
    case isFalse => exact absurd h (by simp)
  · rintro ⟨hlt, rfl⟩
    have hk := Bytes.length_leBytes k as.length
    have hbytes : r.writeCounted k as ++ rest = Bytes.leBytes k as.length ++ (r.write as ++ rest) :=
      List.append_assoc _ _ _
    rw [hbytes, if_pos (by rw [List.length_append, hk]; omega), List.take_left' hk,
      List.drop_left' hk, Bytes.leNat_leBytes_of_lt hlt]
    exact r.read_eq_some_iff.mpr ⟨rfl, rfl⟩

/-- What is written with its number is read. -/
theorem readCounted_writeCounted {k : ℕ} {as : List α} (h : as.length < 256 ^ k) (rest : Bytes) :
  r.readCounted k (r.writeCounted k as ++ rest) = some (as, rest)
  := r.readCounted_eq_some_iff.mpr ⟨h, rfl⟩

end Record
