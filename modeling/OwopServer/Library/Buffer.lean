import OwopServer.Library.Bytes

/-!
# Byte buffers of a fixed size

A `Buffer` is an array of bytes under construction, `none` where nothing was written yet.
`write b pos bs` stores `bs` at `pos`, and is `none` when a byte would fall outside.
`filled ws n` is a buffer whose first bytes are `ws`, followed by `n` bytes not yet
written; a write right behind `ws` extends `ws`.
-/

/-- A byte array of fixed size, `none` where nothing was written yet. -/
abbrev Buffer := List (Option UInt8)

namespace Buffer

/-- A buffer of `n` bytes in which nothing was written. -/
def fresh (n : ℕ) : Buffer := List.replicate n none

/-- The buffer after `bs` was stored at `pos`, if `bs` fits. -/
def write (b : Buffer) (pos : ℕ) (bs : Bytes) : Option Buffer :=
  if pos + bs.length ≤ b.length then
    some (b.take pos ++ bs.map some ++ b.drop (pos + bs.length))
  else none

/-- The first `n` bytes, if there are as many and all were written. -/
def contents (b : Buffer) (n : ℕ) : Option Bytes :=
  if n ≤ b.length then (b.take n).mapM id else none

/-- The buffer whose first bytes are `ws`, followed by `n` bytes not yet written. -/
def filled (ws : Bytes) (n : ℕ) : Buffer := ws.map some ++ List.replicate n none

theorem fresh_eq_filled (n : ℕ) :
  fresh n = filled [] n
  := rfl

@[simp]
theorem length_filled (ws : Bytes) (n : ℕ) :
  (filled ws n).length = ws.length + n
  := by
  simp [filled]

/-- A write replaces the part of the buffer it covers. -/
theorem write_middle (l m r : Buffer) (bs : Bytes) (h : bs.length = m.length) :
  write (l ++ (m ++ r)) l.length bs = some (l ++ (bs.map some ++ r))
  := by
  rw [write, if_pos (by simp [h]), h, List.take_left, ← List.append_assoc l m r,
    ← List.length_append, List.drop_left, List.append_assoc]

/-- A write right behind the filled part extends it. -/
theorem write_filled (ws bs : Bytes) {n : ℕ} (h : bs.length ≤ n) :
  write (filled ws n) ws.length bs = some (filled (ws ++ bs) (n - bs.length))
  := by
  obtain ⟨k, rfl⟩ := Nat.exists_eq_add_of_le h
  have key := write_middle (ws.map some) (List.replicate bs.length none)
    (List.replicate k none) bs (by simp)
  rw [List.length_map, ← List.replicate_add] at key
  rw [filled, key, filled, List.map_append, Nat.add_sub_cancel_left, List.append_assoc]

/-- A write right behind the filled part of a buffer whose start is dealt with elsewhere. -/
theorem write_append_filled (l : Buffer) (ws bs : Bytes) {n : ℕ} (h : bs.length ≤ n) :
  write (l ++ filled ws n) (l.length + ws.length) bs
    = some (l ++ filled (ws ++ bs) (n - bs.length))
  := by
  obtain ⟨k, rfl⟩ := Nat.exists_eq_add_of_le h
  have key := write_middle (l ++ ws.map some) (List.replicate bs.length none)
    (List.replicate k none) bs (by simp)
  rw [List.length_append, List.length_map, ← List.replicate_add, List.append_assoc,
    List.append_assoc] at key
  rw [filled, key, filled, List.map_append, Nat.add_sub_cancel_left, List.append_assoc]

theorem mapM_id_map_some (ws : Bytes) :
  (ws.map some).mapM id = some ws
  := by
  induction ws with
  | nil => rfl
  | cons b bs ih => simp [List.mapM_cons, ih]

/-- The contents of the filled part. -/
theorem contents_filled (ws : Bytes) (n : ℕ) :
  contents (filled ws n) ws.length = some ws
  := by
  rw [contents, if_pos (by simp), filled, List.take_left' (by simp), mapM_id_map_some]

end Buffer
