import Mathlib

/-!
# Byte strings

`Bytes` is a list of bytes.  `leBytes n v` is the little-endian representation of `v` in
`n` bytes and `leNat` reads it back.  `slice f pos n` is what a reader of the file `f`
gets from `n` bytes at `pos`, and `splice f pos bs` is the file after `bs` was written
at `pos`; a hole left by a write past the end is filled with zeros.
-/

/-- A string of bytes. -/
abbrev Bytes := List UInt8

instance : LawfulBEq Bytes := List.instLawfulBEq

namespace Bytes

/-- The bytes of a text. -/
def ofString (s : String) : Bytes := s.toUTF8.data.toList

/-! ### Little-endian numbers -/

/-- The `n` low bytes of `v`, the least significant first. -/
def leBytes : ℕ → ℕ → Bytes
  | 0, _ => []
  | n + 1, v => UInt8.ofNat v :: leBytes n (v / 256)

/-- The number whose bytes, the least significant first, are the given ones. -/
def leNat : Bytes → ℕ
  | [] => 0
  | b :: bs => b.toNat + 256 * leNat bs

/-- As many bytes as asked for. -/
@[simp]
theorem length_leBytes (n v : ℕ) :
  (leBytes n v).length = n
  := by
  induction n generalizing v with
  | zero => rfl
  | succ n ih => simp [leBytes, ih]

/-- Reading the `n` low bytes of `v` gives `v` modulo `256 ^ n`. -/
theorem leNat_leBytes (n v : ℕ) :
  leNat (leBytes n v) = v % 256 ^ n
  := by
  induction n generalizing v with
  | zero => simp [leBytes, leNat, Nat.mod_one]
  | succ n ih =>
      have hb : (UInt8.ofNat v).toNat = v % 256 := by simp
      rw [leBytes, leNat, ih, hb, pow_succ', Nat.mod_mul]

/-- A number below `256 ^ n` is read back from its `n` low bytes. -/
theorem leNat_leBytes_of_lt {n v : ℕ} (h : v < 256 ^ n) :
  leNat (leBytes n v) = v
  := by
  rw [leNat_leBytes, Nat.mod_eq_of_lt h]

/-- A byte string of length `n` denotes a number below `256 ^ n`. -/
theorem leNat_lt (bs : Bytes) :
  leNat bs < 256 ^ bs.length
  := by
  induction bs with
  | nil => simp [leNat]
  | cons b bs ih =>
      have hb := b.toNat_lt
      rw [leNat, List.length_cons, pow_succ']
      omega

/-- The bytes of the number a byte string denotes are the byte string. -/
theorem leBytes_leNat (bs : Bytes) :
  leBytes bs.length (leNat bs) = bs
  := by
  induction bs with
  | nil => rfl
  | cons b bs ih =>
      have hb := b.toNat_lt
      have hq : (b.toNat + 256 * leNat bs) / 256 = leNat bs := by omega
      have hr : UInt8.ofNat (b.toNat + 256 * leNat bs) = b := by
        apply UInt8.toNat_inj.mp
        simp only [UInt8.toNat_ofNat']
        omega
      rw [List.length_cons, leBytes, leNat, hq, ih, hr]

/-- Zero has only zero bytes. -/
theorem leBytes_zero (n : ℕ) :
  leBytes n 0 = List.replicate n 0
  := by
  induction n with
  | zero => rfl
  | succ n ih => simp [leBytes, ih, List.replicate_succ]

/-- The first `p` bytes of a number, followed by zeros, are those of the number modulo
`256 ^ p`. -/
theorem take_leBytes (n v p : ℕ) :
  (leBytes n v).take p ++ List.replicate (n - p) 0 = leBytes n (v % 256 ^ p)
  := by
  induction n generalizing v p with
  | zero => simp [leBytes]
  | succ n ih =>
      cases p with
      | zero => simp [Nat.mod_one, leBytes_zero]
      | succ p =>
          have hdiv : v % 256 ^ (p + 1) / 256 = v / 256 % 256 ^ p := by
            rw [pow_succ', Nat.mod_mul_right_div_self]
          have hmod : UInt8.ofNat (v % 256 ^ (p + 1)) = UInt8.ofNat v := by
            apply UInt8.toNat_inj.mp
            simp only [UInt8.toNat_ofNat']
            rw [pow_succ', Nat.mod_mul_right_mod]
          rw [leBytes, leBytes, List.take_succ_cons, List.cons_append, Nat.add_sub_add_right, ih,
            hdiv, hmod]

/-! ### Reading and writing at a position -/

/-- The up to `n` bytes of `f` from position `pos` on. -/
def slice (f : Bytes) (pos n : ℕ) : Bytes := (f.drop pos).take n

/-- `f` after the bytes `bs` were written at position `pos`.  Writing no bytes changes
nothing. -/
def splice (f : Bytes) (pos : ℕ) (bs : Bytes) : Bytes :=
  if bs = [] then f
  else (f ++ List.replicate (pos - f.length) 0).take pos ++ bs ++ f.drop (pos + bs.length)

@[simp]
theorem splice_nil (f : Bytes) (pos : ℕ) :
  splice f pos [] = f
  := if_pos rfl

/-- Writing to an empty file. -/
theorem nil_splice (bs : Bytes) :
  splice [] 0 bs = bs
  := by
  rw [splice]
  split
  case isTrue h => exact h.symm
  case isFalse => simp

/-- A write at the end of a file adds to it. -/
theorem splice_length (f bs : Bytes) :
  splice f f.length bs = f ++ bs
  := by
  by_cases h : bs = []
  · rw [h, splice_nil, List.append_nil]
  · rw [splice, if_neg h, Nat.sub_self, List.replicate_zero, List.append_nil, List.take_length,
      List.drop_eq_nil_of_le (Nat.le_add_right _ _), List.append_nil]

/-- A slice ends with the file. -/
theorem length_slice (f : Bytes) (pos n : ℕ) :
  (slice f pos n).length = min n (f.length - pos)
  := by
  simp [slice]

/-- A slice that lies inside the file has the length asked for. -/
theorem length_slice_of_le {f : Bytes} {pos n : ℕ} (h : pos + n ≤ f.length) :
  (slice f pos n).length = n
  := by
  rw [length_slice]
  omega

/-- A byte of a slice. -/
theorem getElem?_slice (f : Bytes) (pos n i : ℕ) :
  (slice f pos n)[i]? = if i < n then f[pos + i]? else none
  := by
  simp only [slice, List.getElem?_take, List.getElem?_drop]

/-- A write behind the end makes the file longer. -/
theorem length_splice {f : Bytes} {pos : ℕ} {bs : Bytes} (h : bs ≠ []) :
  (splice f pos bs).length = max f.length (pos + bs.length)
  := by
  rw [splice, if_neg h]
  simp only [List.length_append, List.length_take, List.length_replicate, List.length_drop]
  omega

/-- A byte of `splice f pos bs` is a byte of `bs` inside the written range, and outside of
it a byte of `f`, or a zero of the hole before the range. -/
theorem getElem?_splice {f : Bytes} {pos : ℕ} {bs : Bytes} (h : bs ≠ []) (i : ℕ) :
  (splice f pos bs)[i]?
    = if i < pos then (if i < f.length then f[i]? else some 0)
      else if i < pos + bs.length then bs[i - pos]? else f[i]?
  := by
  have hpre : ((f ++ List.replicate (pos - f.length) 0).take pos).length = pos := by
    simp only [List.length_take, List.length_append, List.length_replicate]
    omega
  rw [splice, if_neg h, List.append_assoc]
  by_cases hi : i < pos
  · rw [List.getElem?_append_left (by omega), List.getElem?_take, if_pos hi, if_pos hi]
    by_cases hf : i < f.length
    · rw [List.getElem?_append_left hf, if_pos hf]
    · rw [List.getElem?_append_right (by omega), if_neg hf, List.getElem?_replicate,
        if_pos (by omega)]
  · rw [List.getElem?_append_right (by omega), hpre, if_neg hi]
    by_cases hb : i < pos + bs.length
    · rw [List.getElem?_append_left (by omega), if_pos hb]
    · rw [List.getElem?_append_right (by omega), List.getElem?_drop, if_neg hb]
      congr 1
      omega

/-- What was written is read back. -/
theorem slice_splice_same (f : Bytes) (pos : ℕ) (bs : Bytes) :
  slice (splice f pos bs) pos bs.length = bs
  := by
  by_cases h : bs = []
  · simp [h, slice]
  · apply List.ext_getElem?
    intro i
    rw [getElem?_slice, getElem?_splice h, if_neg (show ¬ pos + i < pos by omega)]
    by_cases hi : i < bs.length
    · rw [if_pos hi, if_pos (show pos + i < pos + bs.length by omega)]
      congr 1
      omega
    · rw [if_neg hi, List.getElem?_eq_none (by omega)]

/-- A write leaves alone what is read before or behind it. -/
theorem slice_splice_of_disjoint {f : Bytes} {pos pos' n : ℕ} {bs : Bytes}
    (hle : pos' + n ≤ f.length) (h : pos' + n ≤ pos ∨ pos + bs.length ≤ pos') :
  slice (splice f pos bs) pos' n = slice f pos' n
  := by
  by_cases hb : bs = []
  · rw [hb, splice_nil]
  · apply List.ext_getElem?
    intro i
    rw [getElem?_slice, getElem?_slice, getElem?_splice hb]
    by_cases hi : i < n
    · rw [if_pos hi, if_pos hi]
      obtain h | h := h
      · rw [if_pos (show pos' + i < pos by omega), if_pos (show pos' + i < f.length by omega)]
      · rw [if_neg (show ¬ pos' + i < pos by omega),
          if_neg (show ¬ pos' + i < pos + bs.length by omega)]
    · rw [if_neg hi, if_neg hi]

/-- Writing what is there already changes nothing. -/
theorem splice_slice {f : Bytes} {pos n : ℕ} (hle : pos + n ≤ f.length) :
  splice f pos (slice f pos n) = f
  := by
  by_cases hb : slice f pos n = []
  · rw [hb, splice_nil]
  · apply List.ext_getElem?
    intro i
    rw [getElem?_splice hb, length_slice_of_le hle]
    split
    · rw [if_pos (by omega)]
    · split
      · rw [getElem?_slice, if_pos (by omega)]
        congr 1
        omega
      · rfl

/-- Of a write that ends with what is there already, only the start matters. -/
theorem splice_append_slice {f as bs : Bytes} {pos : ℕ}
    (hle : pos + as.length + bs.length ≤ f.length) (h : slice f (pos + as.length) bs.length = bs) :
  splice f pos (as ++ bs) = splice f pos as
  := by
  by_cases ha : as = []
  · subst ha
    simp only [List.nil_append, List.length_nil, Nat.add_zero, splice_nil] at *
    conv_lhs => rw [← h]
    exact splice_slice hle
  · apply List.ext_getElem?
    intro i
    rw [getElem?_splice (by simp [ha]), getElem?_splice ha, List.length_append]
    split
    · rfl
    · by_cases hi : i < pos + as.length
      · rw [if_pos (by omega), if_pos hi, List.getElem?_append_left (by omega)]
      · rw [if_neg hi]
        split
        · rw [List.getElem?_append_right (by omega), ← h, getElem?_slice, if_pos (by omega)]
          congr 1
          omega
        · rfl

/-- A part of a file is read back at its place. -/
theorem slice_of_eq {f a b c : Bytes} {pos n : ℕ} (h : f = a ++ (b ++ c))
    (ha : a.length = pos) (hb : b.length = n) :
  slice f pos n = b
  := by
  rw [h, slice, List.drop_left' ha, List.take_left' hb]

/-- Entries of `k` bytes each are read back one by one. -/
theorem slice_flatMap {α : Type*} {enc : α → Bytes} {k : ℕ} (henc : ∀ a, (enc a).length = k)
    (pre post : Bytes) {pos : ℕ} (hpre : pre.length = pos) (as : List α) :
  (List.range as.length).map (fun i => slice (pre ++ (as.flatMap enc ++ post)) (pos + k * i) k)
    = as.map enc
  := by
  induction as generalizing pre pos with
  | nil => rfl
  | cons a as ih =>
      have hnext := @ih (pre ++ enc a) (pos + k) (by rw [List.length_append, hpre, henc])
      rw [List.length_cons, List.range_succ_eq_map, List.map_cons, List.map_map, List.map_cons,
        ← hnext, List.flatMap_cons]
      congr 1
      · exact slice_of_eq (c := as.flatMap enc ++ post) (by rw [List.append_assoc])
          (hpre.trans (by omega)) (henc a)
      · apply List.map_congr_left
        intro i _
        rw [Function.comp_apply, List.append_assoc, List.append_assoc, Nat.mul_succ]
        congr 1
        omega

/-! ### Pieces -/

/-- The pieces between separators contain no separator. -/
theorem notMem_of_mem_splitOn {sep : UInt8} {bs piece : Bytes} (h : piece ∈ bs.splitOn sep) :
  sep ∉ piece
  := by
  induction bs generalizing piece with
  | nil =>
      rw [List.splitOn_nil, List.mem_singleton] at h
      rw [h]
      exact List.not_mem_nil
  | cons b bs ih =>
      rw [List.splitOn_cons_eq_if_modifyHead] at h
      obtain ⟨first, rest, hpieces⟩ := List.exists_cons_of_ne_nil (List.splitOn_ne_nil sep bs)
      rw [hpieces] at h ih
      split at h
      case isTrue =>
        obtain rfl | hmem := List.mem_cons.mp h
        · exact List.not_mem_nil
        · exact ih hmem
      case isFalse hne =>
        rw [List.modifyHead_cons, List.mem_cons] at h
        obtain rfl | hmem := h
        · rw [List.mem_cons, not_or]
          refine ⟨?_, ih List.mem_cons_self⟩
          rintro rfl
          exact hne (beq_self_eq_true sep)
        · exact ih (List.mem_cons_of_mem first hmem)

/-- The pieces between separators are as long as the text together, each with a separator but
the last. -/
theorem sum_length_splitOn (sep : UInt8) (bs : Bytes) :
  ((bs.splitOn sep).map fun piece => piece.length + 1).sum = bs.length + 1
  := by
  induction bs with
  | nil => simp
  | cons b bs ih =>
      obtain ⟨first, rest, hpieces⟩ := List.exists_cons_of_ne_nil (List.splitOn_ne_nil sep bs)
      rw [List.splitOn_cons_eq_if_modifyHead]
      rw [hpieces] at ih ⊢
      rw [List.map_cons, List.sum_cons] at ih
      split
      case isTrue =>
        simp only [List.map_cons, List.sum_cons, List.length_cons, List.length_nil]
        omega
      case isFalse =>
        simp only [List.modifyHead_cons, List.map_cons, List.sum_cons, List.length_cons]
        omega

end Bytes
