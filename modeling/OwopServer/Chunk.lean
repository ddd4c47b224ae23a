import OwopServer.Protocol

/-!
# Chunks

The class `Chunk` of `world.cpp`: the 768 bytes of a chunk of 16 by 16 pixels, three bytes
a pixel, with the operations that change them.  What needs the database, the constructor
and `save`, is with the world.
-/

namespace Owop

/-- The bytes of a chunk, `uint8_t data[16 * 16 * 3]`. -/
abbrev Data := Vector UInt8 768

namespace Data

/-- The index of the first byte of the pixel at column `x` and row `y`. -/
def pos (x y : Fin 16) : ℕ := (y * 16 + x) * 3

theorem pos_lt (x y : Fin 16) :
  pos x y + 2 < 768
  := by
  simp only [pos]
  omega

/-- The colour of the pixel at column `x` and row `y`. -/
def px (d : Data) (x y : Fin 16) : RGB :=
  have h := pos_lt x y
  ⟨d[pos x y], d[pos x y + 1], d[pos x y + 2]⟩

/-- The data with the pixel at column `x` and row `y` set to `c`. -/
def setPx (d : Data) (x y : Fin 16) (c : RGB) : Data :=
  ((d.set (pos x y) c.r (by have := pos_lt x y; omega)).set (pos x y + 1) c.g
    (by have := pos_lt x y; omega)).set (pos x y + 2) c.b (pos_lt x y)

/-- The data with the bytes `f i`. -/
def tabulate (f : ℕ → UInt8) : Data := ⟨((List.range 768).map f).toArray, by simp⟩

theorem getElem_tabulate (f : ℕ → UInt8) {i : ℕ} (h : i < 768) :
  (tabulate f)[i] = f i
  := by
  simp [tabulate]

/-- The data in which every pixel has the background colour `bgclr`. -/
def fill (bgclr : UInt32) : Data :=
  tabulate fun i => (bgclr >>> (UInt32.ofNat (i % 3 * 8))).toUInt8

/-- The data with the given bytes. -/
def ofBytes (bs : Bytes) : Option Data :=
  if h : bs.length = 768 then some ⟨bs.toArray, h⟩ else none

/-- The data after `bs` has been read into it. -/
def overwrite (d : Data) (bs : Bytes) : Data :=
  ⟨(bs.take 768 ++ d.toList.drop bs.length).toArray, by simp; omega⟩

/-- The colour of the pixels of `fill bgclr`. -/
def background (bgclr : UInt32) : RGB :=
  ⟨bgclr.toUInt8, (bgclr >>> 8).toUInt8, (bgclr >>> 16).toUInt8⟩

/-- Reading all the bytes replaces the data. -/
theorem overwrite_toList (d e : Data) :
  d.overwrite e.toList = e
  := by
  have htake : e.toList.take 768 = e.toList := List.take_of_length_le (by simp)
  have hdrop : d.toList.drop 768 = [] := List.drop_eq_nil_of_le (by simp)
  rw [← Vector.toList_inj]
  simp [overwrite, htake, hdrop]

theorem pos_mod_three (x y : Fin 16) :
  pos x y % 3 = 0
  := by
  simp [pos]

/-- Two pixels with the same index are the same. -/
theorem pos_inj {x y x' y' : Fin 16} (h : pos x y = pos x' y') :
  x = x' ∧ y = y'
  := by
  simp only [pos] at h
  constructor
  · apply Fin.ext
    omega
  · apply Fin.ext
    omega

/-- Setting a pixel sets it and leaves the others as they were. -/
theorem px_setPx (d : Data) (x y x' y' : Fin 16) (c : RGB) :
  (d.setPx x y c).px x' y' = if x' = x ∧ y' = y then c else d.px x' y'
  := by
  by_cases h : x' = x ∧ y' = y
  · obtain ⟨rfl, rfl⟩ := h
    simp [px, setPx]
  · have hne : pos x y ≠ pos x' y' := by
      intro he
      obtain ⟨rfl, rfl⟩ := pos_inj he
      exact h ⟨rfl, rfl⟩
    have hm := pos_mod_three x y
    have hm' := pos_mod_three x' y'
    rw [if_neg h]
    simp only [px, setPx, Vector.getElem_set, RGB.mk.injEq]
    and_intros
    · rw [if_neg (by omega), if_neg (by omega), if_neg hne]
    · rw [if_neg (by omega), if_neg (by omega), if_neg (by omega)]
    · rw [if_neg (by omega), if_neg (by omega), if_neg (by omega)]

@[simp]
theorem px_setPx_same (d : Data) (x y : Fin 16) (c : RGB) :
  (d.setPx x y c).px x y = c
  := by
  rw [px_setPx, if_pos ⟨rfl, rfl⟩]

/-- Data are determined by their pixels. -/
theorem ext_px {d e : Data} (h : ∀ x y, d.px x y = e.px x y) :
  d = e
  := by
  apply Vector.ext
  intro i hi
  have hp := h ⟨i / 3 % 16, by omega⟩ ⟨i / 48, by omega⟩
  have hpos : pos ⟨i / 3 % 16, by omega⟩ ⟨i / 48, by omega⟩ = i - i % 3 := by
    simp only [pos]
    omega
  simp only [px, RGB.mk.injEq, hpos] at hp
  obtain ⟨h₀, h₁, h₂⟩ := hp
  have hr : i % 3 = 0 ∨ i % 3 = 1 ∨ i % 3 = 2 := by omega
  obtain hr | hr | hr := hr
  · simpa only [hr, Nat.sub_zero] using h₀
  · simpa only [hr, Nat.sub_add_cancel (show 1 ≤ i by omega)] using h₁
  · simpa only [hr, Nat.sub_add_cancel (show 2 ≤ i by omega)] using h₂

/-- Setting a pixel to the colour it has changes nothing. -/
theorem setPx_eq_self {d : Data} {x y : Fin 16} {c : RGB} (h : d.px x y = c) :
  d.setPx x y c = d
  := by
  apply ext_px
  intro x' y'
  rw [px_setPx]
  split
  case isTrue he => rw [he.1, he.2, h]
  case isFalse => rfl

/-- Every pixel of `fill bgclr` has the background colour. -/
@[simp]
theorem px_fill (bgclr : UInt32) (x y : Fin 16) :
  (fill bgclr).px x y = background bgclr
  := by
  have h₀ := pos_mod_three x y
  have h₁ : (pos x y + 1) % 3 = 1 := by omega
  have h₂ : (pos x y + 2) % 3 = 2 := by omega
  simp only [px, fill, background, getElem_tabulate, h₀, h₁, h₂]
  simp

end Data

/-- The low four bits of a coordinate, `x & 0xF`. -/
def low4 (x : Int32) : Fin 16 := ⟨(x &&& 0xF).toBitVec.toNat % 16, by omega⟩

/-- A loaded chunk.  The pointer to its database is the world's. -/
structure Chunk where
  bgclr : UInt32
  cx : Int32
  cy : Int32
  data : Data
  changed : Bool
  ranked : Bool
  deriving DecidableEq

namespace Chunk

/-- `Chunk::set_data` for one pixel: whether the colour differed, and the chunk after. -/
def setData (c : Chunk) (x y : Fin 16) (clr : RGB) : Bool × Chunk :=
  if c.data.px x y = clr then (false, c)
  else (true, { c with data := c.data.setPx x y clr, changed := true })

/-- `Chunk::set_data` for the whole chunk. -/
def setDataFrom (c : Chunk) (newdata : Data) : Chunk :=
  { c with data := newdata, changed := true }

/-- `Chunk::clear` -/
def clear (c : Chunk) : Chunk :=
  { c with data := Data.fill c.bgclr, changed := true }

end Chunk

end Owop
