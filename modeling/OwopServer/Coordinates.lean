import OwopServer.Chunk

/-!
# Coordinates

A pixel coordinate is a chunk coordinate, `x >> 4`, and a column of the chunk, `x & 0xF`; a
chunk coordinate is a region coordinate, `x >> 5`, and a column of the region, `x & 31`.
Both splittings determine the coordinate, negative ones included.
-/

namespace Owop

/-- The region a chunk coordinate lies in, `x >> 5`. -/
def region (x : Int32) : Int32 := x >>> 5

/-- The low five bits of a coordinate, `x & 31`. -/
def low5 (x : Int32) : ℕ := (x &&& 31).toBitVec.toNat

/-- The chunk a pixel coordinate lies in, `x >> 4`. -/
def chunkOf (x : Int32) : Int32 := x >>> 4

/-- The region of a chunk. -/
theorem toInt_region (x : Int32) :
  (region x).toInt = x.toInt / 32
  := by
  have h : (x >>> 5 : Int32).toInt = (x.toBitVec.sshiftRight 5).toInt := rfl
  rw [region, h, BitVec.toInt_sshiftRight, Int.shiftRight_eq_div_pow]
  rfl

/-- The chunk of a pixel. -/
theorem toInt_chunkOf (x : Int32) :
  (chunkOf x).toInt = x.toInt / 16
  := by
  have h : (x >>> 4 : Int32).toInt = (x.toBitVec.sshiftRight 4).toInt := rfl
  rw [chunkOf, h, BitVec.toInt_sshiftRight, Int.shiftRight_eq_div_pow]
  rfl

/-- The low bits of a number are its rest. -/
theorem toInt_emod (x : Int32) (n : ℕ) (h : n ∣ 2 ^ 32) :
  x.toInt % n = ((x.toBitVec.toNat % n : ℕ) : ℤ)
  := by
  have hx : x.toInt = x.toBitVec.toInt := rfl
  have hn : (n : ℤ) ∣ 2 ^ 32 := by exact_mod_cast h
  rw [hx, BitVec.toInt_eq_toNat_bmod, Int.bmod_def]
  split
  · rw [Int.emod_emod_of_dvd _ (by exact_mod_cast h), Int.natCast_mod]
  · rw [Int.sub_emod, Int.emod_emod_of_dvd _ (by exact_mod_cast h)]
    have h0 : (((2 ^ 32 : ℕ) : ℤ)) % n = 0 := Int.emod_eq_zero_of_dvd (by exact_mod_cast h)
    rw [h0, Int.sub_zero, Int.emod_emod_of_dvd _ (dvd_refl _), Int.natCast_mod]

/-- The place of a chunk in its region. -/
theorem low5_eq (x : Int32) :
  (low5 x : ℤ) = x.toInt % 32
  := by
  have h : low5 x = x.toBitVec.toNat % 32 := by
    rw [low5, Int32.toBitVec_and, BitVec.toNat_and]
    exact Nat.and_two_pow_sub_one_eq_mod _ 5
  rw [h]
  exact (toInt_emod x 32 (by norm_num)).symm

/-- A region has 32 places each way. -/
theorem low5_lt (x : Int32) :
  low5 x < 32
  := by
  have h := low5_eq x
  omega

/-- The place of a pixel in its chunk. -/
theorem low4_eq (x : Int32) :
  ((low4 x : ℕ) : ℤ) = x.toInt % 16
  := by
  have hmask : (x &&& 15).toBitVec.toNat = x.toBitVec.toNat % 16 := by
    rw [Int32.toBitVec_and, BitVec.toNat_and]
    exact Nat.and_two_pow_sub_one_eq_mod _ 4
  have h : (low4 x : ℕ) = x.toBitVec.toNat % 16 := by
    show (x &&& 15).toBitVec.toNat % 16 = _
    rw [hmask, Nat.mod_mod]
  rw [h]
  exact (toInt_emod x 16 (by norm_num)).symm

/-- A chunk coordinate is determined by its region and its column of the region. -/
theorem region_low5_inj {x y : Int32} (h : region x = region y) (h' : low5 x = low5 y) :
  x = y
  := by
  have hx := toInt_region x
  have hy := toInt_region y
  have hx' := low5_eq x
  have hy' := low5_eq y
  rw [h] at hx
  rw [h'] at hx'
  apply Int32.toInt_inj.mp
  omega

/-- A pixel coordinate is determined by its chunk and its column of the chunk. -/
theorem chunkOf_low4_inj {x y : Int32} (h : chunkOf x = chunkOf y) (h' : low4 x = low4 y) :
  x = y
  := by
  have hx := toInt_chunkOf x
  have hy := toInt_chunkOf y
  have hx' := low4_eq x
  have hy' := low4_eq y
  rw [h] at hx
  rw [h'] at hx'
  apply Int32.toInt_inj.mp
  omega

/-- The pixel coordinate in column `i` of the chunk with coordinate `cx`. -/
def pixelIn (cx : Int32) (i : Fin 16) : Int32 := Int32.ofInt (16 * cx.toInt + i)

/-- Every column of a chunk has a coordinate. -/
theorem chunkOf_pixelIn {cx : Int32} (i : Fin 16) (hlo : -2 ^ 27 ≤ cx.toInt)
    (hhi : cx.toInt < 2 ^ 27) :
  chunkOf (pixelIn cx i) = cx ∧ low4 (pixelIn cx i) = i
  := by
  have hi := i.isLt
  have hval : (pixelIn cx i).toInt = 16 * cx.toInt + i := by
    apply Int32.toInt_ofInt_of_le
    · omega
    · omega
  have hlow := low4_eq (pixelIn cx i)
  constructor
  · apply Int32.toInt_inj.mp
    rw [toInt_chunkOf, hval]
    omega
  · apply Fin.ext
    omega

/-- The region of a chunk. -/
def regionOf (c : ChunkPos) : Int32 × Int32 := (region c.1, region c.2)

/-- The number of a chunk in the lookup table of its region. -/
def slotOf (c : ChunkPos) : ℕ := low5 c.1 + low5 c.2 * 32

/-- A region has 1024 chunks. -/
theorem slotOf_lt (c : ChunkPos) :
  slotOf c < 1024
  := by
  have h₁ := low5_lt c.1
  have h₂ := low5_lt c.2
  rw [slotOf]
  omega

/-- Chunks of one region have different numbers. -/
theorem regionOf_slotOf_inj {c d : ChunkPos} (h : regionOf c = regionOf d)
    (h' : slotOf c = slotOf d) :
  c = d
  := by
  have h₁ := low5_lt c.1
  have h₂ := low5_lt d.1
  simp only [regionOf, Prod.mk.injEq] at h
  rw [slotOf, slotOf] at h'
  apply Prod.ext
  · apply region_low5_inj h.1
    omega
  · apply region_low5_inj h.2
    omega

end Owop
