import OwopServer.Compression

/-!
# The runs the first pass finds

The pixels of a chunk are cut into blocks, each some pixels that are copied followed by a
run of at least three equal ones, and a rest that is copied.  `scanData_spec` says that the
first pass of `compress_data_to` records the offsets and the lengths of such blocks.
-/

namespace Owop

/-! ### Pixels and bytes -/

/-- The bytes of a list of pixels. -/
def raw (ps : List RGB) : Bytes := ps.flatMap RGB.bytes

@[simp]
theorem raw_nil :
  raw [] = []
  := rfl

/-- The bytes of the first pixel come first. -/
theorem raw_cons (c : RGB) (ps : List RGB) :
  raw (c :: ps) = c.bytes ++ raw ps
  := rfl

/-- The bytes of pixels one after another. -/
theorem raw_append (ps qs : List RGB) :
  raw (ps ++ qs) = raw ps ++ raw qs
  := List.flatMap_append

/-- A pixel takes 3 bytes. -/
@[simp]
theorem length_raw (ps : List RGB) :
  (raw ps).length = 3 * ps.length
  := by
  induction ps with
  | nil => rfl
  | cons c ps ih =>
      simp only [raw_cons, List.length_append, ih, RGB.length_bytes, List.length_cons]
      omega

/-- The bytes of one pixel. -/
theorem getElem?_raw (ps : List RGB) (k j : ℕ) (hj : j < 3) :
  (raw ps)[3 * k + j]? = ps[k]?.bind fun c => c.bytes[j]?
  := by
  induction ps generalizing k with
  | nil => rfl
  | cons c ps ih =>
      have hlen := c.length_bytes
      rw [raw_cons]
      cases k with
      | zero =>
          rw [List.getElem?_append_left (by omega)]
          simp
      | succ k =>
          rw [List.getElem?_append_right (by omega), hlen,
            show 3 * (k + 1) + j - 3 = 3 * k + j by omega, ih]
          rfl

/-- The pixels of a chunk, row by row. -/
def Data.pixels (d : Data) : List RGB :=
  List.ofFn fun k : Fin 256 => d.px ⟨k % 16, by omega⟩ ⟨k / 16, by omega⟩

/-- A chunk has 256 pixels. -/
@[simp]
theorem Data.length_pixels (d : Data) :
  d.pixels.length = 256
  := List.length_ofFn

/-- One pixel of a chunk. -/
theorem Data.getElem?_pixels (d : Data) {k : ℕ} (hk : k < 256) :
  d.pixels[k]? = some ⟨d[3 * k], d[3 * k + 1], d[3 * k + 2]⟩
  := by
  have hpos : pos ⟨k % 16, by omega⟩ ⟨k / 16, by omega⟩ = 3 * k := by
    simp only [pos]
    omega
  rw [pixels, List.getElem?_ofFn, dif_pos hk]
  simp only [px, hpos]

/-- The data are the bytes of the pixels. -/
theorem Data.toList_eq_raw (d : Data) :
  d.toList = raw d.pixels
  := by
  apply List.ext_getElem?
  intro i
  by_cases hi : i < 768
  · obtain ⟨k, j, hj, rfl⟩ : ∃ k j, j < 3 ∧ i = 3 * k + j :=
      ⟨i / 3, i % 3, by omega, by omega⟩
    rw [getElem?_raw _ _ _ hj, d.getElem?_pixels (by omega), Vector.getElem?_toList,
      Vector.getElem?_eq_getElem hi]
    have hcases : j = 0 ∨ j = 1 ∨ j = 2 := by omega
    obtain rfl | rfl | rfl := hcases
    · rfl
    · rfl
    · rfl
  · rw [List.getElem?_eq_none (by simp; omega), List.getElem?_eq_none (by simp; omega)]

/-- The number `compress_data_to` packs a colour in. -/
def RGB.code (c : RGB) : ℕ := c.b.toNat <<< 16 ||| c.g.toNat <<< 8 ||| c.r.toNat

/-- The code of a colour, from its bytes. -/
theorem RGB.code_eq (c : RGB) :
  c.code = (c.b.toNat * 256 + c.g.toNat) * 256 + c.r.toNat
  := by
  have hg := c.g.toNat_lt
  have hr := c.r.toNat_lt
  have h₁ : c.g.toNat <<< 8 < 2 ^ 16 := by
    rw [Nat.shiftLeft_eq]
    omega
  have h₂ : c.b.toNat <<< 16 + c.g.toNat <<< 8 = (c.b.toNat * 256 + c.g.toNat) <<< 8 := by
    simp only [Nat.shiftLeft_eq]
    omega
  rw [code, ← Nat.shiftLeft_add_eq_or_of_lt h₁, h₂,
    ← Nat.shiftLeft_add_eq_or_of_lt (i := 8) (by omega), Nat.shiftLeft_eq]

/-- Equal packed colours are equal colours. -/
theorem RGB.code_injective :
  Function.Injective RGB.code
  := by
  rintro ⟨r, g, b⟩ ⟨r', g', b'⟩ h
  simp only [code_eq] at h
  have hr := r.toNat_lt
  have hr' := r'.toNat_lt
  have hg := g.toNat_lt
  have hg' := g'.toNat_lt
  obtain rfl : r = r' := UInt8.toNat_inj.mp (by omega)
  obtain rfl : g = g' := UInt8.toNat_inj.mp (by omega)
  obtain rfl : b = b' := UInt8.toNat_inj.mp (by omega)
  rfl

/-- The colour that the scan compares is that of the pixel. -/
theorem clrAt_eq (d : Data) {k : ℕ} (hk : k < 256) :
  clrAt d (3 * k) = d.pixels[k]?.map RGB.code
  := by
  rw [d.getElem?_pixels hk, clrAt, Vector.getElem?_eq_getElem (by omega),
    Vector.getElem?_eq_getElem (by omega), Vector.getElem?_eq_getElem (by omega)]
  rfl

/-! ### Blocks -/

/-- Pixels that are copied, followed by a run of `len` pixels of colour `clr`. -/
structure Block where
  lit : List RGB
  len : ℕ
  clr : RGB

namespace Block

/-- The pixels of a block. -/
def pixels (b : Block) : List RGB := b.lit ++ List.replicate b.len b.clr

/-- The number of bytes a block takes in the body. -/
def size (b : Block) : ℕ := 3 * b.lit.length + 5

/-- The bytes of a block in the body. -/
def body (b : Block) : Bytes :=
  raw b.lit ++ uint16Bytes (UInt16.ofNat b.len) ++ b.clr.bytes

/-- The run of a block that starts at offset `off` of the body. -/
def point (off : ℕ) (b : Block) : CompressedPoint :=
  ⟨UInt16.ofNat (off + 3 * b.lit.length), UInt16.ofNat b.len⟩

/-- A block takes as many bytes as its size says. -/
@[simp]
theorem length_body (b : Block) :
  b.body.length = b.size
  := by
  simp only [body, size, List.length_append, length_raw, length_uint16Bytes, RGB.length_bytes]

end Block

/-- The pixels of some blocks. -/
def pixelsOf (bs : List Block) : List RGB := bs.flatMap Block.pixels

/-- The number of bytes some blocks take in the body. -/
def bodySize (bs : List Block) : ℕ := (bs.map Block.size).sum

/-- The runs of some blocks, the first of which starts at offset `off` of the body. -/
def pointsOf : ℕ → List Block → List CompressedPoint
  | _, [] => []
  | off, b :: bs => b.point off :: pointsOf (off + b.size) bs

/-- The size of the first block and of the others. -/
@[simp]
theorem bodySize_cons (b : Block) (bs : List Block) :
  bodySize (b :: bs) = b.size + bodySize bs
  := rfl

/-- The size of blocks one after another. -/
@[simp]
theorem bodySize_append (bs cs : List Block) :
  bodySize (bs ++ cs) = bodySize bs + bodySize cs
  := by
  simp [bodySize]

/-- The points of blocks one after another. -/
theorem pointsOf_append (off : ℕ) (bs cs : List Block) :
  pointsOf off (bs ++ cs) = pointsOf off bs ++ pointsOf (off + bodySize bs) cs
  := by
  induction bs generalizing off with
  | nil => rfl
  | cons b bs ih =>
      rw [List.cons_append, pointsOf, pointsOf, ih, bodySize_cons, Nat.add_assoc]
      rfl

/-- Every block has a point. -/
@[simp]
theorem length_pointsOf (off : ℕ) (bs : List Block) :
  (pointsOf off bs).length = bs.length
  := by
  induction bs generalizing off with
  | nil => rfl
  | cons b bs ih => simp [pointsOf, ih]

/-- Blocks with runs of at least three pixels take no more bytes than their pixels, and at
least four bytes less for each block. -/
theorem bodySize_le {bs : List Block} (h : ∀ b ∈ bs, 3 ≤ b.len) :
  bodySize bs + 4 * bs.length ≤ 3 * (pixelsOf bs).length
  := by
  induction bs with
  | nil => simp [bodySize]
  | cons b bs ih =>
      obtain ⟨hb, hbs⟩ := List.forall_mem_cons.mp h
      have := ih hbs
      simp only [bodySize_cons, Block.size, pixelsOf, List.flatMap_cons, List.length_append,
        Block.pixels, List.length_replicate, List.length_cons] at this ⊢
      omega

/-! ### The loop over the pixels -/

/-- The state of the loop after the pixels `ps`: they are the blocks `bs`, the pixels `lit`
to be copied and `t` pixels of the last colour `c`. -/
structure Scanned (ps : List RGB) (bs : List Block) (lit : List RGB) (t : ℕ) (c : RGB)
    (s : Scan) : Prop where
  pixels : ps = pixelsOf bs ++ lit ++ List.replicate t c
  long : ∀ b ∈ bs, 3 ≤ b.len
  compressedPos : s.compressedPos = pointsOf 0 bs
  compBytes : s.compBytes.toNat = bodySize bs + 3 * (lit.length + t)
  lastclr : s.lastclr = c.code
  count : s.t.toNat = t

/-- The counters of the loop stay below the number of bytes of the pixels seen. -/
theorem Scanned.bound {ps : List RGB} {bs : List Block} {lit : List RGB} {t : ℕ} {c : RGB}
    {s : Scan} (h : Scanned ps bs lit t c s) :
  s.compBytes.toNat + 4 * bs.length ≤ 3 * ps.length ∧ lit.length + t ≤ ps.length
  := by
  have hsize := bodySize_le h.long
  have hlen := congrArg List.length h.pixels
  simp only [List.length_append, List.length_replicate] at hlen
  rw [h.compBytes]
  omega

/-- One more pixel of the last colour. -/
theorem Scanned.next_same {ps : List RGB} {bs : List Block} {lit : List RGB} {t : ℕ} {c : RGB}
    {s : Scan} (h : Scanned ps bs lit t c s) (hps : ps.length < 256) :
  Scanned (ps ++ [c]) bs lit (t + 1) c (s.next c.code)
  := by
  have hb := h.bound
  have hc := h.compBytes
  have ht := h.count
  rw [Scan.next, if_pos h.lastclr.symm]
  constructor
  case pixels => simp [h.pixels, List.replicate_succ']
  case long => exact h.long
  case compressedPos => exact h.compressedPos
  case compBytes =>
    simp only [UInt16.toNat_add, UInt16.reduceToNat]
    omega
  case lastclr => exact h.lastclr
  case count =>
    simp only [UInt16.toNat_add, UInt16.reduceToNat]
    omega

/-- The offset of a run of `t` pixels, found by retracting the bytes counted for it. -/
theorem Scanned.retract {ps : List RGB} {bs : List Block} {lit : List RGB} {t : ℕ} {c : RGB}
    {s : Scan} (h : Scanned ps bs lit t c s) :
  s.compBytes - s.t * 3 = UInt16.ofNat (bodySize bs + 3 * lit.length)
  := by
  have hb := h.bound
  have hc := h.compBytes
  have ht := h.count
  apply UInt16.toNat_inj.mp
  simp only [UInt16.toNat_sub, UInt16.toNat_mul, UInt16.reduceToNat, UInt16.toNat_ofNat']
  omega

/-- A recorded run closes a block. -/
theorem Scanned.close {ps : List RGB} {bs : List Block} {lit : List RGB} {t : ℕ} {c : RGB}
    {s : Scan} (h : Scanned ps bs lit t c s) (hps : ps.length ≤ 256) (ht : 3 ≤ t) :
  Scanned ps (bs ++ [⟨lit, t, c⟩]) [] 0 c
    { compressedPos := s.compressedPos ++ [⟨s.compBytes - s.t * 3, s.t⟩]
      compBytes := s.compBytes - s.t * 3 + 5
      lastclr := s.lastclr
      t := 0 }
  := by
  have hb := h.bound
  have hc := h.compBytes
  constructor
  case pixels => simp [h.pixels, pixelsOf, Block.pixels]
  case long =>
    intro b hb
    obtain hb | hb := List.mem_append.mp hb
    · exact h.long b hb
    · rw [List.mem_singleton.mp hb]
      exact ht
  case compressedPos =>
    have hlen : s.t = UInt16.ofNat t := by
      apply UInt16.toNat_inj.mp
      rw [h.count, UInt16.toNat_ofNat']
      omega
    rw [h.retract, h.compressedPos, pointsOf_append, hlen, Nat.zero_add]
    rfl
  case compBytes =>
    rw [h.retract]
    simp only [UInt16.toNat_add, UInt16.reduceToNat, UInt16.toNat_ofNat', bodySize_append,
      bodySize_cons, Block.size, List.length_nil]
    simp only [bodySize] at hc ⊢
    simp only [List.map_nil, List.sum_nil]
    omega
  case lastclr => exact h.lastclr
  case count => rfl

/-- A pixel of another colour. -/
theorem Scanned.next_other {ps : List RGB} {bs : List Block} {lit : List RGB} {t : ℕ}
    {c c' : RGB} {s : Scan} (h : Scanned ps bs lit t c s) (hps : ps.length < 256)
    (hne : c' ≠ c) :
  ∃ bs' lit', Scanned (ps ++ [c']) bs' lit' 1 c' (s.next c'.code)
  := by
  have hb := h.bound
  have hc := h.compBytes
  have ht := h.count
  have hcode : c'.code ≠ s.lastclr := by
    rw [h.lastclr]
    exact fun he => hne (RGB.code_injective he)
  rw [Scan.next, if_neg hcode]
  by_cases hrun : 3 ≤ s.t
  · have ht3 : 3 ≤ t := by
      rw [← ht]
      exact UInt16.le_iff_toNat_le.mp hrun
    have hclose := h.close (by omega) ht3
    have hsub : s.compBytes + 3 - (s.t * 3 + 3) = s.compBytes - s.t * 3 := by
      apply UInt16.toNat_inj.mp
      simp only [UInt16.toNat_sub, UInt16.toNat_add, UInt16.toNat_mul, UInt16.reduceToNat]
      omega
    use bs ++ [⟨lit, t, c⟩], []
    rw [if_pos hrun]
    simp only [hsub]
    constructor
    case pixels =>
      have := hclose.pixels
      simp only [List.append_nil, List.replicate_zero] at this
      simp [this]
    case long => exact hclose.long
    case compressedPos => exact hclose.compressedPos
    case compBytes =>
      have := hclose.compBytes
      have hbound := hclose.bound
      simp only [UInt16.toNat_add, UInt16.reduceToNat, List.length_nil] at this hbound ⊢
      omega
    case lastclr => rfl
    case count => rfl
  · use bs, lit ++ List.replicate t c
    rw [if_neg hrun]
    constructor
    case pixels => simp [h.pixels]
    case long => exact h.long
    case compressedPos => exact h.compressedPos
    case compBytes =>
      simp only [UInt16.toNat_add, UInt16.reduceToNat, List.length_append, List.length_replicate]
      omega
    case lastclr => rfl
    case count => rfl

/-- `scanFrom` folds `Scan.next` over the remaining pixels. -/
theorem scanFrom_eq (d : Data) (n k : ℕ) (h : k + n = 256) (s : Scan) :
  scanFrom d n (3 * k) s
    = some ((d.pixels.drop k).foldl (fun (s : Scan) c => s.next c.code) s)
  := by
  induction n generalizing k s with
  | zero =>
      rw [List.drop_eq_nil_of_le (by simp; omega)]
      rfl
  | succ n ih =>
      have hk : k < d.pixels.length := by
        simp
        omega
      rw [scanFrom, clrAt_eq d (by omega), List.getElem?_eq_getElem hk,
        List.drop_eq_getElem_cons hk]
      exact ih (k + 1) (by omega) _

/-- The loop keeps a decomposition of the pixels seen so far. -/
theorem Scanned.foldl {ps : List RGB} {bs : List Block} {lit : List RGB} {t : ℕ} {c : RGB}
    {s : Scan} (h : Scanned ps bs lit t c s) (qs : List RGB)
    (hlen : ps.length + qs.length ≤ 256) :
  ∃ bs' lit' t' c', Scanned (ps ++ qs) bs' lit' t' c' (qs.foldl (fun (s : Scan) c => s.next c.code) s)
  := by
  induction qs generalizing ps bs lit t c s with
  | nil => exact ⟨bs, lit, t, c, by simpa using h⟩
  | cons q qs ih =>
      simp only [List.length_cons] at hlen
      rw [List.foldl_cons, List.append_cons]
      by_cases hq : q = c
      · subst hq
        apply ih (h.next_same (by omega))
        simp
        omega
      · obtain ⟨bs', lit', h'⟩ := h.next_other (by omega) hq
        apply ih h'
        simp
        omega

/-- The first pass cuts the pixels into blocks and a rest, records the runs of the blocks
and counts the bytes of the body. -/
theorem scanData_spec (d : Data) :
  ∃ s bs tail, scanData d = some s ∧ d.pixels = pixelsOf bs ++ tail ∧
    (∀ b ∈ bs, 3 ≤ b.len) ∧ s.compressedPos = pointsOf 0 bs ∧
    s.compBytes.toNat = bodySize bs + 3 * tail.length
  := by
  have hne : 0 < d.pixels.length := by simp
  have hinit : Scanned [d.pixels[0]] [] [] 1 d.pixels[0] ⟨[], 3, d.pixels[0].code, 1⟩ := by
    constructor
    case pixels => rfl
    case long => simp
    case compressedPos => rfl
    case compBytes => rfl
    case lastclr => rfl
    case count => rfl
  obtain ⟨bs, lit, t, c, h⟩ := hinit.foldl (d.pixels.drop 1) (by simp)
  rw [List.singleton_append, ← List.drop_eq_getElem_cons hne, List.drop_zero] at h
  have hscan : scanData d = some
      ((d.pixels.drop 1).foldl (fun (s : Scan) c => s.next c.code)
        ⟨[], 3, d.pixels[0].code, 1⟩).finish := by
    have h0 := clrAt_eq d (k := 0) (by omega)
    have h1 := scanFrom_eq d 255 1 rfl ⟨[], 3, d.pixels[0].code, 1⟩
    rw [List.getElem?_eq_getElem hne] at h0
    rw [scanData, h0]
    simp only [Option.map_some, Option.bind_eq_bind, Option.bind_some]
    rw [h1]
    rfl
  rw [hscan]
  generalize (d.pixels.drop 1).foldl (fun (s : Scan) c => s.next c.code) _ = s at h
  by_cases hrun : 3 ≤ s.t
  · have ht3 : 3 ≤ t := by
      rw [← h.count]
      exact UInt16.le_iff_toNat_le.mp hrun
    have hclose := h.close (by simp) ht3
    use s.finish, bs ++ [⟨lit, t, c⟩], [], rfl
    rw [Scan.finish, if_pos hrun]
    and_intros
    · simpa using hclose.pixels
    · exact hclose.long
    · exact hclose.compressedPos
    · exact hclose.compBytes
  · use s.finish, bs, lit ++ List.replicate t c, rfl
    rw [Scan.finish, if_neg hrun]
    and_intros
    · simpa using h.pixels
    · exact h.long
    · exact h.compressedPos
    · simpa using h.compBytes

end Owop
