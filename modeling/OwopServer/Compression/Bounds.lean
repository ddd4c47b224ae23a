import OwopServer.Compression.Lossless

/-!
# No overflow

The first pass of `compress_data_to` counts in numbers of 16 bits.  `scanExact` is the same pass
with numbers of any size, that ends without a result where a number of 16 bits would wrap;
`compressDataTo_fits` says that it has a result, which is that of the code, and that the message
fits in its array.
-/

namespace Owop

/-! ### The first pass without wrapping -/

/-- A number, if it has 16 bits. -/
def fit (n : ℕ) : Option ℕ := if n < 2 ^ 16 then some n else none

/-- A difference, if it is not negative. -/
def minus (n m : ℕ) : Option ℕ := if m ≤ n then some (n - m) else none

/-- The variables of the loop over the pixels, as they would be without a bound. -/
structure ScanExact where
  compressedPos : List (ℕ × ℕ)
  compBytes : ℕ
  lastclr : ℕ
  t : ℕ

/-- The body of the loop, at a pixel of colour `clr`, if nothing wraps. -/
def ScanExact.next (s : ScanExact) (clr : ℕ) : Option ScanExact := do
  let compBytes ← fit (s.compBytes + 3)
  if clr = s.lastclr then
    let t ← fit (s.t + 1)
    return { s with compBytes := compBytes, t := t }
  else if 3 ≤ s.t then
    let pos ← minus compBytes (s.t * 3 + 3)
    let compBytes ← fit (pos + (5 + 3))
    return {
      compressedPos := s.compressedPos ++ [(pos, s.t)]
      compBytes := compBytes
      lastclr := clr
      t := 1 }
  else return { s with compBytes := compBytes, lastclr := clr, t := 1 }

/-- `n` turns of the loop from index `i` on, if nothing wraps. -/
def scanExactFrom (data : Data) : ℕ → ℕ → ScanExact → Option ScanExact
  | 0, _, s => some s
  | n + 1, i, s => do
      let clr ← clrAt data i
      let s ← s.next clr
      scanExactFrom data n (i + 3) s

/-- The step behind the loop, if nothing wraps. -/
def ScanExact.finish (s : ScanExact) : Option ScanExact :=
  if 3 ≤ s.t then do
    let pos ← minus s.compBytes (s.t * 3)
    let compBytes ← fit (pos + 5)
    return { s with
      compressedPos := s.compressedPos ++ [(pos, s.t)]
      compBytes := compBytes }
  else some s

/-- The first pass of `compress_data_to`, if nothing wraps. -/
def scanExact (data : Data) : Option ScanExact := do
  let lastclr ← clrAt data 0
  let s ← scanExactFrom data 255 3 ⟨[], 3, lastclr, 1⟩
  let s ← s.finish
  let _ ← fit s.compressedPos.length
  return s

/-! ### It is the first pass -/

/-- The numbers of the loop, which are those of the loop without a bound. -/
def Scan.exact (s : Scan) : ScanExact :=
  ⟨s.compressedPos.map fun p => (p.pos.toNat, p.length.toNat), s.compBytes.toNat, s.lastclr,
    s.t.toNat⟩

variable {ps : List RGB} {bs : List Block} {lit : List RGB} {t : ℕ} {c : RGB} {s : Scan}

/-- A turn of the loop wraps nothing. -/
theorem Scanned.exact_next (h : Scanned ps bs lit t c s) (hps : ps.length < 256) (clr : ℕ) :
  s.exact.next clr = some (s.next clr).exact
  := by
  obtain ⟨hb, hrest⟩ := h.bound
  have hc := h.compBytes
  have ht := h.count
  have hbytes : fit (s.exact.compBytes + 3) = some (s.compBytes + 3).toNat := by
    rw [Scan.exact, fit, if_pos (by dsimp only; omega)]
    simp only [UInt16.toNat_add, UInt16.reduceToNat, Option.some.injEq]
    omega
  rw [ScanExact.next, Scan.next, hbytes]
  simp only [Option.bind_eq_bind, Option.bind_some, Option.pure_def]
  by_cases hclr : clr = s.lastclr
  · have hclr' : clr = s.exact.lastclr := hclr
    have htime : fit (s.exact.t + 1) = some (s.t + 1).toNat := by
      rw [Scan.exact, fit, if_pos (by dsimp only; omega)]
      simp only [UInt16.toNat_add, UInt16.reduceToNat, Option.some.injEq]
      omega
    rw [if_pos hclr, if_pos hclr', htime]
    rfl
  · have hclr' : ¬ clr = s.exact.lastclr := hclr
    rw [if_neg hclr, if_neg hclr']
    by_cases hrun : 3 ≤ s.t
    · have hrun' : 3 ≤ s.exact.t := UInt16.le_iff_toNat_le.mp hrun
      have hpos : minus (s.compBytes + 3).toNat (s.exact.t * 3 + 3)
          = some (s.compBytes + 3 - (s.t * 3 + 3)).toNat := by
        have hlong : 3 ≤ s.t.toNat := hrun'
        simp only [UInt16.toNat_sub, UInt16.toNat_add, UInt16.toNat_mul, UInt16.reduceToNat]
        rw [Scan.exact, minus, if_pos (by dsimp only; omega), Option.some.injEq]
        dsimp only
        omega
      have hnext : fit ((s.compBytes + 3 - (s.t * 3 + 3)).toNat + (5 + 3))
          = some (s.compBytes + 3 - (s.t * 3 + 3) + (5 + 3)).toNat := by
        simp only [UInt16.toNat_sub, UInt16.toNat_add, UInt16.toNat_mul, UInt16.reduceToNat]
        rw [fit, if_pos (by omega), Option.some.injEq]
        omega
      rw [if_pos hrun, if_pos hrun', hpos, Option.bind_some, hnext, Option.bind_some]
      simp only [Scan.exact, List.map_append]
      rfl
    · have hrun' : ¬ 3 ≤ s.exact.t := fun hle => hrun (UInt16.le_iff_toNat_le.mpr hle)
      rw [if_neg hrun, if_neg hrun']
      rfl

/-- The loop wraps nothing. -/
theorem Scanned.exact_scanFrom {d : Data} (n k : ℕ) (hk : k + n = 256)
    (h : Scanned (d.pixels.take k) bs lit t c s) :
  ∃ s' bs' lit' t' c', scanFrom d n (3 * k) s = some s' ∧
    scanExactFrom d n (3 * k) s.exact = some s'.exact ∧ Scanned d.pixels bs' lit' t' c' s'
  := by
  induction n generalizing k s bs lit t c with
  | zero =>
      rw [List.take_of_length_le (by simp; omega)] at h
      exact ⟨s, bs, lit, t, c, rfl, rfl, h⟩
  | succ n ih =>
      have hlt : k < d.pixels.length := by
        rw [Data.length_pixels]
        omega
      have hclr : clrAt d (3 * k) = some d.pixels[k].code := by
        rw [clrAt_eq d (by omega), List.getElem?_eq_getElem hlt]
        rfl
      have hlen : (d.pixels.take k).length < 256 := by
        rw [List.length_take, Data.length_pixels]
        omega
      have hnext : ∃ bs' lit' t' c',
          Scanned (d.pixels.take (k + 1)) bs' lit' t' c' (s.next d.pixels[k].code) := by
        rw [List.take_succ_eq_append_getElem hlt]
        by_cases hc : d.pixels[k] = c
        · rw [hc]
          exact ⟨bs, lit, t + 1, c, h.next_same hlen⟩
        · obtain ⟨bs', lit', h'⟩ := h.next_other hlen hc
          exact ⟨bs', lit', 1, d.pixels[k], h'⟩
      obtain ⟨bs', lit', t', c', h'⟩ := hnext
      have hexact := h.exact_next hlen d.pixels[k].code
      rw [scanFrom, scanExactFrom, hclr]
      simp only [Option.bind_eq_bind, Option.bind_some, hexact]
      exact ih (k + 1) (by omega) h'

/-- The step behind the loop wraps nothing. -/
theorem Scanned.exact_finish (h : Scanned ps bs lit t c s) (hps : ps.length ≤ 256) :
  s.exact.finish = some s.finish.exact ∧ s.finish.compressedPos.length ≤ 256
  := by
  obtain ⟨hb, hrest⟩ := h.bound
  have hc := h.compBytes
  have ht := h.count
  have hlen : s.compressedPos.length = bs.length := by rw [h.compressedPos, length_pointsOf]
  rw [ScanExact.finish, Scan.finish]
  by_cases hrun : 3 ≤ s.t
  · have hrun' : 3 ≤ s.exact.t := UInt16.le_iff_toNat_le.mp hrun
    have hpos : minus s.exact.compBytes (s.exact.t * 3) = some (s.compBytes - s.t * 3).toNat := by
      simp only [UInt16.toNat_sub, UInt16.toNat_mul, UInt16.reduceToNat]
      rw [Scan.exact, minus, if_pos (by dsimp only; omega), Option.some.injEq]
      dsimp only
      omega
    have hnext : fit ((s.compBytes - s.t * 3).toNat + 5)
        = some (s.compBytes - s.t * 3 + 5).toNat := by
      simp only [UInt16.toNat_sub, UInt16.toNat_add, UInt16.toNat_mul, UInt16.reduceToNat]
      rw [fit, if_pos (by omega), Option.some.injEq]
      omega
    rw [if_pos hrun, if_pos hrun']
    constructor
    · simp only [Option.bind_eq_bind, hpos, Option.bind_some, hnext, Option.pure_def]
      simp only [Scan.exact, List.map_append]
      rfl
    · rw [List.length_append, List.length_singleton, hlen]
      omega
  · have hrun' : ¬ 3 ≤ s.exact.t := fun hle => hrun (UInt16.le_iff_toNat_le.mpr hle)
    rw [if_neg hrun, if_neg hrun']
    exact ⟨rfl, by omega⟩

/-- The first pass wraps nothing. -/
theorem scanExact_eq (d : Data) :
  ∃ s, scanData d = some s ∧ scanExact d = some s.exact ∧ s.compressedPos.length ≤ 256
  := by
  have hne : 0 < d.pixels.length := by simp
  have hclr : clrAt d 0 = some d.pixels[0].code := by
    have h0 := clrAt_eq d (k := 0) (by omega)
    rw [List.getElem?_eq_getElem hne] at h0
    exact h0
  have hinit : Scanned (d.pixels.take 1) [] [] 1 d.pixels[0] ⟨[], 3, d.pixels[0].code, 1⟩ := by
    constructor
    case pixels =>
      rw [List.take_succ_eq_append_getElem hne]
      rfl
    case long => simp
    case compressedPos => rfl
    case compBytes => rfl
    case lastclr => rfl
    case count => rfl
  obtain ⟨s, bs, lit, t, c, hscan, hexact, h⟩ := hinit.exact_scanFrom 255 1 rfl
  obtain ⟨hfinish, hlen⟩ := h.exact_finish (by simp)
  use s.finish
  have hfit : fit s.finish.exact.compressedPos.length
      = some s.finish.exact.compressedPos.length := by
    rw [fit, if_pos]
    rw [Scan.exact, List.length_map]
    omega
  refine ⟨?_, ?_, hlen⟩
  · rw [scanData, hclr]
    simp only [Option.bind_eq_bind, Option.bind_some]
    rw [hscan]
    rfl
  · rw [scanExact, hclr]
    simp only [Option.bind_eq_bind, Option.bind_some]
    have hstart : (⟨[], 3, d.pixels[0].code, 1⟩ : Scan).exact = ⟨[], 3, d.pixels[0].code, 1⟩ := rfl
    rw [← hstart, hexact, Option.bind_some, hfinish, Option.bind_some, hfit]
    rfl

/-! ### The message fits -/

/-- The size that `compress_data_to` returns. -/
theorem Chunk.size_compressDataTo {c : Chunk} {s : Scan} {msg msg' : Buffer} {size : ℕ}
    (hs : scanData c.data = some s) (h : c.compressDataTo msg = some (msg', size)) :
  size = s.compBytes.toNat + (UInt16.ofNat s.compressedPos.length).toNat * 2 + 10 + 2 + 2
  := by
  rw [compressDataTo, hs] at h
  -- the header, the offsets of the runs and the body
  obtain ⟨_, hs', h⟩ := Option.bind_eq_some_iff.mp h
  obtain rfl := Option.some.inj hs'
  iterate 6 (obtain ⟨_, -, h⟩ := Option.bind_eq_some_iff.mp h)
  obtain ⟨⟨_, _⟩, -, h⟩ := Option.bind_eq_some_iff.mp h
  obtain ⟨⟨_, _, _⟩, -, h⟩ := Option.bind_eq_some_iff.mp h
  obtain ⟨⟨_, _, _⟩, -, h⟩ := Option.bind_eq_some_iff.mp h
  exact (Prod.mk.inj (Option.some.inj h)).2.symm

/-- The message fits in its array: `compress_data_to` reads and writes inside of its arrays and
no number of 16 bits wraps, and the size it returns is at most 782 and the number of the bytes it
has written, which are those from the first on. -/
theorem Chunk.compressDataTo_fits (c : Chunk) :
  ∃ s bytes, scanData c.data = some s ∧ scanExact c.data = some s.exact ∧
    c.compressDataTo (Buffer.fresh 782)
      = some (Buffer.filled bytes (782 - bytes.length), bytes.length) ∧
    bytes.length ≤ 782 ∧ bytes.length
      = s.exact.compBytes + s.exact.compressedPos.length * 2 + 10 + 2 + 2 ∧ c.dataMsg = bytes
  := by
  obtain ⟨s, hs, hexact, hlen⟩ := scanExact_eq c.data
  obtain ⟨bs, tail, -, -, hbound, h⟩ := c.compressDataTo_spec
  refine ⟨s, c.message bs tail, hs, hexact, h, ?_, ?_, dataMsg_eq h⟩
  · rw [c.length_message]
    omega
  · have hsize := size_compressDataTo hs h
    rw [UInt16.toNat_ofNat', Nat.mod_eq_of_lt (by omega)] at hsize
    rw [hsize, Scan.exact, List.length_map]

end Owop
