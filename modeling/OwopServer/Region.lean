import OwopServer.Coordinates

/-!
# Region files

A region file starts with a lookup table of 1024 entries of three bytes.  The entry of a
chunk is 0, or the position of its 768 bytes divided by 256.  In a well-formed file the
chunks stored lie one behind the other from position 3072 on, so that all positions are
multiples of 256 and a new chunk goes to the end of the file.

`chunkAt f k` is the chunk with number `k` stored in `f`.  The theorems say what the two
kinds of write, to the place of a chunk and to a new place at the end, do to the table and
to the stored chunks.
-/

namespace Owop

namespace Region

/-- The size of the lookup table. -/
def tableSize : ℕ := 3072

/-- The lookup entry of the chunk with number `k`. -/
def entry (f : Bytes) (k : ℕ) : ℕ := Bytes.leNat (f.slice (3 * k) 3)

/-- The position the lookup entry of chunk `k` stands for. -/
def offset (f : Bytes) (k : ℕ) : ℕ := 256 * entry f k

/-- The chunk with number `k` stored in the file. -/
def chunkAt (f : Bytes) (k : ℕ) : Option Data :=
  if entry f k = 0 then none else Data.ofBytes (f.slice (offset f k) 768)

/-- The file with the end of the file entered as the position of chunk `k`. -/
def enter (f : Bytes) (k : ℕ) : Bytes := f.splice (3 * k) (Bytes.leBytes 3 (f.length / 256))

/-- The file with the chunk with number `k` put into it: at its place if it has one, at the
end otherwise. -/
def put (f : Bytes) (k : ℕ) (d : Data) : Bytes :=
  if entry f k = 0 then (enter f k).splice f.length d.toList else f.splice (offset f k) d.toList

/-- The lookup table is complete, and the `n` chunks entered have the first `n` places behind
it, no two the same. -/
structure Table (f : Bytes) (n : ℕ) : Prop where
  long : tableSize ≤ f.length
  place : ∀ k < 1024, entry f k ≠ 0 → ∃ j < n, offset f k = tableSize + 768 * j
  inj : ∀ k < 1024, ∀ k' < 1024, entry f k ≠ 0 → entry f k = entry f k' → k = k'
  count : n = ((Finset.range 1024).filter fun k => entry f k ≠ 0).card

/-- A file with a complete table, small enough for positions of 32 bits. -/
def Sized (f : Bytes) : Prop := tableSize ≤ f.length ∧ f.length < 2 ^ 32

/-- A well-formed region file: the table and the places of the chunks entered, nothing
else. -/
def WF (f : Bytes) : Prop := ∃ n, Table f n ∧ f.length = tableSize + 768 * n

/-! ### Reading the table -/

/-- A write behind the table leaves the entries alone. -/
theorem entry_splice {f : Bytes} {pos k : ℕ} {bs : Bytes} (hlen : tableSize ≤ f.length)
    (hpos : tableSize ≤ pos) (hk : k < 1024) :
  entry (f.splice pos bs) k = entry f k
  := by
  simp only [tableSize] at hlen hpos
  rw [entry, entry, Bytes.slice_splice_of_disjoint (by omega) (Or.inl (by omega))]

theorem offset_splice {f : Bytes} {pos k : ℕ} {bs : Bytes} (hlen : tableSize ≤ f.length)
    (hpos : tableSize ≤ pos) (hk : k < 1024) :
  offset (f.splice pos bs) k = offset f k
  := by
  rw [offset, offset, entry_splice hlen hpos hk]

theorem length_enter {f : Bytes} {k : ℕ} (hlen : tableSize ≤ f.length) (hk : k < 1024) :
  (enter f k).length = f.length
  := by
  have hne : Bytes.leBytes 3 (f.length / 256) ≠ [] := by simp [Bytes.leBytes]
  simp only [tableSize] at hlen
  rw [enter, Bytes.length_splice hne, Bytes.length_leBytes]
  omega

/-- The entry made for a chunk is the end of the file divided by 256. -/
theorem entry_enter_same {f : Bytes} {k : ℕ} (hlen : f.length < 2 ^ 32) :
  entry (enter f k) k = f.length / 256
  := by
  have h := Bytes.slice_splice_same f (3 * k) (Bytes.leBytes 3 (f.length / 256))
  rw [Bytes.length_leBytes] at h
  rw [entry, enter, h, Bytes.leNat_leBytes_of_lt]
  omega

/-- Entering a chunk leaves the entries of the others alone. -/
theorem entry_enter_of_ne {f : Bytes} {k k' : ℕ} (hlen : tableSize ≤ f.length) (hk : k' < 1024)
    (hne : k' ≠ k) :
  entry (enter f k) k' = entry f k'
  := by
  simp only [tableSize] at hlen
  rw [entry, entry, enter, Bytes.slice_splice_of_disjoint (by omega)]
  rw [Bytes.length_leBytes]
  omega

/-! ### Reading the chunks -/

/-- A chunk that lies inside the file is read. -/
theorem chunkAt_isSome {f : Bytes} {k : ℕ} (hne : entry f k ≠ 0)
    (hend : offset f k + 768 ≤ f.length) :
  ∃ d, chunkAt f k = some d ∧ d.toList = f.slice (offset f k) 768
  := by
  have hlen := Bytes.length_slice_of_le hend
  rw [chunkAt, if_neg hne, Data.ofBytes, dif_pos hlen]
  exact ⟨_, rfl, by simp [Vector.toList]⟩

theorem chunkAt_of_slice {f : Bytes} {k : ℕ} {d : Data} (hne : entry f k ≠ 0)
    (h : f.slice (offset f k) 768 = d.toList) :
  chunkAt f k = some d
  := by
  rw [chunkAt, if_neg hne, h, Data.ofBytes, dif_pos Vector.length_toList]
  rfl

/-- A write behind the table that does not meet the place of a chunk leaves the chunk
alone. -/
theorem chunkAt_splice {f : Bytes} {pos k : ℕ} {bs : Bytes} (hlen : tableSize ≤ f.length)
    (hpos : tableSize ≤ pos) (hk : k < 1024)
    (h : entry f k ≠ 0 → offset f k + 768 ≤ f.length ∧
      (offset f k + 768 ≤ pos ∨ pos + bs.length ≤ offset f k)) :
  chunkAt (f.splice pos bs) k = chunkAt f k
  := by
  rw [chunkAt, chunkAt, entry_splice hlen hpos hk, offset_splice hlen hpos hk]
  by_cases he : entry f k = 0
  · rw [if_pos he, if_pos he]
  · obtain ⟨hend, hdisj⟩ := h he
    rw [if_neg he, if_neg he, Bytes.slice_splice_of_disjoint hend hdisj]

/-- Entering a chunk leaves the other chunks alone. -/
theorem chunkAt_enter_of_ne {f : Bytes} {k k' : ℕ} (hlen : tableSize ≤ f.length)
    (hk : k < 1024) (hk' : k' < 1024) (hne : k' ≠ k)
    (h : entry f k' ≠ 0 → tableSize ≤ offset f k' ∧ offset f k' + 768 ≤ f.length) :
  chunkAt (enter f k) k' = chunkAt f k'
  := by
  rw [chunkAt, chunkAt, offset, entry_enter_of_ne hlen hk' hne]
  by_cases he : entry f k' = 0
  · rw [if_pos he, if_pos he]
  · obtain ⟨hstart, hend⟩ := h he
    simp only [tableSize] at hlen hstart
    rw [if_neg he, if_neg he, enter, ← offset, Bytes.slice_splice_of_disjoint hend]
    right
    rw [Bytes.length_leBytes]
    omega

/-! ### Tables -/

namespace Table

variable {f : Bytes} {n : ℕ}

/-- At most 1024 chunks are entered. -/
theorem le (h : Table f n) :
  n ≤ 1024
  := by
  have hle := Finset.card_filter_le (Finset.range 1024) fun k => entry f k ≠ 0
  rw [Finset.card_range] at hle
  rw [h.count]
  exact hle

/-- Fewer than 1024 chunks are entered if some chunk is not. -/
theorem lt {k : ℕ} (h : Table f n) (hk : k < 1024) (he : entry f k = 0) :
  n < 1024
  := by
  have hss : ((Finset.range 1024).filter fun k => entry f k ≠ 0) ⊂ Finset.range 1024 := by
    apply Finset.filter_ssubset.mpr
    use k, Finset.mem_range.mpr hk
    simp [he]
  have hlt := Finset.card_lt_card hss
  rw [Finset.card_range] at hlt
  rw [h.count]
  exact hlt

/-- The places of different chunks do not meet. -/
theorem disjoint {k k' : ℕ} (h : Table f n) (hk : k < 1024) (hk' : k' < 1024)
    (he : entry f k ≠ 0) (he' : entry f k' ≠ 0) (hne : k ≠ k') :
  offset f k + 768 ≤ offset f k' ∨ offset f k' + 768 ≤ offset f k
  := by
  obtain ⟨j, -, hj⟩ := h.place k hk he
  obtain ⟨j', -, hj'⟩ := h.place k' hk' he'
  have hjj : j ≠ j' := by
    rintro rfl
    apply hne
    apply h.inj k hk k' hk' he
    rw [offset] at hj hj'
    omega
  omega

/-- The place of a chunk is behind the table and among the first `n`. -/
theorem bounds {k : ℕ} (h : Table f n) (hk : k < 1024) (he : entry f k ≠ 0) :
  tableSize ≤ offset f k ∧ offset f k + 768 ≤ tableSize + 768 * n
  := by
  obtain ⟨j, hjn, hj⟩ := h.place k hk he
  omega

/-- A write behind the table keeps it. -/
theorem splice {pos : ℕ} {bs : Bytes} (h : Table f n) (hpos : tableSize ≤ pos) :
  Table (f.splice pos bs) n
  := by
  have he : ∀ k < 1024, entry (f.splice pos bs) k = entry f k :=
    fun k hk => entry_splice h.long hpos hk
  constructor
  case long =>
    by_cases hb : bs = []
    · rw [hb, Bytes.splice_nil]
      exact h.long
    · rw [Bytes.length_splice hb]
      exact le_trans h.long (le_max_left _ _)
  case place =>
    intro k hk hne
    rw [he k hk] at hne
    rw [offset_splice h.long hpos hk]
    exact h.place k hk hne
  case inj =>
    intro k hk k' hk' hne heq
    rw [he k hk] at hne heq
    rw [he k' hk'] at heq
    exact h.inj k hk k' hk' hne heq
  case count =>
    have hset : ((Finset.range 1024).filter fun k => entry (f.splice pos bs) k ≠ 0)
        = (Finset.range 1024).filter fun k => entry f k ≠ 0 := by
      apply Finset.filter_congr
      intro k hk
      rw [he k (Finset.mem_range.mp hk)]
    rw [h.count, hset]

/-- Entering a new chunk at the end of the file. -/
theorem enter {k : ℕ} (h : Table f n) (hlen : f.length = tableSize + 768 * n) (hk : k < 1024)
    (he : entry f k = 0) :
  Table (Region.enter f k) (n + 1) ∧ offset (Region.enter f k) k = tableSize + 768 * n
  := by
  have hn := h.lt hk he
  have hsize : f.length < 2 ^ 32 := by
    rw [hlen, tableSize]
    omega
  have hsame : entry (Region.enter f k) k = 12 + 3 * n := by
    rw [entry_enter_same hsize, hlen, tableSize]
    omega
  have hother : ∀ k' < 1024, k' ≠ k → entry (Region.enter f k) k' = entry f k' :=
    fun k' hk' hne => entry_enter_of_ne h.long hk' hne
  have hold : ∀ k' < 1024, entry f k' ≠ 0 → entry f k' < 12 + 3 * n := by
    intro k' hk' he'
    have := h.bounds hk' he'
    simp only [offset, tableSize] at this
    omega
  constructor
  · constructor
    case long =>
      rw [length_enter h.long hk]
      exact h.long
    case place =>
      intro k' hk' he'
      by_cases hkk : k' = k
      · use n, Nat.lt_succ_self n
        rw [hkk, offset, hsame, tableSize]
        omega
      · rw [hother k' hk' hkk] at he'
        obtain ⟨j, hj, hplace⟩ := h.place k' hk' he'
        use j, by omega
        rw [offset, hother k' hk' hkk]
        exact hplace
    case inj =>
      intro k₁ hk₁ k₂ hk₂ hne heq
      by_cases h₁ : k₁ = k
      · by_cases h₂ : k₂ = k
        · rw [h₁, h₂]
        · have hlt := hold k₂ hk₂
          rw [h₁, hsame, hother k₂ hk₂ h₂] at heq
          omega
      · rw [hother k₁ hk₁ h₁] at hne heq
        by_cases h₂ : k₂ = k
        · have hlt := hold k₁ hk₁ hne
          rw [h₂, hsame] at heq
          omega
        · rw [hother k₂ hk₂ h₂] at heq
          exact h.inj k₁ hk₁ k₂ hk₂ hne heq
    case count =>
      have hset : (Finset.range 1024).filter (fun k' => entry (Region.enter f k) k' ≠ 0)
          = insert k ((Finset.range 1024).filter fun k' => entry f k' ≠ 0) := by
        ext k'
        simp only [Finset.mem_filter, Finset.mem_range, Finset.mem_insert]
        by_cases hkk : k' = k
        · simp [hkk, hk, hsame]
        · constructor
          · rintro ⟨hk', hne⟩
            rw [hother k' hk' hkk] at hne
            exact Or.inr ⟨hk', hne⟩
          · rintro (heq | ⟨hk', hne⟩)
            · exact absurd heq hkk
            · rw [hother k' hk' hkk]
              exact ⟨hk', hne⟩
      rw [hset, Finset.card_insert_of_notMem (by simp [he]), ← h.count]
  · rw [offset, hsame, tableSize]
    omega

end Table

/-! ### Well-formed files -/

/-- The lookup entry of a chunk can be read. -/
theorem Sized.length_entry {f : Bytes} {k : ℕ} (h : Sized f) (hk : k < 1024) :
  (f.slice (3 * k) 3).length = 3
  := by
  have hb := h.1
  simp only [tableSize] at hb
  apply Bytes.length_slice_of_le
  omega

/-- A chunk whose place goes beyond the end of the file is not there. -/
theorem chunkAt_eq_none {f : Bytes} {k : ℕ} (hend : f.length < offset f k + 768) :
  chunkAt f k = none
  := by
  rw [chunkAt]
  split
  · rfl
  · rw [Data.ofBytes, dif_neg]
    rw [Bytes.length_slice]
    omega

theorem entry_zeros {n k : ℕ} (h : 3 * k + 3 ≤ n) :
  entry (List.replicate n 0) k = 0
  := by
  have hslice : Bytes.slice (List.replicate n 0) (3 * k) 3 = [0, 0, 0] := by
    rw [Bytes.slice, List.drop_replicate, List.take_replicate,
      Nat.min_eq_left (by omega)]
    rfl
  rw [entry, hslice]
  rfl

/-- A new region file, 3072 zeros, is well formed. -/
theorem wf_zeros :
  WF (List.replicate tableSize 0)
  := by
  have he : ∀ k < 1024, entry (List.replicate tableSize 0) k = 0 := by
    intro k hk
    apply entry_zeros
    rw [tableSize]
    omega
  use 0
  constructor
  · constructor
    case long => rw [List.length_replicate]
    case place => exact fun k hk hne => absurd (he k hk) hne
    case inj => exact fun k hk _ _ hne _ => absurd (he k hk) hne
    case count =>
      symm
      apply Finset.card_eq_zero.mpr
      apply Finset.filter_eq_empty_iff.mpr
      intro k hk
      simp [he k (Finset.mem_range.mp hk)]
  · rw [List.length_replicate, Nat.mul_zero, Nat.add_zero]

/-- No chunk is stored in a new region file. -/
theorem chunkAt_zeros {k : ℕ} (hk : k < 1024) :
  chunkAt (List.replicate tableSize 0) k = none
  := by
  rw [chunkAt, if_pos]
  apply entry_zeros
  rw [tableSize]
  omega

namespace WF

variable {f : Bytes}

/-- The length of a well-formed file fits the three bytes of an entry. -/
theorem sized (h : WF f) :
  Sized f
  := by
  obtain ⟨n, ht, hlen⟩ := h
  have hn := ht.le
  have hlong := ht.long
  constructor
  · exact hlong
  · rw [hlen, tableSize]
    omega

/-- The place of a stored chunk lies inside the file, behind the table. -/
theorem inside {k : ℕ} (h : WF f) (hk : k < 1024) (he : entry f k ≠ 0) :
  tableSize ≤ offset f k ∧ offset f k + 768 ≤ f.length
  := by
  obtain ⟨n, ht, hlen⟩ := h
  rw [hlen]
  exact ht.bounds hk he

/-- No two chunks of a well-formed file share a byte. -/
theorem disjoint {k k' : ℕ} (h : WF f) (hk : k < 1024) (hk' : k' < 1024)
    (he : entry f k ≠ 0) (he' : entry f k' ≠ 0) (hne : k ≠ k') :
  offset f k + 768 ≤ offset f k' ∨ offset f k' + 768 ≤ offset f k
  := by
  obtain ⟨n, ht, -⟩ := h
  exact ht.disjoint hk hk' he he' hne

/-- A write to the place of a chunk keeps the file well formed and leaves the other chunks
alone. -/
theorem rewrite {k : ℕ} {bs : Bytes} (h : WF f) (hk : k < 1024) (he : entry f k ≠ 0)
    (hbs : bs.length ≤ 768) :
  WF (f.splice (offset f k) bs) ∧
    ∀ k' < 1024, k' ≠ k → chunkAt (f.splice (offset f k) bs) k' = chunkAt f k'
  := by
  have hin := h.inside hk he
  constructor
  · obtain ⟨n, ht, hlen⟩ := h
    use n, ht.splice hin.1
    by_cases hb : bs = []
    · rw [hb, Bytes.splice_nil, hlen]
    · rw [Bytes.length_splice hb]
      omega
  · intro k' hk' hne
    apply chunkAt_splice h.sized.1 hin.1 hk'
    intro he'
    have hd := h.disjoint hk' hk he' he hne
    have hin' := h.inside hk' he'
    omega

/-- A chunk written to its place is stored. -/
theorem chunkAt_rewrite {k : ℕ} (h : WF f) (hk : k < 1024) (he : entry f k ≠ 0) (d : Data) :
  chunkAt (f.splice (offset f k) d.toList) k = some d
  := by
  have hin := h.inside hk he
  have hs := Bytes.slice_splice_same f (offset f k) d.toList
  rw [Vector.length_toList] at hs
  apply chunkAt_of_slice
  · rw [entry_splice h.sized.1 hin.1 hk]
    exact he
  · rw [offset_splice h.sized.1 hin.1 hk, hs]

/-- A new chunk written at the end of the file and entered in the table. -/
theorem append {k : ℕ} (h : WF f) (hk : k < 1024) (he : entry f k = 0) (d : Data) :
  WF ((enter f k).splice f.length d.toList) ∧
    chunkAt ((enter f k).splice f.length d.toList) k = some d ∧
    ∀ k' < 1024, k' ≠ k → chunkAt ((enter f k).splice f.length d.toList) k' = chunkAt f k'
  := by
  have hwf := h
  obtain ⟨n, ht, hlen⟩ := h
  obtain ⟨ht', hoff⟩ := ht.enter hlen hk he
  have hlong := ht.long
  have hel := length_enter hlong hk
  have hne : entry (enter f k) k ≠ 0 := by
    intro h0
    rw [offset, h0, tableSize] at hoff
    omega
  have hd : d.toList ≠ [] := by
    intro h0
    have := congrArg List.length h0
    simp at this
  refine ⟨⟨n + 1, ht'.splice hlong, ?_⟩, ?_, ?_⟩
  · rw [Bytes.length_splice hd, hel, Vector.length_toList]
    omega
  · have hs := Bytes.slice_splice_same (enter f k) f.length d.toList
    rw [Vector.length_toList] at hs
    apply chunkAt_of_slice
    · rw [entry_splice (by omega) hlong hk]
      exact hne
    · rw [offset_splice (by omega) hlong hk, hoff, ← hlen, hs]
  · intro k' hk' hkk
    rw [chunkAt_splice (by omega) hlong hk']
    · exact chunkAt_enter_of_ne hlong hk hk' hkk fun he' => hwf.inside hk' he'
    · intro he'
      rw [entry_enter_of_ne hlong hk' hkk] at he'
      have hin := hwf.inside hk' he'
      rw [offset, entry_enter_of_ne hlong hk' hkk, ← offset]
      omega

/-- A chunk put into a well-formed file is stored, the file stays well formed and the other
chunks stay as they were. -/
theorem put {k : ℕ} (h : WF f) (hk : k < 1024) (d : Data) :
  WF (put f k d) ∧ chunkAt (put f k d) k = some d ∧
    ∀ k' < 1024, k' ≠ k → chunkAt (put f k d) k' = chunkAt f k'
  := by
  rw [Region.put]
  by_cases he : entry f k = 0
  · rw [if_pos he]
    exact h.append hk he d
  · rw [if_neg he]
    have hlen : d.toList.length ≤ 768 := by rw [Vector.length_toList]
    obtain ⟨hwf, hothers⟩ := h.rewrite hk he hlen
    exact ⟨hwf, h.chunkAt_rewrite hk he d, hothers⟩

end WF

end Region

end Owop
