import OwopServer.Region

/-!
# Region files after an interrupted append

A new chunk is entered in the lookup table before its bytes are written.  If the writing
stops in between, the last chunk entered has fewer than 768 bytes in the file.  Such a file
becomes well formed again when the chunk is put there once more, provided no other new chunk
comes first.
-/

namespace Owop

namespace Region

/-- A file in which the chunk with number `k` was entered last, with fewer than 768 bytes
behind its position. -/
def Torn (f : Bytes) (k : ℕ) : Prop :=
  ∃ n, Table f (n + 1) ∧ entry f k ≠ 0 ∧ offset f k = tableSize + 768 * n ∧
    offset f k ≤ f.length ∧ f.length < offset f k + 768

/-- No two chunks entered have a byte in common. -/
def Apart (f : Bytes) : Prop :=
  ∀ k < 1024, ∀ k' < 1024, entry f k ≠ 0 → entry f k' ≠ 0 → k ≠ k' →
    offset f k + 768 ≤ offset f k' ∨ offset f k' + 768 ≤ offset f k

theorem WF.apart {f : Bytes} (h : WF f) :
  Apart f
  := fun _ hk _ hk' he he' hne => h.disjoint hk hk' he he' hne

/-- An entry of which only the first `p` bytes are written. -/
theorem splice_take_entry {f : Bytes} {k p v : ℕ} (hsized : Sized f) (hk : k < 1024)
    (he : entry f k = 0) :
  f.splice (3 * k) ((Bytes.leBytes 3 v).take p) = f.splice (3 * k) (Bytes.leBytes 3 (v % 256 ^ p))
  := by
  have hlen := hsized.length_entry hk
  have hzeros : f.slice (3 * k) 3 = List.replicate 3 0 := by
    have hle := Bytes.leBytes_leNat (f.slice (3 * k) 3)
    rw [hlen] at hle
    rw [← Bytes.leBytes_zero, ← he, entry, hle]
  have hlong := hsized.1
  rw [tableSize] at hlong
  rw [← Bytes.take_leBytes]
  symm
  apply Bytes.splice_append_slice
  · simp only [List.length_take, Bytes.length_leBytes, List.length_replicate]
    omega
  · simp only [List.length_take, Bytes.length_leBytes, List.length_replicate]
    by_cases hp : p < 3
    · have hsub : f.slice (3 * k + min p 3) (3 - p) = (f.slice (3 * k) 3).drop p := by
        rw [Bytes.slice, Bytes.slice, List.drop_take, List.drop_drop, Nat.min_eq_left (by omega)]
      rw [hsub, hzeros, List.drop_replicate]
    · rw [Nat.sub_eq_zero_of_le (by omega)]
      simp [Bytes.slice]

/-- An empty entry written where there is none. -/
theorem splice_zero_entry {f : Bytes} {k : ℕ} (hsized : Sized f) (hk : k < 1024)
    (he : entry f k = 0) :
  f.splice (3 * k) (Bytes.leBytes 3 0) = f
  := by
  have hlen := hsized.length_entry hk
  have hle := Bytes.leBytes_leNat (f.slice (3 * k) 3)
  have hlong := hsized.1
  rw [tableSize] at hlong
  rw [entry] at he
  rw [hlen, he] at hle
  rw [hle]
  apply Bytes.splice_slice
  omega

namespace Torn

variable {f : Bytes} {k : ℕ}

theorem sized (h : Torn f k) :
  Sized f
  := by
  obtain ⟨n, ht, -, hoff, hle, hlt⟩ := h
  have hn := ht.le
  constructor
  · exact ht.long
  · rw [hoff, tableSize] at hlt
    omega

/-- Only the interrupted chunk goes beyond the end of the file. -/
theorem inside {k' : ℕ} (h : Torn f k) (hk : k < 1024) (hk' : k' < 1024) (he' : entry f k' ≠ 0) :
  tableSize ≤ offset f k' ∧ offset f k' ≤ f.length ∧ (k' ≠ k → offset f k' + 768 ≤ f.length)
  := by
  obtain ⟨n, ht, he, hoff, hle, hlt⟩ := h
  have hb := ht.bounds hk' he'
  by_cases hkk : k' = k
  · subst hkk
    exact ⟨hb.1, hle, fun hne => absurd rfl hne⟩
  · have hd := ht.disjoint hk' hk he' he hkk
    and_intros
    · exact hb.1
    · omega
    · intro _
      omega

theorem apart (h : Torn f k) :
  Apart f
  := by
  obtain ⟨n, ht, -⟩ := h
  exact fun _ hk _ hk' he he' hne => ht.disjoint hk hk' he he' hne

/-- An append that stops after the entry and the first bytes of the chunk. -/
theorem of_append (bs : Bytes) (h : WF f) (hk : k < 1024) (he : entry f k = 0)
    (hbs : bs.length < 768) :
  Torn ((enter f k).splice f.length bs) k ∧
    ∀ k' < 1024, k' ≠ k → chunkAt ((enter f k).splice f.length bs) k' = chunkAt f k'
  := by
  have hwf := h
  obtain ⟨n, ht, hlen⟩ := h
  obtain ⟨ht', hoff⟩ := ht.enter hlen hk he
  have hlong := ht.long
  have hel := length_enter hlong hk
  have hlen' : ((enter f k).splice f.length bs).length = f.length + bs.length := by
    by_cases hb : bs = []
    · rw [hb, Bytes.splice_nil, hel, List.length_nil, Nat.add_zero]
    · rw [Bytes.length_splice hb, hel]
      omega
  constructor
  · refine ⟨n, ht'.splice hlong, ?_, ?_, ?_, ?_⟩
    · rw [entry_splice (by omega) hlong hk]
      intro h0
      rw [offset, h0, tableSize] at hoff
      omega
    · rw [offset_splice (by omega) hlong hk, hoff]
    · rw [offset_splice (by omega) hlong hk, hoff, hlen']
      omega
    · rw [offset_splice (by omega) hlong hk, hoff, hlen']
      omega
  · intro k' hk' hkk
    rw [chunkAt_splice (by omega) hlong hk']
    · exact chunkAt_enter_of_ne hlong hk hk' hkk fun he' => hwf.inside hk' he'
    · intro he'
      rw [entry_enter_of_ne hlong hk' hkk] at he'
      have hin := hwf.inside hk' he'
      rw [offset, entry_enter_of_ne hlong hk' hkk, ← offset]
      omega

/-- Putting the interrupted chunk again makes the file well formed. -/
theorem put_same (h : Torn f k) (hk : k < 1024) (d : Data) :
  WF (put f k d) ∧ chunkAt (put f k d) k = some d ∧
    ∀ k' < 1024, k' ≠ k → chunkAt (put f k d) k' = chunkAt f k'
  := by
  have hsized := h.sized
  have hin : ∀ k' < 1024, entry f k' ≠ 0 → _ := fun k' hk' he' => h.inside hk hk' he'
  obtain ⟨n, ht, he, hoff, hle, hlt⟩ := h
  have hstart := (ht.bounds hk he).1
  rw [put, if_neg he]
  have hne : d.toList ≠ [] := by
    intro h0
    have := congrArg List.length h0
    simp at this
  refine ⟨⟨n + 1, ht.splice hstart, ?_⟩, ?_, ?_⟩
  · rw [Bytes.length_splice hne, Vector.length_toList]
    omega
  · have hs := Bytes.slice_splice_same f (offset f k) d.toList
    rw [Vector.length_toList] at hs
    apply chunkAt_of_slice
    · rw [entry_splice hsized.1 hstart hk]
      exact he
    · rw [offset_splice hsized.1 hstart hk, hs]
  · intro k' hk' hkk
    apply chunkAt_splice hsized.1 hstart hk'
    intro he'
    have hend := (hin k' hk' he').2.2 hkk
    have hd := ht.disjoint hk' hk he' he hkk
    rw [Vector.length_toList]
    omega

/-- Putting another chunk that has its place already leaves the file as it was otherwise. -/
theorem put_other {k' : ℕ} (h : Torn f k) (hk : k < 1024) (hk' : k' < 1024) (hne : k' ≠ k)
    (he' : entry f k' ≠ 0) (d : Data) :
  Torn (put f k' d) k ∧ chunkAt (put f k' d) k' = some d ∧
    ∀ j < 1024, j ≠ k' → chunkAt (put f k' d) j = chunkAt f j
  := by
  have hsized := h.sized
  have hin : ∀ j < 1024, entry f j ≠ 0 → _ := fun j hj hej => h.inside hk hj hej
  obtain ⟨n, ht, he, hoff, hle, hlt⟩ := h
  obtain ⟨hstart, -, hend⟩ := hin k' hk' he'
  have hend' := hend hne
  rw [put, if_neg he']
  have hlen : (f.splice (offset f k') d.toList).length = f.length := by
    rw [Bytes.length_splice, Vector.length_toList]
    · omega
    · intro h0
      have := congrArg List.length h0
      simp at this
  refine ⟨⟨n, ht.splice hstart, ?_, ?_, ?_, ?_⟩, ?_, ?_⟩
  · rw [entry_splice hsized.1 hstart hk]
    exact he
  · rw [offset_splice hsized.1 hstart hk, hoff]
  · rw [offset_splice hsized.1 hstart hk, hlen]
    exact hle
  · rw [offset_splice hsized.1 hstart hk, hlen]
    exact hlt
  · have hs := Bytes.slice_splice_same f (offset f k') d.toList
    rw [Vector.length_toList] at hs
    apply chunkAt_of_slice
    · rw [entry_splice hsized.1 hstart hk']
      exact he'
    · rw [offset_splice hsized.1 hstart hk', hs]
  · intro j hj hjk
    by_cases hej : offset f j + 768 ≤ f.length
    · apply chunkAt_splice hsized.1 hstart hj
      intro hej'
      have hd := ht.disjoint hj hk' hej' he' hjk
      rw [Vector.length_toList]
      omega
    · rw [chunkAt_eq_none (f := f) (by omega), chunkAt_eq_none]
      rw [offset_splice hsized.1 hstart hj, hlen]
      omega

end Torn

end Region

end Owop
