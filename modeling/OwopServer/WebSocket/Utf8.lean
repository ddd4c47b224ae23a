import OwopServer.Commands.Texts

/-!
# Texts on the wire

`WebSocketProtocol::isValidUtf8`, which every text passes before the server sees it, accepts the
bytes of the texts in UTF-8 and no others.
-/

namespace Owop

namespace WebSocket

/-! ### The loop -/

/-- The loop over bytes of one-byte characters: what is left from the first other byte on. -/
def skipAscii : Bytes → Bytes
  | [] => []
  | b :: s => if b &&& 0x80 = 0 then skipAscii s else b :: s

/-- What is left behind a character of two bytes that begins with `s0`, if it is well formed. -/
def skipTwo (s0 : UInt8) : Bytes → Option Bytes
  | s1 :: s => if s1 &&& 0xC0 ≠ 0x80 ∨ s0 &&& 0xFE = 0xC0 then none else some s
  | [] => none

/-- What is left behind a character of three bytes that begins with `s0`, if it is well formed. -/
def skipThree (s0 : UInt8) : Bytes → Option Bytes
  | s1 :: s2 :: s =>
      if s1 &&& 0xC0 ≠ 0x80 ∨ s2 &&& 0xC0 ≠ 0x80 ∨ s0 = 0xE0 ∧ s1 &&& 0xE0 = 0x80 ∨
          s0 = 0xED ∧ s1 &&& 0xE0 = 0xA0 then none
      else some s
  | _ => none

/-- What is left behind a character of four bytes that begins with `s0`, if it is well formed. -/
def skipFour (s0 : UInt8) : Bytes → Option Bytes
  | s1 :: s2 :: s3 :: s =>
      if s1 &&& 0xC0 ≠ 0x80 ∨ s2 &&& 0xC0 ≠ 0x80 ∨ s3 &&& 0xC0 ≠ 0x80 ∨
          s0 = 0xF0 ∧ s1 &&& 0xF0 = 0x80 ∨ s0 = 0xF4 ∧ s1 > 0x8F ∨ s0 > 0xF4 then none
      else some s
  | _ => none

/-- What is left behind a character of two to four bytes, if it is well formed. -/
def skipLong : Bytes → Option Bytes
  | [] => none
  | s0 :: s =>
      if s0 &&& 0x60 = 0x40 then skipTwo s0 s
      else if s0 &&& 0xF0 = 0xE0 then skipThree s0 s
      else if s0 &&& 0xF8 = 0xF0 then skipFour s0 s
      else none

/-- The four bytes at the front are those of one-byte characters, as one test of a word finds. -/
def fourAscii : Bytes → Bool
  | s0 :: s1 :: s2 :: s3 :: _ =>
      s0 &&& 0x80 = 0 ∧ s1 &&& 0x80 = 0 ∧ s2 &&& 0x80 = 0 ∧ s3 &&& 0x80 = 0
  | _ => false

/-- The loop of `isValidUtf8` over at most `fuel` turns. -/
def validLoop : ℕ → Bytes → Bool
  | _, [] => true
  | 0, _ :: _ => false
  | fuel + 1, b :: s =>
      if fourAscii (b :: s) then validLoop fuel (s.drop 3)
      else
        match skipAscii (b :: s) with
        | [] => true
        | s => (skipLong s).any (validLoop fuel)

/-- `WebSocketProtocol::isValidUtf8`.  Each turn of the loop goes on by a byte at least. -/
def isValidUtf8 (s : Bytes) : Bool := validLoop s.length s

/-! ### Bytes of characters -/

/-- What holds of the bytes up to 255 holds of all. -/
theorem forall_byte {P : UInt8 → Prop} (h : ∀ n : Fin 256, P (UInt8.ofNat n)) (b : UInt8) :
  P b
  := by
  have hb := h ⟨b.toNat, b.toNat_lt⟩
  rwa [UInt8.ofNat_toNat] at hb

/-- What a mask of the first bits leaves of a byte. -/
theorem toNat_and_high (b : UInt8) (k : Fin 9) :
  (b &&& UInt8.ofNat (256 - 2 ^ k.val)).toNat = b.toNat / 2 ^ k.val * 2 ^ k.val
  := by
  revert k
  revert b
  exact forall_byte (by decide +kernel)

/-- A mask of the first bits compares what they are. -/
theorem and_high_eq_iff (b v : UInt8) (k : Fin 9) {c : ℕ} (hv : v.toNat = c * 2 ^ k.val) :
  b &&& UInt8.ofNat (256 - 2 ^ k.val) = v ↔ b.toNat / 2 ^ k.val = c
  := by
  rw [← UInt8.toNat_inj, toNat_and_high, hv]
  exact Nat.mul_left_inj (Nat.two_pow_pos k.val).ne'

/-- A byte is a character of its own. -/
theorem isAscii_iff (b : UInt8) :
  b &&& 0x80 = 0 ↔ b.toNat < 128
  := by
  have hhigh : b &&& 0x80 = 0 ↔ b.toNat / 128 = 0 := and_high_eq_iff b 0 7 rfl
  rw [hhigh]
  omega

/-- A byte continues a character. -/
theorem isTail_iff (b : UInt8) :
  b &&& 0xC0 = 0x80 ↔ b.toNat / 64 = 2
  := and_high_eq_iff b 0x80 6 rfl

/-- A byte begins a character of two bytes, provided that it is not one of its own. -/
theorem isTwo_iff (b : UInt8) :
  b &&& 0x60 = 0x40 ↔ b.toNat / 32 % 4 = 2
  := by
  revert b
  exact forall_byte (by decide +kernel)

/-- A byte begins a character of three bytes. -/
theorem isThree_iff (b : UInt8) :
  b &&& 0xF0 = 0xE0 ↔ b.toNat / 16 = 14
  := and_high_eq_iff b 0xE0 4 rfl

/-- A byte begins a character of four bytes. -/
theorem isFour_iff (b : UInt8) :
  b &&& 0xF8 = 0xF0 ↔ b.toNat / 8 = 30
  := and_high_eq_iff b 0xF0 3 rfl

/-- Two bytes are too many. -/
theorem isOverlong_iff (b : UInt8) :
  b &&& 0xFE = 0xC0 ↔ b.toNat / 2 = 96
  := and_high_eq_iff b 0xC0 1 rfl

/-- The second of three bytes is that of a character of less. -/
theorem isLow_iff (b : UInt8) :
  b &&& 0xE0 = 0x80 ↔ b.toNat / 32 = 4
  := and_high_eq_iff b 0x80 5 rfl

/-- The second of three bytes is that of a surrogate. -/
theorem isSurrogate_iff (b : UInt8) :
  b &&& 0xE0 = 0xA0 ↔ b.toNat / 32 = 5
  := and_high_eq_iff b 0xA0 5 rfl

/-- The second of four bytes is that of a character of less. -/
theorem isLower_iff (b : UInt8) :
  b &&& 0xF0 = 0x80 ↔ b.toNat / 16 = 8
  := and_high_eq_iff b 0x80 4 rfl

/-- A byte as a number. -/
theorem byte_eq_iff (b : UInt8) {n : ℕ} (hn : n < 256) :
  b = UInt8.ofNat n ↔ b.toNat = n
  := by
  rw [← UInt8.toNat_inj, UInt8.toNat_ofNat_of_lt' hn]

/-- The character with a number that is one. -/
theorem exists_char {v : ℕ} (hv : v < 0xD800 ∨ 0xDFFF < v ∧ v < 0x110000) :
  ∃ c : Char, c.val.toNat = v
  := by
  use Char.ofNatAux v hv
  rfl

/-! ### Characters of two to four bytes -/

/-- The loop goes on behind a character. -/
theorem skipLong_utf8EncodeChar {c : Char} (hc : 128 ≤ c.val.toNat) (rest : Bytes) :
  skipLong (String.utf8EncodeChar c ++ rest) = some rest
  := by
  have hvalid : c.val.toNat < 0xD800 ∨ 0xDFFF < c.val.toNat ∧ c.val.toNat < 0x110000 := c.valid
  fun_cases String.utf8EncodeChar c with
  | case1 v hv =>
      have hlt : 128 ≤ v := hc
      omega
  | case2 v hlo hv =>
      simp only [List.cons_append, List.nil_append, skipLong, skipTwo, isTwo_iff, isTail_iff,
        isOverlong_iff, ne_eq, UInt8.toNat_ofNat']
      rw [if_pos (by omega), if_neg (by omega)]
  | case3 v hlo hlo' hv =>
      change v < 0xD800 ∨ 0xDFFF < v ∧ v < 0x110000 at hvalid
      simp only [List.cons_append, List.nil_append, skipLong, skipThree, isTwo_iff, isTail_iff,
        isLow_iff, isSurrogate_iff, isThree_iff, ne_eq]
      simp only [← UInt8.toNat_inj, UInt8.toNat_ofNat', UInt8.reduceToNat]
      rw [if_neg (by omega), if_pos (by omega), if_neg (by omega)]
  | case4 v hlo hlo' hlo'' =>
      change v < 0xD800 ∨ 0xDFFF < v ∧ v < 0x110000 at hvalid
      simp only [List.cons_append, List.nil_append, skipLong, skipFour, isTwo_iff, isTail_iff,
        isLower_iff, isThree_iff, isFour_iff, ne_eq]
      simp only [← UInt8.toNat_inj, gt_iff_lt, UInt8.lt_iff_toNat_lt, UInt8.toNat_ofNat',
        UInt8.reduceToNat]
      rw [if_neg (by omega), if_neg (by omega), if_pos (by omega), if_neg (by omega)]

/-- A well-formed character of two bytes. -/
theorem exists_char_of_skipTwo {s0 : UInt8} {s rest : Bytes} (hs0 : s0.toNat / 32 = 6)
    (h : skipTwo s0 s = some rest) :
  ∃ c : Char, 128 ≤ c.val.toNat ∧ s0 :: s = String.utf8EncodeChar c ++ rest
  := by
  revert h
  fun_cases skipTwo s0 s with
  | case1 s1 s hbad => exact fun h => absurd h (by simp)
  | case3 => exact fun h => absurd h (by simp)
  | case2 s1 s hok =>
      intro h
      obtain rfl : s = rest := Option.some.inj h
      simp only [isTail_iff, isOverlong_iff, ne_eq, not_or, not_not] at hok
      obtain ⟨c, hc⟩ := exists_char (v := s0.toNat % 32 * 64 + s1.toNat % 64) (by omega)
      have hb0 := byte_eq_iff s0 (n := c.val.toNat / 64 % 32 + 0xC0) (by omega)
      have hb1 := byte_eq_iff s1 (n := c.val.toNat % 64 + 0x80) (by omega)
      use c
      constructor
      · omega
      · rw [String.utf8EncodeChar, if_neg (by omega), if_pos (by omega), ← hb0.mpr (by omega),
          ← hb1.mpr (by omega)]
        rfl

/-- A well-formed character of three bytes. -/
theorem exists_char_of_skipThree {s0 : UInt8} {s rest : Bytes} (hs0 : s0.toNat / 16 = 14)
    (h : skipThree s0 s = some rest) :
  ∃ c : Char, 128 ≤ c.val.toNat ∧ s0 :: s = String.utf8EncodeChar c ++ rest
  := by
  revert h
  fun_cases skipThree s0 s with
  | case1 s1 s2 s hbad => exact fun h => absurd h (by simp)
  | case3 => exact fun h => absurd h (by simp)
  | case2 s1 s2 s hok =>
      intro h
      obtain rfl : s = rest := Option.some.inj h
      simp only [isTail_iff, isLow_iff, isSurrogate_iff, ne_eq, not_or, not_not] at hok
      simp only [← UInt8.toNat_inj, UInt8.reduceToNat] at hok
      obtain ⟨c, hc⟩ := exists_char
        (v := s0.toNat % 16 * 4096 + s1.toNat % 64 * 64 + s2.toNat % 64) (by omega)
      have hb0 := byte_eq_iff s0 (n := c.val.toNat / 4096 % 16 + 0xE0) (by omega)
      have hb1 := byte_eq_iff s1 (n := c.val.toNat / 64 % 64 + 0x80) (by omega)
      have hb2 := byte_eq_iff s2 (n := c.val.toNat % 64 + 0x80) (by omega)
      use c
      constructor
      · omega
      · rw [String.utf8EncodeChar, if_neg (by omega), if_neg (by omega), if_pos (by omega),
          ← hb0.mpr (by omega), ← hb1.mpr (by omega), ← hb2.mpr (by omega)]
        rfl

/-- A well-formed character of four bytes. -/
theorem exists_char_of_skipFour {s0 : UInt8} {s rest : Bytes} (hs0 : s0.toNat / 8 = 30)
    (h : skipFour s0 s = some rest) :
  ∃ c : Char, 128 ≤ c.val.toNat ∧ s0 :: s = String.utf8EncodeChar c ++ rest
  := by
  revert h
  fun_cases skipFour s0 s with
  | case1 s1 s2 s3 s hbad => exact fun h => absurd h (by simp)
  | case3 => exact fun h => absurd h (by simp)
  | case2 s1 s2 s3 s hok =>
      intro h
      obtain rfl : s = rest := Option.some.inj h
      simp only [isTail_iff, isLower_iff, ne_eq, not_or, not_not] at hok
      simp only [← UInt8.toNat_inj, gt_iff_lt, UInt8.lt_iff_toNat_lt, UInt8.reduceToNat] at hok
      obtain ⟨c, hc⟩ := exists_char (v := s0.toNat % 8 * 262144 + s1.toNat % 64 * 4096 +
        s2.toNat % 64 * 64 + s3.toNat % 64) (by omega)
      have hb0 := byte_eq_iff s0 (n := c.val.toNat / 262144 % 8 + 0xF0) (by omega)
      have hb1 := byte_eq_iff s1 (n := c.val.toNat / 4096 % 64 + 0x80) (by omega)
      have hb2 := byte_eq_iff s2 (n := c.val.toNat / 64 % 64 + 0x80) (by omega)
      have hb3 := byte_eq_iff s3 (n := c.val.toNat % 64 + 0x80) (by omega)
      use c
      constructor
      · omega
      · rw [String.utf8EncodeChar, if_neg (by omega), if_neg (by omega), if_neg (by omega),
          ← hb0.mpr (by omega), ← hb1.mpr (by omega), ← hb2.mpr (by omega), ← hb3.mpr (by omega)]
        rfl

/-- The loop goes on behind a character only. -/
theorem exists_char_of_skipLong {s0 : UInt8} {s rest : Bytes} (hs0 : 128 ≤ s0.toNat)
    (h : skipLong (s0 :: s) = some rest) :
  ∃ c : Char, 128 ≤ c.val.toNat ∧ s0 :: s = String.utf8EncodeChar c ++ rest
  := by
  have hlt := s0.toNat_lt
  simp only [skipLong, isTwo_iff, isThree_iff, isFour_iff] at h
  split_ifs at h with h₂ h₃ h₄
  · exact exists_char_of_skipTwo (by omega) h
  · exact exists_char_of_skipThree h₃ h
  · exact exists_char_of_skipFour h₄ h

/-! ### Texts -/

/-- Bytes are those of a text in UTF-8. -/
def IsText (s : Bytes) : Prop := ∃ text, utf8 text = s

/-- A character has one byte if it has a number below 128. -/
theorem utf8EncodeChar_ascii {c : Char} (hc : c.val.toNat < 128) :
  ∃ b : UInt8, b.toNat = c.val.toNat ∧ String.utf8EncodeChar c = [b]
  := by
  use UInt8.ofNat c.val.toNat
  constructor
  · rw [UInt8.toNat_ofNat']
    omega
  · rw [String.utf8EncodeChar, if_pos (by omega)]

/-- The first byte of a character that has a number from 128 on. -/
theorem utf8EncodeChar_long {c : Char} (hc : 128 ≤ c.val.toNat) :
  ∃ (b : UInt8) (bs : Bytes), 128 ≤ b.toNat ∧ String.utf8EncodeChar c = b :: bs
  := by
  have hvalid : c.val.toNat < 0xD800 ∨ 0xDFFF < c.val.toNat ∧ c.val.toNat < 0x110000 := c.valid
  rw [String.utf8EncodeChar]
  split_ifs
  · omega
  all_goals
    refine ⟨_, _, ?_, rfl⟩
    rw [UInt8.toNat_ofNat']
    omega

/-- A character of one byte. -/
theorem isText_cons_ascii {b : UInt8} {s : Bytes} (hb : b.toNat < 128) :
  IsText (b :: s) ↔ IsText s
  := by
  constructor
  · rintro ⟨_ | ⟨c, text⟩, htext⟩
    · cases htext
    · rw [utf8_cons] at htext
      by_cases hc : c.val.toNat < 128
      · obtain ⟨b', -, henc⟩ := utf8EncodeChar_ascii hc
        rw [henc, List.singleton_append] at htext
        exact ⟨text, (List.cons.inj htext).2⟩
      · obtain ⟨b', bs, hb', henc⟩ := utf8EncodeChar_long (not_lt.mp hc)
        rw [henc, List.cons_append] at htext
        rw [(List.cons.inj htext).1] at hb'
        omega
  · rintro ⟨text, rfl⟩
    obtain ⟨c, hc⟩ := exists_char (v := b.toNat) (by omega)
    obtain ⟨b', hb', henc⟩ := utf8EncodeChar_ascii (c := c) (by omega)
    obtain rfl : b' = b := UInt8.toNat_inj.mp (hb'.trans hc)
    use c :: text
    rw [utf8_cons, henc, List.singleton_append]

/-- A character of several bytes. -/
theorem isText_cons_long {s0 : UInt8} {s : Bytes} (hs0 : 128 ≤ s0.toNat) :
  IsText (s0 :: s) ↔ ∃ rest, skipLong (s0 :: s) = some rest ∧ IsText rest
  := by
  constructor
  · rintro ⟨_ | ⟨c, text⟩, htext⟩
    · cases htext
    · rw [utf8_cons] at htext
      have hc : 128 ≤ c.val.toNat := by
        by_contra hc
        obtain ⟨b, hb, henc⟩ := utf8EncodeChar_ascii (not_le.mp hc)
        rw [henc, List.singleton_append] at htext
        rw [← (List.cons.inj htext).1] at hs0
        omega
      use utf8 text
      constructor
      · rw [← htext, skipLong_utf8EncodeChar hc]
      · exact ⟨text, rfl⟩
  · rintro ⟨rest, hskip, text, rfl⟩
    obtain ⟨c, -, heq⟩ := exists_char_of_skipLong hs0 hskip
    use c :: text
    rw [utf8_cons, heq]

/-! ### The loop accepts the texts -/

/-- Skipping makes it no longer. -/
theorem length_skipAscii_le (s : Bytes) :
  (skipAscii s).length ≤ s.length
  := by
  induction s with
  | nil => exact le_refl _
  | cons b s ih =>
      rw [skipAscii]
      split
      · exact ih.trans (Nat.le_succ _)
      · exact le_refl _

/-- The first byte behind bytes of one-byte characters is another one. -/
theorem le_of_skipAscii {b : UInt8} {s s' : Bytes} (h : skipAscii s = b :: s') :
  128 ≤ b.toNat
  := by
  induction s with
  | nil => cases h
  | cons b' s ih =>
      rw [skipAscii] at h
      split at h
      case isTrue => exact ih h
      case isFalse hb' =>
        rw [isAscii_iff, not_lt] at hb'
        rwa [← (List.cons.inj h).1]

/-- Skipping characters of one byte. -/
theorem isText_skipAscii (s : Bytes) :
  IsText (skipAscii s) ↔ IsText s
  := by
  induction s with
  | nil => rfl
  | cons b s ih =>
      rw [skipAscii]
      split
      case isTrue hb => rw [ih, isText_cons_ascii ((isAscii_iff b).mp hb)]
      case isFalse => rfl

/-- Four bytes at once. -/
theorem isText_fourAscii {b : UInt8} {s : Bytes} (h : fourAscii (b :: s) = true) :
  IsText (b :: s) ↔ IsText (s.drop 3)
  := by
  rcases s with _ | ⟨s1, _ | ⟨s2, _ | ⟨s3, s⟩⟩⟩
  · cases h
  · cases h
  · cases h
  · have hand := of_decide_eq_true h
    simp only [isAscii_iff] at hand
    obtain ⟨h0, h1, h2, h3⟩ := hand
    rw [isText_cons_ascii h0, isText_cons_ascii h1, isText_cons_ascii h2, isText_cons_ascii h3]
    rfl

/-- The loop goes on behind a character by a byte at least. -/
theorem length_of_skipLong {s0 : UInt8} {s rest : Bytes} (hs0 : 128 ≤ s0.toNat)
    (h : skipLong (s0 :: s) = some rest) :
  rest.length ≤ s.length
  := by
  obtain ⟨c, hc, heq⟩ := exists_char_of_skipLong hs0 h
  obtain ⟨b, bs, -, henc⟩ := utf8EncodeChar_long hc
  rw [henc, List.cons_append] at heq
  rw [(List.cons.inj heq).2, List.length_append]
  exact Nat.le_add_left _ _

/-- The loop, with turns enough. -/
theorem validLoop_iff {fuel : ℕ} {s : Bytes} (hfuel : s.length ≤ fuel) :
  validLoop fuel s = true ↔ IsText s
  := by
  induction fuel generalizing s with
  | zero =>
      obtain rfl := List.length_eq_zero_iff.mp (Nat.le_zero.mp hfuel)
      exact iff_of_true rfl ⟨[], rfl⟩
  | succ fuel ih =>
      rcases s with _ | ⟨b, s⟩
      · exact iff_of_true rfl ⟨[], rfl⟩
      · have hlen : s.length ≤ fuel := Nat.le_of_succ_le_succ hfuel
        rw [validLoop]
        split
        case isTrue hfour =>
          rw [isText_fourAscii hfour]
          apply ih
          rw [List.length_drop]
          omega
        case isFalse =>
          have hle := length_skipAscii_le (b :: s)
          have htext := isText_skipAscii (b :: s)
          have hbegin : ∀ b' s', skipAscii (b :: s) = b' :: s' → 128 ≤ b'.toNat :=
            fun b' s' h => le_of_skipAscii h
          rw [← htext]
          generalize skipAscii (b :: s) = left at hle hbegin ⊢
          rcases left with _ | ⟨s0, s'⟩
          · exact iff_of_true rfl ⟨[], rfl⟩
          · have hs0 : 128 ≤ s0.toNat := hbegin s0 s' rfl
            rw [isText_cons_long hs0, Option.any_eq_true]
            have hrest : ∀ rest, skipLong (s0 :: s') = some rest →
                (validLoop fuel rest = true ↔ IsText rest) := by
              intro rest hskip
              have hlen' := length_of_skipLong hs0 hskip
              rw [List.length_cons, List.length_cons] at hle
              exact ih (by omega)
            constructor
            · rintro ⟨rest, hskip, hvalid⟩
              exact ⟨rest, hskip, (hrest rest hskip).mp hvalid⟩
            · rintro ⟨rest, hskip, hvalid⟩
              exact ⟨rest, hskip, (hrest rest hskip).mpr hvalid⟩

/-- `isValidUtf8` accepts the bytes of the texts in UTF-8. -/
theorem isValidUtf8_iff (s : Bytes) :
  isValidUtf8 s = true ↔ ∃ text, utf8 text = s
  := validLoop_iff (le_refl _)

end WebSocket

end Owop
