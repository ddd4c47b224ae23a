import OwopServer.Commands

/-!
# The texts of clients

`getUTF8strlen` measures a text, and `Commands::split_args` cuts it at its spaces.
-/

namespace Owop

/-! ### The length of a text -/

/-- The number of code units of a character in UTF-16: those behind `U+FFFF` are surrogate
pairs. -/
def utf16Size (c : Char) : ℕ := if c.toNat ≤ 0xFFFF then 1 else 2

/-- The number of code units of a text in UTF-16, which is its length in a browser. -/
def utf16Length (text : List Char) : ℕ := (text.map utf16Size).sum

/-- The bytes of a text in UTF-8. -/
def utf8 (text : List Char) : Bytes := text.flatMap String.utf8EncodeChar

@[simp]
theorem utf16Length_cons (c : Char) (text : List Char) :
  utf16Length (c :: text) = utf16Size c + utf16Length text
  := rfl

@[simp]
theorem utf8_cons (c : Char) (text : List Char) :
  utf8 (c :: text) = String.utf8EncodeChar c ++ utf8 text
  := rfl

/-- A byte begins a character unless its first two bits are `10`. -/
theorem and_eq_iff {n : ℕ} (hn : n < 256) :
  UInt8.ofNat n &&& 0xC0 = 0x80 ↔ n / 64 = 2
  := by
  have hall : ∀ n : Fin 256, (UInt8.ofNat n &&& 0xC0 = 0x80 ↔ (n : ℕ) / 64 = 2) := by
    decide +kernel
  exact hall ⟨n, hn⟩

/-- The loop at a byte that begins a character: the character before it is counted. -/
theorem utf8Loop_begins {n : ℕ} (hn : n < 256) (hbits : n / 64 ≠ 2) {x : ℕ} (hx : x ≤ 4)
    (bs : Bytes) (j : ℕ) :
  utf8Loop (UInt8.ofNat n :: bs) j x = utf8Loop bs (j + if x = 4 then 2 else 1) 1
  := by
  rw [utf8Loop, if_neg (not_lt.mpr hx), if_pos]
  rwa [ne_eq, and_eq_iff hn]

/-- The loop at a byte that does not begin a character. -/
theorem utf8Loop_continues (n : ℕ) {x : ℕ} (hx : x ≤ 4) (bs : Bytes) (j : ℕ) :
  utf8Loop (UInt8.ofNat (n % 64 + 0x80) :: bs) j x = utf8Loop bs j (x + 1)
  := by
  rw [utf8Loop, if_neg (not_lt.mpr hx), if_neg]
  rw [ne_eq, not_not, and_eq_iff (by omega)]
  omega

/-- The loop at the bytes of a character: the character before it is counted, and `x` is then
the number of bytes of this one. -/
theorem utf8Loop_utf8EncodeChar (c : Char) {x : ℕ} (hx : x ≤ 4) (bs : Bytes) (j : ℕ) :
  utf8Loop (String.utf8EncodeChar c ++ bs) j x
    = utf8Loop bs (j + if x = 4 then 2 else 1) (String.utf8EncodeChar c).length
  := by
  fun_cases String.utf8EncodeChar c with
  | case1 v hv =>
      rw [List.singleton_append, utf8Loop_begins (by omega) (by omega) hx]
      rfl
  | case2 v =>
      simp only [List.cons_append, List.nil_append]
      rw [utf8Loop_begins (by omega) (by omega) hx, utf8Loop_continues _ (by omega)]
      rfl
  | case3 v =>
      simp only [List.cons_append, List.nil_append]
      rw [utf8Loop_begins (by omega) (by omega) hx, utf8Loop_continues _ (by omega),
        utf8Loop_continues _ (by omega)]
      rfl
  | case4 v =>
      simp only [List.cons_append, List.nil_append]
      rw [utf8Loop_begins (by omega) (by omega) hx, utf8Loop_continues _ (by omega),
        utf8Loop_continues _ (by omega), utf8Loop_continues _ (by omega)]
      rfl

/-- A character has two code units in UTF-16 if it has four bytes in UTF-8, and one otherwise. -/
theorem utf16Size_eq (c : Char) :
  utf16Size c = if (String.utf8EncodeChar c).length = 4 then 2 else 1
  := by
  rw [utf16Size, Char.toNat]
  fun_cases String.utf8EncodeChar c with
  | case1 v hv =>
      rw [if_pos (by omega)]
      rfl
  | case2 v _ hv =>
      rw [if_pos (by omega)]
      rfl
  | case3 v _ _ hv =>
      rw [if_pos hv]
      rfl
  | case4 v _ _ hv =>
      rw [if_neg hv]
      rfl

/-- The loop over a text.  A character is counted when the next one begins: behind one of `x`
bytes, it is the last one that is not counted yet. -/
theorem utf8Loop_utf8 (text : List Char) {x : ℕ} (hx : x ≤ 4) (j : ℕ) :
  utf8Loop (utf8 text) j x = j + (if x = 4 then 1 else 0) + utf16Length text
  := by
  induction text generalizing x j with
  | nil =>
      rw [utf8, List.flatMap_nil, utf8Loop, utf16Length, List.map_nil, List.sum_nil]
      split
      · rfl
      · rfl
  | cons c text ih =>
      have hle : (String.utf8EncodeChar c).length ≤ 4 := by
        rw [String.length_utf8EncodeChar]
        exact c.utf8Size_le_four
      rw [utf8_cons, utf8Loop_utf8EncodeChar c hx, ih hle, utf16Length_cons, utf16Size_eq]
      split_ifs
      all_goals omega

theorem utf16Length_le (text : List Char) :
  utf16Length text ≤ (utf8 text).length
  := by
  induction text with
  | nil => exact le_refl 0
  | cons c text ih =>
      have hpos := List.length_pos_of_ne_nil (String.utf8EncodeChar_ne_nil (c := c))
      rw [utf16Length_cons, utf8_cons, List.length_append, utf16Size_eq]
      split_ifs
      all_goals omega

/-- The length of a text in UTF-8 is its length in a browser; it is no more than the number of
its bytes, and so not the number that stands for a text that is not in UTF-8. -/
theorem getUTF8strlen_utf8 (text : List Char) :
  getUTF8strlen (utf8 text) = utf16Length text ∧
    ((utf8 text).length < 2 ^ 64 - 1 → getUTF8strlen (utf8 text) ≠ 2 ^ 64 - 1)
  := by
  have hlen : getUTF8strlen (utf8 text) = utf16Length text := by
    rw [getUTF8strlen, utf8Loop_utf8 text (by decide)]
    simp
  constructor
  · exact hlen
  · intro hbytes
    have hle := utf16Length_le text
    rw [hlen]
    omega

namespace Commands

/-! ### The pieces of a text -/

/-- The text from `a` to `b` is not empty and contains no space. -/
def Spaceless (msg : Bytes) (a b : ℕ) : Prop :=
  a < b ∧ b ≤ msg.length ∧ ∀ i, a ≤ i → i < b → msg[i]? ≠ some 32

/-- The text from `a` to `b` is not empty, contains no space, and is not part of a longer such
text. -/
def Piece (msg : Bytes) (a b : ℕ) : Prop :=
  Spaceless msg a b ∧ ∀ a' b', a' ≤ a → b ≤ b' → Spaceless msg a' b' → a' = a ∧ b' = b

/-- Arguments are the pieces of a text that end before `e`, in their order. -/
def Found (msg : Bytes) (e : ℕ) (args : List Bytes) : Prop :=
  ∃ ps : List (ℕ × ℕ), ps.Pairwise (fun p q => p.2 < q.1) ∧
    (∀ a b, (a, b) ∈ ps ↔ Piece msg a b ∧ b < e) ∧ args = ps.map fun p => msg.slice p.1 (p.2 - p.1)

/-- Arguments are the pieces of a text, in their order. -/
def Pieces (msg : Bytes) (args : List Bytes) : Prop :=
  ∃ ps : List (ℕ × ℕ), ps.Pairwise (fun p q => p.2 < q.1) ∧
    (∀ a b, (a, b) ∈ ps ↔ Piece msg a b) ∧ args = ps.map fun p => msg.slice p.1 (p.2 - p.1)

/-- The bytes from `pos` on, if they are all in the text. -/
def substr (msg : Bytes) (pos n : ℕ) : Option Bytes :=
  if pos + n ≤ msg.length then some (msg.slice pos n) else none

/-- One turn of the loop of `split_args`, with every read checked. -/
def splitStepIn (msg : Bytes) (s : ℕ × List Bytes) (i : ℕ) : Option (ℕ × List Bytes) := do
  let b ← msg[i]?
  if b = 32 then
    if i - s.1 > 0 then
      let arg ← substr msg s.1 (i - s.1)
      return (i + 1, s.2 ++ [arg])
    else return (i + 1, s.2)
  else return s

/-- `Commands::split_args`, `none` if it reads a byte that is not in the text. -/
def splitArgsIn (msg : Bytes) : Option (List Bytes) := do
  let i := max 1 msg.length
  let (j, args) ← (List.range i).foldlM (splitStepIn msg) (0, [])
  if i - j > 0 then
    let arg ← substr msg j (i - j)
    return args ++ [arg]
  else return args

/-- A piece has a space, or nothing, on both sides. -/
theorem piece_iff {msg : Bytes} {a b : ℕ} :
  Piece msg a b ↔ Spaceless msg a b ∧ (a = 0 ∨ msg[a - 1]? = some 32) ∧
    (b = msg.length ∨ msg[b]? = some 32)
  := by
  constructor
  · rintro ⟨hab, hmax⟩
    obtain ⟨hlt, hle, hno⟩ := hab
    refine ⟨⟨hlt, hle, hno⟩, ?_, ?_⟩
    · by_contra! hleft
      have hlonger : Spaceless msg (a - 1) b := by
        refine ⟨by omega, hle, fun i hi hib => ?_⟩
        obtain rfl | hne := eq_or_ne i (a - 1)
        · exact hleft.2
        · exact hno i (by omega) hib
      have := (hmax (a - 1) b (by omega) le_rfl hlonger).1
      omega
    · by_contra! hright
      have hlonger : Spaceless msg a (b + 1) := by
        refine ⟨by omega, by omega, fun i hi hib => ?_⟩
        obtain rfl | hne := eq_or_ne i b
        · exact hright.2
        · exact hno i hi (by omega)
      have := (hmax a (b + 1) le_rfl (by omega) hlonger).2
      omega
  · rintro ⟨hab, hleft, hright⟩
    refine ⟨hab, fun a' b' ha hb hlonger => ?_⟩
    obtain ⟨hlt, hle, hno⟩ := hlonger
    have hlt' := hab.1
    constructor
    · obtain rfl | hspace := hleft
      · omega
      · by_contra hne
        exact hno (a - 1) (by omega) (by omega) hspace
    · obtain rfl | hspace := hright
      · omega
      · by_contra hne
        exact hno b (by omega) (by omega) hspace

/-- What the loop of `split_args` keeps after `i` turns: the current argument has no space so
far, and the pieces that end before it were found. -/
structure Cutting (msg : Bytes) (i : ℕ) (s : ℕ × List Bytes) : Prop where
  le : s.1 ≤ i
  bare : ∀ k, s.1 ≤ k → k < i → msg[k]? ≠ some 32
  start : s.1 = 0 ∨ msg[s.1 - 1]? = some 32
  found : Found msg s.1 s.2

/-- Where the current argument ends, it is the next piece unless it is empty. -/
theorem Cutting.piece_iff {msg : Bytes} {i : ℕ} {s : ℕ × List Bytes} (h : Cutting msg i s)
    (hi : i = msg.length ∨ msg[i]? = some 32) {a b : ℕ} (hb : s.1 ≤ b) :
  Piece msg a b ∧ b < i + 1 ↔ s.1 < i ∧ a = s.1 ∧ b = i
  := by
  have hle := h.le
  rw [Commands.piece_iff]
  constructor
  · rintro ⟨⟨⟨hlt, hlen, hno⟩, hleft, hright⟩, hbi⟩
    have hj : s.1 ≤ a := by
      obtain hzero | hspace := h.start
      · omega
      · by_contra hlt'
        exact hno (s.1 - 1) (by omega) (by omega) hspace
    have ha : a = s.1 := by
      obtain hzero | hspace := hleft
      · omega
      · by_contra hne
        exact h.bare (a - 1) (by omega) (by omega) hspace
    have hbi' : b = i := by
      by_contra hne
      obtain hend | hspace := hright
      · obtain rfl | hspace := hi
        · exact hne hend
        · obtain ⟨hi', -⟩ := List.getElem?_eq_some_iff.mp hspace
          omega
      · exact h.bare b hb (by omega) hspace
    exact ⟨by omega, ha, hbi'⟩
  · rintro ⟨hlt, rfl, rfl⟩
    have hlen : b ≤ msg.length := by
      obtain rfl | hspace := hi
      · exact le_refl _
      · obtain ⟨hi', -⟩ := List.getElem?_eq_some_iff.mp hspace
        exact hi'.le
    exact ⟨⟨⟨hlt, hlen, h.bare⟩, h.start, hi⟩, Nat.lt_succ_self b⟩

theorem Cutting.ends {msg : Bytes} {i : ℕ} {s : ℕ × List Bytes} (h : Cutting msg i s)
    (hi : i = msg.length ∨ msg[i]? = some 32) :
  Found msg (i + 1) (if i - s.1 > 0 then s.2 ++ [msg.slice s.1 (i - s.1)] else s.2)
  := by
  have hle := h.le
  obtain ⟨ps, hsorted, hmem, hargs⟩ := h.found
  -- the pieces that end before the current argument are found already
  have hsplit : ∀ a b, Piece msg a b ∧ b < i + 1
      ↔ (a, b) ∈ ps ∨ s.1 < i ∧ a = s.1 ∧ b = i := by
    intro a b
    by_cases hb : s.1 ≤ b
    · rw [h.piece_iff hi hb, hmem]
      constructor
      · exact Or.inr
      · rintro (⟨-, hlt⟩ | hlast)
        · omega
        · exact hlast
    · rw [hmem]
      constructor
      · rintro ⟨hpiece, -⟩
        exact Or.inl ⟨hpiece, by omega⟩
      · rintro (⟨hpiece, -⟩ | ⟨-, -, rfl⟩)
        · exact ⟨hpiece, by omega⟩
        · omega
  split
  case isTrue hlt =>
    use ps ++ [(s.1, i)]
    and_intros
    · rw [List.pairwise_append]
      refine ⟨hsorted, List.pairwise_singleton _ _, ?_⟩
      rintro ⟨a, b⟩ hp q hq
      rw [List.mem_singleton.mp hq]
      exact ((hmem a b).mp hp).2
    · intro a b
      rw [hsplit, List.mem_append, List.mem_singleton, Prod.mk.injEq]
      constructor
      · rintro (hp | hq)
        · exact Or.inl hp
        · exact Or.inr ⟨by omega, hq⟩
      · rintro (hp | ⟨-, hq⟩)
        · exact Or.inl hp
        · exact Or.inr hq
    · rw [List.map_append, hargs]
      rfl
  case isFalse hge =>
    use ps
    refine ⟨hsorted, fun a b => ?_, hargs⟩
    rw [hsplit]
    constructor
    · exact Or.inl
    · rintro (hp | ⟨hlt, -⟩)
      · exact hp
      · omega

/-- What is read before the zero behind a text is the text. -/
theorem slice_terminated {msg : Bytes} {i j : ℕ} (hj : j ≤ i) (hi : i ≤ msg.length) :
  Bytes.slice (msg ++ [0]) j (i - j) = msg.slice j (i - j)
  := by
  rw [Bytes.slice, Bytes.slice, List.drop_append_of_le_length (by omega),
    List.take_append_of_le_length (by rw [List.length_drop]; omega)]

/-- One turn of the loop. -/
theorem Cutting.step {msg : Bytes} {i : ℕ} {s : ℕ × List Bytes} (h : Cutting msg i s)
    (hi : i < msg.length) :
  ∃ s', splitStepIn msg s i = some s' ∧ splitStep (msg ++ [0]) s i = s' ∧ Cutting msg (i + 1) s'
  := by
  have hle := h.le
  have hget : (msg ++ [0]).getD i 0 = msg[i] := by
    rw [List.getD_append _ _ _ _ hi, List.getD_eq_getElem _ _ hi]
  have hslice := slice_terminated hle hi.le
  have hsub : substr msg s.1 (i - s.1) = some (msg.slice s.1 (i - s.1)) := if_pos (by omega)
  refine ⟨splitStep (msg ++ [0]) s i, ?_, rfl, ?_⟩
  · rw [splitStepIn, splitStep, List.getElem?_eq_getElem hi, hget, hslice, hsub]
    simp only [Option.bind_eq_bind, Option.bind_some]
    split_ifs
    all_goals rfl
  · rw [splitStep, hget, hslice]
    split
    case isTrue hspace =>
      have hi' : msg[i]? = some 32 := by rw [List.getElem?_eq_getElem hi, hspace]
      constructor
      case le => exact le_refl _
      case bare =>
        intro k hk hlt
        omega
      case start => exact Or.inr hi'
      case found => exact h.ends (Or.inr hi')
    case isFalse hspace =>
      constructor
      case le => exact Nat.le_succ_of_le hle
      case bare =>
        intro k hk hlt
        obtain rfl | hne := eq_or_ne k i
        · rw [List.getElem?_eq_getElem hi]
          exact fun heq => hspace (Option.some.inj heq)
        · exact h.bare k hk (by omega)
      case start => exact h.start
      case found => exact h.found

/-- `split_args` finds the pieces of a text, and reads no byte that is not in it, unless the text
is empty: it then reads the zero behind it. -/
theorem splitArgs_pieces_iff (msg : Bytes) :
  splitArgsIn msg = some (splitArgs msg) ∧ Pieces msg (splitArgs msg) ↔ msg ≠ []
  := by
  constructor
  · rintro ⟨hreads, -⟩ rfl
    exact absurd hreads (by decide)
  · intro hmsg
    have hloop : ∀ i ≤ msg.length, ∃ s, (List.range i).foldlM (splitStepIn msg) (0, []) = some s ∧
        (List.range i).foldl (splitStep (msg ++ [0])) (0, []) = s ∧ Cutting msg i s := by
      intro i hi
      induction i with
      | zero =>
          refine ⟨(0, []), rfl, rfl, ?_⟩
          constructor
          case le => exact le_refl 0
          case bare =>
            intro k _ hlt
            omega
          case start => exact Or.inl rfl
          case found => exact ⟨[], List.Pairwise.nil, by simp, rfl⟩
      | succ i ih =>
          obtain ⟨s, hin, hs, h⟩ := ih (by omega)
          obtain ⟨s', hin', hs', h'⟩ := h.step (by omega)
          refine ⟨s', ?_, ?_, h'⟩
          · rw [List.range_succ, List.foldlM_append, hin]
            simp [hin']
          · rw [List.range_succ, List.foldl_concat, hs, hs']
    obtain ⟨⟨j, args⟩, hin, hs, h⟩ := hloop msg.length le_rfl
    have hle := h.le
    have hmax : max 1 msg.length = msg.length := by
      have hpos := List.length_pos_of_ne_nil hmsg
      omega
    have hslice := slice_terminated hle le_rfl
    have hsub : substr msg j (msg.length - j) = some (msg.slice j (msg.length - j)) :=
      if_pos (by dsimp only at hle; omega)
    have hargs : splitArgs msg
        = if msg.length - j > 0 then args ++ [msg.slice j (msg.length - j)] else args := by
      rw [splitArgs, hmax, hs]
      dsimp only at hslice ⊢
      rw [hslice]
    constructor
    · rw [splitArgsIn, hmax, hin, hargs]
      simp only [Option.bind_eq_bind, Option.bind_some, hsub]
      split
      · rfl
      · rfl
    · obtain ⟨ps, hsorted, hmem, hps⟩ := h.ends (Or.inl rfl)
      rw [hargs]
      refine ⟨ps, hsorted, fun a b => ?_, hps⟩
      rw [hmem]
      constructor
      · exact And.left
      · intro hpiece
        have hlen := hpiece.1.2.1
        exact ⟨hpiece, by omega⟩

/-- The empty text is cut into one argument, which is not in it. -/
theorem splitArgs_empty :
  splitArgs [] = [[0]] ∧ splitArgsIn [] = none ∧ ¬ Pieces [] (splitArgs [])
  := by
  refine ⟨by decide, by decide, ?_⟩
  rintro ⟨ps, -, hmem, hargs⟩
  cases ps with
  | nil => exact absurd hargs (by decide)
  | cons p ps =>
      obtain ⟨⟨hlt, hle, -⟩, -⟩ := (hmem p.1 p.2).mp List.mem_cons_self
      rw [List.length_nil] at hle
      omega

end Commands

end Owop
