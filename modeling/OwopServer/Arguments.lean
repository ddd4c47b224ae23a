import OwopServer.Numbers

/-!
# Arguments of commands

`Commands::split_args` cuts the text of a command at its spaces, and commands with a text as
their last argument put the pieces together again.
-/

namespace Owop

namespace Commands

/-! ### Splitting -/

/-- One turn of the loop of `split_args`: the start of the current argument and the arguments
found, after the character at `i`. -/
def splitStep (msgp : Bytes) (s : ℕ × List Bytes) (i : ℕ) : ℕ × List Bytes :=
  if msgp.getD i 0 = 32 then (i + 1, if i - s.1 > 0 then s.2 ++ [msgp.slice s.1 (i - s.1)] else s.2)
  else s

/-- `Commands::split_args`.  The loop runs at least once, and reads the zero behind the text
if the text is empty. -/
def splitArgs (msg : Bytes) : List Bytes :=
  let msgp := msg ++ [0]
  let i := max 1 msg.length
  let (j, args) := (List.range i).foldl (splitStep msgp) (0, [])
  if i - j > 0 then args ++ [msgp.slice j (i - j)] else args

/-- The arguments from the one with number `n` on, with spaces between them. -/
def joinArgs (args : List Bytes) (n : ℕ) : Bytes :=
  (args.drop (n + 1)).foldl (fun value arg => value ++ ([32] ++ arg)) (args.getD n [])

/-! ### The arguments are the pieces between the spaces -/

/-- The longest pieces of a text that contain no space. -/
def tokens (msg : Bytes) : List Bytes := (msg.splitOn 32).filter fun arg => arg ≠ []

/-- A piece, unless it is empty. -/
def piece (b : Bytes) : List Bytes := if b = [] then [] else [b]

theorem tokens_piece {b : Bytes} (h : 32 ∉ b) :
  tokens b = piece b
  := by
  rw [tokens, List.splitOn_eq_singleton h, piece]
  by_cases hb : b = []
  · rw [if_pos hb, hb]
    rfl
  · rw [if_neg hb]
    simp [hb]

/-- The text up to the first space is the first piece. -/
theorem tokens_space {b : Bytes} (h : 32 ∉ b) (rest : Bytes) :
  tokens (b ++ 32 :: rest) = piece b ++ tokens rest
  := by
  rw [tokens, List.splitOn_append_cons_self_of_not_mem h, piece]
  by_cases hb : b = []
  · rw [if_pos hb, hb]
    rfl
  · rw [if_neg hb]
    simp [hb, tokens]

/-- No piece contains a space. -/
theorem space_notMem_tokens {msg arg : Bytes} (h : arg ∈ tokens msg) :
  32 ∉ arg
  := by
  rw [tokens, List.mem_filter] at h
  exact Bytes.notMem_of_mem_splitOn h.1

/-- What the loop of `split_args` keeps: the current argument has no space so far, and what
was found is what comes before it. -/
structure Splitting (msg : Bytes) (i : ℕ) (s : ℕ × List Bytes) : Prop where
  le : s.1 ≤ i
  noSpace : 32 ∉ msg.slice s.1 (i - s.1)
  found : ∀ rest, tokens (msg.take i ++ rest) = s.2 ++ tokens (msg.slice s.1 (i - s.1) ++ rest)

/-- The next character of the current argument. -/
theorem slice_succ {msg : Bytes} {i j : ℕ} (hj : j ≤ i) (hi : i < msg.length) :
  msg.slice j (i + 1 - j) = msg.slice j (i - j) ++ [msg[i]]
  := by
  rw [Bytes.slice, Bytes.slice, show i + 1 - j = i - j + 1 by omega]
  rw [List.take_succ_eq_append_getElem (by rw [List.length_drop]; omega), List.getElem_drop]
  congr
  omega

theorem Splitting.step {msg : Bytes} {i : ℕ} {s : ℕ × List Bytes} (h : Splitting msg i s)
    (hi : i < msg.length) :
  Splitting msg (i + 1) (splitStep (msg ++ [0]) s i)
  := by
  have hget : (msg ++ [0]).getD i 0 = msg[i] := by
    rw [List.getD_append _ _ _ _ hi, List.getD_eq_getElem _ _ hi]
  have hslice : Bytes.slice (msg ++ [0]) s.1 (i - s.1) = msg.slice s.1 (i - s.1) := by
    have hle := h.le
    rw [Bytes.slice, Bytes.slice, List.drop_append_of_le_length (by omega),
      List.take_append_of_le_length (by rw [List.length_drop]; omega)]
  have hlen : (msg.slice s.1 (i - s.1)).length = i - s.1 :=
    Bytes.length_slice_of_le (by have hle := h.le; omega)
  have hnext : ∀ rest, msg.take (i + 1) ++ rest = msg.take i ++ msg[i] :: rest := by
    intro rest
    rw [List.take_succ_eq_append_getElem hi, List.append_assoc, List.singleton_append]
  rw [splitStep, hget, hslice]
  split
  case isTrue hspace =>
    constructor
    case le => exact le_refl _
    case noSpace =>
      rw [Nat.sub_self]
      simp [Bytes.slice]
    case found =>
      intro rest
      rw [hnext, hspace, h.found, tokens_space h.noSpace, Nat.sub_self]
      have hpiece : piece (msg.slice s.1 (i - s.1))
          = if i - s.1 > 0 then [msg.slice s.1 (i - s.1)] else [] := by
        rw [piece]
        by_cases hb : msg.slice s.1 (i - s.1) = []
        · rw [if_pos hb, if_neg (by rw [← hlen, hb]; exact lt_irrefl 0)]
        · rw [if_neg hb, if_pos (by rw [← hlen]; exact List.length_pos_of_ne_nil hb)]
      rw [hpiece]
      split
      · simp [Bytes.slice]
      · simp [Bytes.slice]
  case isFalse hspace =>
    constructor
    case le => exact Nat.le_succ_of_le h.le
    case noSpace =>
      rw [slice_succ h.le hi, List.mem_append, List.mem_singleton]
      rintro (hmem | heq)
      · exact h.noSpace hmem
      · exact hspace heq.symm
    case found =>
      intro rest
      rw [hnext, h.found, slice_succ h.le hi, List.append_assoc, List.singleton_append]

/-- `split_args` finds the longest pieces without a space. -/
theorem splitArgs_eq_tokens {msg : Bytes} (h : msg ≠ []) :
  splitArgs msg = tokens msg
  := by
  have hloop : ∀ i ≤ msg.length,
      Splitting msg i ((List.range i).foldl (splitStep (msg ++ [0])) (0, [])) := by
    intro i hi
    induction i with
    | zero =>
        constructor
        case le => exact le_refl 0
        case noSpace => simp [Bytes.slice]
        case found =>
          intro rest
          simp [Bytes.slice]
    | succ i ih =>
        rw [List.range_succ, List.foldl_concat]
        exact (ih (by omega)).step (by omega)
  have hlast := hloop msg.length le_rfl
  have hmax : max 1 msg.length = msg.length := by
    have hpos := List.length_pos_of_ne_nil h
    omega
  rw [splitArgs, hmax]
  generalize (List.range msg.length).foldl (splitStep (msg ++ [0])) (0, []) = s at hlast ⊢
  obtain ⟨j, args⟩ := s
  dsimp only
  have hle := hlast.le
  have hfound := hlast.found []
  dsimp only at hle hfound
  have hslice : Bytes.slice (msg ++ [0]) j (msg.length - j) = msg.slice j (msg.length - j) := by
    rw [Bytes.slice, Bytes.slice, List.drop_append_of_le_length hle,
      List.take_append_of_le_length (by rw [List.length_drop])]
  have hlen : (msg.slice j (msg.length - j)).length = msg.length - j :=
    Bytes.length_slice_of_le (by omega)
  rw [List.take_length, List.append_nil, List.append_nil, tokens_piece hlast.noSpace, piece] at hfound
  rw [hslice, hfound]
  dsimp only
  by_cases hb : msg.slice j (msg.length - j) = []
  · rw [if_pos hb, if_neg (by rw [← hlen, hb]; exact lt_irrefl 0), List.append_nil]
  · rw [if_neg hb, if_pos (by rw [← hlen]; exact List.length_pos_of_ne_nil hb)]

/-- No argument contains a space. -/
theorem space_notMem_splitArgs {msg arg : Bytes} (h : arg ∈ splitArgs msg) :
  32 ∉ arg
  := by
  by_cases hmsg : msg = []
  · rw [hmsg] at h
    have hzero : splitArgs [] = [[0]] := by decide
    rw [hzero, List.mem_singleton] at h
    rw [h]
    decide
  · rw [splitArgs_eq_tokens hmsg] at h
    exact space_notMem_tokens h

/-! ### What is put together is shorter than the text -/

/-- The arguments put together are as long as they are, with a space between each two. -/
theorem length_joinArgs {args : List Bytes} {n : ℕ} (hn : n < args.length) :
  (joinArgs args n).length + 1 = ((args.drop n).map fun arg => arg.length + 1).sum
  := by
  have hfold : ∀ (rest : List Bytes) (value : Bytes),
      (rest.foldl (fun value arg => value ++ ([32] ++ arg)) value).length
        = value.length + (rest.map fun arg => arg.length + 1).sum := by
    intro rest
    induction rest with
    | nil => simp
    | cons arg rest ih =>
        intro value
        rw [List.foldl_cons, ih]
        simp only [List.length_append, List.length_cons, List.length_nil, List.map_cons,
          List.sum_cons]
        omega
  rw [joinArgs, hfold, List.drop_eq_getElem_cons hn, List.map_cons, List.sum_cons,
    List.getD_eq_getElem _ _ hn]
  omega

/-- The arguments of a text are no longer than it. -/
theorem sum_length_splitArgs (msg : Bytes) (h : msg ≠ []) :
  ((splitArgs msg).map fun arg => arg.length + 1).sum ≤ msg.length + 1
  := by
  rw [splitArgs_eq_tokens h, tokens, ← Bytes.sum_length_splitOn 32 msg]
  apply List.Sublist.sum_le_sum
  · exact List.filter_sublist.map _
  · intro n _
    exact Nat.zero_le n

end Commands

end Owop
