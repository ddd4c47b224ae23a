import OwopServer.WebSocket.Reader

/-!
# The parser of frames is a reader

`WebSocketProtocol::consume` unmasks in place, in the buffer that was received, and writes a few
bytes more than it should; it keeps the end of one buffer for the next one, and turns the mask of
a frame that is cut.  It touches no byte outside of its arrays, and does what a reader does with
the bytes one after the other.
-/

namespace Owop

open Bytes (slice splice)

namespace WebSocket

variable {α : Type} (H : Handlers α)

/-! ### Copying -/

/-- An access that is within bounds. -/
theorem bind_of_eq {β γ : Type} {x : Option β} {b : β} (h : x = some b) (f : β → Option γ) :
  (x >>= f) = f b
  := by
  rw [h]
  rfl

/-- A byte that is set within bounds. -/
theorem poke_eq {m : Bytes} {i : ℕ} (h : i < m.length) (b : UInt8) :
  poke m i b = some (m.splice i [b])
  := by
  rw [poke, if_pos h, splice, if_neg (by simp)]
  congr 1
  have hpad : i - m.length = 0 := by omega
  rw [hpad, List.replicate_zero, List.append_nil, List.append_assoc, List.singleton_append,
    List.length_singleton, List.set_eq_take_append_cons_drop, if_pos h]

/-- Writing bytes one after the other. -/
theorem splice_cons {m : Bytes} {pos : ℕ} (b : UInt8) (bs : Bytes)
    (h : pos + bs.length < m.length) :
  (m.splice pos [b]).splice (pos + 1) bs = m.splice pos (b :: bs)
  := by
  by_cases hbs : bs = []
  · rw [hbs, Bytes.splice_nil]
  · have hlen : (m.splice pos [b]).length = m.length := by
      rw [Bytes.length_splice (by simp), List.length_singleton]
      omega
    apply List.ext_getElem?
    intro i
    rw [Bytes.getElem?_splice hbs, Bytes.getElem?_splice (by simp), Bytes.getElem?_splice (by simp),
      hlen]
    simp only [List.length_cons, List.length_nil]
    by_cases hlt : i < pos
    · rw [if_pos (by omega), if_pos (by omega), if_pos hlt, if_pos hlt]
    · by_cases heq : i = pos
      · subst heq
        rw [if_pos (by omega), if_pos (by omega), if_neg hlt, if_pos (by omega), if_neg hlt,
          if_pos (by omega), Nat.sub_self, List.getElem?_cons_zero, List.getElem?_cons_zero]
      · have hsub : i - pos = i - (pos + 1) + 1 := by omega
        rw [if_neg (by omega : ¬ i < pos + 1), if_neg hlt, if_neg hlt, hsub,
          List.getElem?_cons_succ]
        by_cases hin : i < pos + 1 + bs.length
        · rw [if_pos hin, if_pos (by omega), List.getElem?_cons_succ]
        · rw [if_neg hin, if_neg (by omega), if_neg (by omega)]

/-- Copying to a place in front of the source, or to the source itself. -/
theorem xorCopy_eq (mask : Mask) (n i : ℕ) {dst src : ℕ} {m : Bytes} (hle : dst ≤ src)
    (hfit : src + n ≤ m.length) :
  xorCopy mask n i dst src m = some (m.splice dst (unmask (mask.turn i) (m.slice src n)))
  := by
  induction n generalizing i dst src m with
  | zero =>
      rw [xorCopy, slice, List.take_zero, unmask_nil, Bytes.splice_nil]
  | succ n ih =>
      obtain ⟨b, hb⟩ : ∃ b, m[src]? = some b := ⟨m[src], List.getElem?_eq_getElem (by omega)⟩
      have hslice : m.slice src (n + 1) = b :: m.slice (src + 1) n := by
        rw [slice, slice, List.drop_eq_getElem_cons (by omega), List.take_succ_cons]
        congr 1
        exact Option.some.inj ((List.getElem?_eq_getElem (by omega)).symm.trans hb)
      have hrest : (m.splice dst [b ^^^ mask (Fin.ofNat 4 i)]).slice (src + 1) n
          = m.slice (src + 1) n := by
        apply Bytes.slice_splice_of_disjoint (by omega)
        right
        rw [List.length_singleton]
        omega
      have hlen : (m.splice dst [b ^^^ mask (Fin.ofNat 4 i)]).length = m.length := by
        rw [Bytes.length_splice (by simp), List.length_singleton]
        omega
      have hzero : mask.turn i 0 = mask (Fin.ofNat 4 i) := by
        rw [Mask.turn, zero_add]
      have hturn : (mask.turn i).turn 1 = mask.turn (i + 1) := by
        rw [Mask.turn_turn, add_comm]
      rw [xorCopy, hb]
      show (poke m dst (b ^^^ mask (Fin.ofNat 4 i)) >>= fun m =>
        xorCopy mask n (i + 1) (dst + 1) (src + 1) m) = _
      rw [poke_eq (by omega)]
      show xorCopy mask n (i + 1) (dst + 1) (src + 1) (m.splice dst [b ^^^ mask (Fin.ofNat 4 i)])
        = _
      rw [ih (i + 1) (by omega) (by omega), hrest, hslice, unmask_cons, hzero, hturn, splice_cons]
      rw [length_unmask, Bytes.length_slice_of_le (by omega)]
      omega

/-- Of what is unmasked, the first bytes. -/
theorem unmask_take (mask : Mask) (bs : Bytes) (n : ℕ) :
  (unmask mask bs).take n = unmask mask (bs.take n)
  := by
  apply List.ext_getElem?
  intro i
  rw [unmask, unmask, List.getElem?_take, List.getElem?_mapIdx, List.getElem?_mapIdx,
    List.getElem?_take]
  split
  · rfl
  · rfl

/-- What a copy has written, as far as it is looked at, and what is behind it. -/
theorem slice_splice_unmask (m : Bytes) (mask : Mask) {dst src n len : ℕ} (hle : dst ≤ src)
    (hfit : src + n ≤ m.length) (hlen : len ≤ n) :
  (m.splice dst (unmask mask (m.slice src n))).slice dst len = unmask mask (m.slice src len) ∧
    (∀ pos k, dst + n ≤ pos → pos + k ≤ m.length →
      (m.splice dst (unmask mask (m.slice src n))).slice pos k = m.slice pos k) ∧
    (m.splice dst (unmask mask (m.slice src n))).length = m.length
  := by
  have hn : (unmask mask (m.slice src n)).length = n := by
    rw [length_unmask, Bytes.length_slice_of_le hfit]
  have hwritten := Bytes.slice_splice_same m dst (unmask mask (m.slice src n))
  rw [hn] at hwritten
  refine ⟨?_, ?_, ?_⟩
  · have htake : ∀ f : Bytes, f.slice dst len = (f.slice dst n).take len := by
      intro f
      rw [slice, slice, List.take_take, min_eq_left hlen]
    rw [htake, hwritten, unmask_take, slice, slice, List.take_take, min_eq_left hlen]
  · intro pos k hpos hk
    apply Bytes.slice_splice_of_disjoint hk
    right
    rw [hn]
    exact hpos
  · by_cases hempty : unmask mask (m.slice src n) = []
    · rw [hempty, Bytes.splice_nil]
    · rw [Bytes.length_splice hempty, hn]
      omega

/-! ### Messages that are open -/

/-- At most two messages are open, a control frame within another. -/
theorem Protocol.Open.length_le {p : Protocol} {stack : List UInt8} (h : p.Open stack) :
  p.opStack = stack.length - 1 ∧ stack.length ≤ 2
  := by
  rcases stack with _ | ⟨a, _ | ⟨b, _ | ⟨c, stack⟩⟩⟩
  · exact ⟨h, by decide⟩
  · exact ⟨h.1, Nat.le_succ 1⟩
  · exact ⟨h.1, le_refl 2⟩
  · exact absurd h id

/-- A message is opened. -/
theorem Protocol.Open.push {p : Protocol} {stack : List UInt8} (h : p.Open stack)
    (hlt : stack.length ≠ 2) (op : UInt8) :
  ∃ i codes, p.push op = some { p with opStack := i, opCodes := codes } ∧
    ({ p with opStack := i, opCodes := codes } : Protocol).Open (op :: stack)
  := by
  rcases stack with _ | ⟨a, _ | ⟨b, _ | ⟨c, stack⟩⟩⟩
  · refine ⟨0, Function.update p.opCodes 0 op, ?_, rfl, ?_⟩
    · have hi : p.opStack = -1 := h
      rw [Protocol.push, if_pos hi]
    · show Function.update p.opCodes 0 op 0 = op
      rw [Function.update_self]
  · obtain ⟨hi, ha⟩ := h
    refine ⟨1, Function.update p.opCodes 1 op, ?_, rfl, ?_, ?_⟩
    · rw [Protocol.push, hi, if_neg (by decide), if_pos rfl]
    · show Function.update p.opCodes 1 op 0 = a
      rw [Function.update_of_ne (by decide), ha]
    · show Function.update p.opCodes 1 op 1 = op
      rw [Function.update_self]
  · exact absurd rfl hlt
  · exact absurd h id

/-- A message is closed with its last frame. -/
theorem Protocol.Open.pop {p : Protocol} {stack : List UInt8} (h : p.Open stack)
    (hne : stack ≠ []) (fin : Bool) :
  (p.pop fin).Open (if fin then stack.tail else stack)
  := by
  cases fin with
  | false => exact h
  | true =>
      rcases stack with _ | ⟨a, _ | ⟨b, _ | ⟨c, stack⟩⟩⟩
      · exact absurd rfl hne
      · show p.opStack - 1 = -1
        rw [h.1]
        rfl
      · constructor
        · show p.opStack - 1 = 0
          rw [h.1]
          rfl
        · exact h.2.1
      · exact absurd h id

/-- Closing a message keeps what the last frame said. -/
@[simp]
theorem Protocol.pop_lastFin (p : Protocol) (fin : Bool) :
  (p.pop fin).lastFin = p.lastFin
  := by
  cases fin
  · rfl
  · rfl

/-- Closing a message keeps what is read next. -/
@[simp]
theorem Protocol.pop_state (p : Protocol) (fin : Bool) :
  (p.pop fin).state = p.state
  := by
  cases fin
  · rfl
  · rfl

/-- Closing a message keeps the spill. -/
@[simp]
theorem Protocol.pop_spill (p : Protocol) (fin : Bool) :
  (p.pop fin).spill = p.spill
  := by
  cases fin
  · rfl
  · rfl

/-- The message that is open last has the code on top of the stack. -/
theorem Protocol.Open.opCode {p : Protocol} {stack : List UInt8} (h : p.Open stack)
    (hne : stack ≠ []) :
  p.opCode p.opStack = some (stack.headD 0)
  := by
  rcases stack with _ | ⟨a, _ | ⟨b, _ | ⟨c, stack⟩⟩⟩
  · exact absurd rfl hne
  · rw [Protocol.opCode, h.1, if_pos rfl, h.2, List.headD_cons]
  · rw [Protocol.opCode, h.1, if_neg (by decide), if_pos rfl, h.2.2, List.headD_cons]
  · exact absurd h id

/-! ### The state between two pieces -/

/-- The parser stands where a reader does that is in a phase. -/
def Protocol.Stands (p : Protocol) (stack : List UInt8) : Phase → Prop
  | .head bytes => p.state = .readHead ∧ p.spill = bytes ∧ Incomplete bytes
  | .body remaining mask => p.state = .readMessage ∧ p.spill = [] ∧ p.remainingBytes = remaining ∧
      p.mask = mask ∧ 0 < remaining ∧ stack ≠ []

/-- A parser and its session have the messages of a reader. -/
structure Agrees (p : Protocol) (S : Session α) (l : Live α) : Prop where
  stack : p.Open l.stack
  lastFin : p.lastFin = l.lastFin
  session : S = l.session

/-- A parser with its session does what a reader does, or the socket has stopped. -/
def Follows (p : Protocol) (S : Session α) : Reader α → Prop
  | .inl app => S.app = app ∧ H.stopped app = true
  | .inr l => p.Stands l.stack l.phase ∧ Agrees p S l

/-- Some bytes wait to be read, with a padding behind them. -/
structure Input.Views (c : Input α) (data : Bytes) : Prop where
  bytes : c.mem.slice c.src c.length = data
  length : c.length = data.length
  fits : c.src + c.length + consumePostPadding ≤ c.mem.length

/-- A part of the bytes that wait. -/
theorem Input.Views.slice {c : Input α} {data : Bytes} (h : c.Views data) {k n : ℕ}
    (hle : k + n ≤ data.length) :
  c.mem.slice (c.src + k) n = data.slice k n
  := by
  have hle' : k + n ≤ c.length := by rw [h.length]; exact hle
  rw [← h.bytes, Bytes.slice, Bytes.slice, Bytes.slice, List.drop_take, List.drop_drop,
    List.take_take, min_eq_left (by omega)]

/-- A slice of the first part. -/
theorem slice_append_left {a b : Bytes} {k n : ℕ} (h : k + n ≤ a.length) :
  (a ++ b).slice k n = a.slice k n
  := by
  rw [Bytes.slice, Bytes.slice, List.drop_append_of_le_length (by omega),
    List.take_append_of_le_length (by rw [List.length_drop]; omega)]

/-- Bytes are handed on. -/
theorem handle_eq {c : Input α} {stack : List UInt8} (hopen : c.proto.Open stack)
    (hne : stack ≠ []) (data : ℕ) {n : ℕ} (hfit : data + n ≤ c.mem.length) (remaining : ℕ)
    (fin : Bool) :
  c.handle H data n remaining fin = some
    ((c.session.handleFragment H (c.mem.slice data n) remaining (stack.headD 0) fin).1,
      { c with session :=
          (c.session.handleFragment H (c.mem.slice data n) remaining (stack.headD 0) fin).2 })
  := by
  rw [Input.handle, peek, if_pos hfit, hopen.opCode hne]
  rfl

/-- The mask in front of the data of a frame. -/
def keyOf (head : Bytes) : Mask := fun j => (head.slice (head.length - 4) 4).getD j 0

/-- The data of a frame is copied over its head, without the mask. -/
theorem copied {c : Input α} {head payload : Bytes} (rest : Bytes)
    (hviews : c.Views (head ++ (payload ++ rest))) (hhead : 4 ≤ head.length)
    (hhead' : head.length ≤ longMessageHeader) {n : ℕ} (hle : payload.length ≤ n)
    (hn : n ≤ c.length) :
  peek c.mem (c.src + head.length - 4) 4 = some (head.slice (head.length - 4) 4) ∧
    ∃ mem, unmaskImprecise c.mem c.src (c.src + head.length) (keyOf head) n = some mem ∧
      mem.length = c.mem.length ∧ mem.slice c.src payload.length = unmask (keyOf head) payload ∧
      (n = payload.length → mem.slice (c.src + payload.length + head.length) rest.length = rest)
  := by
  have hlen := hviews.length
  have hfits := hviews.fits
  rw [List.length_append, List.length_append] at hlen
  rw [consumePostPadding] at hfits
  rw [longMessageHeader] at hhead'
  have hkey : c.mem.slice (c.src + head.length - 4) 4 = head.slice (head.length - 4) 4 := by
    have hpos : c.src + head.length - 4 = c.src + (head.length - 4) := by omega
    rw [hpos, hviews.slice (by rw [List.length_append]; omega), slice_append_left (by omega)]
  have hpayload : c.mem.slice (c.src + head.length) payload.length = payload := by
    rw [hviews.slice (by rw [List.length_append, List.length_append]; omega)]
    exact Bytes.slice_of_eq rfl rfl rfl
  have hrest : c.mem.slice (c.src + payload.length + head.length) rest.length = rest := by
    have hpos : c.src + payload.length + head.length = c.src + (head.length + payload.length) := by
      omega
    rw [hpos, hviews.slice (by rw [List.length_append, List.length_append]; omega)]
    apply Bytes.slice_of_eq (a := head ++ payload) (c := [])
    · rw [List.append_nil, List.append_assoc]
    · exact List.length_append
    · rfl
  obtain ⟨hsame, hbehind, hsize⟩ := slice_splice_unmask c.mem (keyOf head)
    (Nat.le_add_right c.src head.length) (by omega : _ + (n / 4 + 1) * 4 ≤ _)
    (by omega : payload.length ≤ _)
  constructor
  · rw [peek, if_pos (by omega), hkey]
  · refine ⟨_, ?_, hsize, ?_, ?_⟩
    · rw [unmaskImprecise, xorCopy_eq _ _ 0 (Nat.le_add_right _ _) (by omega), Mask.turn_zero]
    · rw [hsame, hpayload]
    · intro heq
      rw [hbehind _ _ (by omega) (by omega), hrest]

/-- A frame that is there as a whole. -/
theorem whole_spec {c : Input α} {head payload rest : Bytes} {stack : List UInt8}
    (hviews : c.Views (head ++ (payload ++ rest))) (hhead : 4 ≤ head.length)
    (hhead' : head.length ≤ longMessageHeader) (hpay : payload.length < 2 ^ 32)
    (hopen : c.proto.Open stack) (hne : stack ≠ []) (fin : Bool) :
  let done := c.session.handleFragment H (unmask (keyOf head) payload) 0 (stack.headD 0) fin
  ∃ c', c.whole H head.length payload.length fin = some (done.1, c') ∧ c'.session = done.2 ∧
    c'.mem.length = c.mem.length ∧
    (done.1 = false → c'.Views rest ∧ c'.proto = { c.proto.pop fin with spill := [] })
  := by
  intro done
  have hlen := hviews.length
  have hfits := hviews.fits
  rw [List.length_append, List.length_append] at hlen
  rw [consumePostPadding] at hfits
  obtain ⟨hkey, mem, hcopy, hsize, hdata, hrest⟩ :=
    copied rest hviews hhead hhead' (le_refl payload.length) (by omega)
  have hhandle := handle_eq H (c := { c with mem := mem }) hopen hne c.src
    (n := payload.length) (by dsimp only; omega) 0 fin
  dsimp only at hhandle
  rw [hdata] at hhandle
  rw [Input.whole, hkey, Nat.mod_eq_of_lt hpay]
  show ∃ c', (unmaskImprecise c.mem c.src (c.src + head.length) (keyOf head) payload.length >>=
    fun mem => _) = some (done.1, c') ∧ _
  rw [hcopy]
  show ∃ c', (({ c with mem := mem } : Input α).handle H c.src payload.length 0 fin >>=
    fun r => _) = some (done.1, c') ∧ _
  rw [hhandle]
  by_cases hstop : done.1 = true
  · refine ⟨{ c with mem := mem, session := done.2 }, ?_, rfl, hsize, ?_⟩
    · show (if done.1 = true then _ else _) = _
      rw [if_pos hstop, hstop]
      rfl
    · intro hgo
      rw [hgo] at hstop
      exact absurd hstop Bool.false_ne_true
  · rw [Bool.not_eq_true] at hstop
    refine ⟨⟨mem, c.src + payload.length + head.length, c.length - (payload.length + head.length),
      { c.proto.pop fin with spill := [] }, done.2⟩, ?_, rfl, hsize, fun _ => ⟨⟨?_, ?_, ?_⟩, rfl⟩⟩
    · show (if done.1 = true then _ else _) = _
      rw [hstop, if_neg Bool.false_ne_true]
      rfl
    · have hleft : c.length - (payload.length + head.length) = rest.length := by omega
      show mem.slice (c.src + payload.length + head.length)
        (c.length - (payload.length + head.length)) = rest
      rw [hleft, hrest rfl]
    · show c.length - (payload.length + head.length) = rest.length
      omega
    · show c.src + payload.length + head.length + (c.length - (payload.length + head.length))
        + consumePostPadding ≤ mem.length
      rw [hsize, consumePostPadding]
      omega

/-- A frame that has only begun. -/
theorem part_spec {c : Input α} {head payload : Bytes} {stack : List UInt8}
    (hviews : c.Views (head ++ payload)) (hhead : 4 ≤ head.length)
    (hhead' : head.length ≤ longMessageHeader) {total : ℕ} (hlt : payload.length < total)
    (htotal : total < 2 ^ 31) (hopen : c.proto.Open stack) (hne : stack ≠ []) (fin : Bool) :
  let remaining := total - payload.length
  ∃ c', c.part H head.length total fin = some (true, c') ∧
    c'.session = (c.session.handleFragment H (unmask (keyOf head) payload) remaining
      (stack.headD 0) fin).2 ∧
    c'.mem.length = c.mem.length ∧
    c'.proto = { c.proto with
      state := .readMessage
      spill := []
      remainingBytes := remaining
      mask := (keyOf head).turn payload.length }
  := by
  intro remaining
  have hlen := hviews.length
  have hfits := hviews.fits
  rw [List.length_append] at hlen
  rw [consumePostPadding] at hfits
  obtain ⟨hkey, mem, hcopy, hsize, hdata, -⟩ :=
    copied [] (by rw [List.append_nil]; exact hviews) hhead hhead'
      (by omega : payload.length ≤ c.length) (le_refl _)
  have hremaining : (total + head.length - c.length) % 2 ^ 32 = remaining := by
    rw [Nat.mod_eq_of_lt (by omega)]
    omega
  have hleft : c.length - head.length = payload.length := by omega
  have hhandle := handle_eq H (c := { c with
    mem := mem
    proto := { c.proto with
      state := .readMessage
      spill := []
      remainingBytes := remaining
      mask := (keyOf head).turn payload.length } }) hopen hne c.src (n := payload.length)
    (by dsimp only; omega) remaining fin
  dsimp only at hhandle
  rw [hdata] at hhandle
  rw [Input.part, hkey, hremaining, hleft]
  simp only [rotateMask_eq]
  show ∃ c', (unmaskImprecise c.mem c.src (c.src + head.length) (keyOf head) c.length >>=
    fun mem => _) = some (true, c') ∧ _
  rw [hcopy]
  exact ⟨_, bind_of_eq hhandle _, rfl, hsize, rfl⟩

/-- Both tell whether a frame may begin, and which messages are open then. -/
theorem begin_eq {p : Protocol} {S : Session α} {l : Live α} (h : Agrees p S l) (op : UInt8) :
  (l.opened op = none ∧ p.begin op = some none) ∨
    ∃ stack i codes, l.opened op = some stack ∧ stack ≠ [] ∧
      p.begin op = some (some { p with opStack := i, opCodes := codes }) ∧
      ({ p with opStack := i, opCodes := codes } : Protocol).Open stack
  := by
  obtain ⟨hstack, hlen⟩ := h.stack.length_le
  rw [Live.opened, Protocol.begin, ← h.lastFin]
  by_cases hop : op ≠ 0
  · rw [if_pos hop, if_pos hop]
    by_cases hbad : l.stack.length = 2 ∨ p.lastFin = false ∧ op < 2
    · left
      have hbad' : p.opStack = 1 ∨ p.lastFin = false ∧ op < 2 := hbad.imp_left (by omega)
      rw [if_pos hbad, if_pos hbad']
      exact ⟨rfl, rfl⟩
    · right
      have hbad' : ¬ (p.opStack = 1 ∨ p.lastFin = false ∧ op < 2) :=
        fun h' => hbad (h'.imp_left (by omega))
      obtain ⟨i, codes, hpush, hopen⟩ := h.stack.push (fun h' => hbad (Or.inl h')) op
      rw [if_neg hbad, if_neg hbad', hpush]
      exact ⟨op :: l.stack, i, codes, rfl, List.cons_ne_nil _ _, rfl, hopen⟩
  · rw [if_neg hop, if_neg hop]
    by_cases hnil : l.stack = []
    · left
      have hi : p.opStack = -1 := by
        rw [hstack, hnil]
        rfl
      rw [if_pos hnil, if_pos hi]
      exact ⟨rfl, rfl⟩
    · right
      have hi : p.opStack ≠ -1 := by
        have hpos := List.length_pos_of_ne_nil hnil
        omega
      rw [if_neg hnil, if_neg hi]
      exact ⟨l.stack, p.opStack, p.opCodes, rfl, hnil, rfl, h.stack⟩

/-- A length below 2 GiB as a signed number. -/
theorem intOf_eq {n : ℕ} (h : n < 2 ^ 31) :
  intOf n = n
  := by
  rw [intOf, UInt32.toInt32, Int32.toInt]
  show (BitVec.ofNat 32 n).toInt = n
  rw [BitVec.toInt_eq_toNat_of_lt]
  · rw [BitVec.toNat_ofNat, Nat.mod_eq_of_lt (by omega)]
  · rw [BitVec.toNat_ofNat, Nat.mod_eq_of_lt (by omega)]
    omega

/-- The mask is at the end of the head. -/
theorem maskOf_eq {head : Bytes} (h : head.length = headLength head) :
  maskOf head = keyOf head
  := by
  funext j
  rw [maskOf, keyOf, h]

/-- The reader behind the head of a frame. -/
def Live.into (l : Live α) (head : Bytes) (stack : List UInt8) : Live α :=
  ⟨.body (announced head) (maskOf head), stack, (frameOf head).isFin, l.session⟩

/-- A frame begins, and some of its data arrives. -/
theorem feed_begin {l : Live α} {head : Bytes} {stack : List UInt8}
    (hopened : l.opened (frameOf head).opCode = some stack) (hfew : announced head ≤ 16777216)
    (payload : Bytes) (hle : payload.length ≤ announced head) :
  (l.begin H head).feed H payload = (l.into head stack).data H (unmask (maskOf head) payload)
    (announced head - payload.length) ((maskOf head).turn payload.length)
  := by
  have hbegin : l.begin H head = if announced head = 0
      then (l.into head stack).data H [] 0 (maskOf head) else .inr (l.into head stack) := by
    rw [Live.begin]
    dsimp only
    rw [hopened]
    dsimp only
    rw [if_neg (by omega : ¬ announced head > 16777216)]
    rfl
  rw [hbegin]
  by_cases hnil : payload = []
  · subst hnil
    rw [feed_nil, unmask_nil, List.length_nil, Nat.sub_zero, Mask.turn_zero]
    split
    case isTrue hzero => rw [hzero]
    case isFalse hpos =>
      rw [data_part H _ _ hpos, Live.after, handleFragment_part_nil H _ hpos]
      rfl
  · have hpos := List.length_pos_of_ne_nil hnil
    rw [if_neg (by omega)]
    exact feed_body H (l.into head stack) (maskOf head) hnil hle

/-- The end of the data of a frame. -/
theorem data_end (l : Live α) (bytes : Bytes) (mask : Mask) :
  let done := l.session.handleFragment H bytes 0 (l.stack.headD 0) l.lastFin
  l.data H bytes 0 mask = if done.1 then .inl done.2.app
    else .inr ⟨.head [], if l.lastFin then l.stack.tail else l.stack, l.lastFin, done.2⟩
  := by
  intro done
  by_cases hdone : done.1 = true
  · rw [Live.data, outcome, if_pos hdone, if_pos hdone]
  · rw [Live.data, outcome, if_neg hdone, if_neg hdone]
    rfl

/-- The reader does not come to the head of another frame while it reads the data. -/
def Reader.Stays (r : Reader α) (data : Bytes) : Prop :=
  ∀ before after l bytes, data = before ++ after → r.feed H before = .inr l → l.phase ≠ .head bytes

/-- A reader that has stopped comes to no head. -/
theorem stays_inl (app : α) (data : Bytes) :
  Reader.Stays H (.inl app) data
  := by
  intro before after l bytes _ hread
  rw [feed_inl] at hread
  cases hread

/-- A frame of which some data is missing. -/
theorem feed_inside {l : Live α} {remaining : ℕ} {mask : Mask}
    (hphase : l.phase = .body remaining mask)
    {data : Bytes} (hlt : data.length < remaining) {l' : Live α}
    (hread : Reader.feed H (.inr l) data = .inr l') (bytes : Bytes) :
  l'.phase ≠ .head bytes
  := by
  by_cases hnil : data = []
  · subst hnil
    obtain rfl := Sum.inr.inj hread
    rw [hphase]
    exact Phase.noConfusion
  · have hfeed := feed_body H l mask hnil (Nat.le_of_lt hlt)
    rw [← hphase, data_part H _ _ (by omega)] at hfeed
    rw [← Sum.inr.inj (hfeed.symm.trans hread)]
    exact Phase.noConfusion

/-- The same, from the head of the frame on. -/
theorem begin_inside {l : Live α} {head : Bytes} {stack : List UInt8}
    (hopened : l.opened (frameOf head).opCode = some stack) (hfew : announced head ≤ 16777216)
    {data : Bytes} (hlt : data.length < announced head) {l' : Live α}
    (hread : (l.begin H head).feed H data = .inr l') (bytes : Bytes) :
  l'.phase ≠ .head bytes
  := by
  have hfeed := feed_begin H hopened hfew data (Nat.le_of_lt hlt)
  rw [data_part H _ _ (by omega)] at hfeed
  rw [← Sum.inr.inj (hfeed.symm.trans hread)]
  exact Phase.noConfusion

/-- The reader stops at the end of a frame. -/
theorem stays_of_stop {r : Reader α} {payload : Bytes} {app : α} (rest : Bytes)
    (hinside : ∀ data l, data.length < payload.length → r.feed H data = .inr l →
      ∀ bytes, l.phase ≠ .head bytes)
    (hstop : r.feed H payload = .inl app) :
  r.Stays H (payload ++ rest)
  := by
  intro before after l bytes heq hread
  obtain ⟨more, rfl, -⟩ | ⟨more, rfl, -⟩ := List.append_eq_append_iff.mp heq
  · rw [feed_append, hstop, feed_inl] at hread
    cases hread
  · by_cases hmore : more = []
    · rw [hmore, List.append_nil, hread] at hstop
      cases hstop
    · have hpos := List.length_pos_of_ne_nil hmore
      refine hinside before l ?_ hread bytes
      rw [List.length_append]
      omega

/-- What is left when a frame was read: either all was read, and the reader has not come to another
frame, or the reader is between two frames, before the rest. -/
def Reads (c : Input α) (r : Reader α) (rest : Bytes) : Bool × Input α → Prop
  | (true, c') => c'.mem.length = c.mem.length ∧ Follows H c'.proto c'.session (r.feed H rest) ∧
      r.Stays H rest
  | (false, c') => c'.mem.length = c.mem.length ∧ ∃ payload rest' l, rest = payload ++ rest' ∧
      r.feed H payload = .inr l ∧ l.phase = .head [] ∧ Agrees c'.proto c'.session l ∧
      c'.Views rest' ∧ c'.proto.state = .readHead ∧ c'.proto.spill = []

/-- The shortest and the longest head. -/
theorem headLength_bounds (head : Bytes) :
  shortMessageHeader ≤ headLength head ∧ headLength head ≤ longMessageHeader
  := by
  rw [headLength, shortMessageHeader, mediumMessageHeader, longMessageHeader]
  split
  · omega
  · split
    · omega
    · omega

/-- A frame that is there as a whole is read. -/
theorem whole_reads (hlaw : H.Lawful) {c : Input α} {l : Live α} {head rest : Bytes}
    {stack : List UInt8} (hviews : c.Views (head ++ rest)) (hhead : head.length = headLength head)
    (hopened : l.opened (frameOf head).opCode = some stack) (hfew : announced head ≤ 16777216)
    (hne : stack ≠ []) (hagrees : Agrees c.proto c.session (l.into head stack))
    (hstate : c.proto.state = .readHead) (hfits : announced head ≤ rest.length) :
  ∃ done, c.whole H head.length (announced head) (frameOf head).isFin = some done ∧
    Reads H c (l.begin H head) rest done
  := by
  have hbounds := headLength_bounds head
  rw [← hhead, shortMessageHeader] at hbounds
  have hlen : (rest.take (announced head)).length = announced head := List.length_take_of_le hfits
  have hsplit : rest = rest.take (announced head) ++ rest.drop (announced head) :=
    (List.take_append_drop _ _).symm
  rw [hsplit] at hviews
  have hspec := whole_spec H hviews (by omega) hbounds.2 (by omega) hagrees.stack hne
    (frameOf head).isFin
  have hread := feed_begin H hopened hfew (rest.take (announced head)) (by omega)
  rw [hlen, Nat.sub_self, data_end, maskOf_eq hhead] at hread
  rw [hlen, hagrees.session] at hspec
  have hstop := handleFragment_stopped hlaw (l.into head stack).session
    (unmask (keyOf head) (rest.take (announced head))) 0 (stack.headD 0) (frameOf head).isFin
  dsimp only at hspec
  obtain ⟨done, heq⟩ : ∃ done, l.session.handleFragment H
      (unmask (keyOf head) (rest.take (announced head))) 0 (stack.headD 0) (frameOf head).isFin
        = done := ⟨_, rfl⟩
  simp only [Live.into, heq] at hread hspec hstop
  obtain ⟨c', hwhole, hsession, hmem, hgo⟩ := hspec
  refine ⟨_, hwhole, ?_⟩
  by_cases hdone : done.1 = true
  · rw [if_pos hdone] at hread
    rw [hdone]
    refine ⟨hmem, ?_, ?_⟩
    · rw [hsplit, feed_append, hread, feed_inl, hsession]
      exact ⟨rfl, hstop hdone⟩
    · rw [hsplit]
      refine stays_of_stop H _ ?_ hread
      intro data l' hlt hfeed
      rw [hlen] at hlt
      exact begin_inside H hopened hfew hlt hfeed
  · rw [if_neg hdone] at hread
    rw [Bool.not_eq_true] at hdone
    obtain ⟨hviews', hproto⟩ := hgo hdone
    rw [hdone]
    have hopen := hagrees.stack.pop hne (frameOf head).isFin
    have hfin := hagrees.lastFin
    refine ⟨hmem, _, _, _, hsplit, hread, rfl, ⟨?_, ?_, hsession⟩, hviews', ?_, ?_⟩
    · rw [hproto]
      exact hopen
    · rw [hproto]
      exact (Protocol.pop_lastFin _ _).trans hfin
    · rw [hproto]
      exact (Protocol.pop_state _ _).trans hstate
    · rw [hproto]

/-- A frame that has only begun is read. -/
theorem part_reads {c : Input α} {l : Live α} {head rest : Bytes} {stack : List UInt8}
    (hviews : c.Views (head ++ rest)) (hhead : head.length = headLength head)
    (hopened : l.opened (frameOf head).opCode = some stack) (hfew : announced head ≤ 16777216)
    (hne : stack ≠ []) (hagrees : Agrees c.proto c.session (l.into head stack))
    (hfits : rest.length < announced head) :
  ∃ done, c.part H head.length (announced head) (frameOf head).isFin = some done ∧
    Reads H c (l.begin H head) rest done
  := by
  have hbounds := headLength_bounds head
  rw [← hhead, shortMessageHeader] at hbounds
  have hread := feed_begin H hopened hfew rest (Nat.le_of_lt hfits)
  rw [data_part H _ _ (by omega), maskOf_eq hhead] at hread
  have hspec := part_spec H hviews (by omega) hbounds.2 hfits (by omega) hagrees.stack hne
    (frameOf head).isFin
  rw [hagrees.session] at hspec
  obtain ⟨c', hpart, hsession, hmem, hproto⟩ := hspec
  refine ⟨_, hpart, hmem, ?_, ?_⟩
  · rw [hread, hproto]
    refine ⟨⟨rfl, rfl, rfl, rfl, ?_, hne⟩, hagrees.stack, hagrees.lastFin, hsession⟩
    exact Nat.sub_pos_of_lt hfits
  · intro before after l' bytes heq hfeed
    rw [heq, List.length_append] at hfits
    exact begin_inside H hopened hfew (by omega) hfeed bytes

/-- A frame of which the head is there. -/
theorem consumeMessage_spec (hlaw : H.Lawful) {c : Input α} {l : Live α} {head rest : Bytes}
    (hviews : c.Views (head ++ rest)) (hhead : head.length = headLength head)
    (htame : announced head < 2 ^ 31) (hagrees : Agrees c.proto c.session l)
    (hstate : c.proto.state = .readHead) :
  ∃ done, c.consumeMessage H head.length (announced head) (frameOf head) = some done ∧
    Reads H c (l.begin H head) rest done
  := by
  rw [Input.consumeMessage]
  obtain ⟨hopened, hbegin⟩ | ⟨stack, i, codes, hopened, hne, hbegin, hopen⟩ :=
    begin_eq hagrees (frameOf head).opCode
  · rw [bind_of_eq hbegin]
    refine ⟨(true, c.forceClose H), rfl, rfl, ?_⟩
    rw [Live.begin, hopened]
    show Follows H _ _ (Reader.feed H (.inl _) rest) ∧ Reader.Stays H (.inl _) rest
    rw [feed_inl, ← hagrees.session]
    exact ⟨⟨rfl, hlaw.terminate _⟩, stays_inl H _ rest⟩
  · rw [bind_of_eq hbegin]
    show ∃ done, (if refusePayloadLength (intOf (announced head)) = true then _ else _) = some done
      ∧ _
    rw [refusePayloadLength, intOf_eq htame]
    by_cases hmany : announced head > 16777216
    · rw [if_pos (by simpa using hmany)]
      refine ⟨(true, Input.forceClose H _), rfl, rfl, ?_⟩
      have hread : l.begin H head = .inl (H.terminate l.session.app) := by
        rw [Live.begin]
        dsimp only
        rw [hopened]
        dsimp only
        rw [if_pos hmany]
      rw [hread, feed_inl, ← hagrees.session]
      exact ⟨⟨rfl, hlaw.terminate _⟩, stays_inl H _ rest⟩
    · rw [if_neg (by simpa using hmany)]
      have hlen := hviews.length
      rw [List.length_append] at hlen
      have hagrees' : Agrees ({ { c.proto with opStack := i, opCodes := codes } with
          lastFin := (frameOf head).isFin } : Protocol) c.session (l.into head stack) :=
        ⟨hopen, rfl, hagrees.session⟩
      by_cases hfits : announced head ≤ rest.length
      · rw [if_pos (by dsimp only; omega)]
        exact whole_reads H hlaw ⟨hviews.bytes, hviews.length, hviews.fits⟩ hhead hopened
          (by omega) hne hagrees' hstate hfits
      · rw [if_neg (by dsimp only; omega)]
        exact part_reads H ⟨hviews.bytes, hviews.length, hviews.fits⟩ hhead hopened (by omega)
          hne hagrees' (by omega)

end WebSocket

end Owop
