import OwopServer.Library.Runs
import OwopServer.WebSocket.Frames

/-!
# A reader of frames

An abstract model of the parser of frames: it takes one byte after the other and knows nothing of
buffers, so that it does not matter in which pieces the bytes arrive.
-/

namespace Owop

namespace WebSocket

/-! ### Masks -/

/-- The place in the mask of a sum. -/
theorem ofNat_four_add (i k : ℕ) :
  Fin.ofNat 4 (i + k) = Fin.ofNat 4 i + Fin.ofNat 4 k
  := by
  apply Fin.ext
  simp [Fin.val_add]

/-- A mask that was turned, from one of its bytes on. -/
theorem Mask.turn_apply (mask : Mask) (k i : ℕ) :
  mask.turn k (Fin.ofNat 4 i) = mask (Fin.ofNat 4 (i + k))
  := by
  rw [turn, ofNat_four_add]

/-- A mask that was not turned. -/
@[simp]
theorem Mask.turn_zero (mask : Mask) :
  mask.turn 0 = mask
  := by
  funext j
  rw [turn]
  congr 1
  exact add_zero j

/-- A mask that was turned twice. -/
theorem Mask.turn_turn (mask : Mask) (k l : ℕ) :
  (mask.turn k).turn l = mask.turn (l + k)
  := by
  funext j
  rw [turn, turn, turn, ofNat_four_add, add_assoc]

/-- What `rotateMask` does after some bytes. -/
theorem rotateMask_eq (mask : Mask) (k : ℕ) :
  rotateMask (4 - k % 4) mask = mask.turn k
  := by
  have hmod : Fin.ofNat 4 k = Fin.ofNat 4 (k % 4) := by
    apply Fin.ext
    simp
  have hall : ∀ r : Fin 4, ∀ j : Fin 4, j - Fin.ofNat 4 (4 - r) = j + Fin.ofNat 4 r := by decide
  funext j
  rw [rotateMask, Mask.turn, hmod]
  exact congrArg mask (hall ⟨k % 4, Nat.mod_lt k (by decide)⟩ j)

@[simp]
theorem unmask_nil (mask : Mask) :
  unmask mask [] = []
  := rfl

/-- The first byte is unmasked with the first of the mask, the others with what follows. -/
theorem unmask_cons (mask : Mask) (b : UInt8) (bs : Bytes) :
  unmask mask (b :: bs) = (b ^^^ mask 0) :: unmask (mask.turn 1) bs
  := by
  rw [unmask, List.mapIdx_cons, unmask]
  simp only [Mask.turn_apply]
  rfl

/-- Unmasking keeps the length. -/
@[simp]
theorem length_unmask (mask : Mask) (bs : Bytes) :
  (unmask mask bs).length = bs.length
  := List.length_mapIdx

/-- Masking twice changes nothing. -/
theorem unmask_unmask (mask : Mask) (bs : Bytes) :
  unmask mask (unmask mask bs) = bs
  := by
  induction bs generalizing mask with
  | nil => rfl
  | cons b bs ih =>
      rw [unmask_cons, unmask_cons, ih, UInt8.xor_assoc, UInt8.xor_self, UInt8.xor_zero]

/-! ### The reader -/

/-- What a reader expects: more of the head of a frame, or more data. -/
inductive Phase where
  | head (bytes : Bytes)
  | body (remaining : ℕ) (mask : Mask)

/-- A reader that goes on: the opcodes of the messages that are open, the last one first, and
whether the last frame was the end of its message. -/
structure Live (α : Type) where
  phase : Phase
  stack : List UInt8
  lastFin : Bool
  session : Session α

/-- A reader, or what the handlers have made of a socket that has stopped. -/
abbrev Reader (α : Type) := α ⊕ Live α

/-- The first two bytes of a head. -/
def frameOf (bytes : Bytes) : FrameFormat := ⟨bytes.getD 0 0, bytes.getD 1 0⟩

/-- The number of bytes of the head that begins a frame. -/
def headLength (bytes : Bytes) : ℕ :=
  if (frameOf bytes).payloadLength < 126 then shortMessageHeader
  else if (frameOf bytes).payloadLength = 126 then mediumMessageHeader
  else longMessageHeader

/-- The number of bytes of data that a head announces. -/
def announced (bytes : Bytes) : ℕ :=
  if (frameOf bytes).payloadLength < 126 then (frameOf bytes).payloadLength
  else if (frameOf bytes).payloadLength = 126 then beNat (bytes.slice 2 2)
  else beNat (bytes.slice 2 8)

/-- The mask in a head. -/
def maskOf (bytes : Bytes) : Mask := fun j => (bytes.slice (headLength bytes - 4) 4).getD j 0

variable {α : Type} (H : Handlers α)

/-- Data arrives, behind which so many bytes are missing. -/
def Live.data (l : Live α) (bytes : Bytes) (remaining : ℕ) (mask : Mask) : Reader α :=
  match outcome (l.session.handleFragment H bytes remaining (l.stack.headD 0) l.lastFin) with
  | .inl app => .inl app
  | .inr session => .inr (if remaining = 0
      then ⟨.head [], if l.lastFin then l.stack.tail else l.stack, l.lastFin, session⟩
      else { l with phase := .body remaining mask, session := session })

/-- The messages that are open in a frame that has a given opcode. -/
def Live.opened (l : Live α) (opCode : UInt8) : Option (List UInt8) :=
  if opCode ≠ 0 then
    if l.stack.length = 2 ∨ l.lastFin = false ∧ opCode < 2 then none else some (opCode :: l.stack)
  else if l.stack = [] then none
  else some l.stack

/-- The head of a frame is there. -/
def Live.begin (l : Live α) (bytes : Bytes) : Reader α :=
  let frame := frameOf bytes
  match l.opened frame.opCode with
  | none => .inl (H.terminate l.session.app)
  | some stack =>
      let l : Live α := ⟨.body (announced bytes) (maskOf bytes), stack, frame.isFin, l.session⟩
      if announced bytes > 16777216 then .inl (H.terminate l.session.app)
      else if announced bytes = 0 then l.data H [] 0 (maskOf bytes)
      else .inr l

/-- A part of a head is there, perhaps all of it. -/
def Live.head (l : Live α) (bytes : Bytes) : Reader α :=
  if bytes.length < shortMessageHeader then .inr { l with phase := .head bytes }
  else if (frameOf bytes).refused then .inl (H.terminate l.session.app)
  else if bytes.length < headLength bytes then .inr { l with phase := .head bytes }
  else l.begin H bytes

/-- A byte arrives. -/
def Reader.byte (r : Reader α) (b : UInt8) : Reader α :=
  match r with
  | .inl app => .inl app
  | .inr l =>
      match l.phase with
      | .head bytes => l.head H (bytes ++ [b])
      | .body remaining mask => l.data H (unmask mask [b]) (remaining - 1) (mask.turn 1)

/-- Bytes arrive. -/
def Reader.feed (r : Reader α) (bytes : Bytes) : Reader α := Runs.run (Reader.byte H) r bytes

/-- What the handlers have made of the socket. -/
def Reader.app : Reader α → α
  | .inl app => app
  | .inr l => l.session.app

/-- A reader of a new socket. -/
def Reader.new (app : α) : Reader α := .inr ⟨.head [], [], true, ⟨[], [], app⟩⟩

/-! ### Reading in pieces -/

@[simp]
theorem feed_nil (r : Reader α) :
  r.feed H [] = r
  := rfl

theorem feed_cons (r : Reader α) (b : UInt8) (bytes : Bytes) :
  r.feed H (b :: bytes) = (r.byte H b).feed H bytes
  := rfl

/-- Bytes can be fed in two pieces. -/
theorem feed_append (r : Reader α) (bytes bytes' : Bytes) :
  r.feed H (bytes ++ bytes') = (r.feed H bytes).feed H bytes'
  := Runs.run_append _ r bytes bytes'

/-- A reader that has stopped reads nothing more. -/
@[simp]
theorem feed_inl (app : α) (bytes : Bytes) :
  Reader.feed H (.inl app) bytes = .inl app
  := by
  induction bytes with
  | nil => rfl
  | cons b bytes ih => rw [feed_cons, Reader.byte, ih]

/-- The head of a frame is not there yet, nor is anything in it refused. -/
def Incomplete (bytes : Bytes) : Prop :=
  bytes.length < shortMessageHeader ∨
    (frameOf bytes).refused = false ∧ bytes.length < headLength bytes

/-- The first two bytes of a head say what the frame is. -/
theorem frameOf_append {bytes : Bytes} (h : 2 ≤ bytes.length) (bytes' : Bytes) :
  frameOf (bytes ++ bytes') = frameOf bytes
  := by
  rw [frameOf, frameOf, List.getD_append _ _ _ _ (by omega), List.getD_append _ _ _ _ (by omega)]

/-- The first two bytes of a head say how long it is. -/
theorem headLength_append {bytes : Bytes} (h : 2 ≤ bytes.length) (bytes' : Bytes) :
  headLength (bytes ++ bytes') = headLength bytes
  := by
  rw [headLength, headLength, frameOf_append h]

/-- A part of what is incomplete is incomplete. -/
theorem Incomplete.of_append {bytes bytes' : Bytes} (h : Incomplete (bytes ++ bytes')) :
  Incomplete bytes
  := by
  by_cases hshort : bytes.length < shortMessageHeader
  · exact Or.inl hshort
  · have hlen : 2 ≤ bytes.length := by
      rw [shortMessageHeader] at hshort
      omega
    rw [Incomplete, frameOf_append hlen, headLength_append hlen, List.length_append] at h
    obtain hlt | ⟨hok, hlt⟩ := h
    · exact Or.inl (by omega)
    · exact Or.inr ⟨hok, by omega⟩

/-- The rest of the head is waited for. -/
theorem head_of_incomplete (l : Live α) {bytes : Bytes} (h : Incomplete bytes) :
  l.head H bytes = .inr { l with phase := .head bytes }
  := by
  rw [Live.head]
  by_cases hshort : bytes.length < shortMessageHeader
  · rw [if_pos hshort]
  · obtain ⟨hok, hlt⟩ := h.resolve_left hshort
    rw [if_neg hshort, hok, if_neg Bool.false_ne_true, if_pos hlt]

/-- A head that stays incomplete. -/
theorem feed_incomplete (l : Live α) (bytes : Bytes) {bytes' : Bytes}
    (h : Incomplete (bytes ++ bytes')) :
  Reader.feed H (.inr { l with phase := .head bytes }) bytes'
    = .inr { l with phase := .head (bytes ++ bytes') }
  := by
  induction bytes' generalizing bytes with
  | nil => rw [feed_nil, List.append_nil]
  | cons b bytes' ih =>
      rw [← List.singleton_append, ← List.append_assoc] at h ⊢
      rw [feed_append]
      have hstep : Reader.feed H (.inr { l with phase := .head bytes }) [b]
          = .inr { l with phase := .head (bytes ++ [b]) } :=
        head_of_incomplete H { l with phase := .head bytes } h.of_append
      rw [hstep, ih _ h]

/-- The bytes of a head. -/
theorem feed_head (l : Live α) {bytes : Bytes} {b : UInt8} (h : Incomplete bytes) :
  Reader.feed H (.inr { l with phase := .head [] }) (bytes ++ [b]) = l.head H (bytes ++ [b])
  := by
  rw [feed_append, feed_incomplete H l [] h]
  rfl

/-- The session after a part of the data of a frame. -/
def Live.after (l : Live α) (bytes : Bytes) (remaining : ℕ) : Session α :=
  (l.session.handleFragment H bytes remaining (l.stack.headD 0) l.lastFin).2

/-- More data is missing. -/
theorem data_part (l : Live α) (bytes : Bytes) {remaining : ℕ} (hpart : remaining ≠ 0)
    (mask : Mask) :
  l.data H bytes remaining mask
    = .inr { l with phase := .body remaining mask, session := l.after H bytes remaining }
  := by
  rw [Live.data, Live.after, handleFragment_part H _ _ hpart, outcome, if_neg Bool.false_ne_true]
  dsimp only
  rw [if_neg hpart]

/-- Data in two parts is handled as data that arrives at once. -/
theorem data_append (l : Live α) (bytes bytes' : Bytes) {remaining : ℕ} (hpart : remaining ≠ 0)
    (phase : Phase) (remaining' : ℕ) (mask : Mask) :
  Live.data H { l with phase := phase, session := l.after H bytes remaining } bytes' remaining' mask
    = l.data H (bytes ++ bytes') remaining' mask
  := by
  rw [Live.data, Live.data]
  dsimp only
  rw [Live.after, outcome_handleFragment_append H _ _ _ hpart]

/-- The bytes of the data of a frame. -/
theorem feed_body (l : Live α) {remaining : ℕ} (mask : Mask) {bytes : Bytes} (hne : bytes ≠ [])
    (hle : bytes.length ≤ remaining) :
  Reader.feed H (.inr { l with phase := .body remaining mask }) bytes
    = l.data H (unmask mask bytes) (remaining - bytes.length) (mask.turn bytes.length)
  := by
  induction bytes generalizing l remaining mask with
  | nil => exact absurd rfl hne
  | cons b bytes ih =>
      rw [feed_cons, unmask_cons]
      by_cases hlast : bytes = []
      · subst hlast
        rfl
      · have hpos := List.length_pos_of_ne_nil hlast
        rw [List.length_cons] at hle ⊢
        have hpart : remaining - 1 ≠ 0 := by omega
        have hstep : Reader.byte H (.inr { l with phase := .body remaining mask }) b
            = .inr { l with
                phase := .body (remaining - 1) (mask.turn 1)
                session := l.after H [b ^^^ mask 0] (remaining - 1) } :=
          data_part H _ _ hpart _
        have hturn : (mask.turn 1).turn bytes.length = mask.turn (bytes.length + 1) :=
          mask.turn_turn 1 bytes.length
        have hleft : remaining - 1 - bytes.length = remaining - (bytes.length + 1) := by omega
        rw [hstep, ih { l with session := l.after H [b ^^^ mask 0] (remaining - 1) } (mask.turn 1)
          hlast (by omega), hturn, hleft]
        exact data_append H l [b ^^^ mask 0] _ hpart l.phase _ _

/-! ### Sockets that stop -/

/-- A reader stops as soon as the socket does. -/
def Reader.Going (r : Reader α) : Prop := ∀ l, r = .inr l → H.stopped l.session.app = false

/-- While data come, the application has not stopped. -/
theorem data_going (l : Live α) (hgo : H.stopped l.session.app = false) (bytes : Bytes)
    (remaining : ℕ) (mask : Mask) :
  (l.data H bytes remaining mask).Going H
  := by
  intro l' h
  rw [Live.data, outcome] at h
  by_cases hdone : (l.session.handleFragment H bytes remaining (l.stack.headD 0) l.lastFin).1 = true
  · rw [if_pos hdone] at h
    exact absurd h Sum.inl_ne_inr
  · rw [if_neg hdone] at h
    rw [Bool.not_eq_true] at hdone
    have hgo' := handleFragment_going H hgo hdone
    dsimp only at h
    rw [← Sum.inr.inj h]
    split
    · exact hgo'
    · exact hgo'

/-- After the bytes of a head, the application has not stopped. -/
theorem head_going (l : Live α) (hgo : H.stopped l.session.app = false) (bytes : Bytes) :
  (l.head H bytes).Going H
  := by
  rw [Live.head]
  split
  case isTrue =>
    rintro _ ⟨⟩
    exact hgo
  case isFalse =>
    split
    case isTrue => rintro _ ⟨⟩
    case isFalse =>
      split
      case isTrue =>
        rintro _ ⟨⟩
        exact hgo
      case isFalse =>
        rw [Live.begin]
        dsimp only
        cases l.opened (frameOf bytes).opCode with
        | none => rintro _ ⟨⟩
        | some stack =>
            dsimp only
            split
            case isTrue => rintro _ ⟨⟩
            case isFalse =>
              split
              case isTrue => exact data_going H ⟨_, stack, _, l.session⟩ hgo _ _ _
              case isFalse =>
                rintro _ ⟨⟩
                exact hgo

/-- A reader that goes on has an application that has not stopped, after one more byte too. -/
theorem byte_going (r : Reader α) (h : r.Going H) (b : UInt8) :
  (r.byte H b).Going H
  := by
  cases r with
  | inl app => exact h
  | inr l =>
      have hgo := h l rfl
      rw [Reader.byte]
      cases l.phase with
      | head bytes => exact head_going H l hgo _
      | body remaining mask => exact data_going H l hgo _ _ _

/-- The same after any bytes. -/
theorem feed_going (r : Reader α) (h : r.Going H) (bytes : Bytes) :
  (r.feed H bytes).Going H
  := by
  induction bytes generalizing r with
  | nil => exact h
  | cons b bytes ih => exact ih _ (byte_going H r h b)

end WebSocket

end Owop
