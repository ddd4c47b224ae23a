import OwopServer.WebSocket.Utf8

/-!
# Fragments

What `WebSocketProtocol::handleFragment` of `WebSocketImpl.cpp` does with the data of a frame as
it arrives: the pieces of a message are put together, texts are checked, and control frames are
answered.  No compression is negotiated, so that no data is inflated.
-/

namespace Owop

namespace WebSocket

/-! ### Codes of frames -/

def opText : UInt8 := 1
def opBinary : UInt8 := 2
def opClose : UInt8 := 8
def opPing : UInt8 := 9
def opPong : UInt8 := 10

/-- The number of some bytes, the most significant first, as `ntohs` and `be64toh` read it. -/
def beNat (bs : Bytes) : ℕ := Bytes.leNat bs.reverse

/-- A number in network order is read back. -/
theorem beNat_reverse_leBytes {n v : ℕ} (h : v < 256 ^ n) :
  beNat (Bytes.leBytes n v).reverse = v
  := by
  rw [beNat, List.reverse_reverse, Bytes.leNat_leBytes_of_lt h]

/-- `WebSocketProtocol::CloseFrame` -/
structure CloseFrame where
  code : UInt16
  message : Bytes
  deriving DecidableEq

/-- The codes that a peer must not send. -/
def badCode (code : ℕ) : Bool :=
  code < 1000 || code > 4999 || (code > 1011 && code < 4000) || (code ≥ 1004 && code ≤ 1006)

/-- `WebSocketProtocol::parseClosePayload` -/
def parseClosePayload (src : Bytes) : CloseFrame :=
  if src.length ≥ 2 then
    let code := beNat (src.take 2)
    if badCode code || !isValidUtf8 (src.drop 2) then ⟨0, []⟩ else ⟨UInt16.ofNat code, src.drop 2⟩
  else ⟨0, []⟩

/-- `WebSocketProtocol::formatClosePayload` -/
def formatClosePayload (frame : CloseFrame) : Bytes :=
  if frame.code ≠ 0 then (uint16Bytes frame.code).reverse ++ frame.message else []

/-! ### Handlers -/

/-- What is done with messages and control frames.  `ping` also sends the answer, `close` is
`WebSocket::close`, `terminate` is `WebSocket::terminate`, and `stopped` tells whether the socket
is closed or shutting down. -/
structure Handlers (α : Type) where
  message : α → OpCode → Bytes → α
  ping : α → Bytes → α
  pong : α → Bytes → α
  close : α → CloseFrame → α
  terminate : α → α
  stopped : α → Bool

/-- A socket stops for good when it is terminated or closed. -/
structure Handlers.Lawful {α : Type} (H : Handlers α) : Prop where
  terminate : ∀ app, H.stopped (H.terminate app) = true
  close : ∀ app frame, H.stopped (H.close app frame) = true

/-- The two buffers of `WebSocket::Data`, and everything that handlers change. -/
structure Session (α : Type) where
  fragmentBuffer : Bytes
  controlBuffer : Bytes
  app : α

variable {α : Type} (H : Handlers α)

/-- The opcode of a message as handlers get it. -/
def opCodeOf (opCode : UInt8) : OpCode := if opCode = opText then .text else .binary

/-- A message is there: it is given to the handler unless it is a text that is none. -/
def Session.deliver (S : Session α) (opCode : UInt8) (data : Bytes) : Bool × Session α :=
  if opCode = opText ∧ isValidUtf8 data = false then (true, { S with app := H.terminate S.app })
  else
    let app := H.message S.app (opCodeOf opCode) data
    (H.stopped app, { S with app := app })

/-- The buffer of a message is cleared when the message was handled, unless the socket stops. -/
def clearFragment (done : Bool × Session α) : Bool × Session α :=
  if done.1 then done else (false, { done.2 with fragmentBuffer := [] })

/-- The handler of a ping or a pong is called. -/
def Session.answer (S : Session α) (opCode : UInt8) : α :=
  if opCode = opPing then H.ping S.app S.controlBuffer
  else if opCode = opPong then H.pong S.app S.controlBuffer
  else S.app

/-- A control frame is there. -/
def Session.control (S : Session α) (opCode : UInt8) : Bool × Session α :=
  if opCode = opClose then
    (true, { S with app := H.close S.app (parseClosePayload S.controlBuffer) })
  else
    let app := S.answer H opCode
    if (opCode = opPing ∨ opCode = opPong) ∧ H.stopped app = true then (true, { S with app := app })
    else (false, { S with app := app, controlBuffer := [] })

/-- `WebSocketProtocol::handleFragment`: whether to stop, and the session after it. -/
def Session.handleFragment (S : Session α) (data : Bytes) (remainingBytes : ℕ) (opCode : UInt8)
    (fin : Bool) : Bool × Session α :=
  if opCode < 3 then
    if remainingBytes = 0 ∧ fin = true ∧ S.fragmentBuffer = [] then S.deliver H opCode data
    else
      let S := { S with fragmentBuffer := S.fragmentBuffer ++ data }
      if remainingBytes = 0 ∧ fin = true then clearFragment (S.deliver H opCode S.fragmentBuffer)
      else (false, S)
  else
    let S := { S with controlBuffer := S.controlBuffer ++ data }
    if remainingBytes = 0 ∧ fin = true then S.control H opCode else (false, S)

/-- If a message stops the reader, the application has stopped. -/
theorem deliver_stopped {H : Handlers α} (hlaw : H.Lawful) {S : Session α} {opCode : UInt8}
    {data : Bytes} (h : (S.deliver H opCode data).1 = true) :
  H.stopped (S.deliver H opCode data).2.app = true
  := by
  rw [Session.deliver] at h ⊢
  split
  case isTrue => exact hlaw.terminate S.app
  case isFalse hgood =>
    rw [if_neg hgood] at h
    exact h

/-- If a control frame stops the reader, the application has stopped. -/
theorem control_stopped {H : Handlers α} (hlaw : H.Lawful) {S : Session α} {opCode : UInt8}
    (h : (S.control H opCode).1 = true) :
  H.stopped (S.control H opCode).2.app = true
  := by
  rw [Session.control] at h ⊢
  split
  case isTrue => exact hlaw.close _ _
  case isFalse hop =>
    rw [if_neg hop] at h
    dsimp only at h ⊢
    split at h
    case isTrue hstop =>
      rw [if_pos hstop]
      exact hstop.2
    case isFalse => exact absurd h Bool.false_ne_true

/-- Whenever nothing more is read, the socket has stopped. -/
theorem handleFragment_stopped {H : Handlers α} (hlaw : H.Lawful) (S : Session α) (data : Bytes)
    (remainingBytes : ℕ) (opCode : UInt8) (fin : Bool)
    (h : (S.handleFragment H data remainingBytes opCode fin).1 = true) :
  H.stopped (S.handleFragment H data remainingBytes opCode fin).2.app = true
  := by
  rw [Session.handleFragment] at h ⊢
  split at h
  case isTrue hop =>
    rw [if_pos hop]
    split at h
    case isTrue hone =>
      rw [if_pos hone]
      exact deliver_stopped hlaw h
    case isFalse hone =>
      rw [if_neg hone]
      dsimp only at h ⊢
      split at h
      case isTrue hend =>
        rw [if_pos hend]
        rw [clearFragment] at h ⊢
        split
        case isTrue hdone => exact deliver_stopped hlaw hdone
        case isFalse hdone =>
          rw [if_neg hdone] at h
          exact absurd h Bool.false_ne_true
      case isFalse => exact absurd h Bool.false_ne_true
  case isFalse hop =>
    rw [if_neg hop]
    dsimp only at h ⊢
    split at h
    case isTrue hend =>
      rw [if_pos hend]
      exact control_stopped hlaw h
    case isFalse => exact absurd h Bool.false_ne_true

/-- If a message does not stop the reader, the application goes on. -/
theorem deliver_going {S : Session α} {opCode : UInt8} {data : Bytes}
    (h : (S.deliver H opCode data).1 = false) :
  H.stopped (S.deliver H opCode data).2.app = false
  := by
  rw [Session.deliver] at h ⊢
  split
  case isTrue hbad =>
    rw [if_pos hbad] at h
    exact absurd h.symm Bool.false_ne_true
  case isFalse hgood =>
    rw [if_neg hgood] at h
    exact h

/-- If a control frame does not stop the reader, the application goes on. -/
theorem control_going {S : Session α} (hgo : H.stopped S.app = false) {opCode : UInt8}
    (h : (S.control H opCode).1 = false) :
  H.stopped (S.control H opCode).2.app = false
  := by
  rw [Session.control] at h ⊢
  split
  case isTrue hop =>
    rw [if_pos hop] at h
    exact absurd h.symm Bool.false_ne_true
  case isFalse hop =>
    rw [if_neg hop] at h
    by_cases hanswer : opCode = opPing ∨ opCode = opPong
    · dsimp only at h ⊢
      split at h
      case isTrue => exact absurd h.symm Bool.false_ne_true
      case isFalse hstop =>
        rw [if_neg hstop]
        exact Bool.not_eq_true _ ▸ fun hstop' => hstop ⟨hanswer, hstop'⟩
    · obtain ⟨hping, hpong⟩ := not_or.mp hanswer
      dsimp only
      rw [if_neg (fun h => hanswer h.1), Session.answer, if_neg hping, if_neg hpong]
      exact hgo

/-- As long as more is read, the socket has not stopped. -/
theorem handleFragment_going {S : Session α} (hgo : H.stopped S.app = false) {data : Bytes}
    {remainingBytes : ℕ} {opCode : UInt8} {fin : Bool}
    (h : (S.handleFragment H data remainingBytes opCode fin).1 = false) :
  H.stopped (S.handleFragment H data remainingBytes opCode fin).2.app = false
  := by
  rw [Session.handleFragment] at h ⊢
  split at h
  case isTrue hop =>
    rw [if_pos hop]
    split at h
    case isTrue hone =>
      rw [if_pos hone]
      exact deliver_going H h
    case isFalse hone =>
      rw [if_neg hone]
      dsimp only at h ⊢
      split at h
      case isTrue hend =>
        rw [if_pos hend]
        rw [clearFragment] at h ⊢
        split
        case isTrue hdone =>
          rw [if_pos hdone] at h
          exact absurd (h.symm.trans hdone) Bool.false_ne_true
        case isFalse hdone => exact deliver_going H (Bool.not_eq_true _ ▸ hdone)
      case isFalse hend =>
        rw [if_neg hend]
        exact hgo
  case isFalse hop =>
    rw [if_neg hop]
    dsimp only at h ⊢
    split at h
    case isTrue hend =>
      rw [if_pos hend]
      exact control_going H (S := { S with controlBuffer := S.controlBuffer ++ data }) hgo h
    case isFalse hend =>
      rw [if_neg hend]
      exact hgo

/-! ### Pieces of a frame -/

/-- A session that goes on, or what the handlers have changed in one that does not. -/
def outcome (done : Bool × Session α) : α ⊕ Session α :=
  if done.1 then .inl done.2.app else .inr done.2

/-- A part of a frame that has no end changes a buffer. -/
theorem handleFragment_part (S : Session α) (data : Bytes) {remainingBytes : ℕ}
    (hpart : remainingBytes ≠ 0) (opCode : UInt8) (fin : Bool) :
  S.handleFragment H data remainingBytes opCode fin = (false,
    if opCode < 3 then { S with fragmentBuffer := S.fragmentBuffer ++ data }
    else { S with controlBuffer := S.controlBuffer ++ data })
  := by
  rw [Session.handleFragment]
  split
  case isTrue =>
    rw [if_neg (fun h => hpart h.1), if_neg (fun h => hpart h.1)]
  case isFalse => rw [if_neg (fun h => hpart h.1)]

/-- No part of a frame changes nothing. -/
theorem handleFragment_part_nil (S : Session α) {remainingBytes : ℕ} (hpart : remainingBytes ≠ 0)
    (opCode : UInt8) (fin : Bool) :
  S.handleFragment H [] remainingBytes opCode fin = (false, S)
  := by
  rw [handleFragment_part H S [] hpart, List.append_nil, List.append_nil]
  split
  · rfl
  · rfl

/-- A message is delivered in the same way whether or not it is in the buffer. -/
theorem outcome_deliver (S : Session α) (opCode : UInt8) (data : Bytes)
    (hempty : S.fragmentBuffer = []) :
  outcome (clearFragment (({ S with fragmentBuffer := data } : Session α).deliver H opCode data))
    = outcome (S.deliver H opCode data)
  := by
  obtain ⟨fragment, control, app⟩ := S
  obtain rfl : fragment = [] := hempty
  rw [Session.deliver, Session.deliver]
  split
  case isTrue => rfl
  case isFalse =>
    dsimp only
    cases H.stopped (H.message app (opCodeOf opCode) data)
    · rfl
    · rfl

/-- A frame in two parts is handled as one that arrives whole. -/
theorem outcome_handleFragment_append (S : Session α) (data data' : Bytes) {remainingBytes : ℕ}
    (hpart : remainingBytes ≠ 0) (remainingBytes' : ℕ) (opCode : UInt8) (fin : Bool) :
  outcome ((S.handleFragment H data remainingBytes opCode fin).2.handleFragment H data'
      remainingBytes' opCode fin)
    = outcome (S.handleFragment H (data ++ data') remainingBytes' opCode fin)
  := by
  rw [handleFragment_part H S data hpart]
  dsimp only
  by_cases hop : opCode < 3
  · rw [if_pos hop, Session.handleFragment, Session.handleFragment, if_pos hop, if_pos hop]
    dsimp only
    rw [List.append_assoc]
    by_cases hend : remainingBytes' = 0 ∧ fin = true
    · rw [if_pos hend]
      by_cases hempty : S.fragmentBuffer = []
      · rw [hempty, List.nil_append, List.nil_append]
        by_cases hdata : data = []
        · subst hdata
          obtain ⟨fragment, control, app⟩ := S
          obtain rfl : fragment = [] := hempty
          rfl
        · rw [if_neg (fun h => hdata h.2.2), if_pos ⟨hend.1, hend.2, rfl⟩,
            ← outcome_deliver H S opCode (data ++ data') hempty]
      · rw [if_neg (fun h => hempty (List.append_eq_nil_iff.mp h.2.2).1),
          if_neg (fun h => hempty h.2.2)]
    · rw [if_neg hend, if_neg (fun h => hend ⟨h.1, h.2.1⟩), if_neg (fun h => hend ⟨h.1, h.2.1⟩)]
  · rw [if_neg hop, Session.handleFragment, Session.handleFragment, if_neg hop, if_neg hop]
    dsimp only
    rw [List.append_assoc]

end WebSocket

end Owop
