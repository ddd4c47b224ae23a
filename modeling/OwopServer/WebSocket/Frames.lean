import OwopServer.WebSocket.Fragments

/-!
# Frames

The class `WebSocketProtocol` of `WebSocketProtocol.h` for the server: how frames are read from
what arrives on a socket, in the buffer that `recv` has filled, and how they are written.  A read
or write outside of an array is `none`.
-/

namespace Owop

namespace WebSocket

/-! ### Masks -/

/-- The four bytes that mask a frame. -/
abbrev Mask := Fin 4 → UInt8

/-- `WebSocketProtocol::rotateMask` -/
def rotateMask (offset : ℕ) (mask : Mask) : Mask := fun j => mask (j - Fin.ofNat 4 offset)

/-- The mask for the bytes from number `k` on. -/
def Mask.turn (mask : Mask) (k : ℕ) : Mask := fun j => mask (j + Fin.ofNat 4 k)

/-- Masked bytes without the mask, or the other way round. -/
def unmask (mask : Mask) (bs : Bytes) : Bytes := bs.mapIdx fun i b => b ^^^ mask (Fin.ofNat 4 i)

/-- Write a byte of an array. -/
def poke (m : Bytes) (i : ℕ) (b : UInt8) : Option Bytes :=
  if i < m.length then some (m.set i b) else none

/-- `n` times `*(dst++) = *(src++) ^ mask[i % 4]`, from a number `i` on. -/
def xorCopy (mask : Mask) : ℕ → ℕ → ℕ → ℕ → Bytes → Option Bytes
  | 0, _, _, _, m => some m
  | n + 1, i, dst, src, m => do
      let b ← m[src]?
      let m ← poke m dst (b ^^^ mask (Fin.ofNat 4 i))
      xorCopy mask n (i + 1) (dst + 1) (src + 1) m

/-- `WebSocketProtocol::unmaskImprecise`: up to four bytes more than the length are written. -/
def unmaskImprecise (m : Bytes) (dst src : ℕ) (mask : Mask) (length : ℕ) : Option Bytes :=
  xorCopy mask ((length / 4 + 1) * 4) 0 dst src m

/-- `WebSocketProtocol::unmaskInplace`: up to three bytes from `stop` on are written. -/
def unmaskInplace (m : Bytes) (data stop : ℕ) (mask : Mask) : Option Bytes :=
  xorCopy mask ((stop - data + 3) / 4 * 4) 0 data data m

/-- The bytes from `pos` on, if they are all in the array. -/
def peek (m : Bytes) (pos n : ℕ) : Option Bytes :=
  if pos + n ≤ m.length then some (m.slice pos n) else none

/-! ### Heads of frames -/

/-- The first two bytes of a frame, `frameFormat`. -/
structure FrameFormat where
  b0 : UInt8
  b1 : UInt8

namespace FrameFormat

variable (frame : FrameFormat)

def isFin : Bool := frame.b0 &&& 128 ≠ 0
def opCode : UInt8 := frame.b0 &&& 15
def payloadLength : ℕ := (frame.b1 &&& 127).toNat
def rsv23 : Bool := frame.b0 &&& 48 ≠ 0
def rsv1 : Bool := frame.b0 &&& 64 ≠ 0

/-- The test of `consume` for what no frame begins with.  A first reserved bit would say that the
frame is compressed. -/
def refused : Bool :=
  frame.rsv1 || frame.rsv23 || (frame.opCode > 2 && frame.opCode < 8) || frame.opCode > 10 ||
    (frame.opCode > 2 && (!frame.isFin || frame.payloadLength > 125))

end FrameFormat

/-- `SHORT_MESSAGE_HEADER` of the server -/
def shortMessageHeader : ℕ := 6

/-- `MEDIUM_MESSAGE_HEADER` of the server -/
def mediumMessageHeader : ℕ := 8

/-- `LONG_MESSAGE_HEADER` of the server -/
def longMessageHeader : ℕ := 14

/-- `CONSUME_PRE_PADDING` -/
def consumePrePadding : ℕ := longMessageHeader - 1

/-- `CONSUME_POST_PADDING` -/
def consumePostPadding : ℕ := 18

/-- `recvLength`: the buffer of the hub without its paddings. -/
def recvLength : ℕ := 300 * 1024 - consumePrePadding - consumePostPadding

/-! ### The parser -/

/-- `state_t` -/
inductive ReadState where
  | readHead
  | readMessage
  deriving DecidableEq

/-- The fields of `WebSocketProtocol`; `spill` has its first `spillLength` bytes. -/
structure Protocol where
  state : ReadState
  spill : Bytes
  opStack : ℤ
  lastFin : Bool
  remainingBytes : ℕ
  mask : Mask
  opCodes : Fin 2 → UInt8

/-- The fields that the constructor `WebSocketProtocol::WebSocketProtocol` sets. -/
def Protocol.new : Protocol := ⟨.readHead, [], -1, true, 0, fun _ => 0, fun _ => 0⟩

/-- `opCode[(unsigned char) i]` -/
def Protocol.opCode (p : Protocol) (i : ℤ) : Option UInt8 :=
  if i = 0 then some (p.opCodes 0) else if i = 1 then some (p.opCodes 1) else none

/-- The parser has these opcodes on its stack, the last one first. -/
def Protocol.Open (p : Protocol) : List UInt8 → Prop
  | [] => p.opStack = -1
  | [a] => p.opStack = 0 ∧ p.opCodes 0 = a
  | [b, a] => p.opStack = 1 ∧ p.opCodes 0 = a ∧ p.opCodes 1 = b
  | _ => False

/-- `opCode[(unsigned char) ++opStack] = op` -/
def Protocol.push (p : Protocol) (op : UInt8) : Option Protocol :=
  if p.opStack = -1 then some { p with opStack := 0, opCodes := Function.update p.opCodes 0 op }
  else if p.opStack = 0 then
    some { p with opStack := 1, opCodes := Function.update p.opCodes 1 op }
  else none

/-- `opStack--` when a frame is the last one of its message. -/
def Protocol.pop (p : Protocol) (fin : Bool) : Protocol :=
  if fin then { p with opStack := p.opStack - 1 } else p

/-- The first test of `consumeMessage`: the opcode of a frame is pushed, unless the frame must not
stand where it does. -/
def Protocol.begin (p : Protocol) (opCode : UInt8) : Option (Option Protocol) :=
  if opCode ≠ 0 then
    if p.opStack = 1 ∨ p.lastFin = false ∧ opCode < 2 then some none
    else (p.push opCode).map some
  else if p.opStack = -1 then some none
  else some (some p)

/-- What `consume` works on: the memory of the hub, the bytes that are not read yet, the fields
of the parser and the session. -/
structure Input (α : Type) where
  mem : Bytes
  src : ℕ
  length : ℕ
  proto : Protocol
  session : Session α

variable {α : Type} (H : Handlers α)

/-- `WebSocketProtocol::forceClose` -/
def Input.forceClose (c : Input α) : Input α :=
  { c with session := { c.session with app := H.terminate c.session.app } }

/-- A length as the `int` that `refusePayloadLength` and the comparison with the length of the
input make of it. -/
def intOf (payLength : ℕ) : ℤ := (UInt32.ofNat payLength).toInt32.toInt

/-- `WebSocketProtocol::refusePayloadLength` -/
def refusePayloadLength (length : ℤ) : Bool := length > 16777216

/-- Give the bytes from `data` on to `handleFragment`. -/
def Input.handle (c : Input α) (data length remainingBytes : ℕ) (fin : Bool) :
    Option (Bool × Input α) := do
  let bytes ← peek c.mem data length
  let op ← c.proto.opCode c.proto.opStack
  let (stop, session) := c.session.handleFragment H bytes remainingBytes op fin
  return (stop, { c with session := session })

/-- The part of `consumeMessage` for a frame that is there as a whole. -/
def Input.whole (c : Input α) (header payLength : ℕ) (fin : Bool) : Option (Bool × Input α) := do
  let key ← peek c.mem (c.src + header - 4) 4
  -- the length of the bytes to unmask is an `unsigned int`
  let mem ← unmaskImprecise c.mem c.src (c.src + header) (fun j => key.getD j 0)
    (payLength % 2 ^ 32)
  let (stop, c) ← ({ c with mem := mem } : Input α).handle H c.src payLength 0 fin
  if stop then return (true, c)
  else return (false, { c with
    src := c.src + payLength + header
    length := c.length - (payLength + header)
    proto := { c.proto.pop fin with spill := [] } })

/-- The part of `consumeMessage` for a frame that has only begun. -/
def Input.part (c : Input α) (header payLength : ℕ) (fin : Bool) : Option (Bool × Input α) := do
  let remainingBytes := (payLength + header - c.length) % 2 ^ 32
  let key ← peek c.mem (c.src + header - 4) 4
  let mask : Mask := fun j => key.getD j 0
  let mem ← unmaskImprecise c.mem c.src (c.src + header) mask c.length
  let proto := { c.proto with
    state := .readMessage
    spill := []
    remainingBytes := remainingBytes
    mask := rotateMask (4 - (c.length - header) % 4) mask }
  let (_, c) ← ({ c with mem := mem, proto := proto } : Input α).handle H c.src
    (c.length - header) remainingBytes fin
  return (true, c)

/-- `WebSocketProtocol::consumeMessage`: whether to leave `consume`. -/
def Input.consumeMessage (c : Input α) (header payLength : ℕ) (frame : FrameFormat) :
    Option (Bool × Input α) := do
  match ← c.proto.begin frame.opCode with
  | none => return (true, c.forceClose H)
  | some p =>
      let c := { c with proto := { p with lastFin := frame.isFin } }
      if refusePayloadLength (intOf payLength) then return (true, c.forceClose H)
      else if intOf payLength ≤ (c.length : ℤ) - header then c.whole H header payLength frame.isFin
      else c.part H header payLength frame.isFin

/-- `WebSocketProtocol::consumeContinuation`: whether to go on with the next frame. -/
def Input.consumeContinuation (c : Input α) : Option (Bool × Input α) := do
  let remaining := c.proto.remainingBytes
  if remaining ≤ c.length then
    let n := remaining / 4
    let mem ← unmaskInplace c.mem c.src (c.src + n * 4) c.proto.mask
    let mem ← xorCopy c.proto.mask (remaining % 4) 0 (c.src + n * 4) (c.src + n * 4) mem
    let (stop, c) ← ({ c with mem := mem } : Input α).handle H c.src remaining 0 c.proto.lastFin
    if stop then return (false, c)
    else return (true, { c with
      src := c.src + remaining
      length := c.length - remaining
      proto := { c.proto.pop c.proto.lastFin with state := .readHead } })
  else
    let mem ← unmaskInplace c.mem c.src (c.src + (c.length / 4 + 1) * 4) c.proto.mask
    let c := { c with
      mem := mem
      proto := { c.proto with remainingBytes := remaining - c.length } }
    let (stop, c) ← c.handle H c.src c.length c.proto.remainingBytes c.proto.lastFin
    if stop then return (false, c)
    else return (false, { c with
      proto := { c.proto with mask :=
        if c.length % 4 ≠ 0 then rotateMask (4 - c.length % 4) c.proto.mask else c.proto.mask } })

/-- The end of the loop of `consume`: what is left waits for more. -/
def Input.keep (c : Input α) : Option (Input α) := do
  if c.length = 0 then return c
  else if c.length ≤ longMessageHeader - 1 then
    let left ← peek c.mem c.src c.length
    return { c with proto := { c.proto with spill := left } }
  else none

/-- The loop of `consume` over at most `fuel` frames. -/
def Input.parseNext : ℕ → Input α → Option (Input α)
  | 0, _ => none
  | fuel + 1, c =>
      if c.length < shortMessageHeader then c.keep
      else do
        let b0 ← c.mem[c.src]?
        let b1 ← c.mem[c.src + 1]?
        let frame : FrameFormat := ⟨b0, b1⟩
        if frame.refused then return c.forceClose H
        let next (header payLength : ℕ) : Option (Input α) := do
          let (done, c) ← c.consumeMessage H header payLength frame
          if done then return c else parseNext fuel c
        if frame.payloadLength < 126 then next shortMessageHeader frame.payloadLength
        else if frame.payloadLength = 126 then
          if c.length < mediumMessageHeader then c.keep
          else
            let bytes ← peek c.mem (c.src + 2) 2
            next mediumMessageHeader (beNat bytes)
        else if c.length < longMessageHeader then c.keep
        else
          let bytes ← peek c.mem (c.src + 2) 8
          next longMessageHeader (beNat bytes)

/-- Put what waited in front of what arrived. -/
def Input.unspill (c : Input α) : Option (Input α) :=
  let n := c.proto.spill.length
  if n = 0 then some c
  else if n ≤ c.src then
    some { c with
      mem := c.mem.splice (c.src - n) c.proto.spill
      src := c.src - n
      length := c.length + n }
  else none

/-- `WebSocketProtocol::consume` -/
def Input.consume (c : Input α) : Option (Input α) := do
  let c ← c.unspill
  if c.proto.state = .readHead then c.parseNext H (c.length + 1)
  else
    let (go, c) ← c.consumeContinuation H
    if go then c.parseNext H (c.length + 1) else return c

/-! ### The socket -/

/-- A socket with its parser, and the memory of the hub. -/
structure Receiver (α : Type) where
  mem : Bytes
  proto : Protocol
  session : Session α

/-- `WebSocket::onData`: what `recv` has put in the buffer is read, unless the socket stops. -/
def Receiver.onData (c : Receiver α) (data : Bytes) : Option (Receiver α) :=
  if H.stopped c.session.app then some c
  else do
    let mem := c.mem.splice consumePrePadding data
    let c ← (⟨mem, consumePrePadding, data.length, c.proto, c.session⟩ : Input α).consume H
    return ⟨c.mem, c.proto, c.session⟩

/-- Pieces of data arrive one after the other. -/
def Receiver.onPieces (c : Receiver α) (pieces : List Bytes) : Option (Receiver α) :=
  pieces.foldlM (fun c data => c.onData H data) c

/-! ### Writing frames -/

/-- `WebSocketProtocol::formatMessage` for a message that is not compressed, with the mask of a
client. -/
def formatMessage (mask : Option Mask) (src : Bytes) (opCode : UInt8) : Bytes :=
  let bit : UInt8 := if mask.isSome then 0x80 else 0
  let length :=
    if src.length < 126 then [UInt8.ofNat src.length ||| bit]
    else if src.length ≤ 65535 then
      (126 ||| bit) :: (Bytes.leBytes 2 src.length).reverse
    else (127 ||| bit) :: (Bytes.leBytes 8 src.length).reverse
  match mask with
  | none => [128 ||| opCode] ++ length ++ src
  | some mask =>
      [128 ||| opCode] ++ length ++ List.ofFn mask ++
        src.mapIdx fun i b => b ^^^ mask (Fin.ofNat 4 i)

end WebSocket

end Owop
