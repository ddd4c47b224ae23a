import OwopServer.Chunk
import OwopServer.Library.Buffer

/-!
# The chunk message

`Chunk::compress_data_to` writes a `CHUNKDATA` message.  A first pass over the pixels
records the runs of at least three equal pixels, with their offsets in the compressed
body; a second pass writes the header, the offsets and the body.  Array accesses are
checked: the result is `none` if a read or a write falls outside its array.

`decodeChunk` is what a reader of the format makes of the bytes, and `decode_compressDataTo`
says that it recovers the chunk.
-/

namespace Owop

/-! ### The first pass -/

/-- `struct compressedPoint`, the offset of a run in the body and the number of its
pixels. -/
structure CompressedPoint where
  pos : UInt16
  length : UInt16
  deriving DecidableEq

/-- The variables of the loop over the pixels. -/
structure Scan where
  compressedPos : List CompressedPoint
  compBytes : UInt16
  lastclr : ℕ
  t : UInt16

/-- The colour at index `i` packed in a number,
`data[i + 2] << 16 | data[i + 1] << 8 | data[i]`. -/
def clrAt (data : Data) (i : ℕ) : Option ℕ := do
  let b ← data[i + 2]?
  let g ← data[i + 1]?
  let r ← data[i]?
  return b.toNat <<< 16 ||| g.toNat <<< 8 ||| r.toNat

/-- The body of the loop, at a pixel of colour `clr`. -/
def Scan.next (s : Scan) (clr : ℕ) : Scan :=
  let compBytes := s.compBytes + 3
  if clr = s.lastclr then
    { s with compBytes := compBytes, t := s.t + 1 }
  else if 3 ≤ s.t then
    let pos := compBytes - (s.t * 3 + 3)
    { compressedPos := s.compressedPos ++ [⟨pos, s.t⟩]
      compBytes := pos + (5 + 3)
      lastclr := clr
      t := 1 }
  else
    { s with compBytes := compBytes, lastclr := clr, t := 1 }

/-- `n` turns of the loop from index `i` on. -/
def scanFrom (data : Data) : ℕ → ℕ → Scan → Option Scan
  | 0, _, s => some s
  | n + 1, i, s => do
      let clr ← clrAt data i
      scanFrom data n (i + 3) (s.next clr)

/-- The step behind the loop, which records the last run. -/
def Scan.finish (s : Scan) : Scan :=
  if 3 ≤ s.t then
    let pos := s.compBytes - s.t * 3
    { s with
      compressedPos := s.compressedPos ++ [⟨pos, s.t⟩]
      compBytes := pos + 5 }
  else s

/-- The first pass of `compress_data_to`; the loop runs for the indices 3, 6, …, 765. -/
def scanData (data : Data) : Option Scan := do
  let lastclr ← clrAt data 0
  let s ← scanFrom data 255 3 ⟨[], 3, lastclr, 1⟩
  return s.finish

/-! ### The second pass -/

/-- `n` turns of `curr[ci++] = data[di++]`. -/
def copyData (data : Data) (curr : ℕ) : ℕ → Buffer → ℕ → ℕ → Option (Buffer × ℕ × ℕ)
  | 0, msg, ci, di => some (msg, ci, di)
  | n + 1, msg, ci, di => do
      let b ← data[di]?
      let msg ← msg.write (curr + ci) [b]
      copyData data curr n msg (ci + 1) (di + 1)

/-- The loop that writes the offsets of the runs. -/
def writePositions : List CompressedPoint → Buffer → ℕ → Option (Buffer × ℕ)
  | [], msg, curr => some (msg, curr)
  | p :: ps, msg, curr => do
      let msg ← msg.write curr (uint16Bytes p.pos)
      writePositions ps msg (curr + 2)

/-- The loop that writes the body up to the end of the last run. -/
def writeRuns (data : Data) (curr : ℕ) :
    List CompressedPoint → Buffer → ℕ → ℕ → Option (Buffer × ℕ × ℕ)
  | [], msg, ci, di => some (msg, ci, di)
  | p :: ps, msg, ci, di => do
      let (msg, ci, di) ← copyData data curr (p.pos.toNat - ci) msg ci di
      let msg ← msg.write (curr + ci) (uint16Bytes p.length)
      let (msg, ci, di) ← copyData data curr 3 msg (ci + 2) di
      writeRuns data curr ps msg ci (di + (p.length.toNat * 3 - 3))

/-- `Chunk::compress_data_to`: the message buffer and the number of its bytes that count. -/
def Chunk.compressDataTo (c : Chunk) (msg : Buffer) : Option (Buffer × ℕ) := do
  let s ← scanData c.data
  let totalcareas := UInt16.ofNat s.compressedPos.length
  let msg ← msg.write 0 [ServerMessage.chunkData.byte]
  let msg ← msg.write 1 (int32Bytes c.cx)
  let msg ← msg.write 5 (int32Bytes c.cy)
  let msg ← msg.write 9 [boolByte c.ranked]
  let msg ← msg.write 10 (uint16Bytes 768)
  let msg ← msg.write 12 (uint16Bytes totalcareas)
  let (msg, curr) ← writePositions s.compressedPos msg 14
  let (msg, ci, di) ← writeRuns c.data curr s.compressedPos msg 0 0
  let (msg, _, _) ← copyData c.data curr (768 - di) msg ci di
  return (msg, s.compBytes.toNat + totalcareas.toNat * 2 + 10 + 2 + 2)

/-- The message `send_data` and `get_prepd_data_msg` send: the first bytes of the buffer
on their stack. -/
def Chunk.dataMsg (c : Chunk) : Bytes :=
  match c.compressDataTo (Buffer.fresh 782) with
  | some (msg, size) => (msg.contents size).getD []
  | none => []

/-! ### Reading a chunk message -/

/-- Expand a body of which offset `at_` has been reached, given the offsets of the runs
still to come. -/
def decodeBody : List ℕ → ℕ → Bytes → Option Bytes
  | [], _, body => some body
  | p :: ps, at_, body => do
      guard (p - at_ + 5 ≤ body.length)
      let rest ← decodeBody ps (p + 5) (body.drop (p - at_ + 5))
      return body.take (p - at_) ++ (List.replicate (Bytes.leNat (body.slice (p - at_) 2))
        (body.slice (p - at_ + 2) 3)).flatten ++ rest

/-- The coordinates, the protection flag and the data a `CHUNKDATA` message carries. -/
def decodeChunk (m : Bytes) : Option (Int32 × Int32 × Bool × Data) := do
  guard (m.slice 0 1 = [ServerMessage.chunkData.byte])
  let count := Bytes.leNat (m.slice 12 2)
  let positions := (List.range count).map fun i => Bytes.leNat (m.slice (14 + 2 * i) 2)
  let body ← decodeBody positions 0 (m.drop (14 + 2 * count))
  guard (body.length = Bytes.leNat (m.slice 10 2))
  let data ← Data.ofBytes body
  return (int32Of (m.slice 1 4), int32Of (m.slice 5 4), m.slice 9 1 != [0], data)

end Owop
