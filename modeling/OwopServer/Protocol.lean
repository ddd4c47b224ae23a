import OwopServer.Library.Bytes

/-!
# Wire format and configuration

The constants of `config.hpp`, the message kinds and packed structures of `server.hpp`,
and their little-endian byte representations.  Coordinates are `Int32`, which wraps and
shifts as the code's `int32_t`.
-/

namespace Owop

/-! ### Configuration -/

/-- `WORLD_MAX_FILE_HANDLES` -/
def worldMaxFileHandles : ℕ := 16

/-- `WORLD_MAX_CHUNKS_LOADED` -/
def worldMaxChunksLoaded : ℕ := 2048

/-- `WORLD_MAX_CHUNK_XY` -/
def worldMaxChunkXY : Int32 := 0xFFFFF

/-- `WORLD_MAX_PLAYER_UPDATES` -/
def worldMaxPlayerUpdates : ℕ := 128

/-- `WORLD_MAX_PLAYER_LEFT_UPDATES` -/
def worldMaxPlayerLeftUpdates : ℕ := 255

/-- `WORLD_MAX_PIXEL_UPDATES` -/
def worldMaxPixelUpdates : ℕ := 4096

/-- `CLIENT_MAX_WARN_LEVEL` -/
def clientMaxWarnLevel : ℕ := 128

/-! ### Message kinds and ranks -/

/-- The kind of a WebSocket message. -/
inductive OpCode where
  | text
  | binary
  deriving DecidableEq, Repr

/-- The first byte of a binary message to a client, `enum server_messages`. -/
inductive ServerMessage where
  | setId
  | update
  | chunkData
  | teleport
  | permissions
  | captchaRequired
  | setPquota
  | chunkProtected
  deriving DecidableEq, Repr

/-- The byte of a message kind. -/
def ServerMessage.byte : ServerMessage → UInt8
  | setId => 0
  | update => 1
  | chunkData => 2
  | teleport => 3
  | permissions => 4
  | captchaRequired => 5
  | setPquota => 6
  | chunkProtected => 7

/-- The values of `Client::Rank`, kept as the `uint8_t` the code stores and compares. -/
abbrev Rank := UInt8

namespace Rank

def none : Rank := 0
def user : Rank := 1
def moderator : Rank := 2
def admin : Rank := 3

end Rank

/-- The values of `captcha_verify_state` the server assigns. -/
abbrev CaptchaState := UInt8

namespace CaptchaState

def waiting : CaptchaState := 0
def ok : CaptchaState := 3

end CaptchaState

/-! ### Structures -/

/-- `struct RGB` -/
structure RGB where
  r : UInt8
  g : UInt8
  b : UInt8
  deriving DecidableEq, Repr

/-- The bytes of a colour. -/
def RGB.bytes (c : RGB) : Bytes := [c.r, c.g, c.b]

/-- A colour takes 3 bytes. -/
@[simp]
theorem RGB.length_bytes (c : RGB) :
  c.bytes.length = 3
  := rfl

/-- `pinfo_t`, the position, colour and tool of a player. -/
structure PInfo where
  x : Int32
  y : Int32
  r : UInt8
  g : UInt8
  b : UInt8
  tool : UInt8
  deriving DecidableEq

/-- `pixupd_t`, the update of a pixel. -/
structure PixUpd where
  x : Int32
  y : Int32
  r : UInt8
  g : UInt8
  b : UInt8
  deriving DecidableEq

/-- The colour of a pixel update. -/
def PixUpd.rgb (p : PixUpd) : RGB := ⟨p.r, p.g, p.b⟩

/-- The position of a chunk, `chunkpos_t`. -/
abbrev ChunkPos := Int32 × Int32

instance : LawfulBEq ChunkPos := Prod.instLawfulBEq

/-! ### Byte representations -/

/-- The four bytes of an `int32_t`. -/
def int32Bytes (x : Int32) : Bytes := Bytes.leBytes 4 x.toUInt32.toNat

/-- The `int32_t` with the given bytes. -/
def int32Of (bs : Bytes) : Int32 := (UInt32.ofNat (Bytes.leNat bs)).toInt32

/-- A signed number takes 4 bytes. -/
@[simp]
theorem length_int32Bytes (x : Int32) :
  (int32Bytes x).length = 4
  := Bytes.length_leBytes 4 _

/-- A signed number is read back. -/
@[simp]
theorem int32Of_int32Bytes (x : Int32) :
  int32Of (int32Bytes x) = x
  := by
  rw [int32Of, int32Bytes, Bytes.leNat_leBytes_of_lt x.toUInt32.toNat_lt]
  simp

/-- The four bytes of a `uint32_t`. -/
def uint32Bytes (x : UInt32) : Bytes := Bytes.leBytes 4 x.toNat

/-- An id takes 4 bytes. -/
@[simp]
theorem length_uint32Bytes (x : UInt32) :
  (uint32Bytes x).length = 4
  := Bytes.length_leBytes 4 _

/-- The `uint32_t` with the given bytes. -/
def uint32Of (bs : Bytes) : UInt32 := UInt32.ofNat (Bytes.leNat bs)

/-- An id is read back. -/
@[simp]
theorem uint32Of_uint32Bytes (x : UInt32) :
  uint32Of (uint32Bytes x) = x
  := by
  rw [uint32Of, uint32Bytes, Bytes.leNat_leBytes_of_lt x.toNat_lt]
  simp

/-- The two bytes of a `uint16_t`. -/
def uint16Bytes (x : UInt16) : Bytes := Bytes.leBytes 2 x.toNat

/-- A short number takes 2 bytes. -/
@[simp]
theorem length_uint16Bytes (x : UInt16) :
  (uint16Bytes x).length = 2
  := Bytes.length_leBytes 2 _

/-- A short number is read back. -/
@[simp]
theorem leNat_uint16Bytes (x : UInt16) :
  Bytes.leNat (uint16Bytes x) = x.toNat
  := Bytes.leNat_leBytes_of_lt x.toNat_lt

/-- The byte of a `bool`. -/
def boolByte (b : Bool) : UInt8 := if b then 1 else 0

/-- A flag is read back. -/
@[simp]
theorem boolByte_ne_zero (b : Bool) :
  (boolByte b != 0) = b
  := by
  cases b <;> rfl

/-- The twelve bytes of a `pinfo_t`. -/
def PInfo.bytes (p : PInfo) : Bytes :=
  int32Bytes p.x ++ int32Bytes p.y ++ [p.r, p.g, p.b, p.tool]

/-- The eleven bytes of a packed `pixupd_t`. -/
def PixUpd.bytes (p : PixUpd) : Bytes :=
  int32Bytes p.x ++ int32Bytes p.y ++ [p.r, p.g, p.b]

/-- A position with its tool takes 12 bytes. -/
@[simp]
theorem PInfo.length_bytes (p : PInfo) :
  p.bytes.length = 12
  := by
  simp [PInfo.bytes]

/-- A pixel takes 11 bytes. -/
@[simp]
theorem PixUpd.length_bytes (p : PixUpd) :
  p.bytes.length = 11
  := by
  simp [PixUpd.bytes]

/-- The `pinfo_t` of a message. -/
def pinfoOf (msg : Bytes) : PInfo :=
  ⟨int32Of (msg.slice 0 4), int32Of (msg.slice 4 4), msg.getD 8 0, msg.getD 9 0, msg.getD 10 0,
    msg.getD 11 0⟩

/-- A position with its tool is read back. -/
@[simp]
theorem pinfoOf_bytes (p : PInfo) :
  pinfoOf p.bytes = p
  := by
  have hx := length_int32Bytes p.x
  have hy := length_int32Bytes p.y
  simp [pinfoOf, PInfo.bytes, Bytes.slice, List.take_append, List.drop_append, hx, hy,
    List.getD_eq_getElem?_getD, -List.append_assoc]

/-! ### Bytes that are read and written again -/

/-- The bytes of the `int32_t` that four bytes stand for. -/
theorem int32Bytes_int32Of {bs : Bytes} (h : bs.length = 4) :
  int32Bytes (int32Of bs) = bs
  := by
  have hlt := Bytes.leNat_lt bs
  rw [h] at hlt
  rw [int32Bytes, int32Of, UInt32.toUInt32_toInt32, UInt32.toNat_ofNat_of_lt' hlt, ← h]
  exact Bytes.leBytes_leNat bs

/-- The bytes of the `uint32_t` that four bytes stand for. -/
theorem uint32Bytes_uint32Of {bs : Bytes} (h : bs.length = 4) :
  uint32Bytes (uint32Of bs) = bs
  := by
  have hlt := Bytes.leNat_lt bs
  rw [h] at hlt
  rw [uint32Bytes, uint32Of, UInt32.toNat_ofNat_of_lt' hlt, ← h]
  exact Bytes.leBytes_leNat bs

/-- Bytes start with the two coordinates that they stand for. -/
theorem int32Bytes_append_drop {bs : Bytes} (h : 8 ≤ bs.length) :
  int32Bytes (int32Of (bs.slice 0 4)) ++ int32Bytes (int32Of (bs.slice 4 4)) ++ bs.drop 8 = bs
  := by
  have hdrop : bs.drop 8 = (bs.drop 4).drop 4 := by rw [List.drop_drop]
  rw [int32Bytes_int32Of (Bytes.length_slice_of_le (by omega)),
    int32Bytes_int32Of (Bytes.length_slice_of_le (by omega)), hdrop, Bytes.slice, Bytes.slice,
    List.drop_zero, List.append_assoc, List.take_append_drop, List.take_append_drop]

/-- What is behind two coordinates. -/
theorem getD_drop_eight (bs : Bytes) (i : ℕ) :
  (bs.drop 8).getD i 0 = bs.getD (8 + i) 0
  := by
  rw [List.getD_eq_getElem?_getD, List.getD_eq_getElem?_getD, List.getElem?_drop]

/-- The bytes of the `pinfo_t` that twelve bytes stand for. -/
theorem bytes_pinfoOf {bs : Bytes} (h : bs.length = 12) :
  (pinfoOf bs).bytes = bs
  := by
  obtain ⟨a, b, c, d, hrest⟩ := List.length_eq_four.mp
    (by rw [List.length_drop, h] : (bs.drop 8).length = 4)
  have hget := getD_drop_eight bs
  rw [hrest] at hget
  have hcut := int32Bytes_append_drop (by omega : 8 ≤ bs.length)
  rw [hrest] at hcut
  rw [PInfo.bytes, pinfoOf]
  dsimp only
  rw [← hget 0, ← hget 1, ← hget 2, ← hget 3]
  exact hcut

end Owop
