import OwopServer.Compression.Lossless
import OwopServer.Server.Events
import OwopServer.World.Messages

/-!
# Views of clients

The reader of the binary messages that the server sends, and what a client knows from them: its
id, its rank, the quota of its pixels and the state of its captcha.
-/

namespace Owop

/-! ### Reading messages -/

/-- What a binary message tells a client. -/
inductive Told where
  | id (id : UInt32)
  | update (u : Update)
  | chunk (x y : Int32) (ranked : Bool) (data : Data)
  | teleport (x y : Int32)
  | permissions (rank : Rank)
  | captcha (state : CaptchaState)
  | quota (rate per : UInt16)
  | protection (x y : Int32) (state : Bool)

/-- The kind of a message that begins with the byte `b`. -/
def ServerMessage.ofByte (b : UInt8) : Option ServerMessage :=
  [setId, update, chunkData, teleport, permissions, captchaRequired, setPquota, chunkProtected].find?
    fun kind => kind.byte = b

/-- The kind is read off the byte that stands for it. -/
theorem ServerMessage.ofByte_byte (kind : ServerMessage) :
  ofByte kind.byte = some kind
  := by
  cases kind <;> rfl

/-- Read a value from a body of `n` bytes. -/
def readBody (n : ℕ) (body : Bytes) (told : Told) : Option Told :=
  if body.length = n then some told else none

/-- Read a message of a kind, with the bytes `body` behind that of the kind, to its end. -/
def readKind (msg body : Bytes) : ServerMessage → Option Told
  | .setId => readBody 4 body (.id (uint32Of body))
  | .update => (parseUpdate msg).map .update
  | .chunkData => (decodeChunk msg).map fun c => .chunk c.1 c.2.1 c.2.2.1 c.2.2.2
  | .teleport => readBody 8 body (.teleport (int32Of (body.take 4)) (int32Of (body.drop 4)))
  | .permissions => readBody 1 body (.permissions (body.getD 0 0))
  | .captchaRequired => readBody 1 body (.captcha (body.getD 0 0))
  | .setPquota =>
      readBody 4 body (.quota (UInt16.ofNat (Bytes.leNat (body.take 2)))
        (UInt16.ofNat (Bytes.leNat (body.drop 2))))
  | .chunkProtected =>
      readBody 9 body (.protection (int32Of (body.take 4)) (int32Of (Bytes.slice body 4 4))
        (body.getD 8 0 != 0))

/-- Read a binary message to its end. -/
def readMessage (msg : Bytes) : Option Told :=
  (msg.head?.bind ServerMessage.ofByte).bind (readKind msg msg.tail)

/-- A message is read by the kind that its first byte says. -/
theorem readMessage_eq {msg : Bytes} (kind : ServerMessage) (h : msg.head? = some kind.byte) :
  readMessage msg = readKind msg msg.tail kind
  := by
  rw [readMessage, h, Option.bind_some, ServerMessage.ofByte_byte, Option.bind_some]

/-- A body of the right length. -/
theorem readBody_eq {n : ℕ} {body : Bytes} (h : body.length = n) (told : Told) :
  readBody n body told = some told
  := if_pos h

/-- The message that tells a client its id. -/
theorem readMessage_id (id : UInt32) :
  readMessage ([ServerMessage.setId.byte] ++ uint32Bytes id) = some (.id id)
  := by
  have hread : readMessage ([ServerMessage.setId.byte] ++ uint32Bytes id)
      = readBody 4 (uint32Bytes id) (.id (uint32Of (uint32Bytes id))) := readMessage_eq .setId rfl
  rw [hread, readBody_eq (length_uint32Bytes id), uint32Of_uint32Bytes]

/-- The message of what happened in the world. -/
theorem readMessage_update {u : Update} (h : u.Fits) :
  readMessage u.bytes = some (.update u)
  := by
  have hread : readMessage u.bytes = (parseUpdate u.bytes).map .update := readMessage_eq .update rfl
  rw [hread, parseUpdate_bytes h]
  rfl

/-- The message with a chunk. -/
theorem readMessage_chunk (c : Chunk) :
  readMessage c.dataMsg = some (.chunk c.cx c.cy c.ranked c.data)
  := by
  rw [readMessage_eq .chunkData c.head?_dataMsg, readKind, decodeChunk_dataMsg]
  rfl

/-- The message that moves a client. -/
theorem readMessage_teleport (x y : Int32) :
  readMessage ([ServerMessage.teleport.byte] ++ int32Bytes x ++ int32Bytes y)
    = some (.teleport x y)
  := by
  have hlength : (int32Bytes x ++ int32Bytes y).length = 8 := by
    rw [List.length_append, length_int32Bytes, length_int32Bytes]
  have hread : readMessage ([ServerMessage.teleport.byte] ++ int32Bytes x ++ int32Bytes y)
      = readBody 8 (int32Bytes x ++ int32Bytes y)
        (.teleport (int32Of ((int32Bytes x ++ int32Bytes y).take 4))
          (int32Of ((int32Bytes x ++ int32Bytes y).drop 4))) := readMessage_eq .teleport rfl
  rw [hread, readBody_eq hlength, List.take_left' (length_int32Bytes x),
    List.drop_left' (length_int32Bytes x), int32Of_int32Bytes, int32Of_int32Bytes]

/-- The message that tells a client its rank. -/
theorem readMessage_permissions (rank : Rank) :
  readMessage [ServerMessage.permissions.byte, rank] = some (.permissions rank)
  := rfl

/-- The message that tells the state of the captcha. -/
theorem readMessage_captcha (state : CaptchaState) :
  readMessage [ServerMessage.captchaRequired.byte, state] = some (.captcha state)
  := rfl

/-- The message that tells a client its quota of pixels. -/
theorem readMessage_quota (rate per : UInt16) :
  readMessage ([ServerMessage.setPquota.byte] ++ uint16Bytes rate ++ uint16Bytes per)
    = some (.quota rate per)
  := by
  have hlength : (uint16Bytes rate ++ uint16Bytes per).length = 4 := by
    rw [List.length_append, length_uint16Bytes, length_uint16Bytes]
  have hread : readMessage ([ServerMessage.setPquota.byte] ++ uint16Bytes rate ++ uint16Bytes per)
      = readBody 4 (uint16Bytes rate ++ uint16Bytes per)
        (.quota (UInt16.ofNat (Bytes.leNat ((uint16Bytes rate ++ uint16Bytes per).take 2)))
          (UInt16.ofNat (Bytes.leNat ((uint16Bytes rate ++ uint16Bytes per).drop 2)))) :=
    readMessage_eq .setPquota rfl
  rw [hread, readBody_eq hlength, List.take_left' (length_uint16Bytes rate),
    List.drop_left' (length_uint16Bytes rate), leNat_uint16Bytes, leNat_uint16Bytes,
    UInt16.ofNat_toNat, UInt16.ofNat_toNat]

/-- The message that tells whether a chunk is protected. -/
theorem readMessage_protection (x y : Int32) (state : Bool) :
  readMessage ([ServerMessage.chunkProtected.byte] ++ int32Bytes x ++ int32Bytes y
    ++ [boolByte state]) = some (.protection x y state)
  := by
  have hx := length_int32Bytes x
  have hy := length_int32Bytes y
  generalize hbody : int32Bytes x ++ (int32Bytes y ++ [boolByte state]) = body
  have hmsg : [ServerMessage.chunkProtected.byte] ++ int32Bytes x ++ int32Bytes y
      ++ [boolByte state] = ServerMessage.chunkProtected.byte :: body := by
    rw [← hbody, List.append_assoc, List.append_assoc]
    rfl
  have hlength : body.length = 9 := by
    rw [← hbody, List.length_append, List.length_append, hx, hy]
    rfl
  have hfirst : body.take 4 = int32Bytes x := by
    rw [← hbody]
    exact List.take_left' hx
  have hsecond : Bytes.slice body 4 4 = int32Bytes y := by
    rw [← hbody, Bytes.slice, List.drop_left' hx]
    exact List.take_left' hy
  have hthird : body.getD 8 0 = boolByte state := by
    rw [← hbody, ← List.append_assoc, List.getD_eq_getElem?_getD, List.getElem?_append_right]
    · rw [List.length_append, hx, hy]
      rfl
    · rw [List.length_append, hx, hy]
  have hread : readMessage (ServerMessage.chunkProtected.byte :: body)
      = readBody 9 body (.protection (int32Of (body.take 4)) (int32Of (Bytes.slice body 4 4))
        (body.getD 8 0 != 0)) := readMessage_eq .chunkProtected rfl
  rw [hmsg, hread, readBody_eq hlength, hfirst, hsecond, hthird, int32Of_int32Bytes,
    int32Of_int32Bytes, boolByte_ne_zero]

/-! ### Views -/

/-- What a client knows. -/
structure View where
  id : Option UInt32
  rank : Option Rank
  quota : Option (UInt16 × UInt16)
  captcha : Option CaptchaState

namespace View

/-- What a client knows at first. -/
def new : View := ⟨none, none, none, none⟩

/-- What a client knows when it is told something. -/
def receive (v : View) : Told → View
  | .id id => { v with id := some id }
  | .permissions rank => { v with rank := some rank }
  | .captcha state => { v with captcha := some state }
  | .quota rate per => { v with quota := some (rate, per) }
  | _ => v

/-- What the client on `ws` knows after an action of the server. -/
def hear (ws : Ws) (v : View) : Action → View
  | .send ws' .binary msg =>
      if ws' = ws then ((readMessage msg).map v.receive).getD v else v
  | _ => v

end View

/-- A message that tells a client nothing that it keeps in its view. -/
def Plain : OpCode → Bytes → Prop
  | .text, _ => True
  | .binary, msg => ∃ told, readMessage msg = some told ∧ ∀ v : View, v.receive told = v

/-- The same for what a world sends. -/
def Out.Plain : Out → Prop
  | .all op msg => Owop.Plain op msg
  | .one _ op msg => Owop.Plain op msg

/-- What happened in the world says nothing of the one that is told. -/
theorem plain_update {u : Update} (h : u.Fits) :
  Plain .binary u.bytes
  := ⟨_, readMessage_update h, fun _ => rfl⟩

/-- A chunk says nothing of the one that is told. -/
theorem plain_chunk (c : Chunk) :
  Plain .binary c.dataMsg
  := ⟨_, readMessage_chunk c, fun _ => rfl⟩

/-- Where it is moved says nothing else of the one that is told. -/
theorem plain_teleport (x y : Int32) :
  Plain .binary ([ServerMessage.teleport.byte] ++ int32Bytes x ++ int32Bytes y)
  := ⟨_, readMessage_teleport x y, fun _ => rfl⟩

/-- The protection of a chunk says nothing of the one that is told. -/
theorem plain_protection (x y : Int32) (state : Bool) :
  Plain .binary ([ServerMessage.chunkProtected.byte] ++ int32Bytes x ++ int32Bytes y
    ++ [boolByte state])
  := ⟨_, readMessage_protection x y state, fun _ => rfl⟩

namespace Server

variable {s : Server}

/-- What the client on `ws` knows from the messages that the server has sent. -/
def view (s : Server) (ws : Ws) : View := s.log.foldl (View.hear ws) View.new

/-- All binary messages that the server has sent can be read. -/
def Readable (s : Server) : Prop :=
  ∀ ws msg, .send ws .binary msg ∈ s.log → (readMessage msg).isSome

/-- A connection that is open and has a client, has it as its player. -/
def Owned (s : Server) : Prop :=
  ∀ p cl, s.clients p = some cl → ∀ si, s.infos cl.ws = some si → si.player = some p

/-- The clients with open connections know their ids, those in `R` their ranks, and those in `Q`
their quotas. -/
def Knows (s : Server) (R Q : ClientPtr → Prop) : Prop :=
  ∀ p cl, s.clients p = some cl → s.infos cl.ws ≠ none →
    (s.view cl.ws).id = some cl.id ∧
    (R p → (s.view cl.ws).rank = some cl.rank) ∧
    (Q p → (s.view cl.ws).quota = some (cl.pixupdlimit.rate, cl.pixupdlimit.per))

/-- One more action is heard after the others. -/
theorem view_note (s : Server) (a : Action) (ws : Ws) :
  (s.note a).view ws = View.hear ws (s.view ws) a
  := List.foldl_concat _ _ _ _

/-- Messages stay readable if the one that is sent is. -/
theorem Readable.note {a : Action} (h : s.Readable)
    (ha : ∀ ws msg, a = .send ws .binary msg → (readMessage msg).isSome) :
  (s.note a).Readable
  := by
  intro ws msg hmem
  obtain hold | hnew := List.mem_append.mp hmem
  · exact h ws msg hold
  · exact ha ws msg (List.mem_singleton.mp hnew).symm

/-- What a message of the binary kind tells the one who gets it. -/
theorem view_send {ws ws' : Ws} {msg : Bytes} {told : Told} (h : readMessage msg = some told) :
  (s.note (.send ws .binary msg)).view ws'
    = if ws = ws' then (s.view ws').receive told else s.view ws'
  := by
  rw [view_note, View.hear, h]
  rfl

end Server

end Owop
