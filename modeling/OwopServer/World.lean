import OwopServer.Compression
import OwopServer.Database
import OwopServer.Library.Buffer
import OwopServer.Numbers

/-!
# Worlds

The class `World` of `world.cpp`, with the parts of `Chunk` that need its database: the
loaded chunks, which are read when first needed and written when evicted or saved, the
updates waiting for the next tick, and the operations of clients on them.  An operation takes
the file system and returns it, with the messages sent.
-/

namespace Owop

/-- The address of a `Client`. -/
abbrev ClientPtr := ℕ

/-- The identity of a WebSocket. -/
abbrev Ws := ℕ

/-- A message sent by an operation of a world. -/
inductive Out where
  /-- to every client of the world -/
  | all (op : OpCode) (msg : Bytes)
  /-- to one connection -/
  | one (ws : Ws) (op : OpCode) (msg : Bytes)
  deriving DecidableEq

/-- Insertion into a `std::set`. -/
def setInsert {α : Type*} [DecidableEq α] (r : α → α → Prop) [DecidableRel r] (a : α)
    (s : List α) : List α :=
  if a ∈ s then s else s.orderedInsert r a

/-- Removal from a set. -/
def setErase {α : Type*} [DecidableEq α] (a : α) (s : List α) : List α := s.filter fun b => b ≠ a

section

variable {α : Type*} [DecidableEq α] {r : α → α → Prop} [DecidableRel r] {a b : α} {s : List α}

/-- What is in a set to which one was added. -/
@[simp]
theorem mem_setInsert :
  b ∈ setInsert r a s ↔ b = a ∨ b ∈ s
  := by
  rw [setInsert]
  split
  case isTrue ha =>
    constructor
    · exact Or.inr
    · rintro (rfl | hb)
      · exact ha
      · exact hb
  case isFalse ha => exact List.mem_orderedInsert r

/-- Nothing is twice in a set to which one was added. -/
theorem nodup_setInsert (h : s.Nodup) :
  (setInsert r a s).Nodup
  := by
  rw [setInsert]
  split
  case isTrue ha => exact h
  case isFalse ha => exact (List.perm_orderedInsert r a s).nodup_iff.mpr (List.nodup_cons.mpr ⟨ha, h⟩)

/-- What is in a set from which one was taken. -/
@[simp]
theorem mem_setErase :
  b ∈ setErase a s ↔ b ∈ s ∧ b ≠ a
  := by
  simp [setErase]

/-- What is in a set to which others were added. -/
@[simp]
theorem mem_foldl_setInsert {l : List α} :
  b ∈ l.foldl (fun s a => setInsert r a s) s ↔ b ∈ l ∨ b ∈ s
  := by
  induction l generalizing s with
  | nil => simp
  | cons a l ih =>
      rw [List.foldl_cons, ih, mem_setInsert, List.mem_cons]
      tauto

end

/-! ### Chunks and their database -/

namespace Chunk

variable [Platform]

/-- The constructor `Chunk::Chunk`. -/
def new (cx cy : Int32) (bgclr : UInt32) (db : Database) (d : Disk) : Chunk × Database × Disk :=
  let ranked := db.getChunkProtection cx cy
  let (read, data, db, d) := db.getChunk d cx cy (Data.tabulate (Platform.junk d.tick))
  let data := if read then data else Data.fill bgclr
  (⟨bgclr, cx, cy, data, false, ranked⟩, db, d)

/-- `Chunk::save` -/
def save (c : Chunk) (db : Database) (d : Disk) : Chunk × Database × Disk :=
  if c.changed then
    let (db, d) := db.setChunk d c.cx c.cy c.data
    ({ c with changed := false }, db, d)
  else (c, db, d)

end Chunk

/-! ### Worlds -/

/-- `World`.  Of the timer `upd_hdl` it is kept whether it is active. -/
structure World where
  bgclr : UInt32
  pids : UInt32
  paintrate : UInt16
  defaultRank : Rank
  updActive : Bool
  db : Database
  pass : Bytes
  clients : List ClientPtr
  chunks : AList fun _ : ChunkPos => Chunk
  pxupdates : List PixUpd
  plupdates : List ClientPtr
  plleft : List UInt32
  name : Bytes

namespace World

/-! ### Clients and scheduled updates -/

/-- `World::sched_updates` -/
def schedUpdates (w : World) : World := { w with updActive := true }

/-- `World::get_id` -/
def getId (w : World) : UInt32 × World := (w.pids + 1, { w with pids := w.pids + 1 })

/-- `World::update_all_clients` -/
def updateAllClients (w : World) : World :=
  { w with plupdates := w.clients.foldl (fun s cl => setInsert (· ≤ ·) cl s) w.plupdates }

/-- `World::upd_cli` -/
def updCli (w : World) (cl : ClientPtr) : World :=
  schedUpdates { w with plupdates := setInsert (· ≤ ·) cl w.plupdates }

/-- The end of `World::add_cli`, which adds the client. -/
def addCli (w : World) (cl : ClientPtr) : World :=
  schedUpdates (updateAllClients { w with clients := setInsert (· ≤ ·) cl w.clients })

/-- `World::rm_cli` for the client `cl` with the given id. -/
def rmCli (w : World) (cl : ClientPtr) (id : UInt32) : World :=
  let w := { w with
    plleft := setInsert (· ≤ ·) id w.plleft
    clients := setErase cl w.clients
    plupdates := setErase cl w.plupdates }
  if w.clients = [] then w else w.schedUpdates

/-- `World::is_empty` -/
def isEmpty (w : World) : Bool := w.clients.isEmpty

/-- `World::is_pass` -/
def isPass (w : World) (p : Bytes) : Bool := p == w.pass

/-- `World::broadcast` -/
def broadcast (msg : Bytes) : List Out := [.all .text msg]

/-! ### Properties -/

/-- `World::getProp` -/
def getProp (w : World) (key : Bytes) (defval : Bytes) : Bytes := w.db.getProp key defval

/-- `World::setProp` -/
def setProp (w : World) (key value : Bytes) : World := { w with db := w.db.setProp key value }

/-- The text broadcast for an exception in `World::reload`. -/
def reloadError : NumError → Bytes
  | .invalidArgument => Bytes.ofString
      "DEVException while reloading world properties. (std::invalid_argument)"
  | .outOfRange => Bytes.ofString
      "DEVException while reloading world properties. (std::out_of_range)"

/-- The background colour for the value of the property `bgcolor`, red first. -/
def bgclrOf (n : ℕ) : UInt32 :=
  let bgclr := UInt32.ofNat n
  (bgclr &&& (0xFF : UInt32)) <<< (16 : UInt32) ||| bgclr &&& (0xFF00 : UInt32) |||
    (bgclr &&& (0xFF0000 : UInt32)) >>> (16 : UInt32)

/-- `World::reload` -/
def reload (w : World) : World × List Out :=
  let w := { w with pass := w.getProp (Bytes.ofString "password") [] }
  match stoul 10 (w.getProp (Bytes.ofString "paintrate") (Bytes.ofString "32")) with
  | .error e => (w, broadcast (reloadError e))
  | .ok n =>
      let r := UInt32.ofNat n
      let r := if r > 0xFFFF then 0xFFFF else r
      let w := { w with paintrate := r.toUInt16 }
      match stoul 16 (w.getProp (Bytes.ofString "bgcolor") (Bytes.ofString "FFFFFF")) with
      | .error e => (w, broadcast (reloadError e))
      | .ok n => ({ w with bgclr := bgclrOf n }, [])

/-! ### The tick -/

/-- What `World::send_updates` does with the players waiting: the bytes go to `upd` from
`offs` on, and the result has the number of players sent and those that still wait. -/
def sendPlayers (info : ClientPtr → UInt32 × PInfo) :
    List ClientPtr → ℕ → Buffer → ℕ → Option (Buffer × ℕ × ℕ × List ClientPtr)
  | [], tmp, upd, offs => some (upd, offs, tmp, [])
  | cl :: rest, tmp, upd, offs =>
      if tmp ≥ worldMaxPlayerUpdates then some (upd, offs, tmp, cl :: rest)
      else do
        let upd ← upd.write offs (uint32Bytes (info cl).1)
        let upd ← upd.write (offs + 4) (info cl).2.bytes
        sendPlayers info rest (tmp + 1) upd (offs + 16)

/-- What `World::send_updates` does with the pixels waiting. -/
def sendPixels : List PixUpd → ℕ → Buffer → ℕ → Option (Buffer × ℕ)
  | [], _, upd, offs => some (upd, offs)
  | px :: rest, tmp, upd, offs => do
      let upd ← upd.write offs px.bytes
      if tmp + 1 ≥ worldMaxPixelUpdates then some (upd, offs + 11)
      else sendPixels rest (tmp + 1) upd (offs + 11)

/-- What `World::send_updates` does with the ids of players who left. -/
def sendLeft : List UInt32 → ℕ → Buffer → ℕ → Option (Buffer × ℕ × List UInt32)
  | [], _, upd, offs => some (upd, offs, [])
  | pl :: rest, tmp, upd, offs =>
      if tmp ≥ worldMaxPlayerLeftUpdates then some (upd, offs, pl :: rest)
      else do
        let upd ← upd.write offs (uint32Bytes pl)
        sendLeft rest (tmp + 1) upd (offs + 4)

/-- The message of `World::send_updates` and the world after it; `info` gives the id and the
position of a client.  The sizes of `pxupdates` and `plleft` are natural numbers here; they stay
below `2 ^ 32`, so that `tmp`, a `uint32_t`, holds them. -/
def sendUpdatesMsg (w : World) (info : ClientPtr → UInt32 × PInfo) : Option (Bytes × World) := do
  let upd := Buffer.fresh (1 + 1 + w.plupdates.length * 16 + 2 + w.pxupdates.length * 11
    + 1 + 4 * w.plleft.length)
  let upd ← upd.write 0 [ServerMessage.update.byte]
  let (upd, offs, tmp, plupdates) ← sendPlayers info w.plupdates 0 upd 2
  let upd ← upd.write 1 [UInt8.ofNat tmp]
  let tmp := if w.pxupdates.length ≥ worldMaxPixelUpdates then worldMaxPixelUpdates
    else w.pxupdates.length
  let upd ← upd.write offs (Bytes.leBytes 2 tmp)
  let (upd, offs) ← sendPixels w.pxupdates 0 upd (offs + 2)
  let tmp := if w.plleft.length ≥ worldMaxPlayerLeftUpdates then worldMaxPlayerLeftUpdates
    else w.plleft.length
  let upd ← upd.write offs (Bytes.leBytes 1 tmp)
  let (upd, offs, plleft) ← sendLeft w.plleft 0 upd (offs + 1)
  let msg ← upd.contents offs
  let w := { w with plupdates := plupdates, pxupdates := [], plleft := plleft }
  let pendingUpdates := plupdates ≠ [] ∨ plleft ≠ []
  return (msg, if pendingUpdates then w.schedUpdates else w)

/-- `World::send_updates`, called by the timer, which is inactive then. -/
def sendUpdates (w : World) (info : ClientPtr → UInt32 × PInfo) : World × List Out :=
  let w := { w with updActive := false }
  match w.sendUpdatesMsg info with
  | some (msg, w) => (w, [.all .binary msg])
  | none => (w, [])

/-! ### Chunks -/

/-- The chunk coordinates the server accepts. -/
def inRange (x y : Int32) : Prop :=
  ¬ (x > worldMaxChunkXY ∨ y > worldMaxChunkXY ∨ x < ~~~worldMaxChunkXY ∨ y < ~~~worldMaxChunkXY)

instance (x y : Int32) : Decidable (inRange x y) := by
  unfold inRange
  infer_instance

/-- Change the loaded chunk at `pos` to `c`. -/
def putChunk (w : World) (pos : ChunkPos) (c : Chunk) : World :=
  { w with chunks := w.chunks.insert pos c }

variable [Platform]

/-- Save the chunk at `pos`, if it is loaded. -/
def saveChunk (s : World × Disk) (pos : ChunkPos) : World × Disk :=
  match s.1.chunks.lookup pos with
  | none => s
  | some c =>
      let (c, db, d) := c.save s.1.db s.2
      ({ s.1 with db := db, chunks := s.1.chunks.insert pos c }, d)

/-- Save and drop the last chunk of `chunks`. -/
def evict (w : World) (d : Disk) : World × Disk :=
  let (i, d) := d.choose w.chunks.keys.length
  let pos := w.chunks.keys.getD i (0, 0)
  let (w, d) := saveChunk (w, d) pos
  ({ w with chunks := w.chunks.erase pos }, d)

/-- `World::get_chunk`: the chunk, unless the coordinates are out of range. -/
def getChunk (w : World) (d : Disk) (x y : Int32) : Option Chunk × World × Disk :=
  if ¬ inRange x y then (none, w, d)
  else
    match w.chunks.lookup (x, y) with
    | some chunk => (some chunk, w, d)
    | none =>
        let (w, d) := if w.chunks.keys.length > worldMaxChunksLoaded then w.evict d else (w, d)
        let (chunk, db, d) := Chunk.new x y w.bgclr w.db d
        (some chunk, { w with db := db, chunks := w.chunks.insert (x, y) chunk }, d)

/-- `World::send_chunk` -/
def sendChunk (w : World) (d : Disk) (ws : Ws) (x y : Int32) : World × Disk × List Out :=
  match w.getChunk d x y with
  | (some c, w, d) => (w, d, [.one ws .binary c.dataMsg])
  | (none, w, d) => (w, d, [])

/-- `World::del_chunk` -/
def delChunk (w : World) (d : Disk) (x y : Int32) : World × Disk × List Out :=
  match w.getChunk d x y with
  | (some c, w, d) => (w.putChunk (x, y) c.clear, d, [.all .binary c.clear.dataMsg])
  | (none, w, d) => (w, d, [])

/-- `World::paste_chunk` -/
def pasteChunk (w : World) (d : Disk) (x y : Int32) (data : Data) : World × Disk × List Out :=
  match w.getChunk d x y with
  | (some c, w, d) =>
      (w.putChunk (x, y) (c.setDataFrom data), d, [.all .binary (c.setDataFrom data).dataMsg])
  | (none, w, d) => (w, d, [])

/-- `World::put_px`: whether a pixel changed.  The rank of the placer is not looked at. -/
def putPx (w : World) (d : Disk) (x y : Int32) (clr : RGB) (_placerRank : Rank) :
    Bool × World × Disk :=
  match w.getChunk d (chunkOf x) (chunkOf y) with
  | (some c, w, d) =>
      let (set, c) := c.setData (low4 x) (low4 y) clr
      if set then
        let w := w.putChunk (chunkOf x, chunkOf y) c
        (true, schedUpdates { w with pxupdates := w.pxupdates ++ [⟨x, y, clr.r, clr.g, clr.b⟩] },
          d)
      else (false, w, d)
  | (none, w, d) => (false, w, d)

/-- `World::setChunkProtection` -/
def setChunkProtection (w : World) (d : Disk) (x y : Int32) (state : Bool) :
    World × Disk × List Out :=
  let w := { w with db := w.db.setChunkProtection x y state }
  match w.getChunk d x y with
  | (some c, w, d) =>
      (w.putChunk (x, y) { c with ranked := state }, d, [.all .binary
        ([ServerMessage.chunkProtected.byte] ++ int32Bytes x ++ int32Bytes y ++ [boolByte state])])
  | (none, w, d) => (w, d, [])

/-! ### Loading and unloading -/

/-- The directory of the world called `name`. -/
def dirOf (path name : Bytes) : Bytes := path ++ name ++ Bytes.ofString "/"

/-- The constructor `World::World`. -/
def new (path name : Bytes) (d : Disk) : World × Disk :=
  let (db, d) := Database.new (dirOf path name) d
  ((reload ⟨0xFFFFFF, 0, 32, Rank.user, false, db, [], [], ∅, [], [], [], name⟩).1, d)

/-- `World::save` -/
def save (w : World) (d : Disk) : World × Disk :=
  let (w, d) := w.chunks.keys.foldl saveChunk (w, d)
  let (db, d) := w.db.save d
  ({ w with db := db }, d)

/-- The destructor `World::~World`: what is left is the file system. -/
def delete (w : World) (d : Disk) : Disk :=
  let (w, d) := w.chunks.keys.foldl saveChunk (w, d)
  w.db.delete d

end World

end Owop
