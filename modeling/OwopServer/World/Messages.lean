import OwopServer.Library.Records
import OwopServer.World.Updates

/-!
# The format of the `UPDATE` message

An `UPDATE` message has its kind, and then three lists of records, each with its length in front:
players, pixels and the ids of players who left.  The message that `World::send_updates` makes is
in this format whatever waits to be sent, and what it carries is the front of the three queues.
A queue has fewer than `2 ^ 32` entries, so that the `uint32_t` its entries are counted in is its
length.
-/

namespace Owop

/-! ### Records -/

/-- A player with its id. -/
def playerRecord : Record (UInt32 × PInfo) where
  size := 16
  bytes pl := uint32Bytes pl.1 ++ pl.2.bytes
  ofBytes bs := (uint32Of (bs.take 4), pinfoOf (bs.drop 4))
  length_bytes pl := by rw [List.length_append, length_uint32Bytes, PInfo.length_bytes]
  ofBytes_bytes pl := by
    rw [List.take_left' (length_uint32Bytes _), List.drop_left' (length_uint32Bytes _),
      uint32Of_uint32Bytes, pinfoOf_bytes]
  bytes_ofBytes bs h := by
    rw [uint32Bytes_uint32Of (by rw [List.length_take, h]; rfl),
      bytes_pinfoOf (by rw [List.length_drop, h]), List.take_append_drop]

/-- The update of a pixel. -/
def pixelRecord : Record PixUpd where
  size := 11
  bytes := PixUpd.bytes
  ofBytes := PixUpd.ofBytes
  length_bytes := PixUpd.length_bytes
  ofBytes_bytes := PixUpd.ofBytes_bytes
  bytes_ofBytes bs h := by
    obtain ⟨a, b, c, hrest⟩ := List.length_eq_three.mp
      (by rw [List.length_drop, h] : (bs.drop 8).length = 3)
    have hget := getD_drop_eight bs
    rw [hrest] at hget
    have hcut := int32Bytes_append_drop (by omega : 8 ≤ bs.length)
    rw [hrest] at hcut
    rw [PixUpd.bytes, PixUpd.ofBytes]
    dsimp only
    rw [← hget 0, ← hget 1, ← hget 2]
    exact hcut

/-- The id of a player. -/
def idRecord : Record UInt32 where
  size := 4
  bytes := uint32Bytes
  ofBytes := uint32Of
  length_bytes := length_uint32Bytes
  ofBytes_bytes := uint32Of_uint32Bytes
  bytes_ofBytes _ := uint32Bytes_uint32Of

/-! ### Messages -/

/-- What an `UPDATE` message carries. -/
structure Update where
  players : List (UInt32 × PInfo)
  pixels : List PixUpd
  left : List UInt32
  deriving DecidableEq

namespace Update

/-- The lengths fit in one, two and one bytes. -/
def Fits (u : Update) : Prop :=
  u.players.length < 256 ^ 1 ∧ u.pixels.length < 256 ^ 2 ∧ u.left.length < 256 ^ 1

/-- The message that carries an update. -/
def bytes (u : Update) : Bytes :=
  [ServerMessage.update.byte] ++ (playerRecord.writeCounted 1 u.players
    ++ (pixelRecord.writeCounted 2 u.pixels ++ idRecord.writeCounted 1 u.left))

end Update

/-- Read an `UPDATE` message to its end. -/
def parseUpdate (msg : Bytes) : Option Update := do
  guard (msg.take 1 = [ServerMessage.update.byte])
  let (players, rest) ← playerRecord.readCounted 1 (msg.drop 1)
  let (pixels, rest) ← pixelRecord.readCounted 2 rest
  let (left, rest) ← idRecord.readCounted 1 rest
  guard (rest = [])
  return ⟨players, pixels, left⟩

/-- The messages that can be read are those that carry an update, and carry only this one. -/
theorem parseUpdate_eq_some_iff {msg : Bytes} {u : Update} :
  parseUpdate msg = some u ↔ u.Fits ∧ msg = u.bytes
  := by
  constructor
  · intro h
    obtain ⟨_, hkind, h⟩ := Option.bind_eq_some_iff.mp h
    obtain ⟨⟨players, rest⟩, hplayers, h⟩ := Option.bind_eq_some_iff.mp h
    obtain ⟨⟨pixels, rest'⟩, hpixels, h⟩ := Option.bind_eq_some_iff.mp h
    obtain ⟨⟨left, rest''⟩, hleft, h⟩ := Option.bind_eq_some_iff.mp h
    obtain ⟨_, hend, h⟩ := Option.bind_eq_some_iff.mp h
    obtain rfl := Option.some.inj h
    have hkind' : msg.take 1 = [ServerMessage.update.byte] := by simpa using hkind
    have hend' : rest'' = [] := by simpa using hend
    obtain ⟨hnplayers, hrest⟩ := playerRecord.readCounted_eq_some_iff.mp hplayers
    obtain ⟨hnpixels, rfl⟩ := pixelRecord.readCounted_eq_some_iff.mp hpixels
    obtain ⟨hnleft, rfl⟩ := idRecord.readCounted_eq_some_iff.mp hleft
    refine ⟨⟨hnplayers, hnpixels, hnleft⟩, ?_⟩
    rw [← List.take_append_drop 1 msg, hkind', hrest, hend', List.append_nil]
    rfl
  · rintro ⟨⟨hplayers, hpixels, hleft⟩, rfl⟩
    have hthird := idRecord.readCounted_writeCounted hleft []
    rw [List.append_nil] at hthird
    rw [parseUpdate, Update.bytes, List.singleton_append, List.take_succ_cons, List.take_zero,
      List.drop_succ_cons, List.drop_zero, guard, if_pos rfl]
    simp only [Option.bind_eq_bind, Option.pure_def, Option.bind_some,
      playerRecord.readCounted_writeCounted hplayers, pixelRecord.readCounted_writeCounted hpixels,
      hthird]
    rfl

/-- The message of an update carries it. -/
theorem parseUpdate_bytes {u : Update} (h : u.Fits) :
  parseUpdate u.bytes = some u
  := parseUpdate_eq_some_iff.mpr ⟨h, rfl⟩

/-- Different updates have different messages. -/
theorem Update.bytes_injOn :
  Set.InjOn Update.bytes {u | u.Fits}
  := by
  intro u hu v hv heq
  have hread := parseUpdate_bytes hu
  rw [heq, parseUpdate_bytes hv] at hread
  exact (Option.some.inj hread).symm

/-! ### The tick -/

namespace World

/-- What a tick sends: the front of each queue. -/
def update (w : World) (info : ClientPtr → UInt32 × PInfo) : Update :=
  ⟨(w.plupdates.take worldMaxPlayerUpdates).map info, w.pxupdates.take worldMaxPixelUpdates,
    w.plleft.take worldMaxPlayerLeftUpdates⟩

theorem update_fits (w : World) (info : ClientPtr → UInt32 × PInfo) :
  (w.update info).Fits
  := by
  and_intros
  · rw [update, List.length_map, List.length_take, worldMaxPlayerUpdates]
    omega
  · rw [update, List.length_take, worldMaxPixelUpdates]
    omega
  · rw [update, List.length_take, worldMaxPlayerLeftUpdates]
    omega

/-- The message of a tick is in the format. -/
theorem updateMsg_eq (w : World) (info : ClientPtr → UInt32 × PInfo) :
  updateMsg info (w.plupdates.take worldMaxPlayerUpdates) (w.pxupdates.take worldMaxPixelUpdates)
    (w.plleft.take worldMaxPlayerLeftUpdates) = (w.update info).bytes
  := by
  have hone : ∀ n, Bytes.leBytes 1 n = [UInt8.ofNat n] := fun n => rfl
  simp only [updateMsg, Update.bytes, update, Record.writeCounted, Record.write, hone,
    List.length_map, List.flatMap_map, playerRecord, pixelRecord, idRecord]
  rfl

theorem ticked_queues (w : World) :
  w.ticked.plupdates = w.plupdates.drop worldMaxPlayerUpdates ∧
    w.ticked.plleft = w.plleft.drop worldMaxPlayerLeftUpdates
  := by
  rw [ticked]
  split
  · exact ⟨rfl, rfl⟩
  · exact ⟨rfl, rfl⟩

/-- Whatever waits, a tick writes its message in the buffer for it, and sends a message that can
be read as the front of each queue and as nothing else; the players and the ids that were not
sent still wait. -/
theorem sendUpdates_wellFormed (w : World) (info : ClientPtr → UInt32 × PInfo) :
  ∃ msg, (w.sendUpdatesMsg info).map Prod.fst = some msg ∧
    (w.sendUpdates info).2 = [.all .binary msg] ∧
    parseUpdate msg = some ⟨(w.plupdates.take worldMaxPlayerUpdates).map info,
      w.pxupdates.take worldMaxPixelUpdates, w.plleft.take worldMaxPlayerLeftUpdates⟩ ∧
    (∀ u : Update, u.Fits → u.bytes = msg → u = ⟨(w.plupdates.take worldMaxPlayerUpdates).map info,
      w.pxupdates.take worldMaxPixelUpdates, w.plleft.take worldMaxPlayerLeftUpdates⟩) ∧
    (w.sendUpdates info).1.plupdates = w.plupdates.drop worldMaxPlayerUpdates ∧
    (w.sendUpdates info).1.plleft = w.plleft.drop worldMaxPlayerLeftUpdates
  := by
  have hfits := w.update_fits info
  have hqueues := ticked_queues { w with updActive := false }
  refine ⟨(w.update info).bytes, ?_, ?_, parseUpdate_bytes hfits, ?_, ?_, ?_⟩
  · rw [sendUpdatesMsg_spec, Option.map_some, updateMsg_eq]
  · rw [sendUpdates, sendUpdatesMsg_spec, ← updateMsg_eq]
  · intro u hu heq
    exact Update.bytes_injOn hu hfits heq
  · rw [sendUpdates, sendUpdatesMsg_spec]
    exact hqueues.1
  · rw [sendUpdates, sendUpdatesMsg_spec]
    exact hqueues.2

end World

end Owop
