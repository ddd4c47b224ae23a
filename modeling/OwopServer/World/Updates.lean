import OwopServer.Library.Runs
import OwopServer.World.Pixels

/-!
# Pixel updates

The tick of a world sends the pixels accepted since the last tick, up to a limit, and forgets
them all.  The message it sends is read back here, and the pixels sent over a run of ticks are
compared with the pixels accepted.
-/

namespace Owop

/-! ### The message -/

/-- The pixel update with the given eleven bytes. -/
def PixUpd.ofBytes (bs : Bytes) : PixUpd :=
  ⟨int32Of (bs.slice 0 4), int32Of (bs.slice 4 4), bs.getD 8 0, bs.getD 9 0, bs.getD 10 0⟩

/-- A pixel is read back. -/
@[simp]
theorem PixUpd.ofBytes_bytes (p : PixUpd) :
  PixUpd.ofBytes p.bytes = p
  := by
  have hx : Bytes.slice p.bytes 0 4 = int32Bytes p.x :=
    Bytes.slice_of_eq (a := []) rfl rfl (length_int32Bytes _)
  have hy : Bytes.slice p.bytes 4 4 = int32Bytes p.y :=
    Bytes.slice_of_eq (c := [p.r, p.g, p.b]) (by rw [PixUpd.bytes, List.append_assoc])
      (length_int32Bytes _) (length_int32Bytes _)
  have hrest : ∀ i, p.bytes.getD (8 + i) 0 = [p.r, p.g, p.b].getD i 0 := by
    intro i
    rw [PixUpd.bytes, List.getD_append_right _ _ _ _ (by simp)]
    simp
  have hr := hrest 0
  have hg := hrest 1
  have hb := hrest 2
  simp only [Nat.add_zero, Nat.reduceAdd] at hr hg hb
  rw [PixUpd.ofBytes, hx, hy, hr, hg, hb, int32Of_int32Bytes, int32Of_int32Bytes]
  rfl

/-- The pixels an `UPDATE` message carries: behind the kind, the number of players and
sixteen bytes for each of them. -/
def updatePixels (m : Bytes) : List PixUpd :=
  if m.head? = some ServerMessage.update.byte then
    let offs := 2 + 16 * (m.getD 1 0).toNat
    (List.range (Bytes.leNat (m.slice offs 2))).map fun i =>
      PixUpd.ofBytes (m.slice (offs + 2 + 11 * i) 11)
  else []

namespace World

/-- The bytes of a player in an `UPDATE` message. -/
def playerBytes (info : ClientPtr → UInt32 × PInfo) (cl : ClientPtr) : Bytes :=
  uint32Bytes (info cl).1 ++ (info cl).2.bytes

/-- A player takes 16 bytes. -/
theorem length_playerBytes (info : ClientPtr → UInt32 × PInfo) (cl : ClientPtr) :
  (playerBytes info cl).length = 16
  := by
  rw [playerBytes, List.length_append, length_uint32Bytes, PInfo.length_bytes]

/-- Entries that all take the same. -/
theorem length_flatMap_const {α : Type*} {f : α → Bytes} {k : ℕ} (h : ∀ a, (f a).length = k)
    (as : List α) :
  (as.flatMap f).length = k * as.length
  := by
  induction as with
  | nil => rfl
  | cons a as ih =>
      rw [List.flatMap_cons, List.length_append, h, ih, List.length_cons, Nat.mul_succ]
      omega

/-- The players sent are the first ones that wait. -/
theorem sendPlayers_spec (info : ClientPtr → UInt32 × PInfo) (l : Buffer) (ps : List ClientPtr)
    (ws : Bytes) (tmp n : ℕ) (htmp : tmp ≤ worldMaxPlayerUpdates) (hn : 16 * ps.length ≤ n) :
  sendPlayers info ps tmp (l ++ Buffer.filled ws n) (l.length + ws.length)
    = some (l ++ Buffer.filled
          (ws ++ (ps.take (worldMaxPlayerUpdates - tmp)).flatMap (playerBytes info))
          (n - 16 * (ps.take (worldMaxPlayerUpdates - tmp)).length),
        l.length + ws.length + 16 * (ps.take (worldMaxPlayerUpdates - tmp)).length,
        tmp + (ps.take (worldMaxPlayerUpdates - tmp)).length,
        ps.drop (worldMaxPlayerUpdates - tmp))
  := by
  induction ps generalizing ws tmp n with
  | nil => simp [sendPlayers]
  | cons cl ps ih =>
      rw [List.length_cons] at hn
      rw [sendPlayers]
      split
      case isTrue hfull =>
        rw [show worldMaxPlayerUpdates - tmp = 0 by omega]
        simp
      case isFalse hroom =>
        obtain ⟨k, hk⟩ : ∃ k, worldMaxPlayerUpdates - tmp = k + 1 :=
          ⟨worldMaxPlayerUpdates - tmp - 1, by omega⟩
        have hid := Buffer.write_append_filled l ws (uint32Bytes (info cl).1) (n := n)
          (by rw [length_uint32Bytes]; omega)
        have hpos := Buffer.write_append_filled l (ws ++ uint32Bytes (info cl).1)
          (info cl).2.bytes (n := n - 4) (by rw [PInfo.length_bytes]; omega)
        rw [length_uint32Bytes] at hid
        rw [List.length_append, length_uint32Bytes, ← Nat.add_assoc, List.append_assoc,
          PInfo.length_bytes] at hpos
        have hnext := ih (ws ++ playerBytes info cl) (tmp + 1) (n - 16) (by omega) (by omega)
        rw [List.length_append, length_playerBytes, ← Nat.add_assoc,
          show worldMaxPlayerUpdates - (tmp + 1) = k by omega] at hnext
        simp only [Option.bind_eq_bind, hid, hpos, Option.bind_some]
        rw [show n - 4 - 12 = n - 16 by omega, ← playerBytes, hnext, hk, List.take_succ_cons,
          List.drop_succ_cons, List.flatMap_cons, List.length_cons, List.append_assoc,
          show n - 16 * ((ps.take k).length + 1) = n - 16 - 16 * (ps.take k).length by omega,
          show l.length + ws.length + 16 * ((ps.take k).length + 1)
            = l.length + ws.length + 16 + 16 * (ps.take k).length by omega,
          show tmp + ((ps.take k).length + 1) = tmp + 1 + (ps.take k).length by omega]

/-- The pixels sent are the first ones that wait. -/
theorem sendPixels_spec (l : Buffer) (us : List PixUpd) (ws : Bytes) (tmp n : ℕ)
    (htmp : tmp < worldMaxPixelUpdates) (hn : 11 * us.length ≤ n) :
  sendPixels us tmp (l ++ Buffer.filled ws n) (l.length + ws.length)
    = some (l ++ Buffer.filled
          (ws ++ (us.take (worldMaxPixelUpdates - tmp)).flatMap PixUpd.bytes)
          (n - 11 * (us.take (worldMaxPixelUpdates - tmp)).length),
        l.length + ws.length + 11 * (us.take (worldMaxPixelUpdates - tmp)).length)
  := by
  induction us generalizing ws tmp n with
  | nil => simp [sendPixels]
  | cons px us ih =>
      rw [List.length_cons] at hn
      obtain ⟨k, hk⟩ : ∃ k, worldMaxPixelUpdates - tmp = k + 1 :=
        ⟨worldMaxPixelUpdates - tmp - 1, by omega⟩
      have hpx := Buffer.write_append_filled l ws px.bytes (n := n)
        (by rw [PixUpd.length_bytes]; omega)
      rw [PixUpd.length_bytes] at hpx
      rw [sendPixels]
      simp only [Option.bind_eq_bind, hpx, Option.bind_some]
      rw [hk, List.take_succ_cons, List.flatMap_cons, List.length_cons,
        show n - 11 * ((us.take k).length + 1) = n - 11 - 11 * (us.take k).length by omega,
        show l.length + ws.length + 11 * ((us.take k).length + 1)
          = l.length + ws.length + 11 + 11 * (us.take k).length by omega]
      split
      case isTrue hfull =>
        rw [show k = 0 by omega]
        simp
      case isFalse hroom =>
        have hnext := ih (ws ++ px.bytes) (tmp + 1) (n - 11) (by omega) (by omega)
        rw [List.length_append, PixUpd.length_bytes, ← Nat.add_assoc,
          show worldMaxPixelUpdates - (tmp + 1) = k by omega] at hnext
        rw [hnext, List.append_assoc]

/-- The ids sent are the first ones that wait. -/
theorem sendLeft_spec (l : Buffer) (ids : List UInt32) (ws : Bytes) (tmp n : ℕ)
    (htmp : tmp ≤ worldMaxPlayerLeftUpdates) (hn : 4 * ids.length ≤ n) :
  sendLeft ids tmp (l ++ Buffer.filled ws n) (l.length + ws.length)
    = some (l ++ Buffer.filled
          (ws ++ (ids.take (worldMaxPlayerLeftUpdates - tmp)).flatMap uint32Bytes)
          (n - 4 * (ids.take (worldMaxPlayerLeftUpdates - tmp)).length),
        l.length + ws.length + 4 * (ids.take (worldMaxPlayerLeftUpdates - tmp)).length,
        ids.drop (worldMaxPlayerLeftUpdates - tmp))
  := by
  induction ids generalizing ws tmp n with
  | nil => simp [sendLeft]
  | cons id ids ih =>
      rw [List.length_cons] at hn
      rw [sendLeft]
      split
      case isTrue hfull =>
        rw [show worldMaxPlayerLeftUpdates - tmp = 0 by omega]
        simp
      case isFalse hroom =>
        obtain ⟨k, hk⟩ : ∃ k, worldMaxPlayerLeftUpdates - tmp = k + 1 :=
          ⟨worldMaxPlayerLeftUpdates - tmp - 1, by omega⟩
        have hid := Buffer.write_append_filled l ws (uint32Bytes id) (n := n)
          (by rw [length_uint32Bytes]; omega)
        rw [length_uint32Bytes] at hid
        have hnext := ih (ws ++ uint32Bytes id) (tmp + 1) (n - 4) (by omega) (by omega)
        rw [List.length_append, length_uint32Bytes, ← Nat.add_assoc,
          show worldMaxPlayerLeftUpdates - (tmp + 1) = k by omega] at hnext
        simp only [Option.bind_eq_bind, hid, Option.bind_some]
        rw [hnext, hk, List.take_succ_cons, List.drop_succ_cons, List.flatMap_cons,
          List.length_cons, List.append_assoc,
          show n - 4 * ((ids.take k).length + 1) = n - 4 - 4 * (ids.take k).length by omega,
          show l.length + ws.length + 4 * ((ids.take k).length + 1)
            = l.length + ws.length + 4 + 4 * (ids.take k).length by omega]

/-- An `UPDATE` message with the given players, pixels and ids. -/
def updateMsg (info : ClientPtr → UInt32 × PInfo) (ps : List ClientPtr) (us : List PixUpd)
    (ids : List UInt32) : Bytes :=
  [ServerMessage.update.byte, UInt8.ofNat ps.length] ++ (ps.flatMap (playerBytes info)
    ++ (Bytes.leBytes 2 us.length ++ (us.flatMap PixUpd.bytes
    ++ (Bytes.leBytes 1 ids.length ++ ids.flatMap uint32Bytes))))

/-- The world after a tick. -/
def ticked (w : World) : World :=
  let plupdates := w.plupdates.drop worldMaxPlayerUpdates
  let plleft := w.plleft.drop worldMaxPlayerLeftUpdates
  let w := { w with plupdates := plupdates, pxupdates := [], plleft := plleft }
  if plupdates ≠ [] ∨ plleft ≠ [] then w.schedUpdates else w

/-- The buffer with the kind of the message written. -/
theorem write_kind (b : UInt8) (m : ℕ) :
  Buffer.write (Buffer.fresh (1 + 1 + m)) 0 [b] = some ([some b, none] ++ Buffer.filled [] m)
  := by
  have h := Buffer.write_filled [] [b] (n := 1 + 1 + m) (by rw [List.length_singleton]; omega)
  rw [Buffer.fresh_eq_filled]
  refine h.trans ?_
  rw [List.length_singleton, show 1 + 1 + m - 1 = m + 1 by omega]
  simp [Buffer.filled, List.replicate_succ]

/-- The first `n` entries of a queue, counted as `send_updates` counts them. -/
theorem count_eq (n m : ℕ) :
  (if n ≥ m then m else n) = min m n
  := by
  split
  · omega
  · omega

/-- A tick sends what waits, up to the limits, and forgets all the pixels. -/
theorem sendUpdatesMsg_spec (w : World) (info : ClientPtr → UInt32 × PInfo) :
  w.sendUpdatesMsg info
    = some (updateMsg info (w.plupdates.take worldMaxPlayerUpdates)
        (w.pxupdates.take worldMaxPixelUpdates) (w.plleft.take worldMaxPlayerLeftUpdates),
        w.ticked)
  := by
  generalize hps : w.plupdates.take worldMaxPlayerUpdates = ps
  generalize hus : w.pxupdates.take worldMaxPixelUpdates = us
  generalize hids : w.plleft.take worldMaxPlayerLeftUpdates = ids
  have hpslen : ps.length ≤ w.plupdates.length := by
    rw [← hps, List.length_take]
    omega
  have huslen : us.length = min worldMaxPixelUpdates w.pxupdates.length := by
    rw [← hus, List.length_take]
  have hidslen : ids.length = min worldMaxPlayerLeftUpdates w.plleft.length := by
    rw [← hids, List.length_take]
  obtain ⟨m, hm⟩ : ∃ m, m = w.plupdates.length * 16 + 2 + w.pxupdates.length * 11 + 1
    + 4 * w.plleft.length := ⟨_, rfl⟩
  have hsize : 1 + 1 + w.plupdates.length * 16 + 2 + w.pxupdates.length * 11 + 1
      + 4 * w.plleft.length = 1 + 1 + m := by omega
  -- the kind, the players and their number
  have hkind := write_kind ServerMessage.update.byte m
  have hplayers := sendPlayers_spec info [some ServerMessage.update.byte, none] w.plupdates [] 0 m
    (by omega) (by omega)
  rw [Nat.sub_zero, hps, List.nil_append, Nat.zero_add] at hplayers
  obtain ⟨l, hl⟩ : ∃ l : Buffer, l = [some ServerMessage.update.byte, some (UInt8.ofNat ps.length)] :=
    ⟨_, rfl⟩
  have hnumber : Buffer.write ([some ServerMessage.update.byte, none]
      ++ Buffer.filled (ps.flatMap (playerBytes info)) (m - 16 * ps.length)) 1
        [UInt8.ofNat ps.length]
      = some (l ++ Buffer.filled (ps.flatMap (playerBytes info)) (m - 16 * ps.length)) := by
    rw [hl]
    exact Buffer.write_middle [some ServerMessage.update.byte] [none] _ [UInt8.ofNat ps.length] rfl
  -- the pixels and their number
  have hllen : l.length = 2 := by
    rw [hl]
    rfl
  have hpslen' := length_flatMap_const (length_playerBytes info) ps
  have hcount := Buffer.write_append_filled l (ps.flatMap (playerBytes info))
    (Bytes.leBytes 2 us.length) (n := m - 16 * ps.length) (by rw [Bytes.length_leBytes]; omega)
  have hpixels := sendPixels_spec l w.pxupdates
    (ps.flatMap (playerBytes info) ++ Bytes.leBytes 2 us.length) 0 (m - 16 * ps.length - 2)
    (by decide) (by omega)
  rw [Nat.sub_zero, hus] at hpixels
  -- the ids and their number
  have huslen' := length_flatMap_const PixUpd.length_bytes us
  have hleft := Buffer.write_append_filled l
    (ps.flatMap (playerBytes info) ++ Bytes.leBytes 2 us.length ++ us.flatMap PixUpd.bytes)
    (Bytes.leBytes 1 ids.length) (n := m - 16 * ps.length - 2 - 11 * us.length)
    (by rw [Bytes.length_leBytes]; omega)
  have hgone := sendLeft_spec l w.plleft
    (ps.flatMap (playerBytes info) ++ Bytes.leBytes 2 us.length ++ us.flatMap PixUpd.bytes
      ++ Bytes.leBytes 1 ids.length) 0 (m - 16 * ps.length - 2 - 11 * us.length - 1)
    (by decide) (by omega)
  rw [Nat.sub_zero, hids] at hgone
  -- the message
  have hidslen' := length_flatMap_const length_uint32Bytes ids
  have hmsg := Buffer.contents_filled (updateMsg info ps us ids)
    (m - 16 * ps.length - 2 - 11 * us.length - 1 - 4 * ids.length)
  have hfilled : Buffer.filled (updateMsg info ps us ids)
      (m - 16 * ps.length - 2 - 11 * us.length - 1 - 4 * ids.length)
        = l ++ Buffer.filled (ps.flatMap (playerBytes info) ++ Bytes.leBytes 2 us.length
          ++ us.flatMap PixUpd.bytes ++ Bytes.leBytes 1 ids.length ++ ids.flatMap uint32Bytes)
          (m - 16 * ps.length - 2 - 11 * us.length - 1 - 4 * ids.length) := by
    rw [hl]
    simp [updateMsg, Buffer.filled]
  rw [hfilled] at hmsg
  rw [updateMsg] at hmsg
  simp only [List.length_append, List.length_cons, List.length_nil, Nat.zero_add, Nat.reduceAdd,
    hllen, hpslen', huslen', hidslen', Bytes.length_leBytes, ← Nat.add_assoc]
    at hplayers hcount hpixels hleft hgone hmsg
  rw [sendUpdatesMsg, hsize, hkind]
  simp only [Option.bind_eq_bind, Option.bind_some, hplayers, hnumber, count_eq, ← huslen, hcount,
    hpixels, ← hidslen, hleft, hgone, hmsg]
  rfl

/-- An `UPDATE` message carries its pixels. -/
theorem updatePixels_updateMsg (info : ClientPtr → UInt32 × PInfo) {ps : List ClientPtr}
    {us : List PixUpd} (ids : List UInt32) (hps : ps.length < 256) (hus : us.length < 2 ^ 16) :
  updatePixels (updateMsg info ps us ids) = us
  := by
  have hnumber : ((updateMsg info ps us ids).getD 1 0).toNat = ps.length := by
    rw [updateMsg]
    show (UInt8.ofNat ps.length).toNat = ps.length
    rw [UInt8.toNat_ofNat']
    omega
  have hstart : ([ServerMessage.update.byte, UInt8.ofNat ps.length]
      ++ ps.flatMap (playerBytes info)).length = 2 + 16 * ps.length := by
    rw [List.length_append, length_flatMap_const (length_playerBytes info)]
    rfl
  have hcount : Bytes.slice (updateMsg info ps us ids) (2 + 16 * ps.length) 2
      = Bytes.leBytes 2 us.length :=
    Bytes.slice_of_eq (by rw [updateMsg, ← List.append_assoc]) hstart (Bytes.length_leBytes 2 _)
  have hpixels := Bytes.slice_flatMap PixUpd.length_bytes
    ([ServerMessage.update.byte, UInt8.ofNat ps.length] ++ ps.flatMap (playerBytes info)
      ++ Bytes.leBytes 2 us.length) (Bytes.leBytes 1 ids.length ++ ids.flatMap uint32Bytes)
    (show _ = 2 + 16 * ps.length + 2 by
      rw [List.length_append, hstart, Bytes.length_leBytes]) us
  rw [updatePixels, if_pos (by rw [updateMsg]; rfl), hnumber]
  dsimp only
  rw [hcount, Bytes.leNat_leBytes_of_lt (by omega)]
  calc
    _ = ((List.range us.length).map fun i =>
          Bytes.slice (updateMsg info ps us ids) (2 + 16 * ps.length + 2 + 11 * i) 11).map
            PixUpd.ofBytes := by rw [List.map_map]; rfl
    _ = (us.map PixUpd.bytes).map PixUpd.ofBytes := by
      rw [← hpixels, updateMsg]
      simp only [List.append_assoc]
    _ = us := by
      rw [List.map_map]
      simp [Function.comp_def]

/-- The pixels a tick sends. -/
theorem sendUpdates_spec (w : World) (info : ClientPtr → UInt32 × PInfo) :
  ∃ msg, w.sendUpdates info = (ticked { w with updActive := false }, [.all .binary msg]) ∧
    msg.head? = some ServerMessage.update.byte ∧
    updatePixels msg = w.pxupdates.take worldMaxPixelUpdates
  := by
  rw [sendUpdates, sendUpdatesMsg_spec]
  refine ⟨_, rfl, by rw [updateMsg]; rfl, ?_⟩
  apply updatePixels_updateMsg
  · rw [List.length_take, worldMaxPlayerUpdates]
    omega
  · rw [List.length_take, worldMaxPixelUpdates]
    omega

/-- After a tick no pixel is waiting. -/
theorem ticked_pxupdates (w : World) :
  w.ticked.pxupdates = []
  := by
  rw [ticked]
  split
  · rfl
  · rfl

/-- A tick leaves the database and the chunks alone. -/
theorem ticked_rest (w : World) :
  w.ticked.db = w.db ∧ w.ticked.chunks = w.chunks ∧ w.ticked.clients = w.clients
  := by
  rw [ticked]
  split
  · exact ⟨rfl, rfl, rfl⟩
  · exact ⟨rfl, rfl, rfl⟩

end World

/-! ### Runs of pixels and ticks -/

/-- A `put_px`, or the end of the timer of a world; `info` gives the id and the position of
the clients at that moment. -/
inductive PixelEvent where
  | putPx (x y : Int32) (clr : RGB) (rank : Rank)
  | tick (info : ClientPtr → UInt32 × PInfo)

/-- A world and its files, with the pixels `put_px` accepted and the messages sent, in
order. -/
structure Feed where
  world : World
  disk : Disk
  accepted : List PixUpd
  sent : List Out

namespace Feed

/-- The pixels in a message. -/
def pixelsIn : Out → List PixUpd
  | .all .binary msg => updatePixels msg
  | _ => []

/-- The pixels in the messages sent, in order. -/
def sentPixels (s : Feed) : List PixUpd := s.sent.flatMap pixelsIn

variable [Platform]

/-- The feed after an event.  The timer ends only when it is active. -/
def step (s : Feed) : PixelEvent → Feed
  | .putPx x y clr rank =>
      let (set, w, d) := s.world.putPx s.disk x y clr rank
      ⟨w, d, if set then s.accepted ++ [⟨x, y, clr.r, clr.g, clr.b⟩] else s.accepted, s.sent⟩
  | .tick info =>
      if s.world.updActive then
        let (w, out) := s.world.sendUpdates info
        { s with world := w, sent := s.sent ++ out }
      else s

/-- The world before it gets any pixels. -/
def start (w : World) (d : Disk) : Feed := ⟨w, d, [], []⟩

/-- The feed after a run of events. -/
def run (s : Feed) (events : List PixelEvent) : Feed := Runs.run step s events

/-- If the event is a tick, no more pixels wait than it may send. -/
def InTime (s : Feed) (e : PixelEvent) : Prop :=
  ∀ info, e = .tick info → s.world.updActive → s.world.pxupdates.length ≤ worldMaxPixelUpdates

/-- No tick of the run finds more pixels than it may send. -/
def Timely (s : Feed) (events : List PixelEvent) : Prop := Runs.Along step InTime s events

/-- A `put_px` adds the pixel it accepts, if any. -/
theorem step_putPx (s : Feed) (x y : Int32) (clr : RGB) (rank : Rank) :
  ∃ us, (s.step (.putPx x y clr rank)).accepted = s.accepted ++ us ∧
    (s.step (.putPx x y clr rank)).world.pxupdates = s.world.pxupdates ++ us ∧
    (s.step (.putPx x y clr rank)).sent = s.sent
  := by
  have hrest := (World.getChunk_frame s.world s.disk (chunkOf x) (chunkOf y)).rest
  rw [step]
  obtain ⟨-, heq⟩ | ⟨-, c, w', d', heq⟩ :=
    World.getChunk_cases s.world s.disk (chunkOf x) (chunkOf y)
  · use []
    rw [World.putPx_of_none heq]
    simp
  · rw [heq] at hrest
    dsimp only at hrest
    by_cases hpx : c.data.px (low4 x) (low4 y) = clr
    · use []
      rw [World.putPx_of_eq heq hpx, hrest]
      simp
    · use [⟨x, y, clr.r, clr.g, clr.b⟩]
      rw [World.putPx_of_ne heq hpx, hrest]
      exact ⟨rfl, rfl, rfl⟩

/-- A tick sends the first pixels that wait and forgets them all. -/
theorem step_tick {s : Feed} (info : ClientPtr → UInt32 × PInfo) (h : s.world.updActive) :
  (s.step (.tick info)).accepted = s.accepted ∧
    (s.step (.tick info)).world.pxupdates = [] ∧
    (s.step (.tick info)).sentPixels
      = s.sentPixels ++ s.world.pxupdates.take worldMaxPixelUpdates
  := by
  obtain ⟨msg, heq, -, hpixels⟩ := World.sendUpdates_spec s.world info
  have hstep : s.step (.tick info) = { s with
      world := World.ticked { s.world with updActive := false }
      sent := s.sent ++ [.all .binary msg] } := by
    rw [step, if_pos h, heq]
  rw [hstep]
  refine ⟨rfl, World.ticked_pxupdates _, ?_⟩
  rw [sentPixels, sentPixels, List.flatMap_append, ← hpixels]
  simp [pixelsIn]

/-- Nothing happens at a tick without updates. -/
theorem step_tick_of_inactive {s : Feed} (info : ClientPtr → UInt32 × PInfo)
    (h : ¬ s.world.updActive) :
  s.step (.tick info) = s
  := by
  rw [step, if_neg h]

/-- Every accepted pixel has been sent or waits, in order. -/
def Complete (s : Feed) : Prop := s.sentPixels ++ s.world.pxupdates = s.accepted

/-- Fewer pixels have been sent or wait than were accepted. -/
def Lossy (s : Feed) : Prop :=
  s.sentPixels.length + s.world.pxupdates.length < s.accepted.length

/-- Any event. -/
theorem Complete.step {s : Feed} (h : s.Complete) (e : PixelEvent) :
  (s.InTime e → (s.step e).Complete) ∧ (¬ s.InTime e → (s.step e).Lossy)
  := by
  cases e with
  | putPx x y clr rank =>
      obtain ⟨us, haccepted, hwaiting, hsent⟩ := s.step_putPx x y clr rank
      constructor
      · intro _
        rw [Complete, sentPixels, haccepted, hwaiting, hsent, ← List.append_assoc, ← sentPixels, h]
      · intro hlate
        exact absurd (fun info heq => by cases heq) hlate
  | tick info =>
      by_cases hactive : s.world.updActive
      · obtain ⟨haccepted, hwaiting, hsent⟩ := step_tick info hactive
        constructor
        · intro hfew
          rw [Complete, haccepted, hwaiting, hsent, List.append_nil,
            List.take_of_length_le (hfew info rfl hactive), h]
        · intro hmany
          have hlen : worldMaxPixelUpdates < s.world.pxupdates.length := by
            by_contra hle
            exact hmany fun _ _ _ => not_lt.mp hle
          rw [Lossy, haccepted, hwaiting, hsent, ← h, List.length_append, List.length_append,
            List.length_take, List.length_nil]
          omega
      · rw [step_tick_of_inactive info hactive]
        exact ⟨fun _ => h, fun hlate => absurd (fun _ _ hc => absurd hc hactive) hlate⟩

/-- What is lost stays lost. -/
theorem Lossy.step {s : Feed} (h : s.Lossy) (e : PixelEvent) :
  (s.step e).Lossy
  := by
  cases e with
  | putPx x y clr rank =>
      obtain ⟨us, haccepted, hwaiting, hsent⟩ := s.step_putPx x y clr rank
      rw [Lossy, sentPixels] at h ⊢
      rw [haccepted, hwaiting, hsent, List.length_append, List.length_append]
      omega
  | tick info =>
      by_cases hactive : s.world.updActive
      · obtain ⟨haccepted, hwaiting, hsent⟩ := step_tick info hactive
        rw [Lossy] at h ⊢
        rw [haccepted, hwaiting, hsent, List.length_append, List.length_take, List.length_nil]
        omega
      · rw [step_tick_of_inactive info hactive]
        exact h

/-- What is lost stays lost in a run. -/
theorem Lossy.run {s : Feed} (h : s.Lossy) (events : List PixelEvent) :
  (s.run events).Lossy
  := by
  induction events generalizing s with
  | nil => exact h
  | cons e events ih => exact ih (h.step e)

/-- A run loses no pixel exactly when it is timely. -/
theorem Complete.run {s : Feed} (h : s.Complete) (events : List PixelEvent) :
  (s.Timely events → (s.run events).Complete) ∧ (¬ s.Timely events → (s.run events).Lossy)
  := by
  induction events generalizing s with
  | nil =>
      exact ⟨fun _ => h, fun hnot => absurd Runs.along_nil hnot⟩
  | cons e events ih =>
      obtain ⟨hin, hout⟩ := h.step e
      rw [Timely, Runs.along_cons]
      constructor
      · rintro ⟨hfirst, hrest⟩
        exact (ih (hin hfirst)).1 hrest
      · intro hnot
        by_cases hfirst : s.InTime e
        · exact (ih (hin hfirst)).2 fun hrest => hnot ⟨hfirst, hrest⟩
        · exact (hout hfirst).run events

/-- Once no pixel waits, the pixels sent are those accepted, in order and each once, exactly
when no tick found more pixels than it may send. -/
theorem sentPixels_eq_iff (w : World) (d : Disk) (hw : w.pxupdates = [])
    (events : List PixelEvent) (hend : ((start w d).run events).world.pxupdates = []) :
  ((start w d).run events).sentPixels = ((start w d).run events).accepted
    ↔ (start w d).Timely events
  := by
  have hstart : (start w d).Complete := by
    rw [Complete, start, hw]
    rfl
  obtain ⟨htimely, hlate⟩ := hstart.run events
  constructor
  · intro heq
    by_contra hnot
    have hlossy := hlate hnot
    rw [Lossy, hend, heq, List.length_nil] at hlossy
    omega
  · intro ht
    have hcomplete := htimely ht
    rw [Complete, hend, List.append_nil] at hcomplete
    exact hcomplete

/-- A world someone has joined. -/
def joined : Feed :=
  start ((World.new [47] [97] (Disk.empty fun _ => false)).1.addCli 1)
    (World.new [47] [97] (Disk.empty fun _ => false)).2

omit [Platform] in
/-- One pixel, sent by the next tick. -/
theorem sentPixels_eq_iff_single :
  letI := Platform.quiet
  (joined.run [.putPx 3 4 ⟨255, 0, 0⟩ Rank.user, .tick fun _ => (1, ⟨0, 0, 0, 0, 0, 0⟩)]).sentPixels
    = (joined.run [.putPx 3 4 ⟨255, 0, 0⟩ Rank.user,
        .tick fun _ => (1, ⟨0, 0, 0, 0, 0, 0⟩)]).accepted
  := by
  let _ := Platform.quiet
  apply (sentPixels_eq_iff _ _ (by decide +kernel) _ (by decide +kernel)).mpr
  rw [Timely, Runs.along_cons, Runs.along_cons]
  and_intros
  · intro info heq
    cases heq
  · intro _ _ _
    decide +kernel
  · exact Runs.along_nil

/-- The colours red and blue in turn. -/
def colourOf (n : ℕ) : RGB := if n % 2 = 0 then ⟨255, 0, 0⟩ else ⟨0, 0, 255⟩

omit [Platform] in
/-- Neighbouring colours differ. -/
theorem colourOf_succ (n : ℕ) :
  colourOf n ≠ colourOf (n + 1)
  := by
  rw [colourOf, colourOf]
  split
  · rw [if_neg (by omega)]
    decide
  · rw [if_pos (by omega)]
    decide

/-- One pixel set again and again, red and blue in turn. -/
def alternating (n : ℕ) : List PixelEvent :=
  (List.range n).map fun i => .putPx 0 0 (colourOf i) Rank.user

/-- Each time the colour is accepted. -/
theorem run_alternating {s : Feed} {c : Chunk} (hc : s.world.chunks.lookup (0, 0) = some c)
    (hpx : c.data.px 0 0 ≠ colourOf 0) (hs : s.world.pxupdates = []) (n : ℕ) :
  ∃ c', (s.run (alternating n)).world.chunks.lookup (0, 0) = some c' ∧
    c'.data.px 0 0 ≠ colourOf n ∧ (s.run (alternating n)).world.pxupdates.length = n ∧
    (n ≠ 0 → (s.run (alternating n)).world.updActive)
  := by
  induction n with
  | zero => exact ⟨c, hc, hpx, by rw [alternating, List.range_zero]; simp [run, hs], by simp⟩
  | succ n ih =>
      obtain ⟨c', hc', hpx', hlen, -⟩ := ih
      have hrun : s.run (alternating (n + 1))
          = (s.run (alternating n)).step (.putPx 0 0 (colourOf n) Rank.user) := by
        rw [alternating, List.range_succ, List.map_append, List.map_singleton, run,
          Runs.run_concat, ← run, ← alternating]
      generalize s.run (alternating n) = s' at hc' hlen hrun
      have hget : s'.world.getChunk s'.disk (chunkOf 0) (chunkOf 0)
          = (some c', s'.world, s'.disk) := by
        have hr : World.inRange (chunkOf 0) (chunkOf 0) := by decide
        have hlookup : s'.world.chunks.lookup (chunkOf 0, chunkOf 0) = some c' := hc'
        rw [World.getChunk, if_neg (not_not.mpr hr), hlookup]
      have hput : s'.world.putPx s'.disk 0 0 (colourOf n) Rank.user = _ :=
        World.putPx_of_ne hget hpx'
      rw [hrun, step, hput]
      refine ⟨_, AList.lookup_insert _, ?_, ?_, fun _ => rfl⟩
      · rw [show low4 0 = 0 by decide, Data.px_setPx_same]
        exact colourOf_succ n
      · show (s'.world.pxupdates ++ [_]).length = n + 1
        rw [List.length_append, hlen, List.length_singleton]

omit [Platform] in
/-- A tick that finds one pixel more than it may send loses it. -/
theorem not_sentPixels_eq :
  ¬ ∀ [Platform] (w : World) (d : Disk) (events : List PixelEvent), w.clients ≠ [] →
    w.pxupdates = [] → ((start w d).run events).world.pxupdates = [] →
    ((start w d).run events).sentPixels = ((start w d).run events).accepted
  := by
  intro h
  let _ := Platform.quiet
  generalize hgot : joined.world.getChunk joined.disk 0 0 = got
  have hclients : got.2.1.clients ≠ [] := by
    rw [← hgot]
    decide +kernel
  have hnone : got.2.1.pxupdates = [] := by
    rw [← hgot]
    decide +kernel
  have hpx : (got.2.1.chunks.lookup (0, 0)).map (fun c => c.data.px 0 0)
      = some ⟨255, 255, 255⟩ := by
    rw [← hgot]
    decide +kernel
  obtain ⟨c, hc, hblank⟩ := Option.map_eq_some_iff.mp hpx
  have hcolour : c.data.px 0 0 ≠ colourOf 0 := by
    rw [hblank]
    decide
  have hstart : (start got.2.1 got.2.2).Complete := by
    rw [Complete, start, hnone]
    rfl
  -- one pixel more than a tick may send
  obtain ⟨c', -, -, hlen, hactive⟩ := run_alternating (s := start got.2.1 got.2.2) hc hcolour
    hnone (worldMaxPixelUpdates + 1)
  have hactive := hactive (Nat.succ_ne_zero _)
  obtain ⟨-, hempty, -⟩ := step_tick (fun _ => (1, ⟨0, 0, 0, 0, 0, 0⟩)) hactive
  rw [run, ← Runs.run_concat step, ← run] at hempty
  have hequal := h got.2.1 got.2.2 _ hclients hnone hempty
  have hlossy := (hstart.run (alternating (worldMaxPixelUpdates + 1)
      ++ [.tick fun _ => (1, ⟨0, 0, 0, 0, 0, 0⟩)])).2 (by
    intro htimely
    have hin := htimely (alternating (worldMaxPixelUpdates + 1)) _ [] rfl
    rw [← run] at hin
    have hle := hin _ rfl hactive
    rw [hlen] at hle
    exact absurd hle (Nat.not_succ_le_self _))
  rw [Lossy, hequal, hempty, List.length_nil, Nat.add_zero] at hlossy
  exact absurd hlossy (lt_irrefl _)

end Feed

end Owop
