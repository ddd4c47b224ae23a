import OwopServer.Library.Table
import OwopServer.World.Updates

/-!
# Player lists

Clients keep a map of the players of their world, which they read from the `UPDATE` messages.
Whenever nothing waits to be sent, the map of each client is the players of the world.
-/

namespace Owop

open Table

/-! ### Reading messages -/

/-- The players an `UPDATE` message carries, with their ids. -/
def updatePlayers (m : Bytes) : List (UInt32 × PInfo) :=
  if m.head? = some ServerMessage.update.byte then
    (List.range (m.getD 1 0).toNat).map fun i =>
      let entry := m.slice (2 + 16 * i) 16
      (uint32Of (entry.slice 0 4), pinfoOf (entry.slice 4 12))
  else []

/-- The ids of the players an `UPDATE` message says have left. -/
def updateLeft (m : Bytes) : List UInt32 :=
  if m.head? = some ServerMessage.update.byte then
    let offs := 2 + 16 * (m.getD 1 0).toNat
    let offs := offs + 2 + 11 * Bytes.leNat (m.slice offs 2)
    (List.range (m.getD offs 0).toNat).map fun i => uint32Of (m.slice (offs + 1 + 4 * i) 4)
  else []

namespace World

/-- The number of players in an `UPDATE` message. -/
theorem getD_updateMsg (info : ClientPtr → UInt32 × PInfo) {ps : List ClientPtr}
    (us : List PixUpd) (ids : List UInt32) (hps : ps.length < 256) :
  ((updateMsg info ps us ids).getD 1 0).toNat = ps.length
  := UInt8.toNat_ofNat_of_lt' hps

/-- The message of updates starts with its kind. -/
theorem head_updateMsg (info : ClientPtr → UInt32 × PInfo) (ps : List ClientPtr)
    (us : List PixUpd) (ids : List UInt32) :
  (updateMsg info ps us ids).head? = some ServerMessage.update.byte
  := rfl

/-- The bytes of a player are read back. -/
theorem read_playerBytes (info : ClientPtr → UInt32 × PInfo) (p : ClientPtr) :
  (uint32Of (Bytes.slice (playerBytes info p) 0 4), pinfoOf (Bytes.slice (playerBytes info p) 4 12))
    = info p
  := by
  have hid : Bytes.slice (playerBytes info p) 0 4 = uint32Bytes (info p).1 :=
    Bytes.slice_of_eq (a := []) rfl rfl (length_uint32Bytes _)
  have hpos : Bytes.slice (playerBytes info p) 4 12 = (info p).2.bytes :=
    Bytes.slice_of_eq (c := []) (by rw [playerBytes, List.append_nil]) (length_uint32Bytes _)
      (PInfo.length_bytes _)
  rw [hid, hpos, uint32Of_uint32Bytes, pinfoOf_bytes]

/-- An `UPDATE` message carries its players. -/
theorem updatePlayers_updateMsg (info : ClientPtr → UInt32 × PInfo) {ps : List ClientPtr}
    (us : List PixUpd) (ids : List UInt32) (hps : ps.length < 256) :
  updatePlayers (updateMsg info ps us ids) = ps.map info
  := by
  have hentries := Bytes.slice_flatMap (length_playerBytes info)
    [ServerMessage.update.byte, UInt8.ofNat ps.length]
    (Bytes.leBytes 2 us.length ++ (us.flatMap PixUpd.bytes
      ++ (Bytes.leBytes 1 ids.length ++ ids.flatMap uint32Bytes))) (rfl : _ = 2) ps
  rw [updatePlayers, if_pos (head_updateMsg info ps us ids), getD_updateMsg info us ids hps]
  calc
    _ = ((List.range ps.length).map fun i =>
          Bytes.slice (updateMsg info ps us ids) (2 + 16 * i) 16).map fun entry =>
            (uint32Of (Bytes.slice entry 0 4), pinfoOf (Bytes.slice entry 4 12)) := by
      rw [List.map_map]
      rfl
    _ = (ps.map (playerBytes info)).map fun entry =>
          (uint32Of (Bytes.slice entry 0 4), pinfoOf (Bytes.slice entry 4 12)) := by
      rw [← hentries]
      rfl
    _ = ps.map info := by
      rw [List.map_map]
      apply List.map_congr_left
      intro p _
      exact read_playerBytes info p

/-- An `UPDATE` message carries the ids of who left. -/
theorem updateLeft_updateMsg (info : ClientPtr → UInt32 × PInfo) {ps : List ClientPtr}
    {us : List PixUpd} {ids : List UInt32} (hps : ps.length < 256) (hus : us.length < 2 ^ 16)
    (hids : ids.length < 256) :
  updateLeft (updateMsg info ps us ids) = ids
  := by
  obtain ⟨pre, hpre⟩ : ∃ pre, pre = [ServerMessage.update.byte, UInt8.ofNat ps.length]
      ++ ps.flatMap (playerBytes info) := ⟨_, rfl⟩
  have hprelen : pre.length = 2 + 16 * ps.length := by
    rw [hpre, List.length_append, length_flatMap_const (length_playerBytes info)]
    rfl
  have hmsg : updateMsg info ps us ids = pre ++ (Bytes.leBytes 2 us.length
      ++ (us.flatMap PixUpd.bytes ++ (Bytes.leBytes 1 ids.length ++ ids.flatMap uint32Bytes))) := by
    rw [updateMsg, hpre, List.append_assoc]
  have hcount : Bytes.slice (updateMsg info ps us ids) (2 + 16 * ps.length) 2
      = Bytes.leBytes 2 us.length :=
    Bytes.slice_of_eq hmsg hprelen (Bytes.length_leBytes 2 _)
  obtain ⟨pre', hpre'⟩ : ∃ pre', pre' = pre ++ Bytes.leBytes 2 us.length
      ++ us.flatMap PixUpd.bytes := ⟨_, rfl⟩
  have hprelen' : pre'.length = 2 + 16 * ps.length + 2 + 11 * us.length := by
    rw [hpre', List.length_append, List.length_append, hprelen, Bytes.length_leBytes,
      length_flatMap_const PixUpd.length_bytes]
  have hmsg' : updateMsg info ps us ids
      = pre' ++ (Bytes.leBytes 1 ids.length ++ ids.flatMap uint32Bytes) := by
    rw [hmsg, hpre']
    simp only [List.append_assoc]
  have hnumber : ((updateMsg info ps us ids).getD (2 + 16 * ps.length + 2 + 11 * us.length)
      0).toNat = ids.length := by
    rw [hmsg', List.getD_append_right _ _ _ _ (le_of_eq hprelen'), hprelen', Nat.sub_self]
    exact UInt8.toNat_ofNat_of_lt' hids
  have hentries := Bytes.slice_flatMap length_uint32Bytes
    (pre' ++ Bytes.leBytes 1 ids.length) [] (show _ = 2 + 16 * ps.length + 2 + 11 * us.length + 1 by
      rw [List.length_append, hprelen', Bytes.length_leBytes]) ids
  rw [updateLeft, if_pos (head_updateMsg info ps us ids), getD_updateMsg info us ids hps]
  dsimp only
  rw [hcount, Bytes.leNat_leBytes_of_lt (by omega), hnumber]
  calc
    _ = ((List.range ids.length).map fun i => Bytes.slice (updateMsg info ps us ids)
          (2 + 16 * ps.length + 2 + 11 * us.length + 1 + 4 * i) 4).map uint32Of := by
      rw [List.map_map]
      rfl
    _ = (ids.map uint32Bytes).map uint32Of := by
      rw [← hentries, hmsg', List.append_nil, List.append_assoc]
    _ = ids := by
      rw [List.map_map]
      simp [Function.comp_def]

/-- The players a tick sends, and the ids it says have left. -/
theorem sendUpdates_players (w : World) (info : ClientPtr → UInt32 × PInfo) :
  ∃ msg, w.sendUpdates info = (ticked { w with updActive := false }, [.all .binary msg]) ∧
    updatePlayers msg = (w.plupdates.take worldMaxPlayerUpdates).map info ∧
    updateLeft msg = w.plleft.take worldMaxPlayerLeftUpdates
  := by
  have hps : (w.plupdates.take worldMaxPlayerUpdates).length < 256 := by
    rw [List.length_take, worldMaxPlayerUpdates]
    omega
  rw [sendUpdates, sendUpdatesMsg_spec]
  refine ⟨_, rfl, updatePlayers_updateMsg info _ _ hps, updateLeft_updateMsg info hps ?_ ?_⟩
  · rw [List.length_take, worldMaxPixelUpdates]
    omega
  · rw [List.length_take, worldMaxPlayerLeftUpdates]
    omega

end World

/-! ### Runs of players and ticks -/

/-- What players do in a world, or the end of its timer.  A client that joins is at `p` in
memory; one that is kicked leaves. -/
inductive PlayerEvent where
  | join (p : ClientPtr)
  | move (p : ClientPtr) (pos : PInfo)
  | teleport (p : ClientPtr) (x y : Int32)
  | leave (p : ClientPtr)
  | tick

/-- A world with the ids and positions of its clients, the maps they keep, and the messages its
ticks have sent. -/
structure Lobby where
  world : World
  players : ClientPtr → Option (UInt32 × PInfo)
  maps : ClientPtr → UInt32 → Option PInfo
  sent : List Bytes

namespace Lobby

/-- The id and the position of a client. -/
def info (s : Lobby) (p : ClientPtr) : UInt32 × PInfo :=
  (s.players p).getD (0, ⟨0, 0, 0, 0, 0, 0⟩)

/-- The constructor `Client::Client`, with `World::get_id`, and `World::add_cli`.  The memory of
another client is not given to it. -/
def join (s : Lobby) (p : ClientPtr) : Lobby :=
  if s.players p = none then
    let (id, w) := s.world.getId
    { s with
      world := w.addCli p
      players := Function.update s.players p (some (id, ⟨0, 0, 0, 0, 0, 0⟩))
      maps := Function.update s.maps p fun _ => none }
  else s

/-- `Client::move` -/
def move (s : Lobby) (p : ClientPtr) (pos : PInfo) : Lobby :=
  match s.players p with
  | some (id, _) => { s with
      world := s.world.updCli p
      players := Function.update s.players p (some (id, pos)) }
  | none => s

/-- `Client::teleport` -/
def teleport (s : Lobby) (p : ClientPtr) (x y : Int32) : Lobby :=
  s.move p { (s.info p).2 with x := (x <<< 4) + 8, y := (y <<< 4) + 8 }

/-- `Client::safedelete`, which calls `World::rm_cli`. -/
def leave (s : Lobby) (p : ClientPtr) : Lobby :=
  match s.players p with
  | some (id, _) => { s with
      world := s.world.rmCli p id
      players := Function.update s.players p none }
  | none => s

/-- A client that is sent an `UPDATE` message sets the players it lists and removes those it says
have left. -/
def read (m : UInt32 → Option PInfo) (msg : Bytes) : UInt32 → Option PInfo :=
  tell m (updatePlayers msg) (updateLeft msg)

/-- A message of the world is sent to its clients. -/
def receive (s : Lobby) : Out → Lobby
  | .all _ msg => { s with
      maps := fun p => if p ∈ s.world.clients then read (s.maps p) msg else s.maps p
      sent := s.sent ++ [msg] }
  | .one _ _ _ => s

/-- `World::send_updates`, called by the timer if it is active. -/
def tick (s : Lobby) : Lobby :=
  if s.world.updActive then
    let (w, outs) := s.world.sendUpdates s.info
    outs.foldl receive { s with world := w }
  else s

/-- The lobby after an event. -/
def step (s : Lobby) : PlayerEvent → Lobby
  | .join p => s.join p
  | .move p pos => s.move p pos
  | .teleport p x y => s.teleport p x y
  | .leave p => s.leave p
  | .tick => s.tick

/-- A world that nobody has joined. -/
def start (w : World) : Lobby := ⟨w, fun _ => none, fun _ _ => none, []⟩

/-- The lobby after a run of events. -/
def run (s : Lobby) (events : List PlayerEvent) : Lobby := Runs.run step s events

/-- A join does not find the counter of ids at its end. -/
def Unwrapped (s : Lobby) (e : PlayerEvent) : Prop :=
  ∀ p, e = .join p → s.world.pids ≠ 0xFFFFFFFF

/-- The position of the player with an id. -/
def position (s : Lobby) (id : UInt32) : Option PInfo :=
  ((s.world.clients.filterMap s.players).find? fun pl => pl.1 = id).map Prod.snd

/-- The ids of the players that wait to be sent. -/
def dirty (s : Lobby) : Set UInt32 :=
  {id | ∃ p ∈ s.world.plupdates, ∃ pos, s.players p = some (id, pos)}

/-- The ids that wait to be sent as having left. -/
def gone (s : Lobby) : Set UInt32 := {id | id ∈ s.world.plleft}

/-- The clients of the world are those that are there, and have ids of their own. -/
structure Named (s : Lobby) : Prop where
  present : ∀ p, p ∈ s.world.clients ↔ ∃ pl, s.players p = some pl
  unique : ∀ {p q id pos pos'}, s.players p = some (id, pos) → s.players q = some (id, pos') → p = q

/-- The counter has given the ids of the clients, and those that wait are clients.  Ids that have
left are those of no client, and were never sent again after they were sent as having left.  The
map of each client follows the players. -/
structure Sound (s : Lobby) : Prop extends Named s where
  given : ∀ {p id pos}, s.players p = some (id, pos) → id ≤ s.world.pids
  waiting : ∀ {p}, p ∈ s.world.plupdates → p ∈ s.world.clients
  left : ∀ {id}, (id ∈ s.world.plleft ∨ ∃ m ∈ s.sent, id ∈ updateLeft m) →
    id ≤ s.world.pids ∧ ∀ p pos, s.players p ≠ some (id, pos)
  order : s.sent.Pairwise fun m m' => ∀ id ∈ updateLeft m, ∀ pl ∈ updatePlayers m', pl.1 ≠ id
  follows : ∀ p ∈ s.world.clients, Follows s.position (s.maps p) s.dirty s.gone

variable {s s' : Lobby}

/-- The client with an id. -/
theorem Named.position_eq (h : s.Named) {id : UInt32} {pos : PInfo} :
  s.position id = some pos ↔ ∃ p, s.players p = some (id, pos)
  := by
  rw [position, Option.map_eq_some_iff]
  constructor
  · rintro ⟨pl, hfind, rfl⟩
    have hid := List.find?_some hfind
    rw [decide_eq_true_eq] at hid
    obtain ⟨p, -, hp⟩ := List.mem_filterMap.mp (List.mem_of_find?_eq_some hfind)
    exact ⟨p, by rw [hp, ← hid]⟩
  · rintro ⟨p, hp⟩
    have hmem : (id, pos) ∈ s.world.clients.filterMap s.players :=
      List.mem_filterMap.mpr ⟨p, (h.present p).mpr ⟨_, hp⟩, hp⟩
    cases hfind : (s.world.clients.filterMap s.players).find? fun pl => pl.1 = id with
    | none =>
        have hnone := List.find?_eq_none.mp hfind (id, pos) hmem
        simp at hnone
    | some pl =>
        have hid := List.find?_some hfind
        rw [decide_eq_true_eq] at hid
        obtain ⟨q, -, hq⟩ := List.mem_filterMap.mp (List.mem_of_find?_eq_some hfind)
        have hplayer : s.players q = some (id, pl.2) := by rw [hq, ← hid]
        obtain rfl : q = p := h.unique hplayer hp
        rw [hp] at hq
        refine ⟨pl, rfl, ?_⟩
        rw [← Option.some.inj hq]

/-- No client has the id. -/
theorem Named.position_none (h : s.Named) {id : UInt32} :
  s.position id = none ↔ ∀ p pos, s.players p ≠ some (id, pos)
  := by
  rw [Option.eq_none_iff_forall_ne_some]
  constructor
  · intro hnone p pos hp
    exact hnone pos (h.position_eq.mpr ⟨p, hp⟩)
  · intro hnone pos hpos
    obtain ⟨p, hp⟩ := h.position_eq.mp hpos
    exact hnone p pos hp

/-- The positions when one client has another. -/
theorem Named.position_write {p : ClientPtr} {id : UInt32} {pos pos' : PInfo} (h : s.Named)
    (h' : s'.Named) (hp : s.players p = some (id, pos'))
    (hplayers : s'.players = Function.update s.players p (some (id, pos))) :
  s'.position = Function.update s.position id (some pos)
  := by
  funext id'
  apply Option.ext
  intro pos''
  rw [h'.position_eq, hplayers, Function.update_apply]
  split
  case isTrue heq =>
    subst heq
    rw [Option.some_inj]
    constructor
    · rintro ⟨q, hq⟩
      obtain ⟨rfl, hpl⟩ | ⟨hne, hq⟩ := Table.update_eq_some.mp hq
      · exact (Prod.mk.inj hpl).2
      · exact absurd (h.unique hq hp) hne
    · rintro rfl
      exact ⟨p, Function.update_self _ _ _⟩
  case isFalse hne =>
    rw [h.position_eq]
    constructor
    · rintro ⟨q, hq⟩
      obtain ⟨rfl, hpl⟩ | ⟨-, hq⟩ := Table.update_eq_some.mp hq
      · exact absurd (Prod.mk.inj hpl).1.symm hne
      · exact ⟨q, hq⟩
    · rintro ⟨q, hq⟩
      have hqp : q ≠ p := by
        rintro rfl
        rw [hp] at hq
        exact hne (Prod.mk.inj (Option.some.inj hq)).1.symm
      exact ⟨q, (Function.update_of_ne hqp _ _).trans hq⟩

/-- The positions when one client has left. -/
theorem Named.position_remove {p : ClientPtr} {id : UInt32} {pos : PInfo} (h : s.Named)
    (h' : s'.Named) (hp : s.players p = some (id, pos))
    (hplayers : s'.players = Function.update s.players p none) :
  s'.position = Function.update s.position id none
  := by
  funext id'
  apply Option.ext
  intro pos'
  rw [h'.position_eq, hplayers, Function.update_apply]
  constructor
  · rintro ⟨q, hq⟩
    rw [Function.update_apply] at hq
    split at hq
    case isTrue => cases hq
    case isFalse hqp =>
      have hne : id' ≠ id := by
        rintro rfl
        exact hqp (h.unique hq hp)
      rw [if_neg hne, h.position_eq]
      exact ⟨q, hq⟩
  · intro hpos
    split at hpos
    case isTrue => cases hpos
    case isFalse hne =>
      obtain ⟨q, hq⟩ := h.position_eq.mp hpos
      have hqp : q ≠ p := by
        rintro rfl
        rw [hp] at hq
        exact hne (Prod.mk.inj (Option.some.inj hq)).1.symm
      exact ⟨q, (Function.update_of_ne hqp _ _).trans hq⟩

/-- The counter is raised if it is not at its end. -/
theorem lt_succ_pids {n : UInt32} (h : n ≠ 0xFFFFFFFF) :
  n < n + 1
  := by
  have hne : n.toNat ≠ 4294967295 := fun heq => h (UInt32.toNat_inj.mp heq)
  have hlt := n.toNat_lt
  rw [UInt32.lt_iff_toNat_lt, UInt32.toNat_add, UInt32.toNat_one]
  omega

/-- A client joins. -/
theorem Sound.join {p : ClientPtr} (h : s.Sound) (hwrap : s.world.pids ≠ 0xFFFFFFFF) :
  (s.join p).Sound
  := by
  rw [Lobby.join]
  split
  case isFalse => exact h
  case isTrue hp =>
  have hlt := lt_succ_pids hwrap
  rw [World.getId]
  dsimp only
  generalize hs' : Lobby.mk _ _ _ _ = s'
  have hworld : s'.world = World.addCli { s.world with pids := s.world.pids + 1 } p := by
    rw [← hs']
  have hplayers : s'.players = Function.update s.players p
      (some (s.world.pids + 1, ⟨0, 0, 0, 0, 0, 0⟩)) := by
    rw [← hs']
  have hmaps : s'.maps = Function.update s.maps p fun _ => none := by
    rw [← hs']
  have hsent : s'.sent = s.sent := by
    rw [← hs']
  have hclients : ∀ q, q ∈ s'.world.clients ↔ q = p ∨ q ∈ s.world.clients := by
    intro q
    rw [hworld]
    exact mem_setInsert
  have hwaiting : ∀ q, q ∈ s'.world.plupdates ↔ q ∈ s'.world.clients ∨ q ∈ s.world.plupdates := by
    intro q
    rw [hworld]
    exact mem_foldl_setInsert
  have hleft : s'.world.plleft = s.world.plleft := by
    rw [hworld]
    rfl
  have hpids : s'.world.pids = s.world.pids + 1 := by
    rw [hworld]
    rfl
  have hnew : ∀ {q : ClientPtr} {pl}, s.players q = some pl → q ≠ p := by
    rintro q pl hq rfl
    rw [hp] at hq
    cases hq
  have hfresh : ∀ {q pos}, s.players q ≠ some (s.world.pids + 1, pos) := by
    intro q pos hq
    exact absurd (h.given hq) (UInt32.not_le.mpr hlt)
  have hnamed : s'.Named := by
    constructor
    case present =>
      intro q
      rw [hclients, h.present, hplayers, Function.update_apply]
      split
      case isTrue heq => exact ⟨fun _ => ⟨_, rfl⟩, fun _ => Or.inl heq⟩
      case isFalse hne => exact ⟨fun hq => hq.resolve_left hne, Or.inr⟩
    case unique =>
      intro q q' id pos pos' hq hq'
      rw [hplayers] at hq hq'
      obtain ⟨heq, hpl⟩ | ⟨-, hold⟩ := Table.update_eq_some.mp hq
      · obtain ⟨heq', -⟩ | ⟨-, hold'⟩ := Table.update_eq_some.mp hq'
        · rw [heq, heq']
        · rw [← (Prod.mk.inj hpl).1] at hold'
          exact absurd hold' hfresh
      · obtain ⟨-, hpl⟩ | ⟨-, hold'⟩ := Table.update_eq_some.mp hq'
        · rw [← (Prod.mk.inj hpl).1] at hold
          exact absurd hold hfresh
        · exact h.unique hold hold'
  constructor
  case toNamed => exact hnamed
  case given =>
    intro q id pos hq
    rw [hpids]
    rw [hplayers] at hq
    obtain ⟨-, hpl⟩ | ⟨-, hq⟩ := Table.update_eq_some.mp hq
    · rw [← (Prod.mk.inj hpl).1]
      exact UInt32.le_refl _
    · exact UInt32.le_of_lt (UInt32.lt_of_le_of_lt (h.given hq) hlt)
  case waiting =>
    intro q hq
    obtain hq | hq := (hwaiting q).mp hq
    · exact hq
    · exact (hclients q).mpr (Or.inr (h.waiting hq))
  case left =>
    intro id hid
    rw [hleft, hsent] at hid
    obtain ⟨hle, hnone⟩ := h.left hid
    have hless : id < s.world.pids + 1 := UInt32.lt_of_le_of_lt hle hlt
    rw [hpids]
    refine ⟨UInt32.le_of_lt hless, ?_⟩
    intro q pos hq
    rw [hplayers] at hq
    obtain ⟨-, hpl⟩ | ⟨-, hq⟩ := Table.update_eq_some.mp hq
    · rw [(Prod.mk.inj hpl).1] at hless
      exact absurd hless (UInt32.lt_irrefl _)
    · exact hnone q pos hq
  case order =>
    rw [hsent]
    exact h.order
  case follows =>
    intro q hq
    apply follows_of_dirty
    · intro id pos hpos
      obtain ⟨q', hq'⟩ := hnamed.position_eq.mp hpos
      exact ⟨q', (hwaiting q').mpr (Or.inl ((hnamed.present q').mpr ⟨_, hq'⟩)), pos, hq'⟩
    · intro id hpos hgone
      rw [hmaps, Function.update_apply]
      split
      case isTrue => rfl
      case isFalse hne =>
        have hold : s.position id = none := by
          rw [h.position_none]
          intro q' pos hq'
          apply hnamed.position_none.mp hpos q' pos
          rw [hplayers, Function.update_of_ne (hnew hq'), hq']
        have hgone' : id ∉ s.gone := by
          rw [gone, hleft] at hgone
          exact hgone
        exact (h.follows q (((hclients q).mp hq).resolve_left hne)).absent id hold hgone'

/-- A client moves. -/
theorem Sound.move {p : ClientPtr} (pos : PInfo) (h : s.Sound) :
  (s.move p pos).Sound
  := by
  rw [Lobby.move]
  split
  case h_2 => exact h
  case h_1 id pos₀ hp =>
  generalize hs' : Lobby.mk _ _ _ _ = s'
  have hworld : s'.world = s.world.updCli p := by
    rw [← hs']
  have hplayers : s'.players = Function.update s.players p (some (id, pos)) := by
    rw [← hs']
  have hmaps : s'.maps = s.maps := by
    rw [← hs']
  have hsent : s'.sent = s.sent := by
    rw [← hs']
  have hclients : s'.world.clients = s.world.clients := by
    rw [hworld]
    rfl
  have hwaiting : ∀ q, q ∈ s'.world.plupdates ↔ q = p ∨ q ∈ s.world.plupdates := by
    intro q
    rw [hworld]
    exact mem_setInsert
  have hleft : s'.world.plleft = s.world.plleft := by
    rw [hworld]
    rfl
  have hpids : s'.world.pids = s.world.pids := by
    rw [hworld]
    rfl
  -- everyone keeps the id
  have hsame : ∀ {q id' pos'}, s'.players q = some (id', pos') →
      ∃ pos₁, s.players q = some (id', pos₁) := by
    intro q id' pos' hq
    rw [hplayers] at hq
    obtain ⟨rfl, hpl⟩ | ⟨-, hq⟩ := Table.update_eq_some.mp hq
    · rw [← (Prod.mk.inj hpl).1]
      exact ⟨pos₀, hp⟩
    · exact ⟨pos', hq⟩
  have hnamed : s'.Named := by
    constructor
    case present =>
      intro q
      rw [hclients, h.present, hplayers, Function.update_apply]
      split
      case isTrue heq =>
        rw [heq]
        exact ⟨fun _ => ⟨_, rfl⟩, fun _ => ⟨_, hp⟩⟩
      case isFalse => exact Iff.rfl
    case unique =>
      intro q q' id' pos' pos'' hq hq'
      obtain ⟨pos₁, hq⟩ := hsame hq
      obtain ⟨pos₂, hq'⟩ := hsame hq'
      exact h.unique hq hq'
  constructor
  case toNamed => exact hnamed
  case given =>
    intro q id' pos' hq
    obtain ⟨pos₁, hq⟩ := hsame hq
    rw [hpids]
    exact h.given hq
  case waiting =>
    intro q hq
    rw [hclients]
    obtain rfl | hq := (hwaiting q).mp hq
    · exact (h.present q).mpr ⟨_, hp⟩
    · exact h.waiting hq
  case left =>
    intro id' hid
    rw [hleft, hsent] at hid
    obtain ⟨hle, hnone⟩ := h.left hid
    rw [hpids]
    refine ⟨hle, ?_⟩
    intro q pos' hq
    obtain ⟨pos₁, hq⟩ := hsame hq
    exact hnone q pos₁ hq
  case order =>
    rw [hsent]
    exact h.order
  case follows =>
    intro q hq
    rw [hclients] at hq
    rw [hmaps, h.position_write hnamed hp hplayers]
    apply (h.follows q hq).write.mono
    · intro id' hid'
      obtain rfl | ⟨q', hq', pos', hpl⟩ := Set.mem_insert_iff.mp hid'
      · refine ⟨p, (hwaiting p).mpr (Or.inl rfl), pos, ?_⟩
        rw [hplayers, Function.update_self]
      · by_cases heq : q' = p
        · subst heq
          rw [hp] at hpl
          refine ⟨q', (hwaiting q').mpr (Or.inl rfl), pos, ?_⟩
          rw [hplayers, Function.update_self, (Prod.mk.inj (Option.some.inj hpl)).1]
        · refine ⟨q', (hwaiting q').mpr (Or.inr hq'), pos', ?_⟩
          rw [hplayers, Function.update_of_ne heq, hpl]
    · rw [gone, gone, hleft]

/-- A client leaves. -/
theorem Sound.leave {p : ClientPtr} (h : s.Sound) :
  (s.leave p).Sound
  := by
  rw [Lobby.leave]
  split
  case h_2 => exact h
  case h_1 id pos₀ hp =>
  generalize hs' : Lobby.mk _ _ _ _ = s'
  have hworld : s'.world = s.world.rmCli p id := by
    rw [← hs']
  have hplayers : s'.players = Function.update s.players p none := by
    rw [← hs']
  have hmaps : s'.maps = s.maps := by
    rw [← hs']
  have hsent : s'.sent = s.sent := by
    rw [← hs']
  have hrm : (s.world.rmCli p id).clients = setErase p s.world.clients ∧
      (s.world.rmCli p id).plupdates = setErase p s.world.plupdates ∧
      (s.world.rmCli p id).plleft = setInsert (· ≤ ·) id s.world.plleft ∧
      (s.world.rmCli p id).pids = s.world.pids := by
    rw [World.rmCli]
    dsimp only
    split
    · exact ⟨rfl, rfl, rfl, rfl⟩
    · exact ⟨rfl, rfl, rfl, rfl⟩
  rw [← hworld] at hrm
  obtain ⟨hclients, hplupdates, hplleft, hpids⟩ := hrm
  have hold : ∀ {q pl}, s'.players q = some pl → q ≠ p ∧ s.players q = some pl := by
    intro q pl hq
    rw [hplayers, Function.update_apply] at hq
    split at hq
    case isTrue => cases hq
    case isFalse hne => exact ⟨hne, hq⟩
  have hnamed : s'.Named := by
    constructor
    case present =>
      intro q
      rw [hclients, mem_setErase, h.present, hplayers, Function.update_apply]
      split
      case isTrue heq => simp [heq]
      case isFalse hne => exact ⟨And.left, fun hq => ⟨hq, hne⟩⟩
    case unique => exact fun hq hq' => h.unique (hold hq).2 (hold hq').2
  constructor
  case toNamed => exact hnamed
  case given =>
    intro q id' pos' hq
    rw [hpids]
    exact h.given (hold hq).2
  case waiting =>
    intro q hq
    rw [hplupdates, mem_setErase] at hq
    rw [hclients, mem_setErase]
    exact ⟨h.waiting hq.1, hq.2⟩
  case left =>
    intro id' hid
    rw [hpids]
    have hnone : id' = id → ∀ q pos, s'.players q ≠ some (id', pos) := by
      rintro rfl q pos hq
      obtain ⟨hne, hq⟩ := hold hq
      exact hne (h.unique hq hp)
    rw [hplleft, hsent, mem_setInsert, or_assoc] at hid
    obtain heq | hid := hid
    · refine ⟨?_, hnone heq⟩
      rw [heq]
      exact h.given hp
    · obtain ⟨hle, hnone⟩ := h.left hid
      exact ⟨hle, fun q pos hq => hnone q pos (hold hq).2⟩
  case order =>
    rw [hsent]
    exact h.order
  case follows =>
    intro q hq
    rw [hclients, mem_setErase] at hq
    rw [hmaps, h.position_remove hnamed hp hplayers]
    have hremoved : Follows (Function.update s.position id none) (s.maps q) s'.dirty
        (insert id s.gone) := by
      apply (h.follows q hq.1).remove
      rintro id' ⟨q', hq', pos', hpl⟩ hne
      have hqp : q' ≠ p := by
        rintro rfl
        rw [hp] at hpl
        exact hne (Prod.mk.inj (Option.some.inj hpl)).1.symm
      refine ⟨q', ?_, pos', ?_⟩
      · rw [hplupdates, mem_setErase]
        exact ⟨hq', hqp⟩
      · rw [hplayers, Function.update_of_ne hqp, hpl]
    apply hremoved.mono (Set.Subset.refl _)
    intro id' hid'
    show id' ∈ s'.world.plleft
    rw [hplleft, mem_setInsert]
    exact hid'

/-- A tick. -/
theorem Sound.tick (h : s.Sound) :
  s.tick.Sound
  := by
  rw [Lobby.tick]
  split
  case isFalse => exact h
  case isTrue =>
  obtain ⟨msg, heq, hupdated, hdeparted⟩ := World.sendUpdates_players s.world s.info
  rw [heq]
  dsimp only
  rw [List.foldl_cons, List.foldl_nil, receive]
  dsimp only
  generalize hs' : Lobby.mk _ _ _ _ = s'
  have hworld : s'.world = World.ticked { s.world with updActive := false } := by
    rw [← hs']
  have hplayers : s'.players = s.players := by
    rw [← hs']
  have hsent : s'.sent = s.sent ++ [msg] := by
    rw [← hs']
  have hticked : s'.world.clients = s.world.clients ∧
      s'.world.plupdates = s.world.plupdates.drop worldMaxPlayerUpdates ∧
      s'.world.plleft = s.world.plleft.drop worldMaxPlayerLeftUpdates ∧
      s'.world.pids = s.world.pids := by
    rw [hworld, World.ticked]
    dsimp only
    split
    · exact ⟨rfl, rfl, rfl, rfl⟩
    · exact ⟨rfl, rfl, rfl, rfl⟩
  obtain ⟨hclients, hplupdates, hplleft, hpids⟩ := hticked
  have hmaps : ∀ q ∈ s.world.clients, s'.maps q = read (s.maps q) msg := by
    intro q hq
    have hmem : q ∈ (World.ticked { s.world with updActive := false }).clients := by
      rw [← hworld, hclients]
      exact hq
    rw [← hs']
    exact if_pos hmem
  have hposition : s'.position = s.position := by
    funext id
    rw [position, position, hclients, hplayers]
  -- those that are listed are clients
  have hlisted : ∀ {pl}, pl ∈ updatePlayers msg → ∃ p, s.players p = some pl := by
    intro pl hpl
    rw [hupdated] at hpl
    obtain ⟨p, hp, rfl⟩ := List.mem_map.mp hpl
    obtain ⟨pl, hpl⟩ := (h.present p).mp (h.waiting (List.mem_of_mem_take hp))
    refine ⟨p, ?_⟩
    rw [info, hpl, Option.getD_some]
  constructor
  case toNamed =>
    constructor
    case present =>
      rw [hclients, hplayers]
      exact h.present
    case unique =>
      rw [hplayers]
      exact h.unique
  case given =>
    rw [hplayers, hpids]
    exact h.given
  case waiting =>
    intro p hp
    rw [hplupdates] at hp
    rw [hclients]
    exact h.waiting (List.mem_of_mem_drop hp)
  case left =>
    intro id hid
    rw [hplayers, hpids]
    apply h.left
    obtain hid | ⟨m, hm, hid⟩ := hid
    · rw [hplleft] at hid
      exact Or.inl (List.mem_of_mem_drop hid)
    · rw [hsent] at hm
      obtain hm | hm := List.mem_append.mp hm
      · exact Or.inr ⟨m, hm, hid⟩
      · rw [List.mem_singleton.mp hm, hdeparted] at hid
        exact Or.inl (List.mem_of_mem_take hid)
  case order =>
    rw [hsent, List.pairwise_append]
    refine ⟨h.order, List.pairwise_singleton _ _, ?_⟩
    rintro m hm m' hm' id hid ⟨id', pos⟩ hpl rfl
    rw [List.mem_singleton.mp hm'] at hpl
    obtain ⟨p, hp⟩ := hlisted hpl
    exact (h.left (Or.inr ⟨m, hm, hid⟩)).2 p pos hp
  case follows =>
    intro q hq
    rw [hclients] at hq
    rw [hmaps q hq, hposition]
    apply (h.follows q hq).tell
    · rintro ⟨id, pos⟩ hpl
      exact h.position_eq.mpr (hlisted hpl)
    · intro id hid
      rw [hdeparted] at hid
      exact h.position_none.mpr (h.left (Or.inl (List.mem_of_mem_take hid))).2
    · rintro id ⟨p, hp, pos, hpl⟩
      rw [← List.take_append_drop worldMaxPlayerUpdates s.world.plupdates] at hp
      obtain hp | hp := List.mem_append.mp hp
      · left
        rw [hupdated, List.map_map, List.mem_map]
        refine ⟨p, hp, ?_⟩
        rw [Function.comp_apply, info, hpl, Option.getD_some]
      · right
        refine ⟨p, ?_, pos, ?_⟩
        · rw [hplupdates]
          exact hp
        · rw [hplayers]
          exact hpl
    · intro id hid
      have hid' : id ∈ s.world.plleft := hid
      rw [← List.take_append_drop worldMaxPlayerLeftUpdates s.world.plleft] at hid'
      obtain hid' | hid' := List.mem_append.mp hid'
      · left
        rw [hdeparted]
        exact hid'
      · right
        show id ∈ s'.world.plleft
        rw [hplleft]
        exact hid'

/-- Any event. -/
theorem Sound.step {e : PlayerEvent} (h : s.Sound) (hwrap : s.Unwrapped e) :
  (s.step e).Sound
  := by
  cases e with
  | join p => exact h.join (hwrap p rfl)
  | move p pos => exact h.move pos
  | teleport p x y => exact h.move _
  | leave p => exact h.leave
  | tick => exact h.tick

/-- A world that nobody has joined. -/
theorem sound_start {w : World} (hclients : w.clients = []) (hplupdates : w.plupdates = [])
    (hplleft : w.plleft = []) :
  (start w).Sound
  := by
  constructor
  case toNamed =>
    constructor
    case present => simp [start, hclients]
    case unique => simp [start]
  case given => simp [start]
  case waiting => simp [start, hplupdates]
  case left => simp [start, hplleft]
  case order => exact List.Pairwise.nil
  case follows => simp [start, hclients]

/-- Player lists converge.  In every run of a new world in which the counter of ids does not come
to its end, whenever no player waits to be sent and no id waits to be sent as having left, the map
of each client has the clients of the world with their positions, and nothing else; and no id is
ever listed as a player after it was listed as having left. -/
theorem maps_converge [Platform] (path name : Bytes) (d : Disk) (events : List PlayerEvent)
    (hwrap : Runs.Along step Unwrapped (start (World.new path name d).1) events) :
  Runs.Always step (fun s =>
      (s.world.plupdates = [] → s.world.plleft = [] → ∀ p ∈ s.world.clients, ∀ id pos,
        s.maps p id = some pos ↔ ∃ q ∈ s.world.clients, s.players q = some (id, pos)) ∧
      s.sent.Pairwise fun m m' => ∀ id ∈ updateLeft m, ∀ pl ∈ updatePlayers m', pl.1 ≠ id)
    (start (World.new path name d).1) events
  := by
  have hnew : (start (World.new path name d).1).Sound := by
    rw [World.new]
    dsimp only
    rw [World.reload_rest]
    exact sound_start rfl rfl rfl
  refine Runs.Always.mono (hwrap.always hnew fun _ _ h hw => h.step hw) ?_
  intro s h
  refine ⟨?_, h.order⟩
  intro hplupdates hplleft p hp id pos
  have heq : s.maps p = s.position := by
    apply (h.follows p hp).eq
    · rintro id' ⟨q, hq, -⟩
      rw [hplupdates] at hq
      cases hq
    · intro id' hid'
      have hmem : id' ∈ s.world.plleft := hid'
      rw [hplleft] at hmem
      cases hmem
  rw [heq, h.position_eq]
  constructor
  · rintro ⟨q, hq⟩
    exact ⟨q, (h.present q).mpr ⟨_, hq⟩, hq⟩
  · rintro ⟨q, -, hq⟩
    exact ⟨q, hq⟩

/-- Two players join, one moves, both are sent, and the other leaves. -/
theorem maps_converge_two :
  letI := Platform.quiet
  Runs.Always step (fun s =>
      (s.world.plupdates = [] → s.world.plleft = [] → ∀ p ∈ s.world.clients, ∀ id pos,
        s.maps p id = some pos ↔ ∃ q ∈ s.world.clients, s.players q = some (id, pos)) ∧
      s.sent.Pairwise fun m m' => ∀ id ∈ updateLeft m, ∀ pl ∈ updatePlayers m', pl.1 ≠ id)
    (start (World.new [47] [97] (Disk.empty fun _ => false)).1)
    [.join 1, .join 2, .move 1 ⟨3, 4, 0, 0, 0, 1⟩, .tick, .leave 2, .tick]
  := by
  let _ := Platform.quiet
  apply maps_converge
  simp only [Runs.along_cons]
  and_intros
  · intro _ _
    decide +kernel
  · intro _ _
    decide +kernel
  · rintro _ ⟨⟩
  · rintro _ ⟨⟩
  · rintro _ ⟨⟩
  · rintro _ ⟨⟩
  · exact Runs.along_nil

end Lobby

end Owop
