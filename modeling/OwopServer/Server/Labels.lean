import Mathlib.Logic.Relation
import OwopServer.Server.Connections
import OwopServer.Server.Effects
import OwopServer.World.Updates

/-!
# What the server does in small steps

The registry of a server, and the small steps its functions are made of.  Each small step is
allowed in a consistent server under a condition that says which objects it uses, so that
none of them is used after its end; it may be asked that they belong to certain worlds.
-/

namespace Owop

/-! ### The registry of a server -/

/-- The seat of a client. -/
def Client.seat (cl : Client) : Seat := ⟨cl.ws, cl.wrld, cl.handledelete⟩

/-- The room of a world. -/
def World.room (w : World) : Room := ⟨w.name, w.clients, w.plupdates⟩

/-- The client gets no pixels if it has no rank. -/
def Client.Poor (cl : Client) : Prop := cl.rank = Rank.none → cl.pixupdlimit.rate = 0

/-- What worlds may be asked for: new clients get no more than the rank of a user. -/
def WorldAct.Modest : WorldAct → Prop
  | setDefaultRank r => r ≤ Rank.user
  | _ => True

namespace World

/-- The world when a client has left it: the timer of an empty world is stopped. -/
def lose (w : World) (p : ClientPtr) (id : UInt32) : World :=
  let w := w.rmCli p id
  if w.clients = [] then { w with updActive := false } else w

/-- A world that loses a client changes in its players only. -/
theorem lose_rest (w : World) (p : ClientPtr) (id : UInt32) :
  w.lose p id = { w with
    plleft := (w.lose p id).plleft, clients := (w.lose p id).clients
    plupdates := (w.lose p id).plupdates, updActive := (w.lose p id).updActive }
  := by
  simp only [lose, rmCli]
  split_ifs <;> rfl

end World

namespace Server

/-- What the server knows about who is connected and where. -/
def registry (s : Server) : Registry where
  connsws := s.connsws
  nextWs := s.nextWs
  player ws := (s.infos ws).map SocketInfo.player
  seat p := (s.clients p).map Client.seat
  room wp := (s.objs wp).map World.room
  worlds name := s.worlds.lookup name
  pending := s.pending
  closing := s.closing

/-- A client that has not left. -/
def Live (s : Server) (p : ClientPtr) (cl : Client) : Prop :=
  s.clients p = some cl ∧ cl.handledelete = true

/-- The registry is consistent, worlds give new clients no more than the rank of a user, and
what nothing sets is empty. -/
structure Consistent (s : Server) : Prop where
  registry : s.registry.Consistent
  defaultRank : ∀ {wp w}, s.objs wp = some w → w.defaultRank ≤ Rank.user
  origin : ∀ {ws si}, s.infos ws = some si → si.origin = []
  proxies : s.proxyqueryChecking = []

variable {s : Server}

/-- The seats of the registry are those of the clients. -/
theorem registry_seat {p : ClientPtr} {seat : Seat} :
  s.registry.seat p = some seat ↔ ∃ cl, s.clients p = some cl ∧ cl.seat = seat
  := Option.map_eq_some_iff

/-- The rooms of the registry are those of the worlds. -/
theorem registry_room {wp : WorldPtr} {r : Room} :
  s.registry.room wp = some r ↔ ∃ w, s.objs wp = some w ∧ w.room = r
  := Option.map_eq_some_iff

/-- The players of the registry are those of the connections. -/
theorem registry_player {ws : Ws} {player : Option ClientPtr} :
  s.registry.player ws = some player ↔ ∃ si, s.infos ws = some si ∧ si.player = player
  := Option.map_eq_some_iff

/-- A client that is there has a seat. -/
theorem Live.seat {p : ClientPtr} {cl : Client} (h : s.Live p cl) :
  s.registry.seat p = some ⟨cl.ws, cl.wrld, true⟩
  := registry_seat.mpr ⟨cl, h.1, by rw [Client.seat, h.2]⟩

/-- The client in a seat of the registry that is taken. -/
theorem live_of_seat {p : ClientPtr} {ws : Ws} {wp : WorldPtr}
    (h : s.registry.seat p = some ⟨ws, wp, true⟩) :
  ∃ cl, s.Live p cl ∧ cl.ws = ws ∧ cl.wrld = wp
  := by
  obtain ⟨cl, hcl, hseat⟩ := registry_seat.mp h
  obtain ⟨hws, hwp, hpresent⟩ := Seat.mk.inj hseat
  exact ⟨cl, ⟨hcl, hpresent⟩, hws, hwp⟩

/-- A client that has not left is the player of its connection. -/
theorem Consistent.info_of_live {p : ClientPtr} {cl : Client} (h : s.Consistent)
    (hp : s.Live p cl) :
  ∃ si, s.infos cl.ws = some si ∧ si.player = some p
  := registry_player.mp (h.registry.player_of_seat hp.seat)

/-- The player of a connection has not left. -/
theorem Consistent.live_of_player {ws : Ws} {si : SocketInfo} {p : ClientPtr}
    (h : s.Consistent) (hws : s.infos ws = some si) (hp : si.player = some p) :
  ∃ cl, s.Live p cl ∧ cl.ws = ws
  := by
  obtain ⟨wp, hseat⟩ := h.registry.seat_of_player (registry_player.mpr ⟨si, hws, hp⟩)
  obtain ⟨cl, hcl, hws', -⟩ := live_of_seat hseat
  exact ⟨cl, hcl, hws'⟩

/-- A client that has not left is one of the clients of its world. -/
theorem Consistent.world_of_live {p : ClientPtr} {cl : Client} (h : s.Consistent)
    (hp : s.Live p cl) :
  ∃ w, s.objs cl.wrld = some w ∧ p ∈ w.clients
  := by
  obtain ⟨r, hr, hmem⟩ := h.registry.room_of_seat hp.seat
  obtain ⟨w, hw, rfl⟩ := registry_room.mp hr
  exact ⟨w, hw, hmem⟩

/-- The clients of a world have not left. -/
theorem Consistent.live_of_mem {wp : WorldPtr} {w : World} {p : ClientPtr} (h : s.Consistent)
    (hw : s.objs wp = some w) (hp : p ∈ w.clients) :
  ∃ cl, s.Live p cl ∧ cl.wrld = wp
  := by
  obtain ⟨ws, hseat⟩ := h.registry.seat_of_room (registry_room.mpr ⟨w, hw, rfl⟩) hp
  obtain ⟨cl, hcl, -, hwp⟩ := live_of_seat hseat
  exact ⟨cl, hcl, hwp⟩

/-- The connections in `connsws` are the open ones. -/
theorem Consistent.mem_connsws {ws : Ws} (h : s.Consistent) :
  ws ∈ s.connsws ↔ ∃ si, s.infos ws = some si
  := by
  rw [← Option.isSome_iff_exists, ← Option.isSome_map (f := SocketInfo.player)]
  exact h.registry.mem_connsws

/-- A loaded world is in memory, with clients. -/
theorem Consistent.world_of_lookup {name : Bytes} {wp : WorldPtr} (h : s.Consistent)
    (hwp : s.worlds.lookup name = some wp) :
  ∃ w, s.objs wp = some w ∧ w.name = name ∧ w.clients ≠ []
  := by
  obtain ⟨r, hr, hname, hclients⟩ := h.registry.room_of_worlds hwp
  obtain ⟨w, hw, rfl⟩ := registry_room.mp hr
  exact ⟨w, hw, hname, hclients⟩

/-- Two clients that have not left and have one connection are the same. -/
theorem Consistent.live_unique {p q : ClientPtr} {cl cl' : Client} (h : s.Consistent)
    (hp : s.Live p cl) (hq : s.Live q cl') (hws : cl.ws = cl'.ws) :
  p = q
  := by
  obtain ⟨si, hsi, hplayer⟩ := h.info_of_live hp
  obtain ⟨si', hsi', hplayer'⟩ := h.info_of_live hq
  rw [hws, hsi'] at hsi
  cases hsi
  rw [hplayer'] at hplayer
  exact (Option.some.inj hplayer).symm

/-- The lookups in a table after an entry was removed. -/
theorem lookup_erase_eq {β : Type*} (l : AList fun _ : Bytes => β) (a : Bytes) :
  (fun a' => (l.erase a).lookup a') = Function.update (fun a' => l.lookup a') a none
  := by
  funext a'
  rw [Function.update_apply]
  split
  case isTrue heq => rw [heq, AList.lookup_erase]
  case isFalse hne => rw [AList.lookup_erase_ne hne]

/-- The lookups in a table after an entry was made. -/
theorem lookup_insert_eq {β : Type*} (l : AList fun _ : Bytes => β) (a : Bytes) (b : β) :
  (fun a' => (l.insert a b).lookup a') = Function.update (fun a' => l.lookup a') a (some b)
  := by
  funext a'
  rw [Function.update_apply]
  split
  case isTrue heq => rw [heq, AList.lookup_insert]
  case isFalse hne => rw [AList.lookup_insert_ne hne]

/-! ### Using what is there -/

/-- A client that is found. -/
theorem withClient_eq {p : ClientPtr} {cl : Client} (k : Client → Server)
    (h : s.clients p = some cl) :
  s.withClient p k = k cl
  := by
  rw [withClient, h]

/-- A connection that is found. -/
theorem withInfo_eq {ws : Ws} {si : SocketInfo} (k : SocketInfo → Server)
    (h : s.infos ws = some si) :
  s.withInfo ws k = k si
  := by
  rw [withInfo, h]

/-- A world that is found. -/
theorem withWorld_eq {wp : WorldPtr} {w : World} (k : World → Server) (h : s.objs wp = some w) :
  s.withWorld wp k = k w
  := by
  rw [withWorld, h]

/-! ### Small steps -/

variable [Platform]

/-- The server with the settings of `t`. -/
def configure (s t : Server) : Server :=
  { s with
    connlimiter := t.connlimiter, maxconns := t.maxconns, captchaRequired := t.captchaRequired
    proxyLock := t.proxyLock, instaban := t.instaban, trustingCaptcha := t.trustingCaptcha
    fastconnectaction := t.fastconnectaction }

/-- Let a world do something, without the messages. -/
def perform (s : Server) (wp : WorldPtr) (a : WorldAct) : Server :=
  s.withWorld wp fun w =>
    { s.putWorld wp (a.run w s.disk).1 with
      disk := (a.run w s.disk).2.1
      log := s.log ++ (a.run w s.disk).2.2.2.map fun e => .edit w.name e }

omit [Platform] in
/-- The handler of `onDisconnection`, without the check of lockdown and the record. -/
def drop (s : Server) (ws : Ws) : Server :=
  s.withInfo ws fun si =>
    match si.player with
    | some p => s.withClient p fun _ => ((s.leave p).countDown si.ip).forget ws
    | none => (s.countDown si.ip).forget ws

omit [Platform] in
/-- Record that a connection is gone, and lift lockdown if it was that of an administrator and no
whitelisted address is counted. -/
def lift (s : Server) (admin guarded counted : Bool) : Server :=
  { s with
    lockdown := s.lockdown && !(admin && !counted)
    log := s.log ++ [.gone s.lockdown admin guarded counted] }

/-- A small step. -/
inductive Label where
  | note (a : Action)
  | gone (admin guarded counted : Bool)
  | change (p : ClientPtr) (c : ClientChange)
  | place (p : ClientPtr) (pos : PInfo)
  | act (wp : WorldPtr) (a : WorldAct)
  | drop (ws : Ws)
  | config (t : Server)
  | lockdown (state : Bool)
  | lists (ipban ipwhitelist ipblacklist : List Bytes)
  | eraseConns (ip : Bytes)
  | save (wp : WorldPtr)
  | files

/-- The server after a small step. -/
def Label.step (s : Server) : Label → Server
  | note a => s.note a
  | gone admin guarded counted => s.lift admin guarded counted
  | change p c => s.change p c
  | place p pos => s.place p pos
  | act wp a => s.perform wp a
  | drop ws => s.drop ws
  | config t => s.configure t
  | lockdown state => { s with lockdown := state }
  | lists ipban ipwhitelist ipblacklist =>
      { s with ipban := ipban, ipwhitelist := ipwhitelist, ipblacklist := ipblacklist }
  | eraseConns ip => { s with conns := s.conns.erase ip }
  | save wp => s.saveWorld wp
  | files => s.writefiles

/-- The worlds whose objects some small steps may use, what they may let worlds do, the
connections they may close, and whether they may set lockdown. -/
structure Scope where
  wrld : WorldPtr → Prop
  acts : WorldAct → Prop
  drops : Ws → Prop
  locks : Prop

namespace Scope

/-- The scope with everything but setting lockdown. -/
def all : Scope := ⟨fun _ => True, fun _ => True, fun _ => True, False⟩

/-- The scope with everything but closing connections. -/
def lock : Scope := ⟨fun _ => True, fun _ => True, fun _ => False, True⟩

/-- The scope with everything, where lockdown is set or else connections are closed. -/
def any : Bool → Scope
  | false => all
  | true => lock

/-- The scope in which no connection is closed. -/
def still (D : Scope) : Scope := { D with drops := fun _ => False }

/-- The scope in which only `ws` may be closed. -/
def only (D : Scope) (ws : Ws) : Scope := { D with drops := fun ws' => ws' = ws ∧ D.drops ws' }

/-- What is in the scope `D` is in the scope `D'`. -/
structure Within (D D' : Scope) : Prop where
  wrld : ∀ {wp}, D.wrld wp → D'.wrld wp
  acts : ∀ {a}, D.acts a → D'.acts a
  drops : ∀ {ws}, D.drops ws → D'.drops ws
  locks : D.locks → D'.locks

omit [Platform] in
/-- Closing no connection is within the scope it is taken from. -/
theorem still_within (D : Scope) :
  D.still.Within D
  := ⟨id, id, False.elim, id⟩

omit [Platform] in
/-- Closing one connection is within the scope it is taken from. -/
theorem only_within (D : Scope) (ws : Ws) :
  (D.only ws).Within D
  := ⟨id, id, And.right, id⟩

omit [Platform] in
/-- A scope in which lockdown is not set is within the one with everything else. -/
theorem within_all {D : Scope} (h : ¬ D.locks) :
  D.Within all
  := ⟨fun _ => trivial, fun _ => trivial, fun _ => trivial, h⟩

end Scope

omit [Platform] in
/-- A rank above that of a user is given to those for whom a login with its password was run,
or whose rank an administrator set. -/
def Justified (s : Server) (cl : Client) : ClientChange → Prop
  | .rank r =>
      r ≤ Rank.user ∨
      r = Rank.moderator ∧ .exec cl.ws [Bytes.ofString "modlogin", s.modpw] ∈ s.log ∨
      r = Rank.admin ∧ .exec cl.ws [Bytes.ofString "adminlogin", s.adminpw] ∈ s.log ∨
      r < Rank.admin ∧ .setrank Rank.admin cl.ws ∈ s.log
  | _ => True

/-- The message tells a client its rank. -/
def tellsRank (op : OpCode) (msg : Bytes) : Bool :=
  op == .binary && msg.head? == some ServerMessage.permissions.byte

omit [Platform] in
@[simp] theorem tellsRank_text (msg : Bytes) :
  tellsRank .text msg = false
  := rfl

omit [Platform] in
@[simp] theorem tellsRank_cons (b : UInt8) (msg : Bytes) :
  tellsRank .binary (b :: msg) = (b == ServerMessage.permissions.byte)
  := rfl

/-- The message tells a client the rate of its pixels. -/
def tellsQuota (op : OpCode) (msg : Bytes) : Bool :=
  op == .binary && msg.head? == some ServerMessage.setPquota.byte

/-- What has been told on a connection, after one more action: whether it is a quota, and not the
rank that `Client::promote` tells after it. -/
def retold (ws : Ws) (quota : Bool) : Action → Bool
  | .send ws' op msg => if ws' = ws then (quota || tellsQuota op msg) && !tellsRank op msg else quota
  | _ => quota

/-- A quota was told on the connection since the last rank was: `/setpbucket` has set it. -/
def adjusted (log : List Action) (ws : Ws) : Bool := log.foldl (retold ws) false

omit [Platform] in
/-- A client without a rank gets pixels only after it was told a quota. -/
def Sparing (s : Server) (cl : Client) : ClientChange → Prop
  | .rank r => r = Rank.none → cl.pixupdlimit.rate = 0
  | .pbucket _ _ => adjusted s.log cl.ws = true
  | _ => True

/-- The small steps that are allowed: they use only what is there, in the worlds of the scope;
beyond those, texts may be sent to administrators. -/
inductive Allowed (D : Scope) (s : Server) : Label → Prop
  | send {ws : Ws} {op : OpCode} {msg : Bytes} {si : SocketInfo} (hws : s.infos ws = some si)
      (hD : ∀ p cl, si.player = some p → s.clients p = some cl →
        D.wrld cl.wrld ∨ op = .text ∧ cl.isAdmin = true)
      (hpoor : tellsRank op msg = true → ∀ p cl, s.Live p cl → cl.ws = ws → cl.Poor) :
      Allowed D s (.note (.send ws op msg))
  | gone {ws : Ws} {admin guarded counted : Bool} (hd : D.drops ws) :
      Allowed D s (.gone admin guarded counted)
  | exec {p : ClientPtr} {cl : Client} {args : List Bytes} (hp : s.Live p cl) :
      Allowed D s (.note (.exec cl.ws args))
  | setrank {p : ClientPtr} {cl : Client} {rank : Rank} (hp : s.Live p cl) :
      Allowed D s (.note (.setrank rank cl.ws))
  | change {p : ClientPtr} {cl : Client} {c : ClientChange} (hp : s.Live p cl)
      (hD : D.wrld cl.wrld) (hc : s.Justified cl c) (hs : s.Sparing cl c) :
      Allowed D s (.change p c)
  | place {p : ClientPtr} {cl : Client} {pos : PInfo} (hp : s.Live p cl) (hD : D.wrld cl.wrld) :
      Allowed D s (.place p pos)
  | act {wp : WorldPtr} {w : World} {a : WorldAct} (hwp : s.objs wp = some w)
      (hD : D.wrld wp) (ha : D.acts a) (hm : a.Modest) :
      Allowed D s (.act wp a)
  | drop {ws : Ws} {si : SocketInfo} (hws : s.infos ws = some si) (hd : D.drops ws)
      (hD : ∀ p cl, si.player = some p → s.clients p = some cl → D.wrld cl.wrld) :
      Allowed D s (.drop ws)
  | config {t : Server} : Allowed D s (.config t)
  | lockdown {state : Bool} (hl : D.locks) : Allowed D s (.lockdown state)
  | lists {ipban ipwhitelist ipblacklist : List Bytes} :
      Allowed D s (.lists ipban ipwhitelist ipblacklist)
  | eraseConns {ip : Bytes} (hip : ∀ ws si, s.infos ws = some si → si.ip ≠ ip) :
      Allowed D s (.eraseConns ip)
  | save {wp : WorldPtr} {w : World} (hwp : s.objs wp = some w) (hD : D.wrld wp) :
      Allowed D s (.save wp)
  | files : Allowed D s .files

/-- From one server to another by allowed small steps. -/
def Chain (D : Scope) : Server → Server → Prop :=
  Relation.ReflTransGen fun s s' => ∃ l : Label, Allowed D s l ∧ l.step s = s'

/-! ### What small steps do to the registry -/

omit [Platform] in
/-- The fields of a client are not in the registry. -/
theorem registry_change (p : ClientPtr) (c : ClientChange) :
  (s.change p c).registry = s.registry
  := by
  rw [change, withClient]
  split
  case h_1 cl hcl =>
    have hseat : (c.apply s.clock cl).seat = cl.seat := by
      cases c <;> rfl
    ext1
    case seat => exact Table.map_update_same hcl hseat
    all_goals rfl
  case h_2 => rfl

omit [Platform] in
/-- A world with the same players is the same in the registry. -/
theorem registry_putWorld {wp : WorldPtr} {w w' : World} (hwp : s.objs wp = some w)
    (hroom : w'.room = w.room) :
  (s.putWorld wp w').registry = s.registry
  := by
  ext1
  case room => exact Table.map_update_same hwp hroom
  all_goals rfl

/-- The worlds have the same room and give new clients the same rank. -/
def Alike (w w' : World) : Prop := w'.room = w.room ∧ w'.defaultRank = w.defaultRank

/-- Looking for a chunk keeps the players. -/
theorem getChunk_alike (w : World) (d : Disk) (x y : Int32) :
  Alike w (w.getChunk d x y).2.1
  := by
  rw [(World.getChunk_frame w d x y).rest]
  exact ⟨rfl, rfl⟩

/-- An operation of a world leaves its room alone, and its rank for new clients unless that is
what is asked for. -/
theorem run_alike (w : World) (d : Disk) (a : WorldAct) :
  (a.run w d).1.room = w.room ∧
    ((a.run w d).1.defaultRank = w.defaultRank ∨
      a = .setDefaultRank (a.run w d).1.defaultRank)
  := by
  have heffect := a.effect w d
  generalize a.run w d = done at heffect ⊢
  cases heffect with
  | rest hw' hrank =>
      refine ⟨?_, hrank⟩
      rw [hw']
      rfl
  | prop => exact ⟨rfl, Or.inl rfl⟩
  | @look x y =>
      obtain ⟨hroom, hrank⟩ := getChunk_alike w d x y
      exact ⟨hroom, Or.inl hrank⟩
  | @chunk x y c w' d' outs data ha hrange hgot =>
      obtain ⟨hroom, hrank⟩ := getChunk_alike w d x y
      rw [hgot] at hroom hrank
      exact ⟨hroom, Or.inl hrank⟩
  | @pixel x y c w' d' clr ha hrange hgot =>
      obtain ⟨hroom, hrank⟩ := getChunk_alike w d (chunkOf x) (chunkOf y)
      rw [hgot] at hroom hrank
      exact ⟨hroom, Or.inl hrank⟩
  | outside => exact ⟨rfl, Or.inl rfl⟩
  | @protect x y state c w' d' outs ha hrange hgot =>
      obtain ⟨hroom, hrank⟩ :=
        getChunk_alike { w with db := w.db.setChunkProtection x y state } d x y
      rw [hgot] at hroom hrank
      exact ⟨hroom, Or.inl hrank⟩

/-- Saving keeps the players. -/
theorem save_alike (w : World) (d : Disk) :
  Alike w (w.save d).1
  := by
  rw [World.save]
  have h := World.foldl_saveChunk_frame w.chunks.keys (w, d)
  generalize w.chunks.keys.foldl World.saveChunk (w, d) = saved at h ⊢
  obtain ⟨w', d'⟩ := saved
  dsimp only at h ⊢
  rw [h.rest]
  exact ⟨rfl, rfl⟩

/-- What a world is asked for keeps the players. -/
theorem registry_perform (wp : WorldPtr) (a : WorldAct) :
  (s.perform wp a).registry = s.registry
  := by
  rw [perform, withWorld]
  split
  case h_1 w hw => exact registry_putWorld hw (run_alike w s.disk a).1
  case h_2 => rfl

/-- Saving a world is not seen in the registry. -/
theorem registry_saveWorld (wp : WorldPtr) :
  (s.saveWorld wp).registry = s.registry
  := by
  rw [saveWorld, withWorld]
  split
  case h_1 w hw => exact registry_putWorld hw (save_alike w s.disk).1
  case h_2 => rfl

omit [Platform] in
/-- A client that moves is noted in its world. -/
theorem place_eq {p : ClientPtr} {cl : Client} {w : World} (pos : PInfo)
    (hp : s.clients p = some cl) (hw : s.objs cl.wrld = some w) :
  s.place p pos = { s with
    clients := Function.update s.clients p (some { cl with pos := pos })
    objs := Function.update s.objs cl.wrld (some (w.updCli p)) }
  := by
  simp only [place, withClient, hp, withWorld, hw, putWorld]

omit [Platform] in
/-- A client that moves, in the registry. -/
theorem registry_place {p : ClientPtr} {cl : Client} {w : World} (pos : PInfo)
    (hp : s.clients p = some cl) (hw : s.objs cl.wrld = some w) :
  (s.place p pos).registry = s.registry.mark cl.wrld p
  := by
  rw [place_eq pos hp hw, Registry.mark, registry_room.mpr ⟨w, hw, rfl⟩]
  ext1
  case seat => exact Table.map_update_same hp rfl
  case room => exact Table.map_update World.room s.objs cl.wrld (some (w.updCli p))
  all_goals rfl

omit [Platform] in
/-- A client that leaves, and its world if it was the last. -/
theorem leave_eq {p : ClientPtr} {cl : Client} {w : World} (hp : s.Live p cl)
    (hw : s.objs cl.wrld = some w) :
  s.leave p =
    if (w.rmCli p cl.id).clients = [] then { s with
      clients := Function.update s.clients p (some { cl with handledelete := false })
      objs := Function.update s.objs cl.wrld (some { w.rmCli p cl.id with updActive := false })
      worlds := s.worlds.erase w.name
      pending := s.pending ++ [Callback.client p, Callback.world cl.wrld] }
    else { s with
      clients := Function.update s.clients p (some { cl with handledelete := false })
      objs := Function.update s.objs cl.wrld (some (w.rmCli p cl.id))
      pending := s.pending ++ [Callback.client p] }
  := by
  have hname : (w.rmCli p cl.id).name = w.name := by
    rw [World.rmCli]
    split <;> rfl
  simp only [leave, unlink, withClient, hp.1, hp.2, if_true, withWorld, hw, putWorld,
    Function.update_self, World.isEmpty, List.isEmpty_iff, hname, unload, Function.update_idem,
    List.append_assoc, List.singleton_append]

omit [Platform] in
/-- A client that leaves, in the registry. -/
theorem registry_leave {p : ClientPtr} {cl : Client} {w : World} (hp : s.Live p cl)
    (hw : s.objs cl.wrld = some w) :
  (s.leave p).registry = s.registry.leave p cl.ws cl.wrld w.room
  := by
  have hclients : (w.rmCli p cl.id).clients = setErase p w.clients := by
    rw [World.rmCli]
    split <;> rfl
  have hroom : (w.rmCli p cl.id).room = ⟨w.name, setErase p w.clients, setErase p w.plupdates⟩ := by
    rw [World.rmCli]
    split <;> rfl
  rw [leave_eq hp hw, hclients]
  by_cases hempty : setErase p w.clients = []
  · rw [if_pos hempty]
    ext1
    case seat => exact Table.map_update Client.seat s.clients p _
    case room =>
      refine (Table.map_update World.room s.objs cl.wrld _).trans ?_
      exact congrArg _ (congrArg some hroom)
    case worlds => exact (lookup_erase_eq s.worlds w.name).trans (if_pos hempty).symm
    case pending =>
      exact congrArg (fun l => s.pending ++ Callback.client p :: l) (if_pos hempty).symm
    all_goals rfl
  · rw [if_neg hempty]
    ext1
    case seat => exact Table.map_update Client.seat s.clients p _
    case room =>
      refine (Table.map_update World.room s.objs cl.wrld _).trans ?_
      exact congrArg _ (congrArg some hroom)
    case worlds => exact (if_neg hempty).symm
    case pending =>
      exact congrArg (fun l => s.pending ++ Callback.client p :: l) (if_neg hempty).symm
    all_goals rfl

omit [Platform] in
/-- A connection that is forgotten, in the registry. -/
theorem registry_forget (ws : Ws) :
  (s.forget ws).registry = s.registry.forget ws
  := by
  ext1
  case player => exact Table.map_update SocketInfo.player s.infos ws none
  all_goals rfl

omit [Platform] in
/-- A disconnection in a consistent server. -/
theorem registry_drop {ws : Ws} (h : s.Consistent) :
  (s.drop ws).registry = s.registry.depart ws
  := by
  rw [drop, withInfo, Registry.depart]
  cases hws : s.infos ws with
  | none =>
      have hplayer : s.registry.player ws = none := by
        simp only [registry, hws, Option.map_none]
      rw [hplayer]
      rfl
  | some si =>
      have hplayer : s.registry.player ws = some si.player := registry_player.mpr ⟨si, hws, rfl⟩
      rw [hplayer]
      dsimp only
      cases hp : si.player with
      | none =>
          calc
            _ = ((s.countDown si.ip).forget ws).registry := rfl
            _ = s.registry.forget ws := registry_forget ws
      | some p =>
          obtain ⟨cl, hcl, rfl⟩ := h.live_of_player hws hp
          obtain ⟨w, hw, -⟩ := h.world_of_live hcl
          have hroom : s.registry.room cl.wrld = some w.room := registry_room.mpr ⟨w, hw, rfl⟩
          dsimp only
          rw [withClient_eq _ hcl.1, hcl.seat]
          dsimp only
          rw [hroom]
          dsimp only
          calc
            _ = (((s.leave p).countDown si.ip).forget cl.ws).registry := rfl
            _ = (s.registry.leave p cl.ws cl.wrld w.room).forget cl.ws := by
              rw [registry_forget, ← registry_leave hcl hw]
              rfl

/-! ### What small steps change -/

omit [Platform] in
/-- The fields of a client that is there are changed. -/
theorem change_eq {p : ClientPtr} {cl : Client} (c : ClientChange) (hp : s.clients p = some cl) :
  s.change p c = { s with clients := Function.update s.clients p (some (c.apply s.clock cl)) }
  := by
  rw [change, withClient_eq _ hp]

/-- A world that is there does what it is asked for. -/
theorem perform_eq {wp : WorldPtr} {w : World} (a : WorldAct) (hwp : s.objs wp = some w) :
  s.perform wp a = { s with
    objs := Function.update s.objs wp (some (a.run w s.disk).1)
    disk := (a.run w s.disk).2.1
    log := s.log ++ (a.run w s.disk).2.2.2.map fun e => .edit w.name e }
  := by
  rw [perform, withWorld_eq _ hwp, putWorld]

/-- A world that is there is saved. -/
theorem saveWorld_eq {wp : WorldPtr} {w : World} (hwp : s.objs wp = some w) :
  s.saveWorld wp = { s with
    objs := Function.update s.objs wp (some (w.save s.disk).1)
    disk := (w.save s.disk).2 }
  := by
  rw [saveWorld, withWorld_eq _ hwp]
  rfl

omit [Platform] in
/-- Who leaves changes the tables of clients and worlds. -/
theorem leave_rest {p : ClientPtr} {cl : Client} {w : World} (hp : s.Live p cl)
    (hw : s.objs cl.wrld = some w) :
  s.leave p = { s with
    clients := Function.update s.clients p (some { cl with handledelete := false })
    objs := (s.leave p).objs
    worlds := (s.leave p).worlds
    pending := (s.leave p).pending }
  := by
  rw [leave_eq hp hw]
  split <;> rfl

omit [Platform] in
/-- The world of who leaves is still there, and the others are as they were. -/
theorem leave_objs {p : ClientPtr} {cl : Client} {w : World} (hp : s.Live p cl)
    (hw : s.objs cl.wrld = some w) :
  (s.leave p).objs = Function.update s.objs cl.wrld (some (w.lose p cl.id))
  := by
  rw [leave_eq hp hw, World.lose]
  split
  case isTrue => rfl
  case isFalse => rfl

omit [Platform] in
/-- What a disconnection changes. -/
theorem drop_rest {ws : Ws} {si : SocketInfo} (h : s.Consistent) (hws : s.infos ws = some si) :
  s.drop ws = { s with
    connsws := s.connsws.filter fun ws' => ws' ≠ ws
    infos := Function.update s.infos ws none
    conns := lowered s.conns si.ip
    clients := (s.drop ws).clients
    objs := (s.drop ws).objs
    worlds := (s.drop ws).worlds
    pending := (s.drop ws).pending }
  := by
  rw [drop, withInfo_eq _ hws]
  cases hp : si.player with
  | none => rfl
  | some p =>
      obtain ⟨cl, hcl, rfl⟩ := h.live_of_player hws hp
      obtain ⟨w, hw, -⟩ := h.world_of_live hcl
      dsimp only
      rw [withClient_eq _ hcl.1, leave_rest hcl hw]
      rfl

omit [Platform] in
/-- A connection that ends is gone. -/
theorem infos_drop {ws : Ws} {si : SocketInfo} (h : s.Consistent) (hws : s.infos ws = some si) :
  (s.drop ws).infos = Function.update s.infos ws none
  := congrArg Server.infos (drop_rest h hws)

omit [Platform] in
/-- A disconnection of a player. -/
theorem drop_player {ws : Ws} {si : SocketInfo} {p : ClientPtr} {cl : Client}
    (hws : s.infos ws = some si) (hp : si.player = some p) (hcl : s.Live p cl) :
  s.drop ws = ((s.leave p).countDown si.ip).forget ws
  := by
  rw [drop, withInfo_eq _ hws, hp]
  dsimp only
  rw [withClient_eq _ hcl.1]

omit [Platform] in
/-- A disconnection of a connection without a player. -/
theorem drop_none {ws : Ws} {si : SocketInfo} (hws : s.infos ws = some si)
    (hp : si.player = none) :
  s.drop ws = (s.countDown si.ip).forget ws
  := by
  rw [drop, withInfo_eq _ hws, hp]

omit [Platform] in
/-- The clients after a disconnection: the player, if there is one, has left. -/
theorem drop_clients {ws : Ws} {si : SocketInfo} (h : s.Consistent) (hws : s.infos ws = some si)
    (q : ClientPtr) :
  (s.drop ws).clients q = s.clients q ∨
    si.player = some q ∧ ∃ cl, s.Live q cl ∧
      (s.drop ws).clients q = some { cl with handledelete := false }
  := by
  cases hp : si.player with
  | none =>
      rw [drop_none hws hp]
      exact Or.inl rfl
  | some p =>
      obtain ⟨cl, hcl, -⟩ := h.live_of_player hws hp
      obtain ⟨w, hw, -⟩ := h.world_of_live hcl
      have hclients : (s.drop ws).clients
          = Function.update s.clients p (some { cl with handledelete := false }) := by
        rw [drop_player hws hp hcl, leave_rest hcl hw]
        rfl
      rw [hclients, Function.update_apply]
      split
      case isTrue heq =>
        right
        rw [heq]
        exact ⟨rfl, cl, hcl, rfl⟩
      case isFalse => exact Or.inl rfl

omit [Platform] in
/-- The worlds after a disconnection: that of the player, if there is one, has lost a client. -/
theorem drop_objs {ws : Ws} {si : SocketInfo} (h : s.Consistent) (hws : s.infos ws = some si)
    (wp : WorldPtr) :
  (s.drop ws).objs wp = s.objs wp ∨
    ∃ p cl w, si.player = some p ∧ s.Live p cl ∧ cl.wrld = wp ∧ s.objs wp = some w ∧
      (s.drop ws).objs wp = some (w.lose p cl.id)
  := by
  cases hp : si.player with
  | none =>
      rw [drop_none hws hp]
      exact Or.inl rfl
  | some p =>
      obtain ⟨cl, hcl, -⟩ := h.live_of_player hws hp
      obtain ⟨w, hw, -⟩ := h.world_of_live hcl
      have hobjs : (s.drop ws).objs = Function.update s.objs cl.wrld (some (w.lose p cl.id)) := by
        rw [drop_player hws hp hcl]
        exact leave_objs hcl hw
      rw [hobjs, Function.update_apply]
      split
      case isTrue heq =>
        right
        refine ⟨p, cl, w, rfl, hcl, heq.symm, ?_, rfl⟩
        rw [heq]
        exact hw
      case isFalse => exact Or.inl rfl

omit [Platform] in
/-- Who has not left and has another connection is as before a disconnection. -/
theorem Live.drop {ws : Ws} {si : SocketInfo} {p : ClientPtr} {cl : Client} (hp : s.Live p cl)
    (h : s.Consistent) (hws : s.infos ws = some si) (hne : cl.ws ≠ ws) :
  (s.drop ws).Live p cl
  := by
  refine ⟨?_, hp.2⟩
  obtain heq | ⟨hplayer, -⟩ := drop_clients h hws p
  · rw [heq]
    exact hp.1
  · obtain ⟨cl', hcl', hws'⟩ := h.live_of_player hws hplayer
    have heq : some cl' = some cl := hcl'.1.symm.trans hp.1
    rw [Option.some.inj heq] at hws'
    exact absurd hws' hne

/-! ### Consistency is kept -/

omit [Platform] in
/-- A server with the registry, the worlds and the connections of a consistent one. -/
theorem Consistent.of_same {s' : Server} (h : s.Consistent) (hr : s'.registry = s.registry)
    (hobjs : ∀ {wp w'}, s'.objs wp = some w' → w'.defaultRank ≤ Rank.user)
    (hinfos : s'.infos = s.infos) (hproxies : s'.proxyqueryChecking = s.proxyqueryChecking) :
  s'.Consistent
  := by
  constructor
  case registry =>
    rw [hr]
    exact h.registry
  case defaultRank => exact hobjs
  case origin =>
    rw [hinfos]
    exact h.origin
  case proxies =>
    rw [hproxies]
    exact h.proxies

omit [Platform] in
/-- A world in the place of one that gives new clients no more than the rank of a user. -/
theorem rank_update {wp wp' : WorldPtr} {w w' : World} (h : s.Consistent)
    (hw : w.defaultRank ≤ Rank.user)
    (hw' : Function.update s.objs wp (some w) wp' = some w') :
  w'.defaultRank ≤ Rank.user
  := by
  obtain ⟨-, rfl⟩ | ⟨-, hw'⟩ := Table.update_eq_some.mp hw'
  · exact hw
  · exact h.defaultRank hw'

/-- Allowed small steps keep the server consistent. -/
theorem Consistent.step {D : Scope} {l : Label} (h : s.Consistent) (hl : Allowed D s l) :
  (l.step s).Consistent
  := by
  cases hl with
  | send => exact ⟨h.registry, h.defaultRank, h.origin, h.proxies⟩
  | gone => exact ⟨h.registry, h.defaultRank, h.origin, h.proxies⟩
  | exec => exact ⟨h.registry, h.defaultRank, h.origin, h.proxies⟩
  | setrank => exact ⟨h.registry, h.defaultRank, h.origin, h.proxies⟩
  | @change p cl c hp =>
      have hr := registry_change (s := s) p c
      rw [Label.step]
      rw [change_eq c hp.1] at hr ⊢
      exact h.of_same hr h.defaultRank rfl rfl
  | @place p cl pos hp =>
      obtain ⟨w, hw, -⟩ := h.world_of_live hp
      have hr := registry_place pos hp.1 hw
      rw [Label.step]
      rw [place_eq pos hp.1 hw] at hr ⊢
      constructor
      case registry =>
        rw [hr]
        exact h.registry.mark hp.seat
      case defaultRank =>
        intro wp' w' hw'
        have hrank : w.defaultRank ≤ Rank.user := h.defaultRank hw
        exact rank_update (w := w.updCli p) h hrank hw'
      case origin => exact h.origin
      case proxies => exact h.proxies
  | @act wp w a hwp hD ha hm =>
      have hr := registry_perform (s := s) wp a
      rw [Label.step]
      rw [perform_eq a hwp] at hr ⊢
      refine h.of_same hr (fun hw' => rank_update h ?_ hw') rfl rfl
      obtain hrank | hset := (run_alike w s.disk a).2
      · rw [hrank]
        exact h.defaultRank hwp
      · rw [hset] at hm
        exact hm
  | @drop ws si hws =>
      have hr : (s.drop ws).registry = s.registry.depart ws := registry_drop h
      have hrest := drop_rest h hws
      rw [Label.step]
      constructor
      case registry =>
        rw [hr]
        exact h.registry.depart
      case defaultRank =>
        intro wp w' hw'
        obtain heq | ⟨p, cl, w, -, -, -, hw, hlose⟩ := drop_objs h hws wp
        · rw [heq] at hw'
          exact h.defaultRank hw'
        · have heq : some w' = some (w.lose p cl.id) := hw'.symm.trans hlose
          have hrank : (w.lose p cl.id).defaultRank = w.defaultRank := by rw [w.lose_rest]
          rw [Option.some.inj heq, hrank]
          exact h.defaultRank hw
      case origin =>
        intro ws' si' hws'
        rw [infos_drop h hws, Function.update_apply] at hws'
        split at hws'
        · cases hws'
        · exact h.origin hws'
      case proxies =>
        rw [hrest]
        exact h.proxies
  | config => exact ⟨h.registry, h.defaultRank, h.origin, h.proxies⟩
  | lockdown => exact ⟨h.registry, h.defaultRank, h.origin, h.proxies⟩
  | lists => exact ⟨h.registry, h.defaultRank, h.origin, h.proxies⟩
  | eraseConns => exact ⟨h.registry, h.defaultRank, h.origin, h.proxies⟩
  | @save wp w hwp =>
      have hr := registry_saveWorld (s := s) wp
      rw [Label.step]
      rw [saveWorld_eq hwp] at hr ⊢
      refine h.of_same hr (fun hw' => rank_update h ?_ hw') rfl rfl
      rw [(save_alike w s.disk).2]
      exact h.defaultRank hwp
  | files => exact ⟨h.registry, h.defaultRank, h.origin, h.proxies⟩

/-- So do chains of them. -/
theorem Chain.consistent {D : Scope} {s s' : Server} (h : Chain D s s') (hs : s.Consistent) :
  s'.Consistent
  := by
  induction h with
  | refl => exact hs
  | tail _ hstep ih =>
      obtain ⟨l, hl, rfl⟩ := hstep
      exact ih.step hl

/-- What no small step changes: the passwords and the path, the clock, whether the server ends
and whether something was misused.  What was done stays in the log. -/
structure Kept (s s' : Server) : Prop where
  modpw : s'.modpw = s.modpw
  adminpw : s'.adminpw = s.adminpw
  path : s'.path = s.path
  nextWs : s'.nextWs = s.nextWs
  closing : s'.closing = s.closing
  exited : s'.exited = s.exited
  clock : s'.clock = s.clock
  misused : s'.misused = s.misused
  log : s.log <+: s'.log

omit [Platform] in
/-- Nothing happens. -/
theorem Kept.refl (s : Server) :
  Kept s s
  := ⟨rfl, rfl, rfl, rfl, rfl, rfl, rfl, rfl, List.prefix_rfl⟩

omit [Platform] in
/-- One thing after another. -/
theorem Kept.trans {s s' s'' : Server} (h : Kept s s') (h' : Kept s' s'') :
  Kept s s''
  := ⟨h'.modpw.trans h.modpw, h'.adminpw.trans h.adminpw, h'.path.trans h.path,
    h'.nextWs.trans h.nextWs, h'.closing.trans h.closing, h'.exited.trans h.exited,
    h'.clock.trans h.clock, h'.misused.trans h.misused, h.log.trans h'.log⟩

omit [Platform] in
/-- The end of a connection. -/
theorem kept_drop {ws : Ws} {si : SocketInfo} (h : s.Consistent) (hws : s.infos ws = some si) :
  Kept s (s.drop ws)
  := by
  rw [drop_rest h hws]
  exact ⟨rfl, rfl, rfl, rfl, rfl, rfl, rfl, rfl, List.prefix_rfl⟩

/-- A small step. -/
theorem Allowed.kept {D : Scope} {l : Label} (hl : Allowed D s l) (h : s.Consistent) :
  Kept s (l.step s)
  := by
  cases hl with
  | send => exact ⟨rfl, rfl, rfl, rfl, rfl, rfl, rfl, rfl, List.prefix_append _ _⟩
  | gone => exact ⟨rfl, rfl, rfl, rfl, rfl, rfl, rfl, rfl, List.prefix_append _ _⟩
  | exec => exact ⟨rfl, rfl, rfl, rfl, rfl, rfl, rfl, rfl, List.prefix_append _ _⟩
  | setrank => exact ⟨rfl, rfl, rfl, rfl, rfl, rfl, rfl, rfl, List.prefix_append _ _⟩
  | change hp =>
      rw [Label.step, change_eq _ hp.1]
      exact ⟨rfl, rfl, rfl, rfl, rfl, rfl, rfl, rfl, List.prefix_rfl⟩
  | place hp =>
      obtain ⟨w, hw, -⟩ := h.world_of_live hp
      rw [Label.step, place_eq _ hp.1 hw]
      exact ⟨rfl, rfl, rfl, rfl, rfl, rfl, rfl, rfl, List.prefix_rfl⟩
  | act hwp =>
      rw [Label.step, perform_eq _ hwp]
      exact ⟨rfl, rfl, rfl, rfl, rfl, rfl, rfl, rfl, List.prefix_append _ _⟩
  | drop hws => exact kept_drop h hws
  | config => exact ⟨rfl, rfl, rfl, rfl, rfl, rfl, rfl, rfl, List.prefix_rfl⟩
  | lockdown => exact ⟨rfl, rfl, rfl, rfl, rfl, rfl, rfl, rfl, List.prefix_rfl⟩
  | lists => exact ⟨rfl, rfl, rfl, rfl, rfl, rfl, rfl, rfl, List.prefix_rfl⟩
  | eraseConns => exact ⟨rfl, rfl, rfl, rfl, rfl, rfl, rfl, rfl, List.prefix_rfl⟩
  | save hwp =>
      rw [Label.step, saveWorld_eq hwp]
      exact ⟨rfl, rfl, rfl, rfl, rfl, rfl, rfl, rfl, List.prefix_rfl⟩
  | files => exact ⟨rfl, rfl, rfl, rfl, rfl, rfl, rfl, rfl, List.prefix_rfl⟩

/-- Several small steps. -/
theorem Chain.kept {D : Scope} {s s' : Server} (h : Chain D s s') (hs : s.Consistent) :
  Kept s s'
  := by
  induction h with
  | refl => exact Kept.refl s
  | @tail s₁ _ hchain hstep ih =>
      obtain ⟨l, hl, rfl⟩ := hstep
      exact ih.trans (hl.kept (Chain.consistent hchain hs))

/-! ### Who stays -/

/-- Small steps leave seats and connections alone, except those of the connections they may
close. -/
theorem Allowed.stays {D : Scope} {l : Label} (hl : Allowed D s l) (h : s.Consistent) {ws : Ws}
    (hd : ¬ D.drops ws) :
  (l.step s).registry.player ws = s.registry.player ws ∧
    ∀ p wp, s.registry.seat p = some ⟨ws, wp, true⟩ →
      (l.step s).registry.seat p = some ⟨ws, wp, true⟩
  := by
  cases hl with
  | send => exact ⟨rfl, fun _ _ hp => hp⟩
  | gone => exact ⟨rfl, fun _ _ hp => hp⟩
  | exec => exact ⟨rfl, fun _ _ hp => hp⟩
  | setrank => exact ⟨rfl, fun _ _ hp => hp⟩
  | @change p cl c hp =>
      rw [Label.step, registry_change]
      exact ⟨rfl, fun _ _ hp => hp⟩
  | @place p cl pos hp =>
      obtain ⟨w, hw, -⟩ := h.world_of_live hp
      rw [Label.step, registry_place pos hp.1 hw, Registry.mark]
      split
      · exact ⟨rfl, fun _ _ hp => hp⟩
      · exact ⟨rfl, fun _ _ hp => hp⟩
  | act hwp =>
      rw [Label.step, registry_perform]
      exact ⟨rfl, fun _ _ hp => hp⟩
  | @drop ws' si hws hd' =>
      have hne : ws ≠ ws' := by
        rintro rfl
        exact hd hd'
      constructor
      · rw [Label.step]
        show Option.map _ _ = Option.map _ _
        rw [infos_drop h hws, Function.update_of_ne hne]
      · intro p wp hp
        obtain ⟨cl, hcl, rfl, rfl⟩ := live_of_seat hp
        exact (hcl.drop h hws hne).seat
  | config => exact ⟨rfl, fun _ _ hp => hp⟩
  | lockdown => exact ⟨rfl, fun _ _ hp => hp⟩
  | lists => exact ⟨rfl, fun _ _ hp => hp⟩
  | eraseConns => exact ⟨rfl, fun _ _ hp => hp⟩
  | save hwp =>
      rw [Label.step, registry_saveWorld]
      exact ⟨rfl, fun _ _ hp => hp⟩
  | files => exact ⟨rfl, fun _ _ hp => hp⟩

/-- A connection that is not among those that may end stays, with its client. -/
theorem Chain.stays {D : Scope} {s s' : Server} (hc : Chain D s s') (h : s.Consistent) {ws : Ws}
    (hd : ¬ D.drops ws) :
  s'.registry.player ws = s.registry.player ws ∧
    ∀ p wp, s.registry.seat p = some ⟨ws, wp, true⟩ → s'.registry.seat p = some ⟨ws, wp, true⟩
  := by
  induction hc with
  | refl => exact ⟨rfl, fun _ _ hp => hp⟩
  | @tail s₁ _ hchain hstep ih =>
      obtain ⟨l, hl, rfl⟩ := hstep
      obtain ⟨hplayer, hseat⟩ := hl.stays (Chain.consistent hchain h) hd
      exact ⟨hplayer.trans ih.1, fun p wp hp => hseat p wp (ih.2 p wp hp)⟩

end Server

end Owop
