import OwopServer.Arguments
import OwopServer.Limiter
import OwopServer.Server.Registry

/-!
# The server

The class `Server` of `server.cpp` with its connections, clients and worlds, and the steps
that `server.cpp`, `client.cpp` and `commands.cpp` are made of.  Objects are kept by their
addresses.  An object whose deletion waits for the callback of `uv_close` is still there; one
that is used after it was deleted, or a connection used after it was closed, is recorded as a
misuse.
-/

namespace Owop

/-- `SocketInfo`.  Its connection has been closed when it is deleted. -/
structure SocketInfo where
  origin : Bytes
  ip : Bytes
  player : Option ClientPtr
  captchaVerified : CaptchaState

/-- `Client`.  Its `SocketInfo` is that of its connection. -/
structure Client where
  nick : Bytes
  pixupdlimit : Bucket
  chatlimit : Bucket
  ws : Ws
  wrld : WorldPtr
  penalty : UInt16
  handledelete : Bool
  rank : Rank
  stealthadmin : Bool
  pos : PInfo
  lastclr : RGB
  id : UInt32
  mute : Bool

/-- An accepted change of the contents of a world. -/
inductive Edit where
  | px (x y : Int32) (clr : RGB)
  | chunk (cx cy : Int32) (data : Data)
  | prop (key value : Bytes)
  | protect (x y : Int32) (state : Bool)

/-- What the server has done, in the order it did it. -/
inductive Action where
  | send (ws : Ws) (op : OpCode) (msg : Bytes)
  /-- A connection is gone: whether lockdown was on and the player was an administrator, and
  whether an administrator from a whitelisted address is left and a whitelisted address is still
  counted. -/
  | gone (lockdown admin guarded counted : Bool)
  /-- A command was run for the client on `ws`. -/
  | exec (ws : Ws) (args : List Bytes)
  /-- A client of the rank `rank` set the rank of the client on `ws`. -/
  | setrank (rank : Rank) (ws : Ws)
  /-- A change of the world called `name` was accepted. -/
  | edit (name : Bytes) (e : Edit)

/-- `Server`, with the objects in memory, the callbacks that wait, the files and the clock.
The last two components are history: whether something was used after its end, and what was
done. -/
structure Server where
  modpw : Bytes
  adminpw : Bytes
  path : Bytes
  worlds : AList fun _ : Bytes => WorldPtr
  connsws : List Ws
  ipwhitelist : List Bytes
  ipblacklist : List Bytes
  ipban : List Bytes
  conns : AList fun _ : Bytes => UInt8
  connlimiter : Bucket
  maxconns : UInt32
  captchaRequired : Bool
  lockdown : Bool
  proxyLock : Bool
  instaban : Bool
  trustingCaptcha : Bool
  fastconnectaction : UInt8
  proxyqueryChecking : List Bytes
  infos : Ws → Option SocketInfo
  clients : ClientPtr → Option Client
  objs : WorldPtr → Option World
  nextWs : Ws
  pending : List Callback
  closing : Bool
  exited : Bool
  disk : Disk
  clock : ℚ
  misused : Bool
  log : List Action

/-! ### Changes of a client -/

/-- A change of a client that concerns no other object. -/
inductive ClientChange where
  | nick (name : Bytes)
  | stealth (state : Bool)
  | mute (state : Bool)
  | penalty
  | lastclr (clr : RGB)
  | spendChat
  | spendPixel
  | rank (r : Rank)
  | pbucket (rate per : UInt16)

/-- The client after a change, at the time `now`. -/
def ClientChange.apply (now : ℚ) (cl : Client) : ClientChange → Client
  | nick name => { cl with nick := name }
  | stealth state => { cl with stealthadmin := state }
  | mute state => { cl with mute := state }
  | penalty => { cl with penalty := cl.penalty + 1 }
  | lastclr clr => { cl with lastclr := clr }
  | spendChat => { cl with chatlimit := (cl.chatlimit.canSpend now 1).2 }
  | spendPixel => { cl with pixupdlimit := (cl.pixupdlimit.canSpend now 1).2 }
  | rank r => { cl with rank := r }
  | pbucket rate per => { cl with pixupdlimit := cl.pixupdlimit.set rate per }

namespace Client

/-- `Client::is_mod` -/
def isMod (cl : Client) : Bool := cl.rank == Rank.moderator

/-- `Client::is_admin` -/
def isAdmin (cl : Client) : Bool := cl.rank == Rank.admin

/-- The fields that the constructor `Client::Client` sets. -/
def new (id : UInt32) (ws : Ws) (wrld : WorldPtr) : Client :=
  ⟨[], Bucket.new 0 1, Bucket.new 34 44, ws, wrld, 0, true, Rank.user, false,
    ⟨0, 0, 0, 0, 0, 0⟩, ⟨0, 0, 0⟩, id, false⟩

/-- `Client::get_nick` -/
def getNick (cl : Client) : Bytes := if cl.nick ≠ [] then cl.nick else toString cl.id.toNat

end Client

/-! ### Operations of a world -/

/-- An operation of a world that is asked for by a message, a command or a timer. -/
inductive WorldAct where
  | sendChunk (ws : Ws) (x y : Int32)
  | delChunk (x y : Int32)
  | pasteChunk (x y : Int32) (data : Data)
  | putPx (x y : Int32) (clr : RGB) (placerRank : Rank)
  | setChunkProtection (x y : Int32) (state : Bool)
  | setProp (key value : Bytes)
  | reload
  | setDefaultRank (r : Rank)
  | broadcast (msg : Bytes)

/-- The chunk replaced by an operation of the world, as an accepted change. -/
def chunkEdit (w : World) (x y : Int32) : List Edit :=
  if World.inRange x y then
    match w.chunks.lookup (x, y) with
    | some c => [.chunk x y c.data]
    | none => []
  else []

/-- The world and the files after an operation, the messages sent, and the changes
accepted. -/
def WorldAct.run [Platform] (w : World) (d : Disk) :
    WorldAct → World × Disk × List Out × List Edit
  | sendChunk ws x y =>
      let (w, d, outs) := w.sendChunk d ws x y
      (w, d, outs, [])
  | delChunk x y =>
      let (w, d, outs) := w.delChunk d x y
      (w, d, outs, chunkEdit w x y)
  | pasteChunk x y data =>
      let (w, d, outs) := w.pasteChunk d x y data
      (w, d, outs, chunkEdit w x y)
  | putPx x y clr placerRank =>
      let (set, w, d) := w.putPx d x y clr placerRank
      (w, d, [], if set then [.px x y clr] else [])
  | setChunkProtection x y state =>
      let (w, d, outs) := w.setChunkProtection d x y state
      (w, d, outs, [.protect x y state])
  | setProp key value => (w.setProp key value, d, [], [.prop key value])
  | reload =>
      let (w, outs) := w.reload
      (w, d, outs, [])
  | setDefaultRank r => ({ w with defaultRank := r }, d, [], [])
  | broadcast msg => (w, d, World.broadcast msg, [])

namespace Server

/-! ### Objects in memory -/

/-- Something was used after its end. -/
def misuse (s : Server) : Server := { s with misused := true }

/-- Use the `SocketInfo` of a connection. -/
def withInfo (s : Server) (ws : Ws) (k : SocketInfo → Server) : Server :=
  match s.infos ws with
  | some si => k si
  | none => s.misuse

/-- Use a client. -/
def withClient (s : Server) (p : ClientPtr) (k : Client → Server) : Server :=
  match s.clients p with
  | some cl => k cl
  | none => s.misuse

/-- Use a world. -/
def withWorld (s : Server) (wp : WorldPtr) (k : World → Server) : Server :=
  match s.objs wp with
  | some w => k w
  | none => s.misuse

/-- Record something that was done. -/
def note (s : Server) (a : Action) : Server := { s with log := s.log ++ [a] }

/-- Read the `SocketInfo` of a connection. -/
def touch (s : Server) (ws : Ws) : Server := s.withInfo ws fun _ => s

/-- Change a client. -/
def change (s : Server) (p : ClientPtr) (c : ClientChange) : Server :=
  s.withClient p fun cl => { s with
    clients := Function.update s.clients p (some (c.apply s.clock cl)) }

/-- Put a world in the place of the one at `wp`. -/
def putWorld (s : Server) (wp : WorldPtr) (w : World) : Server :=
  { s with objs := Function.update s.objs wp (some w) }

/-! ### Messages -/

/-- `WebSocket::send` -/
def send (s : Server) (ws : Ws) (op : OpCode) (msg : Bytes) : Server :=
  s.withInfo ws fun _ => s.note (.send ws op msg)

/-- `Client::tell` -/
def tell (s : Server) (p : ClientPtr) (msg : Bytes) : Server :=
  s.withClient p fun cl => s.send cl.ws .text msg

/-- Send what an operation of a world sends. -/
def sendOut (s : Server) (w : World) : Out → Server
  | .all op msg => w.clients.foldl (fun s p => s.withClient p fun cl => s.send cl.ws op msg) s
  | .one ws op msg => s.send ws op msg

/-- `Server::admintell` -/
def admintell (s : Server) (msg : Bytes) : Server :=
  s.connsws.foldl (fun s ws => s.withInfo ws fun si =>
    match si.player with
    | some p => s.withClient p fun cl => if cl.isAdmin then s.tell p msg else s
    | none => s) s

/-- `Server::broadcastmsg` -/
def broadcastmsg (s : Server) (msg : Bytes) : Server :=
  s.connsws.foldl (fun s ws => s.send ws .text msg) s

/-! ### Worlds -/

/-- Let a world do something. -/
def act [Platform] (s : Server) (wp : WorldPtr) (a : WorldAct) : Server :=
  s.withWorld wp fun w =>
    let (w', d, outs, edits) := a.run w s.disk
    outs.foldl (fun s out => s.sendOut w' out)
      { s.putWorld wp w' with
        disk := d
        log := s.log ++ edits.map fun e => .edit w.name e }

/-- The id and the position of a client, as `World::send_updates` reads them. -/
def infoOf (s : Server) (p : ClientPtr) : UInt32 × PInfo :=
  match s.clients p with
  | some cl => (cl.id, cl.pos)
  | none => (0, ⟨0, 0, 0, 0, 0, 0⟩)

/-- The timer of a world: `World::send_updates`. -/
def tick (s : Server) (wp : WorldPtr) : Server :=
  s.withWorld wp fun w =>
    let s := if ∀ p ∈ w.plupdates.take worldMaxPlayerUpdates, (s.clients p).isSome then s
      else s.misuse
    let (w', outs) := w.sendUpdates s.infoOf
    outs.foldl (fun s out => s.sendOut w' out) (s.putWorld wp w')

/-- Set the position of a client, and `World::upd_cli`. -/
def place (s : Server) (p : ClientPtr) (pos : PInfo) : Server :=
  s.withClient p fun cl =>
    let s := { s with clients := Function.update s.clients p (some { cl with pos := pos }) }
    s.withWorld cl.wrld fun w => s.putWorld cl.wrld (w.updCli p)

/-- `World::get_cli` for an id. -/
def getCli (s : Server) (w : World) (id : UInt32) : Option ClientPtr :=
  w.clients.find? fun p => (s.clients p).any fun cl => id = cl.id

/-- `World::get_cli` for a nickname. -/
def getCliNick (s : Server) (w : World) (name : Bytes) : Option ClientPtr :=
  w.clients.find? fun p => (s.clients p).any fun cl => name = cl.getNick

/-! ### Clients -/

/-- `Client::teleport` -/
def teleport (s : Server) (p : ClientPtr) (x y : Int32) : Server :=
  s.withClient p fun cl =>
    let s := s.send cl.ws .binary
      ([ServerMessage.teleport.byte] ++ int32Bytes x ++ int32Bytes y)
    s.place p { cl.pos with x := (x <<< 4) + 8, y := (y <<< 4) + 8 }

/-- `Client::set_pbucket` -/
def setPbucket (s : Server) (p : ClientPtr) (rate per : UInt16) : Server :=
  s.withClient p fun cl =>
    (s.change p (.pbucket rate per)).send cl.ws .binary
      ([ServerMessage.setPquota.byte] ++ uint16Bytes rate ++ uint16Bytes per)

/-- `Client::promote` -/
def promote (s : Server) (p : ClientPtr) (newrank : Rank) (prate : UInt16) : Server :=
  s.withClient p fun cl =>
    let s := s.change p (.rank newrank)
    let s :=
      if newrank = Rank.admin then
        s.tell p (Bytes.ofString "Server: You are now an admin. Do /help for a list of commands.")
      else if newrank = Rank.moderator then
        (s.tell p (Bytes.ofString "Server: You are now a moderator.")).setPbucket p prate 2
      else if newrank = Rank.user then s.setPbucket p prate 4
      else s.setPbucket p 0 1
    s.send cl.ws .binary [ServerMessage.permissions.byte, newrank]

/-- `Client::chat` -/
def chat [Platform] (s : Server) (p : ClientPtr) (msg : Bytes) : Server :=
  s.withClient p fun cl =>
    if ¬ cl.mute then s.act cl.wrld (.broadcast (cl.getNick ++ Bytes.ofString ": " ++ msg)) else s

/-- `Client::put_px` -/
def putPx [Platform] (s : Server) (p : ClientPtr) (x y : Int32) (clr : RGB) : Server :=
  s.withClient p fun cl =>
    let can := cl.isAdmin || (cl.pixupdlimit.canSpend s.clock 1).1
    let s := if cl.isAdmin then s else s.change p .spendPixel
    if can then (s.change p (.lastclr clr)).act cl.wrld (.putPx x y clr cl.rank) else s

end Server

end Owop
