import OwopServer.Server

/-!
# Connections, worlds and lists of the server

The functions of `server.cpp` behind the handlers: what happens when a connection is closed,
how clients join worlds, the limits and lists of addresses, and how the server saves and quits.
-/

namespace Owop

namespace Server

/-! ### Closing -/

/-- `Client::safedelete`, without closing the connection. -/
def unlink (s : Server) (p : ClientPtr) : Server :=
  s.withClient p fun cl =>
    if cl.handledelete then
      let s := { s with
        clients := Function.update s.clients p (some { cl with handledelete := false })
        pending := s.pending ++ [Callback.client p] }
      s.withWorld cl.wrld fun w => s.putWorld cl.wrld (w.rmCli p cl.id)
    else s

/-- `World::safedelete` -/
def unload (s : Server) (wp : WorldPtr) : Server :=
  s.withWorld wp fun w =>
    { s.putWorld wp { w with updActive := false } with pending := s.pending ++ [Callback.world wp] }

/-- `Server::set_lockdown` -/
def setLockdown (s : Server) (state : Bool) : Server :=
  let s := { s with lockdown := state }
  if state then
    let s := s.connsws.foldl (fun s ws => s.withInfo ws fun si =>
      match si.player with
      | some p => s.withClient p fun cl =>
          if cl.isAdmin then { s with ipwhitelist := s.ipwhitelist.insert si.ip } else s
      | none => s) s
    s.admintell (Bytes.ofString "DEVLockdown mode enabled.")
  else s.admintell (Bytes.ofString "DEVLockdown mode disabled.")

/-- Whether an administrator from a whitelisted address is connected. -/
def guarded (s : Server) : Bool :=
  s.connsws.any fun ws => (s.infos ws).any fun si =>
    decide (si.ip ∈ s.ipwhitelist) && si.player.any fun p => (s.clients p).any Client.isAdmin

/-- Whether an address has connections, by the counters. -/
def counted (conns : AList fun _ : Bytes => UInt8) (ip : Bytes) : Bool :=
  match conns.lookup ip with
  | some n => n > 0
  | none => false

/-- `Server::lockdown_check` -/
def lockdownCheck (s : Server) : Server :=
  if s.ipwhitelist.any (counted s.conns) then s else s.setLockdown false

/-- The handler of `onDisconnection` for a client: the client is deleted, and its world
unloaded if it was the last. -/
def leave (s : Server) (p : ClientPtr) : Server :=
  s.withClient p fun cl =>
    let s := s.unlink p
    s.withWorld cl.wrld fun w =>
      if w.isEmpty then { s with worlds := s.worlds.erase w.name }.unload cl.wrld else s

/-- The counters when there is one connection less from an address. -/
def lowered (conns : AList fun _ : Bytes => UInt8) (ip : Bytes) : AList fun _ : Bytes => UInt8 :=
  match conns.lookup ip with
  | some n => if n - 1 = 0 then conns.erase ip else conns.insert ip (n - 1)
  | none => conns

/-- The part of the handler of `onDisconnection` that counts a connection of an address
less. -/
def countDown (s : Server) (ip : Bytes) : Server := { s with conns := lowered s.conns ip }

/-- A connection and its `SocketInfo` are forgotten. -/
def forget (s : Server) (ws : Ws) : Server :=
  { s with
    connsws := s.connsws.filter fun ws' => ws' ≠ ws
    infos := Function.update s.infos ws none }

/-- Record that a connection is gone. -/
def noteGone (s : Server) (admin : Bool) : Server :=
  s.note (.gone s.lockdown admin s.guarded (s.ipwhitelist.any (counted s.conns)))

/-- The handler of `onDisconnection`. -/
def onDisconnection (s : Server) (ws : Ws) : Server :=
  s.withInfo ws fun si =>
    match si.player with
    | some p => s.withClient p fun cl =>
        let lockCheck := cl.isAdmin && s.lockdown
        let gone := (((s.leave p).countDown si.ip).forget ws).noteGone cl.isAdmin
        if lockCheck then gone.lockdownCheck else gone
    | none => ((s.countDown si.ip).forget ws).noteGone false

/-- `WebSocket::close`, which runs the handler of `onDisconnection` before it returns. -/
def closeWs (s : Server) (ws : Ws) : Server := s.onDisconnection ws

/-- `Client::safedelete`, with the connection closed. -/
def safedelete (s : Server) (p : ClientPtr) : Server :=
  s.withClient p fun cl => if cl.handledelete then (s.unlink p).closeWs cl.ws else s

/-! ### Kicking -/

/-- `Server::kickall` for a world.  A turn of the loop closes no connection but its own. -/
def kickallWorld (s : Server) (wrld : WorldPtr) : Server :=
  s.connsws.foldl (fun s ws => s.withInfo ws fun si =>
    match si.player with
    | some p => s.withClient p fun cl =>
        if cl.wrld = wrld ∧ ¬ cl.isAdmin then s.safedelete p else s
    | none => s) s

/-- `Server::kickall` -/
def kickall (s : Server) : Server :=
  s.connsws.foldl (fun s ws => s.withInfo ws fun si =>
    match si.player with
    | some p => s.withClient p fun cl => if ¬ cl.isAdmin then s.safedelete p else s
    | none => s.closeWs ws) s

/-- Whether a connection comes from the address `ip`. -/
def comesFrom (s : Server) (ip : Bytes) (ws : Ws) : Bool := (s.infos ws).any fun si => si.ip = ip

/-- The loop of `Server::kickip`. -/
def closeIp (s : Server) (ip : Bytes) : Server :=
  s.connsws.foldl (fun s ws => s.withInfo ws fun si =>
    if si.ip = ip then s.closeWs ws else s) s

/-- `Server::kickip` -/
def kickip (s : Server) (ip : Bytes) : Server :=
  let useless := ¬ s.connsws.any (s.comesFrom ip)
  let s := s.closeIp ip
  if ¬ useless then
    let s := s.admintell (Bytes.ofString "DEVKicked IP: " ++ ip)
    { s with conns := s.conns.erase ip }
  else s

/-- `Server::banip` -/
def banip (s : Server) (ip : Bytes) : Server :=
  if ip ∈ s.ipban then s
  else
    let s := { s with ipban := s.ipban.insert ip }
    let s := s.admintell (Bytes.ofString "DEVBanned IP: " ++ ip)
    if (s.conns.lookup ip).isSome then s.kickip ip else s

/-! ### Limits -/

/-- Whether the connection is above the limit `max` and may be closed for it. -/
def overLimit (s : Server) (max : UInt8) (ws : Ws) : Bool :=
  (s.infos ws).any fun si =>
    (s.conns.lookup si.ip).any (fun n => n > max) &&
      match si.player with
      | some p => (s.clients p).any fun cl => ¬ cl.isAdmin
      | none => true

/-- Close a connection, through its client if it has one. -/
def kickWs (s : Server) (ws : Ws) : Server :=
  s.withInfo ws fun si =>
    match si.player with
    | some p => s.safedelete p
    | none => s.closeWs ws

/-- The loop of `Server::set_max_ip_conns`: as long as there is a connection to close, close
the first one and start again. -/
def limitLoop (max : UInt8) : ℕ → Server → Server
  | 0, s => s
  | fuel + 1, s =>
      match s.connsws.find? (s.overLimit max) with
      | some ws => limitLoop max fuel (s.kickWs ws)
      | none => s

/-- `Server::set_max_ip_conns`.  Each turn of the loop closes a connection. -/
def setMaxIpConns (s : Server) (max : UInt8) : Server :=
  limitLoop max (s.connsws.length + 1) { s with maxconns := max.toUInt32 }

/-- `Server::set_captcha_protection` -/
def setCaptchaProtection (s : Server) (state : Bool) : Server :=
  let s := { s with captchaRequired := state }
  if state then s.admintell (Bytes.ofString "DEVCaptcha protection enabled.")
  else s.admintell (Bytes.ofString "DEVCaptcha protection disabled.")

/-- The loop of `Server::set_instaban`. -/
def instabanLoop : ℕ → Server → Server
  | 0, s => s
  | fuel + 1, s =>
      match s.connsws.find? fun ws =>
          (s.infos ws).any fun si => si.origin = Bytes.ofString "(None)" with
      | some ws => instabanLoop fuel (s.closeWs ws)
      | none => s

/-- `Server::set_instaban` -/
def setInstaban (s : Server) (state : Bool) : Server :=
  let s := { s with instaban := state }
  if state then
    (instabanLoop (s.connsws.length + 1) s).admintell
      (Bytes.ofString "DEVSuspicious banning enabled.")
  else s.admintell (Bytes.ofString "DEVSuspicious banning disabled.")

/-- `Server::set_proxycheck` -/
def setProxycheck (s : Server) (state : Bool) : Server :=
  let s := { s with proxyLock := state }
  if ¬ state then
    let s := s.proxyqueryChecking.foldl kickip s
    let s := { s with proxyqueryChecking := [] }
    s.admintell (Bytes.ofString "DEVProxy check disabled.")
  else s.admintell (Bytes.ofString "DEVProxy check enabled.")

/-- `Server::get_conns` -/
def getConns (s : Server) (ip : Bytes) : ℕ :=
  match s.conns.lookup ip with
  | some n => n.toNat
  | none => 0

/-! ### Joining -/

/-- The text `World::add_cli` sends to a client that joins. -/
def rules : Bytes := Bytes.ofString
  ("<h1 style=\"text-align:center; color: #66ffcc;\">mathias377 OWOP</h1><h2 " ++
    "style=\"text-align:center; color: #66ffcc;\">Rules:</h2><ol style=\"color: #80b3ff;\">  " ++
    "<li>Do not cheat</li>  <li>Do not spoil/destroy the work of others</li>  <li>Do not use " ++
    "scripts/bugs</li>  <li>There is owop to discord bot</li>  <li>Bots allowed but for " ++
    "Owners unlimited, Admins 20, Mods 15 and for Players 10</li>  <li>(For admins) Dont " ++
    "clear images and dont fuck mathias377</li>  <li>Hackers and fukcers will be " ++
    "banned</li>  <li>For more rules go to my discord</li></ol><br><li style=\"color: " ++
    "#ff0000;\">My discord mathias377#3326</li><br><a class=\"btn btn-primary\" " ++
    "href=https://discord.gg/eBtPYp7 target=_blank>my cursors io hack discord " ++
    "server</a><br><a class=\"btn btn-primary\" href=https://discord.gg/p6UuZCq " ++
    "target=_blank>my owop discord server</a><br><a class=\"btn btn-primary\" " ++
    "href=https://owoppa.netlify.com/changelog target=_blank>my owop changelog</a><br>")

/-- `World::add_cli` -/
def addCli (s : Server) (wp : WorldPtr) (p : ClientPtr) : Server :=
  s.withWorld wp fun w =>
    let s := s.tell p rules
    let s :=
      if w.pass = [] then s.promote p w.defaultRank w.paintrate
      else
        (s.tell p (Bytes.ofString
          "[Server] This world has a password set. Use '/pass PASSWORD' to unlock drawing.")).promote
            p Rank.none w.paintrate
    s.putWorld wp (w.addCli p)

/-- The constructor `Client::Client`. -/
def newClient (s : Server) (p : ClientPtr) (id : UInt32) (ws : Ws) (wrld : WorldPtr) : Server :=
  ({ s with
    clients := Function.update s.clients p (some (Client.new id ws wrld)) }.touch ws).send ws
      .binary ([ServerMessage.setId.byte] ++ uint32Bytes id)

/-- A character allowed in the name of a world. -/
def nameChar (c : UInt8) : Bool :=
  (c > 96 && c < 123) || (c > 47 && c < 58) || c == 95 || c == 46

/-- The end of `Server::join_world`: the connection gets a client in the world. -/
def enter (s : Server) (ws : Ws) (wp : WorldPtr) (p : ClientPtr) : Server :=
  s.withInfo ws fun si => s.withWorld wp fun w =>
    let (id, w) := w.getId
    let s := (s.putWorld wp w).newClient p id ws wp
    let s := { s with infos := Function.update s.infos ws (some { si with player := some p }) }
    s.addCli wp p

/-- Load the world called `name`. -/
def loadWorld [Platform] (s : Server) (name : Bytes) (wp : WorldPtr) : Server :=
  let (w, d) := World.new s.path name s.disk
  { s.putWorld wp w with worlds := s.worlds.insert name wp, disk := d }

/-- `Server::join_world`.  The last two arguments are the memory for a new client and a new
world. -/
def joinWorld [Platform] (s : Server) (ws : Ws) (worldname : Bytes) (p : ClientPtr)
    (wp : WorldPtr) : Server :=
  if ¬ worldname.all nameChar then s.closeWs ws
  else
    match s.worlds.lookup worldname with
    | some wp => s.enter ws wp p
    | none => (s.loadWorld worldname wp).enter ws wp p

/-! ### Files -/

variable [Platform]

/-- Write a list of addresses to a file, one a line. -/
def writeList (d : Disk) (file : FileName) (ips : List Bytes) : Disk :=
  let (good, d) := d.createFile ([], file)
  if good then d.writeAll ([], file) 0 (ips.map fun ip => ip ++ [10]) else d

/-- `Server::writefiles` -/
def writefiles (s : Server) : Server :=
  let d := writeList s.disk .bans s.ipban
  let d := writeList d .whitelist s.ipwhitelist
  { s with disk := writeList d .blacklist s.ipblacklist }

/-- Read a list of addresses from a file. -/
def readList (d : Disk) (file : FileName) (ips : List Bytes) : List Bytes × Disk :=
  let (f, d) := d.readFile ([], file)
  (((f.getD []).splitOn 10).foldl (fun ips ip => if ip.length > 0 then ips.insert ip else ips) ips, d)

/-- `Server::readfiles` -/
def readfiles (s : Server) : Server :=
  let (bans, d) := readList s.disk .bans s.ipban
  let (whitelist, d) := readList d .whitelist s.ipwhitelist
  let (blacklist, d) := readList d .blacklist s.ipblacklist
  { s with ipban := bans, ipwhitelist := whitelist, ipblacklist := blacklist, disk := d }

/-- The constructor `Server::Server`. -/
def new (modpw adminpw path : Bytes) (d : Disk) (clock : ℚ) : Server :=
  readfiles
    { modpw := modpw, adminpw := adminpw, path := path ++ Bytes.ofString "/"
      worlds := ∅, connsws := [], ipwhitelist := [], ipblacklist := [], ipban := [], conns := ∅
      connlimiter := Bucket.new 10 5, maxconns := 458568
      captchaRequired := false, lockdown := false, proxyLock := false, instaban := false
      trustingCaptcha := false, fastconnectaction := 0, proxyqueryChecking := []
      infos := fun _ => none, clients := fun _ => none, objs := fun _ => none, nextWs := 0
      pending := [], closing := false, exited := false, disk := d, clock := clock
      misused := false, log := [] }

/-- Save a world. -/
def saveWorld (s : Server) (wp : WorldPtr) : Server :=
  s.withWorld wp fun w =>
    let (w, d) := w.save s.disk
    { s.putWorld wp w with disk := d }

/-- `Server::save_now` -/
def saveNow (s : Server) : Server :=
  let s := (s.worlds.entries.map fun e => e.2).foldl saveWorld s
  s.writefiles.admintell (Bytes.ofString "DEVWorlds saved.")

/-- Delete a world. -/
def deleteWorld (s : Server) (wp : WorldPtr) : Server :=
  s.withWorld wp fun w =>
    { s with objs := Function.update s.objs wp none, disk := w.delete s.disk }

/-- The destructor `Server::~Server`, and `exit`. -/
def delete (s : Server) : Server :=
  let s := s.connsws.foldl closeWs s
  let s := (s.worlds.entries.map fun e => e.2).foldl deleteWorld s
  { s.writefiles with exited := true }

/-- `Server::quit` -/
def quit (s : Server) : Server :=
  if ¬ s.closing then
    let s := s.broadcastmsg (Bytes.ofString "Server: Shutting down! (Rejoin in ~5 minutes)")
    { s with closing := true, pending := s.pending ++ [Callback.server] }
  else s.delete

/-- A callback of `uv_close`. -/
def callback (s : Server) : Callback → Server
  | .client p => { s with clients := Function.update s.clients p none }
  | .world wp => s.deleteWorld wp
  | .server => s.delete

end Server

end Owop
