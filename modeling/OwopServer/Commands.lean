import OwopServer.Server.Connections

/-!
# Commands

The class `Commands` of `commands.cpp`: the commands of users, moderators and administrators,
and how a text is run as a command.  A command gets the server, the client it is run for and
its arguments, the first of which is the command's name.
-/

namespace Owop

open Bytes (ofString)

/-- The loop of `getUTF8strlen`, with `j` and `x`. -/
def utf8Loop : Bytes → ℕ → ℕ → ℕ
  | [], j, x => if x = 4 then j + 1 else j
  | b :: bs, j, x =>
      if x > 4 then 2 ^ 64 - 1
      else if b &&& 0xC0 ≠ 0x80 then utf8Loop bs (j + if x = 4 then 2 else 1) 1
      else utf8Loop bs j (x + 1)

/-- `getUTF8strlen` -/
def getUTF8strlen (str : Bytes) : ℕ := utf8Loop str 0 1

namespace Commands

/-- A command: what the server is after it was run for a client with some arguments. -/
abbrev Command := Server → ClientPtr → List Bytes → Server

/-! ### Numbers and clients in arguments -/

/-- Read a number from an argument; the command ends if there is none. -/
def withNum (arg : Bytes) (s : Server) (k : UInt32 → Server) : Server :=
  match stoul 10 arg with
  | .ok n => k (UInt32.ofNat n)
  | .error _ => s

/-- Read a coordinate from an argument; the command ends if there is none. -/
def withInt (arg : Bytes) (s : Server) (k : Int32 → Server) : Server :=
  match stoi arg with
  | .ok x => k x
  | .error _ => s

/-- Look a client of the world at `wp` up by its id. -/
def withTarget (s : Server) (wp : WorldPtr) (id : UInt32) (absent : Server)
    (found : ClientPtr → Client → Server) : Server :=
  s.withWorld wp fun w =>
    match s.getCli w id with
    | some target => s.withClient target (found target)
    | none => absent

/-- An argument of the commands. -/
def arg (args : List Bytes) (n : ℕ) : Bytes := args.getD n []

/-- Whether an argument is the text `true`. -/
def isTrue (args : List Bytes) (n : ℕ) : Bool := arg args n = ofString "true"

/-- The text of a new state. -/
def enabled (state : Bool) : Bytes := if state then ofString "enabled." else ofString "disabled."

/-! ### Commands of users -/

/-- `Commands::nick` -/
def nick : Command := fun s p args =>
  s.withClient p fun cl =>
    if args.length ≥ 2 then
      let name := (joinArgs args 1).filter fun b => b ≠ 10
      let size := getUTF8strlen name
      if name.length < 1 then s
      else
        let done (s : Server) := s.tell p (ofString "Nickname set to: '" ++ name ++ ofString "'")
        if cl.isAdmin then done (s.change p (.nick name))
        else if cl.isMod ∧ size ≤ 40 then done (s.change p (.nick name))
        else if size > 0 then
          done (s.change p (.nick (ofString "[" ++ toString cl.id.toNat ++ ofString "] " ++ name)))
        else s.tell p (ofString "Nickname too long! (Max: " ++
          toString (if cl.isMod then 40 else 12) ++ ofString ")")
    else (s.change p (.nick [])).tell p (ofString "Nickname reset.")

/-- `Commands::pass` -/
def pass : Command := fun s p args =>
  s.withClient p fun cl =>
    if args.length > 1 then
      s.withWorld cl.wrld fun w =>
        if w.isPass (joinArgs args 1) then s.promote p w.defaultRank w.paintrate
        else s.safedelete p
    else
      (s.tell p (ofString "Use to unlock drawing on a protected world.")).tell p
        (ofString "Usage: /pass WORLDPASSWORD")

/-- `Commands::tell` -/
def tell : Command := fun s p args =>
  s.withClient p fun cl =>
    if args.length ≥ 3 then
      withNum (arg args 1) s fun id =>
        let msg := joinArgs args 2
        withTarget s cl.wrld id (s.tell p (ofString "User not found!")) fun target t =>
          (s.tell p (ofString "-> You tell " ++ toString t.id.toNat ++ ofString ": " ++ msg)).tell
            target (ofString "-> " ++ toString cl.id.toNat ++ ofString " tells you: " ++ msg)
    else s.tell p (ofString "Usage: /tell (id) (message)")

/-- `Commands::modlogin` -/
def modlogin : Command := fun s p args =>
  s.withClient p fun cl =>
    if ¬ cl.isMod ∧ args.length = 2 then
      if arg args 1 = s.modpw then
        s.withInfo cl.ws fun si => s.withWorld cl.wrld fun w =>
          (s.admintell (ofString "DEV" ++ toString cl.id.toNat ++ ofString " (" ++ w.name ++
            ofString ", " ++ si.ip ++ ofString ") Got mod")).promote p Rank.moderator w.paintrate
      else s
    else s

/-- `Commands::adminlogin` -/
def adminlogin : Command := fun s p args =>
  s.withClient p fun cl =>
    if args.length = 2 then
      if arg args 1 = s.adminpw then
        s.withInfo cl.ws fun _ => s.withWorld cl.wrld fun w => s.promote p Rank.admin w.paintrate
      else s.tell p (ofString "FAIL!!!")
    else s

/-- `Commands::spawn` -/
def spawn : Command := fun s p _ =>
  (s.teleport p 0 0).tell p (ofString "Server: Teleported to spawn.")

/-! ### Commands of moderators -/

/-- `Commands::teleport` -/
def teleport : Command := fun s p args =>
  s.withClient p fun cl =>
    if args.length = 3 then
      withInt (arg args 1) s fun x => withInt (arg args 2) s fun y =>
        (s.tell p (ofString "Server: Teleported to X: " ++ toStringInt x ++ ofString ", Y: " ++
          toStringInt y)).teleport p x y
    else if args.length = 2 then
      withNum (arg args 1) s fun id =>
        withTarget s cl.wrld id s fun _ t => s.teleport p (t.pos.x >>> 4) (t.pos.y >>> 4)
    else if args.length = 4 then
      withNum (arg args 1) s fun id => withInt (arg args 2) s fun x =>
        withInt (arg args 3) s fun y =>
          withTarget s cl.wrld id s fun target t =>
            (s.teleport target x y).tell p (ofString "Server: Teleported " ++ toString id.toNat ++
              ofString " from " ++ toStringInt (t.pos.x >>> 4) ++ ofString ", " ++
              toStringInt (t.pos.y >>> 4) ++ ofString " to " ++ toStringInt x ++ ofString ", " ++
              toStringInt y)
    else s.tell p (ofString "Usage: /tp [ID] X Y or /tp ID")

/-- `Commands::stealth` -/
def stealth : Command := fun s p args =>
  if args.length = 2 then
    let newstate := isTrue args 1
    (s.change p (.stealth newstate)).tell p (ofString "Stealth mode " ++ enabled newstate)
  else
    (s.tell p (ofString
      "Removes the (A)/(M) from chat (you need to remove your nickname).")).tell p
        (ofString "Usage: /stealth (true, false)")

variable [Platform]

/-- `Commands::sayraw` -/
def sayraw : Command := fun s p args =>
  s.withClient p fun cl =>
    if args.length ≥ 2 then s.act cl.wrld (.broadcast (joinArgs args 1))
    else
      (s.tell p (ofString "Send a message as raw text.")).tell p
        (ofString "Usage: /sayraw (message)")

omit [Platform] in
/-- `Commands::getid` -/
def getid : Command := fun s p args =>
  s.withClient p fun cl =>
    if args.length > 1 then
      s.withWorld cl.wrld fun w =>
        match s.getCliNick w (joinArgs args 1) with
        | some target => s.withClient target fun t =>
            s.tell p (ofString "ID: " ++ toString t.id.toNat)
        | none => s.tell p (ofString "User not found!")
    else
      (s.tell p (ofString
        ("Gets the id by nick. Probably useless because of HTML nicks or invisible characters. " ++
          "(might improve (lol jk, it will stay like this (probably (but not sure tho))))"))).tell p
        (ofString "Usage: /getid NICKNAME")

omit [Platform] in
/-- `Commands::kick` -/
def kick : Command := fun s p args =>
  s.withClient p fun cl =>
    if args.length = 2 then
      withNum (arg args 1) s fun id =>
        withTarget s cl.wrld id (s.tell p (ofString "Error: User does not exist")) fun target t =>
          if t.rank < cl.rank then
            ((s.teleport target 0 0).safedelete target).tell p
              (ofString "Kicked user (" ++ toString id.toNat ++ ofString ")")
          else s.tell p (ofString "Error: Target's rank must be less than yours.")
    else s

omit [Platform] in
/-- `Commands::ids` -/
def ids : Command := fun s p _ =>
  s.withClient p fun cl => s.withWorld cl.wrld fun w =>
    let start := ofString "Total: " ++ toString w.clients.length ++ ofString "; "
    s.tell p (w.clients.foldl
      (fun str c => str ++ (toString (s.infoOf c).1.toNat ++ ofString ", ")) start)

/-! ### Commands of administrators -/

omit [Platform] in
/-- `Commands::kickip` -/
def kickip : Command := fun s p args =>
  if args.length = 2 then s.kickip (arg args 1) else s.tell p (ofString "Usage: /kickip IP")

omit [Platform] in
/-- `Commands::banip` -/
def banip : Command := fun s p args =>
  if args.length = 2 then s.banip (arg args 1) else s.tell p (ofString "Usage: /banip IP")

/-- A list of addresses of the server that commands show and change. -/
structure IpList where
  get : Server → List Bytes
  set : Server → List Bytes → Server

/-- What the commands for a list of addresses do; `cleared`, `added`, `removed` and `usage`
are their texts. -/
def ipCommand (l : IpList) (cleared added removed usage : Bytes) : Command := fun s p args =>
  if args.length = 2 then
    if arg args 1 = ofString "list" then
      ((l.get s).foldl (fun s ip => s.tell p (ofString "-> " ++ ip)) s).tell p
        (ofString "Total: " ++ toString (l.get s).length)
    else if arg args 1 = ofString "clear" then (l.set s []).tell p cleared
    else s
  else if args.length = 3 then
    if arg args 1 = ofString "add" then
      (l.set s ((l.get s).insert (arg args 2))).tell p (added ++ arg args 2)
    else if arg args 1 = ofString "remove" then
      if arg args 2 ∈ l.get s then
        (l.set s ((l.get s).filter fun ip => ip ≠ arg args 2)).tell p (removed ++ arg args 2)
      else s
    else s
  else s.tell p usage

/-- `Server::ipban` -/
def banList : IpList := ⟨Server.ipban, fun s ips => { s with ipban := ips }⟩

/-- `Server::ipwhitelist` -/
def whiteList : IpList := ⟨Server.ipwhitelist, fun s ips => { s with ipwhitelist := ips }⟩

/-- `Server::ipblacklist` -/
def blackList : IpList := ⟨Server.ipblacklist, fun s ips => { s with ipblacklist := ips }⟩

/-- `Commands::bans` -/
def bans : Command := ipCommand banList (ofString "Cleared all bans.") (ofString "Banned IP: ")
  (ofString "Unbanned IP: ") (ofString "Usage: /bans (list, clear, add, remove) [IP]")

/-- `Commands::whitelist` -/
def whitelist : Command := ipCommand whiteList (ofString "Cleared all whitelists.")
  (ofString "Whitelisted IP: ") (ofString "Unwhitelisted IP: ")
  (ofString "Usage: /whitelist (list, clear, add, remove) [IP]")

/-- `Commands::blacklist` -/
def blacklist : Command := ipCommand blackList (ofString "Cleared all blacklists.")
  (ofString "Blacklisted IP: ") (ofString "Unblacklisted IP: ")
  (ofString "Usage: /blacklist (list, clear, add, remove) [IP]")

omit [Platform] in
/-- `Commands::setrank` -/
def setrank : Command := fun s p args =>
  s.withClient p fun cl =>
    if args.length = 3 then
      withNum (arg args 1) s fun id => withNum (arg args 2) s fun rank =>
        withTarget s cl.wrld id (s.tell p (ofString "Error: User does not exist")) fun target t =>
          if t.rank < cl.rank ∧ rank < cl.rank.toUInt32 then
            s.withWorld cl.wrld fun w =>
              ((s.note (.setrank cl.rank t.ws)).promote target rank.toUInt8 w.paintrate).tell p
                (ofString "Set user's (" ++ toString id.toNat ++ ofString ") rank to: " ++
                  toString rank.toNat)
          else if t.rank ≥ cl.rank then
            s.tell p (ofString "Error: Target's rank must be less than yours.")
          else
            s.tell p (ofString "Error: Rank set must be less than your current rank. (" ++
              toString rank.toNat ++ ofString " >= " ++ toString cl.rank.toNat ++ ofString ")")
    else s.tell p (ofString
      "Usage: /setrank (id) (rank [0: NONE, 1: USER, 2: MODERATOR, 3: ADMIN])")

omit [Platform] in
/-- `Commands::whois` -/
def whois : Command := fun s p args =>
  s.withClient p fun cl =>
    if args.length = 2 then
      withNum (arg args 1) s fun id =>
        withTarget s cl.wrld id s fun _ t =>
          s.withInfo t.ws fun si =>
            [ofString "Client information for: " ++ toString id.toNat,
              ofString "-> Connections by this IP: " ++ toString (s.getConns si.ip),
              ofString "-> IP: " ++ si.ip,
              ofString "-> Origin header: " ++ si.origin,
              ofString "-> Retard level: " ++ toString t.penalty.toNat,
              ofString "-> Rank: " ++ toString t.rank.toNat].foldl (fun s msg => s.tell p msg) s
    else s.tell p (ofString "Usage: /whois (Player ID)")

/-- `Commands::save` -/
def save : Command := fun s _ _ => s.saveNow

omit [Platform] in
/-- `Commands::kickall` -/
def kickall : Command := fun s p args =>
  s.withClient p fun cl =>
    if args.length = 2 then
      if arg args 1 = ofString "world" then s.kickallWorld cl.wrld
      else if arg args 1 = ofString "all" then s.kickall
      else s
    else
      (s.tell p (ofString
        "Kicks everyone from the world or all the server, except admins.")).tell p
          (ofString "Usage: /kickall (world, all)")

/-- `Commands::setprop` -/
def setprop : Command := fun s p args =>
  s.withClient p fun cl =>
    if args.length > 2 then
      let value := joinArgs args 2
      (s.act cl.wrld (.setProp (arg args 1) value)).tell p
        (ofString "DEVSet world's property key '" ++ arg args 1 ++ ofString "' to '" ++ value ++
          ofString "'")
    else if args.length = 2 then
      (s.act cl.wrld (.setProp (arg args 1) [])).tell p
        (ofString "DEVDeleted world's property key '" ++ arg args 1 ++ ofString "'")
    else s.tell p (ofString "Usage: /setprop KEY [VALUE]")

omit [Platform] in
/-- `Commands::getprop` -/
def getprop : Command := fun s p args =>
  s.withClient p fun cl =>
    if args.length = 2 then
      s.withWorld cl.wrld fun w =>
        s.tell p (ofString "World property: '" ++ arg args 1 ++ ofString "' is '" ++
          w.getProp (arg args 1) (ofString "[Empty]") ++ ofString "'")
    else s

omit [Platform] in
/-- `Commands::mute` -/
def mute : Command := fun s p args =>
  s.withClient p fun cl =>
    if args.length = 3 then
      withNum (arg args 1) s fun id =>
        withTarget s cl.wrld id s fun target t =>
          let newstate : Bool := arg args 2 = ofString "1"
          if t.rank ≥ cl.rank then
            s.tell p (ofString "Error: Target's rank must be less than yours.")
          else
            (s.change target (.mute newstate)).tell p
              ((if newstate then ofString "Muted " else ofString "Unmuted ") ++
                toString id.toNat)
    else s.tell p (ofString "Usage: /mute (id) (1/0)")

/-- `Commands::restrict` -/
def restrict : Command := fun s p args =>
  s.withClient p fun cl =>
    if args.length = 2 then
      let newstate := if isTrue args 1 then Rank.none else Rank.user
      (s.act cl.wrld (.setDefaultRank newstate)).tell p
        (ofString "Draw restriction is " ++
          if newstate = Rank.none then ofString "ON" else ofString "OFF")
    else
      (s.tell p (ofString
        ("Restricts drawing to all NEW users in this world. (manually grant with /setrank (id) " ++
          "1"))).tell p (ofString "Usage: /restrict (true/false)")

/-- The number of connections an address may have after `/lock ip`. -/
def ipcnt (ipcnt32 : UInt32) : UInt8 :=
  if ipcnt32 ≥ 255 then 255 else if ipcnt32 ≤ 1 then 1 else ipcnt32.toUInt8

/-- The action for fast connections that `/lock fastconnects` takes. -/
def fastAction (a : Bytes) : UInt8 :=
  if a = ofString "captcha" then 3 else if a = ofString "ban" then 2
  else if a = ofString "kick" then 1 else 0

/-- The text for an action for fast connections. -/
def fastText (a : UInt8) : Bytes :=
  if a = 3 then ofString "asking for captcha on" else if a = 2 then ofString "banning"
  else if a = 1 then ofString "kicking" else ofString "allowing"

omit [Platform] in
/-- `Commands::lock` -/
def lock : Command := fun s p args =>
  if args.length = 3 then
    let state := isTrue args 2
    if arg args 1 = ofString "ip" then
      withNum (arg args 2) s fun ipcnt32 =>
        (s.setMaxIpConns (ipcnt ipcnt32)).tell p
          (ofString "Set max connections per ip: " ++ toString (ipcnt ipcnt32).toNat)
    else if arg args 1 = ofString "captcha" then
      (s.setCaptchaProtection state).tell p (ofString "Captcha protection " ++ enabled state)
    else if arg args 1 = ofString "proxy" then
      (s.setProxycheck state).tell p (ofString "Proxy protection " ++ enabled state)
    else if arg args 1 = ofString "trustwhitelist" then
      ({ s with trustingCaptcha := state } : Server).tell p
        (ofString "Trusting whitelist " ++ enabled state)
    else if arg args 1 = ofString "fastconnects" then
      let action := fastAction (arg args 2)
      ({ s with fastconnectaction := action } : Server).tell p
        (ofString "Now " ++ fastText action ++ ofString " fast connections.")
    else s
  else s.tell p (ofString
    ("Usage: /lock (ip/captcha/trustwhitelist/fastconnects) " ++
      "[num_conns/(true,false)/<-/(captcha, ban, kick, none)]"))

/-- `Commands::reload` -/
def reload : Command := fun s p _ =>
  s.withClient p fun cl =>
    (s.act cl.wrld .reload).tell p (ofString "World properties reloaded.")

omit [Platform] in
/-- `Commands::lockdown` -/
def lockdown : Command := fun s p args =>
  if args.length = 2 then s.setLockdown (isTrue args 1)
  else
    [ofString "Only allows players with whitelisted IPs to connect.",
      ofString ("Admin IPs are automatically added to the whitelist (careful, don't change your " ++
        "ip while this is on)."),
      ofString "If all whitelisted admins disconnect, this is automatically disabled.",
      ofString "Usage: /lockdown true/false"].foldl (fun s msg => s.tell p msg) s

omit [Platform] in
/-- `Commands::bansuspicious` -/
def bansuspicious : Command := fun s p args =>
  if args.length = 2 then
    let newstate := isTrue args 1
    (s.setInstaban newstate).tell p (ofString "Suspicious banning mode " ++ enabled newstate)
  else
    (s.tell p (ofString
      "Instantly bans any connection with a non correct origin. Could be dangerous?")).tell p
        (ofString "Usage: /bansuspicious (true, false)")

omit [Platform] in
/-- `Commands::worlds` -/
def worlds : Command := fun s p _ =>
  s.worlds.entries.foldl (fun s e => s.withWorld e.2 fun w =>
    s.tell p (ofString "-> " ++ e.1 ++ ofString " [" ++ toString w.clients.length ++
      ofString "]")) (s.tell p (ofString "Currently loaded worlds:"))

omit [Platform] in
/-- `Commands::setpbucket` -/
def setpbucket : Command := fun s p args =>
  s.withClient p fun cl =>
    if args.length = 4 then
      withNum (arg args 1) s fun id => withNum (arg args 2) s fun rate =>
        withNum (arg args 3) s fun per =>
          let per := if per > 0xFFFF then 0xFFFF else if per = 0 then 1 else per
          let rate := if rate > 0xFFFF then 0xFFFF else rate
          withTarget s cl.wrld id (s.tell p (ofString "Client not found!")) fun target _ =>
            (s.setPbucket target rate.toUInt16 per.toUInt16).tell p
              (ofString "Set client's place bucket: (" ++ toString rate.toNat ++ ofString ", " ++
                toString per.toNat ++ ofString ")")
    else
      (s.tell p (ofString ("Set a client's drawing limit. (RATE pixels every PER seconds, no " ++
        "floats allowed)"))).tell p (ofString "Usage: /setpbucket ID RATE PER")

omit [Platform] in
/-- `Commands::doas`; `exec` runs the command it is for. -/
def doas (exec : Server → ClientPtr → Bytes → Bool × Server) : Command := fun s p args =>
  s.withClient p fun cl =>
    if args.length ≥ 3 then
      withNum (arg args 1) s fun id =>
        withTarget s cl.wrld id s fun target _ => (exec s target (joinArgs args 2)).2
    else
      (s.tell p (ofString "Execute commands as another user. (without the initial '/')")).tell p
        (ofString "Usage: /doas ID COMMAND")

omit [Platform] in
/-- `Commands::broadcast` -/
def broadcast : Command := fun s p args =>
  if args.length ≥ 2 then s.broadcastmsg (ofString " [Broadcast] " ++ joinArgs args 1)
  else s.tell p (ofString "Broadcasts a message to all connections.")

omit [Platform] in
/-- `Commands::totalonline` -/
def totalonline : Command := fun s p _ =>
  s.tell p (ofString "Total connections to the server: " ++ toString s.connsws.length)

omit [Platform] in
/-- `Commands::tellraw` -/
def tellraw : Command := fun s p args =>
  s.withClient p fun cl =>
    if args.length ≥ 3 then
      withNum (arg args 1) s fun id =>
        let msg := joinArgs args 2
        withTarget s cl.wrld id (s.tell p (ofString "User not found!")) fun target _ =>
          (s.tell p (ofString "Message sent.")).tell target msg
    else
      (s.tell p (ofString "Displays a message to a user as raw text.")).tell p
        (ofString "Usage: /tellraw (id) (message)")

omit [Platform] in
/-- `Commands::dev` -/
def dev : Command := fun s _ args =>
  if args.length ≥ 3 ∧ arg args 1 = s.adminpw then
    s.admintell (ofString "DEV" ++ joinArgs args 2)
  else s

/-! ### Tables and dispatch -/

/-- The names in `modcmds`, in the order of the source. -/
def modcmdNames : List Bytes := [ofString "tp", ofString "stealth", ofString "sayraw",
  ofString "getid", ofString "kick", ofString "ids"]

/-- The names in `usrcmds`, in the order of the source. -/
def usrcmdNames : List Bytes := [ofString "nick", ofString "pass", ofString "tell",
  ofString "help", ofString "modlogin", ofString "adminlogin", ofString "spawn"]

/-- The names in `admincmds`, in the order of the source. -/
def admincmdNames : List Bytes := [ofString "kickip", ofString "banip", ofString "bans",
  ofString "whitelist", ofString "blacklist", ofString "setrank", ofString "whois",
  ofString "save", ofString "kickall", ofString "setprop", ofString "getprop",
  ofString "stealth", ofString "mute", ofString "restrict", ofString "lock", ofString "reload",
  ofString "lockdown", ofString "bansuspicious", ofString "worlds", ofString "setpbucket",
  ofString "doas", ofString "broadcast", ofString "totalonline", ofString "tellraw",
  ofString "dev"]

/-- `Commands::get_cmd_list`.  The tables are listed in the order of the source, where the
order of the code is that of its hash tables. -/
def getCmdList (rank : Rank) : Bytes :=
  let admin := if rank = Rank.admin then admincmdNames else []
  let mods := if rank = Rank.admin ∨ rank = Rank.moderator then modcmdNames else []
  let usr := if rank = Rank.admin ∨ rank = Rank.moderator ∨ rank = Rank.user then
    usrcmdNames.filter fun name => name ≠ ofString "modlogin" ∧ name ≠ ofString "adminlogin"
    else []
  let m := ((admin ++ mods ++ usr).map fun name => name ++ ofString ", ").flatten
  if m.length > 2 then m.take (m.length - 2) else m

omit [Platform] in
/-- `Commands::help` -/
def help : Command := fun s p _ =>
  s.withClient p fun cl => s.tell p (ofString "Server: " ++ getCmdList cl.rank ++ ofString ".")

omit [Platform] in
/-- `usrcmds` -/
def usrcmds : List (Bytes × Command) :=
  usrcmdNames.zip [nick, pass, tell, help, modlogin, adminlogin, spawn]

/-- `modcmds` -/
def modcmds : List (Bytes × Command) :=
  modcmdNames.zip [teleport, stealth, sayraw, getid, kick, ids]

/-- `admincmds`; `exec` runs the command of `doas`. -/
def admincmds (exec : Server → ClientPtr → Bytes → Bool × Server) : List (Bytes × Command) :=
  admincmdNames.zip [kickip, banip, bans, whitelist, blacklist, setrank, whois, save, kickall,
    setprop, getprop, stealth, mute, restrict, lock, reload, lockdown, bansuspicious, worlds,
    setpbucket, doas exec, broadcast, totalonline, tellraw, dev]

/-- Look a name up in a table of commands. -/
def find (cmds : List (Bytes × Command)) (name : Bytes) : Option Command :=
  (cmds.find? fun e => e.1 = name).map fun e => e.2

/-- The command that `exec` runs for a client of some rank, and whether it is announced. -/
def search (exec : Server → ClientPtr → Bytes → Bool × Server) (rank : Rank) (name : Bytes) :
    Option (Bool × Command) :=
  let admin := if rank = Rank.admin then find (admincmds exec) name else none
  let mods := if rank = Rank.admin ∨ rank = Rank.moderator then find modcmds name else none
  let usr := if rank = Rank.admin ∨ rank = Rank.moderator ∨ rank = Rank.user then
    find usrcmds name else none
  let any := if name = ofString "modlogin" ∨ name = ofString "adminlogin" ∨ name = ofString "pass"
    then find usrcmds name else none
  ((admin <|> mods).map fun f => (true, f)) <|> ((usr <|> any).map fun f => (false, f))

/-- `Commands::exec` for a text shorter than `fuel`: whether a command was run, and the server
after it. -/
def execFuel : ℕ → Server → ClientPtr → Bytes → Bool × Server
  | 0, s, _, _ => (false, s)
  | fuel + 1, s, p, msg =>
      match splitArgs msg, s.clients p with
      | [], _ => (false, s)
      | _, none => (false, s.misuse)
      | name :: args, some cl =>
          match search (execFuel fuel) cl.rank name with
          | none => (false, s)
          | some (announced, command) =>
              let run (s : Server) := command (s.note (.exec cl.ws (name :: args))) p (name :: args)
              -- the announcement names the world and the address of the client
              (true, if announced then s.withWorld cl.wrld fun _ => s.withInfo cl.ws fun _ => run s
                else run s)

/-- `Commands::exec`.  The text that `doas` runs is shorter than its own. -/
def exec (s : Server) (p : ClientPtr) (msg : Bytes) : Bool × Server :=
  execFuel (msg.length + 1) s p msg

end Commands

end Owop
