import OwopServer.Commands
import OwopServer.Library.Runs

/-!
# Events of the server

The handlers that `Server::Server` installs, the timers and callbacks of the event loop, and
the server as a system that takes one event after the other.
-/

namespace Owop

open Bytes (ofString)

/-! ### Reading messages -/

/-- The `chunkpos_t` at the start of a message. -/
def chunkposOf (msg : Bytes) : ChunkPos := (int32Of (msg.slice 0 4), int32Of (msg.slice 4 4))

/-- The `pixupd_t` of a message. -/
def pixupdOf (msg : Bytes) : PixUpd :=
  ⟨int32Of (msg.slice 0 4), int32Of (msg.slice 4 4), msg.getD 8 0, msg.getD 9 0, msg.getD 10 0⟩

@[simp]
theorem pixupdOf_bytes (p : PixUpd) :
  pixupdOf p.bytes = p
  := by
  have hx := length_int32Bytes p.x
  have hy := length_int32Bytes p.y
  simp [pixupdOf, PixUpd.bytes, Bytes.slice, List.take_append, List.drop_append, hx, hy,
    List.getD_eq_getElem?_getD, -List.append_assoc]

/-- The data of a chunk in a message, behind its position. -/
def dataOf (msg : Bytes) : Data := Data.tabulate fun i => msg.getD (8 + i) 0

/-- The tools of a `pinfo_t` that any player may have. -/
def freeTool (tool : UInt8) : Bool :=
  tool ≤ 2 || tool == 4 || tool == 5 || tool == 7 || tool == 8

namespace Server

/-! ### Connections -/

/-- The address of a connection, without the prefix of an IPv4 address. -/
def stripIp (address : Bytes) : Bytes :=
  if address.take 7 = ofString "::ffff:" then address.drop 7 else address

/-- A new connection and its `SocketInfo`; `state` is its captcha state. -/
def openWs (s : Server) (ip : Bytes) (state : CaptchaState) : Server :=
  { s with
    connsws := s.connsws ++ [s.nextWs]
    infos := Function.update s.infos s.nextWs (some ⟨[], ip, none, state⟩)
    nextWs := s.nextWs + 1 }

/-- Count a connection from an address.  The counter is a `uint8_t`. -/
def countUp (s : Server) (ip : Bytes) : Server :=
  { s with conns := s.conns.insert ip ((s.conns.lookup ip).getD 0 + 1) }

/-- Add an address to the bans. -/
def ban (s : Server) (ip : Bytes) : Server :=
  ({ s with ipban := s.ipban.insert ip } : Server).admintell (ofString "DEVBanned IP: " ++ ip)

/-- The captcha state that a new connection from an address gets. -/
def captchaFor (s : Server) (ip : Bytes) : CaptchaState :=
  if s.captchaRequired ∧ ¬ (ip ∈ s.ipwhitelist ∧ s.trustingCaptcha) then CaptchaState.waiting
  else CaptchaState.ok

/-- Whether connections from an address are refused, for lockdown or a ban. -/
def refuses (s : Server) (ip : Bytes) : Prop := s.lockdown ∧ ip ∉ s.ipwhitelist ∨ ip ∈ s.ipban

instance (s : Server) (ip : Bytes) : Decidable (s.refuses ip) := by
  unfold refuses
  infer_instance

/-- Whether one more connection from an address is too many, or the address is
blacklisted.  Nothing is checked for the first connection. -/
def crowded (s : Server) (ip : Bytes) : Prop :=
  ∃ n, s.conns.lookup ip = some n ∧ ((n + 1).toUInt32 > s.maxconns ∨ ip ∈ s.ipblacklist)

instance (s : Server) (ip : Bytes) : Decidable (s.crowded ip) := by
  unfold crowded
  cases h : s.conns.lookup ip with
  | none => exact isFalse (by simp)
  | some n => exact decidable_of_iff ((n + 1).toUInt32 > s.maxconns ∨ ip ∈ s.ipblacklist) (by simp)

/-- Send the state of a connection's captcha, which is read from its `SocketInfo`. -/
def requestCaptcha (s : Server) (ws : Ws) : Server :=
  s.withInfo ws fun si =>
    s.send ws .binary [ServerMessage.captchaRequired.byte, si.captchaVerified]

/-- What happens to a connection that comes when too many came before it. -/
def fastConnect (s : Server) (ws : Ws) (ip : Bytes) : Server :=
  if s.fastconnectaction = 3 then
    s.withInfo ws fun si => { s with
      infos := Function.update s.infos ws
        (some { si with captchaVerified := CaptchaState.waiting }) }
  else if s.fastconnectaction = 2 then (s.ban ip).closeWs ws
  else if s.fastconnectaction = 1 then s.closeWs ws
  else s

/-- The text for a connection that is refused. -/
def refusal (s : Server) (ip : Bytes) : Bytes :=
  if ip ∉ s.ipban then ofString
    "Sorry, the server is not accepting new connections right now (lockdown)."
  else ofString
    "You are banned. Appeal on the OWOP discord server, (https://discord.gg/JQkTSTd)"

/-- The text for a connection that is one too many. -/
def crowdedText (s : Server) (ip : Bytes) : Bytes :=
  ofString "Sorry, but you have reached the maximum number of simultaneous connections, (" ++
    toString (if ip ∈ s.ipblacklist then 1 else s.maxconns.toNat) ++ ofString ")."

/-- The handler of `onConnection`.  No `SocketInfo` has an origin, which the test for
`instaban` looks at. -/
def onConnection (s : Server) (address : Bytes) : Server :=
  let ip := stripIp address
  let ws := s.nextWs
  let s := s.openWs ip (s.captchaFor ip)
  let isskidbot := s.instaban ∧ ([] : Bytes) = ofString "(None)"
  if s.refuses ip then (s.send ws .text (s.refusal ip)).closeWs ws
  else if isskidbot then (s.ban ip).closeWs ws
  else if s.crowded ip then ((s.countUp ip).send ws .text (s.crowdedText ip)).closeWs ws
  else
    let s := s.countUp ip
    let (can, connlimiter) := s.connlimiter.canSpend s.clock 1
    let s := { s with connlimiter := connlimiter }
    let s := if can then s else s.fastConnect ws ip
    s.requestCaptcha ws

/-! ### Messages -/

variable [Platform]

/-- `Client::warn` -/
def warn (s : Server) (p : ClientPtr) : Server :=
  s.withClient p fun cl =>
    if cl.isAdmin then s
    else
      let s := s.change p .penalty
      if (cl.penalty + 1).toNat > clientMaxWarnLevel then s.safedelete p else s

/-- The handler of `onMessage` for a binary message of a client. -/
def onBinary (s : Server) (ws : Ws) (p : ClientPtr) (cl : Client) (si : SocketInfo) (msg : Bytes) :
    Server :=
  if msg.length = 1 then if msg.getD 0 0 > cl.rank then s.safedelete p else s
  else if msg.length = 8 then
    s.act cl.wrld (.sendChunk cl.ws (chunkposOf msg).1 (chunkposOf msg).2)
  else if msg.length = 9 then s.act cl.wrld (.delChunk (chunkposOf msg).1 (chunkposOf msg).2)
  else if msg.length = 10 then
    if cl.rank < Rank.moderator then
      s.tell p (ofString "Stop playing around with mod tools! :)")
    else
      s.act cl.wrld
        (.setChunkProtection (chunkposOf msg).1 (chunkposOf msg).2 (msg.getD 8 0 != 0))
  else if msg.length = 11 then s.putPx p (pixupdOf msg).x (pixupdOf msg).y (pixupdOf msg).rgb
  else if msg.length = 12 then
    if freeTool (pinfoOf msg).tool || (cl.isAdmin || cl.isMod) then s.place p (pinfoOf msg)
    else s.place p { pinfoOf msg with tool := 0 }
  else if msg.length = 776 then
    if cl.isMod || cl.isAdmin then
      s.act cl.wrld (.pasteChunk (chunkposOf msg).1 (chunkposOf msg).2 (dataOf msg))
    else
      ((s.tell p (ofString "You cheating? I don't like hackers!!!")).admintell
        (ofString "Cheating admin/mod tools IP: " ++ si.ip)).closeWs ws
  else s

/-- Whether a client may say a text of some length, and the server after the limit was asked.
Moderators whose text is too long are limited as users are. -/
def maySay (s : Server) (p : ClientPtr) (cl : Client) (len : ℕ) : Bool × Server :=
  if cl.isAdmin && len ≤ 16384 then (true, s)
  else if cl.isMod && len ≤ 512 then (true, s)
  else if cl.isAdmin then (len ≤ 128, s)
  else ((cl.chatlimit.canSpend s.clock 1).1 && len ≤ 128, s.change p .spendChat)

/-- The handler of `onMessage` for a text of a client that ends in a newline. -/
def onText (s : Server) (p : ClientPtr) (cl : Client) (msg : Bytes) : Server :=
  let mstr := msg.take (msg.length - 1)
  let (may, s) := s.maySay p cl (getUTF8strlen mstr)
  if may then
    if msg.getD 0 0 ≠ 47 then s.chat p mstr
    else (Commands.exec s p (msg.slice 1 (msg.length - 2))).2
  else s.warn p

/-- The handler of `onMessage`.  The last two arguments are the memory for a new client and a
new world. -/
def onMessage (s : Server) (ws : Ws) (oc : OpCode) (msg : Bytes) (p : ClientPtr)
    (wp : WorldPtr) : Server :=
  s.withInfo ws fun si =>
    match si.player with
    | some player => s.withClient player fun cl =>
        if oc = .binary then s.onBinary ws player cl si msg
        else if msg.length > 1 ∧ msg.getD (msg.length - 1) 0 = 10 then s.onText player cl msg
        else s
    | none =>
        if si.captchaVerified = CaptchaState.ok ∧ oc = .binary ∧ msg.length > 2 ∧
            msg.length - 2 ≤ 24 then
          s.joinWorld ws (msg.take (msg.length - 2)) p wp
        else s.closeWs ws

/-! ### The system -/

/-- What the event loop calls the server for. -/
inductive Event where
  /-- A connection is made from an address. -/
  | connect (address : Bytes)
  /-- A message arrives on `ws`; a new client would get the memory `p`, a new world `wp`. -/
  | message (ws : Ws) (oc : OpCode) (msg : Bytes) (p : ClientPtr) (wp : WorldPtr)
  /-- A connection is closed from outside. -/
  | disconnect (ws : Ws)
  /-- The timer `save_hdl` fires. -/
  | save
  /-- The timer of a world fires. -/
  | tick (wp : WorldPtr)
  /-- A callback that waits is run. -/
  | callback (i : ℕ)
  /-- The process gets the signal to quit. -/
  | quit
  /-- Time passes. -/
  | advance (dt : ℚ)
  /-- The hash table of connections is walked in another order from now on. -/
  | rehash (connsws : List Ws)

/-- The server after an event.  Nothing happens after the process has exited, nor for an event
that cannot occur: a message on a closed connection, a timer that is not active, memory that is
in use. -/
def step (s : Server) (e : Event) : Server :=
  if s.exited then s
  else
    match e with
    | .connect address => s.onConnection address
    | .message ws oc msg p wp =>
        if (s.infos ws).isSome ∧ s.clients p = none ∧ s.objs wp = none then
          s.onMessage ws oc msg p wp
        else s
    | .disconnect ws => if (s.infos ws).isSome then s.onDisconnection ws else s
    | .save => if s.closing then s else s.saveNow
    | .tick wp => if (s.objs wp).any fun w => w.updActive then s.tick wp else s
    | .callback i =>
        match s.pending[i]? with
        | some c => ({ s with pending := s.pending.eraseIdx i } : Server).callback c
        | none => s
    | .quit => s.quit
    | .advance dt => if 0 ≤ dt then { s with clock := s.clock + dt } else s
    | .rehash connsws => if connsws.Perm s.connsws then { s with connsws := connsws } else s

/-- The server after some events. -/
def runs (s : Server) (events : List Event) : Server := Runs.run step s events

end Server

end Owop
