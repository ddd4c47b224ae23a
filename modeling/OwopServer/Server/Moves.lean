import OwopServer.Commands.Chains
import OwopServer.Server.Events

/-!
# Events as moves

Each event of the server is made of moves: the small steps of its functions, and what only the
event loop does, such as making a connection, letting a client join or running a callback.  A
move may use something after its end only where it is said to.
-/

namespace Owop

open Bytes (ofString)

/-! ### Joining -/

/-- The client after `Client::promote`. -/
def Client.promoted (cl : Client) (newrank : Rank) (prate : UInt16) : Client :=
  { cl with
    rank := newrank
    pixupdlimit :=
      if newrank = Rank.admin then cl.pixupdlimit
      else if newrank = Rank.moderator then cl.pixupdlimit.set prate 2
      else if newrank = Rank.user then cl.pixupdlimit.set prate 4
      else cl.pixupdlimit.set 0 1 }

namespace Server

/-- Put a client in the place of the one at `p`. -/
def putClient (s : Server) (p : ClientPtr) (cl : Client) : Server :=
  { s with clients := Function.update s.clients p (some cl) }

/-- The server after some messages on a connection. -/
def sent (s : Server) (ws : Ws) (msgs : List (OpCode × Bytes)) : Server :=
  { s with log := s.log ++ msgs.map fun m => .send ws m.1 m.2 }

variable {s : Server}

/-- No message. -/
theorem sent_nil (s : Server) (ws : Ws) :
  s.sent ws [] = s
  := by
  simp [sent]

/-- Messages one after another. -/
theorem sent_sent (s : Server) (ws : Ws) (msgs msgs' : List (OpCode × Bytes)) :
  (s.sent ws msgs).sent ws msgs' = s.sent ws (msgs ++ msgs')
  := by
  simp [sent]

/-- A message to a connection that is open. -/
theorem send_sent {ws : Ws} {si : SocketInfo} (op : OpCode) (msg : Bytes)
    (hws : s.infos ws = some si) :
  s.send ws op msg = s.sent ws [(op, msg)]
  := send_eq op msg hws

/-- A text to a client with an open connection. -/
theorem tell_sent {p : ClientPtr} {cl : Client} {si : SocketInfo} (msg : Bytes)
    (hp : s.clients p = some cl) (hws : s.infos cl.ws = some si) :
  s.tell p msg = s.sent cl.ws [(.text, msg)]
  := by
  rw [tell, withClient_eq _ hp, send_sent _ _ hws]

/-- What `Client::set_pbucket` does. -/
theorem setPbucket_sent {p : ClientPtr} {cl : Client} {si : SocketInfo} (rate per : UInt16)
    (hp : s.clients p = some cl) (hws : s.infos cl.ws = some si) :
  ∃ msgs, s.setPbucket p rate per =
    (s.putClient p { cl with pixupdlimit := cl.pixupdlimit.set rate per }).sent cl.ws msgs
  := by
  rw [setPbucket, withClient_eq _ hp, change_eq _ hp]
  exact ⟨_, send_sent _ _ (show _ = some si from hws)⟩

/-- The last change of a client counts. -/
theorem putClient_putClient (p : ClientPtr) (cl cl' : Client) :
  (s.putClient p cl).putClient p cl' = s.putClient p cl'
  := by
  simp [putClient]

/-- The client after `Client::promote`, and the messages. -/
theorem promote_sent {p : ClientPtr} {cl : Client} {si : SocketInfo} (newrank : Rank)
    (prate : UInt16) (hp : s.clients p = some cl) (hws : s.infos cl.ws = some si) :
  ∃ msgs, s.promote p newrank prate =
    (s.putClient p (cl.promoted newrank prate)).sent cl.ws msgs
  := by
  have hchange : s.change p (.rank newrank) = s.putClient p { cl with rank := newrank } :=
    change_eq _ hp
  rw [promote, withClient_eq _ hp, hchange]
  dsimp only
  generalize ht : s.putClient p { cl with rank := newrank } = t
  have hcl : t.clients p = some { cl with rank := newrank } := by
    rw [← ht]
    exact Function.update_self _ _ _
  have hinfo : t.infos cl.ws = some si := by
    rw [← ht]
    exact hws
  have hput : ∀ cl', t.putClient p cl' = s.putClient p cl' := by
    intro cl'
    rw [← ht, putClient_putClient]
  have hsend : ∀ (u : Server) (op : OpCode) (msg : Bytes) (msgs : List (OpCode × Bytes)),
      u.infos cl.ws = some si →
      ∃ msgs', (u.sent cl.ws msgs).send cl.ws op msg = u.sent cl.ws msgs' := by
    intro u op msg msgs hu
    rw [send_sent (s := u.sent cl.ws msgs) op msg hu, sent_sent]
    exact ⟨_, rfl⟩
  have htell : ∀ msg, t.tell p msg = t.sent cl.ws [(.text, msg)] := by
    intro msg
    have heq := tell_sent msg hcl hinfo
    exact heq
  have hbucket : ∀ (rate per : UInt16) (msgs : List (OpCode × Bytes)),
      ∃ msgs', (t.sent cl.ws msgs).setPbucket p rate per
        = (s.putClient p { cl with
            rank := newrank, pixupdlimit := cl.pixupdlimit.set rate per }).sent cl.ws msgs' := by
    intro rate per msgs
    obtain ⟨msgs', heq⟩ := setPbucket_sent (s := t.sent cl.ws msgs) rate per hcl hinfo
    use msgs ++ msgs'
    rw [heq, ← sent_sent, ← hput]
    rfl
  rw [Client.promoted]
  split
  · rw [htell, ← ht]
    exact hsend _ _ _ _ hws
  · split
    · rw [htell]
      obtain ⟨msgs, heq⟩ := hbucket prate 2 _
      rw [heq]
      exact hsend _ _ _ _ hws
    · split
      · obtain ⟨msgs, heq⟩ := hbucket prate 4 []
        rw [sent_nil] at heq
        rw [heq]
        exact hsend _ _ _ _ hws
      · obtain ⟨msgs, heq⟩ := hbucket 0 1 []
        rw [sent_nil] at heq
        rw [heq]
        exact hsend _ _ _ _ hws

/-! ### What joining does -/

/-- The client that a world gives to a connection that joins it. -/
def guest (w : World) (ws : Ws) (wp : WorldPtr) : Client :=
  (Client.new (w.pids + 1) ws wp).promoted (if w.pass = [] then w.defaultRank else Rank.none)
    w.paintrate

/-- The server after a connection has joined a world, without the messages. -/
def welcome (s : Server) (ws : Ws) (si : SocketInfo) (p : ClientPtr) (wp : WorldPtr) (w : World) :
    Server :=
  { s with
    infos := Function.update s.infos ws (some { si with player := some p })
    clients := Function.update s.clients p (some (guest w ws wp))
    objs := Function.update s.objs wp (some (w.getId.2.addCli p)) }

/-- A new client is told its id. -/
theorem newClient_sent {ws : Ws} {si : SocketInfo} (p : ClientPtr) (id : UInt32) (wp : WorldPtr)
    (hws : s.infos ws = some si) :
  s.newClient p id ws wp = (s.putClient p (Client.new id ws wp)).sent ws
    [(.binary, [ServerMessage.setId.byte] ++ uint32Bytes id)]
  := by
  have hinfo : (s.putClient p (Client.new id ws wp)).infos ws = some si := hws
  have htouch : (s.putClient p (Client.new id ws wp)).touch ws
      = s.putClient p (Client.new id ws wp) := by
    rw [touch, withInfo_eq _ hinfo]
  have hsend := send_sent .binary ([ServerMessage.setId.byte] ++ uint32Bytes id) hinfo
  rw [← hsend]
  rw [← htouch]
  rfl

/-- Joining is what `welcome` says, and some messages to the connection. -/
theorem enter_sent {ws : Ws} {si : SocketInfo} {wp : WorldPtr} {w : World} (p : ClientPtr)
    (hws : s.infos ws = some si) (hwp : s.objs wp = some w) :
  ∃ msgs, s.enter ws wp p = (s.welcome ws si p wp w).sent ws msgs
  := by
  rw [enter, withInfo_eq _ hws, withWorld_eq _ hwp]
  -- the server with the new client, before the world gets it
  generalize ht : ({ s with
      infos := Function.update s.infos ws (some { si with player := some p })
      clients := Function.update s.clients p (some (Client.new (w.pids + 1) ws wp))
      objs := Function.update s.objs wp (some w.getId.2) } : Server) = t
  have hnew : ∃ msgs, ({ ((s.putWorld wp w.getId.2).newClient p (w.pids + 1) ws wp) with
      infos := Function.update ((s.putWorld wp w.getId.2).newClient p (w.pids + 1) ws wp).infos ws
        (some { si with player := some p }) } : Server) = t.sent ws msgs := by
    have hinfo : (s.putWorld wp w.getId.2).infos ws = some si := hws
    rw [newClient_sent p (w.pids + 1) wp hinfo, ← ht]
    exact ⟨_, rfl⟩
  obtain ⟨msgs, hnew⟩ := hnew
  have hcl : t.clients p = some (Client.new (w.pids + 1) ws wp) := by
    rw [← ht]
    exact Function.update_self _ _ _
  have hinfo : t.infos ws = some { si with player := some p } := by
    rw [← ht]
    exact Function.update_self _ _ _
  have hobj : t.objs wp = some w.getId.2 := by
    rw [← ht]
    exact Function.update_self _ _ _
  have htell : ∀ (msgs : List (OpCode × Bytes)) (msg : Bytes),
      (t.sent ws msgs).tell p msg = t.sent ws (msgs ++ [(.text, msg)]) := by
    intro msgs msg
    have hcl' : (t.sent ws msgs).clients p = some (Client.new (w.pids + 1) ws wp) := hcl
    rw [tell_sent msg hcl' hinfo]
    exact sent_sent _ _ _ _
  have hpromote : ∀ (msgs : List (OpCode × Bytes)) (r : Rank),
      ∃ msgs', (t.sent ws msgs).promote p r w.paintrate
        = (t.putClient p ((Client.new (w.pids + 1) ws wp).promoted r w.paintrate)).sent ws
          msgs' := by
    intro msgs r
    obtain ⟨msgs', heq⟩ := promote_sent (s := t.sent ws msgs) r w.paintrate hcl hinfo
    use msgs ++ msgs'
    rw [heq, ← sent_sent]
    rfl
  have hadd : ∃ msgs', (t.sent ws msgs).addCli wp p = (s.welcome ws si p wp w).sent ws msgs' := by
    have hdone : ∀ msgs', ((t.putClient p (guest w ws wp)).sent ws msgs').putWorld wp
        (w.getId.2.addCli p) = (s.welcome ws si p wp w).sent ws msgs' := by
      intro msgs'
      rw [← ht]
      simp [putWorld, sent, putClient, welcome]
    rw [addCli, withWorld_eq (s := t.sent ws msgs) _ hobj]
    dsimp only
    rw [htell]
    split
    case isTrue hpass =>
      obtain ⟨msgs', heq⟩ := hpromote (msgs ++ [(.text, rules)]) w.defaultRank
      use msgs'
      have hpass' : w.pass = [] := hpass
      rw [← hdone, guest, if_pos hpass', ← heq]
      rfl
    case isFalse hpass =>
      rw [htell]
      obtain ⟨msgs', heq⟩ := hpromote (msgs ++ [(.text, rules)] ++ [(.text, ofString
        "[Server] This world has a password set. Use '/pass PASSWORD' to unlock drawing.")])
        Rank.none
      use msgs'
      have hpass' : w.pass ≠ [] := hpass
      rw [← hdone, guest, if_neg hpass', ← heq]
      rfl
  obtain ⟨msgs', hadd⟩ := hadd
  use msgs'
  rw [← hadd, ← hnew]
  rfl

/-- Who joins a world without a rank gets no pixels. -/
theorem guest_poor (w : World) (ws : Ws) (wp : WorldPtr) :
  (guest w ws wp).Poor
  := by
  rw [guest]
  generalize (if w.pass = [] then w.defaultRank else Rank.none) = r
  intro hr
  obtain rfl : r = Rank.none := hr
  rfl

/-- The client of a connection that has just joined a world. -/
theorem welcome_poor {ws : Ws} {si : SocketInfo} {p : ClientPtr} {wp : WorldPtr} {w : World}
    (h : s.Consistent) (hws : s.infos ws = some si) (hplayer : si.player = none) :
  ∀ q cl, (s.welcome ws si p wp w).Live q cl → cl.ws = ws → cl.Poor
  := by
  rintro q cl ⟨hcl, hpresent⟩ heq
  obtain ⟨-, rfl⟩ | ⟨-, hcl⟩ := Table.update_eq_some.mp hcl
  · exact guest_poor w _ wp
  · obtain ⟨si', hsi', hplayer'⟩ := h.info_of_live ⟨hcl, hpresent⟩
    rw [heq] at hsi'
    obtain rfl : si = si' := Option.some.inj (hws.symm.trans hsi')
    rw [hplayer] at hplayer'
    cases hplayer'

/-! ### Moves -/

variable [Platform]

/-- A move of the server.  Something is used after its end only if `misuses` holds, connections are
made only if `connects` holds, and worlds are loaded only if `loads` holds. -/
inductive Move (D : Scope) (misuses connects loads : Prop) (s : Server) : Server → Prop
  | small {l : Label} (hl : Allowed D s l) : Move D misuses connects loads s (l.step s)
  | misuse (hm : misuses) : Move D misuses connects loads s s.misuse
  | openWs {ip : Bytes} {state : CaptchaState} (hc : connects) :
      Move D misuses connects loads s (s.openWs ip state)
  | countUp {ip : Bytes} (hc : connects) : Move D misuses connects loads s (s.countUp ip)
  | captcha {ws : Ws} {si : SocketInfo} {state : CaptchaState} (hws : s.infos ws = some si) :
      Move D misuses connects loads s { s with
        infos := Function.update s.infos ws (some { si with captchaVerified := state }) }
  | join {ws : Ws} {si : SocketInfo} {p : ClientPtr} {name : Bytes} {wp : WorldPtr} {w : World}
      (hws : s.infos ws = some si) (hplayer : si.player = none) (hp : s.clients p = none)
      (hname : s.worlds.lookup name = some wp) (hwp : s.objs wp = some w) :
      Move D misuses connects loads s (s.welcome ws si p wp w)
  | found {ws : Ws} {si : SocketInfo} {p : ClientPtr} {name : Bytes} {wp : WorldPtr} (hl : loads)
      (hws : s.infos ws = some si) (hplayer : si.player = none) (hp : s.clients p = none)
      (hname : s.worlds.lookup name = none) (hwp : s.objs wp = none) :
      Move D misuses connects loads s
        ((s.loadWorld name wp).welcome ws si p wp (World.new s.path name s.disk).1)
  | flush {wp : WorldPtr} {w : World} (hwp : s.objs wp = some w) :
      Move D misuses connects loads s (s.putWorld wp (w.sendUpdates s.infoOf).1)
  | freeClient {i : ℕ} {p : ClientPtr} (hi : s.pending[i]? = some (.client p)) :
      Move D misuses connects loads s { s with
        pending := s.pending.eraseIdx i, clients := Function.update s.clients p none }
  | freeWorld {i : ℕ} {wp : WorldPtr} {w : World} (hi : s.pending[i]? = some (.world wp))
      (hwp : s.objs wp = some w) :
      Move D misuses connects loads s { s with
        pending := s.pending.eraseIdx i
        objs := Function.update s.objs wp none
        disk := w.delete s.disk }
  | dropServer {i : ℕ} (hi : s.pending[i]? = some .server) :
      Move D misuses connects loads s { s with pending := s.pending.eraseIdx i }
  | close (hclosing : s.closing = false) :
      Move D misuses connects loads s { s with
        closing := true, pending := s.pending ++ [Callback.server] }
  | exit (hclosing : s.closing = true) (hws : s.connsws = []) :
      Move D misuses connects loads s { s with exited := true }
  | advance {dt : ℚ} (hdt : 0 ≤ dt) : Move D misuses connects loads s { s with clock := s.clock + dt }
  | rehash {connsws : List Ws} (hperm : connsws.Perm s.connsws) :
      Move D misuses connects loads s { s with connsws := connsws }

/-- From one server to another by moves. -/
def Moves (D : Scope) (misuses connects loads : Prop) : Server → Server → Prop :=
  Relation.ReflTransGen fun s s' => Move D misuses connects loads s s'

variable {D : Scope} {misuses connects loads : Prop}

/-- Nothing happens. -/
theorem Moves.refl (s : Server) :
  Moves D misuses connects loads s s
  := Relation.ReflTransGen.refl

/-- One thing after another. -/
theorem Moves.trans {s' s'' : Server} (h : Moves D misuses connects loads s s')
    (h' : Moves D misuses connects loads s' s'') :
  Moves D misuses connects loads s s''
  := Relation.ReflTransGen.trans h h'

/-- One move. -/
theorem Moves.single {s' : Server} (h : Move D misuses connects loads s s') :
  Moves D misuses connects loads s s'
  := Relation.ReflTransGen.single h

/-- A chain of small steps. -/
theorem Chain.moves {s' : Server} (h : Chain D s s') :
  Moves D misuses connects loads s s'
  := by
  induction h with
  | refl => exact Moves.refl s
  | tail _ hstep ih =>
      obtain ⟨l, hl, rfl⟩ := hstep
      exact ih.trans (Moves.single (.small hl))

/-- Some messages on an open connection. -/
theorem sent_moves {ws : Ws} {si : SocketInfo} (hws : s.infos ws = some si) (hD : ∀ wp, D.wrld wp)
    (msgs : List (OpCode × Bytes))
    (hpoor : ∀ m ∈ msgs, tellsRank m.1 m.2 = true → ∀ p cl, s.Live p cl → cl.ws = ws → cl.Poor) :
  Moves D misuses connects loads s (s.sent ws msgs)
  := by
  induction msgs generalizing s with
  | nil =>
      rw [sent_nil]
      exact Moves.refl s
  | cons m msgs ih =>
      have hfirst : Moves D misuses connects loads s (s.sent ws [m]) :=
        Moves.single (.small
          (.send hws (fun _ _ _ _ => Or.inl (hD _)) (hpoor m List.mem_cons_self)))
      have hrest : Moves D misuses connects loads (s.sent ws [m]) ((s.sent ws [m]).sent ws msgs) :=
        ih hws fun m' hm' => hpoor m' (List.mem_cons_of_mem m hm')
      rw [sent_sent] at hrest
      exact hfirst.trans hrest

/-! ### Moves keep the server consistent -/

omit [Platform] in
/-- A client that enters a world, in the registry. -/
theorem registry_welcome {ws : Ws} {si : SocketInfo} {p : ClientPtr} {wp : WorldPtr} {w : World}
    (name : Bytes) (hwp : s.objs wp = some w) (hname : s.worlds.lookup w.name = some wp) :
  (s.welcome ws si p wp w).registry = s.registry.enter ws p wp name
  := by
  have hroom : s.registry.room wp = some w.room := registry_room.mpr ⟨w, hwp, rfl⟩
  rw [Registry.enter, hroom]
  ext1
  case player => exact Table.map_update SocketInfo.player s.infos ws _
  case seat => exact Table.map_update Client.seat s.clients p _
  case room => exact Table.map_update World.room s.objs wp _
  case worlds =>
    have hsame : Function.update s.registry.worlds w.name (some wp) = s.registry.worlds := by
      rw [Function.update_eq_self_iff]
      exact hname.symm
    exact hsame.symm
  all_goals rfl

omit [Platform] in
/-- A client that enters a new world, in the registry. -/
theorem registry_welcome_new {ws : Ws} {si : SocketInfo} {p : ClientPtr} {wp : WorldPtr} {w : World}
    {name : Bytes} {d : Disk} (hwp : s.objs wp = none) (hempty : w.room = ⟨name, [], []⟩) :
  ({ s.putWorld wp w with worlds := s.worlds.insert name wp, disk := d }.welcome ws si p wp
    w).registry = s.registry.enter ws p wp name
  := by
  obtain ⟨hname, hclients, hplupdates⟩ := Room.mk.inj hempty
  have hroom : s.registry.room wp = none := by
    simp only [registry, hwp, Option.map_none]
  rw [Registry.enter, hroom]
  ext1
  case player => exact Table.map_update SocketInfo.player s.infos ws _
  case seat => exact Table.map_update Client.seat s.clients p _
  case room =>
    have hobjs : Function.update (Function.update s.objs wp (some w)) wp
        (some (w.getId.2.addCli p)) = Function.update s.objs wp (some (w.getId.2.addCli p)) :=
      Function.update_idem _ _ _
    have hentered : (w.getId.2.addCli p).room = ⟨w.name, setInsert (· ≤ ·) p w.clients,
        (setInsert (· ≤ ·) p w.clients).foldl (fun s cl => setInsert (· ≤ ·) cl s)
          w.plupdates⟩ := rfl
    rw [hname, hclients, hplupdates] at hentered
    show (fun wp' => (Function.update (Function.update s.objs wp (some w)) wp
      (some (w.getId.2.addCli p)) wp').map World.room) = _
    rw [hobjs, Table.map_update, Option.map_some, hentered]
    rfl
  case worlds => exact lookup_insert_eq s.worlds name wp
  all_goals rfl

/-- A new world is empty, and new clients are users. -/
theorem World.new_room (path name : Bytes) (d : Disk) :
  (World.new path name d).1.room = ⟨name, [], []⟩ ∧
    (World.new path name d).1.defaultRank = Rank.user
  := by
  rw [World.new]
  dsimp only
  rw [World.reload_rest]
  exact ⟨rfl, rfl⟩

omit [Platform] in
/-- A world after a tick. -/
theorem sendUpdates_room (w : World) (info : ClientPtr → UInt32 × PInfo) :
  (w.sendUpdates info).1.room = { w.room with
      plupdates := w.plupdates.drop worldMaxPlayerUpdates } ∧
    (w.sendUpdates info).1.defaultRank = w.defaultRank
  := by
  obtain ⟨msg, heq, -⟩ := World.sendUpdates_spec w info
  rw [heq, World.ticked]
  dsimp only
  split
  · exact ⟨rfl, rfl⟩
  · exact ⟨rfl, rfl⟩

omit [Platform] in
/-- A `SocketInfo` without an origin in the place of another. -/
theorem origin_update {ws ws' : Ws} {si si' : SocketInfo} (h : s.Consistent)
    (hsi' : Function.update s.infos ws (some si) ws' = some si') (horigin : si.origin = []) :
  si'.origin = []
  := by
  obtain ⟨-, rfl⟩ | ⟨-, hsi'⟩ := Table.update_eq_some.mp hsi'
  · exact horigin
  · exact h.origin hsi'

omit [Platform] in
/-- Making a connection. -/
theorem Consistent.openWs (h : s.Consistent) (ip : Bytes) (state : CaptchaState) :
  (s.openWs ip state).Consistent
  := by
  have hr : (s.openWs ip state).registry = s.registry.connect := by
    ext1
    case player => exact Table.map_update SocketInfo.player s.infos s.nextWs _
    all_goals rfl
  constructor
  case registry =>
    rw [hr]
    exact h.registry.connect
  case defaultRank => exact h.defaultRank
  case origin => exact fun hsi => origin_update h hsi rfl
  case proxies => exact h.proxies

omit [Platform] in
/-- The captcha of a connection. -/
theorem Consistent.captcha {ws : Ws} {si : SocketInfo} (h : s.Consistent)
    (hws : s.infos ws = some si) (state : CaptchaState) :
  ({ s with
    infos := Function.update s.infos ws (some { si with captchaVerified := state }) } :
      Server).Consistent
  := by
  have hr : ({ s with
      infos := Function.update s.infos ws (some { si with captchaVerified := state }) } :
        Server).registry = s.registry := by
    ext1
    case player => exact Table.map_update_same hws rfl
    all_goals rfl
  constructor
  case registry =>
    rw [hr]
    exact h.registry
  case defaultRank => exact h.defaultRank
  case origin =>
    have horigin : si.origin = [] := h.origin hws
    intro ws' si' hsi'
    exact origin_update h hsi' horigin
  case proxies => exact h.proxies

omit [Platform] in
/-- Joining a world that is there. -/
theorem Consistent.welcome {ws : Ws} {si : SocketInfo} {p : ClientPtr} {name : Bytes}
    {wp : WorldPtr} {w : World} (h : s.Consistent) (hws : s.infos ws = some si)
    (hplayer : si.player = none) (hp : s.clients p = none)
    (hname : s.worlds.lookup name = some wp) (hwp : s.objs wp = some w) :
  (s.welcome ws si p wp w).Consistent
  := by
  obtain ⟨w', hw', hname', -⟩ := h.world_of_lookup hname
  obtain rfl : w = w' := Option.some.inj (hwp.symm.trans hw')
  constructor
  case registry =>
    rw [registry_welcome name hwp (hname'.symm ▸ hname)]
    apply h.registry.enter (registry_player.mpr ⟨si, hws, hplayer⟩) _ (Or.inl hname)
    show (s.clients p).map Client.seat = none
    rw [hp, Option.map_none]
  case defaultRank =>
    intro wp' w'' hw''
    have hrank : w.defaultRank ≤ Rank.user := h.defaultRank hwp
    exact rank_update (w := w.getId.2.addCli p) h hrank hw''
  case origin =>
    have horigin : si.origin = [] := h.origin hws
    intro ws' si' hsi'
    exact origin_update h hsi' horigin
  case proxies => exact h.proxies

/-- Joining a world that is loaded for it. -/
theorem Consistent.welcome_new {ws : Ws} {si : SocketInfo} {p : ClientPtr} {name : Bytes}
    {wp : WorldPtr} (h : s.Consistent) (hws : s.infos ws = some si) (hplayer : si.player = none)
    (hp : s.clients p = none) (hname : s.worlds.lookup name = none) (hwp : s.objs wp = none) :
  ((s.loadWorld name wp).welcome ws si p wp (World.new s.path name s.disk).1).Consistent
  := by
  obtain ⟨hroom, hrank⟩ := World.new_room s.path name s.disk
  have hload : s.loadWorld name wp = { s.putWorld wp (World.new s.path name s.disk).1 with
      worlds := s.worlds.insert name wp, disk := (World.new s.path name s.disk).2 } := rfl
  generalize World.new s.path name s.disk = new at hroom hrank hload ⊢
  obtain ⟨w, d⟩ := new
  rw [hload]
  constructor
  case registry =>
    rw [registry_welcome_new hwp hroom]
    apply h.registry.enter (registry_player.mpr ⟨si, hws, hplayer⟩)
    · show (s.clients p).map Client.seat = none
      rw [hp, Option.map_none]
    · right
      refine ⟨hname, ?_⟩
      show (s.objs wp).map World.room = none
      rw [hwp, Option.map_none]
  case defaultRank =>
    intro wp' w' hw'
    obtain ⟨-, rfl⟩ | ⟨hne, hw'⟩ := Table.update_eq_some.mp hw'
    · show w.defaultRank ≤ Rank.user
      rw [hrank]
      exact UInt8.le_refl _
    · obtain ⟨heq, -⟩ | ⟨-, hw'⟩ := Table.update_eq_some.mp hw'
      · exact absurd heq hne
      · exact h.defaultRank hw'
  case origin =>
    have horigin : si.origin = [] := h.origin hws
    intro ws' si' hsi'
    exact origin_update h hsi' horigin
  case proxies => exact h.proxies

omit [Platform] in
/-- A tick of a world. -/
theorem Consistent.flush {wp : WorldPtr} {w : World} (h : s.Consistent)
    (hwp : s.objs wp = some w) :
  (s.putWorld wp (w.sendUpdates s.infoOf).1).Consistent
  := by
  obtain ⟨hroom, hrank⟩ := sendUpdates_room w s.infoOf
  have hr : (s.putWorld wp (w.sendUpdates s.infoOf).1).registry
      = s.registry.flush wp (w.plupdates.drop worldMaxPlayerUpdates) := by
    rw [Registry.flush, registry_room.mpr ⟨w, hwp, rfl⟩]
    ext1
    case room =>
      refine (Table.map_update World.room s.objs wp _).trans ?_
      rw [Option.map_some, hroom]
      rfl
    all_goals rfl
  constructor
  case registry =>
    rw [hr]
    apply h.registry.flush
    intro r hr'
    obtain ⟨w', hw', rfl⟩ := registry_room.mp hr'
    obtain rfl : w = w' := Option.some.inj (hwp.symm.trans hw')
    exact List.drop_subset _ _
  case defaultRank =>
    intro wp' w' hw'
    exact rank_update (w := (w.sendUpdates s.infoOf).1) h (hrank ▸ h.defaultRank hwp) hw'
  case origin => exact h.origin
  case proxies => exact h.proxies

omit [Platform] in
/-- The callback that deletes a client. -/
theorem Consistent.freeClient {i : ℕ} {p : ClientPtr} (h : s.Consistent)
    (hi : s.pending[i]? = some (.client p)) :
  ({ s with
    pending := s.pending.eraseIdx i, clients := Function.update s.clients p none } :
      Server).Consistent
  := by
  constructor
  case registry =>
    have hr : ({ s with
        pending := s.pending.eraseIdx i, clients := Function.update s.clients p none } :
          Server).registry = s.registry.freeClient i p := by
      ext1
      case seat => exact Table.map_update Client.seat s.clients p none
      all_goals rfl
    rw [hr]
    exact h.registry.freeClient hi
  case defaultRank => exact h.defaultRank
  case origin => exact h.origin
  case proxies => exact h.proxies

omit [Platform] in
/-- The callback that deletes a world. -/
theorem Consistent.freeWorld {i : ℕ} {wp : WorldPtr} (h : s.Consistent)
    (hi : s.pending[i]? = some (.world wp)) (d : Disk) :
  ({ s with
    pending := s.pending.eraseIdx i
    objs := Function.update s.objs wp none
    disk := d } : Server).Consistent
  := by
  constructor
  case registry =>
    have hr : ({ s with
        pending := s.pending.eraseIdx i
        objs := Function.update s.objs wp none
        disk := d } : Server).registry = s.registry.freeWorld i wp := by
      ext1
      case room => exact Table.map_update World.room s.objs wp none
      all_goals rfl
    rw [hr]
    exact h.registry.freeWorld hi
  case defaultRank =>
    intro wp' w' hw'
    have hw'' : Function.update s.objs wp none wp' = some w' := hw'
    rw [Function.update_apply] at hw''
    split at hw''
    · cases hw''
    · exact h.defaultRank hw''
  case origin => exact h.origin
  case proxies => exact h.proxies

/-- Moves keep the server consistent. -/
theorem Consistent.move {s' : Server} (h : s.Consistent) (hm : Move D misuses connects loads s s') :
  s'.Consistent
  := by
  cases hm with
  | small hl => exact h.step hl
  | misuse => exact ⟨h.registry, h.defaultRank, h.origin, h.proxies⟩
  | openWs => exact h.openWs _ _
  | countUp => exact ⟨h.registry, h.defaultRank, h.origin, h.proxies⟩
  | captcha hws => exact h.captcha hws _
  | join hws hplayer hp hname hwp => exact h.welcome hws hplayer hp hname hwp
  | found _ hws hplayer hp hname hwp => exact h.welcome_new hws hplayer hp hname hwp
  | flush hwp => exact h.flush hwp
  | freeClient hi => exact h.freeClient hi
  | freeWorld hi => exact h.freeWorld hi _
  | dropServer hi => exact ⟨h.registry.dropServer hi, h.defaultRank, h.origin, h.proxies⟩
  | close hclosing => exact ⟨h.registry.quit hclosing, h.defaultRank, h.origin, h.proxies⟩
  | exit => exact ⟨h.registry, h.defaultRank, h.origin, h.proxies⟩
  | advance => exact ⟨h.registry, h.defaultRank, h.origin, h.proxies⟩
  | rehash hperm => exact ⟨h.registry.rehash hperm, h.defaultRank, h.origin, h.proxies⟩

/-- What each move keeps, moves keep. -/
theorem Moves.keep {P : Server → Prop} {s' : Server} (h : Moves D misuses connects loads s s')
    (hs : s.Consistent) (hP : P s)
    (hmove : ∀ {t t'}, t.Consistent → P t → Move D misuses connects loads t t' → P t') :
  s'.Consistent ∧ P s'
  := by
  induction h with
  | refl => exact ⟨hs, hP⟩
  | tail _ hstep ih =>
      obtain ⟨ht, hPt⟩ := ih
      exact ⟨ht.move hstep, hmove ht hPt hstep⟩

/-- Moves keep the tables consistent. -/
theorem Moves.consistent {s' : Server} (h : Moves D misuses connects loads s s') (hs : s.Consistent) :
  s'.Consistent
  := (h.keep (P := fun _ => True) hs trivial fun _ _ _ => trivial).1

end Server

end Owop
