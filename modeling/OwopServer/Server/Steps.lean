import OwopServer.Server.Moves

/-!
# Steps of the server

Each event that the event loop calls the server for is made of moves, so that the server is
consistent in every run.
-/

namespace Owop

open Bytes (ofString)

namespace Server

variable [Platform] {s : Server} {D : Scope} {p : ClientPtr} {cl : Client} {si : SocketInfo}

/-! ### Messages of clients -/

/-- The scope with the world of a client, which may do anything. -/
def Scope.own (cl : Client) : Scope :=
  ⟨fun wp => wp = cl.wrld, fun _ => True, fun _ => True, False⟩

/-- A warning for a client. -/
theorem warn_chain (h : s.Consistent) (hp : s.Live p cl) (hD : D.wrld cl.wrld)
    (hd : D.drops cl.ws) :
  Chain D s (s.warn p)
  := by
  rw [warn, withClient_eq _ hp.1]
  split
  · exact Chain.refl s
  · apply (change_chain (D := D.still) (c := .penalty) hp hD trivial trivial).andThen h
    intro h' hstay
    dsimp only
    split
    · exact safedelete_chain h' (hstay hp.seat) hd hD
    · exact Chain.refl _

/-- What a binary message of a client asks its world for, but for a pixel. -/
def asked (cl : Client) (msg : Bytes) : Option WorldAct :=
  if msg.length = 8 then some (.sendChunk cl.ws (chunkposOf msg).1 (chunkposOf msg).2)
  else if msg.length = 9 then some (.delChunk (chunkposOf msg).1 (chunkposOf msg).2)
  else if msg.length = 10 then
    if cl.rank < Rank.moderator then none
    else some (.setChunkProtection (chunkposOf msg).1 (chunkposOf msg).2 (msg.getD 8 0 != 0))
  else if msg.length = 776 then
    if cl.isMod || cl.isAdmin then
      some (.pasteChunk (chunkposOf msg).1 (chunkposOf msg).2 (dataOf msg))
    else none
  else none

/-- A binary message lets the world of the client do what it asks for, or sets a pixel; else it
stays within any scope that has the world and may close the connection. -/
theorem onBinary_cases (msg : Bytes) (h : s.Consistent) (hp : s.Live p cl)
    (hws : s.infos cl.ws = some si) (hplayer : si.player = some p) :
  (∃ a, asked cl msg = some a ∧ s.onBinary cl.ws p cl si msg = s.act cl.wrld a) ∨
    msg.length = 11 ∧
      s.onBinary cl.ws p cl si msg = s.putPx p (pixupdOf msg).x (pixupdOf msg).y (pixupdOf msg).rgb ∨
    ∀ D : Scope, D.wrld cl.wrld → D.drops cl.ws → Chain D s (s.onBinary cl.ws p cl si msg)
  := by
  rw [onBinary]
  split_ifs with h₁ hkick h₈ h₉ h₁₀ hrank h₁₁ h₁₂ hfree h₇₇₆ hmod
  · exact Or.inr (Or.inr fun D hD hd => safedelete_chain h hp.seat hd hD)
  · exact Or.inr (Or.inr fun D _ _ => Chain.refl s)
  · exact Or.inl ⟨_, by rw [asked, if_pos h₈], rfl⟩
  · exact Or.inl ⟨_, by rw [asked, if_neg h₈, if_pos h₉], rfl⟩
  · exact Or.inr (Or.inr fun D hD _ => tell_chain h hp.seat hD)
  · exact Or.inl ⟨_, by rw [asked, if_neg h₈, if_neg h₉, if_pos h₁₀, if_neg hrank], rfl⟩
  · exact Or.inr (Or.inl ⟨h₁₁, rfl⟩)
  · exact Or.inr (Or.inr fun D hD _ => place_chain hp.seat hD)
  · exact Or.inr (Or.inr fun D hD _ => place_chain hp.seat hD)
  · exact Or.inl ⟨_, by rw [asked, if_neg h₈, if_neg h₉, if_neg h₁₀, if_pos h₇₇₆, if_pos hmod], rfl⟩
  · right; right
    intro D hD hd
    have htell : Chain D.still s (s.tell p (ofString "You cheating? I don't like hackers!!!")) :=
      tell_chain h hp.seat hD
    have h' := htell.consistent h
    obtain ⟨hadmins, hn⟩ := admintell_spec (D := D.still)
      (ofString "Cheating admin/mod tools IP: " ++ si.ip) h'
    have hboth := htell.trans hadmins
    apply hboth.of_still.trans
    have htold := tell_eq h hp (ofString "You cheating? I don't like hackers!!!")
    have hinfo : ((s.tell p (ofString "You cheating? I don't like hackers!!!")).admintell
        (ofString "Cheating admin/mod tools IP: " ++ si.ip)).infos cl.ws = some si := by
      rw [hn.same.1, htold]
      exact hws
    apply closeWs_chain (hboth.consistent h) hinfo hd
    intro q cl' hq hcl'
    rw [hplayer] at hq
    cases hq
    rw [hn.same.2.1, htold] at hcl'
    obtain rfl : cl = cl' := Option.some.inj (hp.1.symm.trans hcl')
    exact hD
  · exact Or.inr (Or.inr fun D _ _ => Chain.refl s)

omit [Platform] in
/-- What is asked for is nothing that only a command asks for, and a chunk is sent to who asks. -/
theorem asked_spec {msg : Bytes} {a : WorldAct} (h : asked cl msg = some a) :
  a.Modest ∧ ∀ ws x y, a = .sendChunk ws x y → ws = cl.ws
  := by
  rw [asked] at h
  split_ifs at h <;> cases h <;> simp [WorldAct.Modest]

/-- A binary message of a client concerns its world, and may close its connection. -/
theorem onBinary_chain (msg : Bytes) (h : s.Consistent) (hp : s.Live p cl)
    (hws : s.infos cl.ws = some si) (hplayer : si.player = some p) :
  Chain (Scope.own cl) s (s.onBinary cl.ws p cl si msg)
  := by
  obtain ⟨a, ha, heq⟩ | ⟨-, heq⟩ | hchain := onBinary_cases msg h hp hws hplayer
  · obtain ⟨w, hw, -⟩ := h.world_of_live hp
    obtain ⟨hm, hone⟩ := asked_spec ha
    rw [heq]
    refine (act_chain h hw rfl trivial hm ?_).of_still
    intro ws x y hask
    rw [hone ws x y hask]
    exact ⟨p, hp.seat⟩
  · rw [heq]
    exact putPx_chain h hp.seat rfl fun _ => trivial
  · exact hchain _ rfl trivial

/-- Asking whether a client may say something changes no more than its limit. -/
theorem maySay_spec (len : ℕ) (hp : s.Live p cl) :
  (∀ D : Scope, D.wrld cl.wrld → Chain D s (s.maySay p cl len).2) ∧
    ∃ cl', (s.maySay p cl len).2.Live p cl' ∧ cl' = { cl with chatlimit := cl'.chatlimit }
  := by
  have hsame : (∀ D : Scope, D.wrld cl.wrld → Chain D s s) ∧
      ∃ cl', s.Live p cl' ∧ cl' = { cl with chatlimit := cl'.chatlimit } :=
    ⟨fun _ _ => Chain.refl s, cl, hp, rfl⟩
  rw [maySay]
  split
  · exact hsame
  split
  · exact hsame
  split
  · exact hsame
  · constructor
    · exact fun _ hD => change_chain hp hD trivial trivial
    · use ClientChange.apply s.clock cl .spendChat
      rw [change_eq _ hp.1]
      exact ⟨⟨Function.update_self _ _ _, hp.2⟩, rfl⟩

/-- A text of a client is said in its world, or run as a command. -/
theorem onText_chain (msg : Bytes) (h : s.Consistent) (hp : s.Live p cl) :
  ∃ b, Chain (Commands.scopeOf b cl) s (s.onText p cl msg)
  := by
  obtain ⟨hc, cl', hcl', hsame⟩ :=
    maySay_spec (getUTF8strlen (msg.take (msg.length - 1))) hp
  have hwrld : cl'.wrld = cl.wrld := by rw [hsame]
  have hscope : ∀ b, Commands.scopeOf b cl' = Commands.scopeOf b cl := by
    intro b
    rw [hsame]
    rfl
  rw [onText]
  generalize s.maySay p cl (getUTF8strlen (msg.take (msg.length - 1))) = said at hc hcl' ⊢
  obtain ⟨may, t⟩ := said
  dsimp only at hc hcl' ⊢
  have hroom : Chain (Scope.room cl.wrld) s t := hc _ rfl
  have ht := hroom.consistent h
  split
  · split
    · apply Commands.scopeOf_room
      apply hroom.trans
      exact chat_chain ht hcl'.seat hwrld fun m => ⟨m, rfl⟩
    · obtain ⟨b, hexec⟩ := Commands.exec_chain (msg.slice 1 (msg.length - 2)) ht hcl'
      rw [hscope] at hexec
      exact ⟨b, (hc _ (Commands.wrld_scopeOf b cl)).trans hexec⟩
  · apply Commands.scopeOf_room
    apply hroom.trans
    exact warn_chain ht hcl' hwrld trivial

/-- The scope of the messages of a client. -/
def messageScope (b : Bool) (cl : Client) : Scope :=
  if cl.isAdmin then Scope.any b else Scope.own cl

/-- A message of a client: if the client is no administrator, it concerns its world. -/
theorem onMessage_chain {ws : Ws} {oc : OpCode} {msg : Bytes} {q : ClientPtr} {wp : WorldPtr}
    (h : s.Consistent) (hws : s.infos ws = some si) (hplayer : si.player = some p)
    (hp : s.Live p cl) :
  ∃ b, Chain (messageScope b cl) s (s.onMessage ws oc msg q wp)
  := by
  obtain ⟨cl', hcl', rfl⟩ := h.live_of_player hws hplayer
  obtain rfl : cl = cl' := Option.some.inj (hp.1.symm.trans hcl'.1)
  rw [onMessage, withInfo_eq _ hws, hplayer]
  dsimp only
  rw [withClient_eq _ hp.1]
  split
  · have hbinary := onBinary_chain msg h hp hws hplayer
    use false
    rw [messageScope]
    split
    · exact hbinary.mono (Scope.within_all id)
    · exact hbinary
  split
  · obtain ⟨b, htext⟩ := onText_chain msg h hp
    use b
    rw [messageScope]
    rw [Commands.scopeOf] at htext
    split at htext
    case isTrue hadmin =>
      rw [if_pos hadmin]
      exact htext
    case isFalse hadmin =>
      rw [if_neg hadmin]
      exact htext.mono ⟨id, fun _ => trivial, id, id⟩
  · exact ⟨false, Chain.refl s⟩

/-! ### Connecting and joining -/

section

variable {misuses connects loads : Prop}

/-- A connection that is closed. -/
theorem closeWs_moves {ws : Ws} (h : s.Consistent) (hws : s.infos ws = some si) :
  Moves Scope.all misuses connects loads s (s.closeWs ws)
  := (closeWs_chain (D := Scope.all) h hws trivial fun _ _ _ _ => trivial).moves

/-- A client that joins a world. -/
theorem joinWorld_moves {ws : Ws} {name : Bytes} {wp : WorldPtr} (h : s.Consistent)
    (hws : s.infos ws = some si) (hplayer : si.player = none) (hp : s.clients p = none)
    (hwp : s.objs wp = none)
    (hl : name.all nameChar = true → s.worlds.lookup name = none → loads) :
  Moves Scope.all misuses connects loads s (s.joinWorld ws name p wp)
  := by
  rw [joinWorld]
  split
  case isTrue => exact closeWs_moves h hws
  case isFalse hchars =>
    rw [not_not] at hchars
    split
    case h_1 wp' hname =>
      obtain ⟨w, hw, -⟩ := h.world_of_lookup hname
      obtain ⟨msgs, heq⟩ := enter_sent p hws hw
      rw [heq]
      have hinfo : (s.welcome ws si p wp' w).infos ws = some { si with player := some p } :=
        Function.update_self _ _ _
      exact (Moves.single (.join hws hplayer hp hname hw)).trans
        (sent_moves hinfo (fun _ => trivial) msgs fun _ _ _ => welcome_poor h hws hplayer)
    case h_2 hname =>
      have hw : (s.loadWorld name wp).objs wp = some (World.new s.path name s.disk).1 :=
        Function.update_self _ _ _
      have hws' : (s.loadWorld name wp).infos ws = some si := hws
      obtain ⟨msgs, heq⟩ := enter_sent p hws' hw
      rw [heq]
      have hinfo : ((s.loadWorld name wp).welcome ws si p wp
          (World.new s.path name s.disk).1).infos ws = some { si with player := some p } :=
        Function.update_self _ _ _
      have hfound : Move Scope.all misuses connects loads s ((s.loadWorld name wp).welcome ws si p wp
          (World.new s.path name s.disk).1) := .found (hl hchars hname) hws hplayer hp hname hwp
      have hpoor : ∀ q cl, ((s.loadWorld name wp).welcome ws si p wp
          (World.new s.path name s.disk).1).Live q cl → cl.ws = ws → cl.Poor :=
        welcome_poor (s := s) h hws hplayer
      exact (Moves.single hfound).trans
        (sent_moves hinfo (fun _ => trivial) msgs fun _ _ _ => hpoor)

/-- A connection from the address is neither refused nor one too many, but comes too fast and is
closed for that. -/
def closesFast (s : Server) (ip : Bytes) : Prop :=
  ¬ s.refuses ip ∧ ¬ s.crowded ip ∧ (s.connlimiter.canSpend s.clock 1).1 = false ∧
    (s.fastconnectaction = 1 ∨ s.fastconnectaction = 2)

/-- A captcha that is asked for. -/
theorem requestCaptcha_moves {ws : Ws} (hws : s.infos ws = some si) :
  Moves Scope.all misuses connects loads s (s.requestCaptcha ws)
  := by
  rw [requestCaptcha, withInfo_eq _ hws, send_sent _ _ hws]
  apply sent_moves hws fun _ => trivial
  simp [ServerMessage.byte]

/-- A ban is a change of the lists, and a message to administrators. -/
theorem ban_spec (ip : Bytes) (h : s.Consistent) :
  Chain D s (s.ban ip) ∧ Noted { s with ipban := s.ipban.insert ip } (s.ban ip)
  := by
  have hlist : Chain D s { s with ipban := s.ipban.insert ip } :=
    Chain.single (.lists : Allowed D s (.lists (s.ipban.insert ip) s.ipwhitelist s.ipblacklist))
  obtain ⟨htell, hn⟩ := admintell_spec (D := D) (ofString "DEVBanned IP: " ++ ip)
    (hlist.consistent h)
  exact ⟨hlist.trans htell, hn⟩

/-- A new connection that is counted. -/
theorem fastConnect_moves {ws : Ws} {ip : Bytes} (h : s.Consistent) (hws : s.infos ws = some si)
    (hm : s.fastconnectaction = 1 ∨ s.fastconnectaction = 2 → misuses) :
  Moves Scope.all misuses connects loads s ((s.fastConnect ws ip).requestCaptcha ws)
  := by
  have hmisuse : ∀ t : Server, t.infos ws = none → misuses → Moves Scope.all misuses connects loads t
      (t.requestCaptcha ws) := by
    intro t ht hmis
    rw [requestCaptcha, withInfo, ht]
    exact Moves.single (.misuse hmis)
  rw [fastConnect]
  split
  case isTrue =>
    rw [withInfo_eq _ hws]
    have hinfo : ({ s with
        infos := Function.update s.infos ws
          (some { si with captchaVerified := CaptchaState.waiting }) } : Server).infos ws
        = some { si with captchaVerified := CaptchaState.waiting } := Function.update_self _ _ _
    exact (Moves.single (.captcha hws)).trans (requestCaptcha_moves hinfo)
  split
  case isTrue haction =>
    obtain ⟨hban, hn⟩ := ban_spec (D := Scope.all) ip h
    have hinfo : (s.ban ip).infos ws = some si := by
      rw [hn.same.1]
      exact hws
    have hclosed : ((s.ban ip).closeWs ws).infos ws = none := by
      rw [closeWs_infos (hban.consistent h) hinfo]
      exact Function.update_self _ _ _
    exact (hban.moves.trans (closeWs_moves (hban.consistent h) hinfo)).trans
      (hmisuse _ hclosed (hm (Or.inr haction)))
  split
  case isTrue haction =>
    have hclosed : (s.closeWs ws).infos ws = none := by
      rw [closeWs_infos h hws]
      exact Function.update_self _ _ _
    exact (closeWs_moves h hws).trans (hmisuse _ hclosed (hm (Or.inl haction)))
  case isFalse =>
    exact requestCaptcha_moves hws

/-- The server when a connection that is neither refused nor one too many has been counted. -/
def arrival (s : Server) (ip : Bytes) : Server :=
  { (s.openWs ip (s.captchaFor ip)).countUp ip with
    connlimiter := (s.connlimiter.canSpend s.clock 1).2 }

omit [Platform] in
/-- A connection from an address that is refused. -/
theorem onConnection_refused {address ip : Bytes} (hip : stripIp address = ip)
    (hrefuses : s.refuses ip) :
  s.onConnection address = ((s.openWs ip (s.captchaFor ip)).send s.nextWs .text
    (s.refusal ip)).closeWs s.nextWs
  := by
  have hrefuses' : (s.openWs ip (s.captchaFor ip)).refuses ip := hrefuses
  rw [onConnection, hip]
  dsimp only
  rw [if_pos hrefuses']
  rfl

omit [Platform] in
/-- No connection has the origin that is banned, as no origin is ever set. -/
theorem not_isskidbot (t : Server) :
  ¬ (t.instaban = true ∧ ([] : Bytes) = ofString "(None)")
  := fun hbot => absurd hbot.2 (by decide)

omit [Platform] in
/-- A connection from an address that has too many. -/
theorem onConnection_crowded {address ip : Bytes} (hip : stripIp address = ip)
    (hrefuses : ¬ s.refuses ip) (hcrowded : s.crowded ip) :
  s.onConnection address = (((s.openWs ip (s.captchaFor ip)).countUp ip).send s.nextWs .text
    (s.crowdedText ip)).closeWs s.nextWs
  := by
  have hrefuses' : ¬ (s.openWs ip (s.captchaFor ip)).refuses ip := hrefuses
  have hcrowded' : (s.openWs ip (s.captchaFor ip)).crowded ip := hcrowded
  rw [onConnection, hip]
  dsimp only
  rw [if_neg hrefuses', if_neg (not_isskidbot _), if_pos hcrowded']
  rfl

omit [Platform] in
/-- A connection that is let in. -/
theorem onConnection_admitted {address ip : Bytes} (hip : stripIp address = ip)
    (hrefuses : ¬ s.refuses ip) (hcrowded : ¬ s.crowded ip) :
  s.onConnection address =
    (if (s.connlimiter.canSpend s.clock 1).1 then s.arrival ip
      else (s.arrival ip).fastConnect s.nextWs ip).requestCaptcha s.nextWs
  := by
  have hrefuses' : ¬ (s.openWs ip (s.captchaFor ip)).refuses ip := hrefuses
  have hcrowded' : ¬ (s.openWs ip (s.captchaFor ip)).crowded ip := hcrowded
  rw [onConnection, hip]
  dsimp only
  rw [if_neg hrefuses', if_neg (not_isskidbot _), if_neg hcrowded']
  rfl

omit [Platform] in
/-- A connection that has just been opened. -/
theorem infos_openWs (s : Server) (ip : Bytes) (state : CaptchaState) :
  (s.openWs ip state).infos s.nextWs = some ⟨[], ip, none, state⟩
  := Function.update_self _ _ _

/-- A connection that is counted. -/
theorem arrival_moves (ip : Bytes) :
  Moves Scope.all misuses True loads s (s.arrival ip)
  := by
  have hopen : Move Scope.all misuses True loads s (s.openWs ip (s.captchaFor ip)) := .openWs trivial
  have hcount : Move Scope.all misuses True loads (s.openWs ip (s.captchaFor ip))
      ((s.openWs ip (s.captchaFor ip)).countUp ip) := .countUp trivial
  have hconfig : Chain Scope.all ((s.openWs ip (s.captchaFor ip)).countUp ip) (s.arrival ip) :=
    config_chain { (s.openWs ip (s.captchaFor ip)).countUp ip with
      connlimiter := (s.connlimiter.canSpend s.clock 1).2 }
  exact ((Moves.single hopen).trans (Moves.single hcount)).trans hconfig.moves

/-- Making a connection. -/
theorem onConnection_moves (address : Bytes) (h : s.Consistent) :
  Moves Scope.all (s.closesFast (stripIp address)) True loads s (s.onConnection address)
  := by
  generalize hip : stripIp address = ip
  have hopen : Move Scope.all (s.closesFast ip) True loads s (s.openWs ip (s.captchaFor ip)) :=
    .openWs trivial
  have h₁ := h.move hopen
  have hinfo := infos_openWs s ip (s.captchaFor ip)
  -- a connection that is refused or one too many is told so, and closed
  have hclose : ∀ t : Server, t.Consistent → t.infos s.nextWs
      = some ⟨[], ip, none, s.captchaFor ip⟩ → ∀ msg,
      Moves Scope.all (s.closesFast ip) True loads t
        ((t.send s.nextWs .text msg).closeWs s.nextWs) := by
    intro t ht hti msg
    rw [send_sent _ _ hti]
    have hsent : Moves Scope.all (s.closesFast ip) True loads t (t.sent s.nextWs [(.text, msg)]) :=
      sent_moves hti (fun _ => trivial) _ (by simp)
    exact hsent.trans (closeWs_moves (hsent.consistent ht) hti)
  by_cases hrefuses : s.refuses ip
  · rw [onConnection_refused hip hrefuses]
    exact (Moves.single hopen).trans (hclose _ h₁ hinfo _)
  by_cases hcrowded : s.crowded ip
  · rw [onConnection_crowded hip hrefuses hcrowded]
    have hcount : Move Scope.all (s.closesFast ip) True loads (s.openWs ip (s.captchaFor ip))
        ((s.openWs ip (s.captchaFor ip)).countUp ip) := .countUp trivial
    exact ((Moves.single hopen).trans (Moves.single hcount)).trans
      (hclose _ (h₁.move hcount) hinfo _)
  · rw [onConnection_admitted hip hrefuses hcrowded]
    have harrival : Moves Scope.all (s.closesFast ip) True loads s (s.arrival ip) := arrival_moves ip
    apply harrival.trans
    split
    case isTrue => exact requestCaptcha_moves hinfo
    case isFalse hfast =>
      apply fastConnect_moves (harrival.consistent h) hinfo
      intro haction
      exact ⟨hrefuses, hcrowded, Bool.eq_false_of_not_eq_true hfast, haction⟩

/-! ### Quitting -/

/-- The loop of the destructor closes all connections. -/
theorem closeAll_spec (h : s.Consistent) :
  Chain Scope.all s (s.connsws.foldl closeWs s) ∧ (s.connsws.foldl closeWs s).connsws = []
  := by
  have hchain : Chain Scope.all s (s.connsws.foldl closeWs s) := by
    apply foldl_close h.registry.connsws_nodup (fun ws hws => h.mem_connsws.mp hws) h
    intro t ws si ht hsi
    exact closeWs_only ht hsi trivial fun _ => trivial
  refine ⟨hchain, ?_⟩
  apply List.eq_nil_iff_forall_not_mem.mpr
  intro ws hws
  obtain ⟨si, hsi⟩ := (hchain.consistent h).mem_connsws.mp hws
  have hloop : (closeWs : Server → Ws → Server)
      = fun s ws => s.withInfo ws fun _ => if True then s.closeWs ws else s := by
    funext s ws
    rw [if_pos trivial, closeWs, onDisconnection, withInfo, withInfo]
    cases s.infos ws <;> rfl
  have hinfos := closeIf_infos (c := fun _ => True) h ws
  rw [← hloop, hsi] at hinfos
  simp at hinfos

omit [Platform] in
/-- Without connections no world is loaded. -/
theorem worlds_of_no_connsws (h : s.Consistent) (hws : s.connsws = []) :
  s.worlds.entries = []
  := by
  apply List.eq_nil_iff_forall_not_mem.mpr
  rintro ⟨name, wp⟩ hentry
  obtain ⟨w, hw, -, hclients⟩ := h.world_of_lookup (AList.mem_lookup_iff.mpr hentry)
  obtain ⟨p, hp⟩ := List.exists_mem_of_ne_nil _ hclients
  obtain ⟨cl, hcl, -⟩ := h.live_of_mem hw hp
  obtain ⟨si, hsi, -⟩ := h.info_of_live hcl
  have hmem := h.mem_connsws.mpr ⟨si, hsi⟩
  rw [hws] at hmem
  cases hmem

/-- The destructor closes all connections and deletes no world, as none is left. -/
theorem delete_moves (h : s.Consistent) (hclosing : s.closing = true) :
  Moves Scope.all misuses connects loads s s.delete
  := by
  obtain ⟨hchain, hclosed⟩ := closeAll_spec h
  have h₁ := hchain.consistent h
  have hfiles : Chain Scope.all (s.connsws.foldl closeWs s)
      (s.connsws.foldl closeWs s).writefiles := Chain.single .files
  rw [delete]
  rw [worlds_of_no_connsws h₁ hclosed, List.map_nil, List.foldl_nil]
  have hkept := (hchain.trans hfiles).kept h
  apply (hchain.trans hfiles).moves.trans
  exact Moves.single (.exit (hkept.closing.trans hclosing) hclosed)

/-- The signal to quit. -/
theorem quit_moves (h : s.Consistent) :
  Moves Scope.all misuses connects loads s s.quit
  := by
  rw [quit]
  split
  case isTrue hclosing =>
    have htell := broadcastmsg_chain (D := Scope.all)
      (ofString "Server: Shutting down! (Rejoin in ~5 minutes)") h fun _ => trivial
    have hkept := htell.kept h
    apply htell.moves.trans
    apply Moves.single (.close _)
    rw [hkept.closing]
    exact Bool.eq_false_of_not_eq_true hclosing
  case isFalse hclosing =>
    exact delete_moves h (by simpa using hclosing)

/-- A callback of the loop. -/
theorem callback_moves {i : ℕ} {c : Callback} (h : s.Consistent) (hi : s.pending[i]? = some c) :
  Moves Scope.all misuses connects loads s
    (({ s with pending := s.pending.eraseIdx i } : Server).callback c)
  := by
  cases c with
  | client p => exact Moves.single (.freeClient hi)
  | world wp =>
      obtain ⟨r, hr, -⟩ := h.registry.mem_pending_world.mp (List.mem_of_getElem? hi)
      obtain ⟨w, hw, -⟩ := registry_room.mp hr
      have hmove : Moves Scope.all misuses connects loads s { s with
          pending := s.pending.eraseIdx i
          objs := Function.update s.objs wp none
          disk := w.delete s.disk } := Moves.single (.freeWorld hi hw)
      rw [callback, deleteWorld, withWorld_eq (s := { s with pending := s.pending.eraseIdx i }) _ hw]
      exact hmove
  | server =>
      have hmove : Move Scope.all misuses connects loads s { s with pending := s.pending.eraseIdx i } :=
        .dropServer hi
      have hclosing : s.closing = true :=
        h.registry.closing_of_pending (List.mem_of_getElem? hi)
      exact (Moves.single hmove).trans (delete_moves (h.move hmove) hclosing)

/-! ### Ticks -/

/-- A tick of a world. -/
theorem tick_moves {wp : WorldPtr} {w : World} (h : s.Consistent) (hwp : s.objs wp = some w) :
  Moves Scope.all misuses connects loads s (s.tick wp)
  := by
  have hpresent : ∀ p ∈ w.plupdates.take worldMaxPlayerUpdates, (s.clients p).isSome := by
    intro p hp
    have hsubset : w.plupdates ⊆ w.clients :=
      h.registry.plupdates_subset (registry_room.mpr ⟨w, hwp, rfl⟩)
    obtain ⟨cl, hcl, -⟩ := h.live_of_mem hwp (hsubset (List.mem_of_mem_take hp))
    rw [hcl.1]
    rfl
  have hmove : Move Scope.all misuses connects loads s (s.putWorld wp (w.sendUpdates s.infoOf).1) := .flush hwp
  have h₁ := h.move hmove
  obtain ⟨msg, heq, hhead, -⟩ := World.sendUpdates_spec w s.infoOf
  have hrank : tellsRank .binary msg = false := by
    rw [tellsRank, hhead]
    rfl
  obtain ⟨hroom, -⟩ := sendUpdates_room w s.infoOf
  have hseated : ∀ p ∈ (w.sendUpdates s.infoOf).1.clients,
      ∃ ws, (s.putWorld wp (w.sendUpdates s.infoOf).1).Seated p ws wp := by
    intro p hp
    have hclients : (w.sendUpdates s.infoOf).1.clients = w.clients := congrArg Room.clients hroom
    rw [hclients] at hp
    exact h.registry.seat_of_room (registry_room.mpr ⟨w, hwp, rfl⟩) hp
  have hsend : Chain Scope.all (s.putWorld wp (w.sendUpdates s.infoOf).1)
      ((s.putWorld wp (w.sendUpdates s.infoOf).1).sendOut (w.sendUpdates s.infoOf).1
        (.all .binary msg)) := (sendAll_chain h₁ hseated trivial hrank).1
  rw [tick, withWorld_eq _ hwp, if_pos hpresent]
  dsimp only
  have houts : (w.sendUpdates s.infoOf).2 = [.all .binary msg] := by rw [heq]
  rw [houts, List.foldl_cons, List.foldl_nil]
  exact (Moves.single hmove).trans hsend.moves

end

/-! ### Steps -/

/-- The event is a connection. -/
def Event.connects : Event → Prop
  | connect _ => True
  | _ => False

/-- In the step of an event something is used after its end: a connection that comes too fast
was closed. -/
def misuses (s : Server) (e : Event) : Prop :=
  s.exited = false ∧ ∃ address, e = .connect address ∧ s.closesFast (stripIp address)

/-- The name of the world that a connection joins in the step of an event. -/
def joins (s : Server) : Event → Option Bytes
  | .message ws oc msg p wp =>
      match s.infos ws with
      | some si =>
          if s.exited = false ∧ s.clients p = none ∧ s.objs wp = none ∧ si.player = none ∧
              si.captchaVerified = CaptchaState.ok ∧ oc = .binary ∧ msg.length > 2 ∧
              msg.length - 2 ≤ 24 ∧ (msg.take (msg.length - 2)).all nameChar then
            some (msg.take (msg.length - 2))
          else none
      | none => none
  | _ => none

/-- In the step of an event a world is loaded. -/
def loads (s : Server) (e : Event) : Prop :=
  ∃ name, s.joins e = some name ∧ s.worlds.lookup name = none

/-- What is in the scope of the messages of a client is in that of an administrator. -/
theorem any_messageScope {b : Bool} {s' : Server} (hc : Chain (messageScope b cl) s s') :
  ∃ b, Chain (Scope.any b) s s'
  := by
  rw [messageScope] at hc
  split at hc
  · exact ⟨b, hc⟩
  · exact ⟨false, hc.mono (Scope.within_all id)⟩

/-- A step of the server is made of moves. -/
theorem step_moves (e : Event) (h : s.Consistent) :
  ∃ b, Moves (Scope.any b) (s.misuses e) e.connects (s.loads e) s (s.step e)
  := by
  rw [step.eq_def]
  split
  case isTrue => exact ⟨false, Moves.refl s⟩
  case isFalse hexited =>
    cases e with
    | connect address =>
        have hmoves : Moves Scope.all (s.closesFast (stripIp address)) True
            (s.loads (.connect address)) s (s.onConnection address) := onConnection_moves address h
        have hmisuses : s.closesFast (stripIp address) = s.misuses (.connect address) := by
          apply propext
          constructor
          · intro hfast
            exact ⟨Bool.eq_false_of_not_eq_true hexited, address, rfl, hfast⟩
          · rintro ⟨-, address', heq, hfast⟩
            cases heq
            exact hfast
        rw [← hmisuses]
        exact ⟨false, hmoves⟩
    | message ws oc msg p wp =>
        dsimp only
        split
        case isFalse => exact ⟨false, Moves.refl s⟩
        case isTrue hthere =>
          obtain ⟨hws, hp, hwp⟩ := hthere
          obtain ⟨si, hsi⟩ := Option.isSome_iff_exists.mp hws
          cases hplayer : si.player with
          | some q =>
              obtain ⟨cl, hcl, -⟩ := h.live_of_player hsi hplayer
              obtain ⟨b, hmessage⟩ := onMessage_chain h hsi hplayer hcl
              obtain ⟨b', hany⟩ := any_messageScope hmessage
              exact ⟨b', hany.moves⟩
          | none =>
              rw [onMessage, withInfo_eq _ hsi, hplayer]
              dsimp only
              split
              case isTrue hjoins =>
                obtain ⟨hcaptcha, hoc, hmin, hmax⟩ := hjoins
                refine ⟨false, joinWorld_moves h hsi hplayer hp hwp fun hchars hname => ?_⟩
                refine ⟨_, ?_, hname⟩
                rw [joins, hsi]
                exact if_pos ⟨Bool.eq_false_of_not_eq_true hexited, hp, hwp, hplayer, hcaptcha, hoc,
                  hmin, hmax, hchars⟩
              case isFalse => exact ⟨false, closeWs_moves h hsi⟩
    | disconnect ws =>
        dsimp only
        split
        case isFalse => exact ⟨false, Moves.refl s⟩
        case isTrue hws =>
          obtain ⟨si, hsi⟩ := Option.isSome_iff_exists.mp hws
          exact ⟨false, closeWs_moves h hsi⟩
    | save =>
        dsimp only
        split
        · exact ⟨false, Moves.refl s⟩
        · have hsave : Chain Scope.all s s.saveNow := saveNow_chain h fun _ => trivial
          exact ⟨false, hsave.moves⟩
    | tick wp =>
        dsimp only
        split
        case isFalse => exact ⟨false, Moves.refl s⟩
        case isTrue hactive =>
          obtain ⟨w, hw, -⟩ := (Option.any_eq_true _ _).mp hactive
          exact ⟨false, tick_moves h hw⟩
    | callback i =>
        dsimp only
        split
        case h_1 c hi => exact ⟨false, callback_moves h hi⟩
        case h_2 => exact ⟨false, Moves.refl s⟩
    | quit => exact ⟨false, quit_moves h⟩
    | advance dt =>
        dsimp only
        split
        case isTrue hdt => exact ⟨false, Moves.single (.advance hdt)⟩
        case isFalse => exact ⟨false, Moves.refl s⟩
    | rehash connsws =>
        dsimp only
        split
        case isTrue hperm => exact ⟨false, Moves.single (.rehash hperm)⟩
        case isFalse => exact ⟨false, Moves.refl s⟩

/-- Any event keeps the tables consistent. -/
theorem Consistent.event (h : s.Consistent) (e : Event) :
  (s.step e).Consistent
  := by
  obtain ⟨b, hmoves⟩ := step_moves e h
  exact hmoves.consistent h

/-- A server that has just been made. -/
theorem consistent_new (modpw adminpw path : Bytes) (d : Disk) (clock : ℚ) :
  (Server.new modpw adminpw path d clock).Consistent
  := by
  constructor
  case registry =>
    constructor
    case connsws_nodup => exact List.nodup_nil
    all_goals simp [Server.new, readfiles, registry]
  case defaultRank => simp [Server.new, readfiles]
  case origin => simp [Server.new, readfiles]
  case proxies => rfl

/-- The server is consistent in every run. -/
theorem Consistent.runs (h : s.Consistent) (events : List Event) :
  (s.runs events).Consistent
  := by
  induction events generalizing s with
  | nil => exact h
  | cons e events ih => exact ih (h.event e)

/-- What every move keeps holds in every run. -/
theorem runs_keep {P : Server → Prop} (h : s.Consistent) (hP : P s)
    (hmove : ∀ {D m c l} {t t' : Server}, t.Consistent → P t → Move D m c l t t' → P t')
    (events : List Event) :
  P (s.runs events)
  := by
  induction events generalizing s with
  | nil => exact hP
  | cons e events ih =>
      obtain ⟨b, hmoves⟩ := step_moves e h
      obtain ⟨h', hP'⟩ := hmoves.keep h hP fun ht hPt hstep => hmove ht hPt hstep
      exact ih h' hP'

end Server

end Owop
