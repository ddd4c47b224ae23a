import OwopServer.Commands.Steady
import OwopServer.Server.Steps

/-!
# What clients know

In every run, all binary messages of the server can be read, and the view of a client, which is
what it is told by these messages, agrees with what the server keeps about it.
-/

namespace Owop

open Bytes (ofString)

namespace Server

variable {s s' : Server} {ws : Ws} {si : SocketInfo} {p : ClientPtr} {fresh : Ws → Prop}
  {known : ClientPtr → Prop}

/-! ### What is kept -/

/-- Clients know what they must, but for the captcha of the connections in `fresh`, which have
just been made, and the rank and the quota of the clients that are not in `known`. -/
structure Told (s : Server) (fresh : Ws → Prop) (known : ClientPtr → Prop) : Prop where
  readable : s.Readable
  owned : s.Owned
  numbered : ∀ p cl, s.clients p = some cl → cl.ws < s.nextWs
  knows : s.Knows known known
  captcha : ∀ ws si, s.infos ws = some si → ¬ fresh ws →
    (s.view ws).captcha = some si.captchaVerified
  verified : ∀ ws si, s.infos ws = some si → si.player ≠ none →
    si.captchaVerified = CaptchaState.ok

/-- What functions of the server do to clients that are told. -/
theorem Told.steady (h : s.Told fresh known) (hsteady : s.Steady s') :
  s'.Told fresh known
  := by
  constructor
  case readable => exact hsteady.readable h.readable
  case owned => exact hsteady.owned h.owned
  case numbered =>
    intro p cl' hcl'
    obtain ⟨cl, hcl, hkeeps⟩ := hsteady.clients p cl' hcl'
    rw [hkeeps.ws, hsteady.nextWs]
    exact h.numbered p cl hcl
  case knows => exact hsteady.knows h.owned _ _ h.knows
  case captcha =>
    intro ws si hsi hfresh
    rw [hsteady.captcha ws (by rw [hsi]; exact Option.some_ne_none si)]
    exact h.captcha ws si (hsteady.info hsi) hfresh
  case verified => exact fun ws si hsi => h.verified ws si (hsteady.info hsi)

/-- What clients know is not concerned. -/
theorem Told.rest (h : s.Told fresh known) (hnext : s'.nextWs = s.nextWs) (hinfos : s'.infos = s.infos)
    (hclients : s'.clients = s.clients) (hlog : s'.log = s.log) :
  s'.Told fresh known
  := by
  have hclock : ({ s with clock := s'.clock } : Server).Told fresh known :=
    ⟨h.readable, h.owned, h.numbered, h.knows, h.captcha, h.verified⟩
  exact hclock.steady (.rest rfl hnext hinfos hclients hlog)

/-- At the start there is nobody. -/
theorem told_new [Platform] (modpw adminpw path : Bytes) (d : Disk) (clock : ℚ) :
  (Server.new modpw adminpw path d clock).Told (fun _ => False) known
  := by
  have hlog : (Server.new modpw adminpw path d clock).log = [] := rfl
  have hclients : (Server.new modpw adminpw path d clock).clients = fun _ => none := rfl
  have hinfos : (Server.new modpw adminpw path d clock).infos = fun _ => none := rfl
  generalize Server.new modpw adminpw path d clock = s at hlog hclients hinfos
  have hnobody : ∀ p cl, s.clients p ≠ some cl := by
    intro p cl
    rw [hclients]
    exact nofun
  have hnowhere : ∀ ws si, s.infos ws ≠ some si := by
    intro ws si
    rw [hinfos]
    exact nofun
  refine ⟨fun ws msg hmem => ?_, fun p cl hcl => absurd hcl (hnobody p cl),
    fun p cl hcl => absurd hcl (hnobody p cl), fun p cl hcl => absurd hcl (hnobody p cl),
    fun ws si hsi => absurd hsi (hnowhere ws si), fun ws si hsi => absurd hsi (hnowhere ws si)⟩
  rw [hlog] at hmem
  cases hmem

/-- The limits of a client are changed, but nothing it knows of. -/
theorem Told.limit {cl cl' : Client} (h : s.Told fresh known) (hcl : s.clients p = some cl)
    (hlimit : cl' = { cl with penalty := cl'.penalty, chatlimit := cl'.chatlimit }) :
  ({ s with clients := Function.update s.clients p (some cl') } : Server).Told fresh known
  := by
  have hsame : ∀ q clq, Function.update s.clients p (some cl') q = some clq → ∃ old,
      s.clients q = some old ∧
        clq = { old with penalty := clq.penalty, chatlimit := clq.chatlimit } := by
    intro q clq hq
    obtain ⟨rfl, rfl⟩ | ⟨-, hq⟩ := Table.update_eq_some.mp hq
    · exact ⟨cl, hcl, hlimit⟩
    · exact ⟨clq, hq, rfl⟩
  refine ⟨h.readable, fun q clq hq si hsi => ?_, fun q clq hq => ?_, fun q clq hq hws => ?_,
    h.captcha, h.verified⟩
  · obtain ⟨old, hold, heq⟩ := hsame q clq hq
    rw [heq] at hsi
    exact h.owned q old hold si hsi
  · obtain ⟨old, hold, heq⟩ := hsame q clq hq
    rw [heq]
    exact h.numbered q old hold
  · obtain ⟨old, hold, heq⟩ := hsame q clq hq
    rw [heq] at hws ⊢
    exact h.knows q old hold hws

/-- A client that nobody uses any more is deleted. -/
theorem Told.free (h : s.Told fresh known) (p : ClientPtr) :
  ({ s with clients := Function.update s.clients p none } : Server).Told fresh known
  := by
  have hold : ∀ q cl, Function.update s.clients p none q = some cl → s.clients q = some cl := by
    intro q cl hq
    by_cases hqp : q = p
    · subst hqp
      rw [Function.update_self] at hq
      cases hq
    · rw [Function.update_of_ne hqp] at hq
      exact hq
  exact ⟨h.readable, fun q cl hq => h.owned q cl (hold q cl hq),
    fun q cl hq => h.numbered q cl (hold q cl hq), fun q cl hq => h.knows q cl (hold q cl hq),
    h.captcha, h.verified⟩

/-! ### Connecting -/

/-- A connection is made. -/
theorem Told.openWs (h : s.Told (fun _ => False) known) (ip : Bytes) (state : CaptchaState) :
  (s.openWs ip state).Told (fun ws => ws = s.nextWs) known
  := by
  have hne : ∀ q cl, s.clients q = some cl → cl.ws ≠ s.nextWs := fun q cl hq =>
    Nat.ne_of_lt (h.numbered q cl hq)
  have hinfos : ∀ ws, ws ≠ s.nextWs → (s.openWs ip state).infos ws = s.infos ws := fun ws hws =>
    Function.update_of_ne hws _ _
  refine ⟨h.readable, fun q cl hq si hsi => ?_, fun q cl hq => ?_, fun q cl hq hws => ?_,
    fun ws si hsi hws => ?_, fun ws si hsi hplayer => ?_⟩
  · rw [hinfos _ (hne q cl hq)] at hsi
    exact h.owned q cl hq si hsi
  · exact Nat.lt_succ_of_lt (h.numbered q cl hq)
  · rw [hinfos _ (hne q cl hq)] at hws
    exact h.knows q cl hq hws
  · rw [hinfos _ hws] at hsi
    exact h.captcha ws si hsi not_false
  · by_cases hsame : ws = s.nextWs
    · subst hsame
      obtain rfl := Option.some.inj ((infos_openWs s ip state).symm.trans hsi)
      exact absurd rfl hplayer
    · rw [hinfos _ hsame] at hsi
      exact h.verified ws si hsi hplayer

/-- Another captcha state is asked of a connection without player. -/
theorem Told.wait (h : s.Told (fun ws' => ws' = ws) known) (hsi : s.infos ws = some si)
    (hplayer : si.player = none) (state : CaptchaState) :
  ({ s with infos := Function.update s.infos ws (some { si with captchaVerified := state }) } :
    Server).Told (fun ws' => ws' = ws) known
  := by
  refine ⟨h.readable, fun q cl hq si' hsi' => ?_, h.numbered, fun q cl hq hws => ?_,
    fun ws' si' hsi' hfresh => ?_, fun ws' si' hsi' hplayer' => ?_⟩
  · obtain ⟨hsame, rfl⟩ | ⟨-, hsi'⟩ := Table.update_eq_some.mp hsi'
    · exact h.owned q cl hq si (by rw [hsame]; exact hsi)
    · exact h.owned q cl hq si' hsi'
  · apply h.knows q cl hq
    intro hnone
    apply hws
    show Function.update s.infos ws _ cl.ws = none
    by_cases hsame : cl.ws = ws
    · rw [hsame, hsi] at hnone
      cases hnone
    · rw [Function.update_of_ne hsame, hnone]
  · obtain ⟨hsame, -⟩ | ⟨-, hsi'⟩ := Table.update_eq_some.mp hsi'
    · exact absurd hsame hfresh
    · exact h.captcha ws' si' hsi' hfresh
  · obtain ⟨-, rfl⟩ | ⟨-, hsi'⟩ := Table.update_eq_some.mp hsi'
    · exact absurd hplayer hplayer'
    · exact h.verified ws' si' hsi' hplayer'

/-- A connection that is closed or told the state of its captcha is no longer fresh. -/
theorem Told.requestCaptcha (h : s.Told (fun ws' => ws' = ws) known) :
  (s.requestCaptcha ws).Told (fun _ => False) known
  := by
  rw [Server.requestCaptcha, withInfo]
  cases hsi : s.infos ws with
  | none =>
      refine ⟨h.readable, h.owned, h.numbered, h.knows, fun ws' si' hsi' _ => ?_, h.verified⟩
      apply h.captcha ws' si' hsi'
      rintro rfl
      rw [show s.infos ws' = some si' from hsi'] at hsi
      cases hsi
  | some si =>
      dsimp only
      rw [send_eq _ _ hsi]
      have hread : readMessage [ServerMessage.captchaRequired.byte, si.captchaVerified]
          = some (.captcha si.captchaVerified) := readMessage_captcha _
      have hview : ∀ ws', (s.note (.send ws .binary
          [ServerMessage.captchaRequired.byte, si.captchaVerified])).view ws'
          = if ws = ws' then (s.view ws').receive (.captcha si.captchaVerified)
            else s.view ws' := fun _ => view_send hread
      refine ⟨h.readable.note ?_, h.owned, h.numbered, fun q cl hq hws => ?_,
        fun ws' si' hsi' _ => ?_, h.verified⟩
      · rintro ws' msg ⟨⟩
        rfl
      · have hknown := h.knows q cl hq hws
        rw [hview]
        split
        · exact hknown
        · exact hknown
      · rw [hview]
        split
        case isTrue hsame =>
          subst hsame
          obtain rfl := Option.some.inj (hsi.symm.trans hsi')
          rfl
        case isFalse hother =>
          exact h.captcha ws' si' hsi' fun hsame => hother hsame.symm

/-- A connection without a client that is closed is gone. -/
theorem closeWs_none (hsi : s.infos ws = some si) (hplayer : si.player = none) :
  (s.closeWs ws).infos ws = none
  := by
  rw [closeWs, onDisconnection, withInfo_eq _ hsi, hplayer]
  exact Function.update_self _ _ _

/-- A connection that is closed is no longer fresh. -/
theorem Told.close (h : s.Told (fun ws' => ws' = ws) known) (hsi : s.infos ws = some si)
    (hplayer : si.player = none) :
  (s.closeWs ws).Told (fun _ => False) known
  := by
  have hclosed := h.steady (closeWs_steady s ws)
  refine ⟨hclosed.readable, hclosed.owned, hclosed.numbered, hclosed.knows,
    fun ws' si' hsi' _ => ?_, hclosed.verified⟩
  apply hclosed.captcha ws' si' hsi'
  rintro rfl
  rw [closeWs_none hsi hplayer] at hsi'
  cases hsi'

/-- What happens to a connection that comes too fast. -/
theorem Told.fastConnect (h : s.Told (fun ws' => ws' = ws) known) (hsi : s.infos ws = some si)
    (hplayer : si.player = none) (ip : Bytes) :
  (s.fastConnect ws ip).Told (fun ws' => ws' = ws) known
  := by
  rw [Server.fastConnect]
  split
  · rw [withInfo_eq _ hsi]
    exact h.wait hsi hplayer CaptchaState.waiting
  · split
    · exact h.steady ((ban_steady s ip).trans (closeWs_steady _ ws))
    · split
      · exact h.steady (closeWs_steady s ws)
      · exact h

/-- Somebody connects. -/
theorem Told.connect (h : s.Told (fun _ => False) known) (address : Bytes) :
  (s.onConnection address).Told (fun _ => False) known
  := by
  generalize hip : stripIp address = ip
  have hopen := h.openWs ip (s.captchaFor ip)
  have hinfo := infos_openWs s ip (s.captchaFor ip)
  -- a connection that is refused or one too many is told so, and closed
  have hclose : ∀ t : Server, t.Told (fun ws => ws = s.nextWs) known →
      t.infos s.nextWs = some ⟨[], ip, none, s.captchaFor ip⟩ → ∀ msg,
      ((t.send s.nextWs .text msg).closeWs s.nextWs).Told (fun _ => False) known := by
    intro t ht hti msg
    have hsent := ht.steady (send_steady t s.nextWs (show Plain .text msg from trivial))
    rw [send_eq _ _ hti] at hsent ⊢
    exact hsent.close hti rfl
  have hcount : ((s.openWs ip (s.captchaFor ip)).countUp ip).Told (fun ws => ws = s.nextWs) known :=
    hopen.rest rfl rfl rfl rfl
  by_cases hrefuses : s.refuses ip
  · rw [onConnection_refused hip hrefuses]
    exact hclose _ hopen hinfo _
  by_cases hcrowded : s.crowded ip
  · rw [onConnection_crowded hip hrefuses hcrowded]
    exact hclose _ hcount hinfo _
  · rw [onConnection_admitted hip hrefuses hcrowded]
    have harrival : (s.arrival ip).Told (fun ws => ws = s.nextWs) known := hopen.rest rfl rfl rfl rfl
    apply Told.requestCaptcha
    split
    · exact harrival
    · exact harrival.fastConnect hinfo rfl ip

/-! ### Joining -/

/-- A connection gets a client, which is told its id. -/
theorem Told.newClient {t : Server} (h : s.Told (fun _ => False) fun _ => True)
    (hsi : s.infos ws = some si) (hplayer : si.player = none)
    (hok : si.captchaVerified = CaptchaState.ok) (p : ClientPtr) (id : UInt32) (wp : WorldPtr)
    (hws : ws < s.nextWs) (ht : t = ({ s.newClient p id ws wp with
      infos := Function.update (s.newClient p id ws wp).infos ws
        (some { si with player := some p }) } : Server)) :
  t.Told (fun _ => False) fun q => q ≠ p
  := by
  have hread := readMessage_id id
  have heq : t = ({ s.note (.send ws .binary ([ServerMessage.setId.byte] ++ uint32Bytes id)) with
      clients := Function.update s.clients p (some (Client.new id ws wp))
      infos := Function.update s.infos ws (some { si with player := some p }) } : Server) := by
    rw [ht, newClient_sent p id wp hsi]
    rfl
  have hview : ∀ ws', t.view ws'
      = if ws = ws' then (s.view ws').receive (.id id) else s.view ws' := by
    intro ws'
    rw [heq, ← view_send hread]
    rfl
  -- nobody else has the connection
  have hother : ∀ q cl, s.clients q = some cl → cl.ws ≠ ws := by
    rintro q cl hq rfl
    have hown := h.owned q cl hq si hsi
    rw [hplayer] at hown
    cases hown
  have hclients : ∀ q cl, t.clients q = some cl →
      q = p ∧ cl = Client.new id ws wp ∨ q ≠ p ∧ s.clients q = some cl := by
    intro q cl hq
    rw [heq] at hq
    obtain ⟨hqp, hcl⟩ | hold := Table.update_eq_some.mp hq
    · exact Or.inl ⟨hqp, hcl.symm⟩
    · exact Or.inr hold
  have hinfos : ∀ ws' si', t.infos ws' = some si' →
      ws' = ws ∧ si' = { si with player := some p } ∨ ws' ≠ ws ∧ s.infos ws' = some si' := by
    intro ws' si' hsi'
    rw [heq] at hsi'
    obtain ⟨hsame, hsi''⟩ | hold := Table.update_eq_some.mp hsi'
    · exact Or.inl ⟨hsame, hsi''.symm⟩
    · exact Or.inr hold
  constructor
  case readable =>
    rw [heq]
    apply h.readable.note
    rintro ws' msg ⟨⟩
    rw [hread]
    rfl
  case owned =>
    intro q cl hq si' hsi'
    obtain ⟨rfl, rfl⟩ | ⟨-, hq⟩ := hclients q cl hq
    · obtain ⟨-, rfl⟩ | ⟨hne, -⟩ := hinfos _ _ hsi'
      · rfl
      · exact absurd rfl hne
    · obtain ⟨hsame, -⟩ | ⟨-, hsi'⟩ := hinfos _ _ hsi'
      · exact absurd hsame (hother q cl hq)
      · exact h.owned q cl hq si' hsi'
  case numbered =>
    intro q cl hq
    rw [show t.nextWs = s.nextWs by rw [heq]; rfl]
    obtain ⟨-, rfl⟩ | ⟨-, hq⟩ := hclients q cl hq
    · exact hws
    · exact h.numbered q cl hq
  case knows =>
    intro q cl hq hopen
    rw [hview]
    obtain ⟨rfl, rfl⟩ | ⟨-, hq⟩ := hclients q cl hq
    · rw [show (Client.new id ws wp).ws = ws from rfl, if_pos rfl]
      exact ⟨rfl, fun hne => absurd rfl hne, fun hne => absurd rfl hne⟩
    · have hne := hother q cl hq
      obtain ⟨si', hsi'⟩ := Option.ne_none_iff_exists'.mp hopen
      obtain ⟨hsame, -⟩ | ⟨-, hold⟩ := hinfos _ _ hsi'
      · exact absurd hsame hne
      · rw [if_neg (Ne.symm hne)]
        obtain ⟨hid, hrank, hquota⟩ := h.knows q cl hq (by rw [hold]; exact Option.some_ne_none _)
        exact ⟨hid, fun _ => hrank trivial, fun _ => hquota trivial⟩
  case captcha =>
    intro ws' si' hsi' _
    rw [hview]
    obtain ⟨rfl, rfl⟩ | ⟨hne, hsi'⟩ := hinfos _ _ hsi'
    · rw [if_pos rfl]
      exact h.captcha ws' si hsi not_false
    · rw [if_neg (Ne.symm hne)]
      exact h.captcha ws' si' hsi' not_false
  case verified =>
    intro ws' si' hsi' hplayer'
    obtain ⟨-, rfl⟩ | ⟨-, hsi'⟩ := hinfos _ _ hsi'
    · exact hok
    · exact h.verified ws' si' hsi' hplayer'

/-- Who joins a world is told its rank and its quota. -/
theorem Told.addCli {wp : WorldPtr} {w : World} (h : s.Told (fun _ => False) fun q => q ≠ p)
    (hw : s.objs wp = some w) (hrank : w.defaultRank ≤ Rank.user) :
  (s.addCli wp p).Told (fun _ => False) fun _ => True
  := by
  have hpromote : ∀ {t : Server} (r : Rank), r ≠ Rank.admin →
      t.Told (fun _ => False) (fun q => q ≠ p) →
      (t.promote p r w.paintrate).Told (fun _ => False) fun _ => True := by
    intro t r hr ht
    have hleaves := promote_leaves t p r w.paintrate
    refine ⟨hleaves.readable ht.readable, hleaves.owned ht.owned, fun q cl' hq => ?_, ?_,
      fun ws si hsi hfresh => ?_, fun ws si hsi => ht.verified ws si (hleaves.info hsi)⟩
    · obtain ⟨cl, hcl, hkeeps⟩ := hleaves.clients q cl' hq
      rw [hkeeps.ws, hleaves.nextWs]
      exact ht.numbered q cl hcl
    · have hknows : t.Knows (fun q => True ∧ q ≠ p) fun q => q ≠ p := by
        intro q cl hq hws
        obtain ⟨hid, hknown, hquota⟩ := ht.knows q cl hq hws
        exact ⟨hid, fun hq => hknown hq.2, hquota⟩
      apply promote_knows w.paintrate ht.owned hknows
      intro q _
      by_cases hqp : q = p
      · exact Or.inr ⟨hqp, hr⟩
      · exact Or.inl hqp
    · rw [hleaves.captcha ws (by rw [hsi]; exact Option.some_ne_none si)]
      exact ht.captcha ws si (hleaves.info hsi) hfresh
  have hnotadmin : w.defaultRank ≠ Rank.admin := by
    intro hadmin
    rw [hadmin] at hrank
    exact absurd hrank (by decide)
  have hrules := h.steady (tell_steady s p rules)
  rw [Server.addCli, withWorld_eq _ hw]
  have hput : ∀ {t : Server}, t.Told (fun _ => False) (fun _ => True) →
      (t.putWorld wp (w.addCli p)).Told (fun _ => False) fun _ => True :=
    fun ht => ht.rest rfl rfl rfl rfl
  apply hput
  split
  · exact hpromote _ hnotadmin hrules
  · exact hpromote Rank.none (by decide) (hrules.steady (tell_steady _ p _))

/-- A connection joins a world in memory. -/
theorem Told.enter {wp : WorldPtr} {w : World} (h : s.Told (fun _ => False) fun _ => True)
    (hsi : s.infos ws = some si) (hplayer : si.player = none)
    (hok : si.captchaVerified = CaptchaState.ok) (hws : ws < s.nextWs) (hw : s.objs wp = some w)
    (hrank : w.defaultRank ≤ Rank.user) (p : ClientPtr) :
  (s.enter ws wp p).Told (fun _ => False) fun _ => True
  := by
  have hput : (s.putWorld wp w.getId.2).Told (fun _ => False) fun _ => True :=
    h.rest rfl rfl rfl rfl
  have hnew := hput.newClient hsi hplayer hok p w.getId.1 wp hws rfl
  have hobj : ((s.putWorld wp w.getId.2).newClient p w.getId.1 ws wp).objs wp = some w.getId.2 := by
    have hinfo : (s.putWorld wp w.getId.2).infos ws = some si := hsi
    rw [newClient_sent p w.getId.1 wp hinfo]
    exact Function.update_self _ _ _
  rw [Server.enter, withInfo_eq _ hsi, withWorld_eq _ hw]
  exact hnew.addCli hobj hrank

/-! ### Messages -/

variable [Platform]

/-- A binary message. -/
theorem onBinary_steady (s : Server) (ws : Ws) (p : ClientPtr) (cl : Client) (si : SocketInfo)
    (msg : Bytes) :
  s.Steady (s.onBinary ws p cl si msg)
  := by
  rw [onBinary]
  split_ifs
  · exact safedelete_steady s p
  · exact .refl s
  · exact act_steady s cl.wrld _
  · exact act_steady s cl.wrld _
  · exact tell_steady s p _
  · exact act_steady s cl.wrld _
  · exact putPx_steady s p _ _ _
  · exact place_steady s p _
  · exact place_steady s p _
  · exact act_steady s cl.wrld _
  · exact ((tell_steady s p _).trans (admintell_steady _ _)).trans (closeWs_steady _ ws)
  · exact .refl s

/-- A text of the client is limited: it is not that of an administrator, nor a text of a moderator
of at most 512 characters. -/
def limited (cl : Client) (msg : Bytes) : Bool :=
  !cl.isAdmin && !(cl.isMod && getUTF8strlen (msg.take (msg.length - 1)) ≤ 512)

/-- Saying a text or running it as a command. -/
theorem say_steady (s : Server) (p : ClientPtr) (msg mstr : Bytes) :
  s.Steady (if msg.getD 0 0 ≠ 47 then s.chat p mstr
    else (Commands.exec s p (msg.slice 1 (msg.length - 2))).2)
  := by
  split
  · exact chat_steady s p mstr
  · exact Commands.exec_steady s p _

/-- A text that is not limited. -/
theorem onText_unlimited {cl : Client} {msg : Bytes} (hcl : s.clients p = some cl)
    (hlimited : limited cl msg = false) :
  s.Steady (s.onText p cl msg)
  := by
  have hwarn : cl.isAdmin = true → s.Steady (s.warn p) := by
    intro hadmin
    rw [warn, withClient_eq _ hcl, if_pos hadmin]
    exact .refl s
  rw [onText, maySay]
  dsimp only
  split
  · exact say_steady s p msg _
  · split
    · exact say_steady s p msg _
    · split
      case isTrue hadmin =>
        dsimp only
        split
        · exact say_steady s p msg _
        · exact hwarn hadmin
      case isFalse hmod hadmin =>
        rw [limited, Bool.eq_false_of_not_eq_true hadmin, Bool.eq_false_of_not_eq_true hmod]
          at hlimited
        cases hlimited

/-- Who is warned too often loses its connection. -/
theorem safedelete_infos {cl : Client} (h : s.Consistent) (hp : s.Live p cl) :
  (s.safedelete p).infos cl.ws = none
  := by
  obtain ⟨si, hsi, -⟩ := h.info_of_live hp
  rw [safedelete_eq h hp, closeWs_infos h hsi]
  exact Function.update_self _ _ _

/-- A limited text takes a token, or its client is warned, and closed with the last warning. -/
theorem onText_limited {cl : Client} {msg : Bytes} (hcl : s.clients p = some cl)
    (hlimited : limited cl msg = true) :
  ∃ n cl', cl' = { cl with penalty := n, chatlimit := (cl.chatlimit.canSpend s.clock 1).2 } ∧
    ({ s with clients := Function.update s.clients p (some cl') } : Server).Steady
      (s.onText p cl msg) ∧
    (n = cl.penalty ∧ (cl.chatlimit.canSpend s.clock 1).1 = true ∨
      n = cl.penalty + 1 ∧ ((cl.penalty + 1).toNat ≤ clientMaxWarnLevel ∨
        (s.Consistent → s.Live p cl → (s.onText p cl msg).infos cl.ws = none)))
  := by
  rw [limited, Bool.and_eq_true, Bool.not_eq_true', Bool.not_eq_true'] at hlimited
  obtain ⟨hadmin, hmod⟩ := hlimited
  generalize hspent : cl.chatlimit.canSpend s.clock 1 = spent
  obtain ⟨can, limit⟩ := spent
  generalize hlen : getUTF8strlen (msg.take (msg.length - 1)) = len at hmod
  have hchange : s.change p .spendChat = { s with
      clients := (Function.update s.clients p (some { cl with chatlimit := limit })) } := by
    rw [change_eq _ hcl, ClientChange.apply, hspent]
  have hsay : s.maySay p cl len = (can && len ≤ 128, { s with
      clients := (Function.update s.clients p (some { cl with chatlimit := limit })) }) := by
    rw [maySay, hadmin, Bool.false_and, if_neg Bool.false_ne_true, hmod,
      if_neg Bool.false_ne_true, if_neg Bool.false_ne_true, hspent, hchange]
  rw [onText]
  dsimp only
  rw [hlen, hsay]
  dsimp only
  cases hmay : can && decide (len ≤ 128) with
  | true =>
      rw [if_pos rfl]
      exact ⟨cl.penalty, _, rfl, say_steady _ p msg _,
        Or.inl ⟨rfl, (Bool.and_eq_true_iff.mp hmay).1⟩⟩
  | false =>
      rw [if_neg Bool.false_ne_true]
      generalize ht : ({ s with clients := (Function.update s.clients p
        (some { cl with chatlimit := limit })) } : Server) = t
      have hself : t.clients p = some { cl with chatlimit := limit } := by
        rw [← ht]
        exact Function.update_self _ _ _
      have hwarned : t.change p .penalty = { s with clients := (Function.update s.clients p
          (some { cl with penalty := cl.penalty + 1, chatlimit := limit })) } := by
        rw [change_eq _ hself, ← ht]
        simp only [Function.update_idem]
        rfl
      refine ⟨cl.penalty + 1, _, rfl, ?_, Or.inr ⟨rfl, ?_⟩⟩
      · rw [warn, withClient_eq _ hself, if_neg (by simpa [Client.isAdmin] using hadmin)]
        dsimp only
        rw [hwarned]
        split
        · exact safedelete_steady _ p
        · exact .refl _
      · by_cases hlast : (cl.penalty + 1).toNat ≤ clientMaxWarnLevel
        · exact Or.inl hlast
        · right
          intro h hp
          have hspend : Chain Scope.all s t := by
            rw [← ht, ← hchange]
            exact change_chain hp trivial trivial trivial
          have hlive : t.Live p { cl with chatlimit := limit } := ⟨hself, hp.2⟩
          have hpenalty : Chain Scope.all t (t.change p .penalty) :=
            change_chain hlive trivial trivial trivial
          have hlive' : (t.change p .penalty).Live p
              { cl with penalty := cl.penalty + 1, chatlimit := limit } := by
            refine ⟨?_, hp.2⟩
            rw [hwarned]
            exact Function.update_self _ _ _
          have hclosed := safedelete_infos ((hspend.trans hpenalty).consistent h) hlive'
          rw [warn, withClient_eq _ hself, if_neg (by simpa [Client.isAdmin] using hadmin)]
          dsimp only
          rw [if_pos (not_le.mp hlast)]
          exact hclosed

/-! ### Steps -/

/-- A message of a client. -/
theorem Told.message (h : s.Told (fun _ => False) fun _ => True) (hc : s.Consistent)
    (hsi : s.infos ws = some si) (oc : OpCode) (msg : Bytes) (q : ClientPtr) (wp : WorldPtr) :
  (s.onMessage ws oc msg q wp).Told (fun _ => False) fun _ => True
  := by
  rw [onMessage, withInfo_eq _ hsi]
  cases hplayer : si.player with
  | some p =>
      obtain ⟨cl, hcl, -⟩ := hc.live_of_player hsi hplayer
      dsimp only
      rw [withClient_eq _ hcl.1]
      split
      · exact h.steady (onBinary_steady s ws p cl si msg)
      · split
        · cases hlimited : limited cl msg with
          | false => exact h.steady (onText_unlimited hcl.1 hlimited)
          | true =>
              obtain ⟨n, cl', hcl', hsteady, -⟩ := onText_limited hcl.1 hlimited
              exact (h.limit hcl.1 (by rw [hcl'])).steady hsteady
        · exact h
  | none =>
      dsimp only
      split
      case isFalse => exact h.steady (closeWs_steady s ws)
      case isTrue hjoins =>
        have hlt : ws < s.nextWs := hc.registry.lt_nextWs (hc.mem_connsws.mpr ⟨si, hsi⟩)
        rw [joinWorld]
        split
        · exact h.steady (closeWs_steady s ws)
        · split
          case h_1 wp' hname =>
            obtain ⟨w, hw, -⟩ := hc.world_of_lookup hname
            exact h.enter hsi hplayer hjoins.1 hlt hw (hc.defaultRank hw) q
          case h_2 name =>
            obtain ⟨-, hrank⟩ := World.new_room s.path (msg.take (msg.length - 2)) s.disk
            have hload : (s.loadWorld (msg.take (msg.length - 2)) wp).Told (fun _ => False)
                fun _ => True := h.rest rfl rfl rfl rfl
            have hobj : (s.loadWorld (msg.take (msg.length - 2)) wp).objs wp
                = some (World.new s.path (msg.take (msg.length - 2)) s.disk).1 :=
              Function.update_self _ _ _
            refine hload.enter hsi hplayer hjoins.1 hlt hobj ?_ q
            rw [hrank]
            decide

/-- A step of the server. -/
theorem Told.step (h : s.Told (fun _ => False) fun _ => True) (hc : s.Consistent) (e : Event) :
  (s.step e).Told (fun _ => False) fun _ => True
  := by
  rw [Server.step.eq_def]
  split
  case isTrue => exact h
  case isFalse =>
    cases e with
    | connect address => exact h.connect address
    | message ws oc msg p wp =>
        dsimp only
        split
        case isFalse => exact h
        case isTrue hthere =>
          obtain ⟨si, hsi⟩ := Option.isSome_iff_exists.mp hthere.1
          exact h.message hc hsi oc msg p wp
    | disconnect ws =>
        dsimp only
        split
        · exact h.steady (closeWs_steady s ws)
        · exact h
    | save =>
        dsimp only
        split
        · exact h
        · exact h.steady (saveNow_steady s)
    | tick wp =>
        dsimp only
        split
        · exact h.steady (tick_steady s wp)
        · exact h
    | callback i =>
        dsimp only
        split
        case h_2 => exact h
        case h_1 c _ =>
          have hpop : ({ s with pending := s.pending.eraseIdx i } : Server).Told (fun _ => False)
              fun _ => True := h.rest rfl rfl rfl rfl
          cases c with
          | client p => exact hpop.free p
          | world wp => exact hpop.steady (deleteWorld_steady _ wp)
          | server => exact hpop.steady (delete_steady _)
    | quit => exact h.steady (quit_steady s)
    | advance dt =>
        dsimp only
        split
        · exact h.rest rfl rfl rfl rfl
        · exact h
    | rehash connsws =>
        dsimp only
        split
        · exact h.rest rfl rfl rfl rfl
        · exact h

/-- Any run. -/
theorem Told.runs (h : s.Told (fun _ => False) fun _ => True) (hc : s.Consistent)
    (events : List Event) :
  (s.runs events).Told (fun _ => False) fun _ => True
  := by
  induction events generalizing s with
  | nil => exact h
  | cons e events ih => exact ih (h.step hc e) (hc.event e)

/-- In every run, the binary messages of the server can be read, an open connection has been told
the state of its captcha, and the view of a client that has joined a world, from all messages that
it was sent, is what the server keeps of it. -/
theorem told_runs (modpw adminpw path : Bytes) (d : Disk) (clock : ℚ) (events : List Event) :
  ∃ s, s = (Server.new modpw adminpw path d clock).runs events ∧ s.Readable ∧
    ∀ ws si, s.infos ws = some si → (s.view ws).captcha = some si.captchaVerified ∧
      ∀ p, si.player = some p → ∃ cl, s.Live p cl ∧ cl.ws = ws ∧
        s.view ws = ⟨some cl.id, some cl.rank, some (cl.pixupdlimit.rate, cl.pixupdlimit.per),
          some CaptchaState.ok⟩
  := by
  have hc := (consistent_new modpw adminpw path d clock).runs events
  have h := (told_new modpw adminpw path d clock).runs (consistent_new modpw adminpw path d clock)
    events
  generalize (Server.new modpw adminpw path d clock).runs events = s at hc h
  refine ⟨s, rfl, h.readable, fun ws si hsi => ⟨h.captcha ws si hsi not_false, fun p hp => ?_⟩⟩
  obtain ⟨cl, hcl, rfl⟩ := hc.live_of_player hsi hp
  obtain ⟨hid, hrank, hquota⟩ := h.knows p cl hcl.1 (by rw [hsi]; exact Option.some_ne_none si)
  refine ⟨cl, hcl, rfl, ?_⟩
  have hcaptcha := h.captcha cl.ws si hsi not_false
  rw [h.verified cl.ws si hsi (by rw [hp]; exact Option.some_ne_none p)] at hcaptcha
  rw [← hid, ← hrank trivial, ← hquota trivial, ← hcaptcha]

end Server

end Owop
