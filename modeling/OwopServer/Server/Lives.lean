import OwopServer.Server.Telling

/-!
# The life of a connection

What the server keeps of a connection that is open stays as it is, but that a connection whose
captcha is done gets a client once.  The warnings and the limit of the texts of a client change
only with the texts that are limited.
-/

namespace Owop

open Bytes (ofString)

/-- What is kept of a connection while it is open: the same, or it has got a client since. -/
def SocketInfo.Becomes (si si' : SocketInfo) : Prop :=
  si' = si ∨ si.player = none ∧ si.captchaVerified = CaptchaState.ok ∧
    ∃ p, si' = { si with player := some p }

/-- One thing after another. -/
theorem SocketInfo.Becomes.trans {si si' si'' : SocketInfo} (h : si.Becomes si')
    (h' : si'.Becomes si'') :
  si.Becomes si''
  := by
  obtain rfl | ⟨hplayer, hok, p, rfl⟩ := h
  · exact h'
  · obtain rfl | ⟨hplayer', -⟩ := h'
    · exact Or.inr ⟨hplayer, hok, p, rfl⟩
    · cases hplayer'

/-- A limited text at the time `now`: it takes a token, or its client is warned and stays. -/
def Client.Texts (now : ℚ) (cl cl' : Client) : Prop :=
  cl'.chatlimit = (cl.chatlimit.canSpend now 1).2 ∧
    (cl'.penalty = cl.penalty ∧ (cl.chatlimit.canSpend now 1).1 = true ∨
      cl'.penalty = cl.penalty + 1 ∧ (cl.penalty + 1).toNat ≤ clientMaxWarnLevel)

namespace Server

variable {s s' t : Server} {ws : Ws} {si : SocketInfo} {p : ClientPtr} {n : ℕ}

/-- The client of a connection. -/
def clientOf (s : Server) (ws : Ws) : Option Client :=
  (s.infos ws).bind fun si => si.player.bind s.clients

/-- The client of a connection is found by its player. -/
theorem clientOf_eq_some {cl : Client} :
  s.clientOf ws = some cl ↔
    ∃ si p, s.infos ws = some si ∧ si.player = some p ∧ s.clients p = some cl
  := by
  rw [clientOf, Option.bind_eq_some_iff]
  constructor
  · rintro ⟨si, hsi, hbind⟩
    obtain ⟨p, hp, hcl⟩ := Option.bind_eq_some_iff.mp hbind
    exact ⟨si, p, hsi, hp, hcl⟩
  · rintro ⟨si, p, hsi, hp, hcl⟩
    exact ⟨si, hsi, Option.bind_eq_some_iff.mpr ⟨p, hp, hcl⟩⟩

/-- The client of a connection that has a player. -/
theorem clientOf_eq (hsi : s.infos ws = some si) (hplayer : si.player = some p) :
  s.clientOf ws = s.clients p
  := by
  rw [clientOf, hsi, Option.bind_some, hplayer, Option.bind_some]

/-- What `cl'` can come from, as the client of the connection: the client there, the same client
before a limited text, or nobody, when it is new. -/
def ComesTo (s : Server) (ws : Ws) (cl' : Client) : Prop :=
  (∃ cl, s.clientOf ws = some cl ∧ cl'.penalty = cl.penalty ∧ cl'.chatlimit = cl.chatlimit) ∨
  (∃ cl, s.clientOf ws = some cl ∧ cl.Texts s.clock cl') ∨
  s.clientOf ws = none ∧ cl'.penalty = 0 ∧ cl'.chatlimit = Bucket.new 34 44

/-- What becomes of the first `n` connections and of all clients. -/
structure Lasts (n : ℕ) (s s' : Server) : Prop where
  nextWs : s.nextWs ≤ s'.nextWs
  clock : s.clock ≤ s'.clock
  infos : ∀ ws si', ws < n → s'.infos ws = some si' → ∃ si, s.infos ws = some si ∧ si.Becomes si'
  clients : ∀ ws cl', s'.clientOf ws = some cl' → s.ComesTo ws cl'

/-- The clients that connections keep have their warnings and the limit of their texts. -/
theorem Leaves.clientOf {cl' : Client} (h : s.Leaves s') (hcl' : s'.clientOf ws = some cl') :
  ∃ cl, s.clientOf ws = some cl ∧ cl.Keeps cl'
  := by
  obtain ⟨si, p, hsi, hp, hcl'⟩ := clientOf_eq_some.mp hcl'
  obtain ⟨cl, hcl, hkeeps⟩ := h.clients p cl' hcl'
  exact ⟨cl, clientOf_eq_some.mpr ⟨si, p, h.info hsi, hp, hcl⟩, hkeeps⟩

/-- After that some connections end. -/
theorem Lasts.leaves (h : s.Lasts n t) (h' : t.Leaves s') :
  s.Lasts n s'
  := by
  constructor
  case nextWs => exact h.nextWs.trans (le_of_eq h'.nextWs.symm)
  case clock => exact h.clock.trans (le_of_eq h'.clock.symm)
  case infos => exact fun ws si' hws hsi' => h.infos ws si' hws (h'.info hsi')
  case clients =>
    intro ws cl' hcl'
    obtain ⟨cl, hcl, hkeeps⟩ := h'.clientOf hcl'
    have hcomes := h.clients ws cl hcl
    simp only [ComesTo, Client.Texts, hkeeps.penalty, hkeeps.chatlimit]
    exact hcomes

/-- The clients are the same, and no connection has got one. -/
theorem Lasts.of_infos (hnext : s.nextWs ≤ s'.nextWs) (hclock : s.clock ≤ s'.clock)
    (hclients : s'.clients = s.clients) (hinfos : ∀ ws, ws < n → s'.infos ws = s.infos ws)
    (hplayers : ∀ ws si' p, s'.infos ws = some si' → si'.player = some p → s.infos ws = some si') :
  s.Lasts n s'
  := by
  constructor
  case nextWs => exact hnext
  case clock => exact hclock
  case infos =>
    intro ws si' hws hsi'
    rw [hinfos ws hws] at hsi'
    exact ⟨si', hsi', Or.inl rfl⟩
  case clients =>
    intro ws cl' hcl'
    obtain ⟨si, p, hsi, hp, hcl'⟩ := clientOf_eq_some.mp hcl'
    rw [hclients] at hcl'
    exact Or.inl ⟨cl', clientOf_eq_some.mpr ⟨si, p, hplayers ws si p hsi hp, hp, hcl'⟩, rfl, rfl⟩

/-- Nothing happens. -/
theorem Lasts.refl (s : Server) :
  s.Lasts n s
  := .of_infos (le_refl _) (le_refl _) rfl (fun _ _ => rfl) fun _ _ _ hsi _ => hsi

/-- What is not concerned may change. -/
theorem Lasts.rest (h : s.Lasts n t) (hnext : s'.nextWs = t.nextWs) (hclock : t.clock ≤ s'.clock)
    (hinfos : s'.infos = t.infos) (hclients : s'.clients = t.clients) :
  s.Lasts n s'
  := by
  have hclientOf : s'.clientOf = t.clientOf := by
    funext ws
    rw [Server.clientOf, Server.clientOf, hinfos, hclients]
  constructor
  case nextWs =>
    rw [hnext]
    exact h.nextWs
  case clock => exact h.clock.trans hclock
  case infos =>
    rw [hinfos]
    exact h.infos
  case clients =>
    rw [hclientOf]
    exact h.clients

/-- Where connections stay as they are or end, they last. -/
theorem Steady.lasts (h : s.Steady s') :
  s.Lasts n s'
  := (Lasts.refl s).leaves h.toLeaves

/-! ### Connecting -/

/-- After that a captcha is asked for. -/
theorem Lasts.requestCaptcha (h : s.Lasts n t) (ws : Ws) :
  s.Lasts n (t.requestCaptcha ws)
  := by
  rw [Server.requestCaptcha]
  cases hsi : t.infos ws with
  | none =>
      rw [withInfo, hsi]
      exact h.rest rfl (le_refl _) rfl rfl
  | some si =>
      rw [withInfo_eq _ hsi, send_eq _ _ hsi]
      exact h.rest rfl (le_refl _) rfl rfl

/-- A new connection, with whatever state of its captcha. -/
theorem lasts_new {t : Server} (si : SocketInfo) (hn : n ≤ s.nextWs) (hplayer : si.player = none)
    (hnext : t.nextWs = s.nextWs + 1) (hclock : t.clock = s.clock)
    (hinfos : t.infos = Function.update s.infos s.nextWs (some si))
    (hclients : t.clients = s.clients) :
  s.Lasts n t
  := by
  apply Lasts.of_infos (by rw [hnext]; exact Nat.le_succ _) (le_of_eq hclock.symm) hclients
  · intro ws hws
    rw [hinfos, Function.update_of_ne (Nat.ne_of_lt (lt_of_lt_of_le hws hn))]
  · intro ws si' p hsi' hp
    rw [hinfos] at hsi'
    obtain ⟨-, rfl⟩ | ⟨-, hsi'⟩ := Table.update_eq_some.mp hsi'
    · rw [hplayer] at hp
      cases hp
    · exact hsi'

/-- Somebody connects. -/
theorem connect_lasts (hn : n ≤ s.nextWs) (address : Bytes) :
  s.Lasts n (s.onConnection address)
  := by
  generalize hip : stripIp address = ip
  have hinfo := infos_openWs s ip (s.captchaFor ip)
  have hsent : ∀ (t : Server) (msg : Bytes), t.Steady (t.send s.nextWs .text msg) :=
    fun t msg => send_steady t s.nextWs (show Plain .text msg from trivial)
  have hopen : s.Lasts n (s.openWs ip (s.captchaFor ip)) :=
    lasts_new _ hn rfl rfl rfl rfl rfl
  have hcount : s.Lasts n ((s.openWs ip (s.captchaFor ip)).countUp ip) :=
    hopen.rest rfl (le_refl _) rfl rfl
  by_cases hrefuses : s.refuses ip
  · rw [onConnection_refused hip hrefuses]
    exact (hopen.leaves (hsent _ _).toLeaves).leaves (closeWs_steady _ _).toLeaves
  by_cases hcrowded : s.crowded ip
  · rw [onConnection_crowded hip hrefuses hcrowded]
    exact (hcount.leaves (hsent _ _).toLeaves).leaves (closeWs_steady _ _).toLeaves
  · rw [onConnection_admitted hip hrefuses hcrowded]
    have harrival : s.Lasts n (s.arrival ip) := hopen.rest rfl (le_refl _) rfl rfl
    apply Lasts.requestCaptcha
    split
    · exact harrival
    · have harrived : (s.arrival ip).infos s.nextWs = some ⟨[], ip, none, s.captchaFor ip⟩ := hinfo
      rw [fastConnect]
      split
      · rw [withInfo_eq _ harrived]
        refine lasts_new ⟨[], ip, none, CaptchaState.waiting⟩ hn rfl rfl rfl ?_ rfl
        exact Function.update_idem _ _ _
      · split
        · exact (harrival.leaves (ban_steady _ ip).toLeaves).leaves (closeWs_steady _ _).toLeaves
        · split
          · exact harrival.leaves (closeWs_steady _ _).toLeaves
          · exact harrival

/-- A client that nobody uses any more is deleted. -/
theorem free_lasts (h : s.Lasts n t) (p : ClientPtr) :
  s.Lasts n { t with clients := Function.update t.clients p none }
  := by
  refine ⟨h.nextWs, h.clock, h.infos, fun ws cl' hcl' => ?_⟩
  obtain ⟨si, q, hsi, hq, hcl'⟩ := clientOf_eq_some.mp hcl'
  dsimp only at hcl'
  by_cases hqp : q = p
  · subst hqp
    rw [Function.update_self] at hcl'
    cases hcl'
  · rw [Function.update_of_ne hqp] at hcl'
    exact h.clients ws cl' (clientOf_eq_some.mpr ⟨si, q, hsi, hq, hcl'⟩)

/-! ### Messages -/

variable [Platform]

omit [Platform] in
/-- A connection joins a world in memory. -/
theorem enter_lasts {wp : WorldPtr} {w : World} (hsi : s.infos ws = some si)
    (hplayer : si.player = none) (hok : si.captchaVerified = CaptchaState.ok)
    (hp : s.clients p = none) (hw : s.objs wp = some w) :
  s.Lasts n (s.enter ws wp p)
  := by
  obtain ⟨msgs, henter⟩ := enter_sent p hsi hw
  rw [henter]
  constructor
  case nextWs => exact le_refl _
  case clock => exact le_refl _
  case infos =>
    intro ws' si' _ hsi'
    obtain ⟨rfl, rfl⟩ | ⟨-, hsi'⟩ := Table.update_eq_some.mp hsi'
    · exact ⟨si, hsi, Or.inr ⟨hplayer, hok, p, rfl⟩⟩
    · exact ⟨si', hsi', Or.inl rfl⟩
  case clients =>
    intro ws' cl' hcl'
    obtain ⟨si', q, hsi', hq, hcl'⟩ := clientOf_eq_some.mp hcl'
    have hnobody : q = p → s.clientOf ws' = none := by
      rintro rfl
      obtain ⟨rfl, rfl⟩ | ⟨-, hsi'⟩ := Table.update_eq_some.mp hsi'
      · rw [clientOf, hsi, Option.bind_some, hplayer]
        rfl
      · rw [clientOf_eq hsi' hq, hp]
    obtain ⟨rfl, rfl⟩ | ⟨hqp, hcl'⟩ := Table.update_eq_some.mp hcl'
    · exact Or.inr (Or.inr ⟨hnobody rfl, rfl, rfl⟩)
    · obtain ⟨rfl, rfl⟩ | ⟨-, hsi'⟩ := Table.update_eq_some.mp hsi'
      · cases hq
        exact absurd rfl hqp
      · exact Or.inl ⟨cl', clientOf_eq_some.mpr ⟨si', q, hsi', hq, hcl'⟩, rfl, rfl⟩

/-- The client of a connection after a limited text of it. -/
theorem clientOf_limited {cl cl' : Client} {msg : Bytes} (hc : s.Consistent)
    (hsi : s.infos ws = some si) (hplayer : si.player = some p) (hcl : s.Live p cl)
    (hlimited : limited cl msg = true) (hcl' : (s.onText p cl msg).clientOf ws = some cl') :
  cl.Texts s.clock cl'
  := by
  obtain ⟨k, c, hceq, hsteady, hspent⟩ := onText_limited hcl.1 hlimited
  obtain ⟨c', hc', hkeeps⟩ := hsteady.toLeaves.clientOf hcl'
  rw [clientOf_eq (s := { s with clients := Function.update s.clients p (some c) }) hsi hplayer]
    at hc'
  have hself : Function.update s.clients p (some c) p = some c := Function.update_self _ _ _
  obtain rfl : c = c' := Option.some.inj (hself.symm.trans hc')
  rw [Client.Texts, hkeeps.penalty, hkeeps.chatlimit, hceq]
  refine ⟨rfl, hspent.imp_right ?_⟩
  rintro ⟨hk, hle | hclosed⟩
  · exact ⟨hk, hle⟩
  · obtain ⟨si', -, hsi', -, -⟩ := clientOf_eq_some.mp hcl'
    obtain ⟨cl₀, hcl₀, hws⟩ := hc.live_of_player hsi hplayer
    obtain rfl : cl₀ = cl := Option.some.inj (hcl₀.1.symm.trans hcl.1)
    rw [← hws, hclosed hc hcl] at hsi'
    cases hsi'

/-- A text that is over the limit. -/
theorem limited_lasts {cl : Client} {msg : Bytes} (hc : s.Consistent)
    (hsi : s.infos ws = some si) (hplayer : si.player = some p) (hcl : s.Live p cl)
    (hlimited : limited cl msg = true) :
  s.Lasts n (s.onText p cl msg)
  := by
  obtain ⟨k, c, -, hsteady, -⟩ := onText_limited hcl.1 hlimited
  constructor
  case nextWs => exact le_of_eq hsteady.nextWs.symm
  case clock => exact le_of_eq hsteady.clock.symm
  case infos => exact fun ws' si' _ hsi' => ⟨si', hsteady.toLeaves.info hsi', Or.inl rfl⟩
  case clients =>
    intro ws' cl' hcl'
    by_cases hws : ws' = ws
    · subst hws
      right
      left
      refine ⟨cl, ?_, clientOf_limited hc hsi hplayer hcl hlimited hcl'⟩
      rw [clientOf_eq hsi hplayer, hcl.1]
    · obtain ⟨c', hc', hkeeps⟩ := hsteady.toLeaves.clientOf hcl'
      obtain ⟨si', q, hsi', hq, hc'⟩ := clientOf_eq_some.mp hc'
      obtain ⟨rfl, -⟩ | ⟨-, hc'⟩ := Table.update_eq_some.mp hc'
      · -- two connections do not share a client
        obtain ⟨cl₁, hcl₁, hws₁⟩ := hc.live_of_player hsi hplayer
        obtain ⟨cl₂, hcl₂, hws₂⟩ := hc.live_of_player (s := s) hsi' hq
        obtain rfl : cl₁ = cl₂ := Option.some.inj (hcl₁.1.symm.trans hcl₂.1)
        exact absurd (hws₂.symm.trans hws₁) hws
      · exact Or.inl ⟨c', clientOf_eq_some.mpr ⟨si', q, hsi', hq, hc'⟩, hkeeps.penalty,
          hkeeps.chatlimit⟩

/-- A message. -/
theorem message_lasts (hc : s.Consistent) (hsi : s.infos ws = some si) (oc : OpCode) (msg : Bytes)
    {q : ClientPtr} {wp : WorldPtr} (hq : s.clients q = none) :
  s.Lasts n (s.onMessage ws oc msg q wp)
  := by
  rw [onMessage, withInfo_eq _ hsi]
  cases hplayer : si.player with
  | some p =>
      obtain ⟨cl, hcl, -⟩ := hc.live_of_player hsi hplayer
      dsimp only
      rw [withClient_eq _ hcl.1]
      split
      · exact (onBinary_steady s ws p cl si msg).lasts
      · split
        · cases hlimited : limited cl msg with
          | false => exact (onText_unlimited hcl.1 hlimited).lasts
          | true => exact limited_lasts hc hsi hplayer hcl hlimited
        · exact .refl s
  | none =>
      dsimp only
      split
      case isFalse => exact (closeWs_steady s ws).lasts
      case isTrue hjoins =>
        rw [joinWorld]
        split
        · exact (closeWs_steady s ws).lasts
        · split
          case h_1 wp' hname =>
            obtain ⟨w, hw, -⟩ := hc.world_of_lookup hname
            exact enter_lasts hsi hplayer hjoins.1 hq hw
          case h_2 =>
            have hobj : (s.loadWorld (msg.take (msg.length - 2)) wp).objs wp
                = some (World.new s.path (msg.take (msg.length - 2)) s.disk).1 :=
              Function.update_self _ _ _
            have henter := enter_lasts (n := n)
              (s := s.loadWorld (msg.take (msg.length - 2)) wp) hsi hplayer hjoins.1 hq hobj
            exact ⟨henter.nextWs, henter.clock, henter.infos, henter.clients⟩

/-! ### Runs -/

/-- Any event. -/
theorem step_lasts (hc : s.Consistent) (hn : n ≤ s.nextWs) (e : Event) :
  s.Lasts n (s.step e)
  := by
  rw [Server.step.eq_def]
  split
  case isTrue => exact .refl s
  case isFalse =>
    cases e with
    | connect address => exact connect_lasts hn address
    | message ws oc msg p wp =>
        dsimp only
        split
        case isFalse => exact .refl s
        case isTrue hthere =>
          obtain ⟨si, hsi⟩ := Option.isSome_iff_exists.mp hthere.1
          exact message_lasts hc hsi oc msg hthere.2.1
    | disconnect ws =>
        dsimp only
        split
        · exact (closeWs_steady s ws).lasts
        · exact .refl s
    | save =>
        dsimp only
        split
        · exact .refl s
        · exact (saveNow_steady s).lasts
    | tick wp =>
        dsimp only
        split
        · exact (tick_steady s wp).lasts
        · exact .refl s
    | callback i =>
        dsimp only
        split
        case h_2 => exact .refl s
        case h_1 c _ =>
          have hpop : s.Lasts n { s with pending := s.pending.eraseIdx i } :=
            (Lasts.refl s).rest rfl (le_refl _) rfl rfl
          cases c with
          | client p => exact free_lasts hpop p
          | world wp => exact hpop.leaves (deleteWorld_steady _ wp).toLeaves
          | server => exact hpop.leaves (delete_steady _).toLeaves
    | quit => exact (quit_steady s).lasts
    | advance dt =>
        dsimp only
        split
        case isTrue hdt => exact (Lasts.refl s).rest rfl (le_add_of_nonneg_right hdt) rfl rfl
        case isFalse => exact .refl s
    | rehash connsws =>
        dsimp only
        split
        · exact (Lasts.refl s).rest rfl (le_refl _) rfl rfl
        · exact .refl s

/-- What becomes of what is kept of the connections, in a run. -/
theorem runs_lasts (hc : s.Consistent) (hn : n ≤ s.nextWs) (events : List Event) {si' : SocketInfo}
    (hws : ws < n) (hsi' : (s.runs events).infos ws = some si') :
  ∃ si, s.infos ws = some si ∧ si.Becomes si'
  := by
  induction events generalizing s with
  | nil => exact ⟨si', hsi', Or.inl rfl⟩
  | cons e events ih =>
      have hstep := step_lasts hc hn e
      obtain ⟨si₁, hsi₁, hbecomes₁⟩ := ih (hc.event e) (hn.trans hstep.nextWs) hsi'
      obtain ⟨si, hsi, hbecomes⟩ := hstep.infos ws si₁ hws hsi₁
      exact ⟨si, hsi, hbecomes.trans hbecomes₁⟩

/-- In every run, what is kept of an open connection stays as it is, but that a connection whose
captcha is done gets a client once; a connection whose captcha is not done never gets one, and
each message on it closes it. -/
theorem becomes_runs (modpw adminpw path : Bytes) (d : Disk) (clock : ℚ) {before after : List Event}
    {si si' : SocketInfo}
    (hsi : ((Server.new modpw adminpw path d clock).runs before).infos ws = some si)
    (hsi' : ((Server.new modpw adminpw path d clock).runs (before ++ after)).infos ws = some si') :
  si.Becomes si' ∧ (si.captchaVerified ≠ CaptchaState.ok → si' = si ∧ si.player = none ∧
    ∀ oc msg p wp, ((Server.new modpw adminpw path d clock).runs (before ++ after)).onMessage ws oc
      msg p wp = ((Server.new modpw adminpw path d clock).runs (before ++ after)).closeWs ws)
  := by
  have hc := (consistent_new modpw adminpw path d clock).runs before
  have htold := (told_new modpw adminpw path d clock).runs
    (consistent_new modpw adminpw path d clock) before
  have happend : (Server.new modpw adminpw path d clock).runs (before ++ after)
      = ((Server.new modpw adminpw path d clock).runs before).runs after :=
    Runs.run_append _ _ before after
  rw [happend] at hsi' ⊢
  generalize (Server.new modpw adminpw path d clock).runs before = s at *
  have hlt : ws < s.nextWs := hc.registry.lt_nextWs (hc.mem_connsws.mpr ⟨si, hsi⟩)
  obtain ⟨si₀, hsi₀, hbecomes⟩ := runs_lasts hc (le_refl _) after hlt hsi'
  obtain rfl : si = si₀ := Option.some.inj (hsi.symm.trans hsi₀)
  refine ⟨hbecomes, fun hgated => ?_⟩
  have hplayer : si.player = none := by
    by_contra hplayer
    exact hgated (htold.verified ws si hsi hplayer)
  obtain rfl | ⟨-, hok, -⟩ := hbecomes
  · refine ⟨rfl, hplayer, fun oc msg p wp => ?_⟩
    rw [onMessage, withInfo_eq _ hsi', hplayer]
    dsimp only
    rw [if_neg fun hjoins => hgated hjoins.1]
  · exact absurd hok hgated

/-- An administrator asks for captchas before another connection is made. -/
def gatedEvents : List Event :=
  [.connect (ofString "a"), .message 0 .binary (ofString "w..") 0 0,
    .message 0 .text (ofString "/adminlogin a\n") 1 1,
    .message 0 .text (ofString "/lock captcha true\n") 1 1, .connect (ofString "b")]

omit [Platform] in
/-- The other connection waits, also after the timer of the world has fired. -/
theorem becomes_runs_gatedEvents :
  let _ := Platform.quiet
  let s := (Server.new (ofString "m") (ofString "a") [] (Disk.empty fun _ => true) 0).runs
    (gatedEvents ++ [.tick 0])
  ∃ si, s.infos 1 = some si ∧ si.player = none ∧
    ∀ oc msg p wp, s.onMessage 1 oc msg p wp = s.closeWs 1
  := by
  let _ := Platform.quiet
  have hbefore : (((Server.new (ofString "m") (ofString "a") [] (Disk.empty fun _ => true) 0).runs
      gatedEvents).infos 1).any (fun si => decide (si.captchaVerified ≠ CaptchaState.ok)) = true := by
    decide +kernel
  have hafter : (((Server.new (ofString "m") (ofString "a") [] (Disk.empty fun _ => true) 0).runs
      (gatedEvents ++ [.tick 0])).infos 1).isSome = true := by
    decide +kernel
  obtain ⟨si, hsi, hgated⟩ := (Option.any_eq_true _ _).mp hbefore
  obtain ⟨si', hsi'⟩ := Option.isSome_iff_exists.mp hafter
  obtain ⟨-, hstays⟩ := becomes_runs _ _ _ _ _ hsi hsi'
  obtain ⟨rfl, hplayer, hcloses⟩ := hstays (of_decide_eq_true hgated)
  exact ⟨si', hsi', hplayer, hcloses⟩

end Server

end Owop
