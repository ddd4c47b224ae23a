import OwopServer.Server.Steps

/-!
# Ranks are earned

Who has a rank above that of a user has it for a login that was run for it with the right
password, or from an administrator, in every run of the server.
-/

namespace Owop

open Bytes (ofString)

namespace Server

variable [Platform] {s s' : Server}

/-! ### What happens to clients -/

/-- What a small step does to a client that is there after it. -/
theorem Allowed.client {D : Scope} {l : Label} (hl : Allowed D s l) (h : s.Consistent)
    {q : ClientPtr} {cl' : Client} (hq : (l.step s).clients q = some cl') :
  ∃ cl, s.clients q = some cl ∧ cl'.ws = cl.ws ∧ cl'.wrld = cl.wrld ∧
    (cl'.rank = cl.rank ∨ s.Justified cl (.rank cl'.rank))
  := by
  have hsame : s.clients q = some cl' → ∃ cl, s.clients q = some cl ∧ cl'.ws = cl.ws ∧
      cl'.wrld = cl.wrld ∧ (cl'.rank = cl.rank ∨ s.Justified cl (.rank cl'.rank)) :=
    fun hcl => ⟨cl', hcl, rfl, rfl, Or.inl rfl⟩
  cases hl with
  | send => exact hsame hq
  | gone => exact hsame hq
  | exec => exact hsame hq
  | setrank => exact hsame hq
  | @change p cl c hp _ hc =>
      rw [Label.step, change_eq c hp.1] at hq
      obtain ⟨rfl, rfl⟩ | ⟨-, hq⟩ := Table.update_eq_some.mp hq
      · refine ⟨cl, hp.1, ?_⟩
        cases c with
        | rank r => exact ⟨rfl, rfl, Or.inr hc⟩
        | nick => exact ⟨rfl, rfl, Or.inl rfl⟩
        | stealth => exact ⟨rfl, rfl, Or.inl rfl⟩
        | mute => exact ⟨rfl, rfl, Or.inl rfl⟩
        | penalty => exact ⟨rfl, rfl, Or.inl rfl⟩
        | lastclr => exact ⟨rfl, rfl, Or.inl rfl⟩
        | spendChat => exact ⟨rfl, rfl, Or.inl rfl⟩
        | spendPixel => exact ⟨rfl, rfl, Or.inl rfl⟩
        | pbucket => exact ⟨rfl, rfl, Or.inl rfl⟩
      · exact hsame hq
  | @place p cl pos hp =>
      obtain ⟨w, hw, -⟩ := h.world_of_live hp
      rw [Label.step, place_eq pos hp.1 hw] at hq
      obtain ⟨rfl, rfl⟩ | ⟨-, hq⟩ := Table.update_eq_some.mp hq
      · exact ⟨cl, hp.1, rfl, rfl, Or.inl rfl⟩
      · exact hsame hq
  | act hwp =>
      rw [Label.step, perform_eq _ hwp] at hq
      exact hsame hq
  | @drop ws si hws =>
      obtain heq | ⟨-, cl, hcl, heq⟩ := drop_clients h hws q
      · exact hsame (heq.symm.trans hq)
      · obtain rfl : { cl with handledelete := false } = cl' :=
          Option.some.inj (heq.symm.trans hq)
        exact ⟨cl, hcl.1, rfl, rfl, Or.inl rfl⟩
  | config => exact hsame hq
  | lockdown => exact hsame hq
  | lists => exact hsame hq
  | eraseConns => exact hsame hq
  | save hwp =>
      rw [Label.step, saveWorld_eq hwp] at hq
      exact hsame hq
  | files => exact hsame hq

/-! ### Ranks are justified -/

/-- The passwords are those the server was started with, and each client has a rank that is
justified. -/
def Earned (modpw adminpw : Bytes) (s : Server) : Prop :=
  s.modpw = modpw ∧ s.adminpw = adminpw ∧
    ∀ p cl, s.clients p = some cl → s.Justified cl (.rank cl.rank)

omit [Platform] in
/-- What is justified stays so. -/
theorem Justified.kept {cl cl' : Client} {r : Rank} (hj : s.Justified cl (.rank r))
    (hws : cl'.ws = cl.ws) (hmodpw : s'.modpw = s.modpw) (hadminpw : s'.adminpw = s.adminpw)
    (hlog : s.log <+: s'.log) :
  s'.Justified cl' (.rank r)
  := by
  rw [Justified, hws, hmodpw, hadminpw]
  obtain huser | ⟨hr, hmod⟩ | ⟨hr, hadmin⟩ | ⟨hr, hset⟩ := hj
  · exact Or.inl huser
  · exact Or.inr (Or.inl ⟨hr, hlog.subset hmod⟩)
  · exact Or.inr (Or.inr (Or.inl ⟨hr, hlog.subset hadmin⟩))
  · exact Or.inr (Or.inr (Or.inr ⟨hr, hlog.subset hset⟩))

omit [Platform] in
/-- Who joins gets no more than the rank of a user. -/
theorem Consistent.guest_rank {wp : WorldPtr} {w : World} (h : s.Consistent)
    (hwp : s.objs wp = some w) (ws : Ws) :
  (guest w ws wp).rank ≤ Rank.user
  := by
  show (if w.pass = [] then w.defaultRank else Rank.none) ≤ Rank.user
  split
  · exact h.defaultRank hwp
  · decide

/-- Moves keep ranks justified. -/
theorem Earned.move {D : Scope} {misuses connects loads : Prop} {modpw adminpw : Bytes}
    (he : Earned modpw adminpw s) (h : s.Consistent) (hm : Move D misuses connects loads s s') :
  Earned modpw adminpw s'
  := by
  obtain ⟨hmodpw, hadminpw, hranks⟩ := he
  cases hm with
  | @small l hl =>
      have hkept := hl.kept h
      refine ⟨hkept.modpw.trans hmodpw, hkept.adminpw.trans hadminpw, ?_⟩
      intro q cl' hq
      obtain ⟨cl, hcl, hws, -, hrank | hj⟩ := hl.client h hq
      · rw [hrank]
        exact (hranks q cl hcl).kept hws hkept.modpw hkept.adminpw hkept.log
      · exact hj.kept hws hkept.modpw hkept.adminpw hkept.log
  | misuse => exact ⟨hmodpw, hadminpw, hranks⟩
  | openWs => exact ⟨hmodpw, hadminpw, hranks⟩
  | countUp => exact ⟨hmodpw, hadminpw, hranks⟩
  | captcha => exact ⟨hmodpw, hadminpw, hranks⟩
  | @join ws si p name wp w _ _ _ _ hwp =>
      refine ⟨hmodpw, hadminpw, ?_⟩
      intro q cl hq
      obtain ⟨-, rfl⟩ | ⟨-, hq⟩ := Table.update_eq_some.mp hq
      · exact Or.inl (h.guest_rank hwp ws)
      · exact hranks q cl hq
  | @found ws si p name wp =>
      refine ⟨hmodpw, hadminpw, ?_⟩
      intro q cl hq
      obtain ⟨-, rfl⟩ | ⟨-, hq⟩ := Table.update_eq_some.mp hq
      · left
        show (if (World.new s.path name s.disk).1.pass = [] then
          (World.new s.path name s.disk).1.defaultRank else Rank.none) ≤ Rank.user
        rw [(World.new_room s.path name s.disk).2]
        split <;> decide
      · exact hranks q cl hq
  | flush => exact ⟨hmodpw, hadminpw, hranks⟩
  | @freeClient i p =>
      refine ⟨hmodpw, hadminpw, ?_⟩
      intro q cl hq
      have hq' : Function.update s.clients p none q = some cl := hq
      rw [Function.update_apply] at hq'
      split at hq'
      · cases hq'
      · exact hranks q cl hq'
  | freeWorld => exact ⟨hmodpw, hadminpw, hranks⟩
  | dropServer => exact ⟨hmodpw, hadminpw, hranks⟩
  | close => exact ⟨hmodpw, hadminpw, hranks⟩
  | exit => exact ⟨hmodpw, hadminpw, hranks⟩
  | advance => exact ⟨hmodpw, hadminpw, hranks⟩
  | rehash => exact ⟨hmodpw, hadminpw, hranks⟩

/-! ### The log knows clients by their connections -/

/-- Something was logged for the connection. -/
def LoggedFor (s : Server) (ws : Ws) : Prop :=
  (∃ args, .exec ws args ∈ s.log) ∨ ∃ rank, .setrank rank ws ∈ s.log

/-- What is logged for a connection is logged for its player: the connection has been made, and
if it is still open it has a player. -/
def Logged (s : Server) : Prop :=
  ∀ ws, s.LoggedFor ws → ws < s.nextWs ∧ ∀ si, s.infos ws = some si → ∃ p, si.player = some p

omit [Platform] in
/-- More in the log, for clients that are there, and connections that keep their players. -/
theorem Logged.grow (hL : s.Logged) (h : s.Consistent) (hnextWs : s.nextWs ≤ s'.nextWs)
    (hlog : ∀ ws, s'.LoggedFor ws → s.LoggedFor ws ∨ ∃ p cl, s.Live p cl ∧ cl.ws = ws)
    (hinfos : ∀ ws si', ws < s.nextWs → s'.infos ws = some si' →
      ∃ si, s.infos ws = some si ∧ ∀ p, si.player = some p → si'.player = some p) :
  s'.Logged
  := by
  intro ws hws
  have hthere : ws < s.nextWs ∧ ∀ si, s.infos ws = some si → ∃ p, si.player = some p := by
    obtain hold | ⟨p, cl, hp, rfl⟩ := hlog ws hws
    · exact hL ws hold
    · obtain ⟨si, hsi, hplayer⟩ := h.info_of_live hp
      refine ⟨h.registry.lt_nextWs (h.mem_connsws.mpr ⟨si, hsi⟩), ?_⟩
      intro si' hsi'
      obtain rfl : si = si' := Option.some.inj (hsi.symm.trans hsi')
      exact ⟨p, hplayer⟩
  refine ⟨lt_of_lt_of_le hthere.1 hnextWs, ?_⟩
  intro si' hsi'
  obtain ⟨si, hsi, hsame⟩ := hinfos ws si' hthere.1 hsi'
  obtain ⟨p, hp⟩ := hthere.2 si hsi
  exact ⟨p, hsame p hp⟩

omit [Platform] in
/-- The same log and the same connections. -/
theorem Logged.same (hL : s.Logged) (hnextWs : s'.nextWs = s.nextWs) (hlog : s'.log = s.log)
    (hinfos : s'.infos = s.infos) :
  s'.Logged
  := by
  rw [Logged, hnextWs, hinfos]
  intro ws hws
  rw [LoggedFor, hlog] at hws
  exact hL ws hws

theorem Allowed.logged {D : Scope} {l : Label} (hl : Allowed D s l) (h : s.Consistent)
    (hL : s.Logged) :
  (l.step s).Logged
  := by
  have hnote : ∀ (more : List Action), (∀ a ∈ more, (∃ ws op msg, a = .send ws op msg) ∨
      (∃ name e, a = .edit name e) ∨ (∃ l a' g c, a = .gone l a' g c)) →
      ∀ t : Server, t.log = s.log ++ more → ∀ ws, t.LoggedFor ws → s.LoggedFor ws := by
    intro more hmore t ht ws hws
    rw [LoggedFor, ht] at hws
    obtain ⟨args, hmem⟩ | ⟨rank, hmem⟩ := hws
    · obtain hmem | hmem := List.mem_append.mp hmem
      · exact Or.inl ⟨args, hmem⟩
      · obtain ⟨_, _, _, heq⟩ | ⟨_, _, heq⟩ | ⟨_, _, _, _, heq⟩ := hmore _ hmem <;> cases heq
    · obtain hmem | hmem := List.mem_append.mp hmem
      · exact Or.inr ⟨rank, hmem⟩
      · obtain ⟨_, _, _, heq⟩ | ⟨_, _, heq⟩ | ⟨_, _, _, _, heq⟩ := hmore _ hmem <;> cases heq
  have hkeep : ∀ ws (si : SocketInfo), ws < s.nextWs → s.infos ws = some si →
      ∃ si', s.infos ws = some si' ∧ ∀ p, si'.player = some p → si.player = some p :=
    fun ws si _ hsi => ⟨si, hsi, fun _ hp => hp⟩
  cases hl with
  | @send ws op msg =>
      refine hL.grow h le_rfl (fun ws' hws' => Or.inl ?_) hkeep
      exact hnote [.send ws op msg] (by simp) (s.note (.send ws op msg)) rfl ws' hws'
  | @gone _ admin guarded counted =>
      refine hL.grow h le_rfl (fun ws' hws' => Or.inl ?_) hkeep
      refine hnote [.gone s.lockdown admin guarded counted] ?_
        (s.lift admin guarded counted) rfl ws' hws'
      intro b hb
      exact Or.inr (Or.inr ⟨_, _, _, _, List.mem_singleton.mp hb⟩)
  | @exec p cl args hp =>
      refine hL.grow h le_rfl ?_ hkeep
      rintro ws' (⟨args', hmem⟩ | ⟨rank, hmem⟩)
      · obtain hmem | hmem := List.mem_append.mp hmem
        · exact Or.inl (Or.inl ⟨args', hmem⟩)
        · cases List.mem_singleton.mp hmem
          exact Or.inr ⟨p, cl, hp, rfl⟩
      · obtain hmem | hmem := List.mem_append.mp hmem
        · exact Or.inl (Or.inr ⟨rank, hmem⟩)
        · cases List.mem_singleton.mp hmem
  | @setrank p cl rank hp =>
      refine hL.grow h le_rfl ?_ hkeep
      rintro ws' (⟨args', hmem⟩ | ⟨rank', hmem⟩)
      · obtain hmem | hmem := List.mem_append.mp hmem
        · exact Or.inl (Or.inl ⟨args', hmem⟩)
        · cases List.mem_singleton.mp hmem
      · obtain hmem | hmem := List.mem_append.mp hmem
        · exact Or.inl (Or.inr ⟨rank', hmem⟩)
        · cases List.mem_singleton.mp hmem
          exact Or.inr ⟨p, cl, hp, rfl⟩
  | change hp =>
      rw [Label.step, change_eq _ hp.1]
      exact hL.same rfl rfl rfl
  | place hp =>
      obtain ⟨w, hw, -⟩ := h.world_of_live hp
      rw [Label.step, place_eq _ hp.1 hw]
      exact hL.same rfl rfl rfl
  | @act wp w a hwp =>
      have hstep := perform_eq a hwp
      refine hL.grow h (by rw [Label.step, hstep]) (fun ws' hws' => Or.inl ?_) ?_
      · refine hnote _ ?_ (s.perform wp a) (by rw [hstep]) ws' hws'
        intro b hb
        obtain ⟨e, -, rfl⟩ := List.mem_map.mp hb
        exact Or.inr (Or.inl ⟨_, _, rfl⟩)
      · rw [Label.step, hstep]
        exact hkeep
  | @drop ws si hws =>
      have hkept := kept_drop h hws
      have hlog : (s.drop ws).log = s.log := by rw [drop_rest h hws]
      refine hL.grow h (le_of_eq hkept.nextWs.symm) (fun ws' hws' => Or.inl ?_) ?_
      · rw [Label.step, LoggedFor, hlog] at hws'
        exact hws'
      · intro ws' si' _ hsi'
        rw [Label.step, infos_drop h hws, Function.update_apply] at hsi'
        split at hsi'
        · cases hsi'
        · exact ⟨si', hsi', fun _ hp => hp⟩
  | config => exact hL.same rfl rfl rfl
  | lockdown => exact hL.same rfl rfl rfl
  | lists => exact hL.same rfl rfl rfl
  | eraseConns => exact hL.same rfl rfl rfl
  | save hwp =>
      rw [Label.step, saveWorld_eq hwp]
      exact hL.same rfl rfl rfl
  | files => exact hL.same rfl rfl rfl

theorem Logged.move {D : Scope} {misuses connects loads : Prop} (hL : s.Logged) (h : s.Consistent)
    (hm : Move D misuses connects loads s s') :
  s'.Logged
  := by
  cases hm with
  | small hl => exact hl.logged h hL
  | misuse => exact hL.same rfl rfl rfl
  | @openWs ip state =>
      refine hL.grow h (Nat.le_succ _) (fun _ hws => Or.inl hws) ?_
      intro ws si' hlt hsi'
      have hne : ws ≠ s.nextWs := Nat.ne_of_lt hlt
      obtain ⟨heq, -⟩ | ⟨-, hsi'⟩ := Table.update_eq_some.mp hsi'
      · exact absurd heq hne
      · exact ⟨si', hsi', fun _ hp => hp⟩
  | countUp => exact hL.same rfl rfl rfl
  | @captcha ws si state hws =>
      refine hL.grow h le_rfl (fun _ hws => Or.inl hws) ?_
      intro ws' si' _ hsi'
      obtain ⟨rfl, rfl⟩ | ⟨-, hsi'⟩ := Table.update_eq_some.mp hsi'
      · exact ⟨si, hws, fun _ hp => hp⟩
      · exact ⟨si', hsi', fun _ hp => hp⟩
  | @join ws si p name wp w hws hplayer =>
      refine hL.grow h le_rfl (fun _ hws => Or.inl hws) ?_
      intro ws' si' _ hsi'
      obtain ⟨rfl, rfl⟩ | ⟨-, hsi'⟩ := Table.update_eq_some.mp hsi'
      · exact ⟨si, hws, fun q hq => by rw [hplayer] at hq; cases hq⟩
      · exact ⟨si', hsi', fun _ hp => hp⟩
  | @found ws si p name wp hl hws hplayer =>
      refine hL.grow h le_rfl (fun _ hws => Or.inl hws) ?_
      intro ws' si' _ hsi'
      obtain ⟨rfl, rfl⟩ | ⟨-, hsi'⟩ := Table.update_eq_some.mp hsi'
      · exact ⟨si, hws, fun q hq => by rw [hplayer] at hq; cases hq⟩
      · exact ⟨si', hsi', fun _ hp => hp⟩
  | flush => exact hL.same rfl rfl rfl
  | freeClient => exact hL.same rfl rfl rfl
  | freeWorld => exact hL.same rfl rfl rfl
  | dropServer => exact hL.same rfl rfl rfl
  | close => exact hL.same rfl rfl rfl
  | exit => exact hL.same rfl rfl rfl
  | advance => exact hL.same rfl rfl rfl
  | rehash => exact hL.same rfl rfl rfl

/-- In every run, nothing is logged for a connection before it has a player. -/
theorem logged_runs (modpw adminpw path : Bytes) (d : Disk) (clock : ℚ) (events : List Event) :
  ((Server.new modpw adminpw path d clock).runs events).Logged
  := by
  have hnew : (Server.new modpw adminpw path d clock).Logged := by
    rintro ws (⟨args, hmem⟩ | ⟨rank, hmem⟩)
    · cases hmem
    · cases hmem
  exact runs_keep (consistent_new modpw adminpw path d clock) hnew
    (fun ht hL hm => hL.move ht hm) events

/-! ### Privileges -/

/-- Administrators logged in as such; who is at least a moderator logged in as a moderator or an
administrator, or an administrator set its rank.  A client is known by its connection; nothing is
logged for it before the client is there. -/
def Authorized (modpw adminpw : Bytes) (s : Server) : Prop :=
  ∀ p cl, s.clients p = some cl →
    (cl.rank = Rank.admin → .exec cl.ws [ofString "adminlogin", adminpw] ∈ s.log) ∧
    (Rank.moderator ≤ cl.rank →
      .exec cl.ws [ofString "modlogin", modpw] ∈ s.log ∨
      .exec cl.ws [ofString "adminlogin", adminpw] ∈ s.log ∨
      .setrank Rank.admin cl.ws ∈ s.log)

omit [Platform] in
theorem Earned.authorized {modpw adminpw : Bytes} (he : Earned modpw adminpw s) :
  Authorized modpw adminpw s
  := by
  obtain ⟨rfl, rfl, hranks⟩ := he
  intro p cl hcl
  constructor
  · intro hadmin
    obtain huser | ⟨hr, -⟩ | ⟨-, hlogin⟩ | ⟨hr, -⟩ := hranks p cl hcl
    · rw [hadmin] at huser
      exact absurd huser (by decide)
    · rw [hadmin] at hr
      exact absurd hr (by decide)
    · exact hlogin
    · rw [hadmin] at hr
      exact absurd hr (by decide)
  · intro hmod
    obtain huser | ⟨-, hlogin⟩ | ⟨-, hlogin⟩ | ⟨-, hset⟩ := hranks p cl hcl
    · exact absurd (UInt8.le_trans hmod huser) (by decide)
    · exact Or.inl hlogin
    · exact Or.inr (Or.inl hlogin)
    · exact Or.inr (Or.inr hset)

/-- No client gets a privilege without a login or an administrator, in any run. -/
theorem authorized_runs (modpw adminpw path : Bytes) (d : Disk) (clock : ℚ)
    (events : List Event) :
  Authorized modpw adminpw ((Server.new modpw adminpw path d clock).runs events)
  := by
  have hnew : Earned modpw adminpw (Server.new modpw adminpw path d clock) :=
    ⟨rfl, rfl, fun p cl hcl => by cases hcl⟩
  have hrun := runs_keep (consistent_new modpw adminpw path d clock) hnew
    (fun ht he hm => he.move ht hm) events
  exact hrun.authorized

end Server

end Owop
