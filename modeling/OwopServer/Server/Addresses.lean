import OwopServer.Library.Counters
import OwopServer.Server.Steps

/-!
# Counting connections

How many connections an address has open, next to what the server counts for it.  Every
disconnection is counted, but not every connection, and a counter has only one byte.
-/

namespace Owop

open Bytes (ofString)

namespace Server

variable {s s' : Server}

/-! ### Open connections -/

/-- How many connections from an address are open. -/
def openFrom (s : Server) (ip : Bytes) : ℕ := s.connsws.countP (s.comesFrom ip)

/-- The counters count the open connections. -/
def Accounted (s : Server) : Prop := Counters.Represents s.conns s.openFrom

/-- The address of a connection that is open. -/
theorem comesFrom_of_info {ws : Ws} {si : SocketInfo} (hws : s.infos ws = some si) (ip : Bytes) :
  s.comesFrom ip ws = decide (si.ip = ip)
  := by
  rw [comesFrom, hws, Option.any_some]

/-- The address of a connection is the same. -/
theorem comesFrom_congr {ws : Ws} (ip : Bytes)
    (hip : (s'.infos ws).map SocketInfo.ip = (s.infos ws).map SocketInfo.ip) :
  s'.comesFrom ip ws = s.comesFrom ip ws
  := by
  have hany : ∀ o : Option SocketInfo, (o.any fun si => decide (si.ip = ip))
      = (o.map SocketInfo.ip).any fun ip' => decide (ip' = ip) := by
    intro o
    cases o <;> rfl
  rw [comesFrom, comesFrom, hany, hany, hip]

/-- The same connections from the same addresses. -/
theorem openFrom_congr (hconnsws : s'.connsws.Perm s.connsws)
    (hips : ∀ ws, (s'.infos ws).map SocketInfo.ip = (s.infos ws).map SocketInfo.ip) :
  s'.openFrom = s.openFrom
  := by
  funext ip
  have hcomes : s'.comesFrom ip = s.comesFrom ip := by
    funext ws
    exact comesFrom_congr ip (hips ws)
  rw [openFrom, openFrom, hcomes, hconnsws.countP_eq]

/-- The addresses of the connections when one has another `SocketInfo` with its address. -/
theorem ips_update {ws : Ws} {si si' : SocketInfo} (hws : s.infos ws = some si)
    (hip : si'.ip = si.ip) (ws' : Ws) :
  (Function.update s.infos ws (some si') ws').map SocketInfo.ip = (s.infos ws').map SocketInfo.ip
  := by
  rw [Function.update_apply]
  split
  case isTrue heq => rw [heq, hws, Option.map_some, Option.map_some, hip]
  case isFalse => rfl

/-- No connection from an address is open. -/
theorem openFrom_eq_zero {ip : Bytes} (h : s.Consistent) :
  s.openFrom ip = 0 ↔ ∀ ws si, s.infos ws = some si → si.ip ≠ ip
  := by
  rw [openFrom, List.countP_eq_zero]
  constructor
  · intro hnone ws si hsi
    have hcomes := hnone ws (h.mem_connsws.mpr ⟨si, hsi⟩)
    rw [comesFrom_of_info hsi, decide_eq_true_eq] at hcomes
    exact hcomes
  · intro hnone ws hws
    obtain ⟨si, hsi⟩ := h.mem_connsws.mp hws
    rw [comesFrom_of_info hsi, decide_eq_true_eq]
    exact hnone ws si hsi

/-- A connection more. -/
theorem openFrom_openWs (ip : Bytes) (state : CaptchaState) (h : s.Consistent) :
  (s.openWs ip state).openFrom = Function.update s.openFrom ip (s.openFrom ip + 1)
  := by
  funext ip'
  have hnew : (s.openWs ip state).comesFrom ip' s.nextWs = decide (ip = ip') :=
    comesFrom_of_info (infos_openWs s ip state) ip'
  have hold : s.connsws.countP ((s.openWs ip state).comesFrom ip') = s.openFrom ip' := by
    apply List.countP_congr
    intro ws hws
    have hne : ws ≠ s.nextWs := Nat.ne_of_lt (h.registry.lt_nextWs hws)
    have hinfo : (s.openWs ip state).infos ws = s.infos ws := Function.update_of_ne hne _ _
    rw [comesFrom_congr ip' (congrArg _ hinfo)]
  have hconnsws : (s.openWs ip state).connsws = s.connsws ++ [s.nextWs] := rfl
  rw [openFrom, hconnsws, List.countP_append, hold, List.countP_singleton, hnew,
    Function.update_apply]
  split
  case isTrue heq =>
    rw [decide_eq_true_eq] at heq
    rw [heq, if_pos rfl]
  case isFalse hne =>
    rw [decide_eq_true_eq] at hne
    rw [if_neg fun heq => hne heq.symm]
    rfl

/-- A connection less. -/
theorem openFrom_drop {ws : Ws} {si : SocketInfo} (h : s.Consistent) (hws : s.infos ws = some si) :
  0 < s.openFrom si.ip ∧
    (s.drop ws).openFrom = Function.update s.openFrom si.ip (s.openFrom si.ip - 1)
  := by
  have hmem : ws ∈ s.connsws := h.mem_connsws.mpr ⟨si, hws⟩
  have hnodup : s.connsws.Nodup := h.registry.connsws_nodup
  have hconnsws : (s.drop ws).connsws = s.connsws.erase ws := by
    rw [drop_rest h hws, hnodup.erase_eq_filter]
    apply List.filter_congr
    intro ws' _
    rw [Bool.eq_iff_iff, decide_eq_true_iff, bne_iff_ne]
  have hcount : ∀ ip, s.openFrom ip
      = (s.drop ws).openFrom ip + if si.ip = ip then 1 else 0 := by
    intro ip
    have hrest : (s.connsws.erase ws).countP (s.comesFrom ip) = (s.drop ws).openFrom ip := by
      rw [openFrom, hconnsws]
      apply List.countP_congr
      intro ws' hws'
      have hne : ws' ≠ ws := (hnodup.mem_erase_iff.mp hws').1
      have hinfo : s.infos ws' = (s.drop ws).infos ws' := by
        rw [infos_drop h hws, Function.update_of_ne hne]
      rw [comesFrom_congr ip (congrArg _ hinfo)]
    rw [openFrom, (List.perm_cons_erase hmem).countP_eq, List.countP_cons, hrest,
      comesFrom_of_info hws]
    simp only [decide_eq_true_eq]
  constructor
  · rw [hcount si.ip, if_pos rfl]
    exact Nat.succ_pos _
  · funext ip
    rw [Function.update_apply]
    split
    case isTrue heq => rw [heq, hcount si.ip, if_pos rfl, Nat.add_sub_cancel]
    case isFalse hne => rw [hcount ip, if_neg fun heq => hne heq.symm, Nat.add_zero]

variable [Platform]

/-- Closing a connection. -/
theorem openFrom_closeWs {ws : Ws} {si : SocketInfo} (h : s.Consistent)
    (hws : s.infos ws = some si) :
  (s.closeWs ws).openFrom = Function.update s.openFrom si.ip (s.openFrom si.ip - 1) ∧
    (s.closeWs ws).conns = Counters.lower s.conns si.ip ∧
    (s.closeWs ws).ipban = s.ipban
  := by
  rw [closeWs_checked h hws, drop_rest h hws, ← (openFrom_drop h hws).2]
  refine ⟨?_, rfl, rfl⟩
  apply openFrom_congr
  · rw [drop_rest h hws]
  · intro ws'
    rw [drop_rest h hws]

/-! ### Moves that make no connection -/

/-- What a small step does to connections and counters: nothing, or a connection is closed and
counted less, or the counter of an address without connections is erased. -/
theorem Allowed.net {D : Scope} {l : Label} (hl : Allowed D s l) (h : s.Consistent) :
  ((l.step s).connsws = s.connsws ∧ (l.step s).infos = s.infos ∧ (l.step s).conns = s.conns) ∨
    (∃ ws si, s.infos ws = some si ∧ l.step s = s.drop ws) ∨
    ∃ ip, s.openFrom ip = 0 ∧ l.step s = { s with conns := s.conns.erase ip }
  := by
  cases hl with
  | send => exact Or.inl ⟨rfl, rfl, rfl⟩
  | gone => exact Or.inl ⟨rfl, rfl, rfl⟩
  | exec => exact Or.inl ⟨rfl, rfl, rfl⟩
  | setrank => exact Or.inl ⟨rfl, rfl, rfl⟩
  | change hp =>
      rw [Label.step, change_eq _ hp.1]
      exact Or.inl ⟨rfl, rfl, rfl⟩
  | place hp =>
      obtain ⟨w, hw, -⟩ := h.world_of_live hp
      rw [Label.step, place_eq _ hp.1 hw]
      exact Or.inl ⟨rfl, rfl, rfl⟩
  | act hwp =>
      rw [Label.step, perform_eq _ hwp]
      exact Or.inl ⟨rfl, rfl, rfl⟩
  | @drop ws si hws => exact Or.inr (Or.inl ⟨ws, si, hws, rfl⟩)
  | config => exact Or.inl ⟨rfl, rfl, rfl⟩
  | lockdown => exact Or.inl ⟨rfl, rfl, rfl⟩
  | lists => exact Or.inl ⟨rfl, rfl, rfl⟩
  | @eraseConns ip hip => exact Or.inr (Or.inr ⟨ip, (openFrom_eq_zero h).mpr hip, rfl⟩)
  | save hwp =>
      rw [Label.step, saveWorld_eq hwp]
      exact Or.inl ⟨rfl, rfl, rfl⟩
  | files => exact Or.inl ⟨rfl, rfl, rfl⟩

/-- The same for moves that make no connection. -/
theorem Move.net {D : Scope} {misuses connects loads : Prop} (hm : Move D misuses connects loads s s')
    (h : s.Consistent) (hc : ¬ connects) :
  s'.openFrom = s.openFrom ∧ s'.conns = s.conns ∨
    (∃ ws si, s.infos ws = some si ∧ s' = s.drop ws) ∨
    ∃ ip, s.openFrom ip = 0 ∧ s' = { s with conns := s.conns.erase ip }
  := by
  have hsame : ∀ t : Server, t.connsws = s.connsws → t.infos = s.infos →
      t.openFrom = s.openFrom := by
    intro t hconnsws hinfos
    exact openFrom_congr (by rw [hconnsws]) fun ws => by rw [hinfos]
  cases hm with
  | small hl =>
      obtain ⟨hconnsws, hinfos, hconns⟩ | hrest := hl.net h
      · exact Or.inl ⟨hsame _ hconnsws hinfos, hconns⟩
      · exact Or.inr hrest
  | misuse => exact Or.inl ⟨hsame _ rfl rfl, rfl⟩
  | openWs hconnects => exact absurd hconnects hc
  | countUp hconnects => exact absurd hconnects hc
  | captcha hws => exact Or.inl ⟨openFrom_congr List.Perm.rfl (ips_update hws rfl), rfl⟩
  | join hws => exact Or.inl ⟨openFrom_congr List.Perm.rfl (ips_update hws rfl), rfl⟩
  | found _ hws => exact Or.inl ⟨openFrom_congr List.Perm.rfl (ips_update hws rfl), rfl⟩
  | flush => exact Or.inl ⟨hsame _ rfl rfl, rfl⟩
  | freeClient => exact Or.inl ⟨hsame _ rfl rfl, rfl⟩
  | freeWorld => exact Or.inl ⟨hsame _ rfl rfl, rfl⟩
  | dropServer => exact Or.inl ⟨hsame _ rfl rfl, rfl⟩
  | close => exact Or.inl ⟨hsame _ rfl rfl, rfl⟩
  | exit => exact Or.inl ⟨hsame _ rfl rfl, rfl⟩
  | advance => exact Or.inl ⟨hsame _ rfl rfl, rfl⟩
  | rehash hperm => exact Or.inl ⟨openFrom_congr hperm fun _ => rfl, rfl⟩

/-- Moves that make no connection keep the counters right. -/
theorem Accounted.move {D : Scope} {misuses connects loads : Prop} (ha : s.Accounted)
    (h : s.Consistent) (hc : ¬ connects) (hm : Move D misuses connects loads s s') :
  s'.Accounted
  := by
  obtain ⟨hopen, hconns⟩ | ⟨ws, si, hws, rfl⟩ | ⟨ip, hip, rfl⟩ := hm.net h hc
  · rw [Accounted, hopen, hconns]
    exact ha
  · obtain ⟨hpos, hopen⟩ := openFrom_drop h hws
    have hconns : (s.drop ws).conns = Counters.lower s.conns si.ip := by
      rw [drop_rest h hws]
      rfl
    rw [Accounted, hopen, hconns]
    exact ha.lower hpos
  · exact Counters.Represents.erase ha hip

/-! ### Connecting -/

/-- A connection from the address would be counted and left open. -/
def admits (s : Server) (ip : Bytes) : Prop :=
  ¬ s.refuses ip ∧ ¬ s.crowded ip ∧ ¬ s.closesFast ip

omit [Platform] in
/-- Asking for a captcha leaves connections, counters and bans alone. -/
theorem requestCaptcha_net (s : Server) (ws : Ws) :
  (s.requestCaptcha ws).openFrom = s.openFrom ∧ (s.requestCaptcha ws).conns = s.conns ∧
    (s.requestCaptcha ws).ipban = s.ipban
  := by
  rw [requestCaptcha, withInfo]
  split
  case h_1 si hws =>
    rw [send_sent _ _ hws]
    exact ⟨rfl, rfl, rfl⟩
  case h_2 => exact ⟨rfl, rfl, rfl⟩

/-- A new connection that is told something and closed. -/
theorem openFrom_turnedAway {t : Server} {ws : Ws} {si : SocketInfo} {n : Bytes → ℕ}
    (msg : Bytes) (ht : t.Consistent) (hws : t.infos ws = some si)
    (hopen : t.openFrom = Function.update n si.ip (n si.ip + 1)) :
  ((t.send ws .text msg).closeWs ws).openFrom = n ∧
    ((t.send ws .text msg).closeWs ws).conns = Counters.lower t.conns si.ip ∧
    ((t.send ws .text msg).closeWs ws).ipban = t.ipban
  := by
  rw [send_sent _ _ hws]
  have hsent : (t.sent ws [(.text, msg)]).Consistent :=
    ⟨ht.registry, ht.defaultRank, ht.origin, ht.proxies⟩
  have hopen' : (t.sent ws [(.text, msg)]).openFrom = Function.update n si.ip (n si.ip + 1) :=
    hopen
  obtain ⟨hclosed, hconns, hipban⟩ := openFrom_closeWs hsent hws
  refine ⟨?_, hconns, hipban⟩
  rw [hclosed, hopen', Function.update_self, Nat.add_sub_cancel, Function.update_idem,
    Function.update_eq_self]

/-- A connection that is refused is not counted, but its end is. -/
theorem onConnection_refuses {address : Bytes} (h : s.Consistent)
    (hrefuses : s.refuses (stripIp address)) :
  (s.onConnection address).openFrom = s.openFrom ∧
    (s.onConnection address).conns = Counters.lower s.conns (stripIp address) ∧
    (s.onConnection address).ipban = s.ipban
  := by
  have hopen : Move Scope.all True True True s
      (s.openWs (stripIp address) (s.captchaFor (stripIp address))) := .openWs trivial
  rw [onConnection_refused rfl hrefuses]
  exact openFrom_turnedAway _ (h.move hopen) (infos_openWs s _ _) (openFrom_openWs _ _ h)

omit [Platform] in
/-- Who arrives is counted. -/
theorem openFrom_arrival (ip : Bytes) (h : s.Consistent) :
  (s.arrival ip).openFrom = Function.update s.openFrom ip (s.openFrom ip + 1)
  := openFrom_openWs ip (s.captchaFor ip) h

omit [Platform] in
/-- Who arrives has a connection. -/
theorem infos_arrival (s : Server) (ip : Bytes) :
  (s.arrival ip).infos s.nextWs = some ⟨[], ip, none, s.captchaFor ip⟩
  := infos_openWs s ip (s.captchaFor ip)

/-- A connection that comes too fast and is closed for that. -/
theorem fastConnect_closes {ip : Bytes} (h : s.Consistent) (hfast : s.closesFast ip) :
  ((s.arrival ip).fastConnect s.nextWs ip).openFrom = s.openFrom ∧
    ((s.arrival ip).fastConnect s.nextWs ip).conns
      = Counters.lower (Counters.raise s.conns ip) ip ∧
    s.ipban ⊆ ((s.arrival ip).fastConnect s.nextWs ip).ipban
  := by
  have harrival : Moves Scope.all True True True s (s.arrival ip) := arrival_moves ip
  have h₁ := harrival.consistent h
  have hclose : ∀ t : Server, t.Consistent → t.infos = (s.arrival ip).infos →
      t.openFrom = (s.arrival ip).openFrom → t.conns = (s.arrival ip).conns →
      (t.closeWs s.nextWs).openFrom = s.openFrom ∧
        (t.closeWs s.nextWs).conns = Counters.lower (Counters.raise s.conns ip) ip ∧
        (t.closeWs s.nextWs).ipban = t.ipban := by
    intro t ht hinfos hopen hconns
    have hws : t.infos s.nextWs = some ⟨[], ip, none, s.captchaFor ip⟩ := by
      rw [hinfos, infos_arrival]
    obtain ⟨hclosed, hconns', hipban⟩ := openFrom_closeWs ht hws
    refine ⟨?_, ?_, hipban⟩
    · rw [hclosed, hopen, openFrom_arrival ip h, Function.update_self, Nat.add_sub_cancel,
        Function.update_idem, Function.update_eq_self]
    · rw [hconns', hconns]
      rfl
  have haction : (s.arrival ip).fastconnectaction = s.fastconnectaction := rfl
  rw [fastConnect, haction]
  obtain hone | htwo := hfast.2.2.2
  · rw [hone, if_neg (by decide), if_neg (by decide), if_pos rfl]
    obtain ⟨hopen, hconns, hipban⟩ := hclose _ h₁ rfl rfl rfl
    refine ⟨hopen, hconns, ?_⟩
    rw [hipban]
    exact List.Subset.refl _
  · rw [htwo, if_neg (by decide), if_pos rfl]
    obtain ⟨hban, hn⟩ := ban_spec (D := Scope.all) ip h₁
    have hsame : ((s.arrival ip).ban ip).openFrom = (s.arrival ip).openFrom :=
      openFrom_congr (by rw [hn]) fun ws => by rw [hn]
    obtain ⟨hopen, hconns, hipban⟩ :=
      hclose _ (hban.consistent h₁) hn.same.1 hsame (by rw [hn])
    refine ⟨hopen, hconns, ?_⟩
    have hipban' : ((s.arrival ip).ban ip).ipban = s.ipban.insert ip := congrArg Server.ipban hn
    rw [hipban, hipban']
    exact fun a ha => List.mem_insert_of_mem ha

/-- A connection that is one too many, or comes too fast and is closed for that, is counted, and
so is its end. -/
theorem onConnection_turnsAway {address : Bytes} (h : s.Consistent)
    (hrefuses : ¬ s.refuses (stripIp address)) (hadmits : ¬ s.admits (stripIp address)) :
  (s.onConnection address).openFrom = s.openFrom ∧
    (s.onConnection address).conns
      = Counters.lower (Counters.raise s.conns (stripIp address)) (stripIp address) ∧
    s.ipban ⊆ (s.onConnection address).ipban
  := by
  generalize hip : stripIp address = ip at hrefuses hadmits
  by_cases hcrowded : s.crowded ip
  · have hopen : Move Scope.all True True True s (s.openWs ip (s.captchaFor ip)) := .openWs trivial
    have hcount : Move Scope.all True True True (s.openWs ip (s.captchaFor ip))
        ((s.openWs ip (s.captchaFor ip)).countUp ip) := .countUp trivial
    rw [onConnection_crowded hip hrefuses hcrowded]
    obtain ⟨hopen', hconns, hipban⟩ := openFrom_turnedAway (s.crowdedText ip)
      ((h.move hopen).move hcount) (infos_openWs s ip _) (openFrom_openWs ip _ h)
    exact ⟨hopen', hconns, hipban ▸ List.Subset.refl _⟩
  · have hfast : s.closesFast ip := by
      by_contra hfast
      exact hadmits ⟨hrefuses, hcrowded, hfast⟩
    rw [onConnection_admitted hip hrefuses hcrowded, if_neg (by rw [hfast.2.2.1]; simp)]
    obtain ⟨hopen, hconns, hipban⟩ := fastConnect_closes h hfast
    obtain ⟨hopen', hconns', hipban'⟩ :=
      requestCaptcha_net ((s.arrival ip).fastConnect s.nextWs ip) s.nextWs
    rw [hopen', hconns', hipban']
    exact ⟨hopen, hconns, hipban⟩

omit [Platform] in
/-- A connection that is admitted is counted. -/
theorem onConnection_admits {address : Bytes} (h : s.Consistent)
    (hadmits : s.admits (stripIp address)) :
  (s.onConnection address).openFrom
      = Function.update s.openFrom (stripIp address) (s.openFrom (stripIp address) + 1) ∧
    (s.onConnection address).conns = Counters.raise s.conns (stripIp address) ∧
    (s.onConnection address).ipban = s.ipban
  := by
  generalize hip : stripIp address = ip at hadmits
  obtain ⟨hrefuses, hcrowded, hfast⟩ := hadmits
  rw [onConnection_admitted hip hrefuses hcrowded]
  have hstays : ∀ t : Server, t.openFrom = (s.arrival ip).openFrom → t.conns = (s.arrival ip).conns →
      t.ipban = s.ipban → (t.requestCaptcha s.nextWs).openFrom
          = Function.update s.openFrom ip (s.openFrom ip + 1) ∧
        (t.requestCaptcha s.nextWs).conns = Counters.raise s.conns ip ∧
        (t.requestCaptcha s.nextWs).ipban = s.ipban := by
    intro t hopen hconns hipban
    obtain ⟨hopen', hconns', hipban'⟩ := requestCaptcha_net t s.nextWs
    rw [hopen', hconns', hipban', hopen, hconns, hipban, openFrom_arrival ip h]
    exact ⟨rfl, rfl, rfl⟩
  split
  case isTrue => exact hstays _ rfl rfl rfl
  case isFalse hslow =>
    have hone : ¬ s.fastconnectaction = 1 := fun haction =>
      hfast ⟨hrefuses, hcrowded, Bool.eq_false_of_not_eq_true hslow, Or.inl haction⟩
    have htwo : ¬ s.fastconnectaction = 2 := fun haction =>
      hfast ⟨hrefuses, hcrowded, Bool.eq_false_of_not_eq_true hslow, Or.inr haction⟩
    have haction : (s.arrival ip).fastconnectaction = s.fastconnectaction := rfl
    rw [fastConnect, haction]
    split
    · have hinfo := infos_arrival s ip
      rw [withInfo_eq _ hinfo]
      exact hstays _ (openFrom_congr List.Perm.rfl (ips_update hinfo rfl)) rfl rfl
    · exact hstays _ rfl rfl rfl

/-! ### Counters in runs -/

/-- The event leaves the counters right.  A connection does not if it is refused while its
address has others open, or admitted when a byte cannot count it any more. -/
def countsRight (s : Server) : Event → Prop
  | .connect address =>
      s.exited = true ∨
        (s.refuses (stripIp address) → s.openFrom (stripIp address) = 0) ∧
          (s.admits (stripIp address) → s.openFrom (stripIp address) < 255)
  | _ => True

omit [Platform] in
/-- The count of an address is that of its counter. -/
theorem getConns_eq (s : Server) (ip : Bytes) :
  s.getConns ip = Counters.value s.conns ip
  := by
  rw [getConns, Counters.value]
  cases s.conns.lookup ip <;> rfl

/-- A connection while the server runs. -/
theorem step_connect {address : Bytes} (hexited : ¬ s.exited = true) :
  s.step (.connect address) = s.onConnection address
  := by
  rw [step.eq_def, if_neg hexited]

/-- An event other than a connection, or one after the end, moves without connecting. -/
theorem step_connects {e : Event} (hc : ¬ e.connects) (h : s.Consistent) :
  ∃ b, Moves (Scope.any b) (s.misuses e) False (s.loads e) s (s.step e)
  := by
  have hfalse : e.connects = False := eq_false hc
  have hmoves := step_moves e h
  rw [hfalse] at hmoves
  exact hmoves

/-- Events that are said to do so leave the counters right. -/
theorem Accounted.event {e : Event} (ha : s.Accounted) (h : s.Consistent)
    (he : s.countsRight e) :
  (s.step e).Accounted
  := by
  by_cases hc : e.connects
  · cases e with
    | connect address =>
        by_cases hexited : s.exited = true
        · rw [step.eq_def, if_pos hexited]
          exact ha
        obtain ⟨hzero, hless⟩ := he.resolve_left hexited
        rw [step_connect hexited]
        by_cases hrefuses : s.refuses (stripIp address)
        · obtain ⟨hopen, hconns, -⟩ := onConnection_refuses h hrefuses
          rw [Accounted, hopen, hconns, ha.lower_zero (hzero hrefuses)]
          exact ha
        by_cases hadmits : s.admits (stripIp address)
        · obtain ⟨hopen, hconns, -⟩ := onConnection_admits h hadmits
          rw [Accounted, hopen, hconns]
          exact ha.raise (Nat.succ_lt_succ (hless hadmits))
        · obtain ⟨hopen, hconns, -⟩ := onConnection_turnsAway h hrefuses hadmits
          rw [Accounted, hopen, hconns]
          exact ha.lower_raise _
    | _ => exact hc.elim
  · obtain ⟨b, hmoves⟩ := step_connects hc h
    exact (hmoves.keep h ha fun ht hat hm => hat.move ht id hm).2

/-- Other events make a counter wrong. -/
theorem Accounted.breaks {e : Event} (ha : s.Accounted) (h : s.Consistent)
    (he : ¬ s.countsRight e) :
  ¬ ∀ ip, (s.step e).getConns ip = (s.step e).openFrom ip
  := by
  intro hright
  cases e with
  | connect address =>
      have hexited : ¬ s.exited = true := fun hexited => he (Or.inl hexited)
      have hip := hright (stripIp address)
      rw [step_connect hexited, getConns_eq] at hip
      apply he
      right
      constructor
      · intro hrefuses
        obtain ⟨hopen, hconns, -⟩ := onConnection_refuses h hrefuses
        by_contra hpos
        have hlower := (ha.lower (Nat.pos_of_ne_zero hpos)).value (stripIp address)
        rw [hconns, hopen, hlower, Function.update_self] at hip
        exact absurd hip (Nat.ne_of_lt (Nat.pred_lt hpos))
      · intro hadmits
        obtain ⟨hopen, hconns, -⟩ := onConnection_admits h hadmits
        by_contra hfull
        have heq : s.openFrom (stripIp address) = 255 :=
          Nat.le_antisymm (Nat.le_of_lt_succ (ha _).1) (Nat.le_of_not_lt hfull)
        rw [hconns, hopen, ha.value_raise_full heq, Function.update_self] at hip
        exact absurd hip.symm (Nat.succ_ne_zero _)
  | _ => exact he trivial

/-- A server that has just been made has nothing to count. -/
theorem accounted_new (modpw adminpw path : Bytes) (d : Disk) (clock : ℚ) :
  (Server.new modpw adminpw path d clock).Accounted
  := by
  have hopen : (Server.new modpw adminpw path d clock).openFrom = fun _ => 0 := by
    funext ip
    simp [Server.new, readfiles, openFrom]
  have hconns : (Server.new modpw adminpw path d clock).conns = ∅ := by
    simp [Server.new, readfiles]
  rw [Accounted, hopen, hconns]
  exact Counters.represents_empty

/-- After every event of a run each counter is the number of open connections, exactly when no
connection is refused while its address has others open, nor admitted as the 256th of its
address. -/
theorem getConns_iff (modpw adminpw path : Bytes) (d : Disk) (clock : ℚ) (events : List Event) :
  Runs.Always step (fun s => ∀ ip, s.getConns ip = s.openFrom ip)
      (Server.new modpw adminpw path d clock) events ↔
    Runs.Along step countsRight (Server.new modpw adminpw path d clock) events
  := by
  apply Runs.always_iff_along (I := fun s => s.Consistent ∧ s.Accounted)
  case hs => exact ⟨consistent_new _ _ _ _ _, accounted_new _ _ _ _ _⟩
  case hI =>
    rintro s ⟨-, ha⟩ ip
    rw [getConns_eq]
    exact ha.value ip
  case hkeep =>
    rintro s e ⟨h, ha⟩ he
    exact ⟨h.event e, ha.event h he⟩
  case hbreak =>
    rintro s e ⟨h, ha⟩ he
    exact ha.breaks h he

/-- An address that has a connection open when an administrator bans it, and connects again. -/
def bannedEvents : List Event :=
  [.connect (ofString "b"), .connect (ofString "a"), .message 1 .binary (ofString "w..") 0 0,
    .message 1 .text (ofString "/adminlogin a\n") 1 1,
    .message 1 .text (ofString "/bans add b\n") 1 1, .connect (ofString "b")]

omit [Platform] in
/-- The connection that is refused takes the open one from the counter. -/
theorem getConns_bannedEvents :
  ¬ ∀ [Platform] (modpw adminpw path : Bytes) (d : Disk) (clock : ℚ) (events : List Event)
      (ip : Bytes),
    ((Server.new modpw adminpw path d clock).runs events).getConns ip =
      ((Server.new modpw adminpw path d clock).runs events).openFrom ip
  := by
  intro h
  let _ := Platform.quiet
  have hrun := h (ofString "m") (ofString "a") [] (Disk.empty fun _ => true) 0 bannedEvents
    (ofString "b")
  exact absurd hrun (by decide +kernel)

/-! ### Bans -/

/-- While an address is banned, no connection from it is left open. -/
theorem openFrom_banned {ip : Bytes} (e : Event) (h : s.Consistent) (hban : ip ∈ s.ipban)
    (hnone : s.openFrom ip = 0) :
  (s.step e).openFrom ip = 0
  := by
  by_cases hc : e.connects
  · cases e with
    | connect address =>
        by_cases hexited : s.exited = true
        · rw [step.eq_def, if_pos hexited]
          exact hnone
        rw [step_connect hexited]
        by_cases hrefuses : s.refuses (stripIp address)
        · rw [(onConnection_refuses h hrefuses).1]
          exact hnone
        by_cases hadmits : s.admits (stripIp address)
        · have hne : ip ≠ stripIp address := by
            rintro rfl
            exact hrefuses (Or.inr hban)
          rw [(onConnection_admits h hadmits).1, Function.update_of_ne hne]
          exact hnone
        · rw [(onConnection_turnsAway h hrefuses hadmits).1]
          exact hnone
    | _ => exact hc.elim
  · obtain ⟨b, hmoves⟩ := step_connects hc h
    refine (hmoves.keep (P := fun t => t.openFrom ip = 0) h hnone ?_).2
    intro t t' ht hnone' hm
    obtain ⟨hopen, -⟩ | ⟨ws, si, hws, rfl⟩ | ⟨ip', -, rfl⟩ := hm.net ht id
    · rw [hopen]
      exact hnone'
    · rw [(openFrom_drop ht hws).2, Function.update_apply]
      split
      case isTrue heq =>
        rw [← heq, hnone']
      case isFalse => exact hnone'
    · exact hnone'

/-- The loop of `Server::kickip` leaves the bans alone. -/
theorem closeIp_ipban (ip : Bytes) (h : s.Consistent) :
  (s.closeIp ip).ipban = s.ipban
  := by
  have hkeep : ∀ (l : List Ws) (t : Server), t.Consistent → t.ipban = s.ipban →
      (l.foldl (fun s ws => s.withInfo ws fun si =>
        if si.ip = ip then s.closeWs ws else s) t).ipban = s.ipban := by
    intro l
    induction l with
    | nil => exact fun _ _ hipban => hipban
    | cons ws l ih =>
        intro t ht hipban
        rw [List.foldl_cons]
        rw [withInfo]
        split
        case h_1 si hws =>
          split
          · have hclose : Chain Scope.all t (t.closeWs ws) :=
              closeWs_chain ht hws trivial fun _ _ _ _ => trivial
            apply ih _ (hclose.consistent ht)
            rw [(openFrom_closeWs ht hws).2.2, hipban]
          · exact ih t ht hipban
        case h_2 => exact ih _ ⟨ht.registry, ht.defaultRank, ht.origin, ht.proxies⟩ hipban
  exact hkeep s.connsws s h rfl

/-- A kicked address has no connection open, if it had one. -/
theorem kickip_net (ip : Bytes) (h : s.Consistent) :
  (s.kickip ip).openFrom ip = 0 ∧ (s.kickip ip).ipban = s.ipban
  := by
  have hclose : Chain Scope.all s (s.closeIp ip) :=
    closeIp_chain ip h (fun _ => trivial) fun _ => trivial
  have hkick : Chain Scope.all s (s.kickip ip) :=
    kickip_chain ip h (fun _ => trivial) fun _ => trivial
  obtain ⟨-, hn⟩ := admintell_spec (D := Scope.all) (ofString "DEVKicked IP: " ++ ip)
    (hclose.consistent h)
  have hinfos : (s.kickip ip).infos = (s.closeIp ip).infos := by
    rw [kickip]
    dsimp only
    split
    · exact hn.same.1
    · rfl
  constructor
  · rw [openFrom_eq_zero (hkick.consistent h)]
    intro ws si hsi
    rw [hinfos, closeIp_infos ip h, Option.filter_eq_some_iff] at hsi
    exact of_decide_eq_true hsi.2
  · rw [kickip]
    dsimp only
    split
    · exact (congrArg Server.ipban hn).trans (closeIp_ipban ip h)
    · exact closeIp_ipban ip h

/-- The address is banned after `Server::banip`; its connections are closed if it was not banned
before and is counted. -/
theorem banip_net (ip : Bytes) (h : s.Consistent) :
  ip ∈ (s.banip ip).ipban ∧
    (s.banip ip).openFrom ip =
      if ip ∉ s.ipban ∧ (s.conns.lookup ip).isSome then 0 else s.openFrom ip
  := by
  by_cases hban : ip ∈ s.ipban
  · rw [banip, if_pos hban, if_neg fun hnew => hnew.1 hban]
    exact ⟨hban, rfl⟩
  · have hspec := ban_spec (D := Scope.all) ip h
    have hbanip : s.banip ip
        = if (s.conns.lookup ip).isSome then (s.ban ip).kickip ip else s.ban ip := by
      rw [banip, if_neg hban]
      have hconns : (s.ban ip).conns = s.conns := by rw [hspec.2]
      show (if ((s.ban ip).conns.lookup ip).isSome then (s.ban ip).kickip ip else s.ban ip) = _
      rw [hconns]
    have hmem : ip ∈ (s.ban ip).ipban := by
      rw [hspec.2]
      exact List.mem_insert_self
    rw [hbanip]
    split
    case isTrue hcounted =>
      obtain ⟨hnone, hipban⟩ := kickip_net ip (hspec.1.consistent h)
      rw [if_pos ⟨hban, hcounted⟩, hipban]
      exact ⟨hmem, hnone⟩
    case isFalse hcounted =>
      rw [if_neg fun hnew => hcounted hnew.2]
      refine ⟨hmem, congrFun (openFrom_congr ?_ ?_) ip⟩
      · rw [hspec.2]
      · intro ws
        rw [hspec.2]

/-- Bans take effect: no connection from an address is open after `Server::banip`, and as long
as the address stays banned.  That is so exactly when it had none before, or was not banned
before and is counted. -/
theorem banip_iff (ip : Bytes) (h : s.Consistent) :
  (∀ events, Runs.Always step (fun t => ip ∈ t.ipban) (s.banip ip) events →
      ((s.banip ip).runs events).openFrom ip = 0) ↔
    s.openFrom ip = 0 ∨ ip ∉ s.ipban ∧ (s.conns.lookup ip).isSome
  := by
  obtain ⟨hmem, hopen⟩ := banip_net ip h
  constructor
  · intro heffect
    have hnow := heffect [] (Runs.always_nil.mpr hmem)
    by_cases hnew : ip ∉ s.ipban ∧ (s.conns.lookup ip).isSome
    · exact Or.inr hnew
    · left
      rw [if_neg hnew] at hopen
      exact hopen.symm.trans hnow
  · intro hwhen events hbanned
    have hnone : (s.banip ip).openFrom ip = 0 := by
      rw [hopen]
      split
      case isTrue => rfl
      case isFalse hnew => exact hwhen.resolve_right hnew
    have hbanip : Chain Scope.all s (s.banip ip) :=
      banip_chain ip h (fun _ => trivial) fun _ => trivial
    have hrun : ∀ (events : List Event) (t : Server), t.Consistent → t.openFrom ip = 0 →
        Runs.Always step (fun t => ip ∈ t.ipban) t events → (t.runs events).openFrom ip = 0 := by
      intro events
      induction events with
      | nil => exact fun _ _ hnone' _ => hnone'
      | cons e events ih =>
          intro t ht hnone' halways
          obtain ⟨hban, hrest⟩ := Runs.always_cons.mp halways
          exact ih (t.step e) (ht.event e) (openFrom_banned e ht hban hnone') hrest
    exact hrun events (s.banip ip) (hbanip.consistent h) hnone hbanned

/-- When bans take effect, in any state the server can reach. -/
theorem banip_effect_iff (modpw adminpw path : Bytes) (d : Disk) (clock : ℚ)
    (before : List Event) (ip : Bytes) :
  (∀ after, Runs.Always step (fun t => ip ∈ t.ipban)
      (((Server.new modpw adminpw path d clock).runs before).banip ip) after →
      ((((Server.new modpw adminpw path d clock).runs before).banip ip).runs after).openFrom ip
        = 0) ↔
    ((Server.new modpw adminpw path d clock).runs before).openFrom ip = 0 ∨
      ip ∉ ((Server.new modpw adminpw path d clock).runs before).ipban ∧
        (((Server.new modpw adminpw path d clock).runs before).conns.lookup ip).isSome
  := banip_iff ip ((consistent_new modpw adminpw path d clock).runs before)

omit [Platform] in
/-- An address that has a connection open and was put on the list of bans by an administrator
keeps its connection after `Server::banip`. -/
theorem banip_bannedEvents :
  ¬ ∀ [Platform] (modpw adminpw path : Bytes) (d : Disk) (clock : ℚ) (before : List Event)
      (ip : Bytes),
    (((Server.new modpw adminpw path d clock).runs before).banip ip).openFrom ip = 0
  := by
  intro h
  let _ := Platform.quiet
  have hrun := h (ofString "m") (ofString "a") [] (Disk.empty fun _ => true) 0
    (bannedEvents.take 5) (ofString "b")
  exact absurd hrun (by decide +kernel)

end Server

end Owop
