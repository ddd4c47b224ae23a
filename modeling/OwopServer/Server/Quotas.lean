import OwopServer.Server.Steps

/-!
# Quotas

Who has no rank gets no pixels, unless `/setpbucket` has set its quota since it got that rank.
`Client::promote` tells a client its quota and then its rank, and `/setpbucket` only a quota; so
what a connection has been told shows whether the quota was set since.
-/

namespace Owop

/-- A bucket of rate zero has nothing to spend. -/
theorem Bucket.cannot_spend {b : Bucket} (hrate : b.rate = 0) (now : ℚ) :
  (b.canSpend now 1).1 = false
  := by
  have hlevel : b.level now ≤ 0 := by
    have hcap : b.level now ≤ b.rate.toNat := min_le_left _ _
    rw [hrate] at hcap
    exact hcap
  have hone : b.level now < ((1 : UInt16).toNat : ℚ) := lt_of_le_of_lt hlevel (by decide)
  rw [canSpend_eq, if_pos hone]

namespace Server

variable {s s' : Server} {D : Scope}

/-! ### What a connection is told -/

/-- Actions that tell the connection nothing do not count. -/
theorem adjusted_append {ws : Ws} {actions : List Action}
    (h : ∀ a ∈ actions, ∀ quota, retold ws quota a = quota) (log : List Action) :
  adjusted (log ++ actions) ws = adjusted log ws
  := by
  rw [adjusted, List.foldl_append, ← adjusted]
  generalize adjusted log ws = quota
  induction actions with
  | nil => rfl
  | cons a actions ih =>
      rw [List.foldl_cons, h a List.mem_cons_self]
      exact ih fun b hb => h b (List.mem_cons_of_mem a hb)

/-- One more action. -/
theorem adjusted_concat (log : List Action) (a : Action) (ws : Ws) :
  adjusted (log ++ [a]) ws = retold ws (adjusted log ws) a
  := List.foldl_concat _ _ _ _

/-- Messages on other connections do not count. -/
theorem retold_of_ne {ws ws' : Ws} (hne : ws' ≠ ws) (quota : Bool) (op : OpCode) (msg : Bytes) :
  retold ws quota (.send ws' op msg) = quota
  := if_neg hne

/-- A change of a client leaves the connections. -/
theorem infos_change (p : ClientPtr) (c : ClientChange) :
  (s.change p c).infos = s.infos
  := by
  rw [change, withClient]
  split <;> rfl

/-- A message leaves the connections. -/
theorem infos_send (ws : Ws) (op : OpCode) (msg : Bytes) :
  (s.send ws op msg).infos = s.infos
  := by
  rw [send, withInfo]
  split <;> rfl

/-- A text leaves the connections. -/
theorem infos_tell (p : ClientPtr) (msg : Bytes) :
  (s.tell p msg).infos = s.infos
  := by
  rw [tell, withClient]
  split
  · exact infos_send _ _ _
  · rfl

/-- A quota leaves the connections. -/
theorem infos_setPbucket (p : ClientPtr) (rate per : UInt16) :
  (s.setPbucket p rate per).infos = s.infos
  := by
  rw [setPbucket, withClient]
  split
  · rw [infos_send, infos_change]
  · rfl

/-- A promotion leaves the connections. -/
theorem infos_promoting (p : ClientPtr) (newrank : Rank) (prate : UInt16) :
  (s.promoting p newrank prate).infos = s.infos
  := by
  rw [promoting]
  split_ifs
  · rw [infos_tell, infos_change]
  · rw [infos_setPbucket, infos_tell, infos_change]
  · rw [infos_setPbucket, infos_change]
  · rw [infos_setPbucket, infos_change]

/-- Who was given a quota since it got its rank: `Client::set_pbucket` tells it. -/
theorem adjusted_setPbucket {p : ClientPtr} {cl : Client} {si : SocketInfo} (rate per : UInt16)
    (hp : s.clients p = some cl) (hws : s.infos cl.ws = some si) :
  adjusted (s.setPbucket p rate per).log cl.ws = true
  := by
  have hinfo : (s.change p (.pbucket rate per)).infos cl.ws = some si := by
    rw [infos_change, hws]
  rw [setPbucket, withClient_eq _ hp, send_eq _ _ hinfo]
  exact adjusted_quota _ cl.ws rate per

/-- `Client::promote` tells the rank last. -/
theorem adjusted_promote {p : ClientPtr} {cl : Client} {si : SocketInfo} (newrank : Rank)
    (prate : UInt16) (hp : s.clients p = some cl) (hws : s.infos cl.ws = some si) :
  adjusted (s.promote p newrank prate).log cl.ws = false
  := by
  have hinfo : (s.promoting p newrank prate).infos cl.ws = some si := by
    rw [infos_promoting, hws]
  rw [promote_eq _ _ hp, send_eq _ _ hinfo]
  show adjusted ((s.promoting p newrank prate).log ++ _) cl.ws = false
  rw [adjusted_concat, retold, if_pos rfl, tellsRank_cons]
  exact Bool.and_false _

/-! ### Who has no rank gets no pixels -/

/-- Who has no rank gets no pixels, but for a quota it was told since. -/
def Rationed (s : Server) : Prop :=
  ∀ p cl, s.Live p cl → adjusted s.log cl.ws = false → cl.Poor

/-- The clients that are there were there, with the same ranks and rates, and their connections
were told nothing. -/
theorem Rationed.of_same (hr : s.Rationed)
    (hlive : ∀ p cl', s'.Live p cl' → ∃ cl, s.Live p cl ∧ cl'.ws = cl.ws ∧ cl'.rank = cl.rank ∧
      cl'.pixupdlimit.rate = cl.pixupdlimit.rate)
    (hlog : ∀ ws, adjusted s'.log ws = adjusted s.log ws) :
  s'.Rationed
  := by
  intro p cl' hp hquota
  obtain ⟨cl, hcl, hws, hrank, hrate⟩ := hlive p cl' hp
  rw [hlog, hws] at hquota
  rw [Client.Poor, hrank, hrate]
  exact hr p cl hcl hquota

/-- The same clients, and a log in which nothing more is told. -/
theorem Rationed.of_log (hr : s.Rationed) (hclients : s'.clients = s.clients)
    (hlog : ∀ ws, adjusted s'.log ws = adjusted s.log ws) :
  s'.Rationed
  := by
  apply hr.of_same _ hlog
  intro p cl hp
  rw [Live, hclients] at hp
  exact ⟨cl, hp, rfl, rfl, rfl⟩

variable [Platform]

/-- Small steps give pixels to nobody without a rank. -/
theorem Allowed.rationed {l : Label} (hl : Allowed D s l) (h : s.Consistent) (hr : s.Rationed) :
  (l.step s).Rationed
  := by
  have hquiet : ∀ a : Action, (∀ ws quota, retold ws quota a = quota) → (s.note a).Rationed := by
    intro a ha
    refine hr.of_log rfl fun ws => ?_
    exact (adjusted_concat s.log a ws).trans (ha ws _)
  cases hl with
  | @send ws op msg si hws hD hpoor =>
      intro p cl hp hquota
      have hlog : retold cl.ws (adjusted s.log cl.ws) (.send ws op msg) = false := by
        rw [← adjusted_concat]
        exact hquota
      by_cases heq : ws = cl.ws
      · by_cases hrank : tellsRank op msg = true
        · exact hpoor hrank p cl hp heq.symm
        · rw [retold, if_pos heq, Bool.eq_false_of_not_eq_true hrank, Bool.not_false, Bool.and_true,
            Bool.or_eq_false_iff] at hlog
          exact hr p cl hp hlog.1
      · rw [retold_of_ne heq] at hlog
        exact hr p cl hp hlog
  | @gone _ admin guarded counted =>
      exact hr.of_log rfl fun ws => adjusted_concat s.log _ ws
  | exec => exact hquiet _ fun _ _ => rfl
  | setrank => exact hquiet _ fun _ _ => rfl
  | @change p cl c hp hD hc hs =>
      rw [Label.step, change_eq c hp.1]
      rintro q cl' ⟨hq, hpresent⟩ hquota
      obtain ⟨-, rfl⟩ | ⟨-, hq⟩ := Table.update_eq_some.mp hq
      · have hold : cl.ws = (c.apply s.clock cl).ws := by
          cases c <;> rfl
        rw [← hold] at hquota
        have hpoor : cl.Poor := hr p cl hp hquota
        cases c with
        | rank r => exact hs
        | pbucket rate per =>
            have hset : adjusted s.log cl.ws = true := hs
            rw [hset] at hquota
            cases hquota
        | spendPixel =>
            intro hrank
            exact (Bucket.rate_canSpend _ _ _).1.trans (hpoor hrank)
        | nick => exact hpoor
        | stealth => exact hpoor
        | mute => exact hpoor
        | penalty => exact hpoor
        | lastclr => exact hpoor
        | spendChat => exact hpoor
      · exact hr q cl' ⟨hq, hpresent⟩ hquota
  | @place p cl pos hp =>
      obtain ⟨w, hw, -⟩ := h.world_of_live hp
      rw [Label.step, place_eq pos hp.1 hw]
      refine hr.of_same ?_ fun _ => rfl
      rintro q cl' ⟨hq, hpresent⟩
      obtain ⟨rfl, rfl⟩ | ⟨-, hq⟩ := Table.update_eq_some.mp hq
      · exact ⟨cl, hp, rfl, rfl, rfl⟩
      · exact ⟨cl', ⟨hq, hpresent⟩, rfl, rfl, rfl⟩
  | act hwp =>
      rw [Label.step, perform_eq _ hwp]
      refine hr.of_log rfl fun ws => ?_
      apply adjusted_append
      intro a ha quota
      obtain ⟨e, -, rfl⟩ := List.mem_map.mp ha
      rfl
  | @drop ws si hws =>
      have hlog : (s.drop ws).log = s.log := by rw [drop_rest h hws]
      refine hr.of_same ?_ fun ws' => by rw [Label.step, hlog]
      rintro q cl' ⟨hq, hpresent⟩
      obtain heq | ⟨-, cl, -, heq⟩ := drop_clients h hws q
      · exact ⟨cl', ⟨heq.symm.trans hq, hpresent⟩, rfl, rfl, rfl⟩
      · obtain rfl : { cl with handledelete := false } = cl' :=
          Option.some.inj (heq.symm.trans hq)
        cases hpresent
  | config => exact hr.of_log rfl fun _ => rfl
  | lockdown => exact hr.of_log rfl fun _ => rfl
  | lists => exact hr.of_log rfl fun _ => rfl
  | eraseConns => exact hr.of_log rfl fun _ => rfl
  | save hwp =>
      rw [Label.step, saveWorld_eq hwp]
      exact hr.of_log rfl fun _ => rfl
  | files => exact hr.of_log rfl fun _ => rfl

omit [Platform] in
/-- Nor does joining. -/
theorem Rationed.welcome (hr : s.Rationed) {t : Server} {ws : Ws} {si : SocketInfo} {p : ClientPtr}
    {wp : WorldPtr} {w : World} (hclients : t.clients = s.clients) (hlog : t.log = s.log) :
  (t.welcome ws si p wp w).Rationed
  := by
  rintro q cl ⟨hq, hpresent⟩ hquota
  obtain ⟨-, rfl⟩ | ⟨-, hq⟩ := Table.update_eq_some.mp hq
  · exact guest_poor w ws wp
  · rw [hclients] at hq
    apply hr q cl ⟨hq, hpresent⟩
    rw [← hlog]
    exact hquota

/-- Moves give pixels to nobody without a rank. -/
theorem Rationed.move {misuses connects loads : Prop} (hr : s.Rationed) (h : s.Consistent)
    (hm : Move D misuses connects loads s s') :
  s'.Rationed
  := by
  cases hm with
  | small hl => exact hl.rationed h hr
  | join => exact hr.welcome rfl rfl
  | found => exact hr.welcome rfl rfl
  | @freeClient i p =>
      refine hr.of_same ?_ fun _ => rfl
      rintro q cl ⟨hq, hpresent⟩
      have hold : s.clients q = some cl := by
        have hupdate : Function.update s.clients p none q = some cl := hq
        rw [Function.update_apply] at hupdate
        split at hupdate
        · cases hupdate
        · exact hupdate
      exact ⟨cl, ⟨hold, hpresent⟩, rfl, rfl, rfl⟩
  | misuse => exact hr.of_log rfl fun _ => rfl
  | openWs => exact hr.of_log rfl fun _ => rfl
  | countUp => exact hr.of_log rfl fun _ => rfl
  | captcha => exact hr.of_log rfl fun _ => rfl
  | flush => exact hr.of_log rfl fun _ => rfl
  | freeWorld => exact hr.of_log rfl fun _ => rfl
  | dropServer => exact hr.of_log rfl fun _ => rfl
  | close => exact hr.of_log rfl fun _ => rfl
  | exit => exact hr.of_log rfl fun _ => rfl
  | advance => exact hr.of_log rfl fun _ => rfl
  | rehash => exact hr.of_log rfl fun _ => rfl

/-- In every run, who has no rank gets no pixels but for a quota it was told since. -/
theorem rationed_runs (modpw adminpw path : Bytes) (d : Disk) (clock : ℚ) (events : List Event) :
  ((Server.new modpw adminpw path d clock).runs events).Rationed
  := by
  have hnew : (Server.new modpw adminpw path d clock).Rationed := by
    rintro p cl ⟨hcl, -⟩
    cases hcl
  exact runs_keep (consistent_new modpw adminpw path d clock) hnew
    (fun ht hr hm => hr.move ht hm) events

end Server

end Owop
