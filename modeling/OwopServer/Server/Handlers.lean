import OwopServer.Server.Labels

/-!
# The functions of the server as chains of small steps

Each function of `client.cpp` and `server.cpp` that handlers and commands call is a chain of
allowed small steps, in any scope that has the worlds it concerns.
-/

namespace Owop

open Bytes (ofString)

namespace Server

variable [Platform] {s : Server} {D : Scope}

/-! ### Chains -/

/-- Nothing happens. -/
theorem Chain.refl (s : Server) :
  Chain D s s
  := Relation.ReflTransGen.refl

/-- One thing after another. -/
theorem Chain.trans {s' s'' : Server} (hc : Chain D s s') (hc' : Chain D s' s'') :
  Chain D s s''
  := Relation.ReflTransGen.trans hc hc'

/-- One small step. -/
theorem Chain.single {l : Label} (hl : Allowed D s l) :
  Chain D s (l.step s)
  := Relation.ReflTransGen.single ⟨l, hl, rfl⟩

omit [Platform] in
/-- What is allowed in a scope is allowed in a larger one. -/
theorem Allowed.mono {D' : Scope} {l : Label} (hl : Allowed D s l) (hD' : D.Within D') :
  Allowed D' s l
  := by
  cases hl with
  | send hws hD hpoor =>
      exact .send hws (fun p cl hp hcl => (hD p cl hp hcl).imp_left hD'.wrld) hpoor
  | gone hd => exact .gone (hD'.drops hd)
  | exec hp => exact .exec hp
  | setrank hp => exact .setrank hp
  | change hp hD hc hs => exact .change hp (hD'.wrld hD) hc hs
  | place hp hD => exact .place hp (hD'.wrld hD)
  | act hwp hD hact hm => exact .act hwp (hD'.wrld hD) (hD'.acts hact) hm
  | drop hws hdrop hD =>
      exact .drop hws (hD'.drops hdrop) fun p cl hp hcl => hD'.wrld (hD p cl hp hcl)
  | config => exact .config
  | lockdown hlock => exact .lockdown (hD'.locks hlock)
  | lists => exact .lists
  | eraseConns hip => exact .eraseConns hip
  | save hwp hD => exact .save hwp (hD'.wrld hD)
  | files => exact .files

/-- More may happen. -/
theorem Chain.mono {D' : Scope} {s' : Server} (hc : Chain D s s') (hD' : D.Within D') :
  Chain D' s s'
  := by
  induction hc with
  | refl => exact Relation.ReflTransGen.refl
  | tail _ hstep ih =>
      obtain ⟨l, hl, rfl⟩ := hstep
      exact ih.tail ⟨l, hl.mono hD', rfl⟩

/-- The client `p` has the connection `ws` and is in the world at `wp`. -/
abbrev Seated (s : Server) (p : ClientPtr) (ws : Ws) (wp : WorldPtr) : Prop :=
  s.registry.seat p = some ⟨ws, wp, true⟩

/-- What closes no connection may happen where some may be closed. -/
theorem Chain.of_still {s' : Server} (hc : Chain D.still s s') :
  Chain D s s'
  := hc.mono D.still_within

/-- After a chain that closes no connection everyone is still there. -/
theorem Chain.andThen {s' s'' : Server} (hc : Chain D.still s s') (h : s.Consistent)
    (hrest : s'.Consistent → (∀ {p ws wp}, s.Seated p ws wp → s'.Seated p ws wp) →
      Chain D s' s'') :
  Chain D s s''
  := hc.of_still.trans (hrest (hc.consistent h) fun hp => (hc.stays h (fun hd => hd)).2 _ _ hp)

/-- A loop whose turns are chains that keep a condition. -/
theorem foldl_chain {α : Type*} {f : Server → α → Server} {P : Server → Prop} {l : List α}
    (hf : ∀ t a, a ∈ l → P t → Chain D t (f t a) ∧ P (f t a)) (hs : P s) :
  Chain D s (l.foldl f s) ∧ P (l.foldl f s)
  := by
  induction l generalizing s with
  | nil => exact ⟨Chain.refl _, hs⟩
  | cons a l ih =>
      obtain ⟨hc, hP⟩ := hf s a List.mem_cons_self hs
      obtain ⟨hc', hP'⟩ := ih (fun t b hb => hf t b (List.mem_cons_of_mem a hb)) hP
      exact ⟨hc.trans hc', hP'⟩

/-! ### Messages -/

omit [Platform] in
/-- A message is sent to a connection that is open. -/
theorem send_eq {ws : Ws} {si : SocketInfo} (op : OpCode) (msg : Bytes)
    (hws : s.infos ws = some si) :
  s.send ws op msg = s.note (.send ws op msg)
  := by
  rw [send, withInfo_eq _ hws]

/-- A message to a connection. -/
theorem send_chain {ws : Ws} {si : SocketInfo} {op : OpCode} {msg : Bytes}
    (hws : s.infos ws = some si)
    (hD : ∀ p cl, si.player = some p → s.clients p = some cl →
      D.wrld cl.wrld ∨ op = .text ∧ cl.isAdmin = true)
    (hpoor : tellsRank op msg = true → ∀ p cl, s.Live p cl → cl.ws = ws → cl.Poor) :
  Chain D s (s.send ws op msg)
  := by
  rw [send_eq op msg hws]
  exact Chain.single (.send hws hD hpoor)

/-- A message to a client. -/
theorem send_live {p : ClientPtr} {cl : Client} {op : OpCode} {msg : Bytes} (h : s.Consistent)
    (hcl : s.Live p cl) (hD : D.wrld cl.wrld) (hpoor : tellsRank op msg = true → cl.Poor) :
  Chain D s (s.send cl.ws op msg)
  := by
  obtain ⟨si, hsi, hplayer⟩ := h.info_of_live hcl
  apply send_chain hsi
  · intro q cl' hq hcl'
    rw [hplayer] at hq
    cases hq
    rw [hcl.1] at hcl'
    cases hcl'
    exact Or.inl hD
  · intro hrank q cl' hq hws
    obtain rfl := h.live_unique hcl hq hws.symm
    obtain rfl : cl = cl' := Option.some.inj (hcl.1.symm.trans hq.1)
    exact hpoor hrank

/-- A message to a client that does not tell it a rank. -/
theorem send_seated {p : ClientPtr} {ws : Ws} {wp : WorldPtr} {op : OpCode} {msg : Bytes}
    (h : s.Consistent) (hp : s.Seated p ws wp) (hD : D.wrld wp)
    (hrank : tellsRank op msg = false) :
  Chain D s (s.send ws op msg)
  := by
  obtain ⟨cl, hcl, rfl, rfl⟩ := live_of_seat hp
  apply send_live h hcl hD
  rw [hrank]
  exact fun h => absurd h Bool.false_ne_true

omit [Platform] in
/-- A text is sent to the connection of a client. -/
theorem tell_eq {p : ClientPtr} {cl : Client} (h : s.Consistent) (hp : s.Live p cl)
    (msg : Bytes) :
  s.tell p msg = s.note (.send cl.ws .text msg)
  := by
  obtain ⟨si, hsi, -⟩ := h.info_of_live hp
  rw [tell, withClient_eq _ hp.1, send_eq _ _ hsi]

/-- A text to a client. -/
theorem tell_chain {p : ClientPtr} {ws : Ws} {wp : WorldPtr} {msg : Bytes} (h : s.Consistent)
    (hp : s.Seated p ws wp) (hD : D.wrld wp) :
  Chain D s (s.tell p msg)
  := by
  obtain ⟨cl, hcl, rfl, rfl⟩ := live_of_seat hp
  rw [tell, withClient_eq _ hcl.1]
  exact send_seated h hp hD rfl

/-- The server `t` is `s` with another log. -/
def Noted (s t : Server) : Prop := t = { s with log := t.log }

omit [Platform] in
/-- Nothing was noted. -/
theorem Noted.refl (s : Server) :
  Noted s s
  := rfl

omit [Platform] in
/-- The tables are the same. -/
theorem Noted.same {t : Server} (hn : Noted s t) :
  t.infos = s.infos ∧ t.clients = s.clients ∧ t.objs = s.objs ∧ t.connsws = s.connsws ∧
    t.registry = s.registry
  := by
  rw [hn]
  exact ⟨rfl, rfl, rfl, rfl, rfl⟩

omit [Platform] in
/-- Clients are still there. -/
theorem Noted.live {t : Server} {p : ClientPtr} {cl : Client} (hn : Noted s t)
    (hp : s.Live p cl) :
  t.Live p cl
  := by
  rw [hn]
  exact hp

omit [Platform] in
/-- The tables are still consistent. -/
theorem Noted.consistent {t : Server} (hn : Noted s t) (h : s.Consistent) :
  t.Consistent
  := by
  rw [hn]
  exact ⟨h.registry, h.defaultRank, h.origin, h.proxies⟩

omit [Platform] in
/-- Clients are still in their worlds. -/
theorem Noted.seated {t : Server} {p : ClientPtr} {ws : Ws} {wp : WorldPtr} (hn : Noted s t)
    (hp : s.Seated p ws wp) :
  t.Seated p ws wp
  := by
  rw [hn]
  exact hp

omit [Platform] in
/-- More was noted. -/
theorem Noted.trans {t u : Server} (hn : Noted s t) (hn' : Noted t u) :
  Noted s u
  := by
  rw [Noted, hn', hn]

omit [Platform] in
/-- One more action was noted. -/
theorem Noted.note {t : Server} (hn : Noted s t) (a : Action) :
  Noted s (t.note a)
  := by
  rw [Noted, hn]
  rfl

/-- Several texts to a client. -/
theorem tells_chain {p : ClientPtr} {ws : Ws} {wp : WorldPtr} (msgs : List Bytes)
    (h : s.Consistent) (hp : s.Seated p ws wp) (hD : D.wrld wp) :
  Chain D.still s (msgs.foldl (fun s msg => s.tell p msg) s)
  := by
  refine (foldl_chain (P := fun t => t.Consistent ∧ t.Seated p ws wp) ?_ ⟨h, hp⟩).1
  rintro t msg - ⟨ht, htp⟩
  have hc : Chain D.still t (t.tell p msg) := tell_chain ht htp hD
  exact ⟨hc, hc.consistent ht, (hc.stays ht (fun hd => hd)).2 _ _ htp⟩

/-- A text to all admins, who may be in any world. -/
theorem admintell_spec (msg : Bytes) (h : s.Consistent) :
  Chain D s (s.admintell msg) ∧ Noted s (s.admintell msg)
  := by
  refine foldl_chain (P := Noted s) ?_ (Noted.refl s)
  intro t ws hws hn
  obtain ⟨si, hsi⟩ := h.mem_connsws.mp hws
  have hti : t.infos ws = some si := by rw [hn.same.1, hsi]
  rw [withInfo_eq _ hti]
  cases hplayer : si.player with
  | none => exact ⟨Chain.refl _, hn⟩
  | some p =>
      obtain ⟨cl, hcl, rfl⟩ := h.live_of_player hsi hplayer
      have hct := hn.live hcl
      dsimp only
      rw [withClient_eq _ hct.1]
      split
      case isTrue hadmin =>
        rw [tell, withClient_eq _ hct.1]
        constructor
        · apply send_chain hti
          · intro q cl' hq hcl'
            rw [hplayer] at hq
            cases hq
            rw [hct.1] at hcl'
            cases hcl'
            exact Or.inr ⟨rfl, hadmin⟩
          · exact fun hrank => absurd hrank Bool.false_ne_true
        · rw [send_eq _ _ hti]
          exact hn.note _
      case isFalse => exact ⟨Chain.refl _, hn⟩

/-- A text to all admins. -/
theorem admintell_chain (msg : Bytes) (h : s.Consistent) :
  Chain D s (s.admintell msg)
  := (admintell_spec msg h).1

/-- A text to all worlds. -/
theorem broadcastmsg_chain (msg : Bytes) (h : s.Consistent) (hD : ∀ wp, D.wrld wp) :
  Chain D s (s.broadcastmsg msg)
  := by
  refine (foldl_chain (P := Noted s) ?_ (Noted.refl s)).1
  intro t ws hws hn
  obtain ⟨si, hsi⟩ := h.mem_connsws.mp hws
  have hti : t.infos ws = some si := by rw [hn.same.1, hsi]
  constructor
  · exact send_chain hti (fun _ _ _ _ => Or.inl (hD _))
      fun hrank => absurd hrank Bool.false_ne_true
  · rw [send_eq _ _ hti]
    exact hn.note _

/-! ### Clients -/

/-- A change of the fields of a client. -/
theorem change_chain {p : ClientPtr} {cl : Client} {c : ClientChange} (hp : s.Live p cl)
    (hD : D.wrld cl.wrld) (hc : s.Justified cl c) (hs : s.Sparing cl c) :
  Chain D s (s.change p c)
  := Chain.single (.change hp hD hc hs)

/-- A client that moves. -/
theorem place_chain {p : ClientPtr} {ws : Ws} {wp : WorldPtr} {pos : PInfo}
    (hp : s.Seated p ws wp) (hD : D.wrld wp) :
  Chain D s (s.place p pos)
  := by
  obtain ⟨cl, hcl, rfl, rfl⟩ := live_of_seat hp
  exact Chain.single (.place hcl hD)

/-- A client that is moved. -/
theorem teleport_chain {p : ClientPtr} {ws : Ws} {wp : WorldPtr} {x y : Int32}
    (h : s.Consistent) (hp : s.Seated p ws wp) (hD : D.wrld wp) :
  Chain D s (s.teleport p x y)
  := by
  obtain ⟨cl, hcl, rfl, rfl⟩ := live_of_seat hp
  rw [teleport, withClient_eq _ hcl.1]
  have hrank : tellsRank .binary ([ServerMessage.teleport.byte] ++ int32Bytes x ++ int32Bytes y)
      = false := rfl
  apply (send_seated (D := D.still) h hp hD hrank).andThen h
  intro _ hstay
  exact place_chain (hstay hp) hD

omit [Platform] in
/-- A quota that a connection is told. -/
theorem adjusted_quota (log : List Action) (ws : Ws) (rate per : UInt16) :
  adjusted (log ++ [.send ws .binary
    ([ServerMessage.setPquota.byte] ++ uint16Bytes rate ++ uint16Bytes per)]) ws = true
  := by
  generalize hmsg : [ServerMessage.setPquota.byte] ++ uint16Bytes rate ++ uint16Bytes per = msg
  have hquota : tellsQuota .binary msg = true := by
    rw [← hmsg]
    rfl
  have hrank : tellsRank .binary msg = false := by
    rw [← hmsg]
    rfl
  rw [adjusted, List.foldl_concat, retold, if_pos rfl, hquota, hrank, Bool.or_true]
  rfl

/-- The quota may be told before it is set. -/
theorem setPbucket_spec {p : ClientPtr} {cl : Client} (rate per : UInt16) (h : s.Consistent)
    (hcl : s.Live p cl) (hD : D.wrld cl.wrld) :
  Chain D s (s.setPbucket p rate per) ∧ (s.setPbucket p rate per).Live p
    { cl with pixupdlimit := cl.pixupdlimit.set rate per }
  := by
  obtain ⟨si, hsi, -⟩ := h.info_of_live hcl
  generalize hmsg : [ServerMessage.setPquota.byte] ++ uint16Bytes rate ++ uint16Bytes per = msg
  have hsend : Chain D s (s.note (.send cl.ws .binary msg)) := by
    have hrank : tellsRank .binary msg = false := by
      rw [← hmsg]
      rfl
    rw [← send_eq .binary msg hsi]
    exact send_seated h hcl.seat hD hrank
  have hquota : adjusted (s.note (.send cl.ws .binary msg)).log cl.ws = true := by
    rw [← hmsg]
    exact adjusted_quota s.log cl.ws rate per
  have hlive : (s.note (.send cl.ws .binary msg)).Live p cl := hcl
  have hchange : Chain D (s.note (.send cl.ws .binary msg))
      ((s.note (.send cl.ws .binary msg)).change p (.pbucket rate per)) :=
    change_chain hlive hD trivial hquota
  have heq : s.setPbucket p rate per
      = (s.note (.send cl.ws .binary msg)).change p (.pbucket rate per) := by
    have hinfo : (s.change p (.pbucket rate per)).infos cl.ws = some si := by
      rw [change_eq _ hcl.1]
      exact hsi
    rw [setPbucket, withClient_eq _ hcl.1, hmsg, send_eq _ _ hinfo, change_eq _ hlive.1,
      change_eq _ hcl.1]
    rfl
  rw [heq]
  refine ⟨hsend.trans hchange, ?_, hcl.2⟩
  rw [change_eq _ hlive.1]
  exact Function.update_self _ _ _

/-- A quota for a client. -/
theorem setPbucket_chain {p : ClientPtr} {ws : Ws} {wp : WorldPtr} {rate per : UInt16}
    (h : s.Consistent) (hp : s.Seated p ws wp) (hD : D.wrld wp) :
  Chain D s (s.setPbucket p rate per)
  := by
  obtain ⟨cl, hcl, rfl, rfl⟩ := live_of_seat hp
  exact (setPbucket_spec rate per h hcl hD).1

omit [Platform] in
/-- It does not matter whether the rank or the quota of a client is set first. -/
theorem setPbucket_change {p : ClientPtr} {cl : Client} {si : SocketInfo} (r : Rank)
    (rate per : UInt16) (hp : s.clients p = some cl) (hws : s.infos cl.ws = some si) :
  (s.change p (.rank r)).setPbucket p rate per = (s.setPbucket p rate per).change p (.rank r)
  := by
  generalize hranked : ({ s with
    clients := Function.update s.clients p (some { cl with rank := r }) } : Server) = t
  generalize hset : ({ s with
    clients := Function.update s.clients p
      (some { cl with pixupdlimit := cl.pixupdlimit.set rate per }) } : Server) = u
  have hrank : s.change p (.rank r) = t := by
    rw [change_eq _ hp, ← hranked]
    rfl
  have hquota : s.change p (.pbucket rate per) = u := by
    rw [change_eq _ hp, ← hset]
    rfl
  have ht : t.clients p = some { cl with rank := r } := by
    rw [← hranked]
    exact Function.update_self _ _ _
  have hinfo : (t.change p (.pbucket rate per)).infos cl.ws = some si := by
    rw [change_eq _ ht, ← hranked]
    exact hws
  have hinfo' : u.infos cl.ws = some si := by
    rw [← hset]
    exact hws
  generalize hmsg : [ServerMessage.setPquota.byte] ++ uint16Bytes rate ++ uint16Bytes per = msg
  have hu : (u.note (.send cl.ws .binary msg)).clients p
      = some { cl with pixupdlimit := cl.pixupdlimit.set rate per } := by
    rw [← hset]
    exact Function.update_self _ _ _
  rw [hrank, setPbucket, withClient_eq _ ht, setPbucket, withClient_eq _ hp, hquota, hmsg,
    send_eq _ _ hinfo, send_eq _ _ hinfo', change_eq _ hu, change_eq _ ht, ← hranked, ← hset]
  simp only [note, Function.update_idem]
  rfl

/-- What `Client::promote` does before it tells the rank. -/
def promoting (s : Server) (p : ClientPtr) (newrank : Rank) (prate : UInt16) : Server :=
  if newrank = Rank.admin then
    (s.change p (.rank newrank)).tell p
      (ofString "Server: You are now an admin. Do /help for a list of commands.")
  else if newrank = Rank.moderator then
    ((s.change p (.rank newrank)).tell p
      (ofString "Server: You are now a moderator.")).setPbucket p prate 2
  else if newrank = Rank.user then (s.change p (.rank newrank)).setPbucket p prate 4
  else (s.change p (.rank newrank)).setPbucket p 0 1

omit [Platform] in
/-- A promotion ends with the message of the rank. -/
theorem promote_eq {p : ClientPtr} {cl : Client} (newrank : Rank) (prate : UInt16)
    (hp : s.clients p = some cl) :
  s.promote p newrank prate = (s.promoting p newrank prate).send cl.ws .binary
    [ServerMessage.permissions.byte, newrank]
  := by
  rw [promote, withClient_eq _ hp]
  rfl

/-- Who loses its rank loses its pixels first. -/
theorem promoting_none {p : ClientPtr} {cl : Client} (prate : UInt16) (h : s.Consistent)
    (hcl : s.Live p cl) (hD : D.wrld cl.wrld) :
  Chain D s (s.promoting p Rank.none prate) ∧ (s.promoting p Rank.none prate).Live p
    { cl with pixupdlimit := cl.pixupdlimit.set 0 1, rank := Rank.none }
  := by
  obtain ⟨si, hsi, -⟩ := h.info_of_live hcl
  obtain ⟨hc, hlive⟩ := setPbucket_spec (D := D) 0 1 h hcl hD
  have hj : (s.setPbucket p 0 1).Justified
      { cl with pixupdlimit := cl.pixupdlimit.set 0 1 } (.rank Rank.none) := Or.inl (by decide)
  rw [promoting, if_neg (by decide), if_neg (by decide), if_neg (by decide),
    setPbucket_change _ _ _ hcl.1 hsi]
  refine ⟨hc.trans (change_chain hlive hD hj fun _ => rfl), ?_, hcl.2⟩
  rw [change_eq _ hlive.1]
  exact Function.update_self _ _ _

/-- Who gets another rank gets it before its pixels. -/
theorem promoting_ranked {p : ClientPtr} {cl : Client} {newrank : Rank} (prate : UInt16)
    (h : s.Consistent) (hcl : s.Live p cl) (hD : D.wrld cl.wrld)
    (hj : s.Justified cl (.rank newrank)) (hnone : newrank ≠ Rank.none) :
  Chain D s (s.promoting p newrank prate) ∧ ∃ b, (s.promoting p newrank prate).Live p
    { cl with pixupdlimit := b, rank := newrank }
  := by
  have hc₁ : Chain D.still s (s.change p (.rank newrank)) :=
    change_chain hcl hD hj fun heq => absurd heq hnone
  have h₁ := hc₁.consistent h
  have hcl₁ : (s.change p (.rank newrank)).Live p { cl with rank := newrank } := by
    refine ⟨?_, hcl.2⟩
    rw [change_eq _ hcl.1]
    exact Function.update_self _ _ _
  rw [promoting]
  generalize s.change p (.rank newrank) = t at hc₁ h₁ hcl₁ ⊢
  have hbucket : ∀ (u : Server) (rate per : UInt16), Chain D.still t u →
      u.Live p { cl with rank := newrank } → Chain D s (u.setPbucket p rate per) ∧
        ∃ b, (u.setPbucket p rate per).Live p { cl with pixupdlimit := b, rank := newrank } := by
    intro u rate per hu hlive
    obtain ⟨hc, hcl'⟩ := setPbucket_spec (D := D.still) rate per (hu.consistent h₁) hlive hD
    exact ⟨((hc₁.trans hu).trans hc).of_still, _, hcl'⟩
  have htell : ∀ msg, Chain D.still t (t.tell p msg) ∧
      (t.tell p msg).Live p { cl with rank := newrank } := by
    intro msg
    refine ⟨tell_chain h₁ hcl₁.seat hD, ?_⟩
    rw [tell_eq h₁ hcl₁]
    exact hcl₁
  split_ifs
  · obtain ⟨hc, hcl'⟩ := htell
      (ofString "Server: You are now an admin. Do /help for a list of commands.")
    exact ⟨(hc₁.trans hc).of_still, cl.pixupdlimit, hcl'⟩
  · obtain ⟨hc, hcl'⟩ := htell (ofString "Server: You are now a moderator.")
    exact hbucket _ _ _ hc hcl'
  · exact hbucket t _ _ (Chain.refl t) hcl₁
  · exact hbucket t _ _ (Chain.refl t) hcl₁

/-- The client that is promoted, before it is told its rank. -/
theorem promoting_spec {p : ClientPtr} {cl : Client} {newrank : Rank} (prate : UInt16)
    (h : s.Consistent) (hcl : s.Live p cl) (hD : D.wrld cl.wrld)
    (hj : s.Justified cl (.rank newrank)) :
  ∃ cl', Chain D s (s.promoting p newrank prate) ∧ (s.promoting p newrank prate).Live p cl' ∧
    cl'.ws = cl.ws ∧ cl'.wrld = cl.wrld ∧ cl'.Poor
  := by
  by_cases hnone : newrank = Rank.none
  · subst hnone
    obtain ⟨hc, hlive⟩ := promoting_none prate h hcl hD
    exact ⟨_, hc, hlive, rfl, rfl, fun _ => rfl⟩
  · obtain ⟨hc, b, hlive⟩ := promoting_ranked prate h hcl hD hj hnone
    exact ⟨_, hc, hlive, rfl, rfl, fun hrank => absurd hrank hnone⟩

/-- A rank for a client. -/
theorem promote_chain {p : ClientPtr} {cl : Client} {newrank : Rank} {prate : UInt16}
    (h : s.Consistent) (hcl : s.Live p cl) (hD : D.wrld cl.wrld)
    (hj : s.Justified cl (.rank newrank)) :
  Chain D s (s.promote p newrank prate)
  := by
  obtain ⟨cl', hc, hlive, hws, hwrld, hpoor⟩ := promoting_spec (D := D.still) prate h hcl hD hj
  rw [promote_eq _ _ hcl.1, ← hws]
  apply hc.of_still.trans
  exact send_live (hc.consistent h) hlive (hwrld ▸ hD) fun _ => hpoor

/-! ### Worlds -/

/-- Operations of a world send to all its clients, or a chunk to the connection that asks for
it. -/
theorem run_outs (w : World) (d : Disk) (a : WorldAct) :
  ∀ out ∈ (a.run w d).2.2.1, (∃ op msg, out = .all op msg ∧ tellsRank op msg = false) ∨
    ∃ ws x y op msg, a = .sendChunk ws x y ∧ out = .one ws op msg ∧ tellsRank op msg = false
  := by
  have hchunk : ∀ c : Chunk, tellsRank .binary c.dataMsg = false := by
    intro c
    rw [tellsRank, c.head?_dataMsg]
    rfl
  cases a with
  | sendChunk ws x y =>
      rw [WorldAct.run, World.sendChunk]
      generalize w.getChunk d x y = got
      obtain ⟨c, w', d'⟩ := got
      cases c <;> simp [hchunk]
  | delChunk x y =>
      rw [WorldAct.run, World.delChunk]
      generalize w.getChunk d x y = got
      obtain ⟨c, w', d'⟩ := got
      cases c <;> simp [hchunk]
  | pasteChunk x y data =>
      rw [WorldAct.run, World.pasteChunk]
      generalize w.getChunk d x y = got
      obtain ⟨c, w', d'⟩ := got
      cases c <;> simp [hchunk]
  | putPx x y clr placerRank => simp [WorldAct.run]
  | setChunkProtection x y state =>
      rw [WorldAct.run, World.setChunkProtection]
      generalize World.getChunk _ d x y = got
      obtain ⟨c, w', d'⟩ := got
      cases c <;> simp [ServerMessage.byte]
  | setProp key value => simp [WorldAct.run]
  | reload =>
      show ∀ out ∈ w.reload.2, _
      rw [World.reload]
      split
      · simp [World.broadcast]
      · dsimp only
        split
        · simp [World.broadcast]
        · simp
  | setDefaultRank r => simp [WorldAct.run]
  | broadcast msg => simp [WorldAct.run, World.broadcast]

/-- Sending to all clients of a world. -/
theorem sendAll_chain {wp : WorldPtr} {w : World} {op : OpCode} {msg : Bytes} (h : s.Consistent)
    (hclients : ∀ p ∈ w.clients, ∃ ws, s.Seated p ws wp) (hD : D.wrld wp)
    (hrank : tellsRank op msg = false) :
  Chain D s (s.sendOut w (.all op msg)) ∧ Noted s (s.sendOut w (.all op msg))
  := by
  refine foldl_chain (P := Noted s) ?_ (Noted.refl s)
  intro t p hp hn
  obtain ⟨ws, hseat⟩ := hclients p hp
  obtain ⟨cl, hcl, rfl, rfl⟩ := live_of_seat hseat
  obtain ⟨si, hsi, -⟩ := h.info_of_live hcl
  have hti : t.infos cl.ws = some si := by rw [hn.same.1, hsi]
  rw [withClient_eq _ (hn.live hcl).1]
  constructor
  · exact send_seated (hn.consistent h) (hn.live hcl).seat hD hrank
  · rw [send_eq _ _ hti]
    exact hn.note _

/-- A world that is asked for something. -/
theorem act_chain {wp : WorldPtr} {w : World} {a : WorldAct} (h : s.Consistent)
    (hwp : s.objs wp = some w) (hD : D.wrld wp) (ha : D.acts a) (hm : a.Modest)
    (hone : ∀ ws x y, a = .sendChunk ws x y → ∃ p, s.Seated p ws wp) :
  Chain D.still s (s.act wp a)
  := by
  have hstep : Chain D.still s (s.perform wp a) :=
    Chain.single (D := D.still) (.act hwp hD ha hm)
  have h' := hstep.consistent h
  have hr := registry_perform (s := s) wp a
  have hclients : ((a.run w s.disk).1).clients = w.clients :=
    congrArg Room.clients (run_alike w s.disk a).1
  have hseat : ∀ p ∈ ((a.run w s.disk).1).clients, ∃ ws, (s.perform wp a).Seated p ws wp := by
    intro p hp
    rw [hclients] at hp
    show ∃ ws, (s.perform wp a).registry.seat p = some ⟨ws, wp, true⟩
    rw [hr]
    exact h.registry.seat_of_room (registry_room.mpr ⟨w, hwp, rfl⟩) hp
  have hact : s.act wp a
      = (a.run w s.disk).2.2.1.foldl (fun t out => t.sendOut (a.run w s.disk).1 out)
        (s.perform wp a) := by
    rw [act, withWorld_eq _ hwp, perform_eq a hwp]
    rfl
  rw [hact]
  apply hstep.trans
  refine (foldl_chain (P := Noted (s.perform wp a)) ?_ (Noted.refl _)).1
  intro t out hout hn
  have ht := hn.consistent h'
  obtain ⟨op, msg, rfl, hrank⟩ | ⟨ws, x, y, op, msg, hask, rfl, hrank⟩ :=
    run_outs w s.disk a out hout
  · have hseat' : ∀ p ∈ ((a.run w s.disk).1).clients, ∃ ws, t.Seated p ws wp := by
      intro p hp
      obtain ⟨ws, hws⟩ := hseat p hp
      exact ⟨ws, hn.seated hws⟩
    obtain ⟨hc, hn'⟩ := sendAll_chain (D := D.still) ht hseat' hD hrank
    exact ⟨hc, hn.trans hn'⟩
  · obtain ⟨p, hp⟩ := hone ws x y hask
    have hp' : t.Seated p ws wp := by
      apply hn.seated
      show (s.perform wp a).registry.seat p = _
      rw [hr]
      exact hp
    obtain ⟨cl, hcl, rfl, rfl⟩ := live_of_seat hp'
    obtain ⟨si, hsi, -⟩ := ht.info_of_live hcl
    constructor
    · exact send_seated ht hp' hD hrank
    · rw [sendOut, send_eq _ _ hsi]
      exact hn.note _

/-- A text that a client says in its world. -/
theorem chat_chain {p : ClientPtr} {ws : Ws} {wp : WorldPtr} {msg : Bytes} (h : s.Consistent)
    (hp : s.Seated p ws wp) (hD : D.wrld wp) (ha : ∀ msg, D.acts (.broadcast msg)) :
  Chain D s (s.chat p msg)
  := by
  obtain ⟨cl, hcl, rfl, rfl⟩ := live_of_seat hp
  obtain ⟨w, hw, -⟩ := h.world_of_live hcl
  rw [chat, withClient_eq _ hcl.1]
  split
  · exact (act_chain h hw hD (ha _) trivial (by simp)).of_still
  · exact Chain.refl _

/-- A pixel that a client sets. -/
theorem putPx_chain {p : ClientPtr} {ws : Ws} {wp : WorldPtr} {x y : Int32} {clr : RGB}
    (h : s.Consistent) (hp : s.Seated p ws wp) (hD : D.wrld wp)
    (ha : ∀ r, D.acts (.putPx x y clr r)) :
  Chain D s (s.putPx p x y clr)
  := by
  obtain ⟨cl, hcl, rfl, rfl⟩ := live_of_seat hp
  rw [putPx, withClient_eq _ hcl.1]
  dsimp only
  have hspend : Chain D.still s (if cl.isAdmin then s else s.change p .spendPixel) := by
    split
    · exact Chain.refl _
    · exact change_chain hcl hD trivial trivial
  generalize (if cl.isAdmin then s else s.change p .spendPixel) = t at hspend ⊢
  apply hspend.andThen h
  intro h₁ hstay₁
  obtain ⟨cl₁, hcl₁, hws₁, hwp₁⟩ := live_of_seat (hstay₁ hp)
  split
  · apply (change_chain (D := D.still) (c := .lastclr clr) hcl₁ (hwp₁ ▸ hD) trivial
      trivial).andThen h₁
    intro h₂ hstay₂
    obtain ⟨cl₂, hcl₂, -, hwp₂⟩ := live_of_seat (hstay₂ hcl₁.seat)
    obtain ⟨w, hw, -⟩ := h₂.world_of_live hcl₂
    rw [hwp₂, hwp₁] at hw
    exact (act_chain h₂ hw hD (ha _) trivial (by simp)).of_still
  · exact Chain.refl _

/-! ### Closing connections -/

omit [Platform] in
/-- The server `t` is `s` with another whitelist. -/
def Listed (s t : Server) : Prop := t = { s with ipwhitelist := t.ipwhitelist }

/-- The loop of `Server::set_lockdown`. -/
theorem whitelist_chain (h : s.Consistent) :
  Chain D s (s.connsws.foldl (fun s ws => s.withInfo ws fun si =>
    match si.player with
    | some p => s.withClient p fun cl =>
        if cl.isAdmin then { s with ipwhitelist := s.ipwhitelist.insert si.ip } else s
    | none => s) s)
  := by
  refine (foldl_chain (P := Listed s) ?_ (show Listed s s from rfl)).1
  intro t ws hws hn
  obtain ⟨si, hsi⟩ := h.mem_connsws.mp hws
  have hti : t.infos ws = some si := by rw [hn, hsi]
  rw [withInfo_eq _ hti]
  cases hplayer : si.player with
  | none => exact ⟨Chain.refl _, hn⟩
  | some p =>
      obtain ⟨cl, hcl, -⟩ := h.live_of_player hsi hplayer
      have hct : t.clients p = some cl := by rw [hn, hcl.1]
      dsimp only
      rw [withClient_eq _ hct]
      split
      · constructor
        · exact Chain.single (.lists : Allowed D t
            (.lists t.ipban (t.ipwhitelist.insert si.ip) t.ipblacklist))
        · rw [Listed, hn]
      · exact ⟨Chain.refl _, hn⟩

/-- Other lists of addresses. -/
theorem lists_chain (ipban ipwhitelist ipblacklist : List Bytes) :
  Chain D s { s with
    ipban := ipban, ipwhitelist := ipwhitelist, ipblacklist := ipblacklist }
  := Chain.single .lists

/-- Lockdown on or off. -/
theorem setLockdown_chain (state : Bool) (hl : D.locks) (h : s.Consistent) :
  Chain D s (s.setLockdown state)
  := by
  have hfirst : Chain D s { s with lockdown := state } := Chain.single (.lockdown hl)
  have h₁ := hfirst.consistent h
  rw [setLockdown]
  dsimp only
  apply hfirst.trans
  split
  · have hlist := whitelist_chain (D := D) h₁
    exact hlist.trans (admintell_chain _ (hlist.consistent h₁))
  · exact admintell_chain _ h₁

omit [Platform] in
/-- The record of a disconnection, and the check of lockdown if the player was an administrator:
lockdown is lifted, and then administrators are told so. -/
theorem noteGone_lift (s : Server) (admin : Bool) :
  ∃ guarded counted, ∀ t, t = (if admin && s.lockdown then (s.noteGone admin).lockdownCheck
      else s.noteGone admin) →
    t = s.lift admin guarded counted ∨
      t = (s.lift admin guarded counted).admintell (ofString "DEVLockdown mode disabled.")
  := by
  refine ⟨s.guarded, s.ipwhitelist.any (counted s.conns), ?_⟩
  rintro t rfl
  rw [lift]
  cases hlock : s.lockdown with
  | false =>
      left
      rw [Bool.and_false, if_neg Bool.false_ne_true, noteGone, note, hlock, Bool.false_and]
  | true =>
      rw [Bool.and_true, Bool.true_and]
      cases admin with
      | false =>
          left
          rw [if_neg Bool.false_ne_true, noteGone, note, hlock]
          rfl
      | true =>
          have hcheck : (s.noteGone true).lockdownCheck
              = if s.ipwhitelist.any (counted s.conns) then s.noteGone true
                else (s.noteGone true).setLockdown false := rfl
          rw [if_pos rfl, hcheck]
          cases hany : s.ipwhitelist.any (counted s.conns) with
          | true =>
              left
              rw [if_pos rfl, noteGone, note, hlock, hany]
              rfl
          | false =>
              right
              rw [if_neg Bool.false_ne_true, noteGone, note, hlock, hany]
              rfl

omit [Platform] in
/-- Closing a connection is a disconnection, its record, and a message to administrators if that
lifted lockdown. -/
theorem closeWs_eq {ws : Ws} {si : SocketInfo} (h : s.Consistent) (hws : s.infos ws = some si) :
  ∃ admin guarded counted, s.closeWs ws = (s.drop ws).lift admin guarded counted ∨
    s.closeWs ws = ((s.drop ws).lift admin guarded counted).admintell
      (ofString "DEVLockdown mode disabled.")
  := by
  have hlock : (s.drop ws).lockdown = s.lockdown := by rw [drop_rest h hws]
  have hclose : ∃ admin : Bool, s.closeWs ws =
      if admin && (s.drop ws).lockdown then ((s.drop ws).noteGone admin).lockdownCheck
      else (s.drop ws).noteGone admin := by
    rw [closeWs, onDisconnection, withInfo_eq _ hws, hlock]
    cases hp : si.player with
    | none =>
        use false
        rw [drop_none hws hp]
        rfl
    | some p =>
        obtain ⟨cl, hcl, -⟩ := h.live_of_player hws hp
        use cl.isAdmin
        dsimp only
        rw [withClient_eq _ hcl.1, drop_player hws hp hcl]
  obtain ⟨admin, hclose⟩ := hclose
  obtain ⟨guarded, counted, hlift⟩ := noteGone_lift (s.drop ws) admin
  exact ⟨admin, guarded, counted, hlift _ hclose⟩

/-- A connection that is closed. -/
theorem closeWs_chain {ws : Ws} {si : SocketInfo} (h : s.Consistent)
    (hws : s.infos ws = some si) (hd : D.drops ws)
    (hD : ∀ p cl, si.player = some p → s.clients p = some cl → D.wrld cl.wrld) :
  Chain D s (s.closeWs ws)
  := by
  have hdrop : Chain D s (s.drop ws) := Chain.single (.drop hws hd hD)
  obtain ⟨admin, guarded, counted, heq⟩ := closeWs_eq h hws
  have hlift : Chain D s ((s.drop ws).lift admin guarded counted) :=
    hdrop.trans (Chain.single (.gone hd))
  obtain heq | heq := heq
  · rw [heq]
    exact hlift
  · rw [heq]
    exact hlift.trans (admintell_chain _ (hlift.consistent h))

omit [Platform] in
/-- A client that is not to be deleted with its connection. -/
theorem unlink_eq {p : ClientPtr} {cl : Client} {w : World} (hp : s.Live p cl)
    (hw : s.objs cl.wrld = some w) :
  s.unlink p = { s with
    clients := Function.update s.clients p (some { cl with handledelete := false })
    pending := s.pending ++ [Callback.client p]
    objs := Function.update s.objs cl.wrld (some (w.rmCli p cl.id)) }
  := by
  simp only [unlink, withClient, hp.1, hp.2, if_true, withWorld, hw, putWorld]

omit [Platform] in
/-- A client that is unlinked already leaves as if it was not. -/
theorem leave_unlink {p : ClientPtr} {cl : Client} {w : World} (hp : s.Live p cl)
    (hw : s.objs cl.wrld = some w) :
  (s.unlink p).leave p = s.leave p
  := by
  have hcl : (s.unlink p).clients p = some { cl with handledelete := false } := by
    rw [unlink_eq hp hw]
    exact Function.update_self _ _ _
  have hagain : (s.unlink p).unlink p = s.unlink p := by
    rw [unlink, withClient_eq _ hcl, if_neg Bool.false_ne_true]
  rw [leave, withClient_eq _ hcl, hagain, leave, withClient_eq _ hp.1]

omit [Platform] in
/-- Deleting a client closes its connection. -/
theorem safedelete_eq {p : ClientPtr} {cl : Client} (h : s.Consistent) (hp : s.Live p cl) :
  s.safedelete p = s.closeWs cl.ws
  := by
  obtain ⟨si, hsi, hplayer⟩ := h.info_of_live hp
  obtain ⟨w, hw, -⟩ := h.world_of_live hp
  have hun := unlink_eq hp hw
  have hsi' : (s.unlink p).infos cl.ws = some si := by rw [hun, hsi]
  have hcl : (s.unlink p).clients p = some { cl with handledelete := false } := by
    rw [hun]
    exact Function.update_self _ _ _
  have hlock : (s.unlink p).lockdown = s.lockdown := by rw [hun]
  rw [safedelete, withClient_eq _ hp.1, if_pos hp.2, closeWs, onDisconnection,
    withInfo_eq _ hsi', closeWs, onDisconnection, withInfo_eq _ hsi, hplayer]
  dsimp only
  rw [withClient_eq _ hcl, withClient_eq _ hp.1, leave_unlink hp hw, hlock]
  rfl

/-- A client that is deleted with its connection. -/
theorem safedelete_chain {p : ClientPtr} {ws : Ws} {wp : WorldPtr} (h : s.Consistent)
    (hp : s.Seated p ws wp) (hd : D.drops ws) (hD : D.wrld wp) :
  Chain D s (s.safedelete p)
  := by
  obtain ⟨cl, hcl, rfl, rfl⟩ := live_of_seat hp
  obtain ⟨si, hsi, hplayer⟩ := h.info_of_live hcl
  rw [safedelete_eq h hcl]
  apply closeWs_chain h hsi hd
  intro q cl' hq hcl'
  rw [hplayer] at hq
  cases hq
  rw [hcl.1] at hcl'
  cases hcl'
  exact hD

/-! ### What closing changes -/

/-- The server `t` is `s` with another state of lockdown and another log. -/
def Checked (s t : Server) : Prop := t = { s with lockdown := t.lockdown, log := t.log }

/-- Closing a connection is a disconnection, up to lockdown and the log. -/
theorem closeWs_checked {ws : Ws} {si : SocketInfo} (h : s.Consistent)
    (hws : s.infos ws = some si) :
  Checked (s.drop ws) (s.closeWs ws)
  := by
  have h' : (s.drop ws).Consistent :=
    h.step (D := Scope.all) (l := .drop ws)
      (.drop hws trivial fun _ _ _ _ => trivial)
  obtain ⟨admin, guarded, counted, heq⟩ := closeWs_eq h hws
  obtain heq | heq := heq
  · rw [heq]
    rfl
  · have hlift : ((s.drop ws).lift admin guarded counted).Consistent :=
      ⟨h'.registry, h'.defaultRank, h'.origin, h'.proxies⟩
    have hn := (admintell_spec (D := Scope.all) (ofString "DEVLockdown mode disabled.") hlift).2
    rw [heq, Checked, hn]
    rfl

/-- A connection that is closed is gone. -/
theorem closeWs_infos {ws : Ws} {si : SocketInfo} (h : s.Consistent)
    (hws : s.infos ws = some si) :
  (s.closeWs ws).infos = Function.update s.infos ws none
  := by
  rw [closeWs_checked h hws]
  exact infos_drop h hws

/-- The clients of other connections are still there. -/
theorem Live.closeWs {ws : Ws} {si : SocketInfo} {p : ClientPtr} {cl : Client}
    (hp : s.Live p cl) (h : s.Consistent) (hws : s.infos ws = some si) (hne : cl.ws ≠ ws) :
  (s.closeWs ws).Live p cl
  := by
  rw [closeWs_checked h hws]
  exact hp.drop h hws hne

/-! ### Loops that close connections -/

/-- A loop over open connections each turn of which closes no connection but its own. -/
theorem foldl_close {f : Server → Ws → Server} {l : List Ws} (hl : l.Nodup)
    (hopen : ∀ ws ∈ l, ∃ si, s.infos ws = some si) (h : s.Consistent)
    (hf : ∀ t ws si, t.Consistent → t.infos ws = some si → Chain (D.only ws) t (f t ws)) :
  Chain D s (l.foldl f s)
  := by
  induction l generalizing s with
  | nil => exact Chain.refl _
  | cons ws l ih =>
      obtain ⟨hnew, hl⟩ := List.nodup_cons.mp hl
      obtain ⟨si, hsi⟩ := hopen ws List.mem_cons_self
      have hc : Chain (D.only ws) s (f s ws) := hf s ws si h hsi
      have hopen' : ∀ ws' ∈ l, ∃ si', (f s ws).infos ws' = some si' := by
        intro ws' hmem
        have hne : ws' ≠ ws := fun heq => hnew (heq ▸ hmem)
        obtain ⟨si', hsi'⟩ := hopen ws' (List.mem_cons_of_mem ws hmem)
        obtain ⟨hplayer, -⟩ := hc.stays h fun (hd : (D.only ws).drops ws') => hne hd.1
        obtain ⟨si'', hsi'', -⟩ :=
          registry_player.mp (hplayer.trans (registry_player.mpr ⟨si', hsi', rfl⟩))
        exact ⟨si'', hsi''⟩
      have hrest : Chain D (f s ws) (l.foldl f (f s ws)) := ih hl hopen' (hc.consistent h)
      have hfirst : Chain D s (f s ws) :=
        hc.mono (D.only_within ws)
      exact hfirst.trans hrest

/-- Closing a connection in the scope in which only it may be closed. -/
theorem closeWs_only {ws : Ws} {si : SocketInfo} (h : s.Consistent) (hws : s.infos ws = some si)
    (hd : D.drops ws) (hD : ∀ wp, D.wrld wp) :
  Chain (D.only ws) s (s.closeWs ws)
  := closeWs_chain h hws ⟨rfl, hd⟩ fun _ _ _ _ => hD _

/-- All clients of a world are kicked. -/
theorem kickallWorld_chain (wrld : WorldPtr) (h : s.Consistent) (hd : ∀ ws, D.drops ws)
    (hD : ∀ wp, D.wrld wp) :
  Chain D s (s.kickallWorld wrld)
  := by
  apply foldl_close h.registry.connsws_nodup (fun ws hws => h.mem_connsws.mp hws) h
  intro t ws si ht hsi
  rw [withInfo_eq _ hsi]
  cases hplayer : si.player with
  | none => exact Chain.refl _
  | some p =>
      obtain ⟨cl, hcl, rfl⟩ := ht.live_of_player hsi hplayer
      dsimp only
      rw [withClient_eq _ hcl.1]
      split
      · rw [safedelete_eq ht hcl]
        exact closeWs_only ht hsi (hd _) hD
      · exact Chain.refl _

/-- All clients are kicked. -/
theorem kickall_chain (h : s.Consistent) (hd : ∀ ws, D.drops ws) (hD : ∀ wp, D.wrld wp) :
  Chain D s s.kickall
  := by
  apply foldl_close h.registry.connsws_nodup (fun ws hws => h.mem_connsws.mp hws) h
  intro t ws si ht hsi
  rw [withInfo_eq _ hsi]
  cases hplayer : si.player with
  | none => exact closeWs_only ht hsi (hd _) hD
  | some p =>
      obtain ⟨cl, hcl, rfl⟩ := ht.live_of_player hsi hplayer
      dsimp only
      rw [withClient_eq _ hcl.1]
      split
      · rw [safedelete_eq ht hcl]
        exact closeWs_only ht hsi (hd _) hD
      · exact Chain.refl _

/-- All connections from an address are closed. -/
theorem closeIp_chain (ip : Bytes) (h : s.Consistent) (hd : ∀ ws, D.drops ws)
    (hD : ∀ wp, D.wrld wp) :
  Chain D s (s.closeIp ip)
  := by
  apply foldl_close h.registry.connsws_nodup (fun ws hws => h.mem_connsws.mp hws) h
  intro t ws si ht hsi
  rw [withInfo_eq _ hsi]
  split
  · exact closeWs_only ht hsi (hd _) hD
  · exact Chain.refl _

/-- A loop over some open connections that closes those that meet a condition. -/
theorem foldl_closeIf_infos {c : SocketInfo → Prop} [DecidablePred c] {l : List Ws} (hl : l.Nodup)
    (hopen : ∀ ws ∈ l, ∃ si, s.infos ws = some si) (h : s.Consistent) (ws : Ws) :
  (l.foldl (fun s ws => s.withInfo ws fun si => if c si then s.closeWs ws else s) s).infos ws
    = if ws ∈ l then (s.infos ws).filter fun si => ¬ c si else s.infos ws
  := by
  induction l generalizing s with
  | nil => rfl
  | cons ws' l ih =>
      obtain ⟨hnew, hl⟩ := List.nodup_cons.mp hl
      obtain ⟨si', hsi'⟩ := hopen ws' List.mem_cons_self
      rw [List.foldl_cons, withInfo_eq _ hsi']
      split
      case isTrue hc =>
        have hinfos := closeWs_infos h hsi'
        have hopen' : ∀ a ∈ l, ∃ si, (s.closeWs ws').infos a = some si := by
          intro a ha
          obtain ⟨si, hsi⟩ := hopen a (List.mem_cons_of_mem ws' ha)
          use si
          have hne : a ≠ ws' := fun heq => hnew (heq ▸ ha)
          rw [hinfos, Function.update_of_ne hne, hsi]
        have h' : (s.closeWs ws').Consistent :=
          (closeWs_chain (D := Scope.all) h hsi' trivial
            fun _ _ _ _ => trivial).consistent h
        rw [ih hl hopen' h', hinfos, Function.update_apply]
        by_cases heq : ws = ws'
        · subst heq
          rw [if_neg hnew, if_pos rfl, if_pos List.mem_cons_self, hsi', Option.filter_some,
            if_neg (by simp [hc])]
        · rw [if_neg heq]
          simp only [List.mem_cons, heq, false_or]
      case isFalse hc =>
        rw [ih hl (fun a ha => hopen a (List.mem_cons_of_mem ws' ha)) h]
        by_cases heq : ws = ws'
        · subst heq
          rw [if_neg hnew, if_pos List.mem_cons_self, hsi', Option.filter_some,
            if_pos (by simp [hc])]
        · simp only [List.mem_cons, heq, false_or]

/-- The same over all connections. -/
theorem closeIf_infos {c : SocketInfo → Prop} [DecidablePred c] (h : s.Consistent) (ws : Ws) :
  (s.connsws.foldl (fun s ws => s.withInfo ws fun si => if c si then s.closeWs ws else s)
    s).infos ws = (s.infos ws).filter fun si => ¬ c si
  := by
  have hnodup : s.connsws.Nodup := h.registry.connsws_nodup
  rw [foldl_closeIf_infos hnodup (fun ws hws => h.mem_connsws.mp hws) h ws]
  split
  case isTrue => rfl
  case isFalse hws =>
    cases hsi : s.infos ws with
    | none => rfl
    | some si => exact absurd (h.mem_connsws.mpr ⟨si, hsi⟩) hws

/-- The loop of `Server::kickip` leaves the connections from other addresses. -/
theorem closeIp_infos (ip : Bytes) (h : s.Consistent) (ws : Ws) :
  (s.closeIp ip).infos ws = (s.infos ws).filter fun si => si.ip ≠ ip
  := closeIf_infos h ws

/-- All connections from an address are kicked. -/
theorem kickip_chain (ip : Bytes) (h : s.Consistent) (hd : ∀ ws, D.drops ws)
    (hD : ∀ wp, D.wrld wp) :
  Chain D s (s.kickip ip)
  := by
  have hclose := closeIp_chain (D := D) ip h hd hD
  have h₁ := hclose.consistent h
  rw [kickip]
  dsimp only
  apply hclose.trans
  split
  · obtain ⟨htell, hn⟩ := admintell_spec (D := D) (ofString "DEVKicked IP: " ++ ip) h₁
    apply htell.trans
    apply Chain.single (.eraseConns _ : Allowed D _ (.eraseConns ip))
    intro ws si hsi
    rw [hn.same.1, closeIp_infos ip h, Option.filter_eq_some_iff] at hsi
    exact of_decide_eq_true hsi.2
  · exact Chain.refl _

/-- An address is banned. -/
theorem banip_chain (ip : Bytes) (h : s.Consistent) (hd : ∀ ws, D.drops ws)
    (hD : ∀ wp, D.wrld wp) :
  Chain D s (s.banip ip)
  := by
  rw [banip]
  split
  · exact Chain.refl _
  · dsimp only
    have hlist : Chain D s { s with ipban := s.ipban.insert ip } :=
      Chain.single (.lists : Allowed D s
        (.lists (s.ipban.insert ip) s.ipwhitelist s.ipblacklist))
    have htell := hlist.trans (admintell_chain (ofString "DEVBanned IP: " ++ ip)
      (hlist.consistent h))
    apply htell.trans
    split
    · exact kickip_chain ip (htell.consistent h) hd hD
    · exact Chain.refl _

/-! ### Limits -/

omit [Platform] in
/-- A connection is closed in the same way through its client. -/
theorem kickWs_eq {ws : Ws} {si : SocketInfo} (h : s.Consistent) (hws : s.infos ws = some si) :
  s.kickWs ws = s.closeWs ws
  := by
  rw [kickWs, withInfo_eq _ hws]
  cases hplayer : si.player with
  | none => rfl
  | some p =>
      obtain ⟨cl, hcl, rfl⟩ := h.live_of_player hws hplayer
      exact safedelete_eq h hcl

omit [Platform] in
/-- A connection above the limit is open, and has no administrator. -/
theorem overLimit_spec {max : UInt8} {ws : Ws} (hover : s.overLimit max ws = true) :
  ∃ si, s.infos ws = some si ∧
    ∀ p cl, si.player = some p → s.clients p = some cl → cl.isAdmin = false
  := by
  rw [overLimit, Option.any_eq_true] at hover
  obtain ⟨si, hsi, hover⟩ := hover
  refine ⟨si, hsi, ?_⟩
  intro p cl hp hcl
  rw [hp, Bool.and_eq_true] at hover
  have hnot := hover.2
  dsimp only at hnot
  rw [hcl] at hnot
  simpa using hnot

/-- The limit closes connections, but not those of administrators. -/
theorem limitLoop_spec {max : UInt8} (fuel : ℕ) (h : s.Consistent) (hd : ∀ ws, D.drops ws)
    (hD : ∀ wp, D.wrld wp) :
  Chain D s (limitLoop max fuel s) ∧
    ∀ p cl, s.Live p cl → cl.isAdmin = true → (limitLoop max fuel s).Live p cl
  := by
  induction fuel generalizing s with
  | zero => exact ⟨Chain.refl _, fun _ _ hp _ => hp⟩
  | succ fuel ih =>
      rw [limitLoop]
      split
      case h_2 => exact ⟨Chain.refl _, fun _ _ hp _ => hp⟩
      case h_1 ws hfind =>
        obtain ⟨si, hsi, hadmin⟩ := overLimit_spec (List.find?_some hfind)
        rw [kickWs_eq h hsi]
        have hclose := closeWs_chain (D := D) h hsi (hd ws) fun _ _ _ _ => hD _
        obtain ⟨hrest, hlive⟩ := ih (hclose.consistent h)
        refine ⟨hclose.trans hrest, ?_⟩
        intro p cl hp hcl
        apply hlive p cl _ hcl
        apply hp.closeWs h hsi
        rintro rfl
        obtain ⟨si', hsi', hplayer⟩ := h.info_of_live hp
        rw [hsi] at hsi'
        cases hsi'
        rw [hadmin p cl hplayer hp.1] at hcl
        cases hcl

/-- Other settings. -/
theorem config_chain (t : Server) :
  Chain D s (s.configure t)
  := Chain.single .config

/-- Another limit of connections from one address, by which admins stay. -/
theorem setMaxIpConns_spec (max : UInt8) (h : s.Consistent) (hd : ∀ ws, D.drops ws)
    (hD : ∀ wp, D.wrld wp) :
  Chain D s (s.setMaxIpConns max) ∧
    ∀ p cl, s.Live p cl → cl.isAdmin = true → (s.setMaxIpConns max).Live p cl
  := by
  have hconfig : Chain D s { s with maxconns := max.toUInt32 } :=
    config_chain { s with maxconns := max.toUInt32 }
  obtain ⟨hloop, hlive⟩ := limitLoop_spec (s.connsws.length + 1)
    (hconfig.consistent h) hd hD
  exact ⟨hconfig.trans hloop, fun p cl hp hcl => hlive p cl hp hcl⟩

/-- Setting a switch and telling administrators. -/
theorem setCaptchaProtection_chain (state : Bool) (h : s.Consistent) :
  Chain D s (s.setCaptchaProtection state)
  := by
  have hconfig : Chain D s { s with captchaRequired := state } :=
    config_chain { s with captchaRequired := state }
  have h₁ := hconfig.consistent h
  rw [setCaptchaProtection]
  apply hconfig.trans
  split
  · exact admintell_chain _ h₁
  · exact admintell_chain _ h₁

omit [Platform] in
/-- No `SocketInfo` has an origin, so that none is suspicious. -/
theorem instabanLoop_eq (fuel : ℕ) (h : s.Consistent) :
  instabanLoop fuel s = s
  := by
  cases fuel with
  | zero => rfl
  | succ fuel =>
      have hnone : (s.connsws.find? fun ws =>
          (s.infos ws).any fun si => si.origin = ofString "(None)") = none := by
        apply List.find?_eq_none.mpr
        intro ws hws hany
        rw [Option.any_eq_true] at hany
        obtain ⟨si, hsi, horigin⟩ := hany
        rw [h.origin hsi] at horigin
        exact absurd horigin (by decide)
      rw [instabanLoop, hnone]

/-- Bans of wrong origins on or off. -/
theorem setInstaban_chain (state : Bool) (h : s.Consistent) :
  Chain D s (s.setInstaban state)
  := by
  have hconfig : Chain D s { s with instaban := state } := config_chain { s with instaban := state }
  have h₁ := hconfig.consistent h
  rw [setInstaban]
  dsimp only
  apply hconfig.trans
  split
  · rw [instabanLoop_eq _ h₁]
    exact admintell_chain _ h₁
  · exact admintell_chain _ h₁

omit [Platform] in
/-- No address is being checked for a proxy, so that none is kicked. -/
theorem setProxycheck_eq (state : Bool) (h : s.Consistent) :
  s.setProxycheck state = ({ s with proxyLock := state } : Server).admintell
    (if state then ofString "DEVProxy check enabled." else ofString "DEVProxy check disabled.")
  := by
  have hproxies : ({ s with proxyLock := state } : Server).proxyqueryChecking = [] := h.proxies
  rw [setProxycheck]
  cases state with
  | true => rfl
  | false =>
      dsimp only
      rw [if_pos (by simp), hproxies, List.foldl_nil, if_neg Bool.false_ne_true]

/-- The check for proxies on or off. -/
theorem setProxycheck_chain (state : Bool) (h : s.Consistent) :
  Chain D s (s.setProxycheck state)
  := by
  have hconfig : Chain D s { s with proxyLock := state } :=
    config_chain { s with proxyLock := state }
  rw [setProxycheck_eq state h]
  exact hconfig.trans (admintell_chain _ (hconfig.consistent h))

/-! ### Saving and warning -/

/-- Saving all worlds leaves the registry alone. -/
theorem foldl_saveWorld_chain {l : List WorldPtr}
    (hl : ∀ wp ∈ l, ∃ r, s.registry.room wp = some r) (hD : ∀ wp, D.wrld wp) :
  Chain D s (l.foldl saveWorld s) ∧ (l.foldl saveWorld s).registry = s.registry
  := by
  refine foldl_chain (P := fun t => t.registry = s.registry) ?_ rfl
  intro t wp hwp ht
  obtain ⟨r, hr⟩ := hl wp hwp
  rw [← ht] at hr
  obtain ⟨w, hw, -⟩ := registry_room.mp hr
  constructor
  · exact Chain.single (.save hw (hD wp))
  · rw [registry_saveWorld, ht]

omit [Platform] in
/-- The worlds that have a name are there. -/
theorem room_of_entry {wp : WorldPtr} (h : s.Consistent)
    (hwp : wp ∈ s.worlds.entries.map fun e => e.2) :
  ∃ r, s.registry.room wp = some r
  := by
  obtain ⟨⟨name, wp'⟩, hmem, rfl⟩ := List.mem_map.mp hwp
  obtain ⟨r, hr, -⟩ := h.registry.room_of_worlds (AList.mem_lookup_iff.mpr hmem)
  exact ⟨r, hr⟩

/-- All worlds are saved. -/
theorem saveNow_chain (h : s.Consistent) (hD : ∀ wp, D.wrld wp) :
  Chain D s s.saveNow
  := by
  have hsave := (foldl_saveWorld_chain (D := D) (l := s.worlds.entries.map fun e => e.2)
    (fun wp hwp => room_of_entry h hwp) hD).1
  rw [saveNow]
  apply hsave.trans
  have hfiles : ∀ t : Server, Chain D t t.writefiles := fun t => Chain.single .files
  apply (hfiles _).trans
  exact admintell_chain _ ((hsave.trans (hfiles _)).consistent h)

end Server

end Owop
