import OwopServer.Server.Handlers
import OwopServer.Server.Views

/-!
# What the functions of the server leave

No function that a handler or a command calls opens a connection or makes a client, and none
touches the limits of what clients say.  Binary messages can be read, and when a rank or a quota
is set, the client is told.
-/

namespace Owop

open Bytes (ofString)

/-- What stays as it is when a client changes. -/
structure Client.Keeps (cl cl' : Client) : Prop where
  id : cl'.id = cl.id
  ws : cl'.ws = cl.ws
  penalty : cl'.penalty = cl.penalty
  chatlimit : cl'.chatlimit = cl.chatlimit

namespace Client.Keeps

variable {cl cl' cl'' : Client}

/-- A client keeps what it has. -/
theorem refl (cl : Client) :
  cl.Keeps cl
  := ⟨rfl, rfl, rfl, rfl⟩

/-- Two changes of a client, one after the other. -/
theorem trans (h : cl.Keeps cl') (h' : cl'.Keeps cl'') :
  cl.Keeps cl''
  := ⟨h'.id.trans h.id, h'.ws.trans h.ws, h'.penalty.trans h.penalty,
    h'.chatlimit.trans h.chatlimit⟩

end Client.Keeps

namespace Server

/-- What the functions of the server leave as it is. -/
structure Leaves (s s' : Server) : Prop where
  clock : s'.clock = s.clock
  nextWs : s'.nextWs = s.nextWs
  infos : ∀ ws, s'.infos ws = s.infos ws ∨ s'.infos ws = none
  clients : ∀ p cl', s'.clients p = some cl' → ∃ cl, s.clients p = some cl ∧ cl.Keeps cl'
  captcha : ∀ ws, s'.infos ws ≠ none → (s'.view ws).captcha = (s.view ws).captcha
  readable : s.Readable → s'.Readable

/-- And what clients know of themselves is kept. -/
structure Steady (s s' : Server) : Prop extends Leaves s s' where
  knows : s.Owned → ∀ R Q, s.Knows R Q → s'.Knows R Q

variable {s s' s'' : Server} {p : ClientPtr} {ws : Ws}

/-- A connection that is open afterwards was open before, and is as it was. -/
theorem Leaves.info (h : s.Leaves s') {si : SocketInfo} (hws : s'.infos ws = some si) :
  s.infos ws = some si
  := by
  obtain hsame | hnone := h.infos ws
  · rw [← hsame, hws]
  · rw [hnone] at hws
    cases hws

/-- No connection is opened. -/
theorem Leaves.open_of_open (h : s.Leaves s') (hws : s'.infos ws ≠ none) :
  s.infos ws ≠ none
  := by
  obtain ⟨si, hsi⟩ := Option.ne_none_iff_exists'.mp hws
  rw [h.info hsi]
  exact Option.some_ne_none si

/-- Every connection still belongs to its client. -/
theorem Leaves.owned (h : s.Leaves s') (hs : s.Owned) :
  s'.Owned
  := by
  intro p cl' hcl' si hsi
  obtain ⟨cl, hcl, hkeeps⟩ := h.clients p cl' hcl'
  rw [hkeeps.ws] at hsi
  exact hs p cl hcl si (h.info hsi)

/-- One function after the other. -/
theorem Leaves.trans (h : s.Leaves s') (h' : s'.Leaves s'') :
  s.Leaves s''
  := by
  constructor
  case clock => exact h'.clock.trans h.clock
  case nextWs => exact h'.nextWs.trans h.nextWs
  case infos =>
    intro ws
    obtain hsame | hnone := h'.infos ws
    · rw [hsame]
      exact h.infos ws
    · exact Or.inr hnone
  case clients =>
    intro p cl'' hcl''
    obtain ⟨cl', hcl', hkeeps'⟩ := h'.clients p cl'' hcl''
    obtain ⟨cl, hcl, hkeeps⟩ := h.clients p cl' hcl'
    exact ⟨cl, hcl, hkeeps.trans hkeeps'⟩
  case captcha =>
    intro ws hws
    rw [h'.captcha ws hws, h.captcha ws (h'.open_of_open hws)]
  case readable => exact fun hs => h'.readable (h.readable hs)

/-- Nothing is done. -/
theorem Steady.refl (s : Server) :
  s.Steady s
  := ⟨⟨rfl, rfl, fun _ => Or.inl rfl, fun _ cl h => ⟨cl, h, Client.Keeps.refl cl⟩, fun _ _ => rfl,
    id⟩, fun _ _ _ => id⟩

/-- One function after the other. -/
theorem Steady.trans (h : s.Steady s') (h' : s'.Steady s'') :
  s.Steady s''
  := ⟨h.toLeaves.trans h'.toLeaves,
    fun hs R Q hknows => h'.knows (h.owned hs) R Q (h.knows hs R Q hknows)⟩

/-! ### Small changes -/

/-- What clients know is not concerned. -/
theorem Steady.rest (hclock : s'.clock = s.clock) (hnext : s'.nextWs = s.nextWs)
    (hinfos : s'.infos = s.infos) (hclients : s'.clients = s.clients) (hlog : s'.log = s.log) :
  s.Steady s'
  := by
  have hview : ∀ ws, s'.view ws = s.view ws := by
    intro ws
    rw [view, view, hlog]
  refine ⟨⟨hclock, hnext, fun ws => Or.inl (congrFun hinfos ws), fun p cl hcl => ?_,
    fun ws _ => congrArg View.captcha (hview ws), fun hs => ?_⟩, fun _ R Q hknows p cl hcl hws => ?_⟩
  · rw [hclients] at hcl
    exact ⟨cl, hcl, Client.Keeps.refl cl⟩
  · rw [Readable, hlog]
    exact hs
  · rw [hclients] at hcl
    rw [hinfos] at hws
    rw [hview]
    exact hknows p cl hcl hws

/-- Using what is not there is only noted. -/
theorem misuse_steady (s : Server) :
  s.Steady s.misuse
  := .rest rfl rfl rfl rfl rfl

/-- A change of one client. -/
theorem update_steady {cl cl' : Client} (hcl : s.clients p = some cl) (hkeeps : cl.Keeps cl')
    (hrank : cl'.rank = cl.rank) (hrate : cl'.pixupdlimit.rate = cl.pixupdlimit.rate)
    (hper : cl'.pixupdlimit.per = cl.pixupdlimit.per) :
  s.Steady { s with clients := Function.update s.clients p (some cl') }
  := by
  refine ⟨⟨rfl, rfl, fun _ => Or.inl rfl, fun q clq hq => ?_, fun _ _ => rfl, id⟩, ?_⟩
  · obtain ⟨rfl, rfl⟩ | ⟨-, hq⟩ := Table.update_eq_some.mp hq
    · exact ⟨cl, hcl, hkeeps⟩
    · exact ⟨clq, hq, Client.Keeps.refl clq⟩
  · intro _ R Q hknows q clq hq hws
    obtain ⟨rfl, rfl⟩ | ⟨-, hq⟩ := Table.update_eq_some.mp hq
    · rw [hkeeps.ws] at hws
      rw [hkeeps.ws, hkeeps.id, hrank, hrate, hper]
      exact hknows q cl hcl hws
    · exact hknows q clq hq hws

/-- Something is recorded that no client hears, or that tells it nothing for its view. -/
theorem note_steady {a : Action} (ha : ∀ ws op msg, a = .send ws op msg → Plain op msg) :
  s.Steady (s.note a)
  := by
  have hview : ∀ ws, (s.note a).view ws = s.view ws := by
    intro ws
    rw [view_note]
    cases a with
    | send ws' op msg =>
        have hplain := ha ws' op msg rfl
        cases op with
        | text => rfl
        | binary =>
            obtain ⟨told, hread, hsame⟩ := hplain
            rw [View.hear, hread, Option.map_some, Option.getD_some, hsame, ite_self]
    | gone lockdown admin guarded counted | exec ws' args | setrank rank ws' | edit name e => rfl
  refine ⟨⟨rfl, rfl, fun _ => Or.inl rfl, fun q cl hq => ⟨cl, hq, Client.Keeps.refl cl⟩,
    fun ws _ => congrArg View.captcha (hview ws), fun hs => hs.note ?_⟩, ?_⟩
  · intro ws msg hsend
    obtain ⟨told, hread, -⟩ := ha ws .binary msg hsend
    rw [hread]
    rfl
  · intro _ R Q hknows q cl hq hws
    rw [hview]
    exact hknows q cl hq hws

/-! ### Using what is there -/

/-- A client is used, if it is there. -/
theorem withClient_steady {k : Client → Server}
    (h : ∀ cl, s.clients p = some cl → s.Steady (k cl)) :
  s.Steady (s.withClient p k)
  := by
  rw [withClient]
  split
  case h_1 cl hcl => exact h cl hcl
  case h_2 => exact misuse_steady s

/-- A connection is used, if it is there. -/
theorem withInfo_steady {k : SocketInfo → Server}
    (h : ∀ si, s.infos ws = some si → s.Steady (k si)) :
  s.Steady (s.withInfo ws k)
  := by
  rw [withInfo]
  split
  case h_1 si hsi => exact h si hsi
  case h_2 => exact misuse_steady s

/-- A world is used, if it is there. -/
theorem withWorld_steady {wp : WorldPtr} {k : World → Server}
    (h : ∀ w, s.objs wp = some w → s.Steady (k w)) :
  s.Steady (s.withWorld wp k)
  := by
  rw [withWorld]
  split
  case h_1 w hw => exact h w hw
  case h_2 => exact misuse_steady s

/-- A loop whose turns leave what they must. -/
theorem foldl_steady {α : Type*} {f : Server → α → Server}
    (hf : ∀ (t : Server) (a : α), t.Steady (f t a))
    (l : List α) (s : Server) :
  s.Steady (l.foldl f s)
  := by
  induction l generalizing s with
  | nil => exact .refl s
  | cons a l ih => exact (hf s a).trans (ih (f s a))

/-! ### Messages -/

/-- A message is sent that tells nothing for the view. -/
theorem send_steady (s : Server) (ws : Ws) {op : OpCode} {msg : Bytes} (h : Plain op msg) :
  s.Steady (s.send ws op msg)
  := by
  apply withInfo_steady
  intro si _
  apply note_steady
  rintro ws' op' msg' ⟨⟩
  exact h

/-- A text is sent to a client. -/
theorem tell_steady (s : Server) (p : ClientPtr) (msg : Bytes) :
  s.Steady (s.tell p msg)
  := by
  apply withClient_steady
  intro cl _
  exact send_steady s cl.ws trivial

/-- A message of a world is sent to one of its clients or to all. -/
theorem sendOut_steady (s : Server) (w : World) {out : Out} (h : out.Plain) :
  s.Steady (s.sendOut w out)
  := by
  cases out with
  | all op msg =>
      apply foldl_steady
      intro t q
      apply withClient_steady
      intro cl _
      exact send_steady t cl.ws h
  | one ws op msg => exact send_steady s ws h

/-- A text is sent to all administrators. -/
theorem admintell_steady (s : Server) (msg : Bytes) :
  s.Steady (s.admintell msg)
  := by
  apply foldl_steady
  intro t ws
  apply withInfo_steady
  intro si _
  split
  case h_1 q _ =>
    apply withClient_steady
    intro cl _
    split
    · exact tell_steady t q msg
    · exact .refl t
  case h_2 => exact .refl t

/-- A text is sent on all connections. -/
theorem broadcastmsg_steady (s : Server) (msg : Bytes) :
  s.Steady (s.broadcastmsg msg)
  := foldl_steady (fun t ws => send_steady t ws (show Plain .text msg from trivial)) _ s

/-- Texts are sent to a client, one after the other. -/
theorem tells_steady (s : Server) (p : ClientPtr) (msgs : List Bytes) :
  s.Steady (msgs.foldl (fun s msg => s.tell p msg) s)
  := foldl_steady (fun t msg => tell_steady t p msg) msgs s

/-! ### Clients -/

/-- A change of a client that neither its limits nor its view is concerned with. -/
def Slight : ClientChange → Prop
  | .penalty => False
  | .spendChat => False
  | .rank _ => False
  | .pbucket _ _ => False
  | _ => True

/-- A client changes only in what it is not told by binary messages. -/
theorem change_steady (s : Server) (p : ClientPtr) {c : ClientChange} (h : Slight c) :
  s.Steady (s.change p c)
  := by
  apply withClient_steady
  intro cl hcl
  cases c with
  | nick name | stealth state | mute state | lastclr clr =>
      exact update_steady hcl ⟨rfl, rfl, rfl, rfl⟩ rfl rfl rfl
  | spendPixel =>
      obtain ⟨hrate, hper, -⟩ := cl.pixupdlimit.rate_canSpend s.clock 1
      exact update_steady hcl ⟨rfl, rfl, rfl, rfl⟩ rfl hrate hper
  | penalty | spendChat | rank r | pbucket rate per => exact h.elim

/-- A client gets another position. -/
theorem place_steady (s : Server) (p : ClientPtr) (pos : PInfo) :
  s.Steady (s.place p pos)
  := by
  apply withClient_steady
  intro cl hcl
  have hpos : s.Steady { s with clients := Function.update s.clients p (some { cl with pos := pos }) }
    := update_steady hcl ⟨rfl, rfl, rfl, rfl⟩ rfl rfl rfl
  apply hpos.trans
  apply withWorld_steady
  intro w _
  exact .rest rfl rfl rfl rfl rfl

/-- A client is told its new position, which is not in its view. -/
theorem teleport_steady (s : Server) (p : ClientPtr) (x y : Int32) :
  s.Steady (s.teleport p x y)
  := by
  apply withClient_steady
  intro cl _
  exact (send_steady s cl.ws (plain_teleport x y)).trans (place_steady _ p _)

/-! ### Ranks and quotas -/

/-- A message that is sent to a client concerns nobody else. -/
theorem view_sent {cl clq : Client} {q : ClientPtr} {msg : Bytes} {told : Told} (hs : s.Owned)
    (hcl : s.clients p = some cl) (hread : readMessage msg = some told)
    (hq : s.clients q = some clq) (hws : (s.send cl.ws .binary msg).infos clq.ws ≠ none) :
  s.infos clq.ws ≠ none ∧ (s.send cl.ws .binary msg).view clq.ws
    = if q = p then (s.view clq.ws).receive told else s.view clq.ws
  := by
  cases hinfo : s.infos cl.ws with
  | none =>
      rw [send, withInfo, hinfo] at hws ⊢
      refine ⟨hws, ?_⟩
      by_cases hqp : q = p
      · subst hqp
        obtain rfl := Option.some.inj (hcl.symm.trans hq)
        exact absurd hinfo hws
      · rw [if_neg hqp]
        rfl
  | some si =>
      rw [send_eq _ _ hinfo] at hws ⊢
      have hopen : s.infos clq.ws ≠ none := hws
      refine ⟨hopen, ?_⟩
      rw [view_send hread]
      by_cases hqp : q = p
      · subst hqp
        obtain rfl := Option.some.inj (hcl.symm.trans hq)
        rw [if_pos rfl, if_pos rfl]
      · rw [if_neg hqp, if_neg]
        intro hsame
        rw [← hsame, hinfo] at hopen
        have hplayer := hs p cl hcl si hinfo
        have hplayer' := hs q clq hq si (by rw [← hsame, hinfo])
        rw [hplayer] at hplayer'
        exact hqp (Option.some.inj hplayer').symm

/-- A message is sent that may tell a client something, but nothing of its captcha. -/
theorem send_leaves (s : Server) (ws : Ws) {msg : Bytes} {told : Told}
    (hread : readMessage msg = some told)
    (hcaptcha : ∀ v : View, (v.receive told).captcha = v.captcha) :
  s.Leaves (s.send ws .binary msg)
  := by
  rw [send, withInfo]
  split
  case h_1 si _ =>
    refine ⟨rfl, rfl, fun _ => Or.inl rfl, fun q cl hq => ⟨cl, hq, Client.Keeps.refl cl⟩, ?_, ?_⟩
    · intro ws' _
      rw [view_send hread]
      split
      · exact hcaptcha _
      · rfl
    · intro hs
      apply hs.note
      rintro ws' msg' ⟨⟩
      rw [hread]
      rfl
  case h_2 => exact (misuse_steady s).toLeaves

/-- Sending a message changes no client. -/
theorem clients_send (s : Server) (ws : Ws) (op : OpCode) (msg : Bytes) :
  (s.send ws op msg).clients = s.clients
  := by
  rw [send, withInfo]
  cases s.infos ws with
  | none => rfl
  | some si => rfl

/-- Sending a text changes no client. -/
theorem clients_tell (s : Server) (p : ClientPtr) (msg : Bytes) :
  (s.tell p msg).clients = s.clients
  := by
  rw [tell, withClient]
  cases s.clients p with
  | none => rfl
  | some cl => exact clients_send s cl.ws .text msg

/-- A change of a client that its limits are not concerned with. -/
theorem change_leaves {cl : Client} (c : ClientChange) (hcl : s.clients p = some cl)
    (h : cl.Keeps (c.apply s.clock cl)) :
  s.Leaves (s.change p c)
  := by
  rw [change_eq _ hcl]
  refine ⟨rfl, rfl, fun _ => Or.inl rfl, fun q clq hq => ?_, fun _ _ => rfl, id⟩
  obtain ⟨rfl, rfl⟩ | ⟨-, hq⟩ := Table.update_eq_some.mp hq
  · exact ⟨cl, hcl, h⟩
  · exact ⟨clq, hq, Client.Keeps.refl clq⟩

/-- A client gets a quota and is told it. -/
theorem setPbucket_leaves (s : Server) (p : ClientPtr) (rate per : UInt16) :
  s.Leaves (s.setPbucket p rate per)
  := by
  rw [setPbucket, withClient]
  split
  case h_1 cl hcl =>
    exact (change_leaves (.pbucket rate per) hcl ⟨rfl, rfl, rfl, rfl⟩).trans
      (send_leaves _ cl.ws (readMessage_quota rate per) fun _ => rfl)
  case h_2 => exact (misuse_steady s).toLeaves

/-- Who gets a quota knows it. -/
theorem setPbucket_knows {rate per : UInt16} {R Q Q' : ClientPtr → Prop} (hs : s.Owned)
    (h : s.Knows R Q') (hQ : ∀ q, Q q → Q' q ∨ q = p) (hper : ¬ per < 1) :
  (s.setPbucket p rate per).Knows R Q
  := by
  rw [setPbucket, withClient]
  split
  case h_2 hnone =>
    intro q clq hq hws
    obtain ⟨hid, hrank, hquota⟩ := h q clq hq hws
    refine ⟨hid, hrank, fun hqQ => hquota ((hQ q hqQ).resolve_right ?_)⟩
    rintro rfl
    rw [show s.clients q = some clq from hq] at hnone
    cases hnone
  case h_1 cl hcl =>
    have hleaves := change_leaves (.pbucket rate per) hcl ⟨rfl, rfl, rfl, rfl⟩
    have hself : (s.change p (.pbucket rate per)).clients p
        = some { cl with pixupdlimit := cl.pixupdlimit.set rate per } := by
      rw [change_eq _ hcl]
      exact Function.update_self _ _ _
    intro q clq hq hws
    rw [clients_send] at hq
    obtain ⟨hopen, hview⟩ := view_sent (hleaves.owned hs) hself (readMessage_quota rate per) hq hws
    rw [change_eq _ hcl] at hq hopen
    replace hview : ((s.change p (.pbucket rate per)).send cl.ws .binary
        ([ServerMessage.setPquota.byte] ++ uint16Bytes rate ++ uint16Bytes per)).view clq.ws
        = if q = p then (s.view clq.ws).receive (.quota rate per) else s.view clq.ws := by
      rw [change_eq _ hcl] at hview ⊢
      exact hview
    rw [hview]
    obtain ⟨rfl, rfl⟩ | ⟨hqp, hq⟩ := Table.update_eq_some.mp hq
    · obtain ⟨hid, hrank, -⟩ := h q cl hcl hopen
      rw [if_pos rfl]
      refine ⟨hid, hrank, fun _ => ?_⟩
      rw [ClientChange.apply, Bucket.set, if_neg hper]
      rfl
    · obtain ⟨hid, hrank, hquota⟩ := h q clq hq hopen
      rw [if_neg hqp]
      exact ⟨hid, hrank, fun hqQ => hquota ((hQ q hqQ).resolve_right hqp)⟩

/-- So that what clients know is kept, if the quota is for at least a second. -/
theorem setPbucket_steady (s : Server) (p : ClientPtr) {rate per : UInt16} (hper : ¬ per < 1) :
  s.Steady (s.setPbucket p rate per)
  := ⟨setPbucket_leaves s p rate per, fun hs _ _ h => setPbucket_knows hs h (fun _ => Or.inl) hper⟩

/-- The client that gets the quota has it. -/
theorem clients_setPbucket {cl : Client} (hcl : s.clients p = some cl) (rate per : UInt16) :
  (s.setPbucket p rate per).clients p
    = some { cl with pixupdlimit := cl.pixupdlimit.set rate per }
  := by
  rw [setPbucket, withClient_eq _ hcl, clients_send, change_eq _ hcl]
  exact Function.update_self _ _ _

/-- The client that gets a rank is not told it yet. -/
theorem promoting_spec_leaves {cl : Client} (newrank : Rank) (prate : UInt16)
    (hcl : s.clients p = some cl) :
  s.Leaves (s.promoting p newrank prate) ∧
    ∃ b, (s.promoting p newrank prate).clients p
      = some { cl with rank := newrank, pixupdlimit := b }
  := by
  have hchange : s.Leaves (s.change p (.rank newrank)) :=
    change_leaves (.rank newrank) hcl ⟨rfl, rfl, rfl, rfl⟩
  have hself : (s.change p (.rank newrank)).clients p = some { cl with rank := newrank } := by
    rw [change_eq _ hcl]
    exact Function.update_self _ _ _
  have hquota : ∀ {t : Server} (rate per : UInt16), s.Leaves t →
      t.clients p = some { cl with rank := newrank } →
      s.Leaves (t.setPbucket p rate per) ∧ ∃ b, (t.setPbucket p rate per).clients p
        = some { cl with rank := newrank, pixupdlimit := b } :=
    fun rate per ht hp => ⟨ht.trans (setPbucket_leaves _ p rate per), _,
      clients_setPbucket hp rate per⟩
  have htell : ∀ msg, s.Leaves ((s.change p (.rank newrank)).tell p msg) ∧
      ((s.change p (.rank newrank)).tell p msg).clients p = some { cl with rank := newrank } := by
    intro msg
    rw [clients_tell]
    exact ⟨hchange.trans (tell_steady _ p msg).toLeaves, hself⟩
  rw [promoting]
  split_ifs
  · exact ⟨(htell _).1, _, (htell _).2⟩
  · exact hquota _ _ (htell _).1 (htell _).2
  · exact hquota _ _ hchange hself
  · exact hquota _ _ hchange hself

/-- Who gets a rank other than that of an administrator gets a quota and knows it. -/
theorem promoting_knows {cl : Client} {newrank : Rank} {R Q Q' : ClientPtr → Prop}
    (prate : UInt16) (hs : s.Owned) (hcl : s.clients p = some cl) (h : s.Knows R Q') (hR : ¬ R p)
    (hQ : ∀ q, Q q → Q' q ∨ q = p ∧ newrank ≠ Rank.admin) :
  (s.promoting p newrank prate).Knows R Q
  := by
  have howned : (s.change p (.rank newrank)).Owned :=
    (change_leaves (.rank newrank) hcl ⟨rfl, rfl, rfl, rfl⟩).owned hs
  have hchange : (s.change p (.rank newrank)).Knows R Q' := by
    rw [change_eq _ hcl]
    intro q clq hq hws
    obtain ⟨rfl, rfl⟩ | ⟨-, hq⟩ := Table.update_eq_some.mp hq
    · obtain ⟨hid, -, hquota⟩ := h q cl hcl hws
      exact ⟨hid, fun hRq => absurd hRq hR, hquota⟩
    · exact h q clq hq hws
  have htell : ∀ msg, ((s.change p (.rank newrank)).tell p msg).Owned ∧
      ((s.change p (.rank newrank)).tell p msg).Knows R Q' := by
    intro msg
    have hsteady := tell_steady (s.change p (.rank newrank)) p msg
    exact ⟨hsteady.owned howned, hsteady.knows howned R Q' hchange⟩
  have hweak : ∀ q, Q q → Q' q ∨ q = p := fun q hq => (hQ q hq).imp_right And.left
  rw [promoting]
  split_ifs with hadmin
  · intro q clq hq hws
    obtain ⟨hid, hrank, hquota⟩ := (htell _).2 q clq hq hws
    exact ⟨hid, hrank, fun hqQ => hquota ((hQ q hqQ).resolve_right fun hnot => hnot.2 hadmin)⟩
  · exact setPbucket_knows (htell _).1 (htell _).2 hweak (by decide)
  · exact setPbucket_knows howned hchange hweak (by decide)
  · exact setPbucket_knows howned hchange hweak (by decide)

/-- A client gets a rank and is told it. -/
theorem promote_leaves (s : Server) (p : ClientPtr) (newrank : Rank) (prate : UInt16) :
  s.Leaves (s.promote p newrank prate)
  := by
  cases hcl : s.clients p with
  | none =>
      rw [promote, withClient, hcl]
      exact (misuse_steady s).toLeaves
  | some cl =>
      rw [promote_eq _ _ hcl]
      exact (promoting_spec_leaves newrank prate hcl).1.trans
        (send_leaves _ cl.ws (readMessage_permissions newrank) fun _ => rfl)

/-- Who gets a rank knows it. -/
theorem promote_knows {newrank : Rank} {R Q Q' : ClientPtr → Prop} (prate : UInt16) (hs : s.Owned)
    (h : s.Knows (fun q => R q ∧ q ≠ p) Q')
    (hQ : ∀ q, Q q → Q' q ∨ q = p ∧ newrank ≠ Rank.admin) :
  (s.promote p newrank prate).Knows R Q
  := by
  cases hcl : s.clients p with
  | none =>
      rw [promote, withClient, hcl]
      intro q clq hq hws
      have hqp : q ≠ p := by
        rintro rfl
        rw [show s.clients q = some clq from hq] at hcl
        cases hcl
      obtain ⟨hid, hrank, hquota⟩ := h q clq hq hws
      exact ⟨hid, fun hRq => hrank ⟨hRq, hqp⟩,
        fun hqQ => hquota ((hQ q hqQ).resolve_right fun heq => hqp heq.1)⟩
  | some cl =>
      obtain ⟨hleaves, b, hself⟩ := promoting_spec_leaves newrank prate hcl
      have hknows := promoting_knows prate hs hcl h (fun hnot => hnot.2 rfl) hQ
      rw [promote_eq _ _ hcl]
      intro q clq hq hws
      rw [clients_send] at hq
      obtain ⟨hopen, hview⟩ := view_sent (hleaves.owned hs) hself
        (readMessage_permissions newrank) hq hws
      obtain ⟨hid, hrank, hquota⟩ := hknows q clq hq hopen
      rw [hview]
      by_cases hqp : q = p
      · subst hqp
        obtain rfl := Option.some.inj (hself.symm.trans hq)
        rw [if_pos rfl]
        exact ⟨hid, fun _ => rfl, hquota⟩
      · rw [if_neg hqp]
        exact ⟨hid, fun hRq => hrank ⟨hRq, hqp⟩, hquota⟩

/-- So that what clients know is kept. -/
theorem promote_steady (s : Server) (p : ClientPtr) (newrank : Rank) (prate : UInt16) :
  s.Steady (s.promote p newrank prate)
  := by
  refine ⟨promote_leaves s p newrank prate, fun hs R Q h => ?_⟩
  refine promote_knows prate hs (fun q clq hq hws => ?_) fun _ => Or.inl
  obtain ⟨hid, hrank, hquota⟩ := h q clq hq hws
  exact ⟨hid, fun hRq => hrank hRq.1, hquota⟩

/-! ### Worlds -/

variable [Platform]

/-- What an operation of a world sends tells nobody anything for its view. -/
theorem run_plain (w : World) (d : Disk) (a : WorldAct) :
  ∀ out ∈ (a.run w d).2.2.1, out.Plain
  := by
  have hone : ∀ {out out' : Out}, out'.Plain → out ∈ [out'] → out.Plain := by
    intro out out' hplain hout
    rw [List.mem_singleton.mp hout]
    exact hplain
  have hnone : ∀ {out : Out}, out ∈ ([] : List Out) → out.Plain := nofun
  intro out
  cases a with
  | sendChunk ws x y =>
      rw [WorldAct.run, World.sendChunk]
      generalize w.getChunk d x y = got
      obtain ⟨c, w', d'⟩ := got
      cases c with
      | none => exact hnone
      | some c => exact hone (plain_chunk c)
  | delChunk x y =>
      rw [WorldAct.run, World.delChunk]
      generalize w.getChunk d x y = got
      obtain ⟨c, w', d'⟩ := got
      cases c with
      | none => exact hnone
      | some c => exact hone (plain_chunk c.clear)
  | pasteChunk x y data =>
      rw [WorldAct.run, World.pasteChunk]
      generalize w.getChunk d x y = got
      obtain ⟨c, w', d'⟩ := got
      cases c with
      | none => exact hnone
      | some c => exact hone (plain_chunk (c.setDataFrom data))
  | setChunkProtection x y state =>
      rw [WorldAct.run, World.setChunkProtection]
      generalize World.getChunk _ d x y = got
      obtain ⟨c, w', d'⟩ := got
      cases c with
      | none => exact hnone
      | some c => exact hone (plain_protection x y state)
  | reload =>
      show out ∈ w.reload.2 → _
      rw [World.reload]
      dsimp only
      split
      · exact hone trivial
      · split
        · exact hone trivial
        · exact hnone
  | broadcast msg => exact hone trivial
  | putPx x y clr placerRank => exact hnone
  | setProp key value => exact hnone
  | setDefaultRank r => exact hnone

omit [Platform] in
/-- Messages of a world are sent, one after the other. -/
theorem sendOuts_steady (s : Server) (w : World) {outs : List Out} (h : ∀ out ∈ outs, out.Plain) :
  s.Steady (outs.foldl (fun s out => s.sendOut w out) s)
  := by
  induction outs generalizing s with
  | nil => exact .refl s
  | cons out outs ih =>
      obtain ⟨hfirst, hothers⟩ := List.forall_mem_cons.mp h
      exact (sendOut_steady s w hfirst).trans (ih _ hothers)

omit [Platform] in
/-- Accepted changes are recorded, which nobody hears. -/
theorem edits_steady (s : Server) (name : Bytes) (edits : List Edit) :
  s.Steady { s with log := s.log ++ edits.map fun e => .edit name e }
  := by
  induction edits generalizing s with
  | nil =>
      rw [List.map_nil, List.append_nil]
      exact .refl s
  | cons e edits ih =>
      have hfirst : s.Steady (s.note (.edit name e)) := note_steady nofun
      have hrest := ih (s.note (.edit name e))
      rw [note, List.append_assoc] at hrest
      exact hfirst.trans hrest

/-- A world is asked for something, and its messages are sent. -/
theorem act_steady (s : Server) (wp : WorldPtr) (a : WorldAct) :
  s.Steady (s.act wp a)
  := by
  apply withWorld_steady
  intro w _
  have hput : s.Steady { s.putWorld wp (a.run w s.disk).1 with disk := (a.run w s.disk).2.1 } :=
    .rest rfl rfl rfl rfl rfl
  exact (hput.trans (edits_steady _ w.name _)).trans
    (sendOuts_steady _ _ (run_plain w s.disk a))

omit [Platform] in
/-- The timer of a world sends what waits. -/
theorem tick_steady (s : Server) (wp : WorldPtr) :
  s.Steady (s.tick wp)
  := by
  apply withWorld_steady
  intro w _
  dsimp only
  have hcheck : s.Steady (if ∀ p ∈ w.plupdates.take worldMaxPlayerUpdates, (s.clients p).isSome
      then s else s.misuse) := by
    split
    · exact .refl s
    · exact misuse_steady s
  generalize (if ∀ p ∈ w.plupdates.take worldMaxPlayerUpdates, (s.clients p).isSome
    then s else s.misuse) = t at hcheck ⊢
  have hput : t.Steady (t.putWorld wp (w.sendUpdates t.infoOf).1) := .rest rfl rfl rfl rfl rfl
  apply (hcheck.trans hput).trans
  apply sendOuts_steady
  intro out hout
  rw [World.sendUpdates, World.sendUpdatesMsg_spec, World.updateMsg_eq] at hout
  rw [List.mem_singleton.mp hout]
  exact plain_update (World.update_fits _ _)

/-- What a client says is sent to all clients of its world, unless it is mute. -/
theorem chat_steady (s : Server) (p : ClientPtr) (msg : Bytes) :
  s.Steady (s.chat p msg)
  := by
  apply withClient_steady
  intro cl _
  split
  · exact act_steady s cl.wrld _
  · exact .refl s

/-- A pixel takes a token of the bucket, which the view knows nothing of. -/
theorem putPx_steady (s : Server) (p : ClientPtr) (x y : Int32) (clr : RGB) :
  s.Steady (s.putPx p x y clr)
  := by
  apply withClient_steady
  intro cl _
  dsimp only
  have hspend : s.Steady (if cl.isAdmin then s else s.change p .spendPixel) := by
    split
    · exact .refl s
    · exact change_steady s p (show Slight .spendPixel from trivial)
  generalize (if cl.isAdmin then s else s.change p .spendPixel) = t at hspend ⊢
  apply hspend.trans
  split
  · exact (change_steady _ p (show Slight (.lastclr clr) from trivial)).trans (act_steady _ cl.wrld _)
  · exact Steady.refl _

/-! ### Connections -/

omit [Platform]

/-- A client is taken out of its world. -/
theorem unlink_steady (s : Server) (p : ClientPtr) :
  s.Steady (s.unlink p)
  := by
  apply withClient_steady
  intro cl hcl
  split
  · have hleft : s.Steady { s with
        clients := Function.update s.clients p (some { cl with handledelete := false }) } :=
      update_steady hcl ⟨rfl, rfl, rfl, rfl⟩ rfl rfl rfl
    have hwait : s.Steady { s with
        clients := Function.update s.clients p (some { cl with handledelete := false })
        pending := s.pending ++ [Callback.client p] } := hleft.trans (.rest rfl rfl rfl rfl rfl)
    apply hwait.trans
    apply withWorld_steady
    intro w _
    exact .rest rfl rfl rfl rfl rfl
  · exact .refl s

/-- A world that nobody is in stops its timer and waits for its deletion. -/
theorem unload_steady (s : Server) (wp : WorldPtr) :
  s.Steady (s.unload wp)
  := by
  apply withWorld_steady
  intro w _
  exact .rest rfl rfl rfl rfl rfl

/-- Lockdown is turned on or off, which is told as a text. -/
theorem setLockdown_steady (s : Server) (state : Bool) :
  s.Steady (s.setLockdown state)
  := by
  have hset : s.Steady { s with lockdown := state } := .rest rfl rfl rfl rfl rfl
  rw [setLockdown]
  dsimp only
  apply hset.trans
  split
  · refine Steady.trans (foldl_steady ?_ _ _) (admintell_steady _ _)
    intro t ws
    apply withInfo_steady
    intro si _
    split
    case h_1 p _ =>
      apply withClient_steady
      intro cl _
      split
      · exact .rest rfl rfl rfl rfl rfl
      · exact .refl t
    case h_2 => exact .refl t
  · exact admintell_steady _ _

/-- Lockdown may be turned off. -/
theorem lockdownCheck_steady (s : Server) :
  s.Steady s.lockdownCheck
  := by
  rw [lockdownCheck]
  split
  · exact .refl s
  · exact setLockdown_steady s false

/-- A client leaves its world, which may have to be unloaded. -/
theorem leave_steady (s : Server) (p : ClientPtr) :
  s.Steady (s.leave p)
  := by
  apply withClient_steady
  intro cl _
  apply (unlink_steady s p).trans
  apply withWorld_steady
  intro w _
  split
  · have herase : (s.unlink p).Steady
        { s.unlink p with worlds := (s.unlink p).worlds.erase w.name } := .rest rfl rfl rfl rfl rfl
    exact herase.trans (unload_steady _ cl.wrld)
  · exact .refl _

/-- A connection of an address is no longer counted. -/
theorem countDown_steady (s : Server) (ip : Bytes) :
  s.Steady (s.countDown ip)
  := .rest rfl rfl rfl rfl rfl

/-- Nobody hears on a connection that is forgotten. -/
theorem forget_steady (s : Server) (ws : Ws) :
  s.Steady (s.forget ws)
  := by
  have hopen : ∀ ws', (s.forget ws).infos ws' ≠ none → s.infos ws' ≠ none := by
    intro ws' hws'
    by_cases hsame : ws' = ws
    · subst hsame
      exact absurd (Function.update_self _ _ _) hws'
    · rw [← show (s.forget ws).infos ws' = s.infos ws' from Function.update_of_ne hsame _ _]
      exact hws'
  refine ⟨⟨rfl, rfl, fun ws' => ?_, fun p cl hcl => ⟨cl, hcl, Client.Keeps.refl cl⟩,
    fun _ _ => rfl, id⟩, fun _ R Q h p cl hcl hws => h p cl hcl (hopen _ hws)⟩
  by_cases hsame : ws' = ws
  · subst hsame
    exact Or.inr (Function.update_self _ _ _)
  · exact Or.inl (Function.update_of_ne hsame _ _)

/-- A connection is closed: it is forgotten and its client leaves. -/
theorem closeWs_steady (s : Server) (ws : Ws) :
  s.Steady (s.closeWs ws)
  := by
  have hgone : ∀ (t : Server) (admin : Bool), t.Steady (t.noteGone admin) := fun t admin =>
    note_steady nofun
  apply withInfo_steady
  intro si _
  split
  case h_1 p _ =>
    apply withClient_steady
    intro cl _
    have hleft := (((leave_steady s p).trans (countDown_steady _ si.ip)).trans
      (forget_steady _ ws)).trans (hgone _ cl.isAdmin)
    dsimp only
    split
    · exact hleft.trans (lockdownCheck_steady _)
    · exact hleft
  case h_2 => exact ((countDown_steady s si.ip).trans (forget_steady _ ws)).trans (hgone _ false)

/-- The connection of a client is closed. -/
theorem safedelete_steady (s : Server) (p : ClientPtr) :
  s.Steady (s.safedelete p)
  := by
  apply withClient_steady
  intro cl _
  split
  · exact (unlink_steady s p).trans (closeWs_steady _ cl.ws)
  · exact .refl s

/-- The connections of a world are closed. -/
theorem kickallWorld_steady (s : Server) (wrld : WorldPtr) :
  s.Steady (s.kickallWorld wrld)
  := by
  apply foldl_steady
  intro t ws
  apply withInfo_steady
  intro si _
  split
  case h_1 p _ =>
    apply withClient_steady
    intro cl _
    split
    · exact safedelete_steady t p
    · exact .refl t
  case h_2 => exact .refl t

/-- The connections of all worlds are closed. -/
theorem kickall_steady (s : Server) :
  s.Steady s.kickall
  := by
  apply foldl_steady
  intro t ws
  apply withInfo_steady
  intro si _
  split
  case h_1 p _ =>
    apply withClient_steady
    intro cl _
    split
    · exact safedelete_steady t p
    · exact .refl t
  case h_2 => exact closeWs_steady t ws

/-- The connections of an address are closed. -/
theorem kickip_steady (s : Server) (ip : Bytes) :
  s.Steady (s.kickip ip)
  := by
  have hclose : s.Steady (s.closeIp ip) := by
    apply foldl_steady
    intro t ws
    apply withInfo_steady
    intro si _
    split
    · exact closeWs_steady t ws
    · exact .refl t
  rw [kickip]
  dsimp only
  apply hclose.trans
  split
  · exact (admintell_steady _ _).trans (.rest rfl rfl rfl rfl rfl)
  · exact .refl _

/-- An address gets on the list of bans. -/
theorem ban_steady (s : Server) (ip : Bytes) :
  s.Steady (s.ban ip)
  := by
  have hlist : s.Steady { s with ipban := s.ipban.insert ip } := .rest rfl rfl rfl rfl rfl
  exact hlist.trans (admintell_steady _ _)

/-- It gets there and its connections are closed. -/
theorem banip_steady (s : Server) (ip : Bytes) :
  s.Steady (s.banip ip)
  := by
  rw [banip]
  split
  · exact .refl s
  · apply (ban_steady s ip).trans
    dsimp only
    split
    · exact kickip_steady _ ip
    · exact .refl _

/-- A connection is closed that need not have a client. -/
theorem kickWs_steady (s : Server) (ws : Ws) :
  s.Steady (s.kickWs ws)
  := by
  apply withInfo_steady
  intro si _
  split
  case h_1 p _ => exact safedelete_steady s p
  case h_2 => exact closeWs_steady s ws

/-- Connections of addresses are closed until the limit is kept. -/
theorem limitLoop_steady (max : UInt8) (fuel : ℕ) (s : Server) :
  s.Steady (limitLoop max fuel s)
  := by
  induction fuel generalizing s with
  | zero => exact .refl s
  | succ fuel ih =>
      rw [limitLoop]
      split
      case h_1 ws _ => exact (kickWs_steady s ws).trans (ih _)
      case h_2 => exact .refl s

/-- The limit of connections for an address is set. -/
theorem setMaxIpConns_steady (s : Server) (max : UInt8) :
  s.Steady (s.setMaxIpConns max)
  := by
  have hset : s.Steady { s with maxconns := max.toUInt32 } := .rest rfl rfl rfl rfl rfl
  exact hset.trans (limitLoop_steady max _ _)

/-- Captchas are asked for from now on, or no longer; those of the open connections stay. -/
theorem setCaptchaProtection_steady (s : Server) (state : Bool) :
  s.Steady (s.setCaptchaProtection state)
  := by
  have hset : s.Steady { s with captchaRequired := state } := .rest rfl rfl rfl rfl rfl
  rw [setCaptchaProtection]
  apply hset.trans
  split
  · exact admintell_steady _ _
  · exact admintell_steady _ _

/-- Suspicious connections are banned, one after the other. -/
theorem instabanLoop_steady (fuel : ℕ) (s : Server) :
  s.Steady (instabanLoop fuel s)
  := by
  induction fuel generalizing s with
  | zero => exact .refl s
  | succ fuel ih =>
      rw [instabanLoop]
      split
      case h_1 ws _ => exact (closeWs_steady s ws).trans (ih _)
      case h_2 => exact .refl s

/-- Suspicious connections are banned from now on, those that are open at once, or no longer. -/
theorem setInstaban_steady (s : Server) (state : Bool) :
  s.Steady (s.setInstaban state)
  := by
  have hset : s.Steady { s with instaban := state } := .rest rfl rfl rfl rfl rfl
  rw [setInstaban]
  dsimp only
  apply hset.trans
  split
  · exact (instabanLoop_steady _ _).trans (admintell_steady _ _)
  · exact admintell_steady _ _

/-- Proxies are looked for from now on, or no longer, and then who waits for it is kicked. -/
theorem setProxycheck_steady (s : Server) (state : Bool) :
  s.Steady (s.setProxycheck state)
  := by
  have hset : s.Steady { s with proxyLock := state } := .rest rfl rfl rfl rfl rfl
  rw [setProxycheck]
  dsimp only
  apply hset.trans
  split
  · have hnone : ∀ t : Server, t.Steady { t with proxyqueryChecking := [] } := fun t =>
      .rest rfl rfl rfl rfl rfl
    exact ((foldl_steady kickip_steady _ _).trans (hnone _)).trans (admintell_steady _ _)
  · exact admintell_steady _ _

/-! ### Files -/

variable [Platform]

/-- Saving worlds and lists is a matter of the files. -/
theorem saveNow_steady (s : Server) :
  s.Steady s.saveNow
  := by
  have hsave : ∀ (t : Server) (wp : WorldPtr), t.Steady (t.saveWorld wp) := by
    intro t wp
    apply withWorld_steady
    intro w _
    exact .rest rfl rfl rfl rfl rfl
  have hfiles : ∀ t : Server, t.Steady t.writefiles := fun t => .rest rfl rfl rfl rfl rfl
  exact ((foldl_steady hsave _ s).trans (hfiles _)).trans (admintell_steady _ _)

/-- A world that nobody is in is saved and deleted. -/
theorem deleteWorld_steady (s : Server) (wp : WorldPtr) :
  s.Steady (s.deleteWorld wp)
  := by
  apply withWorld_steady
  intro w _
  exact .rest rfl rfl rfl rfl rfl

/-- The server closes its connections, deletes its worlds and ends. -/
theorem delete_steady (s : Server) :
  s.Steady s.delete
  := by
  have hexit : ∀ t : Server, t.Steady { t.writefiles with exited := true } := fun t =>
    .rest rfl rfl rfl rfl rfl
  have hclose := foldl_steady closeWs_steady s.connsws s
  exact (hclose.trans (foldl_steady deleteWorld_steady _ _)).trans (hexit _)

/-- The server says that it shuts down, or ends if it has said so. -/
theorem quit_steady (s : Server) :
  s.Steady s.quit
  := by
  rw [quit]
  split
  · exact (broadcastmsg_steady s _).trans (.rest rfl rfl rfl rfl rfl)
  · exact delete_steady s

end Server

end Owop
