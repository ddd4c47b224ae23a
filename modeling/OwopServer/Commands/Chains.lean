import OwopServer.Commands
import OwopServer.Server.Handlers

/-!
# The commands as chains of small steps

Each command is a chain of allowed small steps.  Those of users and moderators stay in the
world of the client they are run for, and let it do no more than broadcast.  Who gets a rank
above that of a user, gets it for the login that was run for it, or from an administrator.
-/

namespace Owop

open Bytes (ofString)

namespace Server

/-- The scope with one world, which may only broadcast. -/
def Scope.room (wp : WorldPtr) : Scope :=
  ⟨fun wp' => wp' = wp, fun a => ∃ msg, a = .broadcast msg, fun _ => True, False⟩

/-- A message to a client that is still there. -/
theorem Chain.tell [Platform] {D : Scope} {s s' : Server} {p : ClientPtr} {cl : Client}
    {msg : Bytes} (hc : Chain D.still s s') (h : s.Consistent) (hp : s.Live p cl)
    (hD : D.wrld cl.wrld) :
  Chain D s (s'.tell p msg)
  := hc.andThen h fun h' hstay => tell_chain h' (hstay hp.seat) hD

end Server

namespace Commands

open Server

variable [Platform] {s : Server} {D : Scope} {p : ClientPtr} {cl : Client} {args : List Bytes}

/-- A command is to be run with some arguments for a client that is there, and this is
logged. -/
structure Ready (s : Server) (p : ClientPtr) (cl : Client) (args : List Bytes) : Prop where
  consistent : s.Consistent
  live : s.Live p cl
  logged : .exec cl.ws args ∈ s.log

/-! ### Numbers and clients in arguments -/

omit [Platform] in
/-- Reading a number from an argument, something is done with it or nothing at all. -/
theorem withNum_cases {P : Server → Prop} {a : Bytes} {k : UInt32 → Server} (hs : P s)
    (hk : ∀ n, P (k n)) :
  P (withNum a s k)
  := by
  rw [withNum]
  split
  · exact hk _
  · exact hs

/-- A number is read from an argument. -/
theorem withNum_chain {a : Bytes} {k : UInt32 → Server} (hk : ∀ n, Chain D s (k n)) :
  Chain D s (withNum a s k)
  := withNum_cases (Chain.refl s) hk

/-- A coordinate is read from an argument. -/
theorem withInt_chain {a : Bytes} {k : Int32 → Server} (hk : ∀ x, Chain D s (k x)) :
  Chain D s (withInt a s k)
  := by
  rw [withInt]
  split
  · exact hk _
  · exact Chain.refl s

omit [Platform] in
/-- A client that is looked up by its id is in the world, and has not left. -/
theorem withTarget_cases {P : Server → Prop} {id : UInt32} {absent : Server}
    {found : ClientPtr → Client → Server} (h : s.Consistent) (hp : s.Live p cl)
    (habsent : P absent)
    (hfound : ∀ target t, s.Live target t → t.wrld = cl.wrld → P (found target t)) :
  P (withTarget s cl.wrld id absent found)
  := by
  obtain ⟨w, hw, -⟩ := h.world_of_live hp
  rw [withTarget, withWorld_eq _ hw]
  split
  case h_1 target hget =>
    obtain ⟨t, ht, hwrld⟩ := h.live_of_mem hw (List.mem_of_find?_eq_some hget)
    rw [withClient_eq _ ht.1]
    exact hfound target t ht hwrld
  case h_2 => exact habsent

/-- A client is looked up by its id, and if it is there something is done with it. -/
theorem withTarget_chain {id : UInt32} {absent : Server} {found : ClientPtr → Client → Server}
    (h : s.Consistent) (hp : s.Live p cl) (habsent : Chain D s absent)
    (hfound : ∀ target t, s.Live target t → t.wrld = cl.wrld → Chain D s (found target t)) :
  Chain D s (withTarget s cl.wrld id absent found)
  := withTarget_cases h hp habsent hfound

/-! ### Commands of users -/

/-- A nick is set and a text sent. -/
theorem nick_chain (h : Ready s p cl args) (hD : D.wrld cl.wrld) :
  Chain D s (nick s p args)
  := by
  have hset : ∀ name msg, Chain D s ((s.change p (.nick name)).tell p msg) := fun _ _ =>
    Chain.tell (change_chain h.live hD trivial trivial) h.consistent h.live hD
  rw [nick, withClient_eq _ h.live.1]
  split
  · dsimp only
    split
    · exact Chain.refl s
    · split
      · exact hset _ _
      · split
        · exact hset _ _
        · split
          · exact hset _ _
          · exact tell_chain h.consistent h.live.seat hD
  · exact hset _ _

/-- A password of the world gives the rank that the world gives, and a wrong one closes the
connection. -/
theorem pass_chain (h : Ready s p cl args) (hD : D.wrld cl.wrld) (hd : D.drops cl.ws) :
  Chain D s (pass s p args)
  := by
  obtain ⟨w, hw, -⟩ := h.consistent.world_of_live h.live
  rw [pass, withClient_eq _ h.live.1]
  split
  · rw [withWorld_eq _ hw]
    split
    · exact promote_chain h.consistent h.live hD (Or.inl (h.consistent.defaultRank hw))
    · exact safedelete_chain h.consistent h.live.seat hd hD
  · exact Chain.tell (tell_chain h.consistent h.live.seat hD) h.consistent h.live hD

/-- Two clients of one world get a text. -/
theorem tell_command_chain (h : Ready s p cl args) (hD : D.wrld cl.wrld) :
  Chain D s (Commands.tell s p args)
  := by
  have htell : ∀ msg, Chain D.still s (s.tell p msg) := fun _ =>
    tell_chain h.consistent h.live.seat hD
  rw [Commands.tell, withClient_eq _ h.live.1]
  split
  · apply withNum_chain
    intro id
    apply withTarget_chain h.consistent h.live (htell _).of_still
    intro target t ht hwrld
    exact Chain.tell (htell _) h.consistent ht (hwrld ▸ hD)
  · exact (htell _).of_still

omit [Platform] in
/-- Two arguments, the first of which is the name of the command. -/
theorem args_eq {name pw : Bytes} (hname : args.head? = some name) (hlen : args.length = 2)
    (hpw : arg args 1 = pw) :
  args = [name, pw]
  := by
  obtain ⟨a, b, rfl⟩ := List.length_eq_two.mp hlen
  cases hname
  rw [← hpw]
  rfl

/-- The rank of a moderator is for the login that was run. -/
theorem modlogin_chain (h : Ready s p cl args) (hD : D.wrld cl.wrld)
    (hname : args.head? = some (ofString "modlogin")) :
  Chain D s (modlogin s p args)
  := by
  obtain ⟨si, hsi, -⟩ := h.consistent.info_of_live h.live
  obtain ⟨w, hw, -⟩ := h.consistent.world_of_live h.live
  rw [modlogin, withClient_eq _ h.live.1]
  split
  case isFalse => exact Chain.refl s
  case isTrue hlen =>
    split
    case isFalse => exact Chain.refl s
    case isTrue hpw =>
      have hlogged := h.logged
      rw [args_eq hname hlen.2 hpw] at hlogged
      rw [withInfo_eq _ hsi, withWorld_eq _ hw]
      generalize (ofString "DEV" ++ toString cl.id.toNat ++ ofString " (" ++ w.name ++
        ofString ", " ++ si.ip ++ ofString ") Got mod") = msg
      obtain ⟨htell, hn⟩ := admintell_spec (D := D) msg h.consistent
      have hkept := htell.kept h.consistent
      apply htell.trans
      apply promote_chain (htell.consistent h.consistent) (hn.live h.live) hD
      refine Or.inr (Or.inl ⟨rfl, ?_⟩)
      rw [hkept.modpw]
      exact hkept.log.subset hlogged

/-- The rank of an administrator is for the login that was run. -/
theorem adminlogin_chain (h : Ready s p cl args) (hD : D.wrld cl.wrld)
    (hname : args.head? = some (ofString "adminlogin")) :
  Chain D s (adminlogin s p args)
  := by
  obtain ⟨si, hsi, -⟩ := h.consistent.info_of_live h.live
  obtain ⟨w, hw, -⟩ := h.consistent.world_of_live h.live
  rw [adminlogin, withClient_eq _ h.live.1]
  split
  case isFalse => exact Chain.refl s
  case isTrue hlen =>
    split
    case isFalse => exact tell_chain h.consistent h.live.seat hD
    case isTrue hpw =>
      have hlogged := h.logged
      rw [args_eq hname hlen hpw] at hlogged
      rw [withInfo_eq _ hsi, withWorld_eq _ hw]
      exact promote_chain h.consistent h.live hD (Or.inr (Or.inr (Or.inl ⟨rfl, hlogged⟩)))

/-- A client is moved to the middle of the world. -/
theorem spawn_chain (h : Ready s p cl args) (hD : D.wrld cl.wrld) :
  Chain D s (spawn s p args)
  := Chain.tell (teleport_chain h.consistent h.live.seat hD) h.consistent h.live hD

/-- The names of the commands are sent. -/
theorem help_chain (h : Ready s p cl args) (hD : D.wrld cl.wrld) :
  Chain D s (help s p args)
  := by
  rw [help, withClient_eq _ h.live.1]
  exact tell_chain h.consistent h.live.seat hD

/-! ### Commands of moderators -/

/-- Clients of one world are moved. -/
theorem teleport_command_chain (h : Ready s p cl args) (hD : D.wrld cl.wrld) :
  Chain D s (Commands.teleport s p args)
  := by
  rw [Commands.teleport, withClient_eq _ h.live.1]
  split
  · apply withInt_chain
    intro x
    apply withInt_chain
    intro y
    apply (tell_chain (D := D.still) h.consistent h.live.seat hD).andThen h.consistent
    intro h' hstay
    exact teleport_chain h' (hstay h.live.seat) hD
  · split
    · apply withNum_chain
      intro id
      apply withTarget_chain h.consistent h.live (Chain.refl s)
      intro target t _ _
      exact teleport_chain h.consistent h.live.seat hD
    · split
      · apply withNum_chain
        intro id
        apply withInt_chain
        intro x
        apply withInt_chain
        intro y
        apply withTarget_chain h.consistent h.live (Chain.refl s)
        intro target t ht hwrld
        exact Chain.tell (teleport_chain h.consistent ht.seat (hwrld ▸ hD)) h.consistent h.live hD
      · exact tell_chain h.consistent h.live.seat hD

/-- Whether the rank is shown in the chat is set. -/
theorem stealth_chain (h : Ready s p cl args) (hD : D.wrld cl.wrld) :
  Chain D s (stealth s p args)
  := by
  rw [stealth]
  split
  · exact Chain.tell (change_chain h.live hD trivial trivial) h.consistent h.live hD
  · exact Chain.tell (tell_chain h.consistent h.live.seat hD) h.consistent h.live hD

/-- A world broadcasts a text. -/
theorem sayraw_chain (h : Ready s p cl args) (hD : D.wrld cl.wrld)
    (ha : ∀ msg, D.acts (.broadcast msg)) :
  Chain D s (sayraw s p args)
  := by
  obtain ⟨w, hw, -⟩ := h.consistent.world_of_live h.live
  rw [sayraw, withClient_eq _ h.live.1]
  split
  · exact (act_chain h.consistent hw hD (ha _) trivial (by simp)).of_still
  · exact Chain.tell (tell_chain h.consistent h.live.seat hD) h.consistent h.live hD

/-- A client of the world is looked up by its nick. -/
theorem getid_chain (h : Ready s p cl args) (hD : D.wrld cl.wrld) :
  Chain D s (getid s p args)
  := by
  have htell : ∀ msg, Chain D.still s (s.tell p msg) := fun _ =>
    tell_chain h.consistent h.live.seat hD
  obtain ⟨w, hw, -⟩ := h.consistent.world_of_live h.live
  rw [getid, withClient_eq _ h.live.1]
  split
  · rw [withWorld_eq _ hw]
    split
    case h_1 target hget =>
      obtain ⟨t, ht, -⟩ := h.consistent.live_of_mem hw (List.mem_of_find?_eq_some hget)
      rw [withClient_eq _ ht.1]
      exact (htell _).of_still
    case h_2 => exact (htell _).of_still
  · exact Chain.tell (htell _) h.consistent h.live hD

/-- A client of the world is moved away and its connection closed. -/
theorem kick_chain (h : Ready s p cl args) (hD : D.wrld cl.wrld) (hd : ∀ ws, D.drops ws) :
  Chain D s (kick s p args)
  := by
  have htell : ∀ msg, Chain D s (s.tell p msg) := fun _ =>
    tell_chain h.consistent h.live.seat hD
  rw [kick, withClient_eq _ h.live.1]
  split
  · apply withNum_chain
    intro id
    apply withTarget_chain h.consistent h.live (htell _)
    intro target t ht hwrld
    split
    case isFalse => exact htell _
    case isTrue hlt =>
      have hne : cl.ws ≠ t.ws := by
        intro hws
        obtain rfl := h.consistent.live_unique h.live ht hws
        have heq : some cl = some t := h.live.1.symm.trans ht.1
        rw [Option.some.inj heq] at hlt
        exact absurd hlt (UInt8.lt_irrefl _)
      apply (teleport_chain (D := D.still) h.consistent ht.seat (hwrld ▸ hD)).andThen h.consistent
      intro h₁ hstay₁
      have hkick : Chain (D.only t.ws) (s.teleport target 0 0)
          ((s.teleport target 0 0).safedelete target) :=
        safedelete_chain h₁ (hstay₁ ht.seat) ⟨rfl, hd _⟩ (hwrld ▸ hD)
      have hstay₂ := (hkick.stays h₁ fun hdrop => hne hdrop.1).2 _ _ (hstay₁ h.live.seat)
      have hkick' : Chain D (s.teleport target 0 0) ((s.teleport target 0 0).safedelete target) :=
        hkick.mono (D.only_within t.ws)
      exact hkick'.trans (tell_chain (hkick'.consistent h₁) hstay₂ hD)
  · exact Chain.refl s

/-- The ids of the world are sent. -/
theorem ids_chain (h : Ready s p cl args) (hD : D.wrld cl.wrld) :
  Chain D s (ids s p args)
  := by
  obtain ⟨w, hw, -⟩ := h.consistent.world_of_live h.live
  rw [ids, withClient_eq _ h.live.1, withWorld_eq _ hw]
  exact tell_chain h.consistent h.live.seat hD

/-! ### Commands of administrators -/

/-- Telling several texts, and one more. -/
theorem tells_tell_chain (msgs : List Bytes) (msg : Bytes) (h : Ready s p cl args)
    (hD : D.wrld cl.wrld) :
  Chain D s ((msgs.foldl (fun s msg => s.tell p msg) s).tell p msg)
  := Chain.tell (tells_chain msgs h.consistent h.live.seat hD) h.consistent h.live hD

/-- The connections of an address are closed. -/
theorem kickip_command_chain (h : Ready s p cl args) :
  Chain Scope.all s (Commands.kickip s p args)
  := by
  rw [Commands.kickip]
  split
  · exact kickip_chain _ h.consistent (fun _ => trivial) (fun _ => trivial)
  · exact tell_chain h.consistent h.live.seat trivial

/-- An address is banned and its connections are closed. -/
theorem banip_command_chain (h : Ready s p cl args) :
  Chain Scope.all s (Commands.banip s p args)
  := by
  rw [Commands.banip]
  split
  · exact banip_chain _ h.consistent (fun _ => trivial) (fun _ => trivial)
  · exact tell_chain h.consistent h.live.seat trivial

/-- The commands for a list of addresses change no more than the lists. -/
theorem ipCommand_chain {l : IpList} {cleared added removed usage : Bytes}
    (hl : ∀ s ips, Chain Scope.all.still s (l.set s ips)) (h : Ready s p cl args) :
  Chain Scope.all s (ipCommand l cleared added removed usage s p args)
  := by
  have hset : ∀ ips msg, Chain Scope.all s ((l.set s ips).tell p msg) := fun ips _ =>
    Chain.tell (hl s ips) h.consistent h.live trivial
  rw [ipCommand]
  split
  · split
    · have hlist := tells_tell_chain (D := Scope.all)
        ((l.get s).map fun ip => ofString "-> " ++ ip)
        (ofString "Total: " ++ toString (l.get s).length) h trivial
      rw [List.foldl_map] at hlist
      exact hlist
    · split
      · exact hset _ _
      · exact Chain.refl s
  · split
    · split
      · exact hset _ _
      · split
        · split
          · exact hset _ _
          · exact Chain.refl s
        · exact Chain.refl s
    · exact tell_chain h.consistent h.live.seat trivial

/-- The list of banned addresses. -/
theorem bans_chain (h : Ready s p cl args) :
  Chain Scope.all s (bans s p args)
  := ipCommand_chain (fun s ips => lists_chain ips s.ipwhitelist s.ipblacklist) h

/-- The list of addresses that are let in. -/
theorem whitelist_command_chain (h : Ready s p cl args) :
  Chain Scope.all s (whitelist s p args)
  := ipCommand_chain (fun s ips => lists_chain s.ipban ips s.ipblacklist) h

/-- The list of addresses that are kept out. -/
theorem blacklist_chain (h : Ready s p cl args) :
  Chain Scope.all s (blacklist s p args)
  := ipCommand_chain (fun s ips => lists_chain s.ipban s.ipwhitelist ips) h

/-- The ranks that an administrator sets are below its own. -/
theorem setrank_chain (h : Ready s p cl args) (hadmin : cl.isAdmin = true) :
  Chain Scope.all s (setrank s p args)
  := by
  have htell : ∀ msg, Chain Scope.all s (s.tell p msg) := fun _ =>
    tell_chain h.consistent h.live.seat trivial
  have hrank : cl.rank = Rank.admin := by simpa [Client.isAdmin] using hadmin
  obtain ⟨w, hw, -⟩ := h.consistent.world_of_live h.live
  rw [setrank, withClient_eq _ h.live.1]
  split
  · apply withNum_chain
    intro id
    apply withNum_chain
    intro rank
    apply withTarget_chain h.consistent h.live (htell _)
    intro target t ht hwrld
    split
    · case isTrue hlt =>
      rw [withWorld_eq _ hw]
      have hnote : Chain Scope.all.still s (s.note (.setrank cl.rank t.ws)) :=
        Chain.single (.setrank ht)
      have h₁ := hnote.consistent h.consistent
      have hlogged : .setrank Rank.admin t.ws ∈ (s.note (.setrank cl.rank t.ws)).log := by
        rw [← hrank]
        exact List.mem_append_right _ List.mem_cons_self
      have hbelow : rank.toUInt8 < Rank.admin := by
        have hlt' : rank < (3 : UInt32) := by
          have := hlt.2
          rw [hrank] at this
          exact this
        show rank.toUInt8 < (3 : UInt8)
        rw [UInt8.lt_iff_toNat_lt, UInt32.toNat_toUInt8]
        rw [UInt32.lt_iff_toNat_lt] at hlt'
        exact lt_of_le_of_lt (Nat.mod_le _ _) hlt'
      have ht₁ : (s.note (.setrank cl.rank t.ws)).Live target t := ht
      have hpromote : Chain Scope.all.still (s.note (.setrank cl.rank t.ws))
          ((s.note (.setrank cl.rank t.ws)).promote target rank.toUInt8 w.paintrate) :=
        promote_chain h₁ ht₁ trivial (Or.inr (Or.inr (Or.inr ⟨hbelow, hlogged⟩)))
      exact Chain.tell (hnote.trans hpromote) h.consistent h.live trivial
    · split
      · exact htell _
      · exact htell _
  · exact htell _

/-- What is known of a client is sent. -/
theorem whois_chain (h : Ready s p cl args) :
  Chain Scope.all s (whois s p args)
  := by
  rw [whois, withClient_eq _ h.live.1]
  split
  · apply withNum_chain
    intro id
    apply withTarget_chain h.consistent h.live (Chain.refl s)
    intro target t ht _
    obtain ⟨si, hsi, -⟩ := h.consistent.info_of_live ht
    rw [withInfo_eq _ hsi]
    exact (tells_chain (D := Scope.all) _ h.consistent h.live.seat trivial).of_still
  · exact tell_chain h.consistent h.live.seat trivial

/-- All worlds and lists are saved. -/
theorem save_chain (h : Ready s p cl args) :
  Chain Scope.all s (save s p args)
  := saveNow_chain h.consistent fun _ => trivial

/-- The connections of a world or of the server are closed. -/
theorem kickall_command_chain (h : Ready s p cl args) :
  Chain Scope.all s (Commands.kickall s p args)
  := by
  rw [Commands.kickall, withClient_eq _ h.live.1]
  split
  · split
    · exact kickallWorld_chain _ h.consistent (fun _ => trivial) (fun _ => trivial)
    · split
      · exact kickall_chain h.consistent (fun _ => trivial) (fun _ => trivial)
      · exact Chain.refl s
  · exact Chain.tell (tell_chain h.consistent h.live.seat trivial) h.consistent h.live trivial

/-- The client's world does something, and the client is told. -/
theorem act_tell_chain {a : WorldAct} {msg : Bytes} (h : Ready s p cl args) (hm : a.Modest)
    (hone : ∀ ws x y, a ≠ .sendChunk ws x y) :
  Chain Scope.all s ((s.act cl.wrld a).tell p msg)
  := by
  obtain ⟨w, hw, -⟩ := h.consistent.world_of_live h.live
  have hact : Chain Scope.all.still s (s.act cl.wrld a) :=
    act_chain h.consistent hw trivial trivial hm fun ws x y heq => absurd heq (hone ws x y)
  exact hact.tell h.consistent h.live trivial

/-- The client's world gets a property. -/
theorem setprop_chain (h : Ready s p cl args) :
  Chain Scope.all s (setprop s p args)
  := by
  rw [setprop, withClient_eq _ h.live.1]
  split
  · exact act_tell_chain h trivial (by simp)
  · split
    · exact act_tell_chain h trivial (by simp)
    · exact tell_chain h.consistent h.live.seat trivial

/-- The value of a property is sent. -/
theorem getprop_chain (h : Ready s p cl args) :
  Chain Scope.all s (getprop s p args)
  := by
  obtain ⟨w, hw, -⟩ := h.consistent.world_of_live h.live
  rw [getprop, withClient_eq _ h.live.1]
  split
  · rw [withWorld_eq _ hw]
    exact tell_chain h.consistent h.live.seat trivial
  · exact Chain.refl s

/-- A client of a lower rank is made mute. -/
theorem mute_chain (h : Ready s p cl args) :
  Chain Scope.all s (mute s p args)
  := by
  rw [mute, withClient_eq _ h.live.1]
  split
  · apply withNum_chain
    intro id
    apply withTarget_chain h.consistent h.live (Chain.refl s)
    intro target t ht _
    dsimp only
    split
    · exact tell_chain h.consistent h.live.seat trivial
    · exact Chain.tell (change_chain ht trivial trivial trivial) h.consistent h.live trivial
  · exact tell_chain h.consistent h.live.seat trivial

/-- The client's world gets a rank for those who will join. -/
theorem restrict_chain (h : Ready s p cl args) :
  Chain Scope.all s (restrict s p args)
  := by
  rw [restrict, withClient_eq _ h.live.1]
  split
  · have hmodest : (WorldAct.setDefaultRank
        (if isTrue args 1 then Rank.none else Rank.user)).Modest := by
      show (if isTrue args 1 = true then Rank.none else Rank.user) ≤ Rank.user
      split <;> decide
    exact act_tell_chain h hmodest (by simp)
  · exact Chain.tell (tell_chain h.consistent h.live.seat trivial) h.consistent h.live trivial

/-- A limit on the connections of an address spares administrators. -/
theorem lock_chain (h : Ready s p cl args) (hadmin : cl.isAdmin = true) :
  Chain Scope.all s (lock s p args)
  := by
  have hconfig : ∀ t : Server, ∀ msg, Chain Scope.all s ((s.configure t).tell p msg) :=
    fun t _ => Chain.tell (config_chain t) h.consistent h.live trivial
  rw [lock]
  split
  · dsimp only
    split
    · apply withNum_chain
      intro ipcnt32
      obtain ⟨hc, hlive⟩ := setMaxIpConns_spec (D := Scope.all) (ipcnt ipcnt32) h.consistent
        (fun _ => trivial) (fun _ => trivial)
      have hp := hlive p cl h.live hadmin
      exact hc.trans (tell_chain (hc.consistent h.consistent) hp.seat trivial)
    · split
      · exact Chain.tell (setCaptchaProtection_chain _ h.consistent) h.consistent h.live trivial
      · split
        · exact Chain.tell (setProxycheck_chain _ h.consistent) h.consistent h.live trivial
        · split
          · exact hconfig { s with trustingCaptcha := isTrue args 2 } _
          · split
            · exact hconfig { s with fastconnectaction := fastAction (arg args 2) } _
            · exact Chain.refl s
  · exact tell_chain h.consistent h.live.seat trivial

/-- The client's world reads its properties again. -/
theorem reload_chain (h : Ready s p cl args) :
  Chain Scope.all s (reload s p args)
  := by
  rw [reload, withClient_eq _ h.live.1]
  exact act_tell_chain h trivial (by simp)

/-- The command that turns lockdown on closes no connection. -/
theorem lockdown_chain (h : Ready s p cl args) :
  Chain Scope.lock s (lockdown s p args)
  := by
  rw [lockdown]
  split
  · exact setLockdown_chain _ trivial h.consistent
  · exact (tells_chain (D := Scope.lock) _ h.consistent h.live.seat trivial).of_still

/-- Suspicious connections are to be banned, or no longer. -/
theorem bansuspicious_chain (h : Ready s p cl args) :
  Chain Scope.all s (bansuspicious s p args)
  := by
  rw [bansuspicious]
  split
  · exact Chain.tell (setInstaban_chain _ h.consistent) h.consistent h.live trivial
  · exact Chain.tell (tell_chain h.consistent h.live.seat trivial) h.consistent h.live trivial

/-- The worlds are sent. -/
theorem worlds_chain (h : Ready s p cl args) :
  Chain Scope.all s (worlds s p args)
  := by
  have hfirst : Chain Scope.all s (s.tell p (ofString "Currently loaded worlds:")) :=
    tell_chain h.consistent h.live.seat trivial
  have hnoted : Noted s (s.tell p (ofString "Currently loaded worlds:")) := by
    rw [tell_eq h.consistent h.live]
    exact (Noted.refl s).note _
  rw [worlds]
  apply hfirst.trans
  refine (foldl_chain (P := Noted s) ?_ hnoted).1
  intro t e he hn
  obtain ⟨w, hw, -⟩ := h.consistent.world_of_lookup (AList.mem_lookup_iff.mpr he)
  have hwt : t.objs e.2 = some w := by rw [hn.same.2.2.1, hw]
  have ht := hn.consistent h.consistent
  rw [withWorld_eq _ hwt]
  constructor
  · exact tell_chain ht (hn.live h.live).seat trivial
  · rw [tell_eq ht (hn.live h.live)]
    exact hn.note _

/-- A client of the world gets a quota. -/
theorem setpbucket_chain (h : Ready s p cl args) :
  Chain Scope.all s (setpbucket s p args)
  := by
  rw [setpbucket, withClient_eq _ h.live.1]
  split
  · apply withNum_chain
    intro id
    apply withNum_chain
    intro rate
    apply withNum_chain
    intro per
    apply withTarget_chain h.consistent h.live
    · exact tell_chain h.consistent h.live.seat trivial
    · intro target t ht _
      exact Chain.tell (setPbucket_chain h.consistent ht.seat trivial) h.consistent h.live trivial
  · exact Chain.tell (tell_chain h.consistent h.live.seat trivial) h.consistent h.live trivial

/-- A command run as another client. -/
theorem doas_chain {exec : Server → ClientPtr → Bytes → Bool × Server} (h : Ready s p cl args)
    (hexec : ∀ q t msg, s.Live q t → ∃ b, Chain (Scope.any b) s (exec s q msg).2) :
  ∃ b, Chain (Scope.any b) s (doas exec s p args)
  := by
  rw [doas, withClient_eq _ h.live.1]
  split
  · apply withNum_cases (P := fun t => ∃ b, Chain (Scope.any b) s t) ⟨false, Chain.refl s⟩
    intro id
    apply withTarget_cases (P := fun t => ∃ b, Chain (Scope.any b) s t) h.consistent h.live
      ⟨false, Chain.refl s⟩
    intro target t ht _
    exact hexec target t _ ht
  · use false
    exact Chain.tell (tell_chain h.consistent h.live.seat trivial) h.consistent h.live trivial

/-- A text is sent on all connections. -/
theorem broadcast_chain (h : Ready s p cl args) :
  Chain Scope.all s (broadcast s p args)
  := by
  rw [broadcast]
  split
  · exact broadcastmsg_chain _ h.consistent fun _ => trivial
  · exact tell_chain h.consistent h.live.seat trivial

/-- The number of connections is sent. -/
theorem totalonline_chain (h : Ready s p cl args) :
  Chain Scope.all s (totalonline s p args)
  := tell_chain h.consistent h.live.seat trivial

/-- A text is sent to one client. -/
theorem tellraw_chain (h : Ready s p cl args) :
  Chain Scope.all s (tellraw s p args)
  := by
  have htell : ∀ msg, Chain Scope.all.still s (s.tell p msg) := fun _ =>
    tell_chain h.consistent h.live.seat trivial
  rw [tellraw, withClient_eq _ h.live.1]
  split
  · apply withNum_chain
    intro id
    apply withTarget_chain h.consistent h.live (htell _).of_still
    intro target t ht _
    exact Chain.tell (htell _) h.consistent ht trivial
  · exact Chain.tell (htell _) h.consistent h.live trivial

/-- The administrators get a text, if the password is right. -/
theorem dev_chain (h : Ready s p cl args) :
  Chain Scope.all s (dev s p args)
  := by
  rw [dev]
  split
  · exact admintell_chain _ h.consistent
  · exact Chain.refl s

/-! ### Dispatch -/

omit [Platform] in
/-- A command that is found is in the table. -/
theorem mem_of_find {cmds : List (Bytes × Command)} {name : Bytes} {f : Command}
    (h : find cmds name = some f) :
  (name, f) ∈ cmds
  := by
  obtain ⟨⟨name', f'⟩, hfind, rfl⟩ := Option.map_eq_some_iff.mp h
  have hfound := List.find?_some hfind
  obtain rfl : name' = name := of_decide_eq_true hfound
  exact List.mem_of_find?_eq_some hfind

/-- The commands of the tables are found for the ranks they are for. -/
theorem search_spec {exec : Server → ClientPtr → Bytes → Bool × Server} {rank : Rank}
    {name : Bytes} {announced : Bool} {f : Command}
    (h : search exec rank name = some (announced, f)) :
  (name, f) ∈ usrcmds ∨ (name, f) ∈ modcmds ∨ rank = Rank.admin ∧ (name, f) ∈ admincmds exec
  := by
  have hif : ∀ {c : Prop} [Decidable c] {o : Option Command},
      (if c then o else none) = some f → c ∧ o = some f := by
    intro c _ o ho
    split at ho
    case isTrue hc => exact ⟨hc, ho⟩
    case isFalse => cases ho
  rw [search, Option.orElse_eq_some] at h
  obtain h | ⟨-, h⟩ := h
  · obtain ⟨g, hg, heq⟩ := Option.map_eq_some_iff.mp h
    cases heq
    obtain hg | ⟨-, hg⟩ := (Option.orElse_eq_some _ _ _).mp hg
    · obtain ⟨hrank, hfind⟩ := hif hg
      exact Or.inr (Or.inr ⟨hrank, mem_of_find hfind⟩)
    · exact Or.inr (Or.inl (mem_of_find (hif hg).2))
  · obtain ⟨g, hg, heq⟩ := Option.map_eq_some_iff.mp h
    cases heq
    obtain hg | ⟨-, hg⟩ := (Option.orElse_eq_some _ _ _).mp hg
    · exact Or.inl (mem_of_find (hif hg).2)
    · exact Or.inl (mem_of_find (hif hg).2)

/-- The commands of users stay in the client's world. -/
theorem usrcmds_chain {name : Bytes} {f : Command} (hf : (name, f) ∈ usrcmds)
    (hname : args.head? = some name) (h : Ready s p cl args) :
  Chain (Scope.room cl.wrld) s (f s p args)
  := by
  simp only [usrcmds, usrcmdNames, List.zip_cons_cons, List.zip_nil_left, List.mem_cons,
    Prod.mk.injEq, List.not_mem_nil, or_false] at hf
  obtain ⟨-, rfl⟩ | ⟨-, rfl⟩ | ⟨-, rfl⟩ | ⟨-, rfl⟩ | ⟨rfl, rfl⟩ | ⟨rfl, rfl⟩ | ⟨-, rfl⟩ := hf
  · exact nick_chain h rfl
  · exact pass_chain h rfl trivial
  · exact tell_command_chain h rfl
  · exact help_chain h rfl
  · exact modlogin_chain h rfl hname
  · exact adminlogin_chain h rfl hname
  · exact spawn_chain h rfl

/-- So do those of moderators. -/
theorem modcmds_chain {name : Bytes} {f : Command} (hf : (name, f) ∈ modcmds)
    (h : Ready s p cl args) :
  Chain (Scope.room cl.wrld) s (f s p args)
  := by
  simp only [modcmds, modcmdNames, List.zip_cons_cons, List.zip_nil_left, List.mem_cons,
    Prod.mk.injEq, List.not_mem_nil, or_false] at hf
  obtain ⟨-, rfl⟩ | ⟨-, rfl⟩ | ⟨-, rfl⟩ | ⟨-, rfl⟩ | ⟨-, rfl⟩ | ⟨-, rfl⟩ := hf
  · exact teleport_command_chain h rfl
  · exact stealth_chain h rfl
  · exact sayraw_chain h rfl fun msg => ⟨msg, rfl⟩
  · exact getid_chain h rfl
  · exact kick_chain h rfl fun _ => trivial
  · exact ids_chain h rfl

/-- Those of administrators do not; a text that `/doas` runs is taken as it comes. -/
theorem admincmds_chain {exec : Server → ClientPtr → Bytes → Bool × Server} {name : Bytes}
    {f : Command} (hf : (name, f) ∈ admincmds exec) (h : Ready s p cl args)
    (hadmin : cl.isAdmin = true)
    (hexec : ∀ q t msg, s.Live q t → ∃ b, Chain (Scope.any b) s (exec s q msg).2) :
  ∃ b, Chain (Scope.any b) s (f s p args)
  := by
  simp only [admincmds, admincmdNames, List.zip_cons_cons, List.zip_nil_left, List.mem_cons,
    Prod.mk.injEq, List.not_mem_nil, or_false] at hf
  obtain ⟨-, rfl⟩ | ⟨-, rfl⟩ | ⟨-, rfl⟩ | ⟨-, rfl⟩ | ⟨-, rfl⟩ | ⟨-, rfl⟩ | ⟨-, rfl⟩ | ⟨-, rfl⟩ |
    ⟨-, rfl⟩ | ⟨-, rfl⟩ | ⟨-, rfl⟩ | ⟨-, rfl⟩ | ⟨-, rfl⟩ | ⟨-, rfl⟩ | ⟨-, rfl⟩ | ⟨-, rfl⟩ |
    ⟨-, rfl⟩ | ⟨-, rfl⟩ | ⟨-, rfl⟩ | ⟨-, rfl⟩ | ⟨-, rfl⟩ | ⟨-, rfl⟩ | ⟨-, rfl⟩ | ⟨-, rfl⟩ |
    ⟨-, rfl⟩ := hf
  · exact ⟨false, kickip_command_chain h⟩
  · exact ⟨false, banip_command_chain h⟩
  · exact ⟨false, bans_chain h⟩
  · exact ⟨false, whitelist_command_chain h⟩
  · exact ⟨false, blacklist_chain h⟩
  · exact ⟨false, setrank_chain h hadmin⟩
  · exact ⟨false, whois_chain h⟩
  · exact ⟨false, save_chain h⟩
  · exact ⟨false, kickall_command_chain h⟩
  · exact ⟨false, setprop_chain h⟩
  · exact ⟨false, getprop_chain h⟩
  · exact ⟨false, stealth_chain h trivial⟩
  · exact ⟨false, mute_chain h⟩
  · exact ⟨false, restrict_chain h⟩
  · exact ⟨false, lock_chain h hadmin⟩
  · exact ⟨false, reload_chain h⟩
  · exact ⟨true, lockdown_chain h⟩
  · exact ⟨false, bansuspicious_chain h⟩
  · exact ⟨false, worlds_chain h⟩
  · exact ⟨false, setpbucket_chain h⟩
  · exact doas_chain h hexec
  · exact ⟨false, broadcast_chain h⟩
  · exact ⟨false, totalonline_chain h⟩
  · exact ⟨false, tellraw_chain h⟩
  · exact ⟨false, dev_chain h⟩

/-- The scope of the commands of a client. -/
def scopeOf (b : Bool) (cl : Client) : Scope :=
  if cl.isAdmin then Scope.any b else Scope.room cl.wrld

omit [Platform] in
/-- The client's own world is in the scope of its commands. -/
theorem wrld_scopeOf (b : Bool) (cl : Client) :
  (scopeOf b cl).wrld cl.wrld
  := by
  rw [scopeOf]
  split
  · cases b <;> trivial
  · rfl

/-- What stays in the world of a client is in the scope of its commands. -/
theorem scopeOf_room {s' : Server} (hc : Chain (Scope.room cl.wrld) s s') :
  ∃ b, Chain (scopeOf b cl) s s'
  := by
  use false
  rw [scopeOf]
  split
  · exact hc.mono (Scope.within_all id)
  · exact hc

/-- What is in the scope of the commands of a client is in that of an administrator. -/
theorem any_scopeOf {b : Bool} {s' : Server} (hc : Chain (scopeOf b cl) s s') :
  ∃ b, Chain (Scope.any b) s s'
  := by
  rw [scopeOf] at hc
  split at hc
  · exact ⟨b, hc⟩
  · exact ⟨false, hc.mono (Scope.within_all id)⟩

/-- A text that is run as a command. -/
theorem execFuel_chain (fuel : ℕ) (msg : Bytes) (h : s.Consistent) (hp : s.Live p cl) :
  ∃ b, Chain (scopeOf b cl) s (execFuel fuel s p msg).2
  := by
  induction fuel generalizing s p cl msg with
  | zero => exact ⟨false, Chain.refl s⟩
  | succ fuel ih =>
      rw [execFuel]
      split
      case h_1 => exact ⟨false, Chain.refl s⟩
      case h_2 hnone _ => exact absurd (hp.1.symm.trans hnone) (by simp)
      case h_3 name args cl' _ hcl' =>
        obtain rfl : cl = cl' := Option.some.inj (hp.1.symm.trans hcl')
        split
        case h_1 => exact ⟨false, Chain.refl s⟩
        case h_2 announced f hsearch =>
          obtain ⟨w, hw, -⟩ := h.world_of_live hp
          obtain ⟨si, hsi, -⟩ := h.info_of_live hp
          have hnote : ∀ D, Chain D s (s.note (.exec cl.ws (name :: args))) :=
            fun _ => Chain.single (.exec hp)
          have h₁ := (hnote Scope.all).consistent h
          have hready : Ready (s.note (.exec cl.ws (name :: args))) p cl (name :: args) :=
            ⟨h₁, hp, List.mem_append_right _ List.mem_cons_self⟩
          have hcommand : ∃ b, Chain (scopeOf b cl) (s.note (.exec cl.ws (name :: args)))
              (f (s.note (.exec cl.ws (name :: args))) p (name :: args)) := by
            obtain hf | hf | ⟨hrank, hf⟩ := search_spec hsearch
            · exact scopeOf_room (usrcmds_chain hf rfl hready)
            · exact scopeOf_room (modcmds_chain hf hready)
            · have hadmin : cl.isAdmin = true := by simp [Client.isAdmin, hrank]
              simp only [scopeOf, if_pos hadmin]
              apply admincmds_chain hf hready hadmin
              intro q t msg hq
              obtain ⟨b, hexec⟩ := ih msg h₁ hq
              exact any_scopeOf hexec
          obtain ⟨b, hcommand⟩ := hcommand
          use b
          dsimp only
          split
          · rw [withWorld_eq _ hw, withInfo_eq _ hsi]
            exact (hnote _).trans hcommand
          · exact (hnote _).trans hcommand

/-- Whatever the text is, by induction on the depth of `/doas`. -/
theorem exec_chain (msg : Bytes) (h : s.Consistent) (hp : s.Live p cl) :
  ∃ b, Chain (scopeOf b cl) s (exec s p msg).2
  := execFuel_chain _ msg h hp

end Commands

end Owop
