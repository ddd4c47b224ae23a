import OwopServer.Commands.Chains
import OwopServer.Server.Steady

/-!
# What commands leave

No command opens a connection, makes a client or touches the limits of what clients say, whoever
it is run for and whatever its arguments are.
-/

namespace Owop

open Bytes (ofString)

namespace Commands

open Server

variable {s : Server} {p : ClientPtr} {args : List Bytes}

/-! ### Numbers and clients in arguments -/

/-- A number is read from an argument, or nothing is done. -/
theorem withNum_steady {a : Bytes} {k : UInt32 → Server} (hk : ∀ n, s.Steady (k n)) :
  s.Steady (withNum a s k)
  := withNum_cases (.refl s) hk

/-- A coordinate is read from an argument, or nothing is done. -/
theorem withInt_steady {a : Bytes} {k : Int32 → Server} (hk : ∀ x, s.Steady (k x)) :
  s.Steady (withInt a s k)
  := by
  rw [withInt]
  split
  · exact hk _
  · exact .refl s

/-- A client is looked up by its id, and if it is there something is done with it. -/
theorem withTarget_steady {wp : WorldPtr} {id : UInt32} {absent : Server}
    {found : ClientPtr → Client → Server} (habsent : s.Steady absent)
    (hfound : ∀ target t, s.Steady (found target t)) :
  s.Steady (withTarget s wp id absent found)
  := by
  apply withWorld_steady
  intro w _
  split
  case h_1 target _ =>
    apply withClient_steady
    intro t _
    exact hfound target t
  case h_2 => exact habsent

/-- Two texts. -/
theorem tell_tell_steady (s : Server) (p q : ClientPtr) (msg msg' : Bytes) :
  s.Steady ((s.tell p msg).tell q msg')
  := (tell_steady s p msg).trans (tell_steady _ q msg')

/-! ### Commands of users -/

/-- A nick is in nobody's view. -/
theorem nick_steady (s : Server) (p : ClientPtr) (args : List Bytes) :
  s.Steady (nick s p args)
  := by
  have hset : ∀ name msg, s.Steady ((s.change p (.nick name)).tell p msg) := fun name msg =>
    (change_steady s p (show Slight (.nick name) from trivial)).trans (tell_steady _ p msg)
  apply withClient_steady
  intro cl _
  split
  · dsimp only
    split
    · exact .refl s
    · split
      · exact hset _ _
      · split
        · exact hset _ _
        · split
          · exact hset _ _
          · exact tell_steady s p _
  · exact hset _ _

/-- The right password gives a rank, which the client is told, and a wrong one closes the
connection. -/
theorem pass_steady (s : Server) (p : ClientPtr) (args : List Bytes) :
  s.Steady (pass s p args)
  := by
  apply withClient_steady
  intro cl _
  split
  · apply withWorld_steady
    intro w _
    split
    · exact promote_steady s p w.defaultRank w.paintrate
    · exact safedelete_steady s p
  · exact tell_tell_steady s p p _ _

/-- Both clients get a text. -/
theorem tell_command_steady (s : Server) (p : ClientPtr) (args : List Bytes) :
  s.Steady (Commands.tell s p args)
  := by
  apply withClient_steady
  intro cl _
  split
  · apply withNum_steady
    intro id
    exact withTarget_steady (tell_steady s p _) fun target t => tell_tell_steady s p target _ _
  · exact tell_steady s p _

/-- Who logs in as a moderator is told the rank. -/
theorem modlogin_steady (s : Server) (p : ClientPtr) (args : List Bytes) :
  s.Steady (modlogin s p args)
  := by
  apply withClient_steady
  intro cl _
  split
  · split
    · apply withInfo_steady
      intro si _
      apply withWorld_steady
      intro w _
      exact (admintell_steady s _).trans (promote_steady _ p Rank.moderator w.paintrate)
    · exact .refl s
  · exact .refl s

/-- Who logs in as an administrator is told the rank. -/
theorem adminlogin_steady (s : Server) (p : ClientPtr) (args : List Bytes) :
  s.Steady (adminlogin s p args)
  := by
  apply withClient_steady
  intro cl _
  split
  · split
    · apply withInfo_steady
      intro si _
      apply withWorld_steady
      intro w _
      exact promote_steady s p Rank.admin w.paintrate
    · exact tell_steady s p _
  · exact .refl s

/-- A client is moved to the middle of the world. -/
theorem spawn_steady (s : Server) (p : ClientPtr) (args : List Bytes) :
  s.Steady (spawn s p args)
  := (teleport_steady s p 0 0).trans (tell_steady _ p _)

/-- The names of the commands are a text. -/
theorem help_steady (s : Server) (p : ClientPtr) (args : List Bytes) :
  s.Steady (help s p args)
  := by
  apply withClient_steady
  intro cl _
  exact tell_steady s p _

/-! ### Commands of moderators -/

/-- A client is moved to a place, to another client, or another client to a place. -/
theorem teleport_command_steady (s : Server) (p : ClientPtr) (args : List Bytes) :
  s.Steady (Commands.teleport s p args)
  := by
  apply withClient_steady
  intro cl _
  split
  · apply withInt_steady
    intro x
    apply withInt_steady
    intro y
    exact (tell_steady s p _).trans (teleport_steady _ p x y)
  · split
    · apply withNum_steady
      intro id
      exact withTarget_steady (.refl s) fun target t => teleport_steady s p _ _
    · split
      · apply withNum_steady
        intro id
        apply withInt_steady
        intro x
        apply withInt_steady
        intro y
        exact withTarget_steady (.refl s) fun target t =>
          (teleport_steady s target x y).trans (tell_steady _ p _)
      · exact tell_steady s p _

/-- Whether the rank is shown in the chat is in nobody's view. -/
theorem stealth_steady (s : Server) (p : ClientPtr) (args : List Bytes) :
  s.Steady (stealth s p args)
  := by
  rw [stealth]
  split
  · exact (change_steady s p (show Slight (.stealth _) from trivial)).trans (tell_steady _ p _)
  · exact tell_tell_steady s p p _ _

/-- An id is found by a nick and told as a text. -/
theorem getid_steady (s : Server) (p : ClientPtr) (args : List Bytes) :
  s.Steady (getid s p args)
  := by
  apply withClient_steady
  intro cl _
  split
  · apply withWorld_steady
    intro w _
    split
    · apply withClient_steady
      intro t _
      exact tell_steady s p _
    · exact tell_steady s p _
  · exact tell_tell_steady s p p _ _

/-- A client is moved away and its connection closed. -/
theorem kick_steady (s : Server) (p : ClientPtr) (args : List Bytes) :
  s.Steady (kick s p args)
  := by
  apply withClient_steady
  intro cl _
  split
  · apply withNum_steady
    intro id
    refine withTarget_steady (tell_steady s p _) fun target t => ?_
    split
    · exact ((teleport_steady s target 0 0).trans (safedelete_steady _ target)).trans
        (tell_steady _ p _)
    · exact tell_steady s p _
  · exact .refl s

/-- The ids of a world are told as a text. -/
theorem ids_steady (s : Server) (p : ClientPtr) (args : List Bytes) :
  s.Steady (ids s p args)
  := by
  apply withClient_steady
  intro cl _
  apply withWorld_steady
  intro w _
  exact tell_steady s p _

/-! ### Commands of administrators -/

/-- The connections of an address are closed. -/
theorem kickip_command_steady (s : Server) (p : ClientPtr) (args : List Bytes) :
  s.Steady (Commands.kickip s p args)
  := by
  rw [Commands.kickip]
  split
  · exact kickip_steady s _
  · exact tell_steady s p _

/-- An address is banned and its connections are closed. -/
theorem banip_command_steady (s : Server) (p : ClientPtr) (args : List Bytes) :
  s.Steady (Commands.banip s p args)
  := by
  rw [Commands.banip]
  split
  · exact banip_steady s _
  · exact tell_steady s p _

/-- A list of addresses is shown or changed. -/
theorem ipCommand_steady {l : IpList} {cleared added removed usage : Bytes}
    (hl : ∀ (s : Server) ips, s.Steady (l.set s ips)) (s : Server) (p : ClientPtr)
    (args : List Bytes) :
  s.Steady (ipCommand l cleared added removed usage s p args)
  := by
  have hset : ∀ ips msg, s.Steady ((l.set s ips).tell p msg) := fun ips msg =>
    (hl s ips).trans (tell_steady _ p msg)
  rw [ipCommand]
  split
  · split
    · exact (foldl_steady (fun t ip => tell_steady t p _) _ s).trans (tell_steady _ p _)
    · split
      · exact hset _ _
      · exact .refl s
  · split
    · split
      · exact hset _ _
      · split
        · split
          · exact hset _ _
          · exact .refl s
        · exact .refl s
    · exact tell_steady s p _

/-- The list of banned addresses. -/
theorem bans_steady (s : Server) (p : ClientPtr) (args : List Bytes) :
  s.Steady (bans s p args)
  := ipCommand_steady (fun _ _ => .rest rfl rfl rfl rfl rfl) s p args

/-- The list of addresses that are let in. -/
theorem whitelist_command_steady (s : Server) (p : ClientPtr) (args : List Bytes) :
  s.Steady (whitelist s p args)
  := ipCommand_steady (fun _ _ => .rest rfl rfl rfl rfl rfl) s p args

/-- The list of addresses that are kept out. -/
theorem blacklist_steady (s : Server) (p : ClientPtr) (args : List Bytes) :
  s.Steady (blacklist s p args)
  := ipCommand_steady (fun _ _ => .rest rfl rfl rfl rfl rfl) s p args

/-- Who gets a rank by `/setrank` is told it. -/
theorem setrank_steady (s : Server) (p : ClientPtr) (args : List Bytes) :
  s.Steady (setrank s p args)
  := by
  apply withClient_steady
  intro cl _
  split
  · apply withNum_steady
    intro id
    apply withNum_steady
    intro rank
    refine withTarget_steady (tell_steady s p _) fun target t => ?_
    split
    · apply withWorld_steady
      intro w _
      have hnote : s.Steady (s.note (.setrank cl.rank t.ws)) := note_steady nofun
      exact (hnote.trans (promote_steady _ target _ _)).trans (tell_steady _ p _)
    · split
      · exact tell_steady s p _
      · exact tell_steady s p _
  · exact tell_steady s p _

/-- What is known of a client is told as texts. -/
theorem whois_steady (s : Server) (p : ClientPtr) (args : List Bytes) :
  s.Steady (whois s p args)
  := by
  apply withClient_steady
  intro cl _
  split
  · apply withNum_steady
    intro id
    refine withTarget_steady (.refl s) fun target t => ?_
    apply withInfo_steady
    intro si _
    exact tells_steady s p _
  · exact tell_steady s p _

/-- The connections of a world or of the server are closed. -/
theorem kickall_command_steady (s : Server) (p : ClientPtr) (args : List Bytes) :
  s.Steady (Commands.kickall s p args)
  := by
  apply withClient_steady
  intro cl _
  split
  · split
    · exact kickallWorld_steady s cl.wrld
    · split
      · exact kickall_steady s
      · exact .refl s
  · exact tell_tell_steady s p p _ _

/-- The value of a property is told as a text. -/
theorem getprop_steady (s : Server) (p : ClientPtr) (args : List Bytes) :
  s.Steady (getprop s p args)
  := by
  apply withClient_steady
  intro cl _
  split
  · apply withWorld_steady
    intro w _
    exact tell_steady s p _
  · exact .refl s

/-- Whether a client is mute is in nobody's view. -/
theorem mute_steady (s : Server) (p : ClientPtr) (args : List Bytes) :
  s.Steady (mute s p args)
  := by
  apply withClient_steady
  intro cl _
  split
  · apply withNum_steady
    intro id
    refine withTarget_steady (.refl s) fun target t => ?_
    dsimp only
    split
    · exact tell_steady s p _
    · exact (change_steady s target (show Slight (.mute _) from trivial)).trans (tell_steady _ p _)
  · exact tell_steady s p _

/-- The limits for connections are no limits of what clients say. -/
theorem lock_steady (s : Server) (p : ClientPtr) (args : List Bytes) :
  s.Steady (lock s p args)
  := by
  rw [lock]
  split
  · dsimp only
    split
    · apply withNum_steady
      intro n
      exact (setMaxIpConns_steady s _).trans (tell_steady _ p _)
    · split
      · exact (setCaptchaProtection_steady s _).trans (tell_steady _ p _)
      · split
        · exact (setProxycheck_steady s _).trans (tell_steady _ p _)
        · split
          · have hset : s.Steady { s with trustingCaptcha := isTrue args 2 } :=
              .rest rfl rfl rfl rfl rfl
            exact hset.trans (tell_steady _ p _)
          · split
            · have hset : s.Steady { s with fastconnectaction := fastAction (arg args 2) } :=
                .rest rfl rfl rfl rfl rfl
              exact hset.trans (tell_steady _ p _)
            · exact .refl s
  · exact tell_steady s p _

/-- Lockdown is turned on or off. -/
theorem lockdown_steady (s : Server) (p : ClientPtr) (args : List Bytes) :
  s.Steady (lockdown s p args)
  := by
  rw [lockdown]
  split
  · exact setLockdown_steady s _
  · exact tells_steady s p _

/-- Whether suspicious connections are banned is in nobody's view. -/
theorem bansuspicious_steady (s : Server) (p : ClientPtr) (args : List Bytes) :
  s.Steady (bansuspicious s p args)
  := by
  rw [bansuspicious]
  split
  · exact (setInstaban_steady s _).trans (tell_steady _ p _)
  · exact tell_tell_steady s p p _ _

/-- The worlds are told as texts. -/
theorem worlds_steady (s : Server) (p : ClientPtr) (args : List Bytes) :
  s.Steady (worlds s p args)
  := by
  apply (tell_steady s p _).trans
  apply foldl_steady
  intro t e
  apply withWorld_steady
  intro w _
  exact tell_steady t p _

/-- The time that `/setpbucket` sets is at least a second. -/
theorem setpbucket_per (per : UInt32) :
  ¬ (if per > 0xFFFF then 0xFFFF else if per = 0 then 1 else per).toUInt16 < 1
  := by
  split
  · decide
  · split
    · decide
    · rename_i hle hne
      rw [UInt16.lt_iff_toNat_lt, UInt32.toNat_toUInt16]
      have hle' : per.toNat ≤ 0xFFFF := UInt32.le_iff_toNat_le.mp (UInt32.not_lt.mp hle)
      have hne' : per.toNat ≠ 0 := fun hzero => hne (UInt32.toNat_inj.mp hzero)
      rw [Nat.mod_eq_of_lt (by omega)]
      exact fun hlt => hne' (Nat.lt_one_iff.mp hlt)

/-- Who gets a quota by `/setpbucket` is told it. -/
theorem setpbucket_steady (s : Server) (p : ClientPtr) (args : List Bytes) :
  s.Steady (setpbucket s p args)
  := by
  apply withClient_steady
  intro cl _
  split
  · apply withNum_steady
    intro id
    apply withNum_steady
    intro rate
    apply withNum_steady
    intro per
    exact withTarget_steady (tell_steady s p _) fun target t =>
      (setPbucket_steady s target (setpbucket_per per)).trans (tell_steady _ p _)
  · exact tell_tell_steady s p p _ _

/-- What is run for another client is another text. -/
theorem doas_steady {exec : Server → ClientPtr → Bytes → Bool × Server}
    (hexec : ∀ (s : Server) p msg, s.Steady (exec s p msg).2) (s : Server) (p : ClientPtr)
    (args : List Bytes) :
  s.Steady (doas exec s p args)
  := by
  apply withClient_steady
  intro cl _
  split
  · apply withNum_steady
    intro id
    exact withTarget_steady (.refl s) fun target t => hexec s target _
  · exact tell_tell_steady s p p _ _

/-- A text for everyone. -/
theorem broadcast_steady (s : Server) (p : ClientPtr) (args : List Bytes) :
  s.Steady (broadcast s p args)
  := by
  rw [broadcast]
  split
  · exact broadcastmsg_steady s _
  · exact tell_steady s p _

/-- The number of connections is told as a text. -/
theorem totalonline_steady (s : Server) (p : ClientPtr) (args : List Bytes) :
  s.Steady (totalonline s p args)
  := tell_steady s p _

/-- A text for one client. -/
theorem tellraw_steady (s : Server) (p : ClientPtr) (args : List Bytes) :
  s.Steady (tellraw s p args)
  := by
  apply withClient_steady
  intro cl _
  split
  · apply withNum_steady
    intro id
    exact withTarget_steady (tell_steady s p _) fun target t => tell_tell_steady s p target _ _
  · exact tell_tell_steady s p p _ _

/-- A text for the administrators, if the password is right. -/
theorem dev_steady (s : Server) (p : ClientPtr) (args : List Bytes) :
  s.Steady (dev s p args)
  := by
  rw [dev]
  split
  · exact admintell_steady s _
  · exact .refl s

variable [Platform]

/-- A text for everyone in a world, as it is. -/
theorem sayraw_steady (s : Server) (p : ClientPtr) (args : List Bytes) :
  s.Steady (sayraw s p args)
  := by
  apply withClient_steady
  intro cl _
  split
  · exact act_steady s cl.wrld _
  · exact tell_tell_steady s p p _ _

/-- A property is a matter of the world. -/
theorem setprop_steady (s : Server) (p : ClientPtr) (args : List Bytes) :
  s.Steady (setprop s p args)
  := by
  apply withClient_steady
  intro cl _
  split
  · exact (act_steady s cl.wrld _).trans (tell_steady _ p _)
  · split
    · exact (act_steady s cl.wrld _).trans (tell_steady _ p _)
    · exact tell_steady s p _

/-- The rank of those who will join is a matter of the world. -/
theorem restrict_steady (s : Server) (p : ClientPtr) (args : List Bytes) :
  s.Steady (restrict s p args)
  := by
  apply withClient_steady
  intro cl _
  split
  · exact (act_steady s cl.wrld _).trans (tell_steady _ p _)
  · exact tell_tell_steady s p p _ _

/-- The properties are read again, which is a matter of the world. -/
theorem reload_steady (s : Server) (p : ClientPtr) (args : List Bytes) :
  s.Steady (reload s p args)
  := by
  apply withClient_steady
  intro cl _
  exact (act_steady s cl.wrld _).trans (tell_steady _ p _)

/-! ### Dispatch -/

/-- All commands of the tables. -/
theorem search_steady {exec : Server → ClientPtr → Bytes → Bool × Server}
    (hexec : ∀ (s : Server) p msg, s.Steady (exec s p msg).2) {rank : Rank} {name : Bytes}
    {announced : Bool} {f : Command} (h : search exec rank name = some (announced, f)) (s : Server)
    (p : ClientPtr) (args : List Bytes) :
  s.Steady (f s p args)
  := by
  obtain hf | hf | ⟨-, hf⟩ := search_spec h
  · simp only [usrcmds, usrcmdNames, List.zip_cons_cons, List.zip_nil_left, List.mem_cons,
      Prod.mk.injEq, List.not_mem_nil, or_false] at hf
    obtain ⟨-, rfl⟩ | ⟨-, rfl⟩ | ⟨-, rfl⟩ | ⟨-, rfl⟩ | ⟨-, rfl⟩ | ⟨-, rfl⟩ | ⟨-, rfl⟩ := hf
    · exact nick_steady s p args
    · exact pass_steady s p args
    · exact tell_command_steady s p args
    · exact help_steady s p args
    · exact modlogin_steady s p args
    · exact adminlogin_steady s p args
    · exact spawn_steady s p args
  · simp only [modcmds, modcmdNames, List.zip_cons_cons, List.zip_nil_left, List.mem_cons,
      Prod.mk.injEq, List.not_mem_nil, or_false] at hf
    obtain ⟨-, rfl⟩ | ⟨-, rfl⟩ | ⟨-, rfl⟩ | ⟨-, rfl⟩ | ⟨-, rfl⟩ | ⟨-, rfl⟩ := hf
    · exact teleport_command_steady s p args
    · exact stealth_steady s p args
    · exact sayraw_steady s p args
    · exact getid_steady s p args
    · exact kick_steady s p args
    · exact ids_steady s p args
  · simp only [admincmds, admincmdNames, List.zip_cons_cons, List.zip_nil_left, List.mem_cons,
      Prod.mk.injEq, List.not_mem_nil, or_false] at hf
    obtain ⟨-, rfl⟩ | ⟨-, rfl⟩ | ⟨-, rfl⟩ | ⟨-, rfl⟩ | ⟨-, rfl⟩ | ⟨-, rfl⟩ | ⟨-, rfl⟩ | ⟨-, rfl⟩ |
      ⟨-, rfl⟩ | ⟨-, rfl⟩ | ⟨-, rfl⟩ | ⟨-, rfl⟩ | ⟨-, rfl⟩ | ⟨-, rfl⟩ | ⟨-, rfl⟩ | ⟨-, rfl⟩ |
      ⟨-, rfl⟩ | ⟨-, rfl⟩ | ⟨-, rfl⟩ | ⟨-, rfl⟩ | ⟨-, rfl⟩ | ⟨-, rfl⟩ | ⟨-, rfl⟩ | ⟨-, rfl⟩ |
      ⟨-, rfl⟩ := hf
    · exact kickip_command_steady s p args
    · exact banip_command_steady s p args
    · exact bans_steady s p args
    · exact whitelist_command_steady s p args
    · exact blacklist_steady s p args
    · exact setrank_steady s p args
    · exact whois_steady s p args
    · exact saveNow_steady s
    · exact kickall_command_steady s p args
    · exact setprop_steady s p args
    · exact getprop_steady s p args
    · exact stealth_steady s p args
    · exact mute_steady s p args
    · exact restrict_steady s p args
    · exact lock_steady s p args
    · exact reload_steady s p args
    · exact lockdown_steady s p args
    · exact bansuspicious_steady s p args
    · exact worlds_steady s p args
    · exact setpbucket_steady s p args
    · exact doas_steady hexec s p args
    · exact broadcast_steady s p args
    · exact totalonline_steady s p args
    · exact tellraw_steady s p args
    · exact dev_steady s p args

/-- A text that is run as a command, by induction on the depth of `/doas`. -/
theorem execFuel_steady (fuel : ℕ) (s : Server) (p : ClientPtr) (msg : Bytes) :
  s.Steady (execFuel fuel s p msg).2
  := by
  induction fuel generalizing s p msg with
  | zero => exact .refl s
  | succ fuel ih =>
      rw [execFuel]
      split
      case h_1 => exact .refl s
      case h_2 => exact misuse_steady s
      case h_3 name args cl _ _ =>
        split
        case h_1 => exact .refl s
        case h_2 announced f hsearch =>
          have hnote : s.Steady (s.note (.exec cl.ws (name :: args))) :=
            note_steady fun _ _ _ hsend => Action.noConfusion hsend
          have hrun := hnote.trans (search_steady ih hsearch _ p (name :: args))
          dsimp only
          split
          · apply withWorld_steady
            intro w _
            apply withInfo_steady
            intro si _
            exact hrun
          · exact hrun

/-- Whatever the text is, and whoever it is run for. -/
theorem exec_steady (s : Server) (p : ClientPtr) (msg : Bytes) :
  s.Steady (exec s p msg).2
  := execFuel_steady _ s p msg

end Commands

end Owop
