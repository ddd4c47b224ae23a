import OwopServer.Commands.Texts
import OwopServer.Server.Worlds

/-!
# Nicknames

`/nick` measures the name it is given in code units of UTF-16.  The limit is 40 for moderators and
12 for users.  It is checked for moderators, but a name above it is stored as that of a user, and
that of a user is not checked.
-/

namespace Owop

open Bytes (ofString)

namespace Server

variable {s : Server}

/-- Sending a message changes no client. -/
theorem send_clients (s : Server) (ws : Ws) (op : OpCode) (msg : Bytes) :
  (s.send ws op msg).clients = s.clients
  := by
  rw [send, withInfo]
  split <;> rfl

theorem tell_clients (s : Server) (p : ClientPtr) (msg : Bytes) :
  (s.tell p msg).clients = s.clients
  := by
  rw [tell, withClient]
  split
  · exact send_clients _ _ _ _
  · rfl

end Server

namespace Commands

/-- The name that `/nick` is given. -/
def nickName (args : List Bytes) : Bytes := (joinArgs args 1).filter fun b => b ≠ 10

/-- The limit that `/nick` announces to a client. -/
def nickLimit (cl : Client) : ℕ := if cl.isMod then 40 else 12

/-- What stands before the name in the nick of a user. -/
def nickTag (cl : Client) : Bytes := ofString "[" ++ toString cl.id.toNat ++ ofString "] "

/-- What `/nick` does to the client: it stores a nick and says so, or it stores none, and says why
if there is a name. -/
def nickAnswer (s : Server) (p : ClientPtr) (cl : Client) (args : List Bytes) :
    Option Bytes → Server
  | some nick => (s.change p (.nick nick)).tell p
      (if args.length < 2 then ofString "Nickname reset."
        else ofString "Nickname set to: '" ++ nickName args ++ ofString "'")
  | none =>
      if nickName args = [] then s
      else s.tell p (ofString "Nickname too long! (Max: " ++ toString (nickLimit cl) ++ ofString ")")

/-- What `/nick` with a name stores keeps the limits of the client: the name in it is of one line
and within the limit, also if it was there before, and it is behind the tag if the client is below
moderator.  A name above the limit is not stored. -/
structure NickKept (cl : Client) (args : List Bytes) (stored : Option Bytes) : Prop where
  name : 2 ≤ args.length → ∀ nick, stored = some nick →
    (nick = nickName args ∨ nick = nickTag cl ++ nickName args) ∧
      getUTF8strlen (nickName args) ≤ nickLimit cl ∧ 10 ∉ nickName args
  above : 2 ≤ args.length → nickLimit cl < getUTF8strlen (nickName args) → stored = none
  tag : 2 ≤ args.length → cl.rank < Rank.moderator → ∀ nick, stored = some nick → nickTag cl <+: nick

/-- The nick that `/nick` stores, if any. -/
def nickStored (cl : Client) (args : List Bytes) : Option Bytes :=
  if args.length < 2 then some []
  else if nickName args = [] then none
  else if cl.isAdmin ∨ cl.isMod ∧ getUTF8strlen (nickName args) ≤ 40 then some (nickName args)
  else if 0 < getUTF8strlen (nickName args) then some (nickTag cl ++ nickName args)
  else none

variable {s : Server} {p : ClientPtr} {cl : Client} {args : List Bytes}

/-- `/nick` stores that nick and answers so. -/
theorem nick_eq (args : List Bytes) (hp : s.clients p = some cl) :
  nick s p args = nickAnswer s p cl args (nickStored cl args)
  := by
  have hempty : (nickName args).length < 1 ↔ nickName args = [] := by
    rw [Nat.lt_one_iff, List.length_eq_zero_iff]
  rw [nick, Server.withClient, hp, nickStored]
  dsimp only
  rw [← nickName, ← nickTag, ← nickLimit]
  by_cases hlength : args.length < 2
  · rw [if_neg (not_le.mpr hlength), if_pos hlength, nickAnswer, if_pos hlength]
  rw [if_pos (not_lt.mp hlength), if_neg hlength]
  by_cases hname : nickName args = []
  · rw [if_pos (hempty.mpr hname), if_pos hname, nickAnswer, if_pos hname]
  rw [if_neg (fun hlt => hname (hempty.mp hlt)), if_neg hname]
  by_cases hadmin : cl.isAdmin = true
  · rw [if_pos hadmin, if_pos (Or.inl hadmin), nickAnswer, if_neg hlength]
  rw [if_neg hadmin]
  by_cases hmod : cl.isMod = true ∧ getUTF8strlen (nickName args) ≤ 40
  · rw [if_pos hmod, if_pos (Or.inr hmod), nickAnswer, if_neg hlength]
  rw [if_neg hmod, if_neg (not_or.mpr ⟨hadmin, hmod⟩)]
  by_cases hsize : 0 < getUTF8strlen (nickName args)
  · rw [if_pos hsize, if_pos hsize, nickAnswer, if_neg hlength]
  · rw [if_neg hsize, if_neg hsize, nickAnswer, if_neg hname]

/-- The client after that. -/
theorem nickAnswer_clients (args : List Bytes) (hp : s.clients p = some cl) (stored : Option Bytes) :
  (nickAnswer s p cl args stored).clients p = some { cl with nick := stored.getD cl.nick }
  := by
  cases stored with
  | some nick =>
      rw [nickAnswer, Server.tell_clients, Server.change, Server.withClient, hp]
      exact Function.update_self _ _ _
  | none =>
      rw [nickAnswer]
      split
      · exact hp
      · rw [Server.tell_clients]
        exact hp

theorem newline_notMem_nickName (args : List Bytes) :
  10 ∉ nickName args
  := by
  rw [nickName, List.mem_filter]
  simp

/-- A name above the limit is stored behind the tag. -/
theorem nickStored_of_lt (hadmin : cl.isAdmin = false) (hlength : 2 ≤ args.length)
    (hlong : nickLimit cl < getUTF8strlen (nickName args)) :
  nickStored cl args = some (nickTag cl ++ nickName args)
  := by
  have hname : nickName args ≠ [] := by
    intro hname
    rw [hname] at hlong
    exact Nat.not_lt_zero _ hlong
  have hmod : ¬ (cl.isAdmin = true ∨ cl.isMod = true ∧ getUTF8strlen (nickName args) ≤ 40) := by
    rintro (h | ⟨hmod, hle⟩)
    · rw [hadmin] at h
      cases h
    · rw [nickLimit, if_pos hmod] at hlong
      exact absurd hle (not_le.mpr hlong)
  rw [nickStored, if_neg (not_lt.mpr hlength), if_neg hname, if_neg hmod,
    if_pos (lt_of_le_of_lt (Nat.zero_le _) hlong)]

/-- What is stored for a name is the name, with the tag for clients below moderator. -/
theorem nickStored_cases {nick : Bytes} (hadmin : cl.isAdmin = false) (hlength : 2 ≤ args.length)
    (hstored : nickStored cl args = some nick) :
  nick = nickName args ∧ cl.isMod = true ∨ nick = nickTag cl ++ nickName args
  := by
  rw [nickStored, if_neg (not_lt.mpr hlength)] at hstored
  split_ifs at hstored with hname hfree hlong
  · obtain hadmin' | ⟨hmod, -⟩ := hfree
    · rw [hadmin] at hadmin'
      cases hadmin'
    · exact Or.inl ⟨(Option.some.inj hstored).symm, hmod⟩
  · exact Or.inr (Option.some.inj hstored).symm

/-- What `/nick` stores keeps the limits of a client that is no administrator exactly if the name is
within the limit, or there is no name. -/
theorem nickKept_iff (s : Server) (p : ClientPtr) (cl : Client) (args : List Bytes)
    (hp : s.clients p = some cl) (hadmin : cl.isAdmin = false) :
  ∃ stored, nick s p args = nickAnswer s p cl args stored ∧
    (nick s p args).clients p = some { cl with nick := stored.getD cl.nick } ∧
    (NickKept cl args stored ↔
      args.length < 2 ∨ getUTF8strlen (nickName args) ≤ nickLimit cl)
  := by
  use nickStored cl args, nick_eq args hp
  rw [nick_eq args hp]
  use nickAnswer_clients args hp _
  constructor
  · intro h
    by_contra hnot
    rw [not_or, not_lt, not_le] at hnot
    obtain ⟨hlength, hlong⟩ := hnot
    have hnone := h.above hlength hlong
    rw [nickStored_of_lt hadmin hlength hlong] at hnone
    cases hnone
  · intro h
    have hle : 2 ≤ args.length → getUTF8strlen (nickName args) ≤ nickLimit cl :=
      fun hlength => h.resolve_left (not_lt.mpr hlength)
    constructor
    case name =>
      intro hlength nick hstored
      refine ⟨?_, hle hlength, newline_notMem_nickName args⟩
      obtain ⟨hname, -⟩ | htag := nickStored_cases hadmin hlength hstored
      · exact Or.inl hname
      · exact Or.inr htag
    case above => exact fun hlength hlong => absurd (hle hlength) (not_le.mpr hlong)
    case tag =>
      intro hlength hrank nick hstored
      obtain ⟨-, hmod⟩ | htag := nickStored_cases hadmin hlength hstored
      · have heq : cl.rank = Rank.moderator := beq_iff_eq.mp hmod
        rw [heq] at hrank
        exact absurd hrank (UInt8.lt_irrefl _)
      · rw [htag]
        exact List.prefix_append _ _

/-- A user takes a name of thirteen characters. -/
theorem not_nickKept :
  ¬ ∀ [Platform] (events : List Server.Event) (p : ClientPtr) (cl : Client) (msg : Bytes),
    ((Server.new (ofString "m") (ofString "a") [] (Disk.empty fun _ => true) 0).runs
        events).clients p = some cl → cl.isAdmin = false →
      (splitArgs msg).head? = some (ofString "nick") →
      ∃ stored, nick ((Server.new (ofString "m") (ofString "a") [] (Disk.empty fun _ => true) 0).runs
            events) p (splitArgs msg)
          = nickAnswer ((Server.new (ofString "m") (ofString "a") []
              (Disk.empty fun _ => true) 0).runs events) p cl (splitArgs msg) stored ∧
        NickKept cl (splitArgs msg) stored
  := by
  intro h
  let _ := Platform.quiet
  have hcl : (((Server.new (ofString "m") (ofString "a") [] (Disk.empty fun _ => true) 0).runs
      Server.joinEvents).clients 0).any (fun cl => decide (cl.isAdmin = false ∧ cl.isMod = false ∧
        cl.nick = [])) = true := by
    decide +kernel
  obtain ⟨cl, hcl, hnew⟩ := (Option.any_eq_true _ _).mp hcl
  obtain ⟨hadmin, hmod, hnick⟩ := of_decide_eq_true hnew
  obtain ⟨stored, hanswer, hkept⟩ := h Server.joinEvents 0 cl (ofString "nick abcdefghijklm") hcl
    hadmin (by decide +kernel)
  have hlimit : nickLimit cl = 12 := by rw [nickLimit, hmod, if_neg Bool.false_ne_true]
  have hlength : 2 ≤ (splitArgs (ofString "nick abcdefghijklm")).length := by decide +kernel
  have hlong : nickLimit cl
      < getUTF8strlen (nickName (splitArgs (ofString "nick abcdefghijklm"))) := by
    rw [hlimit]
    decide +kernel
  -- nothing may be stored, but the client has another nick
  have hclients := congrArg (fun t : Server => t.clients 0) hanswer
  rw [hkept.above hlength hlong, nick_eq _ hcl, nickStored_of_lt hadmin hlength hlong,
    nickAnswer_clients _ hcl, nickAnswer_clients _ hcl, Option.getD_some, Option.getD_none,
    hnick] at hclients
  have hempty := congrArg (fun cl : Client => cl.nick.length) (Option.some.inj hclients)
  dsimp only at hempty
  have hpositive : 0 < (nickName (splitArgs (ofString "nick abcdefghijklm"))).length := by
    decide +kernel
  rw [List.length_append, List.length_nil] at hempty
  omega

/-- A user takes a name of twelve characters. -/
theorem nickKept_iff_twelve :
  let _ := Platform.quiet
  ∃ cl stored, ((Server.new (ofString "m") (ofString "a") [] (Disk.empty fun _ => true) 0).runs
      Server.joinEvents).clients 0 = some cl ∧
    nick ((Server.new (ofString "m") (ofString "a") [] (Disk.empty fun _ => true) 0).runs
        Server.joinEvents) 0 (splitArgs (ofString "nick abcdefghijkl"))
      = nickAnswer ((Server.new (ofString "m") (ofString "a") [] (Disk.empty fun _ => true) 0).runs
          Server.joinEvents) 0 cl (splitArgs (ofString "nick abcdefghijkl")) stored ∧
    NickKept cl (splitArgs (ofString "nick abcdefghijkl")) stored
  := by
  let _ := Platform.quiet
  have hcl : (((Server.new (ofString "m") (ofString "a") [] (Disk.empty fun _ => true) 0).runs
      Server.joinEvents).clients 0).any
        (fun cl => decide (cl.isAdmin = false ∧ cl.isMod = false)) = true := by
    decide +kernel
  obtain ⟨cl, hcl, hnew⟩ := (Option.any_eq_true _ _).mp hcl
  obtain ⟨hadmin, hmod⟩ := of_decide_eq_true hnew
  obtain ⟨stored, hanswer, -, hiff⟩ := nickKept_iff _ 0 cl (splitArgs (ofString "nick abcdefghijkl"))
    hcl hadmin
  use cl, stored, hcl, hanswer
  apply hiff.mpr
  right
  rw [nickLimit, hmod, if_neg Bool.false_ne_true]
  decide +kernel

end Commands

end Owop
