import OwopServer.Commands.Nicks

/-!
# Numbers in commands and properties

`std::stoul` gives a number of 64 bits, which the server stores in 32 bits before it clamps it or
looks a client up by it.  So a number from `2 ^ 32` on stands for another one.
-/

namespace Owop

open Bytes (ofString)

/-! ### Clamps -/

/-- The clamp of the rates. -/
theorem toNat_clampRate (r : UInt32) :
  (if r > 0xFFFF then 0xFFFF else r : UInt32).toUInt16.toNat = min r.toNat 65535
  := by
  have hgt : r > 0xFFFF ↔ 65535 < r.toNat := UInt32.lt_iff_toNat_lt
  split
  case isTrue h =>
    rw [min_eq_right (le_of_lt (hgt.mp h))]
    rfl
  case isFalse h =>
    have hle : r.toNat ≤ 65535 := not_lt.mp (fun hlt => h (hgt.mpr hlt))
    rw [min_eq_left hle, UInt32.toNat_toUInt16]
    omega

/-- The clamp of the number of seconds. -/
theorem toNat_clampPer (r : UInt32) :
  (if r > 0xFFFF then 0xFFFF else if r = 0 then 1 else r : UInt32).toUInt16.toNat
    = max 1 (min r.toNat 65535)
  := by
  by_cases hzero : r = 0
  · rw [hzero]
    decide
  · have hpos : 0 < r.toNat := by
      apply Nat.pos_of_ne_zero
      intro h
      exact hzero (UInt32.toNat_inj.mp h)
    rw [if_neg hzero, toNat_clampRate]
    omega

/-- The clamp of the number of connections. -/
theorem toNat_ipcnt (r : UInt32) :
  (Commands.ipcnt r).toUInt32.toNat = max 1 (min r.toNat 255)
  := by
  have hge : r ≥ 255 ↔ 255 ≤ r.toNat := UInt32.le_iff_toNat_le
  have hle : r ≤ 1 ↔ r.toNat ≤ 1 := UInt32.le_iff_toNat_le
  rw [Commands.ipcnt]
  split_ifs with hbig hsmall
  · have h := hge.mp hbig
    rw [min_eq_right h]
    rfl
  · have h := hle.mp hsmall
    have h' : max 1 (min r.toNat 255) = 1 := by omega
    rw [h']
    rfl
  · have h : r.toNat < 255 := not_le.mp fun h => hbig (hge.mpr h)
    have h' : 1 < r.toNat := not_le.mp fun h => hsmall (hle.mpr h)
    rw [UInt8.toNat_toUInt32, UInt32.toNat_toUInt8]
    omega

/-! ### The property `paintrate` -/

/-- The rate that the property gives. -/
theorem toNat_paintrate {w : World} {n : ℕ}
    (hn : stoul 10 (w.getProp (ofString "paintrate") (ofString "32")) = .ok n) :
  w.reload.1.paintrate.toNat = min (n % 2 ^ 32) 65535
  := by
  have hprop : World.getProp { w with pass := w.getProp (ofString "password") [] }
      (ofString "paintrate") (ofString "32") = w.getProp (ofString "paintrate") (ofString "32") := rfl
  have hrate := toNat_clampRate (UInt32.ofNat n)
  rw [UInt32.toNat_ofNat'] at hrate
  rw [World.reload, hprop, hn]
  dsimp only
  split
  · exact hrate
  · exact hrate

/-! ### The number of connections of an address -/

namespace Server

variable {s : Server}

/-- What is done with a connection keeps the limit. -/
theorem withInfo_maxconns {ws : Ws} {k : SocketInfo → Server}
    (hk : ∀ si, (k si).maxconns = s.maxconns) :
  (s.withInfo ws k).maxconns = s.maxconns
  := by
  rw [withInfo]
  split
  · exact hk _
  · rfl

/-- What is done with a client keeps the limit. -/
theorem withClient_maxconns {p : ClientPtr} {k : Client → Server}
    (hk : ∀ cl, (k cl).maxconns = s.maxconns) :
  (s.withClient p k).maxconns = s.maxconns
  := by
  rw [withClient]
  split
  · exact hk _
  · rfl

/-- What is done with a world keeps the limit. -/
theorem withWorld_maxconns {wp : WorldPtr} {k : World → Server}
    (hk : ∀ w, (k w).maxconns = s.maxconns) :
  (s.withWorld wp k).maxconns = s.maxconns
  := by
  rw [withWorld]
  split
  · exact hk _
  · rfl

/-- A loop whose turns keep the limit. -/
theorem foldl_maxconns {l : List Ws} {f : Server → Ws → Server}
    (hf : ∀ s ws, (f s ws).maxconns = s.maxconns) :
  (l.foldl f s).maxconns = s.maxconns
  := by
  induction l generalizing s with
  | nil => rfl
  | cons ws l ih => exact ih.trans (hf s ws)

/-- A text keeps the limit. -/
theorem tell_maxconns (s : Server) (p : ClientPtr) (msg : Bytes) :
  (s.tell p msg).maxconns = s.maxconns
  := withClient_maxconns fun _ => withInfo_maxconns fun _ => rfl

/-- A text to the admins keeps the limit. -/
theorem admintell_maxconns (s : Server) (msg : Bytes) :
  (s.admintell msg).maxconns = s.maxconns
  := by
  apply foldl_maxconns
  intro s ws
  apply withInfo_maxconns
  intro si
  split
  · apply withClient_maxconns
    intro cl
    split
    · exact tell_maxconns _ _ _
    · rfl
  · rfl

/-- A client that is not to be deleted with its connection keeps the limit. -/
theorem unlink_maxconns (s : Server) (p : ClientPtr) :
  (s.unlink p).maxconns = s.maxconns
  := by
  apply withClient_maxconns
  intro cl
  split
  · exact withWorld_maxconns fun _ => rfl
  · rfl

/-- A client that leaves keeps the limit. -/
theorem leave_maxconns (s : Server) (p : ClientPtr) :
  (s.leave p).maxconns = s.maxconns
  := by
  apply withClient_maxconns
  intro cl
  refine (withWorld_maxconns ?_).trans (unlink_maxconns s p)
  intro w
  split
  · exact withWorld_maxconns fun _ => rfl
  · rfl

/-- Looking whether lockdown ends keeps the limit. -/
theorem lockdownCheck_maxconns (s : Server) :
  s.lockdownCheck.maxconns = s.maxconns
  := by
  rw [lockdownCheck]
  split
  · rfl
  · rw [setLockdown, if_neg Bool.false_ne_true]
    exact admintell_maxconns _ _

/-- A connection that is closed keeps the limit. -/
theorem closeWs_maxconns (s : Server) (ws : Ws) :
  (s.closeWs ws).maxconns = s.maxconns
  := by
  apply withInfo_maxconns
  intro si
  split
  · apply withClient_maxconns
    intro cl
    dsimp only
    split
    · exact (lockdownCheck_maxconns _).trans (leave_maxconns s _)
    · exact leave_maxconns s _
  · rfl

/-- A connection that is kicked keeps the limit. -/
theorem kickWs_maxconns (s : Server) (ws : Ws) :
  (s.kickWs ws).maxconns = s.maxconns
  := by
  apply withInfo_maxconns
  intro si
  split
  · apply withClient_maxconns
    intro cl
    split
    · exact (closeWs_maxconns _ _).trans (unlink_maxconns s _)
    · rfl
  · exact closeWs_maxconns s ws

/-- Closing the connections above the limit leaves it as it was set. -/
theorem setMaxIpConns_maxconns (s : Server) (max : UInt8) :
  (s.setMaxIpConns max).maxconns = max.toUInt32
  := by
  have hloop : ∀ (fuel : ℕ) (s : Server), (limitLoop max fuel s).maxconns = s.maxconns := by
    intro fuel
    induction fuel with
    | zero => exact fun _ => rfl
    | succ fuel ih =>
        intro s
        rw [limitLoop]
        split
        · exact (ih _).trans (kickWs_maxconns s _)
        · rfl
  exact hloop _ _

end Server

namespace Commands

variable {s : Server} {p : ClientPtr} {cl : Client} {args : List Bytes} {a : Bytes} {n : ℕ}

/-- An argument that is a number goes on as 32 bits. -/
theorem withNum_ok {k : UInt32 → Server} (hn : stoul 10 a = .ok n) :
  withNum a s k = k (UInt32.ofNat n)
  := by
  rw [withNum, hn]

/-- The limit that `/lock ip` sets. -/
theorem toNat_lock (s : Server) (p : ClientPtr) (hlength : args.length = 3)
    (hip : arg args 1 = ofString "ip") (hn : stoul 10 (arg args 2) = .ok n) :
  (lock s p args).maxconns.toNat = max 1 (min (n % 2 ^ 32) 255)
  := by
  have hcount := toNat_ipcnt (UInt32.ofNat n)
  rw [UInt32.toNat_ofNat'] at hcount
  rw [lock, if_pos hlength]
  dsimp only
  rw [if_pos hip, withNum_ok hn, Server.tell_maxconns, Server.setMaxIpConns_maxconns, hcount]

/-! ### Clients looked up by an id -/

/-- The client of a world that the id in an argument selects. -/
def selected (s : Server) (wp : WorldPtr) (a : Bytes) : Option ClientPtr :=
  match stoul 10 a with
  | .error _ => none
  | .ok n => (s.objs wp).bind fun w => s.getCli w (UInt32.ofNat n)

/-- An id selects the client that has it. -/
theorem selected_eq {wp : WorldPtr} {w : World} (hn : stoul 10 a = .ok n)
    (hw : s.objs wp = some w) :
  selected s wp a = s.getCli w (UInt32.ofNat n)
  := by
  rw [selected, hn]
  dsimp only
  rw [hw, Option.bind_some]

/-- A client is selected by the lower half of the number. -/
theorem id_of_selected {wp : WorldPtr} {q : ClientPtr} {t : Client} (hn : stoul 10 a = .ok n)
    (hq : selected s wp a = some q) (ht : s.clients q = some t) :
  t.id.toNat = n % 2 ^ 32
  := by
  rw [selected, hn] at hq
  obtain ⟨w, -, hfind⟩ := Option.bind_eq_some_iff.mp hq
  have hid := List.find?_some hfind
  rw [ht, Option.any_some, decide_eq_true_eq] at hid
  rw [← hid, UInt32.toNat_ofNat']

/-- Some client is selected if one has the lower half of the number as its id. -/
theorem exists_selected {wp : WorldPtr} {w : World} {q : ClientPtr} {t : Client}
    (hn : stoul 10 a = .ok n) (hw : s.objs wp = some w) (hq : q ∈ w.clients)
    (ht : s.clients q = some t) (hid : t.id.toNat = n % 2 ^ 32) :
  ∃ q' t', selected s wp a = some q' ∧ s.clients q' = some t'
  := by
  have hself : (s.clients q).any (fun cl => decide (UInt32.ofNat n = cl.id)) = true := by
    rw [ht, Option.any_some, decide_eq_true_eq]
    apply UInt32.toNat_inj.mp
    rw [UInt32.toNat_ofNat', hid]
  obtain ⟨q', hq'⟩ := Option.isSome_iff_exists.mp
    (List.find?_isSome.mpr ⟨q, hq, hself⟩ : (s.getCli w (UInt32.ofNat n)).isSome = true)
  have hid' := List.find?_some hq'
  obtain ⟨t', ht', -⟩ := (Option.any_eq_true _ _).mp hid'
  refine ⟨q', t', ?_, ht'⟩
  rw [selected_eq hn hw]
  exact hq'

/-- A command that selects no client does what it does without one. -/
theorem withTarget_of_none {wp : WorldPtr} {w : World} {absent : Server}
    {found : ClientPtr → Client → Server} (hn : stoul 10 a = .ok n) (hw : s.objs wp = some w)
    (hnone : selected s wp a = none) :
  withTarget s wp (UInt32.ofNat n) absent found = absent
  := by
  rw [selected_eq hn hw] at hnone
  rw [withTarget, Server.withWorld_eq _ hw, hnone]

/-- A command does what it does to the client that it selects, and its number is the id of that
client. -/
theorem withNum_of_selected {wp : WorldPtr} {q : ClientPtr} {t : Client}
    (hq : selected s wp a = some q) (ht : s.clients q = some t) :
  (∀ k : UInt32 → Server, withNum a s k = k t.id) ∧
    ∀ (absent : Server) (found : ClientPtr → Client → Server),
      withTarget s wp t.id absent found = found q t
  := by
  rw [selected] at hq
  split at hq
  case h_1 => cases hq
  case h_2 n hn =>
    obtain ⟨w, hw, hfind⟩ := Option.bind_eq_some_iff.mp hq
    have hid := List.find?_some hfind
    rw [ht, Option.any_some, decide_eq_true_eq] at hid
    rw [← hid]
    refine ⟨fun k => withNum_ok hn, ?_⟩
    intro absent found
    rw [withTarget, Server.withWorld_eq _ hw, hfind]
    dsimp only
    rw [Server.withClient_eq _ ht]

/-- The bucket that `/setpbucket` gives to the client that it selects. -/
theorem setpbucket_target {q : ClientPtr} {t : Client} {m : ℕ} (hp : s.clients p = some cl)
    (hlength : args.length = 4) (hn : stoul 10 (arg args 2) = .ok n)
    (hm : stoul 10 (arg args 3) = .ok m) (hq : selected s cl.wrld (arg args 1) = some q)
    (ht : s.clients q = some t) :
  ∃ t', (setpbucket s p args).clients q = some t' ∧
    t'.pixupdlimit.rate.toNat = min (n % 2 ^ 32) 65535 ∧
    t'.pixupdlimit.per.toNat = max 1 (min (m % 2 ^ 32) 65535)
  := by
  obtain ⟨hnum, htarget⟩ := withNum_of_selected hq ht
  have hrate := toNat_clampRate (UInt32.ofNat n)
  have hper := toNat_clampPer (UInt32.ofNat m)
  rw [UInt32.toNat_ofNat'] at hrate hper
  have hset : ∀ rate per msg, ((s.setPbucket q rate per).tell p msg).clients q
      = some { t with pixupdlimit := t.pixupdlimit.set rate per } := by
    intro rate per msg
    rw [Server.tell_clients, Server.setPbucket, Server.withClient_eq _ ht, Server.send_clients,
      Server.change_eq _ ht]
    exact Function.update_self _ _ _
  rw [setpbucket, Server.withClient_eq _ hp, if_pos hlength, hnum, withNum_ok hn, withNum_ok hm]
  dsimp only
  rw [htarget, hset]
  refine ⟨_, rfl, hrate, ?_⟩
  rw [Bucket.set]
  dsimp only
  generalize (if UInt32.ofNat m > 0xFFFF then 0xFFFF else if UInt32.ofNat m = 0 then 1
    else UInt32.ofNat m : UInt32).toUInt16 = per at hper ⊢
  have hpos : ¬ per < 1 := by
    rw [UInt16.lt_iff_toNat_lt, hper]
    exact not_lt.mpr (le_max_left _ _)
  rw [if_neg hpos, hper]

/-- What `/kick` does with the client at `q`. -/
def kickTarget (s : Server) (p : ClientPtr) (cl : Client) (q : ClientPtr) (t : Client) : Server :=
  if t.rank < cl.rank then
    ((s.teleport q 0 0).safedelete q).tell p
      (ofString "Kicked user (" ++ toString t.id.toNat ++ ofString ")")
  else s.tell p (ofString "Error: Target's rank must be less than yours.")

/-- What `/tell` does with the client at `q`. -/
def tellTarget (s : Server) (p : ClientPtr) (cl : Client) (msg : Bytes) (q : ClientPtr)
    (t : Client) : Server :=
  (s.tell p (ofString "-> You tell " ++ toString t.id.toNat ++ ofString ": " ++ msg)).tell
    q (ofString "-> " ++ toString cl.id.toNat ++ ofString " tells you: " ++ msg)

/-- What `/mute` does with the client at `q`. -/
def muteTarget (s : Server) (p : ClientPtr) (cl : Client) (newstate : Bool) (q : ClientPtr)
    (t : Client) : Server :=
  if t.rank ≥ cl.rank then s.tell p (ofString "Error: Target's rank must be less than yours.")
  else
    (s.change q (.mute newstate)).tell p
      ((if newstate then ofString "Muted " else ofString "Unmuted ") ++ toString t.id.toNat)

/-- What `/setrank` does with the client at `q`. -/
def setrankTarget (s : Server) (p : ClientPtr) (cl : Client) (rank : UInt32) (q : ClientPtr)
    (t : Client) : Server :=
  if t.rank < cl.rank ∧ rank < cl.rank.toUInt32 then
    s.withWorld cl.wrld fun w =>
      ((s.note (.setrank cl.rank t.ws)).promote q rank.toUInt8 w.paintrate).tell p
        (ofString "Set user's (" ++ toString t.id.toNat ++ ofString ") rank to: " ++
          toString rank.toNat)
  else if t.rank ≥ cl.rank then
    s.tell p (ofString "Error: Target's rank must be less than yours.")
  else
    s.tell p (ofString "Error: Rank set must be less than your current rank. (" ++
      toString rank.toNat ++ ofString " >= " ++ toString cl.rank.toNat ++ ofString ")")

/-- What `/tp` does with the client at `q`: with two arguments it moves to it, and with four it moves
it to `x` and `y`. -/
def teleportTarget (s : Server) (p : ClientPtr) (args : List Bytes) (q : ClientPtr) (t : Client) :
    Server :=
  if args.length = 2 then s.teleport p (t.pos.x >>> 4) (t.pos.y >>> 4)
  else
    withInt (arg args 2) s fun x => withInt (arg args 3) s fun y =>
      (s.teleport q x y).tell p (ofString "Server: Teleported " ++ toString t.id.toNat ++
        ofString " from " ++ toStringInt (t.pos.x >>> 4) ++ ofString ", " ++
        toStringInt (t.pos.y >>> 4) ++ ofString " to " ++ toStringInt x ++ ofString ", " ++
        toStringInt y)

/-- A command that looks a client up by its first argument: the numbers of arguments with which it
does (the name of the command is counted), the command, and what it does with the client. -/
structure IdCommand where
  lengths : ℕ → Bool
  run : Command
  act : Server → ClientPtr → Client → List Bytes → ClientPtr → Client → Server

variable [Platform]

/-- The commands that look a client up by their first argument. -/
def idCommands (exec : Server → ClientPtr → Bytes → Bool × Server) : List IdCommand :=
  [⟨fun l => l = 2, kick, fun s p cl _ q t => kickTarget s p cl q t⟩,
    ⟨fun l => l ≥ 3, tell, fun s p cl args q t => tellTarget s p cl (joinArgs args 2) q t⟩,
    ⟨fun l => l = 3, mute,
      fun s p cl args q t => muteTarget s p cl (arg args 2 = ofString "1") q t⟩,
    ⟨fun l => l = 3, setrank, fun s p cl args q t =>
      withNum (arg args 2) s fun rank => setrankTarget s p cl rank q t⟩,
    ⟨fun l => l ≥ 3, doas exec, fun s _ _ args q _ => (exec s q (joinArgs args 2)).2⟩,
    ⟨fun l => l = 2 || l = 4, teleport, fun s p _ args q t => teleportTarget s p args q t⟩]

omit [Platform] in
/-- If no client is selected, such a command only tells that to the client it is run for. -/
theorem idCommands_of_none {exec : Server → ClientPtr → Bytes → Bool × Server}
    {c : IdCommand} {w : World} (hc : c ∈ idCommands exec) (hp : s.clients p = some cl)
    (hw : s.objs cl.wrld = some w) (hlength : c.lengths args.length = true)
    (hn : stoul 10 (arg args 1) = .ok n) (hnone : selected s cl.wrld (arg args 1) = none) :
  c.run s p args = s ∨ ∃ msg, c.run s p args = s.tell p msg
  := by
  have habsent : ∀ absent found, withTarget s cl.wrld (UInt32.ofNat n) absent found = absent :=
    fun absent found => withTarget_of_none hn hw hnone
  simp only [idCommands, List.mem_cons, List.not_mem_nil, or_false] at hc
  obtain rfl | rfl | rfl | rfl | rfl | rfl := hc
  · have hlength' : args.length = 2 := of_decide_eq_true hlength
    right
    dsimp only
    rw [kick, Server.withClient_eq _ hp, if_pos hlength', withNum_ok hn, habsent]
    exact ⟨_, rfl⟩
  · have hlength' : args.length ≥ 3 := of_decide_eq_true hlength
    right
    dsimp only
    rw [tell, Server.withClient_eq _ hp, if_pos hlength', withNum_ok hn, habsent]
    exact ⟨_, rfl⟩
  · have hlength' : args.length = 3 := of_decide_eq_true hlength
    left
    dsimp only
    rw [mute, Server.withClient_eq _ hp, if_pos hlength', withNum_ok hn, habsent]
  · have hlength' : args.length = 3 := of_decide_eq_true hlength
    dsimp only
    rw [setrank, Server.withClient_eq _ hp, if_pos hlength', withNum_ok hn, withNum]
    split
    case h_1 =>
      rw [habsent]
      exact Or.inr ⟨_, rfl⟩
    case h_2 => exact Or.inl rfl
  · have hlength' : args.length ≥ 3 := of_decide_eq_true hlength
    left
    dsimp only
    rw [doas, Server.withClient_eq _ hp, if_pos hlength', withNum_ok hn, habsent]
  · left
    dsimp only at hlength ⊢
    rw [teleport, Server.withClient_eq _ hp]
    obtain htwo | hfour := (Bool.or_eq_true _ _).mp hlength
    · have hlength' : args.length = 2 := of_decide_eq_true htwo
      rw [if_neg (by omega), if_pos hlength', withNum_ok hn, habsent]
    · have hlength' : args.length = 4 := of_decide_eq_true hfour
      rw [if_neg (by omega), if_neg (by omega), if_pos hlength', withNum_ok hn, withInt]
      split
      case h_1 =>
        rw [withInt]
        split
        case h_1 => exact habsent _ _
        case h_2 => rfl
      case h_2 => rfl

omit [Platform] in
/-- Such a command acts on the client that is selected. -/
theorem idCommands_of_selected {exec : Server → ClientPtr → Bytes → Bool × Server}
    {c : IdCommand} {q : ClientPtr} {t : Client} (hc : c ∈ idCommands exec)
    (hp : s.clients p = some cl) (hlength : c.lengths args.length = true)
    (hq : selected s cl.wrld (arg args 1) = some q) (ht : s.clients q = some t) :
  c.run s p args = c.act s p cl args q t
  := by
  obtain ⟨hnum, htarget⟩ := withNum_of_selected hq ht
  simp only [idCommands, List.mem_cons, List.not_mem_nil, or_false] at hc
  obtain rfl | rfl | rfl | rfl | rfl | rfl := hc
  · have hlength' : args.length = 2 := of_decide_eq_true hlength
    dsimp only
    rw [kick, Server.withClient_eq _ hp, if_pos hlength', hnum, htarget, kickTarget]
  · have hlength' : args.length ≥ 3 := of_decide_eq_true hlength
    dsimp only
    rw [tell, Server.withClient_eq _ hp, if_pos hlength', hnum, htarget, tellTarget]
  · have hlength' : args.length = 3 := of_decide_eq_true hlength
    dsimp only
    rw [mute, Server.withClient_eq _ hp, if_pos hlength', hnum, htarget, muteTarget]
  · have hlength' : args.length = 3 := of_decide_eq_true hlength
    dsimp only
    rw [setrank, Server.withClient_eq _ hp, if_pos hlength', hnum]
    congr 1
    funext rank
    rw [htarget, setrankTarget]
  · have hlength' : args.length ≥ 3 := of_decide_eq_true hlength
    dsimp only
    rw [doas, Server.withClient_eq _ hp, if_pos hlength', hnum, htarget]
  · dsimp only at hlength ⊢
    rw [teleport, Server.withClient_eq _ hp, teleportTarget]
    obtain htwo | hfour := (Bool.or_eq_true _ _).mp hlength
    · have hlength' : args.length = 2 := of_decide_eq_true htwo
      rw [if_neg (by omega), if_pos hlength', if_pos hlength', hnum, htarget]
    · have hlength' : args.length = 4 := of_decide_eq_true hfour
      rw [if_neg (by omega), if_neg (by omega), if_pos hlength', if_neg (by omega), hnum]
      congr 1
      funext x
      congr 1
      funext y
      rw [htarget]

/-! ### Face value -/

omit [Platform] in
/-- **Numeric arguments are taken at face value just below `2 ^ 32`**, and beyond it where the lower
half of the number reaches the greatest limit as well.  An id from `2 ^ 32` on selects a client
unless no client of the world has its lower half as the id.  A command acts on the client that is
selected, and if none is it only tells that to the client it is run for. -/
theorem faceValue_iff (a : Bytes) (n : ℕ) (hn : stoul 10 a = .ok n) :
  (∀ w : World, w.getProp (ofString "paintrate") (ofString "32") = a →
    (w.reload.1.paintrate.toNat = min n 65535 ↔ n < 2 ^ 32 ∨ 65535 ≤ n % 2 ^ 32)) ∧
  (∀ (s : Server) (p : ClientPtr) (args : List Bytes),
    args.length = 3 → arg args 1 = ofString "ip" → arg args 2 = a →
    ((lock s p args).maxconns.toNat = max 1 (min n 255) ↔ n < 2 ^ 32 ∨ 255 ≤ n % 2 ^ 32)) ∧
  (∀ (s : Server) (p q : ClientPtr) (cl t : Client) (args : List Bytes),
    s.clients p = some cl → args.length = 4 → selected s cl.wrld (arg args 1) = some q →
    s.clients q = some t →
    (∀ m, arg args 2 = a → stoul 10 (arg args 3) = .ok m →
      (((setpbucket s p args).clients q).map (fun t => t.pixupdlimit.rate.toNat)
        = some (min n 65535) ↔ n < 2 ^ 32 ∨ 65535 ≤ n % 2 ^ 32)) ∧
    (∀ m, stoul 10 (arg args 2) = .ok m → arg args 3 = a →
      (((setpbucket s p args).clients q).map (fun t => t.pixupdlimit.per.toNat)
        = some (max 1 (min n 65535)) ↔ n < 2 ^ 32 ∨ 65535 ≤ n % 2 ^ 32))) ∧
  (∀ (s : Server) (wp : WorldPtr),
    (∀ q t, selected s wp a = some q → s.clients q = some t → t.id.toNat = n) ↔
      n < 2 ^ 32 ∨ ∀ w q t, s.objs wp = some w → q ∈ w.clients → s.clients q = some t →
        t.id.toNat ≠ n % 2 ^ 32) ∧
  (∀ (exec : Server → ClientPtr → Bytes → Bool × Server), ∀ c ∈ idCommands exec,
    ∀ (s : Server) (p : ClientPtr) (cl : Client) (w : World) (args : List Bytes),
    s.clients p = some cl → s.objs cl.wrld = some w → c.lengths args.length = true →
    arg args 1 = a →
    (∀ q t, selected s cl.wrld a = some q → s.clients q = some t →
      c.run s p args = c.act s p cl args q t) ∧
    (selected s cl.wrld a = none → c.run s p args = s ∨ ∃ msg, c.run s p args = s.tell p msg))
  := by
  refine ⟨?_, ?_, ?_, ?_, ?_⟩
  · rintro w rfl
    rw [toNat_paintrate hn]
    omega
  · rintro s p args hlength hip rfl
    rw [toNat_lock s p hlength hip hn]
    omega
  · intro s p q cl t args hp hlength hq ht
    constructor
    · rintro m rfl hm
      obtain ⟨t', ht', hrate, -⟩ := setpbucket_target hp hlength hn hm hq ht
      rw [ht', Option.map_some, hrate, Option.some_inj]
      omega
    · rintro m hm rfl
      obtain ⟨t', ht', -, hper⟩ := setpbucket_target hp hlength hm hn hq ht
      rw [ht', Option.map_some, hper, Option.some_inj]
      omega
  · intro s wp
    constructor
    · intro hface
      rw [or_iff_not_imp_left]
      intro hbig w q t hw hq ht hid
      obtain ⟨q', t', hq', ht'⟩ := exists_selected hn hw hq ht hid
      have heq := hface q' t' hq' ht'
      have hlt := t'.id.toNat_lt
      omega
    · rintro (hsmall | hnone) q t hq ht
      · rw [id_of_selected hn hq ht, Nat.mod_eq_of_lt hsmall]
      · have hid := id_of_selected hn hq ht
        rw [selected, hn] at hq
        obtain ⟨w, hw, hfind⟩ := Option.bind_eq_some_iff.mp hq
        exact absurd hid (hnone w q t hw (List.mem_of_find?_eq_some hfind) ht)
  · rintro exec c hc s p cl w args hp hw hlength rfl
    constructor
    · intro q t hq ht
      exact idCommands_of_selected hc hp hlength hq ht
    · exact idCommands_of_none hc hp hw hlength hn

omit [Platform] in
/-- The property `paintrate` of the number `2 ^ 32` stops the painting. -/
theorem not_faceValue :
  ¬ ∀ (a : Bytes) (n : ℕ) (w : World), stoul 10 a = .ok n →
    w.getProp (ofString "paintrate") (ofString "32") = a →
    w.reload.1.paintrate.toNat = min n 65535
  := by
  intro h
  let _ := Platform.quiet
  let w := (World.new [] (ofString "w") (Disk.empty fun _ => false)).1.setProp
    (ofString "paintrate") (ofString "4294967296")
  have hn : stoul 10 (w.getProp (ofString "paintrate") (ofString "32")) = .ok 4294967296 := by
    decide +kernel
  have hrate := h _ _ w hn rfl
  rw [toNat_paintrate hn] at hrate
  exact absurd hrate (by decide)

omit [Platform] in
/-- The numbers of the property `paintrate`, of `/lock ip` and of `/setpbucket`, each of them 32, and
the id 1. -/
theorem faceValue_iff_small :
  let _ := Platform.quiet
  let s := (Server.new (ofString "m") (ofString "a") [] (Disk.empty fun _ => true) 0).runs
    Server.joinEvents
  (World.new [] (ofString "w") (Disk.empty fun _ => false)).1.reload.1.paintrate.toNat = 32 ∧
  (lock s 0 [ofString "lock", ofString "ip", ofString "32"]).maxconns.toNat = 32 ∧
  ((setpbucket s 0 [ofString "setpbucket", ofString "1", ofString "32", ofString "32"]).clients
    0).map (fun t => t.pixupdlimit.rate.toNat) = some 32 ∧
  ∀ q t, selected s 0 (ofString "1") = some q → s.clients q = some t → t.id.toNat = 1
  := by
  let _ := Platform.quiet
  let s := (Server.new (ofString "m") (ofString "a") [] (Disk.empty fun _ => true) 0).runs
    Server.joinEvents
  have hcl : (s.clients 0).any (fun cl => decide (cl.wrld = 0)) = true := by decide +kernel
  obtain ⟨cl, hcl, hwrld⟩ := (Option.any_eq_true _ _).mp hcl
  have hselected : selected s cl.wrld (ofString "1") = some 0 := by
    rw [of_decide_eq_true hwrld]
    decide +kernel
  have hn : stoul 10 (ofString "32") = .ok 32 := by decide +kernel
  have hone : stoul 10 (ofString "1") = .ok 1 := by decide +kernel
  obtain ⟨hpaintrate, hlock, hbucket, -, -⟩ := faceValue_iff (ofString "32") 32 hn
  obtain ⟨-, -, -, hids, -⟩ := faceValue_iff (ofString "1") 1 hone
  have hrate := (hbucket s 0 0 cl cl [ofString "setpbucket", ofString "1", ofString "32",
    ofString "32"] hcl rfl hselected hcl).1 32 rfl hn
  refine ⟨?_, ?_, ?_, ?_⟩
  · apply (hpaintrate _ (by decide +kernel)).mpr
    decide
  · apply (hlock s 0 _ rfl rfl rfl).mpr
    decide
  · apply hrate.mpr
    decide
  · apply (hids s 0).mpr
    left
    decide

end Commands

end Owop
