import OwopServer.Server.Steps

/-!
# The registry in every run, and what is used after its end

Connections, clients and worlds know of each other in every run of the server.  Nothing is used
after its end, unless a connection that came too fast was closed for it.
-/

namespace Owop

open Bytes (ofString)

namespace Server

variable {s : Server}

/-! ### Who is registered -/

/-- The connection is open and `p` is its player. -/
def PlayerOf (s : Server) (ws : Ws) (p : ClientPtr) : Prop :=
  ws ∈ s.connsws ∧ ∃ si, s.infos ws = some si ∧ si.player = some p

/-- The tables of the server agree: the clients of the loaded worlds are the players of one
connection each, players are clients of their own loaded world, loaded worlds have their name
and are not empty, and only clients of a world are among those whose position waits to be
sent. -/
structure Registered (s : Server) : Prop where
  player_of_client : ∀ name wp, s.worlds.lookup name = some wp →
    ∃ w, s.objs wp = some w ∧ ∀ p ∈ w.clients, ∃! ws, s.PlayerOf ws p
  client_of_player : ∀ ws p, s.PlayerOf ws p → ∃ cl w, s.clients p = some cl ∧ cl.ws = ws ∧
    s.objs cl.wrld = some w ∧ p ∈ w.clients ∧ s.worlds.lookup w.name = some cl.wrld
  name_of_world : ∀ name wp, s.worlds.lookup name = some wp →
    ∃ w, s.objs wp = some w ∧ w.name = name ∧ w.clients ≠ []
  present_of_update : ∀ wp w, s.objs wp = some w → ∀ p ∈ w.plupdates, p ∈ w.clients ∧
    ∃ cl, s.clients p = some cl ∧ cl.handledelete = true

/-- The tables of a consistent server agree. -/
theorem Consistent.registered (h : s.Consistent) :
  s.Registered
  := by
  constructor
  case player_of_client =>
    intro name wp hname
    obtain ⟨w, hw, -⟩ := h.world_of_lookup hname
    refine ⟨w, hw, ?_⟩
    intro p hp
    obtain ⟨cl, hcl, -⟩ := h.live_of_mem hw hp
    obtain ⟨si, hsi, hplayer⟩ := h.info_of_live hcl
    use cl.ws
    constructor
    · exact ⟨h.mem_connsws.mpr ⟨si, hsi⟩, si, hsi, hplayer⟩
    · rintro ws ⟨-, si', hsi', hplayer'⟩
      obtain ⟨cl', hcl', rfl⟩ := h.live_of_player hsi' hplayer'
      obtain rfl : cl = cl' := Option.some.inj (hcl.1.symm.trans hcl'.1)
      rfl
  case client_of_player =>
    rintro ws p ⟨-, si, hsi, hplayer⟩
    obtain ⟨cl, hcl, hws⟩ := h.live_of_player hsi hplayer
    obtain ⟨w, hw, hmem⟩ := h.world_of_live hcl
    have hroom : s.registry.room cl.wrld = some w.room := registry_room.mpr ⟨w, hw, rfl⟩
    exact ⟨cl, w, hcl.1, hws, hw, hmem,
      h.registry.worlds_of_room hroom (List.ne_nil_of_mem hmem)⟩
  case name_of_world =>
    intro name wp hname
    exact h.world_of_lookup hname
  case present_of_update =>
    intro wp w hw p hp
    have hroom : s.registry.room wp = some w.room := registry_room.mpr ⟨w, hw, rfl⟩
    have hmem : p ∈ w.clients := h.registry.plupdates_subset hroom hp
    obtain ⟨cl, hcl, -⟩ := h.live_of_mem hw hmem
    exact ⟨hmem, cl, hcl⟩

variable [Platform]

/-- The tables of the server agree after every event of every run. -/
theorem registered_runs (modpw adminpw path : Bytes) (d : Disk) (clock : ℚ)
    (events : List Event) :
  ((Server.new modpw adminpw path d clock).runs events).Registered
  := ((consistent_new modpw adminpw path d clock).runs events).registered

/-! ### What is used after its end -/

theorem Move.misused {D : Scope} {misuses connects loads : Prop} {s' : Server}
    (hm : Move D misuses connects loads s s') (h : s.Consistent) :
  s'.misused = s.misused ∨ misuses ∧ s'.misused = true
  := by
  cases hm with
  | small hl => exact Or.inl (hl.kept h).misused
  | misuse hmis => exact Or.inr ⟨hmis, rfl⟩
  | openWs => exact Or.inl rfl
  | countUp => exact Or.inl rfl
  | captcha => exact Or.inl rfl
  | join => exact Or.inl rfl
  | found => exact Or.inl rfl
  | flush => exact Or.inl rfl
  | freeClient => exact Or.inl rfl
  | freeWorld => exact Or.inl rfl
  | dropServer => exact Or.inl rfl
  | close => exact Or.inl rfl
  | exit => exact Or.inl rfl
  | advance => exact Or.inl rfl
  | rehash => exact Or.inl rfl

/-- What was misused stays so, and nothing else is unless moves are said to. -/
theorem Moves.misused {D : Scope} {misuses connects loads : Prop} {s' : Server}
    (hm : Moves D misuses connects loads s s') (h : s.Consistent) :
  (s.misused = true → s'.misused = true) ∧ (s'.misused = true → s.misused = true ∨ misuses)
  := by
  refine (hm.keep (P := fun t => (s.misused = true → t.misused = true) ∧
    (t.misused = true → s.misused = true ∨ misuses)) h ⟨id, Or.inl⟩ ?_).2
  intro t t' ht hP hmove
  obtain heq | ⟨hmis, heq⟩ := hmove.misused ht
  · rw [heq]
    exact hP
  · rw [heq]
    exact ⟨fun _ => rfl, fun _ => Or.inr hmis⟩

/-- A connection that comes too fast and is closed for it is used after that. -/
theorem fastConnect_misused {ws : Ws} {si : SocketInfo} (ip : Bytes) (h : s.Consistent)
    (hws : s.infos ws = some si) (haction : s.fastconnectaction = 1 ∨ s.fastconnectaction = 2) :
  ((s.fastConnect ws ip).requestCaptcha ws).misused = true
  := by
  have hmisuse : ∀ t : Server, t.infos ws = none → (t.requestCaptcha ws).misused = true := by
    intro t ht
    rw [requestCaptcha, withInfo, ht]
    rfl
  have hthree : s.fastconnectaction ≠ 3 := by
    obtain haction | haction := haction
    · rw [haction]
      decide
    · rw [haction]
      decide
  rw [fastConnect, if_neg hthree]
  obtain haction | haction := haction
  · have htwo : s.fastconnectaction ≠ 2 := by
      rw [haction]
      decide
    rw [if_neg htwo, if_pos haction]
    apply hmisuse
    rw [closeWs_infos h hws]
    exact Function.update_self _ _ _
  · rw [if_pos haction]
    obtain ⟨hban, hn⟩ := ban_spec (D := Scope.all) ip h
    have hinfo : (s.ban ip).infos ws = some si := by
      rw [hn.same.1]
      exact hws
    apply hmisuse
    rw [closeWs_infos (hban.consistent h) hinfo]
    exact Function.update_self _ _ _

/-- The step of an event uses something after its end exactly when it is said to. -/
theorem step_misused (e : Event) (h : s.Consistent) :
  (s.step e).misused = true ↔ s.misused = true ∨ s.misuses e
  := by
  obtain ⟨b, hmoves⟩ := step_moves e h
  obtain ⟨hstays, honly⟩ := hmoves.misused h
  constructor
  · exact honly
  · rintro (hmis | ⟨hexited, address, rfl, hrefuses, hcrowded, hfast, haction⟩)
    · exact hstays hmis
    · generalize hip : stripIp address = ip at hrefuses hcrowded
      have hmoves' : Moves Scope.all True True True s (s.arrival ip) := arrival_moves ip
      have harrival := hmoves'.consistent h
      have hstep : s.step (.connect address) = s.onConnection address := by
        rw [step.eq_def, hexited, if_neg Bool.false_ne_true]
      rw [hstep, onConnection_admitted hip hrefuses hcrowded, if_neg (Bool.eq_false_iff.mp hfast)]
      exact fastConnect_misused ip harrival (infos_openWs s ip (s.captchaFor ip)) haction

/-- Something was used after its end in a run exactly when it was before, or in a step that is
said to. -/
theorem runs_misused (h : s.Consistent) (events : List Event) :
  (s.runs events).misused = true ↔
    s.misused = true ∨ ¬ Runs.Along step (fun s e => ¬ s.misuses e) s events
  := by
  induction events generalizing s with
  | nil =>
      have halong : Runs.Along step (fun s e => ¬ s.misuses e) s [] := Runs.along_nil
      simp [halong, runs]
  | cons e events ih =>
      have hrest := ih (h.event e)
      rw [step_misused e h] at hrest
      rw [Runs.along_cons]
      refine hrest.trans ?_
      tauto

/-- Nothing is used after its end in a run exactly when no connection comes so fast that it is
closed for it. -/
theorem not_misused_iff (modpw adminpw path : Bytes) (d : Disk) (clock : ℚ)
    (events : List Event) :
  ((Server.new modpw adminpw path d clock).runs events).misused = false ↔
    Runs.Along step (fun s e => ¬ s.misuses e) (Server.new modpw adminpw path d clock) events
  := by
  have hrun := runs_misused (consistent_new modpw adminpw path d clock) events
  have hfirst : (Server.new modpw adminpw path d clock).misused = false := rfl
  rw [hfirst] at hrun
  rw [← Bool.not_eq_true, hrun]
  simp

/-- A server whose administrator has fast connections closed, and ten connections from one
other address. -/
def fastEvents : List Event :=
  [.connect (ofString "a"), .message 0 .binary (ofString "w..") 0 0,
    .message 0 .text (ofString "/adminlogin a\n") 1 1,
    .message 0 .text (ofString "/lock fastconnects kick\n") 1 1] ++
  List.replicate 10 (.connect (ofString "b"))

omit [Platform] in
/-- The last of these connections is used after it was closed. -/
theorem misused_fastEvents :
  ¬ ∀ [Platform] (modpw adminpw path : Bytes) (d : Disk) (clock : ℚ) (events : List Event),
    ((Server.new modpw adminpw path d clock).runs events).misused = false
  := by
  intro h
  let _ := Platform.quiet
  have hrun := h (ofString "m") (ofString "a") [] (Disk.empty fun _ => true) 0 fastEvents
  exact absurd hrun (by decide +kernel)

end Server

end Owop
