import OwopServer.Server.Steps

/-!
# Lockdown

When lockdown is lifted by itself.  Administrators from whitelisted addresses should keep it, but
the check looks at the rank of the player that leaves, and at the counters of the whitelisted
addresses.
-/

namespace Owop

open Bytes (ofString)

/-- A connection gone under lockdown that leaves no administrator from a whitelisted address. -/
def Action.unguards : Action → Bool
  | .gone lockdown _ guarded _ => lockdown && !guarded
  | _ => false

/-- The connection of an administrator gone under lockdown, with no whitelisted address counted
any more. -/
def Action.lifts : Action → Bool
  | .gone lockdown admin _ counted => lockdown && admin && !counted
  | _ => false

namespace Server

variable {s s' s'' : Server} {D : Scope} {more more' : List Action}

/-! ### What the log tells about lockdown -/

/-- From `s` to `s'` something was logged.  Unless lockdown is set it stays on exactly until a
connection is gone that lifts it, and only if it was on something leaves it without guard.
Nothing of that happens where no connection is closed. -/
structure Tracked (D : Scope) (s s' : Server) (more : List Action) : Prop where
  log : s'.log = s.log ++ more
  lockdown : ¬ D.locks →
    (s'.lockdown = true ↔ s.lockdown = true ∧ ∀ a ∈ more, ¬ a.lifts = true)
  unguards : ¬ D.locks → ∀ a ∈ more, a.unguards = true → s.lockdown = true
  still : (∀ ws, ¬ D.drops ws) → ∀ a ∈ more, ¬ a.lifts = true ∧ ¬ a.unguards = true

/-- Something was logged that has nothing to do with lockdown. -/
theorem Tracked.plain (hlog : s'.log = s.log ++ more) (hlock : s'.lockdown = s.lockdown)
    (hplain : ∀ a ∈ more, ¬ a.lifts = true ∧ ¬ a.unguards = true) :
  Tracked D s s' more
  := by
  constructor
  case log => exact hlog
  case lockdown =>
    intro _
    rw [hlock]
    constructor
    · exact fun hon => ⟨hon, fun a ha => (hplain a ha).1⟩
    · exact And.left
  case unguards => exact fun _ a ha hun => absurd hun (hplain a ha).2
  case still => exact fun _ => hplain

/-- Nothing was logged. -/
theorem Tracked.same (hlog : s'.log = s.log) (hlock : s'.lockdown = s.lockdown) :
  Tracked D s s' []
  := .plain (by rw [hlog, List.append_nil]) hlock (by simp)

/-- One thing after another. -/
theorem Tracked.trans (h : Tracked D s s' more) (h' : Tracked D s' s'' more') :
  Tracked D s s'' (more ++ more')
  := by
  constructor
  case log => rw [h'.log, h.log, List.append_assoc]
  case lockdown =>
    intro hlocks
    rw [h'.lockdown hlocks, h.lockdown hlocks, List.forall_mem_append, and_assoc]
  case unguards =>
    intro hlocks a ha hun
    obtain ha | ha := List.mem_append.mp ha
    · exact h.unguards hlocks a ha hun
    · exact ((h.lockdown hlocks).mp (h'.unguards hlocks a ha hun)).1
  case still =>
    intro hdrops
    rw [List.forall_mem_append]
    exact ⟨h.still hdrops, h'.still hdrops⟩

/-- The record of a connection that is gone. -/
theorem tracked_lift {ws : Ws} (admin guarded counted : Bool) (hd : D.drops ws) :
  Tracked D s (s.lift admin guarded counted) [.gone s.lockdown admin guarded counted]
  := by
  constructor
  case log => rfl
  case lockdown =>
    intro _
    rw [List.forall_mem_singleton]
    show (s.lockdown && !(admin && !counted)) = true ↔
      s.lockdown = true ∧ ¬ (s.lockdown && admin && !counted) = true
    cases s.lockdown <;> cases admin <;> cases counted <;> decide
  case unguards =>
    intro _ a ha hun
    rw [List.mem_singleton.mp ha] at hun
    exact (Bool.and_eq_true_iff.mp hun).1
  case still => exact fun hdrops => absurd hd (hdrops ws)

variable [Platform]

/-- A small step. -/
theorem Allowed.tracked {l : Label} (hl : Allowed D s l) (h : s.Consistent) :
  ∃ more, Tracked D s (l.step s) more
  := by
  cases hl with
  | send => exact ⟨[_], .plain rfl rfl (by simp [Action.lifts, Action.unguards])⟩
  | gone hd => exact ⟨_, tracked_lift _ _ _ hd⟩
  | exec => exact ⟨[_], .plain rfl rfl (by simp [Action.lifts, Action.unguards])⟩
  | setrank => exact ⟨[_], .plain rfl rfl (by simp [Action.lifts, Action.unguards])⟩
  | change hp =>
      rw [Label.step, change_eq _ hp.1]
      exact ⟨[], .same rfl rfl⟩
  | place hp =>
      obtain ⟨w, hw, -⟩ := h.world_of_live hp
      rw [Label.step, place_eq _ hp.1 hw]
      exact ⟨[], .same rfl rfl⟩
  | act hwp =>
      rw [Label.step, perform_eq _ hwp]
      exact ⟨_, .plain rfl rfl (by simp [Action.lifts, Action.unguards])⟩
  | drop hws =>
      rw [Label.step, drop_rest h hws]
      exact ⟨[], .same rfl rfl⟩
  | config => exact ⟨[], .same rfl rfl⟩
  | lockdown hlocks =>
      refine ⟨[], ?_⟩
      constructor
      case log => exact (List.append_nil _).symm
      case lockdown => exact fun hnot => absurd hlocks hnot
      case unguards => simp
      case still => simp
  | lists => exact ⟨[], .same rfl rfl⟩
  | eraseConns => exact ⟨[], .same rfl rfl⟩
  | save hwp =>
      rw [Label.step, saveWorld_eq hwp]
      exact ⟨[], .same rfl rfl⟩
  | files => exact ⟨[], .same rfl rfl⟩

/-- A move of the server. -/
theorem Move.tracked {misuses connects loads : Prop} (hm : Move D misuses connects loads s s')
    (h : s.Consistent) :
  ∃ more, Tracked D s s' more
  := by
  cases hm with
  | small hl => exact hl.tracked h
  | misuse => exact ⟨[], .same rfl rfl⟩
  | openWs => exact ⟨[], .same rfl rfl⟩
  | countUp => exact ⟨[], .same rfl rfl⟩
  | captcha => exact ⟨[], .same rfl rfl⟩
  | join => exact ⟨[], .same rfl rfl⟩
  | found => exact ⟨[], .same rfl rfl⟩
  | flush => exact ⟨[], .same rfl rfl⟩
  | freeClient => exact ⟨[], .same rfl rfl⟩
  | freeWorld => exact ⟨[], .same rfl rfl⟩
  | dropServer => exact ⟨[], .same rfl rfl⟩
  | close => exact ⟨[], .same rfl rfl⟩
  | exit => exact ⟨[], .same rfl rfl⟩
  | advance => exact ⟨[], .same rfl rfl⟩
  | rehash => exact ⟨[], .same rfl rfl⟩

/-- Several moves. -/
theorem Moves.tracked {misuses connects loads : Prop} (hm : Moves D misuses connects loads s s')
    (h : s.Consistent) :
  ∃ more, Tracked D s s' more
  := by
  refine (hm.keep (P := fun t => ∃ more, Tracked D s t more) h ⟨[], .same rfl rfl⟩ ?_).2
  rintro t t' ht ⟨more, htracked⟩ hmove
  obtain ⟨more', htracked'⟩ := hmove.tracked ht
  exact ⟨more ++ more', htracked.trans htracked'⟩

/-! ### Events -/

/-- What an event adds to the log. -/
def news (s : Server) (e : Event) : List Action := (s.step e).log.drop s.log.length

/-- If a connection is gone under lockdown in the event and leaves no administrator from a
whitelisted address, then lockdown is off after the event. -/
def LiftsItself (s : Server) (e : Event) : Prop :=
  (∃ a ∈ s.news e, a.unguards = true) → (s.step e).lockdown = false

/-- If a connection is gone under lockdown in the event and leaves no administrator from a
whitelisted address, then in the event a connection is gone under lockdown that was that of an
administrator, when no whitelisted address was counted any more. -/
def LiftsWhen (s : Server) (e : Event) : Prop :=
  (∃ a ∈ s.news e, a.unguards = true) → ∃ a ∈ s.news e, a.lifts = true

instance (s : Server) (e : Event) : Decidable (s.LiftsItself e) := by
  unfold LiftsItself
  infer_instance

/-- Lockdown ends as it should, just if an administrator was among those who went, with no
whitelisted address counted any more. -/
theorem liftsItself_iff (e : Event) (h : s.Consistent) :
  s.LiftsItself e ↔ s.LiftsWhen e
  := by
  obtain ⟨b, hmoves⟩ := step_moves e h
  obtain ⟨more, htracked⟩ := hmoves.tracked h
  have hnews : s.news e = more := by
    rw [news, htracked.log, List.drop_left]
  rw [LiftsItself, LiftsWhen, hnews]
  cases b with
  | true =>
      -- no connection is closed
      have hstill : ∀ a ∈ more, ¬ a.unguards = true :=
        fun a ha => (htracked.still (fun _ => id) a ha).2
      constructor
      · rintro - ⟨a, ha, hun⟩
        exact absurd hun (hstill a ha)
      · rintro - ⟨a, ha, hun⟩
        exact absurd hun (hstill a ha)
  | false =>
      have hlock := htracked.lockdown id
      constructor
      · rintro hoff ⟨a, ha, hun⟩
        have hon : s.lockdown = true := htracked.unguards id a ha hun
        by_contra hnone
        have hstays : (s.step e).lockdown = true :=
          hlock.mpr ⟨hon, fun a' ha' hlifts => hnone ⟨a', ha', hlifts⟩⟩
        rw [hoff ⟨a, ha, hun⟩] at hstays
        cases hstays
      · intro hlifts hun
        obtain ⟨a, ha, hlift⟩ := hlifts hun
        rw [← Bool.not_eq_true]
        exact fun hon => (hlock.mp hon).2 a ha hlift

/-! ### Runs -/

/-- Lockdown lifts itself in a run exactly when, in each event that leaves it without guard, an
administrator leaves under it and no whitelisted address is counted any more. -/
theorem liftsItself_runs_iff (modpw adminpw path : Bytes) (d : Disk) (clock : ℚ)
    (events : List Event) :
  Runs.Along step LiftsItself (Server.new modpw adminpw path d clock) events ↔
    Runs.Along step LiftsWhen (Server.new modpw adminpw path d clock) events
  := Runs.along_congr (I := Consistent) (consistent_new modpw adminpw path d clock)
    (fun _ e h => h.event e) (fun _ e h => liftsItself_iff e h) events

/-- An administrator that turns lockdown on, becomes a moderator and leaves. -/
def demotedEvents : List Event :=
  [.connect (ofString "a"), .message 0 .binary (ofString "w..") 0 0,
    .message 0 .text (ofString "/adminlogin a\n") 1 1,
    .message 0 .text (ofString "/lockdown true\n") 1 1,
    .message 0 .text (ofString "/modlogin m\n") 1 1, .disconnect 0]

omit [Platform] in
/-- After that nobody is left, and lockdown is on. -/
theorem liftsItself_demotedEvents :
  ¬ ∀ [Platform] (modpw adminpw path : Bytes) (d : Disk) (clock : ℚ) (events : List Event),
    Runs.Along step LiftsItself (Server.new modpw adminpw path d clock) events
  := by
  intro h
  let _ := Platform.quiet
  have hrun := h (ofString "m") (ofString "a") [] (Disk.empty fun _ => true) 0 demotedEvents
    (demotedEvents.take 5) (.disconnect 0) [] rfl
  exact absurd hrun (by decide +kernel)

end Server

end Owop
