import OwopServer.Server.Rejoin

/-!
# Shutting down

`Server::quit` closes the timer of the periodic save, and the callback of that deletes the server;
when it is called again, it deletes the server itself.  The destructor closes all connections, so
that each world is left by its last client and unloaded.  But only a callback saves a world that is
unloaded, and the process exits before it is run.  So what is not saved before is lost.
-/

namespace Owop

open Bytes (ofString)

instance (w : World) : Decidable w.Clean :=
  decidable_of_iff
    ((∀ c ∈ w.chunks.entries, c.2.changed = false) ∧ w.db.changedPropsOrProtects = false)
    ⟨fun h => ⟨fun _ c hc => h.1 ⟨_, c⟩ (AList.mem_lookup_iff.mp hc), h.2⟩,
      fun h => ⟨fun c hc => h.chunks c.1 c.2 (AList.mem_lookup_iff.mpr hc), h.props⟩⟩

/-- The change is one of chunks, and not of a property. -/
def Edit.ofChunks : Edit → Bool
  | prop _ _ => false
  | _ => true

namespace Server

/-- What the worlds held in `s`, in memory or in their files, is held by the files in `s'`. -/
structure Durable (s s' : Server) : Prop where
  memory : ∀ wp w, s.objs wp = some w →
    Database.held (World.dirOf s.path w.name) s'.disk = w.shows s.disk
  files : ∀ name, s.Absent name →
    Database.held (World.dirOf s.path name) s'.disk = Database.held (World.dirOf s.path name) s.disk

variable {s s' : Server} {values : Bytes × Item → Option Value}

/-- If no world has anything to save, the files hold the values of all worlds. -/
theorem Holds.held (h : s.Holds values) (hsaved : s.AllSaved) (name : Bytes) (item : Item) :
  Database.held (World.dirOf s.path name) s.disk item = values (name, item)
  := by
  by_cases hnone : s.Absent name
  · exact (h.filed hnone).2 item
  · simp only [Absent, not_forall, not_not] at hnone
    obtain ⟨wp, w, hw, rfl⟩ := hnone
    obtain ⟨hdir, hfaithful, hshows⟩ := h.loaded hw
    obtain ⟨hchunks, hprops⟩ := hsaved wp w hw
    rw [← hshows, ← hdir, hfaithful.held_eq hchunks hprops]

/-- The files hold in the end what the worlds held before, as the values are the same. -/
theorem Holds.durable (h : s.Holds values) (h' : s'.Holds values) (hpath : s'.path = s.path)
    (hsaved : s'.AllSaved) :
  Durable s s'
  := by
  have hheld := h'.held hsaved
  rw [hpath] at hheld
  constructor
  case memory =>
    intro wp w hw
    funext item
    rw [hheld, (h.loaded hw).2.2]
  case files =>
    intro name hnone
    funext item
    rw [hheld, (h.filed hnone).2]

/-- No world has anything to save if the loaded ones have not and none waits for its deletion. -/
theorem Consistent.allSaved (h : s.Consistent)
    (hworlds : ∀ entry ∈ s.worlds.entries, ∀ w, s.objs entry.2 = some w → w.Clean)
    (hpending : ∀ c ∈ s.pending, ∀ wp, c ≠ .world wp) :
  s.AllSaved
  := by
  intro wp w hw
  by_cases hclients : w.clients = []
  · have hwaits : Callback.world wp ∈ s.pending :=
      h.registry.mem_pending_world.mpr ⟨w.room, registry_room.mpr ⟨w, hw, rfl⟩, hclients⟩
    exact absurd rfl (hpending _ hwaits wp)
  · have hname : s.worlds.lookup w.name = some wp :=
      h.registry.worlds_of_room (registry_room.mpr ⟨w, hw, rfl⟩) hclients
    exact hworlds ⟨w.name, wp⟩ (AList.mem_lookup_iff.mp hname) w hw

/-! ### Runs -/

variable [Platform]

/-- A run in which no world is joined that waits for its deletion. -/
theorem runs_advance (h : s.Consistent) {events : List Event}
    (hrevives : Runs.Along step (fun s e => s.revives e = false) s events) :
  ∃ more, Advance s (s.runs events) more
  := by
  have halways := hrevives.always (P := Descends s) ⟨h, [], Advance.refl s⟩
    fun _ _ hdescends he => hdescends.step he
  exact halways.last.2

/-- No change is accepted in a run after which no more changes are noted. -/
theorem edits_eq_of_length (h : s.Consistent) {events : List Event}
    (hrevives : Runs.Along step (fun s e => s.revives e = false) s events)
    (hlength : (s.runs events).edits.length = s.edits.length) :
  (s.runs events).edits = s.edits
  := by
  obtain ⟨more, hadvance⟩ := runs_advance h hrevives
  have hedits := hadvance.edits
  rw [hedits, List.length_append] at hlength
  have hnone : more = [] := List.length_eq_zero_iff.mp (by omega)
  rw [hedits, hnone, List.append_nil]

/-- The process exits in the step of an event only if no world has anything to save. -/
def Unhurried (s : Server) (e : Event) : Prop :=
  s.exited = false → (s.step e).exited = true → s.AllSaved

/-- When the process has exited, no world has anything to save. -/
theorem allSaved_runs {events : List Event} (h : s.Consistent) (hexited : s.exited = false)
    (hexits : (s.runs events).exited = true)
    (hrevives : Runs.Along step (fun s e => s.revives e = false) s events)
    (hsaved : Runs.Along step Unhurried s events) (hquiet : (s.runs events).edits = s.edits)
    (hok : (s.runs events).disk.intact) :
  (s.runs events).AllSaved
  := by
  induction events generalizing s with
  | nil =>
      rw [runs, Runs.run_nil, hexited] at hexits
      cases hexits
  | cons e events ih =>
      obtain ⟨more, hadvance⟩ := runs_advance h hrevives
      obtain ⟨hfirst, hrest⟩ := Runs.along_cons.mp hrevives
      obtain ⟨hnow, hlater⟩ := Runs.along_cons.mp hsaved
      cases hstep : (s.step e).exited with
      | true =>
          have hnone : more = [] := by
            have hedits := hadvance.edits
            rw [hquiet] at hedits
            exact List.self_eq_append_right.mp hedits
          exact hadvance.saved hok hnone (hnow hexited hstep)
      | false =>
          obtain ⟨more₁, hadvance₁⟩ := step_advance h hfirst
          obtain ⟨more₂, hadvance₂⟩ := runs_advance (h.event e) hrest
          have hnone : more₁ ++ more₂ = [] := by
            have hedits : (s.runs (e :: events)).edits = s.edits ++ (more₁ ++ more₂) :=
              (hadvance₁.trans hadvance₂).edits
            rw [hquiet] at hedits
            exact List.self_eq_append_right.mp hedits
          obtain ⟨rfl, rfl⟩ := List.append_eq_nil_iff.mp hnone
          apply ih (h.event e) hstep hexits hrest hlater _ hok
          rw [hadvance₂.edits, List.append_nil]

/-- **What the worlds hold when `Server::quit` is called is in their files when the process has
exited**, in the runs in which no change is accepted after the call and the process exits when no
world has anything to save; and no world was joined that waited for its deletion. -/
theorem durable_runs (modpw adminpw path : Bytes) (d : Disk) (clock : ℚ) (before after : List Event)
    (hfiles : ∀ name, Database.Ready (World.dirOf (path ++ ofString "/") name) d)
    (hrevives : Runs.Along step (fun s e => s.revives e = false)
      (Server.new modpw adminpw path d clock) (before ++ .quit :: after))
    (hexited : ((Server.new modpw adminpw path d clock).runs before).exited = false)
    (hexits : ((Server.new modpw adminpw path d clock).runs
      (before ++ .quit :: after)).exited = true)
    (hsaved : Runs.Along step Unhurried ((Server.new modpw adminpw path d clock).runs before)
      (.quit :: after))
    (hquiet : ((Server.new modpw adminpw path d clock).runs (before ++ .quit :: after)).edits
      = ((Server.new modpw adminpw path d clock).runs before).edits)
    (hspared : ((Server.new modpw adminpw path d clock).runs (before ++ .quit :: after)).Spared) :
  Durable ((Server.new modpw adminpw path d clock).runs before)
    ((Server.new modpw adminpw path d clock).runs (before ++ .quit :: after))
  := by
  have hnew := holds_new modpw adminpw path d clock hfiles
  have hconsistent := consistent_new modpw adminpw path d clock
  have hnothing : (Server.new modpw adminpw path d clock).edits = [] := rfl
  generalize Server.new modpw adminpw path d clock = s₀ at *
  have hruns : s₀.runs (before ++ .quit :: after) = (s₀.runs before).runs (.quit :: after) :=
    List.foldl_append
  rw [hruns] at hexits hquiet hspared ⊢
  obtain ⟨hbefore, hafter⟩ := Runs.along_append.mp hrevives
  obtain ⟨more, hadvance⟩ := runs_advance hconsistent hbefore
  have hs := hconsistent.runs before
  obtain ⟨more', hadvance'⟩ := runs_advance hs hafter
  have hnone : more' = [] := by
    have hedits := hadvance'.edits
    rw [hquiet] at hedits
    exact List.self_eq_append_right.mp hedits
  rw [hnone] at hadvance'
  have hline : ∀ e ∈ more, e.2.OneLine := by
    intro e he
    apply hspared.oneLine
    rw [hquiet, hadvance.edits, hnothing]
    exact he
  obtain ⟨values, -, hvalues⟩ := hadvance.holds hnew (hadvance'.intact hspared.intact) hline
  obtain ⟨values', hfollows, hvalues'⟩ := hadvance'.holds hvalues hspared.intact
    fun e he => absurd he List.not_mem_nil
  rw [hfollows.eq_of_nil] at hvalues'
  apply hvalues.durable hvalues' hadvance'.path
  exact allSaved_runs hs hexited hexits hafter hsaved hquiet hspared.intact

/-- A client of the world "w" places a pixel. -/
def draw : List Event :=
  [.connect (ofString "a"), .message 0 .binary (ofString "w..") 0 0, .advance 4,
    .message 0 .binary (PixUpd.bytes ⟨0, 0, 255, 0, 0⟩) 1 1]

omit [Platform] in
/-- A pixel that was placed since the last save is lost. -/
theorem not_durable :
  ¬ ∀ [Platform] (modpw adminpw path : Bytes) (d : Disk) (clock : ℚ) (before after : List Event),
    ((Server.new modpw adminpw path d clock).runs before).exited = false →
    ((Server.new modpw adminpw path d clock).runs (before ++ .quit :: after)).exited = true →
    ((Server.new modpw adminpw path d clock).runs (before ++ .quit :: after)).disk.intact →
      Durable ((Server.new modpw adminpw path d clock).runs before)
        ((Server.new modpw adminpw path d clock).runs (before ++ .quit :: after))
  := by
  intro h
  have hdurable := @h Platform.quiet (ofString "m") (ofString "a") [] (Disk.empty fun _ => true) 0
    draw [.callback 0] (by decide +kernel) (by decide +kernel) (by decide +kernel)
  generalize hs : @runs Platform.quiet (@Server.new Platform.quiet (ofString "m") (ofString "a") []
    (Disk.empty fun _ => true) 0) draw = s at hdurable
  generalize hs' : @runs Platform.quiet (@Server.new Platform.quiet (ofString "m") (ofString "a") []
    (Disk.empty fun _ => true) 0) (draw ++ [.quit, .callback 0]) = s' at hdurable
  have hpixel : (s.objs 0).any (fun w => (w.shows s.disk (.pixel 0 0)).isSome &&
      (Database.held (World.dirOf s.path w.name) s'.disk (.pixel 0 0)).isNone) = true := by
    rw [← hs, ← hs']
    decide +kernel
  obtain ⟨w, hw, hlost⟩ := (Option.any_eq_true _ _).mp hpixel
  obtain ⟨hshown, hheld⟩ := Bool.and_eq_true_iff.mp hlost
  rw [hdurable.memory 0 w hw, Option.isNone_iff_eq_none] at hheld
  rw [hheld] at hshown
  cases hshown

omit [Platform] in
/-- A pixel that was saved is in the files. -/
theorem durable_runs_saved :
  let _ := Platform.quiet
  Durable ((Server.new (ofString "m") (ofString "a") [] (Disk.empty fun _ => true) 0).runs
      (draw ++ [.save]))
    ((Server.new (ofString "m") (ofString "a") [] (Disk.empty fun _ => true) 0).runs
      (draw ++ [.save] ++ [.quit, .callback 0]))
  := by
  have hrevives : @Runs.Along _ _ (@step Platform.quiet) (fun s e => s.revives e = false)
      (@Server.new Platform.quiet (ofString "m") (ofString "a") [] (Disk.empty fun _ => true) 0)
      (draw ++ [Event.save] ++ [.quit, .callback 0]) := by
    simp only [draw, List.cons_append, List.nil_append, Runs.along_cons]
    refine ⟨?_, ?_, ?_, ?_, ?_, ?_, ?_, Runs.along_nil⟩
    all_goals decide +kernel
  have hs := @Consistent.runs Platform.quiet _ (@consistent_new Platform.quiet (ofString "m")
    (ofString "a") [] (Disk.empty fun _ => true) 0) (draw ++ [Event.save])
  have hlater := (@Runs.along_append _ _ (@step Platform.quiet) _ _ _ _).mp hrevives
  apply @durable_runs Platform.quiet (ofString "m") (ofString "a") [] (Disk.empty fun _ => true) 0
    (draw ++ [Event.save]) [.callback 0] (fun name => ready_empty _ _) hrevives
  case hexited => decide +kernel
  case hexits => decide +kernel
  case hsaved =>
    rw [Runs.along_cons, Runs.along_cons]
    refine ⟨?_, ?_, Runs.along_nil⟩
    · intro _ hexits
      exact absurd hexits (by decide +kernel)
    · intro _ _
      have hquit := @Consistent.event Platform.quiet _ hs .quit
      apply hquit.allSaved
      · generalize hdone : @step Platform.quiet _ _ = s
        have hclean : ∀ entry ∈ s.worlds.entries,
            (s.objs entry.2).all (fun w => decide w.Clean) = true := by
          rw [← hdone]
          decide +kernel
        intro entry hentry w hw
        have hall := hclean entry hentry
        rw [hw, Option.all_some] at hall
        exact of_decide_eq_true hall
      · have hpending : (@step Platform.quiet (@runs Platform.quiet (@Server.new Platform.quiet
            (ofString "m") (ofString "a") [] (Disk.empty fun _ => true) 0) (draw ++ [Event.save]))
            .quit).pending = [.server] := by
          decide +kernel
        rw [hpending]
        simp
  case hquiet =>
    apply @edits_eq_of_length _ Platform.quiet hs _ hlater.2
    decide +kernel
  case hspared =>
    have hpixels : ∀ e ∈ (@runs Platform.quiet (@Server.new Platform.quiet (ofString "m")
        (ofString "a") [] (Disk.empty fun _ => true) 0)
        (draw ++ [Event.save] ++ [.quit, .callback 0])).edits, e.2.ofChunks = true := by
      decide +kernel
    constructor
    case intact => decide +kernel
    case oneLine =>
      rintro ⟨name, e⟩ he
      have hpixel := hpixels _ he
      cases e with
      | prop => cases hpixel
      | px | chunk | protect => trivial

end Server

end Owop
