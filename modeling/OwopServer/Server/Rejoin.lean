import OwopServer.Server.Keeping

/-!
# Joining a world again

The last client that leaves a world takes it off the list of worlds, but its object stays in memory,
with what it has not saved, until a callback deletes it.  Who joins the world before that gets a
second object, loaded from files that lack the last changes.  In the runs where this does not
happen no accepted change is lost.
-/

namespace Owop

open Bytes (ofString)

/-- A pixel that is given a colour has coordinates in range. -/
theorem Edit.Placed.inRange {e : Edit} {x y : Int32} {v : Value} (h : e.Placed)
    (hv : e.gives (.pixel x y) = some v) :
  World.inRange (chunkOf x) (chunkOf y)
  := by
  cases e with
  | px x' y' clr =>
      rw [Edit.gives] at hv
      split at hv
      case isTrue hpos =>
        obtain ⟨rfl, rfl⟩ := hpos
        exact h
      case isFalse => cases hv
  | chunk cx cy data =>
      rw [Edit.gives] at hv
      split at hv
      case isTrue hpos =>
        obtain ⟨rfl, rfl⟩ := Prod.mk.inj hpos
        exact h
      case isFalse => cases hv
  | prop => cases hv
  | protect => cases hv

namespace World

variable [Platform]

/-- Reading from a world forgets no failure. -/
theorem look_intact {w : World} {d : Disk} {item : Item} (hok : (w.look d item).2.intact) :
  d.intact
  := by
  cases item with
  | prop => exact hok
  | pixel x y => exact (getChunk_frame w d (chunkOf x) (chunkOf y)).db.within.intact hok
  | chunk x y => exact (getChunk_frame w d x y).db.within.intact hok

end World

namespace Server

variable [Platform] {s : Server}

omit [Platform] in
/-- The value that the accepted changes gave last to an item of a world. -/
def latest (s : Server) (name : Bytes) (item : Item) : Option Value :=
  Writes.latest (Writes.tagged Edit.gives) s.edits (name, item)

/-- What is read from a world, with its files, is what was accepted last. -/
def Shows (s : Server) (name : Bytes) (v : World × Disk) : Prop :=
  ∀ item value, s.latest name item = some value → (v.1.look v.2 item).2.intact →
    (v.1.look v.2 item).1 = some value

omit [Platform] in
/-- No file operation has failed, and each property that was set is of one line. -/
structure Spared (s : Server) : Prop where
  intact : s.disk.intact
  oneLine : ∀ e ∈ s.edits, e.2.OneLine

/-- No accepted change is lost.  No world has two objects; an object shows what was accepted last,
and so does a world that is loaded from the files, if it has no object or its object is saved
first. -/
structure Lossless (s : Server) : Prop where
  single : s.Single
  seen : s.Spared → ∀ wp w, s.objs wp = some w → s.Shows w.name (w, s.disk)
  fresh : s.Spared → ∀ name, s.Absent name → s.Shows name (World.new s.path name s.disk)
  saved : s.Spared → ∀ wp w, s.objs wp = some w →
    s.Shows w.name (World.new s.path w.name (w.save s.disk).2)

/-! ### Worlds that hold what was accepted -/

/-- What is read from a world that shows the values of a store with the accepted changes. -/
theorem shows_of_faithful {name : Bytes} {values : Bytes × Item → Option Value} {w : World}
    {d : Disk} (hplaced : ∀ e ∈ s.edits, e.2.Placed)
    (hreflects : Writes.Reflects (Writes.tagged Edit.gives) values s.edits) (hw : w.Faithful d)
    (hshows : ∀ item, w.shows d item = values (name, item)) :
  s.Shows name (w, d)
  := by
  intro item value hlatest hok
  apply hw.look
  · rw [hshows, hreflects _ _ hlatest]
  · rintro x y rfl
    obtain ⟨⟨name', e⟩, he, hgives⟩ := Writes.exists_of_latest hlatest
    rw [Writes.tagged] at hgives
    split at hgives
    case isTrue => exact (hplaced _ he).inRange hgives
    case isFalse => cases hgives
  · exact hok

/-- A world that is loaded from files that hold such values. -/
theorem shows_of_held {name : Bytes} {values : Bytes × Item → Option Value} {d : Disk}
    (hplaced : ∀ e ∈ s.edits, e.2.Placed)
    (hreflects : Writes.Reflects (Writes.tagged Edit.gives) values s.edits)
    (hready : Database.Ready (World.dirOf s.path name) d)
    (hheld : ∀ item, Database.held (World.dirOf s.path name) d item = values (name, item)) :
  s.Shows name (World.new s.path name d)
  := by
  intro item value hlatest hok
  obtain ⟨hw, hshows⟩ := World.Faithful.new hready (World.look_intact hok)
  apply shows_of_faithful hplaced hreflects hw _ item value hlatest hok
  intro item'
  rw [hshows, hheld]

/-- The worlds hold what was accepted. -/
theorem lossless_of_holds (h : s.Spared → ∃ values,
      Writes.Reflects (Writes.tagged Edit.gives) values s.edits ∧ s.Holds values)
    (hsingle : s.Single) (hplaced : ∀ e ∈ s.edits, e.2.Placed) :
  s.Lossless
  := by
  constructor
  case single => exact hsingle
  case seen =>
    intro hspared wp w hw
    obtain ⟨values, hreflects, hvalues⟩ := h hspared
    obtain ⟨-, hfaithful, hshows⟩ := hvalues.loaded hw
    exact shows_of_faithful hplaced hreflects hfaithful hshows
  case fresh =>
    intro hspared name hnone
    obtain ⟨values, hreflects, hvalues⟩ := h hspared
    obtain ⟨hready, hheld⟩ := hvalues.filed hnone
    exact shows_of_held hplaced hreflects hready hheld
  case saved =>
    intro hspared wp w hw item value hlatest hok
    obtain ⟨values, hreflects, hvalues⟩ := h hspared
    obtain ⟨hdir, hfaithful, hshows⟩ := hvalues.loaded hw
    obtain ⟨-, hnew⟩ := World.new_db s.path w.name (w.save s.disk).2
    have hsaved : (w.save s.disk).2.intact := by
      apply (Database.new_within ∅ (World.dirOf s.path w.name) _).1.intact
      rw [← hnew]
      exact World.look_intact hok
    obtain ⟨hafter, -, hheld⟩ := hfaithful.save hsaved
    have hready := hafter.ready
    rw [World.save_dir] at hready
    rw [hdir] at hready hheld
    apply shows_of_held hplaced hreflects hready _ item value hlatest hok
    intro item'
    rw [hheld, hshows]

/-! ### Runs -/

omit [Platform] in
/-- The worlds of a server that has just been made hold what their files hold. -/
theorem holds_new [Platform] (modpw adminpw path : Bytes) (d : Disk) (clock : ℚ)
    (hfiles : ∀ name, Database.Ready (World.dirOf (path ++ ofString "/") name) d) :
  (Server.new modpw adminpw path d clock).Holds fun k =>
    Database.held (World.dirOf (path ++ ofString "/") k.1) d k.2
  := by
  have hsame := new_sameIn modpw adminpw path d clock
  constructor
  case single =>
    intro wp wp' w w' hw
    cases hw
  case loaded =>
    intro wp w hw
    cases hw
  case filed =>
    intro name _
    refine ⟨(hfiles name).sameIn (hsame _), ?_⟩
    intro item
    exact congrFun (Database.held_sameIn (hsame _)) item

/-- The server comes from `s` without losing an accepted change. -/
def Descends (s s' : Server) : Prop := s'.Consistent ∧ ∃ more, Advance s s' more

theorem Descends.step {s' : Server} {e : Event} (h : Descends s s') (he : s'.revives e = false) :
  Descends s (s'.step e)
  := by
  obtain ⟨hs', more, hadvance⟩ := h
  obtain ⟨more', hstep⟩ := step_advance hs' he
  exact ⟨hs'.event e, more ++ more', hadvance.trans hstep⟩

/-- What comes from a server that has accepted nothing loses nothing. -/
theorem Descends.lossless {s' : Server} {values : Bytes × Item → Option Value} (h : Descends s s')
    (hs : s.Holds values) (hnone : s.edits = []) :
  s'.Lossless
  := by
  obtain ⟨-, more, hadvance⟩ := h
  have hedits : s'.edits = more := by rw [hadvance.edits, hnone, List.nil_append]
  apply lossless_of_holds _ (hadvance.single hs.single)
  · rw [hedits]
    exact hadvance.placed
  · rintro ⟨hok, hline⟩
    rw [hedits] at hline
    obtain ⟨values', hfollows, hvalues'⟩ := hadvance.holds hs hok hline
    refine ⟨values', ?_, hvalues'⟩
    have hreflects : Writes.Reflects (Writes.tagged Edit.gives) values [] := fun k v hv => by cases hv
    rw [hedits, ← List.nil_append more]
    exact hreflects.follow hfollows

/-- Who joins a world that waits for its deletion makes a second object of it. -/
theorem not_single_of_revives {e : Event} (h : s.Consistent) (hs : s.Single)
    (he : s.revives e = true) :
  ¬ (s.step e).Single
  := by
  obtain ⟨name, hjoins, hwaits⟩ := (Option.any_eq_true _ _).mp he
  obtain ⟨wp, w, hw, rfl, hclients⟩ := h.exists_of_waits hwaits
  have hname : s.worlds.lookup w.name = none := by
    by_contra hsome
    obtain ⟨wp', hwp'⟩ := Option.ne_none_iff_exists'.mp hsome
    obtain ⟨w', hw', hname', hclients'⟩ := h.world_of_lookup hwp'
    obtain rfl : wp' = wp := hs hw' hw hname'
    rw [hw] at hw'
    cases hw'
    exact hclients' hclients
  obtain ⟨ws, si, p, wp', msgs, hwp', hstep⟩ := step_joins hjoins hname
  have hne : wp ≠ wp' := by
    rintro rfl
    rw [hwp'] at hw
    cases hw
  intro hsingle
  rw [hstep] at hsingle
  -- the object that waits is still there, and the new one has its name
  apply hne
  apply hsingle
  · show Function.update (Function.update s.objs wp' _) wp' _ wp = some w
    rw [Function.update_of_ne hne, Function.update_of_ne hne]
    exact hw
  · exact Function.update_self _ _ _
  · obtain ⟨-, -, -, hnew⟩ := World.new_rest s.path w.name s.disk
    exact hnew.symm

/-- **No accepted change is lost exactly in the runs in which no world is joined, by its name, while
an object of it waits for its deletion.** -/
theorem lossless_iff (modpw adminpw path : Bytes) (d : Disk) (clock : ℚ) (events : List Event)
    (hfiles : ∀ name, Database.Ready (World.dirOf (path ++ ofString "/") name) d) :
  Runs.Always step Lossless (Server.new modpw adminpw path d clock) events ↔
    Runs.Along step (fun s e => s.revives e = false) (Server.new modpw adminpw path d clock) events
  := by
  have hnew := holds_new modpw adminpw path d clock hfiles
  apply Runs.always_iff_along (I := Descends (Server.new modpw adminpw path d clock))
  · exact ⟨consistent_new modpw adminpw path d clock, [], Advance.refl _⟩
  · exact fun s h => h.lossless hnew rfl
  · exact fun s e h he => h.step he
  · intro s e h he hlossless
    have hs : s.Single := (h.lossless hnew rfl).single
    exact not_single_of_revives h.1 hs (eq_true_of_ne_false he) hlossless.single

omit [Platform] in
/-- Files that do not exist are well formed. -/
theorem ready_empty (dir : Bytes) (dirs : Bytes → Bool) :
  Database.Ready dir (Disk.empty dirs)
  := by
  constructor
  case sound =>
    intro rx ry f hf
    cases hf
  case bare => exact fun _ => ⟨rfl, rfl⟩

/-- The only client of the world "w" places a pixel and leaves. -/
def drawAndLeave : List Event :=
  [.connect (ofString "a"), .message 0 .binary (ofString "w..") 0 0, .advance 4,
    .message 0 .binary (PixUpd.bytes ⟨0, 0, 255, 0, 0⟩) 1 1, .disconnect 0]

/-- Somebody joins the world "w". -/
def joinAgain : List Event :=
  [.connect (ofString "b"), .message 1 .binary (ofString "w..") 1 1]

omit [Platform] in
/-- A world is joined before it is deleted, and has two objects. -/
theorem not_lossless :
  ¬ ∀ [Platform] (modpw adminpw path : Bytes) (d : Disk) (clock : ℚ) (events : List Event),
    (∀ name, Database.Ready (World.dirOf (path ++ ofString "/") name) d) →
      Runs.Always step Lossless (Server.new modpw adminpw path d clock) events
  := by
  intro h
  have hlossless := (@h Platform.quiet (ofString "m") (ofString "a") [] (Disk.empty fun _ => true) 0
    (drawAndLeave ++ joinAgain) fun name => ready_empty _ _).last
  generalize hs : Runs.run (@step Platform.quiet) (@Server.new Platform.quiet (ofString "m")
    (ofString "a") [] (Disk.empty fun _ => true) 0) (drawAndLeave ++ joinAgain) = s at hlossless
  have hold : (s.objs 0).any (fun w => decide (w.name = ofString "w")) = true := by
    rw [← hs]
    decide +kernel
  have hnew : (s.objs 1).any (fun w => decide (w.name = ofString "w")) = true := by
    rw [← hs]
    decide +kernel
  obtain ⟨w, hw, hname⟩ := (Option.any_eq_true _ _).mp hold
  obtain ⟨w', hw', hname'⟩ := (Option.any_eq_true _ _).mp hnew
  have heq : w.name = w'.name := (of_decide_eq_true hname).trans (of_decide_eq_true hname').symm
  exact absurd (@Lossless.single Platform.quiet s hlossless _ _ _ _ hw hw' heq) (by decide)

omit [Platform] in
/-- A world is joined after it is deleted, and shows the pixel. -/
theorem lossless_iff_deleted :
  let _ := Platform.quiet
  Runs.Always step Lossless (Server.new (ofString "m") (ofString "a") [] (Disk.empty fun _ => true) 0)
    (drawAndLeave ++ .callback 1 :: joinAgain)
  := by
  apply (@lossless_iff Platform.quiet (ofString "m") (ofString "a") [] (Disk.empty fun _ => true) 0
    (drawAndLeave ++ .callback 1 :: joinAgain) fun name => ready_empty _ _).mpr
  simp only [drawAndLeave, joinAgain, List.cons_append, List.nil_append, Runs.along_cons]
  refine ⟨?_, ?_, ?_, ?_, ?_, ?_, ?_, ?_, Runs.along_nil⟩
  all_goals decide +kernel

end Server

end Owop
