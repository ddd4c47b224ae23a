import OwopServer.Server.Contents
import OwopServer.Server.Steps

/-!
# Keeping the contents of worlds

Each world of the server holds some values, whether it is in memory or not: an object shows them,
or the files hold them if the world has no object.  While no world has two objects and no file
operation fails, the values change by the changes that are accepted, and in no other way: not by
loading and saving worlds, and not when worlds are left and unloaded.  What the objects remember
about their files then stays so, whatever is set.
-/

namespace Owop

/-- What a world is known by: its name, its database and the loaded chunks. -/
def World.stuff (w : World) : Bytes × Database × AList fun _ : ChunkPos => Chunk :=
  (w.name, w.db, w.chunks)

/-- A world has nothing to save. -/
structure World.Clean (w : World) : Prop where
  chunks : ∀ pos c, w.chunks.lookup pos = some c → c.changed = false
  props : w.db.changedPropsOrProtects = false

/-- The directories of two worlds are different. -/
theorem World.dirOf_inj {path name name' : Bytes} (h : dirOf path name = dirOf path name') :
  name = name'
  := List.append_cancel_left (List.append_cancel_right h)

/-- Nothing happens. -/
theorem Disk.SameIn.refl (dir : Bytes) (d : Disk) :
  Disk.SameIn dir d d
  := ⟨fun _ => rfl, rfl⟩

/-- The files that a database makes are in its directory. -/
theorem Disk.owned_subset (dir : Bytes) :
  Disk.regionFiles dir ∪ Disk.propFiles dir ⊆ Disk.filesIn dir
  := by
  rintro path (⟨rx, ry, rfl⟩ | rfl | rfl)
  · rfl
  · rfl
  · rfl

namespace World

variable {w w' : World}

/-- The database and the loaded chunks are all that matters. -/
theorem Clean.congr (h : w.Clean) (hdb : w'.db = w.db) (hchunks : w'.chunks = w.chunks) :
  w'.Clean
  := by
  constructor
  case chunks =>
    rw [hchunks]
    exact h.chunks
  case props =>
    rw [hdb]
    exact h.props

variable [Platform]

/-- Getting a chunk gives nothing to save. -/
theorem Clean.getChunk (h : w.Clean) (d : Disk) (x y : Int32) :
  (w.getChunk d x y).2.1.Clean
  := by
  obtain ⟨-, hgot⟩ | ⟨hrange, c, w', d', hgot⟩ := getChunk_cases w d x y
  · rw [hgot]
    exact h
  · have hframe := getChunk_frame w d x y
    obtain ⟨hc, hold, hothers⟩ := lookup_getChunk hgot
    rw [hgot] at hframe ⊢
    constructor
    case props => exact hframe.db.props.changed.trans h.props
    case chunks =>
      intro pos c' hc'
      by_cases hpos : pos = (x, y)
      · rw [hpos, hc] at hc'
        cases hc'
        obtain hold | ⟨hnone, -⟩ := hold
        · exact h.chunks _ c hold
        · rw [World.getChunk, if_neg (not_not.mpr hrange), hnone] at hgot
          cases hgot
          rfl
      · obtain hsame | hnone := hothers pos hpos
        · rw [hsame] at hc'
          exact h.chunks pos c' hc'
        · rw [hnone] at hc'
          cases hc'

/-- What is not an accepted change gives nothing to save. -/
theorem Clean.run (h : w.Clean) (d : Disk) (a : WorldAct) (hnone : (a.run w d).2.2.2 = []) :
  (a.run w d).1.Clean
  := by
  have heffect := a.effect w d
  generalize a.run w d = done at heffect hnone ⊢
  cases heffect with
  | @rest w' outs hw' =>
      have hdb : w'.db = w.db := by rw [hw']
      have hchunks : w'.chunks = w.chunks := by rw [hw']
      exact h.congr hdb hchunks
  | look => exact h.getChunk d _ _
  | prop | chunk | pixel | outside | protect => cases hnone

/-- A world that was saved has nothing to save. -/
theorem clean_save (w : World) (d : Disk) :
  (w.save d).1.Clean
  := by
  constructor
  case chunks => exact fun pos c hc => save_unchanged w d hc
  case props =>
    obtain ⟨db, chunks, heq, -⟩ := save_frame w d
    rw [heq]

/-- A world that was loaded has nothing to save. -/
theorem clean_new {path name : Bytes} {d : Disk} (hok : (World.new path name d).2.intact) :
  (World.new path name d).1.Clean
  := by
  obtain ⟨hdb, hdisk⟩ := new_db path name d
  obtain ⟨hchunks, -⟩ := new_rest path name d
  rw [hdisk] at hok
  constructor
  case chunks =>
    intro pos c hc
    rw [hchunks, AList.lookup_empty] at hc
    cases hc
  case props =>
    rw [hdb]
    exact (Database.new_saved hok).2.2

end World

/-- The change that was accepted, and the name of the world. -/
def Action.edit? : Action → Option (Bytes × Edit)
  | edit name e => some (name, e)
  | _ => none

namespace Server

/-- The changes accepted so far. -/
def edits (s : Server) : List (Bytes × Edit) := s.log.filterMap Action.edit?

/-- No world has two objects. -/
def Single (s : Server) : Prop :=
  ∀ {wp wp' w w'}, s.objs wp = some w → s.objs wp' = some w' → w.name = w'.name → wp = wp'

/-- No world in memory has anything to save. -/
def AllSaved (s : Server) : Prop := ∀ wp w, s.objs wp = some w → w.Clean

/-- A world has no object. -/
def Absent (s : Server) (name : Bytes) : Prop := ∀ {wp w}, s.objs wp = some w → w.name ≠ name

/-- The worlds hold the values: the objects show them, and the files hold those of the worlds
without an object. -/
structure Holds (s : Server) (values : Bytes × Item → Option Value) : Prop where
  single : s.Single
  loaded : ∀ {wp w}, s.objs wp = some w → w.db.dir = World.dirOf s.path w.name ∧
    w.Faithful s.disk ∧ ∀ item, w.shows s.disk item = values (w.name, item)
  filed : ∀ {name}, s.Absent name → Database.Ready (World.dirOf s.path name) s.disk ∧
    ∀ item, Database.held (World.dirOf s.path name) s.disk item = values (name, item)

/-- No world has two objects, what they remember about their files is so, and the region files are
well formed, also those of worlds without an object. -/
structure Agrees (s : Server) : Prop where
  single : s.Single
  loaded : ∀ {wp w}, s.objs wp = some w → w.db.dir = World.dirOf s.path w.name ∧
    w.Reliable s.disk
  filed : ∀ name, Database.Sound (World.dirOf s.path name) s.disk

variable {s s' s'' : Server} {values : Bytes × Item → Option Value} {wp : WorldPtr} {w w' : World}
  {d : Disk}

/-! ### What the values depend on -/

/-- An object is changed, or made, that is the only one of its world. -/
theorem Single.update (h : s.Single) (hother : ∀ {wp' w'}, s.objs wp' = some w' →
    w'.name = w.name → wp' = wp) (hobjs : s'.objs = Function.update s.objs wp (some w)) :
  s'.Single
  := by
  intro wp₁ wp₂ w₁ w₂ hw₁ hw₂ heq
  rw [hobjs, Table.update_eq_some] at hw₁ hw₂
  obtain ⟨rfl, rfl⟩ | ⟨-, hold₁⟩ := hw₁
  · obtain ⟨rfl, rfl⟩ | ⟨-, hold₂⟩ := hw₂
    · rfl
    · exact (hother hold₂ heq.symm).symm
  · obtain ⟨rfl, rfl⟩ | ⟨-, hold₂⟩ := hw₂
    · exact hother hold₁ heq
    · exact h hold₁ hold₂ heq

/-- An object of a server with the same objects, but for what they are not known by. -/
theorem exists_of_stuff (hw : s.objs wp = some w)
    (hobjs : (s'.objs wp).map World.stuff = (s.objs wp).map World.stuff) :
  ∃ w', s'.objs wp = some w' ∧ w'.name = w.name ∧ w'.db = w.db ∧ w'.chunks = w.chunks
  := by
  rw [hw, Option.map_some] at hobjs
  obtain ⟨w', hw', hstuff⟩ := Option.map_eq_some_iff.mp hobjs
  obtain ⟨hname, hrest⟩ := Prod.mk.inj hstuff
  obtain ⟨hdb, hchunks⟩ := Prod.mk.inj hrest
  exact ⟨w', hw', hname, hdb, hchunks⟩

/-- The objects are the same, but for what they are not known by. -/
theorem Single.same (h : s.Single)
    (hobjs : ∀ wp, (s'.objs wp).map World.stuff = (s.objs wp).map World.stuff) :
  s'.Single
  := by
  intro wp₁ wp₂ w₁ w₂ hw₁ hw₂ hname
  obtain ⟨v₁, hv₁, hname₁, -⟩ := exists_of_stuff hw₁ (hobjs wp₁).symm
  obtain ⟨v₂, hv₂, hname₂, -⟩ := exists_of_stuff hw₂ (hobjs wp₂).symm
  exact h hv₁ hv₂ (hname₁.trans (hname.trans hname₂.symm))

/-- An object is changed, but not its name. -/
theorem Single.put (h : s.Single) (hwp : s.objs wp = some w) (hname : w'.name = w.name)
    (hobjs : s'.objs = Function.update s.objs wp (some w')) :
  s'.Single
  := by
  refine Single.update h ?_ hobjs
  intro wp₁ w₁ hw₁ heq
  exact h hw₁ hwp (heq.trans hname)

/-- An object is deleted. -/
theorem Single.free (h : s.Single) (hobjs : s'.objs = Function.update s.objs wp none) :
  s'.Single
  := by
  intro wp₁ wp₂ w₁ w₂ hw₁ hw₂
  rw [hobjs] at hw₁ hw₂
  exact h (Table.of_update_none hw₁) (Table.of_update_none hw₂)

/-- An object is made of a world that has none. -/
theorem Single.load (h : s.Single) (hnone : s.Absent w.name)
    (hobjs : s'.objs = Function.update s.objs wp (some w)) :
  s'.Single
  := by
  refine Single.update h ?_ hobjs
  intro wp₁ w₁ hw₁ heq
  exact absurd heq (hnone hw₁)

/-- An object has nothing to save after a change of one object. -/
theorem AllSaved.update {b : Option World} (h : s.AllSaved)
    (hobjs : s'.objs = Function.update s.objs wp b) (hb : ∀ {w}, b = some w → w.Clean) :
  s'.AllSaved
  := by
  intro wp₁ w₁ hw₁
  rw [hobjs, Function.update_apply] at hw₁
  split at hw₁
  case isTrue => exact hb hw₁
  case isFalse => exact h wp₁ w₁ hw₁

/-- The objects are the same, but for what they are not known by. -/
theorem AllSaved.same (h : s.AllSaved)
    (hobjs : ∀ wp, (s'.objs wp).map World.stuff = (s.objs wp).map World.stuff) :
  s'.AllSaved
  := by
  intro wp w hw
  obtain ⟨w', hw', -, hdb, hchunks⟩ := exists_of_stuff hw (hobjs wp).symm
  exact (h wp w' hw').congr hdb.symm hchunks.symm

/-- What has no object after a change of one object had none before, or it is the world of that
object. -/
theorem Absent.before {name : Bytes} {b : Option World} (h : s'.Absent name)
    (hobjs : s'.objs = Function.update s.objs wp b)
    (hother : ∀ {w}, s.objs wp = some w → w.name ≠ name) :
  s.Absent name
  := by
  intro wp₁ w₁ hw₁
  by_cases heq : wp₁ = wp
  · rw [heq] at hw₁
    exact hother hw₁
  · refine @h wp₁ w₁ ?_
    rw [hobjs, Function.update_of_ne heq]
    exact hw₁

/-- An object shows the same if the files in its directory are the same. -/
theorem Holds.shown (h : s.Holds values) (hwp : s.objs wp = some w)
    (hsame : Disk.SameIn (World.dirOf s.path w.name) s.disk d) :
  w.db.dir = World.dirOf s.path w.name ∧ w.Faithful d ∧
    ∀ item, w.shows d item = values (w.name, item)
  := by
  obtain ⟨hdir, hfaithful, hshows⟩ := h.loaded hwp
  rw [← hdir] at hsame
  obtain ⟨hfaithful', hshows'⟩ := hfaithful.sameIn hsame
  refine ⟨hdir, hfaithful', ?_⟩
  intro item
  rw [hshows', hshows]

/-- The files of a world without an object hold the same if they are the same. -/
theorem Holds.stored {name : Bytes} (h : s.Holds values) (hnone : s.Absent name)
    (hsame : Disk.SameIn (World.dirOf s.path name) s.disk d) :
  Database.Ready (World.dirOf s.path name) d ∧
    ∀ item, Database.held (World.dirOf s.path name) d item = values (name, item)
  := by
  obtain ⟨hready, hheld⟩ := h.filed hnone
  refine ⟨hready.sameIn hsame, ?_⟩
  intro item
  rw [Database.held_sameIn hsame, hheld]

/-- What one world does in its directory leaves the others alone. -/
theorem Holds.sameIn (h : s.Holds values) (hwp : s.objs wp = some w)
    (hwithin : Disk.Within (Disk.filesIn w.db.dir) w.db.dir s.disk d) {name : Bytes}
    (hne : name ≠ w.name) :
  Disk.SameIn (World.dirOf s.path name) s.disk d
  := by
  apply hwithin.sameIn
  rw [(h.loaded hwp).1]
  exact fun heq => hne (World.dirOf_inj heq)

/-- The values are the same if the objects and the files are. -/
theorem Holds.same (h : s.Holds values) (hpath : s'.path = s.path)
    (hdisk : ∀ name, Disk.SameIn (World.dirOf s.path name) s.disk s'.disk)
    (hobjs : ∀ wp, (s'.objs wp).map World.stuff = (s.objs wp).map World.stuff) :
  s'.Holds values
  := by
  constructor
  case single => exact Single.same h.single hobjs
  case loaded =>
    intro wp w' hw'
    obtain ⟨w, hw, hname, hdb, hchunks⟩ := exists_of_stuff hw' (hobjs wp).symm
    obtain ⟨hdir, hfaithful, hshows⟩ := h.shown hw (hdisk w.name)
    rw [hpath, ← hname, ← hdb]
    refine ⟨hdir, hfaithful.congr hdb.symm hchunks.symm, ?_⟩
    intro item
    rw [← hshows, World.shows_congr s'.disk hdb.symm hchunks.symm]
  case filed =>
    intro name hnone
    rw [hpath]
    apply h.stored _ (hdisk name)
    intro wp w hw
    obtain ⟨w', hw', hname, -⟩ := exists_of_stuff hw (hobjs wp)
    rw [← hname]
    exact hnone hw'

/-- A world does something in its directory. -/
theorem Holds.put (h : s.Holds values) (hwp : s.objs wp = some w) (hname : w'.name = w.name)
    (hdir : w'.db.dir = w.db.dir)
    (hwithin : Disk.Within (Disk.filesIn w.db.dir) w.db.dir s.disk d) (hw' : w'.Faithful d)
    (hpath : s'.path = s.path) (hdisk : s'.disk = d)
    (hobjs : s'.objs = Function.update s.objs wp (some w')) :
  s'.Holds (Writes.replace values w.name (w'.shows d))
  := by
  constructor
  case single => exact Single.put h.single hwp hname hobjs
  case loaded =>
    intro wp₁ w₁ hw₁
    rw [hobjs, Table.update_eq_some] at hw₁
    rw [hpath, hdisk]
    obtain ⟨rfl, rfl⟩ | ⟨hne, hold⟩ := hw₁
    · rw [hdir, hname]
      refine ⟨(h.loaded hwp).1, hw', ?_⟩
      intro item
      rw [Writes.replace_self]
    · have hname₁ : w₁.name ≠ w.name := fun heq => hne (h.single hold hwp heq)
      obtain ⟨hdir₁, hfaithful, hshows⟩ := h.shown hold (h.sameIn hwp hwithin hname₁)
      refine ⟨hdir₁, hfaithful, ?_⟩
      intro item
      rw [Writes.replace_of_ne hname₁, hshows]
  case filed =>
    intro name hnone
    have hne : name ≠ w.name := by
      rintro rfl
      refine @hnone wp w' ?_ hname
      rw [hobjs]
      exact Function.update_self _ _ _
    have hbefore : s.Absent name := by
      apply hnone.before hobjs
      intro w₁ hw₁
      rw [Option.some.inj (hw₁.symm.trans hwp)]
      exact hne.symm
    obtain ⟨hready, hheld⟩ := h.stored hbefore (h.sameIn hwp hwithin hne)
    rw [hpath, hdisk]
    refine ⟨hready, ?_⟩
    intro item
    rw [Writes.replace_of_ne hne, hheld]

/-- A world is unloaded, and its files hold what it showed. -/
theorem Holds.free (h : s.Holds values) (hwp : s.objs wp = some w)
    (hwithin : Disk.Within (Disk.filesIn w.db.dir) w.db.dir s.disk d)
    (hready : Database.Ready w.db.dir d) (hheld : Database.held w.db.dir d = w.shows s.disk)
    (hpath : s'.path = s.path) (hdisk : s'.disk = d)
    (hobjs : s'.objs = Function.update s.objs wp none) :
  s'.Holds values
  := by
  constructor
  case single => exact Single.free h.single hobjs
  case loaded =>
    intro wp₁ w₁ hw₁
    rw [hobjs] at hw₁
    have hne : wp₁ ≠ wp := by
      rintro rfl
      rw [Function.update_self] at hw₁
      cases hw₁
    have hold := Table.of_update_none hw₁
    rw [hpath, hdisk]
    apply h.shown hold
    exact h.sameIn hwp hwithin fun heq => hne (h.single hold hwp heq)
  case filed =>
    intro name hnone
    rw [hpath, hdisk]
    by_cases hname : name = w.name
    · obtain ⟨hdir, -, hshows⟩ := h.loaded hwp
      rw [hname, ← hdir]
      refine ⟨hready, ?_⟩
      intro item
      rw [hheld, hshows]
    · have hbefore : s.Absent name := by
        apply hnone.before hobjs
        intro w₁ hw₁
        rw [Option.some.inj (hw₁.symm.trans hwp)]
        exact fun heq => hname heq.symm
      exact h.stored hbefore (h.sameIn hwp hwithin hname)

/-- A world without an object is loaded. -/
theorem Holds.load (h : s.Holds values) (hnone : s.Absent w.name) (hwp : s.objs wp = none)
    (hdir : w.db.dir = World.dirOf s.path w.name)
    (hsame : ∀ name, Disk.SameIn (World.dirOf s.path name) s.disk d) (hw : w.Faithful d)
    (hshows : w.shows d = Database.held (World.dirOf s.path w.name) s.disk)
    (hpath : s'.path = s.path) (hdisk : s'.disk = d)
    (hobjs : s'.objs = Function.update s.objs wp (some w)) :
  s'.Holds values
  := by
  constructor
  case single => exact Single.load h.single hnone hobjs
  case loaded =>
    intro wp₁ w₁ hw₁
    rw [hobjs, Table.update_eq_some] at hw₁
    rw [hpath, hdisk]
    obtain ⟨rfl, rfl⟩ | ⟨-, hold⟩ := hw₁
    · refine ⟨hdir, hw, ?_⟩
      intro item
      rw [hshows, (h.filed hnone).2]
    · exact h.shown hold (hsame w₁.name)
  case filed =>
    intro name hafter
    rw [hpath, hdisk]
    apply h.stored _ (hsame name)
    apply hafter.before hobjs
    intro w₁ hw₁
    rw [hwp] at hw₁
    cases hw₁

/-! ### What the objects remember -/

/-- What one world does in its directory leaves the others alone. -/
theorem Agrees.sameIn (h : s.Agrees) (hwp : s.objs wp = some w)
    (hwithin : Disk.Within (Disk.filesIn w.db.dir) w.db.dir s.disk d) {name : Bytes}
    (hne : name ≠ w.name) :
  Disk.SameIn (World.dirOf s.path name) s.disk d
  := by
  apply hwithin.sameIn
  rw [(h.loaded hwp).1]
  exact fun heq => hne (World.dirOf_inj heq)

/-- An object stays reliable if the files in its directory are the same. -/
theorem Agrees.stays (h : s.Agrees) (hwp : s.objs wp = some w)
    (hsame : Disk.SameIn (World.dirOf s.path w.name) s.disk d) :
  w.db.dir = World.dirOf s.path w.name ∧ w.Reliable d
  := by
  obtain ⟨hdir, hreliable⟩ := h.loaded hwp
  rw [← hdir] at hsame
  exact ⟨hdir, (hreliable.sameIn hsame).1⟩

/-- Nothing that the objects remember changes. -/
theorem Agrees.same (h : s.Agrees) (hpath : s'.path = s.path)
    (hdisk : ∀ name, Disk.SameIn (World.dirOf s.path name) s.disk s'.disk)
    (hobjs : ∀ wp, (s'.objs wp).map World.stuff = (s.objs wp).map World.stuff) :
  s'.Agrees
  := by
  constructor
  case single => exact Single.same h.single hobjs
  case loaded =>
    intro wp w' hw'
    obtain ⟨w, hw, hname, hdb, hchunks⟩ := exists_of_stuff hw' (hobjs wp).symm
    obtain ⟨hdir, hreliable⟩ := h.stays hw (hdisk w.name)
    rw [hpath, ← hname, ← hdb]
    exact ⟨hdir, hreliable.congr hdb.symm hchunks.symm⟩
  case filed =>
    intro name
    rw [hpath]
    exact Database.sound_sameIn (h.filed name) (hdisk name)

/-- A world does something in its directory. -/
theorem Agrees.put (h : s.Agrees) (hwp : s.objs wp = some w) (hname : w'.name = w.name)
    (hdir : w'.db.dir = w.db.dir)
    (hwithin : Disk.Within (Disk.filesIn w.db.dir) w.db.dir s.disk d) (hw' : w'.Reliable d)
    (hpath : s'.path = s.path) (hdisk : s'.disk = d)
    (hobjs : s'.objs = Function.update s.objs wp (some w')) :
  s'.Agrees
  := by
  obtain ⟨hplace, -⟩ := h.loaded hwp
  constructor
  case single => exact Single.put h.single hwp hname hobjs
  case loaded =>
    intro wp₁ w₁ hw₁
    rw [hobjs, Table.update_eq_some] at hw₁
    rw [hpath, hdisk]
    obtain ⟨rfl, rfl⟩ | ⟨hne, hold⟩ := hw₁
    · rw [hdir, hname]
      exact ⟨hplace, hw'⟩
    · apply h.stays hold
      exact h.sameIn hwp hwithin fun heq => hne (h.single hold hwp heq)
  case filed =>
    intro name
    rw [hpath, hdisk]
    by_cases hsame : name = w.name
    · rw [hsame, ← hplace, ← hdir]
      exact hw'.sound.files
    · exact Database.sound_sameIn (h.filed name) (h.sameIn hwp hwithin hsame)

/-- A world is unloaded. -/
theorem Agrees.free (h : s.Agrees) (hwp : s.objs wp = some w)
    (hwithin : Disk.Within (Disk.filesIn w.db.dir) w.db.dir s.disk d)
    (hsound : Database.Sound w.db.dir d) (hpath : s'.path = s.path) (hdisk : s'.disk = d)
    (hobjs : s'.objs = Function.update s.objs wp none) :
  s'.Agrees
  := by
  constructor
  case single => exact Single.free h.single hobjs
  case loaded =>
    intro wp₁ w₁ hw₁
    rw [hobjs] at hw₁
    have hne : wp₁ ≠ wp := by
      rintro rfl
      rw [Function.update_self] at hw₁
      cases hw₁
    have hold := Table.of_update_none hw₁
    rw [hpath, hdisk]
    apply h.stays hold
    exact h.sameIn hwp hwithin fun heq => hne (h.single hold hwp heq)
  case filed =>
    intro name
    rw [hpath, hdisk]
    by_cases hsame : name = w.name
    · rw [hsame, ← (h.loaded hwp).1]
      exact hsound
    · exact Database.sound_sameIn (h.filed name) (h.sameIn hwp hwithin hsame)

/-- A world without an object is loaded. -/
theorem Agrees.load (h : s.Agrees) (hnone : s.Absent w.name)
    (hdir : w.db.dir = World.dirOf s.path w.name)
    (hsame : ∀ name, Disk.SameIn (World.dirOf s.path name) s.disk d) (hw : w.Reliable d)
    (hpath : s'.path = s.path) (hdisk : s'.disk = d)
    (hobjs : s'.objs = Function.update s.objs wp (some w)) :
  s'.Agrees
  := by
  constructor
  case single => exact Single.load h.single hnone hobjs
  case loaded =>
    intro wp₁ w₁ hw₁
    rw [hobjs, Table.update_eq_some] at hw₁
    rw [hpath, hdisk]
    obtain ⟨rfl, rfl⟩ | ⟨-, hold⟩ := hw₁
    · exact ⟨hdir, hw⟩
    · exact h.stays hold (hsame w₁.name)
  case filed =>
    intro name
    rw [hpath, hdisk]
    exact Database.sound_sameIn (h.filed name) (hsame name)

/-! ### Advancing -/

/-- The server `s'` comes from `s` while the changes `more` are accepted.  If no file operation fails
and the properties set are of one line, the values that the worlds hold take these changes.  What the
objects remember stays so whatever is set. -/
structure Advance (s s' : Server) (more : List (Bytes × Edit)) : Prop where
  path : s'.path = s.path
  intact : s'.disk.intact → s.disk.intact
  edits : s'.edits = s.edits ++ more
  placed : ∀ e ∈ more, e.2.Placed
  single : s.Single → s'.Single
  agrees : s'.disk.intact → s.Agrees → s'.Agrees
  saved : s'.disk.intact → more = [] → s.AllSaved → s'.AllSaved
  holds : ∀ {values}, s.Holds values → s'.disk.intact → (∀ e ∈ more, e.2.OneLine) →
    ∃ values', Writes.Follows (Writes.tagged Edit.gives) values more values' ∧ s'.Holds values'

/-- One thing after another. -/
theorem Advance.trans {more more' : List (Bytes × Edit)} (h : Advance s s' more)
    (h' : Advance s' s'' more') :
  Advance s s'' (more ++ more')
  := by
  constructor
  case path => exact h'.path.trans h.path
  case intact => exact fun hok => h.intact (h'.intact hok)
  case edits => rw [h'.edits, h.edits, List.append_assoc]
  case placed =>
    intro e he
    obtain he | he := List.mem_append.mp he
    · exact h.placed e he
    · exact h'.placed e he
  case single => exact fun hsingle => h'.single (h.single hsingle)
  case agrees => exact fun hok hagrees => h'.agrees hok (h.agrees (h'.intact hok) hagrees)
  case saved =>
    intro hok hnone hsaved
    obtain ⟨hfirst, hlast⟩ := List.append_eq_nil_iff.mp hnone
    exact h'.saved hok hlast (h.saved (h'.intact hok) hfirst hsaved)
  case holds =>
    intro values hvalues hok hline
    obtain ⟨values', hfollows, hvalues'⟩ := h.holds hvalues (h'.intact hok)
      fun e he => hline e (List.mem_append_left _ he)
    obtain ⟨values'', hfollows', hvalues''⟩ := h'.holds hvalues' hok
      fun e he => hline e (List.mem_append_right _ he)
    exact ⟨values'', hfollows.trans hfollows', hvalues''⟩

/-- No change is accepted. -/
theorem Advance.silent (hpath : s'.path = s.path) (hok : s'.disk.intact → s.disk.intact)
    (hedits : s'.edits = s.edits) (hsingle : s.Single → s'.Single)
    (hagrees : s'.disk.intact → s.Agrees → s'.Agrees)
    (hsaved : s'.disk.intact → s.AllSaved → s'.AllSaved)
    (hholds : ∀ {values}, s.Holds values → s'.disk.intact → s'.Holds values) :
  Advance s s' []
  := by
  constructor
  case path => exact hpath
  case intact => exact hok
  case edits => rw [hedits, List.append_nil]
  case placed => exact fun e he => absurd he List.not_mem_nil
  case single => exact hsingle
  case agrees => exact hagrees
  case saved => exact fun hok' _ hall => hsaved hok' hall
  case holds =>
    intro values hvalues hok' _
    exact ⟨values, Writes.Follows.nil, hholds hvalues hok'⟩

/-- Nothing happens to the contents of worlds. -/
theorem Advance.same (hpath : s'.path = s.path) (hok : s'.disk.intact → s.disk.intact)
    (hdisk : ∀ name, Disk.SameIn (World.dirOf s.path name) s.disk s'.disk)
    (hedits : s'.edits = s.edits)
    (hobjs : (fun wp => (s'.objs wp).map World.stuff) = fun wp => (s.objs wp).map World.stuff) :
  Advance s s' []
  := Advance.silent hpath hok hedits (fun hsingle => Single.same hsingle (congrFun hobjs))
    (fun _ hagrees => hagrees.same hpath hdisk (congrFun hobjs))
    (fun _ hall => AllSaved.same hall (congrFun hobjs))
    fun hvalues _ => hvalues.same hpath hdisk (congrFun hobjs)

/-- Nothing happens to the objects and the files. -/
theorem Advance.still (hpath : s'.path = s.path) (hdisk : s'.disk = s.disk)
    (hedits : s'.edits = s.edits)
    (hobjs : (fun wp => (s'.objs wp).map World.stuff) = fun wp => (s.objs wp).map World.stuff) :
  Advance s s' []
  := by
  refine Advance.same hpath ?_ ?_ hedits hobjs
  · rw [hdisk]
    exact id
  · intro name
    rw [hdisk]
    exact Disk.SameIn.refl _ _

/-- Nothing happens. -/
theorem Advance.refl (s : Server) :
  Advance s s []
  := Advance.still rfl rfl rfl rfl

/-- What is noted in the log besides changes. -/
theorem edits_append {log : List Action} (hlog : s'.log = s.log ++ log)
    (hnone : log.filterMap Action.edit? = []) :
  s'.edits = s.edits
  := by
  rw [edits, edits, hlog, List.filterMap_append, hnone, List.append_nil]

/-- The changes of a world in the log. -/
theorem filterMap_edit (name : Bytes) (es : List Edit) :
  (es.map fun e => Action.edit name e).filterMap Action.edit? = es.map fun e => (name, e)
  := by
  rw [List.filterMap_map]
  exact List.filterMap_eq_map (f := fun e => (name, e)) ▸ rfl

variable [Platform]

/-- An operation of a world. -/
theorem perform_advance (a : WorldAct) (hwp : s.objs wp = some w) :
  ∃ more, Advance s (s.perform wp a) more
  := by
  obtain ⟨hdir, hwithin⟩ := World.run_frame w s.disk a
  obtain ⟨hroom, -⟩ := run_alike w s.disk a
  have hplaced := World.run_placed w s.disk a
  have hrun := @World.Faithful.run w s.disk _
  have hchanged := hwithin.mono (Set.subset_union_left.trans (Disk.owned_subset w.db.dir))
  use (a.run w s.disk).2.2.2.map fun e => (w.name, e)
  rw [perform_eq a hwp]
  constructor
  case path => rfl
  case intact => exact hwithin.intact
  case edits =>
    rw [edits, List.filterMap_append, filterMap_edit]
    rfl
  case placed =>
    intro e he
    obtain ⟨e', he', rfl⟩ := List.mem_map.mp he
    exact hplaced e' he'
  case single => exact fun hsingle => Single.put hsingle hwp (congrArg Room.name hroom) rfl
  case agrees =>
    intro hok hagrees
    have hreliable := (hagrees.loaded hwp).2.run a hok
    exact hagrees.put hwp (congrArg Room.name hroom) hdir hchanged hreliable rfl rfl rfl
  case saved =>
    intro _ hnone hall
    refine AllSaved.update hall rfl ?_
    rintro _ ⟨⟩
    exact (hall wp w hwp).run s.disk a (List.map_eq_nil_iff.mp hnone)
  case holds =>
    intro values hvalues hok hline
    obtain ⟨-, hfaithful, hshows⟩ := hvalues.loaded hwp
    obtain ⟨hafter, hfollows⟩ := hrun hfaithful a hok fun e he =>
      hline (w.name, e) (List.mem_map_of_mem he)
    refine ⟨_, hfollows.tag hshows, ?_⟩
    exact hvalues.put hwp (congrArg Room.name hroom) hdir hchanged hafter rfl rfl rfl

/-- A world is saved. -/
theorem saveWorld_advance (hwp : s.objs wp = some w) :
  Advance s (s.saveWorld wp) []
  := by
  obtain ⟨db, chunks, heq, -, -, hwithin⟩ := World.save_frame w s.disk
  have hname : (w.save s.disk).1.name = w.name := by rw [heq]
  have hchanged := hwithin.mono (Disk.owned_subset w.db.dir)
  rw [saveWorld_eq hwp]
  refine Advance.silent rfl hwithin.intact rfl (fun hsingle => Single.put hsingle hwp hname rfl)
    ?_ (fun _ hall => AllSaved.update hall rfl ?_) ?_
  · intro hok hagrees
    have hreliable := ((hagrees.loaded hwp).2.save hok).1
    exact hagrees.put hwp hname (World.save_dir w s.disk) hchanged hreliable rfl rfl rfl
  · rintro _ ⟨⟩
    exact World.clean_save w s.disk
  intro values hvalues hok
  obtain ⟨-, hfaithful, hshows⟩ := hvalues.loaded hwp
  obtain ⟨hafter, hsame, -⟩ := hfaithful.save hok
  have hvalues' : Writes.replace values w.name ((w.save s.disk).1.shows (w.save s.disk).2)
      = values := by
    rw [hsame, Writes.replace_eq_self hshows]
  rw [← hvalues']
  exact hvalues.put hwp hname (World.save_dir w s.disk) hchanged hafter rfl rfl rfl

/-- A world is deleted. -/
theorem deleteWorld_advance (hwp : s.objs wp = some w) :
  Advance s (s.deleteWorld wp) []
  := by
  obtain ⟨db, chunks, heq, -, -, hwithin⟩ := World.save_frame w s.disk
  have hchanged := hwithin.mono (Disk.owned_subset w.db.dir)
  rw [deleteWorld, withWorld_eq _ hwp, World.delete_eq]
  refine Advance.silent rfl hwithin.intact rfl (fun hsingle => Single.free hsingle rfl)
    ?_ (fun _ hall => AllSaved.update hall rfl fun heq => by cases heq) ?_
  · intro hok hagrees
    have hsound := ((hagrees.loaded hwp).2.save hok).1.sound.files
    rw [World.save_dir] at hsound
    exact hagrees.free hwp hchanged hsound rfl rfl rfl
  intro values hvalues hok
  obtain ⟨-, hfaithful, -⟩ := hvalues.loaded hwp
  obtain ⟨hafter, -, hheld⟩ := hfaithful.save hok
  have hready := hafter.ready
  rw [World.save_dir] at hready
  exact hvalues.free hwp hchanged hready hheld rfl rfl rfl

/-- A world that has no object is loaded. -/
theorem loadWorld_advance {name : Bytes} (hnone : s.Absent name) (hwp : s.objs wp = none) :
  Advance s (s.loadWorld name wp) []
  := by
  obtain ⟨-, -, -, hname⟩ := World.new_rest s.path name s.disk
  obtain ⟨hdb, hdisk⟩ := World.new_db s.path name s.disk
  obtain ⟨hfiles, hdirs, -⟩ := Database.new_spec (World.dirOf s.path name) s.disk
  obtain ⟨hwithin, hdir⟩ := Database.new_within ∅ (World.dirOf s.path name) s.disk
  have hload := @World.Faithful.new s.disk _ s.path name
  rw [← hdisk] at hfiles hdirs hwithin
  rw [← hdb] at hdir
  have hsame : ∀ name', Disk.SameIn (World.dirOf s.path name') s.disk
      (World.new s.path name s.disk).2 :=
    fun name' => ⟨fun _ => by rw [hfiles], by rw [hdirs]⟩
  refine Advance.silent rfl hwithin.intact rfl ?_ ?_ ?_ ?_
  · exact fun hsingle => Single.load hsingle (hname.symm ▸ hnone) rfl
  · intro _ hagrees
    have hreliable := World.Reliable.new (hagrees.filed name)
    exact hagrees.load (hname.symm ▸ hnone) (hname.symm ▸ hdir) hsame hreliable rfl rfl rfl
  · intro hok hall
    refine AllSaved.update hall rfl ?_
    rintro _ ⟨⟩
    exact World.clean_new hok
  intro values hvalues hok
  obtain ⟨hfaithful, hshows⟩ := hload (hvalues.filed hnone).1 hok
  exact hvalues.load (hname.symm ▸ hnone) hwp (hname.symm ▸ hdir) hsame hfaithful
    (hname.symm ▸ hshows) rfl rfl rfl

/-- The lists are in no directory of a world. -/
theorem writefiles_sameIn (s : Server) (name : Bytes) :
  (s.writefiles.disk.intact → s.disk.intact) ∧
    Disk.SameIn (World.dirOf s.path name) s.disk s.writefiles.disk
  := by
  have hlist : ∀ (d : Disk) (file : FileName) (ips : List Bytes),
      Disk.Within (Disk.filesIn []) [] d (writeList d file ips) := by
    intro d file ips
    have hput : writeList d file ips
        = Database.putFile d ([], file) (some (ips.map fun ip => ip ++ [10])) := rfl
    rw [hput]
    exact Database.within_putFile [] d (show ([], file) ∈ Disk.filesIn [] from rfl) _
  have hwithin : Disk.Within (Disk.filesIn []) [] s.disk s.writefiles.disk :=
    ((hlist _ _ _).trans (hlist _ _ _)).trans (hlist _ _ _)
  refine ⟨hwithin.intact, ?_⟩
  apply hwithin.sameIn
  rw [World.dirOf]
  exact List.append_ne_nil_of_right_ne_nil _ (by decide)

/-- The lists are written. -/
theorem writefiles_advance (s : Server) :
  Advance s s.writefiles []
  := Advance.same rfl (writefiles_sameIn s []).1 (fun name => (writefiles_sameIn s name).2) rfl rfl

/-! ### Moves and steps -/

omit [Platform] in
/-- A disconnection. -/
theorem drop_advance {ws : Ws} {si : SocketInfo} (h : s.Consistent) (hws : s.infos ws = some si) :
  Advance s (s.drop ws) []
  := by
  have hobjs : (fun wp => ((s.drop ws).objs wp).map World.stuff)
      = fun wp => (s.objs wp).map World.stuff := by
    funext wp
    obtain hsame | ⟨p, cl, w, -, -, -, hw, hlose⟩ := drop_objs h hws wp
    · rw [hsame]
    · have hstuff : (w.lose p cl.id).stuff = w.stuff := by
        rw [World.lose_rest]
        rfl
      rw [hlose, hw, Option.map_some, Option.map_some, hstuff]
  refine Advance.still ?_ ?_ ?_ hobjs
  · rw [drop_rest h hws]
  · rw [drop_rest h hws]
  · rw [drop_rest h hws, edits, edits]

/-- A small step. -/
theorem small_advance {D : Scope} {l : Label} (h : s.Consistent) (hl : Allowed D s l) :
  ∃ more, Advance s (l.step s) more
  := by
  cases hl with
  | send => exact ⟨[], Advance.still rfl rfl (edits_append rfl rfl) rfl⟩
  | gone => exact ⟨[], Advance.still rfl rfl (edits_append rfl rfl) rfl⟩
  | exec => exact ⟨[], Advance.still rfl rfl (edits_append rfl rfl) rfl⟩
  | setrank => exact ⟨[], Advance.still rfl rfl (edits_append rfl rfl) rfl⟩
  | change hp =>
      rw [Label.step, change_eq _ hp.1]
      exact ⟨[], Advance.still rfl rfl rfl rfl⟩
  | place hp =>
      obtain ⟨w, hw, -⟩ := h.world_of_live hp
      rw [Label.step, place_eq _ hp.1 hw]
      exact ⟨[], Advance.still rfl rfl rfl (Table.map_update_same hw rfl)⟩
  | act hwp => exact perform_advance _ hwp
  | drop hws => exact ⟨[], drop_advance h hws⟩
  | config => exact ⟨[], Advance.still rfl rfl rfl rfl⟩
  | lockdown => exact ⟨[], Advance.still rfl rfl rfl rfl⟩
  | lists => exact ⟨[], Advance.still rfl rfl rfl rfl⟩
  | eraseConns => exact ⟨[], Advance.still rfl rfl rfl rfl⟩
  | save hwp => exact ⟨[], saveWorld_advance hwp⟩
  | files => exact ⟨[], writefiles_advance s⟩

/-- A move that loads no world. -/
theorem Move.advances {D : Scope} {misuses connects loads : Prop}
    (hm : Move D misuses connects loads s s') (h : s.Consistent) (hloads : ¬ loads) :
  ∃ more, Advance s s' more
  := by
  cases hm with
  | small hl => exact small_advance h hl
  | misuse => exact ⟨[], Advance.still rfl rfl rfl rfl⟩
  | openWs => exact ⟨[], Advance.still rfl rfl rfl rfl⟩
  | countUp => exact ⟨[], Advance.still rfl rfl rfl rfl⟩
  | captcha => exact ⟨[], Advance.still rfl rfl rfl rfl⟩
  | join _ _ _ _ hwp => exact ⟨[], Advance.still rfl rfl rfl (Table.map_update_same hwp rfl)⟩
  | found hl => exact absurd hl hloads
  | @flush wp w hwp =>
      have hstuff : (w.sendUpdates s.infoOf).1.stuff = w.stuff := by
        obtain ⟨msg, heq, -⟩ := World.sendUpdates_spec w s.infoOf
        rw [heq, World.ticked]
        dsimp only
        split <;> rfl
      exact ⟨[], Advance.still rfl rfl rfl (Table.map_update_same hwp hstuff)⟩
  | freeClient => exact ⟨[], Advance.still rfl rfl rfl rfl⟩
  | @freeWorld i wp w hi hwp =>
      have hdelete := deleteWorld_advance (s := { s with pending := s.pending.eraseIdx i }) hwp
      rw [deleteWorld, withWorld_eq (s := { s with pending := s.pending.eraseIdx i }) _ hwp]
        at hdelete
      have hpending : Advance s { s with pending := s.pending.eraseIdx i } [] :=
        Advance.still rfl rfl rfl rfl
      exact ⟨[], hpending.trans hdelete⟩
  | dropServer => exact ⟨[], Advance.still rfl rfl rfl rfl⟩
  | close => exact ⟨[], Advance.still rfl rfl rfl rfl⟩
  | exit => exact ⟨[], Advance.still rfl rfl rfl rfl⟩
  | advance => exact ⟨[], Advance.still rfl rfl rfl rfl⟩
  | rehash => exact ⟨[], Advance.still rfl rfl rfl rfl⟩

/-- Moves that load no world. -/
theorem Moves.advances {D : Scope} {misuses connects loads : Prop}
    (hm : Moves D misuses connects loads s s') (h : s.Consistent) (hloads : ¬ loads) :
  ∃ more, Advance s s' more
  := by
  induction hm with
  | refl => exact ⟨[], Advance.refl s⟩
  | tail hmoves hstep ih =>
      obtain ⟨more, hfirst⟩ := ih
      obtain ⟨more', hlast⟩ := hstep.advances (Moves.consistent hmoves h) hloads
      exact ⟨more ++ more', hfirst.trans hlast⟩

/-! ### Loading -/

/-- In the step of an event that loads a world a connection joins it. -/
theorem step_joins {name : Bytes} {e : Event} (he : s.joins e = some name)
    (hname : s.worlds.lookup name = none) :
  ∃ ws si p wp msgs, s.objs wp = none ∧
    s.step e = ((s.loadWorld name wp).welcome ws si p wp (World.new s.path name s.disk).1).sent ws msgs
  := by
  cases e with
  | message ws oc msg p wp =>
      rw [joins] at he
      split at he
      case h_2 => cases he
      case h_1 si hsi =>
        split at he
        case isFalse => cases he
        case isTrue hjoins =>
          obtain ⟨hexited, hp, hwp, hplayer, hcaptcha, hoc, hmin, hmax, hchars⟩ := hjoins
          obtain rfl := Option.some.inj he
          have hw : (s.loadWorld (msg.take (msg.length - 2)) wp).objs wp
              = some (World.new s.path (msg.take (msg.length - 2)) s.disk).1 :=
            Function.update_self _ _ _
          have hws : (s.loadWorld (msg.take (msg.length - 2)) wp).infos ws = some si := hsi
          obtain ⟨msgs, heq⟩ := enter_sent p hws hw
          refine ⟨ws, si, p, wp, msgs, hwp, ?_⟩
          rw [← heq, step.eq_def, hexited, if_neg Bool.false_ne_true]
          dsimp only
          rw [if_pos ⟨by rw [hsi]; rfl, hp, hwp⟩, onMessage, withInfo_eq _ hsi, hplayer]
          dsimp only
          rw [if_pos ⟨hcaptcha, hoc, hmin, hmax⟩, joinWorld, if_neg (not_not.mpr hchars), hname]
  | _ => cases he

/-- A world waits for its deletion. -/
def waits (s : Server) (name : Bytes) : Bool :=
  s.pending.any fun c =>
    match c with
    | .world wp => (s.objs wp).any fun w => w.name = name
    | _ => false

/-- In the step of an event a connection joins, by its name, a world that waits for its deletion. -/
def revives (s : Server) (e : Event) : Bool := (s.joins e).any s.waits

omit [Platform] in
/-- An object of a world that is not loaded waits for its deletion. -/
theorem Consistent.waits (h : s.Consistent) (hwp : s.objs wp = some w)
    (hname : s.worlds.lookup w.name ≠ some wp) :
  s.waits w.name = true
  := by
  have hclients : w.clients = [] := by
    by_contra hne
    exact hname (h.registry.worlds_of_room (registry_room.mpr ⟨w, hwp, rfl⟩) hne)
  have hpending : Callback.world wp ∈ s.pending :=
    h.registry.mem_pending_world.mpr ⟨w.room, registry_room.mpr ⟨w, hwp, rfl⟩, hclients⟩
  rw [Server.waits, List.any_eq_true]
  refine ⟨.world wp, hpending, ?_⟩
  dsimp only
  rw [hwp, Option.any_some, decide_eq_true_eq]

omit [Platform] in
/-- A world that waits for its deletion has an object, which is not that of a loaded world. -/
theorem Consistent.exists_of_waits {name : Bytes} (h : s.Consistent) (hwaits : s.waits name = true) :
  ∃ wp w, s.objs wp = some w ∧ w.name = name ∧ w.clients = []
  := by
  rw [Server.waits, List.any_eq_true] at hwaits
  obtain ⟨c, hc, hname⟩ := hwaits
  cases c with
  | world wp =>
      obtain ⟨w, hw, hname⟩ := (Option.any_eq_true _ _).mp hname
      obtain ⟨r, hr, hclients⟩ := h.registry.mem_pending_world.mp hc
      obtain ⟨w', hw', rfl⟩ := registry_room.mp hr
      obtain rfl : w = w' := Option.some.inj (hw.symm.trans hw')
      exact ⟨wp, w, hw, of_decide_eq_true hname, hclients⟩
  | client | server => cases hname

/-- A step in which no world is joined by its name that waits for its deletion. -/
theorem step_advance {e : Event} (h : s.Consistent) (he : s.revives e = false) :
  ∃ more, Advance s (s.step e) more
  := by
  by_cases hloads : s.loads e
  · obtain ⟨name, hjoins, hname⟩ := hloads
    have hwaits : s.waits name = false := by
      rw [revives, hjoins, Option.any_some] at he
      exact he
    have hnone : s.Absent name := by
      rintro wp w hw rfl
      rw [h.waits hw (by rw [hname]; exact fun heq => by cases heq)] at hwaits
      cases hwaits
    obtain ⟨ws, si, p, wp, msgs, hwp, hstep⟩ := step_joins hjoins hname
    have hentered : Advance (s.loadWorld name wp)
        ((s.loadWorld name wp).welcome ws si p wp (World.new s.path name s.disk).1) [] :=
      Advance.still rfl rfl rfl (Table.map_update_same (Function.update_self _ _ _) rfl)
    have hsent : Advance ((s.loadWorld name wp).welcome ws si p wp (World.new s.path name s.disk).1)
        (s.step e) [] := by
      rw [hstep]
      refine Advance.still rfl rfl (edits_append rfl ?_) rfl
      apply List.filterMap_eq_nil_iff.mpr
      intro a ha
      obtain ⟨m, -, rfl⟩ := List.mem_map.mp ha
      rfl
    exact ⟨_, ((loadWorld_advance hnone hwp).trans hentered).trans hsent⟩
  · obtain ⟨b, hmoves⟩ := step_moves e h
    exact hmoves.advances h hloads

/-! ### Runs -/

/-- Making a server changes no file. -/
theorem new_sameIn (modpw adminpw path : Bytes) (d : Disk) (clock : ℚ) (dir : Bytes) :
  Disk.SameIn dir d (Server.new modpw adminpw path d clock).disk
  := by
  have hread : ∀ (d : Disk) (file : FileName) (ips : List Bytes),
      (readList d file ips).2.files = d.files ∧ (readList d file ips).2.dirs = d.dirs :=
    fun d file _ => d.readFile_same ([], file)
  obtain ⟨hfiles₁, hdirs₁⟩ := hread d .bans []
  obtain ⟨hfiles₂, hdirs₂⟩ := hread (readList d .bans []).2 .whitelist []
  obtain ⟨hfiles₃, hdirs₃⟩ := hread (readList (readList d .bans []).2 .whitelist []).2 .blacklist []
  constructor
  case files =>
    intro file
    exact congrFun (hfiles₃.trans (hfiles₂.trans hfiles₁)) _
  case dirs => exact congrFun (hdirs₃.trans (hdirs₂.trans hdirs₁)) _

/-- A server that has just been made has no objects. -/
theorem agrees_new (modpw adminpw path : Bytes) (d : Disk) (clock : ℚ)
    (hfiles : ∀ name, Database.Sound (World.dirOf (path ++ Bytes.ofString "/") name) d) :
  (Server.new modpw adminpw path d clock).Agrees
  := by
  constructor
  case single =>
    intro wp wp' w w' hw
    cases hw
  case loaded =>
    intro wp w hw
    cases hw
  case filed =>
    intro name
    exact Database.sound_sameIn (hfiles name) (new_sameIn modpw adminpw path d clock _)

/-- What the objects remember about their files is so in every run from well-formed region files in
which no world is joined, by its name, while an object of it waits for its deletion, as long as no
file operation fails. -/
theorem agrees_runs {modpw adminpw path : Bytes} {clock : ℚ} {events : List Event}
    (hfiles : ∀ name, Database.Sound (World.dirOf (path ++ Bytes.ofString "/") name) d)
    (hevents : Runs.Along step (fun s e => s.revives e = false)
      (Server.new modpw adminpw path d clock) events)
    (hok : ((Server.new modpw adminpw path d clock).runs events).disk.intact) :
  ((Server.new modpw adminpw path d clock).runs events).Agrees
  := by
  have hruns := hevents.always (P := fun s => s.Consistent ∧ (s.disk.intact → s.Agrees))
    ⟨consistent_new modpw adminpw path d clock,
      fun _ => agrees_new modpw adminpw path d clock hfiles⟩
    fun s e h he => by
      obtain ⟨more, hadvance⟩ := step_advance h.1 he
      refine ⟨h.1.event e, fun hok' => hadvance.agrees hok' (h.2 (hadvance.intact hok'))⟩
  exact hruns.last.2 hok

end Server

end Owop
