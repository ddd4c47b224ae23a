import OwopServer.Server.Effects
import OwopServer.Server.Worlds
import OwopServer.World.Failures

/-!
# What a world has not saved

A chunk and the properties are marked as changed until they are saved.  The mark is removed before
anything is written, and what is written with failures is not marked again.  So what is not marked
is in the files as long as nothing fails that saves it; failures to read a chunk do no harm.
-/

namespace Owop

open Bytes (ofString)
open Database (stored)

/-- The position of the chunk a change is about. -/
def Edit.chunk? : Edit → Option ChunkPos
  | .px x y _ => some (chunkOf x, chunkOf y)
  | .chunk cx cy _ => some (cx, cy)
  | .prop _ _ => none
  | .protect _ _ _ => none

/-- The files, when what failed before is forgotten. -/
def Disk.calm (d : Disk) : Disk := { d with intact := true }

/-- A world while it is loaded, the files, and the chunks that were changed after they were
loaded. -/
structure Session where
  world : World
  disk : Disk
  touched : List ChunkPos

namespace Session

variable [Platform]

/-- A world has been loaded. -/
def load (path name : Bytes) (d : Disk) : Session :=
  let (w, d) := World.new path name d.calm
  ⟨w, d, []⟩

/-- The session after an operation on the world.  What fails during it is noted in the files. -/
def step (s : Session) (op : Deed) : Session :=
  match op with
  | .act a =>
      let (w, d, _, edits) := a.run s.world s.disk.calm
      ⟨w, d, edits.filterMap Edit.chunk? ++ s.touched.filter fun pos => pos ∈ s.world.chunks⟩
  | .save =>
      let (w, d) := s.world.save s.disk.calm
      { s with world := w, disk := d }
  | op => { s with world := s.world.apply s.disk.calm op, disk := s.disk.calm }

/-- What was changed of the chunks that are loaded is stored. -/
def Stored (s : Session) : Prop :=
  ∀ pos ∈ s.touched, ∀ c, s.world.chunks.lookup pos = some c →
    stored s.world.db.dir s.disk pos = some c.data

/-- The files hold the properties and the protections. -/
def Recorded (s : Session) : Prop :=
  Database.Recorded s.world.db.dir s.disk s.world.db.worldProps s.world.db.rankedChunks

/-- What is not marked as changed is in the files.  So a save that succeeds stores everything. -/
structure Marked (s : Session) : Prop where
  chunks : ∀ pos ∈ s.touched, ∀ c, s.world.chunks.lookup pos = some c → c.changed = false →
    stored s.world.db.dir s.disk pos = some c.data
  props : s.world.db.changedPropsOrProtects = false → s.Recorded
  save : (s.step .save).disk.intact → (s.step .save).Stored ∧ (s.step .save).Recorded

/-- No file operation fails that saves a changed chunk or the properties, and no property is set
that is not of one line. -/
def Succeeds (s : Session) : Deed → Prop
  | .act a =>
      (∀ w pos, a.wants s.world = some (w, pos) → (w.roomFor s.disk.calm pos).intact) ∧
        ∀ key value, a = .setProp key value → value = [] ∨ Database.OneLine ⟨key, value⟩
  | .save => (s.step .save).disk.intact
  | _ => True

theorem succeeds_save (s : Session) :
  s.Succeeds .save ↔ (s.step .save).disk.intact
  := Iff.rfl

/-- What is known of a session without such a failure. -/
def Kept (s : Session) : Prop := s.world.Kept s.disk { pos | pos ∈ s.touched }

/-! ### One operation -/

variable {s : Session}

omit [Platform] in
theorem Kept.calm (h : s.Kept) :
  s.world.Kept s.disk.calm { pos | pos ∈ s.touched }
  := World.Kept.same h ⟨rfl, rfl⟩

/-- A save that succeeds. -/
theorem Kept.save (h : s.Kept) (hok : (s.step .save).disk.intact) :
  (s.step .save).Kept
  := h.calm.save hok

omit [Platform] in
/-- The chunks changed by an operation, when it was asked for one. -/
theorem touched_eq (s : Session) (edits : List Edit) :
  { pos | pos ∈ edits.filterMap Edit.chunk? ++ s.touched.filter fun pos => pos ∈ s.world.chunks }
    = { pos | pos ∈ edits.filterMap Edit.chunk? } ∪
      { pos ∈ { pos | pos ∈ s.touched } | pos ∈ s.world.chunks }
  := by
  ext pos
  simp

/-- What is asked of a world, when nothing fails that makes room for a chunk. -/
theorem Kept.act (h : s.Kept) {a : WorldAct} (hok : s.Succeeds (.act a)) :
  (s.step (.act a)).Kept
  := by
  obtain ⟨hroom, hline⟩ := hok
  have hsub : { pos ∈ { pos | pos ∈ s.touched } | pos ∈ s.world.chunks }
      ⊆ { pos | pos ∈ s.touched } := fun _ hpos => hpos.1
  have heffect := a.effect s.world s.disk.calm
  rw [Kept, step]
  dsimp only
  rw [touched_eq]
  generalize a.run s.world s.disk.calm = done at heffect ⊢
  cases heffect with
  | @rest w' outs hw' hrank =>
      have hrest : World.Kept w' s.disk.calm
          { pos ∈ { pos | pos ∈ s.touched } | pos ∈ s.world.chunks } := by
        rw [hw']
        exact (h.calm.mono hsub).congr rfl rfl
      simpa using hrest
  | prop ha =>
      have hset := (h.calm.mono hsub).setProp (hline _ _ ha)
      simpa [Edit.chunk?] using hset
  | look ha => simpa using h.calm.getChunk (hroom _ _ ha)
  | chunk data ha hrange hgot =>
      have hput := h.calm.change (hroom _ _ ha) hgot data
      simpa [Edit.chunk?] using hput
  | @pixel x y c w' d' clr ha hrange hgot =>
      have hput := (h.calm.change (hroom _ _ ha) hgot
        (c.data.setPx (low4 x) (low4 y) clr)).schedule ⟨x, y, clr.r, clr.g, clr.b⟩
      have hpos : { pos | pos ∈ [Edit.px x y clr].filterMap Edit.chunk? }
          = {(chunkOf x, chunkOf y)} := by
        ext pos
        simp [Edit.chunk?]
      rw [hpos]
      exact hput
  | @outside x y state =>
      have hset : World.Kept { s.world with db := s.world.db.setChunkProtection x y state }
          s.disk.calm { pos ∈ { pos | pos ∈ s.touched } | pos ∈ s.world.chunks } :=
        (h.calm.mono hsub).setDb _ h.calm.settled.oneLine
      simpa [Edit.chunk?] using hset
  | @protect x y state c w' d' outs ha hrange hgot =>
      have hset : World.Kept { s.world with db := s.world.db.setChunkProtection x y state }
          s.disk.calm { pos | pos ∈ s.touched } :=
        h.calm.setDb _ h.calm.settled.oneLine
      have hget := hset.getChunk (hroom _ _ ha)
      rw [hgot] at hget
      simpa [Edit.chunk?] using hget.mark (World.lookup_getChunk hgot).1 state

/-- An operation during which nothing fails that saves something. -/
theorem Kept.step (h : s.Kept) {op : Deed} (hok : s.Succeeds op) :
  (s.step op).Kept
  := by
  cases op with
  | act a => exact h.act hok
  | move p => exact h.calm.congr rfl rfl
  | enter p => exact h.calm.congr rfl rfl
  | leave p id =>
      have hleft : World.Kept (s.world.lose p id) s.disk.calm { pos | pos ∈ s.touched } := by
        rw [World.lose_rest]
        exact h.calm.congr rfl rfl
      exact hleft
  | tick info =>
      obtain ⟨msg, heq, -⟩ := World.sendUpdates_spec s.world info
      have hticked : World.Kept (s.world.sendUpdates info).1 s.disk.calm
          { pos | pos ∈ s.touched } := by
        rw [heq, World.ticked]
        dsimp only
        split <;> exact h.calm.congr rfl rfl
      exact hticked
  | save => exact h.save hok

/-! ### Runs -/

/-- Then what is not marked as changed is in the files. -/
theorem Kept.marked (h : s.Kept) :
  s.Marked
  := by
  have hstored : ∀ {s : Session}, s.Kept → ∀ pos ∈ s.touched, ∀ c,
      s.world.chunks.lookup pos = some c → c.changed = false →
        stored s.world.db.dir s.disk pos = some c.data := by
    intro s h pos hpos c hc hclean
    have hline : (s.world.cache s.disk).lines pos
        = some ⟨c.data, Data.fill c.bgclr, c.changed⟩ := by
      rw [World.cache_lines, hc, Option.map_some]
    exact h.stores pos hpos _ hline hclean
  constructor
  case chunks => exact hstored h
  case props => exact h.settled.recorded
  case save =>
    intro hok
    have hsaved := h.save hok
    constructor
    · intro pos hpos c hc
      exact hstored hsaved pos hpos c hc (World.save_unchanged _ _ hc)
    · apply hsaved.settled.recorded
      obtain ⟨db, chunks, heq, -⟩ := World.save_frame s.world s.disk.calm
      show (s.world.save s.disk.calm).1.db.changedPropsOrProtects = false
      rw [heq]

/-- In every run of a world from well-formed files, whatever fails to be read of its chunks, what is
not marked as changed is in the files, provided that nothing fails that reads its properties when
it is loaded or that saves a changed chunk or the properties, and each property set is of one
line. -/
theorem marked_runs (path name : Bytes) (d : Disk) (ops : List Deed)
    (hfiles : Database.Sound (World.dirOf path name) d)
    (hbare : ∀ file, d.dirs (World.dirOf path name) = false →
      d.files (World.dirOf path name, file) = none)
    (hload : (load path name d).disk.intact)
    (hops : Runs.Along step Succeeds (load path name d) ops) :
  Runs.Always step Marked (load path name d) ops
  := by
  have hkept : (load path name d).Kept := by
    have hnew := @World.kept_new d.calm _ path name hfiles
      (fun hdir => ⟨hbare .props hdir, hbare .pchunks hdir⟩) hload
    exact hnew.mono (fun pos hpos => absurd hpos List.not_mem_nil)
  exact (hops.always hkept fun s op h hok => h.step hok).mono fun s h => h.marked

/-- A world without a directory. -/
def nowhere : Disk := Disk.empty fun _ => false

/-- A property is set, and the world saved. -/
def greeting : List Deed := [.act (.setProp (ofString "motd") (ofString "hi")), .save]

omit [Platform] in
/-- The property of a world that has no directory yet is not saved, but no longer marked. -/
theorem not_marked_greeting :
  ¬ ∀ [Platform] (path name : Bytes) (d : Disk) (ops : List Deed),
    Database.Sound (World.dirOf path name) d →
      (∀ file, d.dirs (World.dirOf path name) = false →
        d.files (World.dirOf path name, file) = none) →
      Runs.Always step Marked (load path name d) ops
  := by
  intro h
  have hmarked := (@h Platform.quiet [] (ofString "w") nowhere greeting
    (fun _ _ _ hf => by cases hf) (fun _ _ => rfl)).last
  have hprops := (@Marked.props Platform.quiet _ hmarked (by decide +kernel)).props (ofString "motd")
  exact absurd hprops (by decide +kernel)

/-- A pixel is placed, a property set, and the world saved. -/
def drawing : List Deed :=
  [.act (.putPx 0 0 ⟨255, 0, 0⟩ .user), .act (.setProp (ofString "motd") (ofString "hi")), .save]

omit [Platform] in
/-- A world that is drawn on gets a directory, and its property is saved. -/
theorem marked_runs_drawing :
  let _ := Platform.quiet
  Runs.Always step Marked (load [] (ofString "w") nowhere) drawing
  := by
  let _ := Platform.quiet
  apply marked_runs
  · intro rx ry f hf
    cases hf
  · exact fun _ _ => rfl
  · decide +kernel
  · rw [drawing, Runs.along_cons, Runs.along_cons, Runs.along_cons]
    refine ⟨⟨?_, by simp⟩, ⟨by simp [WorldAct.wants], ?_⟩, ?_, Runs.along_nil⟩
    · rintro w pos ⟨⟩
      decide +kernel
    · rintro key value ⟨⟩
      exact Or.inr ⟨by decide +kernel, by decide +kernel, by decide +kernel⟩
    · exact (succeeds_save _).mpr (by decide +kernel)

end Session

end Owop
