import OwopServer.Database.Props
import OwopServer.World.Cache

/-!
# Loading, saving and unloading worlds

A world is loaded with what the files of its directory hold.  Saving it, and unloading it,
makes them hold what it shows.
-/

namespace Owop

open Database (stored)

namespace World

/-- Reloading the properties changes what depends on them. -/
theorem reload_rest (w : World) :
  (w.reload).1 = { w with
    pass := w.reload.1.pass, paintrate := w.reload.1.paintrate, bgclr := w.reload.1.bgclr }
  := by
  rw [reload]
  split
  · rfl
  · dsimp only
    split
    · rfl
    · rfl

/-- What `reload` sets depends on the properties only. -/
theorem reload_congr {w w' : World} (hbg : w'.bgclr = w.bgclr)
    (h : w'.db.worldProps = w.db.worldProps) :
  w'.reload.1.bgclr = w.reload.1.bgclr
  := by
  have hprop : ∀ key defval, w'.getProp key defval = w.getProp key defval := by
    intro key defval
    rw [World.getProp, World.getProp, Database.getProp, Database.getProp, h]
  have hprop' : ∀ v : World, ∀ pass : Bytes, ∀ key defval,
      World.getProp { v with pass := pass } key defval = v.getProp key defval :=
    fun _ _ _ _ => rfl
  have hprop'' : ∀ v : World, ∀ (pass : Bytes) (rate : UInt16), ∀ key defval,
      World.getProp { v with pass := pass, paintrate := rate } key defval = v.getProp key defval :=
    fun _ _ _ _ _ => rfl
  rw [reload, reload]
  simp only [hprop', hprop'', hprop]
  split
  · exact hbg
  · split
    · exact hbg
    · rfl

variable [Platform]

theorem new_db (path name : Bytes) (d : Disk) :
  (new path name d).1.db = (Database.new (dirOf path name) d).1 ∧
    (new path name d).2 = (Database.new (dirOf path name) d).2
  := by
  rw [new]
  generalize Database.new (dirOf path name) d = made
  obtain ⟨db, d'⟩ := made
  dsimp only
  rw [reload_rest]
  exact ⟨rfl, rfl⟩

/-- The world that is loaded has no chunks, no clients and nothing to send. -/
theorem new_rest (path name : Bytes) (d : Disk) :
  (new path name d).1.chunks = ∅ ∧ (new path name d).1.clients = [] ∧
    (new path name d).1.pxupdates = [] ∧ (new path name d).1.name = name
  := by
  rw [new]
  generalize Database.new (dirOf path name) d = made
  obtain ⟨db, d'⟩ := made
  dsimp only
  rw [reload_rest]
  exact ⟨rfl, rfl, rfl, rfl⟩

/-- Loading a world changes no file. -/
theorem new_same (path name : Bytes) (d : Disk) :
  (new path name d).2.files = d.files ∧ (new path name d).2.dirs = d.dirs
  := by
  obtain ⟨-, hd⟩ := new_db path name d
  obtain ⟨hfiles, hdirs, -⟩ := Database.new_spec (dirOf path name) d
  rw [hd]
  exact ⟨hfiles, hdirs⟩

theorem new_dir (path name : Bytes) (d : Disk) :
  (new path name d).1.db.dir = dirOf path name
  := by
  rw [(new_db path name d).1, (Database.new_within ∅ (dirOf path name) d).2]

/-- A world loaded from sound files is sound and shows what they hold. -/
theorem new_sound (path name : Bytes) {d : Disk} (h : Database.Sound (dirOf path name) d) :
  Sound (new path name d).1 (new path name d).2 ∧
    (new path name d).1.view (new path name d).2 = stored (dirOf path name) d
  := by
  obtain ⟨hdb, hd⟩ := new_db path name d
  obtain ⟨hchunks, -⟩ := new_rest path name d
  have hdir := new_dir path name d
  have hfiles := (new_same path name d).1
  have hnone : ∀ pos, (new path name d).1.chunks.lookup pos = none := by
    intro pos
    rw [hchunks, AList.lookup_empty]
  have hlines : ∀ pos, ((new path name d).1.cache (new path name d).2).lines pos = none := by
    intro pos
    rw [cache_lines, hnone, Option.map_none]
  refine ⟨⟨?_, ?_, ?_, ?_, ?_⟩, ?_⟩
  · rw [hdb, hd]
    exact Database.Fits.new (dirOf path name) d
  · intro rx ry f hf
    rw [hdir, hfiles] at hf
    exact h rx ry f hf
  · intro pos l hl
    rw [hlines] at hl
    cases hl
  · intro pos c hc
    rw [hnone] at hc
    cases hc
  · intro pos c hc
    rw [hnone] at hc
    cases hc
  · funext pos
    rw [view, WriteBack.view_of_none (hlines pos), cache_store, hdir, Database.stored,
      Database.stored, hfiles]

/-- The background colour depends on the properties that are loaded. -/
theorem new_bgclr {path name : Bytes} {d d' : Disk}
    (h : (Database.new (dirOf path name) d').1.worldProps
      = (Database.new (dirOf path name) d).1.worldProps) :
  (new path name d').1.bgclr = (new path name d).1.bgclr
  := by
  rw [new, new]
  generalize Database.new (dirOf path name) d = made at h ⊢
  generalize Database.new (dirOf path name) d' = made' at h ⊢
  exact reload_congr rfl h

/-! ### Changes elsewhere -/

omit [Platform] in
/-- A world depends on the region files of its directory only. -/
theorem Sound.elsewhere {w : World} {d d' : Disk} (h : Sound w d)
    (hfiles : ∀ rx ry, d'.files (w.db.dir, .region rx ry) = d.files (w.db.dir, .region rx ry))
    (hdirs : d'.dirs w.db.dir = d.dirs w.db.dir) :
  Sound w d' ∧ w.cache d' = w.cache d
  := by
  have hstored : stored w.db.dir d' = stored w.db.dir d := by
    funext c
    rw [stored, stored, hfiles]
  have hcache : w.cache d' = w.cache d := by rw [cache, cache, hstored]
  refine ⟨⟨⟨?_, ?_, ?_⟩, ?_, ?_, h.keyed, h.ranked⟩, hcache⟩
  · rw [h.fits.created, hdirs]
  · intro r good hl
    rw [Database.regionPath, hfiles]
    exact h.fits.handles r good hl
  · intro r hr
    rw [Database.regionPath, hfiles]
    exact h.fits.nonexistant r hr
  · intro rx ry f hf
    rw [hfiles] at hf
    exact h.files rx ry f hf
  · rw [hcache]
    exact h.coherent

/-- Writing the properties does not change the chunks. -/
theorem Sound.saveProps {w : World} {d : Disk} (h : Sound w d) (hok : (w.db.save d).2.intact) :
  Sound { w with db := (w.db.save d).1 } (w.db.save d).2 ∧
    cache { w with db := (w.db.save d).1 } (w.db.save d).2 = w.cache d
  := by
  obtain ⟨hdirs, -⟩ := Database.save_spec hok
  have hwithin := Database.save_within w.db d
  have hregions : ∀ rx ry, (w.db.save d).2.files (w.db.dir, .region rx ry)
      = d.files (w.db.dir, .region rx ry) :=
    fun rx ry => hwithin.files _ (by simp [Disk.propFiles])
  obtain ⟨hs, hcache⟩ := h.elsewhere hregions (by rw [hdirs])
  rw [Database.save_fst]
  refine ⟨⟨⟨hs.fits.created, hs.fits.handles, hs.fits.nonexistant⟩, hs.files, hs.coherent, hs.keyed,
    hs.ranked⟩, hcache⟩

/-! ### Saving and unloading -/

/-- What saving a world leaves alone. -/
theorem save_frame (w : World) (d : Disk) :
  ∃ db chunks, (w.save d).1 = { w with
      db := { db with changedPropsOrProtects := false }, chunks := chunks } ∧
    Database.SameProps w.db db ∧
    (∀ pos c', chunks.lookup pos = some c' →
      (∃ c, w.chunks.lookup pos = some c ∧ c'.bgclr = c.bgclr) ∨ c'.bgclr = w.bgclr) ∧
    Disk.Within (Disk.regionFiles w.db.dir ∪ Disk.propFiles w.db.dir) w.db.dir d (w.save d).2
  := by
  have hframe := foldl_saveChunk_frame w.chunks.keys (w, d)
  rw [save]
  generalize w.chunks.keys.foldl saveChunk (w, d) = saved at hframe ⊢
  obtain ⟨w₁, d₁⟩ := saved
  have hwithin := Database.save_within w₁.db d₁
  rw [hframe.db.props.dir] at hwithin
  refine ⟨w₁.db, w₁.chunks, ?_, hframe.db.props, hframe.blank, ?_⟩
  · have hrest : w₁ = { w with db := w₁.db, chunks := w₁.chunks } := hframe.rest
    dsimp only
    rw [Database.save_fst]
    conv_lhs => rw [hrest]
  · exact (hframe.db.within.mono Set.subset_union_left).trans
      (hwithin.mono Set.subset_union_right)

theorem save_dir (w : World) (d : Disk) :
  (w.save d).1.db.dir = w.db.dir
  := by
  obtain ⟨db, chunks, heq, hprops, -⟩ := save_frame w d
  rw [heq]
  exact hprops.dir

/-- Saving keeps what the world shows, and the region files hold it. -/
theorem save_spec {w : World} {d : Disk} (h : Sound w d) (hok : (w.save d).2.intact) :
  Sound (w.save d).1 (w.save d).2 ∧ (w.save d).1.view (w.save d).2 = w.view d ∧
    stored w.db.dir (w.save d).2 = w.view d
  := by
  have hdir := save_dir w d
  rw [save] at hok hdir ⊢
  generalize hsaved : w.chunks.keys.foldl saveChunk (w, d) = saved at hok hdir ⊢
  obtain ⟨w₁, d₁⟩ := saved
  dsimp only at hok hdir ⊢
  have hok' : d₁.intact := (Database.save_within w₁.db d₁).intact hok
  obtain ⟨hs, hcache⟩ := foldl_saveChunk_spec w.chunks.keys h (by rw [hsaved]; exact hok')
  have hstored := stored_foldl_saveChunk h (by rw [hsaved]; exact hok')
  have hframe := foldl_saveChunk_frame w.chunks.keys (w, d)
  rw [hsaved] at hs hcache hstored hframe
  obtain ⟨hs', hcache'⟩ := hs.saveProps hok
  refine ⟨hs', ?_, ?_⟩
  · rw [view, hcache', hcache, WriteBack.view_flushAll, view]
  · have hstore := congrArg WriteBack.store hcache'
    rw [cache_store, cache_store, hframe.db.props.dir, hstored, hdir] at hstore
    exact hstore

/-- Unloading a world leaves the files as saving it does. -/
theorem delete_eq (w : World) (d : Disk) :
  w.delete d = (w.save d).2
  := rfl

/-- After unloading a world the region files hold what it showed. -/
theorem delete_spec {w : World} {d : Disk} (h : Sound w d) (hok : (w.delete d).intact) :
  Database.Sound w.db.dir (w.delete d) ∧ stored w.db.dir (w.delete d) = w.view d
  := by
  rw [delete_eq] at hok ⊢
  obtain ⟨hs, -, hstored⟩ := save_spec h hok
  refine ⟨?_, hstored⟩
  rw [← save_dir w d]
  exact hs.files

/-- Without changed properties saving a world leaves the files of the properties alone. -/
theorem save_props {w : World} {d : Disk} (h : w.db.changedPropsOrProtects = false) :
  (w.save d).2.files (w.db.dir, .props) = d.files (w.db.dir, .props)
  := by
  have hframe := foldl_saveChunk_frame w.chunks.keys (w, d)
  rw [save]
  generalize w.chunks.keys.foldl saveChunk (w, d) = saved at hframe ⊢
  obtain ⟨w₁, d₁⟩ := saved
  dsimp only
  rw [Database.save_eq, if_neg]
  · exact hframe.db.within.files _ (by simp [Disk.regionFiles])
  · rw [hframe.db.props.changed, h]
    simp

end World

end Owop
