import OwopServer.Database.Failures
import OwopServer.World.Loading

/-!
# A world when file operations fail

A chunk whose data could not be read is filled with the background, or with a part of what it was.
So a loaded chunk that is not marked as changed need not have the stored data; but it has them if
it was changed after it was loaded, as long as no operation has failed that saved a chunk.
-/

namespace Owop

open Database (stored)

namespace World

variable {w w' : World} {d d' : Disk} {t : Set ChunkPos} {pos : ChunkPos} {c : Chunk}

/-- What a world knows of its files when its chunks at `t` were changed after they were loaded. -/
structure Kept (w : World) (d : Disk) (t : Set ChunkPos) : Prop where
  grounded : Grounded (fun _ => True) w d
  stores : (w.cache d).Stores t
  settled : Database.Settled w.db d

theorem Kept.mono {t' : Set ChunkPos} (h : Kept w d t) (ht : t' ⊆ t) :
  Kept w d t'
  := ⟨h.grounded, h.stores.mono ht, h.settled⟩

/-- The database and the loaded chunks are all that matters. -/
theorem Kept.congr (h : Kept w d t) (hdb : w'.db = w.db) (hc : w'.chunks = w.chunks) :
  Kept w' d t
  := by
  have hcache : w'.cache d = w.cache d := by rw [cache, cache, hdb, hc]
  refine ⟨⟨?_, ?_, ?_⟩, ?_, ?_⟩
  · rw [hdb]
    exact h.grounded.knows
  · rw [hdb]
    exact h.grounded.files
  · rw [hc]
    exact h.grounded.keyed
  · rw [hcache]
    exact h.stores
  · rw [hdb]
    exact h.settled

/-- A pixel that waits to be sent does not matter. -/
theorem Kept.schedule (h : Kept w d t) (px : PixUpd) :
  Kept (schedUpdates { w with pxupdates := w.pxupdates ++ [px] }) d t
  := h.congr rfl rfl

/-- The files and directories are all that matters. -/
theorem Kept.same (h : Kept w d t) (hsame : Disk.Same d d') :
  Kept w d' t
  := by
  have hcache : w.cache d' = w.cache d := by
    apply WriteBack.ext
    · rfl
    · funext pos
      rw [cache_store, cache_store, stored, stored, hsame.files]
  have haware : Database.Aware w.db d := h.grounded.knows
  refine ⟨⟨haware.same hsame, ?_, h.grounded.keyed⟩, ?_, h.settled.same hsame⟩
  · intro rx ry f hf
    rw [hsame.files] at hf
    exact h.grounded.files rx ry f hf
  · rw [hcache]
    exact h.stores

/-! ### Changes -/

/-- Changing the data of a loaded chunk. -/
theorem Kept.put (h : Kept w d t) (hc : w.chunks.lookup pos = some c) (data : Data) :
  Kept (w.putChunk pos { c with data := data, changed := true }) d (insert pos t)
  := by
  refine ⟨⟨h.grounded.knows, h.grounded.files, ?_⟩, ?_, h.settled⟩
  · intro pos' c' hc'
    rw [World.putChunk, lookup_insert] at hc'
    split at hc'
    case isTrue hp =>
      rw [hp]
      cases hc'
      exact h.grounded.keyed pos c hc
    case isFalse => exact h.grounded.keyed pos' c' hc'
  · rw [cache_putChunk d hc]
    exact h.stores.put pos data

/-- Marking a loaded chunk as protected, or not. -/
theorem Kept.mark (h : Kept w d t) (hc : w.chunks.lookup pos = some c) (state : Bool) :
  Kept (w.putChunk pos { c with ranked := state }) d t
  := by
  refine ⟨⟨h.grounded.knows, h.grounded.files, ?_⟩, ?_, h.settled⟩
  · intro pos' c' hc'
    rw [World.putChunk, lookup_insert] at hc'
    split at hc'
    case isTrue hp =>
      rw [hp]
      cases hc'
      exact h.grounded.keyed pos c hc
    case isFalse => exact h.grounded.keyed pos' c' hc'
  · rw [cache_mark d hc]
    exact h.stores

/-- Changing the properties or the protections. -/
theorem Kept.setDb (h : Kept w d t) {props : AList fun _ : Bytes => Bytes} (ranked : List ChunkPos)
    (hline : ∀ p ∈ props.entries, Database.OneLine p) :
  Kept { w with db := { w.db with
    worldProps := props, rankedChunks := ranked, changedPropsOrProtects := true } } d t
  := by
  obtain ⟨hcreated, hhandles, hnone⟩ := h.grounded.knows
  exact ⟨⟨⟨hcreated, hhandles, hnone⟩, h.grounded.files, h.grounded.keyed⟩, h.stores,
    h.settled.change rfl hline rfl⟩

/-- Setting a property of one line, or removing one. -/
theorem Kept.setProp (h : Kept w d t) {key value : Bytes}
    (hline : value = [] ∨ Database.OneLine ⟨key, value⟩) :
  Kept (w.setProp key value) d t
  := h.setDb _ (h.settled.setProp hline).oneLine

variable [Platform]

/-- A world loaded from well-formed files, when nothing fails to be read. -/
theorem kept_new {path name : Bytes} (hfiles : Database.Sound (dirOf path name) d)
    (hbare : d.dirs (dirOf path name) = false →
      d.files (dirOf path name, .props) = none ∧ d.files (dirOf path name, .pchunks) = none)
    (hok : (new path name d).2.intact) :
  Kept (new path name d).1 (new path name d).2 ∅
  := by
  obtain ⟨hsound, -⟩ := new_sound path name hfiles
  obtain ⟨hdb, hdisk⟩ := new_db path name d
  have hdir : dirOf path name ≠ [] := List.append_ne_nil_of_right_ne_nil _ (by decide)
  obtain ⟨hcreated, hhandles, hnone⟩ := hsound.fits
  refine ⟨⟨⟨hcreated, ?_, hnone⟩, hsound.files, hsound.keyed⟩, ?_, ?_⟩
  · exact fun r good hl => ⟨trivial, (hhandles r good hl).2⟩
  · exact fun pos hpos => absurd hpos (Set.notMem_empty pos)
  · rw [hdisk] at hok ⊢
    rw [hdb]
    exact Database.settled_new hdir hbare hok

/-! ### Saving -/

theorem Kept.saveChunk (h : Kept w d t) (hok : (World.saveChunk (w, d) pos).2.intact) :
  Kept (World.saveChunk (w, d) pos).1 (World.saveChunk (w, d) pos).2 t
  := by
  obtain ⟨hgrounded, hcache⟩ := h.grounded.saveChunk trivial hok
  refine ⟨hgrounded, ?_, h.settled.frame (saveChunk_frame (w, d) pos).db⟩
  rw [hcache]
  exact h.stores.flush pos

theorem Kept.foldl_saveChunk (poss : List ChunkPos) (h : Kept w d t)
    (hok : (poss.foldl World.saveChunk (w, d)).2.intact) :
  Kept (poss.foldl World.saveChunk (w, d)).1 (poss.foldl World.saveChunk (w, d)).2 t
  := by
  induction poss generalizing w d with
  | nil => exact h
  | cons pos poss ih =>
      have hok' := (foldl_saveChunk_frame poss (World.saveChunk (w, d) pos)).db.within.intact hok
      exact ih (h.saveChunk hok') hok

/-- Saving without a failure. -/
theorem Kept.save (h : Kept w d t) (hok : (w.save d).2.intact) :
  Kept (w.save d).1 (w.save d).2 t
  := by
  rw [World.save] at hok ⊢
  have hchunks := h.foldl_saveChunk w.chunks.keys
  generalize w.chunks.keys.foldl World.saveChunk (w, d) = saved at hok hchunks ⊢
  obtain ⟨w₁, d₁⟩ := saved
  dsimp only at hok hchunks ⊢
  have hwithin := Database.save_within w₁.db d₁
  obtain ⟨hgrounded, hstores, hsettled⟩ := hchunks (hwithin.intact hok)
  have hregion : ∀ rx ry, (w₁.db.save d₁).2.files (w₁.db.dir, .region rx ry)
      = d₁.files (w₁.db.dir, .region rx ry) :=
    fun rx ry => hwithin.files _ (by simp [Disk.propFiles])
  have hdir : (w₁.db.save d₁).1.dir = w₁.db.dir := by rw [Database.save_fst]
  have hcache : cache { w₁ with db := (w₁.db.save d₁).1 } (w₁.db.save d₁).2 = w₁.cache d₁ := by
    apply WriteBack.ext
    · rfl
    · funext pos
      rw [cache_store, cache_store, hdir, stored, stored, hregion]
  have haware : Database.Aware w₁.db d₁ := hgrounded.knows
  refine ⟨⟨haware.save hok, ?_, hgrounded.keyed⟩, ?_, hsettled.save hok⟩
  · intro rx ry f hf
    rw [hdir, hregion] at hf
    exact hgrounded.files rx ry f hf
  · rw [hcache]
    exact hstores

/-- After a save no loaded chunk is marked as changed. -/
theorem save_unchanged (w : World) (d : Disk) {c : Chunk}
    (hc : (w.save d).1.chunks.lookup pos = some c) :
  c.changed = false
  := by
  have hfold : ∀ (poss : List ChunkPos) (s : World × Disk) (c : Chunk),
      (poss.foldl World.saveChunk s).1.chunks.lookup pos = some c →
        c.changed = false ∨ pos ∉ poss ∧ s.1.chunks.lookup pos = some c := by
    intro poss
    induction poss with
    | nil => exact fun s c hc => Or.inr ⟨List.not_mem_nil, hc⟩
    | cons pos' poss ih =>
        intro s c hc
        obtain hclean | ⟨hnot, hc⟩ := ih (World.saveChunk s pos') c hc
        · exact Or.inl hclean
        · rw [lookup_saveChunk] at hc
          split at hc
          case isTrue =>
            obtain ⟨c', -, rfl⟩ := Option.map_eq_some_iff.mp hc
            exact Or.inl rfl
          case isFalse hp => exact Or.inr ⟨List.not_mem_cons_of_ne_of_not_mem hp hnot, hc⟩
  have hc' : (w.chunks.keys.foldl World.saveChunk (w, d)).1.chunks.lookup pos = some c := hc
  obtain hclean | ⟨hnot, hc'⟩ := hfold _ _ c hc'
  · exact hclean
  · exact absurd (AList.lookup_isSome.mp (Option.isSome_iff_exists.mpr ⟨c, hc'⟩)) hnot

/-! ### Loading -/

/-- Saving and dropping a chunk without a failure. -/
theorem Kept.evict (h : Kept w d t) (hok : (w.evict d).2.intact) :
  Kept (w.evict d).1 (w.evict d).2 t
  := by
  have hchoose : d.choose w.chunks.keys.length
    = (Platform.pick d.tick % w.chunks.keys.length, d.atTick (d.tick + 1)) := rfl
  rw [World.evict, hchoose] at hok ⊢
  dsimp only at hok ⊢
  generalize w.chunks.keys.getD _ (0, 0) = pos at hok ⊢
  have hchosen : Kept w (d.atTick (d.tick + 1)) t := h.same ⟨rfl, rfl⟩
  obtain ⟨⟨hknows, hfiles, hkeyed⟩, hstores, hsettled⟩ := hchosen.saveChunk hok
  refine ⟨⟨hknows, hfiles, ?_⟩, ?_, hsettled⟩
  · intro pos' c hc
    dsimp only at hc
    rw [lookup_erase] at hc
    split at hc
    · cases hc
    · exact hkeyed pos' c hc
  · rw [cache_erase]
    exact hstores.drop pos

/-- Loading a chunk, whatever fails. -/
theorem Kept.load (h : Kept w d t) {x y : Int32} (hnew : (x, y) ∉ t) {c : Chunk} {db : Database}
    (hload : Chunk.new x y w.bgclr w.db d = (c, db, d')) :
  Kept { w with db := db, chunks := w.chunks.insert (x, y) c } d' t
  := by
  have hframe := Chunk.new_frame x y w.bgclr w.db d
  rw [hload] at hframe
  obtain ⟨hsame, haware, hkey, hclean⟩ : Disk.Same d d' ∧ Database.Aware db d' ∧
      (c.cx, c.cy) = (x, y) ∧ c.changed = false := by
    have hread := Database.getChunk_same w.db d x y (Data.tabulate (Platform.junk d.tick))
    have hread' := Database.Aware.getChunk (h.grounded.knows : Database.Aware w.db d) x y
      (Data.tabulate (Platform.junk d.tick))
    rw [Chunk.new] at hload
    generalize w.db.getChunk d x y (Data.tabulate (Platform.junk d.tick)) = got at hload hread hread'
    obtain ⟨read, data, db₁, d₁⟩ := got
    cases hload
    exact ⟨hread, hread', rfl, rfl⟩
  have hdir := hframe.props.dir
  have hstored : stored db.dir d' = stored w.db.dir d := by
    funext pos
    rw [hdir, stored, stored, hsame.files]
  have hcache : cache { w with db := db } d' = w.cache d := by rw [cache, cache, hstored]
  refine ⟨⟨haware, ?_, ?_⟩, ?_, h.settled.frame hframe⟩
  · intro rx ry f hf
    rw [hdir, hsame.files] at hf
    exact h.grounded.files rx ry f hf
  · intro pos' c' hc'
    rw [lookup_insert] at hc'
    split at hc'
    case isTrue hp =>
      rw [hp]
      cases hc'
      exact hkey
    case isFalse => exact h.grounded.keyed pos' c' hc'
  · rw [cache_insert { w with db := db }, hcache]
    exact h.stores.fill hnew _

/-- The files after another chunk has been saved, if the chunk at `pos` is to be loaded and there
are too many. -/
def roomFor (w : World) (d : Disk) (pos : ChunkPos) : Disk :=
  if inRange pos.1 pos.2 ∧ w.chunks.lookup pos = none ∧
      w.chunks.keys.length > worldMaxChunksLoaded then (w.evict d).2
  else d

/-- Getting a chunk, when nothing fails that saves another. -/
theorem Kept.getChunk {x y : Int32} (h : Kept w d t) (hok : (w.roomFor d (x, y)).intact) :
  Kept (w.getChunk d x y).2.1 (w.getChunk d x y).2.2 { pos ∈ t | pos ∈ w.chunks }
  := by
  have hsub : { pos ∈ t | pos ∈ w.chunks } ⊆ t := fun _ hpos => hpos.1
  rw [World.getChunk]
  split
  case isTrue => exact h.mono hsub
  case isFalse hrange =>
    cases hc : w.chunks.lookup (x, y) with
    | some c => exact h.mono hsub
    | none =>
        dsimp only
        generalize hroom : (if w.chunks.keys.length > worldMaxChunksLoaded then w.evict d
          else (w, d)) = room
        have hkept : Kept room.1 room.2 t := by
          rw [← hroom]
          split
          case isTrue hfull =>
            rw [roomFor, if_pos ⟨not_not.mp hrange, hc, hfull⟩] at hok
            exact h.evict hok
          case isFalse => exact h
        obtain ⟨w₁, d₁⟩ := room
        apply (hkept.mono hsub).load _ rfl
        rintro ⟨-, hmem⟩
        exact AList.lookup_eq_none.mp hc hmem

/-- Getting a chunk in order to change its data, when nothing fails that saves another. -/
theorem Kept.change {x y : Int32} (h : Kept w d t) (hok : (w.roomFor d (x, y)).intact)
    (hgot : w.getChunk d x y = (some c, w', d')) (data : Data) :
  Kept (w'.putChunk (x, y) { c with data := data, changed := true }) d'
    (insert (x, y) { pos ∈ t | pos ∈ w.chunks })
  := by
  have hget := h.getChunk hok
  rw [hgot] at hget
  exact hget.put (lookup_getChunk hgot).1 data

end World

end Owop
