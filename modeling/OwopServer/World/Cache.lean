import OwopServer.Database.Store
import OwopServer.Library.WriteBack
import OwopServer.World

/-!
# The chunks of a world as a write-back cache

The loaded chunks of a world are a write-back cache over its region files.  While no file
operation fails, loading, evicting and saving chunks does not change what the world shows.
-/

namespace Owop

open Database (stored)

/-! ### What loading and saving chunks leaves alone -/

namespace Chunk

variable [Platform]

/-- Reading a chunk. -/
theorem new_frame (cx cy : Int32) (bgclr : UInt32) (db : Database) (d : Disk) :
  Database.Frame db d (new cx cy bgclr db d).2.1 (new cx cy bgclr db d).2.2
  := by
  have h := Database.getChunk_frame db d cx cy (Data.tabulate (Platform.junk d.tick))
  rw [new]
  generalize db.getChunk d cx cy (Data.tabulate (Platform.junk d.tick)) = got at h ⊢
  obtain ⟨read, data, db', d'⟩ := got
  exact h

/-- A chunk has the background it is made with. -/
theorem new_bgclr (cx cy : Int32) (bgclr : UInt32) (db : Database) (d : Disk) :
  (new cx cy bgclr db d).1.bgclr = bgclr
  := rfl

/-- Saving a chunk keeps its background. -/
theorem save_bgclr (c : Chunk) (db : Database) (d : Disk) :
  (c.save db d).1.bgclr = c.bgclr
  := by
  rw [save]
  split
  · rfl
  · rfl

/-- Saving a chunk. -/
theorem save_frame (c : Chunk) (db : Database) (d : Disk) :
  Database.Frame db d (c.save db d).2.1 (c.save db d).2.2
  := by
  rw [save]
  split
  · have h := Database.setChunk_frame db d c.cx c.cy c.data
    generalize db.setChunk d c.cx c.cy c.data = set at h ⊢
    obtain ⟨db', d'⟩ := set
    exact h
  · exact Database.Frame.refl db d

/-- A new chunk shows what is stored, or the background. -/
theorem new_spec {db : Database} {d : Disk} {x y : Int32} {bgclr : UInt32}
    (hfit : Database.Fits db d) (hs : Database.Sound db.dir d)
    (hok : (new x y bgclr db d).2.2.intact) :
  ∃ db' t, new x y bgclr db d = (⟨bgclr, x, y, (stored db.dir d (x, y)).getD
      (Data.fill bgclr), false, db.getChunkProtection x y⟩, db', d.atTick t) ∧
    Database.Fits db' (d.atTick t) ∧ Database.SameProps db db'
  := by
  rw [new] at hok ⊢
  generalize Data.tabulate (Platform.junk d.tick) = arr at hok ⊢
  have hprops := (Database.getChunk_frame db d x y arr).props
  have hread : (db.getChunk d x y arr).2.2.2.intact := by
    revert hok
    generalize db.getChunk d x y arr = got
    obtain ⟨read, data, db', d'⟩ := got
    exact id
  obtain ⟨db', t, heq, hfit'⟩ := hs.getChunk hfit hread
  rw [heq] at hprops ⊢
  refine ⟨db', t, ?_, hfit', hprops⟩
  cases stored db.dir d (x, y) with
  | none => simp
  | some data => simp

end Chunk

namespace World

/-- The lookups after a chunk has been replaced. -/
theorem lookup_insert (chunks : AList fun _ : ChunkPos => Chunk) (pos pos' : ChunkPos) (c : Chunk) :
  (chunks.insert pos c).lookup pos' = if pos' = pos then some c else chunks.lookup pos'
  := by
  by_cases hp : pos' = pos
  · rw [hp, AList.lookup_insert, if_pos rfl]
  · rw [AList.lookup_insert_ne hp, if_neg hp]

/-- The lookups after a chunk has been dropped. -/
theorem lookup_erase (chunks : AList fun _ : ChunkPos => Chunk) (pos pos' : ChunkPos) :
  (chunks.erase pos).lookup pos' = if pos' = pos then none else chunks.lookup pos'
  := by
  by_cases hp : pos' = pos
  · rw [hp, AList.lookup_erase, if_pos rfl]
  · rw [AList.lookup_erase_ne hp, if_neg hp]

/-- The world and the file system after chunks have been loaded or saved: a loaded chunk has the
background colour it had, or that of the world. -/
structure Frame (w : World) (d : Disk) (w' : World) (d' : Disk) : Prop where
  rest : w' = { w with db := w'.db, chunks := w'.chunks }
  db : Database.Frame w.db d w'.db d'
  blank : ∀ pos c', w'.chunks.lookup pos = some c' →
    (∃ c, w.chunks.lookup pos = some c ∧ c'.bgclr = c.bgclr) ∨ c'.bgclr = w.bgclr

/-- The background of the world is the same. -/
theorem Frame.bgclr {w w' : World} {d d' : Disk} (h : Frame w d w' d') :
  w'.bgclr = w.bgclr
  := by
  rw [h.rest]

/-- Nothing happens. -/
theorem Frame.refl (w : World) (d : Disk) :
  Frame w d w d
  := ⟨rfl, Database.Frame.refl w.db d, fun _ c hc => Or.inl ⟨c, hc, rfl⟩⟩

/-- One thing after another. -/
theorem Frame.trans {w w' w'' : World} {d d' d'' : Disk} (h : Frame w d w' d')
    (h' : Frame w' d' w'' d'') :
  Frame w d w'' d''
  := by
  constructor
  case rest => rw [h'.rest, h.rest]
  case db => exact h.db.trans h'.db
  case blank =>
    intro pos c'' hc''
    obtain ⟨c', hc', hb⟩ | hb := h'.blank pos c'' hc''
    · obtain ⟨c, hc, hb'⟩ | hb' := h.blank pos c' hc'
      · exact Or.inl ⟨c, hc, hb.trans hb'⟩
      · exact Or.inr (hb.trans hb')
    · exact Or.inr (hb.trans h.bgclr)

/-- One loaded chunk is replaced by a chunk with the same background colour. -/
theorem Frame.insert {w : World} {d d' : Disk} {db' : Database} {pos : ChunkPos} {c : Chunk}
    (hdb : Database.Frame w.db d db' d')
    (hc : (∃ c₀, w.chunks.lookup pos = some c₀ ∧ c.bgclr = c₀.bgclr) ∨ c.bgclr = w.bgclr) :
  Frame w d { w with db := db', chunks := w.chunks.insert pos c } d'
  := by
  refine ⟨rfl, hdb, ?_⟩
  intro pos' c' hc'
  rw [lookup_insert] at hc'
  split at hc'
  case isTrue hp =>
    cases hc'
    rw [hp]
    exact hc
  case isFalse => exact Or.inl ⟨c', hc', rfl⟩

section

variable [Platform]

/-- A loaded chunk is saved. -/
theorem saveChunk_frame (s : World × Disk) (pos : ChunkPos) :
  Frame s.1 s.2 (saveChunk s pos).1 (saveChunk s pos).2
  := by
  rw [saveChunk]
  split
  · exact Frame.refl s.1 s.2
  case h_2 c hc =>
    have h := c.save_frame s.1.db s.2
    have hb := c.save_bgclr s.1.db s.2
    generalize c.save s.1.db s.2 = saved at h hb ⊢
    obtain ⟨c', db', d'⟩ := saved
    exact Frame.insert h (Or.inl ⟨c, hc, hb⟩)

/-- Loaded chunks are saved. -/
theorem foldl_saveChunk_frame (poss : List ChunkPos) (s : World × Disk) :
  Frame s.1 s.2 (poss.foldl saveChunk s).1 (poss.foldl saveChunk s).2
  := by
  induction poss generalizing s with
  | nil => exact Frame.refl s.1 s.2
  | cons pos poss ih => exact (saveChunk_frame s pos).trans (ih (saveChunk s pos))

/-- A chunk makes room. -/
theorem evict_frame (w : World) (d : Disk) :
  Frame w d (w.evict d).1 (w.evict d).2
  := by
  have hc : Frame w d w (d.choose w.chunks.keys.length).2 :=
    ⟨rfl, Database.Frame.of_within w.db (Disk.within_choose _ w.db.dir d _),
      fun _ c hc => Or.inl ⟨c, hc, rfl⟩⟩
  rw [evict]
  generalize d.choose w.chunks.keys.length = chosen at hc ⊢
  obtain ⟨i, d₁⟩ := chosen
  dsimp only at hc ⊢
  generalize w.chunks.keys.getD i (0, 0) = pos
  have hs := hc.trans (saveChunk_frame (w, d₁) pos)
  generalize saveChunk (w, d₁) pos = saved at hs ⊢
  obtain ⟨w', d'⟩ := saved
  refine ⟨by rw [hs.rest], hs.db, ?_⟩
  intro pos' c' hc'
  rw [lookup_erase] at hc'
  split at hc'
  · cases hc'
  · exact hs.blank pos' c' hc'

/-- A chunk is looked for. -/
theorem getChunk_frame (w : World) (d : Disk) (x y : Int32) :
  Frame w d (w.getChunk d x y).2.1 (w.getChunk d x y).2.2
  := by
  rw [getChunk]
  split
  · exact Frame.refl w d
  · split
    · exact Frame.refl w d
    · generalize hroom : (if w.chunks.keys.length > worldMaxChunksLoaded then w.evict d
        else (w, d)) = room
      have hr : Frame w d room.1 room.2 := by
        rw [← hroom]
        split
        · exact evict_frame w d
        · exact Frame.refl w d
      obtain ⟨w', d'⟩ := room
      have hn := Chunk.new_frame x y w'.bgclr w'.db d'
      have hb := Chunk.new_bgclr x y w'.bgclr w'.db d'
      dsimp only at hr ⊢
      generalize Chunk.new x y w'.bgclr w'.db d' = made at hn hb ⊢
      obtain ⟨c, db'', d''⟩ := made
      exact hr.trans (Frame.insert hn (Or.inr hb))

/-! ### Which chunks are loaded -/

/-- Saving a chunk changes nothing of it but that it was changed. -/
theorem save_chunk (c : Chunk) (db : Database) (d : Disk) :
  (c.save db d).1 = { c with changed := false }
  := by
  rw [Chunk.save]
  split
  case isTrue => rfl
  case isFalse h =>
    rw [Bool.not_eq_true] at h
    dsimp only
    rw [← h]

/-- Saving a chunk does not load or drop any. -/
theorem lookup_saveChunk (s : World × Disk) (pos pos' : ChunkPos) :
  (saveChunk s pos).1.chunks.lookup pos'
    = if pos' = pos then (s.1.chunks.lookup pos).map fun c => { c with changed := false }
      else s.1.chunks.lookup pos'
  := by
  rw [saveChunk]
  cases hc : s.1.chunks.lookup pos with
  | none =>
      dsimp only
      split
      case isTrue hp => rw [hp, hc, Option.map_none]
      case isFalse => rfl
  | some c =>
      have hsave := save_chunk c s.1.db s.2
      dsimp only
      generalize c.save s.1.db s.2 = saved at hsave ⊢
      obtain ⟨c', db', d'⟩ := saved
      dsimp only at hsave ⊢
      rw [lookup_insert, hsave, Option.map_some]

/-- A chunk that is dropped was saved before, and the others stay as they are. -/
theorem lookup_evict (w : World) (d : Disk) (pos : ChunkPos) :
  (w.evict d).1.chunks.lookup pos = w.chunks.lookup pos ∨
    (w.evict d).1.chunks.lookup pos = none
  := by
  rw [evict]
  generalize d.choose w.chunks.keys.length = chosen
  obtain ⟨i, d₁⟩ := chosen
  dsimp only
  generalize w.chunks.keys.getD i (0, 0) = victim
  have hs := lookup_saveChunk (w, d₁) victim pos
  generalize saveChunk (w, d₁) victim = saved at hs ⊢
  obtain ⟨w', d'⟩ := saved
  dsimp only at hs ⊢
  rw [lookup_erase]
  by_cases hp : pos = victim
  · exact Or.inr (if_pos hp)
  · rw [if_neg hp] at hs ⊢
    exact Or.inl hs

/-- Getting a chunk loads it if it is not loaded, and may drop another one. -/
theorem lookup_getChunk {w w' : World} {d d' : Disk} {x y : Int32} {c : Chunk}
    (h : w.getChunk d x y = (some c, w', d')) :
  w'.chunks.lookup (x, y) = some c ∧
    (w.chunks.lookup (x, y) = some c ∨
      (w.chunks.lookup (x, y) = none ∧ c.cx = x ∧ c.cy = y)) ∧
    ∀ pos ≠ (x, y), w'.chunks.lookup pos = w.chunks.lookup pos ∨ w'.chunks.lookup pos = none
  := by
  rw [getChunk] at h
  split at h
  · cases h
  · cases hc : w.chunks.lookup (x, y) with
    | some c₀ =>
        rw [hc] at h
        cases h
        exact ⟨hc, Or.inl rfl, fun _ _ => Or.inl rfl⟩
    | none =>
        rw [hc] at h
        dsimp only at h
        generalize hroom : (if w.chunks.keys.length > worldMaxChunksLoaded then w.evict d
          else (w, d)) = room at h
        have hothers : ∀ pos, room.1.chunks.lookup pos = w.chunks.lookup pos ∨
            room.1.chunks.lookup pos = none := by
          intro pos
          rw [← hroom]
          split
          · exact lookup_evict w d pos
          · exact Or.inl rfl
        obtain ⟨w₁, d₁⟩ := room
        cases h
        refine ⟨AList.lookup_insert _, Or.inr ⟨rfl, rfl, rfl⟩, ?_⟩
        intro pos hpos
        rw [lookup_insert, if_neg hpos]
        exact hothers pos

end

/-! ### Sound worlds -/

/-- The loaded chunks over the region files. -/
def cache (w : World) (d : Disk) : WriteBack ChunkPos Data where
  lines pos := (w.chunks.lookup pos).map fun c => ⟨c.data, Data.fill c.bgclr, c.changed⟩
  store := stored w.db.dir d

/-- The lines of the cache are the loaded chunks. -/
theorem cache_lines (w : World) (d : Disk) (pos : ChunkPos) :
  (w.cache d).lines pos
    = (w.chunks.lookup pos).map fun c => ⟨c.data, Data.fill c.bgclr, c.changed⟩
  := rfl

/-- The store of the cache is what is in the files. -/
theorem cache_store (w : World) (d : Disk) :
  (w.cache d).store = stored w.db.dir d
  := rfl

/-- A chunk that is loaded makes a line. -/
theorem cache_insert (w : World) (d : Disk) (pos : ChunkPos) (c : Chunk) :
  cache { w with chunks := w.chunks.insert pos c } d
    = (w.cache d).fill pos ⟨c.data, Data.fill c.bgclr, c.changed⟩
  := by
  apply WriteBack.ext
  · funext pos'
    rw [WriteBack.fill, cache_lines, lookup_insert]
    dsimp only
    by_cases hp : pos' = pos
    · rw [if_pos hp, hp, Function.update_self, Option.map_some]
    · rw [if_neg hp, Function.update_of_ne hp, cache_lines]
  · rfl

/-- A chunk that is dropped drops its line. -/
theorem cache_erase (w : World) (d : Disk) (pos : ChunkPos) :
  cache { w with chunks := w.chunks.erase pos } d = (w.cache d).drop pos
  := by
  apply WriteBack.ext
  · funext pos'
    rw [WriteBack.drop, cache_lines]
    dsimp only
    rw [lookup_erase]
    by_cases hp : pos' = pos
    · rw [if_pos hp, hp, Function.update_self, Option.map_none]
    · rw [if_neg hp, Function.update_of_ne hp, cache_lines]
  · rfl

/-- New data of a loaded chunk are a new value of its line. -/
theorem cache_putChunk {w : World} {pos : ChunkPos} {c : Chunk} (d : Disk)
    (hc : w.chunks.lookup pos = some c) (data : Data) :
  (w.putChunk pos { c with data := data, changed := true }).cache d = (w.cache d).put pos data
  := by
  have hline : (w.cache d).lines pos = some ⟨c.data, Data.fill c.bgclr, c.changed⟩ := by
    rw [cache_lines, hc, Option.map_some]
  rw [putChunk, cache_insert, WriteBack.put, hline]
  rfl

/-- The protection of a loaded chunk is no part of its line. -/
theorem cache_mark {w : World} {pos : ChunkPos} {c : Chunk} (d : Disk)
    (hc : w.chunks.lookup pos = some c) (state : Bool) :
  (w.putChunk pos { c with ranked := state }).cache d = w.cache d
  := by
  rw [putChunk, cache_insert]
  apply WriteBack.ext
  · rw [WriteBack.fill]
    dsimp only
    apply Function.update_eq_self_iff.mpr
    rw [cache_lines, hc, Option.map_some]
  · rfl

/-- The chunk data the world shows, `none` where nothing was ever written. -/
def view (w : World) (d : Disk) : ChunkPos → Option Data := (w.cache d).view

/-- What a world remembers about its files is so, and its chunks are where they belong. -/
structure Sound (w : World) (d : Disk) : Prop where
  fits : Database.Fits w.db d
  files : Database.Sound w.db.dir d
  coherent : (w.cache d).Coherent
  keyed : ∀ pos c, w.chunks.lookup pos = some c → (c.cx, c.cy) = pos
  ranked : ∀ pos c, w.chunks.lookup pos = some c → c.ranked = w.db.getChunkProtection pos.1 pos.2

/-- What a world remembers about its files is so, whatever the state of its streams, of which only
those with `P` may be open. -/
structure Grounded (P : Bool → Prop) (w : World) (d : Disk) : Prop where
  knows : Database.Knows P w.db d
  files : Database.Sound w.db.dir d
  keyed : ∀ pos c, w.chunks.lookup pos = some c → (c.cx, c.cy) = pos

/-- A sound world remembers what is so. -/
theorem Sound.grounded {w : World} {d : Disk} (h : Sound w d) :
  Grounded (· = true) w d
  := ⟨Database.fits_iff.mp h.fits, h.files, h.keyed⟩

/-- The database and the loaded chunks are all that matters. -/
theorem view_congr {w w' : World} (d : Disk) (hdb : w'.db = w.db) (hc : w'.chunks = w.chunks) :
  w'.view d = w.view d
  := by
  rw [view, view, cache, cache, hdb, hc]

/-- The database and the loaded chunks are all that matters. -/
theorem Sound.congr {w w' : World} {d : Disk} (h : Sound w d) (hdb : w'.db = w.db)
    (hc : w'.chunks = w.chunks) :
  Sound w' d
  := by
  constructor
  case fits => exact hdb ▸ h.fits
  case files => exact hdb ▸ h.files
  case coherent =>
    rw [cache, hdb, hc]
    exact h.coherent
  case keyed => exact hc ▸ h.keyed
  case ranked =>
    rw [hdb, hc]
    exact h.ranked

/-- A loaded chunk shows the view. -/
theorem Sound.data_eq {w : World} {d : Disk} {pos : ChunkPos} {c : Chunk} (h : Sound w d)
    (hc : w.chunks.lookup pos = some c) :
  c.data = (w.view d pos).getD (Data.fill c.bgclr)
  := by
  have hl : (w.cache d).lines pos = some ⟨c.data, Data.fill c.bgclr, c.changed⟩ := by
    rw [cache_lines, hc, Option.map_some]
  exact h.coherent.val_eq hl

variable [Platform]

/-! ### Saving -/

/-- Saving a chunk flushes its line, also through a stream that has failed before. -/
theorem Grounded.saveChunk {P : Bool → Prop} (hP : P true) {w : World} {d : Disk} {pos : ChunkPos}
    (h : Grounded P w d) (hok : (World.saveChunk (w, d) pos).2.intact) :
  Grounded P (World.saveChunk (w, d) pos).1 (World.saveChunk (w, d) pos).2 ∧
    (World.saveChunk (w, d) pos).1.cache (World.saveChunk (w, d) pos).2 = (w.cache d).flush pos
  := by
  rw [World.saveChunk] at hok ⊢
  dsimp only at hok ⊢
  cases hc : w.chunks.lookup pos with
  | none =>
      rw [hc] at hok
      refine ⟨h, ?_⟩
      rw [WriteBack.flush, cache_lines, hc, Option.map_none]
  | some c =>
      rw [hc] at hok
      dsimp only at hok ⊢
      have hkey := h.keyed pos c hc
      obtain ⟨db', d', hsave, hknows, hsound, hprops, hstored⟩ : ∃ db' d',
          c.save w.db d = ({ c with changed := false }, db', d') ∧ Database.Knows P db' d' ∧
          Database.Sound w.db.dir d' ∧ Database.SameProps w.db db' ∧
          stored w.db.dir d' = Function.update (stored w.db.dir d) pos ((w.cache d).view pos) := by
        have hline : (w.cache d).lines pos = some ⟨c.data, Data.fill c.bgclr, c.changed⟩ := by
          rw [cache_lines, hc, Option.map_some]
        rw [Chunk.save] at hok ⊢
        cases hch : c.changed with
        | true =>
            rw [hch, if_pos rfl] at hok
            have hprops := (Database.setChunk_frame w.db d c.cx c.cy c.data).props
            obtain ⟨db', d', heq, hknows, hs, hst⟩ := h.files.store hP h.knows hok
            rw [heq] at hprops
            rw [hch] at hline
            refine ⟨db', d', ?_, hknows, hs, hprops, ?_⟩
            · rw [if_pos rfl, heq]
            · rw [hst, hkey, WriteBack.view_of_dirty hline rfl]
        | false =>
            rw [hch] at hline
            refine ⟨w.db, d, ?_, h.knows, h.files, Database.SameProps.refl w.db, ?_⟩
            · rw [if_neg (by simp), ← hch]
            · rw [WriteBack.view_of_clean hline rfl, cache_store, Function.update_eq_self]
      rw [hsave]
      dsimp only
      refine ⟨⟨hknows, ?_, ?_⟩, ?_⟩
      · rw [hprops.dir]
        exact hsound
      · intro pos' c' hc'
        rw [lookup_insert] at hc'
        split at hc'
        case isTrue hp =>
          cases hc'
          rw [hp]
          exact hkey
        case isFalse => exact h.keyed pos' c' hc'
      · apply WriteBack.ext
        · funext pos'
          rw [WriteBack.lines_flush, cache_lines, lookup_insert]
          by_cases hp : pos' = pos
          · rw [if_pos hp, hp, Function.update_self, cache_lines, hc]
            rfl
          · rw [if_neg hp, Function.update_of_ne hp, cache_lines]
        · rw [WriteBack.store_flush, cache_store, cache_store, hprops.dir, hstored]

/-- Saving a chunk flushes its line. -/
theorem saveChunk_spec {w : World} {d : Disk} {pos : ChunkPos} (h : Sound w d)
    (hok : (saveChunk (w, d) pos).2.intact) :
  Sound (saveChunk (w, d) pos).1 (saveChunk (w, d) pos).2 ∧
    (saveChunk (w, d) pos).1.cache (saveChunk (w, d) pos).2 = (w.cache d).flush pos
  := by
  obtain ⟨hground, hcache⟩ := Grounded.saveChunk (P := (· = true)) rfl h.grounded hok
  have hprops := (saveChunk_frame (w, d) pos).db.props
  have hlookup := lookup_saveChunk (w, d) pos
  refine ⟨⟨Database.fits_iff.mpr hground.knows, hground.files, ?_, hground.keyed, ?_⟩, hcache⟩
  · rw [hcache]
    exact h.coherent.flush pos
  · intro pos' c' hc'
    rw [hprops.getChunkProtection]
    rw [hlookup] at hc'
    split at hc'
    case isTrue hp =>
      obtain ⟨c, hc, rfl⟩ := Option.map_eq_some_iff.mp hc'
      rw [hp]
      exact h.ranked pos c hc
    case isFalse => exact h.ranked pos' c' hc'

/-- Saving chunks one after the other flushes their lines. -/
theorem foldl_saveChunk_spec (poss : List ChunkPos) {w : World} {d : Disk} (h : Sound w d)
    (hok : (poss.foldl saveChunk (w, d)).2.intact) :
  Sound (poss.foldl saveChunk (w, d)).1 (poss.foldl saveChunk (w, d)).2 ∧
    (poss.foldl saveChunk (w, d)).1.cache (poss.foldl saveChunk (w, d)).2
      = (w.cache d).flushAll poss
  := by
  induction poss generalizing w d with
  | nil => exact ⟨h, rfl⟩
  | cons pos poss ih =>
      rw [List.foldl_cons] at hok ⊢
      have hok' := (foldl_saveChunk_frame poss (saveChunk (w, d) pos)).db.within.intact hok
      obtain ⟨hsound, hcache⟩ := saveChunk_spec h hok'
      obtain ⟨hs, hc⟩ := ih hsound hok
      rw [hcache] at hc
      exact ⟨hs, hc⟩

/-- Saving all chunks stores what the world shows. -/
theorem stored_foldl_saveChunk {w : World} {d : Disk} (h : Sound w d)
    (hok : (w.chunks.keys.foldl saveChunk (w, d)).2.intact) :
  stored w.db.dir (w.chunks.keys.foldl saveChunk (w, d)).2 = w.view d
  := by
  obtain ⟨-, hcache⟩ := foldl_saveChunk_spec _ h hok
  have hdir := (foldl_saveChunk_frame w.chunks.keys (w, d)).db.props.dir
  have hstore := congrArg WriteBack.store hcache
  rw [cache_store, hdir] at hstore
  dsimp only at hstore
  rw [hstore, view]
  apply WriteBack.store_flushAll
  intro pos l hl
  rw [cache_lines] at hl
  obtain ⟨c, hc, -⟩ := Option.map_eq_some_iff.mp hl
  exact AList.lookup_isSome.mp (by rw [hc]; rfl)

/-! ### Loading -/

omit [Platform] in
/-- The number of the next operation does not matter. -/
theorem Sound.atTick {w : World} {d : Disk} (h : Sound w d) (t : ℕ) :
  Sound w (d.atTick t)
  := ⟨h.fits.atTick t, h.files, h.coherent, h.keyed, h.ranked⟩

omit [Platform] in
/-- Dropping a saved chunk drops its line. -/
theorem Sound.erase {w : World} {d : Disk} (h : Sound w d) (pos : ChunkPos) :
  Sound { w with chunks := w.chunks.erase pos } d
  := by
  have hold : ∀ pos' c, (w.chunks.erase pos).lookup pos' = some c →
      w.chunks.lookup pos' = some c := by
    intro pos' c hc
    rw [lookup_erase] at hc
    split at hc
    · cases hc
    · exact hc
  refine ⟨h.fits, h.files, ?_, ?_, ?_⟩
  · rw [cache_erase]
    exact h.coherent.drop pos
  · exact fun pos' c hc => h.keyed pos' c (hold pos' c hc)
  · exact fun pos' c hc => h.ranked pos' c (hold pos' c hc)

/-- Saving and dropping a chunk does not change the view. -/
theorem evict_spec {w : World} {d : Disk} (h : Sound w d) (hok : (w.evict d).2.intact) :
  Sound (w.evict d).1 (w.evict d).2 ∧ (w.evict d).1.view (w.evict d).2 = w.view d ∧
    ∀ pos, w.chunks.lookup pos = none → (w.evict d).1.chunks.lookup pos = none
  := by
  have hchoose : d.choose w.chunks.keys.length
    = (Platform.pick d.tick % w.chunks.keys.length, d.atTick (d.tick + 1)) := rfl
  rw [evict, hchoose] at hok ⊢
  dsimp only at hok ⊢
  generalize w.chunks.keys.getD _ (0, 0) = pos at hok ⊢
  obtain ⟨hs, hc⟩ := saveChunk_spec (h.atTick (d.tick + 1)) hok
  refine ⟨hs.erase pos, ?_, ?_⟩
  · rw [view, cache_erase, hc, WriteBack.view_drop_flush]
    rfl
  · intro pos' hnone
    rw [lookup_erase]
    split
    case isTrue => rfl
    case isFalse hp =>
      rw [lookup_saveChunk, if_neg hp]
      exact hnone

/-- A chunk loaded from the files, or filled with the background. -/
theorem Sound.load {w : World} {d : Disk} {x y : Int32} (h : Sound w d)
    (hnone : w.chunks.lookup (x, y) = none) (hok : (Chunk.new x y w.bgclr w.db d).2.2.intact) :
  ∃ c db' d', Chunk.new x y w.bgclr w.db d = (c, db', d') ∧ c.bgclr = w.bgclr ∧
    Sound { w with db := db', chunks := w.chunks.insert (x, y) c } d' ∧
    view { w with db := db', chunks := w.chunks.insert (x, y) c } d' = w.view d
  := by
  obtain ⟨db', t, heq, hfit, hprops⟩ := Chunk.new_spec (x := x) (y := y) h.fits h.files hok
  refine ⟨_, db', _, heq, rfl, ?_⟩
  generalize hc : (⟨w.bgclr, x, y, _, _, _⟩ : Chunk) = c
  have hcache : cache { w with db := db', chunks := w.chunks.insert (x, y) c } (d.atTick t)
      = (w.cache d).load (x, y) (Data.fill w.bgclr) := by
    have hstore : cache { w with db := db' } (d.atTick t) = w.cache d := by
      rw [cache, cache, hprops.dir]
      rfl
    rw [cache_insert { w with db := db' }, hstore, ← hc]
    rfl
  refine ⟨⟨hfit, ?_, ?_, ?_, ?_⟩, ?_⟩
  · rw [hprops.dir]
    exact h.files
  · rw [hcache]
    exact h.coherent.load (x, y) (Data.fill w.bgclr)
  · intro pos' c' hc'
    rw [lookup_insert] at hc'
    split at hc'
    case isTrue hp =>
      rw [hp]
      cases hc'
      rw [← hc]
    case isFalse => exact h.keyed pos' c' hc'
  · intro pos' c' hc'
    rw [hprops.getChunkProtection]
    rw [lookup_insert] at hc'
    split at hc'
    case isTrue hp =>
      rw [hp]
      cases hc'
      rw [← hc]
    case isFalse => exact h.ranked pos' c' hc'
  · rw [view, hcache, WriteBack.view_load]
    · rfl
    · rw [cache_lines, hnone, Option.map_none]

/-- Getting a chunk does not change the view, and the chunk is loaded then. -/
theorem getChunk_spec {w : World} {d : Disk} {x y : Int32} (h : Sound w d) (hr : inRange x y)
    (hok : (w.getChunk d x y).2.2.intact) :
  ∃ c w' d', w.getChunk d x y = (some c, w', d') ∧ Sound w' d' ∧ w'.view d' = w.view d ∧
    w'.chunks.lookup (x, y) = some c ∧ (w.chunks.lookup (x, y) = some c ∨ c.bgclr = w.bgclr)
  := by
  rw [getChunk, if_neg (not_not.mpr hr)] at hok ⊢
  cases hc : w.chunks.lookup (x, y) with
  | some c => exact ⟨c, w, d, rfl, h, rfl, hc, Or.inl rfl⟩
  | none =>
      rw [hc] at hok
      dsimp only at hok ⊢
      generalize hroom : (if w.chunks.keys.length > worldMaxChunksLoaded then w.evict d
        else (w, d)) = room at hok ⊢
      have hframe : Frame w d room.1 room.2 := by
        rw [← hroom]
        split
        · exact evict_frame w d
        · exact Frame.refl w d
      have hroomok : room.2.intact := by
        have hn := (Chunk.new_frame x y room.1.bgclr room.1.db room.2).within.intact
        apply hn
        exact hok
      obtain ⟨hs, hv, hnone⟩ : Sound room.1 room.2 ∧ room.1.view room.2 = w.view d ∧
          room.1.chunks.lookup (x, y) = none := by
        rw [← hroom] at hroomok ⊢
        split
        case isTrue hfull =>
          rw [if_pos hfull] at hroomok
          obtain ⟨hs, hv, hnone⟩ := evict_spec h hroomok
          exact ⟨hs, hv, hnone _ hc⟩
        case isFalse => exact ⟨h, rfl, hc⟩
      have hbg : room.1.bgclr = w.bgclr := by rw [hframe.rest]
      obtain ⟨w₁, d₁⟩ := room
      obtain ⟨c, db', d', heq, hcb, hs', hv'⟩ := hs.load hnone hok
      dsimp only at hs hv hnone heq hs' hv' ⊢
      rw [heq]
      refine ⟨c, _, d', rfl, hs', hv'.trans hv, ?_, Or.inr (hcb.trans hbg)⟩
      rw [lookup_insert, if_pos rfl]

/-- There is no chunk out of range. -/
theorem getChunk_of_not_inRange {w : World} {d : Disk} {x y : Int32} (h : ¬ inRange x y) :
  w.getChunk d x y = (none, w, d)
  := by
  rw [getChunk, if_pos h]

/-- There is a chunk exactly when the coordinates are in range. -/
theorem getChunk_cases (w : World) (d : Disk) (x y : Int32) :
  (¬ inRange x y ∧ w.getChunk d x y = (none, w, d)) ∨
    (inRange x y ∧ ∃ c w' d', w.getChunk d x y = (some c, w', d'))
  := by
  by_cases hr : inRange x y
  · right
    refine ⟨hr, ?_⟩
    rw [getChunk, if_neg (not_not.mpr hr)]
    cases w.chunks.lookup (x, y) with
    | some c => exact ⟨c, w, d, rfl⟩
    | none => exact ⟨_, _, _, rfl⟩
  · exact Or.inl ⟨hr, getChunk_of_not_inRange hr⟩

/-! ### Changing a chunk -/

omit [Platform] in
/-- Changing the data of a loaded chunk changes what the world shows there. -/
theorem Sound.putChunk {w : World} {d : Disk} {pos : ChunkPos} {c : Chunk} (h : Sound w d)
    (hc : w.chunks.lookup pos = some c) (data : Data) :
  Sound (w.putChunk pos { c with data := data, changed := true }) d ∧
    (w.putChunk pos { c with data := data, changed := true }).view d
      = Function.update (w.view d) pos (some data)
  := by
  have hline : (w.cache d).lines pos = some ⟨c.data, Data.fill c.bgclr, c.changed⟩ := by
    rw [cache_lines, hc, Option.map_some]
  have hcache := cache_putChunk d hc data
  refine ⟨⟨h.fits, h.files, ?_, ?_, ?_⟩, ?_⟩
  · rw [hcache]
    exact h.coherent.put pos data
  · intro pos' c' hc'
    rw [World.putChunk, lookup_insert] at hc'
    split at hc'
    case isTrue hp =>
      rw [hp]
      cases hc'
      exact h.keyed pos c hc
    case isFalse => exact h.keyed pos' c' hc'
  · intro pos' c' hc'
    rw [World.putChunk, lookup_insert] at hc'
    split at hc'
    case isTrue hp =>
      rw [hp]
      cases hc'
      exact h.ranked pos c hc
    case isFalse => exact h.ranked pos' c' hc'
  · rw [view, hcache, WriteBack.view_put hline]
    rfl

/-- Getting a chunk in order to change it. -/
theorem change_spec {w : World} {d : Disk} {x y : Int32} (h : Sound w d) (hr : inRange x y)
    (hok : (w.getChunk d x y).2.2.intact) :
  ∃ c w' d', w.getChunk d x y = (some c, w', d') ∧ Sound w' d' ∧ w'.view d' = w.view d ∧
    w'.chunks.lookup (x, y) = some c ∧ c.data = (w.view d (x, y)).getD (Data.fill c.bgclr) ∧
    ∀ data, Sound (w'.putChunk (x, y) { c with data := data, changed := true }) d' ∧
      (w'.putChunk (x, y) { c with data := data, changed := true }).view d'
        = Function.update (w.view d) (x, y) (some data)
  := by
  obtain ⟨c, w', d', heq, hs, hv, hc, -⟩ := getChunk_spec h hr hok
  refine ⟨c, w', d', heq, hs, hv, hc, ?_, ?_⟩
  · rw [← hv]
    exact hs.data_eq hc
  · intro data
    rw [← hv]
    exact hs.putChunk hc data

end World

end Owop
