import OwopServer.World.Loading

/-!
# The bytes of chunks

The bytes of a chunk are those in memory, if it is loaded, or else those that `get_chunk` would read
from its file or fill it with.  Asking for a chunk does not change them, with one exception: a chunk
to which nothing was ever written is not saved when it has to make room, and is found with the
background colour of the world after that, which need not be the one it was loaded with.
-/

namespace Owop

open Database (stored)

/-- Chunks of the background are the same if their colours are. -/
theorem Data.fill_inj {a b : UInt32} :
  Data.fill a = Data.fill b ↔ Data.background a = Data.background b
  := by
  constructor
  · intro h
    rw [← Data.px_fill a 0 0, h, Data.px_fill]
  · intro h
    apply Data.ext_px
    intro x y
    rw [Data.px_fill, Data.px_fill, h]

namespace World

/-- The bytes of the chunk at a position: in memory, or else in its file, or else the background. -/
def bytes (w : World) (d : Disk) (pos : ChunkPos) : Data :=
  match w.chunks.lookup pos with
  | some c => c.data
  | none => (stored w.db.dir d pos).getD (Data.fill w.bgclr)

/-- The background colour of the chunk at a position: the one it was loaded with, or else that of the
world. -/
def ground (w : World) (pos : ChunkPos) : UInt32 :=
  match w.chunks.lookup pos with
  | some c => c.bgclr
  | none => w.bgclr

/-- The chunk at a position is loaded, nothing was ever written to it, and the background colour of
the world is another one now. -/
def Faded (w : World) (d : Disk) (pos : ChunkPos) : Prop :=
  ∃ c, w.chunks.lookup pos = some c ∧ c.changed = false ∧ stored w.db.dir d pos = none ∧
    Data.background c.bgclr ≠ Data.background w.bgclr

/-- The chunk that is dropped to make room for the one at `pos` when that is asked for. -/
def drops [Platform] (w : World) (d : Disk) (pos : ChunkPos) : Option ChunkPos :=
  if inRange pos.1 pos.2 ∧ w.chunks.lookup pos = none ∧
      w.chunks.keys.length > worldMaxChunksLoaded then
    some (w.chunks.keys.getD (d.choose w.chunks.keys.length).1 (0, 0))
  else none

/-- The bytes of the chunk at `pos` once the one at `asked` was asked for. -/
def bytesAfter [Platform] (w : World) (d : Disk) (asked pos : ChunkPos) : Data :=
  if w.drops d asked = some pos then (w.view d pos).getD (Data.fill w.bgclr) else w.bytes d pos

variable {w w' : World} {d d' : Disk} {x y : Int32} {pos asked : ChunkPos} {c : Chunk}

/-- A chunk that is loaded has the bytes in memory. -/
theorem bytes_of_some (hc : w.chunks.lookup pos = some c) :
  w.bytes d pos = c.data
  := by
  rw [bytes, hc]

/-- A chunk that is loaded has its own background. -/
theorem ground_of_some (hc : w.chunks.lookup pos = some c) :
  w.ground pos = c.bgclr
  := by
  rw [ground, hc]

/-- A chunk that is not loaded has the background of the world. -/
theorem ground_of_none (hc : w.chunks.lookup pos = none) :
  w.ground pos = w.bgclr
  := by
  rw [ground, hc]

/-- The database, the background and the loaded chunks are all that matters. -/
theorem bytes_congr (d : Disk) (hdb : w'.db = w.db) (hchunks : w'.chunks = w.chunks)
    (hbgclr : w'.bgclr = w.bgclr) :
  w'.bytes d pos = w.bytes d pos
  := by
  rw [bytes, bytes, hdb, hchunks, hbgclr]

/-- The bytes of a world that is sound are what it shows, or the background. -/
theorem Sound.bytes_eq (h : Sound w d) (pos : ChunkPos) :
  w.bytes d pos = (w.view d pos).getD (Data.fill (w.ground pos))
  := by
  cases hc : w.chunks.lookup pos with
  | some c =>
      rw [bytes_of_some hc, ground_of_some hc]
      exact h.data_eq hc
  | none =>
      have hline : (w.cache d).lines pos = none := by rw [cache_lines, hc, Option.map_none]
      rw [bytes, ground_of_none hc, hc, view, WriteBack.view_of_none hline, cache_store]

/-- A chunk has faded if nothing was written to it and its background is not that of the world. -/
theorem faded_iff :
  w.Faded d pos ↔
    w.view d pos = none ∧ Data.background (w.ground pos) ≠ Data.background w.bgclr
  := by
  cases hc : w.chunks.lookup pos with
  | none =>
      rw [ground_of_none hc]
      constructor
      · rintro ⟨c, hc', -⟩
        rw [hc] at hc'
        cases hc'
      · exact fun h => absurd rfl h.2
  | some c =>
      have hline : (w.cache d).lines pos = some ⟨c.data, Data.fill c.bgclr, c.changed⟩ := by
        rw [cache_lines, hc, Option.map_some]
      have hview : w.view d pos = none ↔ c.changed = false ∧ stored w.db.dir d pos = none := by
        cases hch : c.changed with
        | true =>
            rw [hch] at hline
            rw [view, WriteBack.view_of_dirty hline rfl]
            simp
        | false =>
            rw [hch] at hline
            rw [view, WriteBack.view_of_clean hline rfl, cache_store]
            simp
      rw [ground_of_some hc, hview]
      constructor
      · rintro ⟨c', hc', hclean, hnone, hne⟩
        obtain rfl : c = c' := Option.some.inj (hc.symm.trans hc')
        exact ⟨⟨hclean, hnone⟩, hne⟩
      · rintro ⟨⟨hclean, hnone⟩, hne⟩
        exact ⟨c, hc, hclean, hnone, hne⟩

variable [Platform]

/-! ### Asking for a chunk -/

/-- Of the chunks that are loaded, one is dropped. -/
theorem lookup_evict_eq (w : World) (d : Disk) (pos : ChunkPos) :
  (w.evict d).1.chunks.lookup pos
    = if pos = w.chunks.keys.getD (d.choose w.chunks.keys.length).1 (0, 0) then none
      else w.chunks.lookup pos
  := by
  rw [evict]
  generalize d.choose w.chunks.keys.length = chosen
  obtain ⟨i, d₁⟩ := chosen
  dsimp only
  generalize w.chunks.keys.getD i (0, 0) = victim
  have hs := lookup_saveChunk (w, d₁) victim pos
  generalize saveChunk (w, d₁) victim = saved at hs ⊢
  obtain ⟨w', d'⟩ := saved
  dsimp only at hs ⊢
  rw [lookup_erase]
  by_cases hpos : pos = victim
  · rw [if_pos hpos, if_pos hpos]
  · rw [if_neg hpos] at hs
    rw [if_neg hpos, if_neg hpos, hs]

/-- No chunk makes room for one that is out of range or loaded, or while there is room. -/
theorem drops_eq_none (h : inRange asked.1 asked.2 → w.chunks.lookup asked = none →
      ¬ w.chunks.keys.length > worldMaxChunksLoaded) :
  w.drops d asked ≠ some pos
  := by
  rw [drops, if_neg (fun hall => h hall.1 hall.2.1 hall.2.2)]
  exact fun hsome => by cases hsome

/-- A chunk is loaded with the background of the world. -/
theorem ground_load (w : World) (d : Disk) (x y : Int32) (pos : ChunkPos) :
  World.ground { w with
      db := (Chunk.new x y w.bgclr w.db d).2.1
      chunks := w.chunks.insert (x, y) (Chunk.new x y w.bgclr w.db d).1 } pos
    = if pos = (x, y) then w.bgclr else w.ground pos
  := by
  rw [ground, lookup_insert]
  by_cases hpos : pos = (x, y)
  · rw [if_pos hpos, if_pos hpos]
    rfl
  · rw [if_neg hpos, if_neg hpos, ground]

/-- Asking for a chunk changes the background of the one that makes room only. -/
theorem ground_getChunk (w : World) (d : Disk) (x y : Int32) (pos : ChunkPos) :
  (w.getChunk d x y).2.1.ground pos
    = if w.drops d (x, y) = some pos then w.bgclr else w.ground pos
  := by
  by_cases hrange : inRange x y
  case neg =>
    rw [getChunk_of_not_inRange hrange, if_neg (drops_eq_none fun h => absurd h hrange)]
  case pos =>
    rw [getChunk, if_neg (not_not.mpr hrange)]
    cases hc : w.chunks.lookup (x, y) with
    | some c =>
        rw [if_neg (drops_eq_none fun _ hnone => by rw [hc] at hnone; cases hnone)]
    | none =>
        have hself : pos = (x, y) → w.ground pos = w.bgclr := by
          rintro rfl
          exact ground_of_none hc
        dsimp only
        by_cases hfull : w.chunks.keys.length > worldMaxChunksLoaded
        · have hlookup := lookup_evict_eq w d pos
          have hbgclr := (evict_frame w d).bgclr
          have hdrops : w.drops d (x, y)
              = some (w.chunks.keys.getD (d.choose w.chunks.keys.length).1 (0, 0)) :=
            if_pos ⟨hrange, hc, hfull⟩
          have hevict : (w.evict d).1.ground pos
              = if w.drops d (x, y) = some pos then w.bgclr else w.ground pos := by
            generalize w.chunks.keys.getD (d.choose w.chunks.keys.length).1 (0, 0) = victim
              at hlookup hdrops
            rw [ground, hlookup, hbgclr, hdrops]
            by_cases hpos : pos = victim
            · rw [if_pos hpos, if_pos (congrArg some hpos.symm)]
            · rw [if_neg hpos, if_neg (fun heq => hpos (Option.some.inj heq).symm), ground]
          rw [if_pos hfull, ground_load, hbgclr, hevict]
          split
          case isTrue hpos => rw [hself hpos, ite_self]
          case isFalse => rfl
        · rw [if_neg hfull, ground_load, if_neg (drops_eq_none fun _ _ => hfull)]
          split
          case isTrue hpos => rw [hself hpos]
          case isFalse => rfl

/-- Asking for a chunk. -/
theorem Sound.bytes_getChunk (h : Sound w d) (hok : (w.getChunk d x y).2.2.intact)
    (pos : ChunkPos) :
  (w.getChunk d x y).2.1.bytes (w.getChunk d x y).2.2 pos = w.bytesAfter d (x, y) pos
  := by
  by_cases hrange : inRange x y
  case neg =>
    rw [getChunk_of_not_inRange hrange, bytesAfter,
      if_neg (drops_eq_none fun h => absurd h hrange)]
  case pos =>
    have hground := ground_getChunk w d x y pos
    obtain ⟨c, w', d', hget, hsound, hview, -⟩ := getChunk_spec h hrange hok
    rw [hget] at hground ⊢
    dsimp only at hground ⊢
    rw [hsound.bytes_eq, hview, hground, bytesAfter, h.bytes_eq]
    split
    · rfl
    · rfl

/-- A chunk that is asked for has the bytes and the background it had. -/
theorem Sound.found (h : Sound w d) (hget : w.getChunk d x y = (some c, w', d'))
    (hok : d'.intact) :
  c.data = w.bytes d (x, y) ∧ c.bgclr = w.ground (x, y)
  := by
  obtain ⟨hloaded, hold, -⟩ := lookup_getChunk hget
  have hground := ground_getChunk w d x y (x, y)
  have hbytes := h.bytes_getChunk (x := x) (y := y) (by rw [hget]; exact hok) (x, y)
  rw [hget, ground_of_some hloaded] at hground
  rw [hget, bytes_of_some hloaded, bytesAfter] at hbytes
  cases hc : w.chunks.lookup (x, y) with
  | some c₀ =>
      have hno : w.drops d (x, y) ≠ some (x, y) :=
        drops_eq_none fun _ hnone => by rw [hc] at hnone; cases hnone
      rw [if_neg hno] at hground hbytes
      exact ⟨hbytes, hground⟩
  | none =>
      rw [ground_of_none hc, ite_self] at hground
      rw [h.bytes_eq, ground_of_none hc, ite_self] at hbytes
      rw [h.bytes_eq, ground_of_none hc]
      exact ⟨hbytes, hground⟩

/-- The bytes of another chunk change only if it fades. -/
theorem Sound.bytesAfter_eq_iff (h : Sound w d) (asked pos : ChunkPos) :
  w.bytesAfter d asked pos = w.bytes d pos ↔ ¬ (w.drops d asked = some pos ∧ w.Faded d pos)
  := by
  rw [bytesAfter]
  split
  case isFalse hno => exact ⟨fun _ h => hno h.1, fun _ => rfl⟩
  case isTrue hdrops =>
    rw [h.bytes_eq, faded_iff, eq_true hdrops, true_and]
    cases hview : w.view d pos with
    | some data => simp
    | none =>
        rw [Option.getD_none, Option.getD_none, eq_comm, Data.fill_inj]
        simp

/-! ### Changing chunks -/

omit [Platform] in
/-- A chunk is put in its place. -/
theorem bytes_putChunk (w : World) (d : Disk) (pos pos' : ChunkPos) (c : Chunk) :
  (w.putChunk pos c).bytes d pos' = if pos' = pos then c.data else w.bytes d pos'
  := by
  rw [bytes, putChunk]
  dsimp only
  rw [lookup_insert]
  by_cases hpos : pos' = pos
  · rw [if_pos hpos, if_pos hpos]
  · rw [if_neg hpos, if_neg hpos, bytes]

/-- Clearing a chunk gives it the background it was loaded with. -/
theorem Sound.bytes_delChunk (h : Sound w d) (hok : (w.delChunk d x y).2.1.intact)
    (pos : ChunkPos) :
  (w.delChunk d x y).1.bytes (w.delChunk d x y).2.1 pos
    = if inRange x y ∧ pos = (x, y) then Data.fill (w.ground (x, y)) else w.bytesAfter d (x, y) pos
  := by
  have hbytes := h.bytes_getChunk (x := x) (y := y)
  obtain ⟨hrange, hget⟩ | ⟨hrange, c, w', d', hget⟩ := w.getChunk_cases d x y
  · rw [delChunk, hget] at hok ⊢
    rw [hget] at hbytes
    rw [if_neg (fun h => hrange h.1)]
    exact hbytes hok pos
  · rw [delChunk, hget] at hok ⊢
    rw [hget] at hbytes
    dsimp only at hok hbytes ⊢
    rw [bytes_putChunk, hbytes hok, Chunk.clear, (h.found hget hok).2]
    simp only [hrange, true_and]

/-- Setting a pixel. -/
theorem Sound.bytes_putPx (h : Sound w d) (clr : RGB) (r : Rank)
    (hok : (w.putPx d x y clr r).2.2.intact) (pos : ChunkPos) :
  (w.putPx d x y clr r).2.1.bytes (w.putPx d x y clr r).2.2 pos
    = if inRange (chunkOf x) (chunkOf y) ∧ pos = (chunkOf x, chunkOf y) then
        (w.bytes d pos).setPx (low4 x) (low4 y) clr
      else w.bytesAfter d (chunkOf x, chunkOf y) pos
  := by
  have hbytes := h.bytes_getChunk (x := chunkOf x) (y := chunkOf y)
  obtain ⟨hrange, hget⟩ | ⟨hrange, c, w', d', hget⟩ := w.getChunk_cases d (chunkOf x) (chunkOf y)
  · rw [putPx, hget] at hok ⊢
    rw [hget] at hbytes
    rw [if_neg (fun h => hrange h.1)]
    exact hbytes hok pos
  · rw [putPx, hget] at hok ⊢
    rw [hget] at hbytes
    dsimp only at hok hbytes ⊢
    have hloaded := (lookup_getChunk hget).1
    simp only [hrange, true_and]
    by_cases hcolour : c.data.px (low4 x) (low4 y) = clr
    · have hset : c.setData (low4 x) (low4 y) clr = (false, c) := if_pos hcolour
      rw [hset] at hok ⊢
      dsimp only at hok ⊢
      rw [if_neg Bool.false_ne_true] at hok ⊢
      split
      case isTrue hpos =>
        rw [hpos, bytes_of_some hloaded, ← (h.found hget hok).1, Data.setPx_eq_self hcolour]
      case isFalse => exact hbytes hok pos
    · have hset : c.setData (low4 x) (low4 y) clr
          = (true, { c with data := c.data.setPx (low4 x) (low4 y) clr, changed := true }) :=
        if_neg hcolour
      rw [hset] at hok ⊢
      dsimp only at hok ⊢
      rw [if_pos rfl] at hok ⊢
      have hput := bytes_putChunk w' d' (chunkOf x, chunkOf y) pos
        { c with data := c.data.setPx (low4 x) (low4 y) clr, changed := true }
      refine hput.trans ?_
      rw [hbytes hok]
      split
      case isTrue hpos => rw [hpos, ← (h.found hget hok).1]
      case isFalse => rfl

/-! ### Saving -/

/-- Saving chunks does not change their backgrounds. -/
theorem ground_foldl_saveChunk (poss : List ChunkPos) (s : World × Disk) (pos : ChunkPos) :
  (poss.foldl saveChunk s).1.ground pos = s.1.ground pos
  := by
  induction poss generalizing s with
  | nil => rfl
  | cons pos' poss ih =>
      have hlookup := lookup_saveChunk s pos' pos
      have hbgclr := (saveChunk_frame s pos').bgclr
      rw [List.foldl_cons, ih, ground, hlookup, hbgclr, ground]
      by_cases hpos : pos = pos'
      · rw [if_pos hpos, hpos]
        cases s.1.chunks.lookup pos' with
        | none => rfl
        | some c => rfl
      · rw [if_neg hpos]

/-- Saving a world does not change the bytes of its chunks. -/
theorem Sound.bytes_save (h : Sound w d) (hok : (w.save d).2.intact) (pos : ChunkPos) :
  (w.save d).1.bytes (w.save d).2 pos = w.bytes d pos
  := by
  obtain ⟨hsound, hview, -⟩ := save_spec h hok
  have hground : (w.save d).1.ground pos = w.ground pos :=
    ground_foldl_saveChunk w.chunks.keys (w, d) pos
  rw [hsound.bytes_eq, hview, hground, h.bytes_eq]

end World

end Owop
