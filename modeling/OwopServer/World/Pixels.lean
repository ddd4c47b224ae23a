import OwopServer.Compression.Lossless
import OwopServer.World.Loading

/-!
# The world as a map of pixels

A single world shows, for each pixel, the colour of the last write to it that was accepted,
and the background colour where there was none.  The writes are single pixels, chunks cleared
and chunks pasted; loading, evicting, saving and reloading in between make no difference.
-/

namespace Owop

open Database (stored)

/-! ### Writes -/

/-- An accepted write to a world. -/
inductive Write where
  | px (x y : Int32) (clr : RGB)
  | clear (cx cy : Int32)
  | paste (cx cy : Int32) (data : Data)

/-- The colour a write gives to the pixel at `x`, `y`, on a background of colour `bgclr`. -/
def Write.colour (bgclr : UInt32) (x y : Int32) : Write → Option RGB
  | .px x' y' clr => if x = x' ∧ y = y' then some clr else none
  | .clear cx cy => if chunkOf x = cx ∧ chunkOf y = cy then some (Data.background bgclr) else none
  | .paste cx cy data =>
      if chunkOf x = cx ∧ chunkOf y = cy then some (data.px (low4 x) (low4 y)) else none

/-- The colour the last of the writes to the pixel at `x`, `y` gave it. -/
def lastWrite (bgclr : UInt32) (ws : List Write) (x y : Int32) : Option RGB :=
  ws.foldl (fun last w => (w.colour bgclr x y).or last) none

/-- The last write counts, if it writes that pixel. -/
theorem lastWrite_append (bgclr : UInt32) (ws : List Write) (w : Write) (x y : Int32) :
  lastWrite bgclr (ws ++ [w]) x y = (w.colour bgclr x y).or (lastWrite bgclr ws x y)
  := by
  rw [lastWrite, List.foldl_append]
  rfl

namespace World

/-- The colour the world shows at `x`, `y`. -/
def pixel (w : World) (d : Disk) (x y : Int32) : RGB :=
  ((w.view d (chunkOf x, chunkOf y)).getD (Data.fill w.bgclr)).px (low4 x) (low4 y)

/-- All loaded chunks were loaded with the background colour of the world. -/
def Uniform (w : World) : Prop := ∀ pos c, w.chunks.lookup pos = some c → c.bgclr = w.bgclr

/-- The pixels after one chunk has been changed. -/
theorem pixel_update {w w' : World} {d d' : Disk} {pos : ChunkPos} {data : Data}
    (hview : w'.view d' = Function.update (w.view d) pos (some data)) (hbg : w'.bgclr = w.bgclr)
    (x y : Int32) :
  w'.pixel d' x y
    = if (chunkOf x, chunkOf y) = pos then data.px (low4 x) (low4 y) else w.pixel d x y
  := by
  rw [pixel, hview]
  by_cases hp : (chunkOf x, chunkOf y) = pos
  · rw [if_pos hp, hp, Function.update_self, Option.getD_some]
  · rw [if_neg hp, Function.update_of_ne hp, hbg, pixel]

variable [Platform]

/-! ### The operations on pixels -/

omit [Platform] in
/-- Loading and saving keep the background. -/
theorem Uniform.frame {w w' : World} {d d' : Disk} (h : Uniform w) (hf : Frame w d w' d') :
  Uniform w'
  := by
  intro pos c' hc'
  rw [hf.bgclr]
  obtain ⟨c, hc, hb⟩ | hb := hf.blank pos c' hc'
  · exact hb.trans (h pos c hc)
  · exact hb

omit [Platform] in
/-- A chunk with the background of the world is put in its place. -/
theorem Uniform.putChunk {w : World} {pos : ChunkPos} {c : Chunk} (h : Uniform w)
    (hc : c.bgclr = w.bgclr) :
  Uniform (w.putChunk pos c)
  := by
  intro pos' c' hc'
  rw [World.putChunk, lookup_insert] at hc'
  split at hc'
  case isTrue =>
    cases hc'
    exact hc
  case isFalse => exact h pos' c' hc'

/-- What the operations on pixels keep: the world is sound, shows its background where nothing
was written, and has the database it had. -/
structure Plain (dir : Bytes) (bgclr : UInt32) (w : World) (d : Disk) : Prop where
  sound : Sound w d
  uniform : Uniform w
  bgclr : w.bgclr = bgclr
  dir : w.db.dir = dir
  saved : w.db.changedPropsOrProtects = false

variable {dir : Bytes} {bgclr : UInt32} {w : World} {d : Disk}

/-- Getting a chunk shows it and keeps what the world shows. -/
theorem Plain.getChunk (h : Plain dir bgclr w d) (x y : Int32)
    (hok : (w.getChunk d x y).2.2.intact) :
  Plain dir bgclr (w.getChunk d x y).2.1 (w.getChunk d x y).2.2 ∧
    (w.getChunk d x y).2.1.view (w.getChunk d x y).2.2 = w.view d
  := by
  have hf := getChunk_frame w d x y
  have hrest : ∀ w' d', Frame w d w' d' → Sound w' d' → Plain dir bgclr w' d' := by
    intro w' d' hf hs
    refine ⟨hs, h.uniform.frame hf, hf.bgclr.trans h.bgclr, ?_, ?_⟩
    · rw [hf.db.props.dir, h.dir]
    · rw [hf.db.props.changed, h.saved]
  by_cases hr : inRange x y
  · obtain ⟨c, w', d', heq, hs, hv, -⟩ := getChunk_spec h.sound hr hok
    rw [heq] at hf ⊢
    exact ⟨hrest w' d' hf hs, hv⟩
  · rw [getChunk_of_not_inRange hr]
    exact ⟨h, rfl⟩

/-- A chunk that is got was loaded with the background colour of the world. -/
theorem Plain.chunk_bgclr {x y : Int32} {c : Chunk} {w' : World} {d' : Disk}
    (h : Plain dir bgclr w d) (heq : w.getChunk d x y = (some c, w', d')) (hok : d'.intact) :
  c.bgclr = bgclr
  := by
  have hplain := (h.getChunk x y (by rw [heq]; exact hok)).1
  have hr : inRange x y := by
    by_contra hr
    rw [getChunk_of_not_inRange hr] at heq
    cases heq
  obtain ⟨c₁, w₁, d₁, heq₁, -, -, hc, -⟩ := getChunk_spec h.sound hr (by rw [heq]; exact hok)
  rw [heq] at heq₁ hplain
  cases heq₁
  rw [hplain.uniform _ c hc, hplain.bgclr]

/-- A chunk that is read has the colours the world shows. -/
theorem Plain.px_eq {x y : Int32} {c : Chunk} {w' : World} {d' : Disk}
    (h : Plain dir bgclr w d) (heq : w.getChunk d (chunkOf x) (chunkOf y) = (some c, w', d'))
    (hok : d'.intact) :
  c.data.px (low4 x) (low4 y) = w.pixel d x y
  := by
  have hb := h.chunk_bgclr heq hok
  have hr : inRange (chunkOf x) (chunkOf y) := by
    by_contra hr
    rw [getChunk_of_not_inRange hr] at heq
    cases heq
  obtain ⟨c₁, w₁, d₁, heq₁, -, -, -, hdata, -⟩ := change_spec h.sound hr (by rw [heq]; exact hok)
  rw [heq] at heq₁
  cases heq₁
  rw [hdata, hb, ← h.bgclr, pixel]

/-- Changing the data of a chunk changes the pixels of the chunk. -/
theorem Plain.change {x y : Int32} {c : Chunk} {w' : World} {d' : Disk}
    (h : Plain dir bgclr w d) (data : Data) (heq : w.getChunk d x y = (some c, w', d'))
    (hok : d'.intact) :
  Plain dir bgclr (w'.putChunk (x, y) { c with data := data, changed := true }) d' ∧
    ∀ x' y', (w'.putChunk (x, y) { c with data := data, changed := true }).pixel d' x' y'
      = if (chunkOf x', chunkOf y') = (x, y) then data.px (low4 x') (low4 y')
        else w.pixel d x' y'
  := by
  have hr : inRange x y := by
    by_contra hr
    rw [getChunk_of_not_inRange hr] at heq
    cases heq
  have hplain := (h.getChunk x y (by rw [heq]; exact hok)).1
  obtain ⟨c₁, w₁, d₁, heq₁, -, -, hc, -, hput⟩ := change_spec h.sound hr (by rw [heq]; exact hok)
  rw [heq] at heq₁ hplain
  cases heq₁
  obtain ⟨hs, hv⟩ := hput data
  refine ⟨⟨hs, ?_, hplain.bgclr, hplain.dir, hplain.saved⟩, ?_⟩
  · apply hplain.uniform.putChunk
    exact hplain.uniform _ c hc
  · exact pixel_update hv (hplain.bgclr.trans h.bgclr.symm)

/-- A pixel out of range. -/
theorem putPx_of_none {x y : Int32} {clr : RGB} {rank : Rank} {w' : World} {d' : Disk}
    (h : w.getChunk d (chunkOf x) (chunkOf y) = (none, w', d')) :
  w.putPx d x y clr rank = (false, w', d')
  := by
  rw [World.putPx, h]

/-- A pixel that has the colour already. -/
theorem putPx_of_eq {x y : Int32} {clr : RGB} {rank : Rank} {c : Chunk} {w' : World} {d' : Disk}
    (h : w.getChunk d (chunkOf x) (chunkOf y) = (some c, w', d'))
    (hpx : c.data.px (low4 x) (low4 y) = clr) :
  w.putPx d x y clr rank = (false, w', d')
  := by
  have hset : c.setData (low4 x) (low4 y) clr = (false, c) := if_pos hpx
  rw [World.putPx, h]
  simp only [hset]
  rfl

/-- A pixel that gets another colour. -/
theorem putPx_of_ne {x y : Int32} {clr : RGB} {rank : Rank} {c : Chunk} {w' : World} {d' : Disk}
    (h : w.getChunk d (chunkOf x) (chunkOf y) = (some c, w', d'))
    (hpx : c.data.px (low4 x) (low4 y) ≠ clr) :
  w.putPx d x y clr rank = (true, schedUpdates { w'.putChunk (chunkOf x, chunkOf y)
      { c with data := c.data.setPx (low4 x) (low4 y) clr, changed := true } with
      pxupdates := w'.pxupdates ++ [⟨x, y, clr.r, clr.g, clr.b⟩] }, d')
  := by
  have hset : c.setData (low4 x) (low4 y) clr = (true, { c with
      data := c.data.setPx (low4 x) (low4 y) clr
      changed := true }) := if_neg hpx
  rw [World.putPx, h]
  simp only [hset]
  rfl

/-- What a `put_px` does to the files is getting the chunk. -/
theorem putPx_disk (w : World) (d : Disk) (x y : Int32) (clr : RGB) (rank : Rank) :
  (w.putPx d x y clr rank).2.2 = (w.getChunk d (chunkOf x) (chunkOf y)).2.2
  := by
  cases heq : w.getChunk d (chunkOf x) (chunkOf y) with
  | mk c rest =>
      obtain ⟨w', d'⟩ := rest
      cases c with
      | none => rw [putPx_of_none heq]
      | some c =>
          by_cases hpx : c.data.px (low4 x) (low4 y) = clr
          · rw [putPx_of_eq heq hpx]
          · rw [putPx_of_ne heq hpx]

/-- An accepted `put_px` changes its pixel, and any other call changes no pixel. -/
theorem Plain.putPx (h : Plain dir bgclr w d) (x y : Int32) (clr : RGB) (rank : Rank)
    (hok : (w.putPx d x y clr rank).2.2.intact) :
  Plain dir bgclr (w.putPx d x y clr rank).2.1 (w.putPx d x y clr rank).2.2 ∧
    ∀ x' y', (w.putPx d x y clr rank).2.1.pixel (w.putPx d x y clr rank).2.2 x' y'
      = if (w.putPx d x y clr rank).1 = true ∧ x' = x ∧ y' = y then clr else w.pixel d x' y'
  := by
  rw [putPx_disk] at hok
  obtain ⟨hplain, hv⟩ := h.getChunk _ _ hok
  cases heq : w.getChunk d (chunkOf x) (chunkOf y) with
  | mk c rest =>
      obtain ⟨w₁, d₁⟩ := rest
      rw [heq] at hok hplain hv
      have hsame : ∀ x' y', w₁.pixel d₁ x' y' = w.pixel d x' y' := by
        intro x' y'
        rw [pixel, hv, hplain.bgclr, ← h.bgclr, pixel]
      cases c with
      | none =>
          rw [putPx_of_none heq]
          exact ⟨hplain, fun x' y' => by simpa using hsame x' y'⟩
      | some c =>
          by_cases hpx : c.data.px (low4 x) (low4 y) = clr
          · rw [putPx_of_eq heq hpx]
            exact ⟨hplain, fun x' y' => by simpa using hsame x' y'⟩
          · rw [putPx_of_ne heq hpx]
            obtain ⟨hp, hpix⟩ := h.change (c.data.setPx (low4 x) (low4 y) clr) heq hok
            refine ⟨⟨hp.sound.congr rfl rfl, hp.uniform, hp.bgclr, hp.dir, hp.saved⟩, ?_⟩
            intro x' y'
            have hcell := hpix x' y'
            rw [Data.px_setPx] at hcell
            refine Eq.trans hcell ?_
            by_cases hpos : (chunkOf x', chunkOf y') = (chunkOf x, chunkOf y)
            · rw [if_pos hpos]
              rw [Prod.mk.injEq] at hpos
              by_cases hlow : low4 x' = low4 x ∧ low4 y' = low4 y
              · rw [if_pos hlow, if_pos ⟨rfl, chunkOf_low4_inj hpos.1 hlow.1,
                  chunkOf_low4_inj hpos.2 hlow.2⟩]
              · rw [if_neg hlow, if_neg]
                · exact h.px_eq (by rw [hpos.1, hpos.2]; exact heq) hok
                · rintro ⟨-, rfl, rfl⟩
                  exact hlow ⟨rfl, rfl⟩
            · rw [if_neg hpos, if_neg]
              rintro ⟨-, rfl, rfl⟩
              exact hpos rfl

/-- Pasting a chunk gives its pixels the colours pasted. -/
theorem Plain.pasteChunk (h : Plain dir bgclr w d) (x y : Int32) (data : Data)
    (hok : (w.pasteChunk d x y data).2.1.intact) :
  Plain dir bgclr (w.pasteChunk d x y data).1 (w.pasteChunk d x y data).2.1 ∧
    ∀ x' y', (w.pasteChunk d x y data).1.pixel (w.pasteChunk d x y data).2.1 x' y'
      = if inRange x y ∧ (chunkOf x', chunkOf y') = (x, y) then data.px (low4 x') (low4 y')
        else w.pixel d x' y'
  := by
  rw [World.pasteChunk] at hok ⊢
  obtain ⟨hr, heq⟩ | ⟨hr, c, w', d', heq⟩ := getChunk_cases w d x y
  · rw [heq] at hok ⊢
    simp only [hr, false_and, if_false]
    exact ⟨h, fun _ _ => trivial⟩
  · rw [heq] at hok ⊢
    simp only [hr, true_and]
    exact h.change data heq hok

/-- Clearing a chunk is pasting the background. -/
theorem Plain.delChunk_eq {x y : Int32} (h : Plain dir bgclr w d)
    (hok : (w.delChunk d x y).2.1.intact) :
  w.delChunk d x y = w.pasteChunk d x y (Data.fill bgclr)
  := by
  rw [World.delChunk] at hok ⊢
  rw [World.pasteChunk]
  obtain ⟨-, heq⟩ | ⟨-, c, w', d', heq⟩ := getChunk_cases w d x y
  · rw [heq]
  · rw [heq] at hok ⊢
    have hclear : c.clear = c.setDataFrom (Data.fill bgclr) := by
      rw [Chunk.clear, Chunk.setDataFrom, h.chunk_bgclr heq hok]
    dsimp only
    rw [hclear]

/-- Clearing a chunk gives its pixels the background colour. -/
theorem Plain.delChunk (h : Plain dir bgclr w d) (x y : Int32)
    (hok : (w.delChunk d x y).2.1.intact) :
  Plain dir bgclr (w.delChunk d x y).1 (w.delChunk d x y).2.1 ∧
    ∀ x' y', (w.delChunk d x y).1.pixel (w.delChunk d x y).2.1 x' y'
      = if inRange x y ∧ (chunkOf x', chunkOf y') = (x, y) then Data.background bgclr
        else w.pixel d x' y'
  := by
  have heq := h.delChunk_eq hok
  rw [heq] at hok ⊢
  simpa only [Data.px_fill] using h.pasteChunk x y (Data.fill bgclr) hok

/-- Sending a chunk shows it. -/
theorem sendChunk_eq (w : World) (d : Disk) (ws : Ws) (x y : Int32) :
  (w.sendChunk d ws x y).1 = (w.getChunk d x y).2.1 ∧
    (w.sendChunk d ws x y).2.1 = (w.getChunk d x y).2.2 ∧
    (w.sendChunk d ws x y).2.2
      = ((w.getChunk d x y).1.map fun c => Out.one ws .binary c.dataMsg).toList
  := by
  rw [World.sendChunk]
  obtain ⟨-, heq⟩ | ⟨-, c, w', d', heq⟩ := getChunk_cases w d x y
  · rw [heq]
    exact ⟨rfl, rfl, rfl⟩
  · rw [heq]
    exact ⟨rfl, rfl, rfl⟩

/-- What the operations on pixels do to the files is getting the chunk. -/
theorem pasteChunk_disk (w : World) (d : Disk) (x y : Int32) (data : Data) :
  (w.pasteChunk d x y data).2.1 = (w.getChunk d x y).2.2
  := by
  rw [World.pasteChunk]
  obtain ⟨-, heq⟩ | ⟨-, c, w', d', heq⟩ := getChunk_cases w d x y
  · rw [heq]
  · rw [heq]

/-- Clearing a chunk writes nothing to the files. -/
theorem delChunk_disk (w : World) (d : Disk) (x y : Int32) :
  (w.delChunk d x y).2.1 = (w.getChunk d x y).2.2
  := by
  rw [World.delChunk]
  obtain ⟨-, heq⟩ | ⟨-, c, w', d', heq⟩ := getChunk_cases w d x y
  · rw [heq]
  · rw [heq]

/-! ### Names -/

/-- Looking for a chunk keeps the name of the world. -/
theorem getChunk_name (w : World) (d : Disk) (x y : Int32) :
  (w.getChunk d x y).2.1.name = w.name
  := by
  rw [(getChunk_frame w d x y).rest]

/-- Setting a pixel keeps the name of the world. -/
theorem putPx_name (w : World) (d : Disk) (x y : Int32) (clr : RGB) (rank : Rank) :
  (w.putPx d x y clr rank).2.1.name = w.name
  := by
  have hname := getChunk_name w d (chunkOf x) (chunkOf y)
  obtain ⟨-, heq⟩ | ⟨-, c, w', d', heq⟩ := getChunk_cases w d (chunkOf x) (chunkOf y)
  · rw [putPx_of_none heq]
  · rw [heq] at hname
    by_cases hpx : c.data.px (low4 x) (low4 y) = clr
    · rw [putPx_of_eq heq hpx]
      exact hname
    · rw [putPx_of_ne heq hpx]
      exact hname

/-- Pasting a chunk keeps the name of the world. -/
theorem pasteChunk_name (w : World) (d : Disk) (x y : Int32) (data : Data) :
  (w.pasteChunk d x y data).1.name = w.name
  := by
  have hname := getChunk_name w d x y
  rw [World.pasteChunk]
  obtain ⟨-, heq⟩ | ⟨-, c, w', d', heq⟩ := getChunk_cases w d x y
  · rw [heq]
  · rw [heq] at hname ⊢
    exact hname

/-- Clearing a chunk keeps the name of the world. -/
theorem delChunk_name (w : World) (d : Disk) (x y : Int32) :
  (w.delChunk d x y).1.name = w.name
  := by
  have hname := getChunk_name w d x y
  rw [World.delChunk]
  obtain ⟨-, heq⟩ | ⟨-, c, w', d', heq⟩ := getChunk_cases w d x y
  · rw [heq]
  · rw [heq] at hname ⊢
    exact hname

/-- Saving a world does not change its pixels. -/
theorem Plain.save (h : Plain dir bgclr w d) (hok : (w.save d).2.intact) :
  Plain dir bgclr (w.save d).1 (w.save d).2 ∧
    ∀ x y, (w.save d).1.pixel (w.save d).2 x y = w.pixel d x y
  := by
  obtain ⟨hs, hv, -⟩ := save_spec h.sound hok
  obtain ⟨db, chunks, heq, hprops, hblank, -⟩ := save_frame w d
  have hbg : (w.save d).1.bgclr = w.bgclr := by rw [heq]
  refine ⟨⟨hs, ?_, hbg.trans h.bgclr, ?_, ?_⟩, ?_⟩
  · intro pos c' hc'
    rw [heq] at hc'
    rw [hbg]
    obtain ⟨c, hc, hb⟩ | hb := hblank pos c' hc'
    · exact hb.trans (h.uniform pos c hc)
    · exact hb
  · rw [save_dir, h.dir]
  · rw [heq]
  · intro x y
    rw [pixel, hv, hbg, pixel]

end World

/-! ### Runs -/

/-- A call of an operation of a world, or the world unloaded and loaded again. -/
inductive WorldOp where
  | putPx (x y : Int32) (clr : RGB) (rank : Rank)
  | delChunk (x y : Int32)
  | pasteChunk (x y : Int32) (data : Data)
  | sendChunk (ws : Ws) (x y : Int32)
  | getChunk (x y : Int32)
  | save
  | reload

/-- A world, its files, and the writes it has accepted. -/
structure Store where
  world : World
  disk : Disk
  writes : List Write

namespace Store

variable [Platform]

/-- The store after a call. -/
def step (path : Bytes) (s : Store) : WorldOp → Store
  | .putPx x y clr rank =>
      let (set, w, d) := s.world.putPx s.disk x y clr rank
      ⟨w, d, if set then s.writes ++ [.px x y clr] else s.writes⟩
  | .delChunk x y =>
      let (w, d, _) := s.world.delChunk s.disk x y
      ⟨w, d, if World.inRange x y then s.writes ++ [.clear x y] else s.writes⟩
  | .pasteChunk x y data =>
      let (w, d, _) := s.world.pasteChunk s.disk x y data
      ⟨w, d, if World.inRange x y then s.writes ++ [.paste x y data] else s.writes⟩
  | .sendChunk ws x y =>
      let (w, d, _) := s.world.sendChunk s.disk ws x y
      ⟨w, d, s.writes⟩
  | .getChunk x y =>
      let (_, w, d) := s.world.getChunk s.disk x y
      ⟨w, d, s.writes⟩
  | .save =>
      let (w, d) := s.world.save s.disk
      ⟨w, d, s.writes⟩
  | .reload =>
      let (w, d) := World.new path s.world.name (s.world.delete s.disk)
      ⟨w, d, s.writes⟩

/-- A world that has just been loaded. -/
def loaded (path name : Bytes) (d : Disk) : Store :=
  ⟨(World.new path name d).1, (World.new path name d).2, []⟩

/-- The store after a sequence of calls. -/
def run (path name : Bytes) (d : Disk) (ops : List WorldOp) : Store :=
  ops.foldl (step path) (loaded path name d)

omit [Platform] in
/-- A write added to those accepted. -/
theorem pixel_write {w w' : World} {d d' : Disk} {bgclr : UInt32} {writes : List Write} {wr : Write}
    (h : ∀ x y, w.pixel d x y = (lastWrite bgclr writes x y).getD (Data.background bgclr))
    (hw : ∀ x y, w'.pixel d' x y = (wr.colour bgclr x y).getD (w.pixel d x y)) :
  ∀ x y, w'.pixel d' x y
    = (lastWrite bgclr (writes ++ [wr]) x y).getD (Data.background bgclr)
  := by
  intro x y
  rw [hw, h, lastWrite_append]
  cases wr.colour bgclr x y with
  | none => rfl
  | some clr => rfl

/-- The store shows the last accepted writes, and its properties are those it was loaded
with. -/
structure Shows (path name : Bytes) (bgclr : UInt32) (read : Option Bytes) (s : Store) : Prop where
  plain : World.Plain (World.dirOf path name) bgclr s.world s.disk
  called : s.world.name = name
  props : s.disk.files (World.dirOf path name, .props) = read
  housed : s.disk.dirs (World.dirOf path name) = false → read = none
  pixel : ∀ x y, s.world.pixel s.disk x y
    = (lastWrite bgclr s.writes x y).getD (Data.background bgclr)

variable {path name : Bytes} {bgclr : UInt32} {read : Option Bytes} {s : Store}

omit [Platform] in
/-- No directory goes away. -/
theorem Shows.housed_of_within {d' : Disk} {S : Set Path} (h : Shows path name bgclr read s)
    (hd : Disk.Within S (World.dirOf path name) s.disk d') :
  d'.dirs (World.dirOf path name) = false → read = none
  := by
  intro hdir
  apply h.housed
  by_contra hmade
  rw [Bool.not_eq_false] at hmade
  rw [hd.made hmade] at hdir
  cases hdir

/-- Getting a chunk works in the region files. -/
theorem Shows.getChunk_within (h : Shows path name bgclr read s) (x y : Int32) :
  (s.world.getChunk s.disk x y).2.2.files (World.dirOf path name, .props) = read ∧
    ((s.world.getChunk s.disk x y).2.2.dirs (World.dirOf path name) = false → read = none)
  := by
  have hw := (World.getChunk_frame s.world s.disk x y).db.within
  rw [h.plain.dir] at hw
  exact ⟨(hw.files _ (by simp [Disk.regionFiles])).trans h.props, h.housed_of_within hw⟩

/-- A pixel is set. -/
theorem Shows.putPx (h : Shows path name bgclr read s) (x y : Int32) (clr : RGB) (rank : Rank)
    (hok : (s.step path (.putPx x y clr rank)).disk.intact) :
  Shows path name bgclr read (s.step path (.putPx x y clr rank))
  := by
  have hname := World.putPx_name s.world s.disk x y clr rank
  have hdisk := World.putPx_disk s.world s.disk x y clr rank
  obtain ⟨hprops, hhoused⟩ := h.getChunk_within (chunkOf x) (chunkOf y)
  rw [← hdisk] at hprops hhoused
  obtain ⟨hplain, hpixel⟩ := h.plain.putPx x y clr rank hok
  rw [Store.step]
  generalize s.world.putPx s.disk x y clr rank = put at *
  obtain ⟨set, w, d⟩ := put
  refine ⟨hplain, hname.trans h.called, hprops, hhoused, ?_⟩
  cases set with
  | false =>
      intro x' y'
      exact (hpixel x' y').trans ((if_neg (by simp)).trans (h.pixel x' y'))
  | true =>
      apply pixel_write h.pixel
      intro x' y'
      refine (hpixel x' y').trans ?_
      rw [Write.colour]
      by_cases hxy : x' = x ∧ y' = y
      · rw [if_pos ⟨rfl, hxy⟩, if_pos hxy]
        rfl
      · rw [if_neg (fun hc => hxy hc.2), if_neg hxy]
        rfl

/-- A chunk cleared or pasted is one more write, if it is in range. -/
theorem Shows.write {w : World} {d : Disk} {x y : Int32} {wr : Write}
    (h : Shows path name bgclr read s) (data : Data)
    (hplain : World.Plain (World.dirOf path name) bgclr w d)
    (hname : w.name = s.world.name) (hdisk : d = (s.world.getChunk s.disk x y).2.2)
    (hpixel : ∀ x' y', w.pixel d x' y'
      = if World.inRange x y ∧ (chunkOf x', chunkOf y') = (x, y) then data.px (low4 x') (low4 y')
        else s.world.pixel s.disk x' y')
    (hwr : ∀ x' y', wr.colour bgclr x' y'
      = if chunkOf x' = x ∧ chunkOf y' = y then some (data.px (low4 x') (low4 y')) else none) :
  Shows path name bgclr read
    ⟨w, d, if World.inRange x y then s.writes ++ [wr] else s.writes⟩
  := by
  obtain ⟨hprops, hhoused⟩ := h.getChunk_within x y
  rw [← hdisk] at hprops hhoused
  refine ⟨hplain, hname.trans h.called, hprops, hhoused, ?_⟩
  by_cases hr : World.inRange x y
  · simp only [hr, true_and, Prod.mk.injEq] at hpixel
    rw [if_pos hr]
    apply pixel_write h.pixel
    intro x' y'
    rw [hpixel, hwr]
    split
    · rfl
    · rfl
  · simp only [hr, false_and, if_false] at hpixel
    rw [if_neg hr]
    exact fun x' y' => (hpixel x' y').trans (h.pixel x' y')

/-- A chunk is cleared. -/
theorem Shows.delChunk (h : Shows path name bgclr read s) (x y : Int32)
    (hok : (s.step path (.delChunk x y)).disk.intact) :
  Shows path name bgclr read (s.step path (.delChunk x y))
  := by
  obtain ⟨hplain, hpixel⟩ := h.plain.delChunk x y hok
  apply h.write (Data.fill bgclr) hplain (World.delChunk_name _ _ _ _)
    (World.delChunk_disk _ _ _ _)
  · simpa only [Data.px_fill] using hpixel
  · simp only [Write.colour, Data.px_fill, implies_true]

/-- A chunk is pasted. -/
theorem Shows.pasteChunk (h : Shows path name bgclr read s) (x y : Int32) (data : Data)
    (hok : (s.step path (.pasteChunk x y data)).disk.intact) :
  Shows path name bgclr read (s.step path (.pasteChunk x y data))
  := by
  obtain ⟨hplain, hpixel⟩ := h.plain.pasteChunk x y data hok
  apply h.write data hplain (World.pasteChunk_name _ _ _ _ _)
    (World.pasteChunk_disk _ _ _ _ _) hpixel
  simp only [Write.colour, implies_true]

/-- A chunk is looked for. -/
theorem Shows.getChunk (h : Shows path name bgclr read s) (x y : Int32)
    (hok : (s.world.getChunk s.disk x y).2.2.intact) :
  Shows path name bgclr read
    ⟨(s.world.getChunk s.disk x y).2.1, (s.world.getChunk s.disk x y).2.2, s.writes⟩
  := by
  obtain ⟨hprops, hhoused⟩ := h.getChunk_within x y
  obtain ⟨hplain, hview⟩ := h.plain.getChunk x y hok
  refine ⟨hplain, (World.getChunk_name _ _ _ _).trans h.called, hprops, hhoused, ?_⟩
  intro x' y'
  rw [← h.pixel, World.pixel, hview, hplain.bgclr, ← h.plain.bgclr, World.pixel]

/-- The world is saved. -/
theorem Shows.save (h : Shows path name bgclr read s) (hok : (s.step path .save).disk.intact) :
  Shows path name bgclr read (s.step path .save)
  := by
  obtain ⟨hplain, hpixel⟩ := h.plain.save hok
  obtain ⟨db, chunks, heq, -, -, hwithin⟩ := World.save_frame s.world s.disk
  have hprops := World.save_props (d := s.disk) h.plain.saved
  rw [h.plain.dir] at hwithin hprops
  refine ⟨hplain, ?_, hprops.trans h.props, h.housed_of_within hwithin, ?_⟩
  · have hname : (s.world.save s.disk).1.name = s.world.name := by rw [heq]
    exact hname.trans h.called
  · exact fun x y => (hpixel x y).trans (h.pixel x y)

/-- Loading a world from files that hold what a store shows. -/
theorem Shows.load {d : Disk} {writes : List Write}
    (hsound : Database.Sound (World.dirOf path name) d)
    (hprops : d.files (World.dirOf path name, .props) = read)
    (hhoused : d.dirs (World.dirOf path name) = false → read = none)
    (hok : (World.new path name d).2.intact)
    (hbg : (World.new path name d).1.bgclr = bgclr)
    (hpixel : ∀ x y, ((stored (World.dirOf path name) d (chunkOf x, chunkOf y)).getD
        (Data.fill bgclr)).px (low4 x) (low4 y)
      = (lastWrite bgclr writes x y).getD (Data.background bgclr)) :
  Shows path name bgclr read ⟨(World.new path name d).1, (World.new path name d).2, writes⟩
  := by
  obtain ⟨hs, hview⟩ := World.new_sound path name hsound
  obtain ⟨hfiles, hdirs⟩ := World.new_same path name d
  obtain ⟨hchunks, -, -, hname⟩ := World.new_rest path name d
  obtain ⟨hdb, hd⟩ := World.new_db path name d
  refine ⟨⟨hs, ?_, hbg, World.new_dir path name d, ?_⟩, hname, ?_, ?_, ?_⟩
  · intro pos c hc
    rw [hchunks, AList.lookup_empty] at hc
    cases hc
  · rw [hd] at hok
    rw [hdb]
    exact (Database.new_saved hok).2.2
  · exact (congrFun hfiles _).trans hprops
  · intro hdir
    exact hhoused ((congrFun hdirs _).symm.trans hdir)
  · intro x y
    rw [World.pixel, hview, hbg]
    exact hpixel x y

/-- The world is unloaded and loaded again. -/
theorem Shows.reload (h : Shows path name bgclr read s)
    (hload : ∀ d : Disk, d.files (World.dirOf path name, .props) = read →
      (d.dirs (World.dirOf path name) = false → read = none) →
      (World.new path name d).2.intact → (World.new path name d).1.bgclr = bgclr)
    (hok : (s.step path .reload).disk.intact) :
  Shows path name bgclr read (s.step path .reload)
  := by
  have hstep : s.step path .reload = ⟨(World.new path name (s.world.delete s.disk)).1,
      (World.new path name (s.world.delete s.disk)).2, s.writes⟩ := by
    rw [← h.called]
    rfl
  rw [hstep] at hok ⊢
  have hdeleted : (s.world.delete s.disk).intact := by
    have hnew := (Database.new_within ∅ (World.dirOf path name) (s.world.delete s.disk)).1.intact
    rw [← (World.new_db path name _).2] at hnew
    exact hnew hok
  obtain ⟨hsound, hstored⟩ := World.delete_spec h.plain.sound hdeleted
  obtain ⟨db, chunks, -, -, -, hwithin⟩ := World.save_frame s.world s.disk
  have hprops := (World.save_props (d := s.disk) h.plain.saved)
  rw [h.plain.dir] at hsound hstored hwithin hprops
  have hread := hprops.trans h.props
  have hhoused := h.housed_of_within hwithin
  refine Shows.load hsound hread hhoused hok (hload _ hread hhoused hok) ?_
  intro x y
  rw [hstored, ← h.pixel, World.pixel, h.plain.bgclr]

/-- A call keeps what the store shows. -/
theorem Shows.step (h : Shows path name bgclr read s) (op : WorldOp)
    (hload : ∀ d : Disk, d.files (World.dirOf path name, .props) = read →
      (d.dirs (World.dirOf path name) = false → read = none) →
      (World.new path name d).2.intact → (World.new path name d).1.bgclr = bgclr)
    (hok : (s.step path op).disk.intact) :
  Shows path name bgclr read (s.step path op)
  := by
  cases op with
  | putPx x y clr rank => exact h.putPx x y clr rank hok
  | delChunk x y => exact h.delChunk x y hok
  | pasteChunk x y data => exact h.pasteChunk x y data hok
  | sendChunk ws x y =>
      obtain ⟨hw, hd, -⟩ := World.sendChunk_eq s.world s.disk ws x y
      rw [Store.step] at hok ⊢
      dsimp only at hok ⊢
      rw [hd] at hok
      rw [hw, hd]
      exact h.getChunk x y hok
  | getChunk x y => exact h.getChunk x y hok
  | save => exact h.save hok
  | reload => exact h.reload hload hok

/-- A failed operation is not forgotten. -/
theorem intact_of_step (path : Bytes) (s : Store) (op : WorldOp)
    (hok : (s.step path op).disk.intact) :
  s.disk.intact
  := by
  have hget : ∀ x y, (s.world.getChunk s.disk x y).2.2.intact → s.disk.intact :=
    fun x y => (World.getChunk_frame s.world s.disk x y).db.within.intact
  obtain ⟨db, chunks, -, -, -, hwithin⟩ := World.save_frame s.world s.disk
  cases op with
  | putPx x y clr rank =>
      apply hget (chunkOf x) (chunkOf y)
      rw [← World.putPx_disk s.world s.disk x y clr rank]
      exact hok
  | delChunk x y =>
      apply hget x y
      rw [← World.delChunk_disk]
      exact hok
  | pasteChunk x y data =>
      apply hget x y
      rw [← World.pasteChunk_disk s.world s.disk x y data]
      exact hok
  | sendChunk ws x y =>
      apply hget x y
      rw [← (World.sendChunk_eq s.world s.disk ws x y).2.1]
      exact hok
  | getChunk x y => exact hget x y hok
  | save => exact hwithin.intact hok
  | reload =>
      apply hwithin.intact
      have hnew := (Database.new_within ∅ (World.dirOf path s.world.name)
        (s.world.delete s.disk)).1.intact
      rw [← (World.new_db path s.world.name _).2] at hnew
      exact hnew hok

/-- If no file operation has failed at the end, none had failed at the start. -/
theorem intact_of_run (path : Bytes) (s : Store) (ops : List WorldOp)
    (hok : (ops.foldl (step path) s).disk.intact) :
  s.disk.intact
  := by
  induction ops generalizing s with
  | nil => exact hok
  | cons op ops ih => exact intact_of_step path s op (ih (s.step path op) hok)

/-- Calls keep what the store shows. -/
theorem Shows.run {ops : List WorldOp} (h : Shows path name bgclr read s)
    (hload : ∀ d : Disk, d.files (World.dirOf path name, .props) = read →
      (d.dirs (World.dirOf path name) = false → read = none) →
      (World.new path name d).2.intact → (World.new path name d).1.bgclr = bgclr)
    (hok : (ops.foldl (Store.step path) s).disk.intact) :
  Shows path name bgclr read (ops.foldl (Store.step path) s)
  := by
  induction ops generalizing s with
  | nil => exact h
  | cons op ops ih =>
      exact ih (h.step op hload (intact_of_run path (s.step path op) ops hok)) hok

/-- The background colour read from the same properties is the same. -/
theorem bgclr_of_props {d d' : Disk}
    (hhoused : d.dirs (World.dirOf path name) = false →
      d.files (World.dirOf path name, .props) = none)
    (hprops : d'.files (World.dirOf path name, .props) = d.files (World.dirOf path name, .props))
    (hhoused' : d'.dirs (World.dirOf path name) = false →
      d.files (World.dirOf path name, .props) = none)
    (hok : (World.new path name d).2.intact) (hok' : (World.new path name d').2.intact) :
  (World.new path name d').1.bgclr = (World.new path name d).1.bgclr
  := by
  have hread : ∀ e : Disk,
      e.files (World.dirOf path name, .props) = d.files (World.dirOf path name, .props) →
      (e.dirs (World.dirOf path name) = false →
        d.files (World.dirOf path name, .props) = none) →
      Database.savedProps (World.dirOf path name) e
        = Database.parseProps ((d.files (World.dirOf path name, .props)).getD []) ∅ := by
    intro e he hdir
    rw [Database.savedProps, he]
    split
    case isTrue => rfl
    case isFalse hd =>
      rw [Bool.not_eq_true] at hd
      rw [hdir hd]
      rfl
  apply World.new_bgclr
  rw [(World.new_db path name d).2] at hok
  rw [(World.new_db path name d').2] at hok'
  rw [(Database.new_saved hok).1, (Database.new_saved hok').1, hread d' hprops hhoused',
    hread d rfl hhoused]

/-- Whatever the calls, the store shows the last accepted writes. -/
theorem shows_run {d : Disk}
    (hnew : ∀ rx ry, d.files (World.dirOf path name, .region rx ry) = none)
    (hhoused : d.dirs (World.dirOf path name) = false →
      d.files (World.dirOf path name, .props) = none)
    {ops : List WorldOp} (hok : (run path name d ops).disk.intact) :
  Shows path name (World.new path name d).1.bgclr (d.files (World.dirOf path name, .props))
    (run path name d ops)
  := by
  have hstart : (World.new path name d).2.intact := intact_of_run path (loaded path name d) ops hok
  have hnone : stored (World.dirOf path name) d = fun _ => none := by
    funext c
    rw [stored, hnew]
    rfl
  apply Shows.run _ _ hok
  · refine Shows.load ?_ rfl hhoused hstart rfl ?_
    · intro rx ry f hf
      rw [hnew] at hf
      cases hf
    · intro x y
      rw [hnone]
      exact Data.px_fill _ _ _
  · exact fun d' hprops hhoused' hok' => bgclr_of_props hhoused hprops hhoused' hstart hok'

/-! ### Reading -/

/-- The colour the store shows at `x`, `y`, going by the writes. -/
def shown (bgclr : UInt32) (s : Store) (x y : Int32) : RGB :=
  (lastWrite bgclr s.writes x y).getD (Data.background bgclr)

/-- The colour read at `x`, `y`, if the coordinates are in range. -/
def readPx (w : World) (d : Disk) (x y : Int32) : Option RGB :=
  (w.getChunk d (chunkOf x) (chunkOf y)).1.map fun c => c.data.px (low4 x) (low4 y)

omit [Platform] in
/-- The coordinates of a chunk that is in range. -/
theorem bounds_of_inRange {x y : Int32} (h : World.inRange x y) :
  (-2 ^ 27 ≤ x.toInt ∧ x.toInt < 2 ^ 27) ∧ (-2 ^ 27 ≤ y.toInt ∧ y.toInt < 2 ^ 27)
  := by
  have hmax : worldMaxChunkXY.toInt = 1048575 := by decide
  have hmin : (~~~worldMaxChunkXY).toInt = -1048576 := by decide
  simp only [World.inRange, gt_iff_lt, not_or, Int32.lt_iff_toInt_lt, hmax, hmin, not_lt] at h
  omega

/-- A chunk that is read has the colours of the last writes to its pixels. -/
theorem Shows.read_chunk (h : Shows path name bgclr read s) {x y : Int32} {c : Chunk} {w' : World}
    {d' : Disk} (heq : s.world.getChunk s.disk x y = (some c, w', d')) (hok : d'.intact)
    (i j : Fin 16) :
  c.data.px i j = shown bgclr s (pixelIn x i) (pixelIn y j)
  := by
  have hr : World.inRange x y := by
    by_contra hr
    rw [World.getChunk_of_not_inRange hr] at heq
    cases heq
  obtain ⟨hx, hy⟩ := bounds_of_inRange hr
  obtain ⟨hcx, hlx⟩ := chunkOf_pixelIn i hx.1 hx.2
  obtain ⟨hcy, hly⟩ := chunkOf_pixelIn j hy.1 hy.2
  have hpx := h.plain.px_eq (x := pixelIn x i) (y := pixelIn y j) (by rw [hcx, hcy]; exact heq) hok
  rw [hlx, hly, h.pixel] at hpx
  exact hpx

/-- A pixel that is read has the colour of the last write to it. -/
theorem Shows.readPx (h : Shows path name bgclr read s) {x y : Int32}
    (hok : (s.world.getChunk s.disk (chunkOf x) (chunkOf y)).2.2.intact) :
  Store.readPx s.world s.disk x y
    = if World.inRange (chunkOf x) (chunkOf y) then some (shown bgclr s x y) else none
  := by
  rw [Store.readPx]
  obtain ⟨hr, heq⟩ | ⟨hr, c, w', d', heq⟩ :=
    World.getChunk_cases s.world s.disk (chunkOf x) (chunkOf y)
  · rw [heq, if_neg hr]
    rfl
  · rw [heq] at hok ⊢
    rw [if_pos hr, shown, ← h.pixel, ← h.plain.px_eq heq hok]
    rfl

/-- A chunk that is sent has the colours of the last writes to its pixels. -/
theorem Shows.sent_chunk (h : Shows path name bgclr read s) {ws : Ws} {x y : Int32} {msg : Bytes}
    (hok : (s.world.getChunk s.disk x y).2.2.intact)
    (hmsg : .one ws .binary msg ∈ (s.world.sendChunk s.disk ws x y).2.2) :
  ∃ ranked data, decodeChunk msg = some (x, y, ranked, data) ∧
    ∀ i j, data.px i j = shown bgclr s (pixelIn x i) (pixelIn y j)
  := by
  rw [(World.sendChunk_eq s.world s.disk ws x y).2.2] at hmsg
  obtain ⟨-, heq⟩ | ⟨hr, c, w', d', heq⟩ := World.getChunk_cases s.world s.disk x y
  · rw [heq] at hmsg
    cases hmsg
  · obtain ⟨c₁, w₁, d₁, heq₁, hs, -, hc, -⟩ := World.getChunk_spec h.plain.sound hr hok
    rw [heq] at heq₁ hok hmsg
    cases heq₁
    rw [Option.map_some, Option.toList_some, List.mem_singleton, Out.one.injEq] at hmsg
    obtain ⟨hx, hy⟩ := Prod.mk.inj (hs.keyed _ c hc)
    rw [hmsg.2.2, ← hx, ← hy]
    rw [← hx, ← hy] at heq
    exact ⟨c.ranked, c.data, decodeChunk_dataMsg c, h.read_chunk heq hok⟩

/-- An accepted `put_px` changes the pixel that is read, and no other. -/
theorem Shows.readPx_put (h : Shows path name bgclr read s) {x y : Int32} {clr : RGB} {rank : Rank}
    (hput : (s.world.putPx s.disk x y clr rank).1 = true) {x' y' : Int32}
    (hok : (s.world.getChunk s.disk (chunkOf x') (chunkOf y')).2.2.intact)
    (hok' : ((s.step path (.putPx x y clr rank)).world.getChunk
      (s.step path (.putPx x y clr rank)).disk (chunkOf x') (chunkOf y')).2.2.intact) :
  Store.readPx (s.step path (.putPx x y clr rank)).world (s.step path (.putPx x y clr rank)).disk
      x' y'
    = if x' = x ∧ y' = y then some clr else Store.readPx s.world s.disk x' y'
  := by
  have hdisk := (World.getChunk_frame (s.step path (.putPx x y clr rank)).world
    (s.step path (.putPx x y clr rank)).disk (chunkOf x') (chunkOf y')).db.within.intact hok'
  rw [(h.putPx x y clr rank hdisk).readPx hok', h.readPx hok]
  have hwrites : (s.step path (.putPx x y clr rank)).writes = s.writes ++ [.px x y clr] := by
    rw [Store.step]
    generalize s.world.putPx s.disk x y clr rank = put at hput ⊢
    obtain ⟨set, w, d⟩ := put
    exact if_pos hput
  have hr : World.inRange (chunkOf x) (chunkOf y) := by
    by_contra hr
    rw [World.putPx_of_none (World.getChunk_of_not_inRange hr)] at hput
    cases hput
  rw [shown, shown, hwrites, lastWrite_append, Write.colour]
  by_cases hxy : x' = x ∧ y' = y
  · rw [if_pos hxy, if_pos hxy, hxy.1, hxy.2, if_pos hr]
    rfl
  · rw [if_neg hxy, if_neg hxy]
    rfl

/-- The world store is a map of pixels: after any sequence of calls on a world loaded from a
directory without region files, while no file operation fails, every chunk that is read or sent
has for each pixel the colour of the last accepted write to it, or the background colour, and an
accepted `put_px` changes its pixel and no other. -/
theorem refines_pixels {d : Disk}
    (hnew : ∀ rx ry, d.files (World.dirOf path name, .region rx ry) = none)
    (hhoused : d.dirs (World.dirOf path name) = false →
      d.files (World.dirOf path name, .props) = none)
    (ops : List WorldOp) (hok : (run path name d ops).disk.intact) :
  let s := run path name d ops
  let bgclr := (World.new path name d).1.bgclr
  (∀ x y, (s.world.getChunk s.disk x y).2.2.intact →
    (∀ c, (s.world.getChunk s.disk x y).1 = some c →
      ∀ i j, c.data.px i j = shown bgclr s (pixelIn x i) (pixelIn y j)) ∧
    (∀ ws msg, .one ws .binary msg ∈ (s.world.sendChunk s.disk ws x y).2.2 →
      ∃ ranked data, decodeChunk msg = some (x, y, ranked, data) ∧
        ∀ i j, data.px i j = shown bgclr s (pixelIn x i) (pixelIn y j)) ∧
    ((s.world.getChunk s.disk x y).1 = none ↔ ¬ World.inRange x y)) ∧
  ∀ x y clr rank, (s.world.putPx s.disk x y clr rank).1 = true →
    let s' := s.step path (.putPx x y clr rank)
    ∀ x' y', (s.world.getChunk s.disk (chunkOf x') (chunkOf y')).2.2.intact →
      (s'.world.getChunk s'.disk (chunkOf x') (chunkOf y')).2.2.intact →
      Store.readPx s'.world s'.disk x' y'
        = if x' = x ∧ y' = y then some clr else Store.readPx s.world s.disk x' y'
  := by
  intro s bgclr
  have h := shows_run hnew hhoused hok
  constructor
  · intro x y hread
    and_intros
    · intro c hc
      obtain ⟨-, heq⟩ | ⟨-, c', w', d', heq⟩ := World.getChunk_cases s.world s.disk x y
      · rw [heq] at hc
        cases hc
      · rw [heq] at hc hread
        cases hc
        exact h.read_chunk heq hread
    · exact fun ws msg hmsg => h.sent_chunk hread hmsg
    · obtain ⟨hr, heq⟩ | ⟨hr, c, w', d', heq⟩ := World.getChunk_cases s.world s.disk x y
      · simp [hr, heq]
      · simp [hr, heq]
  · intro x y clr rank hput s' x' y' hread hread'
    exact h.readPx_put hput hread hread'

omit [Platform] in
/-- A pixel set in a world that is then unloaded, and read when it is loaded again. -/
theorem refines_pixels_reloaded :
  letI := Platform.quiet
  (((run [47] [97] (Disk.empty fun _ => false) [.putPx 20 (-3) ⟨255, 0, 0⟩ Rank.user,
      .reload]).world.getChunk (run [47] [97] (Disk.empty fun _ => false)
      [.putPx 20 (-3) ⟨255, 0, 0⟩ Rank.user, .reload]).disk 1 (-1)).1.map fun c =>
        c.data.px 4 13) = some ⟨255, 0, 0⟩
  := by
  let _ := Platform.quiet
  generalize hs : @run Platform.quiet [47] [97] (Disk.empty fun _ => false)
    [.putPx 20 (-3) ⟨255, 0, 0⟩ Rank.user, .reload] = s
  have hok : s.disk.intact := by
    rw [← hs]
    decide +kernel
  have hread : (s.world.getChunk s.disk 1 (-1)).2.2.intact := by
    rw [← hs]
    decide +kernel
  have hshown : shown (World.new [47] [97] (Disk.empty fun _ => false)).1.bgclr s (pixelIn 1 4)
      (pixelIn (-1) 13) = ⟨255, 0, 0⟩ := by
    rw [← hs]
    decide +kernel
  rw [← hs] at hok
  have h := @refines_pixels Platform.quiet [47] [97] (Disk.empty fun _ => false) (fun _ _ => rfl)
    (fun _ => rfl) [.putPx 20 (-3) ⟨255, 0, 0⟩ Rank.user, .reload] hok
  rw [hs] at h
  obtain ⟨hreads, -⟩ := h
  obtain ⟨hpx, -, hnone⟩ := hreads 1 (-1) hread
  cases hc : (s.world.getChunk s.disk 1 (-1)).1 with
  | none => exact absurd (show World.inRange 1 (-1) by decide) (hnone.mp hc)
  | some c => rw [Option.map_some, hpx c hc 4 13, hshown]

end Store

end Owop
