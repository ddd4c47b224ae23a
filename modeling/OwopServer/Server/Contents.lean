import OwopServer.Library.Writes
import OwopServer.Server.Effects
import OwopServer.World.Failures

/-!
# The contents of worlds

A world holds the colours of its pixels, its properties and the protections of its chunks.  An
accepted change is a write to what its world holds.  While no file operation fails, the operations
of a world make the writes that they accept and no other, and loading, saving and unloading a world
move what it holds between the memory and the files.
-/

namespace Owop

open Database (stored savedProps savedRanked)

/-- What a world holds a value for. -/
inductive Item where
  | pixel (x y : Int32)
  | prop (key : Bytes)
  | chunk (x y : Int32)

/-- The value a world holds: the colour of a pixel, the text of a property, if it is set, or
whether a chunk is protected. -/
inductive Value where
  | colour (clr : RGB)
  | text (value : Option Bytes)
  | protection (state : Bool)

/-- The value that an accepted change gives to an item. -/
def Edit.gives : Edit → Item → Option Value
  | .px x y clr, .pixel x' y' => if x' = x ∧ y' = y then some (.colour clr) else none
  | .chunk cx cy data, .pixel x y =>
      if (chunkOf x, chunkOf y) = (cx, cy) then some (.colour (data.px (low4 x) (low4 y))) else none
  | .prop key value, .prop key' =>
      if key' = key then some (.text (if value = [] then none else some value)) else none
  | .protect x y state, .chunk x' y' => if x' = x ∧ y' = y then some (.protection state) else none
  | _, _ => none

/-- The values held by some chunks, properties and protections. -/
def valueOf (chunks : ChunkPos → Option Data) (props : Bytes → Option Bytes)
    (ranked : ChunkPos → Bool) : Item → Option Value
  | .pixel x y => (chunks (chunkOf x, chunkOf y)).map fun data => .colour (data.px (low4 x) (low4 y))
  | .prop key => some (.text (props key))
  | .chunk x y => some (.protection (ranked (x, y)))

/-- The values held by the files in a directory. -/
def Database.held (dir : Bytes) (d : Disk) : Item → Option Value :=
  valueOf (stored dir d) (fun key => (savedProps dir d).lookup key)
    fun pos => decide (pos ∈ savedRanked dir d)

/-- The values held by a world. -/
def World.shows (w : World) (d : Disk) : Item → Option Value :=
  valueOf (w.view d) (fun key => w.db.worldProps.lookup key)
    fun pos => w.db.getChunkProtection pos.1 pos.2

/-- The value that is read from a world, and the files after that.  The protection is that of the
chunk, if it has coordinates in range. -/
def World.look [Platform] (w : World) (d : Disk) : Item → Option Value × Disk
  | .pixel x y =>
      let (c, _, d) := w.getChunk d (chunkOf x) (chunkOf y)
      (c.map fun c => .colour (c.data.px (low4 x) (low4 y)), d)
  | .prop key => (some (.text (w.db.worldProps.lookup key)), d)
  | .chunk x y =>
      let (c, _, d) := w.getChunk d x y
      (some (.protection (c.elim (w.db.getChunkProtection x y) Chunk.ranked)), d)

/-- The chunk of the pixels that a change is about has coordinates in range. -/
def Edit.Placed : Edit → Prop
  | .px x y _ => World.inRange (chunkOf x) (chunkOf y)
  | .chunk cx cy _ => World.inRange cx cy
  | .prop _ _ => True
  | .protect _ _ _ => True

/-- A property that is set is of one line. -/
def Edit.OneLine : Edit → Prop
  | .prop key value => value = [] ∨ Database.OneLine ⟨key, value⟩
  | _ => True

/-! ### Writes -/

/-- The values depend on the chunks, the properties and the protections. -/
theorem valueOf_congr {chunks chunks' : ChunkPos → Option Data} {props props' : Bytes → Option Bytes}
    {ranked ranked' : ChunkPos → Bool} (hchunks : chunks' = chunks)
    (hprops : ∀ key, props' key = props key) (hranked : ∀ pos, ranked' pos = ranked pos) :
  valueOf chunks' props' ranked' = valueOf chunks props ranked
  := by
  rw [hchunks, funext hprops, funext hranked]

/-- A change of one chunk. -/
theorem takes_data {chunks : ChunkPos → Option Data} {props : Bytes → Option Bytes}
    {ranked : ChunkPos → Bool} {pos : ChunkPos} {data : Data} {e : Edit}
    (hgiven : ∀ item v, e.gives item = some v →
      ∃ x y, item = .pixel x y ∧ (chunkOf x, chunkOf y) = pos ∧
        v = .colour (data.px (low4 x) (low4 y)))
    (hkept : ∀ x y old, e.gives (.pixel x y) = none → (chunkOf x, chunkOf y) = pos →
      chunks pos = some old → data.px (low4 x) (low4 y) = old.px (low4 x) (low4 y)) :
  Writes.Takes Edit.gives (valueOf chunks props ranked) e
    (valueOf (Function.update chunks pos (some data)) props ranked)
  := by
  constructor
  case given =>
    intro item v hv
    obtain ⟨x, y, rfl, hpos, rfl⟩ := hgiven item v hv
    rw [valueOf, hpos, Function.update_self, Option.map_some]
  case kept =>
    intro item v hnone hv
    cases item with
    | pixel x y =>
        rw [valueOf] at hv ⊢
        by_cases hpos : (chunkOf x, chunkOf y) = pos
        · rw [hpos] at hv
          obtain ⟨old, hold, rfl⟩ := Option.map_eq_some_iff.mp hv
          rw [hpos, Function.update_self, Option.map_some, hkept x y old hnone hpos hold]
        · rw [Function.update_of_ne hpos]
          exact hv
    | prop key => exact hv
    | chunk x y => exact hv

/-- A chunk is replaced. -/
theorem takes_chunk (chunks : ChunkPos → Option Data) (props : Bytes → Option Bytes)
    (ranked : ChunkPos → Bool) (x y : Int32) (data : Data) :
  Writes.Takes Edit.gives (valueOf chunks props ranked) (.chunk x y data)
    (valueOf (Function.update chunks (x, y) (some data)) props ranked)
  := by
  apply takes_data
  · intro item v hv
    cases item with
    | pixel x' y' =>
        rw [Edit.gives] at hv
        split at hv
        case isTrue hpos =>
          cases hv
          exact ⟨x', y', rfl, hpos, rfl⟩
        case isFalse => cases hv
    | prop key => cases hv
    | chunk x' y' => cases hv
  · intro x' y' old hnone hpos
    rw [Edit.gives, if_pos hpos] at hnone
    cases hnone

/-- A pixel is set in a chunk that shows what was held before. -/
theorem takes_pixel {chunks : ChunkPos → Option Data} (props : Bytes → Option Bytes)
    (ranked : ChunkPos → Bool) {x y : Int32} (clr : RGB) {data : Data}
    (hdata : ∀ old, chunks (chunkOf x, chunkOf y) = some old → data = old) :
  Writes.Takes Edit.gives (valueOf chunks props ranked) (.px x y clr)
    (valueOf (Function.update chunks (chunkOf x, chunkOf y)
      (some (data.setPx (low4 x) (low4 y) clr))) props ranked)
  := by
  apply takes_data
  · intro item v hv
    cases item with
    | pixel x' y' =>
        rw [Edit.gives] at hv
        split at hv
        case isTrue hxy =>
          obtain ⟨rfl, rfl⟩ := hxy
          cases hv
          exact ⟨x', y', rfl, rfl, by rw [Data.px_setPx_same]⟩
        case isFalse => cases hv
    | prop key => cases hv
    | chunk x' y' => cases hv
  · intro x' y' old hnone hpos hold
    rw [Edit.gives] at hnone
    split at hnone
    case isTrue => cases hnone
    case isFalse hxy =>
      obtain ⟨hx, hy⟩ := Prod.mk.inj hpos
      rw [Data.px_setPx, if_neg, hdata old hold]
      rintro ⟨hlx, hly⟩
      exact hxy ⟨chunkOf_low4_inj hx hlx, chunkOf_low4_inj hy hly⟩

/-- A property is set, or removed. -/
theorem takes_prop (chunks : ChunkPos → Option Data) (db : Database) (ranked : ChunkPos → Bool)
    (key value : Bytes) :
  Writes.Takes Edit.gives (valueOf chunks (fun key => db.worldProps.lookup key) ranked)
    (.prop key value)
    (valueOf chunks (fun key' => (db.setProp key value).worldProps.lookup key') ranked)
  := by
  have hlookup : ∀ key', (db.setProp key value).worldProps.lookup key'
      = if key' = key then (if value = [] then none else some value)
        else db.worldProps.lookup key' := by
    intro key'
    rw [Database.setProp]
    dsimp only
    by_cases hkey : key' = key
    · rw [if_pos hkey, hkey]
      split
      · exact AList.lookup_erase _ _
      · exact AList.lookup_insert _
    · rw [if_neg hkey]
      split
      · exact AList.lookup_erase_ne hkey
      · exact AList.lookup_insert_ne hkey
  constructor
  case given =>
    intro item v hv
    cases item with
    | pixel x y => cases hv
    | prop key' =>
        rw [Edit.gives] at hv
        split at hv
        case isTrue hkey =>
          cases hv
          rw [valueOf, hlookup, if_pos hkey]
        case isFalse => cases hv
    | chunk x y => cases hv
  case kept =>
    intro item v hnone hv
    cases item with
    | pixel x y => exact hv
    | prop key' =>
        rw [Edit.gives] at hnone
        split at hnone
        case isTrue => cases hnone
        case isFalse hkey =>
          rw [valueOf, hlookup, if_neg hkey]
          exact hv
    | chunk x y => exact hv

namespace Database

/-- The protections after one of them is set. -/
theorem getChunkProtection_set (db : Database) (x y : Int32) (state : Bool) (pos : ChunkPos) :
  (db.setChunkProtection x y state).getChunkProtection pos.1 pos.2
    = if pos = (x, y) then state else db.getChunkProtection pos.1 pos.2
  := by
  rw [getChunkProtection, getChunkProtection, setChunkProtection]
  dsimp only
  cases state with
  | true =>
      rw [if_pos rfl]
      by_cases hpos : pos = (x, y)
      · rw [if_pos hpos]
        simp [hpos]
      · rw [if_neg hpos]
        simp [hpos]
  | false =>
      rw [if_neg Bool.false_ne_true]
      by_cases hpos : pos = (x, y)
      · rw [if_pos hpos]
        simp [hpos]
      · rw [if_neg hpos]
        simp [hpos]

end Database

/-- A chunk is protected, or released. -/
theorem takes_protect (chunks : ChunkPos → Option Data) (props : Bytes → Option Bytes) (db : Database)
    (x y : Int32) (state : Bool) :
  Writes.Takes Edit.gives (valueOf chunks props fun pos => db.getChunkProtection pos.1 pos.2)
    (.protect x y state)
    (valueOf chunks props fun pos =>
      (db.setChunkProtection x y state).getChunkProtection pos.1 pos.2)
  := by
  constructor
  case given =>
    intro item v hv
    cases item with
    | pixel x' y' => cases hv
    | prop key => cases hv
    | chunk x' y' =>
        rw [Edit.gives] at hv
        split at hv
        case isTrue hxy =>
          cases hv
          rw [valueOf, Database.getChunkProtection_set, if_pos (Prod.ext hxy.1 hxy.2)]
        case isFalse => cases hv
  case kept =>
    intro item v hnone hv
    cases item with
    | pixel x' y' => exact hv
    | prop key => exact hv
    | chunk x' y' =>
        rw [Edit.gives] at hnone
        split at hnone
        case isTrue => cases hnone
        case isFalse hxy =>
          rw [valueOf, Database.getChunkProtection_set, if_neg fun hpos => hxy (Prod.mk.inj hpos)]
          exact hv

/-! ### Files a world may be loaded from -/

/-- The files in a directory are well formed, and there are no properties and protections without
the directory. -/
structure Database.Ready (dir : Bytes) (d : Disk) : Prop where
  sound : Database.Sound dir d
  bare : d.dirs dir = false → d.files (dir, .props) = none ∧ d.files (dir, .pchunks) = none

/-- The files in a directory, and whether it exists, are the same. -/
structure Disk.SameIn (dir : Bytes) (d d' : Disk) : Prop where
  files : ∀ file, d'.files (dir, file) = d.files (dir, file)
  dirs : d'.dirs dir = d.dirs dir

/-- The files of a directory. -/
def Disk.filesIn (dir : Bytes) : Set Path := { path | path.1 = dir }

/-- Operations in one directory leave the others alone. -/
theorem Disk.Within.sameIn {dir dir' : Bytes} {d d' : Disk}
    (h : Disk.Within (Disk.filesIn dir) dir d d') (hne : dir' ≠ dir) :
  Disk.SameIn dir' d d'
  := ⟨fun _ => h.files _ hne, h.dirs dir' hne⟩

namespace Database

variable {dir : Bytes} {d d' : Disk}

/-- The chunks in the files are the same. -/
theorem stored_sameIn (h : Disk.SameIn dir d d') :
  stored dir d' = stored dir d
  := by
  funext pos
  rw [stored, stored, h.files]

/-- The properties in the file are the same. -/
theorem savedProps_sameIn (h : Disk.SameIn dir d d') :
  savedProps dir d' = savedProps dir d
  := by
  rw [savedProps, savedProps, h.files, h.dirs]

/-- The protected chunks in the file are the same. -/
theorem savedRanked_sameIn (h : Disk.SameIn dir d d') :
  savedRanked dir d' = savedRanked dir d
  := by
  rw [savedRanked, savedRanked, h.files, h.dirs]

/-- All that the files hold is the same. -/
theorem held_sameIn (h : Disk.SameIn dir d d') :
  held dir d' = held dir d
  := by
  rw [held, held, stored_sameIn h, savedProps_sameIn h, savedRanked_sameIn h]

/-- The region files are still well formed. -/
theorem sound_sameIn (hs : Sound dir d) (h : Disk.SameIn dir d d') :
  Sound dir d'
  := by
  intro rx ry f hf
  rw [h.files] at hf
  exact hs rx ry f hf

/-- The directory is still ready. -/
theorem Ready.sameIn (hr : Ready dir d) (h : Disk.SameIn dir d d') :
  Ready dir d'
  := by
  constructor
  case sound => exact sound_sameIn hr.sound h
  case bare =>
    rw [h.files, h.files, h.dirs]
    exact hr.bare

/-- The database is still settled. -/
theorem Settled.sameIn {db : Database} (hs : Settled db d) (h : Disk.SameIn db.dir d d') :
  Settled db d'
  := by
  constructor
  case located => exact hs.located
  case bare =>
    rw [h.files, h.files, h.dirs]
    exact hs.bare
  case oneLine => exact hs.oneLine
  case recorded =>
    intro hclean
    obtain ⟨hprops, hranked⟩ := hs.recorded hclean
    rw [← savedProps_sameIn h] at hprops
    rw [← savedRanked_sameIn h] at hranked
    exact ⟨hprops, hranked⟩

end Database

/-! ### Worlds while nothing fails -/

namespace World

/-- Chunks are loaded only in range. -/
def Inside (w : World) : Prop := ∀ pos c, w.chunks.lookup pos = some c → inRange pos.1 pos.2

/-- What a world remembers about its files is so, and its chunks are in range. -/
structure Reliable (w : World) (d : Disk) : Prop where
  sound : Sound w d
  inside : Inside w

/-- What a world remembers about its files is so, and it shows what it was loaded with and what was
changed since. -/
structure Faithful (w : World) (d : Disk) : Prop where
  sound : Sound w d
  settled : Database.Settled w.db d
  inside : Inside w

variable {w w' : World} {d d' : Disk} {x y : Int32} {c : Chunk}

/-- A faithful world is reliable. -/
theorem Faithful.reliable (h : Faithful w d) :
  Reliable w d
  := ⟨h.sound, h.inside⟩

/-- The properties are not in the region files. -/
theorem Reliable.faithful (h : Reliable w d) (hsettled : Database.Settled w.db d) :
  Faithful w d
  := ⟨h.sound, hsettled, h.inside⟩

/-- The database and the loaded chunks are all that matters. -/
theorem Reliable.congr (h : Reliable w d) (hdb : w'.db = w.db) (hchunks : w'.chunks = w.chunks) :
  Reliable w' d
  := by
  refine ⟨h.sound.congr hdb hchunks, ?_⟩
  rw [Inside, hchunks]
  exact h.inside

/-- What happens in other directories does not matter. -/
theorem Reliable.sameIn (h : Reliable w d) (hsame : Disk.SameIn w.db.dir d d') :
  Reliable w d' ∧ w.cache d' = w.cache d
  := by
  obtain ⟨hsound, hcache⟩ := h.sound.elsewhere (fun _ _ => hsame.files _) hsame.dirs
  exact ⟨⟨hsound, h.inside⟩, hcache⟩

/-- The database and the loaded chunks are all that matters. -/
theorem Faithful.congr (h : Faithful w d) (hdb : w'.db = w.db) (hchunks : w'.chunks = w.chunks) :
  Faithful w' d
  := by
  apply (h.reliable.congr hdb hchunks).faithful
  rw [hdb]
  exact h.settled

/-- The database and the loaded chunks are all that matters. -/
theorem shows_congr (d : Disk) (hdb : w'.db = w.db) (hchunks : w'.chunks = w.chunks) :
  w'.shows d = w.shows d
  := by
  rw [shows, shows, view_congr d hdb hchunks, hdb]

/-- What happens in other directories does not matter. -/
theorem Faithful.sameIn (h : Faithful w d) (hsame : Disk.SameIn w.db.dir d d') :
  Faithful w d' ∧ w.shows d' = w.shows d
  := by
  obtain ⟨hreliable, hcache⟩ := h.reliable.sameIn hsame
  refine ⟨hreliable.faithful (h.settled.sameIn hsame), ?_⟩
  rw [shows, shows, view, view, hcache]

/-- The files of a world may be read by another one. -/
theorem Faithful.ready (h : Faithful w d) :
  Database.Ready w.db.dir d
  := ⟨h.sound.files, h.settled.bare⟩

/-- A world without unsaved changes shows what its files hold. -/
theorem Faithful.held_eq (h : Faithful w d)
    (hchunks : ∀ pos c, w.chunks.lookup pos = some c → c.changed = false)
    (hprops : w.db.changedPropsOrProtects = false) :
  Database.held w.db.dir d = w.shows d
  := by
  have hview : w.view d = stored w.db.dir d := by
    rw [view, WriteBack.view_eq_store, cache_store]
    intro pos l hl
    rw [cache_lines] at hl
    obtain ⟨c, hc, rfl⟩ := Option.map_eq_some_iff.mp hl
    exact hchunks pos c hc
  obtain ⟨hkeys, hpos⟩ := h.settled.recorded hprops
  apply valueOf_congr hview.symm hkeys
  intro pos
  exact decide_eq_decide.mpr (hpos pos)

variable [Platform]

/-! ### Chunks -/

/-- Getting a chunk does not change the view. -/
theorem Reliable.getChunk (h : Reliable w d) (hok : (w.getChunk d x y).2.2.intact) :
  Reliable (w.getChunk d x y).2.1 (w.getChunk d x y).2.2 ∧
    (w.getChunk d x y).2.1.view (w.getChunk d x y).2.2 = w.view d
  := by
  obtain ⟨hrange, hgot⟩ | ⟨hrange, c, w', d', hgot⟩ := getChunk_cases w d x y
  · rw [hgot]
    exact ⟨h, rfl⟩
  · obtain ⟨c₁, w₁, d₁, hgot₁, hsound, hview, -⟩ := getChunk_spec h.sound hrange hok
    rw [hgot] at hgot₁ ⊢
    cases hgot₁
    obtain ⟨-, -, hothers⟩ := lookup_getChunk hgot
    refine ⟨⟨hsound, ?_⟩, hview⟩
    intro pos c' hc'
    by_cases hpos : pos = (x, y)
    · rw [hpos]
      exact hrange
    · obtain hsame | hnone := hothers pos hpos
      · rw [hsame] at hc'
        exact h.inside pos c' hc'
      · rw [hnone] at hc'
        cases hc'

/-- A chunk that is got is as the world shows it. -/
theorem Reliable.found (h : Reliable w d) (hgot : w.getChunk d x y = (some c, w', d'))
    (hok : d'.intact) :
  inRange x y ∧ c.data = (w.view d (x, y)).getD (Data.fill c.bgclr) ∧
    c.ranked = w.db.getChunkProtection x y
  := by
  have hrange : inRange x y := by
    by_contra hrange
    rw [getChunk_of_not_inRange hrange] at hgot
    cases hgot
  have hframe := getChunk_frame w d x y
  obtain ⟨c₁, w₁, d₁, hgot₁, hsound, -, hc, hdata, -⟩ := change_spec h.sound hrange
    (by rw [hgot]; exact hok)
  rw [hgot] at hgot₁ hframe
  cases hgot₁
  refine ⟨hrange, hdata, ?_⟩
  rw [hsound.ranked _ c hc, hframe.db.props.getChunkProtection]

/-- Getting a chunk in order to change its data. -/
theorem Reliable.change (h : Reliable w d) (hgot : w.getChunk d x y = (some c, w', d'))
    (hok : d'.intact) (data : Data) :
  Reliable (w'.putChunk (x, y) { c with data := data, changed := true }) d' ∧
    (w'.putChunk (x, y) { c with data := data, changed := true }).view d'
      = Function.update (w.view d) (x, y) (some data)
  := by
  obtain ⟨hrange, -⟩ := h.found hgot hok
  obtain ⟨hreliable, -⟩ := h.getChunk (by rw [hgot]; exact hok)
  obtain ⟨c₁, w₁, d₁, hgot₁, -, -, hc, -, hput⟩ := change_spec h.sound hrange
    (by rw [hgot]; exact hok)
  rw [hgot] at hgot₁ hreliable
  cases hgot₁
  obtain ⟨hsound, hview⟩ := hput data
  refine ⟨⟨hsound, ?_⟩, hview⟩
  intro pos c' hc'
  rw [putChunk, lookup_insert] at hc'
  split at hc'
  case isTrue hpos =>
    rw [hpos]
    exact hrange
  case isFalse => exact hreliable.inside pos c' hc'

/-- Getting a chunk changes nothing of what the world shows. -/
theorem Faithful.getChunk (h : Faithful w d) (hok : (w.getChunk d x y).2.2.intact) :
  Faithful (w.getChunk d x y).2.1 (w.getChunk d x y).2.2 ∧
    (w.getChunk d x y).2.1.shows (w.getChunk d x y).2.2 = w.shows d
  := by
  have hframe := getChunk_frame w d x y
  obtain ⟨hreliable, hview⟩ := h.reliable.getChunk hok
  refine ⟨hreliable.faithful (h.settled.frame hframe.db), ?_⟩
  apply valueOf_congr hview
  · intro key
    rw [hframe.db.props.worldProps]
  · intro pos
    rw [hframe.db.props.getChunkProtection]

/-- Getting a chunk in order to change its data. -/
theorem Faithful.change (h : Faithful w d) (hgot : w.getChunk d x y = (some c, w', d'))
    (hok : d'.intact) (data : Data) :
  Faithful (w'.putChunk (x, y) { c with data := data, changed := true }) d' ∧
    (w'.putChunk (x, y) { c with data := data, changed := true }).shows d'
      = valueOf (Function.update (w.view d) (x, y) (some data))
          (fun key => w.db.worldProps.lookup key) fun pos => w.db.getChunkProtection pos.1 pos.2
  := by
  have hframe := getChunk_frame w d x y
  rw [hgot] at hframe
  obtain ⟨hreliable, hview⟩ := h.reliable.change hgot hok data
  refine ⟨hreliable.faithful (h.settled.frame hframe.db), ?_⟩
  apply valueOf_congr hview
  · intro key
    exact congrArg (fun props => props.lookup key) hframe.db.props.worldProps
  · exact fun pos => hframe.db.props.getChunkProtection pos.1 pos.2

/-! ### Protections -/

omit [Platform] in
/-- A chunk that is not loaded is protected, or released. -/
theorem Reliable.setProtection (h : Reliable w d) (hnone : w.chunks.lookup (x, y) = none)
    (state : Bool) :
  Reliable { w with db := w.db.setChunkProtection x y state } d
  := by
  obtain ⟨hcreated, hhandles, hnonexistant⟩ := h.sound.fits
  refine ⟨⟨⟨hcreated, hhandles, hnonexistant⟩, h.sound.files, h.sound.coherent, h.sound.keyed, ?_⟩,
    h.inside⟩
  intro pos c hc
  have hpos : pos ≠ (x, y) := by
    rintro rfl
    have hc' : w.chunks.lookup (x, y) = some c := hc
    rw [hnone] at hc'
    cases hc'
  rw [Database.getChunkProtection_set, if_neg hpos]
  exact h.sound.ranked pos c hc

omit [Platform] in
/-- A loaded chunk is marked as the database says. -/
theorem Reliable.mark (hfits : Database.Fits w.db d) (hfiles : Database.Sound w.db.dir d)
    (hcoherent : (w.cache d).Coherent)
    (hkeyed : ∀ pos c, w.chunks.lookup pos = some c → (c.cx, c.cy) = pos)
    (hranked : ∀ pos c, w.chunks.lookup pos = some c → pos ≠ (x, y) →
      c.ranked = w.db.getChunkProtection pos.1 pos.2)
    (hinside : Inside w) (hc : w.chunks.lookup (x, y) = some c) :
  Reliable (w.putChunk (x, y) { c with ranked := w.db.getChunkProtection x y }) d
  := by
  have hcache := cache_mark d hc (w.db.getChunkProtection x y)
  refine ⟨⟨hfits, hfiles, ?_, ?_, ?_⟩, ?_⟩
  · rw [hcache]
    exact hcoherent
  · intro pos c' hc'
    rw [putChunk, lookup_insert] at hc'
    split at hc'
    case isTrue hpos =>
      rw [hpos]
      cases hc'
      exact hkeyed _ c hc
    case isFalse => exact hkeyed pos c' hc'
  · intro pos c' hc'
    rw [putChunk, lookup_insert] at hc'
    split at hc'
    case isTrue hpos =>
      rw [hpos]
      cases hc'
      rfl
    case isFalse hpos => exact hranked pos c' hc' hpos
  · intro pos c' hc'
    rw [putChunk, lookup_insert] at hc'
    split at hc'
    case isTrue hpos =>
      rw [hpos]
      exact hinside _ c hc
    case isFalse => exact hinside pos c' hc'

/-- A chunk in range is protected, or released, and marked so. -/
theorem Reliable.protect (h : Reliable w d) {state : Bool}
    (hgot : World.getChunk { w with db := w.db.setChunkProtection x y state } d x y
      = (some c, w', d')) (hok : d'.intact) :
  Reliable (w'.putChunk (x, y) { c with ranked := state }) d' ∧
    (w'.putChunk (x, y) { c with ranked := state }).view d' = w.view d
  := by
  have hset : (w.db.setChunkProtection x y state).getChunkProtection x y = state := by
    have hpos := w.db.getChunkProtection_set x y state (x, y)
    rw [if_pos rfl] at hpos
    exact hpos
  have hloaded := (lookup_getChunk hgot).1
  have hview : (w'.putChunk (x, y) { c with ranked := state }).view d' = w'.view d' := by
    rw [view, cache_mark d' hloaded, view]
  rw [hview]
  cases hc : w.chunks.lookup (x, y) with
  | some c₀ =>
      have hrange : inRange x y := h.inside _ c₀ hc
      have hself : World.getChunk { w with db := w.db.setChunkProtection x y state } d x y
          = (some c₀, { w with db := w.db.setChunkProtection x y state }, d) := by
        rw [World.getChunk, if_neg (not_not.mpr hrange)]
        dsimp only
        rw [hc]
      rw [hself] at hgot
      cases hgot
      obtain ⟨hcreated, hhandles, hnonexistant⟩ := h.sound.fits
      have hmark := Reliable.mark (w := { w with db := w.db.setChunkProtection x y state }) (x := x)
        (y := y) ⟨hcreated, hhandles, hnonexistant⟩ h.sound.files h.sound.coherent h.sound.keyed
        (fun pos c' hc' hpos => by
          rw [Database.getChunkProtection_set, if_neg hpos]
          exact h.sound.ranked pos c' hc')
        h.inside hc
      dsimp only at hmark
      rw [hset] at hmark
      exact ⟨hmark, rfl⟩
  | none =>
      obtain ⟨hreliable, hsame⟩ := (h.setProtection hc state).getChunk (by rw [hgot]; exact hok)
      have hdb : w'.db.getChunkProtection x y = state := by
        have hframe := getChunk_frame { w with db := w.db.setChunkProtection x y state } d x y
        rw [hgot] at hframe
        exact (hframe.db.props.getChunkProtection x y).trans hset
      rw [hgot] at hreliable hsame
      have hmark := Reliable.mark hreliable.sound.fits hreliable.sound.files
        hreliable.sound.coherent hreliable.sound.keyed
        (fun pos c' hc' _ => hreliable.sound.ranked pos c' hc') hreliable.inside hloaded
      rw [hdb] at hmark
      exact ⟨hmark, hsame⟩

omit [Platform] in
/-- A chunk that is not loaded is protected, or released. -/
theorem Faithful.setProtection (h : Faithful w d) (hnone : w.chunks.lookup (x, y) = none)
    (state : Bool) :
  Faithful { w with db := w.db.setChunkProtection x y state } d
  := (h.reliable.setProtection hnone state).faithful
    (h.settled.change rfl h.settled.oneLine rfl)

/-- A chunk in range is protected, or released, and marked so. -/
theorem Faithful.protect (h : Faithful w d) {state : Bool}
    (hgot : World.getChunk { w with db := w.db.setChunkProtection x y state } d x y
      = (some c, w', d')) (hok : d'.intact) :
  Faithful (w'.putChunk (x, y) { c with ranked := state }) d' ∧
    (w'.putChunk (x, y) { c with ranked := state }).shows d'
      = World.shows { w with db := w.db.setChunkProtection x y state } d
  := by
  have hframe := getChunk_frame { w with db := w.db.setChunkProtection x y state } d x y
  rw [hgot] at hframe
  have hset : Database.Settled (w.db.setChunkProtection x y state) d :=
    h.settled.change rfl h.settled.oneLine rfl
  obtain ⟨hreliable, hview⟩ := h.reliable.protect hgot hok
  refine ⟨hreliable.faithful (hset.frame hframe.db), ?_⟩
  apply valueOf_congr hview
  · intro key
    exact congrArg (fun props => props.lookup key) hframe.db.props.worldProps
  · exact fun pos => hframe.db.props.getChunkProtection pos.1 pos.2

/-! ### Operations -/

/-- Operations on chunks work in the region files. -/
theorem run_frame (w : World) (d : Disk) (a : WorldAct) :
  (a.run w d).1.db.dir = w.db.dir ∧
    Disk.Within (Disk.regionFiles w.db.dir) w.db.dir d (a.run w d).2.1
  := by
  have heffect := a.effect w d
  generalize a.run w d = done at heffect ⊢
  have hrefl := Disk.Within.refl (Disk.regionFiles w.db.dir) w.db.dir d
  cases heffect with
  | rest hw' =>
      rw [hw']
      exact ⟨rfl, hrefl⟩
  | prop => exact ⟨rfl, hrefl⟩
  | @look x y =>
      have hframe := getChunk_frame w d x y
      exact ⟨hframe.db.props.dir, hframe.db.within⟩
  | @chunk x y c w' d' outs data ha hrange hgot =>
      have hframe := getChunk_frame w d x y
      rw [hgot] at hframe
      exact ⟨hframe.db.props.dir, hframe.db.within⟩
  | @pixel x y c w' d' clr ha hrange hgot =>
      have hframe := getChunk_frame w d (chunkOf x) (chunkOf y)
      rw [hgot] at hframe
      exact ⟨hframe.db.props.dir, hframe.db.within⟩
  | outside => exact ⟨rfl, hrefl⟩
  | @protect x y state c w' d' outs ha hrange hgot =>
      have hframe := getChunk_frame { w with db := w.db.setChunkProtection x y state } d x y
      rw [hgot] at hframe
      exact ⟨hframe.db.props.dir, hframe.db.within⟩

/-- Accepted changes of pixels are in range. -/
theorem run_placed (w : World) (d : Disk) (a : WorldAct) :
  ∀ e ∈ (a.run w d).2.2.2, e.Placed
  := by
  have heffect := a.effect w d
  generalize a.run w d = done at heffect ⊢
  cases heffect with
  | rest => simp
  | prop => simp [Edit.Placed]
  | look => simp
  | chunk data ha hrange hgot => simpa [Edit.Placed] using hrange
  | pixel clr ha hrange hgot => simpa [Edit.Placed] using hrange
  | outside => simp [Edit.Placed]
  | protect => simp [Edit.Placed]

/-- An operation leaves a world reliable. -/
theorem Reliable.run (h : Reliable w d) (a : WorldAct) (hok : (a.run w d).2.1.intact) :
  Reliable (a.run w d).1 (a.run w d).2.1
  := by
  have heffect := a.effect w d
  generalize a.run w d = done at heffect hok ⊢
  cases heffect with
  | @rest w' outs hw' =>
      have hdb : w'.db = w.db := by rw [hw']
      have hchunks : w'.chunks = w.chunks := by rw [hw']
      exact h.congr hdb hchunks
  | @prop key value =>
      obtain ⟨hcreated, hhandles, hnonexistant⟩ := h.sound.fits
      exact ⟨⟨⟨hcreated, hhandles, hnonexistant⟩, h.sound.files, h.sound.coherent, h.sound.keyed,
        h.sound.ranked⟩, h.inside⟩
  | look => exact (h.getChunk hok).1
  | chunk data ha hrange hgot => exact (h.change hgot hok data).1
  | @pixel x y c w' d' clr ha hrange hgot =>
      exact (h.change hgot hok (c.data.setPx (low4 x) (low4 y) clr)).1.congr rfl rfl
  | @outside x y state hrange =>
      apply h.setProtection
      by_contra hsome
      obtain ⟨c, hc⟩ := Option.ne_none_iff_exists'.mp hsome
      exact hrange (h.inside _ c hc)
  | protect ha hrange hgot => exact (h.protect hgot hok).1

/-- An operation makes the writes that it accepts, and no other. -/
theorem Faithful.run (h : Faithful w d) (a : WorldAct) (hok : (a.run w d).2.1.intact)
    (hline : ∀ e ∈ (a.run w d).2.2.2, e.OneLine) :
  Faithful (a.run w d).1 (a.run w d).2.1 ∧
    Writes.Follows Edit.gives (w.shows d) (a.run w d).2.2.2
      ((a.run w d).1.shows (a.run w d).2.1)
  := by
  have heffect := a.effect w d
  generalize a.run w d = done at heffect hok hline ⊢
  cases heffect with
  | @rest w' outs hw' =>
      have hdb : w'.db = w.db := by rw [hw']
      have hchunks : w'.chunks = w.chunks := by rw [hw']
      refine ⟨h.congr hdb hchunks, ?_⟩
      rw [shows_congr d hdb hchunks]
      exact Writes.Follows.nil
  | @prop key value =>
      have hset := hline _ List.mem_cons_self
      obtain ⟨hcreated, hhandles, hnonexistant⟩ := h.sound.fits
      refine ⟨⟨⟨⟨hcreated, hhandles, hnonexistant⟩, h.sound.files, h.sound.coherent, h.sound.keyed,
        h.sound.ranked⟩, h.settled.setProp hset, h.inside⟩, Writes.Follows.single ?_⟩
      exact takes_prop (w.view d) w.db (fun pos => w.db.getChunkProtection pos.1 pos.2) key value
  | look =>
      obtain ⟨hfaithful, hshows⟩ := h.getChunk hok
      refine ⟨hfaithful, ?_⟩
      dsimp only
      rw [hshows]
      exact Writes.Follows.nil
  | @chunk x y c w' d' outs data ha hrange hgot =>
      obtain ⟨hfaithful, hshows⟩ := h.change hgot hok data
      refine ⟨hfaithful, Writes.Follows.single ?_⟩
      dsimp only
      rw [hshows]
      exact takes_chunk _ _ _ x y data
  | @pixel x y c w' d' clr ha hrange hgot =>
      obtain ⟨hfaithful, hshows⟩ := h.change hgot hok (c.data.setPx (low4 x) (low4 y) clr)
      obtain ⟨-, hdata, -⟩ := h.reliable.found hgot hok
      refine ⟨hfaithful.congr rfl rfl, Writes.Follows.single ?_⟩
      have hsame : shows (schedUpdates { w'.putChunk (chunkOf x, chunkOf y)
          { c with data := c.data.setPx (low4 x) (low4 y) clr, changed := true } with
          pxupdates := w'.pxupdates ++ [⟨x, y, clr.r, clr.g, clr.b⟩] }) d' = _ := hshows
      dsimp only
      rw [hsame]
      apply takes_pixel
      intro old hold
      rw [hdata, hold, Option.getD_some]
  | @outside x y state hrange =>
      have hnone : w.chunks.lookup (x, y) = none := by
        by_contra hsome
        obtain ⟨c, hc⟩ := Option.ne_none_iff_exists'.mp hsome
        exact hrange (h.inside _ c hc)
      refine ⟨h.setProtection hnone state, Writes.Follows.single ?_⟩
      exact takes_protect (w.view d) (fun key => w.db.worldProps.lookup key) w.db x y state
  | @protect x y state c w' d' outs ha hrange hgot =>
      obtain ⟨hfaithful, hshows⟩ := h.protect hgot hok
      refine ⟨hfaithful, Writes.Follows.single ?_⟩
      dsimp only
      rw [hshows]
      exact takes_protect (w.view d) (fun key => w.db.worldProps.lookup key) w.db x y state

/-! ### Saving and loading -/

/-- A chunk is saved. -/
theorem Inside.saveChunk {s : World × Disk} (h : Inside s.1) (pos : ChunkPos) :
  Inside (World.saveChunk s pos).1
  := by
  intro pos' c' hc'
  rw [lookup_saveChunk] at hc'
  split at hc'
  case isTrue hpos =>
    obtain ⟨c, hc, -⟩ := Option.map_eq_some_iff.mp hc'
    rw [hpos]
    exact h pos c hc
  case isFalse => exact h pos' c' hc'

/-- The world is saved. -/
theorem Inside.save (h : Inside w) (d : Disk) :
  Inside (w.save d).1
  := by
  have hfold : ∀ (poss : List ChunkPos) (s : World × Disk), Inside s.1 →
      Inside (poss.foldl World.saveChunk s).1 := by
    intro poss
    induction poss with
    | nil => exact fun s hs => hs
    | cons pos poss ih => exact fun s hs => ih _ (hs.saveChunk pos)
  exact hfold w.chunks.keys (w, d) h

/-- Saving a world does not change the view. -/
theorem Reliable.save (h : Reliable w d) (hok : (w.save d).2.intact) :
  Reliable (w.save d).1 (w.save d).2 ∧ (w.save d).1.view (w.save d).2 = w.view d
  := by
  obtain ⟨hsound, hview, -⟩ := save_spec h.sound hok
  exact ⟨⟨hsound, h.inside.save d⟩, hview⟩

/-- Saving a world does not change what it shows, and its files hold it then. -/
theorem Faithful.save (h : Faithful w d) (hok : (w.save d).2.intact) :
  Faithful (w.save d).1 (w.save d).2 ∧ (w.save d).1.shows (w.save d).2 = w.shows d ∧
    Database.held w.db.dir (w.save d).2 = w.shows d
  := by
  obtain ⟨hreliable, hview⟩ := h.reliable.save hok
  obtain ⟨db, chunks, heq, hprops, -⟩ := save_frame w d
  have hdir := save_dir w d
  have hsettled : Database.Settled (w.save d).1.db (w.save d).2 := by
    have hframe := foldl_saveChunk_frame w.chunks.keys (w, d)
    rw [World.save] at hok ⊢
    generalize w.chunks.keys.foldl World.saveChunk (w, d) = saved at hframe hok ⊢
    exact (h.settled.frame hframe.db).save hok
  have hfaithful : Faithful (w.save d).1 (w.save d).2 := hreliable.faithful hsettled
  have hshows : (w.save d).1.shows (w.save d).2 = w.shows d := by
    apply valueOf_congr hview
    · intro key
      rw [heq]
      exact congrArg (fun props => props.lookup key) hprops.worldProps
    · intro pos
      rw [heq]
      exact hprops.getChunkProtection pos.1 pos.2
  refine ⟨hfaithful, hshows, ?_⟩
  rw [← hdir, hfaithful.held_eq _ _, hshows]
  · exact fun pos c hc => save_unchanged w d hc
  · rw [heq]

/-- A world that is loaded from well-formed region files is reliable. -/
theorem Reliable.new {path name : Bytes} (h : Database.Sound (dirOf path name) d) :
  Reliable (World.new path name d).1 (World.new path name d).2
  := by
  obtain ⟨hchunks, -⟩ := new_rest path name d
  refine ⟨(new_sound path name h).1, ?_⟩
  intro pos c hc
  rw [hchunks, AList.lookup_empty] at hc
  cases hc

/-- A world that is loaded shows what the files hold. -/
theorem Faithful.new {path name : Bytes} (h : Database.Ready (dirOf path name) d)
    (hok : (World.new path name d).2.intact) :
  Faithful (World.new path name d).1 (World.new path name d).2 ∧
    (World.new path name d).1.shows (World.new path name d).2 = Database.held (dirOf path name) d
  := by
  obtain ⟨-, hview⟩ := new_sound path name h.sound
  have hsettled := (kept_new h.sound h.bare hok).settled
  obtain ⟨hdb, hdisk⟩ := new_db path name d
  rw [hdisk] at hok
  obtain ⟨hprops, hranked, -⟩ := Database.new_saved hok
  refine ⟨(Reliable.new h.sound).faithful hsettled, ?_⟩
  apply valueOf_congr hview
  · intro key
    rw [hdb, hprops]
  · intro pos
    rw [Database.getChunkProtection, hdb, hranked]

/-! ### Reading -/

/-- What is read from a world is what it shows. -/
theorem Faithful.look (h : Faithful w d) {item : Item} {v : Value} (hv : w.shows d item = some v)
    (hrange : ∀ x y, item = .pixel x y → inRange (chunkOf x) (chunkOf y))
    (hok : (w.look d item).2.intact) :
  (w.look d item).1 = some v
  := by
  cases item with
  | prop key => exact hv
  | pixel x y =>
      obtain ⟨hout, -⟩ | ⟨-, c, w', d', hgot⟩ := getChunk_cases w d (chunkOf x) (chunkOf y)
      · exact absurd (hrange x y rfl) hout
      · rw [World.look, hgot] at hok ⊢
        obtain ⟨-, hdata, -⟩ := h.reliable.found hgot hok
        rw [shows, valueOf] at hv
        obtain ⟨data, hview, rfl⟩ := Option.map_eq_some_iff.mp hv
        rw [hview, Option.getD_some] at hdata
        dsimp only
        rw [Option.map_some, hdata]
  | chunk x y =>
      obtain ⟨-, hgot⟩ | ⟨-, c, w', d', hgot⟩ := getChunk_cases w d x y
      · rw [World.look, hgot]
        exact hv
      · rw [World.look, hgot] at hok ⊢
        obtain ⟨-, -, hranked⟩ := h.reliable.found hgot hok
        dsimp only
        rw [Option.elim_some, hranked]
        exact hv

end World

end Owop
