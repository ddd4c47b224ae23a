import OwopServer.Database.Handles
import OwopServer.Library.Runs
import OwopServer.World.Loading

/-!
# The limits of a world

A world has a limit for the chunks it keeps loaded and one for the region files it keeps open.
Both are compared before the new entry is counted.  So the limits hold in a run exactly if no
access asks for a further chunk when `worldMaxChunksLoaded` are loaded, and none opens a further
file when `worldMaxFileHandles` are open; one more than the limits is never passed.
-/

namespace Owop

namespace World

open Cache (count)

variable [Platform]

/-! ### What a world does with its chunks and files -/

/-- What a world does with its chunks and its region files. -/
inductive Access where
  /-- `get_chunk` -/
  | get (x y : Int32)
  /-- `Chunk::save`, of a chunk that is loaded -/
  | save (pos : ChunkPos)
  /-- A chunk that is loaded is changed. -/
  | put (pos : ChunkPos) (c : Chunk)
  /-- Everything else becomes as in `v`. -/
  | rest (v : World)

/-- The world with everything else as in `v`. -/
def rest (w v : World) : World :=
  { v with
    chunks := w.chunks
    db := { w.db with
      worldProps := v.db.worldProps
      rankedChunks := v.db.rankedChunks
      changedPropsOrProtects := v.db.changedPropsOrProtects } }

/-- The world after an access, when the files are `d`. -/
def access (w : World) (d : Disk) : Access → World
  | .get x y => (w.getChunk d x y).2.1
  | .save pos => (saveChunk (w, d) pos).1
  | .put pos c => if pos ∈ w.chunks then w.putChunk pos c else w
  | .rest v => w.rest v

/-- An access with the files as they are then. -/
def accessStep (w : World) (e : Disk × Access) : World := w.access e.1 e.2

/-- The limits: chunks and handles, each region file open once, and a handle gone bad is opened
again by one call more, which does not make another. -/
structure Limits (w : World) : Prop where
  chunks : count w.chunks ≤ worldMaxChunksLoaded
  handles : count w.db.handles ≤ worldMaxFileHandles
  distinct : (w.db.handles.keys.map w.db.regionPath).Nodup
  ends : ∀ d x y create again, w.db.getHandle d x y create
    = Database.handleBody x y create (Database.handleBody x y create again) w.db d

/-- The access does not find the limits reached: no further chunk is loaded when there are as many
as may be, and no further file is opened when as many as may be are open. -/
def Spares (w : World) : Disk × Access → Prop
  | (d, .get x y) => inRange x y → (x, y) ∉ w.chunks → count w.chunks ≠ worldMaxChunksLoaded ∧
      ¬ (count w.db.handles = worldMaxFileHandles ∧ w.db.opensNew d x y false)
  | (d, .save pos) => ∀ c, w.chunks.lookup pos = some c → c.changed = true →
      ¬ (count w.db.handles = worldMaxFileHandles ∧ w.db.opensNew d c.cx c.cy true)
  | (_, .put _ _) => True
  | (_, .rest _) => True

/-! ### What holds without a condition -/

omit [Platform] in
/-- No region file is open through two handles. -/
theorem distinct_handles (db : Database) :
  (db.handles.keys.map db.regionPath).Nodup
  := by
  apply List.Nodup.map _ db.handles.keys_nodup
  intro r r' hpath
  obtain ⟨hx, hy⟩ := FileName.region.inj (Prod.mk.inj hpath).2
  exact Prod.ext hx hy

/-- What is left of the limits are the two numbers. -/
theorem limits_iff (w : World) :
  w.Limits ↔ count w.chunks ≤ worldMaxChunksLoaded ∧ count w.db.handles ≤ worldMaxFileHandles
  := by
  constructor
  · exact fun h => ⟨h.chunks, h.handles⟩
  · rintro ⟨hchunks, hhandles⟩
    exact ⟨hchunks, hhandles, distinct_handles w.db, w.db.getHandle_eq⟩

/-! ### One access -/

section

variable {w : World} {d : Disk}

/-- A chunk that is loaded and saved stays loaded, and its region is opened if it is not open. -/
theorem saveChunk_counts (w : World) (d : Disk) (pos : ChunkPos) :
  count (saveChunk (w, d) pos).1.chunks = count w.chunks ∧
    ((saveChunk (w, d) pos).1.db = w.db ∧
        (∀ c, w.chunks.lookup pos = some c → c.changed = false) ∨
      ∃ c, w.chunks.lookup pos = some c ∧ c.changed = true ∧
        count (saveChunk (w, d) pos).1.db.handles
          = count (w.db.getHandle d c.cx c.cy true).2.1.handles)
  := by
  rw [saveChunk]
  dsimp only
  cases hc : w.chunks.lookup pos with
  | none => exact ⟨rfl, Or.inl ⟨rfl, fun c hc => by cases hc⟩⟩
  | some c =>
      have hmem : pos ∈ w.chunks := AList.lookup_isSome.mp (Option.isSome_iff_exists.mpr ⟨c, hc⟩)
      dsimp only
      rw [Chunk.save]
      constructor
      · exact Cache.count_insert_of_mem hmem
      · split
        case isTrue hchanged => exact Or.inr ⟨c, rfl, hchanged, w.db.setChunk_count d c.cx c.cy c.data⟩
        case isFalse hsame =>
          left
          constructor
          · rfl
          · intro c' hc'
            obtain rfl := Option.some.inj hc'
            exact Bool.eq_false_iff.mpr hsame

/-- Saving a chunk loads none and drops none. -/
theorem mem_saveChunk (w : World) (d : Disk) (pos pos' : ChunkPos) :
  pos' ∈ (saveChunk (w, d) pos).1.chunks ↔ pos' ∈ w.chunks
  := by
  rw [saveChunk]
  dsimp only
  cases hc : w.chunks.lookup pos with
  | none => rfl
  | some c =>
      have hmem : pos ∈ w.chunks := AList.lookup_isSome.mp (Option.isSome_iff_exists.mpr ⟨c, hc⟩)
      dsimp only
      rw [AList.mem_insert]
      constructor
      · rintro (rfl | hmem')
        · exact hmem
        · exact hmem'
      · exact Or.inr

/-- What is dropped is one of the chunks, after it has been saved. -/
theorem evict_eq (h : 0 < count w.chunks) (d : Disk) :
  ∃ pos d₁, pos ∈ w.chunks ∧ (w.evict d).1.db = (saveChunk (w, d₁) pos).1.db ∧
    (w.evict d).1.chunks = (saveChunk (w, d₁) pos).1.chunks.erase pos
  := by
  have hlt : (d.choose w.chunks.keys.length).1 < w.chunks.keys.length := Nat.mod_lt _ h
  have hmem : w.chunks.keys.getD (d.choose w.chunks.keys.length).1 (0, 0) ∈ w.chunks := by
    rw [List.getD_eq_getElem _ _ hlt]
    exact List.getElem_mem hlt
  exact ⟨_, _, hmem, rfl, rfl⟩

/-- There is room for a chunk, as one of too many is dropped. -/
theorem evict_counts (hfull : worldMaxChunksLoaded < count w.chunks)
    (hcount : count w.chunks ≤ worldMaxChunksLoaded + 1)
    (hhandles : count w.db.handles ≤ worldMaxFileHandles + 1) :
  count (w.evict d).1.chunks ≤ worldMaxChunksLoaded ∧
    count (w.evict d).1.db.handles ≤ worldMaxFileHandles + 1 ∧
    ∀ pos, pos ∈ (w.evict d).1.chunks → pos ∈ w.chunks
  := by
  obtain ⟨pos, d₁, hmem, hdb, hchunks⟩ := evict_eq (Nat.zero_lt_of_lt hfull) d
  obtain ⟨hsaved, hopen⟩ := w.saveChunk_counts d₁ pos
  rw [hdb, hchunks]
  constructor
  · have herase := Cache.count_erase_of_mem ((w.mem_saveChunk d₁ pos pos).mpr hmem)
    omega
  · constructor
    · obtain ⟨hsame, -⟩ | ⟨c, -, -, hopen⟩ := hopen
      · rw [hsame]
        exact hhandles
      · rw [hopen]
        exact Database.getHandle_count_le_succ hhandles
    · intro pos' hpos'
      exact (w.mem_saveChunk d₁ pos pos').mp (AList.mem_erase.mp hpos').2

/-- A chunk that is not loaded is loaded, after another has been saved and dropped if there are too
many, and its region is opened if it is not open. -/
theorem getChunk_counts {x y : Int32} {room : World × Disk} (hrange : inRange x y)
    (hnew : (x, y) ∉ w.chunks)
    (hroom : room = if count w.chunks > worldMaxChunksLoaded then w.evict d else (w, d)) :
  (∃ c, (w.getChunk d x y).2.1.chunks = room.1.chunks.insert (x, y) c) ∧
    count (w.getChunk d x y).2.1.db.handles
      = count (room.1.db.getHandle room.2 x y false).2.1.handles
  := by
  rw [getChunk, if_neg (not_not.mpr hrange), AList.lookup_eq_none.mpr hnew]
  dsimp only
  rw [count] at hroom
  rw [← hroom]
  obtain ⟨w₁, d₁⟩ := room
  constructor
  · exact ⟨_, rfl⟩
  · rw [Chunk.new]
    exact w₁.db.getChunk_count d₁ x y _

/-- A chunk that is out of range or loaded is not loaded again. -/
theorem getChunk_same {x y : Int32} (h : ¬ (inRange x y ∧ (x, y) ∉ w.chunks)) :
  (w.getChunk d x y).2.1 = w
  := by
  rw [getChunk]
  split
  case isTrue => rfl
  case isFalse hrange =>
    cases hc : w.chunks.lookup (x, y) with
    | some c => rfl
    | none => exact absurd ⟨not_not.mp hrange, AList.lookup_eq_none.mp hc⟩ h

end

/-! ### The limits in a run -/

/-- Within the limits, an access keeps to them just if it does not find them reached. -/
theorem limits_access_iff {w : World} (h : w.Limits) (e : Disk × Access) :
  (w.accessStep e).Limits ↔ w.Spares e
  := by
  obtain ⟨d, a⟩ := e
  obtain ⟨hchunks, hhandles⟩ := w.limits_iff.mp h
  rw [limits_iff]
  cases a with
  | get x y =>
      rw [accessStep, access, Spares]
      by_cases hnew : inRange x y ∧ (x, y) ∉ w.chunks
      · obtain ⟨hrange, hnew⟩ := hnew
        have hroom : (w, d) = if count w.chunks > worldMaxChunksLoaded then w.evict d else (w, d) :=
          (if_neg hchunks.not_gt).symm
        obtain ⟨⟨c, hchunk⟩, hopen⟩ := getChunk_counts hrange hnew hroom
        have hbound : count w.chunks + 1 ≤ worldMaxChunksLoaded
            ↔ count w.chunks ≠ worldMaxChunksLoaded := by
          omega
        rw [hchunk, Cache.count_insert_of_notMem hnew, hopen, hbound,
          Database.getHandle_count_le_iff hhandles]
        tauto
      · rw [getChunk_same hnew]
        tauto
  | save pos =>
      rw [accessStep, access, Spares]
      obtain ⟨hcount, ⟨hdb, hsame⟩ | ⟨c, hc, hchanged, hopen⟩⟩ :=
        w.saveChunk_counts d pos
      · rw [hcount, hdb]
        constructor
        · rintro - c hc hchanged
          exact absurd hchanged (Bool.eq_false_iff.mp (hsame c hc))
        · exact fun _ => ⟨hchunks, hhandles⟩
      · rw [hcount, hopen, Database.getHandle_count_le_iff hhandles]
        constructor
        · rintro ⟨-, hspare⟩ c' hc' -
          obtain rfl := Option.some.inj (hc.symm.trans hc')
          exact hspare
        · exact fun hspare => ⟨hchunks, hspare c hc hchanged⟩
  | put pos c =>
      rw [accessStep, access, Spares]
      constructor
      · exact fun _ => trivial
      · intro _
        split
        case isTrue hmem => exact ⟨(Cache.count_insert_of_mem hmem).trans_le hchunks, hhandles⟩
        case isFalse => exact ⟨hchunks, hhandles⟩
  | rest v => exact ⟨fun _ => trivial, fun _ => ⟨hchunks, hhandles⟩⟩

/-- A new world has neither chunks nor handles. -/
theorem new_limits (path name : Bytes) (d : Disk) :
  (new path name d).1.chunks = ∅ ∧ (new path name d).1.db.handles = ∅
  := by
  constructor
  · exact (new_rest path name d).1
  · rw [(new_db path name d).1]
    exact Database.new_handles (dirOf path name) d

/-- The limits hold in all states of a run of a new world, on any coordinates, whatever file
operations fail, just if no access of the run finds them reached. -/
theorem limits_iff_spares (path name : Bytes) (d : Disk) (accesses : List (Disk × Access)) :
  Runs.Always accessStep Limits (new path name d).1 accesses
    ↔ Runs.Along accessStep Spares (new path name d).1 accesses
  := by
  apply Runs.always_iff_along _ (fun _ h => h)
  · exact fun w e h hspares => (limits_access_iff h e).mpr hspares
  · exact fun w e h hnot hlimits => hnot ((limits_access_iff h e).mp hlimits)
  · obtain ⟨hchunks, hhandles⟩ := new_limits path name d
    rw [limits_iff, hchunks, hhandles]
    exact ⟨Nat.zero_le _, Nat.zero_le _⟩

/-- The files of a world with all its regions stored and no chunk in them. -/
def storedRegions : Disk :=
  { Disk.empty fun _ => true with
    files := fun path =>
      match path.2 with
      | .region _ _ => some Database.zero
      | _ => none }

/-- Chunks of seventeen regions are asked for. -/
def seventeen : List (Disk × Access) :=
  (List.range 17).map fun i => (storedRegions, .get (Int32.ofNat (32 * i)) 0)

omit [Platform] in
/-- Then seventeen region files are open. -/
theorem not_limits_seventeen :
  ¬ ∀ [Platform] (path name : Bytes) (d : Disk) (accesses : List (Disk × Access)),
    Runs.Always accessStep Limits (new path name d).1 accesses
  := by
  intro h
  let _ := Platform.quiet
  have hlimits := (h [] [] storedRegions seventeen).last
  exact absurd hlimits.handles (by decide +kernel)

/-! ### The limits that are kept -/

/-- One chunk more than the limit, and one handle more. -/
def Near (w : World) : Prop :=
  count w.chunks ≤ worldMaxChunksLoaded + 1 ∧ count w.db.handles ≤ worldMaxFileHandles + 1

/-- One access. -/
theorem Near.access {w : World} (h : w.Near) (e : Disk × Access) :
  (w.accessStep e).Near
  := by
  obtain ⟨d, a⟩ := e
  cases a with
  | get x y =>
      rw [accessStep, World.access]
      by_cases hnew : inRange x y ∧ (x, y) ∉ w.chunks
      · obtain ⟨hrange, hnew⟩ := hnew
        generalize hroom : (if count w.chunks > worldMaxChunksLoaded then w.evict d else (w, d))
          = room
        obtain ⟨hchunks, hhandles, hmem⟩ : count room.1.chunks ≤ worldMaxChunksLoaded ∧
            count room.1.db.handles ≤ worldMaxFileHandles + 1 ∧ (x, y) ∉ room.1.chunks := by
          rw [← hroom]
          split
          case isTrue hfull =>
            obtain ⟨hcount, hhandles, hsub⟩ := evict_counts (d := d) hfull h.1 h.2
            exact ⟨hcount, hhandles, fun hmem => hnew (hsub _ hmem)⟩
          case isFalse hroom => exact ⟨not_lt.mp hroom, h.2, hnew⟩
        obtain ⟨⟨c, hchunk⟩, hopen⟩ := getChunk_counts hrange hnew hroom.symm
        constructor
        · rw [hchunk, Cache.count_insert_of_notMem hmem]
          omega
        · rw [hopen]
          exact Database.getHandle_count_le_succ hhandles
      · rw [getChunk_same hnew]
        exact h
  | save pos =>
      rw [accessStep, World.access]
      obtain ⟨hcount, ⟨hdb, -⟩ | ⟨c, -, -, hopen⟩⟩ := w.saveChunk_counts d pos
      · rw [Near, hcount, hdb]
        exact h
      · rw [Near, hcount, hopen]
        exact ⟨h.1, Database.getHandle_count_le_succ h.2⟩
  | put pos c =>
      rw [accessStep, World.access]
      split
      case isTrue hmem => exact ⟨(Cache.count_insert_of_mem hmem).trans_le h.1, h.2⟩
      case isFalse => exact h
  | rest v => exact h

/-- One more than the limits is never passed. -/
theorem near_run (path name : Bytes) (d : Disk) (accesses : List (Disk × Access)) :
  (Runs.run accessStep (new path name d).1 accesses).Near
  := by
  induction accesses using List.reverseRecOn with
  | nil =>
      obtain ⟨hchunks, hhandles⟩ := new_limits path name d
      rw [Runs.run_nil, Near, hchunks, hhandles]
      exact ⟨Nat.zero_le _, Nat.zero_le _⟩
  | append_singleton accesses e ih =>
      rw [Runs.run_concat]
      exact ih.access e

/-! ### Operations as accesses -/

/-- `w'` comes from `w` by accesses. -/
def Reaches (w w' : World) : Prop := ∃ accesses, w' = Runs.run accessStep w accesses

variable {w w' w'' : World}

/-- Nothing happens. -/
theorem Reaches.refl (w : World) :
  w.Reaches w
  := ⟨[], rfl⟩

/-- One thing after another. -/
theorem Reaches.trans (h : w.Reaches w') (h' : w'.Reaches w'') :
  w.Reaches w''
  := by
  obtain ⟨accesses, rfl⟩ := h
  obtain ⟨accesses', rfl⟩ := h'
  use accesses ++ accesses'
  exact List.foldl_append.symm

/-- One access. -/
theorem Reaches.single (w : World) (d : Disk) (a : Access) :
  w.Reaches (w.access d a)
  := ⟨[(d, a)], rfl⟩

/-- A change that keeps the chunks and the handles. -/
theorem Reaches.rest (h : w' = w.rest w') :
  w.Reaches w'
  := by
  rw [h]
  exact Reaches.single w (Disk.empty fun _ => true) (.rest w')

/-- A chunk is looked for. -/
theorem Reaches.getChunk (w : World) (d : Disk) (x y : Int32) :
  w.Reaches (w.getChunk d x y).2.1
  := Reaches.single w d (.get x y)

/-- A chunk is asked for and changed. -/
theorem Reaches.putChunk {d d' : Disk} {x y : Int32} {c : Chunk}
    (h : w.getChunk d x y = (some c, w', d')) (c' : Chunk) :
  w.Reaches (w'.putChunk (x, y) c')
  := by
  have hget := Reaches.getChunk w d x y
  rw [h] at hget
  obtain ⟨hloaded, -⟩ := lookup_getChunk h
  have hmem : (x, y) ∈ w'.chunks :=
    AList.lookup_isSome.mp (Option.isSome_iff_exists.mpr ⟨c, hloaded⟩)
  have hput := Reaches.single w' d (.put (x, y) c')
  rw [access, if_pos hmem] at hput
  exact hget.trans hput

/-- All loaded chunks are saved, and the properties. -/
theorem Reaches.save (w : World) (d : Disk) :
  w.Reaches (w.save d).1
  := by
  have hfold : ∀ poss : List ChunkPos, w.Reaches (poss.foldl saveChunk (w, d)).1 := by
    intro poss
    induction poss using List.reverseRecOn with
    | nil => exact Reaches.refl w
    | append_singleton poss pos ih =>
        rw [List.foldl_concat]
        apply ih.trans
        exact Reaches.single _ (poss.foldl saveChunk (w, d)).2 (.save pos)
  have hchunks := hfold w.chunks.keys
  rw [World.save]
  generalize w.chunks.keys.foldl saveChunk (w, d) = saved at hchunks ⊢
  obtain ⟨w₁, d₁⟩ := saved
  apply hchunks.trans
  apply Reaches.rest
  dsimp only
  rw [Database.save_fst]
  rfl

end World

end Owop
