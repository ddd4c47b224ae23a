import OwopServer.Database

/-!
# What the database leaves alone

Whatever the file operations do, a database works in its own directory, keeps its directory,
and does not change the properties and the protections when it reads or writes chunks.
-/

namespace Owop

namespace Database

/-- The file of a region is one of the database's region files. -/
theorem regionPath_mem (db : Database) (r : ChunkPos) :
  db.regionPath r ∈ Disk.regionFiles db.dir
  := ⟨r.1, r.2, rfl⟩

/-- What region files have nothing to do with. -/
structure SameProps (db db' : Database) : Prop where
  dir : db'.dir = db.dir
  worldProps : db'.worldProps = db.worldProps
  rankedChunks : db'.rankedChunks = db.rankedChunks
  changed : db'.changedPropsOrProtects = db.changedPropsOrProtects

/-- Nothing is done. -/
theorem SameProps.refl (db : Database) :
  SameProps db db
  := ⟨rfl, rfl, rfl, rfl⟩

/-- One operation after the other. -/
theorem SameProps.trans {db db' db'' : Database} (h : SameProps db db')
    (h' : SameProps db' db'') :
  SameProps db db''
  := by
  constructor
  case dir => exact h'.dir.trans h.dir
  case worldProps => exact h'.worldProps.trans h.worldProps
  case rankedChunks => exact h'.rankedChunks.trans h.rankedChunks
  case changed => exact h'.changed.trans h.changed

/-- The same chunks are protected. -/
theorem SameProps.getChunkProtection {db db' : Database} (h : SameProps db db') (x y : Int32) :
  db'.getChunkProtection x y = db.getChunkProtection x y
  := by
  rw [Database.getChunkProtection, Database.getChunkProtection, h.rankedChunks]

/-- The properties have the same values. -/
theorem SameProps.getProp {db db' : Database} (h : SameProps db db') (key defval : Bytes) :
  db'.getProp key defval = db.getProp key defval
  := by
  rw [Database.getProp, Database.getProp, h.worldProps]

/-- A stream that has failed is no property. -/
theorem sameProps_spoil (db : Database) (r : ChunkPos) :
  SameProps db (db.spoil r)
  := ⟨rfl, rfl, rfl, rfl⟩

/-- The database and the file system after an operation on region files. -/
structure Frame (db : Database) (d : Disk) (db' : Database) (d' : Disk) : Prop where
  props : SameProps db db'
  within : Disk.Within (Disk.regionFiles db.dir) db.dir d d'

/-- Nothing is done. -/
theorem Frame.refl (db : Database) (d : Disk) :
  Frame db d db d
  := ⟨SameProps.refl db, Disk.Within.refl _ db.dir d⟩

/-- One operation after the other. -/
theorem Frame.trans {db db' db'' : Database} {d d' d'' : Disk} (h : Frame db d db' d')
    (h' : Frame db' d' db'' d'') :
  Frame db d db'' d''
  := by
  constructor
  case props => exact h.props.trans h'.props
  case within =>
    apply h.within.trans
    rw [← h.props.dir]
    exact h'.within

/-- No file operation is done. -/
theorem Frame.of_props {db db' : Database} (h : SameProps db db') (d : Disk) :
  Frame db d db' d
  := ⟨h, Disk.Within.refl _ db.dir d⟩

/-- Nothing changes but the files. -/
theorem Frame.of_within (db : Database) {d d' : Disk} 
    (h : Disk.Within (Disk.regionFiles db.dir) db.dir d d') :
  Frame db d db d'
  := ⟨SameProps.refl db, h⟩

variable [Platform]

/-- Of the handles, one is added and one may be closed. -/
theorem addHandle_frame (db : Database) (d : Disk) (r : ChunkPos) :
  Frame db d (db.addHandle d r).1 (db.addHandle d r).2
  := by
  rw [addHandle]
  split
  · exact ⟨⟨rfl, rfl, rfl, rfl⟩, Disk.within_choose _ db.dir d db.handles.entries.length⟩
  · exact ⟨⟨rfl, rfl, rfl, rfl⟩, Disk.Within.refl _ db.dir d⟩

/-- A region file is opened, or made. -/
theorem openHandle_frame (db : Database) (d : Disk) (r : ChunkPos) (create : Bool) :
  Frame db d (db.openHandle d r create).2.1 (db.openHandle d r create).2.2
  := by
  rw [openHandle]
  split
  · have ho := Frame.of_within db (Disk.within_openFile _ db.dir d (db.regionPath r))
    generalize d.openFile (db.regionPath r) = opened at ho ⊢
    obtain ⟨good, d₁⟩ := opened
    cases good with
    | false => exact ho
    | true => exact ho.trans (addHandle_frame db d₁ r)
  · split
    · have hc := Frame.of_within db (Disk.within_createFile db.dir d (db.regionPath_mem r))
      generalize d.createFile (db.regionPath r) = created at hc ⊢
      obtain ⟨good, d₁⟩ := created
      cases good with
      | false => exact hc
      | true =>
          have hw := hc.trans (Frame.of_within db
            (Disk.within_write db.dir d₁ (db.regionPath_mem r) 0 zero))
          dsimp only at hw ⊢
          generalize d₁.write (db.regionPath r) 0 zero = written at hw ⊢
          obtain ⟨good, d₂⟩ := written
          cases good with
          | false => exact hw
          | true => exact hw.trans (addHandle_frame db d₂ r)
    · exact ⟨⟨rfl, rfl, rfl, rfl⟩, Disk.Within.refl _ db.dir d⟩

/-- The directory is made. -/
theorem makeDir_frame (db : Database) (d : Disk) (create : Bool) :
  Frame db d (db.makeDir d create).1 (db.makeDir d create).2
  := by
  rw [makeDir]
  split
  · exact ⟨⟨rfl, rfl, rfl, rfl⟩, Disk.within_mkdir _ db.dir d⟩
  · exact Frame.refl db d

/-- A handle is looked up, and another one opened if that one has failed. -/
theorem searchHandle_frame {again : Database → Disk → Bool × Database × Disk}
    (hagain : ∀ db d, Frame db d (again db d).2.1 (again db d).2.2) (db : Database) (d : Disk)
    (r : ChunkPos) (create : Bool) :
  Frame db d (db.searchHandle again d r create).2.1 (db.searchHandle again d r create).2.2
  := by
  rw [searchHandle]
  split
  · exact Frame.refl db d
  · generalize hdb : (ite (create = true) _ _ : Database) = db₁
    have h₁ : Frame db d db₁ d := by
      rw [← hdb]
      split
      · exact ⟨⟨rfl, rfl, rfl, rfl⟩, Disk.Within.refl _ _ d⟩
      · exact Frame.refl db d
    dsimp only
    split
    · apply h₁.trans
      apply openHandle_frame
    · exact h₁
    · apply h₁.trans
      apply Frame.trans _ (hagain _ _)
      exact ⟨⟨rfl, rfl, rfl, rfl⟩, Disk.Within.refl _ _ d⟩

/-- The calls of `get_handle` inside of each other, by induction on their number. -/
theorem getHandleFuel_frame (fuel : ℕ) (db : Database) (d : Disk) (x y : Int32)
    (create : Bool) :
  Frame db d (getHandleFuel fuel db d x y create).2.1 (getHandleFuel fuel db d x y create).2.2
  := by
  induction fuel generalizing db d with
  | zero => exact Frame.refl db d
  | succ fuel ih =>
      have hm := makeDir_frame db d create
      rw [getHandleFuel]
      generalize db.makeDir d create = made at hm ⊢
      obtain ⟨db₁, d₁⟩ := made
      dsimp only at hm ⊢
      split
      · exact hm
      · apply hm.trans
        apply searchHandle_frame
        exact fun db d => ih db d

/-- `get_handle` opens or makes region files only. -/
theorem getHandle_frame (db : Database) (d : Disk) (x y : Int32) (create : Bool) :
  Frame db d (db.getHandle d x y create).2.1 (db.getHandle d x y create).2.2
  := getHandleFuel_frame _ db d x y create

/-- A chunk is read through a handle. -/
theorem readChunk_frame (db : Database) (d : Disk) (c : ChunkPos) (arr : Data) :
  Frame db d (db.readChunk d c arr).2.2.1 (db.readChunk d c arr).2.2.2
  := by
  have hr := Frame.of_within db (Disk.within_read _ db.dir d (db.regionPath (regionOf c))
    (3 * slotOf c) 3)
  rw [readChunk]
  generalize d.read (db.regionPath (regionOf c)) (3 * slotOf c) 3 = looked at hr ⊢
  obtain ⟨look, d₁⟩ := looked
  dsimp only at hr ⊢
  generalize hdb : (if look.length < 3 then db.spoil (regionOf c) else db) = db₁
  have h₁ : Frame db d db₁ d₁ := by
    rw [← hdb]
    split
    · exact hr.trans (Frame.of_props (sameProps_spoil db _) d₁)
    · exact hr
  split
  · exact h₁
  · split
    · exact h₁
    · have hr' := h₁.trans (Frame.of_within db₁ (Disk.within_read _ db₁.dir d₁
        (db.regionPath (regionOf c)) (256 * Bytes.leNat look) 768))
      generalize d₁.read (db.regionPath (regionOf c)) (256 * Bytes.leNat look) 768
        = bytes at hr' ⊢
      obtain ⟨bs, d₂⟩ := bytes
      dsimp only at hr' ⊢
      split
      · exact hr'.trans (Frame.of_props (sameProps_spoil db₁ _) d₂)
      · exact hr'

/-- `get_chunk` opens and reads region files only. -/
theorem getChunk_frame (db : Database) (d : Disk) (x y : Int32) (arr : Data) :
  Frame db d (db.getChunk d x y arr).2.2.1 (db.getChunk d x y arr).2.2.2
  := by
  have hh := getHandle_frame db d x y false
  rw [getChunk]
  generalize db.getHandle d x y false = got at hh ⊢
  obtain ⟨file, db₁, d₁⟩ := got
  cases file with
  | false => exact hh
  | true => exact hh.trans (readChunk_frame db₁ d₁ (x, y) arr)

/-- The entry of a chunk is written after its bytes. -/
theorem enterChunk_within {S : Set Path} {path : Path} (dir : Bytes) (d : Disk)
    (hpath : path ∈ S) (lookup size chunkpos : ℕ) :
  Disk.Within S dir d (enterChunk d path lookup size chunkpos).2.2
  := by
  rw [enterChunk]
  split
  · exact Disk.within_write dir d hpath _ _
  · exact Disk.Within.refl S dir d

/-- A chunk is written through a handle. -/
theorem writeChunk_frame (db : Database) (d : Disk) (c : ChunkPos) (arr : Data) :
  Frame db d (db.writeChunk d c arr).1 (db.writeChunk d c arr).2
  := by
  have hr := Frame.of_within db (Disk.within_read _ db.dir d (db.regionPath (regionOf c))
    (3 * slotOf c) 3)
  rw [writeChunk]
  generalize d.read (db.regionPath (regionOf c)) (3 * slotOf c) 3 = looked at hr ⊢
  obtain ⟨look, d₁⟩ := looked
  dsimp only at hr ⊢
  split
  · exact hr.trans (Frame.of_props (sameProps_spoil db _) d₁)
  · have he := hr.trans (Frame.of_within db
      (enterChunk_within db.dir d₁ (db.regionPath_mem (regionOf c))
      (3 * slotOf c) (d.contents (db.regionPath (regionOf c))).length (256 * Bytes.leNat look)))
    generalize enterChunk d₁ (db.regionPath (regionOf c)) (3 * slotOf c)
      (d.contents (db.regionPath (regionOf c))).length (256 * Bytes.leNat look) = entered at he ⊢
    obtain ⟨good, chunkpos, d₂⟩ := entered
    dsimp only at he ⊢
    split
    · exact he.trans (Frame.of_props (sameProps_spoil db _) d₂)
    · have hw := he.trans (Frame.of_within db (Disk.within_write db.dir d₂
        (db.regionPath_mem (regionOf c)) chunkpos arr.toList))
      generalize d₂.write (db.regionPath (regionOf c)) chunkpos arr.toList = written at hw ⊢
      obtain ⟨good, d₃⟩ := written
      dsimp only at hw ⊢
      split
      · exact hw
      · exact hw.trans (Frame.of_props (sameProps_spoil db _) d₃)

/-- `set_chunk` opens, makes and writes region files only. -/
theorem setChunk_frame (db : Database) (d : Disk) (x y : Int32) (arr : Data) :
  Frame db d (db.setChunk d x y arr).1 (db.setChunk d x y arr).2
  := by
  have hh := getHandle_frame db d x y true
  rw [setChunk]
  generalize db.getHandle d x y true = got at hh ⊢
  obtain ⟨file, db₁, d₁⟩ := got
  cases file with
  | false => exact hh
  | true => exact hh.trans (writeChunk_frame db₁ d₁ (x, y) arr)

/-- `save` writes the files of the properties and the protections only. -/
theorem save_within (db : Database) (d : Disk) :
  Disk.Within (Disk.propFiles db.dir) db.dir d (db.save d).2
  := by
  have hprops : ((db.dir, .props) : Path) ∈ Disk.propFiles db.dir := Or.inl rfl
  have hpchunks : ((db.dir, .pchunks) : Path) ∈ Disk.propFiles db.dir := Or.inr rfl
  rw [save]
  split
  · exact Disk.Within.refl _ db.dir d
  · generalize hd₁ : (ite (db.worldProps.entries.length > 0) _ _ : Disk) = d₁
    have h₁ : Disk.Within (Disk.propFiles db.dir) db.dir d d₁ := by
      rw [← hd₁]
      split
      · have hc := Disk.within_createFile db.dir d hprops
        generalize d.createFile (db.dir, .props) = created at hc ⊢
        obtain ⟨good, d'⟩ := created
        cases good with
        | false => exact hc
        | true => exact hc.trans (Disk.within_writeAll db.dir d' hprops 0 _)
      · exact Disk.within_remove db.dir d hprops
    dsimp only
    apply h₁.trans
    split
    · have hc := Disk.within_createFile db.dir d₁ hpchunks
      generalize d₁.createFile (db.dir, .pchunks) = created at hc ⊢
      obtain ⟨good, d'⟩ := created
      cases good with
      | false => exact hc
      | true => exact hc.trans (Disk.within_write db.dir d' hpchunks 0 _)
    · exact Disk.within_remove db.dir d₁ hpchunks

/-- The constructor reads and changes no file. -/
theorem new_within (S : Set Path) (dir : Bytes) (d : Disk) :
  Disk.Within S dir d (new dir d).2 ∧ (new dir d).1.dir = dir
  := by
  rw [new]
  dsimp only
  split
  · have hp := Disk.within_readFile S dir d (dir, .props)
    generalize d.readFile (dir, .props) = read at hp ⊢
    obtain ⟨props, d₁⟩ := read
    have hr := hp.trans (Disk.within_readFile S dir d₁ (dir, .pchunks))
    dsimp only at hr ⊢
    generalize d₁.readFile (dir, .pchunks) = read' at hr ⊢
    obtain ⟨ranked, d₂⟩ := read'
    cases ranked with
    | none => exact ⟨hr, rfl⟩
    | some f =>
        dsimp only at hr ⊢
        split
        · exact ⟨hr, rfl⟩
        · exact ⟨hr, rfl⟩
  · exact ⟨Disk.Within.refl S dir d, rfl⟩

end Database

end Owop
