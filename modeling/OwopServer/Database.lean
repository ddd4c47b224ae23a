import OwopServer.Disk

/-!
# The database of a world

The class `Database` of `database.cpp`: the properties and the protected chunks of a world,
kept in memory and written as a whole, and its region files, read and written a chunk at a
time through a bounded number of open handles.
-/

namespace Owop

/-- `Database`.  A handle is the region it is for, with its stream state. -/
structure Database where
  dir : Bytes
  createdDir : Bool
  handles : AList fun _ : ChunkPos => Bool
  nonexistant : List ChunkPos
  worldProps : AList fun _ : Bytes => Bytes
  rankedChunks : List ChunkPos
  changedPropsOrProtects : Bool

namespace Database

/-! ### Properties and protections -/

/-- The properties with those of the lines of `props.txt` added: the key of a line goes up
to its first space, and a line without one is skipped. -/
def parseProps (f : Bytes) (props : AList fun _ : Bytes => Bytes) : AList fun _ : Bytes => Bytes :=
  (f.splitOn 10).foldl (fun props prop =>
    if 32 ∈ prop then
      props.insert (prop.takeWhile (· != 32)) (prop.drop ((prop.takeWhile (· != 32)).length + 1))
    else props) props

/-- The positions in `pchunks.bin`, eight bytes each. -/
def parseRanked (f : Bytes) : List ChunkPos :=
  (List.range (f.length / 8)).foldl (fun ranked i =>
    ranked.insert (int32Of (f.slice (8 * i) 4), int32Of (f.slice (8 * i + 4) 4))) []

/-- The eight bytes of a position. -/
def posBytes (pos : ChunkPos) : Bytes := int32Bytes pos.1 ++ int32Bytes pos.2

/-- The lines of `props.txt`, in the order of the keys. -/
def propLines (props : AList fun _ : Bytes => Bytes) : List Bytes :=
  (props.entries.insertionSort fun p q => p.1 ≤ q.1).map fun p => p.1 ++ [32] ++ p.2 ++ [10]

/-- `Database::getChunkProtection` -/
def getChunkProtection (db : Database) (x y : Int32) : Bool := (x, y) ∈ db.rankedChunks

/-- `Database::setChunkProtection` -/
def setChunkProtection (db : Database) (x y : Int32) (state : Bool) : Database :=
  { db with
    rankedChunks :=
      if state then db.rankedChunks.insert (x, y)
      else db.rankedChunks.filter fun pos => pos ≠ (x, y)
    changedPropsOrProtects := true }

/-- `Database::getProp` -/
def getProp (db : Database) (key : Bytes) (defval : Bytes) : Bytes :=
  (db.worldProps.lookup key).getD defval

/-- `Database::setProp` -/
def setProp (db : Database) (key value : Bytes) : Database :=
  { db with
    worldProps :=
      if value = [] then db.worldProps.erase key else db.worldProps.insert key value
    changedPropsOrProtects := true }

variable [Platform]

/-- The constructor `Database::Database`.  A protection file that is read only in part
leaves the rest of the array as it was. -/
def new (dir : Bytes) (d : Disk) : Database × Disk :=
  let db : Database := ⟨dir, d.dirs dir, ∅, [], ∅, [], false⟩
  if db.createdDir then
    let (props, d) := d.readFile (dir, .props)
    let db := { db with worldProps := parseProps (props.getD []) ∅ }
    let size := (d.contents (dir, .pchunks)).length
    let tick := d.tick
    let (ranked, d) := d.readFile (dir, .pchunks)
    match ranked with
    | none => (db, d)
    | some f =>
        if size % 8 ≠ 0 then (db, d)
        else
          let f := f ++ (List.range (size - f.length)).map (Platform.junk tick)
          ({ db with rankedChunks := parseRanked f }, d)
  else (db, d)

/-- `Database::save` -/
def save (db : Database) (d : Disk) : Database × Disk :=
  if ¬ db.changedPropsOrProtects then (db, d)
  else
    let d :=
      if db.worldProps.entries.length > 0 then
        let (good, d) := d.createFile (db.dir, .props)
        if good then d.writeAll (db.dir, .props) 0 (propLines db.worldProps) else d
      else d.remove (db.dir, .props)
    let d :=
      if db.rankedChunks.length > 0 then
        let (good, d) := d.createFile (db.dir, .pchunks)
        if good then (d.write (db.dir, .pchunks) 0 (db.rankedChunks.flatMap posBytes)).2 else d
      else d.remove (db.dir, .pchunks)
    ({ db with changedPropsOrProtects := false }, d)

/-- The destructor `Database::~Database`: what is left is the file system. -/
def delete (db : Database) (d : Disk) : Disk := (db.save d).2

/-! ### Region files -/

/-- The path of the file of a region. -/
def regionPath (db : Database) (r : ChunkPos) : Path := (db.dir, .region r.1 r.2)

/-- The lookup table of a new region file, `uint8_t zero[3072]`. -/
def zero : Bytes := List.replicate 3072 0

/-- Keep an open handle, after closing another if there are too many. -/
def addHandle (db : Database) (d : Disk) (r : ChunkPos) : Database × Disk :=
  if db.handles.entries.length > worldMaxFileHandles then
    let (i, d) := d.choose db.handles.entries.length
    ({ db with handles := (db.handles.erase (db.handles.keys.getD i r)).insert r true }, d)
  else ({ db with handles := db.handles.insert r true }, d)

/-- The part of `Database::get_handle` for a region without a handle: whether there is one
now.  A failing write of the 3072 zeros is seen at once; a stream that keeps them in a buffer may
report it only when they are flushed. -/
def openHandle (db : Database) (d : Disk) (r : ChunkPos) (create : Bool) :
    Bool × Database × Disk :=
  let path := db.regionPath r
  if (d.files path).isSome then
    let (good, d) := d.openFile path
    if good then (true, db.addHandle d r) else (false, db, d)
  else if create then
    let (good, d) := d.createFile path
    if good then
      let (good, d) := d.write path 0 zero
      if good then (true, db.addHandle d r) else (false, db, d)
    else (false, db, d)
  else
    let nonexistant := if db.nonexistant.length ≥ 512 then [] else db.nonexistant
    (false, { db with nonexistant := nonexistant.insert r }, d)

/-- The start of `Database::get_handle`: make the directory if a file is to be made. -/
def makeDir (db : Database) (d : Disk) (create : Bool) : Database × Disk :=
  if ¬ db.createdDir ∧ create then
    let (made, d) := d.mkdir db.dir
    ({ db with createdDir := made }, d)
  else (db, d)

/-- The search of `Database::get_handle` for an open handle.  A handle gone bad is closed,
and `again` called. -/
def searchHandle (again : Database → Disk → Bool × Database × Disk) (db : Database) (d : Disk)
    (r : ChunkPos) (create : Bool) : Bool × Database × Disk :=
  if r ∈ db.nonexistant ∧ ¬ create then (false, db, d)
  else
    let db :=
      if create then { db with nonexistant := db.nonexistant.filter fun s => s ≠ r } else db
    match db.handles.lookup r with
    | none => db.openHandle d r create
    | some true => (true, db, d)
    | some false => again { db with handles := db.handles.erase r } d

/-- `Database::get_handle`, with a bound on how often it calls itself: whether there is a
handle, which then is good. -/
def getHandleFuel : ℕ → Database → Disk → Int32 → Int32 → Bool → Bool × Database × Disk
  | 0, db, d, _, _, _ => (false, db, d)
  | fuel + 1, db, d, x, y, create =>
      let (db, d) := db.makeDir d create
      if create ∧ ¬ db.createdDir then (false, db, d)
      else
        db.searchHandle (fun db d => getHandleFuel fuel db d x y create) d (regionOf (x, y)) create

/-- `Database::get_handle`: a call for each bad handle, and one more, is enough. -/
def getHandle (db : Database) (d : Disk) (x y : Int32) (create : Bool) : Bool × Database × Disk :=
  getHandleFuel (db.handles.entries.length + 1) db d x y create

/-- The stream of a handle has failed. -/
def spoil (db : Database) (r : ChunkPos) : Database :=
  { db with handles := db.handles.insert r false }

/-- `Database::get_chunk` once it has a handle for the region `r`. -/
def readChunk (db : Database) (d : Disk) (c : ChunkPos) (arr : Data) :
    Bool × Data × Database × Disk :=
  let r := regionOf c
  let path := db.regionPath r
  let size := (d.contents path).length
  let (look, d) := d.read path (3 * slotOf c) 3
  let db := if look.length < 3 then db.spoil r else db
  let chunkpos := 256 * Bytes.leNat look
  if chunkpos = 0 ∨ size < 3072 ∨ (size + 2 ^ 64 - chunkpos) % 2 ^ 64 < 768 then
    (false, arr, db, d)
  else if look.length < 3 then (true, arr, db, d)
  else
    let (bs, d) := d.read path chunkpos 768
    let db := if bs.length < 768 then db.spoil r else db
    (true, arr.overwrite bs, db, d)

/-- `Database::get_chunk`: whether the chunk is there, and the array `arr` after. -/
def getChunk (db : Database) (d : Disk) (x y : Int32) (arr : Data) :
    Bool × Data × Database × Disk :=
  let (file, db, d) := db.getHandle d x y false
  if ¬ file then (false, arr, db, d) else db.readChunk d (x, y) arr

/-- The step of `Database::set_chunk` that enters the end of the file in the lookup table for
a chunk without an entry. -/
def enterChunk (d : Disk) (path : Path) (lookup size chunkpos : ℕ) : Bool × ℕ × Disk :=
  if chunkpos = 0 then
    let (good, d) := d.write path lookup (Bytes.leBytes 3 (size / 256))
    (good, size % 2 ^ 32, d)
  else (true, chunkpos, d)

/-- `Database::set_chunk` once it has a handle for the region. -/
def writeChunk (db : Database) (d : Disk) (c : ChunkPos) (arr : Data) : Database × Disk :=
  let r := regionOf c
  let path := db.regionPath r
  let size := (d.contents path).length
  let lookup := 3 * slotOf c
  let (look, d) := d.read path lookup 3
  if look.length < 3 then (db.spoil r, d)
  else
    let (good, chunkpos, d) := enterChunk d path lookup size (256 * Bytes.leNat look)
    if ¬ good then (db.spoil r, d)
    else
      let (good, d) := d.write path chunkpos arr.toList
      (if good then db else db.spoil r, d)

/-- `Database::set_chunk` -/
def setChunk (db : Database) (d : Disk) (x y : Int32) (arr : Data) : Database × Disk :=
  let (file, db, d) := db.getHandle d x y true
  if ¬ file then (db, d) else db.writeChunk d (x, y) arr

end Database

end Owop
