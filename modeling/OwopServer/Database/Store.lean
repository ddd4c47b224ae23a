import OwopServer.Database.Frame
import OwopServer.Database.Handles
import OwopServer.Region

/-!
# The database as a store of chunks

While no file operation fails, the database reads and writes the region files of its
directory as a map from chunk positions to chunks.  For each operation the changes it makes
to the files are listed.
-/

namespace Owop

namespace Database

/-! ### What is stored -/

/-- The chunk at position `c` stored in the region files of the directory `dir`. -/
def stored (dir : Bytes) (d : Disk) (c : ChunkPos) : Option Data :=
  (d.files (dir, .region (regionOf c).1 (regionOf c).2)).bind fun f => Region.chunkAt f (slotOf c)

/-- The region files of the directory `dir` are well formed. -/
def Sound (dir : Bytes) (d : Disk) : Prop :=
  ∀ rx ry f, d.files (dir, .region rx ry) = some f → Region.WF f

/-- What a database remembers about its directory is so. -/
structure Fits (db : Database) (d : Disk) : Prop where
  created : db.createdDir = d.dirs db.dir
  handles : ∀ r good, db.handles.lookup r = some good →
    good = true ∧ (d.files (db.regionPath r)).isSome
  nonexistant : ∀ r ∈ db.nonexistant, d.files (db.regionPath r) = none

/-- What a database remembers about its directory is so, whatever the state of its streams,
of which only those with `P` may be open. -/
structure Knows (P : Bool → Prop) (db : Database) (d : Disk) : Prop where
  created : db.createdDir = d.dirs db.dir
  handles : ∀ r good, db.handles.lookup r = some good →
    P good ∧ (d.files (db.regionPath r)).isSome
  nonexistant : ∀ r ∈ db.nonexistant, d.files (db.regionPath r) = none

/-- A database fits, if it knows its files and only good streams are open. -/
theorem fits_iff {db : Database} {d : Disk} :
  Fits db d ↔ Knows (· = true) db d
  := ⟨fun h => ⟨h.created, h.handles, h.nonexistant⟩, fun h => ⟨h.created, h.handles, h.nonexistant⟩⟩

/-- The number of the next operation does not matter. -/
@[simp]
theorem stored_atTick (dir : Bytes) (d : Disk) (t : ℕ) :
  stored dir (d.atTick t) = stored dir d
  := rfl

/-- What a database remembers is about the files and the directory. -/
theorem Knows.atTick {P : Bool → Prop} {db : Database} {d : Disk} (h : Knows P db d) (t : ℕ) :
  Knows P db (d.atTick t)
  := ⟨h.created, h.handles, h.nonexistant⟩

/-- The number of the next operation does not matter. -/
theorem Fits.atTick {db : Database} {d : Disk} (h : Fits db d) (t : ℕ) :
  Fits db (d.atTick t)
  := ⟨h.created, h.handles, h.nonexistant⟩

/-- The path of a region determines it. -/
theorem regionPath_inj (db : Database) {r s : ChunkPos} (h : db.regionPath r = db.regionPath s) :
  r = s
  := by
  simp only [regionPath, Prod.mk.injEq, FileName.region.injEq, true_and] at h
  exact Prod.ext h.1 h.2

/-- A file takes the place of the file of a region. -/
theorem Knows.update {P : Bool → Prop} {db : Database} {d d' : Disk} {r : ChunkPos} {f : Bytes}
    (h : Knows P db d)
    (hfiles : d'.files = Function.update d.files (db.regionPath r) (some f))
    (hdirs : d'.dirs db.dir = d.dirs db.dir) (hr : r ∉ db.nonexistant) :
  Knows P db d'
  := by
  constructor
  case created => rw [h.created, hdirs]
  case handles =>
    intro s good hl
    obtain ⟨hgood, hs⟩ := h.handles s good hl
    rw [hfiles]
    refine ⟨hgood, ?_⟩
    by_cases he : db.regionPath s = db.regionPath r
    · rw [he, Function.update_self]
      rfl
    · rw [Function.update_of_ne he]
      exact hs
  case nonexistant =>
    intro s hs
    rw [hfiles, Function.update_of_ne]
    · exact h.nonexistant s hs
    · intro he
      apply hr
      rw [← regionPath_inj db he]
      exact hs

/-! ### The changes of the operations -/

/-- The changes made to get a handle for the region `r`, making its file if need be. -/
def handleOps (db : Database) (d : Disk) (r : ChunkPos) : List FileOp :=
  (if db.createdDir then [] else [.mkdir db.dir]) ++
    if (d.files (db.regionPath r)).isSome then []
    else [.create (db.regionPath r), .write (db.regionPath r) 0 zero]

/-- The region file of `r`, or the one made for it. -/
def fileOf (db : Database) (d : Disk) (r : ChunkPos) : Bytes :=
  (d.files (db.regionPath r)).getD zero

/-- The changes made to put the chunk with number `k` into the file `f`. -/
def chunkOps (path : Path) (f : Bytes) (k : ℕ) (arr : Data) : List FileOp :=
  if Region.entry f k = 0 then
    [.write path (3 * k) (Bytes.leBytes 3 (f.length / 256)), .write path f.length arr.toList]
  else [.write path (Region.offset f k) arr.toList]

/-- The changes `set_chunk` makes. -/
def setOps (db : Database) (d : Disk) (c : ChunkPos) (arr : Data) : List FileOp :=
  db.handleOps d (regionOf c) ++
    chunkOps (db.regionPath (regionOf c)) (db.fileOf d (regionOf c)) (slotOf c) arr

/-- Making the file of a region puts the empty table there. -/
theorem files_make (d : Disk) (path : Path) :
  (([.create path, .write path 0 zero] : List FileOp).foldl Disk.apply d).files
    = Function.update d.files path (some zero)
  := by
  simp [Disk.apply, Bytes.nil_splice]

/-- The changes of getting a handle leave the file of the region there. -/
theorem files_handleOps (db : Database) (d : Disk) (r : ChunkPos) :
  ((db.handleOps d r).foldl Disk.apply d).files
    = Function.update d.files (db.regionPath r) (some (db.fileOf d r))
  := by
  rw [handleOps, List.foldl_append]
  generalize hd₁ : ((if db.createdDir then [] else [.mkdir db.dir]) : List FileOp).foldl Disk.apply
    d = d₁
  have hdir : d₁.files = d.files := by
    rw [← hd₁]
    split
    · rfl
    · rfl
  rw [fileOf]
  cases hf : d.files (db.regionPath r) with
  | none =>
      rw [if_neg (by simp), files_make, hdir]
      rfl
  | some f =>
      rw [Option.isSome_some, if_pos rfl, List.foldl_nil, hdir, Option.getD_some, ← hf,
        Function.update_eq_self]

/-- The changes of putting a chunk into a region file. -/
theorem files_chunkOps {d : Disk} {path : Path} {f : Bytes} (k : ℕ) (arr : Data)
    (hf : d.files path = some f) :
  ((chunkOps path f k arr).foldl Disk.apply d).files
    = Function.update d.files path (some (Region.put f k arr))
  := by
  rw [chunkOps, Region.put]
  by_cases he : Region.entry f k = 0
  · rw [if_pos he, if_pos he]
    simp [Disk.apply, hf, Region.enter]
  · rw [if_neg he, if_neg he]
    simp [Disk.apply, hf]

/-- Writing a chunk makes no directory. -/
theorem dirs_chunkOps (d : Disk) (path : Path) (f : Bytes) (k : ℕ) (arr : Data) :
  ((chunkOps path f k arr).foldl Disk.apply d).dirs = d.dirs
  := by
  rw [chunkOps]
  split
  · rfl
  · rfl

/-- A new region file is well formed. -/
theorem wf_zero :
  Region.WF zero
  := Region.wf_zeros

/-- The file `set_chunk` writes to is well formed. -/
theorem Sound.fileOf {db : Database} {d : Disk} (h : Sound db.dir d) (r : ChunkPos) :
  Region.WF (db.fileOf d r)
  := by
  rw [Database.fileOf]
  cases hf : d.files (db.regionPath r) with
  | none => exact wf_zero
  | some f => exact h _ _ f hf

/-- The files after writing a chunk. -/
theorem files_setOps (db : Database) (d : Disk) (c : ChunkPos) (arr : Data) :
  ((db.setOps d c arr).foldl Disk.apply d).files = Function.update d.files
    (db.regionPath (regionOf c)) (some (Region.put (db.fileOf d (regionOf c)) (slotOf c) arr))
  := by
  have hfiles := files_handleOps db d (regionOf c)
  rw [setOps, List.foldl_append]
  generalize (db.handleOps d (regionOf c)).foldl Disk.apply d = d₁ at *
  generalize db.fileOf d (regionOf c) = f at *
  have hf : d₁.files (db.regionPath (regionOf c)) = some f := by
    rw [hfiles, Function.update_self]
  rw [files_chunkOps (slotOf c) arr hf, hfiles, Function.update_idem]

/-- The changes of writing a chunk keep the files well formed. -/
theorem Sound.setOps {db : Database} {d : Disk} (h : Sound db.dir d) (c : ChunkPos)
    (arr : Data) :
  Sound db.dir ((db.setOps d c arr).foldl Disk.apply d)
  := by
  intro rx ry g hg
  rw [files_setOps] at hg
  by_cases he : ((db.dir, .region rx ry) : Path) = db.regionPath (regionOf c)
  · rw [he, Function.update_self] at hg
    cases hg
    exact ((h.fileOf (regionOf c)).put (slotOf_lt c) arr).1
  · rw [Function.update_of_ne he] at hg
    exact h rx ry g hg

/-- Region files have room for their tables. -/
theorem Sound.sized {db : Database} {d : Disk} (h : Sound db.dir d) (r : ChunkPos) :
  Region.Sized (db.fileOf d r)
  := (h.fileOf r).sized

/-- The chunks of a region are those of the file `set_chunk` writes to. -/
theorem stored_eq_fileOf {db : Database} {d : Disk} {r c : ChunkPos} (hr : regionOf c = r) :
  stored db.dir d c = Region.chunkAt (db.fileOf d r) (slotOf c)
  := by
  rw [stored, hr, fileOf, regionPath]
  cases hf : d.files (db.dir, .region r.1 r.2) with
  | none => exact (Region.chunkAt_zeros (slotOf_lt c)).symm
  | some f => rfl

/-- If putting a chunk into the file of its region leaves the other chunks alone, then so do
the changes of writing it. -/
theorem stored_setOps_of {db : Database} {d : Disk} {c : ChunkPos} {arr : Data} {f : Bytes}
    (hf : db.fileOf d (regionOf c) = f)
    (hsame : Region.chunkAt (Region.put f (slotOf c) arr) (slotOf c) = some arr)
    (hothers : ∀ k < 1024, k ≠ slotOf c →
      Region.chunkAt (Region.put f (slotOf c) arr) k = Region.chunkAt f k) :
  stored db.dir ((db.setOps d c arr).foldl Disk.apply d)
    = Function.update (stored db.dir d) c (some arr)
  := by
  have hput := files_setOps db d c arr
  funext c'
  by_cases hr : regionOf c' = regionOf c
  · rw [stored, hput, hr, regionPath, Function.update_self, Option.bind_some, hf]
    by_cases hc : c' = c
    · rw [hc, Function.update_self, hsame]
    · have hk : slotOf c' ≠ slotOf c := fun hk => hc (regionOf_slotOf_inj hr hk)
      rw [Function.update_of_ne hc, stored_eq_fileOf hr, hf, hothers _ (slotOf_lt c') hk]
  · have hc : c' ≠ c := by
      rintro rfl
      exact hr rfl
    rw [Function.update_of_ne hc, stored, stored, hput, Function.update_of_ne]
    intro he
    exact hr (regionPath_inj db he)

/-- The changes of writing a chunk store the chunk, and leave the other chunks alone. -/
theorem stored_setOps {db : Database} {d : Disk} (h : Sound db.dir d) (c : ChunkPos)
    (arr : Data) :
  stored db.dir ((db.setOps d c arr).foldl Disk.apply d)
    = Function.update (stored db.dir d) c (some arr)
  := by
  obtain ⟨-, hsame, hothers⟩ := (h.fileOf (regionOf c)).put (slotOf_lt c) arr
  exact stored_setOps_of rfl hsame hothers

variable [Platform]

/-! ### Handles -/

/-- One turn of `get_handle`. -/
theorem handleBody_frame {again : Database → Disk → Bool × Database × Disk}
    (hagain : ∀ db d, Frame db d (again db d).2.1 (again db d).2.2) (db : Database) (d : Disk)
    (x y : Int32) (create : Bool) :
  Frame db d (handleBody x y create again db d).2.1 (handleBody x y create again db d).2.2
  := by
  have hm := makeDir_frame db d create
  rw [handleBody]
  generalize db.makeDir d create = made at hm ⊢
  obtain ⟨db₁, d₁⟩ := made
  dsimp only at hm ⊢
  split
  · exact hm
  · exact hm.trans (searchHandle_frame hagain db₁ d₁ (regionOf (x, y)) create)

/-- Adding a handle changes no file. -/
theorem addHandle_spec (db : Database) (d : Disk) (r : ChunkPos) :
  ∃ hs t, db.addHandle d r = ({ db with handles := hs }, d.atTick t) ∧
    ∀ s good, hs.lookup s = some good → s = r ∧ good = true ∨ db.handles.lookup s = some good
  := by
  have hinsert : ∀ (hs : AList fun _ : ChunkPos => Bool) (s : ChunkPos) (good : Bool),
      (hs.insert r true).lookup s = some good →
        s = r ∧ good = true ∨ hs.lookup s = some good := by
    intro hs s good hl
    by_cases hsr : s = r
    · subst hsr
      rw [AList.lookup_insert] at hl
      exact Or.inl ⟨rfl, (Option.some.inj hl).symm⟩
    · rw [AList.lookup_insert_ne hsr] at hl
      exact Or.inr hl
  rw [addHandle]
  split
  · refine ⟨_, d.tick + 1, rfl, ?_⟩
    intro s good hl
    obtain hnew | hold := hinsert _ s good hl
    · exact Or.inl hnew
    · right
      generalize db.handles.keys.getD _ r = old at hold
      by_cases hso : s = old
      · subst hso
        rw [AList.lookup_erase] at hold
        cases hold
      · rw [AList.lookup_erase_ne hso] at hold
        exact hold
  · exact ⟨_, d.tick, rfl, fun s good hl => hinsert _ s good hl⟩

section

variable {P : Bool → Prop} (hP : P true)
include hP

/-- A database that keeps a handle for a region whose file exists. -/
theorem Knows.addHandle {db : Database} {d : Disk} {r : ChunkPos} (h : Knows P db d)
    (hr : (d.files (db.regionPath r)).isSome) :
  ∃ hs t, db.addHandle d r = ({ db with handles := hs }, d.atTick t) ∧
    Knows P { db with handles := hs } (d.atTick t)
  := by
  obtain ⟨hs, t, heq, hhs⟩ := addHandle_spec db d r
  refine ⟨hs, t, heq, h.created, ?_, h.nonexistant⟩
  intro s good hl
  obtain ⟨rfl, rfl⟩ | hold := hhs s good hl
  · exact ⟨hP, hr⟩
  · exact h.handles s good hold

/-- Opening the file of a region that exists. -/
theorem openHandle_of_isSome {db : Database} {d : Disk} {r : ChunkPos} {create : Bool}
    (h : Knows P db d) (hr : (d.files (db.regionPath r)).isSome)
    (hok : (db.openHandle d r create).2.2.intact) :
  ∃ hs t, db.openHandle d r create = (true, { db with handles := hs }, d.atTick t) ∧
    Knows P { db with handles := hs } (d.atTick t)
  := by
  rw [openHandle, if_pos hr] at hok ⊢
  have ho : (d.openFile (db.regionPath r)).2.intact := by
    revert hok
    generalize d.openFile (db.regionPath r) = opened
    obtain ⟨good, d₁⟩ := opened
    cases good with
    | false => exact id
    | true => exact (addHandle_frame db d₁ r).within.intact
  obtain ⟨heq, -, -⟩ := Disk.openFile_of_intact ho
  obtain ⟨hs, t, ha, hf⟩ := Knows.addHandle hP (h.atTick (d.tick + 1)) (r := r) hr
  refine ⟨hs, t, ?_, hf⟩
  rw [heq]
  show (true, db.addHandle _ r) = _
  rw [ha, Disk.atTick_atTick]

/-- Making the file of a region. -/
theorem openHandle_of_none {db : Database} {d : Disk} {r : ChunkPos}
    (h : Knows P db d) (hr : d.files (db.regionPath r) = none) (hnew : r ∉ db.nonexistant)
    (hok : (db.openHandle d r true).2.2.intact) :
  ∃ hs t, db.openHandle d r true = (true, { db with handles := hs },
      (([.create (db.regionPath r), .write (db.regionPath r) 0 zero] :
        List FileOp).foldl Disk.apply d).atTick t) ∧
    Knows P { db with handles := hs }
      ((([.create (db.regionPath r), .write (db.regionPath r) 0 zero] :
        List FileOp).foldl Disk.apply d).atTick t)
  := by
  rw [openHandle, if_neg (by simp [hr]), if_pos rfl] at hok ⊢
  have hc : (d.createFile (db.regionPath r)).2.intact := by
    revert hok
    generalize d.createFile (db.regionPath r) = created
    obtain ⟨good, d₁⟩ := created
    cases good with
    | false => exact id
    | true =>
        intro hok
        apply (Disk.within_write db.dir d₁ (db.regionPath_mem r) 0 zero).intact
        revert hok
        dsimp only
        generalize d₁.write (db.regionPath r) 0 zero = written
        obtain ⟨good, d₂⟩ := written
        cases good with
        | false => exact id
        | true => exact (addHandle_frame db d₂ r).within.intact
  obtain ⟨hceq, -, -⟩ := Disk.createFile_of_intact hc
  rw [hceq] at hok ⊢
  dsimp only at hok ⊢
  rw [if_pos rfl] at hok ⊢
  generalize hd₁ : (d.apply (.create (db.regionPath r))).atTick (d.tick + 1) = d₁ at hok ⊢
  have hw : (d₁.write (db.regionPath r) 0 zero).2.intact := by
    revert hok
    generalize d₁.write (db.regionPath r) 0 zero = written
    obtain ⟨good, d₂⟩ := written
    cases good with
    | false => exact id
    | true => exact (addHandle_frame db d₂ r).within.intact
  obtain ⟨hweq, -⟩ := Disk.write_of_intact hw
  rw [hweq]
  dsimp only
  rw [if_pos rfl]
  have hfiles := files_make d (db.regionPath r)
  have hd₂ : ((d₁.apply (.write (db.regionPath r) 0 zero)).atTick (d₁.tick + 1))
      = ([.create (db.regionPath r), .write (db.regionPath r) 0 zero].foldl Disk.apply
        d).atTick (d₁.tick + 1) := by
    rw [← hd₁]
    simp
  rw [hd₂]
  generalize hd₃ : ([.create (db.regionPath r), .write (db.regionPath r) 0 zero].foldl
    Disk.apply d) = d₃ at hfiles ⊢
  have hdirs : d₃.dirs db.dir = d.dirs db.dir := by
    rw [← hd₃]
    rfl
  have hf := (h.update hfiles hdirs hnew).atTick (d₁.tick + 1)
  obtain ⟨hs, t, ha, hfit⟩ := hf.addHandle hP (r := r) (by simp [hfiles])
  refine ⟨hs, t, ?_, hfit⟩
  rw [ha, Disk.atTick_atTick]

/-- Looking for a handle for the region `r`, which has none, makes its file if need be. -/
theorem searchHandle_opens {again : Database → Disk → Bool × Database × Disk} {db : Database}
    {d : Disk} {r : ChunkPos} (h : Knows P db d) (hcreated : db.createdDir = true)
    (hnone : db.handles.lookup r = none) (hok : (db.searchHandle again d r true).2.2.intact) :
  ∃ db' t, db.searchHandle again d r true
      = (true, db', ((db.handleOps d r).foldl Disk.apply d).atTick t) ∧
    Knows P db' (((db.handleOps d r).foldl Disk.apply d).atTick t)
  := by
  rw [searchHandle, if_neg (by simp), if_pos rfl] at hok ⊢
  have hnew : r ∉ db.nonexistant.filter fun s => s ≠ r := by simp
  have hf : Knows P { db with nonexistant := db.nonexistant.filter fun s => s ≠ r } d :=
    ⟨h.created, h.handles, fun s hs => h.nonexistant s (List.mem_filter.mp hs).1⟩
  rw [handleOps, if_pos hcreated, List.nil_append]
  generalize hdb : { db with nonexistant := db.nonexistant.filter fun s => s ≠ r } = db₁ at *
  have hpath : db.regionPath r = db₁.regionPath r := by rw [← hdb]; rfl
  have hl : db₁.handles.lookup r = none := by rw [← hdb]; exact hnone
  rw [hpath]
  dsimp only at hok ⊢
  rw [hl] at hok ⊢
  cases hfile : d.files (db₁.regionPath r) with
  | none =>
      obtain ⟨hs, t, heq, hfit⟩ := openHandle_of_none hP hf hfile (by rw [← hdb]; exact hnew) hok
      exact ⟨_, t, heq, hfit⟩
  | some f =>
      obtain ⟨hs, t, heq, hfit⟩ := openHandle_of_isSome hP hf (by rw [hfile]; rfl) hok
      exact ⟨_, t, heq, hfit⟩

/-- Looking for a handle for the region `r`: a handle gone bad is closed, and another one opened by
`again`. -/
theorem searchHandle_create {again again' : Database → Disk → Bool × Database × Disk}
    {db : Database} {d : Disk} {r : ChunkPos} (h : Knows P db d) (hcreated : db.createdDir = true)
    (hagain : ∀ db', db'.createdDir = true → again db' d = db'.searchHandle again' d r true)
    (hok : (db.searchHandle again d r true).2.2.intact) :
  ∃ db' t, db.searchHandle again d r true
      = (true, db', ((db.handleOps d r).foldl Disk.apply d).atTick t) ∧
    Knows P db' (((db.handleOps d r).foldl Disk.apply d).atTick t)
  := by
  cases hl : db.handles.lookup r with
  | none => exact searchHandle_opens hP h hcreated hl hok
  | some good =>
      have hf : Knows P { db with nonexistant := db.nonexistant.filter fun s => s ≠ r } d :=
        ⟨h.created, h.handles, fun s hs => h.nonexistant s (List.mem_filter.mp hs).1⟩
      obtain ⟨-, hfile⟩ := h.handles r good hl
      rw [searchHandle, if_neg (by simp), if_pos rfl] at hok ⊢
      dsimp only at hok ⊢
      rw [hl] at hok ⊢
      cases good with
      | true =>
          rw [handleOps, if_pos hcreated, List.nil_append, if_pos hfile]
          exact ⟨_, d.tick, rfl, hf⟩
      | false =>
          have hcreated' : ({ db with
              handles := db.handles.erase r
              nonexistant := db.nonexistant.filter fun s => s ≠ r } : Database).createdDir = true :=
            hcreated
          dsimp only at hok ⊢
          rw [hagain _ hcreated'] at hok ⊢
          have hclosed : Knows P { db with
              handles := db.handles.erase r
              nonexistant := db.nonexistant.filter fun s => s ≠ r } d := by
            refine ⟨h.created, ?_, hf.nonexistant⟩
            intro s good hs
            by_cases hsr : s = r
            · rw [hsr, AList.lookup_erase] at hs
              cases hs
            · rw [AList.lookup_erase_ne hsr] at hs
              exact h.handles s good hs
          exact searchHandle_opens hP hclosed hcreated' (AList.lookup_erase ..) hok

/-- Getting a handle for the region of a chunk, making directory and file if need be. -/
theorem getHandle_create {db : Database} {d : Disk} {x y : Int32} (h : Knows P db d)
    (hok : (db.getHandle d x y true).2.2.intact) :
  ∃ db' t, db.getHandle d x y true
      = (true, db', ((db.handleOps d (regionOf (x, y))).foldl Disk.apply d).atTick t) ∧
    Knows P db' (((db.handleOps d (regionOf (x, y))).foldl Disk.apply d).atTick t)
  := by
  -- the directory is there when a bad handle is opened again
  have hagain : ∀ (d : Disk) (db' : Database), db'.createdDir = true →
      handleBody x y true (fun db d => (false, db, d)) db' d
        = db'.searchHandle (fun db d => (false, db, d)) d (regionOf (x, y)) true := by
    intro d db' hdb'
    rw [handleBody, makeDir, if_neg (by simp [hdb'])]
    dsimp only
    rw [if_neg (by simp [hdb'])]
  rw [getHandle_eq db d x y true fun db d => (false, db, d), handleBody] at hok ⊢
  cases hcreated : db.createdDir with
  | true =>
      have hm : db.makeDir d true = (db, d) := by rw [makeDir, if_neg (by simp [hcreated])]
      rw [hm] at hok ⊢
      dsimp only at hok ⊢
      rw [if_neg (by simp [hcreated])] at hok ⊢
      exact searchHandle_create hP h hcreated (hagain d) hok
  | false =>
      have hbody : ∀ db d, Frame db d
          (handleBody x y true (fun db d => (false, db, d)) db d).2.1
          (handleBody x y true (fun db d => (false, db, d)) db d).2.2 :=
        fun db d => handleBody_frame (fun db d => Frame.refl db d) db d x y true
      have hmade : (d.mkdir db.dir).2.intact := by
        revert hok
        rw [makeDir, if_pos (by simp [hcreated])]
        generalize d.mkdir db.dir = made
        obtain ⟨made, d₁⟩ := made
        cases made with
        | false => exact id
        | true => exact (searchHandle_frame hbody _ _ _ _).within.intact
      obtain ⟨heq, hdir, -⟩ := Disk.mkdir_of_intact hmade
      rw [makeDir, if_pos (by simp [hcreated]), heq] at hok ⊢
      dsimp only at hok ⊢
      rw [if_neg (by simp)] at hok ⊢
      have hf : Knows P { db with createdDir := true }
          ((d.apply (.mkdir db.dir)).atTick (d.tick + 1)) := by
        refine ⟨?_, h.handles, h.nonexistant⟩
        exact (Function.update_self db.dir true d.dirs).symm
      obtain ⟨db', t, hs, hfit⟩ := searchHandle_create hP hf rfl (hagain _) hok
      have hops : db.handleOps d (regionOf (x, y)) = .mkdir db.dir ::
          handleOps { db with createdDir := true }
            ((d.apply (.mkdir db.dir)).atTick (d.tick + 1)) (regionOf (x, y)) := by
        rw [handleOps, handleOps, hcreated]
        rfl
      rw [hops, List.foldl_cons]
      rw [Disk.foldl_apply_atTick, Disk.atTick_atTick] at hs hfit
      exact ⟨db', t, hs, hfit⟩

end

/-! ### Writing a chunk -/

/-- The position of a new chunk in a well-formed file. -/
theorem enterChunk_of_intact {d : Disk} {path : Path} {f : Bytes} {k : ℕ}
    (hf : f.length < 2 ^ 32)
    (hok : (enterChunk d path (3 * k) f.length (256 * Region.entry f k)).2.2.intact) :
  ∃ t, enterChunk d path (3 * k) f.length (256 * Region.entry f k)
    = (true, if Region.entry f k = 0 then f.length else Region.offset f k,
        ((if Region.entry f k = 0 then [.write path (3 * k) (Bytes.leBytes 3 (f.length / 256))]
          else [] : List FileOp).foldl Disk.apply d).atTick t)
  := by
  rw [enterChunk] at hok ⊢
  by_cases he : Region.entry f k = 0
  · rw [if_pos (by omega)] at hok ⊢
    rw [if_pos he, if_pos he]
    obtain ⟨heq, -⟩ := Disk.write_of_intact hok
    rw [heq, Nat.mod_eq_of_lt hf]
    exact ⟨_, rfl⟩
  · rw [if_neg (by omega), if_neg he, if_neg he]
    exact ⟨d.tick, rfl⟩

/-- Writing a chunk into the file of its region. -/
theorem writeChunk_spec {db : Database} {d : Disk} {c : ChunkPos} {arr : Data} {f : Bytes}
    (hf : d.files (db.regionPath (regionOf c)) = some f) (hsized : Region.Sized f)
    (hok : (db.writeChunk d c arr).2.intact) :
  ∃ t, db.writeChunk d c arr = (db, ((chunkOps (db.regionPath (regionOf c)) f (slotOf c)
    arr).foldl Disk.apply d).atTick t)
  := by
  have hlook := hsized.length_entry (slotOf_lt c)
  have hcontents : d.contents (db.regionPath (regionOf c)) = f := by rw [Disk.contents, hf]; rfl
  rw [writeChunk] at hok ⊢
  rw [hcontents] at hok ⊢
  generalize db.regionPath (regionOf c) = path at *
  -- what is entered in the table, or not
  have hentered : ∀ entered : Bool × ℕ × Disk,
      (if ¬ entered.1 = true then (db.spoil (regionOf c), entered.2.2)
        else (if (entered.2.2.write path entered.2.1 arr.toList).1 = true then db
            else db.spoil (regionOf c),
          (entered.2.2.write path entered.2.1 arr.toList).2)).2.intact →
        entered.2.2.intact := by
    rintro ⟨good, chunkpos, d₂⟩
    cases good with
    | false => exact id
    | true => exact (Disk.within_write [] d₂ (Set.mem_univ path) chunkpos arr.toList).intact
  have hread : (d.read path (3 * slotOf c) 3).2.intact := by
    revert hok
    generalize d.read path (3 * slotOf c) 3 = looked
    obtain ⟨look, d₁⟩ := looked
    dsimp only
    split
    · exact id
    · intro hok
      apply (enterChunk_within [] d₁ (Set.mem_univ path) _ _ _).intact
      exact hentered _ hok
  obtain ⟨hreq, -⟩ := Disk.read_of_intact hread
  rw [hreq, hcontents] at hok ⊢
  dsimp only at hok ⊢
  rw [if_neg (by omega)] at hok ⊢
  obtain ⟨t, heq⟩ := enterChunk_of_intact hsized.2 (hentered _ hok)
  rw [Region.entry] at heq
  rw [heq] at hok ⊢
  rw [← Region.entry] at hok ⊢
  dsimp only at hok ⊢
  rw [if_neg (by simp)] at hok ⊢
  obtain ⟨hweq, -⟩ := Disk.write_of_intact hok
  rw [hweq, chunkOps]
  dsimp only
  by_cases he : Region.entry f (slotOf c) = 0
  · simp only [if_pos he]
    exact ⟨t + 1, by simp⟩
  · simp only [if_neg he]
    exact ⟨t + 1, by simp⟩

/-- Writing a chunk makes the changes listed by `setOps`. -/
theorem Knows.setChunk {P : Bool → Prop} (hP : P true) {db : Database} {d : Disk} {x y : Int32}
    {arr : Data} (h : Knows P db d)
    (hsized : Region.Sized (db.fileOf d (regionOf (x, y))))
    (hok : (db.setChunk d x y arr).2.intact) :
  ∃ db' t, db.setChunk d x y arr
      = (db', ((db.setOps d (x, y) arr).foldl Disk.apply d).atTick t) ∧
    Knows P db' (((db.setOps d (x, y) arr).foldl Disk.apply d).atTick t)
  := by
  have hframe := getHandle_frame db d x y true
  rw [Database.setChunk] at hok ⊢
  have hgot : (db.getHandle d x y true).2.2.intact := by
    revert hok
    generalize db.getHandle d x y true = got
    obtain ⟨file, db₁, d₁⟩ := got
    cases file with
    | false => exact id
    | true => exact (writeChunk_frame db₁ d₁ (x, y) arr).within.intact
  obtain ⟨db₁, t₁, heq, hfit⟩ := getHandle_create hP h hgot
  rw [heq] at hok hframe ⊢
  rw [setOps, List.foldl_append]
  have hfiles := files_handleOps db d (regionOf (x, y))
  have hpath : db.regionPath (regionOf (x, y)) = db₁.regionPath (regionOf (x, y)) := by
    rw [regionPath, regionPath, hframe.props.dir]
  rw [hpath] at hfiles ⊢
  generalize (db.handleOps d (regionOf (x, y))).foldl Disk.apply d = d₁ at *
  generalize db.fileOf d (regionOf (x, y)) = f at *
  have hf : d₁.files (db₁.regionPath (regionOf (x, y))) = some f := by
    rw [hfiles, Function.update_self]
  obtain ⟨t₂, hweq⟩ := writeChunk_spec (d := d₁.atTick t₁) (c := (x, y)) hf hsized hok
  rw [Disk.foldl_apply_atTick, Disk.atTick_atTick] at hweq
  refine ⟨db₁, t₂, hweq, ?_⟩
  have hnew : regionOf (x, y) ∉ db₁.nonexistant := by
    intro hmem
    have hnone := hfit.nonexistant _ hmem
    rw [Disk.atTick_files, hf] at hnone
    cases hnone
  apply Knows.atTick
  apply hfit.update (r := regionOf (x, y)) (f := Region.put f (slotOf (x, y)) arr)
  · exact files_chunkOps (slotOf (x, y)) arr hf
  · rw [dirs_chunkOps]
    rfl
  · exact hnew

/-- Storing a chunk does its writes. -/
theorem setChunk_spec {db : Database} {d : Disk} {x y : Int32} {arr : Data} (h : Fits db d)
    (hsized : Region.Sized (db.fileOf d (regionOf (x, y))))
    (hok : (db.setChunk d x y arr).2.intact) :
  ∃ db' t, db.setChunk d x y arr
      = (db', ((db.setOps d (x, y) arr).foldl Disk.apply d).atTick t) ∧
    Fits db' (((db.setOps d (x, y) arr).foldl Disk.apply d).atTick t)
  := by
  obtain ⟨db', t, heq, hknows⟩ := Knows.setChunk (P := (· = true)) rfl (fits_iff.mp h) hsized hok
  exact ⟨db', t, heq, fits_iff.mpr hknows⟩

/-! ### Reading a chunk -/

/-- Looking for a handle without making a file. -/
theorem getHandle_read {db : Database} {d : Disk} {x y : Int32} (h : Fits db d)
    (hok : (db.getHandle d x y false).2.2.intact) :
  ∃ db' t, db.getHandle d x y false
      = ((d.files (db.regionPath (regionOf (x, y)))).isSome, db', d.atTick t) ∧
    Fits db' (d.atTick t)
  := by
  rw [getHandle, getHandleFuel, makeDir, if_neg (by simp)] at hok ⊢
  dsimp only at hok ⊢
  rw [if_neg (by simp), searchHandle] at hok ⊢
  by_cases hmem : regionOf (x, y) ∈ db.nonexistant
  · rw [if_pos ⟨hmem, by simp⟩, h.nonexistant _ hmem]
    exact ⟨db, d.tick, rfl, h⟩
  · rw [if_neg (fun hr => hmem hr.1), if_neg (by simp)] at hok ⊢
    dsimp only at hok ⊢
    cases hl : db.handles.lookup (regionOf (x, y)) with
    | none =>
        rw [hl] at hok
        cases hfile : d.files (db.regionPath (regionOf (x, y))) with
        | none =>
            rw [openHandle, if_neg (by simp [hfile]), if_neg (by simp)]
            refine ⟨_, d.tick, rfl, h.created, h.handles, ?_⟩
            intro s hs
            obtain rfl | hs := List.mem_insert_iff.mp hs
            · exact hfile
            · split at hs
              · cases hs
              · exact h.nonexistant s hs
        | some f =>
            obtain ⟨hs, t, heq, hknows⟩ :=
              openHandle_of_isSome (P := (· = true)) rfl (fits_iff.mp h) (by rw [hfile]; rfl) hok
            exact ⟨_, t, heq, fits_iff.mpr hknows⟩
    | some good =>
        obtain ⟨rfl, hfile⟩ := h.handles _ good hl
        rw [hfile]
        exact ⟨db, d.tick, rfl, h⟩

/-- Reading a chunk from the file of its region. -/
theorem readChunk_spec {db : Database} {d : Disk} {c : ChunkPos} {arr : Data} {f : Bytes}
    (hf : d.files (db.regionPath (regionOf c)) = some f) (hsized : Region.Sized f)
    (hoff : Region.offset f (slotOf c) ≤ f.length)
    (hok : (db.readChunk d c arr).2.2.2.intact) :
  ∃ t, db.readChunk d c arr = ((Region.chunkAt f (slotOf c)).isSome,
    (Region.chunkAt f (slotOf c)).getD arr, db, d.atTick t)
  := by
  have hlook := hsized.length_entry (slotOf_lt c)
  have hcontents : d.contents (db.regionPath (regionOf c)) = f := by rw [Disk.contents, hf]; rfl
  rw [readChunk] at hok ⊢
  rw [hcontents] at hok ⊢
  generalize db.regionPath (regionOf c) = path at *
  have hread : (d.read path (3 * slotOf c) 3).2.intact := by
    revert hok
    generalize d.read path (3 * slotOf c) 3 = looked
    obtain ⟨look, d₁⟩ := looked
    dsimp only
    split
    · exact id
    · split
      · exact id
      · exact (Disk.within_read ∅ [] d₁ path _ _).intact
  obtain ⟨hreq, -⟩ := Disk.read_of_intact hread
  rw [hreq, hcontents] at hok ⊢
  dsimp only at hok ⊢
  rw [if_neg (show ¬ (f.slice (3 * slotOf c) 3).length < 3 by omega)] at hok ⊢
  have hchunkpos : 256 * (f.slice (3 * slotOf c) 3).leNat = Region.offset f (slotOf c) := rfl
  have hlong := hsized
  simp only [Region.Sized, Region.tableSize] at hlong
  rw [hchunkpos] at hok ⊢
  by_cases he : Region.entry f (slotOf c) = 0
  · rw [Region.chunkAt, if_pos he, if_pos (by left; rw [Region.offset, he])]
    exact ⟨d.tick + 1, rfl⟩
  · have hpos : Region.offset f (slotOf c) ≠ 0 := by
      rw [Region.offset]
      omega
    by_cases hend : f.length < Region.offset f (slotOf c) + 768
    · rw [Region.chunkAt_eq_none hend, if_pos (by omega)]
      exact ⟨d.tick + 1, rfl⟩
    · obtain ⟨data, hdata, hbytes⟩ := Region.chunkAt_isSome he (by omega)
      rw [if_neg (by omega), if_neg (by omega)] at hok ⊢
      obtain ⟨hreq', -⟩ := Disk.read_of_intact hok
      rw [hreq', Disk.atTick_contents, hcontents, ← hbytes, hdata]
      dsimp only
      rw [if_neg (by simp), Data.overwrite_toList]
      exact ⟨_, rfl⟩

/-- Reading a chunk gives what is stored. -/
theorem getChunk_spec {db : Database} {d : Disk} {x y : Int32} {arr : Data} (h : Fits db d)
    (hfile : ∀ f, d.files (db.regionPath (regionOf (x, y))) = some f →
      Region.Sized f ∧ Region.offset f (slotOf (x, y)) ≤ f.length)
    (hok : (db.getChunk d x y arr).2.2.2.intact) :
  ∃ db' t, db.getChunk d x y arr = ((stored db.dir d (x, y)).isSome,
      (stored db.dir d (x, y)).getD arr, db', d.atTick t) ∧
    Fits db' (d.atTick t)
  := by
  have hframe := getHandle_frame db d x y false
  rw [getChunk] at hok ⊢
  have hgot : (db.getHandle d x y false).2.2.intact := by
    revert hok
    generalize db.getHandle d x y false = got
    obtain ⟨file, db₁, d₁⟩ := got
    cases file with
    | false => exact id
    | true => exact (readChunk_frame db₁ d₁ (x, y) arr).within.intact
  obtain ⟨db₁, t₁, heq, hfit⟩ := getHandle_read h hgot
  rw [heq] at hok hframe ⊢
  have hpath : db.regionPath (regionOf (x, y)) = db₁.regionPath (regionOf (x, y)) := by
    rw [regionPath, regionPath, hframe.props.dir]
  have hstored : stored db.dir d (x, y)
      = (d.files (db.regionPath (regionOf (x, y)))).bind
        fun f => Region.chunkAt f (slotOf (x, y)) := rfl
  rw [hstored]
  rw [hpath] at hok hfile ⊢
  cases hf : d.files (db₁.regionPath (regionOf (x, y))) with
  | none => exact ⟨db₁, t₁, rfl, hfit⟩
  | some f =>
      rw [hf] at hok
      obtain ⟨hsized, hoff⟩ := hfile f hf
      obtain ⟨t₂, hreq⟩ := readChunk_spec (d := d.atTick t₁) (c := (x, y)) hf hsized hoff hok
      exact ⟨db₁, t₂, hreq, hfit.atTick t₂⟩

/-! ### Opening a database -/

/-- Opening a database reads files and knows nothing about the regions yet. -/
theorem new_spec (dir : Bytes) (d : Disk) :
  (new dir d).2.files = d.files ∧ (new dir d).2.dirs = d.dirs ∧
    (new dir d).1.createdDir = d.dirs dir ∧ (new dir d).1.handles = ∅ ∧
    (new dir d).1.nonexistant = []
  := by
  rw [new]
  dsimp only
  split
  · have hp := d.readFile_same (dir, .props)
    generalize d.readFile (dir, .props) = read at hp ⊢
    obtain ⟨props, d₁⟩ := read
    have hr := d₁.readFile_same (dir, .pchunks)
    dsimp only at hp hr ⊢
    rw [hp.1, hp.2] at hr
    generalize d₁.readFile (dir, .pchunks) = read' at hr ⊢
    obtain ⟨ranked, d₂⟩ := read'
    cases ranked with
    | none => exact ⟨hr.1, hr.2, rfl, rfl, rfl⟩
    | some f =>
        dsimp only at hr ⊢
        split
        · exact ⟨hr.1, hr.2, rfl, rfl, rfl⟩
        · exact ⟨hr.1, hr.2, rfl, rfl, rfl⟩
  · exact ⟨rfl, rfl, rfl, rfl, rfl⟩

/-- A database that was just made fits. -/
theorem Fits.new (dir : Bytes) (d : Disk) :
  Fits (new dir d).1 (new dir d).2
  := by
  obtain ⟨-, hdirs, hcreated, hhandles, hnone⟩ := new_spec dir d
  constructor
  case created => rw [hcreated, hdirs, (new_within ∅ dir d).2]
  case handles =>
    intro r good hl
    rw [hhandles, AList.lookup_empty] at hl
    cases hl
  case nonexistant =>
    intro r hr
    rw [hnone] at hr
    cases hr

/-- The properties and protections a database is opened with. -/
theorem new_of_intact {dir : Bytes} {d : Disk} (h : (new dir d).2.intact) :
  (new dir d).1.worldProps
      = (if d.dirs dir then parseProps ((d.files (dir, .props)).getD []) ∅ else ∅) ∧
    (new dir d).1.rankedChunks
      = (if d.dirs dir then
          match d.files (dir, .pchunks) with
          | none => []
          | some f => if f.length % 8 ≠ 0 then [] else parseRanked f
        else []) ∧
    (new dir d).1.changedPropsOrProtects = false
  := by
  rw [new] at h ⊢
  dsimp only at h ⊢
  cases hdir : d.dirs dir with
  | false =>
      rw [if_neg (by simp), if_neg (by simp)]
      exact ⟨rfl, rfl, rfl⟩
  | true =>
      rw [hdir, if_pos rfl] at h
      rw [if_pos rfl, if_pos rfl, if_pos rfl]
      have hafter : ∀ d' : Disk, ∀ props : Option Bytes,
          (d.readFile (dir, .props)) = (props, d') → (d'.readFile (dir, .pchunks)).2.intact := by
        intro d' props heq
        rw [heq] at h
        revert h
        dsimp only
        generalize d'.readFile (dir, .pchunks) = got
        obtain ⟨ranked, d''⟩ := got
        cases ranked with
        | none => exact id
        | some f =>
            dsimp only
            split
            · exact id
            · exact id
      have hfirst : (d.readFile (dir, .props)).2.intact :=
        (Disk.within_readFile ∅ dir _ (dir, .pchunks)).intact (hafter _ _ rfl)
      obtain ⟨t, heq, -⟩ := Disk.readFile_of_intact hfirst
      obtain ⟨t', heq', -⟩ := Disk.readFile_of_intact (hafter _ _ heq)
      rw [heq]
      dsimp only
      rw [heq', Disk.atTick_files]
      cases hf : d.files (dir, .pchunks) with
      | none => exact ⟨rfl, rfl, rfl⟩
      | some f =>
          have hsize : ((d.atTick t).contents (dir, .pchunks)).length = f.length := by
            rw [Disk.atTick_contents, Disk.contents, hf, Option.getD_some]
          dsimp only
          rw [hsize]
          split
          case isTrue => exact ⟨rfl, rfl, rfl⟩
          case isFalse =>
            rw [Nat.sub_self, List.range_zero, List.map_nil, List.append_nil]
            exact ⟨rfl, rfl, rfl⟩

/-! ### Sound directories -/

/-- Reading a chunk from sound files. -/
theorem Sound.getChunk {db : Database} {d : Disk} {x y : Int32} {arr : Data}
    (hs : Sound db.dir d) (h : Fits db d) (hok : (db.getChunk d x y arr).2.2.2.intact) :
  ∃ db' t, db.getChunk d x y arr = ((stored db.dir d (x, y)).isSome,
      (stored db.dir d (x, y)).getD arr, db', d.atTick t) ∧
    Fits db' (d.atTick t)
  := by
  apply getChunk_spec h _ hok
  intro f hf
  have hwf := hs _ _ f hf
  refine ⟨hwf.sized, ?_⟩
  by_cases he : Region.entry f (slotOf (x, y)) = 0
  · rw [Region.offset, he]
    omega
  · have hin := hwf.inside (slotOf_lt (x, y)) he
    omega

/-- Writing a chunk to sound files, also through a stream that has failed before. -/
theorem Sound.store {P : Bool → Prop} (hP : P true) {db : Database} {d : Disk} {x y : Int32}
    {arr : Data} (hs : Sound db.dir d) (h : Knows P db d) (hok : (db.setChunk d x y arr).2.intact) :
  ∃ db' d', db.setChunk d x y arr = (db', d') ∧ Knows P db' d' ∧ Sound db.dir d' ∧
    stored db.dir d' = Function.update (stored db.dir d) (x, y) (some arr)
  := by
  obtain ⟨db', t, heq, hknows⟩ := h.setChunk hP (hs.sized (regionOf (x, y))) hok
  exact ⟨db', _, heq, hknows, hs.setOps (x, y) arr, stored_setOps hs (x, y) arr⟩

/-- Writing a chunk to sound files. -/
theorem Sound.setChunk {db : Database} {d : Disk} {x y : Int32} {arr : Data}
    (hs : Sound db.dir d) (h : Fits db d) (hok : (db.setChunk d x y arr).2.intact) :
  ∃ db' d', db.setChunk d x y arr = (db', d') ∧ Fits db' d' ∧ Sound db.dir d' ∧
    stored db.dir d' = Function.update (stored db.dir d) (x, y) (some arr)
  := by
  obtain ⟨db', d', heq, hknows, hsound, hstored⟩ :=
    hs.store (P := (· = true)) rfl (fits_iff.mp h) hok
  exact ⟨db', d', heq, fits_iff.mpr hknows, hsound, hstored⟩

end Database

end Owop
