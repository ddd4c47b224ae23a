import OwopServer.Database
import OwopServer.Library.Caches

/-!
# Open handles

A database keeps a bounded number of its region files open.  A handle gone bad is closed, and its
file is opened again by the same function: this ends after one call more, for then the region has
no handle.  A region never has two, and the seventeenth handle is the last one that is kept, as the
bound of sixteen is compared before the new handle is counted.
-/

namespace Owop

namespace Database

open Cache (count)

variable [Platform]

/-! ### The recursion of `get_handle` -/

/-- The body of `get_handle`: `again` is the call for a handle gone bad. -/
def handleBody (x y : Int32) (create : Bool) (again : Database → Disk → Bool × Database × Disk)
    (db : Database) (d : Disk) : Bool × Database × Disk :=
  let (db, d) := db.makeDir d create
  if create ∧ ¬ db.createdDir then (false, db, d)
  else db.searchHandle again d (regionOf (x, y)) create

/-- One turn, and then the others. -/
theorem getHandleFuel_succ (fuel : ℕ) (db : Database) (d : Disk) (x y : Int32) (create : Bool) :
  getHandleFuel (fuel + 1) db d x y create
    = handleBody x y create (fun db d => getHandleFuel fuel db d x y create) db d
  := rfl

/-- Making the directory opens no file. -/
theorem makeDir_handles (db : Database) (d : Disk) (create : Bool) :
  (db.makeDir d create).1.handles = db.handles
  := by
  rw [makeDir]
  split <;> rfl

variable {db : Database} {d : Disk} {x y : Int32} {create : Bool} {r : ChunkPos}

/-- The call is made only for a region that has no handle any more. -/
theorem searchHandle_congr {again again' : Database → Disk → Bool × Database × Disk}
    (h : ∀ db' : Database, db'.handles = db.handles.erase r → again db' d = again' db' d) :
  db.searchHandle again d r create = db.searchHandle again' d r create
  := by
  rw [searchHandle, searchHandle]
  split
  case isTrue => rfl
  case isFalse =>
    dsimp only
    split
    · rfl
    · rfl
    · apply h
      split <;> rfl

/-- No call is made for a region without a handle. -/
theorem searchHandle_of_none (again again' : Database → Disk → Bool × Database × Disk)
    (h : db.handles.lookup r = none) :
  db.searchHandle again d r create = db.searchHandle again' d r create
  := by
  have hsame : (ite (create = true) { db with nonexistant := db.nonexistant.filter fun s => s ≠ r }
      db : Database).handles = db.handles := by
    split <;> rfl
  rw [searchHandle, searchHandle]
  dsimp only
  rw [hsame, h]

/-- Without a handle there is no other turn. -/
theorem handleBody_of_none (again again' : Database → Disk → Bool × Database × Disk)
    (h : db.handles.lookup (regionOf (x, y)) = none) :
  handleBody x y create again db d = handleBody x y create again' db d
  := by
  have hsame := makeDir_handles db d create
  rw [handleBody, handleBody]
  generalize db.makeDir d create = made at hsame ⊢
  obtain ⟨db₁, d₁⟩ := made
  dsimp only at hsame ⊢
  rw [searchHandle_of_none again again' (by rw [hsame, h])]

/-- Two calls do not depend on a third. -/
theorem handleBody_handleBody (again again' : Database → Disk → Bool × Database × Disk) :
  handleBody x y create (handleBody x y create again) db d
    = handleBody x y create (handleBody x y create again') db d
  := by
  rw [handleBody, handleBody]
  generalize db.makeDir d create = made
  obtain ⟨db₁, d₁⟩ := made
  dsimp only
  split
  case isTrue => rfl
  case isFalse =>
    apply searchHandle_congr
    intro db' hdb'
    apply handleBody_of_none
    rw [hdb', AList.lookup_erase]

/-- `get_handle` calls itself at most once: it is its body around its body, whatever a further
call would do. -/
theorem getHandle_eq (db : Database) (d : Disk) (x y : Int32) (create : Bool)
    (again : Database → Disk → Bool × Database × Disk) :
  db.getHandle d x y create = handleBody x y create (handleBody x y create again) db d
  := by
  rw [getHandle]
  cases hlength : db.handles.entries.length with
  | zero =>
      have hnone : db.handles.lookup (regionOf (x, y)) = none := by
        have hempty : db.handles.entries = [] := List.length_eq_zero_iff.mp hlength
        rw [AList.lookup, hempty]
        rfl
      rw [getHandleFuel_succ]
      exact handleBody_of_none _ _ hnone
  | succ n =>
      rw [getHandleFuel_succ]
      have hbody : (fun db d => getHandleFuel (n + 1) db d x y create)
          = handleBody x y create (fun db d => getHandleFuel n db d x y create) := by
        funext db d
        rw [getHandleFuel_succ]
      rw [hbody]
      exact handleBody_handleBody _ _

/-! ### How many handles there are -/

/-- The file system lets `get_handle` open the file of a region. -/
def opens (db : Database) (d : Disk) (r : ChunkPos) (create : Bool) : Prop :=
  if (d.files (db.regionPath r)).isSome then (d.openFile (db.regionPath r)).1 = true
  else create = true ∧ (d.createFile (db.regionPath r)).1 = true ∧
    ((d.createFile (db.regionPath r)).2.write (db.regionPath r) 0 zero).1 = true

/-- A handle for `r` has been kept with those of `db`. -/
def Opened (db : Database) (r : ChunkPos) (got : Bool × Database × Disk) : Prop :=
  got.1 = true ∧ ∃ victim, (worldMaxFileHandles < count db.handles → victim ∈ db.handles) ∧
    got.2.1.handles = Cache.keep worldMaxFileHandles victim r true db.handles

omit [Platform] in
/-- What was opened is found. -/
theorem Opened.lookup {got : Bool × Database × Disk} (h : Opened db r got) :
  got.2.1.handles.lookup r = some true
  := by
  obtain ⟨-, victim, -, heq⟩ := h
  rw [heq, Cache.lookup_keep_self]

/-- A handle that was added is open. -/
theorem addHandle_opened (db : Database) (d : Disk) (r : ChunkPos) :
  Opened db r (true, db.addHandle d r)
  := by
  constructor
  · rfl
  · rw [addHandle, Cache.length_entries]
    split
    case isTrue hfull =>
      use db.handles.keys.getD (d.choose (count db.handles)).1 r
      constructor
      · intro
        have hlt : (d.choose (count db.handles)).1 < db.handles.keys.length :=
          Nat.mod_lt _ (Nat.zero_lt_of_lt hfull)
        rw [List.getD_eq_getElem _ _ hlt]
        exact List.getElem_mem hlt
      · rw [Cache.keep, if_pos hfull]
    case isFalse hroom =>
      use r
      constructor
      · exact fun hfull => absurd hfull hroom
      · rw [Cache.keep, if_neg hroom]

/-- A file is opened and its handle kept, or nothing changes. -/
theorem openHandle_spec (db : Database) (d : Disk) (r : ChunkPos) (create : Bool) :
  db.opens d r create ∧ Opened db r (db.openHandle d r create) ∨
    ¬ db.opens d r create ∧ (db.openHandle d r create).1 = false ∧
      (db.openHandle d r create).2.1.handles = db.handles
  := by
  rw [opens, openHandle]
  dsimp only
  split
  case isTrue =>
    generalize d.openFile (db.regionPath r) = opened
    obtain ⟨good, d₁⟩ := opened
    cases good with
    | true => exact Or.inl ⟨rfl, addHandle_opened db d₁ r⟩
    | false => exact Or.inr ⟨Bool.false_ne_true, rfl, rfl⟩
  case isFalse =>
    cases create with
    | false => exact Or.inr ⟨fun h => Bool.false_ne_true h.1, rfl, rfl⟩
    | true =>
        generalize d.createFile (db.regionPath r) = created
        obtain ⟨good, d₁⟩ := created
        cases good with
        | false => exact Or.inr ⟨fun h => Bool.false_ne_true h.2.1, rfl, rfl⟩
        | true =>
            dsimp only
            rw [if_pos rfl, if_pos rfl]
            generalize d₁.write (db.regionPath r) 0 zero = written
            obtain ⟨good, d₂⟩ := written
            cases good with
            | false => exact Or.inr ⟨fun h => Bool.false_ne_true h.2.2, rfl, rfl⟩
            | true => exact Or.inl ⟨⟨rfl, rfl, rfl⟩, addHandle_opened db d₂ r⟩

/-- The region is looked for and can be opened. -/
def finds (db : Database) (d : Disk) (r : ChunkPos) (create : Bool) : Prop :=
  (r ∈ db.nonexistant → create = true) ∧ db.opens d r create

/-- Without a handle for the region, it is opened if it can be. -/
theorem searchHandle_spec_of_none (d : Disk) (create : Bool)
    (again : Database → Disk → Bool × Database × Disk) (h : db.handles.lookup r = none) :
  db.finds d r create ∧ Opened db r (db.searchHandle again d r create) ∨
    ¬ db.finds d r create ∧ (db.searchHandle again d r create).1 = false ∧
      (db.searchHandle again d r create).2.1.handles = db.handles
  := by
  rw [finds, searchHandle]
  split
  case isTrue hskip => exact Or.inr ⟨fun hfinds => hskip.2 (hfinds.1 hskip.1), rfl, rfl⟩
  case isFalse hsearch =>
    have hcreate : r ∈ db.nonexistant → create = true := by
      intro hmem
      by_contra hnot
      exact hsearch ⟨hmem, hnot⟩
    generalize hdb : (ite (create = true) _ _ : Database) = db₁
    obtain ⟨hdir, hhandles⟩ : db₁.dir = db.dir ∧ db₁.handles = db.handles := by
      rw [← hdb]
      split <;> exact ⟨rfl, rfl⟩
    have hopens : db₁.opens d r create ↔ db.opens d r create := by
      rw [opens, opens, regionPath, regionPath, hdir]
    dsimp only
    rw [hhandles, h]
    dsimp only
    have hopen := openHandle_spec db₁ d r create
    rw [hopens, Opened, hhandles] at hopen
    obtain ⟨hcan, hkept⟩ | ⟨hcannot, hnone⟩ := hopen
    · exact Or.inl ⟨⟨hcreate, hcan⟩, hkept⟩
    · exact Or.inr ⟨fun hfinds => hcannot hfinds.2, hnone⟩

/-- `get_handle` keeps a further handle: it can make the directory if a file may be made, has no
handle for the region, and finds and opens its file. -/
def opensNew (db : Database) (d : Disk) (x y : Int32) (create : Bool) : Prop :=
  (create = true → (db.makeDir d create).1.createdDir = true) ∧
    db.handles.lookup (regionOf (x, y)) = none ∧
    (db.makeDir d create).1.finds (db.makeDir d create).2 (regionOf (x, y)) create

/-- Without a handle for the region, one is kept or nothing changes. -/
theorem handleBody_spec_of_none (db : Database) (d : Disk) (create : Bool)
    (again : Database → Disk → Bool × Database × Disk)
    (h : db.handles.lookup (regionOf (x, y)) = none) :
  db.opensNew d x y create ∧ Opened db (regionOf (x, y)) (handleBody x y create again db d) ∨
    ¬ db.opensNew d x y create ∧ (handleBody x y create again db d).1 = false ∧
      (handleBody x y create again db d).2.1.handles = db.handles
  := by
  have hsame := makeDir_handles db d create
  rw [opensNew, handleBody]
  generalize db.makeDir d create = made at hsame ⊢
  obtain ⟨db₁, d₁⟩ := made
  dsimp only at hsame ⊢
  split
  case isTrue hfail =>
    right
    constructor
    · exact fun hnew => hfail.2 (hnew.1 hfail.1)
    · exact ⟨rfl, hsame⟩
  case isFalse hdir =>
    have hmade : create = true → db₁.createdDir = true := by
      intro hcreate
      by_contra hnot
      exact hdir ⟨hcreate, hnot⟩
    have hsearch := searchHandle_spec_of_none d₁ create again (hsame ▸ h)
    rw [Opened, hsame] at hsearch
    obtain ⟨hfinds, hkept⟩ | ⟨hnot, hnone⟩ := hsearch
    · exact Or.inl ⟨⟨hmade, h, hfinds⟩, hkept⟩
    · exact Or.inr ⟨fun hnew => hnot hnew.2.2, hnone⟩

omit [Platform] in
/-- A handle that is kept in the place of a closed one. -/
theorem Opened.count_le {got : Bool × Database × Disk} {db' : Database} (h : Opened db' r got)
    (hdb' : db'.handles = db.handles.erase r) (hr : r ∈ db.handles) :
  count got.2.1.handles ≤ count db.handles
  := by
  obtain ⟨-, victim, hvictim, heq⟩ := h
  rw [hdb'] at hvictim heq
  have hnot : r ∉ db.handles.erase r := fun hmem => (AList.mem_erase.mp hmem).1 rfl
  have herase := Cache.count_erase_of_mem hr
  rw [heq, Cache.count_keep hnot hvictim]
  split <;> omega

/-- For a region with a handle, no further one is kept. -/
theorem searchHandle_spec_of_some {good : Bool} (d : Disk) (create : Bool)
    (again : Database → Disk → Bool × Database × Disk)
    (h : db.handles.lookup (regionOf (x, y)) = some good) :
  count (db.searchHandle (handleBody x y create again) d (regionOf (x, y)) create).2.1.handles
      ≤ count db.handles ∧
    ((db.searchHandle (handleBody x y create again) d (regionOf (x, y)) create).1 = true →
      (db.searchHandle (handleBody x y create again) d (regionOf (x, y)) create).2.1.handles.lookup
        (regionOf (x, y)) = some true)
  := by
  rw [searchHandle]
  split
  case isTrue => exact ⟨le_rfl, fun h => absurd h Bool.false_ne_true⟩
  case isFalse =>
    generalize hdb : (ite (create = true) _ _ : Database) = db₁
    have hsame : db₁.handles = db.handles := by
      rw [← hdb]
      split <;> rfl
    dsimp only
    rw [hsame, h]
    cases good with
    | true =>
        dsimp only
        rw [hsame]
        exact ⟨le_rfl, fun _ => h⟩
    | false =>
        have hmem : regionOf (x, y) ∈ db.handles :=
          AList.lookup_isSome.mp (Option.isSome_iff_exists.mpr ⟨false, h⟩)
        dsimp only
        obtain ⟨-, hkept⟩ | ⟨-, hfalse, herased⟩ := handleBody_spec_of_none
          { db₁ with handles := db.handles.erase (regionOf (x, y)) } d create again
          (AList.lookup_erase _ _)
        · exact ⟨hkept.count_le rfl hmem, fun _ => hkept.lookup⟩
        · rw [hfalse, herased]
          constructor
          · exact Nat.le_of_succ_le (Cache.count_erase_of_mem hmem).le
          · exact fun h => absurd h Bool.false_ne_true

/-- `get_handle` keeps a further handle, or there are at most as many as before, with one for the
region if it has been found. -/
theorem getHandle_spec (db : Database) (d : Disk) (x y : Int32) (create : Bool) :
  db.opensNew d x y create ∧ Opened db (regionOf (x, y)) (db.getHandle d x y create) ∨
    ¬ db.opensNew d x y create ∧
      count (db.getHandle d x y create).2.1.handles ≤ count db.handles ∧
      ((db.getHandle d x y create).1 = true →
        (db.getHandle d x y create).2.1.handles.lookup (regionOf (x, y)) = some true)
  := by
  rw [getHandle_eq db d x y create fun db d => (false, db, d)]
  cases hlookup : db.handles.lookup (regionOf (x, y)) with
  | none =>
      obtain hnew | ⟨hnot, hfalse, hsame⟩ := handleBody_spec_of_none db d create
        (handleBody x y create fun db d => (false, db, d)) hlookup
      · exact Or.inl hnew
      · right
        rw [hsame, hfalse]
        exact ⟨hnot, le_rfl, fun h => absurd h Bool.false_ne_true⟩
  | some good =>
      right
      constructor
      · rintro ⟨-, hnone, -⟩
        rw [hlookup] at hnone
        cases hnone
      · have hsame := makeDir_handles db d create
        rw [handleBody]
        generalize db.makeDir d create = made at hsame ⊢
        obtain ⟨db₁, d₁⟩ := made
        dsimp only at hsame ⊢
        split
        case isTrue =>
          rw [hsame]
          exact ⟨le_rfl, fun h => absurd h Bool.false_ne_true⟩
        case isFalse =>
          have hsearch := searchHandle_spec_of_some d₁ create
            (fun db d => (false, db, d)) (hsame ▸ hlookup)
          rw [hsame] at hsearch
          exact hsearch

/-- Within the bound, `get_handle` breaks it just if it keeps a further handle for the bound. -/
theorem getHandle_count_le_iff (hle : count db.handles ≤ worldMaxFileHandles) :
  count (db.getHandle d x y create).2.1.handles ≤ worldMaxFileHandles ↔
    ¬ (count db.handles = worldMaxFileHandles ∧ db.opensNew d x y create)
  := by
  obtain ⟨hnew, -, victim, -, heq⟩ | ⟨hnot, hcount, -⟩ := db.getHandle_spec d x y create
  · have habsent : regionOf (x, y) ∉ db.handles := AList.lookup_eq_none.mp hnew.2.1
    rw [heq, Cache.count_keep_le_iff habsent hle]
    tauto
  · constructor
    · exact fun _ hnew => hnot hnew.2
    · exact fun _ => hcount.trans hle

/-- There is at most one handle more than the limit. -/
theorem getHandle_count_le_succ (hle : count db.handles ≤ worldMaxFileHandles + 1) :
  count (db.getHandle d x y create).2.1.handles ≤ worldMaxFileHandles + 1
  := by
  obtain ⟨hnew, -, victim, hvictim, heq⟩ | ⟨-, hcount, -⟩ := db.getHandle_spec d x y create
  · have habsent : regionOf (x, y) ∉ db.handles := AList.lookup_eq_none.mp hnew.2.1
    rw [heq]
    exact Cache.count_keep_le_succ habsent hvictim hle
  · exact hcount.trans hle

/-- A handle that is found is one of those that are open. -/
theorem getHandle_mem (db : Database) (d : Disk) (x y : Int32) (create : Bool)
    (h : (db.getHandle d x y create).1 = true) :
  regionOf (x, y) ∈ (db.getHandle d x y create).2.1.handles
  := by
  apply AList.lookup_isSome.mp
  apply Option.isSome_iff_exists.mpr
  use true
  obtain ⟨-, hkept⟩ | ⟨-, -, hold⟩ := db.getHandle_spec d x y create
  · exact hkept.lookup
  · exact hold h

/-- A new database has no handles. -/
theorem new_handles (dir : Bytes) (d : Disk) :
  (new dir d).1.handles = ∅
  := by
  rw [new]
  dsimp only
  split
  case isTrue =>
    generalize d.readFile (dir, .props) = read
    obtain ⟨props, d₁⟩ := read
    dsimp only
    generalize d₁.readFile (dir, .pchunks) = read'
    obtain ⟨ranked, d₂⟩ := read'
    cases ranked with
    | none => rfl
    | some f =>
        dsimp only
        split <;> rfl
  case isFalse => rfl

/-! ### Reading and writing chunks -/

omit [Platform] in
/-- A handle that fails stays open. -/
theorem count_spoil (h : r ∈ db.handles) :
  count (db.spoil r).handles = count db.handles
  := Cache.count_insert_of_mem h

/-- A chunk is read through the handle that is there. -/
theorem readChunk_count {c : ChunkPos} (h : regionOf c ∈ db.handles) (arr : Data) :
  count (db.readChunk d c arr).2.2.1.handles = count db.handles
  := by
  rw [readChunk]
  generalize d.read (db.regionPath (regionOf c)) (3 * slotOf c) 3 = looked
  obtain ⟨look, d₁⟩ := looked
  dsimp only
  generalize hdb : (if look.length < 3 then db.spoil (regionOf c) else db) = db₁
  obtain ⟨hmem, hcount⟩ : regionOf c ∈ db₁.handles ∧ count db₁.handles = count db.handles := by
    rw [← hdb]
    split
    · exact ⟨(AList.mem_insert _).mpr (Or.inl rfl), count_spoil h⟩
    · exact ⟨h, rfl⟩
  split
  · exact hcount
  · split
    · exact hcount
    · generalize d₁.read _ _ 768 = bytes
      obtain ⟨bs, d₂⟩ := bytes
      dsimp only
      split
      · exact (count_spoil hmem).trans hcount
      · exact hcount

/-- A chunk is written through the handle that is there. -/
theorem writeChunk_count {c : ChunkPos} (h : regionOf c ∈ db.handles) (arr : Data) :
  count (db.writeChunk d c arr).1.handles = count db.handles
  := by
  rw [writeChunk]
  generalize d.read (db.regionPath (regionOf c)) (3 * slotOf c) 3 = looked
  obtain ⟨look, d₁⟩ := looked
  dsimp only
  split
  · exact count_spoil h
  · generalize enterChunk d₁ _ _ _ _ = entered
    obtain ⟨good, chunkpos, d₂⟩ := entered
    dsimp only
    split
    · exact count_spoil h
    · generalize d₂.write _ chunkpos arr.toList = written
      obtain ⟨good, d₃⟩ := written
      dsimp only
      split
      · rfl
      · exact count_spoil h

/-- Reading a chunk opens as many files as getting its handle. -/
theorem getChunk_count (db : Database) (d : Disk) (x y : Int32) (arr : Data) :
  count (db.getChunk d x y arr).2.2.1.handles = count (db.getHandle d x y false).2.1.handles
  := by
  have hmem := db.getHandle_mem d x y false
  rw [getChunk]
  generalize db.getHandle d x y false = got at hmem ⊢
  obtain ⟨file, db₁, d₁⟩ := got
  cases file with
  | false => rfl
  | true => exact readChunk_count (hmem rfl) arr

/-- Writing a chunk opens as many files as getting its handle. -/
theorem setChunk_count (db : Database) (d : Disk) (x y : Int32) (arr : Data) :
  count (db.setChunk d x y arr).1.handles = count (db.getHandle d x y true).2.1.handles
  := by
  have hmem := db.getHandle_mem d x y true
  rw [setChunk]
  generalize db.getHandle d x y true = got at hmem ⊢
  obtain ⟨file, db₁, d₁⟩ := got
  cases file with
  | false => rfl
  | true => exact writeChunk_count (hmem rfl) arr

end Database

end Owop
