import OwopServer.Database.Store
import OwopServer.Database.Handles

/-!
# Chunks read from damaged files

`Database::get_chunk` reads the region file as it finds it.  It checks the position in the
lookup table against the size of the file before it reads the chunk, but with a difference of
unsigned numbers, and it does not look at how many bytes it got.
-/

namespace Owop

namespace Disk

/-- An operation that transfers `n` bytes, when it is to fail after `fate`, gets them all. -/
def Reaches (fate : Option ℕ) (n : ℕ) : Prop := ∀ p, fate = some p → n ≤ p

/-- What is read of a file, when the read is to fail after `fate`. -/
def readUpTo (fate : Option ℕ) (bs : Bytes) : Bytes :=
  match fate with
  | none => bs
  | some p => bs.take p

/-- A read is complete if it gets as far. -/
theorem length_readUpTo (fate : Option ℕ) (bs : Bytes) :
  (readUpTo fate bs).length = bs.length ↔ Reaches fate bs.length
  := by
  cases fate with
  | none =>
      constructor
      · intro _ p hp
        cases hp
      · exact fun _ => rfl
  | some p =>
      rw [readUpTo, List.length_take]
      constructor
      · intro h q hq
        obtain rfl := Option.some.inj hq
        omega
      · intro h
        have hle := h p rfl
        omega

/-- A read that is not cut short gets all. -/
theorem readUpTo_eq {fate : Option ℕ} {bs : Bytes} (h : (readUpTo fate bs).length = bs.length) :
  readUpTo fate bs = bs
  := by
  cases fate with
  | none => rfl
  | some p =>
      rw [readUpTo, List.length_take] at h
      exact List.take_of_length_le (by omega)

/-- A read gets no more than there is. -/
theorem length_readUpTo_le (fate : Option ℕ) (bs : Bytes) :
  (readUpTo fate bs).length ≤ bs.length
  := by
  cases fate with
  | none => exact le_refl _
  | some p => exact List.length_take_le' _ _

variable [Platform]

/-- A read gets what there is, up to a failure, and changes no file. -/
theorem read_eq (d : Disk) (path : Path) (pos n : ℕ) :
  (d.read path pos n).1 = readUpTo (Platform.fault d.tick) ((d.contents path).slice pos n) ∧
    (d.read path pos n).2.files = d.files ∧ (d.read path pos n).2.tick = d.tick + 1
  := by
  rw [read]
  cases hf : Platform.fault d.tick with
  | none =>
      rw [outcome_of_none hf]
      exact ⟨rfl, rfl, rfl⟩
  | some p =>
      rw [outcome_of_some hf]
      exact ⟨rfl, rfl, rfl⟩

/-- Nothing is changed in the file system but the history. -/
structure Same (d d' : Disk) : Prop where
  files : d'.files = d.files
  dirs : d'.dirs = d.dirs

omit [Platform] in
/-- Nothing happens. -/
theorem Same.refl (d : Disk) :
  Same d d
  := ⟨rfl, rfl⟩

omit [Platform] in
/-- One thing after another. -/
theorem Same.trans {d d' d'' : Disk} (h : Same d d') (h' : Same d' d'') :
  Same d d''
  := ⟨h'.files.trans h.files, h'.dirs.trans h.dirs⟩

/-- A read changes no file. -/
theorem read_same (d : Disk) (path : Path) (pos n : ℕ) :
  Same d (d.read path pos n).2
  := by
  rw [read]
  cases hf : Platform.fault d.tick with
  | none =>
      rw [outcome_of_none hf]
      exact ⟨rfl, rfl⟩
  | some p =>
      rw [outcome_of_some hf]
      exact ⟨rfl, rfl⟩

/-- Opening a file changes none. -/
theorem openFile_same (d : Disk) (path : Path) :
  Same d (d.openFile path).2
  := by
  rw [openFile]
  cases hf : Platform.fault d.tick with
  | none =>
      rw [outcome_of_none hf]
      dsimp only
      split
      · exact ⟨rfl, rfl⟩
      · exact ⟨rfl, rfl⟩
  | some p =>
      rw [outcome_of_some hf]
      exact ⟨rfl, rfl⟩

end Disk

namespace Database

/-! ### What the position is checked for -/

/-- `get_chunk` reads a chunk at `chunkpos` from a file of `size` bytes. -/
def Accepts (size chunkpos : ℕ) : Prop :=
  ¬ (chunkpos = 0 ∨ size < 3072 ∨ (size + 2 ^ 64 - chunkpos) % 2 ^ 64 < 768)

/-- The data are the 768 bytes the lookup entry of chunk `k` names, which lie in the file. -/
def FromFile (f : Bytes) (k : ℕ) (arr : Data) : Prop :=
  Region.entry f k ≠ 0 ∧ Region.offset f k + 768 ≤ f.length ∧
    arr.toList = f.slice (Region.offset f k) 768

/-- There is only one such array. -/
theorem FromFile.unique {f : Bytes} {k : ℕ} {arr arr' : Data} (h : FromFile f k arr)
    (h' : FromFile f k arr') :
  arr = arr'
  := Vector.toList_inj.mp (h.2.2.trans h'.2.2.symm)

/-- A read that gets fewer than 768 bytes leaves the last byte of the array. -/
theorem last_overwrite (arr : Data) {bs : Bytes} (h : bs.length < 768) :
  (arr.overwrite bs).toList.getLast? = arr.toList.getLast?
  := by
  have hlen : arr.toList.length = 768 := Vector.length_toList
  have hdrop : (arr.toList.drop bs.length).length = 768 - bs.length := by
    rw [List.length_drop, hlen]
  have hne : arr.toList.drop bs.length ≠ [] := by
    intro hnil
    rw [hnil, List.length_nil] at hdrop
    omega
  have hlist : (arr.overwrite bs).toList = bs ++ arr.toList.drop bs.length := by
    simp [Data.overwrite, List.take_of_length_le (show bs.length ≤ 768 by omega)]
  rw [hlist, List.getLast?_append_of_ne_nil _ hne, List.getLast?_drop, if_neg (by omega)]

/-- A read that gets 768 bytes replaces the array. -/
theorem overwrite_whole (arr : Data) {bs : Bytes} (h : bs.length = 768) :
  (arr.overwrite bs).toList = bs
  := by
  have hlen : arr.toList.length = 768 := Vector.length_toList
  have hdrop : arr.toList.drop bs.length = [] := List.drop_eq_nil_of_le (by omega)
  simp [Data.overwrite, List.take_of_length_le h.le, hdrop]

/-- Two arrays that differ in the last byte. -/
theorem exists_last_ne :
  ∃ arr arr' : Data, arr.toList.getLast? ≠ arr'.toList.getLast?
  := by
  use Data.fill 0, Data.fill 0xFFFFFF
  decide +kernel

variable [Platform]

/-- What `get_chunk` returns and leaves in the array once it has a handle. -/
theorem readChunk_eq (db : Database) (d : Disk) (c : ChunkPos) (arr : Data) :
  let path := db.regionPath (regionOf c)
  let f := d.contents path
  let look := Disk.readUpTo (Platform.fault d.tick) (f.slice (3 * slotOf c) 3)
  let pos := 256 * Bytes.leNat look
  let bs := Disk.readUpTo (Platform.fault (d.tick + 1)) (f.slice pos 768)
  (¬ Accepts f.length pos → (db.readChunk d c arr).1 = false) ∧
    (Accepts f.length pos → (db.readChunk d c arr).1 = true ∧
      (db.readChunk d c arr).2.1 = if look.length < 3 then arr else arr.overwrite bs)
  := by
  obtain ⟨hlook, hfiles, htick⟩ :=
    Disk.read_eq d (db.regionPath (regionOf c)) (3 * slotOf c) 3
  dsimp only
  rw [readChunk, ← hlook]
  generalize hread : d.read (db.regionPath (regionOf c)) (3 * slotOf c) 3 = looked at *
  obtain ⟨look, d₁⟩ := looked
  dsimp only at hfiles htick ⊢
  have hcontents : d₁.contents (db.regionPath (regionOf c))
      = d.contents (db.regionPath (regionOf c)) := by
    rw [Disk.contents, Disk.contents, hfiles]
  obtain ⟨hdata, -, -⟩ :=
    Disk.read_eq d₁ (db.regionPath (regionOf c)) (256 * Bytes.leNat look) 768
  rw [hcontents, htick] at hdata
  rw [← hdata]
  constructor
  · intro hno
    rw [Accepts, not_not] at hno
    rw [if_pos hno]
  · intro hyes
    rw [Accepts] at hyes
    rw [if_neg hyes]
    split
    · exact ⟨rfl, rfl⟩
    · exact ⟨rfl, rfl⟩

/-- `get_chunk` fills the array from the file, whatever was in it, exactly when the chunk lies
in the file and neither of the two reads is cut short. -/
theorem readChunk_fromFile_iff (db : Database) (d : Disk) (c : ChunkPos) :
  let f := d.contents (db.regionPath (regionOf c))
  (∀ arr, (db.readChunk d c arr).1 = true → FromFile f (slotOf c) (db.readChunk d c arr).2.1)
    ↔ (Accepts f.length (256 * Bytes.leNat
          (Disk.readUpTo (Platform.fault d.tick) (f.slice (3 * slotOf c) 3))) →
        Disk.Reaches (Platform.fault d.tick) 3 ∧
          Region.offset f (slotOf c) + 768 ≤ f.length ∧
          Disk.Reaches (Platform.fault (d.tick + 1)) 768)
  := by
  have hslot := slotOf_lt c
  have hread := readChunk_eq db d c
  dsimp only at hread ⊢
  generalize d.contents (db.regionPath (regionOf c)) = f at hread ⊢
  generalize hlook : Disk.readUpTo (Platform.fault d.tick) (f.slice (3 * slotOf c) 3) = look
    at hread ⊢
  by_cases hacc : Accepts f.length (256 * Bytes.leNat look)
  case neg =>
    constructor
    · exact fun _ hyes => absurd hyes hacc
    · intro _ arr htrue
      rw [(hread arr).1 hacc] at htrue
      cases htrue
  case pos =>
    have htrue := fun arr => ((hread arr).2 hacc).1
    have hdata := fun arr => ((hread arr).2 hacc).2
    have hsize : 3072 ≤ f.length := by
      by_contra hlt
      exact hacc (Or.inr (Or.inl (by omega)))
    have hthree : (f.slice (3 * slotOf c) 3).length = 3 := Bytes.length_slice_of_le (by omega)
    have hreach := Disk.length_readUpTo (Platform.fault d.tick) (f.slice (3 * slotOf c) 3)
    rw [hlook, hthree] at hreach
    obtain ⟨arr₀, arr₁, hne⟩ := exists_last_ne
    by_cases hshort : look.length < 3
    · -- the array is left as it was
      simp only [if_pos hshort] at hdata
      constructor
      · intro hall
        have h₀ := hall arr₀ (htrue arr₀)
        have h₁ := hall arr₁ (htrue arr₁)
        rw [hdata] at h₀ h₁
        rw [h₀.unique h₁] at hne
        exact absurd rfl hne
      · intro hcond
        have hlen := hreach.mpr (hcond hacc).1
        omega
    · simp only [if_neg hshort] at hdata
      have hlen : look.length = 3 := by
        have hle : look.length ≤ (f.slice (3 * slotOf c) 3).length := by
          rw [← hlook]
          exact Disk.length_readUpTo_le _ _
        omega
      have hentry : look = f.slice (3 * slotOf c) 3 := by
        rw [← hlook]
        apply Disk.readUpTo_eq
        rw [hlook, hthree, hlen]
      have hpos : 256 * Bytes.leNat look = Region.offset f (slotOf c) := by
        rw [hentry]
        rfl
      rw [hpos] at hacc hdata ⊢
      have hnonzero : Region.entry f (slotOf c) ≠ 0 := by
        intro hzero
        exact hacc (Or.inl (by rw [Region.offset, hzero]))
      have hfull := Disk.length_readUpTo (Platform.fault (d.tick + 1))
        (f.slice (Region.offset f (slotOf c)) 768)
      have hle := Disk.length_readUpTo_le (Platform.fault (d.tick + 1))
        (f.slice (Region.offset f (slotOf c)) 768)
      have heq := @Disk.readUpTo_eq (Platform.fault (d.tick + 1))
        (f.slice (Region.offset f (slotOf c)) 768)
      generalize Disk.readUpTo (Platform.fault (d.tick + 1))
        (f.slice (Region.offset f (slotOf c)) 768) = bs at hdata hfull hle heq
      constructor
      · intro hall _
        have h₀ := hall arr₀ (htrue arr₀)
        have h₁ := hall arr₁ (htrue arr₁)
        rw [hdata] at h₀ h₁
        have hinside := h₀.2.1
        rw [Bytes.length_slice_of_le hinside] at hfull hle
        have hwhole : bs.length = 768 := by
          by_contra hpart
          have hlt : bs.length < 768 := by omega
          apply hne
          rw [← last_overwrite arr₀ hlt, ← last_overwrite arr₁ hlt, h₀.unique h₁]
        exact ⟨hreach.mp hlen, hinside, hfull.mp hwhole⟩
      · intro hcond arr _
        obtain ⟨-, hinside, hwhole⟩ := hcond hacc
        rw [Bytes.length_slice_of_le hinside] at hfull heq
        have hbs := hfull.mpr hwhole
        rw [hdata]
        exact ⟨hnonzero, hinside, (overwrite_whole arr hbs).trans (heq hbs)⟩

/-! ### Looking for the file changes none -/

/-- Adding a handle changes no file. -/
theorem addHandle_same (db : Database) (d : Disk) (r : ChunkPos) :
  Disk.Same d (db.addHandle d r).2
  := by
  rw [addHandle]
  split
  · exact ⟨rfl, rfl⟩
  · exact ⟨rfl, rfl⟩

/-- Opening a file that is not to be made changes none. -/
theorem openHandle_same (db : Database) (d : Disk) (r : ChunkPos) :
  Disk.Same d (db.openHandle d r false).2.2
  := by
  have hopen := Disk.openFile_same d (db.regionPath r)
  rw [openHandle]
  split
  · generalize d.openFile (db.regionPath r) = opened at hopen ⊢
    obtain ⟨good, d'⟩ := opened
    dsimp only at hopen ⊢
    split
    · exact hopen.trans (addHandle_same db d' r)
    · exact hopen
  · split
    case isTrue h => cases h
    case isFalse => exact Disk.Same.refl d

/-- Looking for a handle changes no file. -/
theorem getHandleFuel_same (fuel : ℕ) (db : Database) (d : Disk) (x y : Int32) :
  Disk.Same d (getHandleFuel fuel db d x y false).2.2
  := by
  induction fuel generalizing db d with
  | zero => exact Disk.Same.refl d
  | succ fuel ih =>
      rw [getHandleFuel, makeDir, if_neg (by simp)]
      dsimp only
      rw [if_neg (by simp), searchHandle]
      split
      · exact Disk.Same.refl d
      · dsimp only
        split
        · exact openHandle_same _ d _
        · exact Disk.Same.refl d
        · exact ih _ d

/-- The same, with as many turns as it takes. -/
theorem getHandle_same (db : Database) (d : Disk) (x y : Int32) :
  Disk.Same d (db.getHandle d x y false).2.2
  := getHandleFuel_same _ db d x y

/-! ### Whether there is a file to read -/

/-- `get_chunk` gets a handle for the region `r`: the region is not known to be missing, and its
handle is good or its file opens. -/
def Readable (db : Database) (d : Disk) (r : ChunkPos) : Prop :=
  r ∉ db.nonexistant ∧ (db.handles.lookup r = some true ∨
    (d.files (db.regionPath r)).isSome = true ∧ Platform.fault d.tick = none)

/-- The number of the first read of `get_chunk`: opening the file is an operation before it, and so
is the choice of a handle to close. -/
def readTick (db : Database) (d : Disk) (r : ChunkPos) : ℕ :=
  if db.handles.lookup r = some true then d.tick
  else if (db.handles.erase r).entries.length > worldMaxFileHandles then d.tick + 2
  else d.tick + 1

/-- A region without a handle is readable if its file opens. -/
theorem openHandle_readable (db : Database) (d : Disk) (r : ChunkPos) :
  ((db.openHandle d r false).1 = true ↔
    (d.files (db.regionPath r)).isSome = true ∧ Platform.fault d.tick = none) ∧
  ((db.openHandle d r false).1 = true → (db.openHandle d r false).2.2.tick
    = if db.handles.entries.length > worldMaxFileHandles then d.tick + 2 else d.tick + 1)
  := by
  rw [openHandle]
  by_cases hfile : (d.files (db.regionPath r)).isSome = true
  case neg =>
    rw [if_neg hfile, if_neg Bool.false_ne_true]
    refine ⟨⟨fun h => ?_, fun h => absurd h.1 hfile⟩, fun h => ?_⟩
    · cases h
    · cases h
  case pos =>
    rw [if_pos hfile]
    cases hf : Platform.fault d.tick with
    | some n =>
        have hopen : d.openFile (db.regionPath r) = (false, (d.atTick (d.tick + 1)).fail) := by
          rw [Disk.openFile, Disk.outcome_of_some hf]
        rw [hopen]
        dsimp only
        rw [if_neg Bool.false_ne_true]
        refine ⟨⟨fun h => ?_, fun h => ?_⟩, fun h => ?_⟩
        · cases h
        · cases h.2
        · cases h
    | none =>
        have hopen : d.openFile (db.regionPath r) = (true, d.atTick (d.tick + 1)) := by
          rw [Disk.openFile, Disk.outcome_of_none hf]
          exact if_pos hfile
        rw [hopen]
        dsimp only
        rw [if_pos rfl]
        refine ⟨⟨fun _ => ⟨hfile, rfl⟩, fun _ => rfl⟩, fun _ => ?_⟩
        dsimp only
        rw [addHandle]
        split
        · rfl
        · rfl

/-- When `get_handle` finds a handle without making a file, and how many operations that takes. -/
theorem getHandle_readable (db : Database) (d : Disk) (x y : Int32) :
  ((db.getHandle d x y false).1 = true ↔ db.Readable d (regionOf (x, y))) ∧
  ((db.getHandle d x y false).1 = true →
    (db.getHandle d x y false).2.2.tick = db.readTick d (regionOf (x, y)))
  := by
  have hbody : ∀ again db, handleBody x y false again db d
      = db.searchHandle again d (regionOf (x, y)) false := by
    intro again db
    rw [handleBody, makeDir, if_neg (by simp)]
    dsimp only
    rw [if_neg (by simp)]
  rw [getHandle_eq db d x y false fun db d => (false, db, d), hbody, searchHandle, Readable, readTick]
  generalize hr : regionOf (x, y) = r at hbody ⊢
  by_cases hmem : r ∈ db.nonexistant
  · rw [if_pos ⟨hmem, by simp⟩]
    refine ⟨⟨fun h => ?_, fun h => absurd hmem h.1⟩, fun h => ?_⟩
    · cases h
    · cases h
  rw [if_neg (fun h => hmem h.1), if_neg Bool.false_ne_true]
  dsimp only
  have hopen : ∀ db' : Database, db'.dir = db.dir → db'.handles = db.handles.erase r →
      ((db'.openHandle d r false).1 = true ↔
        (d.files (db.regionPath r)).isSome = true ∧ Platform.fault d.tick = none) ∧
      ((db'.openHandle d r false).1 = true → (db'.openHandle d r false).2.2.tick
        = if (db.handles.erase r).entries.length > worldMaxFileHandles then d.tick + 2
          else d.tick + 1) := by
    intro db' hdir hhandles
    have hboth := openHandle_readable db' d r
    rw [regionPath, hdir, hhandles] at hboth
    exact hboth
  cases hlook : db.handles.lookup r with
  | none =>
      have herase : db.handles = db.handles.erase r := by
        apply AList.ext
        rw [AList.erase]
        exact (List.kerase_of_notMem_keys (AList.lookup_eq_none.mp hlook)).symm
      obtain ⟨hiff, htick⟩ := hopen db rfl herase
      rw [if_neg (by simp)]
      refine ⟨hiff.trans ⟨fun h => ⟨hmem, Or.inr h⟩, fun h => ?_⟩, htick⟩
      exact h.2.resolve_left (by simp)
  | some good =>
      cases good with
      | true =>
          rw [if_pos rfl]
          exact ⟨⟨fun _ => ⟨hmem, Or.inl rfl⟩, fun _ => rfl⟩, fun _ => rfl⟩
      | false =>
          -- the handle gone bad is closed, and the file is opened again
          dsimp only
          rw [hbody, searchHandle, if_neg (fun h => hmem h.1), if_neg Bool.false_ne_true]
          dsimp only
          rw [AList.lookup_erase]
          dsimp only
          obtain ⟨hiff, htick⟩ := hopen { db with handles := db.handles.erase r } rfl rfl
          rw [if_neg (by simp)]
          refine ⟨hiff.trans ⟨fun h => ⟨hmem, Or.inr h⟩, fun h => ?_⟩, htick⟩
          exact h.2.resolve_left (by simp)

/-! ### What the position is for -/

omit [Platform] in
/-- A position of 24 bits times 256 is one of 32 bits. -/
theorem offset_lt (f : Bytes) (k : ℕ) :
  Region.offset f k < 2 ^ 32
  := by
  have hlt := Bytes.leNat_lt (f.slice (3 * k) 3)
  have hle : 256 ^ (f.slice (3 * k) 3).length ≤ 256 ^ 3 := by
    apply Nat.pow_le_pow_right (by omega)
    rw [Bytes.length_slice]
    exact min_le_left _ _
  rw [Region.offset, Region.entry]
  omega

omit [Platform] in
/-- A position behind the end of the file passes the check of `get_chunk`, and of the others those
that leave 768 bytes. -/
theorem accepts_offset_imp_iff (f : Bytes) (k : ℕ) (whole : Prop) :
  (Accepts f.length (Region.offset f k) → Region.offset f k + 768 ≤ f.length ∧ whole) ↔
    (Region.entry f k = 0 ∨ f.length < 3072 ∨ Region.offset f k ≤ f.length) ∧
      (Accepts f.length (Region.offset f k) → whole)
  := by
  have hlt : Region.offset f k < 2 ^ 32 := offset_lt f k
  have hzero : Region.entry f k = 0 ↔ Region.offset f k = 0 := by
    rw [Region.offset]
    omega
  rw [hzero, Accepts]
  generalize Region.offset f k = pos at hlt ⊢
  generalize f.length = size
  constructor
  · intro h
    refine ⟨?_, fun hacc => (h hacc).2⟩
    by_contra hno
    have hinside := (h (by omega)).1
    omega
  · rintro ⟨hpos, hwhole⟩ hacc
    exact ⟨by omega, hwhole hacc⟩

omit [Platform] in
/-- What holds of the position that `get_chunk` reads, when the read of the entry has the fate
`fate`: it gets the entry, or the bytes before the failure. -/
theorem arrived_iff (f : Bytes) (k : ℕ) (fate : Option ℕ) (whole : Prop) :
  (Accepts f.length (256 * Bytes.leNat (Disk.readUpTo fate (f.slice (3 * k) 3))) →
    Disk.Reaches fate 3 ∧ Region.offset f k + 768 ≤ f.length ∧ whole) ↔
  (Disk.Reaches fate 3 →
    (Accepts f.length (Region.offset f k) → Region.offset f k + 768 ≤ f.length ∧ whole)) ∧
    ∀ n < 3, fate = some n → ¬ Accepts f.length (256 * Bytes.leNat (f.slice (3 * k) n))
  := by
  by_cases hreach : Disk.Reaches fate 3
  · have hlook : Disk.readUpTo fate (f.slice (3 * k) 3) = f.slice (3 * k) 3 := by
      cases fate with
      | none => rfl
      | some n =>
          have hn := hreach n rfl
          apply List.take_of_length_le
          rw [Bytes.length_slice]
          exact (min_le_left _ _).trans hn
    rw [hlook]
    constructor
    · intro h
      refine ⟨fun _ hacc => (h hacc).2, ?_⟩
      intro n hn hfate
      have hle := hreach n hfate
      omega
    · exact fun h hacc => ⟨hreach, h.1 hreach hacc⟩
  · obtain ⟨n, rfl, hn⟩ : ∃ n, fate = some n ∧ n < 3 := by
      rw [Disk.Reaches] at hreach
      push Not at hreach
      exact hreach
    have hlook : Disk.readUpTo (some n) (f.slice (3 * k) 3) = f.slice (3 * k) n := by
      rw [Disk.readUpTo, Bytes.slice, List.take_take, min_eq_left hn.le, Bytes.slice]
    rw [hlook]
    constructor
    · intro h
      refine ⟨fun hyes => absurd hyes hreach, ?_⟩
      rintro m - hm hacc
      obtain rfl := Option.some.inj hm
      exact hreach (h hacc).1
    · exact fun h hacc => absurd hacc (h.2 n hn rfl)

/-- What `get_chunk` reports of a chunk, for any content of the region file: it fills the array from
the file, whatever was in it, exactly when the entry of the chunk is zero, the file is too short for
a lookup table or the position of the entry is not behind the end of the file.  This is for reads
that get all they ask for: the read of a chunk must, and a read of the entry that does not must not
leave a position that is accepted. -/
theorem getChunk_fromFile_iff (db : Database) (d : Disk) (x y : Int32) :
  let r := regionOf (x, y)
  let f := d.contents (db.regionPath r)
  let k := slotOf (x, y)
  let t := db.readTick d r
  (∀ arr, (db.getChunk d x y arr).1 = true → FromFile f k (db.getChunk d x y arr).2.1)
    ↔ (db.Readable d r →
        (Disk.Reaches (Platform.fault t) 3 →
          (Region.entry f k = 0 ∨ f.length < 3072 ∨ Region.offset f k ≤ f.length) ∧
            (Accepts f.length (Region.offset f k) → Disk.Reaches (Platform.fault (t + 1)) 768)) ∧
        ∀ n < 3, Platform.fault t = some n →
          ¬ Accepts f.length (256 * Bytes.leNat (f.slice (3 * k) n)))
  := by
  have hframe := getHandle_frame db d x y false
  have hfiles : (db.getHandle d x y false).2.2.files = d.files := (getHandle_same db d x y).files
  obtain ⟨hreadable, htick⟩ := getHandle_readable db d x y
  dsimp only
  simp only [getChunk]
  rw [← hreadable]
  generalize db.getHandle d x y false = got at hframe hfiles htick ⊢
  obtain ⟨file, db', d'⟩ := got
  dsimp only at hframe hfiles htick ⊢
  cases file with
  | false =>
      constructor
      · intro _ hfile
        cases hfile
      · intro _ arr htrue
        cases htrue
  | true =>
      have hread := readChunk_fromFile_iff db' d' (x, y)
      have hpath : db'.regionPath (regionOf (x, y)) = db.regionPath (regionOf (x, y)) := by
        rw [regionPath, regionPath, hframe.props.dir]
      have hcontents : d'.contents (db.regionPath (regionOf (x, y)))
          = d.contents (db.regionPath (regionOf (x, y))) := by
        rw [Disk.contents, Disk.contents, hfiles]
      dsimp only at hread
      rw [hpath, hcontents, htick rfl, arrived_iff] at hread
      simp only [accepts_offset_imp_iff] at hread
      exact hread.trans ⟨fun h _ => h, fun h => h rfl⟩

/-- A region file without chunks whose first lookup entry points far behind its end. -/
def damaged : Bytes := [0, 0, 1] ++ List.replicate 3069 0

/-- A disk with the damaged file in the directory `w/`. -/
def damagedDisk : Disk :=
  { Disk.empty fun _ => true with
    files := fun path => if path = ([119, 47], .region 0 0) then some damaged else none }

omit [Platform] in
/-- `get_chunk` reports a chunk it has not read when the entry points behind the file. -/
theorem not_fromFile :
  ¬ ∀ [Platform] (db : Database) (d : Disk) (x y : Int32) (arr : Data),
    (db.getChunk d x y arr).1 = true →
      FromFile (d.contents (db.regionPath (regionOf (x, y)))) (slotOf (x, y))
        (db.getChunk d x y arr).2.1
  := by
  intro h
  let _ := Platform.quiet
  have hfrom := h ⟨[119, 47], true, ∅, [], ∅, [], false⟩ damagedDisk 0 0 (Data.fill 0)
    (by decide +kernel)
  exact absurd hfrom.2.1 (by decide +kernel)

end Database

end Owop
