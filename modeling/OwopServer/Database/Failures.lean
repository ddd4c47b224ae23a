import OwopServer.Database.Reading
import OwopServer.Database.Settings

/-!
# A database when file operations fail

Whatever fails while a chunk is read, the files stay as they are, and what the database remembers
about them stays so, but for streams that have failed.  These are no obstacle to a write: as long
as none of its own operations fails, the chunk is stored, or the properties are recorded.
-/

namespace Owop

namespace Database

/-- What a database remembers about its directory is so, but its streams may have failed. -/
def Aware (db : Database) (d : Disk) : Prop := Knows (fun _ => True) db d

variable {db db' : Database} {d d' : Disk} {r c : ChunkPos} {x y : Int32}

/-- What is remembered is about the files and directories. -/
theorem Aware.same (h : Aware db d) (hsame : Disk.Same d d') :
  Aware db d'
  := by
  constructor
  case created => rw [h.created, hsame.dirs]
  case handles =>
    rw [hsame.files]
    exact h.handles
  case nonexistant =>
    rw [hsame.files]
    exact h.nonexistant

/-- A stream that fails is still that of a file. -/
theorem Aware.spoil (h : Aware db d) (hr : (d.files (db.regionPath r)).isSome) :
  Aware (db.spoil r) d
  := by
  constructor
  case created => exact h.created
  case handles =>
    intro s good hl
    by_cases hsr : s = r
    · rw [hsr]
      exact ⟨trivial, hr⟩
    · rw [Database.spoil, AList.lookup_insert_ne hsr] at hl
      exact h.handles s good hl
  case nonexistant => exact h.nonexistant

/-- A handle that has gone bad is closed. -/
theorem Aware.close (h : Aware db d) (r : ChunkPos) :
  Aware { db with handles := db.handles.erase r } d
  := by
  constructor
  case created => exact h.created
  case handles =>
    intro s good hl
    by_cases hsr : s = r
    · rw [hsr, AList.lookup_erase] at hl
      cases hl
    · rw [AList.lookup_erase_ne hsr] at hl
      exact h.handles s good hl
  case nonexistant => exact h.nonexistant

/-- What looking for a handle for the region `r` gives: a handle only if there is a file. -/
structure Found (r : ChunkPos) (got : Bool × Database × Disk) : Prop where
  aware : Aware got.2.1 got.2.2
  file : got.1 = true → (got.2.2.files (got.2.1.regionPath r)).isSome

variable [Platform]

/-! ### Reading -/

/-- A file is opened, or known to be missing. -/
theorem Aware.openHandle (h : Aware db d) (r : ChunkPos) :
  Found r (db.openHandle d r false)
  := by
  rw [Database.openHandle]
  split
  case isTrue hfile =>
    have hopen := Disk.openFile_same d (db.regionPath r)
    generalize d.openFile (db.regionPath r) = opened at hopen ⊢
    obtain ⟨good, d₁⟩ := opened
    dsimp only at hopen ⊢
    have haware := h.same hopen
    rw [← hopen.files] at hfile
    split
    case isTrue =>
      obtain ⟨hs, t, heq, hknows⟩ := Knows.addHandle trivial haware hfile
      rw [heq]
      exact ⟨hknows, fun _ => hfile⟩
    case isFalse => exact ⟨haware, fun hno => absurd hno Bool.false_ne_true⟩
  case isFalse hfile =>
    have hnone : d.files (db.regionPath r) = none := Option.not_isSome_iff_eq_none.mp hfile
    rw [if_neg Bool.false_ne_true]
    refine ⟨⟨h.created, h.handles, ?_⟩, fun hno => absurd hno Bool.false_ne_true⟩
    intro s hs
    obtain rfl | hs := List.mem_insert_iff.mp hs
    · exact hnone
    · split at hs
      · cases hs
      · exact h.nonexistant s hs

/-- A handle is looked for. -/
theorem Aware.getHandleFuel (h : Aware db d) (fuel : ℕ) (x y : Int32) :
  Found (regionOf (x, y)) (Database.getHandleFuel fuel db d x y false)
  := by
  induction fuel generalizing db with
  | zero => exact ⟨h, fun hno => absurd hno Bool.false_ne_true⟩
  | succ fuel ih =>
      rw [Database.getHandleFuel, makeDir, if_neg (by simp)]
      dsimp only
      rw [if_neg (by simp), searchHandle]
      split
      case isTrue => exact ⟨h, fun hno => absurd hno Bool.false_ne_true⟩
      case isFalse =>
        dsimp only
        rw [if_neg Bool.false_ne_true]
        cases hl : db.handles.lookup (regionOf (x, y)) with
        | none => exact h.openHandle (regionOf (x, y))
        | some good =>
            cases good with
            | true => exact ⟨h, fun _ => (h.handles _ _ hl).2⟩
            | false => exact ih (h.close (regionOf (x, y)))

/-- Reading a chunk changes no file. -/
theorem readChunk_same (db : Database) (d : Disk) (c : ChunkPos) (arr : Data) :
  Disk.Same d (db.readChunk d c arr).2.2.2
  := by
  rw [readChunk]
  have hlook := Disk.read_same d (db.regionPath (regionOf c)) (3 * slotOf c) 3
  generalize d.read (db.regionPath (regionOf c)) (3 * slotOf c) 3 = looked at hlook ⊢
  obtain ⟨look, d₁⟩ := looked
  dsimp only at hlook ⊢
  split
  · exact hlook
  · split
    · exact hlook
    · exact hlook.trans (Disk.read_same d₁ (db.regionPath (regionOf c)) _ 768)

/-- Reading a chunk of a file that is there. -/
theorem Aware.readChunk (h : Aware db d) (hfile : (d.files (db.regionPath (regionOf c))).isSome)
    (arr : Data) :
  Aware (db.readChunk d c arr).2.2.1 (db.readChunk d c arr).2.2.2
  := by
  apply Aware.same _ (readChunk_same db d c arr)
  -- at most two reads fail
  have hspoil : ∀ (p : Prop) [Decidable p] (db₁ : Database), Aware db₁ d → db₁.dir = db.dir →
      Aware (if p then db₁.spoil (regionOf c) else db₁) d ∧
        (if p then db₁.spoil (regionOf c) else db₁).dir = db.dir := by
    intro p _ db₁ h₁ hdir
    split
    · refine ⟨h₁.spoil ?_, hdir⟩
      rw [regionPath, hdir]
      exact hfile
    · exact ⟨h₁, hdir⟩
  rw [Database.readChunk]
  generalize d.read (db.regionPath (regionOf c)) (3 * slotOf c) 3 = looked
  obtain ⟨look, d₁⟩ := looked
  dsimp only
  obtain ⟨h₁, hdir₁⟩ := hspoil (look.length < 3) db h rfl
  generalize (if look.length < 3 then db.spoil (regionOf c) else db) = db₁ at h₁ hdir₁ ⊢
  split
  · exact h₁
  · split
    · exact h₁
    · generalize d₁.read (db.regionPath (regionOf c)) (256 * Bytes.leNat look) 768 = bytes
      obtain ⟨bs, d₂⟩ := bytes
      exact (hspoil (bs.length < 768) db₁ h₁ hdir₁).1

/-- Reading a chunk changes no file, whatever fails. -/
theorem getChunk_same (db : Database) (d : Disk) (x y : Int32) (arr : Data) :
  Disk.Same d (db.getChunk d x y arr).2.2.2
  := by
  have hgot := getHandle_same db d x y
  rw [getChunk]
  generalize db.getHandle d x y false = got at hgot ⊢
  obtain ⟨file, db₁, d₁⟩ := got
  cases file with
  | false => exact hgot
  | true => exact hgot.trans (readChunk_same db₁ d₁ (x, y) arr)

/-- What a database remembers stays so when it reads a chunk, whatever fails. -/
theorem Aware.getChunk (h : Aware db d) (x y : Int32) (arr : Data) :
  Aware (db.getChunk d x y arr).2.2.1 (db.getChunk d x y arr).2.2.2
  := by
  have hgot : Found (regionOf (x, y)) (db.getHandle d x y false) := h.getHandleFuel _ x y
  rw [Database.getChunk]
  generalize db.getHandle d x y false = got at hgot ⊢
  obtain ⟨file, db₁, d₁⟩ := got
  cases file with
  | false => exact hgot.aware
  | true => exact hgot.aware.readChunk (hgot.file rfl) arr

/-! ### The properties and protections -/

/-- Unless they are marked as changed, the properties and protections of a database are in its
files, which are only in a directory that exists. -/
structure Settled (db : Database) (d : Disk) : Prop where
  located : db.dir ≠ []
  bare : d.dirs db.dir = false → d.files (db.dir, .props) = none ∧ d.files (db.dir, .pchunks) = none
  oneLine : ∀ p ∈ db.worldProps.entries, OneLine p
  recorded : db.changedPropsOrProtects = false → Recorded db.dir d db.worldProps db.rankedChunks

omit [Platform] in
/-- What the files of the properties hold depends on them only, as they are not there without their
directory. -/
theorem saved_eq {dir : Bytes}
    (h : d.dirs dir = false → d.files (dir, .props) = none ∧ d.files (dir, .pchunks) = none) :
  savedProps dir d = parseProps ((d.files (dir, .props)).getD []) ∅ ∧
    savedRanked dir d
      = match d.files (dir, .pchunks) with
        | none => []
        | some f => if f.length % 8 ≠ 0 then [] else parseRanked f
  := by
  rw [savedProps, savedRanked]
  cases hdir : d.dirs dir with
  | true => exact ⟨if_pos rfl, if_pos rfl⟩
  | false =>
      obtain ⟨hprops, hpchunks⟩ := h hdir
      rw [hprops, hpchunks, if_neg Bool.false_ne_true, if_neg Bool.false_ne_true]
      exact ⟨rfl, rfl⟩

omit [Platform] in
/-- Region files have nothing to do with the properties. -/
theorem Settled.frame (h : Settled db d) (hframe : Frame db d db' d') :
  Settled db' d'
  := by
  have hprops : d'.files (db.dir, .props) = d.files (db.dir, .props) :=
    hframe.within.files _ (by simp [Disk.regionFiles])
  have hpchunks : d'.files (db.dir, .pchunks) = d.files (db.dir, .pchunks) :=
    hframe.within.files _ (by simp [Disk.regionFiles])
  have hbare : d'.dirs db.dir = false →
      d'.files (db.dir, .props) = none ∧ d'.files (db.dir, .pchunks) = none := by
    intro hdir
    rw [hprops, hpchunks]
    apply h.bare
    by_contra hmade
    rw [hframe.within.made (Bool.not_eq_false _ ▸ hmade)] at hdir
    cases hdir
  obtain ⟨hsaved, hsaved'⟩ := saved_eq h.bare
  obtain ⟨hsaved₁, hsaved₁'⟩ := saved_eq hbare
  have hdir := hframe.props.dir
  constructor
  case located =>
    rw [hdir]
    exact h.located
  case bare =>
    rw [hdir]
    exact hbare
  case oneLine =>
    rw [hframe.props.worldProps]
    exact h.oneLine
  case recorded =>
    rw [hframe.props.changed, hdir, hframe.props.worldProps, hframe.props.rankedChunks]
    intro hunchanged
    obtain ⟨hkeys, hpos⟩ := h.recorded hunchanged
    constructor
    case props =>
      rw [hsaved₁, hprops, ← hsaved]
      exact hkeys
    case ranked =>
      rw [hsaved₁', hpchunks, ← hsaved']
      exact hpos

omit [Platform] in
/-- No file has changed. -/
theorem Settled.same (h : Settled db d) (hsame : Disk.Same d d') :
  Settled db d'
  := by
  have hprops : savedProps db.dir d' = savedProps db.dir d := by
    rw [savedProps, savedProps, hsame.files, hsame.dirs]
  have hranked : savedRanked db.dir d' = savedRanked db.dir d := by
    rw [savedRanked, savedRanked, hsame.files, hsame.dirs]
  constructor
  case located => exact h.located
  case bare =>
    rw [hsame.files, hsame.dirs]
    exact h.bare
  case oneLine => exact h.oneLine
  case recorded =>
    intro hunchanged
    obtain ⟨hkeys, hpos⟩ := h.recorded hunchanged
    rw [← hprops] at hkeys
    rw [← hranked] at hpos
    exact ⟨hkeys, hpos⟩

omit [Platform] in
/-- Changed properties need not be in the files. -/
theorem Settled.change (h : Settled db d) (hdir : db'.dir = db.dir)
    (hline : ∀ p ∈ db'.worldProps.entries, OneLine p) (hchanged : db'.changedPropsOrProtects = true) :
  Settled db' d
  := by
  constructor
  case located =>
    rw [hdir]
    exact h.located
  case bare =>
    rw [hdir]
    exact h.bare
  case oneLine => exact hline
  case recorded =>
    intro hunchanged
    rw [hchanged] at hunchanged
    cases hunchanged

omit [Platform] in
/-- Setting a property of one line, or removing one. -/
theorem Settled.setProp (h : Settled db d) {key value : Bytes}
    (hline : value = [] ∨ OneLine ⟨key, value⟩) :
  Settled (db.setProp key value) d
  := by
  refine h.change rfl ?_ rfl
  rintro ⟨key', value'⟩ hp
  have hlookup := AList.mem_lookup_iff.mpr hp
  have hold : db.worldProps.lookup key' = some value' → OneLine ⟨key', value'⟩ :=
    fun hlookup => h.oneLine _ (AList.mem_lookup_iff.mp hlookup)
  rw [Database.setProp] at hlookup
  dsimp only at hlookup
  by_cases hkey : key' = key
  · subst hkey
    split at hlookup
    case isTrue =>
      rw [AList.lookup_erase] at hlookup
      cases hlookup
    case isFalse hvalue =>
      rw [AList.lookup_insert] at hlookup
      cases hlookup
      exact hline.resolve_left hvalue
  · split at hlookup
    case isTrue =>
      rw [AList.lookup_erase_ne hkey] at hlookup
      exact hold hlookup
    case isFalse =>
      rw [AList.lookup_insert_ne hkey] at hlookup
      exact hold hlookup

/-- A database opened without a failure has what its files hold. -/
theorem settled_new {dir : Bytes} (hdir : dir ≠ [])
    (hbare : d.dirs dir = false → d.files (dir, .props) = none ∧ d.files (dir, .pchunks) = none)
    (hok : (new dir d).2.intact) :
  Settled (new dir d).1 (new dir d).2
  := by
  obtain ⟨hfiles, hdirs, -⟩ := new_spec dir d
  obtain ⟨hprops, hranked, -⟩ := new_saved hok
  rw [← Prod.mk.eta (p := new dir d)] at *
  have hlocated : (new dir d).1.dir = dir := (new_within ∅ dir d).2
  constructor
  case located =>
    rw [hlocated]
    exact hdir
  case bare =>
    rw [hlocated, hfiles, hdirs]
    exact hbare
  case oneLine =>
    rintro ⟨key, value⟩ hp
    have hlookup := AList.mem_lookup_iff.mpr hp
    rw [hprops, (saved_eq hbare).1] at hlookup
    exact lookup_parseProps_oneLine hlookup
  case recorded =>
    intro _
    rw [hlocated, hprops, hranked]
    constructor
    case props =>
      intro key
      rw [savedProps, savedProps, hfiles, hdirs]
    case ranked =>
      intro pos
      rw [savedRanked, savedRanked, hfiles, hdirs]

/-- A save without a failure records what was changed. -/
theorem Settled.save (h : Settled db d) (hok : (db.save d).2.intact) :
  Settled (db.save d).1 (db.save d).2
  := by
  cases hch : db.changedPropsOrProtects with
  | false =>
      have hsame : db.save d = (db, d) := by
        rw [save_eq, if_neg (by rw [hch]; exact Bool.false_ne_true)]
      rw [hsame]
      exact h
  | true =>
      obtain ⟨hdirs, hfiles, hmade⟩ := save_spec hok
      have hrecorded := save_recorded hok h.oneLine h.located hch
      rw [if_pos hch] at hfiles
      rw [save_fst]
      constructor
      case located => exact h.located
      case bare =>
        rw [hdirs]
        intro hdir
        have hnone : db.worldProps.entries.length = 0 ∧ db.rankedChunks.length = 0 := by
          by_contra hsome
          obtain hnil | hdir' := hmade hch (by omega)
          · exact h.located hnil
          · rw [hdir] at hdir'
            cases hdir'
        rw [hfiles, propsFile, pchunksFile, hnone.1, hnone.2]
        simp
      case oneLine => exact h.oneLine
      case recorded => exact fun _ => hrecorded

/-- Writing the properties without a failure keeps what is remembered of the region files. -/
theorem Aware.save (h : Aware db d) (hok : (db.save d).2.intact) :
  Aware (db.save d).1 (db.save d).2
  := by
  obtain ⟨hdirs, -⟩ := save_spec hok
  have hregion : ∀ r, (db.save d).2.files (db.regionPath r) = d.files (db.regionPath r) :=
    fun r => (save_within db d).files _ (by simp [regionPath, Disk.propFiles])
  rw [save_fst]
  constructor
  case created => rw [hdirs]; exact h.created
  case handles =>
    intro r good hl
    obtain ⟨hgood, hfile⟩ := h.handles r good hl
    exact ⟨hgood, (congrArg Option.isSome (hregion r)).trans hfile⟩
  case nonexistant => exact fun r hr => (hregion r).trans (h.nonexistant r hr)

end Database

end Owop
