import OwopServer.Coordinates

/-!
# Files

The part of the operating system the server uses: directories, files and the operations on
them.  Every operation may fail, and a failing read or write may transfer some bytes first.
Which operations fail, which entry of an unordered container comes last and what
uninitialised memory contains are given by a `Platform`.
-/

namespace Owop

/-- What the operating system and the C++ library decide. -/
class Platform where
  /-- `none` if the operation with this number succeeds, otherwise the number of bytes it
  transfers before it fails. -/
  fault : ℕ → Option ℕ
  /-- The entry of an unordered container that comes last. -/
  pick : ℕ → ℕ
  /-- The bytes of uninitialised memory. -/
  junk : ℕ → ℕ → UInt8

/-- A platform on which every operation succeeds and the first entry is the last one. -/
@[reducible]
def Platform.quiet : Platform := ⟨fun _ => none, fun _ => 0, fun _ _ => 0⟩

/-- The files of the server: those of a world, in the directory of the world, and the lists
of addresses, in the working directory. -/
inductive FileName where
  /-- `r.X.Y.pxr` -/
  | region (rx ry : Int32)
  /-- `props.txt` -/
  | props
  /-- `pchunks.bin` -/
  | pchunks
  /-- `bans.txt` -/
  | bans
  /-- `whitelist.txt` -/
  | whitelist
  /-- `blacklist.txt` -/
  | blacklist
  deriving DecidableEq

/-- A directory, empty for the working directory, and a file in it. -/
abbrev Path := Bytes × FileName

/-- A change of the file system. -/
inductive FileOp where
  | mkdir (dir : Bytes)
  /-- Make the file, or empty it. -/
  | create (path : Path)
  | write (path : Path) (pos : ℕ) (bs : Bytes)
  | remove (path : Path)
  deriving DecidableEq

/-- The file system.  The last two components are history: whether every operation has
succeeded, and the changes made, in order. -/
structure Disk where
  dirs : Bytes → Bool
  files : Path → Option Bytes
  tick : ℕ
  intact : Bool
  log : List FileOp

namespace Disk

/-- A file system without files, with the given directories. -/
def empty (dirs : Bytes → Bool) : Disk := ⟨dirs, fun _ => none, 0, true, []⟩

/-- The file system after a change. -/
def apply (d : Disk) (op : FileOp) : Disk :=
  let d := { d with log := d.log ++ [op] }
  match op with
  | .mkdir dir => { d with dirs := Function.update d.dirs dir true }
  | .create path => { d with files := Function.update d.files path (some []) }
  | .write path pos bs =>
      { d with files :=
          Function.update d.files path ((d.files path).map fun f => f.splice pos bs) }
  | .remove path => { d with files := Function.update d.files path none }

/-- The file system after the first `i` of the changes `ops` and `p` bytes of the next
one. -/
def stopped (d : Disk) (ops : List FileOp) (i p : ℕ) : Disk :=
  let d := (ops.take i).foldl apply d
  match ops[i]? with
  | some (.write path pos bs) => d.apply (.write path pos (bs.take p))
  | _ => d

/-- An operation has failed. -/
def fail (d : Disk) : Disk := { d with intact := false }

/-- The contents of a file, empty if there is none. -/
def contents (d : Disk) (path : Path) : Bytes := (d.files path).getD []

/-! ### Changes -/

/-- The file system at another point in the sequence of operations. -/
def atTick (d : Disk) (t : ℕ) : Disk := { d with tick := t }

@[simp]
theorem atTick_files (d : Disk) (t : ℕ) :
  (d.atTick t).files = d.files
  := rfl

@[simp]
theorem atTick_dirs (d : Disk) (t : ℕ) :
  (d.atTick t).dirs = d.dirs
  := rfl

@[simp]
theorem atTick_intact (d : Disk) (t : ℕ) :
  (d.atTick t).intact = d.intact
  := rfl

@[simp]
theorem atTick_log (d : Disk) (t : ℕ) :
  (d.atTick t).log = d.log
  := rfl

@[simp]
theorem atTick_tick (d : Disk) (t : ℕ) :
  (d.atTick t).tick = t
  := rfl

@[simp]
theorem atTick_contents (d : Disk) (t : ℕ) (path : Path) :
  (d.atTick t).contents path = d.contents path
  := rfl

@[simp]
theorem atTick_atTick (d : Disk) (t t' : ℕ) :
  (d.atTick t).atTick t' = d.atTick t'
  := rfl

@[simp]
theorem apply_atTick (d : Disk) (t : ℕ) (op : FileOp) :
  (d.atTick t).apply op = (d.apply op).atTick t
  := by
  cases op <;> rfl

/-- Changes do not depend on the number of the next operation. -/
@[simp]
theorem foldl_apply_atTick (d : Disk) (t : ℕ) (ops : List FileOp) :
  ops.foldl apply (d.atTick t) = (ops.foldl apply d).atTick t
  := by
  induction ops generalizing d with
  | nil => rfl
  | cons op ops ih => rw [List.foldl_cons, List.foldl_cons, apply_atTick, ih]

@[simp]
theorem apply_intact (d : Disk) (op : FileOp) :
  (d.apply op).intact = d.intact
  := by
  cases op <;> rfl

/-- A change is noted. -/
@[simp]
theorem apply_log (d : Disk) (op : FileOp) :
  (d.apply op).log = d.log ++ [op]
  := by
  cases op <;> rfl

/-- A series of changes is added to the history. -/
@[simp]
theorem foldl_apply_log (d : Disk) (ops : List FileOp) :
  (ops.foldl apply d).log = d.log ++ ops
  := by
  induction ops generalizing d with
  | nil => simp
  | cons op ops ih => rw [List.foldl_cons, ih, apply_log, List.append_assoc, List.singleton_append]

@[simp]
theorem stopped_nil (d : Disk) (i p : ℕ) :
  d.stopped [] i p = d
  := by
  simp [stopped]

/-- A stop after the first change. -/
@[simp]
theorem stopped_cons_succ (d : Disk) (op : FileOp) (ops : List FileOp) (i p : ℕ) :
  d.stopped (op :: ops) (i + 1) p = (d.apply op).stopped ops i p
  := rfl

/-- A stop within a write. -/
@[simp]
theorem stopped_write (d : Disk) (path : Path) (pos : ℕ) (bs : Bytes) (ops : List FileOp)
    (p : ℕ) :
  d.stopped (.write path pos bs :: ops) 0 p = d.apply (.write path pos (bs.take p))
  := rfl

/-- A stop within the first of two series of changes. -/
theorem stopped_append_left (d : Disk) {ops : List FileOp} (ops' : List FileOp) {i : ℕ} (p : ℕ)
    (h : i < ops.length) :
  d.stopped (ops ++ ops') i p = d.stopped ops i p
  := by
  rw [stopped, stopped, List.take_append_of_le_length (by omega), List.getElem?_append_left h]

/-- A stop within the second of two series of changes. -/
theorem stopped_append_right (d : Disk) {ops : List FileOp} (ops' : List FileOp) {i : ℕ} (p : ℕ)
    (h : ops.length ≤ i) :
  d.stopped (ops ++ ops') i p = (ops.foldl apply d).stopped ops' (i - ops.length) p
  := by
  rw [stopped, stopped, List.take_append, List.take_of_length_le h, List.foldl_append,
    List.getElem?_append_right h]

/-! ### Operations in one directory -/

/-- The region files of the directory `dir`. -/
def regionFiles (dir : Bytes) : Set Path := { path | ∃ rx ry, path = (dir, .region rx ry) }

/-- The files of the properties and the protections in the directory `dir`. -/
def propFiles (dir : Bytes) : Set Path := {(dir, .props), (dir, .pchunks)}

/-- `d'` comes from `d` by operations on the files `S` and the directory `dir`: the rest is as
it was, directories do not go away, and a failure is not forgotten. -/
structure Within (S : Set Path) (dir : Bytes) (d d' : Disk) : Prop where
  files : ∀ path ∉ S, d'.files path = d.files path
  dirs : ∀ x ≠ dir, d'.dirs x = d.dirs x
  made : d.dirs dir → d'.dirs dir
  intact : d'.intact → d.intact

variable {S : Set Path}

/-- Nothing happens. -/
theorem Within.refl (S : Set Path) (dir : Bytes) (d : Disk) :
  Within S dir d d
  := ⟨fun _ _ => rfl, fun _ _ => rfl, id, id⟩

/-- One thing after another. -/
theorem Within.trans {dir : Bytes} {d d' d'' : Disk} (h : Within S dir d d')
    (h' : Within S dir d' d'') :
  Within S dir d d''
  := by
  constructor
  case files => exact fun path hne => (h'.files path hne).trans (h.files path hne)
  case dirs => exact fun x hne => (h'.dirs x hne).trans (h.dirs x hne)
  case made => exact fun hd => h'.made (h.made hd)
  case intact => exact fun hd => h.intact (h'.intact hd)

/-- More files may change. -/
theorem Within.mono {S' : Set Path} {dir : Bytes} {d d' : Disk} (h : Within S dir d d')
    (hS : S ⊆ S') :
  Within S' dir d d'
  := ⟨fun path hne => h.files path fun hmem => hne (hS hmem), h.dirs, h.made, h.intact⟩

/-- A failure changes no file. -/
theorem within_fail (S : Set Path) (dir : Bytes) (d : Disk) :
  Within S dir d d.fail
  := ⟨fun _ _ => rfl, fun _ _ => rfl, id, fun h => by simp [fail] at h⟩

/-- Making the directory changes no file. -/
theorem within_apply_mkdir (S : Set Path) (dir : Bytes) (d : Disk) :
  Within S dir d (d.apply (.mkdir dir))
  := by
  constructor
  case files => exact fun _ _ => rfl
  case dirs => exact fun x hne => Function.update_of_ne hne _ _
  case made => exact fun _ => Function.update_self _ _ _
  case intact => exact id

/-- Changing a file changes no other. -/
theorem within_apply {path : Path} {op : FileOp} (dir : Bytes) (d : Disk) (hpath : path ∈ S)
    (h : op = .create path ∨ (∃ pos bs, op = .write path pos bs) ∨ op = .remove path) :
  Within S dir d (d.apply op)
  := by
  have hupdate : ∀ (f : Option Bytes), ∀ q ∉ S, Function.update d.files path f q = d.files q := by
    intro f q hne
    apply Function.update_of_ne
    rintro rfl
    exact hne hpath
  obtain rfl | ⟨pos, bs, rfl⟩ | rfl := h
  · exact ⟨fun q hne => hupdate _ q hne, fun _ _ => rfl, id, id⟩
  · exact ⟨fun q hne => hupdate _ q hne, fun _ _ => rfl, id, id⟩
  · exact ⟨fun q hne => hupdate _ q hne, fun _ _ => rfl, id, id⟩

@[simp]
theorem fail_intact (d : Disk) :
  d.fail.intact = false
  := rfl

/-! ### Operations -/

variable [Platform]

/-- The fate of the next operation. -/
def outcome (d : Disk) : Option ℕ × Disk :=
  (Platform.fault d.tick,
    { d with tick := d.tick + 1, intact := d.intact && (Platform.fault d.tick).isNone })

/-- The last entry of an unordered container with `n` entries. -/
def choose (d : Disk) (n : ℕ) : ℕ × Disk :=
  (Platform.pick d.tick % n, { d with tick := d.tick + 1 })

/-- `mkdir` -/
def mkdir (d : Disk) (dir : Bytes) : Bool × Disk :=
  match d.outcome with
  | (none, d) => if d.dirs dir then (false, d.fail) else (true, d.apply (.mkdir dir))
  | (some _, d) => (false, d)

/-- Open a file that exists, for reading and writing. -/
def openFile (d : Disk) (path : Path) : Bool × Disk :=
  match d.outcome with
  | (none, d) => if (d.files path).isSome then (true, d) else (false, d.fail)
  | (some _, d) => (false, d)

/-- Open a file with `trunc`. -/
def createFile (d : Disk) (path : Path) : Bool × Disk :=
  match d.outcome with
  | (none, d) =>
      if path.1 = [] ∨ d.dirs path.1 then (true, d.apply (.create path)) else (false, d.fail)
  | (some _, d) => (false, d)

/-- Write to an open file. -/
def write (d : Disk) (path : Path) (pos : ℕ) (bs : Bytes) : Bool × Disk :=
  match d.outcome with
  | (none, d) => (true, d.apply (.write path pos bs))
  | (some p, d) => (false, d.apply (.write path pos (bs.take p)))

/-- Write a list of pieces one behind the other to a file just opened with `trunc`; after a
failure the rest is not written. -/
def writeAll (d : Disk) (path : Path) : ℕ → List Bytes → Disk
  | _, [] => d
  | pos, bs :: rest =>
      match d.write path pos bs with
      | (true, d) => d.writeAll path (pos + bs.length) rest
      | (false, d) => d

/-- Read at most `n` bytes from an open file. -/
def read (d : Disk) (path : Path) (pos n : ℕ) : Bytes × Disk :=
  match d.outcome with
  | (none, d) => ((d.contents path).slice pos n, d)
  | (some p, d) => (((d.contents path).slice pos n).take p, d)

/-- Open a file for reading and read it whole; nothing if it is missing or does not
open. -/
def readFile (d : Disk) (path : Path) : Option Bytes × Disk :=
  if (d.files path).isNone then (none, d)
  else
    let (good, d) := d.openFile path
    if good then
      let (bs, d) := d.read path 0 (d.contents path).length
      (some bs, d)
    else (none, d)

/-- `std::remove` -/
def remove (d : Disk) (path : Path) : Disk :=
  match d.outcome with
  | (none, d) => d.apply (.remove path)
  | (some _, d) => d

/-! ### Each operation works on its file -/

/-- Trying an operation changes no file. -/
theorem within_outcome (S : Set Path) (dir : Bytes) (d : Disk) :
  Within S dir d d.outcome.2
  := by
  constructor
  case files => exact fun _ _ => rfl
  case dirs => exact fun _ _ => rfl
  case made => exact id
  case intact =>
    intro h
    simp only [outcome, Bool.and_eq_true] at h
    exact h.1

/-- Choosing an entry changes no file. -/
theorem within_choose (S : Set Path) (dir : Bytes) (d : Disk) (n : ℕ) :
  Within S dir d (d.choose n).2
  := ⟨fun _ _ => rfl, fun _ _ => rfl, id, id⟩

/-- Making the directory, which may fail. -/
theorem within_mkdir (S : Set Path) (dir : Bytes) (d : Disk) :
  Within S dir d (d.mkdir dir).2
  := by
  have ho := within_outcome S dir d
  rw [mkdir]
  split
  case h_1 d' heq =>
    rw [heq] at ho
    split
    · exact ho.trans (within_fail S dir d')
    · exact ho.trans (within_apply_mkdir S dir d')
  case h_2 d' heq =>
    rw [heq] at ho
    exact ho

/-- Opening a file changes none. -/
theorem within_openFile (S : Set Path) (dir : Bytes) (d : Disk) (path : Path) :
  Within S dir d (d.openFile path).2
  := by
  have ho := within_outcome S dir d
  rw [openFile]
  split
  case h_1 d' heq =>
    rw [heq] at ho
    split
    · exact ho
    · exact ho.trans (within_fail S dir d')
  case h_2 d' heq =>
    rw [heq] at ho
    exact ho

/-- Making a file changes that one. -/
theorem within_createFile {path : Path} (dir : Bytes) (d : Disk) (hpath : path ∈ S) :
  Within S dir d (d.createFile path).2
  := by
  have ho := within_outcome S dir d
  rw [createFile]
  split
  case h_1 d' heq =>
    rw [heq] at ho
    split
    · exact ho.trans (within_apply dir d' hpath (Or.inl rfl))
    · exact ho.trans (within_fail S dir d')
  case h_2 d' heq =>
    rw [heq] at ho
    exact ho

/-- A write changes its file. -/
theorem within_write {path : Path} (dir : Bytes) (d : Disk) (hpath : path ∈ S) (pos : ℕ)
    (bs : Bytes) :
  Within S dir d (d.write path pos bs).2
  := by
  have ho := within_outcome S dir d
  rw [write]
  split
  case h_1 d' heq =>
    rw [heq] at ho
    exact ho.trans (within_apply dir d' hpath (Or.inr (Or.inl ⟨pos, bs, rfl⟩)))
  case h_2 p d' heq =>
    rw [heq] at ho
    exact ho.trans (within_apply dir d' hpath (Or.inr (Or.inl ⟨pos, bs.take p, rfl⟩)))

/-- Several writes change their file. -/
theorem within_writeAll {path : Path} (dir : Bytes) (d : Disk) (hpath : path ∈ S) (pos : ℕ)
    (pieces : List Bytes) :
  Within S dir d (d.writeAll path pos pieces)
  := by
  induction pieces generalizing d pos with
  | nil => exact Within.refl _ _ _
  | cons bs rest ih =>
      have hw := within_write dir d hpath pos bs
      rw [writeAll]
      split
      case h_1 d' heq =>
        rw [heq] at hw
        exact hw.trans (ih d' _)
      case h_2 d' heq =>
        rw [heq] at hw
        exact hw

/-- A read changes no file. -/
theorem within_read (S : Set Path) (dir : Bytes) (d : Disk) (path : Path) (pos n : ℕ) :
  Within S dir d (d.read path pos n).2
  := by
  have ho := within_outcome S dir d
  rw [read]
  split
  case h_1 d' heq =>
    rw [heq] at ho
    exact ho
  case h_2 p d' heq =>
    rw [heq] at ho
    exact ho

/-- Reading a whole file changes none. -/
theorem within_readFile (S : Set Path) (dir : Bytes) (d : Disk) (path : Path) :
  Within S dir d (d.readFile path).2
  := by
  have ho := within_openFile S dir d path
  rw [readFile]
  split
  · exact Within.refl _ _ _
  · rcases heq : d.openFile path with ⟨good, d'⟩
    rw [heq] at ho
    cases good with
    | false => exact ho
    | true => exact ho.trans (within_read S dir d' path 0 _)

/-- Reading a file changes nothing but the history. -/
theorem readFile_same (d : Disk) (path : Path) :
  (d.readFile path).2.files = d.files ∧ (d.readFile path).2.dirs = d.dirs
  := by
  have houtcome : ∀ d : Disk, d.outcome.2.files = d.files ∧ d.outcome.2.dirs = d.dirs :=
    fun _ => ⟨rfl, rfl⟩
  have hopen : (d.openFile path).2.files = d.files ∧ (d.openFile path).2.dirs = d.dirs := by
    have ho := houtcome d
    rw [openFile]
    generalize d.outcome = fate at ho ⊢
    obtain ⟨fate, d'⟩ := fate
    cases fate with
    | some p => exact ho
    | none =>
        dsimp only
        split
        · exact ho
        · exact ho
  rw [readFile]
  split
  · exact ⟨rfl, rfl⟩
  · generalize d.openFile path = opened at hopen ⊢
    obtain ⟨good, d'⟩ := opened
    cases good with
    | false => exact hopen
    | true =>
        have ho := houtcome d'
        rw [hopen.1, hopen.2] at ho
        dsimp only
        rw [if_pos rfl, read]
        generalize d'.outcome = fate at ho ⊢
        obtain ⟨fate, d''⟩ := fate
        cases fate with
        | some p => exact ho
        | none => exact ho

/-- Removing a file changes that one. -/
theorem within_remove {path : Path} (dir : Bytes) (d : Disk) (hpath : path ∈ S) :
  Within S dir d (d.remove path)
  := by
  have ho := within_outcome S dir d
  rw [remove]
  split
  case h_1 d' heq =>
    rw [heq] at ho
    exact ho.trans (within_apply dir d' hpath (Or.inr (Or.inr rfl)))
  case h_2 d' heq =>
    rw [heq] at ho
    exact ho

/-! ### Operations that succeed -/

/-- An operation that succeeds. -/
theorem outcome_of_none {d : Disk} (h : Platform.fault d.tick = none) :
  d.outcome = (none, d.atTick (d.tick + 1))
  := by
  simp [outcome, atTick, h]

/-- An operation that fails. -/
theorem outcome_of_some {d : Disk} {p : ℕ} (h : Platform.fault d.tick = some p) :
  d.outcome = (some p, (d.atTick (d.tick + 1)).fail)
  := by
  simp [outcome, atTick, fail, h]

/-- A directory that could be made. -/
theorem mkdir_of_intact {d : Disk} {dir : Bytes} (h : (d.mkdir dir).2.intact) :
  d.mkdir dir = (true, (d.apply (.mkdir dir)).atTick (d.tick + 1)) ∧ d.dirs dir = false ∧ d.intact
  := by
  cases hf : Platform.fault d.tick with
  | some p => simp [mkdir, outcome_of_some hf] at h
  | none =>
      simp only [mkdir, outcome_of_none hf] at h ⊢
      split at h
      case isTrue hdir => simp at h
      case isFalse hdir =>
        rw [if_neg hdir]
        exact ⟨rfl, by simpa using hdir, by simpa using h⟩

/-- A file that could be opened. -/
theorem openFile_of_intact {d : Disk} {path : Path} (h : (d.openFile path).2.intact) :
  d.openFile path = (true, d.atTick (d.tick + 1)) ∧ (d.files path).isSome ∧ d.intact
  := by
  cases hf : Platform.fault d.tick with
  | some p => simp [openFile, outcome_of_some hf] at h
  | none =>
      simp only [openFile, outcome_of_none hf] at h ⊢
      split at h
      case isTrue hfile =>
        rw [if_pos hfile]
        exact ⟨rfl, hfile, h⟩
      case isFalse hfile => simp at h

/-- A file that could be made. -/
theorem createFile_of_intact {d : Disk} {path : Path} (h : (d.createFile path).2.intact) :
  d.createFile path = (true, (d.apply (.create path)).atTick (d.tick + 1)) ∧
    (path.1 = [] ∨ d.dirs path.1) ∧
    d.intact
  := by
  cases hf : Platform.fault d.tick with
  | some p => simp [createFile, outcome_of_some hf] at h
  | none =>
      simp only [createFile, outcome_of_none hf] at h ⊢
      split at h
      case isTrue hdir =>
        rw [if_pos hdir]
        exact ⟨rfl, hdir, by simpa using h⟩
      case isFalse hdir => simp at h

/-- A write that was complete. -/
theorem write_of_intact {d : Disk} {path : Path} {pos : ℕ} {bs : Bytes}
    (h : (d.write path pos bs).2.intact) :
  d.write path pos bs = (true, (d.apply (.write path pos bs)).atTick (d.tick + 1)) ∧ d.intact
  := by
  cases hf : Platform.fault d.tick with
  | some p => simp [write, outcome_of_some hf] at h
  | none => simpa [write, outcome_of_none hf] using h

/-- A read that was complete. -/
theorem read_of_intact {d : Disk} {path : Path} {pos n : ℕ} (h : (d.read path pos n).2.intact) :
  d.read path pos n = ((d.contents path).slice pos n, d.atTick (d.tick + 1)) ∧ d.intact
  := by
  cases hf : Platform.fault d.tick with
  | some p => simp [read, outcome_of_some hf] at h
  | none => simpa [read, outcome_of_none hf] using h

/-- A file that could be read to its end. -/
theorem readFile_of_intact {d : Disk} {path : Path} (h : (d.readFile path).2.intact) :
  ∃ t, d.readFile path = (d.files path, d.atTick t) ∧ d.intact
  := by
  rw [readFile] at h ⊢
  cases hf : d.files path with
  | none =>
      rw [hf] at h
      exact ⟨d.tick, rfl, h⟩
  | some f =>
      rw [hf, Option.isNone_some, if_neg (by simp)] at h
      rw [Option.isNone_some, if_neg (by simp)]
      have ho : (d.openFile path).2.intact := by
        revert h
        generalize d.openFile path = opened
        obtain ⟨good, d'⟩ := opened
        cases good with
        | false => exact id
        | true => exact (within_read ∅ [] d' path 0 _).intact
      obtain ⟨heq, -, hd⟩ := openFile_of_intact ho
      rw [heq] at h ⊢
      dsimp only at h ⊢
      rw [if_pos rfl] at h ⊢
      obtain ⟨hread, -⟩ := read_of_intact h
      have hcontents : d.contents path = f := by rw [contents, hf, Option.getD_some]
      rw [hread, atTick_contents, hcontents]
      refine ⟨d.tick + 1 + 1, ?_, hd⟩
      rw [Bytes.slice, List.drop_zero, List.take_length]
      rfl

/-- A file that could be removed. -/
theorem remove_of_intact {d : Disk} {path : Path} (h : (d.remove path).intact) :
  d.remove path = (d.apply (.remove path)).atTick (d.tick + 1) ∧ d.intact
  := by
  cases hf : Platform.fault d.tick with
  | some p => simp [remove, outcome_of_some hf] at h
  | none => simpa [remove, outcome_of_none hf] using h

end Disk

end Owop
