import OwopServer.Library.Paths
import OwopServer.Server.Moves

/-!
# Names of worlds

The name of a world is the name of its directory, which is in the data directory of the server.
`join_world` looks at the characters of the name only.  Names that are accepted have no separators,
so their directories lie below the data directory, apart from each other's directories and files,
but for the two names that are no entries: `.` is the data directory itself and `..` its parent.
-/

namespace Owop

open Bytes (ofString)

/-! ### Where files are -/

/-- The name of a file, as it is on the disk. -/
def FileName.text : FileName → Bytes
  | .region rx ry =>
      ofString "r." ++ toStringInt rx ++ ofString "." ++ toStringInt ry ++ ofString ".pxr"
  | .props => ofString "props.txt"
  | .pchunks => ofString "pchunks.bin"
  | .bans => ofString "bans.txt"
  | .whitelist => ofString "whitelist.txt"
  | .blacklist => ofString "blacklist.txt"

/-- The path that the operating system is given for a file. -/
def pathText (path : Path) : Bytes := path.1 ++ path.2.text

/-- Where a path leads, from the working directory `cwd`. -/
def placeOf (cwd : List Bytes) (path : Bytes) : List Bytes := Paths.resolve 47 46 cwd path

/-- The files that a database with the directory `dir` makes. -/
def filesIn (dir : Bytes) : Set Path := Disk.regionFiles dir ∪ Disk.propFiles dir

theorem slash_notMem_toString (n : ℕ) :
  47 ∉ toString n
  := by
  intro h
  obtain ⟨c, hc, heq⟩ := List.mem_map.mp h
  have hdigit := Nat.isDigit_of_mem_toDigits (by decide) (by decide) hc
  rw [Char.isDigit, Bool.and_eq_true, decide_eq_true_eq, decide_eq_true_eq] at hdigit
  obtain ⟨hlow, hhigh⟩ := hdigit
  have hlow' : 48 ≤ c.toNat := hlow
  have hhigh' : c.toNat ≤ 57 := hhigh
  have hvalue := congrArg UInt8.toNat heq
  rw [UInt8.toNat_ofNat'] at hvalue
  have h47 : UInt8.toNat 47 = 47 := rfl
  omega

theorem slash_notMem_toStringInt (x : Int32) :
  47 ∉ toStringInt x
  := by
  rw [toStringInt]
  split
  · intro h
    obtain h | h := List.mem_cons.mp h
    · exact absurd h (by decide)
    · exact slash_notMem_toString _ h
  · exact slash_notMem_toString _

/-- A text without a slash that does not start with a dot is the name of an entry. -/
theorem plain_of_head {name : Bytes} (c : UInt8) (hhead : name.head? = some c) (hc : c ≠ 46)
    (hslash : 47 ∉ name) :
  Paths.Plain 47 46 name
  := by
  have hne : ∀ bs : Bytes, bs.head? ≠ some c → name ≠ bs := by
    rintro bs hbs rfl
    exact hbs hhead
  have hdot : some (46 : UInt8) ≠ some c := fun h => hc (Option.some.inj h).symm
  constructor
  case whole => exact hslash
  case some => exact hne [] (Option.some_ne_none c).symm
  case here => exact hne [46] hdot
  case parent => exact hne [46, 46] hdot

/-- The name of a file is that of an entry. -/
theorem plain_text (file : FileName) :
  Paths.Plain 47 46 file.text
  := by
  cases file with
  | region rx ry =>
      apply plain_of_head 114 rfl (by decide)
      rw [FileName.text]
      intro h
      simp only [List.mem_append] at h
      obtain (((h | h) | h) | h) | h := h
      · exact absurd h (by decide)
      · exact slash_notMem_toStringInt rx h
      · exact absurd h (by decide)
      · exact slash_notMem_toStringInt ry h
      · exact absurd h (by decide)
  | props => exact plain_of_head 112 rfl (by decide) (by decide)
  | pchunks => exact plain_of_head 112 rfl (by decide) (by decide)
  | bans => exact plain_of_head 98 rfl (by decide) (by decide)
  | whitelist => exact plain_of_head 119 rfl (by decide) (by decide)
  | blacklist => exact plain_of_head 98 rfl (by decide) (by decide)

/-- A file lies in its directory. -/
theorem placeOf_pathText (cwd : List Bytes) (path : Bytes) (file : FileName) :
  placeOf cwd (pathText (path ++ ofString "/", file))
    = placeOf cwd (path ++ ofString "/") ++ [file.text]
  := by
  have hplain := plain_text file
  have htext : pathText (path ++ ofString "/", file) = path ++ 47 :: file.text :=
    List.append_assoc _ _ _
  rw [placeOf, htext, Paths.resolve_name cwd path hplain.whole, hplain.enter]
  rfl

namespace Server

/-! ### Names -/

/-- The name in a message that asks `join_world` for a world, and is accepted. -/
def Accepted (name : Bytes) : Prop :=
  ∃ msg : Bytes, 3 ≤ msg.length ∧ msg.length ≤ 26 ∧ name = msg.take (msg.length - 2) ∧
    name.all nameChar = true

/-- The directory of a world is a strict subdirectory of the data directory. -/
def Inside (cwd : List Bytes) (path name : Bytes) : Prop :=
  ∃ below, below ≠ [] ∧ placeOf cwd (World.dirOf path name) = placeOf cwd path ++ below

/-- No file of one of two worlds is at the place of a file or the directory of the other. -/
def Apart (cwd : List Bytes) (path name name' : Bytes) : Prop :=
  ∀ f ∈ filesIn (World.dirOf path name), ∀ g ∈ filesIn (World.dirOf path name'),
    placeOf cwd (pathText f) ≠ placeOf cwd (pathText g) ∧
    placeOf cwd (pathText f) ≠ placeOf cwd (World.dirOf path name') ∧
    placeOf cwd (World.dirOf path name) ≠ placeOf cwd (pathText g)

/-- An accepted name has no slash and is not empty. -/
theorem Accepted.entry {name : Bytes} (h : Accepted name) :
  47 ∉ name ∧ name ≠ []
  := by
  obtain ⟨msg, hlow, hhigh, hname, hchars⟩ := h
  constructor
  · intro hmem
    exact absurd (List.all_eq_true.mp hchars 47 hmem) (by decide)
  · intro hempty
    have hlength := congrArg List.length (hname.symm.trans hempty)
    rw [List.length_take, List.length_nil] at hlength
    omega

/-- An accepted name is that of an entry, or one of the two with a meaning of their own. -/
theorem Accepted.plain_iff {name : Bytes} (h : Accepted name) :
  Paths.Plain 47 46 name ↔ name ≠ ofString "." ∧ name ≠ ofString ".."
  := by
  obtain ⟨hslash, hsome⟩ := h.entry
  constructor
  · exact fun hplain => ⟨hplain.here, hplain.parent⟩
  · rintro ⟨hhere, hparent⟩
    exact ⟨hslash, hsome, hhere, hparent⟩

/-- The directory of a world is where its name leads from the data directory. -/
theorem placeOf_dirOf (cwd : List Bytes) (root : Bytes) {name : Bytes} (h : 47 ∉ name) :
  placeOf cwd (World.dirOf (root ++ ofString "/") name)
    = Paths.enter 46 (placeOf cwd (root ++ ofString "/")) name
  := by
  have htext : World.dirOf (root ++ ofString "/") name = root ++ 47 :: (name ++ [47]) := by
    rw [World.dirOf, List.append_assoc, List.append_assoc]
    rfl
  rw [placeOf, htext, Paths.resolve_dir cwd root h]
  rfl

theorem inside_iff (cwd : List Bytes) (root : Bytes) {name : Bytes} (h : Accepted name) :
  Inside cwd (root ++ ofString "/") name ↔ name ≠ ofString "." ∧ name ≠ ofString ".."
  := by
  obtain ⟨hslash, hsome⟩ := h.entry
  rw [Inside, placeOf_dirOf cwd root hslash, Paths.enter_below_iff]
  exact ⟨fun hname => hname.2, fun hname => ⟨hsome, hname⟩⟩

/-- A file of a world lies in its directory. -/
theorem placeOf_file (cwd : List Bytes) {path name : Bytes} {f : Path}
    (hf : f ∈ filesIn (World.dirOf path name)) :
  placeOf cwd (pathText f) = placeOf cwd (World.dirOf path name) ++ [f.2.text]
  := by
  have hdir : f = (path ++ name ++ ofString "/", f.2) := by
    obtain ⟨rx, ry, rfl⟩ | rfl | rfl := hf <;> rfl
  rw [hdir, placeOf_pathText]
  rfl

/-- Two directories in the data directory, and what is in them, are apart. -/
theorem apart_of_plain (cwd : List Bytes) (root : Bytes) {name name' : Bytes}
    (hname : Paths.Plain 47 46 name) (hname' : Paths.Plain 47 46 name') (hne : name ≠ name') :
  Apart cwd (root ++ ofString "/") name name'
  := by
  intro f hf g hg
  rw [placeOf_file cwd hf, placeOf_file cwd hg, placeOf_dirOf cwd root hname.whole,
    placeOf_dirOf cwd root hname'.whole, hname.enter, hname'.enter]
  generalize placeOf cwd (root ++ ofString "/") = base
  have hlength : ∀ a b c : Bytes, base ++ [a] ++ [b] ≠ base ++ [c] := by
    intro a b c heq
    have hlengths := congrArg List.length heq
    simp at hlengths
  constructor
  · intro heq
    have hnames := List.append_cancel_left (List.append_inj_left' heq rfl)
    exact hne (List.singleton_inj.mp hnames)
  · exact ⟨hlength _ _ _, (hlength _ _ _).symm⟩

/-- Worlds with accepted names have directories below the data directory, and apart from each
other, just if the names are not those with a meaning of their own. -/
theorem names_safe_iff (cwd : List Bytes) (root : Bytes) {name name' : Bytes} (h : Accepted name)
    (h' : Accepted name') :
  Inside cwd (root ++ ofString "/") name ∧ Inside cwd (root ++ ofString "/") name' ∧
      (name ≠ name' → Apart cwd (root ++ ofString "/") name name')
    ↔ (name ≠ ofString "." ∧ name ≠ ofString "..") ∧
      name' ≠ ofString "." ∧ name' ≠ ofString ".."
  := by
  rw [inside_iff cwd root h, inside_iff cwd root h']
  constructor
  · exact fun hsafe => ⟨hsafe.1, hsafe.2.1⟩
  · rintro ⟨hname, hname'⟩
    refine ⟨hname, hname', ?_⟩
    exact apart_of_plain cwd root (h.plain_iff.mpr hname) (h'.plain_iff.mpr hname')

/-- The worlds "main" and "a". -/
theorem names_safe_iff_main :
  Inside [] (ofString "chunkdata" ++ ofString "/") (ofString "main") ∧
    Inside [] (ofString "chunkdata" ++ ofString "/") (ofString "a") ∧
    (ofString "main" ≠ ofString "a" →
      Apart [] (ofString "chunkdata" ++ ofString "/") (ofString "main") (ofString "a"))
  := (names_safe_iff [] (ofString "chunkdata") ⟨ofString "main..", by decide⟩
    ⟨ofString "a..", by decide⟩).mpr (by decide)

/-- The name `..` is accepted, and is that of the parent of the data directory. -/
theorem not_names_safe :
  ¬ ∀ (cwd : List Bytes) (root name name' : Bytes), Accepted name → Accepted name' →
    Inside cwd (root ++ ofString "/") name ∧ Inside cwd (root ++ ofString "/") name' ∧
      (name ≠ name' → Apart cwd (root ++ ofString "/") name name')
  := by
  intro h
  have hparent : Accepted (ofString "..") := ⟨ofString "....", by decide⟩
  have hother : Accepted (ofString "a") := ⟨ofString "a..", by decide⟩
  obtain ⟨hinside, -⟩ := h [] (ofString "chunkdata") (ofString "..") (ofString "a") hparent hother
  exact absurd ((inside_iff [] (ofString "chunkdata") hparent).mp hinside) (by decide)

/-- The world that `join_world` makes has the directory of its name. -/
theorem joinWorld_dir [Platform] {s : Server} {ws : Ws} {si : SocketInfo} {name : Bytes}
    (hws : s.infos ws = some si) (hname : name.all nameChar = true)
    (hnew : s.worlds.lookup name = none) (p : ClientPtr) (wp : WorldPtr) :
  ∃ w, (s.joinWorld ws name p wp).objs wp = some w ∧ w.db.dir = World.dirOf s.path name
  := by
  rw [joinWorld, if_neg (not_not.mpr hname), hnew]
  have hload : (s.loadWorld name wp).objs wp = some (World.new s.path name s.disk).1 :=
    Function.update_self _ _ _
  obtain ⟨msgs, heq⟩ := enter_sent p (s := s.loadWorld name wp) hws hload
  use (World.new s.path name s.disk).1.getId.2.addCli p
  constructor
  · dsimp only
    rw [heq]
    exact Function.update_self _ _ _
  · exact World.new_dir s.path name s.disk

end Server

end Owop
