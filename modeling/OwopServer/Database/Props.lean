import OwopServer.Database.Store

/-!
# Properties and protections on disk

Saving a database writes its properties and its protected chunks as a whole, and opening a
database on the files reads them back, as long as no property contains a line break and no
key a space.
-/

namespace Owop

namespace Database

/-! ### What is written -/

/-- The contents of `props.txt` for the given properties; there is no file without any. -/
def propsFile (props : AList fun _ : Bytes => Bytes) : Option Bytes :=
  if props.entries.length > 0 then some (propLines props).flatten else none

/-- The contents of `pchunks.bin` for the given protected chunks. -/
def pchunksFile (ranked : List ChunkPos) : Option Bytes :=
  if ranked.length > 0 then some (ranked.flatMap posBytes) else none

/-- The properties a database opened on the directory `dir` has. -/
def savedProps (dir : Bytes) (d : Disk) : AList fun _ : Bytes => Bytes :=
  if d.dirs dir then parseProps ((d.files (dir, .props)).getD []) ∅ else ∅

/-- The protected chunks of a database opened on the directory `dir`. -/
def savedRanked (dir : Bytes) (d : Disk) : List ChunkPos :=
  if d.dirs dir then
    match d.files (dir, .pchunks) with
    | none => []
    | some f => if f.length % 8 ≠ 0 then [] else parseRanked f
  else []

/-! ### Reading properties back -/

/-- A key and a value that fill one line of `props.txt`. -/
def OneLine (p : Sigma fun _ : Bytes => Bytes) : Prop :=
  10 ∉ p.1 ∧ 32 ∉ p.1 ∧ 10 ∉ p.2

/-- A file without lines. -/
theorem parseProps_nil (props : AList fun _ : Bytes => Bytes) :
  parseProps [] props = props
  := rfl

/-- Reading a line adds its property. -/
theorem parseProps_line {p : Sigma fun _ : Bytes => Bytes} (h : OneLine p) (f : Bytes)
    (props : AList fun _ : Bytes => Bytes) :
  parseProps (p.1 ++ [32] ++ p.2 ++ [10] ++ f) props = parseProps f (props.insert p.1 p.2)
  := by
  obtain ⟨key, value⟩ := p
  obtain ⟨hkey, hspace, hvalue⟩ := h
  dsimp only at hkey hspace hvalue ⊢
  have hline : 10 ∉ key ++ [32] ++ value := by simp [hkey, hvalue]
  have hsplit : (key ++ [32] ++ value ++ [10] ++ f).splitOn 10
      = (key ++ [32] ++ value) :: f.splitOn 10 := by
    rw [List.append_assoc _ [10], List.singleton_append]
    exact List.splitOn_append_cons_self_of_not_mem hline f
  have htake : (key ++ [32] ++ value).takeWhile (· != 32) = key := by
    rw [List.append_assoc, List.takeWhile_append_of_pos]
    · simp
    · intro b hb
      rw [bne_iff_ne]
      rintro rfl
      exact hspace hb
  rw [parseProps, hsplit, List.foldl_cons, if_pos (by simp), htake, parseProps]
  congr 2
  simp

/-- Reading the lines of properties adds them one after the other. -/
theorem parseProps_lines {ps : List (Sigma fun _ : Bytes => Bytes)} (h : ∀ p ∈ ps, OneLine p)
    (props : AList fun _ : Bytes => Bytes) :
  parseProps (ps.map fun p => p.1 ++ [32] ++ p.2 ++ [10]).flatten props
    = ps.foldl (fun props p => props.insert p.1 p.2) props
  := by
  induction ps generalizing props with
  | nil => rfl
  | cons p ps ih =>
      rw [List.map_cons, List.flatten_cons, parseProps_line (h p List.mem_cons_self),
        ih fun q hq => h q (List.mem_cons_of_mem p hq)]
      rfl

/-- The properties after a list of them with different keys has been added. -/
theorem lookup_foldl_insert {ps : List (Sigma fun _ : Bytes => Bytes)} (h : ps.NodupKeys)
    (props : AList fun _ : Bytes => Bytes) (key : Bytes) :
  (ps.foldl (fun props p => props.insert p.1 p.2) props).lookup key
    = (ps.dlookup key).or (props.lookup key)
  := by
  induction ps generalizing props with
  | nil => rfl
  | cons p ps ih =>
      rw [List.nodupKeys_cons] at h
      rw [List.foldl_cons, ih h.2]
      by_cases hkey : key = p.1
      · subst hkey
        rw [List.dlookup_cons_eq, List.dlookup_eq_none.mpr h.1, AList.lookup_insert]
        rfl
      · rw [List.dlookup_cons_ne _ _ hkey, AList.lookup_insert_ne hkey]

/-- The properties read back from their file are the properties. -/
theorem lookup_parseProps {props : AList fun _ : Bytes => Bytes}
    (h : ∀ p ∈ props.entries, OneLine p) (key : Bytes) :
  (parseProps ((propsFile props).getD []) ∅).lookup key = props.lookup key
  := by
  rw [propsFile]
  split
  case isTrue =>
    have hperm := List.perm_insertionSort (fun p q : Sigma fun _ : Bytes => Bytes => p.1 ≤ q.1)
      props.entries
    have hnodup := (List.perm_nodupKeys hperm).mpr props.nodupKeys
    rw [Option.getD_some, propLines, parseProps_lines, lookup_foldl_insert hnodup,
      List.perm_dlookup key hnodup hperm, AList.lookup_empty, Option.or_none]
    · rfl
    · intro p hp
      exact h p (hperm.mem_iff.mp hp)
  case isFalse hlen =>
    have hempty : props.entries = [] := List.eq_nil_of_length_eq_zero (by omega)
    rw [Option.getD_none, parseProps_nil, AList.lookup_empty, AList.lookup, hempty]
    rfl

/-! ### Reading protections back -/

/-- A position takes 8 bytes. -/
theorem length_posBytes (pos : ChunkPos) :
  (posBytes pos).length = 8
  := by
  rw [posBytes, List.length_append, length_int32Bytes, length_int32Bytes]

/-- Each protected chunk takes 8 bytes. -/
theorem length_pchunks (ranked : List ChunkPos) :
  (ranked.flatMap posBytes).length = 8 * ranked.length
  := by
  induction ranked with
  | nil => rfl
  | cons pos ranked ih =>
      rw [List.flatMap_cons, List.length_append, length_posBytes, ih, List.length_cons]
      omega

/-- The position with the given eight bytes. -/
def posOf (bs : Bytes) : ChunkPos := (int32Of (bs.take 4), int32Of (bs.drop 4))

/-- A position is read back. -/
theorem posOf_posBytes (pos : ChunkPos) :
  posOf (posBytes pos) = pos
  := by
  rw [posOf, posBytes, List.take_left' (length_int32Bytes _), List.drop_left' (length_int32Bytes _),
    int32Of_int32Bytes, int32Of_int32Bytes]

/-- What is in a list to which others were added. -/
theorem mem_foldl_insert {α : Type*} [BEq α] [LawfulBEq α] (as bs : List α) (a : α) :
  a ∈ as.foldl (fun bs b => bs.insert b) bs ↔ a ∈ as ∨ a ∈ bs
  := by
  induction as generalizing bs with
  | nil => simp
  | cons b as ih =>
      rw [List.foldl_cons, ih, List.mem_insert_iff, List.mem_cons]
      tauto

/-- The positions read back from their file are the positions. -/
theorem mem_parseRanked (ranked : List ChunkPos) (pos : ChunkPos) :
  pos ∈ parseRanked (ranked.flatMap posBytes) ↔ pos ∈ ranked
  := by
  have hslices := Bytes.slice_flatMap length_posBytes [] [] rfl ranked
  have hread : (List.range ranked.length).map (fun i =>
      (int32Of (Bytes.slice (ranked.flatMap posBytes) (8 * i) 4),
        int32Of (Bytes.slice (ranked.flatMap posBytes) (8 * i + 4) 4))) = ranked := by
    calc
      _ = ((List.range ranked.length).map fun i =>
            Bytes.slice (ranked.flatMap posBytes) (8 * i) 8).map posOf := by
        rw [List.map_map]
        apply List.map_congr_left
        intro i _
        rw [Function.comp_apply, posOf, Bytes.slice, Bytes.slice, Bytes.slice, List.take_take,
          List.drop_take, List.drop_drop]
        rfl
      _ = (ranked.map posBytes).map posOf := by
        rw [← hslices]
        simp
      _ = ranked := by
        rw [List.map_map]
        simp [Function.comp_def, posOf_posBytes]
  rw [parseRanked, length_pchunks, Nat.mul_div_cancel_left _ (by omega),
    ← List.foldl_map (g := fun (bs : List ChunkPos) b => bs.insert b), hread, mem_foldl_insert]
  simp

/-- The protected chunks a file of them holds. -/
theorem mem_savedRanked {dir : Bytes} {d : Disk} {ranked : List ChunkPos} (hd : d.dirs dir)
    (hf : d.files (dir, .pchunks) = pchunksFile ranked) (pos : ChunkPos) :
  pos ∈ savedRanked dir d ↔ pos ∈ ranked
  := by
  rw [savedRanked, if_pos hd, hf, pchunksFile]
  split
  case h_1 heq =>
    split at heq
    · cases heq
    case isFalse hlen =>
      rw [List.eq_nil_of_length_eq_zero (show ranked.length = 0 by omega)]
  case h_2 f heq =>
    split at heq
    · cases heq
      rw [if_neg (by rw [length_pchunks]; omega)]
      exact mem_parseRanked ranked pos
    · cases heq

/-! ### Saving -/

variable [Platform]

/-- Writing the lines of a file that was just emptied puts them one behind the other. -/
theorem writeAll_of_intact {d : Disk} {path : Path} {f : Bytes} {pieces : List Bytes}
    (hf : d.files path = some f) (hok : (d.writeAll path f.length pieces).intact) :
  (d.writeAll path f.length pieces).files
      = Function.update d.files path (some (f ++ pieces.flatten)) ∧
    (d.writeAll path f.length pieces).dirs = d.dirs
  := by
  induction pieces generalizing d f with
  | nil =>
      rw [Disk.writeAll, List.flatten_nil, List.append_nil, ← hf, Function.update_eq_self]
      exact ⟨rfl, rfl⟩
  | cons bs pieces ih =>
      rw [Disk.writeAll] at hok ⊢
      have hwrite : (d.write path f.length bs).2.intact := by
        revert hok
        generalize d.write path f.length bs = written
        obtain ⟨good, d'⟩ := written
        cases good with
        | false => exact id
        | true => exact (Disk.within_writeAll [] d' (Set.mem_singleton path) _ pieces).intact
      obtain ⟨heq, -⟩ := Disk.write_of_intact hwrite
      rw [heq] at hok ⊢
      dsimp only at hok ⊢
      generalize hd : (d.apply (.write path f.length bs)).atTick (d.tick + 1) = d' at hok ⊢
      have hfiles : d'.files = Function.update d.files path (some (f ++ bs)) := by
        rw [← hd, Disk.atTick_files, Disk.apply]
        dsimp only
        rw [hf, Option.map_some, Bytes.splice_length]
      have hdirs : d'.dirs = d.dirs := by
        rw [← hd]
        rfl
      have hf' : d'.files path = some (f ++ bs) := by
        rw [hfiles, Function.update_self]
      rw [← List.length_append] at hok ⊢
      obtain ⟨hfiles', hdirs'⟩ := ih hf' hok
      rw [hfiles', hdirs', hfiles, hdirs, Function.update_idem, List.append_assoc,
        List.flatten_cons]
      exact ⟨rfl, rfl⟩

/-- Make a file of the given pieces, or remove it if there are none. -/
def putFile (d : Disk) (path : Path) (pieces : Option (List Bytes)) : Disk :=
  match pieces with
  | some pieces =>
      let (good, d) := d.createFile path
      if good then d.writeAll path 0 pieces else d
  | none => d.remove path

/-- Only that file changes. -/
theorem within_putFile {S : Set Path} {path : Path} (dir : Bytes) (d : Disk) (hpath : path ∈ S)
    (pieces : Option (List Bytes)) :
  Disk.Within S dir d (putFile d path pieces)
  := by
  cases pieces with
  | none => exact Disk.within_remove dir d hpath
  | some pieces =>
      have hc := Disk.within_createFile dir d hpath
      rw [putFile]
      generalize d.createFile path = created at hc ⊢
      obtain ⟨good, d'⟩ := created
      cases good with
      | false => exact hc
      | true => exact hc.trans (Disk.within_writeAll dir d' hpath 0 pieces)

/-- A file that could be written, or removed. -/
theorem putFile_of_intact {d : Disk} {path : Path} {pieces : Option (List Bytes)}
    (hok : (putFile d path pieces).intact) :
  (putFile d path pieces).files = Function.update d.files path (pieces.map List.flatten) ∧
    (putFile d path pieces).dirs = d.dirs ∧
    (pieces.isSome → path.1 = [] ∨ d.dirs path.1)
  := by
  cases pieces with
  | none =>
      obtain ⟨heq, -⟩ := Disk.remove_of_intact hok
      rw [putFile, heq]
      exact ⟨rfl, rfl, fun h => by cases h⟩
  | some pieces =>
      rw [putFile] at hok ⊢
      have hcreate : (d.createFile path).2.intact := by
        revert hok
        generalize d.createFile path = created
        obtain ⟨good, d'⟩ := created
        cases good with
        | false => exact id
        | true => exact (Disk.within_writeAll [] d' (Set.mem_singleton path) 0 pieces).intact
      obtain ⟨heq, hdir, -⟩ := Disk.createFile_of_intact hcreate
      rw [heq] at hok ⊢
      dsimp only at hok ⊢
      rw [if_pos rfl] at hok ⊢
      have hf : ((d.apply (.create path)).atTick (d.tick + 1)).files path = some [] :=
        Function.update_self ..
      obtain ⟨hfiles, hdirs⟩ := writeAll_of_intact (f := []) hf hok
      rw [List.length_nil, List.nil_append] at hfiles
      refine ⟨hfiles.trans ?_, hdirs, fun _ => hdir⟩
      exact Function.update_idem ..

/-- One write. -/
theorem writeAll_singleton (d : Disk) (path : Path) (pos : ℕ) (bs : Bytes) :
  d.writeAll path pos [bs] = (d.write path pos bs).2
  := by
  rw [Disk.writeAll]
  generalize d.write path pos bs = written
  obtain ⟨good, d'⟩ := written
  cases good with
  | false => rfl
  | true => rfl

/-- Saving makes the two files anew. -/
theorem save_eq (db : Database) (d : Disk) :
  db.save d
    = if db.changedPropsOrProtects then
        ({ db with changedPropsOrProtects := false },
          putFile (putFile d (db.dir, .props)
            (if db.worldProps.entries.length > 0 then some (propLines db.worldProps) else none))
            (db.dir, .pchunks)
            (if db.rankedChunks.length > 0 then some [db.rankedChunks.flatMap posBytes] else none))
      else (db, d)
  := by
  rw [save]
  split
  case isTrue h => rfl
  case isFalse h =>
    rw [if_pos (not_not.mp h)]
    have hfirst : (if db.worldProps.entries.length > 0 then
          match d.createFile (db.dir, .props) with
          | (good, d) =>
            if good then d.writeAll (db.dir, .props) 0 (propLines db.worldProps) else d
        else d.remove (db.dir, .props))
          = putFile d (db.dir, .props)
            (if db.worldProps.entries.length > 0 then some (propLines db.worldProps) else none) := by
      split
      · rfl
      · rfl
    dsimp only
    rw [hfirst]
    generalize putFile d (db.dir, .props) _ = d'
    split
    · rw [putFile]
      simp only [writeAll_singleton]
    · rfl

/-- After a save nothing is left to write. -/
theorem save_fst (db : Database) (d : Disk) :
  (db.save d).1 = { db with changedPropsOrProtects := false }
  := by
  rw [save_eq]
  split
  case isTrue => rfl
  case isFalse h =>
    rw [Bool.not_eq_true] at h
    dsimp only
    rw [← h]

/-- Saving a database writes what was changed since it was last saved. -/
theorem save_spec {db : Database} {d : Disk} (hok : (db.save d).2.intact) :
  (db.save d).2.dirs = d.dirs ∧
    (db.save d).2.files
      = (if db.changedPropsOrProtects then
          Function.update (Function.update d.files (db.dir, .props) (propsFile db.worldProps))
            (db.dir, .pchunks) (pchunksFile db.rankedChunks)
        else d.files) ∧
    (db.changedPropsOrProtects = true →
      db.worldProps.entries.length > 0 ∨ db.rankedChunks.length > 0 → db.dir = [] ∨ d.dirs db.dir)
  := by
  rw [save_eq] at hok ⊢
  split
  case isTrue h =>
    rw [if_pos h] at hok
    dsimp only at hok ⊢
    obtain ⟨hfiles, hdirs, hmade⟩ := putFile_of_intact hok
    obtain ⟨hfiles', hdirs', hmade'⟩ := putFile_of_intact
      ((within_putFile (S := Set.univ) [] _ (Set.mem_univ _) _).intact hok)
    refine ⟨hdirs.trans hdirs', ?_, ?_⟩
    · rw [hfiles, hfiles', propsFile, pchunksFile]
      congr 1
      · congr 1
        split
        · rfl
        · rfl
      · split
        · simp
        · rfl
    · rintro - (hprops | hranked)
      · rw [if_pos hprops] at hmade'
        exact hmade' rfl
      · rw [if_pos hranked, hdirs'] at hmade
        exact hmade rfl
  case isFalse h =>
    exact ⟨rfl, rfl, fun hch => absurd hch h⟩

/-- The files in `dir` hold these properties and protected chunks. -/
structure Recorded (dir : Bytes) (d : Disk) (props : AList fun _ : Bytes => Bytes)
    (ranked : List ChunkPos) : Prop where
  props : ∀ key, (savedProps dir d).lookup key = props.lookup key
  ranked : ∀ pos, pos ∈ savedRanked dir d ↔ pos ∈ ranked

/-- After a save the files hold the properties and protections. -/
theorem save_recorded {db : Database} {d : Disk} (hok : (db.save d).2.intact)
    (hline : ∀ p ∈ db.worldProps.entries, OneLine p) (hdir : db.dir ≠ [])
    (hch : db.changedPropsOrProtects = true) :
  Recorded db.dir (db.save d).2 db.worldProps db.rankedChunks
  := by
  obtain ⟨hdirs, hfiles, hmade⟩ := save_spec hok
  rw [if_pos hch] at hfiles
  have hmade := hmade hch
  have hprops : (db.save d).2.files (db.dir, .props) = propsFile db.worldProps := by
    rw [hfiles, Function.update_of_ne (by simp), Function.update_self]
  have hranked : (db.save d).2.files (db.dir, .pchunks) = pchunksFile db.rankedChunks := by
    rw [hfiles, Function.update_self]
  constructor
  case props =>
    intro key
    rw [savedProps, hdirs, hprops]
    split
    case isTrue => exact lookup_parseProps hline key
    case isFalse hd =>
      have hempty : db.worldProps.entries = [] := by
        by_contra hne
        obtain hnil | hmade := hmade (Or.inl (List.length_pos_iff.mpr hne))
        · exact hdir hnil
        · exact hd hmade
      rw [AList.lookup_empty, AList.lookup, hempty]
      rfl
  case ranked =>
    intro pos
    by_cases hd : d.dirs db.dir
    · exact mem_savedRanked (hdirs ▸ hd) hranked pos
    · have hempty : db.rankedChunks = [] := by
        by_contra hne
        obtain hnil | hmade := hmade (Or.inr (List.length_pos_iff.mpr hne))
        · exact hdir hnil
        · exact hd hmade
      rw [savedRanked, hdirs, if_neg hd, hempty]

/-- A database is opened with the properties and protections the files hold. -/
theorem new_saved {dir : Bytes} {d : Disk} (h : (new dir d).2.intact) :
  (new dir d).1.worldProps = savedProps dir d ∧ (new dir d).1.rankedChunks = savedRanked dir d ∧
    (new dir d).1.changedPropsOrProtects = false
  := new_of_intact h

end Database

end Owop
