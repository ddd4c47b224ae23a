import OwopServer.Arguments
import OwopServer.Database.Props
import OwopServer.Library.Runs

/-!
# Settings of a world across a reload

The properties of a world are set with the command `/setprop` and its chunks protected and
released with a message.  Both are written when the database is saved, and read when it is
opened again.
-/

namespace Owop

/-- What the command `/setprop` does to the database of the world, given all its
arguments. -/
def Database.setpropArgs (db : Database) (args : List Bytes) : Database :=
  if args.length > 2 then db.setProp (args.getD 1 []) (Commands.joinArgs args 2)
  else if args.length = 2 then db.setProp (args.getD 1 []) []
  else db

/-- A change of the settings of a world, or a save of its database. -/
inductive SettingOp where
  /-- the text of a command -/
  | command (line : Bytes)
  | protect (x y : Int32) (state : Bool)
  | save

namespace Database

/-! ### Settings the files can hold -/

/-- No property contains a line break. -/
def NoNewline (db : Database) : Prop :=
  ∀ key value, db.worldProps.lookup key = some value → 10 ∉ key ∧ 10 ∉ value

/-- No key contains a space. -/
def NoSpace (db : Database) : Prop := ∀ key value, db.worldProps.lookup key = some value → 32 ∉ key

/-- What is read of a file of properties has no line break, and no space in a key. -/
theorem lookup_parseProps_oneLine {f key value : Bytes}
    (h : (parseProps f ∅).lookup key = some value) :
  OneLine ⟨key, value⟩
  := by
  have hlines : ∀ line ∈ f.splitOn 10, 10 ∉ line := fun line => Bytes.notMem_of_mem_splitOn
  rw [parseProps] at h
  generalize f.splitOn 10 = lines at h hlines
  have hall : ∀ (props : AList fun _ : Bytes => Bytes),
      (∀ key value, props.lookup key = some value → OneLine ⟨key, value⟩) →
      ∀ key value, (lines.foldl (fun props prop =>
        if 32 ∈ prop then
          props.insert (prop.takeWhile (· != 32))
            (prop.drop ((prop.takeWhile (· != 32)).length + 1))
        else props) props).lookup key = some value → OneLine ⟨key, value⟩ := by
    clear h
    induction lines with
    | nil => exact fun props h => h
    | cons line lines ih =>
        intro props hprops
        rw [List.foldl_cons]
        apply ih fun line' hline' => hlines line' (List.mem_cons_of_mem line hline')
        have hline := hlines line List.mem_cons_self
        intro key value hlookup
        split at hlookup
        case isFalse => exact hprops key value hlookup
        case isTrue =>
          by_cases hkey : key = line.takeWhile (· != 32)
          · rw [hkey, AList.lookup_insert] at hlookup
            obtain rfl := Option.some.inj hlookup
            refine ⟨fun hmem => hline ?_, fun hmem => ?_, fun hmem => hline ?_⟩
            · rw [hkey] at hmem
              exact List.takeWhile_subset _ hmem
            · rw [hkey] at hmem
              simpa using List.mem_takeWhile_imp hmem
            · exact List.mem_of_mem_drop hmem
          · rw [AList.lookup_insert_ne hkey] at hlookup
            exact hprops key value hlookup
  refine hall ∅ ?_ key value h
  intro key value hlookup
  rw [AList.lookup_empty] at hlookup
  cases hlookup

/-- The properties of a database as it is written and read back. -/
def readBack (props : AList fun _ : Bytes => Bytes) : AList fun _ : Bytes => Bytes :=
  parseProps ((propsFile props).getD []) ∅

/-- The properties are read back as they are exactly when none contains a line break. -/
theorem readBack_iff {db : Database} (h : db.NoSpace) :
  (∀ key, (readBack db.worldProps).lookup key = db.worldProps.lookup key) ↔ db.NoNewline
  := by
  constructor
  · intro heq key value hlookup
    rw [← heq] at hlookup
    have hone := lookup_parseProps_oneLine hlookup
    exact ⟨hone.1, hone.2.2⟩
  · intro hnone key
    apply lookup_parseProps
    intro p hp
    have hlookup : db.worldProps.lookup p.1 = some p.2 := AList.mem_lookup_iff.mpr hp
    obtain ⟨hkey, hvalue⟩ := hnone p.1 p.2 hlookup
    exact ⟨hkey, h p.1 p.2 hlookup, hvalue⟩

/-! ### Runs of changes -/

/-- The database has no key with a space after a change either. -/
theorem NoSpace.setProp {db : Database} (h : db.NoSpace) {key : Bytes} (hkey : 32 ∉ key)
    (value : Bytes) :
  (db.setProp key value).NoSpace
  := by
  intro key' value' hlookup
  by_cases heq : key' = key
  · rw [heq]
    exact hkey
  · apply h key' value'
    rw [Database.setProp] at hlookup
    dsimp only at hlookup
    split at hlookup
    · rwa [AList.lookup_erase_ne heq] at hlookup
    · rwa [AList.lookup_insert_ne heq] at hlookup

theorem NoSpace.setpropArgs {db : Database} (h : db.NoSpace) {args : List Bytes}
    (hargs : ∀ arg ∈ args, 32 ∉ arg) :
  (db.setpropArgs args).NoSpace
  := by
  have hkey : 32 ∉ args.getD 1 [] := by
    rw [List.getD_eq_getElem?_getD]
    cases hget : args[1]? with
    | none => exact List.not_mem_nil
    | some arg => exact hargs arg (List.mem_of_getElem? hget)
  rw [Database.setpropArgs]
  split
  · exact h.setProp hkey _
  · split
    · exact h.setProp hkey _
    · exact h

variable [Platform]

/-- The database and its files after a change.  Only the command `/setprop` changes them. -/
def settingStep (s : Database × Disk) : SettingOp → Database × Disk
  | .command line =>
      if (Commands.splitArgs line).head? = some (Bytes.ofString "setprop") then
        (s.1.setpropArgs (Commands.splitArgs line), s.2)
      else s
  | .protect x y state => (s.1.setChunkProtection x y state, s.2)
  | .save => s.1.save s.2

/-- The properties and protections of the database are in its files, as far as they can be
read back, unless they are marked as changed. -/
structure Current (dir : Bytes) (s : Database × Disk) : Prop where
  located : s.1.dir = dir
  made : s.2.dirs dir
  noSpace : s.1.NoSpace
  props : s.1.changedPropsOrProtects = false →
    ∀ key, (savedProps dir s.2).lookup key = (readBack s.1.worldProps).lookup key
  ranked : s.1.changedPropsOrProtects = false →
    ∀ pos, pos ∈ savedRanked dir s.2 ↔ pos ∈ s.1.rankedChunks

/-- A database opened on a directory is up to date. -/
theorem current_new {dir : Bytes} {d : Disk} (hdir : d.dirs dir) (hok : (new dir d).2.intact) :
  Current dir (new dir d)
  := by
  obtain ⟨hprops, hranked, -⟩ := new_saved hok
  obtain ⟨hfiles, hdirs, -⟩ := new_spec dir d
  have hone : ∀ key value, (new dir d).1.worldProps.lookup key = some value →
      OneLine ⟨key, value⟩ := by
    intro key value hlookup
    rw [hprops, savedProps, if_pos hdir] at hlookup
    exact lookup_parseProps_oneLine hlookup
  have hsaved : savedProps dir (new dir d).2 = (new dir d).1.worldProps := by
    rw [hprops, savedProps, savedProps, hdirs, hfiles]
  have hspace : (new dir d).1.NoSpace := fun key value hlookup => (hone key value hlookup).2.1
  constructor
  case located => exact (new_within ∅ dir d).2
  case made =>
    rw [hdirs]
    exact hdir
  case noSpace => exact hspace
  case props =>
    intro _ key
    rw [hsaved]
    refine ((readBack_iff hspace).mpr ?_ key).symm
    intro key' value hlookup
    exact ⟨(hone key' value hlookup).1, (hone key' value hlookup).2.2⟩
  case ranked =>
    intro _ pos
    rw [hranked, savedRanked, savedRanked, hdirs, hfiles]

/-- A save brings the files up to date. -/
theorem Current.save {dir : Bytes} {s : Database × Disk} (h : Current dir s)
    (hok : (s.1.save s.2).2.intact) :
  Current dir (s.1.save s.2)
  := by
  have hfst := save_fst s.1 s.2
  obtain ⟨hdirs, hfiles, -⟩ := save_spec hok
  have hlocated := h.located
  cases hch : s.1.changedPropsOrProtects with
  | false =>
      have hsame : s.1.save s.2 = s := by
        rw [save_eq, if_neg (by rw [hch]; exact Bool.false_ne_true)]
      rw [hsame]
      exact h
  | true =>
      have hmade : (s.1.save s.2).2.dirs dir := by
        rw [hdirs]
        exact h.made
      rw [if_pos hch, hlocated] at hfiles
      constructor
      case located => rw [hfst, ← hlocated]
      case made => exact hmade
      case noSpace =>
        rw [hfst]
        exact h.noSpace
      case props =>
        intro _ key
        rw [savedProps, if_pos hmade, hfiles, Function.update_of_ne (by simp),
          Function.update_self, hfst, readBack]
      case ranked =>
        intro _ pos
        rw [hfst]
        apply mem_savedRanked hmade
        rw [hfiles, Function.update_self]

omit [Platform] in
/-- A database marked as changed may differ from its files. -/
theorem Current.change {dir : Bytes} {s : Database × Disk} {db : Database} (h : Current dir s)
    (hdir : db.dir = s.1.dir) (hspace : db.NoSpace) (hch : db.changedPropsOrProtects = true) :
  Current dir (db, s.2)
  := by
  have hnot : ¬ db.changedPropsOrProtects = false := by
    rw [hch]
    exact Bool.true_eq_false_eq_False
  constructor
  case located => exact hdir.trans h.located
  case made => exact h.made
  case noSpace => exact hspace
  case props => exact fun hno => absurd hno hnot
  case ranked => exact fun hno => absurd hno hnot

theorem Current.step {dir : Bytes} {s : Database × Disk} (h : Current dir s) (op : SettingOp)
    (hok : (settingStep s op).2.intact) :
  Current dir (settingStep s op)
  := by
  cases op with
  | save => exact h.save hok
  | protect x y state => exact h.change rfl h.noSpace rfl
  | command line =>
      have hargs : ∀ arg ∈ Commands.splitArgs line, 32 ∉ arg :=
        fun arg => Commands.space_notMem_splitArgs
      have hspace := h.noSpace.setpropArgs hargs
      rw [settingStep]
      split
      case isFalse => exact h
      case isTrue =>
        generalize hdb : s.1.setpropArgs (Commands.splitArgs line) = db at hspace ⊢
        rw [setpropArgs] at hdb
        split at hdb
        case isTrue => exact h.change (by rw [← hdb]; rfl) hspace (by rw [← hdb]; rfl)
        case isFalse =>
          split at hdb
          case isTrue => exact h.change (by rw [← hdb]; rfl) hspace (by rw [← hdb]; rfl)
          case isFalse =>
            rw [← hdb]
            exact h

/-- A failure is not forgotten. -/
theorem intact_of_settingStep {s : Database × Disk} {op : SettingOp}
    (hok : (settingStep s op).2.intact) :
  s.2.intact
  := by
  cases op with
  | save => exact (save_within s.1 s.2).intact hok
  | protect x y state => exact hok
  | command line =>
      rw [settingStep] at hok
      split at hok
      · exact hok
      · exact hok

theorem intact_of_run {s : Database × Disk} {ops : List SettingOp}
    (hok : (Runs.run settingStep s ops).2.intact) :
  s.2.intact
  := by
  induction ops generalizing s with
  | nil => exact hok
  | cons op ops ih => exact intact_of_settingStep (ih hok)

/-- The files are up to date after every run of changes. -/
theorem Current.run {dir : Bytes} {s : Database × Disk} (h : Current dir s) (ops : List SettingOp)
    (hok : (Runs.run settingStep s ops).2.intact) :
  Current dir (Runs.run settingStep s ops)
  := by
  induction ops generalizing s with
  | nil => exact h
  | cons op ops ih => exact ih (h.step op (intact_of_run hok)) hok

omit [Platform] in
/-- Two databases give the same value for each key, whatever the default, when they have the
same properties. -/
theorem getProp_eq_iff (db db' : Database) :
  (∀ key defval, db.getProp key defval = db'.getProp key defval)
    ↔ ∀ key, db.worldProps.lookup key = db'.worldProps.lookup key
  := by
  constructor
  · intro h key
    have hdefault := fun defval => h key defval
    simp only [getProp] at hdefault
    cases hl : db.worldProps.lookup key with
    | none =>
        cases hl' : db'.worldProps.lookup key with
        | none => rfl
        | some value =>
            have hne := hdefault (0 :: value)
            rw [hl, hl'] at hne
            exact absurd hne (by simp)
    | some value =>
        cases hl' : db'.worldProps.lookup key with
        | none =>
            have hne := hdefault (0 :: value)
            rw [hl, hl'] at hne
            exact absurd hne (by simp)
        | some value' =>
            have heq := hdefault []
            rw [hl, hl'] at heq
            rw [show value = value' from heq]
  · intro h key defval
    rw [getProp, getProp, h]

/-- The settings of a world survive that its database is saved or destroyed and opened again
exactly when no property it has then contains a line break. -/
theorem settings_survive_iff (dir : Bytes) (d : Disk) (hdir : d.dirs dir) (ops : List SettingOp)
    (d' : Disk) :
  let s := Runs.run settingStep (new dir d) ops
  (d' = (s.1.save s.2).2 ∨ d' = s.1.delete s.2) → (new dir d').2.intact →
    (((∀ key defval, (new dir d').1.getProp key defval = s.1.getProp key defval) ∧
        ∀ x y, (new dir d').1.getChunkProtection x y = s.1.getChunkProtection x y)
      ↔ s.1.NoNewline)
  := by
  intro s hd' hok
  have hdisk : d' = (s.1.save s.2).2 := by
    obtain hsave | hdelete := hd'
    · exact hsave
    · exact hdelete
  have hsaved : (s.1.save s.2).2.intact := by
    rw [← hdisk]
    exact (new_within ∅ dir d').1.intact hok
  have hrun : s.2.intact := (save_within s.1 s.2).intact hsaved
  have hcur := (current_new hdir (intact_of_run hrun)).run ops hrun
  have hfiles := hcur.save hsaved
  have hclean : (s.1.save s.2).1.changedPropsOrProtects = false := by rw [save_fst]
  obtain ⟨hprops, hranked, -⟩ := new_saved hok
  have hread := hfiles.props hclean
  have hpos := hfiles.ranked hclean
  rw [save_fst, ← hdisk] at hread hpos
  dsimp only at hread hpos
  rw [getProp_eq_iff, ← readBack_iff hcur.noSpace, hprops]
  constructor
  · rintro ⟨hsame, -⟩ key
    rw [← hread]
    exact hsame key
  · intro hsame
    constructor
    · intro key
      rw [hread]
      exact hsame key
    · intro x y
      rw [getChunkProtection, getChunkProtection, hranked]
      exact decide_eq_decide.mpr (hpos (x, y))

/-- A disk with a directory and no file. -/
def emptyWorld : Disk := Disk.empty fun _ => true

omit [Platform] in
/-- A property of one line and a protected chunk are there again after a reload. -/
theorem settings_survive_iff_motd :
  letI := Platform.quiet
  let s := Runs.run settingStep (new [119, 47] emptyWorld)
    [.command (Bytes.ofString "setprop motd hello there"), .protect 1 2 true]
  let db := (new [119, 47] (s.1.save s.2).2).1
  (∀ key defval, db.getProp key defval = s.1.getProp key defval) ∧
    ∀ x y, db.getChunkProtection x y = s.1.getChunkProtection x y
  := by
  let _ := Platform.quiet
  apply (settings_survive_iff [119, 47] emptyWorld rfl
    [.command (Bytes.ofString "setprop motd hello there"), .protect 1 2 true] _ (Or.inl rfl)
    (by decide +kernel)).mpr
  have hentries : (Runs.run settingStep (new [119, 47] emptyWorld)
      [.command (Bytes.ofString "setprop motd hello there"),
        .protect 1 2 true]).1.worldProps.entries
      = [⟨Bytes.ofString "motd", Bytes.ofString "hello there"⟩] := by decide +kernel
  intro key value hlookup
  have hmem := AList.mem_lookup_iff.mp hlookup
  rw [hentries, List.mem_singleton] at hmem
  cases hmem
  exact ⟨by decide, by decide⟩

omit [Platform] in
/-- A property with a line break is read back only up to it. -/
theorem not_settings_survive :
  ¬ ∀ [Platform] (dir : Bytes) (d : Disk) (ops : List SettingOp), d.dirs dir →
    let s := Runs.run settingStep (new dir d) ops
    let d' := (s.1.save s.2).2
    (new dir d').2.intact →
      (∀ key defval, (new dir d').1.getProp key defval = s.1.getProp key defval) ∧
        ∀ x y, (new dir d').1.getChunkProtection x y = s.1.getChunkProtection x y
  := by
  intro h
  let _ := Platform.quiet
  have hprop := (h [119, 47] emptyWorld [.command (Bytes.ofString "setprop motd hello\nthere")] rfl
    (by decide +kernel)).1 (Bytes.ofString "motd") []
  exact absurd hprop (by decide +kernel)

end Database

end Owop
