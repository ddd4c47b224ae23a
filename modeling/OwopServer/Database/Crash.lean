import OwopServer.Database.Store
import OwopServer.Region.Torn

/-!
# Stopping in the middle of a write

The process is stopped after a part of the changes a call of `set_chunk` makes, and the
database is opened again.  The lookup entry of a new chunk is written before its bytes, so
that a stop in between leaves an entry for bytes that are not there, and the next new chunk
of the region gets the same place.
-/

namespace Owop

namespace Database

/-! ### Runs of the database -/

/-- An operation on the chunks stored. -/
inductive StoreOp where
  | set (c : ChunkPos) (arr : Data)
  | get (c : ChunkPos) (arr : Data)

/-- What is to be read after an operation, if `m` was to be read before. -/
def StoreOp.note (m : ChunkPos → Option Data) : StoreOp → ChunkPos → Option Data
  | .set c arr => Function.update m c (some arr)
  | .get _ _ => m

/-- The data of the chunks set by the operations, for each chunk those set last. -/
def lastSet (ops : List StoreOp) : ChunkPos → Option Data := ops.foldl StoreOp.note fun _ => none

section Run

variable [Platform]

/-- An operation on the database. -/
def StoreOp.run (s : Database × Disk) : StoreOp → Database × Disk
  | .set c arr => s.1.setChunk s.2 c.1 c.2 arr
  | .get c arr => (s.1.getChunk s.2 c.1 c.2 arr).2.2

/-- The changes a call of `set_chunk` makes, in order. -/
def issued (s : Database × Disk) (c : ChunkPos) (arr : Data) : List FileOp :=
  (s.1.setChunk s.2 c.1 c.2 arr).2.log.drop s.2.log.length

/-- Every chunk with data in `m` is read back as these data, and no two chunks of a region
have a byte in common. -/
structure Kept (m : ChunkPos → Option Data) (s : Database × Disk) : Prop where
  reads : ∀ c arr data, m c = some data → (s.1.getChunk s.2 c.1 c.2 arr).2.2.2.intact →
    (s.1.getChunk s.2 c.1 c.2 arr).1 = true ∧ (s.1.getChunk s.2 c.1 c.2 arr).2.1 = data
  apart : ∀ r f, s.2.files (s.1.regionPath r) = some f → Region.Apart f

end Run

/-! ### Where the stop falls -/

/-- How a stop leaves the file of a region: well formed, with a chunk entered whose bytes are
not all there, or without a complete table or entry. -/
inductive Left where
  | whole
  | torn
  | broken
  deriving DecidableEq

/-- How the file of the region of `c` is left if `set_chunk` stops after `i` of its changes
and `p` bytes of the next one. -/
def left (db : Database) (d : Disk) (c : ChunkPos) (i p : ℕ) : Left :=
  let f := db.fileOf d (regionOf c)
  let made := (db.handleOps d (regionOf c)).length
  if Region.entry f (slotOf c) ≠ 0 then .whole
  else if i < made then
    -- while the directory or the zeros of a new file are written
    if (d.files (db.regionPath (regionOf c))).isNone ∧ i + 1 = made ∧ p < 3072 then .broken
    else .whole
  else if i = made then
    -- while the lookup entry is written
    if f.length / 256 % 256 ^ p = 0 then .whole
    else if f.length / 256 % 256 ^ p = f.length / 256 then .torn
    else .broken
  else if i = made + 1 ∧ p < 768 then .torn
  else .whole

/-- Before a chunk of the region of `c` is set for the first time, `c` is set; the chunks with
data in `m` have been set already. -/
def Mends (c : ChunkPos) (m : ChunkPos → Option Data) : List StoreOp → Prop
  | [] => True
  | .get _ _ :: ops => Mends c m ops
  | .set c' _ :: ops => c' = c ∨ (regionOf c' = regionOf c → m c' ≠ none) ∧ Mends c m ops

/-- The stop falls outside the writing of the table and of a lookup entry, and if it falls
between the entry and the last byte of a new chunk, this chunk is set again before another new
one. -/
def Harmless (s : Database × Disk) (m : ChunkPos → Option Data) (c : ChunkPos) (i p : ℕ)
    (after : List StoreOp) : Prop :=
  left s.1 s.2 c i p = .whole ∨ left s.1 s.2 c i p = .torn ∧ Mends c m after

/-! ### After the stop -/

/-- The region files are well formed, but that of `c` may lack bytes of `c`. -/
def SoundBut (dir : Bytes) (d : Disk) (c : ChunkPos) : Prop :=
  ∀ r f, d.files (dir, .region r.1 r.2) = some f →
    Region.WF f ∨ r = regionOf c ∧ Region.Torn f (slotOf c)

/-- Well-formed files are so except for one entry. -/
theorem Sound.soundBut {dir : Bytes} {d : Disk} (h : Sound dir d) (c : ChunkPos) :
  SoundBut dir d c
  := fun r f hf => Or.inl (h r.1 r.2 f hf)

/-- The data in `m` are stored. -/
def Holds (dir : Bytes) (m : ChunkPos → Option Data) (d : Disk) : Prop :=
  ∀ c data, m c = some data → stored dir d c = some data

/-- One more chunk is stored. -/
theorem Holds.update {dir : Bytes} {m : ChunkPos → Option Data} {d d' : Disk} {c : ChunkPos}
    {arr : Data} (h : Holds dir m d)
    (hstored : stored dir d' = Function.update (stored dir d) c (some arr)) :
  Holds dir (Function.update m c (some arr)) d'
  := by
  intro c' data hdata
  rw [hstored]
  by_cases hc : c' = c
  · rw [hc, Function.update_self] at hdata ⊢
    exact hdata
  · rw [Function.update_of_ne hc] at hdata ⊢
    exact h c' data hdata

namespace SoundBut

variable {db : Database} {d : Disk} {c : ChunkPos}

/-- Region files have room for their tables. -/
theorem sized (h : SoundBut db.dir d c) (r : ChunkPos) :
  Region.Sized (db.fileOf d r)
  := by
  rw [fileOf]
  cases hf : d.files (db.regionPath r) with
  | none => exact wf_zero.sized
  | some f =>
      obtain hwf | ⟨-, htorn⟩ := h r f hf
      · exact hwf.sized
      · exact htorn.sized

/-- The entries of a region file do not overlap. -/
theorem apart (h : SoundBut db.dir d c) {r : ChunkPos} {f : Bytes}
    (hf : d.files (db.regionPath r) = some f) :
  Region.Apart f
  := by
  obtain hwf | ⟨-, htorn⟩ := h r f hf
  · exact hwf.apart
  · exact htorn.apart

/-- The place of a chunk begins inside the file. -/
theorem offset_le (h : SoundBut db.dir d c) {r : ChunkPos} {f : Bytes} {k : ℕ}
    (hf : d.files (db.regionPath r) = some f) (hk : k < 1024) :
  Region.offset f k ≤ f.length
  := by
  by_cases he : Region.entry f k = 0
  · rw [Region.offset, he]
    omega
  · obtain hwf | ⟨-, htorn⟩ := h r f hf
    · have hin := hwf.inside hk he
      omega
    · exact (htorn.inside (slotOf_lt c) hk he).2.1

/-- The changes of setting a chunk `c'`, which is not new in the region of `c` unless it is
`c` itself. -/
theorem setOps (h : SoundBut db.dir d c) {c' : ChunkPos} (arr : Data)
    (hc' : c' = c ∨ (regionOf c' = regionOf c → stored db.dir d c' ≠ none)) :
  SoundBut db.dir ((db.setOps d c' arr).foldl Disk.apply d) c ∧
    (c' = c → Sound db.dir ((db.setOps d c' arr).foldl Disk.apply d)) ∧
    stored db.dir ((db.setOps d c' arr).foldl Disk.apply d)
      = Function.update (stored db.dir d) c' (some arr)
  := by
  have hfiles := files_setOps db d c' arr
  have hother : ∀ r : ChunkPos, r ≠ regionOf c' →
      ((db.setOps d c' arr).foldl Disk.apply d).files (db.dir, .region r.1 r.2)
        = d.files (db.dir, .region r.1 r.2) := by
    intro r hr
    rw [hfiles, Function.update_of_ne]
    intro he
    exact hr (regionPath_inj db he)
  have hsame : ((db.setOps d c' arr).foldl Disk.apply d).files (db.regionPath (regionOf c'))
      = some (Region.put (db.fileOf d (regionOf c')) (slotOf c') arr) := by
    rw [hfiles, Function.update_self]
  have hkind : Region.WF (db.fileOf d (regionOf c')) ∨
      regionOf c' = regionOf c ∧ Region.Torn (db.fileOf d (regionOf c')) (slotOf c) := by
    rw [fileOf]
    cases hf : d.files (db.regionPath (regionOf c')) with
    | none => exact Or.inl wf_zero
    | some f => exact h (regionOf c') f hf
  obtain ⟨hput, hmended, hdata, hothers⟩ :
      (Region.WF (Region.put (db.fileOf d (regionOf c')) (slotOf c') arr) ∨
        regionOf c' = regionOf c ∧
          Region.Torn (Region.put (db.fileOf d (regionOf c')) (slotOf c') arr) (slotOf c)) ∧
      (c' = c → Region.WF (Region.put (db.fileOf d (regionOf c')) (slotOf c') arr)) ∧
      Region.chunkAt (Region.put (db.fileOf d (regionOf c')) (slotOf c') arr) (slotOf c')
        = some arr ∧
      ∀ k < 1024, k ≠ slotOf c' →
        Region.chunkAt (Region.put (db.fileOf d (regionOf c')) (slotOf c') arr) k
          = Region.chunkAt (db.fileOf d (regionOf c')) k := by
    obtain hwf | ⟨hr, htorn⟩ := hkind
    · obtain ⟨hput, hdata, hothers⟩ := hwf.put (slotOf_lt c') arr
      exact ⟨Or.inl hput, fun _ => hput, hdata, hothers⟩
    · by_cases hcc : c' = c
      · subst hcc
        obtain ⟨hput, hdata, hothers⟩ := htorn.put_same (slotOf_lt c') arr
        exact ⟨Or.inl hput, fun _ => hput, hdata, hothers⟩
      · have hk : slotOf c' ≠ slotOf c := fun hk => hcc (regionOf_slotOf_inj hr hk)
        have he : Region.entry (db.fileOf d (regionOf c')) (slotOf c') ≠ 0 := by
          obtain rfl | hset := hc'
          · exact absurd rfl hcc
          · intro he
            apply hset hr
            rw [stored_eq_fileOf rfl, Region.chunkAt, if_pos he]
        obtain ⟨hput, hdata, hothers⟩ :=
          htorn.put_other (slotOf_lt c) (slotOf_lt c') hk he arr
        exact ⟨Or.inr ⟨hr, hput⟩, fun hcc' => absurd hcc' hcc, hdata, hothers⟩
  and_intros
  · intro r f hf
    by_cases hr : r = regionOf c'
    · subst hr
      rw [← regionPath, hsame] at hf
      cases hf
      exact hput
    · rw [hother r hr] at hf
      exact h r f hf
  · intro hcc rx ry f hf
    by_cases hr : ((rx, ry) : ChunkPos) = regionOf c'
    · have hp : ((db.dir, .region rx ry) : Path) = db.regionPath (regionOf c') := by
        rw [← hr]
        rfl
      rw [hp, hsame] at hf
      cases hf
      exact hmended hcc
    · rw [hother (rx, ry) hr] at hf
      obtain hwf | ⟨hr', -⟩ := h (rx, ry) f hf
      · exact hwf
      · rw [← hcc] at hr'
        exact absurd hr' hr
  · exact stored_setOps_of rfl hdata hothers

end SoundBut

/-! ### Runs after the stop -/

section Run

variable [Platform]

/-- One operation. -/
theorem run_frame (op : StoreOp) (s : Database × Disk) :
  Frame s.1 s.2 (op.run s).1 (op.run s).2
  := by
  cases op with
  | set c arr => exact setChunk_frame s.1 s.2 c.1 c.2 arr
  | get c arr => exact getChunk_frame s.1 s.2 c.1 c.2 arr

/-- Several operations. -/
theorem foldl_run_frame (ops : List StoreOp) (s : Database × Disk) :
  Frame s.1 s.2 (ops.foldl StoreOp.run s).1 (ops.foldl StoreOp.run s).2
  := by
  induction ops generalizing s with
  | nil => exact Frame.refl s.1 s.2
  | cons op ops ih => exact (run_frame op s).trans (ih (op.run s))

/-- An operation that reads. -/
theorem SoundBut.get {s : Database × Disk} {c c' : ChunkPos} {arr : Data}
    (h : SoundBut s.1.dir s.2 c) (hfit : Fits s.1 s.2)
    (hok : (s.1.getChunk s.2 c'.1 c'.2 arr).2.2.2.intact) :
  ∃ db' t, s.1.getChunk s.2 c'.1 c'.2 arr = ((stored s.1.dir s.2 c').isSome,
      (stored s.1.dir s.2 c').getD arr, db', s.2.atTick t) ∧ Fits db' (s.2.atTick t)
  := getChunk_spec hfit (fun f hf => ⟨by
      have hsized := h.sized (regionOf c')
      rw [fileOf, hf] at hsized
      exact hsized, h.offset_le hf (slotOf_lt c')⟩) hok

/-- What a run keeps while the files are well formed. -/
theorem Sound.run (ops : List StoreOp) {s : Database × Disk} (m : ChunkPos → Option Data)
    (h : Sound s.1.dir s.2) (hfit : Fits s.1 s.2) (hm : Holds s.1.dir m s.2)
    (hok : (ops.foldl StoreOp.run s).2.intact) :
  Fits (ops.foldl StoreOp.run s).1 (ops.foldl StoreOp.run s).2 ∧
    Sound s.1.dir (ops.foldl StoreOp.run s).2 ∧
    Holds s.1.dir (ops.foldl StoreOp.note m) (ops.foldl StoreOp.run s).2
  := by
  induction ops generalizing s m with
  | nil => exact ⟨hfit, h, hm⟩
  | cons op ops ih =>
      have hok' : (op.run s).2.intact := (foldl_run_frame ops (op.run s)).within.intact hok
      have hdir : (op.run s).1.dir = s.1.dir := (run_frame op s).props.dir
      rw [List.foldl_cons, List.foldl_cons, ← hdir]
      cases op with
      | set c arr =>
          obtain ⟨db', d', heq, hfit', hs', hstored⟩ := Sound.setChunk h hfit hok'
          have hrun : StoreOp.run s (.set c arr) = (db', d') := heq
          rw [List.foldl_cons, hrun] at hok
          rw [hrun] at hdir ⊢
          dsimp only at hdir ⊢
          apply ih _ _ hfit' _ hok
          · rw [hdir]
            exact hs'
          · rw [hdir]
            exact hm.update hstored
      | get c arr =>
          obtain ⟨db', t, heq, hfit'⟩ := Sound.getChunk h hfit hok'
          have hrun : StoreOp.run s (.get c arr) = (db', s.2.atTick t) := by
            rw [StoreOp.run, heq]
          rw [List.foldl_cons, hrun] at hok
          rw [hrun] at hdir ⊢
          dsimp only at hdir ⊢
          apply ih _ _ hfit' _ hok
          · rw [hdir]
            exact h
          · rw [hdir]
            exact hm

/-- What a run keeps while the bytes of `c` may be missing. -/
theorem SoundBut.run {ops : List StoreOp} {s : Database × Disk} {c : ChunkPos}
    {m : ChunkPos → Option Data} (known : ChunkPos → Option Data) (h : SoundBut s.1.dir s.2 c)
    (hfit : Fits s.1 s.2)
    (hm : Holds s.1.dir m s.2) (hknown : ∀ c', c' ≠ c → known c' ≠ none → m c' ≠ none)
    (hmends : Mends c known ops) (hok : (ops.foldl StoreOp.run s).2.intact) :
  Fits (ops.foldl StoreOp.run s).1 (ops.foldl StoreOp.run s).2 ∧
    SoundBut s.1.dir (ops.foldl StoreOp.run s).2 c ∧
    Holds s.1.dir (ops.foldl StoreOp.note m) (ops.foldl StoreOp.run s).2
  := by
  induction ops generalizing s m with
  | nil => exact ⟨hfit, h, hm⟩
  | cons op ops ih =>
      have hok' : (op.run s).2.intact := (foldl_run_frame ops (op.run s)).within.intact hok
      have hdir : (op.run s).1.dir = s.1.dir := (run_frame op s).props.dir
      rw [List.foldl_cons, List.foldl_cons, ← hdir]
      cases op with
      | set c' arr =>
          obtain ⟨db', t, heq, hfit'⟩ := setChunk_spec hfit (h.sized (regionOf c')) hok'
          have hrun : StoreOp.run s (.set c' arr)
            = (db', ((s.1.setOps s.2 c' arr).foldl Disk.apply s.2).atTick t) := heq
          rw [List.foldl_cons, hrun] at hok
          rw [hrun] at hdir ⊢
          dsimp only at hdir ⊢
          by_cases hcc : c' = c
          · obtain ⟨-, hsound, hstored⟩ := h.setOps arr (Or.inl hcc)
            rw [← hdir] at hsound hstored
            obtain ⟨hf, hs, hh⟩ := Sound.run ops (Function.update m c' (some arr))
              (hsound hcc) hfit' (Holds.update (by rw [hdir]; exact hm) hstored) hok
            exact ⟨hf, hs.soundBut c, hh⟩
          · obtain hcc' | ⟨hold, hmends⟩ := hmends
            · exact absurd hcc' hcc
            · have hset : regionOf c' = regionOf c → stored s.1.dir s.2 c' ≠ none := by
                intro hr hnone
                apply hknown c' hcc (hold hr)
                cases hmc : m c' with
                | none => rfl
                | some data =>
                    rw [hm c' data hmc] at hnone
                    cases hnone
              obtain ⟨hbut, -, hstored⟩ := h.setOps arr (Or.inr hset)
              rw [← hdir] at hbut hstored
              apply ih hbut hfit' (Holds.update (by rw [hdir]; exact hm) hstored) _ hmends hok
              intro c'' hne hk
              show Function.update m c' (some arr) c'' ≠ none
              by_cases he : c'' = c'
              · rw [he, Function.update_self]
                simp
              · rw [Function.update_of_ne he]
                exact hknown c'' hne hk
      | get c' arr =>
          obtain ⟨db', t, heq, hfit'⟩ := h.get hfit hok'
          have hrun : StoreOp.run s (.get c' arr) = (db', s.2.atTick t) := by
            rw [StoreOp.run, heq]
          rw [List.foldl_cons, hrun] at hok
          rw [hrun] at hdir ⊢
          dsimp only at hdir ⊢
          apply ih _ hfit' _ hknown hmends hok
          · rw [hdir]
            exact h
          · rw [hdir]
            exact hm

end Run

/-! ### The stop -/

/-- A file that differs from that of the region of `c` in the chunk `c` only. -/
theorem stop_of_file {db : Database} {d d' : Disk} {c : ChunkPos} {g : Bytes}
    (hs : Sound db.dir d)
    (hfiles : d'.files = Function.update d.files (db.regionPath (regionOf c)) (some g))
    (hg : Region.WF g ∨ Region.Torn g (slotOf c))
    (hothers : ∀ k < 1024, k ≠ slotOf c →
      Region.chunkAt g k = Region.chunkAt (db.fileOf d (regionOf c)) k) :
  SoundBut db.dir d' c ∧ (Region.WF g → Sound db.dir d') ∧
    ∀ c' ≠ c, stored db.dir d' c' = stored db.dir d c'
  := by
  have hother : ∀ r : ChunkPos, r ≠ regionOf c →
      d'.files (db.dir, .region r.1 r.2) = d.files (db.dir, .region r.1 r.2) := by
    intro r hr
    rw [hfiles, Function.update_of_ne]
    intro he
    exact hr (regionPath_inj db he)
  have hsame : d'.files (db.regionPath (regionOf c)) = some g := by
    rw [hfiles, Function.update_self]
  and_intros
  · intro r f hf
    by_cases hr : r = regionOf c
    · subst hr
      rw [← regionPath, hsame] at hf
      cases hf
      exact hg.imp id fun ht => ⟨rfl, ht⟩
    · rw [hother r hr] at hf
      exact Or.inl (hs r.1 r.2 f hf)
  · intro hwf rx ry f hf
    by_cases hr : ((rx, ry) : ChunkPos) = regionOf c
    · have hp : ((db.dir, .region rx ry) : Path) = db.regionPath (regionOf c) := by
        rw [← hr]
        rfl
      rw [hp, hsame] at hf
      cases hf
      exact hwf
    · rw [hother (rx, ry) hr] at hf
      exact hs rx ry f hf
  · intro c' hc
    by_cases hr : regionOf c' = regionOf c
    · have hk : slotOf c' ≠ slotOf c := fun hk => hc (regionOf_slotOf_inj hr hk)
      rw [stored_eq_fileOf (d := d) hr, ← hothers _ (slotOf_lt c') hk, stored, hr, ← regionPath, hsame]
      rfl
    · rw [stored, stored, hother _ hr]

/-- A stop while the directory or the table of a region is made. -/
theorem stopped_handleOps {db : Database} {d : Disk} {c : ChunkPos} {i p : ℕ}
    (hi : i < (db.handleOps d (regionOf c)).length)
    (hp : ¬ ((d.files (db.regionPath (regionOf c))).isNone ∧
      i + 1 = (db.handleOps d (regionOf c)).length ∧ p < 3072)) :
  (d.stopped (db.handleOps d (regionOf c)) i p).files = d.files ∨
    (d.stopped (db.handleOps d (regionOf c)) i p).files
      = Function.update d.files (db.regionPath (regionOf c))
        (some (db.fileOf d (regionOf c)))
  := by
  have hzero : 3072 ≤ p → zero.take p = zero := by
    intro h
    apply List.take_of_length_le
    rw [zero, List.length_replicate]
    exact h
  rw [fileOf]
  rw [handleOps] at hi hp ⊢
  generalize db.regionPath (regionOf c) = path at *
  cases hf : d.files path with
  | some f =>
      left
      rw [hf] at hi
      rw [Option.isSome_some, if_pos rfl, List.append_nil] at hi ⊢
      cases hc : db.createdDir with
      | true => simp [hc] at hi
      | false =>
          rw [hc, if_neg (by simp), List.length_singleton] at hi
          obtain rfl : i = 0 := by omega
          rfl
  | none =>
      rw [hf] at hi hp
      have hmade : ∀ d' : Disk, d'.files = d.files → ∀ i < 2, ¬ (i + 1 = 2 ∧ p < 3072) →
          (d'.stopped [.create path, .write path 0 zero] i p).files = d.files ∨
          (d'.stopped [.create path, .write path 0 zero] i p).files
            = Function.update d.files path (some zero) := by
        intro d' hd' i hi hp
        obtain rfl | rfl : i = 0 ∨ i = 1 := by omega
        · left
          rw [← hd']
          rfl
        · right
          rw [Disk.stopped_cons_succ, Disk.stopped_write, hzero (by omega), ← hd']
          exact files_make d' path
      cases hc : db.createdDir with
      | true =>
          rw [hc] at hi hp
          exact hmade d rfl i hi fun h => hp ⟨rfl, h⟩
      | false =>
          rw [hc] at hi hp
          cases i with
          | zero => exact Or.inl rfl
          | succ i =>
              apply hmade (d.apply (.mkdir db.dir)) rfl i
              · exact Nat.lt_of_succ_lt_succ hi
              · rintro ⟨hlast, hlt⟩
                exact hp ⟨rfl, congrArg Nat.succ hlast, hlt⟩

/-- A stop while a chunk is put into its file. -/
theorem stopped_chunkOps {d : Disk} {path : Path} {f : Bytes} {k j p : ℕ} (arr : Data)
    (hf : d.files path = some f) (hwf : Region.WF f) (hk : k < 1024)
    (hentry : Region.entry f k = 0 → j = 0 → f.length / 256 % 256 ^ p = 0 ∨
      f.length / 256 % 256 ^ p = f.length / 256) :
  ∃ g, (d.stopped (chunkOps path f k arr) j p).files = Function.update d.files path (some g) ∧
    (Region.WF g ∨ Region.entry f k = 0 ∧
      (j = 0 ∧ f.length / 256 % 256 ^ p ≠ 0 ∨ j = 1 ∧ p < 768) ∧ Region.Torn g k) ∧
    ∀ k' < 1024, k' ≠ k → Region.chunkAt g k' = Region.chunkAt f k'
  := by
  have hall := files_chunkOps k arr hf
  have hput := hwf.put hk arr
  have hlast : ∀ ops : List FileOp, ∀ j, ops.length ≤ j →
      d.stopped ops j p = ops.foldl Disk.apply d := by
    intro ops j hj
    rw [Disk.stopped, List.take_of_length_le hj, List.getElem?_eq_none hj]
  rw [chunkOps] at hall ⊢
  by_cases he : Region.entry f k = 0
  · rw [if_pos he] at hall ⊢
    obtain _ | _ | j := j
    · rw [Disk.stopped_write]
      simp only [Disk.apply, hf, Option.map_some]
      rw [Region.splice_take_entry hwf.sized hk he]
      by_cases hv : f.length / 256 % 256 ^ p = 0
      · rw [hv, Region.splice_zero_entry hwf.sized hk he]
        exact ⟨f, rfl, Or.inl hwf, fun _ _ _ => rfl⟩
      · obtain hv' | hv' := hentry he rfl
        · exact absurd hv' hv
        · obtain ⟨htorn, hothers⟩ := Region.Torn.of_append [] hwf hk he (by simp)
          rw [Bytes.splice_nil] at htorn hothers
          rw [hv', ← Region.enter]
          exact ⟨_, rfl, Or.inr ⟨he, Or.inl ⟨trivial, by rw [← hv']; exact hv⟩, htorn⟩, hothers⟩
    · rw [Disk.stopped_cons_succ, Disk.stopped_write]
      simp only [Disk.apply, hf, Option.map_some, Function.update_self, Function.update_idem]
      rw [← Region.enter]
      by_cases hp : p < 768
      · obtain ⟨htorn, hothers⟩ := Region.Torn.of_append (arr.toList.take p) hwf hk he
          (by rw [List.length_take]; omega)
        exact ⟨_, rfl, Or.inr ⟨he, Or.inr ⟨trivial, hp⟩, htorn⟩, hothers⟩
      · obtain ⟨hwf', -, hothers⟩ := hwf.append hk he arr
        rw [List.take_of_length_le (by rw [Vector.length_toList]; omega)]
        exact ⟨_, rfl, Or.inl hwf', hothers⟩
    · rw [hlast _ _ (by simp), hall]
      exact ⟨_, rfl, Or.inl hput.1, hput.2.2⟩
  · rw [if_neg he] at hall ⊢
    cases j with
    | zero =>
        rw [Disk.stopped_write]
        simp only [Disk.apply, hf, Option.map_some]
        have hlen : (arr.toList.take p).length ≤ 768 := by
          rw [List.length_take, Vector.length_toList]
          omega
        obtain ⟨hwf', hothers⟩ := hwf.rewrite hk he hlen
        exact ⟨_, rfl, Or.inl hwf', hothers⟩
    | succ j =>
        rw [hlast _ _ (by simp), hall]
        exact ⟨_, rfl, Or.inl hput.1, hput.2.2⟩

/-- A stop that does not break the table or an entry keeps what is stored of the other
chunks. -/
theorem stopped_spec {db : Database} {d : Disk} (hs : Sound db.dir d) (c : ChunkPos)
    (arr : Data) {i p : ℕ} (hleft : left db d c i p ≠ .broken) :
  SoundBut db.dir (d.stopped (db.setOps d c arr) i p) c ∧
    (left db d c i p = .whole → Sound db.dir (d.stopped (db.setOps d c arr) i p)) ∧
    ∀ c' ≠ c, stored db.dir (d.stopped (db.setOps d c arr) i p) c' = stored db.dir d c'
  := by
  have hwf := hs.fileOf (regionOf c)
  have hk := slotOf_lt c
  have hzero : Region.entry (db.fileOf d (regionOf c)) (slotOf c) ≠ 0 →
      (d.files (db.regionPath (regionOf c))).isNone = false := by
    intro he
    rw [Option.isNone_eq_false_iff, Option.isSome_iff_ne_none]
    intro hnone
    apply he
    rw [fileOf, hnone, Option.getD_none, zero]
    apply Region.entry_zeros
    omega
  simp only [left] at hleft ⊢
  by_cases hi : i < (db.handleOps d (regionOf c)).length
  · rw [setOps, Disk.stopped_append_left _ _ _ hi]
    have hp : ¬ ((d.files (db.regionPath (regionOf c))).isNone ∧
        i + 1 = (db.handleOps d (regionOf c)).length ∧ p < 3072) := by
      intro hp
      by_cases he : Region.entry (db.fileOf d (regionOf c)) (slotOf c) = 0
      · rw [if_neg (not_not.mpr he), if_pos hi, if_pos hp] at hleft
        exact hleft rfl
      · have hnone := hp.1
        rw [hzero he] at hnone
        cases hnone
    obtain hfiles | hfiles := stopped_handleOps hi hp
    · have hsound : Sound db.dir (d.stopped (db.handleOps d (regionOf c)) i p) := by
        intro rx ry f hf
        rw [hfiles] at hf
        exact hs rx ry f hf
      refine ⟨hsound.soundBut c, fun _ => hsound, ?_⟩
      intro c' _
      rw [stored, stored, hfiles]
    · obtain ⟨hbut, hsound, hsame⟩ := stop_of_file hs hfiles (Or.inl hwf) fun _ _ _ => rfl
      exact ⟨hbut, fun _ => hsound hwf, hsame⟩
  · rw [setOps, Disk.stopped_append_right _ _ _ (by omega)]
    have hfiles := files_handleOps db d (regionOf c)
    generalize (db.handleOps d (regionOf c)).foldl Disk.apply d = d₁ at *
    generalize hh : (db.handleOps d (regionOf c)).length = made at *
    have hf : d₁.files (db.regionPath (regionOf c)) = some (db.fileOf d (regionOf c)) := by
      rw [hfiles, Function.update_self]
    rw [if_neg hi] at hleft ⊢
    have hentry : Region.entry (db.fileOf d (regionOf c)) (slotOf c) = 0 → i - made = 0 →
        (db.fileOf d (regionOf c)).length / 256 % 256 ^ p = 0 ∨
        (db.fileOf d (regionOf c)).length / 256 % 256 ^ p
          = (db.fileOf d (regionOf c)).length / 256 := by
      intro he hj
      rw [if_neg (not_not.mpr he), if_pos (show i = made by omega)] at hleft
      by_contra hv
      rw [not_or] at hv
      rw [if_neg hv.1, if_neg hv.2] at hleft
      exact hleft rfl
    obtain ⟨g, hg, hkind, hothers⟩ := stopped_chunkOps arr hf hwf hk hentry
    rw [hfiles, Function.update_idem] at hg
    obtain ⟨hbut, hsound, hsame⟩ := stop_of_file hs hg (hkind.imp id fun h => h.2.2) hothers
    refine ⟨hbut, ?_, hsame⟩
    intro hwhole
    apply hsound
    obtain hwf' | ⟨he, hj, -⟩ := hkind
    · exact hwf'
    · rw [if_neg (not_not.mpr he)] at hwhole
      obtain ⟨hj, hv⟩ | ⟨hj, hp⟩ := hj
      · rw [if_pos (show i = made by omega), if_neg hv] at hwhole
        split at hwhole
        · cases hwhole
        · cases hwhole
      · rw [if_neg (show ¬ i = made by omega), if_pos ⟨by omega, hp⟩] at hwhole
        cases hwhole

/-! ### Chunks after a stop -/

section AfterStop

variable [Platform]

/-- The database in `dir` after the operations `before`. -/
def started (dir : Bytes) (d : Disk) (before : List StoreOp) : Database × Disk :=
  before.foldl StoreOp.run (new dir d)

/-- The database in `dir` after the operations `before`, a call of `set_chunk` for `c` stopped
after `i` changes and `p` bytes of the next one, and, opened again, the operations `after`. -/
def restarted (dir : Bytes) (d : Disk) (before : List StoreOp) (c : ChunkPos) (arr : Data)
    (i p : ℕ) (after : List StoreOp) : Database × Disk :=
  after.foldl StoreOp.run (new dir ((started dir d before).2.stopped
    (issued (started dir d before) c arr) i p))

/-- The data last set, but for the chunk `c` set in vain. -/
def promised (before : List StoreOp) (c : ChunkPos) (after : List StoreOp) :
    ChunkPos → Option Data :=
  after.foldl StoreOp.note (Function.update (lastSet before) c none)

/-- Before the stop the files are well formed and store what was set. -/
theorem started_spec {dir : Bytes} {d : Disk} {before : List StoreOp}
    (hnew : ∀ rx ry, d.files (dir, .region rx ry) = none)
    (hok : (started dir d before).2.intact) :
  Fits (started dir d before).1 (started dir d before).2 ∧
    Sound (started dir d before).1.dir (started dir d before).2 ∧
    Holds (started dir d before).1.dir (lastSet before) (started dir d before).2
  := by
  have hfiles := (new_spec dir d).1
  have hdir := (new_within ∅ dir d).2
  have hsound : Sound (new dir d).1.dir (new dir d).2 := by
    intro rx ry f hf
    rw [hdir, hfiles, hnew] at hf
    cases hf
  have hrun := hsound.run before (fun _ => none) (Fits.new dir d)
    (fun _ _ h => by cases h) hok
  have hsame := (foldl_run_frame before (new dir d)).props.dir
  rw [← hsame] at hrun
  exact hrun

/-- What `set_chunk` is about to write is listed by `setOps`. -/
theorem issued_eq {s : Database × Disk} {c : ChunkPos} {arr : Data} (hfit : Fits s.1 s.2)
    (hs : Sound s.1.dir s.2) (hok : (s.1.setChunk s.2 c.1 c.2 arr).2.intact) :
  issued s c arr = s.1.setOps s.2 c arr
  := by
  obtain ⟨db', t, heq, -⟩ := setChunk_spec hfit (hs.sized (regionOf c)) hok
  rw [issued, heq, Disk.atTick_log, Disk.foldl_apply_log, List.drop_left]

/-- Files that hold the data in `m` give them back. -/
theorem Kept.of_holds {s : Database × Disk} {m : ChunkPos → Option Data} {c : ChunkPos}
    (hfit : Fits s.1 s.2) (h : SoundBut s.1.dir s.2 c) (hm : Holds s.1.dir m s.2) :
  Kept m s
  := by
  constructor
  case reads =>
    intro c' arr data hdata hok
    obtain ⟨db', t, heq, -⟩ := h.get hfit hok
    rw [heq, hm c' data hdata]
    exact ⟨rfl, rfl⟩
  case apart => exact fun r f hf => h.apart hf

/-- Region files survive a harmless stop: after it, whatever operations follow, the chunks set
before and the chunks set since are read back, and no two chunks of a region have a byte in
common. -/
theorem kept_of_harmless {dir : Bytes} {d : Disk} {before : List StoreOp} {c : ChunkPos}
    {arr : Data} {i p : ℕ} {after : List StoreOp}
    (hnew : ∀ rx ry, d.files (dir, .region rx ry) = none)
    (hset : ((started dir d before).1.setChunk (started dir d before).2 c.1 c.2 arr).2.intact)
    (hstop : Harmless (started dir d before) (lastSet before) c i p after)
    (hok : (restarted dir d before c arr i p after).2.intact) :
  Kept (promised before c after) (restarted dir d before c arr i p after)
  := by
  have hbefore := (setChunk_frame (started dir d before).1 (started dir d before).2 c.1 c.2
    arr).within.intact hset
  obtain ⟨hfit, hsound, hholds⟩ := started_spec hnew hbefore
  have hdir : (started dir d before).1.dir = dir := by
    rw [started, (foldl_run_frame before (new dir d)).props.dir, (new_within ∅ dir d).2]
  have hleft : left (started dir d before).1 (started dir d before).2 c i p ≠ .broken := by
    obtain h | ⟨h, -⟩ := hstop
    · rw [h]
      decide
    · rw [h]
      decide
  obtain ⟨hbut, hwhole, hsame⟩ := stopped_spec hsound c arr hleft
  rw [restarted, issued_eq hfit hsound hset] at hok ⊢
  generalize started dir d before = s at *
  generalize s.2.stopped (s.1.setOps s.2 c arr) i p = d₂ at *
  obtain ⟨hfiles, -⟩ := new_spec dir d₂
  have hdir₂ := (new_within ∅ dir d₂).2
  rw [hdir] at hbut hwhole hsame hholds
  have hbut₂ : SoundBut (new dir d₂).1.dir (new dir d₂).2 c := by
    rw [hdir₂]
    intro r f hf
    rw [hfiles] at hf
    exact hbut r f hf
  have hm : Holds (new dir d₂).1.dir (Function.update (lastSet before) c none)
      (new dir d₂).2 := by
    intro c' data hdata
    by_cases hc : c' = c
    · rw [hc, Function.update_self] at hdata
      cases hdata
    · rw [Function.update_of_ne hc] at hdata
      have hstored : stored dir (new dir d₂).2 c' = stored dir d₂ c' := by
        rw [stored, stored, hfiles]
      rw [hdir₂, hstored, hsame c' hc]
      exact hholds c' data hdata
  have hrest : (after.foldl StoreOp.run (new dir d₂)).1.dir = (new dir d₂).1.dir :=
    (foldl_run_frame after (new dir d₂)).props.dir
  obtain hw | ⟨-, hmends⟩ := hstop
  · have hsound₂ : Sound (new dir d₂).1.dir (new dir d₂).2 := by
      rw [hdir₂]
      intro rx ry f hf
      rw [hfiles] at hf
      exact hwhole hw rx ry f hf
    obtain ⟨hfit', hsound', hholds'⟩ := hsound₂.run after _ (Fits.new dir d₂) hm hok
    rw [← hrest] at hsound' hholds'
    exact Kept.of_holds hfit' (hsound'.soundBut c) hholds'
  · obtain ⟨hfit', hbut', hholds'⟩ := hbut₂.run (lastSet before) (Fits.new dir d₂) hm
      (fun c' hne hk => by rw [Function.update_of_ne hne]; exact hk) hmends hok
    rw [← hrest] at hbut' hholds'
    exact Kept.of_holds hfit' hbut' hholds'

end AfterStop

/-- A stop before the data of a new chunk, which is then set again before another one. -/
theorem kept_of_harmless_torn :
  letI := Platform.quiet
  Kept (promised [] (0, 0) [.set (0, 0) (Data.fill 7), .set (1, 0) (Data.fill 8)])
    (restarted [97] (Disk.empty (· == [97])) [] (0, 0) (Data.fill 5) 3 0
      [.set (0, 0) (Data.fill 7), .set (1, 0) (Data.fill 8)])
  := by
  let _ := Platform.quiet
  apply kept_of_harmless
  · exact fun _ _ => rfl
  · decide +kernel
  · right
    exact ⟨by decide +kernel, Or.inl rfl⟩
  · decide +kernel

/-- A stop between the lookup entry and the data of the first chunk of a region, after which
another chunk is set: both have the same place. -/
theorem not_kept_after_stop :
  ¬ ∀ [Platform] (dir : Bytes) (d : Disk) (before : List StoreOp) (c : ChunkPos) (arr : Data)
      (i p : ℕ) (after : List StoreOp), (∀ rx ry, d.files (dir, .region rx ry) = none) →
    ((started dir d before).1.setChunk (started dir d before).2 c.1 c.2 arr).2.intact →
    (restarted dir d before c arr i p after).2.intact →
    Kept (promised before c after) (restarted dir d before c arr i p after)
  := by
  intro h
  let _ := Platform.quiet
  have hkept := h [97] (Disk.empty (· == [97])) [] (0, 0) (Data.fill 5) 3 0 [.set (1, 0) (Data.fill 7)]
    (fun _ _ => rfl) (by decide +kernel) (by decide +kernel)
  have hdir : (restarted [97] (Disk.empty (· == [97])) [] (0, 0) (Data.fill 5) 3 0
      [.set (1, 0) (Data.fill 7)]).1.dir = [97] := by
    decide +kernel
  have hplaces : ((restarted [97] (Disk.empty (· == [97])) [] (0, 0) (Data.fill 5) 3 0
      [.set (1, 0) (Data.fill 7)]).2.files ([97], .region 0 0)).map
        (fun f => (Region.entry f 0, Region.entry f 1)) = some (12, 12) := by
    decide +kernel
  generalize restarted [97] (Disk.empty (· == [97])) [] (0, 0) (Data.fill 5) 3 0
    [.set (1, 0) (Data.fill 7)] = s at hkept hdir hplaces
  obtain ⟨f, hf, hentries⟩ := Option.map_eq_some_iff.mp hplaces
  rw [Prod.mk.injEq] at hentries
  rw [← hdir] at hf
  have hapart := hkept.apart (0, 0) f hf 0 (by decide) 1 (by decide)
  rw [Region.offset, Region.offset, hentries.1, hentries.2] at hapart
  omega

end Database

end Owop
