import OwopServer.Server.Contents

/-!
# Requests out of range

`World::get_chunk` gives no chunk for coordinates out of range.  The operations that ask it first
do nothing then.  `World::setChunkProtection` asks it last: the database has the protection by
then.
-/

namespace Owop

open World (inRange)

/-- Setting a protection changes nothing in a database that has it and is not saved yet. -/
theorem Database.setChunkProtection_eq_self_iff (db : Database) (x y : Int32) (state : Bool) :
  db.setChunkProtection x y state = db ↔
    db.changedPropsOrProtects = true ∧ db.getChunkProtection x y = state
  := by
  constructor
  · intro heq
    have hset := db.getChunkProtection_set x y state (x, y)
    rw [heq, if_pos rfl] at hset
    have hchanged := congrArg Database.changedPropsOrProtects heq
    exact ⟨hchanged.symm, hset⟩
  · rintro ⟨hchanged, hset⟩
    have hranked : (db.setChunkProtection x y state).rankedChunks = db.rankedChunks := by
      rw [Database.getChunkProtection] at hset
      rw [Database.setChunkProtection]
      cases state with
      | true =>
          rw [decide_eq_true_eq] at hset
          exact List.insert_of_mem hset
      | false =>
          rw [decide_eq_false_iff_not] at hset
          apply List.filter_eq_self.mpr
          intro pos hpos
          rw [decide_eq_true_eq]
          rintro rfl
          exact hset hpos
    show { db with
      rankedChunks := (db.setChunkProtection x y state).rankedChunks
      changedPropsOrProtects := true } = db
    rw [hranked, ← hchanged]

namespace WorldAct

variable [Platform] {w w₀ : World} {d : Disk} {x y : Int32}

/-- An operation leaves the world, its database and the files exactly as they are, and sends
nothing. -/
structure Idle (a : WorldAct) (w : World) (d : Disk) : Prop where
  world : (a.run w d).1 = w
  files : (a.run w d).2.1 = d
  silent : (a.run w d).2.2.1 = []

/-- Without a chunk nothing is done, but for a protection that is set. -/
theorem run_of_not_inRange {a : WorldAct} (ha : a.wants w = some (w₀, (x, y)))
    (hout : ¬ inRange x y) :
  (∃ edits, a.run w d = (w, d, [], edits)) ∨ ∃ state, a = .setChunkProtection x y state ∧
    a.run w d = ({ w with db := w.db.setChunkProtection x y state }, d, [], [.protect x y state])
  := by
  have hnone := @World.getChunk_of_not_inRange _ w d x y hout
  cases a with
  | sendChunk ws x' y' =>
      cases ha
      left
      rw [run, World.sendChunk, hnone]
      exact ⟨_, rfl⟩
  | delChunk x' y' =>
      cases ha
      left
      rw [run, World.delChunk, hnone]
      exact ⟨_, rfl⟩
  | pasteChunk x' y' data =>
      cases ha
      left
      rw [run, World.pasteChunk, hnone]
      exact ⟨_, rfl⟩
  | putPx x' y' clr placerRank =>
      cases ha
      left
      rw [run, World.putPx, hnone]
      exact ⟨_, rfl⟩
  | setChunkProtection x' y' state =>
      cases ha
      right
      use state
      rw [run, World.setChunkProtection, World.getChunk_of_not_inRange hout]
      exact ⟨rfl, rfl⟩
  | setProp | reload | setDefaultRank | broadcast => cases ha

/-- An operation on a chunk, or a pixel of a chunk, whose coordinates are out of range changes
nothing and sends nothing, exactly if it does not set a protection that the database did not have,
or that it has saved. -/
theorem idle_iff_of_not_inRange (a : WorldAct) (w w₀ : World) (d : Disk) (x y : Int32)
    (ha : a.wants w = some (w₀, (x, y))) (hout : ¬ inRange x y) :
  a.Idle w d ↔ ∀ x y state, a = .setChunkProtection x y state →
    w.db.changedPropsOrProtects = true ∧ w.db.getChunkProtection x y = state
  := by
  obtain ⟨edits, hrun⟩ | ⟨state, rfl, hrun⟩ := @run_of_not_inRange _ w w₀ d x y a ha hout
  · constructor
    · rintro - x' y' state rfl
      rw [run, World.setChunkProtection] at hrun
      cases ha
      rw [World.getChunk_of_not_inRange hout] at hrun
      have hdb := congrArg (fun done => World.db done.1) hrun
      exact (Database.setChunkProtection_eq_self_iff _ _ _ _).mp hdb
    · intro _
      constructor
      case world => rw [hrun]
      case files => rw [hrun]
      case silent => rw [hrun]
  · constructor
    · rintro ⟨hworld, -, -⟩ x' y' state' ⟨⟩
      rw [hrun] at hworld
      exact (Database.setChunkProtection_eq_self_iff _ _ _ _).mp (congrArg World.db hworld)
    · intro hsame
      have hdb := (Database.setChunkProtection_eq_self_iff _ _ _ _).mpr (hsame x y state rfl)
      constructor
      case world =>
        rw [hrun]
        dsimp only
        rw [hdb]
      case files => rw [hrun]
      case silent => rw [hrun]

omit [Platform] in
/-- A chunk out of range is protected in a world that is just loaded. -/
theorem not_idle_of_not_inRange :
  ¬ ∀ [Platform] (a : WorldAct) (w w₀ : World) (d : Disk) (x y : Int32),
    a.wants w = some (w₀, (x, y)) → ¬ inRange x y → a.Idle w d
  := by
  intro h
  let _ := Platform.quiet
  let w := (World.new [] (Bytes.ofString "w") (Disk.empty fun _ => false)).1
  have hidle := @h Platform.quiet (.setChunkProtection (worldMaxChunkXY + 1) 0 true) w _
    (Disk.empty fun _ => false) _ _ rfl (by decide)
  have hchanged := congrArg (fun w => w.db.changedPropsOrProtects) hidle.world
  exact absurd hchanged (by decide +kernel)

omit [Platform] in
/-- A pixel beyond the last chunk is placed. -/
theorem idle_iff_of_not_inRange_px :
  let _ := Platform.quiet
  let w := (World.new [] (Bytes.ofString "w") (Disk.empty fun _ => false)).1
  ¬ inRange (chunkOf (-2147483648)) (chunkOf 0) ∧
    Idle (.putPx (-2147483648) 0 ⟨255, 0, 0⟩ .user) w (Disk.empty fun _ => false)
  := by
  let _ := Platform.quiet
  have hout : ¬ inRange (chunkOf (-2147483648)) (chunkOf 0) := by decide
  refine ⟨hout, ?_⟩
  apply (idle_iff_of_not_inRange (.putPx (-2147483648) 0 ⟨255, 0, 0⟩ .user) _ _ _ _ _ rfl hout).mpr
  intro x y state heq
  cases heq

end WorldAct

end Owop
