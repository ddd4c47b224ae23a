import OwopServer.Server
import OwopServer.World.Loading

/-!
# What operations do to worlds

The operations that messages, commands and timers ask a world for come down to a few effects: a
chunk is looked for, and then its data or its protection may be changed; or a property is set; or
something else is changed that has nothing to do with chunks, properties and files.
-/

namespace Owop

open World (inRange schedUpdates)

/-- The chunk that is looked for, and the world it is looked for in. -/
def WorldAct.wants (w : World) : WorldAct → Option (World × ChunkPos)
  | .sendChunk _ x y => some (w, (x, y))
  | .delChunk x y => some (w, (x, y))
  | .pasteChunk x y _ => some (w, (x, y))
  | .putPx x y _ _ => some (w, (chunkOf x, chunkOf y))
  | .setChunkProtection x y state =>
      some ({ w with db := w.db.setChunkProtection x y state }, (x, y))
  | .setProp _ _ => none
  | .reload => none
  | .setDefaultRank _ => none
  | .broadcast _ => none

variable [Platform]

/-- What the operation `a` can do: the world and the files after it, the messages sent, and the
changes accepted. -/
inductive Effect (w : World) (d : Disk) (a : WorldAct) : World × Disk × List Out × List Edit → Prop
  | rest {w' : World} {outs : List Out}
      (hw' : w' = { w with
        pass := w'.pass, paintrate := w'.paintrate, bgclr := w'.bgclr
        defaultRank := w'.defaultRank })
      (hrank : w'.defaultRank = w.defaultRank ∨ a = .setDefaultRank w'.defaultRank) :
      Effect w d a (w', d, outs, [])
  | prop {key value : Bytes} (ha : a = .setProp key value) :
      Effect w d a (w.setProp key value, d, [], [.prop key value])
  | look {x y : Int32} {outs : List Out} (ha : a.wants w = some (w, (x, y))) :
      Effect w d a ((w.getChunk d x y).2.1, (w.getChunk d x y).2.2, outs, [])
  | chunk {x y : Int32} {c : Chunk} {w' : World} {d' : Disk} {outs : List Out} (data : Data)
      (ha : a.wants w = some (w, (x, y))) (hrange : inRange x y)
      (hgot : w.getChunk d x y = (some c, w', d')) :
      Effect w d a (w'.putChunk (x, y) { c with data := data, changed := true }, d', outs,
        [.chunk x y data])
  | pixel {x y : Int32} {c : Chunk} {w' : World} {d' : Disk} (clr : RGB)
      (ha : a.wants w = some (w, (chunkOf x, chunkOf y))) (hrange : inRange (chunkOf x) (chunkOf y))
      (hgot : w.getChunk d (chunkOf x) (chunkOf y) = (some c, w', d')) :
      Effect w d a (schedUpdates { w'.putChunk (chunkOf x, chunkOf y)
          { c with data := c.data.setPx (low4 x) (low4 y) clr, changed := true } with
          pxupdates := w'.pxupdates ++ [⟨x, y, clr.r, clr.g, clr.b⟩] }, d', [], [.px x y clr])
  | outside {x y : Int32} {state : Bool} (hrange : ¬ inRange x y)
      (ha : a.wants w = some ({ w with db := w.db.setChunkProtection x y state }, (x, y))) :
      Effect w d a ({ w with db := w.db.setChunkProtection x y state }, d, [],
        [.protect x y state])
  | protect {x y : Int32} {state : Bool} {c : Chunk} {w' : World} {d' : Disk} {outs : List Out}
      (ha : a.wants w = some ({ w with db := w.db.setChunkProtection x y state }, (x, y)))
      (hrange : inRange x y)
      (hgot : World.getChunk { w with db := w.db.setChunkProtection x y state } d x y
        = (some c, w', d')) :
      Effect w d a (w'.putChunk (x, y) { c with ranked := state }, d', outs, [.protect x y state])

omit [Platform] in
/-- A chunk put in its place is an accepted change. -/
theorem chunkEdit_putChunk (w : World) {x y : Int32} (hrange : inRange x y) (c : Chunk) :
  chunkEdit (w.putChunk (x, y) c) x y = [.chunk x y c.data]
  := by
  have hlookup : (w.putChunk (x, y) c).chunks.lookup (x, y) = some c := AList.lookup_insert _
  rw [chunkEdit, if_pos hrange, hlookup]

/-- What an operation does is one of its effects. -/
theorem WorldAct.effect (w : World) (d : Disk) (a : WorldAct) :
  Effect w d a (a.run w d)
  := by
  cases a with
  | sendChunk ws x y =>
      have hlook : ∀ outs, Effect w d (.sendChunk ws x y)
          ((w.getChunk d x y).2.1, (w.getChunk d x y).2.2, outs, []) := fun _ => .look rfl
      rw [WorldAct.run, World.sendChunk]
      generalize w.getChunk d x y = got at hlook ⊢
      obtain ⟨c, w', d'⟩ := got
      cases c with
      | none => exact hlook []
      | some c => exact hlook _
  | delChunk x y =>
      rw [WorldAct.run, World.delChunk]
      obtain ⟨hrange, hgot⟩ | ⟨hrange, c, w', d', hgot⟩ := World.getChunk_cases w d x y
      · have hlook : Effect w d (.delChunk x y)
            ((w.getChunk d x y).2.1, (w.getChunk d x y).2.2, [], []) := .look rfl
        rw [hgot] at hlook ⊢
        dsimp only at hlook ⊢
        rw [chunkEdit, if_neg hrange]
        exact hlook
      · rw [hgot]
        dsimp only
        rw [chunkEdit_putChunk w' hrange]
        exact .chunk (Data.fill c.bgclr) rfl hrange hgot
  | pasteChunk x y data =>
      rw [WorldAct.run, World.pasteChunk]
      obtain ⟨hrange, hgot⟩ | ⟨hrange, c, w', d', hgot⟩ := World.getChunk_cases w d x y
      · have hlook : Effect w d (.pasteChunk x y data)
            ((w.getChunk d x y).2.1, (w.getChunk d x y).2.2, [], []) := .look rfl
        rw [hgot] at hlook ⊢
        dsimp only at hlook ⊢
        rw [chunkEdit, if_neg hrange]
        exact hlook
      · rw [hgot]
        dsimp only
        rw [chunkEdit_putChunk w' hrange]
        exact .chunk data rfl hrange hgot
  | putPx x y clr placerRank =>
      have hlook : Effect w d (.putPx x y clr placerRank)
          ((w.getChunk d (chunkOf x) (chunkOf y)).2.1,
            (w.getChunk d (chunkOf x) (chunkOf y)).2.2, [], []) := .look rfl
      rw [WorldAct.run, World.putPx]
      obtain ⟨-, hgot⟩ | ⟨hrange, c, w', d', hgot⟩ := World.getChunk_cases w d (chunkOf x) (chunkOf y)
      · rw [hgot] at hlook ⊢
        exact hlook
      · rw [hgot] at hlook ⊢
        dsimp only at hlook ⊢
        rw [Chunk.setData]
        split
        case isTrue => exact hlook
        case isFalse => exact .pixel clr rfl hrange hgot
  | setChunkProtection x y state =>
      rw [WorldAct.run, World.setChunkProtection]
      dsimp only
      obtain ⟨hrange, hgot⟩ | ⟨hrange, c, w', d', hgot⟩ :=
        World.getChunk_cases { w with db := w.db.setChunkProtection x y state } d x y
      · rw [hgot]
        exact .outside hrange rfl
      · rw [hgot]
        exact .protect rfl hrange hgot
  | setProp key value => exact .prop rfl
  | reload =>
      have hrank : w.reload.1.defaultRank = w.defaultRank := by rw [World.reload_rest]
      rw [WorldAct.run]
      dsimp only
      apply Effect.rest
      · rw [hrank]
        exact World.reload_rest w
      · exact Or.inl hrank
  | setDefaultRank r => exact .rest rfl (Or.inr rfl)
  | broadcast msg => exact .rest rfl (Or.inl rfl)

end Owop
