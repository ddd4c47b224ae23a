import OwopServer.World.Updates

/-!
# Copies of a chunk

A client that fetched a chunk keeps a copy of it: a chunk sent again replaces the copy, and the
pixels of an `UPDATE` message are set in it.  Clearing and pasting send the chunk at once, but
pixels wait for the next tick, which may set a pixel the chunk no longer has.
-/

namespace Owop

/-! ### The copy -/

/-- Whether a pixel update is about the chunk at `pos`. -/
def PixUpd.In (u : PixUpd) (pos : ChunkPos) : Prop := (chunkOf u.x, chunkOf u.y) = pos

instance (u : PixUpd) (pos : ChunkPos) : Decidable (u.In pos) := by
  unfold PixUpd.In
  infer_instance

namespace Copy

/-- The copy of the chunk at `pos` after a pixel of an `UPDATE` message. -/
def setUpd (pos : ChunkPos) (data : Data) (u : PixUpd) : Data :=
  if u.In pos then data.setPx (low4 u.x) (low4 u.y) u.rgb else data

/-- The copy of the chunk at `pos` after a message. -/
def applyMsg (pos : ChunkPos) (data : Data) (msg : Bytes) : Data :=
  match decodeChunk msg with
  | some (x, y, _, new) => if (x, y) = pos then new else data
  | none => (updatePixels msg).foldl (setUpd pos) data

/-- The copy a client starts with when it gets the message. -/
def fetched (pos : ChunkPos) (msg : Bytes) : Option Data :=
  match decodeChunk msg with
  | some (x, y, _, new) => if (x, y) = pos then some new else none
  | none => none

/-- The copy of the client `ws` after the server sent something. -/
def receive (ws : Ws) (pos : ChunkPos) (copy : Option Data) : Out → Option Data
  | .all .binary msg => copy.map fun data => applyMsg pos data msg
  | .one ws' .binary msg =>
      if ws' = ws then
        match copy with
        | some data => some (applyMsg pos data msg)
        | none => fetched pos msg
      else copy
  | _ => copy

/-- A message to all. -/
theorem receive_all (ws : Ws) (pos : ChunkPos) (copy : Option Data) (msg : Bytes) :
  receive ws pos copy (.all .binary msg) = copy.map fun data => applyMsg pos data msg
  := rfl

/-- A message to one connection. -/
theorem receive_one (ws : Ws) (pos : ChunkPos) (copy : Option Data) (ws' : Ws) (msg : Bytes) :
  receive ws pos copy (.one ws' .binary msg)
    = if ws' = ws then
        match copy with
        | some data => some (applyMsg pos data msg)
        | none => fetched pos msg
      else copy
  := rfl

/-- The colour of the last of the updates for the pixel `(i, j)` of the chunk at `pos`. -/
def lastUpd (pos : ChunkPos) (us : List PixUpd) (i j : Fin 16) : Option RGB :=
  us.foldl (fun last u => if u.In pos ∧ low4 u.x = i ∧ low4 u.y = j then some u.rgb else last) none

/-- The last update counts, if it is of that pixel. -/
theorem lastUpd_concat (pos : ChunkPos) (us : List PixUpd) (u : PixUpd) (i j : Fin 16) :
  lastUpd pos (us ++ [u]) i j
    = if u.In pos ∧ low4 u.x = i ∧ low4 u.y = j then some u.rgb else lastUpd pos us i j
  := List.foldl_concat _ _ _ _

/-- After some updates a pixel has the colour of the last one for it. -/
theorem px_foldl_setUpd (pos : ChunkPos) (us : List PixUpd) (data : Data) (i j : Fin 16) :
  (us.foldl (setUpd pos) data).px i j = (lastUpd pos us i j).getD (data.px i j)
  := by
  induction us using List.reverseRecOn with
  | nil => rfl
  | append_singleton us u ih =>
      rw [List.foldl_concat, lastUpd_concat, setUpd]
      by_cases hin : u.In pos
      · rw [if_pos hin, Data.px_setPx]
        by_cases hpx : low4 u.x = i ∧ low4 u.y = j
        · rw [if_pos ⟨hpx.1.symm, hpx.2.symm⟩, if_pos ⟨hin, hpx⟩, Option.getD_some]
        · rw [if_neg fun h => hpx ⟨h.1.symm, h.2.symm⟩, if_neg fun h => hpx h.2, ih]
      · rw [if_neg hin, if_neg fun h => hin h.1, ih]

/-- A chunk replaces the copy. -/
theorem applyMsg_dataMsg {c : Chunk} {pos : ChunkPos} (data : Data) (h : (c.cx, c.cy) = pos) :
  applyMsg pos data c.dataMsg = c.data
  := by
  rw [applyMsg, decodeChunk_dataMsg]
  exact if_pos h

/-- Other chunks do not. -/
theorem applyMsg_dataMsg_of_ne {c : Chunk} {pos : ChunkPos} (data : Data)
    (h : (c.cx, c.cy) ≠ pos) :
  applyMsg pos data c.dataMsg = data
  := by
  rw [applyMsg, decodeChunk_dataMsg]
  exact if_neg h

/-- A chunk that is sent is that of its position. -/
theorem fetched_dataMsg (c : Chunk) (pos : ChunkPos) :
  fetched pos c.dataMsg = if (c.cx, c.cy) = pos then some c.data else none
  := by
  rw [fetched, decodeChunk_dataMsg]

/-- An `UPDATE` message sets its pixels. -/
theorem applyMsg_update {msg : Bytes} (pos : ChunkPos) (data : Data)
    (h : msg.head? = some ServerMessage.update.byte) :
  applyMsg pos data msg = (updatePixels msg).foldl (setUpd pos) data
  := by
  have hnone : decodeChunk msg = none := by
    cases msg with
    | nil => cases h
    | cons b msg =>
        cases h
        rfl
  rw [applyMsg, hnone]

end Copy

namespace World

/-- The loaded chunks know where they are. -/
def Keyed (w : World) : Prop := ∀ pos c, w.chunks.lookup pos = some c → (c.cx, c.cy) = pos

/-- A new world has no chunks. -/
theorem new_keyed [Platform] (path name : Bytes) (d : Disk) :
  (World.new path name d).1.Keyed
  := by
  intro pos c hc
  rw [(new_rest path name d).1] at hc
  cases hc

/-- A chunk is put in its place. -/
theorem Keyed.putChunk {w : World} {pos : ChunkPos} {c : Chunk} (h : w.Keyed)
    (hc : (c.cx, c.cy) = pos) :
  (w.putChunk pos c).Keyed
  := by
  intro pos' c' hc'
  rw [World.putChunk, lookup_insert] at hc'
  split at hc'
  case isTrue heq =>
    obtain rfl := Option.some.inj hc'
    exact hc.trans heq.symm
  case isFalse => exact h pos' c' hc'

/-- Getting a chunk keeps the others where they are. -/
theorem Keyed.getChunk [Platform] {w w' : World} {d d' : Disk} {x y : Int32} {c : Chunk}
    (h : w.Keyed) (hget : w.getChunk d x y = (some c, w', d')) :
  w'.Keyed
  := by
  obtain ⟨hc, hloaded | ⟨-, hx, hy⟩, hothers⟩ := lookup_getChunk hget
  case inl =>
    intro pos c' hc'
    by_cases hp : pos = (x, y)
    · rw [hp, hc] at hc'
      obtain rfl := Option.some.inj hc'
      rw [hp]
      exact h _ _ hloaded
    · obtain hsame | hnone := hothers pos hp
      · exact h pos c' (hsame ▸ hc')
      · rw [hnone] at hc'
        cases hc'
  case inr =>
    intro pos c' hc'
    by_cases hp : pos = (x, y)
    · rw [hp, hc] at hc'
      obtain rfl := Option.some.inj hc'
      rw [hp, hx, hy]
    · obtain hsame | hnone := hothers pos hp
      · exact h pos c' (hsame ▸ hc')
      · rw [hnone] at hc'
        cases hc'

end World

/-! ### Following the server -/

/-- The copy of the chunk at `pos` differs from the chunk only in pixels that wait to be sent. -/
structure Tracks (pos : ChunkPos) (w : World) (copy : Option Data) : Prop where
  keyed : w.Keyed
  px : ∀ data, copy = some data → ∃ c, w.chunks.lookup pos = some c ∧
    ∀ i j, Copy.lastUpd pos w.pxupdates i j = none → data.px i j = c.data.px i j

namespace Tracks

variable {pos p : ChunkPos} {w : World} {copy : Option Data} {c : Chunk}

/-- Getting a chunk changes no chunk that stays. -/
theorem getChunk [Platform] {d d' : Disk} {w' : World} {x y : Int32} (h : Tracks pos w copy)
    (hget : w.getChunk d x y = (some c, w', d'))
    (hstays : copy ≠ none → pos ≠ (x, y) → w'.chunks.lookup pos ≠ none) :
  Tracks pos w' copy
  := by
  have hrest := (World.getChunk_frame w d x y).rest
  rw [hget] at hrest
  dsimp only at hrest
  obtain ⟨hc, hloaded, hothers⟩ := World.lookup_getChunk hget
  constructor
  case keyed => exact h.keyed.getChunk hget
  case px =>
    intro data hdata
    obtain ⟨c₀, hc₀, hpx⟩ := h.px data hdata
    have hupd : w'.pxupdates = w.pxupdates := by rw [hrest]
    rw [hupd]
    use c₀
    refine ⟨?_, hpx⟩
    by_cases hp : pos = (x, y)
    · rw [hp] at hc₀ ⊢
      obtain hsame | ⟨hnone, -⟩ := hloaded
      · rw [hc, ← hsame, hc₀]
      · rw [hnone] at hc₀
        cases hc₀
    · obtain hsame | hnone := hothers pos hp
      · rw [hsame, hc₀]
      · exact absurd hnone (hstays (by rw [hdata]; exact Option.some_ne_none data) hp)

/-- A pixel that is set waits to be sent. -/
theorem setPx (h : Tracks pos w copy) (u : PixUpd)
    (hc : w.chunks.lookup (chunkOf u.x, chunkOf u.y) = some c) :
  Tracks pos (World.schedUpdates { w.putChunk (chunkOf u.x, chunkOf u.y)
    { c with data := c.data.setPx (low4 u.x) (low4 u.y) u.rgb, changed := true } with
    pxupdates := w.pxupdates ++ [u] }) copy
  := by
  constructor
  case keyed => exact h.keyed.putChunk (h.keyed _ c hc)
  case px =>
    intro data hdata
    obtain ⟨c₀, hc₀, hpx⟩ := h.px data hdata
    dsimp only [World.schedUpdates, World.putChunk]
    rw [World.lookup_insert]
    split
    case isTrue hp =>
      refine ⟨_, rfl, ?_⟩
      intro i j hlast
      rw [Copy.lastUpd_concat] at hlast
      split at hlast
      case isTrue => cases hlast
      case isFalse hother =>
        rw [hp, hc] at hc₀
        obtain rfl := Option.some.inj hc₀
        rw [Data.px_setPx, if_neg fun he => hother ⟨hp.symm, he.1.symm, he.2.symm⟩]
        exact hpx i j hlast
    case isFalse hp =>
      refine ⟨c₀, hc₀, ?_⟩
      intro i j hlast
      rw [Copy.lastUpd_concat, if_neg fun he => hp he.1.symm] at hlast
      exact hpx i j hlast

/-- A chunk that is replaced is sent. -/
theorem replace (h : Tracks pos w copy) (c' : Chunk) (hc' : (c'.cx, c'.cy) = p) :
  Tracks pos (w.putChunk p c') (copy.map fun data => Copy.applyMsg pos data c'.dataMsg)
  := by
  constructor
  case keyed => exact h.keyed.putChunk hc'
  case px =>
    intro data hdata
    obtain ⟨old, hold, hmsg⟩ := Option.map_eq_some_iff.mp hdata
    obtain ⟨c₀, hc₀, hpx⟩ := h.px old hold
    rw [World.putChunk, World.lookup_insert]
    split
    case isTrue hp =>
      rw [Copy.applyMsg_dataMsg old (hc'.trans hp.symm)] at hmsg
      exact ⟨c', rfl, fun i j _ => by rw [← hmsg]⟩
    case isFalse hp =>
      rw [Copy.applyMsg_dataMsg_of_ne old fun he => hp (he.symm.trans hc')] at hmsg
      rw [← hmsg]
      exact ⟨c₀, hc₀, hpx⟩

/-- A chunk that is sent is what the copy becomes. -/
theorem receive (h : Tracks pos w copy) (hc : w.chunks.lookup p = some c) (ws ws' : Ws) :
  Tracks pos w (Copy.receive ws pos copy (.one ws' .binary c.dataMsg))
  := by
  have hkey := h.keyed p c hc
  rw [Copy.receive_one]
  split
  case isFalse => exact h
  case isTrue =>
    constructor
    case keyed => exact h.keyed
    case px =>
      intro data hdata
      by_cases hp : (c.cx, c.cy) = pos
      · have hall : data = c.data := by
          cases hcopy : copy with
          | none =>
              rw [hcopy] at hdata
              dsimp only at hdata
              rw [Copy.fetched_dataMsg, if_pos hp] at hdata
              exact (Option.some.inj hdata).symm
          | some old =>
              rw [hcopy] at hdata
              dsimp only at hdata
              rw [Copy.applyMsg_dataMsg old hp] at hdata
              exact (Option.some.inj hdata).symm
        rw [← hp, hkey]
        exact ⟨c, hc, fun i j _ => by rw [hall]⟩
      · apply h.px
        rw [← hdata]
        cases copy with
        | none =>
            dsimp only
            rw [Copy.fetched_dataMsg, if_neg hp]
        | some old =>
            dsimp only
            rw [Copy.applyMsg_dataMsg_of_ne old hp]

end Tracks

/-! ### Runs of a world someone watches -/

/-- What happens in a world, in the view of one of its clients. -/
inductive ViewEvent where
  | putPx (x y : Int32) (clr : RGB) (rank : Rank)
  | delChunk (x y : Int32)
  | pasteChunk (x y : Int32) (data : Data)
  | sendChunk (ws : Ws) (x y : Int32)
  | tick (info : ClientPtr → UInt32 × PInfo)

/-- A world, its files, and the copy of a chunk that one of the clients has. -/
structure Viewer where
  world : World
  disk : Disk
  copy : Option Data

namespace Viewer

variable [Platform] (ws : Ws) (pos : ChunkPos)

/-- The viewer after an operation of the world with the given result. -/
def after (s : Viewer) (r : World × Disk × List Out) : Viewer :=
  ⟨r.1, r.2.1, r.2.2.foldl (Copy.receive ws pos) s.copy⟩

/-- The viewer after an event.  The timer ends only when it is active. -/
def step (s : Viewer) : ViewEvent → Viewer
  | .putPx x y clr rank => s.after ws pos ((s.world.putPx s.disk x y clr rank).2.1,
      (s.world.putPx s.disk x y clr rank).2.2, [])
  | .delChunk x y => s.after ws pos (s.world.delChunk s.disk x y)
  | .pasteChunk x y data => s.after ws pos (s.world.pasteChunk s.disk x y data)
  | .sendChunk ws' x y => s.after ws pos (s.world.sendChunk s.disk ws' x y)
  | .tick info =>
      if s.world.updActive then
        s.after ws pos ((s.world.sendUpdates info).1, s.disk, (s.world.sendUpdates info).2)
      else s

/-- The viewer before it fetches the chunk. -/
def start (w : World) (d : Disk) : Viewer := ⟨w, d, none⟩

omit [Platform] in
/-- The event is a tick that sends something. -/
def Ticks (s : Viewer) : ViewEvent → Prop
  | .tick _ => s.world.updActive
  | _ => False

omit [Platform] in
/-- A tick finds no more pixels than it may send. -/
def InTime (s : Viewer) (e : ViewEvent) : Prop :=
  s.Ticks e → s.world.pxupdates.length ≤ worldMaxPixelUpdates

omit [Platform] in
/-- The chunk is loaded while there is a copy of it. -/
def Loaded (s : Viewer) : Prop := s.copy ≠ none → s.world.chunks.lookup pos ≠ none

omit [Platform] in
/-- A tick finds each pixel of the chunk in the colour of the last of the updates that wait
for it, if there are any. -/
def Fresh (s : Viewer) (e : ViewEvent) : Prop :=
  s.Ticks e → s.copy ≠ none → ∀ c, s.world.chunks.lookup pos = some c →
    ∀ i j clr, Copy.lastUpd pos s.world.pxupdates i j = some clr → c.data.px i j = clr

omit [Platform] in
/-- When no pixel waits, the copy is the chunk. -/
def Converged (s : Viewer) : Prop :=
  s.world.pxupdates = [] → ∀ data, s.copy = some data →
    ∃ c, s.world.chunks.lookup pos = some c ∧ c.data = data

variable {ws pos}

omit [Platform] in
/-- A copy that tracks the chunk is the chunk when no pixel waits. -/
theorem converged_of_tracks {s : Viewer} (h : Tracks pos s.world s.copy) :
  s.Converged pos
  := by
  intro hempty data hdata
  obtain ⟨c, hc, hpx⟩ := h.px data hdata
  refine ⟨c, hc, ?_⟩
  apply Data.ext_px
  intro i j
  exact (hpx i j (by rw [hempty]; rfl)).symm

omit [Platform] in
/-- At the start. -/
theorem tracks_start {w : World} {d : Disk} (hw : w.Keyed) :
  Tracks pos (start w d).world (start w d).copy
  := by
  constructor
  case keyed => exact hw
  case px =>
    intro data hdata
    cases hdata

omit [Platform] in
/-- Whatever a client is sent, it keeps a copy. -/
theorem copy_after {s : Viewer} (h : s.copy ≠ none) (r : World × Disk × List Out) :
  (s.after ws pos r).copy ≠ none
  := by
  rw [after]
  dsimp only
  generalize s.copy = copy at h
  generalize r.2.2 = outs
  induction outs generalizing copy with
  | nil => exact h
  | cons out outs ih =>
      apply ih
      obtain ⟨data, rfl⟩ := Option.ne_none_iff_exists'.mp h
      rw [Copy.receive.eq_def]
      split
      · exact Option.some_ne_none _
      · split
        · exact Option.some_ne_none _
        · exact Option.some_ne_none _
      · exact Option.some_ne_none _

/-- Who has a copy keeps one. -/
theorem copy_step {s : Viewer} (h : s.copy ≠ none) (e : ViewEvent) :
  (s.step ws pos e).copy ≠ none
  := by
  rw [step.eq_def]
  split
  · exact copy_after h _
  · exact copy_after h _
  · exact copy_after h _
  · exact copy_after h _
  · split
    · exact copy_after h _
    · exact h

/-- A client that asks for the chunk gets a copy. -/
theorem step_sendChunk {s : Viewer} {c : Chunk} {w' : World} {d' : Disk} (h : s.world.Keyed)
    (hget : s.world.getChunk s.disk pos.1 pos.2 = (some c, w', d')) :
  (s.step ws pos (.sendChunk ws pos.1 pos.2)).copy ≠ none
  := by
  have hkey := h.getChunk hget _ c (World.lookup_getChunk hget).1
  rw [step, after, World.sendChunk, hget]
  dsimp only [List.foldl_cons, List.foldl_nil]
  rw [Copy.receive_one, if_pos rfl]
  split
  · exact Option.some_ne_none _
  · rw [Copy.fetched_dataMsg, if_pos hkey]
    exact Option.some_ne_none _

/-- A tick sets the pixels that wait. -/
theorem step_tick {s : Viewer} {info : ClientPtr → UInt32 × PInfo} (hactive : s.world.updActive)
    (hin : s.InTime (.tick info)) :
  s.step ws pos (.tick info) = ⟨World.ticked { s.world with updActive := false }, s.disk,
    s.copy.map fun data => s.world.pxupdates.foldl (Copy.setUpd pos) data⟩
  := by
  obtain ⟨msg, heq, hhead, hpixels⟩ := World.sendUpdates_spec s.world info
  rw [List.take_of_length_le (hin hactive)] at hpixels
  rw [step, if_pos hactive, heq, after, List.foldl_cons, List.foldl_nil, Copy.receive_all]
  simp only [Copy.applyMsg_update pos _ hhead, hpixels]

/-- After a tick the copy tracks the chunk exactly when the waiting pixels were still so. -/
theorem tracks_tick {s : Viewer} {info : ClientPtr → UInt32 × PInfo}
    (h : Tracks pos s.world s.copy) (hactive : s.world.updActive) (hin : s.InTime (.tick info)) :
  (s.Fresh pos (.tick info) → Tracks pos (s.step ws pos (.tick info)).world
      (s.step ws pos (.tick info)).copy) ∧
    ((s.step ws pos (.tick info)).Converged pos → s.Fresh pos (.tick info))
  := by
  obtain ⟨-, hchunks, -⟩ := World.ticked_rest { s.world with updActive := false }
  have hnone := World.ticked_pxupdates { s.world with updActive := false }
  rw [step_tick hactive hin]
  constructor
  · intro hfresh
    constructor
    case keyed =>
      rw [World.Keyed, hchunks]
      exact h.keyed
    case px =>
      intro data hdata
      obtain ⟨old, hold, hset⟩ := Option.map_eq_some_iff.mp hdata
      obtain ⟨c, hc, hpx⟩ := h.px old hold
      rw [hchunks]
      refine ⟨c, hc, ?_⟩
      intro i j _
      rw [← hset, Copy.px_foldl_setUpd]
      cases hlast : Copy.lastUpd pos s.world.pxupdates i j with
      | none => exact hpx i j hlast
      | some clr =>
          have hcopy : s.copy ≠ none := by
            rw [hold]
            exact Option.some_ne_none old
          exact (hfresh hactive hcopy c hc i j clr hlast).symm
  · intro hconv _ hcopy c hc i j clr hlast
    obtain ⟨old, hold⟩ := Option.ne_none_iff_exists'.mp hcopy
    obtain ⟨c', hc', hdata⟩ := hconv hnone (s.world.pxupdates.foldl (Copy.setUpd pos) old)
      (by rw [hold]; rfl)
    dsimp only at hc'
    rw [hchunks, hc] at hc'
    obtain rfl := Option.some.inj hc'
    rw [hdata, Copy.px_foldl_setUpd, hlast]
    rfl

/-- Anything but a tick keeps the copy on the track of the chunk. -/
theorem tracks_step {s : Viewer} {e : ViewEvent} (h : Tracks pos s.world s.copy)
    (he : ¬ s.Ticks e) (hloaded : (s.step ws pos e).Loaded pos) :
  Tracks pos (s.step ws pos e).world (s.step ws pos e).copy
  := by
  cases e with
  | tick info =>
      have hidle : ¬ s.world.updActive := he
      rw [step, if_neg hidle]
      exact h
  | putPx x y clr rank =>
      rw [step, after] at hloaded ⊢
      dsimp only [List.foldl_nil, Loaded] at hloaded ⊢
      obtain ⟨-, hget⟩ | ⟨-, c, w', d', hget⟩ :=
        World.getChunk_cases s.world s.disk (chunkOf x) (chunkOf y)
      · rw [World.putPx_of_none hget]
        exact h
      · by_cases hpx : c.data.px (low4 x) (low4 y) = clr
        · rw [World.putPx_of_eq hget hpx] at hloaded ⊢
          exact h.getChunk hget fun hcopy _ => hloaded hcopy
        · rw [World.putPx_of_ne hget hpx] at hloaded ⊢
          dsimp only [World.schedUpdates, World.putChunk] at hloaded
          have hgot := h.getChunk hget fun hcopy hp => by
            have hl := hloaded hcopy
            rwa [World.lookup_insert, if_neg hp] at hl
          exact hgot.setPx ⟨x, y, clr.r, clr.g, clr.b⟩ (World.lookup_getChunk hget).1
  | delChunk x y =>
      rw [step, after, World.delChunk] at hloaded ⊢
      obtain ⟨-, hget⟩ | ⟨-, c, w', d', hget⟩ := World.getChunk_cases s.world s.disk x y
      · rw [hget]
        exact h
      · rw [hget] at hloaded ⊢
        dsimp only [List.foldl_cons, List.foldl_nil, Loaded, World.putChunk] at hloaded ⊢
        rw [Copy.receive_all] at hloaded ⊢
        have hgot := h.getChunk hget fun hcopy hp => by
          have hl := hloaded (Option.map_eq_none_iff.not.mpr hcopy)
          rwa [World.lookup_insert, if_neg hp] at hl
        apply hgot.replace c.clear
        rw [Chunk.clear]
        exact hgot.keyed _ c (World.lookup_getChunk hget).1
  | pasteChunk x y data =>
      rw [step, after, World.pasteChunk] at hloaded ⊢
      obtain ⟨-, hget⟩ | ⟨-, c, w', d', hget⟩ := World.getChunk_cases s.world s.disk x y
      · rw [hget]
        exact h
      · rw [hget] at hloaded ⊢
        dsimp only [List.foldl_cons, List.foldl_nil, Loaded, World.putChunk] at hloaded ⊢
        rw [Copy.receive_all] at hloaded ⊢
        have hgot := h.getChunk hget fun hcopy hp => by
          have hl := hloaded (Option.map_eq_none_iff.not.mpr hcopy)
          rwa [World.lookup_insert, if_neg hp] at hl
        exact hgot.replace (c.setDataFrom data) (hgot.keyed _ c (World.lookup_getChunk hget).1)
  | sendChunk ws' x y =>
      rw [step, after, World.sendChunk] at hloaded ⊢
      obtain ⟨-, hget⟩ | ⟨-, c, w', d', hget⟩ := World.getChunk_cases s.world s.disk x y
      · rw [hget]
        exact h
      · rw [hget] at hloaded ⊢
        dsimp only [List.foldl_cons, List.foldl_nil, Loaded] at hloaded ⊢
        have hgot := h.getChunk hget fun hcopy _ => hloaded (by
          rw [Copy.receive_one]
          obtain ⟨old, hold⟩ := Option.ne_none_iff_exists'.mp hcopy
          rw [hold]
          split
          · exact Option.some_ne_none _
          · exact Option.some_ne_none _)
        exact hgot.receive (World.lookup_getChunk hget).1 ws ws'

/-- While each tick finds fresh pixels, the copy tracks the chunk; the first tick that does not
leaves them different. -/
theorem always_converged_iff {s : Viewer} {events : List ViewEvent}
    (h : Tracks pos s.world s.copy)
    (hloaded : Runs.Always (step ws pos) (Loaded pos) s events)
    (hin : Runs.Along (step ws pos) InTime s events) :
  Runs.Always (step ws pos) (Converged pos) s events
    ↔ Runs.Along (step ws pos) (Fresh pos) s events
  := by
  induction events generalizing s with
  | nil =>
      rw [Runs.always_nil]
      exact ⟨fun _ => Runs.along_nil, fun _ => converged_of_tracks h⟩
  | cons e events ih =>
      obtain ⟨-, hloaded⟩ := Runs.always_cons.mp hloaded
      obtain ⟨hfirst, hin⟩ := Runs.along_cons.mp hin
      have hnext : (s.Fresh pos e →
            Tracks pos (s.step ws pos e).world (s.step ws pos e).copy) ∧
          ((s.step ws pos e).Converged pos → s.Fresh pos e) := by
        by_cases htick : s.Ticks e
        · cases e with
          | tick info => exact tracks_tick h htick hfirst
          | _ => exact absurd htick id
        · have hstep := tracks_step h htick (hloaded [] events rfl)
          exact ⟨fun _ => hstep, fun _ ht => absurd ht htick⟩
      rw [Runs.always_cons, Runs.along_cons]
      constructor
      · rintro ⟨-, hconv⟩
        have hfresh := hnext.2 (hconv [] events rfl)
        exact ⟨hfresh, (ih (hnext.1 hfresh) hloaded hin).mp hconv⟩
      · rintro ⟨hfresh, hrest⟩
        exact ⟨converged_of_tracks h, (ih (hnext.1 hfresh) hloaded hin).mpr hrest⟩

/-- The copy of a client that fetched a chunk is the chunk whenever no pixel waits, exactly
when every tick finds each pixel of the chunk in the colour of the last of the updates that
wait for it. -/
theorem converged_iff_fresh (w : World) (d : Disk) (hw : w.Keyed) (events : List ViewEvent)
    (hloaded : Runs.Always (step ws pos) (Loaded pos) (start w d) events)
    (hin : Runs.Along (step ws pos) InTime (start w d) events) :
  Runs.Always (step ws pos) (Converged pos) (start w d) events
    ↔ Runs.Along (step ws pos) (Fresh pos) (start w d) events
  := by
  exact always_converged_iff (tracks_start hw) hloaded hin

omit [Platform] in
/-- A pixel set between two ticks reaches the copy. -/
theorem converged_iff_fresh_single :
  letI := Platform.quiet
  Runs.Always (step 1 (0, 0)) (Converged (0, 0)) (start Feed.joined.world Feed.joined.disk)
    [.sendChunk 1 0 0, .putPx 3 4 ⟨255, 0, 0⟩ Rank.user,
      .tick fun _ => (1, ⟨0, 0, 0, 0, 0, 0⟩)]
  := by
  let _ := Platform.quiet
  have hkeyed : Feed.joined.world.Keyed := World.new_keyed _ _ _
  apply (converged_iff_fresh _ _ hkeyed _ ?_ ?_).mpr
  · rw [Runs.along_cons, Runs.along_cons, Runs.along_cons]
    refine ⟨False.elim, False.elim, ?_, Runs.along_nil⟩
    generalize hs : step 1 (0, 0) (step 1 (0, 0) (start Feed.joined.world Feed.joined.disk)
      (.sendChunk 1 0 0)) (.putPx 3 4 ⟨255, 0, 0⟩ Rank.user) = s
    have hwaiting : s.world.pxupdates = [⟨3, 4, 255, 0, 0⟩] := by
      rw [← hs]
      decide +kernel
    have hred : (s.world.chunks.lookup (0, 0)).map (fun c => c.data.px (low4 3) (low4 4))
        = some ⟨255, 0, 0⟩ := by
      rw [← hs]
      decide +kernel
    intro _ _ c hc i j clr hlast
    rw [hc] at hred
    rw [hwaiting, ← List.nil_append [_], Copy.lastUpd_concat] at hlast
    split at hlast
    case isTrue hpx =>
      rw [← hpx.2.1, ← hpx.2.2, ← Option.some.inj hlast]
      exact Option.some.inj hred
    case isFalse => cases hlast
  · rw [Runs.always_cons, Runs.always_cons, Runs.always_cons, Runs.always_nil]
    refine ⟨fun hnone => absurd rfl hnone, fun _ => ?_, fun _ => ?_, fun _ => ?_⟩
    · exact Option.isSome_iff_ne_none.mp (by decide +kernel)
    · exact Option.isSome_iff_ne_none.mp (by decide +kernel)
    · exact Option.isSome_iff_ne_none.mp (by decide +kernel)
  · rw [Runs.along_cons, Runs.along_cons, Runs.along_cons]
    refine ⟨False.elim, False.elim, fun _ => ?_, Runs.along_nil⟩
    decide +kernel

/-- A chunk is fetched, a pixel of it set, the chunk cleared, and then the tick comes. -/
def clearedWaiting : List ViewEvent :=
  [.sendChunk 1 0 0, .putPx 3 4 ⟨255, 0, 0⟩ Rank.user, .delChunk 0 0,
    .tick fun _ => (1, ⟨0, 0, 0, 0, 0, 0⟩)]

omit [Platform] in
/-- In that run the chunk is loaded. -/
theorem loaded_clearedWaiting :
  letI := Platform.quiet
  Runs.Always (step 1 (0, 0)) (Loaded (0, 0)) (start Feed.joined.world Feed.joined.disk)
    clearedWaiting
  := by
  let _ := Platform.quiet
  rw [clearedWaiting, Runs.always_cons, Runs.always_cons, Runs.always_cons, Runs.always_cons,
    Runs.always_nil]
  refine ⟨fun hnone => absurd rfl hnone, fun _ => ?_, fun _ => ?_, fun _ => ?_, fun _ => ?_⟩
  · exact Option.isSome_iff_ne_none.mp (by decide +kernel)
  · exact Option.isSome_iff_ne_none.mp (by decide +kernel)
  · exact Option.isSome_iff_ne_none.mp (by decide +kernel)
  · exact Option.isSome_iff_ne_none.mp (by decide +kernel)

omit [Platform] in
/-- The tick finds the pixel waiting in a colour the chunk no longer has. -/
theorem run_clearedWaiting :
  letI := Platform.quiet
  let s := Runs.run (step 1 (0, 0)) (start Feed.joined.world Feed.joined.disk)
    (clearedWaiting.take 3)
  s.world.updActive ∧ s.world.pxupdates = [⟨3, 4, 255, 0, 0⟩] ∧
    (s.world.chunks.lookup (0, 0)).map (fun c => c.data.px 3 4) = some ⟨255, 255, 255⟩
  := by
  decide +kernel

omit [Platform] in
/-- A copy can differ from the chunk after a chunk was cleared while a pixel of it waited: the
clear is sent first and the pixel after it. -/
theorem not_converged :
  ¬ ∀ [Platform] (ws : Ws) (pos : ChunkPos) (w : World) (d : Disk) (events : List ViewEvent),
    w.clients ≠ [] → w.Keyed → Runs.Always (step ws pos) (Loaded pos) (start w d) events →
    Runs.Along (step ws pos) InTime (start w d) events →
    Runs.Always (step ws pos) (Converged pos) (start w d) events
  := by
  intro h
  let _ := Platform.quiet
  have hkeyed : Feed.joined.world.Keyed := World.new_keyed _ _ _
  have hin : Runs.Along (step 1 (0, 0)) InTime (start Feed.joined.world Feed.joined.disk)
      clearedWaiting := by
    rw [clearedWaiting, Runs.along_cons, Runs.along_cons, Runs.along_cons, Runs.along_cons]
    refine ⟨False.elim, False.elim, False.elim, fun _ => ?_, Runs.along_nil⟩
    decide +kernel
  have hconv := h 1 (0, 0) Feed.joined.world Feed.joined.disk clearedWaiting (by decide +kernel)
    hkeyed loaded_clearedWaiting hin
  have hfresh := (always_converged_iff (tracks_start hkeyed) loaded_clearedWaiting hin).mp hconv
    (clearedWaiting.take 3) _ [] rfl
  have hcopy : (Runs.run (step 1 (0, 0)) (start Feed.joined.world Feed.joined.disk)
      (clearedWaiting.take 3)).copy ≠ none := by
    obtain ⟨hout, -⟩ | ⟨-, c, w', d', hget⟩ :=
      World.getChunk_cases Feed.joined.world Feed.joined.disk 0 0
    · exact absurd (by decide) hout
    · have hfetch : (step 1 (0, 0) (start Feed.joined.world Feed.joined.disk)
          (.sendChunk 1 0 0)).copy ≠ none := step_sendChunk hkeyed hget
      rw [clearedWaiting, List.take_succ_cons, List.take_succ_cons, List.take_succ_cons,
        List.take_zero, Runs.run_cons, Runs.run_cons, Runs.run_cons, Runs.run_nil]
      exact copy_step (copy_step hfetch _) _
  obtain ⟨hactive, hwaiting, hblank⟩ := run_clearedWaiting
  generalize Runs.run (step 1 (0, 0)) (start Feed.joined.world Feed.joined.disk)
    (clearedWaiting.take 3) = s at hactive hwaiting hblank hfresh hcopy
  obtain ⟨c, hc, hpx⟩ := Option.map_eq_some_iff.mp hblank
  have hred := hfresh hactive hcopy c hc 3 4 ⟨255, 0, 0⟩ (by rw [hwaiting]; rfl)
  rw [hpx] at hred
  exact absurd hred (by decide)

end Viewer

end Owop
