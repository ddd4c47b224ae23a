import OwopServer.Server.Quotas
import OwopServer.Server.Tools

/-!
# Drawing

How many pixels the messages of clients below the rank of a moderator change: at most one, and none
for a client without a rank, unless a chunk is cleared, or a chunk to which nothing was ever written
makes room for the one asked for and has another background after that.
-/

namespace Owop

open Bytes (ofString)

/-! ### Pixels of a world -/

namespace World

variable {w w' : World} {d d' : Disk} {pos asked : ChunkPos}

/-- The colour of the pixel at `(x, y)`. -/
def colour (w : World) (d : Disk) (x y : Int32) : RGB :=
  (w.bytes d (chunkOf x, chunkOf y)).px (low4 x) (low4 y)

/-- The chunk at a position has no pixels of another colour than that of its background, except
perhaps those in `P`. -/
def BlankBut (P : Fin 16 → Fin 16 → Prop) (w : World) (d : Disk) (pos : ChunkPos) : Prop :=
  inRange pos.1 pos.2 → ∀ i j, ¬ P i j → (w.bytes d pos).px i j = Data.background (w.ground pos)

/-- Every pixel of a chunk in range is one of the world. -/
theorem pixel_of_inRange (hrange : inRange pos.1 pos.2) (i j : Fin 16) :
  (chunkOf (pixelIn pos.1 i), chunkOf (pixelIn pos.2 j)) = pos ∧
    low4 (pixelIn pos.1 i) = i ∧ low4 (pixelIn pos.2 j) = j
  := by
  obtain ⟨hx, hy⟩ := Store.bounds_of_inRange hrange
  obtain ⟨hcx, hlx⟩ := chunkOf_pixelIn i hx.1 hx.2
  obtain ⟨hcy, hly⟩ := chunkOf_pixelIn j hy.1 hy.2
  exact ⟨Prod.ext hcx hcy, hlx, hly⟩

/-- The colour of a pixel of a chunk. -/
theorem colour_pixelIn (w : World) (d : Disk) (hrange : inRange pos.1 pos.2) (i j : Fin 16) :
  w.colour d (pixelIn pos.1 i) (pixelIn pos.2 j) = (w.bytes d pos).px i j
  := by
  obtain ⟨hpos, hi, hj⟩ := pixel_of_inRange hrange i j
  rw [colour, hpos, hi, hj]

variable [Platform]

/-- When a faded chunk makes room, all its pixels change. -/
theorem Sound.px_bytesAfter_of_faded (h : Sound w d) (hdrops : w.drops d asked = some pos)
    (hfaded : w.Faded d pos) (i j : Fin 16) :
  (w.bytesAfter d asked pos).px i j ≠ (w.bytes d pos).px i j
  := by
  obtain ⟨hview, hne⟩ := faded_iff.mp hfaded
  rw [bytesAfter, if_pos hdrops, h.bytes_eq, hview, Option.getD_none, Option.getD_none,
    Data.px_fill, Data.px_fill]
  exact fun heq => hne heq.symm

/-- A chunk is asked for and gets other bytes: no pixels change but those in `P`, which is not all
of a chunk, just if the bytes differ in those only, and no faded chunk made room. -/
theorem Reliable.draws_iff (h : w.Reliable d) {P : Int32 → Int32 → Prop} {data : Data}
    (hP : ∀ pos : ChunkPos, inRange pos.1 pos.2 → ∃ i j, ¬ P (pixelIn pos.1 i) (pixelIn pos.2 j))
    (hbytes : ∀ pos, w'.bytes d' pos = if inRange asked.1 asked.2 ∧ pos = asked then data
      else w.bytesAfter d asked pos) :
  (∀ x y, ¬ P x y → w'.colour d' x y = w.colour d x y) ↔
    (inRange asked.1 asked.2 → ∀ i j, ¬ P (pixelIn asked.1 i) (pixelIn asked.2 j) →
      data.px i j = (w.bytes d asked).px i j) ∧ w.NoneFades (fun _ => True) d asked
  := by
  constructor
  · intro hsame
    constructor
    · intro hrange i j hPij
      have hpx := hsame _ _ hPij
      rw [colour_pixelIn w' d' hrange, colour_pixelIn w d hrange, hbytes,
        if_pos ⟨hrange, rfl⟩] at hpx
      exact hpx
    · intro pos hdrops _ hfaded
      obtain ⟨c, hc, -⟩ := id hfaded
      have hrange := h.inside pos c hc
      obtain ⟨i, j, hPij⟩ := hP pos hrange
      have hpx := hsame _ _ hPij
      have hne : pos ≠ asked := by
        rintro rfl
        exact (h.sound.bytesAfter_eq_iff pos pos).mp h.sound.bytesAfter_self ⟨hdrops, hfaded⟩
      rw [colour_pixelIn w' d' hrange, colour_pixelIn w d hrange, hbytes,
        if_neg fun hboth => hne hboth.2] at hpx
      exact h.sound.px_bytesAfter_of_faded hdrops hfaded i j hpx
  · rintro ⟨hdata, hkept⟩ x y hPxy
    have hothers := (h.sound.noneFades_iff (fun _ => True) asked).mpr hkept
    rw [colour, colour, hbytes]
    split
    case isFalse => rw [hothers _ trivial]
    case isTrue heq =>
      obtain ⟨hrange, hpos⟩ := heq
      obtain ⟨hpos', hi, hj⟩ := pixel_of_inRange hrange (low4 x) (low4 y)
      obtain ⟨hx, hy⟩ := Prod.mk.inj (hpos'.trans hpos.symm)
      have hx₀ : pixelIn asked.1 (low4 x) = x := chunkOf_low4_inj hx hi
      have hy₀ : pixelIn asked.2 (low4 y) = y := chunkOf_low4_inj hy hj
      rw [hpos]
      apply hdata hrange
      rw [hx₀, hy₀]
      exact hPxy

end World

/-! ### Pixels of all worlds -/

namespace Server

variable {s s' : Server} {ws : Ws} {si : SocketInfo} {p q : ClientPtr} {cl : Client} {oc : OpCode}
  {msg : Bytes} {wp : WorldPtr} {P : WorldPtr → Int32 → Int32 → Prop}

/-- No pixels change but those in `P`. -/
def DrawsIn (P : WorldPtr → Int32 → Int32 → Prop) (s s' : Server) : Prop :=
  ∀ wp w, s.objs wp = some w → ∃ w', s'.objs wp = some w' ∧
    ∀ x y, ¬ P wp x y → w'.colour s'.disk x y = w.colour s.disk x y

/-- At most one pixel changes. -/
def OnePixel (s s' : Server) : Prop :=
  ∃ wp₀ x₀ y₀, DrawsIn (fun wp x y => wp = wp₀ ∧ x = x₀ ∧ y = y₀) s s'

/-- No pixel changes. -/
def NoPixel (s s' : Server) : Prop := DrawsIn (fun _ _ _ => False) s s'

/-- The same chunks are protected. -/
def SameProtection (s s' : Server) : Prop :=
  ∀ wp w, s.objs wp = some w → ∃ w', s'.objs wp = some w' ∧
    w'.db.rankedChunks = w.db.rankedChunks

/-- Where the chunks are left alone, no pixel changes. -/
theorem Untouched.noPixel (h : s.Untouched s') :
  s.NoPixel s' ∧ s.SameProtection s'
  := by
  constructor
  · intro wp w hw
    obtain ⟨w', hw', hbytes, -⟩ := h wp w hw
    refine ⟨w', hw', fun x y _ => ?_⟩
    rw [World.colour, World.colour, hbytes]
  · intro wp w hw
    obtain ⟨w', hw', -, hranked⟩ := h wp w hw
    exact ⟨w', hw', hranked⟩

/-- No pixel is at most one. -/
theorem NoPixel.onePixel (h : s.NoPixel s') :
  s.OnePixel s'
  := by
  use 0, 0, 0
  intro wp w hw
  obtain ⟨w', hw', hcolour⟩ := h wp w hw
  exact ⟨w', hw', fun x y _ => hcolour x y id⟩

/-- No chunk consists of one pixel. -/
theorem exists_other_pixel (x₀ y₀ : Int32) (pos : ChunkPos)
    (hrange : World.inRange pos.1 pos.2) :
  ∃ i j, ¬ (pixelIn pos.1 i = x₀ ∧ pixelIn pos.2 j = y₀)
  := by
  by_cases hx : pixelIn pos.1 0 = x₀
  · use 1, 0
    rintro ⟨hx', -⟩
    obtain ⟨-, hlow, -⟩ := World.pixel_of_inRange hrange 0 0
    obtain ⟨-, hlow', -⟩ := World.pixel_of_inRange hrange 1 0
    rw [hx] at hlow
    rw [hx', hlow] at hlow'
    exact absurd hlow' (by decide)
  · exact ⟨0, 0, fun hboth => hx hboth.1⟩

/-! ### Messages -/

/-- A message of the client changes at most one pixel and no protection, and no pixel if the client
has no rank and was given no quota since. -/
def Lawful (s : Server) (cl : Client) (s' : Server) : Prop :=
  s.OnePixel s' ∧ s.SameProtection s' ∧
    (cl.rank = Rank.none → adjusted s.log cl.ws = false → s.NoPixel s')

variable [Platform]

/-- The message does not clear a chunk of which more than one pixel has another colour than that of
the background, or one if the client has no rank and was given no quota since, and no chunk that has
faded makes room for the chunk that it asks for. -/
def Sparse (s : Server) (cl : Client) (oc : OpCode) (msg : Bytes) : Prop :=
  ∀ w asked, s.objs cl.wrld = some w → s.askedChunk cl oc msg = some asked →
    (msg.length = 9 → ∃ i₀ j₀, w.BlankBut (fun i j => i = i₀ ∧ j = j₀) s.disk asked) ∧
    (msg.length = 9 → cl.rank = Rank.none → adjusted s.log cl.ws = false →
      w.BlankBut (fun _ _ => False) s.disk asked) ∧
    w.NoneFades (fun _ => True) s.disk asked

/-- What a message gives to the chunk that it asks for differs from what was there in pixels of `P`
only. -/
def Gives (P : Fin 16 → Fin 16 → Prop) (w : World) (d : Disk) (msg : Bytes) (asked : ChunkPos) :
    Prop :=
  World.inRange asked.1 asked.2 → ∀ i j, ¬ P i j →
    (given w d msg asked).px i j = (w.bytes d asked).px i j

omit [Platform] in
/-- It may differ in more pixels. -/
theorem Gives.mono {w : World} {d : Disk} {asked : ChunkPos} {P Q : Fin 16 → Fin 16 → Prop}
    (h : Gives P w d msg asked)
    (hPQ : World.inRange asked.1 asked.2 → ∀ i j, P i j → Q i j) :
  Gives Q w d msg asked
  := fun hrange i j hQ => h hrange i j fun hP => hQ (hPQ hrange i j hP)

omit [Platform] in
/-- A chunk that is asked for stays as it is. -/
theorem gives_eight (w : World) (d : Disk) (asked : ChunkPos) (P : Fin 16 → Fin 16 → Prop)
    (h₈ : msg.length = 8) :
  Gives P w d msg asked
  := by
  intro _ i j _
  rw [given_eight w d asked h₈]

omit [Platform] in
/-- A chunk that is cleared had no pixels of other colours. -/
theorem gives_nine_iff {w : World} {d : Disk} {asked : ChunkPos} {P : Fin 16 → Fin 16 → Prop}
    (h₉ : msg.length = 9) :
  Gives P w d msg asked ↔ w.BlankBut P d asked
  := by
  rw [Gives, World.BlankBut, given_nine w d asked h₉]
  constructor
  · intro h hrange i j hP
    rw [← h hrange i j hP, Data.px_fill]
  · intro h hrange i j hP
    rw [h hrange i j hP, Data.px_fill]

omit [Platform] in
/-- Of a chunk of which a pixel is set, the others stay. -/
theorem gives_eleven (w : World) (d : Disk) (asked : ChunkPos) (h₁₁ : msg.length = 11) :
  Gives (fun i j => i = low4 (pixupdOf msg).x ∧ j = low4 (pixupdOf msg).y) w d msg asked
  := by
  intro _ i j hne
  rw [given_eleven w d asked h₁₁, Data.px_setPx, if_neg hne]

/-- The pixels that a message changes are those of the chunk that it asks for. -/
theorem drawsIn_iff (hs : s.Agrees) {w w' : World} {asked : ChunkPos} (hw : s.objs cl.wrld = some w)
    (hP : ∀ pos : ChunkPos, World.inRange pos.1 pos.2 →
      ∃ i j, ¬ P cl.wrld (pixelIn pos.1 i) (pixelIn pos.2 j))
    (hobjs : s'.objs = Function.update s.objs cl.wrld (some w'))
    (hbytes : ∀ pos, w'.bytes s'.disk pos
      = if World.inRange asked.1 asked.2 ∧ pos = asked then given w s.disk msg asked
        else w.bytesAfter s.disk asked pos)
    (hothers : ∀ wp' v, wp' ≠ cl.wrld → s.objs wp' = some v →
      ∀ pos, v.bytes s'.disk pos = v.bytes s.disk pos) :
  DrawsIn P s s' ↔
    Gives (fun i j => P cl.wrld (pixelIn asked.1 i) (pixelIn asked.2 j)) w s.disk msg asked ∧
      w.NoneFades (fun _ => True) s.disk asked
  := by
  rw [DrawsIn, objs_update_iff (R := fun wp v v' => ∀ x y, ¬ P wp x y →
    v'.colour s'.disk x y = v.colour s.disk x y) ?_ hw hobjs]
  · exact (hs.loaded hw).2.draws_iff hP hbytes
  · intro wp' v hne hv x y _
    rw [World.colour, World.colour, hothers wp' v hne hv]

/-- A message that asks for a chunk changes at most one pixel, just if it gives the chunk at most one
other pixel and no faded chunk makes room. -/
theorem onePixel_iff (hs : s.Agrees) {w w' : World} {asked : ChunkPos}
    (hw : s.objs cl.wrld = some w)
    (hobjs : s'.objs = Function.update s.objs cl.wrld (some w'))
    (hbytes : ∀ pos, w'.bytes s'.disk pos
      = if World.inRange asked.1 asked.2 ∧ pos = asked then given w s.disk msg asked
        else w.bytesAfter s.disk asked pos)
    (hothers : ∀ wp' v, wp' ≠ cl.wrld → s.objs wp' = some v →
      ∀ pos, v.bytes s'.disk pos = v.bytes s.disk pos) :
  s.OnePixel s' ↔
    (∃ i₀ j₀, Gives (fun i j => i = i₀ ∧ j = j₀) w s.disk msg asked) ∧
      w.NoneFades (fun _ => True) s.disk asked
  := by
  have hdraws : ∀ wp₀ x₀ y₀, DrawsIn (fun wp x y => wp = wp₀ ∧ x = x₀ ∧ y = y₀) s s' ↔
      Gives (fun i j => cl.wrld = wp₀ ∧ pixelIn asked.1 i = x₀ ∧ pixelIn asked.2 j = y₀) w s.disk msg
        asked ∧ w.NoneFades (fun _ => True) s.disk asked := by
    intro wp₀ x₀ y₀
    refine drawsIn_iff hs hw ?_ hobjs hbytes hothers
    intro pos hrange
    obtain ⟨i, j, hne⟩ := exists_other_pixel x₀ y₀ pos hrange
    exact ⟨i, j, fun hthere => hne hthere.2⟩
  constructor
  · rintro ⟨wp₀, x₀, y₀, hdrawn⟩
    obtain ⟨hgives, hkept⟩ := (hdraws wp₀ x₀ y₀).mp hdrawn
    refine ⟨⟨low4 x₀, low4 y₀, hgives.mono ?_⟩, hkept⟩
    rintro hrange i j ⟨-, rfl, rfl⟩
    obtain ⟨-, hi, hj⟩ := World.pixel_of_inRange hrange i j
    exact ⟨hi.symm, hj.symm⟩
  · rintro ⟨⟨i₀, j₀, hgives⟩, hkept⟩
    use cl.wrld, pixelIn asked.1 i₀, pixelIn asked.2 j₀
    refine (hdraws _ _ _).mpr ⟨hgives.mono ?_, hkept⟩
    rintro - i j ⟨rfl, rfl⟩
    exact ⟨rfl, rfl, rfl⟩

/-- A message of a client below the rank of a moderator is lawful, just if it does not clear what is
not blank and no faded chunk makes room. -/
theorem onMessage_lawful_iff (h : s.Consistent) (hs : s.Agrees) (hr : s.Rationed)
    (hws : s.infos ws = some si) (hplayer : si.player = some p) (hp : s.Live p cl)
    (hrank : cl.rank < Rank.moderator) (hok : (s.onMessage ws oc msg q wp).disk.intact) :
  s.Lawful cl (s.onMessage ws oc msg q wp) ↔ s.Sparse cl oc msg
  := by
  cases hasked : s.askedChunk cl oc msg with
  | none =>
      constructor
      · intro _ w asked _ hsome
        rw [hasked] at hsome
        cases hsome
      · intro _
        obtain ⟨hno, hsame⟩ :=
          (onMessage_untouched h hs hws hplayer hp hrank hok hasked).noPixel
        exact ⟨hno.onePixel, hsame, fun _ _ => hno⟩
  | some asked =>
      obtain ⟨w, hw, -⟩ := h.world_of_live hp
      obtain ⟨w', hobjs, hranked, hbytes, hothers⟩ :=
        onMessage_asked hs hws hplayer hp hrank hok hw hasked
      have hone := onePixel_iff hs hw hobjs hbytes hothers
      have hno : s.NoPixel (s.onMessage ws oc msg q wp) ↔
          Gives (fun _ _ => False) w s.disk msg asked ∧ w.NoneFades (fun _ => True) s.disk asked :=
        drawsIn_iff hs hw (fun _ _ => ⟨0, 0, id⟩) hobjs hbytes hothers
      constructor
      · rintro ⟨hlawful, -, hnone⟩ w₁ asked₁ hw₁ hasked₁
        obtain rfl : w = w₁ := Option.some.inj (hw.symm.trans hw₁)
        obtain rfl : asked = asked₁ := Option.some.inj (hasked.symm.trans hasked₁)
        obtain ⟨⟨i₀, j₀, hgives⟩, hkept⟩ := hone.mp hlawful
        refine ⟨?_, ?_, hkept⟩
        · exact fun h₉ => ⟨i₀, j₀, (gives_nine_iff h₉).mp hgives⟩
        · exact fun h₉ hrank' hquota =>
            (gives_nine_iff h₉).mp (hno.mp (hnone hrank' hquota)).1
      · intro hsparse
        obtain ⟨hclear, hclearNone, hkept⟩ := hsparse w asked hw hasked
        obtain ⟨-, hlength⟩ := askedChunk_eq_some hasked
        refine ⟨hone.mpr ⟨?_, hkept⟩, ?_, fun hrank' hquota => hno.mpr ⟨?_, hkept⟩⟩
        · obtain ⟨h₈ | h₉, -⟩ | ⟨h₁₁, -⟩ := hlength
          · exact ⟨0, 0, gives_eight w s.disk asked _ h₈⟩
          · obtain ⟨i₀, j₀, hblank⟩ := hclear h₉
            exact ⟨i₀, j₀, (gives_nine_iff h₉).mpr hblank⟩
          · exact ⟨_, _, gives_eleven w s.disk asked h₁₁⟩
        · exact (objs_update_iff (R := fun _ v v' => v'.db.rankedChunks = v.db.rankedChunks)
            (fun _ _ _ _ => rfl) hw hobjs).mpr hranked
        · obtain ⟨h₈ | h₉, -⟩ | ⟨-, hcan, -⟩ := hlength
          · exact gives_eight w s.disk asked _ h₈
          · exact (gives_nine_iff h₉).mpr (hclearNone h₉ hrank' hquota)
          · -- without a rank and a quota there is nothing to spend
            rw [Bucket.cannot_spend (hr p cl hp hquota hrank')] at hcan
            cases hcan

/-! ### Runs -/

/-- Every message of a client below the rank of a moderator in which no file operation fails is
lawful, just if it does not clear what is not blank and no faded chunk makes room; and the bytes of a
chunk are those that are found, before the message and after it. -/
structure Drawn (s : Server) : Prop where
  finds : s.Finds
  message : ∀ ws si p cl, s.infos ws = some si → si.player = some p → s.clients p = some cl →
    cl.rank < Rank.moderator →
      ∀ oc msg q wp, (s.onMessage ws oc msg q wp).disk.intact →
        (s.onMessage ws oc msg q wp).Finds ∧
          (s.Lawful cl (s.onMessage ws oc msg q wp) ↔ s.Sparse cl oc msg)

/-- It is so in every run from well-formed region files in which no world is joined, by its name,
while an object of it waits for its deletion, as long as no file operation fails. -/
theorem drawn_runs (modpw adminpw path : Bytes) (d : Disk) (clock : ℚ) (events : List Event)
    (hfiles : ∀ name, Database.Sound (World.dirOf (path ++ ofString "/") name) d)
    (hevents : Runs.Along step (fun s e => s.revives e = false)
      (Server.new modpw adminpw path d clock) events) :
  ((Server.new modpw adminpw path d clock).runs events).Drawn
  := by
  have h := Consistent.runs (consistent_new modpw adminpw path d clock) events
  have hr := rationed_runs modpw adminpw path d clock events
  have hs := agrees_runs hfiles hevents
  constructor
  case finds => exact finds_of_agrees hs
  case message =>
    intro ws si p cl hws hplayer hcl hrank oc msg q wp hok
    obtain ⟨cl', hcl', rfl⟩ := h.live_of_player hws hplayer
    obtain rfl : cl = cl' := Option.some.inj (hcl.symm.trans hcl'.1)
    obtain ⟨hbefore, hafter⟩ := onMessage_agrees h hs hws hplayer hcl' hok
    constructor
    · exact finds_of_agrees fun _ => hafter
    · exact onMessage_lawful_iff h hbefore hr hws hplayer hcl' hrank hok

/-- Somebody joins a world and sets the pixels (0, 0) and (1, 0). -/
def pixelEvents : List Event :=
  [.connect (ofString "a"), .message 0 .binary (ofString "w..") 0 0, .advance 1,
    .message 0 .binary [0, 0, 0, 0, 0, 0, 0, 0, 1, 2, 3] 1 1,
    .message 0 .binary [1, 0, 0, 0, 0, 0, 0, 0, 1, 2, 3] 1 1]

omit [Platform] in
/-- That run meets the conditions. -/
theorem drawn_runs_pixelEvents :
  let _ := Platform.quiet
  ((Server.new (ofString "m") (ofString "a") [] (Disk.empty fun _ => true) 0).runs
    pixelEvents).Drawn
  := by
  apply @drawn_runs Platform.quiet (ofString "m") (ofString "a") [] (Disk.empty fun _ => true) 0
    pixelEvents
  · intro name rx ry f hf
    cases hf
  · simp only [pixelEvents, Runs.along_cons]
    refine ⟨?_, ?_, ?_, ?_, ?_, Runs.along_nil⟩
    all_goals decide +kernel

/-- Whether the pixel `(x, y)` of the world at `wp` changes. -/
def repainted (s s' : Server) (wp : WorldPtr) (x y : Int32) : Bool :=
  (s.objs wp).any fun w => (s'.objs wp).any fun w' =>
    w'.colour s'.disk x y ≠ w.colour s.disk x y

omit [Platform] in
/-- Then it is among the pixels that may change. -/
theorem DrawsIn.of_repainted {x y : Int32} (h : DrawsIn P s s') (hpx : s.repainted s' wp x y = true) :
  P wp x y
  := by
  by_contra hP
  obtain ⟨w, hw, hafter⟩ := (Option.any_eq_true _ _).mp hpx
  obtain ⟨w', hw', hne⟩ := (Option.any_eq_true _ _).mp hafter
  obtain ⟨v, hv, hsame⟩ := h wp w hw
  obtain rfl : w' = v := Option.some.inj (hw'.symm.trans hv)
  exact absurd (hsame x y hP) (of_decide_eq_true hne)

/-- Every message of a client below the rank of a moderator is lawful. -/
def Ordered (s : Server) : Prop :=
  ∀ ws si p cl, s.infos ws = some si → si.player = some p → s.clients p = some cl →
    cl.rank < Rank.moderator → ∀ oc msg q wp, s.Lawful cl (s.onMessage ws oc msg q wp)

/-- A message of such a client that changes two pixels. -/
theorem not_ordered {q' : WorldPtr} (hlow : s.lowly ws p = true)
    (h₀ : s.repainted (s.onMessage ws oc msg q q') wp 0 0 = true)
    (h₁ : s.repainted (s.onMessage ws oc msg q q') wp 1 0 = true) :
  ¬ s.Ordered
  := by
  intro hordered
  obtain ⟨hinfo, hclient⟩ := Bool.and_eq_true_iff.mp hlow
  obtain ⟨si, hsi, hplayer⟩ := (Option.any_eq_true _ _).mp hinfo
  obtain ⟨cl, hcl, hrank⟩ := (Option.any_eq_true _ _).mp hclient
  obtain ⟨⟨wp₀, x₀, y₀, hdraws⟩, -⟩ := hordered ws si p cl hsi (beq_iff_eq.mp hplayer) hcl
    (of_decide_eq_true hrank) oc msg q q'
  obtain ⟨-, rfl, -⟩ := hdraws.of_repainted h₀
  obtain ⟨-, hx, -⟩ := hdraws.of_repainted h₁
  exact absurd hx (by decide)

omit [Platform] in
/-- Who set two pixels then clears their chunk with one message. -/
theorem not_ordered_pixelEvents :
  ¬ ∀ [Platform] (modpw adminpw path : Bytes) (d : Disk) (clock : ℚ) (events : List Event),
    ((Server.new modpw adminpw path d clock).runs events).Ordered
  := by
  intro h
  have hordered := @h Platform.quiet (ofString "m") (ofString "a") [] (Disk.empty fun _ => true) 0
    pixelEvents
  -- the message is that of nine zeros
  apply @not_ordered _ 0 0 1 .binary (List.replicate 9 0) 0 Platform.quiet 1 _ _ _ hordered
  · decide +kernel
  · decide +kernel
  · decide +kernel

end Server

end Owop
