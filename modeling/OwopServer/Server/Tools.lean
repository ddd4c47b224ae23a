import OwopServer.Server.Keeping
import OwopServer.World.Bytes

/-!
# The tools of moderators

What the messages of clients below the rank of a moderator do to the chunks of their world.
Protecting a chunk and pasting one is for moderators only, but clearing one is for everyone, and
a pixel is set without looking at the protection of its chunk.  While no world has two objects and
no file operation fails, they do nothing else to the bytes of chunks, except that a chunk to which
nothing was ever written may have another background after it made room for the one asked for.
-/

namespace Owop

open Bytes (ofString)
open Database (stored)

namespace World

/-! ### Protected chunks -/

variable {w w' : World} {d d' : Disk} {pos asked : ChunkPos}

/-- The chunk at a position is in range and protected. -/
def Protected (w : World) (pos : ChunkPos) : Prop :=
  inRange pos.1 pos.2 ∧ w.db.getChunkProtection pos.1 pos.2 = true

variable [Platform]

/-- No chunk that meets a condition makes room, with another background than that of the world, for
the one that is asked for. -/
def NoneFades (P : ChunkPos → Prop) (w : World) (d : Disk) (asked : ChunkPos) : Prop :=
  ∀ pos, w.drops d asked = some pos → P pos → ¬ w.Faded d pos

/-- A chunk that is asked for makes no room for itself. -/
theorem Sound.bytesAfter_self (h : Sound w d) :
  w.bytesAfter d asked asked = w.bytes d asked
  := by
  apply (h.bytesAfter_eq_iff asked asked).mpr
  rintro ⟨hdrops, c, hc, -⟩
  rw [drops] at hdrops
  split at hdrops
  case isTrue hroom =>
    rw [hroom.2.1] at hc
    cases hc
  case isFalse => cases hdrops

/-- Chunks keep their bytes when one is asked for, just if they are spared. -/
theorem Sound.noneFades_iff (h : Sound w d) (P : ChunkPos → Prop) (asked : ChunkPos) :
  (∀ pos, P pos → w.bytesAfter d asked pos = w.bytes d pos) ↔ w.NoneFades P d asked
  := by
  simp only [h.bytesAfter_eq_iff]
  constructor
  · exact fun hall pos hdrops hP hfaded => hall pos hP ⟨hdrops, hfaded⟩
  · exact fun hkept pos hP hboth => hkept pos hboth.1 hP hboth.2

/-- The same, when the chunk that is asked for gets other bytes. -/
theorem Sound.keeps_iff (h : Sound w d) {P : ChunkPos → Prop}
    (hP : ∀ pos, P pos → inRange pos.1 pos.2) (asked : ChunkPos) (data : Data) :
  (∀ pos, P pos → (if inRange asked.1 asked.2 ∧ pos = asked then data
      else w.bytesAfter d asked pos) = w.bytes d pos)
    ↔ (P asked → data = w.bytes d asked) ∧ w.NoneFades P d asked
  := by
  rw [← h.noneFades_iff]
  constructor
  · intro hall
    constructor
    · intro hasked
      have hsame := hall asked hasked
      rw [if_pos ⟨hP asked hasked, rfl⟩] at hsame
      exact hsame
    · intro pos hpos
      by_cases heq : pos = asked
      · rw [heq, h.bytesAfter_self]
      · have hsame := hall pos hpos
        rw [if_neg (fun hboth => heq hboth.2)] at hsame
        exact hsame
  · rintro ⟨hdata, hothers⟩ pos hpos
    split
    case isTrue heq =>
      obtain ⟨-, rfl⟩ := heq
      exact hdata hpos
    case isFalse => exact hothers pos hpos

/-- Looking for a chunk does not change which chunks are protected. -/
theorem ranked_getChunk (w : World) (d : Disk) (x y : Int32) :
  (w.getChunk d x y).2.1.db.rankedChunks = w.db.rankedChunks
  := (getChunk_frame w d x y).db.props.rankedChunks

/-- Only what is asked for as such changes which chunks are protected. -/
theorem ranked_run (w : World) (d : Disk) (a : WorldAct)
    (ha : ∀ x y state, a ≠ .setChunkProtection x y state) :
  (a.run w d).1.db.rankedChunks = w.db.rankedChunks
  := by
  have hget := w.ranked_getChunk d
  have hself : ∀ {w' pos}, a.wants w = some (w', pos) → w' = w := by
    intro w' pos hwants
    cases a with
    | setChunkProtection x y state => exact absurd rfl (ha x y state)
    | sendChunk => exact (Prod.mk.inj (Option.some.inj hwants)).1.symm
    | delChunk => exact (Prod.mk.inj (Option.some.inj hwants)).1.symm
    | pasteChunk => exact (Prod.mk.inj (Option.some.inj hwants)).1.symm
    | putPx => exact (Prod.mk.inj (Option.some.inj hwants)).1.symm
    | setProp => cases hwants
    | reload => cases hwants
    | setDefaultRank => cases hwants
    | broadcast => cases hwants
  have heffect := a.effect w d
  generalize a.run w d = done at heffect ⊢
  cases heffect with
  | rest hw' =>
      rw [hw']
  | prop => rfl
  | look => exact hget _ _
  | @chunk x y c w' d' outs data _ _ hgot =>
      have hsame := hget x y
      rw [hgot] at hsame
      exact hsame
  | @pixel x y c w' d' clr _ _ hgot =>
      have hsame := hget (chunkOf x) (chunkOf y)
      rw [hgot] at hsame
      exact hsame
  | outside _ hwants =>
      exact congrArg (fun v => v.db.rankedChunks) (hself hwants)
  | @protect x y state c w' d' outs hwants _ hgot =>
      have hsame := ranked_getChunk { w with db := w.db.setChunkProtection x y state } d x y
      rw [hgot] at hsame
      exact hsame.trans (congrArg (fun v => v.db.rankedChunks) (hself hwants))

end World

namespace Server

variable [Platform] {s s' s'' : Server} {D : Scope}

/-! ### What a world is asked for -/

omit [Platform] in
/-- A message changes no world and no file. -/
theorem send_quiet (s : Server) (ws : Ws) (op : OpCode) (msg : Bytes) :
  (s.send ws op msg).objs = s.objs ∧ (s.send ws op msg).disk = s.disk
  := by
  rw [send, withInfo]
  split <;> exact ⟨rfl, rfl⟩

omit [Platform] in
/-- A loop whose turns change no world and no file. -/
theorem foldl_quiet {α : Type*} {f : Server → α → Server}
    (hf : ∀ s a, (f s a).objs = s.objs ∧ (f s a).disk = s.disk) (l : List α) (s : Server) :
  (l.foldl f s).objs = s.objs ∧ (l.foldl f s).disk = s.disk
  := by
  induction l generalizing s with
  | nil => exact ⟨rfl, rfl⟩
  | cons a l ih =>
      obtain ⟨hobjs, hdisk⟩ := ih (f s a)
      exact ⟨hobjs.trans (hf s a).1, hdisk.trans (hf s a).2⟩

omit [Platform] in
/-- What a world sends changes no world and no file. -/
theorem sendOut_quiet (w : World) (s : Server) (out : Out) :
  (s.sendOut w out).objs = s.objs ∧ (s.sendOut w out).disk = s.disk
  := by
  cases out with
  | all op msg =>
      apply foldl_quiet
      intro s p
      rw [withClient]
      split
      · exact send_quiet s _ op msg
      · exact ⟨rfl, rfl⟩
  | one ws op msg => exact send_quiet s ws op msg

/-- A world that is asked for something is changed as it says, and no other world is. -/
theorem act_run {wp : WorldPtr} {w : World} (hwp : s.objs wp = some w) (a : WorldAct) :
  (s.act wp a).objs = Function.update s.objs wp (some (a.run w s.disk).1) ∧
    (s.act wp a).disk = (a.run w s.disk).2.1
  := by
  rw [act, withWorld_eq _ hwp]
  exact foldl_quiet (sendOut_quiet _) _ _

/-- The bytes of the chunks of other worlds are the same. -/
theorem Agrees.bytes_run {wp wp' : WorldPtr} {w v : World} (h : s.Agrees) (hwp : s.objs wp = some w)
    (hne : wp' ≠ wp) (hv : s.objs wp' = some v) (a : WorldAct) (pos : ChunkPos) :
  v.bytes (a.run w s.disk).2.1 pos = v.bytes s.disk pos
  := by
  obtain ⟨-, hwithin⟩ := World.run_frame w s.disk a
  have hname : v.name ≠ w.name := fun heq => hne (h.single hv hwp heq)
  have hsame := h.sameIn hwp (hwithin.mono
    (Set.subset_union_left.trans (Disk.owned_subset w.db.dir))) hname
  rw [← (h.loaded hv).1] at hsame
  rw [World.bytes, World.bytes, Database.stored_sameIn hsame]

omit [Platform] in
/-- One world is changed: what relates each of the others to itself relates all worlds before and
after, just if it relates that one. -/
theorem objs_update_iff {R : WorldPtr → World → World → Prop} {wp : WorldPtr} {w w₁ : World}
    {t : Server} (hothers : ∀ wp' v, wp' ≠ wp → s.objs wp' = some v → R wp' v v)
    (hwp : s.objs wp = some w) (ht : t.objs = Function.update s.objs wp (some w₁)) :
  (∀ wp' v, s.objs wp' = some v → ∃ v', t.objs wp' = some v' ∧ R wp' v v') ↔ R wp w w₁
  := by
  rw [ht]
  constructor
  · intro h
    obtain ⟨v', hv', hR⟩ := h wp w hwp
    rw [Function.update_self] at hv'
    obtain rfl := Option.some.inj hv'
    exact hR
  · intro h wp' v hv
    by_cases heq : wp' = wp
    · subst heq
      obtain rfl : w = v := Option.some.inj (hwp.symm.trans hv)
      exact ⟨w₁, Function.update_self _ _ _, h⟩
    · refine ⟨v, ?_, hothers wp' v heq hv⟩
      rw [Function.update_of_ne heq]
      exact hv

/-! ### Steps that leave the chunks alone -/

/-- The chunks of all worlds have the same bytes, and the same chunks are protected. -/
def Untouched (s s' : Server) : Prop :=
  ∀ wp w, s.objs wp = some w → ∃ w', s'.objs wp = some w' ∧
    (∀ pos, w'.bytes s'.disk pos = w.bytes s.disk pos) ∧ w'.db.rankedChunks = w.db.rankedChunks

omit [Platform] in
/-- The worlds and the files are the same. -/
theorem Untouched.of_same (hobjs : s'.objs = s.objs) (hdisk : s'.disk = s.disk) :
  s.Untouched s'
  := by
  intro wp w hw
  rw [hobjs, hdisk]
  exact ⟨w, hw, fun _ => rfl, rfl⟩

omit [Platform] in
/-- One thing after another. -/
theorem Untouched.trans (h : s.Untouched s') (h' : s'.Untouched s'') :
  s.Untouched s''
  := by
  intro wp w hw
  obtain ⟨w', hw', hbytes, hranked⟩ := h wp w hw
  obtain ⟨w'', hw'', hbytes', hranked'⟩ := h' wp w' hw'
  exact ⟨w'', hw'', fun pos => (hbytes' pos).trans (hbytes pos), hranked'.trans hranked⟩

omit [Platform] in
/-- One world is changed, but not its chunks. -/
theorem Untouched.of_update {wp : WorldPtr} {w : World} (w' : World) (hwp : s.objs wp = some w)
    (hdb : w'.db = w.db) (hchunks : w'.chunks = w.chunks) (hbgclr : w'.bgclr = w.bgclr)
    (hobjs : s'.objs = Function.update s.objs wp (some w')) (hdisk : s'.disk = s.disk) :
  s.Untouched s'
  := by
  rw [Untouched, hdisk]
  refine (objs_update_iff (R := fun _ v v' => (∀ pos, v'.bytes s.disk pos = v.bytes s.disk pos) ∧
    v'.db.rankedChunks = v.db.rankedChunks) (fun _ _ _ _ => ⟨fun _ => rfl, rfl⟩) hwp hobjs).mpr ?_
  exact ⟨fun pos => World.bytes_congr s.disk hdb hchunks hbgclr, by rw [hdb]⟩

omit [Platform] in
/-- Files are changed, but not those of worlds. -/
theorem Agrees.untouched_of_sameIn (h : s.Agrees) (hobjs : s'.objs = s.objs)
    (hdisk : ∀ name, Disk.SameIn (World.dirOf s.path name) s.disk s'.disk) :
  s.Untouched s'
  := by
  intro wp w hw
  have hsame := hdisk w.name
  rw [← (h.loaded hw).1] at hsame
  rw [hobjs]
  refine ⟨w, hw, ?_, rfl⟩
  intro pos
  rw [World.bytes, World.bytes, Database.stored_sameIn hsame]

/-- A world is saved. -/
theorem Agrees.untouched_save {wp : WorldPtr} {w : World} (h : s.Agrees) (hwp : s.objs wp = some w)
    (hok : (w.save s.disk).2.intact) :
  s.Untouched (s.saveWorld wp)
  := by
  obtain ⟨db, chunks, heq, hprops, -, hwithin⟩ := World.save_frame w s.disk
  rw [saveWorld_eq hwp]
  refine (objs_update_iff (t := { s with
      objs := Function.update s.objs wp (some (w.save s.disk).1)
      disk := (w.save s.disk).2 })
    (R := fun _ v v' => (∀ pos, v'.bytes (w.save s.disk).2 pos = v.bytes s.disk pos) ∧
    v'.db.rankedChunks = v.db.rankedChunks) ?_ hwp rfl).mpr ?_
  · intro wp' v hne hv
    have hname : v.name ≠ w.name := fun heq => hne (h.single hv hwp heq)
    have hsame := h.sameIn hwp (hwithin.mono (Disk.owned_subset w.db.dir)) hname
    rw [← (h.loaded hv).1] at hsame
    refine ⟨?_, rfl⟩
    intro pos
    rw [World.bytes, World.bytes, Database.stored_sameIn hsame]
  · refine ⟨fun pos => (h.loaded hwp).2.sound.bytes_save hok pos, ?_⟩
    rw [heq]
    exact hprops.rankedChunks

/-- A small step of a scope that may only broadcast. -/
theorem Agrees.untouched_small (hs : s.Agrees) {l : Label} (hl : Allowed D s l) (h : s.Consistent)
    (hok : (l.step s).disk.intact) (hD : ∀ a, D.acts a → ∃ msg, a = .broadcast msg) :
  s.Untouched (l.step s)
  := by
  cases hl with
  | send => exact Untouched.of_same rfl rfl
  | gone => exact Untouched.of_same rfl rfl
  | exec => exact Untouched.of_same rfl rfl
  | setrank => exact Untouched.of_same rfl rfl
  | change hp =>
      rw [Label.step, change_eq _ hp.1]
      exact Untouched.of_same rfl rfl
  | place hp =>
      obtain ⟨w, hw, -⟩ := h.world_of_live hp
      rw [Label.step, place_eq _ hp.1 hw]
      exact Untouched.of_update (w.updCli _) hw rfl rfl rfl rfl rfl
  | act hwp _ ha =>
      obtain ⟨msg, rfl⟩ := hD _ ha
      rw [Label.step, perform_eq _ hwp]
      exact Untouched.of_update _ hwp rfl rfl rfl rfl rfl
  | @drop ws si hws =>
      have hdisk : (s.drop ws).disk = s.disk := by rw [drop_rest h hws]
      intro wp w hw
      obtain hsame | ⟨p, cl, w₀, -, -, -, hw₀, hlose⟩ := drop_objs h hws wp
      · refine ⟨w, hsame.trans hw, ?_, rfl⟩
        intro pos
        rw [Label.step, hdisk]
      · obtain rfl : w = w₀ := Option.some.inj (hw.symm.trans hw₀)
        refine ⟨w.lose p cl.id, hlose, ?_, ?_⟩
        · intro pos
          rw [Label.step, hdisk, World.lose_rest]
          exact World.bytes_congr s.disk rfl rfl rfl
        · rw [World.lose_rest]
  | config => exact Untouched.of_same rfl rfl
  | lockdown => exact Untouched.of_same rfl rfl
  | lists => exact Untouched.of_same rfl rfl
  | eraseConns => exact Untouched.of_same rfl rfl
  | save hwp =>
      rw [Label.step, saveWorld_eq hwp] at hok
      exact hs.untouched_save hwp hok
  | files => exact hs.untouched_of_sameIn rfl fun name => (writefiles_sameIn s name).2

/-- What happens within a scope that may only broadcast. -/
theorem Chain.untouched (hc : Chain D s s') (h : s.Consistent) (hs : s.Agrees)
    (hok : s'.disk.intact) (hD : ∀ a, D.acts a → ∃ msg, a = .broadcast msg) :
  s.Untouched s' ∧ s'.Agrees
  := by
  induction hc with
  | refl => exact ⟨Untouched.of_same rfl rfl, hs⟩
  | @tail t t' hchain hstep ih =>
      obtain ⟨l, hl, rfl⟩ := hstep
      have ht : t.Consistent := Chain.consistent hchain h
      obtain ⟨more, hadvance⟩ := small_advance ht hl
      obtain ⟨huntouched, hagrees⟩ := ih (hadvance.intact hok)
      exact ⟨huntouched.trans (hagrees.untouched_small hl ht hok hD), hadvance.agrees hok hagrees⟩

/-! ### Messages -/

/-- No protected chunk of a world has other bytes. -/
def KeepsProtected (s s' : Server) : Prop :=
  ∀ wp w, s.objs wp = some w → ∃ w', s'.objs wp = some w' ∧
    ∀ pos, w.Protected pos → w'.bytes s'.disk pos = w.bytes s.disk pos

omit [Platform] in
/-- Where no chunk changes, no protected one does. -/
theorem Untouched.keepsProtected (h : s.Untouched s') :
  s.KeepsProtected s'
  := by
  intro wp w hw
  obtain ⟨w', hw', hbytes, -⟩ := h wp w hw
  exact ⟨w', hw', fun pos _ => hbytes pos⟩

/-- The chunk that a message of a client below the rank of a moderator asks for. -/
def askedChunk (s : Server) (cl : Client) (oc : OpCode) (msg : Bytes) : Option ChunkPos :=
  if oc ≠ .binary then none
  else if msg.length = 8 ∨ msg.length = 9 then some (chunkposOf msg)
  else if msg.length = 11 ∧ (cl.pixupdlimit.canSpend s.clock 1).1 = true then
    some (chunkOf (pixupdOf msg).x, chunkOf (pixupdOf msg).y)
  else none

/-- The message neither clears a protected chunk of which some byte is not that of the background,
nor sets a pixel of a protected chunk to a colour that it does not have, and no protected chunk that
has faded makes room for the chunk that it asks for. -/
def Harmless (s : Server) (cl : Client) (oc : OpCode) (msg : Bytes) : Prop :=
  ∀ w asked, s.objs cl.wrld = some w → s.askedChunk cl oc msg = some asked →
    (msg.length = 9 → w.Protected asked → w.bytes s.disk asked = Data.fill (w.ground asked)) ∧
    (msg.length = 11 → w.Protected asked →
      (w.bytes s.disk asked).px (low4 (pixupdOf msg).x) (low4 (pixupdOf msg).y)
        = (pixupdOf msg).rgb) ∧
    w.NoneFades w.Protected s.disk asked

variable {ws : Ws} {si : SocketInfo} {p q : ClientPtr} {cl : Client} {oc : OpCode} {msg : Bytes}
  {wp : WorldPtr}

omit [Platform] in
/-- Who is below the rank of a moderator is no administrator. -/
theorem not_isAdmin (hrank : cl.rank < Rank.moderator) :
  ¬ cl.isAdmin = true ∧ ¬ (cl.isMod || cl.isAdmin) = true
  := by
  have hne : ∀ r : Rank, Rank.moderator ≤ r → (cl.rank == r) = false := by
    intro r hr
    rw [beq_eq_false_iff_ne]
    rintro rfl
    exact absurd hrank (UInt8.not_lt.mpr hr)
  rw [Client.isAdmin, Client.isMod, hne _ (by decide), hne _ (by decide)]
  decide

/-- A binary message of a client. -/
theorem onMessage_binary (hws : s.infos ws = some si) (hplayer : si.player = some p)
    (hp : s.Live p cl) :
  s.onMessage ws .binary msg q wp = s.onBinary ws p cl si msg
  := by
  rw [onMessage, withInfo_eq _ hws, hplayer]
  dsimp only
  rw [withClient_eq _ hp.1, if_pos rfl]

/-- A client below the rank of an administrator sets a pixel, if its bucket lets it. -/
theorem onBinary_eleven (ws : Ws) (si : SocketInfo) (hlength : msg.length = 11)
    (hcl : s.clients p = some cl) (hrank : ¬ cl.isAdmin = true) :
  ∃ t : Server, t.objs = s.objs ∧ t.disk = s.disk ∧ s.onBinary ws p cl si msg
    = if (cl.pixupdlimit.canSpend s.clock 1).1 then
        t.act cl.wrld (.putPx (pixupdOf msg).x (pixupdOf msg).y (pixupdOf msg).rgb cl.rank)
      else t
  := by
  have hspent : (s.change p .spendPixel).clients p
      = some (ClientChange.apply s.clock cl .spendPixel) := by
    rw [change_eq _ hcl]
    exact Function.update_self _ _ _
  rw [onBinary, if_neg (by omega), if_neg (by omega), if_neg (by omega), if_neg (by omega),
    if_pos hlength, putPx, withClient_eq _ hcl]
  dsimp only
  rw [Bool.eq_false_iff.mpr hrank, Bool.false_or]
  split
  case isTrue hcan =>
    use (s.change p .spendPixel).change p (.lastclr (pixupdOf msg).rgb)
    rw [if_neg Bool.false_ne_true, change_eq _ hspent, change_eq _ hcl]
    exact ⟨rfl, rfl, rfl⟩
  case isFalse hcannot =>
    use s.change p .spendPixel
    rw [if_neg Bool.false_ne_true, change_eq _ hcl]
    exact ⟨rfl, rfl, rfl⟩

omit [Platform] in
/-- What asks for a chunk is a binary message of 8, 9 or 11 bytes. -/
theorem askedChunk_eq_some {asked : ChunkPos} (h : s.askedChunk cl oc msg = some asked) :
  oc = .binary ∧ ((msg.length = 8 ∨ msg.length = 9) ∧ asked = chunkposOf msg ∨
    msg.length = 11 ∧ (cl.pixupdlimit.canSpend s.clock 1).1 = true ∧
      asked = (chunkOf (pixupdOf msg).x, chunkOf (pixupdOf msg).y))
  := by
  rw [askedChunk] at h
  split_ifs at h with hoc hlength hpixel
  · exact ⟨not_not.mp hoc, Or.inl ⟨hlength, (Option.some.inj h).symm⟩⟩
  · exact ⟨not_not.mp hoc, Or.inr ⟨hpixel.1, hpixel.2, (Option.some.inj h).symm⟩⟩

omit [Platform] in
/-- The other binary messages. -/
theorem askedChunk_eq_none (h : s.askedChunk cl .binary msg = none) :
  msg.length ≠ 8 ∧ msg.length ≠ 9 ∧
    ¬ (msg.length = 11 ∧ (cl.pixupdlimit.canSpend s.clock 1).1 = true)
  := by
  rw [askedChunk, if_neg (not_not.mpr rfl)] at h
  split_ifs at h with hlength hpixel
  exact ⟨fun h₈ => hlength (Or.inl h₈), fun h₉ => hlength (Or.inr h₉), hpixel⟩

/-- A message of a client below the rank of a moderator that asks for no chunk leaves the chunks
alone. -/
theorem onMessage_untouched (h : s.Consistent) (hs : s.Agrees) (hws : s.infos ws = some si)
    (hplayer : si.player = some p) (hp : s.Live p cl) (hrank : cl.rank < Rank.moderator)
    (hok : (s.onMessage ws oc msg q wp).disk.intact) (hnone : s.askedChunk cl oc msg = none) :
  s.Untouched (s.onMessage ws oc msg q wp)
  := by
  obtain ⟨cl', hcl', rfl⟩ := h.live_of_player hws hplayer
  obtain rfl : cl = cl' := Option.some.inj (hp.1.symm.trans hcl'.1)
  obtain ⟨hadmin, hmod⟩ := not_isAdmin hrank
  have hchain : ∀ s', Chain (Scope.room cl.wrld) s s' → s'.disk.intact → s.Untouched s' :=
    fun s' hc hok' => (hc.untouched h hs hok' fun a ha => ha).1
  by_cases hoc : oc = .binary
  · subst hoc
    obtain ⟨h₈, h₉, h₁₁⟩ := askedChunk_eq_none hnone
    rw [onMessage_binary hws hplayer hp] at hok ⊢
    obtain ⟨a, ha, -⟩ | ⟨hlength, -⟩ | hc := onBinary_cases msg h hp hws hplayer
    · rw [asked, if_neg h₈, if_neg h₉] at ha
      split_ifs at ha
    · obtain ⟨t, hobjs, hdisk, heq⟩ := onBinary_eleven cl.ws si hlength hp.1 hadmin
      rw [heq, if_neg (fun hcan => h₁₁ ⟨hlength, hcan⟩)]
      exact Untouched.of_same hobjs hdisk
    · exact hchain _ (hc _ rfl trivial) hok
  · rw [onMessage, withInfo_eq _ hws, hplayer] at hok ⊢
    dsimp only at hok ⊢
    rw [withClient_eq _ hp.1, if_neg hoc] at hok ⊢
    split at hok
    case isTrue htext =>
      rw [if_pos htext]
      obtain ⟨b, hc⟩ := onText_chain msg h hp
      rw [Commands.scopeOf, if_neg hadmin] at hc
      exact hchain _ hc hok
    case isFalse htext =>
      rw [if_neg htext]
      exact Untouched.of_same rfl rfl

/-- The bytes that a message gives to the chunk that it asks for. -/
def given (w : World) (d : Disk) (msg : Bytes) (asked : ChunkPos) : Data :=
  if msg.length = 8 then w.bytes d asked
  else if msg.length = 9 then Data.fill (w.ground asked)
  else (w.bytes d asked).setPx (low4 (pixupdOf msg).x) (low4 (pixupdOf msg).y) (pixupdOf msg).rgb

omit [Platform] in
/-- A chunk is asked for. -/
theorem given_eight (w : World) (d : Disk) (asked : ChunkPos) (h₈ : msg.length = 8) :
  given w d msg asked = w.bytes d asked
  := by
  rw [given, if_pos h₈]

omit [Platform] in
/-- A chunk is cleared. -/
theorem given_nine (w : World) (d : Disk) (asked : ChunkPos) (h₉ : msg.length = 9) :
  given w d msg asked = Data.fill (w.ground asked)
  := by
  rw [given, if_neg (by omega), if_pos h₉]

omit [Platform] in
/-- A pixel is set. -/
theorem given_eleven (w : World) (d : Disk) (asked : ChunkPos) (h₁₁ : msg.length = 11) :
  given w d msg asked = (w.bytes d asked).setPx (low4 (pixupdOf msg).x) (low4 (pixupdOf msg).y)
    (pixupdOf msg).rgb
  := by
  rw [given, if_neg (by omega), if_neg (by omega)]

/-- A message of a client below the rank of a moderator that asks for a chunk: the chunk gets the
bytes that the message gives, and one may have made room for it. -/
theorem onMessage_asked (hs : s.Agrees) (hws : s.infos ws = some si)
    (hplayer : si.player = some p) (hp : s.Live p cl) (hrank : cl.rank < Rank.moderator)
    (hok : (s.onMessage ws oc msg q wp).disk.intact) {w : World} (hw : s.objs cl.wrld = some w)
    {asked : ChunkPos} (hasked : s.askedChunk cl oc msg = some asked) :
  ∃ w', (s.onMessage ws oc msg q wp).objs = Function.update s.objs cl.wrld (some w') ∧
    w'.db.rankedChunks = w.db.rankedChunks ∧
    (∀ pos, w'.bytes (s.onMessage ws oc msg q wp).disk pos
      = if World.inRange asked.1 asked.2 ∧ pos = asked then given w s.disk msg asked
        else w.bytesAfter s.disk asked pos) ∧
    ∀ wp' v, wp' ≠ cl.wrld → s.objs wp' = some v →
      ∀ pos, v.bytes (s.onMessage ws oc msg q wp).disk pos = v.bytes s.disk pos
  := by
  obtain ⟨-, hreliable⟩ := hs.loaded hw
  have hsound := hreliable.sound
  -- what an operation of the world of the client does to the bytes is all there is to show
  have hact : ∀ (t : Server) (a : WorldAct), t.objs = s.objs → t.disk = s.disk →
      (t.act cl.wrld a).disk.intact → (∀ x y state, a ≠ .setChunkProtection x y state) →
      ((a.run w s.disk).2.1.intact → ∀ pos, (a.run w s.disk).1.bytes (a.run w s.disk).2.1 pos
        = if World.inRange asked.1 asked.2 ∧ pos = asked then given w s.disk msg asked
          else w.bytesAfter s.disk asked pos) →
      ∃ w', (t.act cl.wrld a).objs = Function.update s.objs cl.wrld (some w') ∧
        w'.db.rankedChunks = w.db.rankedChunks ∧
        (∀ pos, w'.bytes (t.act cl.wrld a).disk pos
          = if World.inRange asked.1 asked.2 ∧ pos = asked then given w s.disk msg asked
            else w.bytesAfter s.disk asked pos) ∧
        ∀ wp' v, wp' ≠ cl.wrld → s.objs wp' = some v →
          ∀ pos, v.bytes (t.act cl.wrld a).disk pos = v.bytes s.disk pos := by
    intro t a hobjs hdisk hok' hmark hbytes
    obtain ⟨hobjs', hdisk'⟩ := act_run (show t.objs cl.wrld = some w by rw [hobjs, hw]) a
    rw [hobjs, hdisk] at hobjs'
    rw [hdisk] at hdisk'
    rw [hdisk'] at hok' ⊢
    refine ⟨_, hobjs', w.ranked_run s.disk a hmark, hbytes hok', ?_⟩
    exact fun wp' v hne hv => hs.bytes_run hw hne hv a
  obtain ⟨rfl, ⟨hlength, rfl⟩ | ⟨h₁₁, hcan, rfl⟩⟩ := askedChunk_eq_some hasked
  · rw [onMessage_binary hws hplayer hp] at hok ⊢
    obtain h₈ | h₉ := hlength
    · have heq : s.onBinary ws p cl si msg
          = s.act cl.wrld (.sendChunk cl.ws (chunkposOf msg).1 (chunkposOf msg).2) := by
        rw [onBinary, if_neg (by omega), if_pos h₈]
      rw [heq] at hok ⊢
      refine hact s _ rfl rfl hok (by simp) ?_
      intro hrun pos
      have hbytes := hsound.bytes_getChunk (x := (chunkposOf msg).1) (y := (chunkposOf msg).2)
      rw [given_eight w s.disk _ h₈]
      have hself : w.bytesAfter s.disk (chunkposOf msg) (chunkposOf msg)
          = w.bytes s.disk (chunkposOf msg) := hsound.bytesAfter_self
      rw [WorldAct.run, World.sendChunk] at hrun ⊢
      generalize w.getChunk s.disk (chunkposOf msg).1 (chunkposOf msg).2 = got at hbytes hrun ⊢
      obtain ⟨c, w', d'⟩ := got
      have hall : w'.bytes d' pos = if World.inRange (chunkposOf msg).1 (chunkposOf msg).2 ∧
          pos = chunkposOf msg then w.bytes s.disk (chunkposOf msg)
          else w.bytesAfter s.disk (chunkposOf msg) pos := by
        have hpos := hbytes (by cases c <;> exact hrun) pos
        refine hpos.trans ?_
        split
        case isTrue heq => rw [heq.2, hself]
        case isFalse => rfl
      cases c <;> exact hall
    · have heq : s.onBinary ws p cl si msg
          = s.act cl.wrld (.delChunk (chunkposOf msg).1 (chunkposOf msg).2) := by
        rw [onBinary, if_neg (by omega), if_neg (by omega), if_pos h₉]
      rw [heq] at hok ⊢
      refine hact s _ rfl rfl hok (by simp) ?_
      intro hrun pos
      rw [given_nine w s.disk _ h₉]
      exact hsound.bytes_delChunk hrun pos
  · obtain ⟨t, hobjs, hdisk, heq⟩ := onBinary_eleven ws si h₁₁ hp.1 (not_isAdmin hrank).1
    rw [onMessage_binary hws hplayer hp, heq, if_pos hcan] at hok ⊢
    refine hact t _ hobjs hdisk hok (by simp) ?_
    intro hrun pos
    rw [given_eleven w s.disk _ h₁₁]
    refine (hsound.bytes_putPx (pixupdOf msg).rgb cl.rank hrun pos).trans ?_
    split
    case isTrue heq => rw [heq.2]
    case isFalse => rfl

/-! ### Protected chunks -/

/-- A message of a client below the rank of a moderator leaves the bytes of all protected chunks as
they are, just if it is harmless. -/
theorem onMessage_keepsProtected_iff (h : s.Consistent) (hs : s.Agrees)
    (hws : s.infos ws = some si) (hplayer : si.player = some p) (hp : s.Live p cl)
    (hrank : cl.rank < Rank.moderator) (hok : (s.onMessage ws oc msg q wp).disk.intact) :
  s.KeepsProtected (s.onMessage ws oc msg q wp) ↔ s.Harmless cl oc msg
  := by
  cases hasked : s.askedChunk cl oc msg with
  | none =>
      constructor
      · intro _ w asked _ hsome
        rw [hasked] at hsome
        cases hsome
      · intro _
        exact (onMessage_untouched h hs hws hplayer hp hrank hok hasked).keepsProtected
  | some asked =>
      obtain ⟨w, hw, -⟩ := h.world_of_live hp
      obtain ⟨w', hobjs, -, hbytes, hothers⟩ :=
        onMessage_asked hs hws hplayer hp hrank hok hw hasked
      have hsound := (hs.loaded hw).2.sound
      have hkeeps := hsound.keeps_iff (P := w.Protected) (fun pos hpos => hpos.1) asked
        (given w s.disk msg asked)
      rw [KeepsProtected, objs_update_iff (R := fun _ v v' => ∀ pos, v.Protected pos →
          v'.bytes (s.onMessage ws oc msg q wp).disk pos = v.bytes s.disk pos)
        (fun wp' v hne hv pos _ => hothers wp' v hne hv pos) hw hobjs]
      -- what is given are the old bytes
      have hgiven : (w.Protected asked → given w s.disk msg asked = w.bytes s.disk asked) ↔
          (msg.length = 9 → w.Protected asked →
            w.bytes s.disk asked = Data.fill (w.ground asked)) ∧
          (msg.length = 11 → w.Protected asked →
            (w.bytes s.disk asked).px (low4 (pixupdOf msg).x) (low4 (pixupdOf msg).y)
              = (pixupdOf msg).rgb) := by
        obtain ⟨-, ⟨h₈ | h₉, -⟩ | ⟨h₁₁, -⟩⟩ := askedChunk_eq_some hasked
        · rw [given_eight w s.disk _ h₈]
          constructor
          · exact fun _ => ⟨fun h₉ => absurd h₈ (by omega), fun h₁₁ => absurd h₈ (by omega)⟩
          · exact fun _ _ => rfl
        · rw [given_nine w s.disk _ h₉]
          constructor
          · exact fun hold => ⟨fun _ hprot => (hold hprot).symm, fun h₁₁ => absurd h₉ (by omega)⟩
          · exact fun hnew hprot => (hnew.1 h₉ hprot).symm
        · rw [given_eleven w s.disk _ h₁₁]
          constructor
          · intro hold
            refine ⟨fun h₉ => absurd h₁₁ (by omega), fun _ hprot => ?_⟩
            rw [← hold hprot, Data.px_setPx_same]
          · exact fun hnew hprot => Data.setPx_eq_self (hnew.2 h₁₁ hprot)
      simp only [hbytes]
      rw [hkeeps, hgiven]
      constructor
      · rintro ⟨hboth, hkept⟩ w₁ asked₁ hw₁ hasked₁
        obtain rfl : w = w₁ := Option.some.inj (hw.symm.trans hw₁)
        obtain rfl : asked = asked₁ := Option.some.inj (hasked.symm.trans hasked₁)
        exact ⟨hboth.1, hboth.2, hkept⟩
      · intro hharmless
        obtain ⟨hclear, hpixel, hkept⟩ := hharmless w asked hw hasked
        exact ⟨⟨hclear, hpixel⟩, hkept⟩


/-! ### Runs -/

/-- What is found when a chunk is asked for has the bytes of the chunk, if no file operation
fails. -/
def Finds (s : Server) : Prop :=
  ∀ wp w x y c w' d', s.objs wp = some w → w.getChunk s.disk x y = (some c, w', d') → d'.intact →
    c.data = w.bytes s.disk (x, y)

/-- What the objects remember is all that this needs. -/
theorem finds_of_agrees (hs : s.disk.intact → s.Agrees) :
  s.Finds
  := by
  intro wp w x y c w' d' hw hget hok
  have hwithin := (World.getChunk_frame w s.disk x y).db.within
  rw [hget] at hwithin
  have hagrees := hs (hwithin.intact hok)
  exact ((hagrees.loaded hw).2.sound.found hget hok).1

/-- A message of a client keeps what the objects remember. -/
theorem onMessage_agrees (h : s.Consistent) (hs : s.disk.intact → s.Agrees)
    (hws : s.infos ws = some si) (hplayer : si.player = some p) (hp : s.Live p cl)
    (hok : (s.onMessage ws oc msg q wp).disk.intact) :
  s.Agrees ∧ (s.onMessage ws oc msg q wp).Agrees
  := by
  obtain ⟨b, hc⟩ : ∃ b, Chain (messageScope b cl) s (s.onMessage ws oc msg q wp) :=
    onMessage_chain h hws hplayer hp
  have hmoves : Moves (messageScope b cl) False False False s (s.onMessage ws oc msg q wp) := hc.moves
  obtain ⟨more, hadvance⟩ := hmoves.advances h id
  have hagrees := hs (hadvance.intact hok)
  exact ⟨hagrees, hadvance.agrees hok hagrees⟩

/-- Every message of a client below the rank of a moderator in which no file operation fails leaves
the bytes of all protected chunks as they are, just if it is harmless; and the bytes of a chunk are
those that are found, before the message and after it. -/
structure Guarded (s : Server) : Prop where
  finds : s.Finds
  message : ∀ ws si p cl, s.infos ws = some si → si.player = some p → s.clients p = some cl →
    cl.rank < Rank.moderator →
      ∀ oc msg q wp, (s.onMessage ws oc msg q wp).disk.intact →
        (s.onMessage ws oc msg q wp).Finds ∧
          (s.KeepsProtected (s.onMessage ws oc msg q wp) ↔ s.Harmless cl oc msg)

/-- It is so in every run from well-formed region files in which no world is joined, by its name,
while an object of it waits for its deletion, as long as no file operation fails. -/
theorem guarded_runs (modpw adminpw path : Bytes) (d : Disk) (clock : ℚ) (events : List Event)
    (hfiles : ∀ name, Database.Sound (World.dirOf (path ++ ofString "/") name) d)
    (hevents : Runs.Along step (fun s e => s.revives e = false)
      (Server.new modpw adminpw path d clock) events) :
  ((Server.new modpw adminpw path d clock).runs events).Guarded
  := by
  have h := Consistent.runs (consistent_new modpw adminpw path d clock) events
  have hs := agrees_runs hfiles hevents
  constructor
  case finds => exact finds_of_agrees hs
  case message =>
    intro ws si p cl hws hplayer hcl hrank oc msg q wp hok
    obtain ⟨cl', hcl', rfl⟩ := h.live_of_player hws hplayer
    obtain rfl : cl = cl' := Option.some.inj (hcl.symm.trans hcl'.1)
    obtain ⟨hbefore, hafter⟩ := onMessage_agrees h hs hws hplayer hcl' hok
    constructor
    · exact finds_of_agrees fun _ => hafter
    · exact onMessage_keepsProtected_iff h hbefore hws hplayer hcl' hrank hok

/-- A moderator sets the pixel (0, 0) and protects its chunk, and then somebody else joins. -/
def protectedEvents : List Event :=
  [.connect (ofString "a"), .message 0 .binary (ofString "w..") 0 0,
    .message 0 .text (ofString "/modlogin m\n") 1 1, .advance 1,
    .message 0 .binary [0, 0, 0, 0, 0, 0, 0, 0, 1, 2, 3] 1 1,
    .message 0 .binary [0, 0, 0, 0, 0, 0, 0, 0, 1, 0] 1 1,
    .connect (ofString "b"), .message 1 .binary (ofString "w..") 1 1]

omit [Platform] in
/-- That run meets the conditions. -/
theorem guarded_runs_protectedEvents :
  let _ := Platform.quiet
  ((Server.new (ofString "m") (ofString "a") [] (Disk.empty fun _ => true) 0).runs
    protectedEvents).Guarded
  := by
  apply @guarded_runs Platform.quiet (ofString "m") (ofString "a") [] (Disk.empty fun _ => true) 0
    protectedEvents
  · intro name rx ry f hf
    cases hf
  · simp only [protectedEvents, Runs.along_cons]
    refine ⟨?_, ?_, ?_, ?_, ?_, ?_, ?_, ?_, Runs.along_nil⟩
    all_goals decide +kernel

/-- Whether the pixel (0, 0) of the world at `wp` changes, though its chunk is protected. -/
def defaced (s s' : Server) (wp : WorldPtr) : Bool :=
  (s.objs wp).any fun w => w.db.getChunkProtection 0 0 &&
    (s'.objs wp).any fun w' =>
      (w'.bytes s'.disk (0, 0)).px 0 0 ≠ (w.bytes s.disk (0, 0)).px 0 0

omit [Platform] in
/-- Then the bytes of a protected chunk change. -/
theorem not_keepsProtected (h : s.defaced s' wp = true) :
  ¬ s.KeepsProtected s'
  := by
  intro hkeeps
  obtain ⟨w, hw, hbytes⟩ := (Option.any_eq_true _ _).mp h
  obtain ⟨hprotected, hafter⟩ := Bool.and_eq_true_iff.mp hbytes
  obtain ⟨w', hw', hne⟩ := (Option.any_eq_true _ _).mp hafter
  obtain ⟨v, hv, hsame⟩ := hkeeps wp w hw
  obtain rfl : w' = v := Option.some.inj (hw'.symm.trans hv)
  have hpixel := congrArg (fun data => data.px 0 0) (hsame (0, 0) ⟨by decide, hprotected⟩)
  exact absurd hpixel (of_decide_eq_true hne)

/-- Every message of a client below the rank of a moderator leaves the bytes of all protected
chunks as they are. -/
def Enforces (s : Server) : Prop :=
  ∀ ws si p cl, s.infos ws = some si → si.player = some p → s.clients p = some cl →
    cl.rank < Rank.moderator →
      ∀ oc msg q wp, s.KeepsProtected (s.onMessage ws oc msg q wp)

/-- The client `p` of a connection has a rank below that of a moderator. -/
def lowly (s : Server) (ws : Ws) (p : ClientPtr) : Bool :=
  (s.infos ws).any (fun si => si.player == some p) &&
    (s.clients p).any fun cl => cl.rank < Rank.moderator

/-- A message of such a client that defaces the world. -/
theorem not_enforces (hlow : s.lowly ws p = true)
    (hdefaced : s.defaced (s.onMessage ws oc msg q wp) 0 = true) :
  ¬ s.Enforces
  := by
  intro henforces
  obtain ⟨hinfo, hclient⟩ := Bool.and_eq_true_iff.mp hlow
  obtain ⟨si, hsi, hplayer⟩ := (Option.any_eq_true _ _).mp hinfo
  obtain ⟨cl, hcl, hrank⟩ := (Option.any_eq_true _ _).mp hclient
  exact not_keepsProtected hdefaced
    (henforces ws si p cl hsi (beq_iff_eq.mp hplayer) hcl (of_decide_eq_true hrank) oc msg q wp)

omit [Platform] in
/-- The other client clears the chunk that the moderator protected. -/
theorem not_enforces_protectedEvents :
  ¬ ∀ [Platform] (modpw adminpw path : Bytes) (d : Disk) (clock : ℚ) (events : List Event),
    ((Server.new modpw adminpw path d clock).runs events).Enforces
  := by
  intro h
  have henforces := @h Platform.quiet (ofString "m") (ofString "a") [] (Disk.empty fun _ => true) 0
    protectedEvents
  -- the message is that of nine zeros
  apply @not_enforces Platform.quiet _ 1 1 2 .binary (List.replicate 9 0) 2 _ _ henforces
  · decide +kernel
  · decide +kernel

end Server

end Owop
