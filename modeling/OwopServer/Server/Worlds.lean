import OwopServer.Server.Steps
import OwopServer.World.Limits

/-!
# The life of a world

What the server does to one of its worlds, whatever happens to the others and to the files.  What
each of these operations keeps holds of every world in every run of the server; so no update that
waits in a world with clients is forgotten, as the timer that sends it is active.
-/

namespace Owop

open Bytes (ofString)

/-! ### Operations on a world -/

/-- What the server does to a world. -/
inductive Deed where
  /-- What a message or a command asks the world for. -/
  | act (a : WorldAct)
  /-- A client has another position. -/
  | move (p : ClientPtr)
  /-- A client joins, with the next id. -/
  | enter (p : ClientPtr)
  /-- A client leaves. -/
  | leave (p : ClientPtr) (id : UInt32)
  /-- The timer ends; `info` gives the ids and the positions of clients. -/
  | tick (info : ClientPtr → UInt32 × PInfo)
  | save

namespace World

variable [Platform]

/-- The world after an operation, when the files are `d`. -/
def apply (w : World) (d : Disk) : Deed → World
  | .act a => (a.run w d).1
  | .move p => w.updCli p
  | .enter p => w.getId.2.addCli p
  | .leave p id => w.lose p id
  | .tick info => (w.sendUpdates info).1
  | .save => (w.save d).1

/-- The world after operations with the files as they are then. -/
def life (w : World) (ops : List (Disk × Deed)) : World :=
  Runs.run (fun w op => w.apply op.1 op.2) w ops

/-- The worlds that are made by a server and have lived. -/
def Reached (w : World) : Prop := ∃ path name d ops, w = (World.new path name d).1.life ops

/-- At the start. -/
theorem reached_new (path name : Bytes) (d : Disk) :
  (World.new path name d).1.Reached
  := ⟨path, name, d, [], rfl⟩

/-- One more deed. -/
theorem Reached.apply {w : World} (h : w.Reached) (d : Disk) (op : Deed) :
  (w.apply d op).Reached
  := by
  obtain ⟨path, name, d₀, ops, rfl⟩ := h
  exact ⟨path, name, d₀, ops ++ [(d, op)],
    (Runs.run_concat (fun (w : World) (op : Disk × Deed) => w.apply op.1 op.2) _ ops (d, op)).symm⟩

/-- What holds of new worlds and is kept by operations holds of the worlds that are reached. -/
theorem Reached.keeps {P : World → Prop} {w : World} (h : w.Reached)
    (hnew : ∀ path name d, P (World.new path name d).1)
    (hkeep : ∀ w d op, P w → P (w.apply d op)) :
  P w
  := by
  obtain ⟨path, name, d, ops, rfl⟩ := h
  rw [life]
  induction ops using List.reverseRecOn with
  | nil => exact hnew path name d
  | append_singleton ops op ih =>
      rw [Runs.run_concat]
      exact hkeep _ op.1 op.2 ih

end World

namespace Server

variable [Platform] {s s' : Server} {D : Scope} {wp : WorldPtr} {w' : World}

/-- A small step does at most one operation to a world, of those in its scope. -/
theorem Allowed.world {l : Label} (hl : Allowed D s l) (h : s.Consistent)
    (hw' : (l.step s).objs wp = some w') :
  s.objs wp = some w' ∨
    ∃ w op, s.objs wp = some w ∧ w' = w.apply s.disk op ∧ ∀ a, op = .act a → D.acts a
  := by
  -- a world is put in the place of another
  have hput : ∀ {wp₀ w₀} op, s.objs wp₀ = some w₀ → (∀ a, op = .act a → D.acts a) →
      Function.update s.objs wp₀ (some (w₀.apply s.disk op)) wp = some w' →
      s.objs wp = some w' ∨
        ∃ w op, s.objs wp = some w ∧ w' = w.apply s.disk op ∧ ∀ a, op = .act a → D.acts a := by
    intro wp₀ w₀ op hw₀ hop hupdate
    obtain ⟨rfl, rfl⟩ | ⟨-, hold⟩ := Table.update_eq_some.mp hupdate
    · exact Or.inr ⟨w₀, op, hw₀, rfl, hop⟩
    · exact Or.inl hold
  cases hl with
  | send => exact Or.inl hw'
  | gone => exact Or.inl hw'
  | exec => exact Or.inl hw'
  | setrank => exact Or.inl hw'
  | change hp =>
      rw [Label.step, change_eq _ hp.1] at hw'
      exact Or.inl hw'
  | @place p cl pos hp =>
      obtain ⟨w, hw, -⟩ := h.world_of_live hp
      rw [Label.step, place_eq _ hp.1 hw] at hw'
      exact hput (.move p) hw (by simp) hw'
  | @act wp₀ w a hwp _ hact =>
      rw [Label.step, perform_eq _ hwp] at hw'
      exact hput (.act a) hwp (fun a' heq => Deed.act.inj heq ▸ hact) hw'
  | @drop ws si hws =>
      obtain heq | ⟨p, cl, w, -, -, -, hw, hlose⟩ := drop_objs h hws wp
      · exact Or.inl (heq.symm.trans hw')
      · have heq : some w' = some (w.lose p cl.id) := hw'.symm.trans hlose
        exact Or.inr ⟨w, .leave p cl.id, hw, Option.some.inj heq, by simp⟩
  | config => exact Or.inl hw'
  | lockdown => exact Or.inl hw'
  | lists => exact Or.inl hw'
  | eraseConns => exact Or.inl hw'
  | @save wp₀ w hwp =>
      rw [Label.step, saveWorld_eq hwp] at hw'
      exact hput .save hwp (by simp) hw'
  | files => exact Or.inl hw'

/-- A move does at most one operation to a world, or makes it for who joins it first. -/
theorem Move.world {misuses connects loads : Prop} (hm : Move D misuses connects loads s s')
    (h : s.Consistent) (hw' : s'.objs wp = some w') :
  s.objs wp = some w' ∨ (∃ w op, s.objs wp = some w ∧ w' = w.apply s.disk op) ∨
    ∃ name p, w' = (World.new s.path name s.disk).1.apply s.disk (.enter p)
  := by
  cases hm with
  | small hl =>
      obtain hold | ⟨w, op, hw, heq, -⟩ := hl.world h hw'
      · exact Or.inl hold
      · exact Or.inr (Or.inl ⟨w, op, hw, heq⟩)
  | misuse => exact Or.inl hw'
  | openWs => exact Or.inl hw'
  | countUp => exact Or.inl hw'
  | captcha => exact Or.inl hw'
  | @join ws si p name wp₀ w hws hplayer hp hname hwp =>
      obtain ⟨rfl, rfl⟩ | ⟨-, hold⟩ := Table.update_eq_some.mp hw'
      · exact Or.inr (Or.inl ⟨w, .enter p, hwp, rfl⟩)
      · exact Or.inl hold
  | @found ws si p name wp₀ hws hplayer hp hname hwp =>
      obtain ⟨rfl, rfl⟩ | ⟨hne, hold⟩ := Table.update_eq_some.mp hw'
      · exact Or.inr (Or.inr ⟨name, p, rfl⟩)
      · exact Or.inl ((Function.update_of_ne hne _ _).symm.trans hold)
  | @flush wp₀ w hwp =>
      obtain ⟨rfl, rfl⟩ | ⟨-, hold⟩ := Table.update_eq_some.mp hw'
      · exact Or.inr (Or.inl ⟨w, .tick s.infoOf, hwp, rfl⟩)
      · exact Or.inl hold
  | freeClient => exact Or.inl hw'
  | @freeWorld i wp₀ w hi hwp =>
      exact Or.inl (Table.of_update_none hw')
  | dropServer => exact Or.inl hw'
  | close => exact Or.inl hw'
  | exit => exact Or.inl hw'
  | advance => exact Or.inl hw'
  | rehash => exact Or.inl hw'

/-- Every world in a run of the server was made and has lived. -/
theorem reached_runs (modpw adminpw path : Bytes) (d : Disk) (clock : ℚ) (events : List Event)
    (wp : WorldPtr) (w : World)
    (hw : ((Server.new modpw adminpw path d clock).runs events).objs wp = some w) :
  w.Reached
  := by
  have hruns := runs_keep (P := fun s => ∀ wp w, s.objs wp = some w → w.Reached)
    (consistent_new modpw adminpw path d clock)
    (by simp [Server.new, readfiles])
    (by
      intro D m c l t t' ht hP hm wp w' hw'
      obtain hold | ⟨w, op, hw, rfl⟩ | ⟨name, p, rfl⟩ := hm.world ht hw'
      · exact hP wp w' hold
      · exact (hP wp w hw).apply t.disk op
      · exact (World.reached_new t.path name t.disk).apply t.disk (.enter p)) events
  exact hruns wp w hw

end Server

/-! ### No update is forgotten -/

namespace World

/-- If there are clients and something waits to be sent, the timer is active. -/
def Armed (w : World) : Prop :=
  w.clients ≠ [] → w.pxupdates ≠ [] ∨ w.plupdates ≠ [] ∨ w.plleft ≠ [] → w.updActive = true

/-- What the timer depends on. -/
def traffic (w : World) : List ClientPtr × List PixUpd × List ClientPtr × List UInt32 × Bool :=
  (w.clients, w.pxupdates, w.plupdates, w.plleft, w.updActive)

/-- What the timer depends on is the same. -/
theorem Armed.of_traffic {w w' : World} (h : w.Armed) (ht : w'.traffic = w.traffic) :
  w'.Armed
  := by
  simp only [traffic, Prod.mk.injEq] at ht
  obtain ⟨hclients, hpx, hpl, hleft, hactive⟩ := ht
  rw [Armed, hclients, hpx, hpl, hleft, hactive]
  exact h

/-- The timer is started. -/
theorem armed_schedUpdates (w : World) :
  w.schedUpdates.Armed
  := fun _ _ => rfl

/-- A new world has no clients. -/
theorem armed_new [Platform] (path name : Bytes) (d : Disk) :
  (World.new path name d).1.Armed
  := by
  intro hclients
  obtain ⟨hroom, -⟩ := Server.World.new_room path name d
  exact absurd (Room.mk.inj hroom).2.1 hclients

/-- When a client leaves, the timer is started for those who stay. -/
theorem armed_lose (w : World) (p : ClientPtr) (id : UInt32) :
  (w.lose p id).Armed
  := by
  rw [lose]
  split
  case isTrue hempty => exact fun hclients => absurd hempty hclients
  case isFalse hsome =>
    rw [rmCli] at hsome ⊢
    split
    case isTrue hempty =>
      intro hclients
      exact absurd hempty hclients
    case isFalse => exact armed_schedUpdates _

/-- A tick that has not sent everything starts the timer again. -/
theorem armed_sendUpdates (w : World) (info : ClientPtr → UInt32 × PInfo) :
  (w.sendUpdates info).1.Armed
  := by
  obtain ⟨msg, heq, -⟩ := sendUpdates_spec w info
  rw [heq, ticked]
  dsimp only
  split
  case isTrue => exact armed_schedUpdates _
  case isFalse hnone =>
    rintro - (hpx | hpl | hleft)
    · exact absurd rfl hpx
    · exact absurd (Or.inl hpl) hnone
    · exact absurd (Or.inr hleft) hnone

variable [Platform]

/-- What a message or a command asks for leaves the queues alone, but for an accepted pixel. -/
theorem Armed.run {w : World} (h : w.Armed) (d : Disk) (a : WorldAct) :
  (a.run w d).1.Armed
  := by
  have hframe : ∀ {w₀ w' : World} {d' : Disk}, w₀.traffic = w.traffic → Frame w₀ d w' d' →
      w'.Armed := by
    intro w₀ w' d' ht hf
    apply h.of_traffic
    rw [hf.rest, ← ht]
    rfl
  have heffect := a.effect w d
  generalize a.run w d = done at heffect ⊢
  cases heffect with
  | rest hw' =>
      apply h.of_traffic
      rw [hw']
      rfl
  | prop => exact h.of_traffic rfl
  | @look x y => exact hframe rfl (w.getChunk_frame d x y)
  | @chunk x y c w' d' outs data ha hrange hgot =>
      have hf := w.getChunk_frame d x y
      rw [hgot] at hf
      exact (hframe rfl hf).of_traffic rfl
  | pixel => exact armed_schedUpdates _
  | outside => exact h.of_traffic rfl
  | @protect x y state c w' d' outs ha hrange hgot =>
      have hset : World.traffic { w with db := w.db.setChunkProtection x y state } = w.traffic := rfl
      have hf := getChunk_frame { w with db := w.db.setChunkProtection x y state } d x y
      rw [hgot] at hf
      exact (hframe hset hf).of_traffic rfl

/-- One more deed. -/
theorem Armed.apply {w : World} (h : w.Armed) (d : Disk) (op : Deed) :
  (w.apply d op).Armed
  := by
  cases op with
  | act a => exact h.run d a
  | move p => exact armed_schedUpdates _
  | enter p => exact armed_schedUpdates _
  | leave p id => exact w.armed_lose p id
  | tick info => exact w.armed_sendUpdates info
  | save =>
      apply h.of_traffic
      obtain ⟨db, chunks, heq, -⟩ := w.save_frame d
      rw [World.apply, heq]
      rfl

end World

namespace Server

variable [Platform]

/-- After every run, the timer of a world with clients is active whenever a pixel, a player or the
id of a player who left waits to be sent. -/
theorem armed_runs (modpw adminpw path : Bytes) (d : Disk) (clock : ℚ) (events : List Event)
    (wp : WorldPtr) (w : World)
    (hw : ((Server.new modpw adminpw path d clock).runs events).objs wp = some w)
    (hclients : w.clients ≠ []) (hwaits : w.pxupdates ≠ [] ∨ w.plupdates ≠ [] ∨ w.plleft ≠ []) :
  w.updActive = true
  := by
  have harmed : w.Armed := (reached_runs modpw adminpw path d clock events wp w hw).keeps
    World.armed_new fun w d op h => h.apply d op
  exact harmed hclients hwaits

/-- A client opens a connection and joins the world "w". -/
def joinEvents : List Event :=
  [.connect (ofString "a"), .message 0 .binary (ofString "w..") 0 0]

omit [Platform] in
/-- The timer of the new world is active, for its first player waits to be sent. -/
theorem armed_runs_joinEvents :
  let _ := Platform.quiet
  ∃ w, ((Server.new (ofString "m") (ofString "a") [] (Disk.empty fun _ => true) 0).runs
      joinEvents).objs 0 = some w ∧ w.updActive = true
  := by
  let _ := Platform.quiet
  have hrun : (((Server.new (ofString "m") (ofString "a") [] (Disk.empty fun _ => true) 0).runs
      joinEvents).objs 0).any (fun w => decide (w.clients ≠ [] ∧ w.plupdates ≠ [])) = true := by
    decide +kernel
  obtain ⟨w, hw, hwaits⟩ := (Option.any_eq_true _ _).mp hrun
  obtain ⟨hclients, hupdates⟩ := of_decide_eq_true hwaits
  use w, hw
  exact armed_runs _ _ _ _ _ joinEvents 0 w hw hclients (Or.inr (Or.inl hupdates))

end Server

/-! ### The accesses of a world -/

namespace World

variable [Platform] {w w' : World} {d : Disk}

/-- What a message or a command asks for is done by accesses. -/
theorem Reaches.run (w : World) (d : Disk) (a : WorldAct) :
  w.Reaches (a.run w d).1
  := by
  have heffect := a.effect w d
  generalize a.run w d = done at heffect ⊢
  cases heffect with
  | rest hw' =>
      apply Reaches.rest
      rw [hw']
      rfl
  | prop => exact Reaches.rest rfl
  | @look x y => exact Reaches.getChunk w d x y
  | chunk _ _ _ hgot => exact Reaches.putChunk hgot _
  | pixel _ _ _ hgot => exact (Reaches.putChunk hgot _).trans (Reaches.rest rfl)
  | outside => exact Reaches.rest rfl
  | @protect x y state c w' d' outs ha hrange hgot =>
      have hset : w.Reaches { w with db := w.db.setChunkProtection x y state } := Reaches.rest rfl
      exact hset.trans (Reaches.putChunk hgot _)

/-- Whatever is done to a world is done by accesses. -/
theorem Reaches.apply (w : World) (d : Disk) (op : Deed) :
  w.Reaches (w.apply d op)
  := by
  cases op with
  | act a => exact Reaches.run w d a
  | move p => exact Reaches.rest rfl
  | enter p => exact Reaches.rest rfl
  | leave p id =>
      apply Reaches.rest
      rw [World.apply, lose_rest]
      rfl
  | tick info =>
      obtain ⟨msg, heq, -⟩ := sendUpdates_spec w info
      apply Reaches.rest
      rw [World.apply, heq, ticked]
      dsimp only
      split <;> rfl
  | save => exact Reaches.save w d

/-- A world that is reached comes from a new one by accesses. -/
theorem Reached.accesses (h : w.Reached) :
  ∃ path name d, (new path name d).1.Reaches w
  := by
  apply h.keeps
  · exact fun path name d => ⟨path, name, d, Reaches.refl _⟩
  · rintro w d op ⟨path, name, d₀, hw⟩
    exact ⟨path, name, d₀, hw.trans (Reaches.apply w d op)⟩

end World

namespace Server

variable [Platform]

/-- In every run of the server, no world passes its limits by more than one. -/
theorem near_runs (modpw adminpw path : Bytes) (d : Disk) (clock : ℚ) (events : List Event)
    (wp : WorldPtr) (w : World)
    (hw : ((Server.new modpw adminpw path d clock).runs events).objs wp = some w) :
  w.Near
  := by
  obtain ⟨path', name, d', accesses, rfl⟩ :=
    (reached_runs modpw adminpw path d clock events wp w hw).accesses
  exact World.near_run path' name d' accesses

end Server

end Owop
