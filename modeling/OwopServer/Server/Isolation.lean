import OwopServer.Server.Steps

/-!
# Worlds are isolated

A message of a client that is no administrator leaves all other worlds and their clients as they
are, in every run of the server.
-/

namespace Owop

namespace Server

variable {s s' s'' : Server} {wp : WorldPtr}

/-- The connection is that of a client in the world at `wp`. -/
def BelongsTo (s : Server) (wp : WorldPtr) (ws : Ws) (cl : Client) : Prop :=
  ∃ si p, s.infos ws = some si ∧ si.player = some p ∧ s.clients p = some cl ∧ cl.wrld = wp

/-- From `s` to `s'` nothing happens to the world at `wp`, nor to its clients and their
connections, and if they are sent anything, it is a text to administrators. -/
structure Undisturbed (wp : WorldPtr) (s s' : Server) : Prop where
  world : s'.objs wp = s.objs wp
  clients : ∀ p cl, s.clients p = some cl → cl.wrld = wp → s'.clients p = some cl
  belongsTo : ∀ ws cl, s.BelongsTo wp ws cl → s'.BelongsTo wp ws cl
  sends : ∃ more, s'.log = s.log ++ more ∧ ∀ ws op msg, .send ws op msg ∈ more →
    ∀ cl, s.BelongsTo wp ws cl → op = .text ∧ cl.isAdmin = true

theorem Undisturbed.refl (wp : WorldPtr) (s : Server) :
  Undisturbed wp s s
  := ⟨rfl, fun _ _ hcl _ => hcl, fun _ _ hws => hws, [], (List.append_nil _).symm, by simp⟩

theorem Undisturbed.trans (h : Undisturbed wp s s') (h' : Undisturbed wp s' s'') :
  Undisturbed wp s s''
  := by
  obtain ⟨more, hlog, hsends⟩ := h.sends
  obtain ⟨more', hlog', hsends'⟩ := h'.sends
  constructor
  case world => exact h'.world.trans h.world
  case clients =>
    intro p cl hcl hwp
    exact h'.clients p cl (h.clients p cl hcl hwp) hwp
  case belongsTo =>
    intro ws cl hws
    exact h'.belongsTo ws cl (h.belongsTo ws cl hws)
  case sends =>
    refine ⟨more ++ more', by rw [hlog', hlog, List.append_assoc], ?_⟩
    intro ws op msg hmem cl hws
    obtain hmem | hmem := List.mem_append.mp hmem
    · exact hsends ws op msg hmem cl hws
    · exact hsends' ws op msg hmem cl (h.belongsTo ws cl hws)

/-- Nothing is sent, the connections stay as they are, and what changes is elsewhere. -/
theorem Undisturbed.quiet (hworld : s'.objs wp = s.objs wp)
    (hclients : ∀ p cl, s.clients p = some cl → cl.wrld = wp → s'.clients p = some cl)
    (hinfos : ∀ ws cl, s.BelongsTo wp ws cl → s'.infos ws = s.infos ws)
    (hlog : ∃ more, s'.log = s.log ++ more ∧ ∀ ws op msg, .send ws op msg ∉ more) :
  Undisturbed wp s s'
  := by
  obtain ⟨more, hlog, hnone⟩ := hlog
  constructor
  case world => exact hworld
  case clients => exact hclients
  case belongsTo =>
    intro ws cl hws
    have hsame := hinfos ws cl hws
    obtain ⟨si, p, hsi, hplayer, hcl, hwp⟩ := hws
    exact ⟨si, p, hsame.trans hsi, hplayer, hclients p cl hcl hwp, hwp⟩
  case sends => exact ⟨more, hlog, fun ws op msg hmem => absurd hmem (hnone ws op msg)⟩

variable [Platform] {D : Scope}

/-- Small steps whose scope is elsewhere leave a world undisturbed. -/
theorem Allowed.undisturbed {l : Label} (hl : Allowed D s l) (h : s.Consistent)
    (hwp : ¬ D.wrld wp) :
  Undisturbed wp s (l.step s)
  := by
  have hsame : ∀ t : Server, t.objs = s.objs → t.clients = s.clients → t.infos = s.infos →
      t.log = s.log → Undisturbed wp s t := by
    intro t hobjs hclients hinfos hlog
    refine .quiet (by rw [hobjs]) (fun p cl hcl _ => by rw [hclients, hcl]) (fun ws cl _ => ?_)
      ⟨[], by rw [hlog, List.append_nil], by simp⟩
    rw [hinfos]
  -- clients in the scope are not in the world
  have hother : ∀ {p q : ClientPtr} {cl cl' : Client}, s.Live p cl → D.wrld cl.wrld →
      s.clients q = some cl' → cl'.wrld = wp → q ≠ p := by
    rintro p q cl cl' hp hD hq rfl rfl
    obtain rfl : cl = cl' := Option.some.inj (hp.1.symm.trans hq)
    exact hwp hD
  cases hl with
  | @send ws op msg si hws hD =>
      constructor
      case world => rfl
      case clients => exact fun _ _ hcl _ => hcl
      case belongsTo => exact fun _ _ hws => hws
      case sends =>
        refine ⟨[.send ws op msg], rfl, ?_⟩
        intro ws' op' msg' hmem cl hbelongs
        cases List.mem_singleton.mp hmem
        obtain ⟨si', p, hsi', hplayer, hcl, rfl⟩ := hbelongs
        obtain rfl : si = si' := Option.some.inj (hws.symm.trans hsi')
        exact (hD p cl hplayer hcl).resolve_left hwp
  | gone => exact .quiet rfl (fun _ _ hcl _ => hcl) (fun _ _ _ => rfl) ⟨[_], rfl, by simp⟩
  | exec => exact .quiet rfl (fun _ _ hcl _ => hcl) (fun _ _ _ => rfl) ⟨[_], rfl, by simp⟩
  | setrank => exact .quiet rfl (fun _ _ hcl _ => hcl) (fun _ _ _ => rfl) ⟨[_], rfl, by simp⟩
  | @change p cl c hp hD =>
      rw [Label.step, change_eq _ hp.1]
      refine .quiet rfl ?_ (fun _ _ _ => rfl) ⟨[], (List.append_nil _).symm, by simp⟩
      intro q cl' hq hcl'
      exact (Function.update_of_ne (hother hp hD hq hcl') _ _).trans hq
  | @place p cl pos hp hD =>
      obtain ⟨w, hw, -⟩ := h.world_of_live hp
      have hne : wp ≠ cl.wrld := fun heq => hwp (heq ▸ hD)
      rw [Label.step, place_eq _ hp.1 hw]
      refine .quiet (Function.update_of_ne hne _ _) ?_ (fun _ _ _ => rfl)
        ⟨[], (List.append_nil _).symm, by simp⟩
      intro q cl' hq hcl'
      exact (Function.update_of_ne (hother hp hD hq hcl') _ _).trans hq
  | @act wp' w a hwp' hD =>
      have hne : wp ≠ wp' := fun heq => hwp (heq ▸ hD)
      rw [Label.step, perform_eq _ hwp']
      refine .quiet (Function.update_of_ne hne _ _) (fun _ _ hcl _ => hcl) (fun _ _ _ => rfl)
        ⟨_, rfl, by simp⟩
  | @drop ws si hws _ hD =>
      have hlog : (s.drop ws).log = s.log := by rw [drop_rest h hws]
      refine .quiet ?_ ?_ ?_ ⟨[], hlog.trans (List.append_nil _).symm, by simp⟩
      · obtain heq | ⟨p, cl, w, hplayer, hcl, rfl, -⟩ := drop_objs h hws wp
        · exact heq
        · exact absurd (hD p cl hplayer hcl.1) hwp
      · intro q cl hq hcl
        obtain heq | ⟨hplayer, cl', hcl', -⟩ := drop_clients h hws q
        · exact heq.trans hq
        · obtain rfl : cl' = cl := Option.some.inj (hcl'.1.symm.trans hq)
          exact absurd (hcl ▸ hD q cl' hplayer hcl'.1) hwp
      · rintro ws' cl ⟨si', p, hsi', hplayer, hcl, rfl⟩
        rw [Label.step, infos_drop h hws]
        apply Function.update_of_ne
        rintro rfl
        obtain rfl : si = si' := Option.some.inj (hws.symm.trans hsi')
        exact hwp (hD p cl hplayer hcl)
  | config => exact hsame _ rfl rfl rfl rfl
  | lockdown => exact hsame _ rfl rfl rfl rfl
  | lists => exact hsame _ rfl rfl rfl rfl
  | eraseConns => exact hsame _ rfl rfl rfl rfl
  | @save wp' w hwp' hD =>
      have hne : wp ≠ wp' := fun heq => hwp (heq ▸ hD)
      rw [Label.step, saveWorld_eq hwp']
      exact .quiet (Function.update_of_ne hne _ _) (fun _ _ hcl _ => hcl) (fun _ _ _ => rfl)
        ⟨[], (List.append_nil _).symm, by simp⟩
  | files => exact hsame _ rfl rfl rfl rfl

theorem Chain.undisturbed (hc : Chain D s s') (h : s.Consistent) (hwp : ¬ D.wrld wp) :
  Undisturbed wp s s'
  := by
  induction hc with
  | refl => exact Undisturbed.refl wp s
  | tail hchain hstep ih =>
      obtain ⟨l, hl, rfl⟩ := hstep
      exact ih.trans (hl.undisturbed (Chain.consistent hchain h) hwp)

/-- Every message of a client that is in a loaded world and below the rank of an administrator
leaves every other loaded world undisturbed. -/
def Isolated (s : Server) : Prop :=
  ∀ ws cl wp wp' name name', s.BelongsTo wp ws cl → cl.rank < Rank.admin →
    s.worlds.lookup name = some wp → s.worlds.lookup name' = some wp' → wp ≠ wp' →
    ∀ oc msg p q, Undisturbed wp' s (s.step (.message ws oc msg p q))

theorem Consistent.isolated (h : s.Consistent) :
  s.Isolated
  := by
  rintro ws cl wp wp' name name' ⟨si, p, hsi, hplayer, hcl, rfl⟩ hrank - - hne oc msg q wq
  obtain ⟨cl', hcl', -⟩ := h.live_of_player hsi hplayer
  obtain rfl : cl = cl' := Option.some.inj (hcl.symm.trans hcl'.1)
  have hadmin : ¬ cl.isAdmin = true := by
    intro hadmin
    have heq : cl.rank = Rank.admin := by simpa [Client.isAdmin] using hadmin
    rw [heq] at hrank
    exact absurd hrank (by decide)
  rw [step.eq_def]
  split
  · exact Undisturbed.refl wp' s
  · dsimp only
    split
    · obtain ⟨b, hchain⟩ := onMessage_chain h hsi hplayer hcl'
      rw [messageScope, if_neg hadmin] at hchain
      exact hchain.undisturbed h fun heq => hne heq.symm
    · exact Undisturbed.refl wp' s

/-- Worlds are isolated in every run. -/
theorem isolated_runs (modpw adminpw path : Bytes) (d : Disk) (clock : ℚ) (events : List Event) :
  ((Server.new modpw adminpw path d clock).runs events).Isolated
  := ((consistent_new modpw adminpw path d clock).runs events).isolated

end Server

end Owop
