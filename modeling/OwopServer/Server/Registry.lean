import OwopServer.Library.Table
import OwopServer.World

/-!
# The registry

What the server knows about who is connected and where, without anything else: the open
connections with their players, the seats of the clients, the rooms of the worlds, the names
under which the rooms are found, and the objects that wait to be deleted.  `Registry` is an
abstract model of `Server`; its operations are what the events of the server do to it, and
each of them keeps the registry consistent.
-/

namespace Owop

/-- The address of a `World`. -/
abbrev WorldPtr := ℕ

/-- A callback of `uv_close` that has not run yet. -/
inductive Callback where
  /-- deletes the client -/
  | client (p : ClientPtr)
  /-- deletes the world -/
  | world (wp : WorldPtr)
  /-- deletes the server and exits -/
  | server
  deriving DecidableEq

/-- The connection and the world of a client, and whether it is still there: a client that
left has a seat until it is deleted. -/
structure Seat where
  ws : Ws
  wrld : WorldPtr
  present : Bool

/-- The name of a world, its clients and those of them whose position waits to be sent. -/
structure Room where
  name : Bytes
  clients : List ClientPtr
  plupdates : List ClientPtr

/-- The registry: of each open connection its player, if it has one, of each client its seat,
and of each world its room. -/
@[ext]
structure Registry where
  connsws : List Ws
  nextWs : Ws
  player : Ws → Option (Option ClientPtr)
  seat : ClientPtr → Option Seat
  room : WorldPtr → Option Room
  worlds : Bytes → Option WorldPtr
  pending : List Callback
  closing : Bool

namespace Registry

/-! ### Operations -/

/-- A connection is made. -/
def connect (R : Registry) : Registry :=
  { R with
    connsws := R.connsws ++ [R.nextWs]
    nextWs := R.nextWs + 1
    player := Function.update R.player R.nextWs (some none) }

/-- The connection gets the client `p`, who enters the world at `wp` called `name`. -/
def enter (R : Registry) (ws : Ws) (p : ClientPtr) (wp : WorldPtr) (name : Bytes) : Registry :=
  let r := (R.room wp).getD ⟨name, [], []⟩
  let clients := setInsert (· ≤ ·) p r.clients
  { R with
    player := Function.update R.player ws (some (some p))
    seat := Function.update R.seat p (some ⟨ws, wp, true⟩)
    room := Function.update R.room wp (some ⟨r.name, clients,
      clients.foldl (fun s cl => setInsert (· ≤ ·) cl s) r.plupdates⟩)
    worlds := Function.update R.worlds r.name (some wp) }

/-- The client `p` leaves its room `r` at `wp`, which is closed when it is empty. -/
def leave (R : Registry) (p : ClientPtr) (ws : Ws) (wp : WorldPtr) (r : Room) : Registry :=
  let clients := setErase p r.clients
  { R with
    seat := Function.update R.seat p (some ⟨ws, wp, false⟩)
    room := Function.update R.room wp (some ⟨r.name, clients, setErase p r.plupdates⟩)
    worlds := if clients = [] then Function.update R.worlds r.name none else R.worlds
    pending := R.pending ++ Callback.client p ::
      if clients = [] then [Callback.world wp] else [] }

/-- A connection is forgotten. -/
def forget (R : Registry) (ws : Ws) : Registry :=
  { R with
    connsws := R.connsws.filter fun ws' => ws' ≠ ws
    player := Function.update R.player ws none }

/-- A connection is closed, and its player leaves. -/
def depart (R : Registry) (ws : Ws) : Registry :=
  match R.player ws with
  | some (some p) =>
      match R.seat p with
      | some seat =>
          match R.room seat.wrld with
          | some r => (R.leave p ws seat.wrld r).forget ws
          | none => R
      | none => R
  | some none => R.forget ws
  | none => R

/-- The position of a client waits to be sent in the world at `wp`. -/
def mark (R : Registry) (wp : WorldPtr) (p : ClientPtr) : Registry :=
  match R.room wp with
  | some r => { R with
      room := Function.update R.room wp
        (some { r with plupdates := setInsert (· ≤ ·) p r.plupdates }) }
  | none => R

/-- The positions that wait to be sent in the world at `wp` are now `rest`. -/
def flush (R : Registry) (wp : WorldPtr) (rest : List ClientPtr) : Registry :=
  match R.room wp with
  | some r => { R with room := Function.update R.room wp (some { r with plupdates := rest }) }
  | none => R

/-- The callback with number `i` deletes the client `p`. -/
def freeClient (R : Registry) (i : ℕ) (p : ClientPtr) : Registry :=
  { R with pending := R.pending.eraseIdx i, seat := Function.update R.seat p none }

/-- The callback with number `i` deletes the world at `wp`. -/
def freeWorld (R : Registry) (i : ℕ) (wp : WorldPtr) : Registry :=
  { R with pending := R.pending.eraseIdx i, room := Function.update R.room wp none }

/-- The server will be deleted. -/
def quit (R : Registry) : Registry :=
  { R with closing := true, pending := R.pending ++ [Callback.server] }

/-! ### Consistency -/

/-- Connections, clients and worlds know of each other, and what is not known any more waits
to be deleted. -/
structure Consistent (R : Registry) : Prop where
  connsws_nodup : R.connsws.Nodup
  mem_connsws : ∀ {ws}, ws ∈ R.connsws ↔ (R.player ws).isSome
  lt_nextWs : ∀ {ws}, ws ∈ R.connsws → ws < R.nextWs
  seat_of_player : ∀ {ws p}, R.player ws = some (some p) → ∃ wp, R.seat p = some ⟨ws, wp, true⟩
  player_of_seat : ∀ {ws p wp}, R.seat p = some ⟨ws, wp, true⟩ → R.player ws = some (some p)
  room_of_seat : ∀ {ws p wp}, R.seat p = some ⟨ws, wp, true⟩ →
    ∃ r, R.room wp = some r ∧ p ∈ r.clients
  seat_of_room : ∀ {wp r p}, R.room wp = some r → p ∈ r.clients →
    ∃ ws, R.seat p = some ⟨ws, wp, true⟩
  room_of_worlds : ∀ {name wp}, R.worlds name = some wp →
    ∃ r, R.room wp = some r ∧ r.name = name ∧ r.clients ≠ []
  worlds_of_room : ∀ {wp r}, R.room wp = some r → r.clients ≠ [] → R.worlds r.name = some wp
  clients_nodup : ∀ {wp r}, R.room wp = some r → r.clients.Nodup
  plupdates_subset : ∀ {wp r}, R.room wp = some r → r.plupdates ⊆ r.clients
  mem_pending_client : ∀ {p}, Callback.client p ∈ R.pending ↔
    ∃ ws wp, R.seat p = some ⟨ws, wp, false⟩
  mem_pending_world : ∀ {wp}, Callback.world wp ∈ R.pending ↔
    ∃ r, R.room wp = some r ∧ r.clients = []
  pending_nodup : R.pending.Nodup
  closing_of_pending : Callback.server ∈ R.pending → R.closing = true

variable {R : Registry}

/-- In a list without repetitions, removing a place removes what is there. -/
theorem mem_eraseIdx_of_nodup {α : Type*} {l : List α} {i : ℕ} {a c : α} (h : l.Nodup)
    (hi : l[i]? = some a) :
  c ∈ l.eraseIdx i ↔ c ∈ l ∧ c ≠ a
  := by
  obtain ⟨hlt, -⟩ := List.getElem?_eq_some_iff.mp hi
  rw [List.mem_eraseIdx_iff_getElem?, List.mem_iff_getElem?]
  constructor
  · rintro ⟨j, hne, hj⟩
    refine ⟨⟨j, hj⟩, ?_⟩
    rintro rfl
    exact hne ((List.getElem?_inj hlt h).mp (hi.trans hj.symm)).symm
  · rintro ⟨⟨j, hj⟩, hne⟩
    refine ⟨j, ?_, hj⟩
    rintro rfl
    exact hne (Option.some.inj (hj.symm.trans hi))

/-- A connection is not known before it is made. -/
theorem Consistent.player_nextWs (h : R.Consistent) :
  R.player R.nextWs = none
  := by
  have hnew : R.nextWs ∉ R.connsws := fun hmem => lt_irrefl _ (h.lt_nextWs hmem)
  simpa [h.mem_connsws] using hnew

theorem Consistent.connect (h : R.Consistent) :
  R.connect.Consistent
  := by
  have hnone := h.player_nextWs
  constructor
  case connsws_nodup =>
    have hnew : R.nextWs ∉ R.connsws := fun hmem => lt_irrefl _ (h.lt_nextWs hmem)
    exact List.nodup_append.mpr ⟨h.connsws_nodup, List.nodup_singleton _, by grind⟩
  case mem_connsws =>
    simp only [Registry.connect, Function.update_apply]
    grind [h.mem_connsws]
  case lt_nextWs =>
    intro ws hmem
    obtain hmem | hmem := List.mem_append.mp hmem
    · exact (h.lt_nextWs hmem).trans (Nat.lt_succ_self _)
    · rw [List.mem_singleton.mp hmem]
      exact Nat.lt_succ_self _
  case seat_of_player =>
    simp only [Registry.connect, Function.update_apply]
    grind [h.seat_of_player]
  case player_of_seat =>
    simp only [Registry.connect, Function.update_apply]
    grind [h.player_of_seat]
  case room_of_seat => exact h.room_of_seat
  case seat_of_room => exact h.seat_of_room
  case room_of_worlds => exact h.room_of_worlds
  case worlds_of_room => exact h.worlds_of_room
  case clients_nodup => exact h.clients_nodup
  case plupdates_subset => exact h.plupdates_subset
  case mem_pending_client => exact h.mem_pending_client
  case mem_pending_world => exact h.mem_pending_world
  case pending_nodup => exact h.pending_nodup
  case closing_of_pending => exact h.closing_of_pending

/-- A connection without a player is forgotten. -/
theorem Consistent.forget {ws : Ws} (h : R.Consistent) (hws : R.player ws = some none) :
  (R.forget ws).Consistent
  := by
  constructor
  case connsws_nodup => exact h.connsws_nodup.filter _
  case mem_connsws =>
    simp only [Registry.forget, Function.update_apply]
    grind [h.mem_connsws]
  case lt_nextWs => exact fun hmem => h.lt_nextWs (List.mem_of_mem_filter hmem)
  case seat_of_player =>
    simp only [Registry.forget, Function.update_apply]
    grind [h.seat_of_player]
  case player_of_seat =>
    simp only [Registry.forget, Function.update_apply]
    grind [h.player_of_seat]
  case room_of_seat => exact h.room_of_seat
  case seat_of_room => exact h.seat_of_room
  case room_of_worlds => exact h.room_of_worlds
  case worlds_of_room => exact h.worlds_of_room
  case clients_nodup => exact h.clients_nodup
  case plupdates_subset => exact h.plupdates_subset
  case mem_pending_client => exact h.mem_pending_client
  case mem_pending_world => exact h.mem_pending_world
  case pending_nodup => exact h.pending_nodup
  case closing_of_pending => exact h.closing_of_pending

/-- A player leaves its room and its connection is forgotten. -/
theorem Consistent.leave {ws : Ws} {p : ClientPtr} {wp : WorldPtr} {r : Room} (h : R.Consistent)
    (hws : R.player ws = some (some p)) (hp : R.seat p = some ⟨ws, wp, true⟩)
    (hwp : R.room wp = some r) :
  ((R.leave p ws wp r).forget ws).Consistent
  := by
  have hmem : p ∈ r.clients := by
    obtain ⟨r', hr', hmem⟩ := h.room_of_seat hp
    grind
  have hnotPending : Callback.client p ∉ R.pending := by
    grind [h.mem_pending_client]
  have hopen : Callback.world wp ∉ R.pending := by
    grind [h.mem_pending_world]
  have hname : R.worlds r.name = some wp := h.worlds_of_room hwp (List.ne_nil_of_mem hmem)
  constructor
  case connsws_nodup => exact h.connsws_nodup.filter _
  case mem_connsws =>
    simp only [Registry.forget, Registry.leave, Function.update_apply]
    grind [h.mem_connsws]
  case lt_nextWs => exact fun hmem => h.lt_nextWs (List.mem_of_mem_filter hmem)
  case seat_of_player =>
    simp only [Registry.forget, Registry.leave, Function.update_apply]
    grind [h.seat_of_player]
  case player_of_seat =>
    simp only [Registry.forget, Registry.leave, Function.update_apply]
    grind [h.player_of_seat]
  case room_of_seat =>
    simp only [Registry.forget, Registry.leave, Function.update_apply]
    grind [h.room_of_seat, setErase]
  case seat_of_room =>
    simp only [Registry.forget, Registry.leave, Function.update_apply]
    grind [h.seat_of_room, setErase]
  case room_of_worlds =>
    simp only [Registry.forget, Registry.leave, Function.update_apply]
    grind [h.room_of_worlds, h.worlds_of_room]
  case worlds_of_room =>
    intro wp' r' hr' hne
    obtain ⟨rfl, rfl⟩ | ⟨hwp', hr'⟩ := Table.update_eq_some.mp hr'
    · rw [Registry.forget, Registry.leave, if_neg hne]
      exact hname
    · have hname' := h.worlds_of_room hr' hne
      simp only [Registry.forget, Registry.leave]
      split
      · rw [Function.update_of_ne (by grind)]
        exact hname'
      · exact hname'
  case clients_nodup =>
    intro wp' r' hr'
    obtain ⟨rfl, rfl⟩ | ⟨-, hr'⟩ := Table.update_eq_some.mp hr'
    · exact (h.clients_nodup hwp).filter _
    · exact h.clients_nodup hr'
  case plupdates_subset =>
    intro wp' r' hr'
    obtain ⟨rfl, rfl⟩ | ⟨-, hr'⟩ := Table.update_eq_some.mp hr'
    · exact fun q hq => by grind [setErase, h.plupdates_subset hwp]
    · exact h.plupdates_subset hr'
  case mem_pending_client =>
    intro q
    have hq := h.mem_pending_client (p := q)
    simp only [Registry.forget, Registry.leave, Function.update_apply]
    by_cases hqp : q = p
    · simp [hqp]
    · rw [if_neg hqp, ← hq]
      split <;> simp [hqp]
  case mem_pending_world =>
    intro wp'
    have hwp' : Callback.world wp' ∈ R.pending ↔ _ := h.mem_pending_world
    simp only [Registry.forget, Registry.leave, Function.update_apply]
    by_cases heq : wp' = wp
    · by_cases hc : setErase p r.clients = []
      · simp [heq, hc]
      · simp [heq, hc, hopen]
    · rw [if_neg heq, ← hwp']
      split <;> simp [heq]
  case pending_nodup =>
    simp only [Registry.forget, Registry.leave]
    grind [h.pending_nodup]
  case closing_of_pending =>
    simp only [Registry.forget, Registry.leave]
    grind [h.closing_of_pending]

/-- A connection is closed. -/
theorem Consistent.depart {ws : Ws} (h : R.Consistent) :
  (R.depart ws).Consistent
  := by
  rw [Registry.depart]
  split
  case h_1 p hws =>
    obtain ⟨wp, hp⟩ := h.seat_of_player hws
    obtain ⟨r, hr, -⟩ := h.room_of_seat hp
    simp only [hp, hr]
    exact h.leave hws hp hr
  case h_2 hws => exact h.forget hws
  case h_3 => exact h

/-- A connection without a player gets a new client, who enters a world that has clients or a
new world. -/
theorem Consistent.enter {ws : Ws} {p : ClientPtr} {wp : WorldPtr} {name : Bytes}
    (h : R.Consistent) (hws : R.player ws = some none) (hp : R.seat p = none)
    (hwp : R.worlds name = some wp ∨ R.worlds name = none ∧ R.room wp = none) :
  (R.enter ws p wp name).Consistent
  := by
  have hp' : ∀ {wp r}, R.room wp = some r → p ∉ r.clients := by
    intro wp r hr hmem
    obtain ⟨ws, hseat⟩ := h.seat_of_room hr hmem
    rw [hp] at hseat
    cases hseat
  obtain ⟨r, hr, hname, hclients, hnodup, hsubset⟩ : ∃ r, (R.room wp).getD ⟨name, [], []⟩ = r ∧
      (R.worlds r.name = some wp ∨ R.worlds r.name = none) ∧
      (∀ q ∈ r.clients, ∃ ws, R.seat q = some ⟨ws, wp, true⟩) ∧ r.clients.Nodup ∧
      r.plupdates ⊆ r.clients := by
    refine ⟨_, rfl, ?_⟩
    obtain hwp | ⟨hnew, hwp⟩ := hwp
    · obtain ⟨r, hr, rfl, -⟩ := h.room_of_worlds hwp
      rw [hr]
      exact ⟨Or.inl hwp, fun q hq => h.seat_of_room hr hq, h.clients_nodup hr,
        h.plupdates_subset hr⟩
    · rw [hwp]
      exact ⟨Or.inr hnew, by simp, by simp, by simp⟩
  have hother : ∀ {wp' r'}, wp' ≠ wp → R.room wp' = some r' → r'.clients ≠ [] →
      r'.name ≠ r.name := by
    intro wp' r' hne hr' hclients' heq
    have := h.worlds_of_room hr' hclients'
    grind
  constructor
  case connsws_nodup => exact h.connsws_nodup
  case mem_connsws =>
    simp only [Registry.enter, Function.update_apply]
    grind [h.mem_connsws]
  case lt_nextWs => exact h.lt_nextWs
  case seat_of_player =>
    intro ws' q hq
    simp only [Registry.enter] at hq ⊢
    rw [Function.update_apply]
    obtain ⟨rfl, hpq⟩ | ⟨hne, hq⟩ := Table.update_eq_some.mp hq
    · rw [Option.some.inj hpq, if_pos rfl]
      exact ⟨wp, rfl⟩
    · obtain ⟨wp', hseat⟩ := h.seat_of_player hq
      rw [if_neg]
      · exact ⟨wp', hseat⟩
      · rintro rfl
        rw [hp] at hseat
        cases hseat
  case player_of_seat =>
    simp only [Registry.enter, Function.update_apply]
    grind [h.player_of_seat]
  case room_of_seat =>
    intro ws' q wp' hq
    simp only [Registry.enter, hr]
    obtain ⟨rfl, hseat⟩ | ⟨hqp, hq⟩ := Table.update_eq_some.mp hq
    · cases hseat
      exact ⟨_, Function.update_self _ _ _, by simp⟩
    · obtain ⟨r', hr', hmem⟩ := h.room_of_seat hq
      rw [Function.update_apply]
      split
      case isTrue heq =>
        have : r' = r := by
          rw [← heq, hr'] at hr
          exact hr
        exact ⟨_, rfl, by simp [← this, hmem]⟩
      case isFalse hne => exact ⟨r', hr', hmem⟩
  case seat_of_room =>
    intro wp' r' q hr' hq
    simp only [Registry.enter, hr] at hr' ⊢
    rw [Function.update_apply]
    obtain ⟨rfl, rfl⟩ | ⟨hne, hold⟩ := Table.update_eq_some.mp hr'
    · split
      case isTrue heq => exact ⟨ws, rfl⟩
      case isFalse hqp => exact hclients q (by simpa [hqp] using hq)
    · have hqp : q ≠ p := by
        rintro rfl
        exact hp' hold hq
      rw [if_neg hqp]
      exact h.seat_of_room hold hq
  case room_of_worlds =>
    intro name' wp' hname'
    simp only [Registry.enter, hr] at hname' ⊢
    obtain ⟨rfl, rfl⟩ | ⟨hne, hname'⟩ := Table.update_eq_some.mp hname'
    · exact ⟨_, Function.update_self _ _ _, rfl, List.ne_nil_of_mem (mem_setInsert.mpr (Or.inl rfl))⟩
    · obtain ⟨r', hr', rfl, hclients'⟩ := h.room_of_worlds hname'
      rw [Function.update_of_ne]
      · exact ⟨r', hr', rfl, hclients'⟩
      · rintro rfl
        rw [hr'] at hr
        exact hne (congrArg Room.name hr)
  case worlds_of_room =>
    intro wp' r' hr' hclients'
    simp only [Registry.enter, hr] at hr' ⊢
    obtain ⟨rfl, rfl⟩ | ⟨hne, hr'⟩ := Table.update_eq_some.mp hr'
    · exact Function.update_self _ _ _
    · rw [Function.update_of_ne (hother hne hr' hclients')]
      exact h.worlds_of_room hr' hclients'
  case clients_nodup =>
    intro wp' r' hr'
    simp only [Registry.enter, hr] at hr'
    obtain ⟨rfl, rfl⟩ | ⟨-, hr'⟩ := Table.update_eq_some.mp hr'
    · exact nodup_setInsert hnodup
    · exact h.clients_nodup hr'
  case plupdates_subset =>
    intro wp' r' hr' q hq
    simp only [Registry.enter, hr] at hr'
    obtain ⟨rfl, rfl⟩ | ⟨-, hr'⟩ := Table.update_eq_some.mp hr'
    · obtain hq | hq := mem_foldl_setInsert.mp hq
      · exact hq
      · exact mem_setInsert.mpr (Or.inr (hsubset hq))
    · exact h.plupdates_subset hr' hq
  case mem_pending_client =>
    intro q
    simp only [Registry.enter, h.mem_pending_client, Function.update_apply]
    split
    case isTrue heq => simp [heq, hp]
    case isFalse hne => rfl
  case mem_pending_world =>
    intro wp'
    simp only [Registry.enter, hr, h.mem_pending_world, Function.update_apply]
    split
    case isTrue heq =>
      have hne : setInsert (· ≤ ·) p r.clients ≠ [] :=
        List.ne_nil_of_mem (mem_setInsert.mpr (Or.inl rfl))
      obtain hwp | ⟨-, hwp⟩ := hwp
      · obtain ⟨r', hr', -, hclients'⟩ := h.room_of_worlds hwp
        simp [heq, hr', hclients', hne]
      · simp [heq, hwp, hne]
    case isFalse hne => rfl
  case pending_nodup => exact h.pending_nodup
  case closing_of_pending => exact h.closing_of_pending

/-- Nothing about positions matters but that they are of clients in the room. -/
theorem Consistent.setPlupdates {wp : WorldPtr} {r : Room} {plupdates : List ClientPtr}
    (h : R.Consistent) (hr : R.room wp = some r) (hsubset : plupdates ⊆ r.clients) :
  Consistent { R with
    room := Function.update R.room wp (some { r with plupdates := plupdates }) }
  := by
  constructor
  case connsws_nodup => exact h.connsws_nodup
  case mem_connsws => exact h.mem_connsws
  case lt_nextWs => exact h.lt_nextWs
  case seat_of_player => exact h.seat_of_player
  case player_of_seat => exact h.player_of_seat
  case room_of_seat =>
    simp only [Function.update_apply]
    grind [h.room_of_seat]
  case seat_of_room =>
    simp only [Function.update_apply]
    grind [h.seat_of_room]
  case room_of_worlds =>
    simp only [Function.update_apply]
    grind [h.room_of_worlds]
  case worlds_of_room =>
    simp only [Function.update_apply]
    grind [h.worlds_of_room]
  case clients_nodup =>
    simp only [Function.update_apply]
    grind [h.clients_nodup]
  case plupdates_subset =>
    simp only [Function.update_apply]
    grind [h.plupdates_subset]
  case mem_pending_client => exact h.mem_pending_client
  case mem_pending_world =>
    simp only [Function.update_apply]
    grind [h.mem_pending_world]
  case pending_nodup => exact h.pending_nodup
  case closing_of_pending => exact h.closing_of_pending

/-- The position of a client of the room waits to be sent. -/
theorem Consistent.mark {wp : WorldPtr} {ws : Ws} {p : ClientPtr} (h : R.Consistent)
    (hp : R.seat p = some ⟨ws, wp, true⟩) :
  (R.mark wp p).Consistent
  := by
  obtain ⟨r, hr, hmem⟩ := h.room_of_seat hp
  rw [Registry.mark, hr]
  apply h.setPlupdates hr
  intro q hq
  obtain rfl | hq := mem_setInsert.mp hq
  · exact hmem
  · exact h.plupdates_subset hr hq

/-- Some of the positions were sent. -/
theorem Consistent.flush {wp : WorldPtr} {rest : List ClientPtr} (h : R.Consistent)
    (hrest : ∀ r, R.room wp = some r → rest ⊆ r.plupdates) :
  (R.flush wp rest).Consistent
  := by
  rw [Registry.flush]
  split
  case h_1 r hr => exact h.setPlupdates hr (List.Subset.trans (hrest r hr) (h.plupdates_subset hr))
  case h_2 => exact h

/-- The callback of a client deletes it. -/
theorem Consistent.freeClient {i : ℕ} {p : ClientPtr} (h : R.Consistent)
    (hi : R.pending[i]? = some (.client p)) :
  (R.freeClient i p).Consistent
  := by
  have hmem : ∀ c, c ∈ R.pending.eraseIdx i ↔ c ∈ R.pending ∧ c ≠ .client p := by
    intro c
    exact mem_eraseIdx_of_nodup h.pending_nodup hi
  obtain ⟨ws, wp, hleft⟩ := h.mem_pending_client.mp (List.mem_of_getElem? hi)
  constructor
  case connsws_nodup => exact h.connsws_nodup
  case mem_connsws => exact h.mem_connsws
  case lt_nextWs => exact h.lt_nextWs
  case seat_of_player =>
    simp only [Registry.freeClient, Function.update_apply]
    grind [h.seat_of_player]
  case player_of_seat =>
    simp only [Registry.freeClient, Function.update_apply]
    grind [h.player_of_seat]
  case room_of_seat =>
    simp only [Registry.freeClient, Function.update_apply]
    grind [h.room_of_seat]
  case seat_of_room =>
    simp only [Registry.freeClient, Function.update_apply]
    grind [h.seat_of_room]
  case room_of_worlds => exact h.room_of_worlds
  case worlds_of_room => exact h.worlds_of_room
  case clients_nodup => exact h.clients_nodup
  case plupdates_subset => exact h.plupdates_subset
  case mem_pending_client =>
    simp only [Registry.freeClient, Function.update_apply, hmem]
    grind [h.mem_pending_client]
  case mem_pending_world =>
    simp only [Registry.freeClient, hmem]
    grind [h.mem_pending_world]
  case pending_nodup => exact h.pending_nodup.eraseIdx i
  case closing_of_pending =>
    simp only [Registry.freeClient, hmem]
    grind [h.closing_of_pending]

/-- The callback of a world deletes it. -/
theorem Consistent.freeWorld {i : ℕ} {wp : WorldPtr} (h : R.Consistent)
    (hi : R.pending[i]? = some (.world wp)) :
  (R.freeWorld i wp).Consistent
  := by
  have hmem : ∀ c, c ∈ R.pending.eraseIdx i ↔ c ∈ R.pending ∧ c ≠ .world wp := by
    intro c
    exact mem_eraseIdx_of_nodup h.pending_nodup hi
  obtain ⟨r, hr, hempty⟩ := h.mem_pending_world.mp (List.mem_of_getElem? hi)
  constructor
  case connsws_nodup => exact h.connsws_nodup
  case mem_connsws => exact h.mem_connsws
  case lt_nextWs => exact h.lt_nextWs
  case seat_of_player => exact h.seat_of_player
  case player_of_seat => exact h.player_of_seat
  case room_of_seat =>
    simp only [Registry.freeWorld, Function.update_apply]
    grind [h.room_of_seat]
  case seat_of_room =>
    simp only [Registry.freeWorld, Function.update_apply]
    grind [h.seat_of_room]
  case room_of_worlds =>
    simp only [Registry.freeWorld, Function.update_apply]
    grind [h.room_of_worlds]
  case worlds_of_room =>
    simp only [Registry.freeWorld, Function.update_apply]
    grind [h.worlds_of_room]
  case clients_nodup =>
    simp only [Registry.freeWorld, Function.update_apply]
    grind [h.clients_nodup]
  case plupdates_subset =>
    simp only [Registry.freeWorld, Function.update_apply]
    grind [h.plupdates_subset]
  case mem_pending_client =>
    simp only [Registry.freeWorld, hmem]
    grind [h.mem_pending_client]
  case mem_pending_world =>
    simp only [Registry.freeWorld, Function.update_apply, hmem]
    grind [h.mem_pending_world]
  case pending_nodup => exact h.pending_nodup.eraseIdx i
  case closing_of_pending =>
    simp only [Registry.freeWorld, hmem]
    grind [h.closing_of_pending]

/-- The callback that deletes the server is run. -/
theorem Consistent.dropServer {i : ℕ} (h : R.Consistent)
    (hi : R.pending[i]? = some Callback.server) :
  Consistent { R with pending := R.pending.eraseIdx i }
  := by
  have hmem : ∀ c, c ∈ R.pending.eraseIdx i ↔ c ∈ R.pending ∧ c ≠ .server := by
    intro c
    exact mem_eraseIdx_of_nodup h.pending_nodup hi
  constructor
  case connsws_nodup => exact h.connsws_nodup
  case mem_connsws => exact h.mem_connsws
  case lt_nextWs => exact h.lt_nextWs
  case seat_of_player => exact h.seat_of_player
  case player_of_seat => exact h.player_of_seat
  case room_of_seat => exact h.room_of_seat
  case seat_of_room => exact h.seat_of_room
  case room_of_worlds => exact h.room_of_worlds
  case worlds_of_room => exact h.worlds_of_room
  case clients_nodup => exact h.clients_nodup
  case plupdates_subset => exact h.plupdates_subset
  case mem_pending_client =>
    intro p
    simp [hmem, h.mem_pending_client]
  case mem_pending_world =>
    intro wp
    simp [hmem, h.mem_pending_world]
  case pending_nodup => exact h.pending_nodup.eraseIdx i
  case closing_of_pending =>
    intro hserver
    exact absurd rfl ((hmem _).mp hserver).2

/-- The server waits to be deleted. -/
theorem Consistent.quit (h : R.Consistent) (hclosing : R.closing = false) :
  R.quit.Consistent
  := by
  have hserver : Callback.server ∉ R.pending := by
    intro hmem
    rw [h.closing_of_pending hmem] at hclosing
    cases hclosing
  constructor
  case connsws_nodup => exact h.connsws_nodup
  case mem_connsws => exact h.mem_connsws
  case lt_nextWs => exact h.lt_nextWs
  case seat_of_player => exact h.seat_of_player
  case player_of_seat => exact h.player_of_seat
  case room_of_seat => exact h.room_of_seat
  case seat_of_room => exact h.seat_of_room
  case room_of_worlds => exact h.room_of_worlds
  case worlds_of_room => exact h.worlds_of_room
  case clients_nodup => exact h.clients_nodup
  case plupdates_subset => exact h.plupdates_subset
  case mem_pending_client =>
    intro p
    simp [Registry.quit, h.mem_pending_client]
  case mem_pending_world =>
    intro wp
    simp [Registry.quit, h.mem_pending_world]
  case pending_nodup => exact List.nodup_append.mpr ⟨h.pending_nodup, List.nodup_singleton _, by grind⟩
  case closing_of_pending => exact fun _ => rfl

/-- The hash table of connections is walked in another order. -/
theorem Consistent.rehash {connsws : List Ws} (h : R.Consistent) (hperm : connsws.Perm R.connsws) :
  Consistent { R with connsws := connsws }
  := by
  constructor
  case connsws_nodup => exact hperm.nodup_iff.mpr h.connsws_nodup
  case mem_connsws => exact hperm.mem_iff.trans h.mem_connsws
  case lt_nextWs => exact fun hmem => h.lt_nextWs (hperm.mem_iff.mp hmem)
  case seat_of_player => exact h.seat_of_player
  case player_of_seat => exact h.player_of_seat
  case room_of_seat => exact h.room_of_seat
  case seat_of_room => exact h.seat_of_room
  case room_of_worlds => exact h.room_of_worlds
  case worlds_of_room => exact h.worlds_of_room
  case clients_nodup => exact h.clients_nodup
  case plupdates_subset => exact h.plupdates_subset
  case mem_pending_client => exact h.mem_pending_client
  case mem_pending_world => exact h.mem_pending_world
  case pending_nodup => exact h.pending_nodup
  case closing_of_pending => exact h.closing_of_pending

end Registry

end Owop
