import OwopServer.Server.Steps
import OwopServer.WebSocket.Calls
import OwopServer.WebSocket.Exchange

/-!
# The server at its sockets

The hub with the parsers of all sockets and the server behind them.  Data may arrive on any
socket in any pieces, and other events may fall between them.  The hub touches no byte outside of
its buffer, and what it does is a run of events of the server in which every text is one.
-/

namespace Owop

open Bytes (ofString)

open Server (Event)

variable [Platform]

/-! ### Connections that are gone -/

namespace Server

variable {s s' : Server}

/-- The connection was made and, if that is asked, it is closed. -/
def Gone (ws : Ws) (closed : Prop) (s : Server) : Prop :=
  ws < s.nextWs ∧ (closed → s.infos ws = none)

omit [Platform] in
/-- Nothing that matters changes. -/
theorem Gone.same {ws : Ws} {closed : Prop} (h : Gone ws closed s) (hnextWs : s'.nextWs = s.nextWs)
    (hinfos : s'.infos = s.infos) :
  Gone ws closed s'
  := by
  rw [Gone, hnextWs, hinfos]
  exact h

omit [Platform] in
/-- Something else is written about another connection. -/
theorem Gone.update {ws ws' : Ws} {closed : Prop} {si : SocketInfo} (h : Gone ws closed s)
    (hnextWs : s'.nextWs = s.nextWs) (hws : s.infos ws' = some si) {b : Option SocketInfo}
    (hinfos : s'.infos = Function.update s.infos ws' b) :
  Gone ws closed s'
  := by
  rw [Gone, hnextWs, hinfos]
  refine ⟨h.1, fun hclosed => ?_⟩
  have hnone := h.2 hclosed
  have hne : ws ≠ ws' := by
    rintro rfl
    rw [hnone] at hws
    cases hws
  rw [Function.update_of_ne hne]
  exact hnone

/-- A small step. -/
theorem Allowed.keeps_gone {D : Scope} {l : Label} (hl : Allowed D s l) (h : s.Consistent) {ws : Ws}
    {closed : Prop} (hgone : Gone ws closed s) :
  Gone ws closed (l.step s)
  := by
  cases hl with
  | send => exact hgone.same rfl rfl
  | gone => exact hgone.same rfl rfl
  | exec => exact hgone.same rfl rfl
  | setrank => exact hgone.same rfl rfl
  | change hp =>
      rw [Label.step, change_eq _ hp.1]
      exact hgone.same rfl rfl
  | place hp =>
      obtain ⟨w, hw, -⟩ := h.world_of_live hp
      rw [Label.step, place_eq _ hp.1 hw]
      exact hgone.same rfl rfl
  | act hwp =>
      rw [Label.step, perform_eq _ hwp]
      exact hgone.same rfl rfl
  | drop hws => exact hgone.update (kept_drop h hws).nextWs hws (infos_drop h hws)
  | config => exact hgone.same rfl rfl
  | lockdown => exact hgone.same rfl rfl
  | lists => exact hgone.same rfl rfl
  | eraseConns => exact hgone.same rfl rfl
  | save hwp =>
      rw [Label.step, saveWorld_eq hwp]
      exact hgone.same rfl rfl
  | files => exact hgone.same rfl rfl

/-- A move. -/
theorem Gone.move {D : Scope} {misuses connects loads : Prop} {ws : Ws} {closed : Prop}
    (hgone : Gone ws closed s) (h : s.Consistent) (hm : Move D misuses connects loads s s') :
  Gone ws closed s'
  := by
  cases hm with
  | small hl => exact hl.keeps_gone h hgone
  | misuse => exact hgone.same rfl rfl
  | openWs =>
      obtain ⟨hlt, hnone⟩ := hgone
      refine ⟨Nat.lt_succ_of_lt hlt, ?_⟩
      exact fun hclosed => (Function.update_of_ne (Nat.ne_of_lt hlt) _ _).trans (hnone hclosed)
  | countUp => exact hgone.same rfl rfl
  | captcha hws => exact hgone.update rfl hws rfl
  | join hws => exact hgone.update rfl hws rfl
  | found _ hws => exact hgone.update rfl hws rfl
  | flush => exact hgone.same rfl rfl
  | freeClient => exact hgone.same rfl rfl
  | freeWorld => exact hgone.same rfl rfl
  | dropServer => exact hgone.same rfl rfl
  | close => exact hgone.same rfl rfl
  | exit => exact hgone.same rfl rfl
  | advance => exact hgone.same rfl rfl
  | rehash => exact hgone.same rfl rfl

/-- A connection that is closed stays closed. -/
theorem Gone.event {ws : Ws} {closed : Prop} (hgone : Gone ws closed s) (h : s.Consistent)
    (e : Event) :
  Gone ws closed (s.step e)
  := runs_keep h hgone (fun ht hgone hm => hgone.move ht hm) [e]

omit [Platform] in
/-- A connection that is open has been made. -/
theorem Consistent.lt_nextWs {ws : Ws} (h : s.Consistent) (hws : (s.infos ws).isSome = true) :
  ws < s.nextWs
  := by
  obtain ⟨si, hsi⟩ := Option.isSome_iff_exists.mp hws
  exact h.registry.lt_nextWs (h.mem_connsws.mpr ⟨si, hsi⟩)

/-- A connection is closed from outside. -/
theorem infos_disconnect {ws : Ws} (h : s.Consistent) (hws : (s.infos ws).isSome = true)
    (hexited : s.exited = false) :
  (s.step (.disconnect ws)).infos ws = none
  := by
  obtain ⟨si, hsi⟩ := Option.isSome_iff_exists.mp hws
  have hstep : s.step (.disconnect ws) = s.closeWs ws := by
    rw [step, hexited, if_neg Bool.false_ne_true, if_pos hws]
    rfl
  rw [hstep, closeWs_infos h hsi, Function.update_self]

end Server

/-! ### The hub -/

namespace WebSocket

/-- A server that is consistent. -/
abbrev Hosted := { s : Server // s.Consistent }

/-- A hosted server after an event. -/
def Hosted.event (s : Hosted) (e : Event) : Hosted := ⟨s.1.step e, s.2.event e⟩

/-- The socket of a connection reads nothing more. -/
def Hosted.stopped (s : Hosted) (ws : Ws) : Bool := s.1.exited || (s.1.infos ws).isNone

/-- What the server does with what arrives on a connection; `alloc` is the memory that a new
client and a new world would get.  The server has no handlers for pings and pongs. -/
def handlersOf (alloc : Server → ClientPtr × WorldPtr) (ws : Ws) : Handlers Hosted where
  message s op data := s.event (.message ws op data (alloc s.1).1 (alloc s.1).2)
  ping s _ := s
  pong s _ := s
  close s _ := if s.stopped ws then s else s.event (.disconnect ws)
  terminate s := if s.stopped ws then s else s.event (.disconnect ws)
  stopped s := s.stopped ws

variable (alloc : Server → ClientPtr × WorldPtr)

/-- The handlers of a connection do what handlers do. -/
theorem handlersOf_lawful (ws : Ws) :
  (handlersOf alloc ws).Lawful
  := by
  have hclose : ∀ s : Hosted,
      (if s.stopped ws then s else s.event (.disconnect ws)).stopped ws = true := by
    intro s
    split
    case isTrue hstop => exact hstop
    case isFalse hgo =>
      rw [Hosted.stopped, Bool.or_eq_true, not_or, Bool.not_eq_true, Option.isNone_iff_eq_none,
        ← ne_eq, ← Option.isSome_iff_ne_none] at hgo
      have hgone := Server.infos_disconnect s.2 hgo.2 hgo.1
      rw [Hosted.stopped, Hosted.event, hgone]
      exact Bool.or_true _
  exact ⟨hclose, fun s _ => hclose s⟩

/-- The parser of a socket and its two buffers. -/
structure Parser where
  proto : Protocol
  fragmentBuffer : Bytes
  controlBuffer : Bytes

/-- The parser of a new socket. -/
def Parser.new : Parser := ⟨.new, [], []⟩

/-- The buffer of the hub, the server, and the parsers of the sockets. -/
structure Hub where
  mem : Bytes
  server : Hosted
  parsers : Ws → Parser

/-- What may happen at a hub: data arrives on a connection, or another event of the server. -/
inductive Arrival where
  | data (ws : Ws) (bytes : Bytes)
  | other (e : Event)

/-- The hub after an arrival.  No data is read from a connection that is closed. -/
def Hub.step (h : Hub) : Arrival → Option Hub
  | .data ws bytes =>
      if h.server.stopped ws then some h
      else do
        let p := h.parsers ws
        let c ← (⟨h.mem, p.proto, ⟨p.fragmentBuffer, p.controlBuffer, h.server⟩⟩ :
          Receiver Hosted).onData (handlersOf alloc ws) bytes
        let q := ⟨c.proto, c.session.fragmentBuffer, c.session.controlBuffer⟩
        return ⟨c.mem, c.session.app, Function.update h.parsers ws q⟩
  | .other e => some { h with server := h.server.event e }

/-- The hub after some arrivals. -/
def Hub.runs (h : Hub) (arrivals : List Arrival) : Option Hub := arrivals.foldlM (Hub.step alloc) h

/-- A new hub. -/
def Hub.new (mem : Bytes) (s : Hosted) : Hub := ⟨mem, s, fun _ => .new⟩

/-! ### Readers at the sockets -/

/-- The server with a reader at each socket, until the reader stops. -/
structure Readers where
  server : Hosted
  readers : Ws → Option (Live Hosted)

/-- A reader with the server as it is now. -/
def Live.at (l : Live Hosted) (s : Hosted) : Live Hosted :=
  { l with session := { l.session with app := s } }

/-- The readers after an arrival. -/
def Readers.step (r : Readers) : Arrival → Readers
  | .data ws bytes =>
      if r.server.stopped ws then r
      else match r.readers ws with
        | none => r
        | some l =>
            match Reader.feed (handlersOf alloc ws) (.inr (l.at r.server)) bytes with
            | .inl s => ⟨s, Function.update r.readers ws none⟩
            | .inr l => ⟨l.session.app, Function.update r.readers ws (some l)⟩
  | .other e => { r with server := r.server.event e }

/-- The readers after some arrivals. -/
def Readers.runs (r : Readers) (arrivals : List Arrival) : Readers :=
  Runs.run (Readers.step alloc) r arrivals

/-- New readers. -/
def Readers.new (s : Hosted) : Readers := ⟨s, fun _ => some ⟨.head [], [], true, ⟨[], [], s⟩⟩⟩

/-- What arrives is not empty and not longer than the buffer, and no head announces more than the
parser counts. -/
def Readers.Tame (r : Readers) : Arrival → Prop
  | .data ws bytes => bytes ≠ [] ∧ bytes.length ≤ recvLength ∧ ∀ l, r.readers ws = some l →
      Reader.Tame (handlersOf alloc ws) (.inr (l.at r.server)) bytes
  | .other _ => True

/-- A parser stands where a reader does. -/
structure Parser.Matches (p : Parser) (l : Live Hosted) : Prop where
  stands : p.proto.Stands l.stack l.phase
  stack : p.proto.Open l.stack
  lastFin : p.proto.lastFin = l.lastFin
  fragmentBuffer : p.fragmentBuffer = l.session.fragmentBuffer
  controlBuffer : p.controlBuffer = l.session.controlBuffer

/-- The process has exited, or the connection was made and, if that is asked, it is closed. -/
def Hosted.Past (ws : Ws) (closed : Prop) (s : Hosted) : Prop :=
  s.1.exited = true ∨ Server.Gone ws closed s.1

/-- Any event. -/
theorem Hosted.Past.event {s : Hosted} {ws : Ws} {closed : Prop} (h : s.Past ws closed) (e : Event) :
  (s.event e).Past ws closed
  := by
  obtain hexited | hgone := h
  · left
    show (s.1.step e).exited = true
    rw [Server.step.eq_def, if_pos hexited]
    exact hexited
  · exact Or.inr (hgone.event s.2 e)

/-- The hub is where the readers are. -/
structure Hub.Follows (h : Hub) (r : Readers) : Prop where
  mem : h.mem.length = consumePrePadding + recvLength + consumePostPadding
  server : h.server = r.server
  parsers : ∀ ws l, r.readers ws = some l → (h.parsers ws).Matches l
  sound : ∀ ws l, r.readers ws = some l → l.Sound
  gone : ∀ ws, r.readers ws = none → r.server.Past ws True

/-- What happens on one connection leaves alone what is past. -/
theorem handlersOf_keep (ws ws' : Ws) (closed : Prop) :
  (handlersOf alloc ws).Keep fun s => s.Past ws' closed
  := by
  have hclose : ∀ s : Hosted, s.Past ws' closed →
      (if s.stopped ws then s else s.event (.disconnect ws)).Past ws' closed := by
    intro s hs
    split
    · exact hs
    · exact hs.event _
  exact ⟨fun s op data hs _ => hs.event _, fun s data hs _ => hs, fun s data hs _ => hs,
    fun s _ hs _ => hclose s hs, hclose⟩

/-! ### Data arrives -/

omit [Platform] in
/-- A connection that was made and has stopped is closed. -/
theorem stopped_past {s : Hosted} {ws : Ws} (hmade : s.Past ws False)
    (hstop : s.stopped ws = true) :
  s.Past ws True
  := by
  rw [Hosted.stopped, Bool.or_eq_true, Option.isNone_iff_eq_none] at hstop
  obtain hexited | hnone := hstop
  · exact Or.inl hexited
  · exact hmade.imp id fun hgone => ⟨hgone.1, fun _ => hnone⟩

omit [Platform] in
/-- A connection that was made and is closed has stopped. -/
theorem past_stopped {s : Hosted} {ws : Ws} (hpast : s.Past ws True) :
  s.stopped ws = true
  := by
  rw [Hosted.stopped, Bool.or_eq_true, Option.isNone_iff_eq_none]
  exact hpast.imp id fun hgone => hgone.2 trivial

omit [Platform] in
/-- A connection that has not stopped was made. -/
theorem past_of_open {s : Hosted} {ws : Ws} (hgo : s.stopped ws = false) :
  s.Past ws False
  := by
  rw [Hosted.stopped, Bool.or_eq_false_iff] at hgo
  have hopen : (s.1.infos ws).isSome = true := by
    rw [Option.isSome_iff_ne_none, ne_eq, ← Option.isNone_iff_eq_none, hgo.2]
    exact Bool.false_ne_true
  exact Or.inr ⟨s.2.lt_nextWs hopen, False.elim⟩

omit [Platform] in
/-- One parser and its reader have changed. -/
theorem Hub.Follows.put {h : Hub} {r : Readers} (hf : h.Follows r) {mem : Bytes} {s : Hosted}
    {ws : Ws} {p : Parser} {b : Option (Live Hosted)}
    (hmem : mem.length = consumePrePadding + recvLength + consumePostPadding)
    (hb : ∀ l, b = some l → p.Matches l ∧ l.Sound) (hnone : b = none → s.Past ws True)
    (hpast : ∀ ws', r.server.Past ws' True → s.Past ws' True) :
  Hub.Follows ⟨mem, s, Function.update h.parsers ws p⟩ ⟨s, Function.update r.readers ws b⟩
  := by
  have hall : ∀ ws' l, Function.update r.readers ws b ws' = some l →
      (Function.update h.parsers ws p ws').Matches l ∧ l.Sound := by
    intro ws' l hl
    by_cases heq : ws' = ws
    · subst heq
      rw [Function.update_self] at hl ⊢
      exact hb l hl
    · rw [Function.update_of_ne heq] at hl ⊢
      exact ⟨hf.parsers ws' l hl, hf.sound ws' l hl⟩
  refine ⟨hmem, rfl, fun ws' l hl => (hall ws' l hl).1, fun ws' l hl => (hall ws' l hl).2, ?_⟩
  intro ws' hws'
  dsimp only at hws'
  by_cases heq : ws' = ws
  · subst heq
    rw [Function.update_self] at hws'
    exact hnone hws'
  · rw [Function.update_of_ne heq] at hws'
    exact hpast ws' (hf.gone ws' hws')

variable {alloc}

/-- The parser of one socket reads what its reader reads. -/
theorem data_step {h : Hub} {r : Readers} {ws : Ws} {bytes : Bytes} {l : Live Hosted}
    (hf : h.Follows r) (hgo : r.server.stopped ws = false) (hl : r.readers ws = some l)
    (hne : bytes ≠ []) (hle : bytes.length ≤ recvLength)
    (htame : Reader.Tame (handlersOf alloc ws) (.inr (l.at r.server)) bytes) :
  ∃ c : Receiver Hosted, (⟨h.mem, (h.parsers ws).proto, ⟨(h.parsers ws).fragmentBuffer,
      (h.parsers ws).controlBuffer, h.server⟩⟩ : Receiver Hosted).onData (handlersOf alloc ws) bytes
      = some c ∧
    c.Follows (handlersOf alloc ws)
      (Reader.feed (handlersOf alloc ws) (.inr (l.at r.server)) bytes)
  := by
  have hmatches := hf.parsers ws l hl
  have hfollows : Receiver.Follows (handlersOf alloc ws) ⟨h.mem, (h.parsers ws).proto,
      ⟨(h.parsers ws).fragmentBuffer, (h.parsers ws).controlBuffer, h.server⟩⟩
      (.inr (l.at r.server)) := by
    refine ⟨hf.mem, ⟨hmatches.stands, hmatches.stack, hmatches.lastFin, ?_⟩, ?_⟩
    · rw [hmatches.fragmentBuffer, hmatches.controlBuffer, hf.server]
      rfl
    · rintro _ ⟨⟩
      exact hgo
  exact onData_follows _ (handlersOf_lawful alloc ws) hfollows hne hle htame

/-- One arrival. -/
theorem Hub.Follows.step {h : Hub} {r : Readers} {a : Arrival} (hf : h.Follows r)
    (htame : r.Tame alloc a) :
  ∃ h', h.step alloc a = some h' ∧ h'.Follows (r.step alloc a)
  := by
  cases a with
  | other e =>
      refine ⟨_, rfl, hf.mem, ?_, hf.parsers, hf.sound, fun ws hws => (hf.gone ws hws).event e⟩
      show h.server.event e = r.server.event e
      rw [hf.server]
  | data ws bytes =>
      obtain ⟨hne, hle, htame⟩ := htame
      rw [Hub.step, Readers.step, hf.server]
      cases hstop : r.server.stopped ws with
      | true => exact ⟨h, rfl, hf⟩
      | false =>
          cases hl : r.readers ws with
          | none =>
              have hstop' := past_stopped (hf.gone ws hl)
              exact absurd (hstop.symm.trans hstop') Bool.false_ne_true
          | some l =>
              obtain ⟨c, hdata, hc⟩ := data_step hf hstop hl hne hle (htame l hl)
              rw [hf.server] at hdata
              rw [if_neg Bool.false_ne_true, if_neg Bool.false_ne_true]
              dsimp only
              rw [bind_of_eq hdata]
              refine ⟨_, rfl, ?_⟩
              have hkept : ∀ ws' closed, r.server.Past ws' closed →
                  (Reader.feed (handlersOf alloc ws) (.inr (l.at r.server)) bytes).Kept
                    fun s => s.Past ws' closed := by
                intro ws' closed hpast
                apply run_kept (handlersOf_keep alloc ws ws' closed)
                refine ⟨hpast, ?_⟩
                rintro _ ⟨⟩
                have hsound := hf.sound ws l hl
                exact ⟨hsound.below, hsound.head, hsound.body⟩
              have hmade := hkept ws False (past_of_open hstop)
              have happ := hc.app_eq
              have hfollows := hc.follows
              cases hread : Reader.feed (handlersOf alloc ws) (.inr (l.at r.server)) bytes with
              | inl s =>
                  rw [hread] at hkept hmade happ hfollows
                  obtain rfl : c.session.app = s := happ
                  exact hf.put hc.mem (fun _ h => absurd h (Option.some_ne_none _).symm)
                    (fun _ => stopped_past hmade.1 hfollows.2)
                    (fun ws' hpast => (hkept ws' True hpast).1)
              | inr l' =>
                  rw [hread] at hkept hmade happ hfollows
                  obtain ⟨hstands, hstack, hfin, hsession⟩ := hfollows
                  have happ' : c.session.app = l'.session.app := happ
                  rw [happ']
                  refine hf.put hc.mem ?_ (fun h => absurd h (Option.some_ne_none _))
                    (fun ws' hpast => (hkept ws' True hpast).1)
                  rintro _ ⟨⟩
                  refine ⟨⟨hstands, hstack, hfin, ?_, ?_⟩, hmade.2 l' rfl⟩
                  · rw [hsession]
                  · rw [hsession]

/-! ### Runs of the hub -/

/-- An event that data on the connection `ws` may make. -/
def Spoken (ws : Ws) (e : Event) : Prop :=
  e = .disconnect ws ∨
    ∃ op msg p wp, e = .message ws op msg p wp ∧ (op = .text → IsText msg)

/-- An event that some arrivals may make. -/
def Heard (arrivals : List Arrival) (e : Event) : Prop :=
  .other e ∈ arrivals ∨ ∃ ws bytes, .data ws bytes ∈ arrivals ∧ Spoken ws e

omit [Platform] in
/-- More may have arrived. -/
theorem Heard.mono {arrivals arrivals' : List Arrival} {e : Event} (h : Heard arrivals e)
    (hle : arrivals ⊆ arrivals') :
  Heard arrivals' e
  := h.imp (fun hother => hle hother)
    fun ⟨ws, bytes, hdata, hspoken⟩ => ⟨ws, bytes, hle hdata, hspoken⟩

/-- What happens on one connection is a run of events of its own. -/
theorem handlersOf_spoken (ws : Ws) (s : Server) :
  (handlersOf alloc ws).Keep fun s' => ∃ events, s'.1 = s.runs events ∧ ∀ e ∈ events, Spoken ws e
  := by
  have hevent : ∀ (s' : Hosted) (e : Event), Spoken ws e →
      (∃ events, s'.1 = s.runs events ∧ ∀ e ∈ events, Spoken ws e) →
      ∃ events, (s'.event e).1 = s.runs events ∧ ∀ e ∈ events, Spoken ws e := by
    rintro s' e he ⟨events, hs', hall⟩
    refine ⟨events ++ [e], ?_, ?_⟩
    · rw [Server.runs, Runs.run_concat, ← Server.runs, ← hs']
      rfl
    · intro e' he'
      obtain he' | he' := List.mem_append.mp he'
      · exact hall e' he'
      · rw [List.mem_singleton.mp he']
        exact he
  have hclose : ∀ s' : Hosted, (∃ events, s'.1 = s.runs events ∧ ∀ e ∈ events, Spoken ws e) →
      ∃ events, (if s'.stopped ws then s' else s'.event (.disconnect ws)).1 = s.runs events ∧
        ∀ e ∈ events, Spoken ws e := by
    intro s' hs'
    split
    · exact hs'
    · exact hevent s' _ (Or.inl rfl) hs'
  exact ⟨fun s' op msg hs' htext => hevent s' _ (Or.inr ⟨op, msg, _, _, rfl, htext⟩) hs',
    fun s' _ hs' _ => hs', fun s' _ hs' _ => hs', fun s' _ hs' _ => hclose s' hs', hclose⟩

/-- An arrival makes the server take events. -/
theorem Hub.Follows.events {h : Hub} {r : Readers} (hf : h.Follows r) (a : Arrival)
    (alloc : Server → ClientPtr × WorldPtr) :
  ∃ events, (r.step alloc a).server.1 = r.server.1.runs events ∧ ∀ e ∈ events, Heard [a] e
  := by
  cases a with
  | other e =>
      refine ⟨[e], rfl, ?_⟩
      rintro e' he'
      rw [List.mem_singleton.mp he']
      exact Or.inl List.mem_cons_self
  | data ws bytes =>
      have hnone : ∃ events, r.server.1 = r.server.1.runs events ∧
          ∀ e ∈ events, Heard [.data ws bytes] e :=
        ⟨[], rfl, fun e he => absurd he List.not_mem_nil⟩
      rw [Readers.step]
      split
      case isTrue => exact hnone
      case isFalse =>
        cases hl : r.readers ws with
        | none => exact hnone
        | some l =>
            have hsound := hf.sound ws l hl
            have hkept : (Reader.feed (handlersOf alloc ws) (.inr (l.at r.server)) bytes).Kept
                fun s => ∃ events, s.1 = r.server.1.runs events ∧ ∀ e ∈ events, Spoken ws e := by
              apply run_kept (handlersOf_spoken ws r.server.1)
              refine ⟨⟨[], rfl, fun e he => absurd he List.not_mem_nil⟩, ?_⟩
              rintro _ ⟨⟩
              exact ⟨hsound.below, hsound.head, hsound.body⟩
            obtain ⟨events, happ, hall⟩ := hkept.1
            refine ⟨events, ?_, fun e he => Or.inr ⟨ws, bytes, List.mem_cons_self, hall e he⟩⟩
            dsimp only
            rw [← happ]
            cases Reader.feed (handlersOf alloc ws) (.inr (l.at r.server)) bytes with
            | inl s => rfl
            | inr l' => rfl

/-- However the data of all connections is cut, and whatever happens between its pieces, the hub
touches no byte outside of its buffer and does what readers do; the server takes a run of events,
in which every text is one. -/
theorem Hub.Follows.runs {h : Hub} {r : Readers} (hf : h.Follows r) {arrivals : List Arrival}
    (htame : Runs.Along (Readers.step alloc) (Readers.Tame alloc) r arrivals) :
  ∃ h' events, h.runs alloc arrivals = some h' ∧ h'.Follows (r.runs alloc arrivals) ∧
    h'.server.1 = h.server.1.runs events ∧ ∀ e ∈ events, Heard arrivals e
  := by
  induction arrivals generalizing h r with
  | nil => exact ⟨h, [], rfl, hf, rfl, fun e he => absurd he List.not_mem_nil⟩
  | cons a arrivals ih =>
      obtain ⟨hfirst, hrest⟩ := Runs.along_cons.mp htame
      obtain ⟨h₁, hstep, hf₁⟩ := hf.step hfirst
      obtain ⟨events₁, hserver₁, hall₁⟩ := hf.events a alloc
      obtain ⟨h₂, events₂, hruns, hf₂, hserver₂, hall₂⟩ := ih hf₁ hrest
      refine ⟨h₂, events₁ ++ events₂, ?_, hf₂, ?_, ?_⟩
      · rw [Hub.runs, List.foldlM_cons, bind_of_eq hstep]
        exact hruns
      · rw [hserver₂, hf₁.server, hserver₁, hf.server]
        exact (Runs.run_append _ _ _ _).symm
      · intro e he
        obtain he | he := List.mem_append.mp he
        · exact (hall₁ e he).mono (List.cons_subset_cons a (List.nil_subset _))
        · exact (hall₂ e he).mono (List.subset_cons_self a arrivals)

omit [Platform] in
/-- A new hub follows new readers. -/
theorem Hub.follows_new {mem : Bytes} (s : Hosted)
    (hmem : mem.length = consumePrePadding + recvLength + consumePostPadding) :
  (Hub.new mem s).Follows (Readers.new s)
  := by
  refine ⟨hmem, rfl, ?_, ?_, fun ws h => absurd h (Option.some_ne_none _)⟩
  · rintro ws _ ⟨⟩
    exact ⟨⟨rfl, rfl, Or.inl (by decide)⟩, rfl, rfl, rfl, rfl⟩
  · rintro ws _ ⟨⟩
    exact ⟨fun op hop => absurd hop List.not_mem_nil,
      fun _ _ => ⟨rfl, fun op hop => absurd hop List.not_mem_nil⟩,
      fun _ _ h => absurd h Phase.noConfusion⟩

/-- The hub of a new server, from its start on. -/
theorem Hub.runs_new {mem : Bytes} (s : Hosted) {arrivals : List Arrival}
    (hmem : mem.length = consumePrePadding + recvLength + consumePostPadding)
    (htame : Runs.Along (Readers.step alloc) (Readers.Tame alloc) (Readers.new s) arrivals) :
  ∃ h events, (Hub.new mem s).runs alloc arrivals = some h ∧
    h.server = ((Readers.new s).runs alloc arrivals).server ∧
    h.server.1 = s.1.runs events ∧ ∀ e ∈ events, Heard arrivals e
  := by
  obtain ⟨h, events, hruns, hfollows, hserver, hall⟩ := (Hub.follows_new s hmem).runs htame
  exact ⟨h, events, hruns, hfollows.server, hserver, hall⟩

/-- The frame of a client that joins the world `m`. -/
def joinFrame : Frame := ⟨true, opBinary, ![1, 2, 3, 4], [109, 0, 0]⟩

omit [Platform] in
/-- A client connects and joins a world. -/
theorem Hub.runs_new_join :
  let _ := Platform.quiet
  let s : Hosted := ⟨Server.new (ofString "m") (ofString "a") [] (Disk.empty fun _ => true) 0,
    Server.consistent_new _ _ _ _ _⟩
  let arrivals := [.other (.connect (ofString "b")), .data 0 joinFrame.bytes]
  ∃ h events, (Hub.new (List.replicate 307200 0) s).runs (fun _ => (1, 1)) arrivals = some h ∧
    h.server = ((Readers.new s).runs (fun _ => (1, 1)) arrivals).server ∧
    h.server.1 = s.1.runs events ∧ ∀ e ∈ events, Heard arrivals e
  := by
  let _ := Platform.quiet
  apply @Hub.runs_new Platform.quiet _ _ _ _ List.length_replicate
  rw [Runs.along_cons, Runs.along_cons]
  refine ⟨trivial, ⟨by decide, by decide, ?_⟩, Runs.along_nil⟩
  rintro _ ⟨⟩
  exact Frame.tame_bytes _ rfl (by decide : joinFrame.Valid)

end WebSocket

end Owop
