import OwopServer.WebSocket.Sending

/-!
# Delivery

However the kernel takes what is sent, it gets the frames of the messages that were accepted, whole
and in their order, and a peer that reads the frames reads a prefix of these messages.  The rest
waits in the queue until the socket ends, and while something waits, the kernel is asked.
-/

namespace Owop

namespace WebSocket

/-! ### Reading frames -/

/-- The frame of a message. -/
def frameOfMessage (msg : UInt8 × Bytes) : Bytes := formatMessage none msg.2 msg.1

/-- What a peer reads: the first message, if its frame is there, and what comes after it. -/
def readFrame : Bytes → Option ((UInt8 × Bytes) × Bytes)
  | b0 :: b1 :: rest =>
      let ext := if b1 < 126 then 0 else if b1 = 126 then 2 else 8
      let n := if b1 < 126 then b1.toNat else beNat (rest.take ext)
      if rest.length < ext + n then none
      else some ((b0 &&& 15, (rest.drop ext).take n), rest.drop (ext + n))
  | _ => none

/-- The messages that a peer reads, at most so many. -/
def readFrames : ℕ → Bytes → List (UInt8 × Bytes)
  | 0, _ => []
  | fuel + 1, bs =>
      match readFrame bs with
      | some (msg, rest) => msg :: readFrames fuel rest
      | none => []

/-- A message that a frame can hold. -/
def Framed (msg : UInt8 × Bytes) : Prop := msg.1 < 16 ∧ msg.2.length < 2 ^ 64

instance (msg : UInt8 × Bytes) : Decidable (Framed msg) := inferInstanceAs (Decidable (_ ∧ _))

/-- A frame begins with its code, and its length in one of three ways. -/
theorem frameOfMessage_cases {msg : UInt8 × Bytes} (hfits : Framed msg) :
  ∃ b1 ext, frameOfMessage msg = (128 ||| msg.1) :: b1 :: (ext ++ msg.2) ∧
    (if b1 < 126 then 0 else if b1 = 126 then 2 else 8) = ext.length ∧
    (if b1 < 126 then b1.toNat else beNat ext) = msg.2.length
  := by
  obtain ⟨op, payload⟩ := msg
  have hlength : payload.length < 2 ^ 64 := hfits.2
  rw [frameOfMessage, formatMessage]
  simp only [Option.isSome_none, Bool.false_eq_true, if_false, UInt8.or_zero]
  by_cases hsmall : payload.length < 126
  · have hnat : (UInt8.ofNat payload.length).toNat = payload.length := by
      rw [UInt8.toNat_ofNat']
      exact Nat.mod_eq_of_lt (by omega)
    have hlt : UInt8.ofNat payload.length < 126 := by
      rw [UInt8.lt_iff_toNat_lt, hnat]
      exact hsmall
    refine ⟨UInt8.ofNat payload.length, [], ?_, ?_, ?_⟩
    · rw [if_pos hsmall]
      rfl
    · rw [if_pos hlt, List.length_nil]
    · rw [if_pos hlt, hnat]
  · by_cases hmedium : payload.length ≤ 65535
    · refine ⟨126, (Bytes.leBytes 2 payload.length).reverse, ?_, ?_, ?_⟩
      · rw [if_neg hsmall, if_pos hmedium]
        rfl
      · rw [List.length_reverse, Bytes.length_leBytes]
        rfl
      · exact beNat_reverse_leBytes (by omega)
    · refine ⟨127, (Bytes.leBytes 8 payload.length).reverse, ?_, ?_, ?_⟩
      · rw [if_neg hsmall, if_neg hmedium]
        rfl
      · rw [List.length_reverse, Bytes.length_leBytes]
        rfl
      · exact beNat_reverse_leBytes (by omega)

/-- The code of an operation is read off the first byte of its frame. -/
theorem and_fifteen {op : UInt8} (h : op < 16) :
  (128 ||| op) &&& 15 = op
  := by
  have hall : ∀ n : Fin 16, (128 ||| UInt8.ofNat n) &&& 15 = UInt8.ofNat n := by decide
  rw [UInt8.lt_iff_toNat_lt] at h
  have hop := hall ⟨op.toNat, h⟩
  rw [UInt8.ofNat_toNat] at hop
  exact hop

/-- A peer reads the message of a whole frame. -/
theorem readFrame_append {msg : UInt8 × Bytes} (hfits : Framed msg) (rest : Bytes) :
  readFrame (frameOfMessage msg ++ rest) = some (msg, rest)
  := by
  obtain ⟨b1, ext, hframe, hext, hlength⟩ := frameOfMessage_cases hfits
  rw [hframe, List.cons_append, List.cons_append, readFrame]
  rw [hext, List.append_assoc, List.take_left, hlength, if_neg, List.drop_left, List.take_left,
    ← List.drop_drop, List.drop_left, List.drop_left, and_fifteen hfits.1]
  rw [List.length_append, List.length_append]
  omega

/-- A peer does not read what has not come whole. -/
theorem readFrame_none {msg : UInt8 × Bytes} (hfits : Framed msg) {bs rest : Bytes}
    (hpre : bs ++ rest = frameOfMessage msg) (hrest : rest ≠ []) :
  readFrame bs = none
  := by
  obtain ⟨b1, ext, hframe, hext, hlength⟩ := frameOfMessage_cases hfits
  rw [hframe] at hpre
  cases bs with
  | nil => rfl
  | cons b0 bs =>
      cases bs with
      | nil => rfl
      | cons b bs =>
          obtain ⟨hb0, htail⟩ := List.cons.inj hpre
          obtain ⟨hb1, htail'⟩ := List.cons.inj htail
          have hall : bs ++ rest = ext ++ msg.2 := htail'
          rw [← hb1] at hext hlength
          have hsum := congrArg List.length hall
          have hpos := List.length_pos_of_ne_nil hrest
          simp only [List.length_append] at hsum
          rw [readFrame, hext, if_pos]
          by_cases hshort : bs.length < ext.length
          · omega
          · have htake : bs.take ext.length = ext := by
              have h := congrArg (List.take ext.length) hall
              rw [List.take_append_of_le_length (by omega), List.take_left] at h
              exact h
            rw [htake, hlength]
            omega

/-- What a peer has read of the frames of some messages is a prefix of these messages. -/
theorem readFrames_prefix {msgs : List (UInt8 × Bytes)} (hfits : ∀ msg ∈ msgs, Framed msg)
    {bs rest : Bytes} (hpre : bs ++ rest = msgs.flatMap frameOfMessage) (fuel : ℕ) :
  readFrames fuel bs <+: msgs
  := by
  induction msgs generalizing bs fuel with
  | nil =>
      obtain ⟨rfl, -⟩ := List.append_eq_nil_iff.mp hpre
      cases fuel with
      | zero => exact List.prefix_refl []
      | succ fuel => exact List.prefix_refl []
  | cons msg msgs ih =>
      obtain ⟨hfirst, hothers⟩ := List.forall_mem_cons.mp hfits
      cases fuel with
      | zero => exact List.nil_prefix
      | succ fuel =>
          rw [List.flatMap_cons] at hpre
          rw [readFrames]
          by_cases hlong : (frameOfMessage msg).length ≤ bs.length
          · obtain ⟨bs', rfl⟩ : ∃ bs', bs = frameOfMessage msg ++ bs' := by
              have htake := congrArg (List.take (frameOfMessage msg).length) hpre
              rw [List.take_left, List.take_append_of_le_length hlong] at htake
              refine ⟨bs.drop (frameOfMessage msg).length, ?_⟩
              nth_rewrite 1 [← List.take_append_drop (frameOfMessage msg).length bs]
              rw [htake]
            rw [List.append_assoc] at hpre
            rw [readFrame_append hfirst]
            exact (List.prefix_cons_inj msg).mpr (ih hothers (List.append_cancel_left hpre) fuel)
          · obtain ⟨rest', hrest'⟩ : ∃ rest', bs ++ rest' = frameOfMessage msg := by
              have htake := congrArg (List.take (frameOfMessage msg).length) hpre
              rw [List.take_left, List.take_append, List.take_of_length_le (by omega)] at htake
              exact ⟨_, htake⟩
            rw [readFrame_none hfirst hrest']
            · exact List.nil_prefix
            · rintro rfl
              rw [List.append_nil] at hrest'
              rw [hrest'] at hlong
              exact hlong (le_refl _)

/-- A peer reads all messages whose frames have come whole. -/
theorem readFrames_all {msgs : List (UInt8 × Bytes)} (hfits : ∀ msg ∈ msgs, Framed msg) {fuel : ℕ}
    (hfuel : msgs.length ≤ fuel) :
  readFrames fuel (msgs.flatMap frameOfMessage) = msgs
  := by
  induction msgs generalizing fuel with
  | nil =>
      cases fuel with
      | zero => rfl
      | succ fuel => rfl
  | cons msg msgs ih =>
      obtain ⟨hfirst, hothers⟩ := List.forall_mem_cons.mp hfits
      cases fuel with
      | zero => exact absurd hfuel (Nat.not_succ_le_zero _)
      | succ fuel =>
          rw [List.flatMap_cons, readFrames, readFrame_append hfirst]
          exact congrArg (List.cons msg) (ih hothers (Nat.le_of_succ_le_succ hfuel))

/-! ### One socket -/

/-- The last message was that of a close. -/
def Closed (msgs : List (UInt8 × Bytes)) : Prop :=
  ∃ before payload, msgs = before ++ [(opClose, payload)]

/-- What holds of a socket: the kernel has got the frames of the messages that were accepted, but
for what waits; it is asked while something waits; and the end is announced to the peer behind
the frame of a close, with which everything was sent. -/
structure Sender.Sound (d : Sender) : Prop where
  pending : d.ended = false →
    d.wire ++ d.messageQueue.flatMap Message.data = d.given.flatMap frameOfMessage
  taken : d.wire <+: d.given.flatMap frameOfMessage
  polls : d.ended = false → (d.polls = true ↔ d.messageQueue ≠ [])
  ended : d.ended = true → d.messageQueue = []
  finished : d.finished = true → d.shuttingDown = true ∧ Closed d.given ∧ d.messageQueue = [] ∧
    d.wire = d.given.flatMap frameOfMessage
  shutdown : ∀ before m after, d.messageQueue = before ++ m :: after → m.callback = .shutdown →
    d.shuttingDown = true ∧ Closed d.given ∧ after = []

namespace Sender

variable {d : Sender}

/-- At the start. -/
theorem sound_new :
  new.Sound
  := by
  refine ⟨fun _ => rfl, List.nil_prefix, fun _ => ⟨nofun, fun h => absurd rfl h⟩, nofun, nofun, ?_⟩
  intro before m after h
  exact absurd h (List.append_ne_nil_of_right_ne_nil _ (List.cons_ne_nil _ _)).symm

/-- Nothing was accepted that ends the messages. -/
def Going (d : Sender) : Prop :=
  d.finished = false ∧ ∀ m ∈ d.messageQueue, m.callback ≠ .shutdown

/-- A socket that is not shutting down goes on. -/
theorem Sound.going (h : d.Sound) (hopen : d.shuttingDown = false) :
  d.Going
  := by
  constructor
  · by_contra hfinished
    rw [Bool.not_eq_false] at hfinished
    rw [(h.finished hfinished).1] at hopen
    cases hopen
  · intro m hm hshutdown
    obtain ⟨before, after, hqueue⟩ := List.append_of_mem hm
    rw [(h.shutdown before m after hqueue hshutdown).1] at hopen
    cases hopen

/-- A callback is called. -/
theorem complete_eq (d : Sender) (callback : Callback) :
  d.complete callback = { d with finished := d.finished || callback == .shutdown }
  := by
  cases callback with
  | none | prepared p =>
      rw [complete, show (_ == Callback.shutdown) = false from rfl, Bool.or_false]
      · exact nofun
  | shutdown =>
      rw [complete, beq_self_eq_true, Bool.or_true]

/-- A message, or the rest of it, waits behind the others. -/
theorem sound_enqueue {d' : Sender} (hopen : d.ended = false) (hgoing : d.Going)
    {msg : UInt8 × Bytes} (m : Message) (hgiven : d'.given = d.given ++ [msg])
    (hqueue : d'.messageQueue = d.messageQueue ++ [m]) (hpolls : d'.polls = true)
    (hended : d'.ended = d.ended) (hshutting : d'.shuttingDown = d.shuttingDown)
    (hfinished : d'.finished = d.finished)
    (hwire : d'.wire ++ (d.messageQueue.flatMap Message.data ++ m.data)
      = d'.given.flatMap frameOfMessage)
    (hshut : m.callback = .shutdown → d.shuttingDown = true ∧ msg.1 = opClose) :
  d'.Sound
  := by
  rw [← List.flatMap_singleton Message.data m, ← List.flatMap_append, ← hqueue] at hwire
  constructor
  case pending => exact fun _ => hwire
  case taken => exact ⟨_, hwire⟩
  case polls =>
    intro _
    rw [hpolls, hqueue]
    exact ⟨fun _ => List.append_ne_nil_of_right_ne_nil _ (List.cons_ne_nil _ _), fun _ => rfl⟩
  case ended =>
    rw [hended, hopen]
    exact nofun
  case finished =>
    rw [hfinished, hgoing.1]
    exact nofun
  case shutdown =>
    intro before m' after hsplit hm'
    rw [hqueue] at hsplit
    obtain rfl | ⟨after, last, rfl⟩ := List.eq_nil_or_concat after
    · obtain ⟨-, hlast⟩ := List.append_inj' hsplit rfl
      obtain rfl := (List.cons.inj hlast).1
      obtain ⟨hset, hop⟩ := hshut hm'
      rw [hshutting, hgiven]
      exact ⟨hset, ⟨d.given, msg.2, by rw [← hop]⟩, rfl⟩
    · rw [List.concat_eq_append, ← List.cons_append, ← List.append_assoc] at hsplit
      obtain ⟨hold, -⟩ := List.append_inj' hsplit rfl
      refine absurd hm' (hgoing.2 m' ?_)
      rw [hold]
      exact List.mem_append_right _ List.mem_cons_self

/-- A message is written. -/
theorem Sound.write (h : d.Sound) (hopen : d.ended = false) (hgoing : d.Going)
    {msg : UInt8 × Bytes} {m : Message} (hdata : m.data = frameOfMessage msg)
    (hshut : m.callback = .shutdown → d.shuttingDown = true ∧ msg.1 = opClose) (sent : Sent) :
  (d.write msg m sent).1.Sound
  := by
  have hall : d.wire ++ (d.messageQueue.flatMap Message.data ++ m.data)
      = (d.given ++ [msg]).flatMap frameOfMessage := by
    rw [List.flatMap_append, List.flatMap_singleton, ← h.pending hopen, hdata, List.append_assoc]
  rw [Sender.write.eq_def]
  split
  case isTrue hempty =>
    rw [List.isEmpty_iff] at hempty
    cases sent with
    | sent n =>
        dsimp only
        split
        case isTrue hfull =>
          rw [hempty, List.flatMap_nil, List.nil_append] at hall
          rw [List.take_of_length_le hfull, complete_eq]
          constructor
          case pending =>
            intro _
            dsimp only
            rw [hempty, List.flatMap_nil, List.append_nil, hall]
          case taken =>
            dsimp only
            rw [hall]
          case polls => exact h.polls
          case ended => exact fun _ => hempty
          case finished =>
            dsimp only
            rw [hgoing.1, Bool.false_or, beq_iff_eq]
            intro hm
            obtain ⟨hset, hop⟩ := hshut hm
            exact ⟨hset, ⟨d.given, msg.2, by rw [← hop]⟩, hempty, hall⟩
          case shutdown =>
            intro before m' after hsplit
            rw [show d.messageQueue = before ++ m' :: after from hsplit] at hempty
            exact absurd hempty (List.append_ne_nil_of_right_ne_nil _ (List.cons_ne_nil _ _))
        case isFalse hpart =>
          refine sound_enqueue hopen hgoing ⟨m.data.drop n, m.callback⟩ rfl (by rw [hempty]; rfl) rfl rfl rfl rfl ?_ hshut
          dsimp only
          rw [List.append_assoc, hempty, List.flatMap_nil, List.nil_append, List.take_append_drop]
          rw [hempty, List.flatMap_nil, List.nil_append] at hall
          exact hall
    | wouldBlock =>
        exact sound_enqueue hopen hgoing m rfl (by rw [hempty]; rfl) rfl rfl rfl rfl hall hshut
    | failed => exact h
  case isFalse hne =>
    rw [List.isEmpty_iff] at hne
    exact sound_enqueue hopen hgoing m rfl rfl ((h.polls hopen).mpr hne) rfl rfl rfl hall hshut

/-- What `write` leaves as it was. -/
theorem write_same (d : Sender) (msg : UInt8 × Bytes) (m : Message) (sent : Sent) :
  (d.write msg m sent).1.ended = d.ended ∧ (d.write msg m sent).1.shuttingDown = d.shuttingDown
  := by
  rw [Sender.write.eq_def]
  split
  · cases sent with
    | sent n =>
        dsimp only
        rw [complete_eq]
        split
        · exact ⟨rfl, rfl⟩
        · exact ⟨rfl, rfl⟩
    | wouldBlock | failed => exact ⟨rfl, rfl⟩
  · exact ⟨rfl, rfl⟩

/-- A message that is written is accepted, unless `::send` fails. -/
theorem given_write (d : Sender) (msg : UInt8 × Bytes) (m : Message) (sent : Sent) :
  ∃ more, (d.write msg m sent).1.given = d.given ++ more ∧ more.Sublist [msg] ∧
    ((sent != .failed) = true → more = [msg])
  := by
  have hone : [msg].Sublist [msg] ∧ ((sent != .failed) = true → [msg] = [msg]) :=
    ⟨List.Sublist.refl _, fun _ => rfl⟩
  rw [Sender.write.eq_def]
  split
  · cases sent with
    | sent n =>
        dsimp only
        rw [complete_eq]
        split
        · exact ⟨[msg], rfl, hone⟩
        · exact ⟨[msg], rfl, hone⟩
    | wouldBlock => exact ⟨[msg], rfl, hone⟩
    | failed => exact ⟨[], (List.append_nil _).symm, List.nil_sublist _, fun h => absurd h (by decide)⟩
  · exact ⟨[msg], rfl, hone⟩

/-- The first message of the queue is sent. -/
theorem Sound.pop (h : d.Sound) (hopen : d.ended = false) {m : Message} {queue : List Message}
    (hqueue : d.messageQueue = m :: queue) {d' : Sender}
    (hd' : d' = { d.complete m.callback with
      wire := d.wire ++ m.data, messageQueue := queue, polls := !queue.isEmpty }) :
  d'.Sound
  := by
  have hpending := h.pending hopen
  rw [hqueue, List.flatMap_cons, ← List.append_assoc] at hpending
  rw [complete_eq] at hd'
  subst hd'
  constructor
  case pending => exact fun _ => hpending
  case taken => exact ⟨_, hpending⟩
  case polls =>
    intro _
    cases queue with
    | nil => exact ⟨nofun, fun hne => absurd rfl hne⟩
    | cons m' queue => exact ⟨fun _ => List.cons_ne_nil _ _, fun _ => rfl⟩
  case ended =>
    intro hended
    rw [hopen] at hended
    cases hended
  case finished =>
    intro hfinished
    obtain hold | hnow := Bool.or_eq_true _ _ ▸ hfinished
    · obtain ⟨-, -, hnil, -⟩ := h.finished hold
      rw [hqueue] at hnil
      cases hnil
    · obtain ⟨hset, hclosed, rfl⟩ := h.shutdown [] m queue hqueue (beq_iff_eq.mp hnow)
      exact ⟨hset, hclosed, rfl, by rw [← hpending]; exact (List.append_nil _).symm⟩
  case shutdown =>
    intro before m' after hsplit
    apply h.shutdown (m :: before) m' after
    rw [hqueue, show queue = before ++ m' :: after from hsplit]
    rfl

/-- A part of the first message is sent. -/
theorem Sound.part (h : d.Sound) (hopen : d.ended = false) {m : Message} {queue : List Message}
    (hqueue : d.messageQueue = m :: queue) (n : ℕ) :
  ({ d with
    wire := d.wire ++ m.data.take n
    messageQueue := ⟨m.data.drop n, m.callback⟩ :: queue } : Sender).Sound
  := by
  have hpending := h.pending hopen
  rw [hqueue, List.flatMap_cons] at hpending
  have hsame : d.wire ++ m.data.take n ++ (m.data.drop n ++ queue.flatMap Message.data)
      = d.given.flatMap frameOfMessage := by
    rw [← hpending, List.append_assoc, ← List.append_assoc (m.data.take n), List.take_append_drop]
  constructor
  case pending => exact fun _ => hsame
  case taken => exact ⟨_, hsame⟩
  case polls =>
    intro _
    rw [h.polls hopen, hqueue]
    exact ⟨fun _ => List.cons_ne_nil _ _, fun _ => List.cons_ne_nil _ _⟩
  case ended =>
    intro hended
    rw [hopen] at hended
    cases hended
  case finished =>
    intro hfinished
    obtain ⟨-, -, hnil, -⟩ := h.finished hfinished
    rw [hqueue] at hnil
    cases hnil
  case shutdown =>
    intro before m' after hsplit hm'
    cases before with
    | nil =>
        obtain ⟨rfl, rfl⟩ := List.cons.inj hsplit
        exact h.shutdown [] m queue hqueue hm'
    | cons m'' before =>
        obtain ⟨-, htail⟩ := List.cons.inj hsplit
        exact h.shutdown (m :: before) m' after (by rw [hqueue, htail]; rfl) hm'

/-- The kernel takes what waits, as much as it likes. -/
theorem Sound.flush (h : d.Sound) (hopen : d.ended = false) (answers : List Sent) :
  (d.flush answers).1.Sound ∧ (d.flush answers).1.ended = false ∧
    (d.flush answers).1.given = d.given
  := by
  induction answers generalizing d with
  | nil => exact ⟨h, hopen, rfl⟩
  | cons sent answers ih =>
      rw [Sender.flush]
      cases hqueue : d.messageQueue with
      | nil => exact ⟨h, hopen, rfl⟩
      | cons m queue =>
          cases sent with
          | sent n =>
              dsimp only
              split
              case isTrue hfull =>
                have hpop := h.pop hopen hqueue rfl
                have hpolls : d.polls = true := (h.polls hopen).mpr (by rw [hqueue]; exact List.cons_ne_nil _ _)
                rw [List.take_of_length_le hfull]
                rw [complete_eq] at hpop ⊢
                split
                case isTrue hempty =>
                  rw [hempty, Bool.not_true] at hpop
                  exact ⟨hpop, hopen, rfl⟩
                case isFalse hmore =>
                  rw [Bool.not_eq_true] at hmore
                  rw [hmore, Bool.not_false, ← hpolls] at hpop
                  exact ih hpop hopen
              case isFalse => exact ⟨h.part hopen hqueue n, hopen, rfl⟩
          | wouldBlock | failed => exact ⟨h, hopen, rfl⟩

/-- The socket ends. -/
theorem Sound.onEnd (h : d.Sound) :
  d.onEnd.1.Sound
  := by
  constructor
  case pending => exact nofun
  case taken => exact h.taken
  case polls => exact nofun
  case ended => exact fun _ => rfl
  case finished =>
    intro hfinished
    obtain ⟨hset, hclosed, -, hwire⟩ := h.finished hfinished
    exact ⟨hset, hclosed, rfl, hwire⟩
  case shutdown =>
    intro before m after hsplit
    exact absurd hsplit (List.append_ne_nil_of_right_ne_nil _ (List.cons_ne_nil _ _)).symm

/-- The socket is being closed. -/
theorem Sound.shutDown (h : d.Sound) (hgoing : d.Going) :
  ({ d with shuttingDown := true } : Sender).Sound
  := by
  refine ⟨h.pending, h.taken, h.polls, h.ended, ?_, ?_⟩
  · intro hfinished
    have hnot := hgoing.1.symm.trans hfinished
    cases hnot
  · intro before m after hsplit hm
    refine absurd hm (hgoing.2 m ?_)
    rw [show d.messageQueue = before ++ m :: after from hsplit]
    exact List.mem_append_right _ List.mem_cons_self

/-- The messages that wait in the queue of a socket for a prepared message. -/
def held (d : Sender) : List PreparedPtr := d.messageQueue.flatMap fun m => m.callback.released

/-- A message that is written waits for its prepared message, or releases it. -/
theorem count_write (d : Sender) (msg : UInt8 × Bytes) (m : Message) (sent : Sent)
    (p : PreparedPtr) :
  (d.write msg m sent).1.held.count p + (d.write msg m sent).2.count p
    = d.held.count p + m.callback.released.count p
  := by
  rw [Sender.write.eq_def]
  split
  case isTrue hempty =>
    rw [List.isEmpty_iff] at hempty
    cases sent with
    | sent n =>
        dsimp only
        rw [complete_eq]
        split
        · rfl
        · rw [held, held, hempty, List.flatMap_singleton, List.flatMap_nil, List.count_nil,
            Nat.zero_add]
          rfl
    | wouldBlock =>
        rw [held, held, hempty, List.flatMap_singleton, List.flatMap_nil, List.count_nil]
        omega
    | failed => rfl
  case isFalse =>
    rw [held, held, List.flatMap_append, List.flatMap_singleton, List.count_append, List.count_nil]
    rfl

/-- What leaves the queue is no longer held. -/
theorem count_flush (d : Sender) (answers : List Sent) (p : PreparedPtr) :
  (d.flush answers).1.held.count p + (d.flush answers).2.1.count p = d.held.count p
  := by
  induction answers generalizing d with
  | nil => rfl
  | cons sent answers ih =>
      rw [Sender.flush]
      cases hqueue : d.messageQueue with
      | nil => rw [List.count_nil]; rfl
      | cons m queue =>
          have hheld : d.held.count p
              = m.callback.released.count p + (queue.flatMap fun m => m.callback.released).count p
            := by
            rw [held, hqueue, List.flatMap_cons, List.count_append]
          cases sent with
          | sent n =>
              dsimp only
              rw [complete_eq]
              split
              · split
                case isTrue hempty =>
                  rw [List.isEmpty_iff] at hempty
                  rw [hheld, held, hempty]
                  exact Nat.add_comm _ _
                case isFalse =>
                  rw [List.count_append, Nat.add_left_comm, ih, hheld]
                  rfl
              · rw [hheld, held, List.flatMap_cons, List.count_append, List.count_nil]
                rfl
          | wouldBlock | failed => rw [List.count_nil]; rfl

end Sender

/-! ### All sockets -/

namespace Senders

variable {s s' : Senders} {pending : List PreparedPtr}

/-- The number of messages that wait for a prepared message. -/
def holds (s : Senders) (p : PreparedPtr) : ℕ := (s.sockets.map fun d => d.held.count p).sum

/-- A prepared message is in memory exactly while it is referred to, with the number of
references. -/
def Counted (n : ℕ) : Option PreparedMessage → Prop
  | some message => message.references = n ∧ 0 < n
  | none => n = 0

/-- What holds of all sockets, when some references are still to be given back. -/
structure Sound (s : Senders) (pending : List PreparedPtr) : Prop where
  sockets : ∀ d ∈ s.sockets, d.Sound
  references : ∀ p, Counted (s.holds p + pending.count p) (s.prepared p)
  safe : s.misused = false

/-- If the message is in memory, its frame is this one. -/
def Buffers (s : Senders) (p : PreparedPtr) (frame : Bytes) : Prop :=
  ∀ message, s.prepared p = some message → message.buffer = frame

theorem sound_new :
  new.Sound []
  := ⟨nofun, fun _ => rfl, rfl⟩

/-- The entry of one message is changed. -/
theorem Sound.update {p : PreparedPtr} {o : Option PreparedMessage} {pending' : List PreparedPtr}
    (h : s.Sound pending) (hothers : ∀ q, q ≠ p → pending'.count q = pending.count q)
    (ho : Counted (s.holds p + pending'.count p) o) :
  ({ s with prepared := Function.update s.prepared p o } : Senders).Sound pending'
  := by
  refine ⟨h.sockets, fun q => ?_, h.safe⟩
  show Counted (s.holds q + _) (Function.update s.prepared p o q)
  by_cases hqp : q = p
  · rw [hqp, Function.update_self]
    exact ho
  · rw [Function.update_of_ne hqp, hothers q hqp]
    exact h.references q

/-- Another message that is prepared, or freed. -/
theorem Buffers.update {p q : PreparedPtr} {o : Option PreparedMessage} {frame : Bytes}
    (h : s.Buffers q frame) (ho : q = p → ∀ message, o = some message → message.buffer = frame) :
  ({ s with prepared := Function.update s.prepared p o } : Senders).Buffers q frame
  := by
  intro message hmessage
  replace hmessage : Function.update s.prepared p o q = some message := hmessage
  by_cases hqp : q = p
  · rw [hqp, Function.update_self] at hmessage
    exact ho hqp message hmessage
  · rw [Function.update_of_ne hqp] at hmessage
    exact h message hmessage

/-- A reference that is to be given back is to a message in memory. -/
theorem Sound.prepared_of_mem {p : PreparedPtr} (h : s.Sound pending) (hp : p ∈ pending) :
  ∃ message, s.prepared p = some message ∧
    message.references = ((s.holds p + pending.count p : ℕ) : ℤ)
  := by
  have hreferences := h.references p
  cases hmessage : s.prepared p with
  | none =>
      rw [hmessage] at hreferences
      have hpos := List.count_pos_iff.mpr hp
      have hzero : s.holds p + pending.count p = 0 := hreferences
      omega
  | some message =>
      rw [hmessage] at hreferences
      exact ⟨message, rfl, hreferences.1⟩

/-- A reference is given back. -/
theorem Sound.release {p : PreparedPtr} (h : s.Sound (p :: pending)) :
  (s.release p).Sound pending ∧ (s.release p).sockets = s.sockets ∧
    ∀ q frame, s.Buffers q frame → (s.release p).Buffers q frame
  := by
  obtain ⟨message, hp, hnumber⟩ := h.prepared_of_mem List.mem_cons_self
  rw [List.count_cons_self] at hnumber
  push_cast at hnumber
  have hothers : ∀ q, q ≠ p → pending.count q = (p :: pending).count q :=
    fun q hq => (List.count_cons_of_ne (Ne.symm hq)).symm
  rw [Senders.release, hp]
  dsimp only
  split
  case isTrue hlast =>
    refine ⟨h.update hothers ?_, rfl, fun q frame hframe => hframe.update fun _ => nofun⟩
    rw [Counted]
    omega
  case isFalse hmore =>
    refine ⟨h.update hothers ?_, rfl, fun q frame hframe => hframe.update ?_⟩
    · rw [Counted]
      push_cast
      omega
    · rintro rfl _ ⟨⟩
      exact hframe message hp

/-- All references that are to be given back are given back. -/
theorem Sound.foldl_release {released : List PreparedPtr} (h : s.Sound (released ++ pending)) :
  (released.foldl Senders.release s).Sound pending ∧
    (released.foldl Senders.release s).sockets = s.sockets ∧
    ∀ q frame, s.Buffers q frame → (released.foldl Senders.release s).Buffers q frame
  := by
  induction released generalizing s with
  | nil => exact ⟨h, rfl, fun _ _ hframe => hframe⟩
  | cons p released ih =>
      obtain ⟨hsound, hsockets, hbuffers⟩ := h.release
      obtain ⟨hsound', hsockets', hbuffers'⟩ := ih hsound
      exact ⟨hsound', hsockets'.trans hsockets,
        fun q frame hframe => hbuffers' q frame (hbuffers q frame hframe)⟩

/-- A socket is used, and what it waits for is counted. -/
theorem Sound.withSocket {ws : ℕ} {d : Sender} {k : Sender → Sender × List PreparedPtr}
    {gained : List PreparedPtr} (h : s.Sound (gained ++ pending))
    (hws : s.sockets[ws]? = some d) (hopen : d.ended = false) (hk : (k d).1.Sound)
    (hcount : ∀ p, (k d).1.held.count p + (k d).2.count p = d.held.count p + gained.count p) :
  (s.withSocket ws k).Sound pending ∧ (s.withSocket ws k).sockets = s.sockets.set ws (k d).1 ∧
    ∀ q frame, s.Buffers q frame → (s.withSocket ws k).Buffers q frame
  := by
  have hset : ({ s with sockets := s.sockets.set ws (k d).1 } : Senders).Sound
      ((k d).2 ++ pending) := by
    refine ⟨?_, fun p => ?_, h.safe⟩
    · intro d' hd'
      obtain hold | rfl := List.mem_or_eq_of_mem_set hd'
      · exact h.sockets d' hold
      · exact hk
    · have hsum := Blocking.sum_map_set (fun d => d.held.count p) hws (k d).1
      have hreferences := h.references p
      have hsame : (((s.sockets.set ws (k d).1).map fun d => d.held.count p).sum)
            + ((k d).2 ++ pending).count p
          = s.holds p + (gained ++ pending).count p := by
        have hp := hcount p
        rw [List.count_append, List.count_append, holds]
        omega
      rw [← hsame] at hreferences
      exact hreferences
  rw [Senders.withSocket, hws]
  dsimp only
  rw [hopen, if_neg Bool.false_ne_true]
  exact hset.foldl_release

/-- The messages that were accepted for a socket. -/
def accepted (s : Senders) (ws : ℕ) : List (UInt8 × Bytes) :=
  ((s.sockets[ws]?).map Sender.given).getD []

/-- A socket that can be written to. -/
def Open (s : Senders) (ws : ℕ) : Prop :=
  ∃ d, s.sockets[ws]? = some d ∧ d.ended = false ∧ d.shuttingDown = false

/-- From one state to another, the sockets have accepted some of the messages that they were asked
to send, in order, and all of them if no call of `::send` has failed. -/
def Accepts (s s' : Senders) (asked : ℕ → List (UInt8 × Bytes)) (willing : Bool) : Prop :=
  ∀ ws, ∃ more, s'.accepted ws = s.accepted ws ++ more ∧ more.Sublist (asked ws) ∧
    (willing = true → more = asked ws)

/-- Nothing is asked. -/
theorem Accepts.refl (willing : Bool) :
  s.Accepts s (fun _ => []) willing
  := fun _ => ⟨[], (List.append_nil _).symm, List.Sublist.refl [], fun _ => rfl⟩

/-- One thing after another. -/
theorem Accepts.trans {s'' : Senders} {asked asked' : ℕ → List (UInt8 × Bytes)}
    {willing willing' : Bool} (h : s.Accepts s' asked willing) (h' : s'.Accepts s'' asked' willing') :
  s.Accepts s'' (fun ws => asked ws ++ asked' ws) (willing && willing')
  := by
  intro ws
  obtain ⟨more, hmore, hsub, hall⟩ := h ws
  obtain ⟨more', hmore', hsub', hall'⟩ := h' ws
  refine ⟨more ++ more', ?_, hsub.append hsub', fun hwilling => ?_⟩
  · rw [hmore', hmore, List.append_assoc]
  · obtain ⟨hw, hw'⟩ := Bool.and_eq_true_iff.mp hwilling
    rw [hall hw, hall' hw']

/-- One socket is set. -/
theorem accepts_set {ws : ℕ} {d d' : Sender} (hws : s.sockets[ws]? = some d)
    (hset : s'.sockets = s.sockets.set ws d') {asked more : List (UInt8 × Bytes)} {willing : Bool}
    (hgiven : d'.given = d.given ++ more) (hsub : more.Sublist asked)
    (hall : willing = true → more = asked) :
  s.Accepts s' (fun ws' => if ws' = ws then asked else []) willing
  := by
  intro ws'
  rw [accepted, accepted, hset]
  by_cases hsame : ws' = ws
  · subst hsame
    refine ⟨more, ?_, ?_⟩
    · rw [List.getElem?_set_self', hws]
      exact hgiven
    · dsimp only
      rw [if_pos rfl]
      exact ⟨hsub, hall⟩
  · refine ⟨[], ?_, ?_⟩
    · rw [List.getElem?_set_ne (Ne.symm hsame), List.append_nil]
    · dsimp only
      rw [if_neg hsame]
      exact ⟨List.Sublist.refl [], fun _ => rfl⟩

/-- What a write leaves. -/
structure Goes (s s' : Senders) (asked : ℕ → List (UInt8 × Bytes)) (willing : Bool) : Prop where
  opens : ∀ ws, s.Open ws → s'.Open ws
  buffers : ∀ p frame, s.Buffers p frame → s'.Buffers p frame
  accepts : s.Accepts s' asked willing

/-- Nothing is asked. -/
theorem Goes.refl (willing : Bool) :
  s.Goes s (fun _ => []) willing
  := ⟨fun _ h => h, fun _ _ h => h, Accepts.refl willing⟩

/-- One thing after another. -/
theorem Goes.trans {s'' : Senders} {asked asked' : ℕ → List (UInt8 × Bytes)}
    {willing willing' : Bool} (h : s.Goes s' asked willing) (h' : s'.Goes s'' asked' willing') :
  s.Goes s'' (fun ws => asked ws ++ asked' ws) (willing && willing')
  := ⟨fun ws hws => h'.opens ws (h.opens ws hws),
    fun p frame hp => h'.buffers p frame (h.buffers p frame hp), h.accepts.trans h'.accepts⟩

/-- The message of a frame is written to an open socket. -/
theorem Sound.write {ws : ℕ} {d : Sender} {msg : UInt8 × Bytes} {m : Message}
    (h : s.Sound (m.callback.released ++ pending)) (hws : s.sockets[ws]? = some d)
    (hopen : d.ended = false) (hgoing : d.Going) (hdata : m.data = frameOfMessage msg)
    (hshut : m.callback = .shutdown → d.shuttingDown = true ∧ msg.1 = opClose) (sent : Sent) :
  (s.withSocket ws fun d => d.write msg m sent).Sound pending ∧
    s.Goes (s.withSocket ws fun d => d.write msg m sent)
      (fun ws' => if ws' = ws then [msg] else []) (sent != .failed)
  := by
  have hd := h.sockets d (List.mem_of_getElem? hws)
  obtain ⟨hsound, hset, hbuffers⟩ := h.withSocket (k := fun d => d.write msg m sent) hws hopen
    (hd.write hopen hgoing hdata hshut sent) (d.count_write msg m sent)
  obtain ⟨hended, hshutting⟩ := d.write_same msg m sent
  obtain ⟨more, hgiven, hsub, hall⟩ := d.given_write msg m sent
  refine ⟨hsound, ⟨?_, hbuffers, accepts_set hws hset hgiven hsub hall⟩⟩
  rintro ws' ⟨d', hws', hopen', hshutting'⟩
  by_cases hsame : ws = ws'
  · subst hsame
    obtain rfl := Option.some.inj (hws.symm.trans hws')
    refine ⟨_, ?_, hended.trans hopen', hshutting.trans hshutting'⟩
    rw [hset, List.getElem?_set_self', hws]
    rfl
  · exact ⟨d', by rw [hset, List.getElem?_set_ne hsame, hws'], hopen', hshutting'⟩

/-- A prepared message is sent. -/
theorem Sound.sendPrepared {ws : ℕ} {p : PreparedPtr} {op : UInt8} {payload : Bytes}
    (h : s.Sound [p]) (hws : s.Open ws) (hbuffer : s.Buffers p (frameOfMessage (op, payload)))
    (sent : Sent) :
  (s.sendPrepared ws p op payload sent).Sound [p] ∧
    s.Goes (s.sendPrepared ws p op payload sent)
      (fun ws' => if ws' = ws then [(op, payload)] else []) (sent != .failed)
  := by
  obtain ⟨message, hp, hnumber⟩ := h.prepared_of_mem List.mem_cons_self
  obtain ⟨d, hd, hopen, hshutting⟩ := hws
  rw [Senders.sendPrepared, hp]
  dsimp only
  have hmore : ({ s with
      prepared := (Function.update s.prepared p
        (some { message with references := message.references + 1 })) } : Senders).Sound [p, p]
    := by
    refine h.update (fun q hq => ?_) ⟨?_, ?_⟩
    · rw [List.count_cons_of_ne (Ne.symm hq)]
    · have hcount : [p, p].count p = [p].count p + 1 := List.count_cons_self
      rw [hnumber, hcount]
      push_cast
      omega
    · rw [List.count_cons_self]
      omega
  obtain ⟨hsound, hgoes⟩ := Sound.write (m := ⟨message.buffer, .prepared p⟩) hmore hd hopen
    ((h.sockets d (List.mem_of_getElem? hd)).going hshutting) (hbuffer message hp) nofun sent
  refine ⟨hsound, hgoes.opens, fun q frame hframe => ?_, hgoes.accepts⟩
  apply hgoes.buffers
  apply hframe.update
  rintro rfl _ ⟨⟩
  exact hframe message hp

/-- A message is sent to many sockets. -/
theorem Sound.foldl_sendPrepared {p : PreparedPtr} {op : UInt8} {payload : Bytes}
    {targets : List (ℕ × Sent)} (h : s.Sound [p]) (hopen : ∀ target ∈ targets, s.Open target.1)
    (hbuffer : s.Buffers p (frameOfMessage (op, payload))) :
  (targets.foldl (fun s target => s.sendPrepared target.1 p op payload target.2) s).Sound [p] ∧
    s.Goes (targets.foldl (fun s target => s.sendPrepared target.1 p op payload target.2) s)
      (fun ws => targets.flatMap fun target => if ws = target.1 then [(op, payload)] else [])
      (targets.all fun target => target.2 != .failed)
  := by
  induction targets generalizing s with
  | nil => exact ⟨h, Goes.refl _⟩
  | cons target targets ih =>
      obtain ⟨hfirst, hothers⟩ := List.forall_mem_cons.mp hopen
      obtain ⟨hsound, hgoes⟩ := h.sendPrepared hfirst hbuffer target.2
      obtain ⟨hsound', hgoes'⟩ := ih hsound (fun target' h' => hgoes.opens _ (hothers target' h'))
        (hgoes.buffers _ _ hbuffer)
      exact ⟨hsound', hgoes.trans hgoes'⟩

/-- A message is prepared, sent and finalized. -/
theorem Sound.broadcast {p : PreparedPtr} {op : UInt8} {payload : Bytes}
    {targets : List (ℕ × Sent)} (h : s.Sound []) (hnew : s.prepared p = none)
    (hopen : ∀ target ∈ targets, s.Open target.1) :
  (s.broadcast p op payload targets).Sound [] ∧
    s.Accepts (s.broadcast p op payload targets)
      (fun ws => targets.flatMap fun target => if ws = target.1 then [(op, payload)] else [])
      (targets.all fun target => target.2 != .failed)
  := by
  have hzero : s.holds p = 0 := by
    have hreferences := h.references p
    rw [hnew] at hreferences
    exact hreferences
  have hprepared : (s.prepareMessage p op payload).Sound [p] := by
    refine h.update (fun q hq => List.count_cons_of_ne (Ne.symm hq)) ⟨?_, ?_⟩
    · rw [hzero, List.count_cons_self]
      rfl
    · rw [List.count_cons_self]
      exact Nat.succ_pos _
  have hbuffer : (s.prepareMessage p op payload).Buffers p (frameOfMessage (op, payload)) := by
    intro message hmessage
    obtain rfl := Option.some.inj ((Function.update_self p _ s.prepared).symm.trans hmessage)
    rfl
  obtain ⟨hsound, hgoes⟩ := hprepared.foldl_sendPrepared
    (show ∀ target ∈ targets, Open _ target.1 from hopen) hbuffer
  obtain ⟨hfinal, hsockets, -⟩ := hsound.release
  refine ⟨hfinal, ?_⟩
  intro ws
  obtain ⟨more, hmore, hrest⟩ := hgoes.accepts ws
  refine ⟨more, ?_, hrest⟩
  rw [Senders.broadcast, finalizeMessage, accepted, hsockets]
  exact hmore

/-- The messages that a socket is asked to send by an event. -/
def Event.asked : Event → ℕ → List (UInt8 × Bytes)
  | .send ws op payload _, ws' => if ws' = ws then [(op, payload)] else []
  | .broadcast _ op payload targets, ws' =>
      targets.flatMap fun target => if ws' = target.1 then [(op, payload)] else []
  | .close ws code message _, ws' =>
      if ws' = ws then [(opClose, formatClosePayload ⟨code, message.take 123⟩)] else []
  | _, _ => []

/-- No call of `::send` for a new message fails. -/
def Event.willing : Event → Bool
  | .send _ _ _ sent | .close _ _ _ sent => sent != .failed
  | .broadcast _ _ _ targets => targets.all fun target => target.2 != .failed
  | _ => true

/-- What the callers promise: a message fits in a frame, is not sent after a close, and is prepared
in new memory, and only a connected socket is polled or ends. -/
def Proper (s : Senders) : Event → Prop
  | .connect => True
  | .send ws op payload _ => s.Open ws ∧ Framed (op, payload)
  | .broadcast p op payload targets =>
      s.prepared p = none ∧ Framed (op, payload) ∧ ∀ target ∈ targets, s.Open target.1
  | .close ws _ _ _ => s.Open ws
  | .pollOut ws _ | .onEnd ws => ∃ d, s.sockets[ws]? = some d ∧ d.ended = false

/-- Nothing is accepted when a socket changes and its messages do not. -/
theorem accepts_same {ws : ℕ} {d d' : Sender} (hws : s.sockets[ws]? = some d)
    (hset : s'.sockets = s.sockets.set ws d') (hgiven : d'.given = d.given) (willing : Bool) :
  s.Accepts s' (fun _ => []) willing
  := by
  have h : s.Accepts s' (fun ws' => if ws' = ws then [] else []) willing :=
    accepts_set hws hset (by rw [hgiven, List.append_nil]) (List.Sublist.refl []) (fun _ => rfl)
  intro ws'
  obtain ⟨more, hmore, hsub, hall⟩ := h ws'
  dsimp only at hsub hall
  rw [ite_self] at hsub hall
  exact ⟨more, hmore, hsub, hall⟩

/-- A socket ends. -/
theorem Sound.onEnd {ws : ℕ} {d : Sender} (h : s.Sound []) (hws : s.sockets[ws]? = some d)
    (hopen : d.ended = false) :
  (s.withSocket ws Sender.onEnd).Sound [] ∧
    s.Accepts (s.withSocket ws Sender.onEnd) (fun _ => []) true
  := by
  have hnone : s.Sound ([] ++ []) := h
  obtain ⟨hsound, hset, -⟩ := hnone.withSocket hws hopen
    (h.sockets d (List.mem_of_getElem? hws)).onEnd (fun p => Nat.add_comm _ _)
  exact ⟨hsound, accepts_same hws hset rfl true⟩

/-- What waits in a queue is in memory. -/
theorem Sound.alive {ws : ℕ} {d : Sender} (h : s.Sound []) (hws : s.sockets[ws]? = some d) :
  d.messageQueue.all s.alive = true
  := by
  rw [List.all_eq_true]
  intro m hm
  rw [Senders.alive, List.all_eq_true]
  intro p hp
  have hheld : 0 < d.held.count p :=
    List.count_pos_iff.mpr (List.mem_flatMap.mpr ⟨m, hm, hp⟩)
  have hsum := Blocking.le_sum_map (fun d => d.held.count p) hws
  have hreferences := h.references p
  cases hmessage : s.prepared p with
  | some message => rfl
  | none =>
      rw [hmessage, Counted, holds] at hreferences
      omega

/-- A socket is writable. -/
theorem Sound.pollOut {ws : ℕ} {d : Sender} (h : s.Sound []) (hws : s.sockets[ws]? = some d)
    (hopen : d.ended = false) (answers : List Sent) :
  (s.pollOut ws answers).Sound [] ∧ s.Accepts (s.pollOut ws answers) (fun _ => []) true
  := by
  obtain ⟨hflush, -, hgiven⟩ := (h.sockets d (List.mem_of_getElem? hws)).flush hopen answers
  rw [Senders.pollOut, hws, Option.all_some, h.alive hws, if_pos rfl]
  have hnone : s.Sound ([] ++ []) := h
  obtain ⟨hsound, hset, -⟩ := hnone.withSocket
    (k := fun d =>
      if (d.flush answers).2.2 then
        ((d.flush answers).1.onEnd.1, (d.flush answers).2.1 ++ (d.flush answers).1.onEnd.2)
      else ((d.flush answers).1, (d.flush answers).2.1)) hws hopen
    (by
      split
      · exact hflush.onEnd
      · exact hflush)
    (fun p => by
      have hcount := d.count_flush answers p
      split
      · rw [List.count_append, List.count_nil, ← hcount]
        exact (Nat.zero_add _).trans (Nat.add_comm _ _)
      · exact hcount)
  refine ⟨hsound, accepts_same hws hset ?_ true⟩
  split
  · exact hgiven
  · exact hgiven

/-- A socket is closed. -/
theorem Sound.close {ws : ℕ} (h : s.Sound []) (hws : s.Open ws) (code : UInt16) (message : Bytes)
    (sent : Sent) :
  (s.close ws code message sent).Sound [] ∧
    s.Accepts (s.close ws code message sent) ((Event.close ws code message sent).asked)
      (sent != .failed)
  := by
  obtain ⟨d, hd, hopen, hshutting⟩ := hws
  have hold := h.sockets d (List.mem_of_getElem? hd)
  have hgoing := hold.going hshutting
  have hnone : s.Sound ([] ++ []) := h
  obtain ⟨hsound, hset, -⟩ := hnone.withSocket
    (k := fun d => ({ d with shuttingDown := true }, [])) hd hopen
    (hold.shutDown hgoing) (fun p => rfl)
  have hws' : (s.withSocket ws fun d => ({ d with shuttingDown := true }, [])).sockets[ws]?
      = some { d with shuttingDown := true } := by
    rw [hset, List.getElem?_set_self', hd]
    rfl
  obtain ⟨hsound', hgoes⟩ := Sound.write
    (m := ⟨formatMessage none (formatClosePayload ⟨code, message.take 123⟩) opClose, .shutdown⟩)
    hsound hws' hopen hgoing
    (show _ = frameOfMessage (opClose, formatClosePayload ⟨code, message.take 123⟩) from rfl)
    (fun _ => ⟨rfl, rfl⟩) sent
  refine ⟨hsound', ?_⟩
  have htrans := (accepts_same hd hset rfl true).trans hgoes.accepts
  rw [Bool.true_and] at htrans
  exact htrans

/-- What an event leaves. -/
theorem Sound.step {e : Event} (h : s.Sound []) (hproper : s.Proper e) :
  (s.step e).Sound [] ∧ s.Accepts (s.step e) e.asked e.willing
  := by
  cases e with
  | connect =>
      refine ⟨⟨?_, fun p => ?_, h.safe⟩, fun ws => ⟨[], ?_, List.Sublist.refl [], fun _ => rfl⟩⟩
      · intro d hd
        obtain hold | hnew := List.mem_append.mp hd
        · exact h.sockets d hold
        · rw [List.mem_singleton.mp hnew]
          exact Sender.sound_new
      · have hsum : (s.step .connect).holds p = s.holds p := by
          rw [holds, holds, Senders.step, List.map_append, List.sum_append]
          rfl
        rw [hsum]
        exact h.references p
      · rw [accepted, accepted, Senders.step, List.append_nil]
        obtain hlt | hge := Nat.lt_or_ge ws s.sockets.length
        · rw [List.getElem?_append_left hlt]
        · rw [List.getElem?_append_right hge, List.getElem?_eq_none hge]
          cases ws - s.sockets.length with
          | zero => rfl
          | succ n => rfl
  | send ws op payload sent =>
      obtain ⟨⟨d, hd, hopen, hshutting⟩, -⟩ := hproper
      have hgoing := (h.sockets d (List.mem_of_getElem? hd)).going hshutting
      obtain ⟨hsound, hgoes⟩ := Sound.write
        (m := ⟨formatMessage none payload op, .none⟩) h hd hopen hgoing
        (show _ = frameOfMessage (op, payload) from rfl) nofun sent
      exact ⟨hsound, hgoes.accepts⟩
  | broadcast p op payload targets => exact h.broadcast hproper.1 hproper.2.2
  | close ws code message sent => exact h.close hproper code message sent
  | pollOut ws answers =>
      obtain ⟨d, hd, hopen⟩ := hproper
      exact h.pollOut hd hopen answers
  | onEnd ws =>
      obtain ⟨d, hd, hopen⟩ := hproper
      exact h.onEnd hd hopen

/-- The messages of an event fit in frames. -/
theorem Proper.fits {e : Event} (h : s.Proper e) (ws : ℕ) :
  ∀ msg ∈ e.asked ws, Framed msg
  := by
  intro msg hmsg
  cases e with
  | connect | pollOut ws' answers | onEnd ws' => cases hmsg
  | send ws' op payload sent =>
      obtain ⟨-, rfl⟩ := List.mem_ite_nil_right.mp hmsg |>.imp_right List.mem_singleton.mp
      exact h.2
  | broadcast p op payload targets =>
      obtain ⟨target, -, hmem⟩ := List.mem_flatMap.mp hmsg
      obtain ⟨-, rfl⟩ := List.mem_ite_nil_right.mp hmem |>.imp_right List.mem_singleton.mp
      exact h.2.1
  | close ws' code message sent =>
      obtain ⟨-, rfl⟩ := List.mem_ite_nil_right.mp hmsg |>.imp_right List.mem_singleton.mp
      refine ⟨show opClose < 16 by decide, ?_⟩
      have htake : (message.take 123).length ≤ 123 := List.length_take_le _ _
      have hcode : (uint16Bytes code).reverse.length = 2 := rfl
      dsimp only
      rw [formatClosePayload]
      split
      · rw [List.length_append]
        dsimp only
        omega
      · exact Nat.two_pow_pos 64

/-- A run of proper events keeps what holds of the sockets. -/
theorem run_sound {events : List Event} (h : s.Sound [])
    (hproper : Runs.Along Senders.step Proper s events) :
  (Runs.run Senders.step s events).Sound [] ∧
    s.Accepts (Runs.run Senders.step s events) (fun ws => events.flatMap fun e => e.asked ws)
      (events.all Event.willing) ∧
    ∀ ws, ∀ msg ∈ events.flatMap (fun e => e.asked ws), Framed msg
  := by
  induction events generalizing s with
  | nil => exact ⟨h, Accepts.refl true, nofun⟩
  | cons e events ih =>
      obtain ⟨hfirst, hrest⟩ := Runs.along_cons.mp hproper
      obtain ⟨hsound, haccepts⟩ := h.step hfirst
      obtain ⟨hsound', haccepts', hfits⟩ := ih hsound hrest
      refine ⟨hsound', haccepts.trans haccepts', fun ws msg hmsg => ?_⟩
      rw [List.flatMap_cons, List.mem_append] at hmsg
      exact hmsg.elim (hfirst.fits ws msg) (hfits ws msg)

end Senders

/-- What a peer reads of the bytes that it got. -/
def peerReads (bs : Bytes) : List (UInt8 × Bytes) := readFrames bs.length bs

/-- No message takes an empty frame. -/
theorem length_le_frames {msgs : List (UInt8 × Bytes)} (hfits : ∀ msg ∈ msgs, Framed msg) :
  msgs.length ≤ (msgs.flatMap frameOfMessage).length
  := by
  induction msgs with
  | nil => exact le_refl _
  | cons msg msgs ih =>
      obtain ⟨hfirst, hothers⟩ := List.forall_mem_cons.mp hfits
      obtain ⟨b1, ext, hframe, -⟩ := frameOfMessage_cases hfirst
      have hrest := ih hothers
      rw [List.flatMap_cons, List.length_append, hframe, List.length_cons, List.length_cons]
      omega

/-- The peer reads all messages whose frames have come. -/
theorem peerReads_all {msgs : List (UInt8 × Bytes)} (hfits : ∀ msg ∈ msgs, Framed msg) :
  peerReads (msgs.flatMap frameOfMessage) = msgs
  := readFrames_all hfits (length_le_frames hfits)

namespace Senders

/-- However the kernel takes the frames, a peer reads a prefix of the messages that its socket has
accepted, which are those that the socket was asked to send but for some whose call of `::send`
failed; the kernel is asked exactly while something waits, and when nothing waits the peer can read
everything; and a socket is shut down only when its peer can read everything, up to a close. -/
theorem run_delivers {events : List Event} (hproper : Runs.Along step Proper new events) {ws : ℕ}
    {d : Sender} (hws : (Runs.run step new events).sockets[ws]? = some d) :
  peerReads d.wire <+: d.given ∧
    d.given.Sublist (events.flatMap fun e => e.asked ws) ∧
    (events.all Event.willing = true → d.given = events.flatMap fun e => e.asked ws) ∧
    (d.ended = false → (d.polls = true ↔ d.messageQueue ≠ []) ∧
      (d.messageQueue = [] → peerReads d.wire = d.given)) ∧
    (d.finished = true → peerReads d.wire = d.given ∧ Closed d.given)
  := by
  obtain ⟨hsound, haccepts, hfits⟩ := run_sound sound_new hproper
  have hd := hsound.sockets d (List.mem_of_getElem? hws)
  obtain ⟨more, hmore, hsub, hall⟩ := haccepts ws
  have hgiven : d.given = more := by
    rw [accepted, hws] at hmore
    exact hmore
  rw [← hgiven] at hsub hall
  have hfits' : ∀ msg ∈ d.given, Framed msg := fun msg hmsg => hfits ws msg (hsub.subset hmsg)
  refine ⟨?_, hsub, hall, fun hopen => ⟨hd.polls hopen, fun hempty => ?_⟩, fun hfinished => ?_⟩
  · obtain ⟨rest, hrest⟩ := hd.taken
    exact readFrames_prefix hfits' hrest _
  · have hpending := hd.pending hopen
    rw [hempty, List.flatMap_nil, List.append_nil] at hpending
    rw [hpending, peerReads_all hfits']
  · obtain ⟨-, hclosed, -, hwire⟩ := hd.finished hfinished
    rw [hwire, peerReads_all hfits']
    exact ⟨rfl, hclosed⟩

/-- Two sockets get a message; the kernel takes a part of it from the first one, and the rest later,
before the close. -/
def rest : List Event :=
  [.connect, .connect, .broadcast 0 opText [104, 105] [(0, .sent 3), (1, .wouldBlock)],
    .send 0 opBinary [7] .wouldBlock, .pollOut 0 [.sent 1, .sent 3], .close 0 1000 [] (.sent 4)]

/-- That run keeps to the rules. -/
theorem along_rest :
  Runs.Along step Proper new rest
  := by
  refine Runs.along_cons.mpr ⟨trivial, Runs.along_cons.mpr ⟨trivial, Runs.along_cons.mpr ⟨?_,
    Runs.along_cons.mpr ⟨?_, Runs.along_cons.mpr ⟨?_, Runs.along_cons.mpr ⟨?_,
      Runs.along_nil⟩⟩⟩⟩⟩⟩
  · refine ⟨rfl, by decide, ?_⟩
    intro target ht
    obtain rfl | ht := List.mem_cons.mp ht
    · exact ⟨_, rfl, rfl, rfl⟩
    · obtain rfl := List.mem_singleton.mp ht
      exact ⟨_, rfl, rfl, rfl⟩
  · exact ⟨⟨_, rfl, rfl, rfl⟩, by decide⟩
  · exact ⟨_, rfl, rfl⟩
  · exact ⟨_, rfl, rfl, rfl⟩

/-- A run in which the kernel takes only a part at first. -/
theorem run_delivers_rest :
  ∃ d, (Runs.run step new rest).sockets[0]? = some d ∧ peerReads d.wire <+: d.given ∧
    d.given.Sublist (rest.flatMap fun e => e.asked 0) ∧
    (rest.all Event.willing = true → d.given = rest.flatMap fun e => e.asked 0) ∧
    (d.ended = false → (d.polls = true ↔ d.messageQueue ≠ []) ∧
      (d.messageQueue = [] → peerReads d.wire = d.given)) ∧
    (d.finished = true → peerReads d.wire = d.given ∧ Closed d.given)
  := ⟨_, rfl, run_delivers along_rest rfl⟩

/-- No socket is used after its end and no prepared message after it was freed, and a prepared
message is in memory exactly while the queue of a socket refers to it, with the number of
references. -/
theorem run_frees {events : List Event} (hproper : Runs.Along step Proper new events) :
  (Runs.run step new events).misused = false ∧
    ∀ p, Counted ((Runs.run step new events).holds p) ((Runs.run step new events).prepared p)
  := by
  obtain ⟨hsound, -, -⟩ := run_sound sound_new hproper
  refine ⟨hsound.safe, fun p => ?_⟩
  have hreferences := hsound.references p
  rw [List.count_nil] at hreferences
  exact hreferences

/-- The same run. -/
theorem run_frees_rest :
  (Runs.run step new rest).misused = false ∧
    ∀ p, Counted ((Runs.run step new rest).holds p) ((Runs.run step new rest).prepared p)
  := run_frees along_rest

end Senders

end WebSocket

end Owop
