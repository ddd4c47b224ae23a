import OwopServer.WebSocket.Pieces

/-!
# Messages from one end to the other

What the frames of a client mean: messages, perhaps in several frames, between which control
frames may stand.  A server that reads such frames handles the messages of the client, each one
as it was sent, in their order, in whatever pieces the frames arrive.
-/

namespace Owop

open Bytes (slice splice)

namespace WebSocket

/-! ### Frames of a client -/

/-- A frame before it is written. -/
structure Frame where
  fin : Bool
  opCode : UInt8
  mask : Mask
  payload : Bytes

namespace Frame

variable (f : Frame)

/-- The byte of the length, and the bytes behind it that some lengths need. -/
def lengthBytes : Bytes :=
  if f.payload.length < 126 then [UInt8.ofNat f.payload.length ||| 128]
  else if f.payload.length ≤ 65535 then
    (126 ||| 128) :: (Bytes.leBytes 2 f.payload.length).reverse
  else (127 ||| 128) :: (Bytes.leBytes 8 f.payload.length).reverse

/-- The bytes in front of the data. -/
def head : Bytes :=
  [(if f.fin then 128 else 0) ||| f.opCode] ++ f.lengthBytes ++ List.ofFn f.mask

/-- A frame as it is written. -/
def bytes : Bytes := f.head ++ unmask f.mask f.payload

/-- A frame that a parser does not refuse. -/
structure Valid : Prop where
  opCode : f.opCode ∈ [0, opText, opBinary, opClose, opPing, opPong]
  control : 2 < f.opCode → f.fin = true ∧ f.payload.length ≤ 125
  length : f.payload.length ≤ 16777216

instance : Decidable f.Valid :=
  decidable_of_iff (f.opCode ∈ [0, opText, opBinary, opClose, opPing, opPong] ∧
      (2 < f.opCode → f.fin = true ∧ f.payload.length ≤ 125) ∧ f.payload.length ≤ 16777216)
    ⟨fun h => ⟨h.1, h.2.1, h.2.2⟩, fun h => ⟨h.opCode, h.control, h.length⟩⟩

end Frame

/-- What a client writes is a frame. -/
theorem formatMessage_client (mask : Mask) (src : Bytes) (opCode : UInt8) :
  formatMessage (some mask) src opCode = (⟨true, opCode, mask, src⟩ : Frame).bytes
  := by
  rw [Frame.bytes, Frame.head, Frame.lengthBytes, formatMessage]
  rfl

/-- What the first byte of a frame says. -/
theorem first_byte (fin : Bool) {op : UInt8}
    (h : op ∈ [0, opText, opBinary, opClose, opPing, opPong]) (b1 : UInt8) :
  let frame : FrameFormat := ⟨(if fin then 128 else 0) ||| op, b1⟩
  frame.isFin = fin ∧ frame.opCode = op ∧
    (frame.rsv1 || frame.rsv23 || (frame.opCode > 2 && frame.opCode < 8) || frame.opCode > 10)
      = false
  := by
  have hall : ∀ fin : Bool, ∀ op ∈ [0, opText, opBinary, opClose, opPing, opPong],
      let frame : FrameFormat := ⟨(if fin then 128 else 0) ||| op, 0⟩
      frame.isFin = fin ∧ frame.opCode = op ∧
        (frame.rsv1 || frame.rsv23 || (frame.opCode > 2 && frame.opCode < 8) || frame.opCode > 10)
          = false := by
    decide +kernel
  exact hall fin op h

theorem second_byte {n : ℕ} (h : n < 128) (b0 : UInt8) :
  (⟨b0, UInt8.ofNat n ||| 128⟩ : FrameFormat).payloadLength = n
  := by
  have hall : ∀ n : Fin 128, ((UInt8.ofNat n ||| 128) &&& 127).toNat = n := by decide
  exact hall ⟨n, h⟩

variable {α : Type} (H : Handlers α)

namespace Frame

variable {f : Frame}

/-- The three ways to write a length. -/
theorem lengthBytes_cases (hlength : f.payload.length ≤ 16777216) :
  ∃ b ext, f.lengthBytes = b :: ext ∧ ∀ b0,
    let frame : FrameFormat := ⟨b0, b⟩
    (frame.payloadLength = f.payload.length ∧ f.payload.length < 126 ∧ ext = []) ∨
      125 < f.payload.length ∧ beNat ext = f.payload.length ∧
        ((frame.payloadLength = 126 ∧ ext.length = 2) ∨
          (frame.payloadLength = 127 ∧ ext.length = 8))
  := by
  rw [lengthBytes]
  split
  case isTrue hsmall =>
    exact ⟨_, [], rfl, fun b0 => Or.inl ⟨second_byte (by omega) b0, hsmall, rfl⟩⟩
  case isFalse hlarge =>
    split
    case isTrue hmedium =>
      refine ⟨_, _, rfl, fun b0 => Or.inr ⟨by omega, beNat_reverse_leBytes (by omega),
        Or.inl ⟨second_byte (n := 126) (by omega) b0, ?_⟩⟩⟩
      rw [List.length_reverse, Bytes.length_leBytes]
    case isFalse =>
      refine ⟨_, _, rfl, fun b0 => Or.inr ⟨by omega, beNat_reverse_leBytes (by omega),
        Or.inr ⟨second_byte (n := 127) (by omega) b0, ?_⟩⟩⟩
      rw [List.length_reverse, Bytes.length_leBytes]

/-- The head of a frame is as long as it says, and announces the data and its mask. -/
theorem head_spec (hlength : f.payload.length ≤ 16777216) :
  ∃ b, frameOf f.head = ⟨(if f.fin then 128 else 0) ||| f.opCode, b⟩ ∧
    (125 < (frameOf f.head).payloadLength → 125 < f.payload.length) ∧
    f.head.length = headLength f.head ∧ announced f.head = f.payload.length ∧
    maskOf f.head = f.mask
  := by
  obtain ⟨b, ext, hbytes, hcases⟩ := lengthBytes_cases hlength
  have hframe : frameOf f.head = ⟨(if f.fin then 128 else 0) ||| f.opCode, b⟩ := by
    rw [frameOf, head, hbytes]
    rfl
  have hlen : f.head.length = 6 + ext.length := by
    rw [head, hbytes]
    simp only [List.length_append, List.length_cons, List.length_nil, List.length_ofFn]
    omega
  have hext : f.head.slice 2 ext.length = ext := by
    rw [head, hbytes]
    exact Bytes.slice_of_eq (a := [_, b]) (c := List.ofFn f.mask) rfl rfl rfl
  have hkey : ∀ j : Fin 4, (f.head.slice (2 + ext.length) 4).getD j 0 = f.mask j := by
    intro j
    have hslice : f.head.slice (2 + ext.length) 4 = List.ofFn f.mask := by
      rw [head, hbytes]
      apply Bytes.slice_of_eq (c := [])
      · rw [List.append_nil]
      · simp only [List.length_append, List.length_cons, List.length_nil]
        omega
      · exact List.length_ofFn
    rw [hslice, List.getD_eq_getElem _ _ (by rw [List.length_ofFn]; exact j.isLt),
      List.getElem_ofFn]
  have hsize : headLength f.head = 6 + ext.length ∧ announced f.head = f.payload.length ∧
      (125 < (frameOf f.head).payloadLength → 125 < f.payload.length) := by
    rw [announced, headLength, hframe]
    obtain ⟨hpayload, hsmall, rfl⟩ | ⟨hlarge, hnumber, ⟨hpayload, htwo⟩ | ⟨hpayload, height⟩⟩ :=
      hcases ((if f.fin then 128 else 0) ||| f.opCode)
    · rw [hpayload, if_pos hsmall, if_pos hsmall]
      exact ⟨rfl, rfl, id⟩
    · rw [htwo] at hext ⊢
      rw [hpayload, if_neg (by decide), if_pos rfl, if_neg (by decide), if_pos rfl, hext]
      exact ⟨rfl, hnumber, fun _ => hlarge⟩
    · rw [height] at hext ⊢
      rw [hpayload, if_neg (by decide), if_neg (by decide), if_neg (by decide),
        if_neg (by decide), hext]
      exact ⟨rfl, hnumber, fun _ => hlarge⟩
  refine ⟨b, hframe, hsize.2.2, hlen.trans hsize.1.symm, hsize.2.1, ?_⟩
  funext j
  rw [maskOf, hsize.1, ← hkey j]
  congr 2
  omega

/-- A frame that is valid is not refused. -/
theorem not_refused (hvalid : f.Valid) :
  (frameOf f.head).isFin = f.fin ∧ (frameOf f.head).opCode = f.opCode ∧
    (frameOf f.head).refused = false
  := by
  obtain ⟨b, hframe, hlarge, -, -, -⟩ := head_spec hvalid.length
  obtain ⟨hfin, hop, hok⟩ := first_byte f.fin hvalid.opCode b
  rw [← hframe] at hfin hop hok
  refine ⟨hfin, hop, ?_⟩
  rw [FrameFormat.refused, hok, Bool.false_or, hfin, hop]
  by_cases hcontrol : f.opCode > 2
  · obtain ⟨hend, hshort⟩ := hvalid.control hcontrol
    have hfew : ¬ (frameOf f.head).payloadLength > 125 := fun h => by
      have := hlarge h
      omega
    rw [hend, decide_eq_false hfew, Bool.not_true, Bool.or_false, Bool.and_false]
  · rw [decide_eq_false hcontrol, Bool.false_and]

/-- The head of a frame, up to its last byte. -/
theorem head_init (hvalid : f.Valid) :
  ∃ init b, f.head = init ++ [b] ∧ Incomplete init
  := by
  obtain ⟨_, -, -, hlen, -, -⟩ := head_spec hvalid.length
  have hbounds := headLength_bounds f.head
  obtain ⟨init, b, rest, hsplit, hincomplete, hlen', hlen'', -, -⟩ :=
    complete_head f.head (by omega) (not_refused hvalid).2.2 (le_of_eq hlen.symm)
  have hrest : rest = [] := by
    have hsum := congrArg List.length hsplit
    rw [List.length_append] at hsum
    exact List.eq_nil_of_length_eq_zero (by omega)
  rw [hrest, List.append_nil] at hsplit
  exact ⟨init, b, hsplit, hincomplete⟩

/-- A reader takes a whole frame. -/
theorem feed_bytes {l : Live α} (hphase : l.phase = .head []) (hvalid : f.Valid)
    {stack : List UInt8} (hopened : l.opened f.opCode = some stack) :
  Reader.feed H (.inr l) f.bytes
    = Sum.map id (fun S => ⟨.head [], if f.fin then stack.tail else stack, f.fin, S⟩)
        (outcome (l.session.handleFragment H f.payload 0 (stack.headD 0) f.fin))
  := by
  obtain ⟨_, -, -, hlen, hannounced, hmask⟩ := head_spec hvalid.length
  obtain ⟨hfin, hop, hok⟩ := not_refused hvalid
  obtain ⟨init, b, hhead, hincomplete⟩ := head_init hvalid
  have hmax := hvalid.length
  rw [← hop] at hopened
  have hread := feed_begin H hopened (by rw [hannounced]; exact hmax)
    (unmask f.mask f.payload) (by rw [hannounced, length_unmask])
  rw [hannounced, length_unmask, Nat.sub_self, data_end, hmask, unmask_unmask] at hread
  rw [bytes, hhead, feed_append_head H hphase hincomplete, ← hhead, head_eq_begin H hlen hok, hread]
  simp only [Live.into, hfin, outcome]
  split
  · rfl
  · rfl

/-- While the data of a frame is missing, no head is read. -/
theorem tame_body {l : Live α} {remaining : ℕ} {mask : Mask} {data : Bytes}
    (hle : data.length ≤ remaining) :
  Reader.Tame H (.inr { l with phase := .body remaining mask }) data
  := by
  intro before b after heq
  rw [Reader.fits_iff]
  intro l' head hl' hphase
  by_cases hnil : before = []
  · subst hnil
    rw [← Sum.inr.inj hl'] at hphase
    exact absurd hphase Phase.noConfusion
  · have hlt : before.length < remaining := by
      rw [heq, List.length_append, List.length_cons] at hle
      omega
    have hread := feed_body H l mask hnil (Nat.le_of_lt hlt)
    rw [data_part H _ _ (by omega)] at hread
    rw [← Sum.inr.inj (hread.symm.trans hl')] at hphase
    exact absurd hphase Phase.noConfusion

theorem tame_inl (app : α) (data : Bytes) :
  Reader.Tame H (.inl app) data
  := by
  intro before b after _
  rw [Reader.fits_iff]
  intro l head hl
  have hread := feed_inl H app before
  exact absurd (hread.symm.trans hl) Sum.inl_ne_inr

/-- The head of a valid frame announces no more than the parser counts. -/
theorem tame_bytes {l : Live α} (hphase : l.phase = .head []) (hvalid : f.Valid) :
  Reader.Tame H (.inr l) f.bytes
  := by
  obtain ⟨_, -, -, hlen, hannounced, hmask⟩ := head_spec hvalid.length
  obtain ⟨-, -, hok⟩ := not_refused hvalid
  obtain ⟨init, b, hhead, hincomplete⟩ := head_init hvalid
  have hmax := hvalid.length
  have hinit := tame_incomplete H l hincomplete
  have hstart := feed_incomplete H l [] hincomplete
  have hread := feed_append_head H hphase (b := b) hincomplete []
  rw [← hphase] at hinit hstart
  rw [List.append_nil, feed_nil, ← hhead, head_eq_begin H hlen hok] at hread
  rw [bytes, tame_append]
  constructor
  · rw [hhead, tame_append]
    refine ⟨hinit, ?_⟩
    rw [hstart]
    refine Runs.along_cons.mpr ⟨?_, Runs.along_nil⟩
    rw [Reader.fits_iff]
    rintro l' head ⟨⟩ hphase' -
    rw [← Phase.head.inj hphase', List.nil_append, ← hhead, hannounced]
    omega
  · rw [hread]
    cases hopened : l.opened (frameOf f.head).opCode with
    | none =>
        rw [Live.begin, hopened]
        exact tame_inl H _ _
    | some stack =>
        by_cases hnil : f.payload = []
        · rw [hnil]
          exact Runs.along_nil
        · have hpos := List.length_pos_of_ne_nil hnil
          have hbegin : l.begin H f.head = .inr (l.into f.head stack) := by
            have hbegin := feed_begin H hopened (by rw [hannounced]; exact hmax) []
              (Nat.zero_le _)
            rw [feed_nil, unmask_nil, List.length_nil, Nat.sub_zero, Mask.turn_zero, hannounced,
              data_part H _ _ (by omega), Live.after, handleFragment_part_nil H _ (by omega)]
              at hbegin
            rw [hbegin, Live.into, hannounced]
          rw [hbegin]
          apply tame_body H (l := l.into f.head stack)
          rw [length_unmask, hannounced]

end Frame

/-! ### What frames mean -/

/-- What a server gets from a client. -/
inductive Call where
  | message (opCode : UInt8) (data : Bytes)
  | ping (data : Bytes)
  | pong (data : Bytes)
  | close (frame : CloseFrame)

/-- What handlers do with a call.  Nothing is done when the socket has stopped, and a text that is
none terminates it. -/
def Handlers.call (app : α) (c : Call) : α :=
  if H.stopped app then app
  else match c with
    | .message op data =>
        if op = opText ∧ isValidUtf8 data = false then H.terminate app
        else H.message app (opCodeOf op) data
    | .ping data => H.ping app data
    | .pong data => H.pong app data
    | .close frame => H.close app frame

/-- The message to which a frame adds, with the data that it has. -/
def started : Option (UInt8 × Bytes) → UInt8 → Option (UInt8 × Bytes)
  | none, op => if op = 0 then none else some (op, [])
  | some m, op => if op = 0 then some m else none

/-- What a frame means while a message may be unfinished: what is unfinished then, and what the
server gets. -/
def Frame.means (m : Option (UInt8 × Bytes)) (f : Frame) :
    Option (Option (UInt8 × Bytes) × List Call) :=
  if f.opCode = opClose then some (m, [.close (parseClosePayload f.payload)])
  else if f.opCode = opPing then some (m, [.ping f.payload])
  else if f.opCode = opPong then some (m, [.pong f.payload])
  else (started m f.opCode).map fun (op, data) =>
    if f.fin then (none, [.message op (data ++ f.payload)])
    else (some (op, data ++ f.payload), [])

/-- What frames mean, unless a client must not send them in this order. -/
def meanings : Option (UInt8 × Bytes) → List Frame → Option (Option (UInt8 × Bytes) × List Call)
  | m, [] => some (m, [])
  | m, f :: frames => do
      let (m, calls) ← f.means m
      let (m, calls') ← meanings m frames
      return (m, calls ++ calls')

/-- A reader between two frames. -/
def Between (m : Option (UInt8 × Bytes)) (app : α) : Reader α → Prop
  | .inl app' => app' = app ∧ H.stopped app = true
  | .inr l => l.phase = .head [] ∧ H.stopped app = false ∧
      l.session = ⟨(m.map Prod.snd).getD [], [], app⟩ ∧
      l.stack = (m.map Prod.fst).toList ∧ (m = none → l.lastFin = true) ∧
      ∀ op ∈ m.map Prod.fst, op < 3

/-- What a session has become after a call. -/
def told (app : α) (fragment : Bytes) : α ⊕ Session α :=
  if H.stopped app then .inl app else .inr ⟨fragment, [], app⟩

/-- The end of a message. -/
theorem outcome_message (hlaw : H.Lawful) {app : α} (hgo : H.stopped app = false) {op : UInt8}
    (hop : op < 3) (data payload : Bytes) :
  outcome (Session.handleFragment H ⟨data, [], app⟩ payload 0 op true)
    = told H (H.call app (.message op (data ++ payload))) []
  := by
  have hdeliver : outcome (Session.deliver H ⟨[], [], app⟩ op (data ++ payload))
      = told H (H.call app (.message op (data ++ payload))) [] := by
    rw [told, Handlers.call, hgo, if_neg Bool.false_ne_true, Session.deliver]
    dsimp only
    by_cases hbad : op = opText ∧ isValidUtf8 (data ++ payload) = false
    · rw [if_pos hbad, if_pos hbad, hlaw.terminate, if_pos rfl]
      rfl
    · rw [if_neg hbad, if_neg hbad]
      rfl
  rw [Session.handleFragment, if_pos hop]
  by_cases hnil : data = []
  · subst hnil
    rw [if_pos ⟨rfl, rfl, rfl⟩]
    exact hdeliver
  · rw [if_neg (fun h => hnil h.2.2), if_pos ⟨rfl, rfl⟩, ← hdeliver,
      ← outcome_deliver H ⟨[], [], app⟩ op (data ++ payload) rfl]

/-- A part of a message. -/
theorem outcome_fragment {app : α} {op : UInt8} (hop : op < 3) (data payload : Bytes) :
  outcome (Session.handleFragment H ⟨data, [], app⟩ payload 0 op false)
    = .inr ⟨data ++ payload, [], app⟩
  := by
  rw [Session.handleFragment, if_pos hop, if_neg (fun h => Bool.false_ne_true h.2.1),
    if_neg (fun h => Bool.false_ne_true h.2)]
  rfl

/-- A control frame that is answered. -/
theorem outcome_answer {app app' : α} {op : UInt8} {payload fragment : Bytes}
    (hanswer : op = opPing ∧ app' = H.ping app payload ∨ op = opPong ∧ app' = H.pong app payload) :
  outcome (Session.handleFragment H ⟨fragment, [], app⟩ payload 0 op true) = told H app' fragment
  := by
  have hcontrol : Session.handleFragment H ⟨fragment, [], app⟩ payload 0 op true
      = if H.stopped app' = true then (true, ⟨fragment, payload, app'⟩)
        else (false, ⟨fragment, [], app'⟩) := by
    obtain ⟨rfl, rfl⟩ | ⟨rfl, rfl⟩ := hanswer
    · show (if (opPing = opPing ∨ opPing = opPong) ∧ H.stopped (H.ping app payload) = true
        then ((true, ⟨fragment, payload, H.ping app payload⟩) : Bool × Session α)
        else (false, ⟨fragment, [], H.ping app payload⟩)) = _
      simp only [true_or, true_and]
    · show (if (opPong = opPing ∨ opPong = opPong) ∧ H.stopped (H.pong app payload) = true
        then ((true, ⟨fragment, payload, H.pong app payload⟩) : Bool × Session α)
        else (false, ⟨fragment, [], H.pong app payload⟩)) = _
      simp only [or_true, true_and]
  rw [hcontrol, told]
  split
  · rfl
  · rfl

/-- A control frame. -/
theorem outcome_control (hlaw : H.Lawful) {app : α} (hgo : H.stopped app = false) {op : UInt8}
    {c : Call} {payload : Bytes} (hc : (op = opClose ∧ c = .close (parseClosePayload payload)) ∨
      (op = opPing ∧ c = .ping payload) ∨ (op = opPong ∧ c = .pong payload)) (fragment : Bytes) :
  outcome (Session.handleFragment H ⟨fragment, [], app⟩ payload 0 op true)
    = told H (H.call app c) fragment
  := by
  obtain ⟨rfl, rfl⟩ | ⟨rfl, rfl⟩ | ⟨rfl, rfl⟩ := hc
  · rw [Handlers.call, hgo, if_neg Bool.false_ne_true, told, hlaw.close, if_pos rfl]
    rfl
  · rw [Handlers.call, hgo, if_neg Bool.false_ne_true]
    exact outcome_answer H (Or.inl ⟨rfl, rfl⟩)
  · rw [Handlers.call, hgo, if_neg Bool.false_ne_true]
    exact outcome_answer H (Or.inr ⟨rfl, rfl⟩)

theorem between_told {m : Option (UInt8 × Bytes)} {app : α} {stack : List UInt8} {fin : Bool}
    (hstack : stack = (m.map Prod.fst).toList) (hfin : m = none → fin = true)
    (hop : ∀ op ∈ m.map Prod.fst, op < 3) :
  Between H m app (Sum.map id (fun S => ⟨.head [], stack, fin, S⟩)
    (told H app ((m.map Prod.snd).getD [])))
  := by
  cases hstop : H.stopped app with
  | true =>
      rw [told, if_pos hstop]
      exact ⟨rfl, hstop⟩
  | false =>
      rw [told, hstop, if_neg Bool.false_ne_true]
      exact ⟨rfl, hstop, rfl, hstack, hfin, hop⟩

/-- Nothing is done when the socket has stopped. -/
theorem run_call_stopped {app : α} (hstop : H.stopped app = true) (calls : List Call) :
  Runs.run H.call app calls = app
  := by
  induction calls with
  | nil => rfl
  | cons c calls ih =>
      have hcall : H.call app c = app := by
        show (if H.stopped app = true then app else _) = app
        exact if_pos hstop
      rw [Runs.run_cons, hcall, ih]

/-- A control frame leaves alone the message that is unfinished. -/
theorem control_spec (hlaw : H.Lawful) {m : Option (UInt8 × Bytes)} {app : α} {l : Live α}
    {f : Frame} {c : Call} (hl : Between H m app (.inr l)) (hvalid : f.Valid)
    (hc : (f.opCode = opClose ∧ c = .close (parseClosePayload f.payload)) ∨
      (f.opCode = opPing ∧ c = .ping f.payload) ∨ (f.opCode = opPong ∧ c = .pong f.payload)) :
  Between H m (H.call app c) (Reader.feed H (.inr l) f.bytes)
  := by
  obtain ⟨hphase, hgo, hsession, hstack, hfin, hop⟩ := hl
  have hlarge : 2 < f.opCode ∧ f.opCode ≠ 0 ∧ ¬ f.opCode < 2 := by
    obtain ⟨h, -⟩ | ⟨h, -⟩ | ⟨h, -⟩ := hc
    · rw [h]
      decide
    · rw [h]
      decide
    · rw [h]
      decide
  have hone : l.stack.length ≠ 2 := by
    rw [hstack]
    cases m
    · decide
    · exact Nat.succ_succ_ne_one 0 |>.symm
  have hopened : l.opened f.opCode = some (f.opCode :: l.stack) := by
    rw [Live.opened, if_pos hlarge.2.1, if_neg]
    rintro (h | ⟨-, h⟩)
    · exact hone h
    · exact hlarge.2.2 h
  obtain ⟨hend, -⟩ := hvalid.control hlarge.1
  rw [Frame.feed_bytes H hphase hvalid hopened, hsession, List.headD_cons, hend,
    outcome_control H hlaw hgo hc]
  exact between_told H hstack (fun _ => rfl) hop

/-- The message to which a frame adds is the one that is open. -/
theorem opened_started {m : Option (UInt8 × Bytes)} {app : α} {l : Live α} {op op' : UInt8}
    {data : Bytes} (hl : Between H m app (.inr l)) (hdata : op < 3)
    (hstarted : started m op = some (op', data)) :
  l.opened op = some [op'] ∧ l.session = ⟨data, [], app⟩ ∧ op' < 3
  := by
  obtain ⟨-, -, hsession, hstack, hfin, hop⟩ := hl
  rw [Live.opened]
  cases m with
  | none =>
      rw [started] at hstarted
      split at hstarted
      case isTrue => exact absurd hstarted (Option.some_ne_none _).symm
      case isFalse hne =>
        obtain ⟨rfl, rfl⟩ := Prod.mk.inj (Option.some.inj hstarted)
        rw [if_pos hne, hstack, hfin rfl, if_neg]
        · exact ⟨rfl, hsession, hdata⟩
        · rintro (h | ⟨h, -⟩)
          · exact absurd h (by decide)
          · exact Bool.false_ne_true h.symm
  | some m =>
      rw [started] at hstarted
      split at hstarted
      case isTrue hzero =>
        obtain rfl := Option.some.inj hstarted
        have hone : l.stack = [op'] := hstack
        rw [if_neg (fun h => h hzero), hone, if_neg (List.cons_ne_nil _ _)]
        exact ⟨rfl, hsession, hop op' rfl⟩
      case isFalse => exact absurd hstarted (Option.some_ne_none _).symm

/-- A frame with data. -/
theorem data_spec (hlaw : H.Lawful) {m : Option (UInt8 × Bytes)} {app : α} {l : Live α}
    {f : Frame} {op : UInt8} {data : Bytes} (hl : Between H m app (.inr l)) (hvalid : f.Valid)
    (hdata : f.opCode < 3) (hstarted : started m f.opCode = some (op, data)) :
  let after := if f.fin then (none, [Call.message op (data ++ f.payload)])
    else (some (op, data ++ f.payload), [])
  Between H after.1 (Runs.run H.call app after.2) (Reader.feed H (.inr l) f.bytes)
  := by
  obtain ⟨hopened, hsession, hop⟩ := opened_started H hl hdata hstarted
  rw [Frame.feed_bytes H hl.1 hvalid hopened, hsession, List.headD_cons]
  cases f.fin with
  | true =>
      rw [outcome_message H hlaw hl.2.1 hop]
      exact between_told H (m := none) rfl (fun _ => rfl)
        (fun op h => absurd h (Option.not_mem_none op))
  | false =>
      rw [outcome_fragment H hop]
      refine ⟨rfl, hl.2.1, rfl, rfl, fun h => absurd h (Option.some_ne_none _), ?_⟩
      rintro _ ⟨⟩
      exact hop

/-- A reader takes a valid frame for what it means. -/
theorem means_spec (hlaw : H.Lawful) {m m' : Option (UInt8 × Bytes)} {app : α} {r : Reader α}
    {f : Frame} {calls : List Call} (hr : Between H m app r) (hvalid : f.Valid)
    (hmeans : f.means m = some (m', calls)) :
  Between H m' (Runs.run H.call app calls) (r.feed H f.bytes)
  := by
  cases r with
  | inl app' =>
      obtain ⟨rfl, hstop⟩ := hr
      rw [feed_inl, run_call_stopped H hstop]
      exact ⟨rfl, hstop⟩
  | inr l =>
      rw [Frame.means] at hmeans
      by_cases hclose : f.opCode = opClose
      · rw [if_pos hclose] at hmeans
        obtain ⟨rfl, rfl⟩ := Prod.mk.inj (Option.some.inj hmeans)
        exact control_spec H hlaw hr hvalid (Or.inl ⟨hclose, rfl⟩)
      · by_cases hping : f.opCode = opPing
        · rw [if_neg hclose, if_pos hping] at hmeans
          obtain ⟨rfl, rfl⟩ := Prod.mk.inj (Option.some.inj hmeans)
          exact control_spec H hlaw hr hvalid (Or.inr (Or.inl ⟨hping, rfl⟩))
        · by_cases hpong : f.opCode = opPong
          · rw [if_neg hclose, if_neg hping, if_pos hpong] at hmeans
            obtain ⟨rfl, rfl⟩ := Prod.mk.inj (Option.some.inj hmeans)
            exact control_spec H hlaw hr hvalid (Or.inr (Or.inr ⟨hpong, rfl⟩))
          · rw [if_neg hclose, if_neg hping, if_neg hpong] at hmeans
            obtain ⟨⟨op, data⟩, hstarted, hafter⟩ := Option.map_eq_some_iff.mp hmeans
            have hdata : f.opCode < 3 := by
              have hcodes := hvalid.opCode
              simp only [List.mem_cons, List.not_mem_nil, or_false] at hcodes
              rcases hcodes with h | h | h | h | h | h
              · rw [h]; decide
              · rw [h]; decide
              · rw [h]; decide
              · exact absurd h hclose
              · exact absurd h hping
              · exact absurd h hpong
            have hspec := data_spec H hlaw hr hvalid hdata hstarted
            dsimp only at hspec hafter
            rw [hafter] at hspec
            exact hspec

/-! ### Whole exchanges -/

/-- A reader takes valid frames for what they mean, and none of their heads is too much for the
parser. -/
theorem meanings_spec (hlaw : H.Lawful) {m m' : Option (UInt8 × Bytes)} {app : α} {r : Reader α}
    {frames : List Frame} {calls : List Call} (hr : Between H m app r)
    (hvalid : ∀ f ∈ frames, f.Valid) (hmeanings : meanings m frames = some (m', calls)) :
  Between H m' (Runs.run H.call app calls) (r.feed H (frames.flatMap Frame.bytes)) ∧
    r.Tame H (frames.flatMap Frame.bytes)
  := by
  induction frames generalizing m app r calls with
  | nil =>
      obtain ⟨rfl, rfl⟩ := Prod.mk.inj (Option.some.inj hmeanings)
      exact ⟨hr, Runs.along_nil⟩
  | cons f frames ih =>
      obtain ⟨hfirst, hrest⟩ := List.forall_mem_cons.mp hvalid
      rw [meanings] at hmeanings
      obtain ⟨⟨m₁, calls₁⟩, hmeans, hmeanings⟩ := Option.bind_eq_some_iff.mp hmeanings
      obtain ⟨⟨m₂, calls₂⟩, hmeanings₂, hresult⟩ := Option.bind_eq_some_iff.mp hmeanings
      obtain ⟨rfl, rfl⟩ := Prod.mk.inj (Option.some.inj hresult)
      have hr₁ := means_spec H hlaw hr hfirst hmeans
      obtain ⟨hend, htame⟩ := ih hr₁ hrest hmeanings₂
      rw [List.flatMap_cons, feed_append, tame_append]
      refine ⟨?_, ?_, htame⟩
      · rw [Runs.run_append]
        exact hend
      · cases r with
        | inl app' => exact Frame.tame_inl H app' _
        | inr l => exact Frame.tame_bytes H hr.1 hfirst

/-- A new socket handles what valid frames mean, in whatever pieces they arrive. -/
theorem onPieces_meanings (hlaw : H.Lawful) {mem : Bytes} {app : α} {frames : List Frame}
    {m : Option (UInt8 × Bytes)} {calls : List Call} {pieces : List Bytes}
    (hmem : mem.length = consumePrePadding + recvLength + consumePostPadding)
    (hgo : H.stopped app = false) (hvalid : ∀ f ∈ frames, f.Valid)
    (hmeanings : meanings none frames = some (m, calls))
    (hpieces : ∀ data ∈ pieces, data ≠ [] ∧ data.length ≤ recvLength)
    (hbytes : pieces.flatten = frames.flatMap Frame.bytes) :
  ∃ c, (Receiver.new mem app).onPieces H pieces = some c ∧
    c.session.app = Runs.run H.call app calls
  := by
  have hnew : Between H none app (Reader.new app) :=
    ⟨rfl, hgo, rfl, rfl, fun _ => rfl, fun op h => absurd h (Option.not_mem_none op)⟩
  obtain ⟨hend, htame⟩ := meanings_spec H hlaw hnew hvalid hmeanings
  rw [← hbytes] at hend htame
  obtain ⟨c, hc, hfollows⟩ := onPieces_follows H hlaw (new_follows H hmem hgo) hpieces htame
  refine ⟨c, hc, ?_⟩
  have happ := hfollows.follows
  cases hread : (Reader.new app).feed H pieces.flatten with
  | inl app' =>
      rw [hread] at happ hend
      exact happ.1.trans hend.1
  | inr l =>
      rw [hread] at happ hend
      rw [happ.2.session, hend.2.2.1]

/-- The text `hi` in two frames with a ping between them, in three pieces. -/
theorem onPieces_meanings_hi :
  ∃ c, (Receiver.new (List.replicate 307200 0) ([], false)).onPieces recorder
      [[0x01, 0x81, 1, 2], [3, 4, 105, 0x89, 0x80, 0, 0], [0, 0, 0x80, 0x81, 5, 6, 7, 8, 108]]
        = some c ∧
    c.session.app = Runs.run recorder.call ([], false) [.ping [], .message opText [104, 105]]
  := by
  apply onPieces_meanings recorder recorder_lawful (m := none)
    (@List.length_replicate _ 307200 0) rfl
    (by decide : ∀ f ∈ ([⟨false, opText, ![1, 2, 3, 4], [104]⟩, ⟨true, opPing, ![0, 0, 0, 0], []⟩,
      ⟨true, 0, ![5, 6, 7, 8], [105]⟩] : List Frame), f.Valid)
  · rfl
  · decide
  · decide

end WebSocket

end Owop
