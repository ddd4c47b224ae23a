import OwopServer.WebSocket.Reader

/-!
# What handlers are called with

Whatever bytes arrive, handlers get texts that are texts, control frames of at most 125 bytes, and
codes of closing that a peer may send.  So a condition that the handlers keep for such arguments
holds of everything that a socket has done.
-/

namespace Owop

namespace WebSocket

/-- The code and the text of a close frame are such as a peer may send, or there is neither. -/
def CloseFrame.Sendable (frame : CloseFrame) : Prop :=
  frame = ⟨0, []⟩ ∨ badCode frame.code.toNat = false ∧ IsText frame.message ∧
    frame.message.length ≤ 123

/-- What a control frame says can be sent back. -/
theorem parseClosePayload_sendable {src : Bytes} (h : src.length ≤ 125) :
  (parseClosePayload src).Sendable
  := by
  rw [parseClosePayload]
  split
  case isTrue hlong =>
    dsimp only
    split
    case isTrue => exact Or.inl rfl
    case isFalse hgood =>
      rw [Bool.or_eq_true, Bool.not_eq_true', not_or, Bool.not_eq_true, Bool.not_eq_false] at hgood
      have hlt : beNat (src.take 2) < 2 ^ 16 := by
        have hlt := Bytes.leNat_lt (src.take 2).reverse
        rw [List.length_reverse, List.length_take_of_le hlong] at hlt
        exact hlt
      right
      refine ⟨?_, (isValidUtf8_iff _).mp hgood.2, ?_⟩
      · rw [UInt16.toNat_ofNat', Nat.mod_eq_of_lt hlt]
        exact hgood.1
      · rw [List.length_drop]
        omega
  case isFalse => exact Or.inl rfl

variable {α : Type} (H : Handlers α)

/-- The handlers keep a condition when their arguments are such as they get. -/
structure Handlers.Keep (P : α → Prop) : Prop where
  message : ∀ app op data, P app → (op = .text → IsText data) → P (H.message app op data)
  ping : ∀ app data, P app → data.length ≤ 125 → P (H.ping app data)
  pong : ∀ app data, P app → data.length ≤ 125 → P (H.pong app data)
  close : ∀ app frame, P app → frame.Sendable → P (H.close app frame)
  terminate : ∀ app, P app → P (H.terminate app)

/-- A frame of control or of data whose data is being read. -/
def Reading (stack : List UInt8) (lastFin : Bool) (control : Bytes) (missing : ℕ) : Prop :=
  if stack.headD 0 < 3 then control = []
  else lastFin = true ∧ control.length + missing ≤ 125

/-- What holds of a reader between two bytes. -/
structure Live.Sound (l : Live α) : Prop where
  below : ∀ op ∈ l.stack.tail, op < 3
  head : ∀ bytes, l.phase = .head bytes → l.session.controlBuffer = [] ∧ ∀ op ∈ l.stack, op < 3
  body : ∀ remaining mask, l.phase = .body remaining mask → 0 < remaining ∧
    Reading l.stack l.lastFin l.session.controlBuffer remaining

/-- A reader is sound, and the condition holds of what the handlers have done. -/
def Reader.Kept (P : α → Prop) (r : Reader α) : Prop :=
  P r.app ∧ ∀ l, r = .inr l → l.Sound

variable {H} {P : α → Prop}

/-- A message that is delivered. -/
theorem deliver_kept (hkeep : H.Keep P) {S : Session α} (hP : P S.app) (op : UInt8) (data : Bytes) :
  P (S.deliver H op data).2.app
  := by
  rw [Session.deliver]
  split
  case isTrue => exact hkeep.terminate _ hP
  case isFalse hgood =>
    apply hkeep.message _ _ _ hP
    intro htext
    have hop : op = opText := by
      by_contra hne
      rw [opCodeOf, if_neg hne] at htext
      exact absurd htext OpCode.noConfusion
    apply (isValidUtf8_iff data).mp
    by_contra hbad
    exact hgood ⟨hop, Bool.not_eq_true _ ▸ hbad⟩

/-- A control frame. -/
theorem control_kept (hkeep : H.Keep P) {S : Session α} (hP : P S.app) (op : UInt8)
    (hfew : S.controlBuffer.length ≤ 125) :
  P (S.control H op).2.app
  := by
  rw [Session.control]
  split
  case isTrue => exact hkeep.close _ _ hP (parseClosePayload_sendable hfew)
  case isFalse =>
    have hanswer : P (S.answer H op) := by
      rw [Session.answer]
      split
      · exact hkeep.ping _ _ hP hfew
      · split
        · exact hkeep.pong _ _ hP hfew
        · exact hP
    dsimp only
    split
    · exact hanswer
    · exact hanswer

/-- A message that is delivered leaves the buffer of control frames alone. -/
theorem deliver_controlBuffer (S : Session α) (op : UInt8) (data : Bytes) :
  (S.deliver H op data).2.controlBuffer = S.controlBuffer
  := by
  rw [Session.deliver]
  split
  · rfl
  · rfl

/-- After a control frame its buffer is empty. -/
theorem control_controlBuffer {S : Session α} {op : UInt8} (h : (S.control H op).1 = false) :
  (S.control H op).2.controlBuffer = []
  := by
  rw [Session.control] at h ⊢
  split
  case isTrue hop =>
    rw [if_pos hop] at h
    exact absurd h.symm Bool.false_ne_true
  case isFalse hop =>
    rw [if_neg hop] at h
    dsimp only at h ⊢
    split
    case isTrue hstop =>
      rw [if_pos hstop] at h
      exact absurd h.symm Bool.false_ne_true
    case isFalse => rfl

/-- A part of a frame is handled. -/
theorem handleFragment_kept (hkeep : H.Keep P) {S : Session α} (hP : P S.app) {op : UInt8}
    {fin : Bool} {bytes : Bytes} {remaining : ℕ}
    (hreading : Reading [op] fin S.controlBuffer (bytes.length + remaining)) :
  P (S.handleFragment H bytes remaining op fin).2.app ∧
    ((S.handleFragment H bytes remaining op fin).1 = false →
      if op < 3 ∨ remaining = 0 then
        (S.handleFragment H bytes remaining op fin).2.controlBuffer = []
      else (S.handleFragment H bytes remaining op fin).2.controlBuffer.length + remaining ≤ 125)
  := by
  rw [Reading, List.headD_cons] at hreading
  rw [Session.handleFragment]
  by_cases hop : op < 3
  · rw [if_pos hop] at hreading ⊢
    rw [if_pos (Or.inl hop)]
    split
    case isTrue =>
      refine ⟨deliver_kept hkeep hP _ _, fun _ => ?_⟩
      rw [deliver_controlBuffer, hreading]
    case isFalse =>
      dsimp only
      have hkept := deliver_kept hkeep (S := { S with fragmentBuffer := S.fragmentBuffer ++ bytes })
        hP op (S.fragmentBuffer ++ bytes)
      have hcontrol := deliver_controlBuffer (H := H)
        { S with fragmentBuffer := S.fragmentBuffer ++ bytes } op (S.fragmentBuffer ++ bytes)
      split
      case isTrue =>
        rw [clearFragment]
        split
        case isTrue => exact ⟨hkept, fun _ => hcontrol.trans hreading⟩
        case isFalse => exact ⟨hkept, fun _ => hcontrol.trans hreading⟩
      case isFalse => exact ⟨hP, fun _ => hreading⟩
  · rw [if_neg hop] at hreading ⊢
    obtain ⟨rfl, hfew⟩ := hreading
    dsimp only
    by_cases hend : remaining = 0
    · rw [if_pos ⟨hend, rfl⟩, if_pos (Or.inr hend)]
      have hlen : (S.controlBuffer ++ bytes).length ≤ 125 := by
        rw [List.length_append]
        omega
      exact ⟨control_kept hkeep (S := { S with controlBuffer := S.controlBuffer ++ bytes }) hP op hlen,
        control_controlBuffer⟩
    · rw [if_neg (fun h => hend h.1), if_neg (not_or.mpr ⟨hop, hend⟩)]
      refine ⟨hP, fun _ => ?_⟩
      dsimp only
      rw [List.length_append]
      omega

/-- A frame that does not end its message has data. -/
theorem lt_of_reading {stack : List UInt8} {lastFin : Bool} {control : Bytes} {missing : ℕ}
    (hreading : Reading stack lastFin control missing) (hbelow : ∀ op ∈ stack.tail, op < 3)
    (hmore : ¬ lastFin = true) :
  ∀ op ∈ stack, op < 3
  := by
  rw [Reading] at hreading
  split at hreading
  case isTrue hop =>
    cases stack with
    | nil => exact fun op h => absurd h List.not_mem_nil
    | cons op stack => exact List.forall_mem_cons.mpr ⟨hop, hbelow⟩
  case isFalse => exact absurd hreading.1 hmore

/-- Data arrives. -/
theorem data_kept (hkeep : H.Keep P) {l : Live α} (hP : P l.session.app)
    (hbelow : ∀ op ∈ l.stack.tail, op < 3) (bytes : Bytes) (remaining : ℕ)
    (hreading : Reading l.stack l.lastFin l.session.controlBuffer (bytes.length + remaining))
    (mask : Mask) :
  (l.data H bytes remaining mask).Kept P
  := by
  have hreading' : Reading [l.stack.headD 0] l.lastFin l.session.controlBuffer
    (bytes.length + remaining) := hreading
  obtain ⟨hP', hcontrol⟩ := handleFragment_kept hkeep hP hreading'
  rw [Live.data, outcome]
  by_cases hdone : (l.session.handleFragment H bytes remaining (l.stack.headD 0) l.lastFin).1 = true
  · rw [if_pos hdone]
    exact ⟨hP', fun l' h => absurd h Sum.inl_ne_inr⟩
  · rw [if_neg hdone]
    have hcontrol' := hcontrol (Bool.not_eq_true _ ▸ hdone)
    refine ⟨?_, ?_⟩
    · dsimp only
      split
      · exact hP'
      · exact hP'
    · rintro l' h
      rw [← Sum.inr.inj h]
      by_cases hend : remaining = 0
      · rw [if_pos (Or.inr hend)] at hcontrol'
        rw [if_pos hend]
        have hall : ∀ op ∈ (if l.lastFin then l.stack.tail else l.stack), op < 3 := by
          split
          case isTrue => exact hbelow
          case isFalse hmore => exact lt_of_reading hreading hbelow hmore
        exact ⟨fun op hop => hall op (List.mem_of_mem_tail hop),
          fun _ _ => ⟨hcontrol', hall⟩, fun _ _ h => absurd h Phase.noConfusion⟩
      · rw [if_neg hend]
        refine ⟨hbelow, fun _ h => absurd h Phase.noConfusion, ?_⟩
        rintro _ _ ⟨⟩
        refine ⟨Nat.pos_of_ne_zero hend, ?_⟩
        rw [Reading] at hreading ⊢
        dsimp only
        by_cases hop : l.stack.headD 0 < 3
        · rw [if_pos (Or.inl hop)] at hcontrol'
          rw [if_pos hop]
          exact hcontrol'
        · rw [if_neg (not_or.mpr ⟨hop, hend⟩)] at hcontrol'
          rw [if_neg hop] at hreading ⊢
          exact ⟨hreading.1, hcontrol'⟩

/-- A control frame is not cut, and short. -/
theorem short_of_control {frame : FrameFormat} (hok : frame.refused = false)
    (hop : ¬ frame.opCode < 3) :
  frame.isFin = true ∧ frame.payloadLength ≤ 125
  := by
  have hlarge : frame.opCode > 2 := by
    rw [gt_iff_lt, UInt8.lt_iff_toNat_lt]
    rw [UInt8.lt_iff_toNat_lt] at hop
    exact Nat.lt_of_succ_le (Nat.le_of_not_lt hop)
  rw [FrameFormat.refused, Bool.or_eq_false_iff, decide_eq_true hlarge] at hok
  have hlast := hok.2
  rw [Bool.true_and, Bool.or_eq_false_iff, Bool.not_eq_false', decide_eq_false_iff_not] at hlast
  exact ⟨hlast.1, Nat.le_of_not_lt hlast.2⟩

/-- The head of a frame is there. -/
theorem begin_kept (hkeep : H.Keep P) {l : Live α} (hP : P l.session.app)
    (hcontrol : l.session.controlBuffer = []) (hstack : ∀ op ∈ l.stack, op < 3) {bytes : Bytes}
    (hok : (frameOf bytes).refused = false) :
  (l.begin H bytes).Kept P
  := by
  rw [Live.begin]
  dsimp only
  cases hopened : l.opened (frameOf bytes).opCode with
  | none => exact ⟨hkeep.terminate _ hP, fun l' h => absurd h Sum.inl_ne_inr⟩
  | some stack =>
      have hreading : Reading stack (frameOf bytes).isFin l.session.controlBuffer
          (announced bytes) ∧ ∀ op ∈ stack.tail, op < 3 := by
        rw [Live.opened] at hopened
        split at hopened
        case isTrue =>
          split at hopened
          case isTrue => exact absurd hopened (Option.some_ne_none _).symm
          case isFalse =>
            obtain rfl := Option.some.inj hopened
            refine ⟨?_, hstack⟩
            rw [Reading, List.headD_cons]
            split
            case isTrue => exact hcontrol
            case isFalse hop =>
              obtain ⟨hfin, hshort⟩ := short_of_control hok hop
              refine ⟨hfin, ?_⟩
              rw [announced, if_pos (by omega), hcontrol, List.length_nil]
              omega
        case isFalse =>
          split at hopened
          case isTrue => exact absurd hopened (Option.some_ne_none _).symm
          case isFalse hne =>
            obtain rfl := Option.some.inj hopened
            refine ⟨?_, fun op hop => hstack op (List.mem_of_mem_tail hop)⟩
            rw [Reading, if_pos]
            · exact hcontrol
            · rw [List.headD_eq_head?_getD, List.head?_eq_some_head hne]
              exact hstack _ (List.head_mem hne)
      obtain ⟨hreading, hbelow⟩ := hreading
      dsimp only
      split
      case isTrue => exact ⟨hkeep.terminate _ hP, fun l' h => absurd h Sum.inl_ne_inr⟩
      case isFalse =>
        split
        case isTrue hzero =>
          rw [hzero] at hreading
          exact data_kept hkeep (l := ⟨_, stack, _, l.session⟩) hP hbelow [] 0 hreading _
        case isFalse hpos =>
          refine ⟨hP, ?_⟩
          rintro _ ⟨⟩
          refine ⟨hbelow, fun _ h => absurd h Phase.noConfusion, ?_⟩
          rintro _ _ ⟨⟩
          exact ⟨Nat.pos_of_ne_zero hpos, hreading⟩

/-- The bytes of a head. -/
theorem head_kept (hkeep : H.Keep P) {l : Live α} (hP : P l.session.app)
    (hcontrol : l.session.controlBuffer = []) (hstack : ∀ op ∈ l.stack, op < 3) (bytes : Bytes) :
  (l.head H bytes).Kept P
  := by
  have hwait : Reader.Kept P (.inr { l with phase := .head bytes }) := by
    refine ⟨hP, ?_⟩
    rintro _ ⟨⟩
    exact ⟨fun op hop => hstack op (List.mem_of_mem_tail hop), fun _ _ => ⟨hcontrol, hstack⟩,
      fun _ _ h => absurd h Phase.noConfusion⟩
  rw [Live.head]
  split
  case isTrue => exact hwait
  case isFalse =>
    split
    case isTrue => exact ⟨hkeep.terminate _ hP, fun l' h => absurd h Sum.inl_ne_inr⟩
    case isFalse hok =>
      split
      case isTrue => exact hwait
      case isFalse => exact begin_kept hkeep hP hcontrol hstack (Bool.not_eq_true _ ▸ hok)

/-- A byte arrives. -/
theorem byte_kept (hkeep : H.Keep P) {r : Reader α} (h : r.Kept P) (b : UInt8) :
  (r.byte H b).Kept P
  := by
  cases r with
  | inl app => exact h
  | inr l =>
      obtain ⟨hP, hsound⟩ := h
      have hl := hsound l rfl
      rw [Reader.byte]
      cases hphase : l.phase with
      | head bytes =>
          obtain ⟨hcontrol, hstack⟩ := hl.head bytes hphase
          exact head_kept hkeep hP hcontrol hstack _
      | body remaining mask =>
          obtain ⟨hpos, hreading⟩ := hl.body remaining mask hphase
          apply data_kept hkeep hP hl.below
          rw [length_unmask, List.length_singleton, Nat.add_sub_cancel' hpos]
          exact hreading

/-- Bytes arrive. -/
theorem run_kept (hkeep : H.Keep P) {r : Reader α} (h : r.Kept P) (bytes : Bytes) :
  (r.feed H bytes).Kept P
  := by
  induction bytes generalizing r with
  | nil => exact h
  | cons b bytes ih => exact ih (byte_kept hkeep h b)

/-- A condition that the handlers keep holds of what a socket has done, whatever bytes arrive. -/
theorem feed_kept (hkeep : H.Keep P) {app : α} (hP : P app) (bytes : Bytes) :
  P ((Reader.new app).feed H bytes).app
  := by
  have hnew : (Reader.new app).Kept P := by
    refine ⟨hP, ?_⟩
    rintro _ ⟨⟩
    exact ⟨fun op hop => absurd hop List.not_mem_nil,
      fun _ _ => ⟨rfl, fun op hop => absurd hop List.not_mem_nil⟩,
      fun _ _ h => absurd h Phase.noConfusion⟩
  exact (run_kept hkeep hnew bytes).1

end WebSocket

end Owop
