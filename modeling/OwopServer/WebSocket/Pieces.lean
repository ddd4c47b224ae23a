import OwopServer.WebSocket.Calls
import OwopServer.WebSocket.Consume

/-!
# Data in pieces

The parser of frames gets what arrives on a socket in pieces, as `recv` cuts it.  Whatever the
pieces are, no byte outside of the arrays of the parser is touched, and the handlers are called
as a reader calls them that takes all bytes one after the other.  Only a head with eight bytes of
length may announce what the parser cannot count.
-/

namespace Owop

open Bytes (slice splice)

namespace WebSocket

variable {α : Type} (H : Handlers α)

/-! ### Which way the parser takes -/

/-- A byte of the data in the memory. -/
theorem getElem?_views {c : Input α} {data : Bytes} (hviews : c.Views data) {i : ℕ}
    (h : i < data.length) :
  c.mem[c.src + i]? = some (data.getD i 0)
  := by
  have hget := congrArg (fun bs : Bytes => bs[i]?) hviews.bytes
  rw [Bytes.slice, List.getElem?_take, if_pos (by rw [hviews.length]; exact h),
    List.getElem?_drop] at hget
  rw [hget, List.getElem?_eq_getElem h, List.getD_eq_getElem _ _ h]

/-- Some bytes of the data in the memory. -/
theorem peek_views {c : Input α} {data : Bytes} (hviews : c.Views data) {i n : ℕ}
    (h : i + n ≤ data.length) :
  peek c.mem (c.src + i) n = some (data.slice i n)
  := by
  have hlen := hviews.length
  have hfits := hviews.fits
  rw [peek, if_pos (by omega), hviews.slice h]

/-- What the parser does where six bytes wait. -/
theorem parseNext_eq {c : Input α} {data : Bytes} (hviews : c.Views data)
    (hlong : shortMessageHeader ≤ data.length) (fuel : ℕ) :
  c.parseNext H (fuel + 1) =
    if (frameOf data).refused then some (c.forceClose H)
    else if data.length < headLength data then c.keep
    else c.consumeMessage H (headLength data) (announced data) (frameOf data) >>= fun done =>
      if done.1 then some done.2 else done.2.parseNext H fuel
  := by
  have hlen := hviews.length
  rw [shortMessageHeader] at hlong
  have h0 : c.mem[c.src]? = some (data.getD 0 0) := getElem?_views hviews (i := 0) (by omega)
  have h1 : c.mem[c.src + 1]? = some (data.getD 1 0) := getElem?_views hviews (i := 1) (by omega)
  have hsix : ¬ c.length < shortMessageHeader := by
    rw [shortMessageHeader]
    omega
  rw [Input.parseNext, if_neg hsix, bind_of_eq h0, bind_of_eq h1]
  show (if (frameOf data).refused = true then _ else _) = _
  by_cases hrefused : (frameOf data).refused = true
  · rw [if_pos hrefused, if_pos hrefused]
    rfl
  · rw [if_neg hrefused, if_neg hrefused]
    show (if (frameOf data).payloadLength < 126 then _ else _) = _
    rw [headLength, announced]
    by_cases hsmall : (frameOf data).payloadLength < 126
    · rw [if_pos hsmall, if_pos hsmall, if_pos hsmall, ← hlen, if_neg hsix]
      rfl
    · rw [if_neg hsmall, if_neg hsmall, if_neg hsmall]
      show (if (frameOf data).payloadLength = 126 then _ else _) = _
      by_cases hmedium : (frameOf data).payloadLength = 126
      · rw [if_pos hmedium, if_pos hmedium, if_pos hmedium, ← hlen]
        split
        case isTrue => rfl
        case isFalse hthere =>
          rw [mediumMessageHeader, hlen] at hthere
          rw [bind_of_eq (peek_views hviews (by omega))]
          rfl
      · rw [if_neg hmedium, if_neg hmedium, if_neg hmedium, ← hlen]
        split
        case isTrue => rfl
        case isFalse hthere =>
          rw [longMessageHeader, hlen] at hthere
          rw [bind_of_eq (peek_views hviews (by omega))]
          rfl

/-! ### The loop -/

/-- A byte that ends a head does not announce more than the parser counts. -/
def Reader.Fits : Reader α → UInt8 → Prop
  | .inl _, _ => True
  | .inr ⟨.head head, _, _, _⟩, b =>
      headLength (head ++ [b]) = (head ++ [b]).length → announced (head ++ [b]) < 2 ^ 31
  | .inr ⟨.body _ _, _, _, _⟩, _ => True

instance : (r : Reader α) → (b : UInt8) → Decidable (r.Fits b)
  | .inl _, _ => isTrue trivial
  | .inr ⟨.head _, _, _, _⟩, _ => inferInstanceAs (Decidable (_ → _))
  | .inr ⟨.body _ _, _, _, _⟩, _ => isTrue trivial

/-- A byte fits, unless it ends a head that announces too much. -/
theorem Reader.fits_iff {r : Reader α} {b : UInt8} :
  r.Fits b ↔ ∀ l head, r = .inr l → l.phase = .head head →
    headLength (head ++ [b]) = (head ++ [b]).length → announced (head ++ [b]) < 2 ^ 31
  := by
  rcases r with app | ⟨head | ⟨remaining, mask⟩, stack, lastFin, session⟩
  · exact ⟨fun _ l head h => absurd h Sum.inl_ne_inr, fun _ => trivial⟩
  · constructor
    · rintro h _ _ ⟨⟩ ⟨⟩
      exact h
    · exact fun h => h _ head rfl rfl
  · constructor
    · rintro - _ _ ⟨⟩ hphase
      exact absurd hphase Phase.noConfusion
    · exact fun _ => trivial

/-- No head in the data announces more than the parser counts. -/
def Reader.Tame (r : Reader α) (data : Bytes) : Prop :=
  Runs.Along (Reader.byte H) Reader.Fits r data

instance (r : Reader α) (data : Bytes) : Decidable (r.Tame H data) :=
  inferInstanceAs (Decidable (Runs.Along _ _ _ _))

/-- Data that come in two pieces. -/
theorem tame_append {r : Reader α} {data data' : Bytes} :
  r.Tame H (data ++ data') ↔ r.Tame H data ∧ (r.feed H data).Tame H data'
  := Runs.along_append

/-- What a head announces does not depend on what follows. -/
theorem announced_append {data : Bytes} (h2 : 2 ≤ data.length) (h : headLength data ≤ data.length)
    (data' : Bytes) :
  announced (data ++ data') = announced data
  := by
  rw [announced, announced, frameOf_append h2]
  rw [headLength] at h
  split at h
  case isTrue hsmall => rw [if_pos hsmall, if_pos hsmall]
  case isFalse hsmall =>
    rw [if_neg hsmall, if_neg hsmall]
    split at h
    case isTrue hmedium =>
      rw [mediumMessageHeader] at h
      rw [if_pos hmedium, if_pos hmedium, slice_append_left (by omega)]
    case isFalse hmedium =>
      rw [longMessageHeader] at h
      rw [if_neg hmedium, if_neg hmedium, slice_append_left (by omega)]

/-- What waits is kept for the next data. -/
theorem keep_follows {c : Input α} {l : Live α} {data : Bytes} (hviews : c.Views data)
    (hincomplete : Incomplete data) (hphase : l.phase = .head [])
    (hagrees : Agrees c.proto c.session l) (hstate : c.proto.state = .readHead)
    (hspill : c.proto.spill = [] ∨ data ≠ []) :
  ∃ c', c.keep = some c' ∧ c'.mem.length = c.mem.length ∧
    Follows H c'.proto c'.session (Reader.feed H (.inr l) data)
  := by
  have hlen := hviews.length
  have hfeed := feed_incomplete H l [] hincomplete
  rw [← hphase, List.nil_append] at hfeed
  rw [hfeed, Input.keep]
  by_cases hnil : data = []
  · rw [hnil, List.length_nil] at hlen
    rw [if_pos hlen, hnil]
    exact ⟨c, rfl, rfl, ⟨hstate, hspill.resolve_right (fun h => h hnil), hnil ▸ hincomplete⟩,
      ⟨hagrees.stack, hagrees.lastFin, hagrees.session⟩⟩
  · have hpos := List.length_pos_of_ne_nil hnil
    have hfew : c.length ≤ longMessageHeader - 1 := by
      have hbound := (headLength_bounds data).2
      rw [longMessageHeader] at hbound ⊢
      rcases hincomplete with h | ⟨-, h⟩
      · rw [shortMessageHeader] at h
        omega
      · omega
    have hpeek := peek_views hviews (i := 0) (n := c.length) (by omega)
    rw [add_zero, hlen, Bytes.slice, List.drop_zero, List.take_length] at hpeek
    rw [if_neg (by omega), if_pos hfew, hlen, bind_of_eq hpeek]
    exact ⟨_, rfl, rfl, ⟨hstate, rfl, hincomplete⟩,
      ⟨hagrees.stack, hagrees.lastFin, hagrees.session⟩⟩

/-- A complete head, with the byte that ends it. -/
theorem complete_head (data : Bytes) (hlong : shortMessageHeader ≤ data.length)
    (hok : (frameOf data).refused = false) (hthere : headLength data ≤ data.length) :
  ∃ init b rest, data = (init ++ [b]) ++ rest ∧ Incomplete init ∧
    (init ++ [b]).length = headLength (init ++ [b]) ∧
    headLength (init ++ [b]) = headLength data ∧ announced (init ++ [b]) = announced data ∧
    frameOf (init ++ [b]) = frameOf data
  := by
  have hbounds := headLength_bounds data
  rw [shortMessageHeader] at hlong hbounds
  obtain ⟨head, rest, rfl, hlen⟩ : ∃ head rest, data = head ++ rest ∧
      head.length = headLength data :=
    ⟨_, _, (List.take_append_drop (headLength data) data).symm, List.length_take_of_le hthere⟩
  obtain ⟨init, b, rfl⟩ : ∃ init b, head = init ++ [b] := by
    have hne : head ≠ [] := by
      rintro rfl
      rw [List.length_nil] at hlen
      omega
    exact ⟨_, _, (List.dropLast_append_getLast hne).symm⟩
  have h2 : 2 ≤ (init ++ [b]).length := by omega
  rw [headLength_append h2] at hlen hbounds ⊢
  rw [frameOf_append h2] at hok ⊢
  rw [announced_append h2 (le_of_eq hlen.symm)]
  refine ⟨init, b, rest, rfl, ?_, hlen, rfl, rfl, rfl⟩
  rw [List.length_append, List.length_singleton] at hlen
  by_cases hshort : init.length < shortMessageHeader
  · exact Or.inl hshort
  · rw [shortMessageHeader] at hshort
    have h2' : 2 ≤ init.length := by omega
    rw [frameOf_append h2'] at hok
    rw [headLength_append h2'] at hlen
    exact Or.inr ⟨hok, by omega⟩

/-- A head, and then what follows it. -/
theorem feed_append_head {l : Live α} (hphase : l.phase = .head []) {init : Bytes} {b : UInt8}
    (hincomplete : Incomplete init) (rest : Bytes) :
  Reader.feed H (.inr l) (init ++ [b] ++ rest) = (l.head H (init ++ [b])).feed H rest
  := by
  have hfeed := feed_head H l (b := b) hincomplete
  rw [← hphase] at hfeed
  rw [feed_append, hfeed]

/-- What no frame begins with. -/
theorem feed_refused {l : Live α} (hphase : l.phase = .head []) {data : Bytes}
    (hlong : shortMessageHeader ≤ data.length) (hrefused : (frameOf data).refused = true) :
  Reader.feed H (.inr l) data = .inl (H.terminate l.session.app)
  := by
  rw [shortMessageHeader] at hlong
  obtain ⟨head, rest, rfl, hlen⟩ : ∃ head rest, data = head ++ rest ∧ head.length = 6 :=
    ⟨_, _, (List.take_append_drop 6 data).symm, List.length_take_of_le hlong⟩
  obtain ⟨init, b, rfl⟩ : ∃ init b, head = init ++ [b] := by
    have hne : head ≠ [] := by
      rintro rfl
      exact absurd hlen (by decide)
    exact ⟨_, _, (List.dropLast_append_getLast hne).symm⟩
  have hinit : init.length < shortMessageHeader := by
    rw [List.length_append, List.length_singleton] at hlen
    rw [shortMessageHeader]
    omega
  rw [frameOf_append (by omega)] at hrefused
  rw [feed_append_head H hphase (Or.inl hinit), Live.head,
    if_neg (by rw [shortMessageHeader]; omega), if_pos hrefused, feed_inl]

/-- The head of a frame that begins. -/
theorem head_eq_begin {l : Live α} {head : Bytes} (hlen : head.length = headLength head)
    (hok : (frameOf head).refused = false) :
  l.head H head = l.begin H head
  := by
  have hbounds := headLength_bounds head
  rw [Live.head, if_neg (by omega), hok, if_neg Bool.false_ne_true, if_neg (by omega)]

/-- The head of a frame that is let in announces less than 2 GiB. -/
theorem announced_lt {l : Live α} (hphase : l.phase = .head []) {init : Bytes} {b : UInt8}
    {rest : Bytes} (hincomplete : Incomplete init)
    (hlen : (init ++ [b]).length = headLength (init ++ [b]))
    (htame : Reader.Tame H (.inr l) (init ++ [b] ++ rest)) :
  announced (init ++ [b]) < 2 ^ 31
  := by
  have hfeed := feed_incomplete H l [] hincomplete
  rw [← hphase, List.nil_append] at hfeed
  rw [List.append_assoc, List.singleton_append] at htame
  have hfits := htame init b rest rfl
  exact Reader.fits_iff.mp hfits _ init hfeed rfl hlen.symm

/-- The loop of the parser reads what is there. -/
theorem parseNext_follows (hlaw : H.Lawful) {fuel : ℕ} {c : Input α} {l : Live α} {data : Bytes}
    (hviews : c.Views data) (hfuel : data.length < fuel) (hphase : l.phase = .head [])
    (hagrees : Agrees c.proto c.session l) (hstate : c.proto.state = .readHead)
    (hspill : c.proto.spill = [] ∨ data ≠ []) (htame : Reader.Tame H (.inr l) data) :
  ∃ c', c.parseNext H fuel = some c' ∧ c'.mem.length = c.mem.length ∧
    Follows H c'.proto c'.session (Reader.feed H (.inr l) data)
  := by
  induction fuel generalizing c l data with
  | zero => exact absurd hfuel (Nat.not_lt_zero _)
  | succ fuel ih =>
      by_cases hshort : data.length < shortMessageHeader
      · have hkeep : c.parseNext H (fuel + 1) = c.keep := by
          rw [Input.parseNext, hviews.length, if_pos hshort]
        rw [hkeep]
        exact keep_follows H hviews (Or.inl hshort) hphase hagrees hstate hspill
      · rw [parseNext_eq H hviews (Nat.le_of_not_lt hshort)]
        by_cases hrefused : (frameOf data).refused = true
        · rw [if_pos hrefused]
          rw [feed_refused H hphase (Nat.le_of_not_lt hshort) hrefused]
          refine ⟨c.forceClose H, rfl, rfl, ?_⟩
          rw [← hagrees.session]
          exact ⟨rfl, hlaw.terminate _⟩
        · rw [if_neg hrefused]
          rw [Bool.not_eq_true] at hrefused
          by_cases hpart : data.length < headLength data
          · rw [if_pos hpart]
            exact keep_follows H hviews (Or.inr ⟨hrefused, hpart⟩) hphase hagrees hstate hspill
          · rw [if_neg hpart]
            obtain ⟨init, b, rest, rfl, hincomplete, hlen, hlen', hannounced, hframe⟩ :=
              complete_head data (Nat.le_of_not_lt hshort) hrefused (Nat.le_of_not_lt hpart)
            rw [← hframe] at hrefused
            obtain ⟨done, hsome, hreads⟩ := consumeMessage_spec H hlaw hviews hlen
              (announced_lt H hphase hincomplete hlen htame) hagrees hstate
            rw [hlen, hlen', hannounced, hframe] at hsome
            have hfeed := feed_append_head H hphase (b := b) hincomplete rest
            rw [head_eq_begin H hlen hrefused] at hfeed
            rw [bind_of_eq hsome, hfeed]
            obtain ⟨_ | _, c'⟩ := done
            · obtain ⟨hmem, payload, rest', l', rfl, hfeed', hphase', hagrees', hviews', hstate',
                hspill'⟩ := hreads
              rw [feed_append, hfeed']
              have hfuel' : rest'.length < fuel := by
                simp only [List.length_append, List.length_singleton] at hfuel
                omega
              have hread : Reader.feed H (.inr l) (init ++ [b]) = l.begin H (init ++ [b]) := by
                have hfeed'' := feed_append_head H hphase (b := b) hincomplete []
                rw [List.append_nil, feed_nil, head_eq_begin H hlen hrefused] at hfeed''
                exact hfeed''
              have htame' := ((tame_append H).mp ((tame_append H).mp htame).2).2
              rw [hread, hfeed'] at htame'
              obtain ⟨c'', hnext, hmem', hfollows⟩ := ih hviews' hfuel' hphase' hagrees' hstate'
                (Or.inl hspill') htame'
              exact ⟨c'', hnext, hmem'.trans hmem, hfollows⟩
            · exact ⟨c', rfl, hreads.1, hreads.2.1⟩

/-! ### Frames that are cut -/

/-- The loop in two parts. -/
theorem xorCopy_add (mask : Mask) (n k i dst src : ℕ) (m : Bytes) :
  xorCopy mask (n + k) i dst src m
    = xorCopy mask n i dst src m >>= xorCopy mask k (i + n) (dst + n) (src + n)
  := by
  induction n generalizing i dst src m with
  | zero => rw [Nat.zero_add, xorCopy]; rfl
  | succ n ih =>
      rw [Nat.succ_add, xorCopy, xorCopy]
      cases m[src]? with
      | none => rfl
      | some b =>
          show (poke m dst _ >>= fun m => _) = (poke m dst _ >>= fun m => _) >>= _
          cases poke m dst (b ^^^ mask (Fin.ofNat 4 i)) with
          | none => rfl
          | some m =>
              show xorCopy mask (n + k) (i + 1) (dst + 1) (src + 1) m
                = xorCopy mask n (i + 1) (dst + 1) (src + 1) m >>= _
              rw [ih, Nat.add_right_comm i, Nat.add_right_comm dst, Nat.add_right_comm src]
              rfl

/-- The mask is the same after four bytes. -/
theorem xorCopy_mul_four (mask : Mask) (n k dst src : ℕ) (m : Bytes) :
  xorCopy mask n (k * 4) dst src m = xorCopy mask n 0 dst src m
  := by
  have hshift : ∀ i, xorCopy mask n (i + k * 4) dst src m = xorCopy mask n i dst src m := by
    induction n generalizing dst src m with
    | zero => exact fun i => rfl
    | succ n ih =>
        intro i
        have hindex : Fin.ofNat 4 (i + k * 4) = Fin.ofNat 4 i := by
          apply Fin.ext
          simp
        rw [xorCopy, xorCopy, hindex, Nat.add_right_comm]
        simp only [ih]
  rw [← hshift 0, Nat.zero_add]

/-- The two copies at the end of a frame are one. -/
theorem unmask_end {m : Bytes} {src n : ℕ} (mask : Mask) (hfit : src + n ≤ m.length) :
  (unmaskInplace m src (src + n / 4 * 4) mask >>=
    xorCopy mask (n % 4) 0 (src + n / 4 * 4) (src + n / 4 * 4))
    = some (m.splice src (unmask mask (m.slice src n)))
  := by
  have hcount : (src + n / 4 * 4 - src + 3) / 4 * 4 = n / 4 * 4 := by omega
  have hsum : n = n / 4 * 4 + n % 4 := by omega
  have hcopy := xorCopy_eq mask n 0 (le_refl src) hfit
  rw [Mask.turn_zero, hsum, xorCopy_add, ← hsum, Nat.zero_add] at hcopy
  rw [unmaskInplace, hcount, ← hcopy]
  congr 1
  funext m'
  rw [xorCopy_mul_four]

/-- The mask is rotated by as many bytes as were read. -/
theorem rotate_eq (mask : Mask) (n : ℕ) :
  (if n % 4 ≠ 0 then rotateMask (4 - n % 4) mask else mask) = mask.turn n
  := by
  split
  case isTrue => exact rotateMask_eq mask n
  case isFalse h =>
    have hzero : Fin.ofNat 4 n = 0 := by
      apply Fin.ext
      simp only [ne_eq, not_not] at h
      simpa using h
    funext j
    rw [Mask.turn, hzero, add_zero]

/-- The last data of a frame that was cut. -/
theorem continuation_end (hlaw : H.Lawful) {c : Input α} {l : Live α} {payload rest : Bytes}
    (hviews : c.Views (payload ++ rest)) (hpos : 0 < payload.length)
    (hstands : c.proto.Stands l.stack (.body payload.length c.proto.mask))
    (hphase : l.phase = .body payload.length c.proto.mask)
    (hagrees : Agrees c.proto c.session l) :
  ∃ done, c.consumeContinuation H = some (!done.1, done.2) ∧
    Reads H c (.inr l) (payload ++ rest) done
  := by
  obtain ⟨hstate, hspill, hremaining, -, -, hstack⟩ := hstands
  have hlen := hviews.length
  have hfits := hviews.fits
  rw [consumePostPadding] at hfits
  rw [List.length_append] at hlen
  have hpayload : c.mem.slice c.src payload.length = payload := by
    have h := hviews.slice (k := 0) (n := payload.length)
      (by rw [List.length_append]; omega)
    rw [add_zero] at h
    rw [h, slice_append_left (by omega), Bytes.slice, List.drop_zero, List.take_length]
  have hrest : c.mem.slice (c.src + payload.length) rest.length = rest := by
    rw [hviews.slice (by rw [List.length_append])]
    exact Bytes.slice_of_eq (c := []) (by rw [List.append_nil]) rfl rfl
  obtain ⟨hdata, hbehind, hsize⟩ := slice_splice_unmask c.mem c.proto.mask (le_refl c.src)
    (by omega : c.src + payload.length ≤ _) (le_refl _)
  have hcopy := unmask_end c.proto.mask (by omega : c.src + payload.length ≤ c.mem.length)
  generalize c.mem.splice c.src (unmask c.proto.mask (c.mem.slice c.src payload.length)) = mem
    at hdata hbehind hsize hcopy
  rw [hpayload] at hdata
  have hread := feed_body H l c.proto.mask (List.ne_nil_of_length_pos hpos) (le_refl _)
  rw [← hphase, Nat.sub_self, data_end] at hread
  have hhandle := handle_eq H (c := { c with mem := mem }) hagrees.stack hstack c.src
    (n := payload.length) (by dsimp only; omega) 0 c.proto.lastFin
  dsimp only at hhandle
  rw [hdata] at hhandle
  have hstop := handleFragment_stopped hlaw l.session (unmask c.proto.mask payload) 0
    (l.stack.headD 0) l.lastFin
  obtain ⟨done, heq⟩ : ∃ done, l.session.handleFragment H (unmask c.proto.mask payload) 0
    (l.stack.headD 0) l.lastFin = done := ⟨_, rfl⟩
  rw [hagrees.session, hagrees.lastFin, heq] at hhandle
  simp only [heq] at hread hstop
  obtain ⟨mem', hwords, hbytes⟩ := Option.bind_eq_some_iff.mp hcopy
  rw [Input.consumeContinuation]
  show ∃ done : Bool × Input α, (if c.proto.remainingBytes ≤ c.length then _ else _)
    = some (!done.1, done.2) ∧ _
  rw [if_pos (by omega), hremaining, bind_of_eq hwords, bind_of_eq hbytes]
  dsimp only
  rw [hagrees.lastFin, hagrees.session, bind_of_eq hhandle]
  dsimp only
  rw [hagrees.lastFin]
  by_cases hdone : done.1 = true
  · rw [if_pos hdone] at hread ⊢
    refine ⟨(true, _), rfl, hsize, ?_, ?_⟩
    · rw [feed_append, hread, feed_inl]
      exact ⟨rfl, hstop hdone⟩
    · exact stays_of_stop H rest (fun data l' hlt hfeed => feed_inside H hphase hlt hfeed) hread
  · rw [if_neg hdone] at hread ⊢
    have hopen := hagrees.stack.pop hstack l.lastFin
    refine ⟨(false, _), rfl, hsize, payload, rest, _, rfl, hread, rfl, ⟨hopen, ?_, rfl⟩,
      ⟨?_, ?_, ?_⟩, rfl, ?_⟩
    · exact (Protocol.pop_lastFin _ _).trans hagrees.lastFin
    · have hleft : c.length - payload.length = rest.length := by omega
      show mem.slice (c.src + payload.length) (c.length - payload.length) = rest
      rw [hleft, hbehind _ _ (le_refl _) (by omega), hrest]
    · show c.length - payload.length = rest.length
      omega
    · show c.src + payload.length + (c.length - payload.length) + consumePostPadding ≤ mem.length
      rw [hsize, consumePostPadding]
      omega
    · exact (Protocol.pop_spill _ _).trans hspill

/-- More data of a frame that was cut, but not all. -/
theorem continuation_part {c : Input α} {l : Live α} {data : Bytes} (hviews : c.Views data)
    (hne : data ≠ []) {remaining : ℕ} (hlt : data.length < remaining)
    (hstands : c.proto.Stands l.stack (.body remaining c.proto.mask))
    (hphase : l.phase = .body remaining c.proto.mask) (hagrees : Agrees c.proto c.session l) :
  ∃ done, c.consumeContinuation H = some (!done.1, done.2) ∧ Reads H c (.inr l) data done
  := by
  obtain ⟨hstate, hspill, hremaining, -, -, hstack⟩ := hstands
  have hlen := hviews.length
  have hfits := hviews.fits
  rw [consumePostPadding] at hfits
  have hcount : (c.src + (c.length / 4 + 1) * 4 - c.src + 3) / 4 * 4 = (c.length / 4 + 1) * 4 := by
    omega
  obtain ⟨hdata, -, hsize⟩ := slice_splice_unmask c.mem c.proto.mask (le_refl c.src)
    (by omega : c.src + (c.length / 4 + 1) * 4 ≤ _) (by omega : c.length ≤ _)
  have hcopy : unmaskInplace c.mem c.src (c.src + (c.length / 4 + 1) * 4) c.proto.mask
      = some (c.mem.splice c.src (unmask c.proto.mask
          (c.mem.slice c.src ((c.length / 4 + 1) * 4)))) := by
    rw [unmaskInplace, hcount, xorCopy_eq _ _ 0 (le_refl _) (by omega), Mask.turn_zero]
  generalize c.mem.splice c.src (unmask c.proto.mask (c.mem.slice c.src ((c.length / 4 + 1) * 4)))
    = mem at hdata hsize hcopy
  rw [hviews.bytes] at hdata
  have hread : Reader.feed H (.inr l) data
      = .inr { l with
          phase := .body (remaining - data.length) (c.proto.mask.turn data.length)
          session := l.after H (unmask c.proto.mask data) (remaining - data.length) } := by
    have hfeed := feed_body H l c.proto.mask hne (Nat.le_of_lt hlt)
    rw [← hphase] at hfeed
    rw [hfeed, data_part H _ _ (by omega)]
  have hpart : remaining - data.length ≠ 0 := by omega
  have hleft : c.proto.remainingBytes - c.length = remaining - data.length := by
    rw [hremaining, hlen]
  have hhandle := handle_eq H (c := ⟨mem, c.src, c.length,
    { c.proto with remainingBytes := c.proto.remainingBytes - c.length }, c.session⟩)
    hagrees.stack hstack c.src (n := c.length) (by dsimp only; omega)
    (c.proto.remainingBytes - c.length) c.proto.lastFin
  dsimp only at hhandle
  rw [hdata, hleft] at hhandle
  have hgo : (c.session.handleFragment H (unmask c.proto.mask data) (remaining - data.length)
      (l.stack.headD 0) c.proto.lastFin).1 = false := by
    rw [handleFragment_part H _ _ hpart]
  rw [Input.consumeContinuation]
  show ∃ done : Bool × Input α, (if c.proto.remainingBytes ≤ c.length then _ else _)
    = some (!done.1, done.2) ∧ _
  rw [if_neg (by omega), bind_of_eq hcopy]
  dsimp only
  rw [hleft, bind_of_eq hhandle]
  dsimp only
  rw [hgo, if_neg Bool.false_ne_true]
  refine ⟨(true, _), rfl, hsize, ?_, ?_⟩
  · rw [hread]
    refine ⟨⟨hstate, hspill, rfl, ?_, by omega, hstack⟩, hagrees.stack, hagrees.lastFin, ?_⟩
    · rw [hlen]
      exact rotate_eq _ _
    · rw [Live.after, ← hagrees.session, ← hagrees.lastFin]
  · intro before after l' bytes heq hfeed
    rw [heq, List.length_append] at hlt
    exact feed_inside H hphase (by omega) hfeed bytes

/-- A frame that was cut goes on. -/
theorem consumeContinuation_reads (hlaw : H.Lawful) {c : Input α} {l : Live α} {data : Bytes}
    (hviews : c.Views data) (hne : data ≠ []) {remaining : ℕ}
    (hstands : c.proto.Stands l.stack (.body remaining c.proto.mask))
    (hphase : l.phase = .body remaining c.proto.mask) (hagrees : Agrees c.proto c.session l) :
  ∃ done, c.consumeContinuation H = some (!done.1, done.2) ∧ Reads H c (.inr l) data done
  := by
  by_cases hlt : data.length < remaining
  · exact continuation_part H hviews hne hlt hstands hphase hagrees
  · have hlen : (data.take remaining).length = remaining :=
      List.length_take_of_le (Nat.le_of_not_lt hlt)
    rw [← List.take_append_drop remaining data] at hviews ⊢
    have hend := continuation_end H hlaw (l := l) hviews
    rw [hlen] at hend
    exact hend hstands.2.2.2.2.1 hstands hphase hagrees

/-! ### The data that arrives -/

/-- No part of an incomplete head is a complete one. -/
theorem tame_incomplete (l : Live α) {bytes : Bytes} (h : Incomplete bytes) :
  Reader.Tame H (.inr { l with phase := .head [] }) bytes
  := by
  intro before b after heq
  rw [Reader.fits_iff]
  intro l' head hl' hphase' hlen
  have hincomplete : Incomplete (before ++ [b]) := by
    rw [heq, ← List.singleton_append, ← List.append_assoc] at h
    exact h.of_append
  have hfeed := feed_incomplete H l [] hincomplete.of_append
  rw [List.nil_append] at hfeed
  have hhead : head = before := by
    have hsame := hfeed.symm.trans hl'
    rw [← Sum.inr.inj hsame] at hphase'
    exact (Phase.head.inj hphase').symm
  rw [hhead] at hlen
  have hbounds := headLength_bounds (before ++ [b])
  rcases hincomplete with hshort | ⟨-, hshort⟩
  · omega
  · omega

/-- A slice in two parts. -/
theorem slice_add (f : Bytes) (pos n k : ℕ) :
  f.slice pos (n + k) = f.slice pos n ++ f.slice (pos + n) k
  := by
  rw [Bytes.slice, Bytes.slice, Bytes.slice, List.take_add, List.drop_drop]

/-- An incomplete head fits in front of the buffer. -/
theorem Incomplete.length_le {bytes : Bytes} (h : Incomplete bytes) :
  bytes.length ≤ consumePrePadding
  := by
  have hbounds := headLength_bounds bytes
  rw [consumePrePadding, longMessageHeader]
  rw [longMessageHeader] at hbounds
  rcases h with h | ⟨-, h⟩
  · rw [shortMessageHeader] at h
    omega
  · omega

/-- What waited is put in front of what arrived. -/
theorem unspill_views {c : Input α} {data : Bytes} (hviews : c.Views data)
    (hspill : c.proto.spill.length ≤ c.src) :
  ∃ c', c.unspill = some c' ∧ c'.Views (c.proto.spill ++ data) ∧ c'.proto = c.proto ∧
    c'.session = c.session ∧ c'.mem.length = c.mem.length
  := by
  have hlen := hviews.length
  have hfits := hviews.fits
  by_cases hnil : c.proto.spill = []
  · refine ⟨c, ?_, ?_, rfl, rfl, rfl⟩
    · rw [Input.unspill, hnil, List.length_nil, if_pos rfl]
    · rw [hnil]
      exact hviews
  · have hpos := List.length_pos_of_ne_nil hnil
    have hsize : (c.mem.splice (c.src - c.proto.spill.length) c.proto.spill).length
        = c.mem.length := by
      rw [Bytes.length_splice hnil]
      omega
    refine ⟨⟨c.mem.splice (c.src - c.proto.spill.length) c.proto.spill,
      c.src - c.proto.spill.length, c.length + c.proto.spill.length, c.proto, c.session⟩, ?_,
      ⟨?_, ?_, ?_⟩, rfl, rfl, hsize⟩
    · rw [Input.unspill, if_neg (by omega), if_pos hspill]
    · have hspilled := Bytes.slice_splice_same c.mem (c.src - c.proto.spill.length) c.proto.spill
      have hrest : (c.mem.splice (c.src - c.proto.spill.length) c.proto.spill).slice c.src c.length
          = c.mem.slice c.src c.length :=
        Bytes.slice_splice_of_disjoint (by omega) (by omega)
      have hback : c.src - c.proto.spill.length + c.proto.spill.length = c.src := by omega
      show Bytes.slice _ (c.src - c.proto.spill.length) (c.length + c.proto.spill.length) = _
      rw [Nat.add_comm c.length, slice_add, hspilled, hback, hrest, hviews.bytes]
    · show c.length + c.proto.spill.length = (c.proto.spill ++ data).length
      rw [List.length_append]
      omega
    · show c.src - c.proto.spill.length + (c.length + c.proto.spill.length) + consumePostPadding
        ≤ (c.mem.splice (c.src - c.proto.spill.length) c.proto.spill).length
      rw [hsize]
      omega

/-- After a frame, the loop reads what is left. -/
theorem parseNext_reads (hlaw : H.Lawful) {c c' : Input α} {r : Reader α} {data : Bytes}
    (hreads : Reads H c r data (false, c')) (htame : r.Tame H data) :
  ∃ c'', c'.parseNext H (c'.length + 1) = some c'' ∧ c''.mem.length = c.mem.length ∧
    Follows H c''.proto c''.session (r.feed H data)
  := by
  obtain ⟨hmem, payload, rest, l, rfl, hfeed, hphase, hagrees, hviews, hstate, hspill⟩ := hreads
  have htame' := ((tame_append H).mp htame).2
  rw [hfeed] at htame'
  have hfuel : rest.length < c'.length + 1 := by
    rw [hviews.length]
    exact Nat.lt_succ_self _
  obtain ⟨c'', hnext, hmem', hfollows⟩ := parseNext_follows H hlaw hviews hfuel hphase hagrees
    hstate (Or.inl hspill) htame'
  refine ⟨c'', hnext, hmem'.trans hmem, ?_⟩
  rw [feed_append, hfeed]
  exact hfollows

/-- `consume` reads what is given to it. -/
theorem consume_follows (hlaw : H.Lawful) {c : Input α} {l : Live α} {data : Bytes}
    (hviews : c.Views data) (hne : data ≠ []) (hsrc : c.src = consumePrePadding)
    (hfollows : Follows H c.proto c.session (.inr l)) (htame : Reader.Tame H (.inr l) data) :
  ∃ c', c.consume H = some c' ∧ c'.mem.length = c.mem.length ∧
    Follows H c'.proto c'.session (Reader.feed H (.inr l) data)
  := by
  obtain ⟨hstands, hagrees⟩ := hfollows
  rw [Input.consume]
  obtain ⟨phase, stack, lastFin, session⟩ := l
  cases phase with
  | head bytes =>
      obtain ⟨hstate, hspill, hincomplete⟩ := hstands
      have hfew : c.proto.spill.length ≤ c.src := by
        rw [hsrc, hspill]
        exact hincomplete.length_le
      obtain ⟨c', hunspill, hviews', hproto, hsession, hmem⟩ := unspill_views hviews hfew
      rw [bind_of_eq hunspill, hproto, if_pos hstate]
      have hstart := feed_incomplete H ⟨.head [], stack, lastFin, session⟩ []
        hincomplete
      rw [hspill] at hviews'
      have hfuel : (bytes ++ data).length < c'.length + 1 := by
        rw [hviews'.length]
        exact Nat.lt_succ_self _
      have htame' : Reader.Tame H (.inr ⟨.head [], stack, lastFin, session⟩) (bytes ++ data) := by
        rw [tame_append]
        refine ⟨tame_incomplete H ⟨.head [], stack, lastFin, session⟩ hincomplete, ?_⟩
        rw [hstart]
        exact htame
      obtain ⟨c'', hnext, hmem', hfollows⟩ := parseNext_follows H hlaw
        (l := ⟨.head [], stack, lastFin, session⟩) hviews' hfuel rfl
        ⟨hproto ▸ hagrees.stack, hproto ▸ hagrees.lastFin, hsession.trans hagrees.session⟩
        (hproto ▸ hstate) (Or.inr (fun h => hne (List.append_eq_nil_iff.mp h).2)) htame'
      refine ⟨c'', hnext, hmem'.trans hmem, ?_⟩
      rw [feed_append, hstart] at hfollows
      exact hfollows
  | body remaining mask =>
      obtain ⟨hstate, hspill, hremaining, rfl, hpos, hstack⟩ := hstands
      have hunspill : c.unspill = some c := by
        rw [Input.unspill, hspill, List.length_nil, if_pos rfl]
      have hbody : ¬ c.proto.state = .readHead := by
        rw [hstate]
        decide
      rw [bind_of_eq hunspill, if_neg hbody]
      obtain ⟨⟨done, c'⟩, hcontinue, hreads⟩ := consumeContinuation_reads H hlaw hviews hne
        ⟨hstate, hspill, hremaining, rfl, hpos, hstack⟩ rfl hagrees
      rw [bind_of_eq hcontinue]
      cases done with
      | true => exact ⟨c', rfl, hreads.1, hreads.2.1⟩
      | false => exact parseNext_reads H hlaw hreads htame

/-! ### Any pieces -/

/-- The hub and a socket are as a reader is. -/
structure Receiver.Follows (c : Receiver α) (r : Reader α) : Prop where
  mem : c.mem.length = consumePrePadding + recvLength + consumePostPadding
  follows : WebSocket.Follows H c.proto c.session r
  going : r.Going H

/-- A socket whose reader goes on has not stopped. -/
theorem Receiver.Follows.not_stopped {c : Receiver α} {l : Live α} (hc : c.Follows H (.inr l)) :
  H.stopped c.session.app = false
  := by
  rw [hc.follows.2.session]
  exact hc.going l rfl

/-- Data that arrives is put in the buffer of the hub. -/
theorem Receiver.Follows.views {c : Receiver α} {r : Reader α} {data : Bytes} (hc : c.Follows H r)
    (hne : data ≠ []) (hle : data.length ≤ recvLength) :
  Input.Views ⟨c.mem.splice consumePrePadding data, consumePrePadding, data.length, c.proto,
    c.session⟩ data ∧ (c.mem.splice consumePrePadding data).length = c.mem.length
  := by
  have hmem := hc.mem
  have hsize : (c.mem.splice consumePrePadding data).length = c.mem.length := by
    rw [Bytes.length_splice hne]
    omega
  refine ⟨⟨Bytes.slice_splice_same _ _ _, rfl, ?_⟩, hsize⟩
  dsimp only
  rw [hsize]
  omega

/-- A piece of data. -/
theorem onData_follows (hlaw : H.Lawful) {c : Receiver α} {r : Reader α} {data : Bytes}
    (hc : c.Follows H r) (hne : data ≠ []) (hle : data.length ≤ recvLength)
    (htame : r.Tame H data) :
  ∃ c', c.onData H data = some c' ∧ c'.Follows H (r.feed H data)
  := by
  have hgoing := feed_going H r hc.going data
  cases r with
  | inl app =>
      obtain ⟨rfl, hstop⟩ := hc.follows
      rw [Receiver.onData, if_pos hstop, feed_inl]
      exact ⟨c, rfl, hc⟩
  | inr l =>
      obtain ⟨hviews, hsize⟩ := hc.views H hne hle
      obtain ⟨c', hconsume, hmem', hfollows⟩ := consume_follows H hlaw hviews hne rfl hc.follows
        htame
      rw [Receiver.onData, hc.not_stopped H, if_neg Bool.false_ne_true]
      dsimp only
      rw [bind_of_eq hconsume]
      exact ⟨_, rfl, (hmem'.trans hsize).trans hc.mem, hfollows, hgoing⟩

/-- However the bytes are cut, the parser does what the reader does, and touches no byte outside
of its arrays. -/
theorem onPieces_follows (hlaw : H.Lawful) {c : Receiver α} {r : Reader α} {pieces : List Bytes}
    (hc : c.Follows H r) (hpieces : ∀ data ∈ pieces, data ≠ [] ∧ data.length ≤ recvLength)
    (htame : r.Tame H pieces.flatten) :
  ∃ c', c.onPieces H pieces = some c' ∧ c'.Follows H (r.feed H pieces.flatten)
  := by
  induction pieces generalizing c r with
  | nil => exact ⟨c, rfl, hc⟩
  | cons data pieces ih =>
      obtain ⟨⟨hne, hle⟩, hrest⟩ := List.forall_mem_cons.mp hpieces
      rw [List.flatten_cons, tame_append] at htame
      obtain ⟨c', hdata, hc'⟩ := onData_follows H hlaw hc hne hle htame.1
      obtain ⟨c'', hrest', hc''⟩ := ih hc' hrest htame.2
      rw [Receiver.onPieces, List.foldlM_cons, bind_of_eq hdata, List.flatten_cons, feed_append]
      exact ⟨c'', hrest', hc''⟩

/-- A new socket at a hub. -/
def Receiver.new (mem : Bytes) (app : α) : Receiver α := ⟨mem, .new, ⟨[], [], app⟩⟩

/-- At the start. -/
theorem new_follows {mem : Bytes} {app : α}
    (hmem : mem.length = consumePrePadding + recvLength + consumePostPadding)
    (hgo : H.stopped app = false) :
  (Receiver.new mem app).Follows H (Reader.new app)
  := by
  refine ⟨hmem, ⟨⟨rfl, rfl, Or.inl (by decide)⟩, rfl, rfl, rfl⟩, ?_⟩
  rintro _ ⟨⟩
  exact hgo

/-- The application is that of the reader. -/
theorem Receiver.Follows.app_eq {c : Receiver α} {r : Reader α} (h : c.Follows H r) :
  c.session.app = r.app
  := by
  have hfollows := h.follows
  cases r with
  | inl app => exact hfollows.1
  | inr l =>
      rw [hfollows.2.session]
      rfl

/-- A new socket handles the bytes that arrive as a reader does, in whatever pieces they arrive, and
no byte outside of an array is touched. -/
theorem onPieces_eq_reader (hlaw : H.Lawful) {mem : Bytes} {app : α} {pieces : List Bytes}
    (hmem : mem.length = consumePrePadding + recvLength + consumePostPadding)
    (hgo : H.stopped app = false)
    (hpieces : ∀ data ∈ pieces, data ≠ [] ∧ data.length ≤ recvLength)
    (htame : (Reader.new app).Tame H pieces.flatten) :
  ∃ c, (Receiver.new mem app).onPieces H pieces = some c ∧
    c.session.app = ((Reader.new app).feed H pieces.flatten).app
  := by
  obtain ⟨c, hsome, hc⟩ := onPieces_follows H hlaw (new_follows H hmem hgo) hpieces htame
  exact ⟨c, hsome, hc.app_eq⟩

/-- Handlers that keep the messages in a list. -/
def recorder : Handlers (List (OpCode × Bytes) × Bool) where
  message app op data := (app.1 ++ [(op, data)], app.2)
  ping app _ := app
  pong app _ := app
  close app _ := (app.1, true)
  terminate app := (app.1, true)
  stopped app := app.2

/-- The recorder does what handlers do. -/
theorem recorder_lawful :
  recorder.Lawful
  := ⟨fun _ => rfl, fun _ _ => rfl⟩

/-- The text `hi` in two frames, in three pieces. -/
theorem onPieces_eq_reader_hi :
  ∃ c, (Receiver.new (List.replicate 307200 0) ([], false)).onPieces recorder
      [[0x01, 0x81, 0, 0], [0, 0, 104, 0x80, 0x81, 1], [2, 3, 4, 104]] = some c ∧
    c.session.app = ((Reader.new ([], false)).feed recorder
      [0x01, 0x81, 0, 0, 0, 0, 104, 0x80, 0x81, 1, 2, 3, 4, 104]).app
  := by
  apply onPieces_eq_reader recorder recorder_lawful List.length_replicate rfl
  · decide
  · decide

/-- Whatever bytes arrive in whatever pieces, a condition that the handlers keep holds of what they
have made of the socket. -/
theorem onPieces_kept (hlaw : H.Lawful) {P : α → Prop} (hkeep : H.Keep P) {mem : Bytes} {app : α}
    {pieces : List Bytes} (hP : P app)
    (hmem : mem.length = consumePrePadding + recvLength + consumePostPadding)
    (hgo : H.stopped app = false)
    (hpieces : ∀ data ∈ pieces, data ≠ [] ∧ data.length ≤ recvLength)
    (htame : (Reader.new app).Tame H pieces.flatten) :
  ∃ c, (Receiver.new mem app).onPieces H pieces = some c ∧ P c.session.app
  := by
  obtain ⟨c, hsome, happ⟩ := onPieces_eq_reader H hlaw hmem hgo hpieces htame
  refine ⟨c, hsome, ?_⟩
  rw [happ]
  exact feed_kept hkeep hP _

/-- The texts that were kept are texts. -/
theorem recorder_keep :
  recorder.Keep fun app => ∀ m ∈ app.1, m.1 = .text → IsText m.2
  := by
  constructor
  case message =>
    intro app op data h htext m hm
    obtain hm | hm := List.mem_append.mp hm
    · exact h m hm
    · rw [List.mem_singleton.mp hm]
      exact htext
  case ping => exact fun app data h _ => h
  case pong => exact fun app data h _ => h
  case close => exact fun app frame h _ => h
  case terminate => exact fun app h => h

/-- A text in two frames, with a ping between them, in three pieces. -/
theorem onPieces_kept_hi :
  ∃ c, (Receiver.new (List.replicate 307200 0) ([], false)).onPieces recorder
      [[0x01, 0x81, 0, 0], [0, 0, 104, 0x80, 0x81, 1], [2, 3, 4, 104]] = some c ∧
    ∀ m ∈ c.session.app.1, m.1 = .text → IsText m.2
  := by
  apply onPieces_kept recorder recorder_lawful recorder_keep
  · exact fun m h => absurd h List.not_mem_nil
  · exact List.length_replicate
  · rfl
  · decide
  · decide

/-! ### Lengths that the parser cannot count -/

/-- The loop would read outside the memory. -/
theorem xorCopy_none {mask : Mask} {n i dst src : ℕ} {m : Bytes} (hpos : 0 < n)
    (hlt : m.length < src + n) :
  xorCopy mask n i dst src m = none
  := by
  induction n generalizing i dst src m with
  | zero => exact absurd hpos (Nat.lt_irrefl 0)
  | succ n ih =>
      rw [xorCopy]
      by_cases hsrc : src < m.length
      · rw [List.getElem?_eq_getElem hsrc]
        show (poke m dst _ >>= fun m => _) = none
        by_cases hdst : dst < m.length
        · rw [poke, if_pos hdst]
          apply ih
          · omega
          · rw [List.length_set]
            omega
        · rw [poke, if_neg hdst]
          rfl
      · rw [List.getElem?_eq_none (by omega)]
        rfl

/-- A length of 2 GiB or more is negative as a signed number. -/
theorem intOf_neg {n : ℕ} (h : 2 ^ 31 ≤ n % 2 ^ 32) :
  intOf n < 0
  := by
  rw [intOf, UInt32.toInt32, Int32.toInt]
  show (BitVec.ofNat 32 n).toInt < 0
  rw [BitVec.toInt_neg_iff, BitVec.toNat_ofNat]
  omega

/-- The head of a frame that is accepted where the reader is, and that announces from 2 GiB on. -/
structure Live.Overflows (l : Live α) (head : Bytes) : Prop where
  complete : head.length = headLength head
  accepted : (frameOf head).refused = false
  opened : l.opened (frameOf head).opCode ≠ none
  big : 2 ^ 31 ≤ announced head % 2 ^ 32

/-- Such a frame makes the parser leave its buffer. -/
theorem consumeMessage_leaves {c : Input α} {l : Live α} {head rest : Bytes}
    (hviews : c.Views (head ++ rest)) (hagrees : Agrees c.proto c.session l)
    (hmem : c.mem.length < 2 ^ 31) (hover : l.Overflows head) :
  c.consumeMessage H head.length (announced head) (frameOf head) = none
  := by
  have hbig := hover.big
  have hlen := hviews.length
  rw [List.length_append] at hlen
  have hneg := intOf_neg hbig
  obtain ⟨hnone, -⟩ | ⟨stack, i, codes, -, -, hbegin, -⟩ :=
    begin_eq hagrees (frameOf head).opCode
  · exact absurd hnone hover.opened
  · rw [Input.consumeMessage, bind_of_eq hbegin]
    show (if refusePayloadLength (intOf (announced head)) = true then _ else _) = _
    have hrefuse : ¬ intOf (announced head) > 16777216 := by omega
    have hfits : intOf (announced head) ≤ (c.length : ℤ) - head.length := by omega
    rw [refusePayloadLength, if_neg (by simpa using hrefuse), if_pos hfits, Input.whole]
    cases peek c.mem (c.src + head.length - 4) 4 with
    | none => rfl
    | some key =>
        show (unmaskImprecise _ _ _ _ (announced head % 2 ^ 32) >>= fun mem => _) = none
        rw [unmaskImprecise, xorCopy_none (by omega) (by dsimp only; omega)]
        rfl

/-- The reader stops there. -/
theorem feed_overflows {r : Reader α} {before init : Bytes} {b : UInt8} {l : Live α}
    (hread : r.feed H before = .inr l) (hphase : l.phase = .head init)
    (hover : l.Overflows (init ++ [b])) (after : Bytes) :
  r.feed H (before ++ b :: after) = .inl (H.terminate l.session.app)
  := by
  have hbyte : Reader.byte H (.inr l) b = l.begin H (init ++ [b]) := by
    rw [Reader.byte, hphase]
    exact head_eq_begin H hover.complete hover.accepted
  have hbig : announced (init ++ [b]) > 16777216 := by
    have hmod := Nat.mod_le (announced (init ++ [b])) (2 ^ 32)
    have hannounced := hover.big
    omega
  obtain ⟨stack, hopened⟩ := Option.ne_none_iff_exists'.mp hover.opened
  have hbegin : l.begin H (init ++ [b]) = .inl (H.terminate l.session.app) := by
    rw [Live.begin]
    dsimp only
    rw [hopened]
    dsimp only
    rw [if_pos hbig]
  rw [feed_append, hread, feed_cons, hbyte, hbegin, feed_inl]

/-- What was read of a frame ends before the next head that announces too much. -/
theorem Reads.before {c c' : Input α} {r : Reader α} {data before after init : Bytes} {b : UInt8}
    {l : Live α} {done : Bool} (h : Reads H c r data (done, c')) (hdata : data = before ++ b :: after)
    (hread : r.feed H before = .inr l) (hphase : l.phase = .head init)
    (hover : l.Overflows (init ++ [b])) :
  done = false ∧ c'.mem.length = c.mem.length ∧ ∃ payload before' l', before = payload ++ before' ∧
    r.feed H payload = .inr l' ∧ l'.phase = .head [] ∧ Agrees c'.proto c'.session l' ∧
    c'.Views (before' ++ b :: after) ∧ c'.proto.state = .readHead
  := by
  cases done with
  | true =>
      obtain ⟨-, -, hstays⟩ := h
      exact absurd hphase (hstays before (b :: after) l init hdata hread)
  | false =>
      obtain ⟨hmem, payload, rest, l', heq, hfeed, hphase', hagrees, hviews, hstate, -⟩ := h
      refine ⟨rfl, hmem, ?_⟩
      obtain ⟨more, rfl, hrest⟩ | ⟨more, rfl, hrest⟩ :=
        List.append_eq_append_iff.mp (hdata.symm.trans heq)
      · -- the frame would not end before the head is there, but the reader stops at it
        cases more with
        | nil =>
            rw [List.append_nil] at hfeed
            refine ⟨before, [], l', (List.append_nil _).symm, hfeed, hphase', hagrees, ?_, hstate⟩
            rw [List.nil_append] at hrest ⊢
            rw [hrest]
            exact hviews
        | cons b' more =>
            obtain ⟨rfl, -⟩ := List.cons_eq_cons.mp hrest
            rw [feed_overflows H hread hphase hover] at hfeed
            cases hfeed
      · refine ⟨payload, more, l', rfl, hfeed, hphase', hagrees, ?_, hstate⟩
        rw [hrest] at hviews
        exact hviews

/-- The loop of the parser leaves the buffer as soon as it comes to such a head. -/
theorem parseNext_leaves (hlaw : H.Lawful) {fuel : ℕ} {c : Input α} {l l' : Live α}
    {before after init : Bytes} {b : UInt8} (hviews : c.Views (before ++ b :: after))
    (hphase : l.phase = .head []) (hagrees : Agrees c.proto c.session l)
    (hstate : c.proto.state = .readHead) (hmem : c.mem.length < 2 ^ 31)
    (htame : Reader.Tame H (.inr l) before) (hread : Reader.feed H (.inr l) before = .inr l')
    (hphase' : l'.phase = .head init) (hover : l'.Overflows (init ++ [b])) :
  c.parseNext H fuel = none
  := by
  induction fuel generalizing c l before with
  | zero => rfl
  | succ fuel ih =>
      have hbounds := headLength_bounds (init ++ [b])
      rw [shortMessageHeader, ← hover.complete] at hbounds
      by_cases hincomplete : Incomplete before
      · -- it is the first head
        have hfeed := feed_incomplete H l [] hincomplete
        rw [← hphase, List.nil_append] at hfeed
        obtain rfl := Sum.inr.inj (hfeed.symm.trans hread)
        obtain rfl := Phase.head.inj hphase'
        have hover' : l.Overflows (before ++ [b]) :=
          ⟨hover.complete, hover.accepted, hover.opened, hover.big⟩
        rw [List.append_cons] at hviews
        rw [parseNext_eq H hviews (by rw [shortMessageHeader, List.length_append]; omega),
          frameOf_append (by omega), hover.accepted, if_neg Bool.false_ne_true,
          headLength_append (by omega), ← hover.complete,
          if_neg (by rw [List.length_append]; omega),
          announced_append (by omega) (le_of_eq hover.complete.symm),
          consumeMessage_leaves H hviews hagrees hmem hover']
        rfl
      · rw [Incomplete, not_or] at hincomplete
        obtain ⟨hlong, hmore⟩ := hincomplete
        by_cases hrefused : (frameOf before).refused = true
        · rw [feed_refused H hphase (Nat.le_of_not_lt hlong) hrefused] at hread
          cases hread
        · rw [Bool.not_eq_true] at hrefused
          have hthere := Nat.le_of_not_lt fun hlt => hmore ⟨hrefused, hlt⟩
          obtain ⟨init₀, b₀, before', rfl, hincomplete₀, hlen, hlen', hannounced, hframe⟩ :=
            complete_head before (Nat.le_of_not_lt hlong) hrefused hthere
          have hbounds₀ := headLength_bounds (init₀ ++ [b₀])
          rw [shortMessageHeader, ← hlen] at hbounds₀
          rw [← hframe] at hrefused
          rw [List.append_assoc (init₀ ++ [b₀])] at hviews
          rw [feed_append_head H hphase hincomplete₀, head_eq_begin H hlen hrefused] at hread
          obtain ⟨⟨done, c'⟩, hsome, hreads⟩ := consumeMessage_spec H hlaw hviews hlen
            (announced_lt H hphase hincomplete₀ hlen htame) hagrees hstate
          obtain ⟨rfl, hmem', payload, before'', l'', rfl, hfeed, hphase'', hagrees', hviews',
            hstate'⟩ := hreads.before H rfl hread hphase' hover
          rw [parseNext_eq H hviews (by rw [shortMessageHeader, List.length_append]; omega),
            frameOf_append (by omega), hrefused, if_neg Bool.false_ne_true,
            headLength_append (by omega), ← hlen, if_neg (by rw [List.length_append]; omega),
            announced_append (by omega) (le_of_eq hlen.symm), bind_of_eq hsome]
          -- behind the first frame the loop goes on
          have hfirst : Reader.feed H (.inr l) (init₀ ++ [b₀]) = l.begin H (init₀ ++ [b₀]) := by
            have hfeed' := feed_append_head H hphase (b := b₀) hincomplete₀ []
            rw [List.append_nil, feed_nil, head_eq_begin H hlen hrefused] at hfeed'
            exact hfeed'
          have htame' := ((tame_append H).mp ((tame_append H).mp htame).2).2
          rw [hfirst, hfeed] at htame'
          rw [feed_append, hfeed] at hread
          exact ih hviews' hphase'' hagrees' hstate' (hmem' ▸ hmem) htame' hread

/-- `consume` leaves the buffer as soon as it comes to such a head. -/
theorem consume_leaves (hlaw : H.Lawful) {c : Input α} {l l' : Live α} {before after init : Bytes}
    {b : UInt8} (hviews : c.Views (before ++ b :: after)) (hsrc : c.src = consumePrePadding)
    (hmem : c.mem.length < 2 ^ 31) (hfollows : Follows H c.proto c.session (.inr l))
    (htame : Reader.Tame H (.inr l) before) (hread : Reader.feed H (.inr l) before = .inr l')
    (hphase : l'.phase = .head init) (hover : l'.Overflows (init ++ [b])) :
  c.consume H = none
  := by
  obtain ⟨hstands, hagrees⟩ := hfollows
  rw [Input.consume]
  obtain ⟨phase, stack, lastFin, session⟩ := l
  cases phase with
  | head bytes =>
      obtain ⟨hstate, hspill, hincomplete⟩ := hstands
      have hfew : c.proto.spill.length ≤ c.src := by
        rw [hsrc, hspill]
        exact hincomplete.length_le
      obtain ⟨c', hunspill, hviews', hproto, hsession, hmem'⟩ := unspill_views hviews hfew
      rw [hspill, ← List.append_assoc] at hviews'
      have hstart := feed_incomplete H ⟨.head [], stack, lastFin, session⟩ [] hincomplete
      rw [List.nil_append] at hstart
      have htame' : Reader.Tame H (.inr ⟨.head [], stack, lastFin, session⟩) (bytes ++ before) := by
        rw [tame_append]
        refine ⟨tame_incomplete H ⟨.head [], stack, lastFin, session⟩ hincomplete, ?_⟩
        rw [hstart]
        exact htame
      have hread' : Reader.feed H (.inr ⟨.head [], stack, lastFin, session⟩) (bytes ++ before)
          = .inr l' := by
        rw [feed_append, hstart]
        exact hread
      rw [bind_of_eq hunspill, hproto, if_pos hstate]
      exact parseNext_leaves H hlaw (l := ⟨.head [], stack, lastFin, session⟩) hviews' rfl
        ⟨hproto ▸ hagrees.stack, hproto ▸ hagrees.lastFin, hsession.trans hagrees.session⟩
        (hproto ▸ hstate) (hmem' ▸ hmem) htame' hread' hphase hover
  | body remaining mask =>
      obtain ⟨hstate, hspill, hremaining, rfl, hpos, hstack⟩ := hstands
      have hunspill : c.unspill = some c := by
        rw [Input.unspill, hspill, List.length_nil, if_pos rfl]
      have hbody : ¬ c.proto.state = .readHead := by
        rw [hstate]
        decide
      obtain ⟨⟨done, c'⟩, hcontinue, hreads⟩ := consumeContinuation_reads H hlaw hviews
        (List.append_ne_nil_of_right_ne_nil _ (List.cons_ne_nil _ _))
        ⟨hstate, hspill, hremaining, rfl, hpos, hstack⟩ rfl hagrees
      obtain ⟨rfl, hmem', payload, before', l₁, rfl, hfeed, hphase₁, hagrees', hviews', hstate'⟩ :=
        hreads.before H rfl hread hphase hover
      have htame' := ((tame_append H).mp htame).2
      rw [hfeed] at htame'
      rw [feed_append, hfeed] at hread
      rw [bind_of_eq hunspill, if_neg hbody, bind_of_eq hcontinue]
      exact parseNext_leaves H hlaw hviews' hphase₁ hagrees' hstate' (hmem' ▸ hmem) htame' hread
        hphase hover

/-- Whatever came before, in the same data or in earlier data, such a frame makes the parser leave its
buffer as soon as its head is there. -/
theorem onData_leaves (hlaw : H.Lawful) {c : Receiver α} {r : Reader α} {l : Live α}
    {before after init : Bytes} {b : UInt8} (hc : c.Follows H r) (htame : r.Tame H before)
    (hread : r.feed H before = .inr l) (hphase : l.phase = .head init)
    (hover : l.Overflows (init ++ [b])) (hle : (before ++ b :: after).length ≤ recvLength) :
  c.onData H (before ++ b :: after) = none
  := by
  cases r with
  | inl app =>
      rw [feed_inl] at hread
      cases hread
  | inr l₀ =>
      obtain ⟨hviews, hsize⟩ := hc.views H
        (List.append_ne_nil_of_right_ne_nil before (List.cons_ne_nil b after)) hle
      have hleaves := consume_leaves H hlaw hviews rfl
        (by dsimp only; rw [hsize, hc.mem]; decide) hc.follows htame hread hphase hover
      rw [Receiver.onData, hc.not_stopped H, if_neg Bool.false_ne_true]
      dsimp only
      rw [hleaves]
      rfl

/-- A frame without data, and behind it the head of one that announces 2 GiB. -/
theorem onData_leaves_2GiB :
  (Receiver.new (List.replicate 307200 0) ([], false)).onData recorder
    ([0x82, 0x80, 1, 2, 3, 4, 0x82, 0xff, 0, 0, 0, 0, 0x80, 0, 0, 0, 1, 2, 3] ++ [4]) = none
  := by
  have hnew : Receiver.Follows recorder (Receiver.new (List.replicate 307200 0) ([], false))
    (Reader.new ([], false)) := new_follows recorder List.length_replicate rfl
  apply onData_leaves recorder recorder_lawful hnew
  · decide
  · rfl
  · rfl
  · exact ⟨by decide, by decide, by decide, by decide⟩
  · decide

end WebSocket

end Owop
