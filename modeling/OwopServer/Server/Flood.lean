import OwopServer.Server.Lives
import OwopServer.Server.Worlds

/-!
# Texts in a time

A client that stays connected sends only so many texts that are limited.  Each of them takes a
token, which comes back with time, or a warning, which does not.  Time and tokens are exact numbers,
as in `Bucket.canSpend`; with those of type `float` one more text may pass.
-/

namespace Owop

open Bytes (ofString)

namespace Bucket

variable {b : Bucket}

/-- Right after a call, a bucket holds what it was left with. -/
theorem Sound.level_self (h : b.Sound) {now : ℚ} (hnow : b.lastCheck = now) :
  b.level now = b.allowance
  := by
  rw [level, hnow, sub_self, zero_mul, add_zero, min_eq_right h.le_rate]

/-- What a bucket gains in time. -/
theorem level_later (b : Bucket) {now later : ℚ} (hle : now ≤ later) :
  b.level later ≤ b.level now + (later - now) * b.speed
  := by
  have hgain : 0 ≤ (later - now) * b.speed := mul_nonneg (sub_nonneg.mpr hle) b.speed_nonneg
  by_cases hfull : (b.rate.toNat : ℚ) ≤ b.allowance + (now - b.lastCheck) * b.speed
  · have hnow : b.level now = b.rate.toNat := min_eq_left hfull
    have hlater := b.level_le_rate later
    linarith
  · have hnow : b.level now = b.allowance + (now - b.lastCheck) * b.speed :=
      min_eq_right (not_le.mp hfull).le
    calc b.level later
      _ ≤ b.allowance + (later - b.lastCheck) * b.speed := b.level_le later
      _ = b.level now + (later - now) * b.speed := by rw [hnow]; ring

end Bucket

/-! ### Clients -/

namespace Client

variable {cl cl' : Client} {now now' : ℚ}

/-- The warnings of a client, less the texts that it may send at once. -/
def debt (now : ℚ) (cl : Client) : ℚ := cl.penalty.toNat - cl.chatlimit.level now

/-- A client that has not been warned too often, with the limit of the texts of all clients. -/
structure Fair (now : ℚ) (cl : Client) : Prop where
  penalty : cl.penalty.toNat ≤ clientMaxWarnLevel
  rate : cl.chatlimit.rate = 34
  per : cl.chatlimit.per = 44
  sound : cl.chatlimit.Sound
  lastCheck : cl.chatlimit.lastCheck ≤ now

/-- A debt is at least that of a client that may send 34 texts at once. -/
theorem Fair.le_debt (h : cl.Fair now) :
  -34 ≤ cl.debt now
  := by
  have hlevel := cl.chatlimit.level_le_rate now
  have hrate : (cl.chatlimit.rate.toNat : ℚ) = 34 := by
    rw [h.rate]
    rfl
  have hpenalty : (0 : ℚ) ≤ cl.penalty.toNat := Nat.cast_nonneg _
  rw [debt]
  linarith

/-- A debt is at most the warnings that a client may get. -/
theorem Fair.debt_le (h : cl.Fair now) :
  cl.debt now ≤ 128
  := by
  have hlevel := h.sound.level_nonneg h.lastCheck
  have hpenalty : (cl.penalty.toNat : ℚ) ≤ 128 := by
    exact_mod_cast h.penalty
  rw [debt]
  linarith

/-- The same warnings and limit at a later time. -/
theorem Fair.later (h : cl.Fair now) (hle : now ≤ now') (hpenalty : cl'.penalty = cl.penalty)
    (hlimit : cl'.chatlimit = cl.chatlimit) :
  cl'.Fair now' ∧ cl.debt now ≤ cl'.debt now' + (now' - now) * (34 / 44)
  := by
  constructor
  case left =>
    constructor
    case penalty =>
      rw [hpenalty]
      exact h.penalty
    all_goals rw [hlimit]
    case rate => exact h.rate
    case per => exact h.per
    case sound => exact h.sound
    case lastCheck => exact h.lastCheck.trans hle
  case right =>
    have hspeed : cl.chatlimit.speed = 34 / 44 := by
      rw [Bucket.speed, h.rate, h.per]
      rfl
    have hlevel := cl.chatlimit.level_later hle
    rw [hspeed] at hlevel
    rw [debt, debt, hpenalty, hlimit]
    linarith

/-- A limited text adds to the debt. -/
theorem Fair.texts (h : cl.Fair now) (htexts : cl.Texts now cl') :
  cl'.Fair now ∧ cl.debt now + 1 ≤ cl'.debt now
  := by
  obtain ⟨hlimit, hspent⟩ := htexts
  obtain ⟨hrate, hper, hcheck⟩ := cl.chatlimit.rate_canSpend now 1
  have hsound := h.sound.canSpend h.lastCheck 1
  have hlevel' := hsound.level_self hcheck
  rw [← hlimit] at hrate hper hcheck hsound hlevel'
  have hless : cl'.chatlimit.allowance ≤ cl.chatlimit.level now := by
    rw [hlimit, Bucket.canSpend_eq]
    split
    · exact le_refl _
    · exact sub_le_self _ (Nat.cast_nonneg _)
  have hfair : cl'.penalty.toNat ≤ clientMaxWarnLevel → cl'.Fair now := fun hpenalty =>
    ⟨hpenalty, hrate.trans h.rate, hper.trans h.per, hsound, le_of_eq hcheck⟩
  obtain ⟨hpenalty, hcan⟩ | ⟨hpenalty, hle⟩ := hspent
  · -- a token was taken
    refine ⟨hfair (by rw [hpenalty]; exact h.penalty), ?_⟩
    have htaken : cl'.chatlimit.allowance = cl.chatlimit.level now - 1 := by
      rw [hlimit, Bucket.canSpend_eq]
      rw [Bucket.canSpend_eq] at hcan
      split
      case isTrue hfew =>
        rw [if_pos hfew] at hcan
        cases hcan
      case isFalse =>
        rw [UInt16.toNat_one, Nat.cast_one]
    rw [debt, debt, hlevel', hpenalty, htaken]
    linarith
  · -- the client was warned
    refine ⟨hfair (by rw [hpenalty]; exact hle), ?_⟩
    have hsum : ((cl.penalty + 1).toNat : ℚ) = cl.penalty.toNat + 1 := by
      have hsmall := h.penalty
      rw [clientMaxWarnLevel] at hsmall
      rw [UInt16.toNat_add, UInt16.toNat_one, Nat.mod_eq_of_lt (by omega), Nat.cast_add,
        Nat.cast_one]
    rw [debt, debt, hlevel', hpenalty, hsum]
    linarith

/-- A new client. -/
theorem fair_new (hnow : 0 ≤ now) (hpenalty : cl'.penalty = 0)
    (hlimit : cl'.chatlimit = Bucket.new 34 44) :
  cl'.Fair now
  := by
  obtain ⟨hsound, hcheck⟩ := Bucket.sound_of_constructed (b := Bucket.new 34 44)
    (List.mem_cons_of_mem _ (List.mem_cons_of_mem _ List.mem_cons_self))
  rw [← hlimit] at hsound hcheck
  refine ⟨?_, by rw [hlimit]; rfl, by rw [hlimit]; rfl, hsound, hcheck.trans_le hnow⟩
  rw [hpenalty]
  exact Nat.zero_le _

end Client

/-! ### Runs -/

namespace Server

variable [Platform] {s : Server} {ws : Ws} {cl cl' : Client}

/-- The event is a text on the connection that the server takes and limits. -/
def chats (s : Server) (ws : Ws) : Event → Bool
  | .message ws' oc msg p wp =>
      decide (ws' = ws ∧ s.exited = false ∧ s.clients p = none ∧ s.objs wp = none ∧
          oc ≠ .binary ∧ msg.length > 1 ∧ msg.getD (msg.length - 1) 0 = 10) &&
        (s.clientOf ws).any fun cl => limited cl msg
  | _ => false

/-- How many limited texts on a connection there are in a run. -/
def texts (ws : Ws) : Server → List Event → ℕ
  | _, [] => 0
  | s, e :: events => (if s.chats ws e then 1 else 0) + texts ws (s.step e) events

/-- A text of a client counts for it. -/
theorem texts_step (hc : s.Consistent) {e : Event} (h : s.chats ws e = true)
    (hcl' : (s.step e).clientOf ws = some cl') :
  ∃ cl, s.clientOf ws = some cl ∧ cl.Texts s.clock cl'
  := by
  cases e with
  | message ws' oc msg p wp =>
      rw [chats, Bool.and_eq_true, decide_eq_true_iff] at h
      obtain ⟨⟨rfl, hexited, hp, hwp, hop, hends⟩, hany⟩ := h
      obtain ⟨cl, hcl, hlimited⟩ := (Option.any_eq_true _ _).mp hany
      obtain ⟨si, player, hsi, hplayer, hclient⟩ := clientOf_eq_some.mp hcl
      obtain ⟨cl₀, hlive, -⟩ := hc.live_of_player hsi hplayer
      obtain rfl : cl₀ = cl := Option.some.inj (hlive.1.symm.trans hclient)
      have hthere : (s.infos ws').isSome ∧ s.clients p = none ∧ s.objs wp = none :=
        ⟨by rw [hsi]; rfl, hp, hwp⟩
      have hstep : s.step (.message ws' oc msg p wp) = s.onText player cl₀ msg := by
        rw [step, hexited, if_neg Bool.false_ne_true, if_pos hthere, onMessage, withInfo_eq _ hsi,
          hplayer]
        dsimp only
        rw [withClient_eq _ hclient, if_neg hop, if_pos hends]
      rw [hstep] at hcl'
      exact ⟨cl₀, hcl, clientOf_limited hc hsi hplayer hlive hlimited hcl'⟩
  | connect | disconnect | save | tick | callback | quit | advance | rehash => cases h

/-- The clients of all connections are fair. -/
def Fair (s : Server) : Prop :=
  0 ≤ s.clock ∧ ∀ ws cl, s.clientOf ws = some cl → cl.Fair s.clock

/-- Any event. -/
theorem Fair.step (h : s.Fair) (hc : s.Consistent) (e : Event) :
  (s.step e).Fair
  := by
  have hstep := step_lasts (n := 0) hc (Nat.zero_le _) e
  refine ⟨h.1.trans hstep.clock, fun ws cl' hcl' => ?_⟩
  obtain ⟨cl, hcl, hpenalty, hlimit⟩ | ⟨cl, hcl, htexts⟩ | ⟨-, hpenalty, hlimit⟩ :=
    hstep.clients ws cl' hcl'
  · exact ((h.2 ws cl hcl).later hstep.clock hpenalty hlimit).1
  · exact (((h.2 ws cl hcl).texts htexts).1.later hstep.clock rfl rfl).1
  · exact Client.fair_new (h.1.trans hstep.clock) hpenalty hlimit

/-- Any run. -/
theorem Fair.runs (h : s.Fair) (hc : s.Consistent) (events : List Event) :
  (s.runs events).Fair
  := by
  induction events generalizing s with
  | nil => exact h
  | cons e events ih => exact ih (h.step hc e) (hc.event e)

/-- A debt grows with each text, and time pays it back. -/
theorem debt_step (h : s.Fair) (hc : s.Consistent) (e : Event) (hcl : s.clientOf ws = some cl)
    (hcl' : (s.step e).clientOf ws = some cl') :
  cl.debt s.clock + (if s.chats ws e then 1 else 0 : ℕ)
    ≤ cl'.debt (s.step e).clock + ((s.step e).clock - s.clock) * (34 / 44)
  := by
  have hstep := step_lasts (n := 0) hc (Nat.zero_le _) e
  have hfair := h.2 ws cl hcl
  -- a limited text adds at least as much as it counts, and time takes off what it gives
  have hlimited : cl.Texts s.clock cl' → cl.debt s.clock + 1
      ≤ cl'.debt (s.step e).clock + ((s.step e).clock - s.clock) * (34 / 44) := by
    intro htexts
    obtain ⟨hfair', hmore⟩ := hfair.texts htexts
    exact hmore.trans (hfair'.later hstep.clock rfl rfl).2
  cases hchats : s.chats ws e with
  | true =>
      obtain ⟨cl₀, hcl₀, htexts⟩ := texts_step hc hchats hcl'
      obtain rfl : cl = cl₀ := Option.some.inj (hcl.symm.trans hcl₀)
      rw [if_pos rfl, Nat.cast_one]
      exact hlimited htexts
  | false =>
      rw [if_neg Bool.false_ne_true, Nat.cast_zero, add_zero]
      obtain ⟨cl₀, hcl₀, hkept⟩ | ⟨cl₀, hcl₀, htexts⟩ | ⟨hnone, -⟩ := hstep.clients ws cl' hcl'
      · obtain rfl : cl = cl₀ := Option.some.inj (hcl.symm.trans hcl₀)
        exact (hfair.later hstep.clock hkept.1 hkept.2).2
      · obtain rfl : cl = cl₀ := Option.some.inj (hcl.symm.trans hcl₀)
        linarith [hlimited htexts]
      · rw [hcl] at hnone
        cases hnone

/-- A client that is there at the end is there all the time. -/
theorem clientOf_step (hc : s.Consistent) {e : Event} {events : List Event}
    (hcl : s.clientOf ws = some cl) (hlast : ((s.step e).runs events).clientOf ws = some cl') :
  ∃ c, (s.step e).clientOf ws = some c
  := by
  obtain ⟨si, p, hsi, hp, -⟩ := clientOf_eq_some.mp hcl
  obtain ⟨si', -, hsi', -, -⟩ := clientOf_eq_some.mp hlast
  have hlt : ws < s.nextWs := hc.registry.lt_nextWs (hc.mem_connsws.mpr ⟨si, hsi⟩)
  have hstep := step_lasts hc (le_refl _) e
  obtain ⟨si₁, hsi₁, -⟩ := runs_lasts (hc.event e) hstep.nextWs events hlt hsi'
  obtain ⟨si₀, hsi₀, hbecomes⟩ := hstep.infos ws si₁ hlt hsi₁
  obtain rfl : si = si₀ := Option.some.inj (hsi.symm.trans hsi₀)
  obtain rfl | ⟨hplayer, -⟩ := hbecomes
  · obtain ⟨c, hc', -⟩ := (hc.event e).live_of_player hsi₁ hp
    exact ⟨c, by rw [clientOf_eq hsi₁ hp, hc'.1]⟩
  · rw [hp] at hplayer
    cases hplayer

/-- The same over a run. -/
theorem debt_runs (h : s.Fair) (hc : s.Consistent) (events : List Event)
    (hcl : s.clientOf ws = some cl) (hlast : (s.runs events).clientOf ws = some cl') :
  cl.debt s.clock + s.texts ws events
    ≤ cl'.debt (s.runs events).clock + ((s.runs events).clock - s.clock) * (34 / 44)
  := by
  induction events generalizing s cl with
  | nil =>
      obtain rfl : cl = cl' := Option.some.inj (hcl.symm.trans hlast)
      rw [texts, Nat.cast_zero, add_zero]
      exact le_add_of_nonneg_right (mul_nonneg (sub_self _).ge (by norm_num))
  | cons e events ih =>
      obtain ⟨c, hc'⟩ := clientOf_step hc hcl hlast
      have hfirst := debt_step h hc e hcl hc'
      have hrest := ih (h.step hc e) (hc.event e) hc' hlast
      rw [texts, Nat.cast_add]
      show _ ≤ cl'.debt ((s.step e).runs events).clock
        + (((s.step e).runs events).clock - s.clock) * (34 / 44)
      linarith

/-- However a client goes on, from any moment to any later one at which it is still connected it
sends at most 162 limited texts, the 34 of its limit and 128 with which it is warned, and 34 more
in 44 seconds, in exact numbers. -/
theorem texts_runs (modpw adminpw path : Bytes) (d : Disk) {clock : ℚ} (hclock : 0 ≤ clock)
    {before after : List Event}
    (hcl : ((Server.new modpw adminpw path d clock).runs before).clientOf ws = some cl)
    (hcl' : ((Server.new modpw adminpw path d clock).runs (before ++ after)).clientOf ws
      = some cl') :
  (((Server.new modpw adminpw path d clock).runs before).texts ws after : ℚ)
    ≤ 162 + (((Server.new modpw adminpw path d clock).runs (before ++ after)).clock
      - ((Server.new modpw adminpw path d clock).runs before).clock) * (34 / 44)
  := by
  have hnew : (Server.new modpw adminpw path d clock).Fair := by
    refine ⟨hclock, fun ws cl hcl => ?_⟩
    obtain ⟨si, p, hsi, -, -⟩ := clientOf_eq_some.mp hcl
    cases hsi
  have hconsistent := consistent_new modpw adminpw path d clock
  have hfair := hnew.runs hconsistent
  have hlast := (hfair (before ++ after)).2 ws cl' hcl'
  have hfirst := (hfair before).2 ws cl hcl
  have happend : (Server.new modpw adminpw path d clock).runs (before ++ after)
      = ((Server.new modpw adminpw path d clock).runs before).runs after :=
    Runs.run_append _ _ before after
  rw [happend] at hcl' hlast ⊢
  have hruns := debt_runs (hfair before) (hconsistent.runs before) after hcl hcl'
  linarith [hlast.debt_le, hfirst.le_debt]

/-- Two texts of the client that has joined the world "w". -/
def hiEvents : List Event :=
  [.message 0 .text (ofString "hi\n") 1 1, .advance 1, .message 0 .text (ofString "hi\n") 1 1]

omit [Platform] in
theorem texts_runs_hiEvents :
  let _ := Platform.quiet
  let s := Server.new (ofString "m") (ofString "a") [] (Disk.empty fun _ => true) 0
  (s.runs joinEvents).texts 0 hiEvents = 2 ∧ ((s.runs joinEvents).texts 0 hiEvents : ℚ)
    ≤ 162 + ((s.runs (joinEvents ++ hiEvents)).clock - (s.runs joinEvents).clock) * (34 / 44)
  := by
  let _ := Platform.quiet
  have hcount : ((Server.new (ofString "m") (ofString "a") [] (Disk.empty fun _ => true) 0).runs
      joinEvents).texts 0 hiEvents = 2 := by
    decide +kernel
  have hbefore : (((Server.new (ofString "m") (ofString "a") [] (Disk.empty fun _ => true) 0).runs
      joinEvents).clientOf 0).isSome = true := by
    decide +kernel
  have hafter : (((Server.new (ofString "m") (ofString "a") [] (Disk.empty fun _ => true) 0).runs
      (joinEvents ++ hiEvents)).clientOf 0).isSome = true := by
    decide +kernel
  obtain ⟨cl, hcl⟩ := Option.isSome_iff_exists.mp hbefore
  obtain ⟨cl', hcl'⟩ := Option.isSome_iff_exists.mp hafter
  exact ⟨hcount, texts_runs _ _ _ _ (le_refl 0) hcl hcl'⟩

end Server

end Owop
