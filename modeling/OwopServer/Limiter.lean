import Mathlib.Data.Rat.Defs
import Mathlib.Algebra.Order.Ring.Rat
import OwopServer.Protocol

/-!
# Rate limits

The class `limiter::Bucket` of `limiter.cpp`.  Time and allowance are exact numbers here,
where the code has a clock and numbers of type `float`.
-/

namespace Owop

/-- `limiter::Bucket`.  The clock starts at 0, as `last_check` does. -/
structure Bucket where
  rate : UInt16
  per : UInt16
  allowance : ℚ
  lastCheck : ℚ

namespace Bucket

/-- The constructor `Bucket::Bucket`. -/
def new (rate per : UInt16) : Bucket := ⟨rate, per, rate.toNat, 0⟩

/-- `Bucket::set` -/
def set (b : Bucket) (nrate nper : UInt16) : Bucket :=
  { b with
    rate := nrate
    per := if nper < 1 then 1 else nper
    allowance := if b.allowance > nrate.toNat then nrate.toNat else b.allowance }

/-- `Bucket::can_spend` at the time `now`: whether there were `count` tokens, and the bucket
after.  The numbers are exact; those of the code are rounded to `float`, so that it may decide
otherwise where the allowance is all but `count`. -/
def canSpend (b : Bucket) (now : ℚ) (count : UInt16) : Bool × Bucket :=
  let passed := now - b.lastCheck
  let allowance := b.allowance + passed * (b.rate.toNat / b.per.toNat)
  let allowance := if allowance > b.rate.toNat then (b.rate.toNat : ℚ) else allowance
  if allowance < count.toNat then (false, { b with allowance := allowance, lastCheck := now })
  else (true, { b with allowance := allowance - count.toNat, lastCheck := now })

end Bucket


namespace Bucket

/-! ### Calls -/

/-- A call of a method of a bucket, `canSpend` at the time `now`. -/
inductive Call where
  | set (nrate nper : UInt16)
  | canSpend (now : ℚ) (count : UInt16)

/-- One call: the number of tokens it spends and the bucket after it. -/
def call (b : Bucket) : Call → ℕ × Bucket
  | .set nrate nper => (0, b.set nrate nper)
  | .canSpend now count =>
      let (can, b) := b.canSpend now count
      (if can then count.toNat else 0, b)

/-- The bucket after some calls. -/
def after (b : Bucket) (calls : List Call) : Bucket := calls.foldl (fun b c => (b.call c).2) b

/-- The number of tokens that some calls spend. -/
def spent (b : Bucket) : List Call → ℕ
  | [] => 0
  | c :: calls => (b.call c).1 + (b.call c).2.spent calls

/-- The clock shows `t` before the calls, and never goes back. -/
def InOrder (t : ℚ) : List Call → Prop
  | [] => True
  | .set _ _ :: calls => InOrder t calls
  | .canSpend now _ :: calls => t ≤ now ∧ InOrder now calls

/-- The buckets that the server constructs: of connections, pixels and chat. -/
def constructed : List Bucket := [new 10 5, new 0 1, new 34 44]

/-! ### What a bucket holds -/

/-- The tokens a bucket gains in a unit of time. -/
def speed (b : Bucket) : ℚ := b.rate.toNat / b.per.toNat

/-- The tokens in a bucket at the time `now`, before any is spent. -/
def level (b : Bucket) (now : ℚ) : ℚ :=
  min b.rate.toNat (b.allowance + (now - b.lastCheck) * b.speed)

/-- Nothing is taken away by time. -/
theorem speed_nonneg (b : Bucket) :
  0 ≤ b.speed
  := div_nonneg (Nat.cast_nonneg _) (Nat.cast_nonneg _)

/-- No more than the rate is ever allowed. -/
theorem level_le_rate (b : Bucket) (now : ℚ) :
  b.level now ≤ b.rate.toNat
  := min_le_left _ _

/-- No more is allowed than time has brought. -/
theorem level_le (b : Bucket) (now : ℚ) :
  b.level now ≤ b.allowance + (now - b.lastCheck) * b.speed
  := min_le_right _ _

/-- Tokens are spent if there are as many. -/
theorem canSpend_eq (b : Bucket) (now : ℚ) (count : UInt16) :
  b.canSpend now count =
    if b.level now < count.toNat then (false, { b with allowance := b.level now, lastCheck := now })
    else (true, { b with allowance := b.level now - count.toNat, lastCheck := now })
  := by
  have hlevel : (if b.allowance + (now - b.lastCheck) * (b.rate.toNat / b.per.toNat) > b.rate.toNat
      then (b.rate.toNat : ℚ)
      else b.allowance + (now - b.lastCheck) * (b.rate.toNat / b.per.toNat)) = b.level now := by
    rw [level, speed]
    split
    case isTrue h => exact (min_eq_left h.le).symm
    case isFalse h => exact (min_eq_right (not_lt.mp h)).symm
  simp only [canSpend, hlevel]

/-- What a bucket keeps: it holds no more tokens than it may. -/
structure Sound (b : Bucket) : Prop where
  per_pos : 0 < b.per.toNat
  nonneg : 0 ≤ b.allowance
  le_rate : b.allowance ≤ b.rate.toNat

/-- The buckets of the program are sound at the start. -/
theorem sound_of_constructed {b : Bucket} (h : b ∈ constructed) :
  b.Sound ∧ b.lastCheck = 0
  := by
  have hnew : ∀ rate per : UInt16, 0 < per.toNat → (new rate per).Sound := by
    intro rate per hper
    constructor
    case per_pos => exact hper
    case nonneg => exact Nat.cast_nonneg _
    case le_rate => exact le_refl _
  simp only [constructed, List.mem_cons, List.not_mem_nil, or_false] at h
  obtain rfl | rfl | rfl := h
  · exact ⟨hnew 10 5 (by decide), rfl⟩
  · exact ⟨hnew 0 1 (by decide), rfl⟩
  · exact ⟨hnew 34 44 (by decide), rfl⟩

variable {b : Bucket}

/-- A sound bucket does not lose tokens in time. -/
theorem Sound.level_nonneg (h : b.Sound) {now : ℚ} (hnow : b.lastCheck ≤ now) :
  0 ≤ b.level now
  := by
  apply le_min (Nat.cast_nonneg _)
  exact add_nonneg h.nonneg (mul_nonneg (sub_nonneg.mpr hnow) b.speed_nonneg)

/-- A new rate keeps the bucket sound. -/
theorem Sound.set (h : b.Sound) (nrate nper : UInt16) :
  (b.set nrate nper).Sound
  := by
  constructor
  case per_pos =>
    simp only [Bucket.set]
    split
    case isTrue => decide
    case isFalse hper =>
      rw [UInt16.lt_iff_toNat_lt, UInt16.toNat_one] at hper
      omega
  case nonneg =>
    simp only [Bucket.set]
    split
    case isTrue => exact Nat.cast_nonneg _
    case isFalse => exact h.nonneg
  case le_rate =>
    simp only [Bucket.set]
    split
    case isTrue => exact le_refl _
    case isFalse hle => exact not_lt.mp hle

/-- What a call of `can_spend` takes is no longer there. -/
theorem allowance_canSpend (b : Bucket) (now : ℚ) (count : UInt16) :
  ((b.call (.canSpend now count)).1 : ℚ) + (b.call (.canSpend now count)).2.allowance = b.level now
  := by
  simp only [call, canSpend_eq]
  split
  · simp
  · simp

/-- A call of `can_spend` keeps the bucket sound. -/
theorem Sound.canSpend (h : b.Sound) {now : ℚ} (hnow : b.lastCheck ≤ now) (count : UInt16) :
  (b.canSpend now count).2.Sound
  := by
  have hlevel := h.level_nonneg hnow
  have hrate := b.level_le_rate now
  have hcount : (0 : ℚ) ≤ count.toNat := Nat.cast_nonneg _
  rw [canSpend_eq]
  split
  case isTrue => exact ⟨h.per_pos, hlevel, hrate⟩
  case isFalse hlt => exact ⟨h.per_pos, sub_nonneg.mpr (not_lt.mp hlt), by dsimp only; linarith⟩

/-- Spending keeps rate and per, and notes the time. -/
theorem rate_canSpend (b : Bucket) (now : ℚ) (count : UInt16) :
  (b.canSpend now count).2.rate = b.rate ∧ (b.canSpend now count).2.per = b.per ∧
    (b.canSpend now count).2.lastCheck = now
  := by
  rw [canSpend_eq]
  split
  · exact ⟨rfl, rfl, rfl⟩
  · exact ⟨rfl, rfl, rfl⟩

/-- Spending keeps the speed. -/
theorem speed_canSpend (b : Bucket) (now : ℚ) (count : UInt16) :
  (b.canSpend now count).2.speed = b.speed
  := by
  obtain ⟨hrate, hper, -⟩ := b.rate_canSpend now count
  rw [speed, speed, hrate, hper]

/-! ### Runs -/

/-- The first calls are in order. -/
theorem InOrder.left {t : ℚ} {mid rest : List Call} (h : InOrder t (mid ++ rest)) :
  InOrder t mid
  := by
  induction mid generalizing t with
  | nil => trivial
  | cons c mid ih =>
      cases c with
      | set nrate nper => exact ih h
      | canSpend now count => exact ⟨h.1, ih h.2⟩

/-- Every run keeps a bucket sound, and its clock behind the later calls. -/
theorem Sound.after (h : b.Sound) (pre calls : List Call)
    (ht : InOrder b.lastCheck (pre ++ calls)) :
  (b.after pre).Sound ∧ InOrder (b.after pre).lastCheck calls
  := by
  induction pre generalizing b with
  | nil => exact ⟨h, ht⟩
  | cons c pre ih =>
      cases c with
      | set nrate nper => exact ih (h.set nrate nper) ht
      | canSpend now count =>
          apply ih (h.canSpend ht.1 count)
          rw [(b.rate_canSpend now count).2.2]
          exact ht.2

/-- Until the time `z`, no more is spent than was there and has been gained since. -/
theorem Sound.spent_le (h : b.Sound) {z : ℚ} (hz : b.lastCheck ≤ z) (calls : List Call)
    (ht : InOrder b.lastCheck calls)
    (hcalls : ∀ c ∈ calls, ∃ now count, c = .canSpend now count ∧ now ≤ z) :
  (b.spent calls : ℚ) ≤ b.allowance + (z - b.lastCheck) * b.speed
  := by
  induction calls generalizing b with
  | nil =>
      rw [spent, Nat.cast_zero]
      exact add_nonneg h.nonneg (mul_nonneg (sub_nonneg.mpr hz) b.speed_nonneg)
  | cons c calls ih =>
      obtain ⟨⟨now, count, rfl, hnow⟩, hrest⟩ := List.forall_mem_cons.mp hcalls
      obtain ⟨-, -, hlast⟩ := b.rate_canSpend now count
      have hnext := ih (h.canSpend ht.1 count) (by rw [hlast]; exact hnow)
        (by rw [hlast]; exact ht.2) hrest
      rw [hlast, speed_canSpend] at hnext
      have htaken := b.allowance_canSpend now count
      have hgained := b.level_le now
      rw [spent, Nat.cast_add]
      simp only [call] at htaken ⊢
      linarith

/-- From the time `a` to the time `z`, no more is spent than the bucket may hold and gains in
between. -/
theorem Sound.spent_between (h : b.Sound) {a z : ℚ} (haz : a ≤ z) (calls : List Call)
    (ht : InOrder b.lastCheck calls)
    (hcalls : ∀ c ∈ calls, ∃ now count, c = .canSpend now count ∧ a ≤ now ∧ now ≤ z) :
  (b.spent calls : ℚ) ≤ b.rate.toNat + (z - a) * b.speed
  := by
  cases calls with
  | nil =>
      rw [spent, Nat.cast_zero]
      exact add_nonneg (Nat.cast_nonneg _) (mul_nonneg (sub_nonneg.mpr haz) b.speed_nonneg)
  | cons c calls =>
      obtain ⟨⟨now, count, rfl, ha, hz⟩, hrest⟩ := List.forall_mem_cons.mp hcalls
      obtain ⟨-, -, hlast⟩ := b.rate_canSpend now count
      -- the first call leaves a full bucket at most
      have hnext : ((b.canSpend now count).2.spent calls : ℚ)
          ≤ (b.canSpend now count).2.allowance + (z - now) * b.speed := by
        rw [← b.speed_canSpend now count]
        nth_rewrite 3 [← hlast]
        apply (h.canSpend ht.1 count).spent_le
        · rw [hlast]
          exact hz
        · rw [hlast]
          exact ht.2
        · intro c hc
          obtain ⟨now', count', hc', -, hz'⟩ := hrest c hc
          exact ⟨now', count', hc', hz'⟩
      have htaken := b.allowance_canSpend now count
      have hfull := b.level_le_rate now
      have hlater : (z - now) * b.speed ≤ (z - a) * b.speed :=
        mul_le_mul_of_nonneg_right (sub_le_sub_left ha z) b.speed_nonneg
      rw [spent, Nat.cast_add]
      simp only [call] at htaken ⊢
      linarith

/-- A bucket that holds at least one token gains one in the time `per / rate`. -/
theorem Sound.canSpend_one (h : b.Sound) (hrate : 1 ≤ b.rate.toNat) {now : ℚ}
    (hgap : (b.per.toNat : ℚ) / b.rate.toNat ≤ now - b.lastCheck) :
  (b.canSpend now 1).1 = true
  := by
  have hrate' : (0 : ℚ) < b.rate.toNat := by
    rw [Nat.cast_pos]
    exact hrate
  have hper : (0 : ℚ) < b.per.toNat := Nat.cast_pos.mpr h.per_pos
  have hgain : 1 ≤ (now - b.lastCheck) * b.speed := by
    calc
      (1 : ℚ) = b.per.toNat / b.rate.toNat * b.speed := by
        rw [speed]
        field_simp
      _ ≤ (now - b.lastCheck) * b.speed := mul_le_mul_of_nonneg_right hgap b.speed_nonneg
  have hlevel : 1 ≤ b.level now := by
    apply le_min
    · exact Nat.one_le_cast.mpr hrate
    · have hnonneg := h.nonneg
      linarith
  rw [canSpend_eq, if_neg (by rw [UInt16.toNat_one, Nat.cast_one]; exact not_lt.mpr hlevel)]

/-- The law of a bucket that the server constructs, in every run of calls with a clock that
never goes back: it holds between no and `rate` tokens; between two calls of `set`, what is
spent from a time `a` to a time `z` is at most `rate` and what is gained in between; and with a
rate of at least 1, a token can be spent when `per / rate` has passed since the last call of
`can_spend`. -/
theorem law {b : Bucket} (hb : b ∈ constructed) {calls : List Call} (ht : InOrder 0 calls) :
  (∀ pre, pre <+: calls →
    0 ≤ (b.after pre).allowance ∧ (b.after pre).allowance ≤ (b.after pre).rate.toNat) ∧
  (∀ pre mid, pre ++ mid <+: calls → ∀ a z, a ≤ z →
    (∀ c ∈ mid, ∃ now count, c = .canSpend now count ∧ a ≤ now ∧ now ≤ z) →
    ((b.after pre).spent mid : ℚ) ≤ (b.after pre).rate.toNat
      + (z - a) * ((b.after pre).rate.toNat / (b.after pre).per.toNat)) ∧
  (∀ pre last count now, pre ++ [.canSpend last count, .canSpend now 1] <+: calls →
    1 ≤ (b.after pre).rate.toNat →
    ((b.after pre).per.toNat : ℚ) / (b.after pre).rate.toNat ≤ now - last →
    ((b.after (pre ++ [.canSpend last count])).canSpend now 1).1 = true)
  := by
  obtain ⟨hsound, hlast⟩ := sound_of_constructed hb
  rw [← hlast] at ht
  and_intros
  · rintro pre ⟨rest, rfl⟩
    obtain ⟨hpre, -⟩ := hsound.after pre rest ht
    exact ⟨hpre.nonneg, hpre.le_rate⟩
  · rintro pre mid ⟨rest, rfl⟩ a z haz hmid
    rw [List.append_assoc] at ht
    obtain ⟨hpre, horder⟩ := hsound.after pre (mid ++ rest) ht
    exact hpre.spent_between haz mid horder.left hmid
  · rintro pre last count now ⟨rest, rfl⟩ hrate hgap
    rw [List.append_assoc] at ht
    obtain ⟨hpre, horder⟩ := hsound.after pre _ ht
    have hstep : b.after (pre ++ [.canSpend last count])
        = ((b.after pre).canSpend last count).2 := by
      rw [after, List.foldl_append]
      rfl
    obtain ⟨hsame, hper, hcheck⟩ := (b.after pre).rate_canSpend last count
    rw [hstep]
    apply (hpre.canSpend horder.1 count).canSpend_one
    · rw [hsame]
      exact hrate
    · rw [hsame, hper, hcheck]
      exact hgap

/-- The law for a bucket of connections that is asked for three tokens, whose rate is then
changed and which is asked again a second later. -/
theorem law_connections :
  ((new 10 5).after [.canSpend 1 3, .set 4 2]).allowance ≤ 4 ∧
    (((new 10 5).after [.canSpend 1 3, .set 4 2, .canSpend 2 4]).canSpend (5 / 2) 1).1 = true
  := by
  have horder : InOrder 0 [.canSpend 1 3, .set 4 2, .canSpend 2 4, .canSpend (5 / 2) 1] := by
    refine ⟨by norm_num, by norm_num, by norm_num, trivial⟩
  obtain ⟨hbound, -, hgain⟩ := law (by simp [constructed] : new 10 5 ∈ constructed) horder
  constructor
  · exact (hbound [.canSpend 1 3, .set 4 2] ⟨[.canSpend 2 4, .canSpend (5 / 2) 1], rfl⟩).2
  · apply hgain [.canSpend 1 3, .set 4 2] 2 4 (5 / 2) ⟨[], rfl⟩
    · decide
    · show ((2 : ℕ) : ℚ) / (4 : ℕ) ≤ 5 / 2 - 2
      norm_num

end Bucket

end Owop
