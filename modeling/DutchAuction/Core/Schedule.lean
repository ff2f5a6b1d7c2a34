import Mathlib.Tactic.NormNum
import DutchAuction.Proto

/-!
# The price clock

The price is a pure function of elapsed time: hold at the start price, subtract a drop that grows
with time, never leave `[floor, start]`. Time enters as an unsigned 64-bit count, is divided,
narrowed to a signed word with a fallback, multiplied with saturation and subtracted with
saturation; `priceAt_anti` says that through all of it the price only ever descends, whatever the
parameters of the schedule.

`timeToReach` is computed the other way round, by ceiling division. A higher target is predicted no
later than a lower one (`timeToReach_anti`), which is why the highest resting limit alone decides
when the engine must wake up. And it is exact: the ceiling division of the prediction undoes the
floor division of the price (`priceAt_le_iff`). -/

namespace DutchAuction

/-- How price decays over time. -/
inductive ScheduleKind
  /-- Price holds flat for `stepDuration`, then drops by `stepSize`. -/
  | stepped (stepDuration : Nanos) (stepSize : I64)
  /-- Price falls continuously at `ratePerSec` minor units per second. -/
  | linear (ratePerSec : I64)
deriving DecidableEq

/-- A complete, published price schedule. -/
structure PriceSchedule where
  startPrice : Price
  floorPrice : Price
  kind : ScheduleKind
deriving DecidableEq

/-! ## The schedule

A drop is computed on wider words and with saturation, and then narrowed. The prediction divides
the other way and rounds up. -/

/-- Signed 128-bit multiplication, saturating. -/
def i128SaturatingMul (a b : ℤ) : ℤ := max (-2 ^ 127) (min (a * b) (2 ^ 127 - 1))

/-- Ceiling division for a non-negative numerator and a positive denominator. -/
def ceilDiv (numerator denominator : ℤ) : ℤ := (numerator + denominator - 1).tdiv denominator

/-- `steps * stepSize`, saturating. -/
def saturatingDrop (steps : U64) (stepSize : I64) : I64 :=
  ((I64.ofInt? steps.val).getD I64.maxValue).saturatingMul stepSize

namespace PriceSchedule

/-- A stepped schedule; `none` is the assertion that refuses a malformed auction. -/
def stepped (startPrice floorPrice : Price) (stepDuration : Nanos) (stepSize : I64) :
    Option PriceSchedule :=
  if floorPrice ≤ startPrice ∧ 0 ≤ stepSize then
    some ⟨startPrice, floorPrice, .stepped stepDuration stepSize⟩
  else none

/-- A linear schedule; `none` is the assertion that refuses a malformed auction. -/
def linear (startPrice floorPrice : Price) (ratePerSec : I64) : Option PriceSchedule :=
  if floorPrice ≤ startPrice ∧ 0 ≤ ratePerSec then
    some ⟨startPrice, floorPrice, .linear ratePerSec⟩
  else none

/-- The schedules that the two constructors build. -/
def Constructed (s : PriceSchedule) : Prop :=
  (∃ startPrice floorPrice stepDuration stepSize,
      stepped startPrice floorPrice stepDuration stepSize = some s) ∨
    ∃ startPrice floorPrice ratePerSec, linear startPrice floorPrice ratePerSec = some s

variable (s : PriceSchedule)

/-- The price once it has dropped by `drop`. -/
def priceAfter (drop : I64) : Price :=
  Price.clampTo (s.startPrice.saturatingSub drop) s.floorPrice s.startPrice

/-- The price at `elapsed` nanoseconds after the auction opened. -/
def priceAt (elapsed : Nanos) : Price :=
  match s.kind with
  | .stepped stepDuration stepSize =>
    -- A zero-length step jumps to the floor rather than dividing by zero.
    if stepDuration.val = 0 then s.floorPrice
    else s.priceAfter (saturatingDrop (elapsed.div stepDuration) stepSize)
  | .linear ratePerSec =>
    let dropped := (i128SaturatingMul elapsed.val ratePerSec.val).tdiv 1000000000
    s.priceAfter ((I64.ofInt? dropped).getD I64.maxValue)

/-- The earliest instant at which the price is at or below `target`, as the engine predicts it. -/
def timeToReach (target : Price) : Option Nanos :=
  if target > s.startPrice then some 0
  else if target < s.floorPrice then none
  else
    let dropNeeded := s.startPrice.saturatingSub target
    match s.kind with
    | .stepped stepDuration stepSize =>
      if stepSize.val = 0 then if dropNeeded.val = 0 then some 0 else none
      else
        let steps := ceilDiv dropNeeded.val stepSize.val
        some (((U64.ofInt? steps).getD U64.maxValue).saturatingMul (max stepDuration 1))
    | .linear ratePerSec =>
      if ratePerSec.val = 0 then if dropNeeded.val = 0 then some 0 else none
      else
        let ns := ceilDiv (i128SaturatingMul dropNeeded.val 1000000000) ratePerSec.val
        some ((U64.ofInt? ns).getD U64.maxValue)

/-- Whether the clock has bottomed out at the floor by `elapsed`. -/
def atFloor (elapsed : Nanos) : Bool := s.priceAt elapsed = s.floorPrice

variable {s}

theorem Constructed.floor_le_start (h : s.Constructed) : s.floorPrice ≤ s.startPrice := by
  rcases h with ⟨a, b, c, d, h⟩ | ⟨a, b, c, h⟩
  · unfold stepped at h
    split_ifs at h with hc
    cases h
    exact hc.1
  · unfold linear at h
    split_ifs at h with hc
    cases h
    exact hc.1

theorem Constructed.stepSize_nonneg (h : s.Constructed) {d : Nanos} {z : I64}
    (hk : s.kind = .stepped d z) : 0 ≤ z.val := by
  rcases h with ⟨a, b, c, e, h⟩ | ⟨a, b, c, h⟩
  · unfold stepped at h
    split_ifs at h with hc
    cases h
    cases hk
    exact I64.le_def.mp hc.2
  · unfold linear at h
    split_ifs at h
    cases h
    cases hk

theorem Constructed.rate_nonneg (h : s.Constructed) {r : I64} (hk : s.kind = .linear r) :
    0 ≤ r.val := by
  rcases h with ⟨a, b, c, d, h⟩ | ⟨a, b, c, h⟩
  · unfold stepped at h
    split_ifs at h
    cases h
    cases hk
  · unfold linear at h
    split_ifs at h with hc
    cases h
    cases hk
    exact I64.le_def.mp hc.2

/-! ## Bounds -/

theorem floor_le_priceAfter (drop : I64) : s.floorPrice ≤ s.priceAfter drop := I64.le_clamp _ _ _

theorem priceAfter_le_start (h : s.floorPrice ≤ s.startPrice) (drop : I64) :
    s.priceAfter drop ≤ s.startPrice := I64.clamp_le h _

theorem floor_le_priceAt (t : Nanos) : s.floorPrice ≤ s.priceAt t := by
  unfold priceAt
  cases s.kind with
  | stepped d z =>
    dsimp only
    split_ifs
    · exact le_rfl
    · exact floor_le_priceAfter _
  | linear r => exact floor_le_priceAfter _

theorem priceAt_le_start (h : s.floorPrice ≤ s.startPrice) (t : Nanos) :
    s.priceAt t ≤ s.startPrice := by
  unfold priceAt
  cases s.kind with
  | stepped d z =>
    dsimp only
    split_ifs
    · exact h
    · exact priceAfter_le_start h _
  | linear r => exact priceAfter_le_start h _

theorem priceAfter_zero (h : s.floorPrice ≤ s.startPrice) : s.priceAfter 0 = s.startPrice := by
  have hle := I64.le_def.mp h
  have hlo := s.startPrice.neg_le
  have hhi := s.startPrice.val_lt
  apply I64.ext
  simp only [priceAfter, Price.clampTo, I64.val_clamp, I64.saturatingSub, I64.val_saturate,
    I64.val_zero]
  omega

/-! ## The price only descends

The price is the start less a drop, clamped between the floor and the start. The drop is computed
with saturating products and narrowing conversions, each of which keeps the order. A step that is
no descent gives a drop that the clamp absorbs. -/

theorem priceAfter_anti {a b : I64} (h : a ≤ b) : s.priceAfter b ≤ s.priceAfter a :=
  I64.clamp_mono (I64.saturatingSub_anti h) _ _

theorem priceAfter_eq_max_zero (a : I64) : s.priceAfter a = s.priceAfter (max a 0) := by
  rcases le_total a 0 with ha | ha
  · rw [max_eq_right ha]
    have h := I64.le_def.mp ha
    have hlo := s.startPrice.neg_le
    have hhi := s.startPrice.val_lt
    apply I64.ext
    simp only [priceAfter, Price.clampTo, I64.val_clamp, I64.saturatingSub, I64.val_saturate,
      I64.val_zero] at h ⊢
    omega
  · rw [max_eq_left ha]

theorem i128SaturatingMul_eq {t : Nanos} {r : I64} :
    i128SaturatingMul t.val r.val = t.val * r.val := by
  have ht : (t.val : ℤ) ≤ 2 ^ 64 - 1 := by have := t.val_lt; omega
  have hlo := r.neg_le
  have hhi : r.val ≤ 2 ^ 63 - 1 := by have := r.val_lt; omega
  have hlow : -2 ^ 127 ≤ (t.val : ℤ) * r.val := by nlinarith [Int.natCast_nonneg t.val]
  have hhigh : (t.val : ℤ) * r.val ≤ 2 ^ 127 - 1 := by nlinarith [Int.natCast_nonneg t.val]
  unfold i128SaturatingMul
  omega

theorem max_saturatingDrop_mono {m n : U64} (h : m ≤ n) (z : I64) :
    max (saturatingDrop m z) 0 ≤ max (saturatingDrop n z) 0 := by
  have hm : ∀ k : U64, ((I64.ofInt? k.val).getD I64.maxValue).val = min (k.val : ℤ) (2 ^ 63 - 1) :=
    fun k ↦ I64.val_getD_ofInt? (Int.natCast_nonneg _)
  have hle : min (m.val : ℤ) (2 ^ 63 - 1) ≤ min (n.val : ℤ) (2 ^ 63 - 1) := by
    have := U64.le_def.mp h
    omega
  have h0 : 0 ≤ min (m.val : ℤ) (2 ^ 63 - 1) := by omega
  rw [saturatingDrop, saturatingDrop, I64.saturatingMul, I64.saturatingMul, hm, hm]
  rcases le_total 0 z.val with hz | hz
  · exact max_le_max (I64.saturate_mono (mul_le_mul_of_nonneg_right hle hz)) le_rfl
  · have hneg : ∀ k : ℤ, 0 ≤ k → I64.saturate (k * z.val) ≤ 0 := fun k hk ↦ by
      have : k * z.val ≤ 0 := mul_nonpos_of_nonneg_of_nonpos hk hz
      rw [I64.le_def, I64.val_saturate, I64.val_zero]
      omega
    rw [max_eq_right (hneg _ h0), max_eq_right (hneg _ (h0.trans hle))]

theorem max_linearDrop_mono {t u : Nanos} (h : t ≤ u) (r : I64) :
    max ((I64.ofInt? (((t.val : ℤ) * r.val).tdiv 1000000000)).getD I64.maxValue) 0 ≤
      max ((I64.ofInt? (((u.val : ℤ) * r.val).tdiv 1000000000)).getD I64.maxValue) 0 := by
  have htu : (t.val : ℤ) ≤ u.val := by exact_mod_cast U64.le_def.mp h
  have ht : (0 : ℤ) ≤ t.val := Int.natCast_nonneg _
  rcases le_total 0 r.val with hr | hr
  · have hle : ((t.val : ℤ) * r.val).tdiv 1000000000 ≤ ((u.val : ℤ) * r.val).tdiv 1000000000 :=
      Int.tdiv_le_tdiv (by norm_num) (mul_le_mul_of_nonneg_right htu hr)
    refine max_le_max ?_ le_rfl
    rw [I64.le_def]
    unfold I64.ofInt?
    have h0 : 0 ≤ ((t.val : ℤ) * r.val).tdiv 1000000000 :=
      Int.tdiv_nonneg (mul_nonneg ht hr) (by norm_num)
    split_ifs with h₁ h₂ h₂
    · exact hle
    · simp only [Option.getD_some, Option.getD_none, I64.val_maxValue]
      unfold I64.InRange at h₁ h₂
      omega
    · simp only [Option.getD_some, Option.getD_none, I64.val_maxValue]
      unfold I64.InRange at h₁ h₂
      omega
    · exact le_rfl
  · have hle : ((u.val : ℤ) * r.val).tdiv 1000000000 ≤ ((t.val : ℤ) * r.val).tdiv 1000000000 :=
      Int.tdiv_le_tdiv (by norm_num) (mul_le_mul_of_nonpos_right htu hr)
    have h0 : ((t.val : ℤ) * r.val).tdiv 1000000000 ≤ 0 := by
      have hneg : 0 ≤ -((t.val : ℤ) * r.val) := by nlinarith
      have := Int.tdiv_nonneg hneg (show (0 : ℤ) ≤ 1000000000 by norm_num)
      rw [Int.neg_tdiv] at this
      omega
    rw [I64.le_def, I64.val_max, I64.val_max]
    unfold I64.ofInt?
    split_ifs with h₁ h₂ h₂ <;>
      unfold I64.InRange at h₁ h₂ <;>
      simp only [Option.getD_some, Option.getD_none, I64.val_maxValue, I64.val_zero] <;> omega

/-- **The price only ever descends**, for every schedule and through every saturating and narrowing
operation on the way. -/
theorem priceAt_anti {t u : Nanos} (h : t ≤ u) : s.priceAt u ≤ s.priceAt t := by
  unfold priceAt
  cases s.kind with
  | stepped d z =>
    dsimp only
    split_ifs
    · exact le_rfl
    · rw [priceAfter_eq_max_zero, priceAfter_eq_max_zero (saturatingDrop (t.div d) z)]
      refine priceAfter_anti (max_saturatingDrop_mono ?_ z)
      exact U64.le_def.mpr (Nat.div_le_div_right (U64.le_def.mp h))
  | linear r =>
    simp only [i128SaturatingMul_eq]
    rw [priceAfter_eq_max_zero,
      priceAfter_eq_max_zero ((I64.ofInt? (((t.val : ℤ) * r.val).tdiv 1000000000)).getD _)]
    exact priceAfter_anti (max_linearDrop_mono h r)

/-- **The price descends within its bounds**, between any two instants of the clock. -/
theorem price_descends (hs : s.Constructed) {t u : Nanos} (h : t ≤ u) :
    s.floorPrice ≤ s.priceAt u ∧ s.priceAt u ≤ s.priceAt t ∧ s.priceAt t ≤ s.startPrice :=
  ⟨floor_le_priceAt u, priceAt_anti h, priceAt_le_start hs.floor_le_start t⟩

/-- At the last instant the product of time and rate is far outside a signed word. -/
theorem price_descends_sample :
    ∃ s, linear (I64.lit 1000) (I64.lit 100) (I64.lit 9000000000) = some s ∧
      s.floorPrice ≤ s.priceAt U64.maxValue ∧ s.priceAt U64.maxValue ≤ s.priceAt 0 ∧
        s.priceAt 0 ≤ s.startPrice := by
  have hlinear : linear (I64.lit 1000) (I64.lit 100) (I64.lit 9000000000) =
      some ⟨I64.lit 1000, I64.lit 100, .linear (I64.lit 9000000000)⟩ := if_pos (by decide)
  exact ⟨_, hlinear, price_descends (Or.inr ⟨_, _, _, hlinear⟩) (U64.le_maxValue 0)⟩

/-! ## The predicted instant -/

theorem ceilDiv_mono {a b d : ℤ} (h : a ≤ b) (hd : 0 < d) : ceilDiv a d ≤ ceilDiv b d :=
  Int.tdiv_le_tdiv hd (by omega)

theorem ceilDiv_nonneg {a d : ℤ} (h : 0 ≤ a) (hd : 0 < d) : 0 ≤ ceilDiv a d :=
  Int.tdiv_nonneg (by omega) hd.le

theorem getD_ofInt?_mono {x y : ℤ} (h0 : 0 ≤ x) (h : x ≤ y) :
    (U64.ofInt? x).getD U64.maxValue ≤ (U64.ofInt? y).getD U64.maxValue := by
  have hx := U64.val_getD_ofInt? h0
  have hy := U64.val_getD_ofInt? (h0.trans h)
  rw [U64.le_def]
  omega

/-- **A higher target is reached no later.** If the clock is predicted to reach a target at all, it
is predicted to reach every higher one at or before that instant. -/
theorem timeToReach_anti (hs : s.Constructed) {target target' : Price} (h : target ≤ target')
    {u : Nanos} (hu : s.timeToReach target = some u) :
    ∃ u', s.timeToReach target' = some u' ∧ u' ≤ u := by
  have hzero : ∀ v : Nanos, (0 : Nanos) ≤ v := fun v ↦ U64.le_def.mpr (Nat.zero_le _)
  unfold timeToReach at hu ⊢
  by_cases habove : target' > s.startPrice
  · rw [if_pos habove]
    exact ⟨0, rfl, hzero u⟩
  have hstart : target' ≤ s.startPrice := not_lt.mp habove
  rw [if_neg habove]
  rw [if_neg (not_lt.mpr (h.trans hstart))] at hu
  by_cases hbelow : target < s.floorPrice
  · rw [if_pos hbelow] at hu
    cases hu
  rw [if_neg hbelow] at hu
  rw [if_neg (fun hlt ↦ hbelow (h.trans_lt hlt))]
  -- Both targets are inside the published bounds: compare the drops they need.
  have hdrop : (s.startPrice.saturatingSub target').val ≤ (s.startPrice.saturatingSub target).val :=
    I64.le_def.mp (I64.saturatingSub_anti h)
  have hdrop0 : 0 ≤ (s.startPrice.saturatingSub target').val := by
    have h₁ := I64.le_def.mp hstart
    have h₂ := s.startPrice.val_lt
    rw [I64.saturatingSub, I64.val_saturate]
    omega
  cases hk : s.kind with
  | stepped d z =>
    simp only [hk] at hu ⊢
    have hz := hs.stepSize_nonneg hk
    split_ifs at hu ⊢ with h₁ h₂ h₃ h₄
    · exact ⟨0, rfl, hzero u⟩
    · omega
    · cases hu
      refine ⟨_, rfl, U64.saturate_mono (Nat.mul_le_mul_right _ ?_)⟩
      have hpos : 0 < z.val := by omega
      exact U64.le_def.mp (getD_ofInt?_mono (ceilDiv_nonneg hdrop0 hpos) (ceilDiv_mono hdrop hpos))
  | linear r =>
    simp only [hk] at hu ⊢
    have hr := hs.rate_nonneg hk
    split_ifs at hu ⊢ with h₁ h₂ h₃ h₄
    · exact ⟨0, rfl, hzero u⟩
    · omega
    · cases hu
      have hpos : 0 < r.val := by omega
      have hmul : i128SaturatingMul (s.startPrice.saturatingSub target').val 1000000000 ≤
          i128SaturatingMul (s.startPrice.saturatingSub target).val 1000000000 := by
        unfold i128SaturatingMul
        omega
      have hmul0 : 0 ≤ i128SaturatingMul (s.startPrice.saturatingSub target').val 1000000000 := by
        unfold i128SaturatingMul
        omega
      exact ⟨_, rfl, getD_ofInt?_mono (ceilDiv_nonneg hmul0 hpos) (ceilDiv_mono hmul hpos)⟩

/-! ### The prediction is exact

A rounded-up quotient is the first multiplier that reaches the numerator. Where a saturation has
cut a product off, it is at a bound that decides the comparison the same way; only the last instant
of the clock, at which a prediction can be cut off, has to be left out. -/

theorem ceilDiv_le_iff {a d n : ℤ} (ha : 0 ≤ a) (hd : 0 < d) : ceilDiv a d ≤ n ↔ a ≤ n * d := by
  rw [ceilDiv, Int.tdiv_eq_ediv_of_nonneg (by omega), ← Int.lt_add_one_iff,
    Int.ediv_lt_iff_lt_mul hd, add_mul, one_mul]
  omega

theorem ceilDiv_zero {d : ℤ} (hd : 0 < d) : ceilDiv 0 d = 0 :=
  Int.tdiv_eq_zero_of_lt (by omega) (by omega)

theorem priceAfter_le_iff {target : Price} (hlow : s.floorPrice ≤ target)
    (hhigh : target ≤ s.startPrice) (hfits : s.startPrice.val - target.val ≤ 2 ^ 63 - 1)
    {drop : I64} (hdrop : 0 ≤ drop.val) :
    s.priceAfter drop ≤ target ↔ s.startPrice.val - target.val ≤ drop.val := by
  have hlow := I64.le_def.mp hlow
  have hhigh := I64.le_def.mp hhigh
  have hstart := s.startPrice.val_lt
  have htarget := target.neg_le
  have hlt := drop.val_lt
  simp only [priceAfter, Price.clampTo, I64.le_def, I64.val_clamp, I64.saturatingSub,
    I64.val_saturate]
  omega

theorem le_saturatingDrop_iff {steps : U64} {z : I64} (hz : 0 < z.val) {needed : ℤ}
    (hneeded : needed ≤ 2 ^ 63 - 1) :
    needed ≤ (saturatingDrop steps z).val ↔ needed ≤ steps.val * z.val := by
  have hnarrow := I64.val_getD_ofInt? (Int.natCast_nonneg steps.val)
  rw [saturatingDrop, I64.saturatingMul, I64.val_saturate, hnarrow]
  rcases le_total (steps.val : ℤ) (2 ^ 63 - 1) with hle | hlt
  · rw [min_eq_left hle]
    have hnonneg : 0 ≤ (steps.val : ℤ) * z.val := mul_nonneg (Int.natCast_nonneg _) hz.le
    omega
  · rw [min_eq_right hlt]
    have hcut : (2 ^ 63 - 1 : ℤ) ≤ (2 ^ 63 - 1) * z.val := le_mul_of_one_le_right (by norm_num) hz
    have hall : (2 ^ 63 - 1 : ℤ) * z.val ≤ steps.val * z.val :=
      mul_le_mul_of_nonneg_right hlt hz.le
    omega

theorem val_saturatingMul_getD {n : ℤ} (h0 : 0 ≤ n) (hn : n ≤ 2 ^ 64 - 1) (d : U64) :
    ((((U64.ofInt? n).getD U64.maxValue).saturatingMul d).val : ℤ) =
      min (n * d.val) (2 ^ 64 - 1) := by
  have hval := U64.val_getD_ofInt? h0
  rw [min_eq_left hn] at hval
  have hmul : ((((U64.ofInt? n).getD U64.maxValue).val * d.val : ℕ) : ℤ) = n * d.val := by
    rw [Nat.cast_mul, hval]
  rw [U64.saturatingMul, U64.val_saturate]
  omega

theorem saturatingMul_le_iff {n : ℤ} (h0 : 0 ≤ n) (hn : n ≤ 2 ^ 64 - 1) {d t : U64}
    (ht : t < U64.maxValue) :
    ((U64.ofInt? n).getD U64.maxValue).saturatingMul d ≤ t ↔ n * d.val ≤ t.val := by
  have hval := val_saturatingMul_getD h0 hn d
  have ht := U64.lt_def.mp ht
  rw [U64.val_maxValue] at ht
  rw [U64.le_def]
  omega

theorem saturatingDrop_nonneg (steps : U64) {z : I64} (hz : 0 ≤ z.val) :
    0 ≤ (saturatingDrop steps z).val := by
  have hnarrow := I64.val_getD_ofInt? (Int.natCast_nonneg steps.val)
  have hcount : 0 ≤ ((I64.ofInt? steps.val).getD I64.maxValue).val := by omega
  have := mul_nonneg hcount hz
  rw [saturatingDrop, I64.saturatingMul, I64.val_saturate]
  omega

/-- **A stepped clock** is at or below a target from the first step on that covers the
difference. -/
theorem priceAt_stepped_le_iff {d : Nanos} {z : I64} (hk : s.kind = .stepped d z) (hd : 0 < d.val)
    (hz : 0 < z.val) {target : Price} (hlow : s.floorPrice ≤ target) (hhigh : target ≤ s.startPrice)
    (hfits : s.startPrice.val - target.val ≤ 2 ^ 63 - 1) (t : Nanos) :
    s.priceAt t ≤ target ↔
      ceilDiv (s.startPrice.val - target.val) z.val * d.val ≤ t.val := by
  have hneeded : 0 ≤ s.startPrice.val - target.val := by
    have := I64.le_def.mp hhigh
    omega
  have hprice : s.priceAt t = s.priceAfter (saturatingDrop (t.div d) z) := by
    unfold priceAt
    rw [hk]
    dsimp only
    rw [if_neg hd.ne']
  rw [hprice, priceAfter_le_iff hlow hhigh hfits (saturatingDrop_nonneg _ hz.le),
    le_saturatingDrop_iff hz hfits, ← ceilDiv_le_iff hneeded hz, U64.val_div, Int.natCast_div,
    Int.le_ediv_iff_mul_le (by exact_mod_cast hd)]

/-- **A linear clock** is at or below a target from the nanosecond on that covers the difference. -/
theorem priceAt_linear_le_iff {r : I64} (hk : s.kind = .linear r) (hr : 0 < r.val) {target : Price}
    (hlow : s.floorPrice ≤ target) (hhigh : target ≤ s.startPrice)
    (hfits : s.startPrice.val - target.val ≤ 2 ^ 63 - 1) (t : Nanos) :
    s.priceAt t ≤ target ↔
      ceilDiv ((s.startPrice.val - target.val) * 1000000000) r.val ≤ t.val := by
  have hneeded : 0 ≤ s.startPrice.val - target.val := by
    have := I64.le_def.mp hhigh
    omega
  have hproduct : 0 ≤ (t.val : ℤ) * r.val := mul_nonneg (Int.natCast_nonneg _) hr.le
  have hscaled : 0 ≤ ((t.val : ℤ) * r.val).tdiv 1000000000 :=
    Int.tdiv_nonneg hproduct (by norm_num)
  have hnarrow := I64.val_getD_ofInt? hscaled
  have hprice : s.priceAt t =
      s.priceAfter ((I64.ofInt? (((t.val : ℤ) * r.val).tdiv 1000000000)).getD I64.maxValue) := by
    unfold priceAt
    rw [hk]
    dsimp only
    rw [i128SaturatingMul_eq]
  rw [hprice, priceAfter_le_iff hlow hhigh hfits (by omega), hnarrow,
    Int.tdiv_eq_ediv_of_nonneg hproduct, ceilDiv_le_iff (by omega) hr,
    ← Int.le_ediv_iff_mul_le (by norm_num)]
  omega

theorem priceAt_stepped_flat {d : Nanos} {z : I64} (hk : s.kind = .stepped d z) (hd : 0 < d.val)
    (hz : z.val = 0) (hle : s.floorPrice ≤ s.startPrice) (t : Nanos) :
    s.priceAt t = s.startPrice := by
  have hnone : saturatingDrop (t.div d) z = 0 := by
    rw [saturatingDrop, I64.saturatingMul, hz, mul_zero]
    rfl
  unfold priceAt
  rw [hk]
  dsimp only
  rw [if_neg hd.ne', hnone]
  exact priceAfter_zero hle

theorem priceAt_linear_flat {r : I64} (hk : s.kind = .linear r) (hr : r.val = 0)
    (hle : s.floorPrice ≤ s.startPrice) (t : Nanos) : s.priceAt t = s.startPrice := by
  unfold priceAt
  rw [hk]
  dsimp only
  rw [i128SaturatingMul_eq, hr, mul_zero]
  exact priceAfter_zero hle

theorem val_dropNeeded {target : Price} (hhigh : target ≤ s.startPrice)
    (hfits : s.startPrice.val - target.val ≤ 2 ^ 63 - 1) :
    (s.startPrice.saturatingSub target).val = s.startPrice.val - target.val := by
  have := I64.le_def.mp hhigh
  rw [I64.saturatingSub, I64.val_saturate]
  omega

/-- **The predicted instant is exact**: before the last instant of the clock, the price is at or
below a target exactly from the predicted instant on. -/
theorem priceAt_le_iff (hs : s.Constructed) (hfloor : 0 ≤ s.floorPrice.val)
    (hduration : ∀ d z, s.kind = .stepped d z → 0 < d.val) {t : Nanos} (ht : t < U64.maxValue)
    (target : Price) : s.priceAt t ≤ target ↔ ∃ u, s.timeToReach target = some u ∧ u ≤ t := by
  have hzero : (0 : Nanos) ≤ t := U64.le_def.mpr (Nat.zero_le _)
  have hend := U64.lt_def.mp ht
  rw [U64.val_maxValue] at hend
  unfold timeToReach
  by_cases habove : target > s.startPrice
  · rw [if_pos habove]
    exact ⟨fun _ ↦ ⟨0, rfl, hzero⟩, fun _ ↦ (priceAt_le_start hs.floor_le_start t).trans habove.le⟩
  rw [if_neg habove]
  have hhigh : target ≤ s.startPrice := not_lt.mp habove
  by_cases hbelow : target < s.floorPrice
  · rw [if_pos hbelow]
    constructor
    · intro h
      exact absurd ((floor_le_priceAt t).trans h) (not_le.mpr hbelow)
    · rintro ⟨u, hu, -⟩
      exact absurd hu.symm (Option.some_ne_none u)
  rw [if_neg hbelow]
  have hlow : s.floorPrice ≤ target := not_lt.mp hbelow
  -- What is left is a target within the bounds: compare the drop it needs with the drop so far.
  have hneeded : 0 ≤ s.startPrice.val - target.val := by
    have := I64.le_def.mp hhigh
    omega
  have hfits : s.startPrice.val - target.val ≤ 2 ^ 63 - 1 := by
    have := s.startPrice.val_lt
    have := I64.le_def.mp hlow
    omega
  have hdrop := val_dropNeeded hhigh hfits
  have hthere : (s.startPrice.val - target.val = 0) ↔ s.startPrice ≤ target := by
    rw [I64.le_def]
    omega
  have hflat : (∀ u, s.priceAt u = s.startPrice) → (s.priceAt t ≤ target ↔ ∃ u,
      (if (s.startPrice.saturatingSub target).val = 0 then some (0 : Nanos) else none) = some u ∧
        u ≤ t) := fun hstill ↦ by
    rw [hstill, hdrop]
    by_cases hzero : s.startPrice.val - target.val = 0
    · rw [if_pos hzero]
      exact ⟨fun _ ↦ ⟨0, rfl, U64.le_def.mpr (Nat.zero_le _)⟩, fun _ ↦ hthere.mp hzero⟩
    · rw [if_neg hzero]
      constructor
      · intro h
        exact absurd (hthere.mpr h) hzero
      · rintro ⟨u, hu, -⟩
        exact absurd hu.symm (Option.some_ne_none u)
  cases hk : s.kind with
  | stepped d z =>
    have hd := hduration d z hk
    have hz := hs.stepSize_nonneg hk
    dsimp only
    by_cases hstill : z.val = 0
    · rw [if_pos hstill]
      exact hflat (priceAt_stepped_flat hk hd hstill hs.floor_le_start)
    · have hz : 0 < z.val := lt_of_le_of_ne hz (Ne.symm hstill)
      have hsteps : 0 ≤ ceilDiv (s.startPrice.val - target.val) z.val := ceilDiv_nonneg hneeded hz
      have hsteps' : ceilDiv (s.startPrice.val - target.val) z.val ≤ 2 ^ 64 - 1 :=
        (ceilDiv_le_iff hneeded hz).mpr (by nlinarith)
      have hmax : max d 1 = d := max_eq_left (U64.le_def.mpr hd)
      rw [if_neg hstill, priceAt_stepped_le_iff hk hd hz hlow hhigh hfits, hmax, hdrop,
        ← saturatingMul_le_iff hsteps hsteps' ht]
      constructor
      · intro h
        exact ⟨_, rfl, h⟩
      · rintro ⟨u, hu, hle⟩
        cases hu
        exact hle
  | linear r =>
    have hr := hs.rate_nonneg hk
    dsimp only
    by_cases hstill : r.val = 0
    · rw [if_pos hstill]
      exact hflat (priceAt_linear_flat hk hstill hs.floor_le_start)
    · have hr : 0 < r.val := lt_of_le_of_ne hr (Ne.symm hstill)
      have hwide : i128SaturatingMul (s.startPrice.saturatingSub target).val 1000000000 =
          (s.startPrice.val - target.val) * 1000000000 := by
        unfold i128SaturatingMul
        omega
      have hpredicted := U64.val_getD_ofInt? (ceilDiv_nonneg
        (show 0 ≤ (s.startPrice.val - target.val) * 1000000000 by omega) hr)
      rw [if_neg hstill, priceAt_linear_le_iff hk hr hlow hhigh hfits, hwide]
      constructor
      · intro h
        exact ⟨_, rfl, U64.le_def.mpr (by omega)⟩
      · rintro ⟨u, hu, hle⟩
        cases hu
        have hle := U64.le_def.mp hle
        omega

end PriceSchedule

end DutchAuction
