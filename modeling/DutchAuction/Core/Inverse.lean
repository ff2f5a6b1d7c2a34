import Mathlib.Order.Bounds.Basic
import DutchAuction.Core.Schedule

/-!
# Where the predicted instant is the least one

`timeToReach` predicts the least instant at which the clock is at or below a target, for a target
the clock reaches by the last instant it can count to (`timeToReach_exact_iff`). Three things it
does not see. A step of no length takes the clock to the floor at once, while the prediction counts
it as one nanosecond a step. An instant that does not fit is cut off to the last one, although the
clock has not reached the target by then. And the drop is cut off on both sides where it does not
fit, so that a clock which starts that far above its floor stops short of it. -/

namespace DutchAuction

namespace PriceSchedule

variable {s : PriceSchedule} {target : Price}

/-- The prediction is the inverse of the clock at this target: an instant is predicted exactly when
it is the least at which the price is at or below the target, and none when there is none. -/
def Exact (s : PriceSchedule) (target : Price) : Prop :=
  (∀ t, s.timeToReach target = some t ↔ IsLeast {u : Nanos | s.priceAt u ≤ target} t) ∧
    (s.timeToReach target = none ↔ ∀ u, ¬s.priceAt u ≤ target)

/-- By its last instant the clock has dropped from the start price to the target, in exact
arithmetic and as far as a drop is a number of its own; or it never moves. -/
def ReachesInTime (s : PriceSchedule) (target : Price) : Prop :=
  match s.kind with
  | .stepped stepDuration stepSize =>
    0 < stepDuration.val ∧ (stepSize.val = 0 ∨ s.startPrice.val - target.val ≤ 2 ^ 63 - 1 ∧
      s.startPrice.val - target.val ≤ (2 ^ 64 - 1) / (stepDuration.val : ℤ) * stepSize.val)
  | .linear ratePerSec =>
    ratePerSec.val = 0 ∨ s.startPrice.val - target.val ≤ 2 ^ 63 - 1 ∧
      (s.startPrice.val - target.val) * 1000000000 ≤ (2 ^ 64 - 1) * ratePerSec.val

theorem exact_of_isLeast {t : Nanos} (ht : s.timeToReach target = some t)
    (hleast : IsLeast {u : Nanos | s.priceAt u ≤ target} t) : s.Exact target := by
  refine ⟨fun u ↦ ⟨fun hu ↦ ?_, fun hu ↦ ?_⟩, fun hnone ↦ ?_, fun hnever ↦ ?_⟩
  · rw [ht] at hu
    cases hu
    exact hleast
  · rw [ht, hleast.unique hu]
  · rw [ht] at hnone
    exact absurd hnone (Option.some_ne_none t)
  · exact absurd hleast.1 (hnever t)

theorem exact_of_never (hnone : s.timeToReach target = none)
    (hnever : ∀ u, ¬s.priceAt u ≤ target) : s.Exact target := by
  refine ⟨fun t ↦ ⟨fun ht ↦ ?_, fun hleast ↦ absurd hleast.1 (hnever t)⟩, fun _ ↦ hnever,
    fun _ ↦ hnone⟩
  rw [hnone] at ht
  cases ht

private theorem exact_of_zero (ht : s.timeToReach target = some 0)
    (hprice : s.priceAt 0 ≤ target) : s.Exact target :=
  exact_of_isLeast ht ⟨hprice, fun u _ ↦ U64.le_def.mpr (Nat.zero_le u.val)⟩

private theorem exact_iff_le {n : ℤ} (h0 : 0 ≤ n)
    (hclock : ∀ u : Nanos, s.priceAt u ≤ target ↔ n ≤ u.val) {t : Nanos}
    (ht : s.timeToReach target = some t) (hval : (t.val : ℤ) = min n (2 ^ 64 - 1)) :
    s.Exact target ↔ n ≤ 2 ^ 64 - 1 := by
  constructor
  · intro hexact
    have hreached := (hclock t).mp ((hexact.1 t).mp ht).1
    omega
  · intro hle
    refine exact_of_isLeast ht ⟨(hclock t).mpr (by omega), fun u hu ↦ U64.le_def.mpr ?_⟩
    have := (hclock u).mp hu
    omega

private theorem not_priceAfter_le (hfits : 2 ^ 63 - 1 < s.startPrice.val - target.val)
    (hle : s.floorPrice ≤ s.startPrice) (drop : I64) : ¬s.priceAfter drop ≤ target := by
  have hlt := drop.val_lt
  have hstart := s.startPrice.val_lt
  have hle := I64.le_def.mp hle
  simp only [priceAfter, Price.clampTo, I64.le_def, I64.val_clamp, I64.saturatingSub,
    I64.val_saturate]
  omega

private theorem not_exact_of_never {t : Nanos} (ht : s.timeToReach target = some t)
    (hnever : ∀ u, ¬s.priceAt u ≤ target) : ¬s.Exact target := by
  intro hexact
  have hnone := hexact.2.mpr hnever
  rw [ht] at hnone
  exact Option.some_ne_none t hnone

/-- **Where `timeToReach` is the exact inverse of the clock.** At or above the start price and below
the floor always; in between exactly if the clock reaches the target by its last instant, or never
moves, and its steps have a length. -/
theorem timeToReach_exact_iff (hs : s.Constructed) (target : Price) :
    s.Exact target ↔
      s.startPrice ≤ target ∨ target < s.floorPrice ∨ s.ReachesInTime target := by
  have hle := hs.floor_le_start
  by_cases habove : target > s.startPrice
  · have hzero : s.timeToReach target = some 0 := by rw [timeToReach, if_pos habove]
    have hexact := exact_of_zero hzero ((priceAt_le_start hle 0).trans habove.le)
    exact ⟨fun _ ↦ Or.inl habove.le, fun _ ↦ hexact⟩
  by_cases hbelow : target < s.floorPrice
  · have hnone : s.timeToReach target = none := by rw [timeToReach, if_neg habove, if_pos hbelow]
    have hexact := exact_of_never hnone fun u hu ↦
      absurd ((floor_le_priceAt u).trans hu) (not_le.mpr hbelow)
    exact ⟨fun _ ↦ Or.inr (Or.inl hbelow), fun _ ↦ hexact⟩
  have hhigh : target ≤ s.startPrice := not_lt.mp habove
  have hlow : s.floorPrice ≤ target := not_lt.mp hbelow
  have hneeded : 0 ≤ s.startPrice.val - target.val := by
    have := I64.le_def.mp hhigh
    omega
  have hdrop : (s.startPrice.saturatingSub target).val =
      min (s.startPrice.val - target.val) (2 ^ 63 - 1) := by
    rw [I64.saturatingSub, I64.val_saturate]
    omega
  -- At the start price itself there is nothing to predict.
  by_cases hat : s.startPrice ≤ target
  · have hval := I64.le_def.mp hat
    have hzero : (s.startPrice.saturatingSub target).val = 0 := by omega
    refine ⟨fun _ ↦ Or.inl hat, fun _ ↦ exact_of_zero ?_ ((priceAt_le_start hle 0).trans hat)⟩
    unfold timeToReach
    rw [if_neg habove, if_neg hbelow]
    cases hk : s.kind with
    | stepped d z =>
      dsimp only
      rw [hzero, if_pos rfl]
      split_ifs with hz
      · rfl
      · rw [ceilDiv_zero (lt_of_le_of_ne (hs.stepSize_nonneg hk) (Ne.symm hz))]
        have hval := val_saturatingMul_getD le_rfl (by norm_num) (max d 1)
        refine congrArg some (U64.ext ?_)
        rw [zero_mul] at hval
        rw [U64.val_zero]
        omega
    | linear r =>
      dsimp only
      rw [hzero, if_pos rfl]
      split_ifs with hr
      · rfl
      · have hns : i128SaturatingMul 0 1000000000 = 0 := rfl
        rw [hns, ceilDiv_zero (lt_of_le_of_ne (hs.rate_nonneg hk) (Ne.symm hr))]
        rfl
  have hsome : (s.startPrice.saturatingSub target).val ≠ 0 := by
    rw [I64.le_def] at hat
    omega
  rw [or_iff_right hat, or_iff_right hbelow]
  unfold ReachesInTime
  cases hk : s.kind with
  | stepped d z =>
    have hz := hs.stepSize_nonneg hk
    dsimp only
    have hpredicted : s.timeToReach target =
        if z.val = 0 then none
        else some (((U64.ofInt? (ceilDiv (s.startPrice.saturatingSub target).val z.val)).getD
          U64.maxValue).saturatingMul (max d 1)) := by
      unfold timeToReach
      rw [if_neg habove, if_neg hbelow, hk]
      dsimp only
      rw [if_neg hsome]
    by_cases hd : d.val = 0
    · -- The clock is at the floor from the start, and the prediction is not.
      have hstart : s.priceAt 0 ≤ target := by
        unfold priceAt
        rw [hk]
        dsimp only
        rw [if_pos hd]
        exact hlow
      refine ⟨fun hexact ↦ ?_, fun h ↦ absurd hd h.1.ne'⟩
      by_cases hstill : z.val = 0
      · rw [if_pos hstill] at hpredicted
        exact absurd hstart (hexact.2.mp hpredicted 0)
      · have hz : 0 < z.val := lt_of_le_of_ne hz (Ne.symm hstill)
        rw [if_neg hstill] at hpredicted
        have hsteps : 0 < ceilDiv (s.startPrice.saturatingSub target).val z.val := by
          by_contra hnone
          have := (ceilDiv_le_iff (by omega) hz).mp (not_lt.mp hnone)
          omega
        have hbound : (s.startPrice.saturatingSub target).val ≤ 2 ^ 63 - 1 := by omega
        have hsteps' : ceilDiv (s.startPrice.saturatingSub target).val z.val ≤ 2 ^ 64 - 1 :=
          (ceilDiv_le_iff (by omega) hz).mpr (by nlinarith)
        have hval := val_saturatingMul_getD hsteps.le hsteps' (max d 1)
        have hone : (max d 1).val = 1 := by rw [U64.val_max, hd]; rfl
        have hle := U64.le_def.mp (((hexact.1 _).mp hpredicted).2 hstart)
        rw [hone] at hval
        rw [U64.val_zero] at hle
        omega
    have hd : 0 < d.val := Nat.pos_of_ne_zero hd
    by_cases hstill : z.val = 0
    · rw [if_pos hstill] at hpredicted
      have hexact : s.Exact target := exact_of_never hpredicted fun u hu ↦
        hat (priceAt_stepped_flat hk hd hstill hle u ▸ hu)
      exact ⟨fun _ ↦ ⟨hd, Or.inl hstill⟩, fun _ ↦ hexact⟩
    have hz : 0 < z.val := lt_of_le_of_ne hz (Ne.symm hstill)
    rw [if_neg hstill] at hpredicted
    rw [and_iff_right hd, or_iff_right hstill]
    by_cases hfits : s.startPrice.val - target.val ≤ 2 ^ 63 - 1
    · rw [min_eq_left hfits] at hdrop
      have hsteps := ceilDiv_nonneg hneeded hz
      have hsteps' : ceilDiv (s.startPrice.val - target.val) z.val ≤ 2 ^ 64 - 1 :=
        (ceilDiv_le_iff hneeded hz).mpr (by nlinarith)
      have hmax : max d 1 = d := max_eq_left (U64.le_def.mpr hd)
      rw [hdrop, hmax] at hpredicted
      rw [and_iff_right hfits, exact_iff_le (mul_nonneg hsteps (Int.natCast_nonneg _))
        (priceAt_stepped_le_iff hk hd hz hlow hhigh hfits) hpredicted
        (val_saturatingMul_getD hsteps hsteps' d), ← Int.le_ediv_iff_mul_le (by exact_mod_cast hd),
        ceilDiv_le_iff hneeded hz]
    · have hnever : ∀ u, ¬s.priceAt u ≤ target := fun u hu ↦ by
        unfold priceAt at hu
        rw [hk] at hu
        dsimp only at hu
        rw [if_neg hd.ne'] at hu
        exact not_priceAfter_le (not_le.mp hfits) hle _ hu
      exact ⟨fun hexact ↦ absurd hexact (not_exact_of_never hpredicted hnever),
        fun h ↦ absurd h.1 hfits⟩
  | linear r =>
    have hr := hs.rate_nonneg hk
    dsimp only
    have hpredicted : s.timeToReach target =
        if r.val = 0 then none
        else some ((U64.ofInt? (ceilDiv (i128SaturatingMul (s.startPrice.saturatingSub target).val
          1000000000) r.val)).getD U64.maxValue) := by
      unfold timeToReach
      rw [if_neg habove, if_neg hbelow, hk]
      dsimp only
      rw [if_neg hsome]
    by_cases hstill : r.val = 0
    · rw [if_pos hstill] at hpredicted
      have hexact : s.Exact target := exact_of_never hpredicted fun u hu ↦
        hat (priceAt_linear_flat hk hstill hle u ▸ hu)
      exact ⟨fun _ ↦ Or.inl hstill, fun _ ↦ hexact⟩
    have hr : 0 < r.val := lt_of_le_of_ne hr (Ne.symm hstill)
    rw [if_neg hstill] at hpredicted
    rw [or_iff_right hstill]
    by_cases hfits : s.startPrice.val - target.val ≤ 2 ^ 63 - 1
    · have hwide : i128SaturatingMul (s.startPrice.saturatingSub target).val 1000000000 =
          (s.startPrice.val - target.val) * 1000000000 := by
        unfold i128SaturatingMul
        omega
      have hwide0 : 0 ≤ (s.startPrice.val - target.val) * 1000000000 := by omega
      have hns := ceilDiv_nonneg hwide0 hr
      rw [hwide] at hpredicted
      rw [and_iff_right hfits, exact_iff_le hns (priceAt_linear_le_iff hk hr hlow hhigh hfits)
        hpredicted (U64.val_getD_ofInt? hns), ceilDiv_le_iff hwide0 hr]
    · have hnever : ∀ u, ¬s.priceAt u ≤ target := fun u hu ↦ by
        unfold priceAt at hu
        rw [hk] at hu
        exact not_priceAfter_le (not_le.mp hfits) hle _ hu
      exact ⟨fun hexact ↦ absurd hexact (not_exact_of_never hpredicted hnever),
        fun h ↦ absurd h.1 hfits⟩

/-- A clock that jumps from 1000 to its floor of 100 at once: 500 is reached at the start, and
predicted for 50 nanoseconds later. -/
theorem timeToReach_late :
    ¬∀ (s : PriceSchedule) (target : Price), s.Constructed → s.Exact target := by
  intro h
  have hexact := h ⟨I64.lit 1000, I64.lit 100, .stepped 0 (I64.lit 10)⟩ (I64.lit 500)
    (Or.inl ⟨I64.lit 1000, I64.lit 100, 0, I64.lit 10, rfl⟩)
  have hleast := (hexact.1 (U64.lit 50)).mp (by decide)
  have hstart : PriceSchedule.priceAt ⟨I64.lit 1000, I64.lit 100, .stepped 0 (I64.lit 10)⟩ 0 ≤
      I64.lit 500 := by decide
  exact absurd (hleast.2 hstart) (by decide)

/-- With a step of a second instead, it reaches 500 after exactly 50 of them. -/
theorem timeToReach_exact_sample :
    IsLeast {u : Nanos | PriceSchedule.priceAt
        ⟨I64.lit 1000, I64.lit 100, .stepped (U64.lit 1000000000) (I64.lit 10)⟩ u ≤ I64.lit 500}
      (U64.lit 50000000000) := by
  have hexact := (timeToReach_exact_iff
    (s := ⟨I64.lit 1000, I64.lit 100, .stepped (U64.lit 1000000000) (I64.lit 10)⟩)
    (Or.inl ⟨I64.lit 1000, I64.lit 100, U64.lit 1000000000, I64.lit 10, rfl⟩) (I64.lit 500)).mpr
    (Or.inr (Or.inr ⟨by decide, Or.inr ⟨by decide, by decide⟩⟩))
  exact (hexact.1 (U64.lit 50000000000)).mp (by decide)

end PriceSchedule

end DutchAuction
