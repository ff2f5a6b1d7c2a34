import DutchAuction.Core.Run

/-!
# The default tolerance

A take names the price its sender saw, and is refused when the clock has moved further from it than
the tolerance. Unless the terms say otherwise the tolerance is one step of decay, or one second of
it.

That is enough for a sender who is one step behind (`take_one_step_behind`). Each operation between
the time and the price moves its result no further than its argument moves: the two divisions lose a
remainder at both instants, and the narrowing, the saturation and the clamp only bring two values
closer (`priceAt_sub_le`). -/

namespace DutchAuction

namespace PriceSchedule

/-- One step's worth of decay, or one second's: the band of the default terms. -/
def defaultTolerance (schedule : PriceSchedule) : U64 :=
  match schedule.kind with
  | .stepped _ stepSize => stepSize.unsignedAbs
  | .linear ratePerSec => ratePerSec.unsignedAbs

/-- The time that much decay takes. -/
def decayPeriod (schedule : PriceSchedule) : Nanos :=
  match schedule.kind with
  | .stepped stepDuration _ => stepDuration
  | .linear _ => 1000000000

variable {s : PriceSchedule} {t u : Nanos}

/-! ## How far the price moves

In one period of the schedule the drop grows by at most one step, or one second's worth, and
neither the subtraction nor the clamp widens the gap. -/

theorem priceAfter_sub_le (s : PriceSchedule) (a b : I64) :
    (s.priceAfter a).val - (s.priceAfter b).val ≤ max (b.val - a.val) 0 := by
  simp only [priceAfter, Price.clampTo, I64.val_clamp, I64.saturatingSub, I64.val_saturate]
  omega

theorem saturatingDrop_sub_le {m n : U64} (h : n.val ≤ m.val + 1) {z : I64} (hz : 0 ≤ z.val) :
    (saturatingDrop n z).val - (saturatingDrop m z).val ≤ z.val := by
  have hm := I64.val_getD_ofInt? (Int.natCast_nonneg m.val)
  have hn := I64.val_getD_ofInt? (Int.natCast_nonneg n.val)
  have hcount : min (n.val : ℤ) (2 ^ 63 - 1) ≤ min (m.val : ℤ) (2 ^ 63 - 1) + 1 := by omega
  have hproduct := mul_le_mul_of_nonneg_right hcount hz
  rw [add_mul, one_mul] at hproduct
  rw [saturatingDrop, saturatingDrop, I64.saturatingMul, I64.saturatingMul, hm, hn,
    I64.val_saturate, I64.val_saturate]
  omega

theorem linearDrop_sub_le (h : u.val ≤ t.val + 1000000000) {r : I64} (hr : 0 ≤ r.val) :
    ((I64.ofInt? (((u.val : ℤ) * r.val).tdiv 1000000000)).getD I64.maxValue).val -
      ((I64.ofInt? (((t.val : ℤ) * r.val).tdiv 1000000000)).getD I64.maxValue).val ≤ r.val := by
  have hnonneg : ∀ v : Nanos, 0 ≤ (v.val : ℤ) * r.val := fun v ↦
    mul_nonneg (Int.natCast_nonneg _) hr
  have hu := Int.tdiv_eq_ediv_of_nonneg (hnonneg u) (b := 1000000000)
  have ht := Int.tdiv_eq_ediv_of_nonneg (hnonneg t) (b := 1000000000)
  have hproduct : (u.val : ℤ) * r.val ≤ t.val * r.val + r.val * 1000000000 := by
    have hle : (u.val : ℤ) ≤ t.val + 1000000000 := by exact_mod_cast h
    have := mul_le_mul_of_nonneg_right hle hr
    linarith
  have hquotient := Int.ediv_le_ediv (show (0 : ℤ) < 1000000000 by norm_num) hproduct
  rw [Int.add_mul_ediv_right _ _ (by norm_num)] at hquotient
  rw [hu, ht, I64.val_getD_ofInt? (Int.ediv_nonneg (hnonneg u) (by norm_num)),
    I64.val_getD_ofInt? (Int.ediv_nonneg (hnonneg t) (by norm_num))]
  omega

/-- **Within one period the price falls by no more than the default tolerance**, wherever the two
instants lie. -/
theorem priceAt_sub_le (hs : s.Constructed) (hnear : u.val ≤ t.val + s.decayPeriod.val) :
    (s.priceAt t).val - (s.priceAt u).val ≤ s.defaultTolerance.val := by
  unfold decayPeriod at hnear
  unfold priceAt defaultTolerance
  cases hk : s.kind with
  | stepped d z =>
    rw [hk] at hnear
    dsimp only at hnear ⊢
    have hz := hs.stepSize_nonneg hk
    by_cases hd : d.val = 0
    · rw [if_pos hd, if_pos hd, sub_self]
      exact Int.natCast_nonneg _
    · have hsteps : (u.div d).val ≤ (t.div d).val + 1 := by
        rw [U64.val_div, U64.val_div, ← Nat.add_div_right _ (Nat.pos_of_ne_zero hd)]
        exact Nat.div_le_div_right hnear
      have habs : (z.unsignedAbs.val : ℤ) = z.val := Int.natAbs_of_nonneg hz
      rw [if_neg hd, if_neg hd, habs]
      exact (s.priceAfter_sub_le _ _).trans (max_le (saturatingDrop_sub_le hsteps hz) hz)
  | linear r =>
    rw [hk] at hnear
    dsimp only at hnear ⊢
    have hr := hs.rate_nonneg hk
    have habs : (r.unsignedAbs.val : ℤ) = r.val := Int.natAbs_of_nonneg hr
    rw [i128SaturatingMul_eq, i128SaturatingMul_eq, habs]
    exact (s.priceAfter_sub_le _ _).trans (max_le (linearDrop_sub_le hnear hr) hr)

theorem absDiff_priceAt_le (hs : s.Constructed) (hle : t ≤ u)
    (hnear : u.val ≤ t.val + s.decayPeriod.val) :
    I64.absDiff (s.priceAt u) (s.priceAt t) ≤ s.defaultTolerance := by
  have hfall := priceAt_sub_le hs hnear
  have hanti := I64.le_def.mp (priceAt_anti (s := s) hle)
  rw [U64.le_def, I64.absDiff]
  dsimp only
  omega

end PriceSchedule

/-- The terms by default: a batch window of a millisecond, and the default tolerance. -/
def AuctionConfig.new (auctionId : AuctionId) (totalSupply : Qty) (schedule : PriceSchedule) :
    AuctionConfig where
  auctionId := auctionId
  totalSupply := totalSupply
  schedule := schedule
  batchWindow := 1000000
  priceTolerance := schedule.defaultTolerance

/-! ## Refusals over the price

The property is followed through the handler: everything but the check itself either leaves the
record alone, or puts something on it that is not a refusal over the price. -/

theorem mergeOutcome_eq_rejected {prior : Option Outcome} {fresh : Outcome} {reason : RejectReason}
    (h : mergeOutcome prior fresh = .rejected reason) : fresh = .rejected reason := by
  unfold mergeOutcome at h
  split at h
  · cases h
  · cases h
  · cases h
  · cases h
  · exact h

theorem Outcome.eq_of_quoting_rejected {price : Price} {outcome : Outcome} {reason : RejectReason}
    (h : outcome.quoting price = .rejected reason) : outcome = .rejected reason := by
  cases outcome with
  | filled qty p => cases h
  | filledThenCancelled qty p => cases h
  | queued qty => exact h
  | resting qty => exact h
  | rejected r => exact h
  | cancelled => exact h

namespace AuctionState

/-- Nobody is refused because the price has moved: no such refusal is announced or recorded, and to
repeat one it has to be on record already. -/
structure NotMoved (s : AuctionState) (r : AuctionState × List Event) : Prop where
  announced : ∀ key p, .rejected key (.priceMoved p) ∉ r.2
  recorded : ∀ key p, r.1.outcomes key = some (.rejected (.priceMoved p)) →
    s.outcomes key = some (.rejected (.priceMoved p))
  repeated : ∀ key p, .duplicate key (.rejected (.priceMoved p)) ∈ r.2 →
    s.outcomes key = some (.rejected (.priceMoved p))

variable {s t : AuctionState} {r r' : AuctionState × List Event}

theorem NotMoved.of_outcomes (houtcomes : r.1.outcomes = s.outcomes)
    (hrejected : ∀ key reason, .rejected key reason ∉ r.2)
    (hduplicate : ∀ key outcome, .duplicate key outcome ∉ r.2) : s.NotMoved r where
  announced key p := hrejected key (.priceMoved p)
  recorded key p h := by rwa [houtcomes] at h
  repeated key p h := absurd h (hduplicate key (.rejected (.priceMoved p)))

theorem NotMoved.nil (houtcomes : t.outcomes = s.outcomes) : s.NotMoved (t, []) :=
  .of_outcomes houtcomes (fun _ _ ↦ List.not_mem_nil) fun _ _ ↦ List.not_mem_nil

theorem NotMoved.comp (h : s.NotMoved r) (h' : r.1.NotMoved r') :
    s.NotMoved (r'.1, r.2 ++ r'.2) where
  announced key p hmem := (List.mem_append.mp hmem).elim (h.announced key p) (h'.announced key p)
  recorded key p hp := h.recorded key p (h'.recorded key p hp)
  repeated key p hmem := (List.mem_append.mp hmem).elim (h.repeated key p)
    fun hr ↦ h.recorded key p (h'.repeated key p hr)

theorem NotMoved.congr (h : t.NotMoved r) (houtcomes : t.outcomes = s.outcomes) : s.NotMoved r where
  announced := h.announced
  recorded key p hp := houtcomes ▸ h.recorded key p hp
  repeated key p hp := houtcomes ▸ h.repeated key p hp

theorem NotMoved.forEach {α : Type*} {f : α → AuctionState → AuctionState × List Event}
    (pass : ∀ a (s : AuctionState), s.NotMoved (f a s)) (l : List α) (s : AuctionState) :
    s.NotMoved (Emit.forEach f l s) :=
  Emit.forEach_comp (M := NotMoved) (fun _ ↦ .nil rfl) (fun _ _ _ h h' ↦ h.comp h') pass l s

theorem notMoved_setOutcome (s : AuctionState) (key : IdempotencyKey) {outcome : Outcome}
    (houtcome : ∀ p, outcome ≠ .rejected (.priceMoved p)) :
    s.NotMoved (s.setOutcome key outcome, []) where
  announced _ _ := List.not_mem_nil
  recorded k p h := by
    unfold setOutcome at h
    dsimp only at h
    rw [Function.update_apply] at h
    split_ifs at h with hk
    · exact absurd (mergeOutcome_eq_rejected (Option.some.inj h)) (houtcome p)
    · exact h
  repeated _ _ h := absurd h List.not_mem_nil

theorem notMoved_reject (s : AuctionState) (key : IdempotencyKey) {reason : RejectReason}
    (hreason : ∀ p, reason ≠ .priceMoved p) : s.NotMoved (s.reject key reason) where
  announced k p h := by
    cases List.mem_singleton.mp h
    exact hreason p rfl
  recorded := (s.notMoved_setOutcome key fun p h ↦ hreason p (Outcome.rejected.inj h)).recorded
  repeated _ _ h := by cases List.mem_singleton.mp h

theorem notMoved_turnAway (s : AuctionState) {reason : RejectReason}
    (hreason : ∀ p, reason ≠ .priceMoved p) (participant : ParticipantId) (key : IdempotencyKey)
    (price : Price) (qty : Qty) : s.NotMoved (s.turnAway reason participant key price qty) :=
  (notMoved_reject _ key hreason).congr rfl

theorem notMoved_drainLadder (s : AuctionState) {reason : RejectReason}
    (hreason : ∀ p, reason ≠ .priceMoved p) : s.NotMoved (s.drainLadder reason) :=
  (NotMoved.forEach (fun (b : RestingBid) s ↦
    s.notMoved_turnAway hreason b.participant b.key b.limit b.qty) _ _).congr rfl

/-! ### Settlement and clearing -/

theorem notMoved_repriceFill (s : AuctionState) (price : Price) (fill : Fill) :
    s.NotMoved (s.repriceFill price fill) := by
  have houtcomes : (s.repriceFill price fill).1.outcomes = Function.update s.outcomes fill.key
      ((s.outcomes fill.key).map (Outcome.quoting price)) := by
    unfold repriceFill
    dsimp only
    split_ifs
    · rfl
    · rfl
  have hevents : ∀ e ∈ (s.repriceFill price fill).2, e = .repriced fill.id fill.price price := by
    unfold repriceFill
    dsimp only
    split_ifs
    · exact fun e he ↦ absurd he List.not_mem_nil
    · exact fun e he ↦ List.mem_singleton.mp he
  refine ⟨fun k p h ↦ ?_, fun k p h ↦ ?_, fun k p h ↦ ?_⟩
  · cases hevents _ h
  · rw [houtcomes, Function.update_apply] at h
    split_ifs at h with hk
    · rw [hk]
      obtain ⟨prior, hprior, hquoting⟩ := Option.map_eq_some_iff.mp h
      rw [hprior, Outcome.eq_of_quoting_rejected hquoting]
    · exact h
  · cases hevents _ h

theorem notMoved_clear (s : AuctionState) (price : Price) : s.NotMoved (s.clear price) := by
  have hreprice := NotMoved.forEach (fun f s ↦ s.notMoved_repriceFill price f) s.fills
    { s with status := .cleared, clearingPrice := some price, fills := [] }
  have hannounce : ∀ s : AuctionState, s.NotMoved (s.announceCleared price) := fun s ↦
    .of_outcomes rfl (fun _ _ h ↦ by cases List.mem_singleton.mp h)
      fun _ _ h ↦ by cases List.mem_singleton.mp h
  refine NotMoved.congr (hreprice.comp ?_) rfl
  exact (notMoved_drainLadder _ fun _ ↦ RejectReason.noConfusion).comp (hannounce _)

theorem outcomes_requeueRemainder (s : AuctionState) (exhausted : Bool) (b : PendingBid)
    (alloc : Qty) :
    (s.requeueRemainder exhausted b alloc).outcomes = s.outcomes := by
  unfold requeueRemainder
  dsimp only
  split
  · rfl
  · rfl

theorem notMoved_settle (s : AuctionState) (price : Price) (exhausted : Bool)
    (ba : PendingBid × ℕ) :
    s.NotMoved (s.settle price exhausted ba) := by
  unfold settle
  dsimp only
  split_ifs
  · exact (notMoved_reject _ _ fun _ ↦ RejectReason.noConfusion).congr rfl
  · refine ⟨fun k p h ↦ ?_, fun k p h ↦ ?_, fun k p h ↦ ?_⟩
    · cases List.mem_singleton.mp h
    · rw [outcomes_requeueRemainder] at h
      have hfilled : ∀ p, Outcome.filled (U64.saturate ba.2) price ≠ .rejected (.priceMoved p) :=
        fun _ ↦ Outcome.noConfusion
      exact (notMoved_setOutcome _ ba.1.key hfilled).recorded k p h
    · cases List.mem_singleton.mp h

theorem notMoved_flushWindow (s : AuctionState) : s.NotMoved s.flushWindow := by
  have hnotLive : ∀ p, RejectReason.notLive ≠ .priceMoved p := fun _ ↦ RejectReason.noConfusion
  rcases s.flushWindow_cases with ⟨-, hf⟩ | ⟨w, -, -, hf⟩ | ⟨w, -, -, hf⟩
  · rw [hf]
    exact .nil rfl
  · rw [hf]
    exact (NotMoved.forEach (fun (b : PendingBid) s ↦
      s.notMoved_turnAway hnotLive b.participant b.key b.reservePrice b.qty) _ _).congr rfl
  · have hsettling : s.NotMoved (s.settling w) :=
      (NotMoved.forEach (fun ba s ↦ s.notMoved_settle w.price _ ba) _ _).congr rfl
    rw [hf]
    refine hsettling.comp ?_
    split_ifs
    · exact notMoved_clear _ _
    · exact .nil rfl

theorem notMoved_closeElapsedWindow (s : AuctionState) (ts : Nanos) :
    s.NotMoved (s.closeElapsedWindow ts) := by
  unfold closeElapsedWindow
  split
  · exact .nil rfl
  · split_ifs
    · exact s.notMoved_flushWindow
    · exact .nil rfl

/-! ### The take

A retry is answered with what was on record. A fresh take within the tolerance passes the check,
and may still be refused over its cost. -/

theorem notMoved_onTake (s : AuctionState) (seq : Seq) (participant : ParticipantId)
    (key : IdempotencyKey) (qty : Qty) {expected : Price}
    (hwithin : I64.absDiff (s.config.priceAt s.now) expected ≤ s.config.priceTolerance) :
    s.NotMoved (s.onTake seq s.now participant key qty expected) := by
  obtain ⟨c, hc⟩ := s.reserve_frame participant (s.config.windowBounds s.now).2 qty
  have houtcomes := congrArg AuctionState.outcomes hc
  cases hres : (s.reserve participant (s.config.windowBounds s.now).2 qty).2 with
  | false =>
    rw [onTake_uncovered seq key hwithin hres]
    exact (notMoved_reject _ _ fun _ ↦ RejectReason.noConfusion).congr houtcomes
  | true =>
    have hqueued : ∀ p, Outcome.queued qty ≠ .rejected (.priceMoved p) :=
      fun _ ↦ Outcome.noConfusion
    have henqueue : s.NotMoved (s.enqueue seq participant key qty) := by
      refine ⟨fun k p h ↦ ?_, fun k p h ↦ ?_, fun k p h ↦ ?_⟩
      · cases List.mem_singleton.mp h
      · rw [← houtcomes]
        exact (notMoved_setOutcome _ key hqueued).recorded k p h
      · cases List.mem_singleton.mp h
    rw [s.onTake_queued seq key hwithin hres]
    refine henqueue.comp ?_
    split_ifs
    · exact notMoved_flushWindow _
    · exact .nil rfl

theorem notMoved_onBid (s : AuctionState) (seq : Seq) (participant : ParticipantId)
    (key : IdempotencyKey) (qty : Qty) {expected : Price}
    (hwithin : I64.absDiff (s.config.priceAt s.now) expected ≤ s.config.priceTolerance) :
    s.NotMoved (s.onBid seq s.now participant key qty (.take expected)) := by
  unfold onBid
  cases hprior : s.outcomes key with
  | some outcome =>
    refine ⟨fun k p h ↦ ?_, fun k p h ↦ h, fun k p h ↦ ?_⟩
    · cases List.mem_singleton.mp h
    · cases List.mem_singleton.mp h
      exact hprior
  | none =>
    dsimp only
    split_ifs
    · exact notMoved_reject _ _ fun _ ↦ RejectReason.noConfusion
    · exact notMoved_reject _ _ fun _ ↦ RejectReason.noConfusion
    · exact s.notMoved_onTake seq participant key qty hwithin

/-- **One step behind is near enough.** In an auction with the default tolerance, a take whose price
was right at most one period before the instant it is applied at is not refused because the price
has moved, in any state. -/
theorem take_one_step_behind {s' : AuctionState} {r : LogRecord} {o : List Event}
    {participant : ParticipantId} {key : IdempotencyKey} {qty : Qty} {t : Nanos}
    (hconstructed : s.config.schedule.Constructed)
    (hdefault : s.config.priceTolerance = s.config.schedule.defaultTolerance)
    (hcmd : r.cmd = .submitBid participant key qty (.take (s.config.priceAt t)))
    (hle : t ≤ max r.ts s.now)
    (hnear : (max r.ts s.now).val ≤ t.val + s.config.schedule.decayPeriod.val)
    (hstep : s.step r = some (s', o)) : s.NotMoved (s', o) := by
  obtain ⟨-, hadvance⟩ := step_eq_some hstep
  obtain ⟨hconfig, hnow⟩ := (s.stamp r.seq r.ts).closeElapsedWindow_frame (max r.ts s.now)
  have hclose := (s.stamp r.seq r.ts).notMoved_closeElapsedWindow (max r.ts s.now)
  rw [← hadvance, advance, hcmd]
  refine NotMoved.congr (hclose.comp ?_) rfl
  generalize ((s.stamp r.seq r.ts).closeElapsedWindow (max r.ts s.now)).1 = u at hconfig hnow
  have hwithin : I64.absDiff (u.config.priceAt u.now) (s.config.priceAt t) ≤
      u.config.priceTolerance := by
    rw [hconfig, hnow]
    exact (PriceSchedule.absDiff_priceAt_le hconstructed hle hnear).trans hdefault.ge
  have hbid := u.notMoved_onBid r.seq participant key qty hwithin
  rw [hnow] at hbid
  exact hbid

/-- The price was right a second ago, and is ten lower now. -/
theorem take_one_step_behind_sample :
    ∃ s s' : AuctionState, ∃ o, s.status = .live ∧
      s.step ⟨0, U64.lit 1000000000, .submitBid 1 101 1 (.take (s.config.priceAt 0))⟩ =
        some (s', o) ∧ s.NotMoved (s', o) := by
  have hstepped :
      PriceSchedule.stepped (I64.lit 1000) (I64.lit 100) (U64.lit 1000000000) (I64.lit 10) =
        some ⟨I64.lit 1000, I64.lit 100, .stepped (U64.lit 1000000000) (I64.lit 10)⟩ :=
    if_pos (by decide)
  obtain ⟨s, hlive, hconfig, hnow, hlast⟩ : ∃ s : AuctionState, s.status = .live ∧
      s.config = .new 0 (U64.lit 10)
        ⟨I64.lit 1000, I64.lit 100, .stepped (U64.lit 1000000000) (I64.lit 10)⟩ ∧
      s.now = 0 ∧ s.lastSeq = none :=
    ⟨{ AuctionState.new _ with status := .live }, rfl, rfl, rfl, rfl⟩
  have haccepts : s.Accepts 0 :=
    fun last h ↦ absurd (hlast.symm.trans h).symm (Option.some_ne_none _)
  have hstep :
      s.step ⟨0, U64.lit 1000000000, .submitBid 1 101 1 (.take (s.config.priceAt 0))⟩ = _ :=
    if_pos haccepts
  refine ⟨s, _, _, hlive, hstep, ?_⟩
  refine take_one_step_behind (t := 0) ?_ ?_ rfl ?_ ?_ hstep
  · rw [hconfig]
    exact Or.inl ⟨_, _, _, _, hstepped⟩
  · rw [hconfig]
    rfl
  · exact U64.le_def.mpr (Nat.zero_le _)
  · rw [hnow, hconfig]
    exact Nat.le_of_ble_eq_true rfl

end AuctionState

end DutchAuction
