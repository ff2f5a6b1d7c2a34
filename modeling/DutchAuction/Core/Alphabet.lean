import DutchAuction.Core.Schedule

/-!
# The alphabet the machine reads and writes

Commands are everything that can happen to an auction, events are everything the machine says
happened, and an outcome is what became of an idempotency key. The configuration is fixed at
creation and never mutated.
-/

namespace DutchAuction

/-! ## Commands -/

/-- The two ways to bid. -/
inductive BidKind
  /-- Up to the quantity at whatever the clock says now. -/
  | take (expectedPrice : Price)
  /-- Up to the quantity once the clock reaches `limit` or below. -/
  | resting (limit : Price)
deriving DecidableEq

/-- Something to be applied to an auction, in sequence order. -/
inductive Command
  /-- Start the clock. -/
  | «open»
  /-- Set a participant's collateral ceiling. -/
  | setCollateral (participant : ParticipantId) (limit : I64)
  /-- Submit a bid. -/
  | submitBid (participant : ParticipantId) (key : IdempotencyKey) (qty : Qty) (kind : BidKind)
  /-- Withdraw a resting bid, identified by its submission key. -/
  | cancelResting (participant : ParticipantId) (key : IdempotencyKey)
  /-- Advance the clock to this command's timestamp. -/
  | tick
  /-- Operator cancellation. -/
  | cancel
deriving DecidableEq

/-! ## Events -/

/-- Units allocated to a participant. -/
structure Fill where
  id : FillId
  /-- The command that produced this allocation. -/
  seq : Seq
  participant : ParticipantId
  key : IdempotencyKey
  qty : Qty
  price : Price
deriving DecidableEq

/-- What became of a submitted idempotency key. -/
inductive Outcome
  /-- Admitted into a batch window; matching has not run yet. -/
  | queued (qty : Qty)
  /-- Sitting in the ladder waiting for the clock. -/
  | resting (qty : Qty)
  /-- Allocated. -/
  | filled (qty : Qty) (price : Price)
  /-- Refused, with the reason. -/
  | rejected (reason : RejectReason)
  /-- Withdrawn by the participant before it filled. -/
  | cancelled
  /-- Partly allocated, and then the rest withdrawn. -/
  | filledThenCancelled (qty : Qty) (price : Price)
deriving DecidableEq

/-- Something that happened, in sequence order. -/
inductive Event
  | opened (startPrice : Price) (supply : Qty)
  | collateralSet (participant : ParticipantId) (limit : I64)
  | queued (key : IdempotencyKey) (participant : ParticipantId) (qty : Qty) (price : Price)
  | rested (key : IdempotencyKey) (participant : ParticipantId) (qty : Qty) (limit : Price)
  | restingCancelled (key : IdempotencyKey) (participant : ParticipantId) (qty : Qty)
  | filled (fill : Fill)
  | rejected (key : IdempotencyKey) (reason : RejectReason)
  | duplicate (key : IdempotencyKey) (outcome : Outcome)
  /-- A fill was repriced down to the clearing price. -/
  | repriced (id : FillId) (fromPrice toPrice : Price)
  /-- Supply was exhausted, or the clock reached the floor. -/
  | cleared (price : Price) (filled unsold : Qty)
  | cancelled
deriving DecidableEq

/-! ## Configuration -/

/-- The immutable terms of one auction. -/
structure AuctionConfig where
  auctionId : AuctionId
  /-- Total units offered. -/
  totalSupply : Qty
  schedule : PriceSchedule
  /-- Width of the batch window; zero matches every bid on arrival. -/
  batchWindow : Nanos
  /-- How far a take's expected price may differ from the clock. -/
  priceTolerance : U64
deriving DecidableEq

namespace AuctionConfig

variable (c : AuctionConfig)

def startPrice : Price := c.schedule.startPrice

def floorPrice : Price := c.schedule.floorPrice

/-- The clock price at `elapsed`. -/
def priceAt (elapsed : Nanos) : Price := c.schedule.priceAt elapsed

/-- The window index `ts` falls in, and the price every bid in it fills at: the clock price at the
window's last nanosecond. -/
def windowBounds (ts : Nanos) : U64 × Price :=
  if c.batchWindow.val = 0 then (ts, c.priceAt ts)
  else
    let index := ts.div c.batchWindow
    let last :=
      (index.saturatingMul c.batchWindow).saturatingAdd (c.batchWindow.saturatingSub 1)
    (index, c.priceAt last)

/-! ### Window arithmetic

A later instant lies in a later window or in the same one; the window price is never above the
clock, and a clock that has moved past a window is never above that window's price. -/

variable {c}

theorem priceAt_anti {t u : Nanos} (h : t ≤ u) : c.priceAt u ≤ c.priceAt t :=
  PriceSchedule.priceAt_anti h

theorem floor_le_priceAt (t : Nanos) : c.floorPrice ≤ c.priceAt t :=
  PriceSchedule.floor_le_priceAt t

theorem windowBounds_spec (ts : Nanos) :
    ∃ last, ts ≤ last ∧ (c.windowBounds ts).2 = c.priceAt last ∧
      ∀ u : Nanos, (c.windowBounds ts).1 < (c.windowBounds u).1 → last ≤ u := by
  unfold windowBounds
  by_cases hw : c.batchWindow.val = 0
  · simp only [if_pos hw]
    exact ⟨ts, le_rfl, rfl, fun u hu ↦ hu.le⟩
  · simp only [if_neg hw]
    have hpos : 0 < c.batchWindow.val := Nat.pos_of_ne_zero hw
    refine ⟨_, ?_, rfl, fun u hu ↦ ?_⟩
    · have hlt := Nat.lt_div_mul_add hpos (a := ts.val)
      have hmul : ts.val / c.batchWindow.val * c.batchWindow.val < 2 ^ 64 :=
        (Nat.div_mul_le_self _ _).trans_lt ts.val_lt
      refine U64.le_saturate ?_
      rw [U64.saturatingMul, U64.val_div, U64.val_saturate_of_lt hmul, U64.val_saturatingSub,
        U64.val_one]
      omega
    · have hlt : ts.val / c.batchWindow.val < u.val / c.batchWindow.val := U64.lt_def.mp hu
      have hle : (ts.val / c.batchWindow.val + 1) * c.batchWindow.val ≤ u.val :=
        (Nat.mul_le_mul_right _ hlt).trans (Nat.div_mul_le_self _ _)
      rw [Nat.add_mul, Nat.one_mul] at hle
      rw [U64.le_def, U64.saturatingAdd, U64.saturatingMul, U64.val_div, U64.val_saturate,
        U64.val_saturate, U64.val_saturatingSub, U64.val_one]
      omega

theorem windowPrice_le_priceAt (ts : Nanos) : (c.windowBounds ts).2 ≤ c.priceAt ts := by
  obtain ⟨last, hle, heq, -⟩ := windowBounds_spec (c := c) ts
  rw [heq]
  exact priceAt_anti hle

theorem floor_le_windowPrice (ts : Nanos) : c.floorPrice ≤ (c.windowBounds ts).2 := by
  obtain ⟨last, -, heq, -⟩ := windowBounds_spec (c := c) ts
  rw [heq]
  exact floor_le_priceAt last

theorem windowIndex_mono {t u : Nanos} (h : t ≤ u) :
    (c.windowBounds t).1 ≤ (c.windowBounds u).1 := by
  unfold windowBounds
  split_ifs
  · exact h
  · exact U64.le_def.mpr (Nat.div_le_div_right (U64.le_def.mp h))

theorem windowBounds_eq_of_index_eq {t u : Nanos}
    (h : (c.windowBounds t).1 = (c.windowBounds u).1) : c.windowBounds t = c.windowBounds u := by
  unfold windowBounds at h ⊢
  split_ifs with hw
  · rw [if_pos hw, if_pos hw] at h
    rw [show t = u from h]
  · rw [if_neg hw, if_neg hw] at h
    simp only at h ⊢
    rw [h]

end AuctionConfig

end DutchAuction
