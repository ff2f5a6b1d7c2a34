import DutchAuction.Library.MachineInt

/-!
# Shared domain primitives

Identifiers, the total order, integral money and quantity, auction time, the refusal reasons and
the lifecycle: the types every other module speaks.

An identifier is a 128-bit UUID and is only ever compared. A `Price` is a signed 64-bit count of
minor units, a `Qty`, a `Nanos` and a `Seq` are unsigned 64-bit counts, and each operation on them
saturates, checks or is exact, as the program asks for; nothing wraps.
-/

namespace DutchAuction

/-! ## Identifiers -/

abbrev Uuid := BitVec 128

/-- Identifies one auction. -/
abbrev AuctionId := Uuid

/-- Identifies one bidding participant. -/
abbrev ParticipantId := Uuid

/-- A client-supplied key that makes bid submission safely retryable. -/
abbrev IdempotencyKey := Uuid

/-- A position in an auction's total order. -/
abbrev Seq := U64

/-- The first position. -/
def Seq.START : Seq := 0

/-- The next position. `none` is the overflow on which the program stops. -/
def Seq.next (s : Seq) : Option Seq := s.checkedSucc

theorem Seq.next_eq_some {s t : Seq} : s.next = some t ↔ t.val = s.val + 1 :=
  U64.checkedSucc_eq_some

/-- A handle for one allocation of units. The counter behind it never leaves the range of the
supply, so a natural number stands for it. -/
abbrev FillId := ℕ

/-! ## Money and quantity

A cost is a price times a quantity, checked in a signed 64-bit word. Where it is defined it is the
exact product, and the quantity fits a signed word of its own. -/

/-- A price in minor units. -/
abbrev Price := I64

/-- A quantity of indivisible units. -/
abbrev Qty := U64

/-- Total consideration for `qty` units at this price; `none` on overflow, and also when `qty`
itself does not fit a signed word. -/
def Price.checkedMulQty (p : Price) (qty : Qty) : Option I64 :=
  (I64.ofInt? qty.val).bind fun q ↦ p.checkedMul q

/-- Clamp into `[floor, start]`. -/
def Price.clampTo (p floor start : Price) : Price := I64.clamp p floor start

def Qty.isZero (q : Qty) : Bool := q.val = 0

@[simp] theorem Qty.isZero_eq_true {q : Qty} : Qty.isZero q = true ↔ q.val = 0 := decide_eq_true_iff

@[simp] theorem Qty.isZero_eq_false {q : Qty} : Qty.isZero q = false ↔ 0 < q.val := by
  rw [Qty.isZero, decide_eq_false_iff_not]
  omega

theorem Price.checkedMulQty_eq_some {p : Price} {qty : Qty} {a : I64} :
    Price.checkedMulQty p qty = some a ↔ (qty.val : ℤ) < 2 ^ 63 ∧ a.val = p.val * qty.val := by
  unfold Price.checkedMulQty
  rw [Option.bind_eq_some_iff]
  constructor
  · rintro ⟨q, hq, ha⟩
    rw [I64.ofInt?_eq_some] at hq
    rw [I64.checkedMul, I64.ofInt?_eq_some, hq] at ha
    exact ⟨hq ▸ q.val_lt, ha⟩
  · rintro ⟨hlt, ha⟩
    refine ⟨⟨qty.val, by omega, hlt⟩, I64.ofInt?_eq_some.mpr rfl, ?_⟩
    rw [I64.checkedMul, I64.ofInt?_eq_some, ha]

/-! ## Time -/

/-- Nanoseconds elapsed since the auction opened. -/
abbrev Nanos := U64

/-- Which batch window this instant falls into. A zero width puts every instant in its own. -/
def Nanos.windowIndex (t width : Nanos) : U64 := if width.val = 0 then t else t.div width

/-! ## Refusals and lifecycle -/

/-- Why a command was refused. -/
inductive RejectReason
  /-- The auction is not accepting bids. -/
  | notLive
  /-- The expected price was outside the tolerance band; carries the true price. -/
  | priceMoved (serverPrice : Price)
  /-- No units remain. -/
  | supplyExhausted
  /-- The collateral does not cover the requested quantity at the current price. -/
  | insufficientCollateral
  /-- Quantity was zero. -/
  | zeroQuantity
  /-- The participant exceeded their bid rate limit. -/
  | rateLimited
  /-- The system shed this bid under overload. -/
  | busy
  /-- A resting limit above the current clock price. -/
  | limitAboveClock (serverPrice : Price)
  /-- The auction ended with this bid still resting: the clock never reached its limit. -/
  | unfilled
  /-- No live bid exists under this key for this participant. -/
  | unknownBid
deriving DecidableEq

/-- Lifecycle of an auction. -/
inductive Status
  /-- Created but not yet open for bids. -/
  | pending
  /-- The clock is running and bids are accepted. -/
  | live
  /-- Supply was exhausted or the floor was reached. -/
  | cleared
  /-- Cancelled by an operator. -/
  | cancelled
deriving DecidableEq

def Status.acceptsBids (s : Status) : Bool := s = .live

def Status.isTerminal (s : Status) : Bool := s = .cleared ∨ s = .cancelled

@[simp] theorem Status.acceptsBids_iff {s : Status} : s.acceptsBids = true ↔ s = .live :=
  decide_eq_true_iff

@[simp] theorem Status.isTerminal_iff {s : Status} :
    s.isTerminal = true ↔ s = .cleared ∨ s = .cancelled := decide_eq_true_iff

end DutchAuction
