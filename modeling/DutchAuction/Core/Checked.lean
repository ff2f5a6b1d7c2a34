import DutchAuction.Core.State
import DutchAuction.Library.Stopping

/-!
# Where the state machine can stop

The program once more, with everything it could stop at. A build that checks stops at an addition,
subtraction or multiplication that leaves the range of its words, at a division by zero, at a clamp
between crossed bounds, and at an assertion, of either kind. All of these are conditions here, and a
function is undefined where one of them fails. So are the two fallbacks that the program has for a
product it holds to be representable, in `commit` and `release`.

What the program itself asks to saturate, to narrow with a default or to be checked does not stop,
and stands as it does in `DutchAuction.Core.State`; so does every function that is not repeated
here. -/

namespace DutchAuction

namespace Checked

open Stopping (fits fitsSigned sub div tdiv sum check)

/-! ## The price clock -/

/-- Clamp into `[floor, start]`, which must not be crossed. -/
def clampTo (p floor start : Price) : Option Price := do
  check (floor ≤ start)
  return Price.clampTo p floor start

/-- Ceiling division for non-negative operands. -/
def ceilDiv (numerator denominator : ℤ) : Option ℤ := do
  check (0 ≤ numerator ∧ 0 < denominator)
  let last ← fitsSigned 128 (numerator + denominator)
  let last ← fitsSigned 128 (last - 1)
  tdiv 128 last denominator

/-- Unsigned division of words. -/
def divU64 (a b : U64) : Option U64 := do
  check (b.val ≠ 0)
  return a.div b

/-- The price at `elapsed` nanoseconds after the auction opened. -/
def priceAt (s : PriceSchedule) (elapsed : Nanos) : Option Price :=
  match s.kind with
  | .stepped stepDuration stepSize =>
    if stepDuration.val = 0 then some s.floorPrice
    else do
      let steps ← divU64 elapsed stepDuration
      clampTo (s.startPrice.saturatingSub (saturatingDrop steps stepSize)) s.floorPrice s.startPrice
  | .linear ratePerSec => do
    let dropped ← tdiv 128 (i128SaturatingMul elapsed.val ratePerSec.val) 1000000000
    let drop := (I64.ofInt? dropped).getD I64.maxValue
    clampTo (s.startPrice.saturatingSub drop) s.floorPrice s.startPrice

/-- The earliest instant at which the price is at or below `target`. -/
def timeToReach (s : PriceSchedule) (target : Price) : Option (Option Nanos) :=
  if target > s.startPrice then some (some 0)
  else if target < s.floorPrice then some none
  else
    let dropNeeded := s.startPrice.saturatingSub target
    match s.kind with
    | .stepped stepDuration stepSize =>
      if stepSize.val = 0 then some (if dropNeeded.val = 0 then some 0 else none)
      else do
        let steps ← ceilDiv dropNeeded.val stepSize.val
        return some (((U64.ofInt? steps).getD U64.maxValue).saturatingMul (max stepDuration 1))
    | .linear ratePerSec =>
      if ratePerSec.val = 0 then some (if dropNeeded.val = 0 then some 0 else none)
      else do
        let ns ← ceilDiv (i128SaturatingMul dropNeeded.val 1000000000) ratePerSec.val
        return some ((U64.ofInt? ns).getD U64.maxValue)

/-- Whether the clock has bottomed out at the floor by `elapsed`. -/
def atFloor (s : PriceSchedule) (elapsed : Nanos) : Option Bool := do
  let price ← priceAt s elapsed
  return price = s.floorPrice

/-- The window index `ts` falls in, and the price every bid in it fills at. -/
def windowBounds (c : AuctionConfig) (ts : Nanos) : Option (U64 × Price) :=
  if c.batchWindow.val = 0 then do
    let price ← priceAt c.schedule ts
    return (ts, price)
  else do
    let index ← divU64 ts c.batchWindow
    check (1 ≤ c.batchWindow.val)
    let last :=
      (index.saturatingMul c.batchWindow).saturatingAdd (c.batchWindow.saturatingSub 1)
    let price ← priceAt c.schedule last
    return (index, price)

/-! ## Collateral -/

def commit (map : ParticipantId → Option Collateral) (participant : ParticipantId) (price : Price)
    (qty : Qty) : Option (ParticipantId → Option Collateral) := do
  let amount ← Price.checkedMulQty price qty
  let c := (map participant).getD default
  return Function.update map participant
    (some { c with committed := c.committed.saturatingAdd amount })

def release (map : ParticipantId → Option Collateral) (participant : ParticipantId) (price : Price)
    (qty : Qty) : Option (ParticipantId → Option Collateral) := do
  let amount ← Price.checkedMulQty price qty
  let c := (map participant).getD default
  return Function.update map participant
    (some { c with committed := c.committed.saturatingSub amount })

/-! ## Allocation -/

/-- Hand the rounding remainder out one unit at a time, in priority order. Returns what is still
left as well. -/
def topUp : List (ℕ × PendingBid) → ℕ → Option (List ℕ × ℕ)
  | [], left => some ([], left)
  | (a, b) :: rest, left =>
    if left = 0 then some (a :: rest.map Prod.fst, left)
    else if a < b.qty.val then do
      let a ← fits 64 (a + 1)
      let left ← sub left 1
      let r ← topUp rest left
      return (a :: r.1, r.2)
    else do
      let r ← topUp rest left
      return (a :: r.1, r.2)

/-- Allocate `remaining` units across one price level. -/
def allocate (level : List PendingBid) (remaining : ℕ) : Option (List ℕ) := do
  let demand ← sum 128 (level.map fun b ↦ b.qty.val)
  if demand ≤ remaining then return level.map fun b ↦ b.qty.val
  else
    let alloc ← level.mapM fun b ↦ do
      let product ← fits 128 (remaining * b.qty.val)
      let share ← div product demand
      return share % 2 ^ 64
    let placed ← sum 64 alloc
    let left ← sub remaining placed
    let r ← topUp (alloc.zip level) left
    -- The pro-rata remainder is fully placed.
    check (r.2 = 0)
    return r.1

/-- Walk the price levels, best first, spending the supply. -/
def matchLevels : List (List PendingBid) → Qty → Bool → Option (List ℕ × Qty × Bool)
  | [], supply, exhausted => some ([], supply, exhausted)
  | level :: levels, supply, exhausted =>
    if Qty.isZero supply then do
      let r ← matchLevels levels supply exhausted
      return (level.map (fun _ ↦ 0) ++ r.1, r.2)
    else do
      let alloc ← allocate level supply.val
      let taken ← sum 64 alloc
      -- The slice and what is copied into it are of one length.
      check (alloc.length = level.length)
      let supply := supply.saturatingSub (U64.saturate taken)
      let r ← matchLevels levels supply (Qty.isZero supply)
      return (alloc ++ r.1, r.2)

/-! ## The small moves -/

def turnAway (reason : RejectReason) (participant : ParticipantId) (key : IdempotencyKey)
    (price : Price) (qty : Qty) (s : AuctionState) : Option (AuctionState × List Event) := do
  let collateral ← release s.collateral participant price qty
  return { s with collateral := collateral }.reject key reason

def turnAwayPending (reason : RejectReason) (b : PendingBid) (s : AuctionState) :
    Option (AuctionState × List Event) :=
  turnAway reason b.participant b.key b.reservePrice b.qty s

def turnAwayResting (reason : RejectReason) (b : RestingBid) (s : AuctionState) :
    Option (AuctionState × List Event) :=
  turnAway reason b.participant b.key b.limit b.qty s

def drainLadder (reason : RejectReason) (s : AuctionState) : Option (AuctionState × List Event) :=
  Stopping.forEach (turnAwayResting reason) s.resting.drainAll.1
    { s with resting := s.resting.drainAll.2 }

/-! ## Clearing -/

def repriceFill (price : Price) (fill : Fill) (s : AuctionState) :
    Option (AuctionState × List Event) :=
  let s := { s with
    outcomes := Function.update s.outcomes fill.key
      ((s.outcomes fill.key).map (Outcome.quoting price)) }
  if fill.price = price then some ({ s with fills := s.fills ++ [fill] }, [])
  else do
    let freed := fill.price.saturatingSub price
    let collateral ← release s.collateral fill.participant freed fill.qty
    return ({ s with
        collateral := collateral
        fills := s.fills ++ [{ fill with price := price }] },
      [.repriced fill.id fill.price price])

/-- End the auction at `price`. It must not have ended before. -/
def clear (price : Price) (s : AuctionState) : Option (AuctionState × List Event) := do
  check (s.status.isTerminal = false)
  Stopping.andThen (Stopping.forEach (repriceFill price) s.fills)
    (Stopping.andThen (drainLadder .unfilled) fun s ↦ some (s.announceCleared price))
    { s with status := .cleared, clearingPrice := some price, fills := [] }

/-! ## Windows -/

def requeueRemainder (exhausted : Bool) (b : PendingBid) (alloc : Qty) (s : AuctionState) :
    Option AuctionState :=
  let remainder := b.qty.saturatingSub alloc
  match b.restingLimit, Qty.isZero remainder || exhausted with
  | some limit, false => do
    let collateral ← commit s.collateral b.participant limit remainder
    return { s with
      collateral := collateral
      resting := s.resting.requeue ⟨b.seq, b.participant, b.key, remainder, limit⟩ }
  | _, _ => some s

def settle (price : Price) (exhausted : Bool) (ba : PendingBid × ℕ) (s : AuctionState) :
    Option (AuctionState × List Event) := do
  let b := ba.1
  let alloc : Qty := U64.saturate ba.2
  let collateral ← release s.collateral b.participant b.reservePrice b.qty
  let s := { s with collateral := collateral }
  if Qty.isZero alloc then return s.reject b.key .supplyExhausted
  else
    let collateral ← commit s.collateral b.participant price alloc
    let fill : Fill := ⟨s.nextFillId, b.seq, b.participant, b.key, alloc, price⟩
    let nextFillId ← fits 64 (s.nextFillId + 1)
    let s := { s with
      collateral := collateral
      nextFillId := nextFillId
      fills := s.fills ++ [fill] }
    let s := s.setOutcome b.key (.filled alloc price)
    let s ← requeueRemainder exhausted b alloc s
    return (s, [.filled fill])

def matchWindow (price : Price) (bids : List PendingBid) (s : AuctionState) :
    Option (AuctionState × List Event) := do
  let sorted := byPriority bids
  let m ← matchLevels (priceLevels sorted) s.supplyRemaining false
  let exhausted := m.2.2
  Stopping.andThen (Stopping.forEach (settle price exhausted) (sorted.zip m.1))
    (if exhausted then clear price else fun s ↦ some (Emit.skip s))
    { s with supplyRemaining := m.2.1 }

def flushWindow (s : AuctionState) : Option (AuctionState × List Event) :=
  match s.window with
  | none => some (s, [])
  | some w =>
    let s := { s with window := none }
    if s.status.acceptsBids then matchWindow w.price w.bids s
    else Stopping.forEach (turnAwayPending .notLive) w.bids s

def closeElapsedWindow (ts : Nanos) (s : AuctionState) : Option (AuctionState × List Event) :=
  match s.window with
  | none => some (s, [])
  | some w => do
    let bounds ← windowBounds s.config ts
    if bounds.1 > w.index then flushWindow s else return (s, [])

/-! ## Handlers -/

def onTake (seq : Seq) (ts : Nanos) (participant : ParticipantId) (key : IdempotencyKey) (qty : Qty)
    (expectedPrice : Price) (s : AuctionState) : Option (AuctionState × List Event) := do
  let clock ← priceAt s.config.schedule ts
  if I64.absDiff clock expectedPrice > s.config.priceTolerance then
    return s.reject key (.priceMoved clock)
  else
    let bounds ← windowBounds s.config ts
    let price := bounds.2
    match s.reserve participant price qty with
    | (s, false) => return s.reject key .insufficientCollateral
    | (s, true) =>
      let s := s.pushPending bounds.1 price ⟨seq, participant, key, qty, price, price, none⟩
      let s := s.setOutcome key (.queued qty)
      Stopping.andThen (fun s ↦ some (s, [.queued key participant qty price]))
        (if s.config.batchWindow.val = 0 then flushWindow else fun s ↦ some (Emit.skip s)) s

def onRest (seq : Seq) (ts : Nanos) (participant : ParticipantId) (key : IdempotencyKey) (qty : Qty)
    (limit : Price) (s : AuctionState) : Option (AuctionState × List Event) := do
  let clock ← priceAt s.config.schedule ts
  if limit > clock then return s.reject key (.limitAboveClock clock)
  else
    match s.reserve participant limit qty with
    | (s, false) => return s.reject key .insufficientCollateral
    | (s, true) =>
      let s := { s with resting := s.resting.insert ⟨seq, participant, key, qty, limit⟩ }
      return (s.setOutcome key (.resting qty), [.rested key participant qty limit])

def onBid (seq : Seq) (ts : Nanos) (participant : ParticipantId) (key : IdempotencyKey) (qty : Qty)
    (kind : BidKind) (s : AuctionState) : Option (AuctionState × List Event) :=
  match s.outcomes key with
  | some outcome => some (s, [.duplicate key outcome])
  | none =>
    if Qty.isZero qty then some (s.reject key .zeroQuantity)
    else if !s.status.acceptsBids then some (s.reject key .notLive)
    else
      match kind with
      | .take expectedPrice => onTake seq ts participant key qty expectedPrice s
      | .resting limit => onRest seq ts participant key qty limit s

def onCancelResting (participant : ParticipantId) (key : IdempotencyKey) (s : AuctionState) :
    Option (AuctionState × List Event) :=
  match s.resting.remove participant key with
  | (some bid, resting) => do
    let collateral ← release s.collateral participant bid.limit bid.qty
    let s := { s with resting := resting, collateral := collateral }
    return (s.setOutcome key .cancelled, [.restingCancelled key participant bid.qty])
  | (none, _) =>
    match s.outcomes key with
    | some outcome => some (s, [.duplicate key outcome])
    | none => some (s, [.rejected key .unknownBid])

def triggerResting (ts : Nanos) (s : AuctionState) : Option AuctionState := do
  let clock ← priceAt s.config.schedule ts
  let bounds ← windowBounds s.config ts
  let drained := s.resting.drainTriggered clock
  return drained.1.foldl (AuctionState.pushTriggered bounds.1 bounds.2)
    { s with resting := drained.2 }

def settleAtFloor (s : AuctionState) : Option (AuctionState × List Event) :=
  Stopping.andThen flushWindow
    (fun s ↦ if s.status.acceptsBids then clear s.config.floorPrice s else some (s, [])) s

def onTick (ts : Nanos) (s : AuctionState) : Option (AuctionState × List Event) :=
  if !s.status.acceptsBids then some (s, [])
  else do
    let s ← triggerResting ts s
    Stopping.andThen
      (if s.config.batchWindow.val = 0 then flushWindow else fun s ↦ some (Emit.skip s))
      (fun s ↦
        if s.status.acceptsBids then do
          let done ← atFloor s.config.schedule ts
          if done then settleAtFloor s else return (s, [])
        else some (s, [])) s

def onCancel (s : AuctionState) : Option (AuctionState × List Event) :=
  if s.status.isTerminal then some (s, [])
  else
    Stopping.andThen
      (Stopping.forEach (turnAwayPending .notLive) ((s.window.map OpenWindow.bids).getD []))
      (Stopping.andThen (drainLadder .notLive) fun s ↦ some (s, [.cancelled]))
      { s with status := .cancelled, window := none }

/-! ## Apply -/

def handle (seq : Seq) (ts : Nanos) : Command → AuctionState → Option (AuctionState × List Event)
  | .open => fun s ↦ some s.onOpen
  | .setCollateral participant limit => fun s ↦ some (s.onSetCollateral participant limit)
  | .submitBid participant key qty kind => onBid seq ts participant key qty kind
  | .cancelResting participant key => onCancelResting participant key
  | .tick => onTick ts
  | .cancel => onCancel

def advance (seq : Seq) (ts : Nanos) (cmd : Command) (s : AuctionState) :
    Option (AuctionState × List Event) :=
  let now := max ts s.now
  Stopping.andThen (closeElapsedWindow now) (handle seq now cmd) (s.stamp seq ts)

/-- Apply one command. The number after the last must be a number, and the one given. -/
def apply (s : AuctionState) (seq : Seq) (ts : Nanos) (cmd : Command) :
    Option (AuctionState × List Event) :=
  match s.lastSeq with
  | some last => do
    let next ← last.next
    check (seq = next)
    advance seq ts cmd s
  | none => advance seq ts cmd s

end Checked

end DutchAuction
