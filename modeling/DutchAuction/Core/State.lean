import Mathlib.Data.List.Sort
import DutchAuction.Core.Alphabet
import DutchAuction.Core.Ladder
import DutchAuction.Library.Emit

/-!
# The auction state machine

One `apply` and nothing else. A handler takes the state and returns the next state together with the
events it pushed, in order; handlers are chained with `Emit.andThen` and loops over bids and fills
are `Emit.forEach`.

The two maps are only ever read and written at a key, so each is a function into `Option`. An entry
that is absent and an entry that holds the default are different values, as they are in the map.

`apply` is undefined exactly where the program asserts that sequence numbers are gapless; everything
else it does is total. Clamping, saturating and checked arithmetic are the operations of
`DutchAuction.Library.MachineInt`.
-/

namespace DutchAuction

/-- A participant's spending ceiling and what is currently committed against it. -/
structure Collateral where
  limit : I64
  committed : I64
deriving DecidableEq

/-- The entry of a participant that was never funded. -/
instance : Inhabited Collateral := ⟨⟨0, 0⟩⟩

def Collateral.available (c : Collateral) : I64 := c.limit.saturatingSub c.committed

/-- A bid admitted into the current batch window, awaiting matching. -/
structure PendingBid where
  seq : Seq
  participant : ParticipantId
  key : IdempotencyKey
  qty : Qty
  /-- The price this bid competes at. Ordering only. -/
  priority : Price
  /-- The price collateral was reserved at, so the release is exact. -/
  reservePrice : Price
  /-- The limit, if this came off the ladder. -/
  restingLimit : Option Price
deriving DecidableEq

/-- The batch window currently accumulating bids. -/
structure OpenWindow where
  index : U64
  /-- The single price every bid in this window fills at. -/
  price : Price
  bids : List PendingBid
deriving DecidableEq

/-- Everything one auction knows about itself. -/
structure AuctionState where
  config : AuctionConfig
  status : Status
  supplyRemaining : Qty
  clearingPrice : Option Price
  fills : List Fill
  nextFillId : FillId
  resting : PriceLadder
  window : Option OpenWindow
  /-- What happened to each idempotency key. -/
  outcomes : IdempotencyKey → Option Outcome
  collateral : ParticipantId → Option Collateral
  lastSeq : Option Seq
  now : Nanos

/-! ## Collateral -/

/-- Commit `price * qty` against a participant. -/
def commit (map : ParticipantId → Option Collateral) (participant : ParticipantId) (price : Price)
    (qty : Qty) : ParticipantId → Option Collateral :=
  let amount := (Price.checkedMulQty price qty).getD I64.maxValue
  let c := (map participant).getD default
  Function.update map participant (some { c with committed := c.committed.saturatingAdd amount })

/-- Give back a reservation; an amount that overflows releases nothing. -/
def release (map : ParticipantId → Option Collateral) (participant : ParticipantId) (price : Price)
    (qty : Qty) : ParticipantId → Option Collateral :=
  let amount := (Price.checkedMulQty price qty).getD 0
  let c := (map participant).getD default
  Function.update map participant (some { c with committed := c.committed.saturatingSub amount })

/-! ## Allocation -/

/-- Hand the rounding remainder out one unit at a time, in priority order. -/
def topUp : List (ℕ × PendingBid) → ℕ → List ℕ
  | [], _ => []
  | (a, b) :: rest, left =>
    if left = 0 then a :: rest.map Prod.fst
    else if a < b.qty.val then (a + 1) :: topUp rest (left - 1)
    else a :: topUp rest left

/-- Allocate `remaining` units across one price level: full fills if the level fits, otherwise
pro-rata by requested quantity. -/
def allocate (level : List PendingBid) (remaining : ℕ) : List ℕ :=
  let demand := (level.map fun b ↦ b.qty.val).sum
  if demand ≤ remaining then level.map fun b ↦ b.qty.val
  else
    let alloc := level.map fun b ↦ remaining * b.qty.val / demand
    topUp (alloc.zip level) (remaining - alloc.sum)

/-- Walk the price levels, best first, spending the supply. Returns the allocations, the supply left
and whether it ran out. -/
def matchLevels : List (List PendingBid) → Qty → Bool → List ℕ × Qty × Bool
  | [], supply, exhausted => ([], supply, exhausted)
  | level :: levels, supply, exhausted =>
    if Qty.isZero supply then
      let r := matchLevels levels supply exhausted
      (level.map (fun _ ↦ 0) ++ r.1, r.2)
    else
      let alloc := allocate level supply.val
      let supply := supply.saturatingSub (U64.saturate alloc.sum)
      let r := matchLevels levels supply (Qty.isZero supply)
      (alloc ++ r.1, r.2)

/-- Priority is price descending, then sequence ascending. -/
def PendingBid.Precedes (a b : PendingBid) : Prop :=
  b.priority < a.priority ∨ (a.priority = b.priority ∧ a.seq ≤ b.seq)

instance : DecidableRel PendingBid.Precedes := fun a b ↦
  inferInstanceAs (Decidable (b.priority < a.priority ∨ (a.priority = b.priority ∧ a.seq ≤ b.seq)))

/-- The bids in matching order. -/
def byPriority (bids : List PendingBid) : List PendingBid :=
  bids.insertionSort PendingBid.Precedes

/-- The maximal runs of equal priority. -/
def priceLevels (sorted : List PendingBid) : List (List PendingBid) :=
  sorted.splitBy fun a b ↦ a.priority = b.priority

/-! ## Outcomes -/

/-- What is recorded for a key whose record was `prior` once `outcome` happens to it: a fill is
never erased. -/
def mergeOutcome : Option Outcome → Outcome → Outcome
  | some (.filled prior _), .filled extra price => .filled (prior.saturatingAdd extra) price
  | some (.filled qty price), .cancelled => .filledThenCancelled qty price
  | some (.filled qty price), .rejected _ => .filled qty price
  | some (.filledThenCancelled qty price), _ => .filledThenCancelled qty price
  | _, fresh => fresh

/-- The outcome with the price it quotes rewritten, if it quotes one. -/
def Outcome.quoting (price : Price) : Outcome → Outcome
  | .filled qty _ => .filled qty price
  | .filledThenCancelled qty _ => .filledThenCancelled qty price
  | outcome => outcome

namespace AuctionState

/-- A fresh auction. -/
def new (config : AuctionConfig) : AuctionState where
  config := config
  status := .pending
  supplyRemaining := config.totalSupply
  clearingPrice := none
  fills := []
  nextFillId := 0
  resting := PriceLadder.new
  window := none
  outcomes := fun _ ↦ none
  collateral := fun _ ↦ none
  lastSeq := none
  now := 0

/-! ## Accessors -/

def outcome (s : AuctionState) (key : IdempotencyKey) : Option Outcome := s.outcomes key

def collateralOf (s : AuctionState) (participant : ParticipantId) : Collateral :=
  (s.collateral participant).getD default

/-- The open window, as its index and the number of bids admitted. -/
def openWindow (s : AuctionState) : Option (U64 × ℕ) :=
  s.window.map fun w ↦ (w.index, w.bids.length)

/-- The price in force: the clock price while the auction runs, the clearing price once it has
settled. -/
def price (s : AuctionState) : Price := s.clearingPrice.getD (s.config.priceAt s.now)

/-- Units allocated so far. -/
def totalFilled (s : AuctionState) : Qty :=
  s.fills.foldl (fun acc f ↦ acc.saturatingAdd f.qty) 0

/-! ## The small moves -/

/-- Record what became of `key`, never regressing a fill. -/
def setOutcome (key : IdempotencyKey) (outcome : Outcome) (s : AuctionState) : AuctionState :=
  { s with
    outcomes := Function.update s.outcomes key (some (mergeOutcome (s.outcomes key) outcome)) }

def reject (key : IdempotencyKey) (reason : RejectReason) (s : AuctionState) :
    AuctionState × List Event :=
  (s.setOutcome key (.rejected reason), [.rejected key reason])

/-- Give a live bid its collateral back and refuse it. -/
def turnAway (reason : RejectReason) (participant : ParticipantId) (key : IdempotencyKey)
    (price : Price) (qty : Qty) (s : AuctionState) : AuctionState × List Event :=
  { s with collateral := release s.collateral participant price qty }.reject key reason

/-- Turn away a bid of the open window, at the price it reserved at. -/
def turnAwayPending (reason : RejectReason) (b : PendingBid) (s : AuctionState) :
    AuctionState × List Event :=
  s.turnAway reason b.participant b.key b.reservePrice b.qty

/-- Turn away a bid of the ladder, at its limit. -/
def turnAwayResting (reason : RejectReason) (b : RestingBid) (s : AuctionState) :
    AuctionState × List Event :=
  s.turnAway reason b.participant b.key b.limit b.qty

/-- Turn away everything still resting. -/
def drainLadder (reason : RejectReason) (s : AuctionState) : AuctionState × List Event :=
  Emit.forEach (turnAwayResting reason) s.resting.drainAll.1
    { s with resting := s.resting.drainAll.2 }

/-- Reserve `price * qty` against a participant's ceiling. The flag is `false` if they cannot cover
it; the map entry is created either way once the cost is representable. -/
def reserve (participant : ParticipantId) (price : Price) (qty : Qty) (s : AuctionState) :
    AuctionState × Bool :=
  match Price.checkedMulQty price qty with
  | none => (s, false)
  | some cost =>
    let c := s.collateralOf participant
    if cost > c.available then
      ({ s with collateral := Function.update s.collateral participant (some c) }, false)
    else
      let c := { c with committed := c.committed.saturatingAdd cost }
      ({ s with collateral := Function.update s.collateral participant (some c) }, true)

/-! ## Clearing -/

/-- One pass of the repricing loop. The loop rewrites the list of fills in place; here it is rebuilt
in order, so each pass appends its fill to the fills already done. -/
def repriceFill (price : Price) (fill : Fill) (s : AuctionState) : AuctionState × List Event :=
  let s := { s with
    outcomes := Function.update s.outcomes fill.key
      ((s.outcomes fill.key).map (Outcome.quoting price)) }
  if fill.price = price then ({ s with fills := s.fills ++ [fill] }, [])
  else
    let freed := fill.price.saturatingSub price
    ({ s with
        collateral := release s.collateral fill.participant freed fill.qty
        fills := s.fills ++ [{ fill with price := price }] },
      [.repriced fill.id fill.price price])

def announceCleared (price : Price) (s : AuctionState) : AuctionState × List Event :=
  (s, [.cleared price s.totalFilled s.supplyRemaining])

/-- End the auction at `price` and reprice every fill to it. -/
def clear (price : Price) (s : AuctionState) : AuctionState × List Event :=
  Emit.andThen (Emit.forEach (repriceFill price) s.fills)
    (Emit.andThen (drainLadder .unfilled) (announceCleared price))
    { s with status := .cleared, clearingPrice := some price, fills := [] }

/-! ## Windows -/

/-- Put a bid into the open window, opening one if there is none. -/
def pushPending (index : U64) (price : Price) (bid : PendingBid) (s : AuctionState) :
    AuctionState :=
  let w := s.window.getD ⟨index, price, []⟩
  { s with window := some { w with bids := w.bids ++ [bid] } }

/-- Put what is left of a partially filled resting bid back on the ladder. -/
def requeueRemainder (exhausted : Bool) (b : PendingBid) (alloc : Qty) (s : AuctionState) :
    AuctionState :=
  let remainder := b.qty.saturatingSub alloc
  match b.restingLimit, Qty.isZero remainder || exhausted with
  | some limit, false =>
    { s with
      collateral := commit s.collateral b.participant limit remainder
      resting := s.resting.requeue ⟨b.seq, b.participant, b.key, remainder, limit⟩ }
  | _, _ => s

/-- One pass of the settlement loop: release the reservation, and either refuse the bid or commit at
the price paid and record the fill. -/
def settle (price : Price) (exhausted : Bool) (ba : PendingBid × ℕ) (s : AuctionState) :
    AuctionState × List Event :=
  let b := ba.1
  let alloc : Qty := U64.saturate ba.2
  let s := { s with collateral := release s.collateral b.participant b.reservePrice b.qty }
  if Qty.isZero alloc then s.reject b.key .supplyExhausted
  else
    let fill : Fill := ⟨s.nextFillId, b.seq, b.participant, b.key, alloc, price⟩
    let s := { s with
      collateral := commit s.collateral b.participant price alloc
      nextFillId := s.nextFillId + 1
      fills := s.fills ++ [fill] }
    let s := s.setOutcome b.key (.filled alloc price)
    (s.requeueRemainder exhausted b alloc, [.filled fill])

/-- Match everything in `bids` against the remaining supply at `price`, and clear if that exhausts
it. -/
def matchWindow (price : Price) (bids : List PendingBid) (s : AuctionState) :
    AuctionState × List Event :=
  let sorted := byPriority bids
  let m := matchLevels (priceLevels sorted) s.supplyRemaining false
  let exhausted := m.2.2
  Emit.andThen (Emit.forEach (settle price exhausted) (sorted.zip m.1))
    (if exhausted then clear price else Emit.skip) { s with supplyRemaining := m.2.1 }

/-- Settle the open window. -/
def flushWindow (s : AuctionState) : AuctionState × List Event :=
  match s.window with
  | none => (s, [])
  | some w =>
    let s := { s with window := none }
    if s.status.acceptsBids then s.matchWindow w.price w.bids
    else Emit.forEach (turnAwayPending .notLive) w.bids s

/-- Settle the open window if `ts` has moved past it. -/
def closeElapsedWindow (ts : Nanos) (s : AuctionState) : AuctionState × List Event :=
  match s.window with
  | none => (s, [])
  | some w => if (s.config.windowBounds ts).1 > w.index then s.flushWindow else (s, [])

/-! ## Handlers -/

def onOpen (s : AuctionState) : AuctionState × List Event :=
  if s.status = .pending then
    ({ s with status := .live }, [.opened s.config.startPrice s.config.totalSupply])
  else (s, [])

def onSetCollateral (participant : ParticipantId) (limit : I64) (s : AuctionState) :
    AuctionState × List Event :=
  let c := { s.collateralOf participant with limit := limit }
  ({ s with collateral := Function.update s.collateral participant (some c) },
    [.collateralSet participant limit])

/-- The market-take branch of a bid that passed the common checks. -/
def onTake (seq : Seq) (ts : Nanos) (participant : ParticipantId) (key : IdempotencyKey) (qty : Qty)
    (expectedPrice : Price) (s : AuctionState) : AuctionState × List Event :=
  let clock := s.config.priceAt ts
  if I64.absDiff clock expectedPrice > s.config.priceTolerance then
    s.reject key (.priceMoved clock)
  else
    let (index, price) := s.config.windowBounds ts
    match s.reserve participant price qty with
    | (s, false) => s.reject key .insufficientCollateral
    | (s, true) =>
      let s := s.pushPending index price ⟨seq, participant, key, qty, price, price, none⟩
      let s := s.setOutcome key (.queued qty)
      -- With batching off every bid is its own window, so it matches immediately.
      Emit.andThen (fun s ↦ (s, [.queued key participant qty price]))
        (if s.config.batchWindow.val = 0 then flushWindow else Emit.skip) s

/-- The resting branch of a bid that passed the common checks. -/
def onRest (seq : Seq) (ts : Nanos) (participant : ParticipantId) (key : IdempotencyKey) (qty : Qty)
    (limit : Price) (s : AuctionState) : AuctionState × List Event :=
  let clock := s.config.priceAt ts
  if limit > clock then s.reject key (.limitAboveClock clock)
  else
    match s.reserve participant limit qty with
    | (s, false) => s.reject key .insufficientCollateral
    | (s, true) =>
      let s := { s with resting := s.resting.insert ⟨seq, participant, key, qty, limit⟩ }
      (s.setOutcome key (.resting qty), [.rested key participant qty limit])

def onBid (seq : Seq) (ts : Nanos) (participant : ParticipantId) (key : IdempotencyKey) (qty : Qty)
    (kind : BidKind) (s : AuctionState) : AuctionState × List Event :=
  match s.outcomes key with
  -- A retry returns the original answer and executes nothing.
  | some outcome => (s, [.duplicate key outcome])
  | none =>
    if Qty.isZero qty then s.reject key .zeroQuantity
    else if !s.status.acceptsBids then s.reject key .notLive
    else
      match kind with
      | .take expectedPrice => s.onTake seq ts participant key qty expectedPrice
      | .resting limit => s.onRest seq ts participant key qty limit

def onCancelResting (participant : ParticipantId) (key : IdempotencyKey) (s : AuctionState) :
    AuctionState × List Event :=
  match s.resting.remove participant key with
  | (some bid, resting) =>
    let s := { s with
      resting := resting
      collateral := release s.collateral participant bid.limit bid.qty }
    (s.setOutcome key .cancelled, [.restingCancelled key participant bid.qty])
  | (none, _) =>
    match s.outcomes key with
    | some outcome => (s, [.duplicate key outcome])
    | none => (s, [.rejected key .unknownBid])

/-- Move a triggered bid from the ladder into the open window. -/
def pushTriggered (index : U64) (price : Price) (s : AuctionState) (bid : RestingBid) :
    AuctionState :=
  s.pushPending index price
    ⟨bid.seq, bid.participant, bid.key, bid.qty, bid.limit, bid.limit, some bid.limit⟩

/-- Drain every resting bid the clock has reached into the open window. -/
def triggerResting (ts : Nanos) (s : AuctionState) : AuctionState :=
  let (index, price) := s.config.windowBounds ts
  let drained := s.resting.drainTriggered (s.config.priceAt ts)
  drained.1.foldl (pushTriggered index price) { s with resting := drained.2 }

/-- Settle what is in flight and close the auction at the floor. -/
def settleAtFloor (s : AuctionState) : AuctionState × List Event :=
  Emit.andThen flushWindow
    (fun s ↦ if s.status.acceptsBids then s.clear s.config.floorPrice else (s, [])) s

def onTick (ts : Nanos) (s : AuctionState) : AuctionState × List Event :=
  if !s.status.acceptsBids then (s, [])
  else
    Emit.andThen (if s.config.batchWindow.val = 0 then flushWindow else Emit.skip)
      (fun s ↦
        if s.status.acceptsBids && s.config.schedule.atFloor ts then s.settleAtFloor else (s, []))
      (s.triggerResting ts)

def onCancel (s : AuctionState) : AuctionState × List Event :=
  if s.status.isTerminal then (s, [])
  else
    Emit.andThen
      (Emit.forEach (turnAwayPending .notLive) ((s.window.map OpenWindow.bids).getD []))
      (Emit.andThen (drainLadder .notLive) fun s ↦ (s, [.cancelled]))
      { s with status := .cancelled, window := none }

/-! ## Apply -/

/-- Hand a command to its handler. -/
def handle (seq : Seq) (ts : Nanos) : Command → AuctionState → AuctionState × List Event
  | .open => onOpen
  | .setCollateral participant limit => onSetCollateral participant limit
  | .submitBid participant key qty kind => onBid seq ts participant key qty kind
  | .cancelResting participant key => onCancelResting participant key
  | .tick => onTick ts
  | .cancel => onCancel

/-- The state stamped with this command's position and time. Time cannot run backwards. -/
def stamp (seq : Seq) (ts : Nanos) (s : AuctionState) : AuctionState :=
  { s with lastSeq := some seq, now := max ts s.now }

/-- What one command does once its sequence number has been accepted: settle a window whose time has
passed, then handle the command. -/
def advance (seq : Seq) (ts : Nanos) (cmd : Command) (s : AuctionState) :
    AuctionState × List Event :=
  let now := max ts s.now
  Emit.andThen (closeElapsedWindow now) (handle seq now cmd) (s.stamp seq ts)

/-- Whether `seq` may be applied next: any position to a fresh auction, and afterwards only the one
past the last. -/
def Accepts (s : AuctionState) (seq : Seq) : Prop :=
  ∀ last, s.lastSeq = some last → last.next = some seq

instance (s : AuctionState) (seq : Seq) : Decidable (s.Accepts seq) :=
  match h : s.lastSeq with
  | none => .isTrue fun last hl ↦ by rw [h] at hl; cases hl
  | some last =>
    decidable_of_iff (last.next = some seq)
      ⟨fun hn l hl ↦ by rw [h] at hl; cases hl; exact hn, fun ha ↦ ha last h⟩

/-- Apply one command. This is the only way state changes; `none` is the assertion that the
sequence is gapless and strictly monotonic. -/
def apply (s : AuctionState) (seq : Seq) (ts : Nanos) (cmd : Command) :
    Option (AuctionState × List Event) :=
  if s.Accepts seq then some (s.advance seq ts cmd) else none

end AuctionState

end DutchAuction
