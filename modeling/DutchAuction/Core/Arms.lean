import DutchAuction.Core.Keys

/-!
# The arms that are never taken

Three pieces of code guard against situations that the rest of the machine never produces: the arms
of `setOutcome` that find a fill already on record, the outcome they can leave behind for a key
filled and then cancelled, and the branch of the settlement loop that puts the remainder of a
partially filled resting bid back on the ladder.

`arms` lists, for one command, every such arm its execution takes, by following the handlers call by
call. It is empty for every command of every run (`arms_eq_nil`): a bid being settled or turned away
is live, so its record is queued or resting; a key being refused, queued or rested is fresh; and a
bid filled in part exhausts the supply. The last section puts this together with the agreement of
the record and the book.
-/

namespace DutchAuction

/-- A guarded arm taken. -/
inductive Arm
  /-- `setOutcome` found a fill on record. -/
  | merged (prior fresh : Outcome)
  /-- The settlement loop put a remainder back on the ladder. -/
  | requeued (bid : PendingBid)

namespace AuctionState

/-! ## The arms of each operation

An arm is one of the three guarded branches. Each operation is given the list of the arms that it
takes. -/

/-- The arm a call of `setOutcome` takes. -/
def setOutcomeArms (key : IdempotencyKey) (outcome : Outcome) (s : AuctionState) : List Arm :=
  match s.outcomes key with
  | some (.filled qty price) => [.merged (.filled qty price) outcome]
  | some (.filledThenCancelled qty price) => [.merged (.filledThenCancelled qty price) outcome]
  | _ => []

/-- The arm the tail of a settlement pass takes. -/
def requeueArms (exhausted : Bool) (b : PendingBid) (alloc : Qty) : List Arm :=
  match b.restingLimit, Qty.isZero (b.qty.saturatingSub alloc) || exhausted with
  | some _, false => [.requeued b]
  | _, _ => []

def settleArms (price : Price) (exhausted : Bool) (ba : PendingBid × ℕ) (s : AuctionState) :
    List Arm :=
  let alloc : Qty := U64.saturate ba.2
  if Qty.isZero alloc then s.setOutcomeArms ba.1.key (.rejected .supplyExhausted)
  else s.setOutcomeArms ba.1.key (.filled alloc price) ++ requeueArms exhausted ba.1 alloc

/-- The arms of a loop whose passes are `f`. -/
def loopArms {α : Type*} (f : α → AuctionState → AuctionState × List Event)
    (arms : α → AuctionState → List Arm) : List α → AuctionState → List Arm
  | [], _ => []
  | a :: as, s => arms a s ++ loopArms f arms as (f a s).1

def turnAwayPendingArms (reason : RejectReason) : List PendingBid → AuctionState → List Arm :=
  loopArms (turnAwayPending reason) fun b ↦ setOutcomeArms b.key (.rejected reason)

def drainLadderArms (reason : RejectReason) (s : AuctionState) : List Arm :=
  loopArms (turnAwayResting reason) (fun b ↦ setOutcomeArms b.key (.rejected reason))
    s.resting.drainAll.1 { s with resting := s.resting.drainAll.2 }

def clearArms (price : Price) (s : AuctionState) : List Arm :=
  (Emit.forEach (repriceFill price) s.fills
    { s with status := .cleared, clearingPrice := some price, fills := [] }).1.drainLadderArms
      .unfilled

def matchWindowArms (price : Price) (bids : List PendingBid) (s : AuctionState) : List Arm :=
  let sorted := byPriority bids
  let m := matchLevels (priceLevels sorted) s.supplyRemaining false
  let s := { s with supplyRemaining := m.2.1 }
  loopArms (settle price m.2.2) (settleArms price m.2.2) (sorted.zip m.1) s ++
    if m.2.2 then (Emit.forEach (settle price m.2.2) (sorted.zip m.1) s).1.clearArms price else []

def flushWindowArms (s : AuctionState) : List Arm :=
  match s.window with
  | none => []
  | some w =>
    let s := { s with window := none }
    if s.status.acceptsBids then s.matchWindowArms w.price w.bids
    else turnAwayPendingArms .notLive w.bids s

def closeElapsedWindowArms (ts : Nanos) (s : AuctionState) : List Arm :=
  match s.window with
  | none => []
  | some w => if (s.config.windowBounds ts).1 > w.index then s.flushWindowArms else []

def onTakeArms (seq : Seq) (ts : Nanos) (participant : ParticipantId) (key : IdempotencyKey)
    (qty : Qty) (expectedPrice : Price) (s : AuctionState) : List Arm :=
  let clock := s.config.priceAt ts
  if I64.absDiff clock expectedPrice > s.config.priceTolerance then
    s.setOutcomeArms key (.rejected (.priceMoved clock))
  else
    let (index, price) := s.config.windowBounds ts
    match s.reserve participant price qty with
    | (s, false) => s.setOutcomeArms key (.rejected .insufficientCollateral)
    | (s, true) =>
      let s := s.pushPending index price ⟨seq, participant, key, qty, price, price, none⟩
      s.setOutcomeArms key (.queued qty) ++
        let s := s.setOutcome key (.queued qty)
        if s.config.batchWindow.val = 0 then s.flushWindowArms else []

def onRestArms (seq : Seq) (ts : Nanos) (participant : ParticipantId) (key : IdempotencyKey)
    (qty : Qty) (limit : Price) (s : AuctionState) : List Arm :=
  let clock := s.config.priceAt ts
  if limit > clock then s.setOutcomeArms key (.rejected (.limitAboveClock clock))
  else
    match s.reserve participant limit qty with
    | (s, false) => s.setOutcomeArms key (.rejected .insufficientCollateral)
    | (s, true) =>
      { s with resting := s.resting.insert ⟨seq, participant, key, qty, limit⟩ }.setOutcomeArms key
        (.resting qty)

def onBidArms (seq : Seq) (ts : Nanos) (participant : ParticipantId) (key : IdempotencyKey)
    (qty : Qty) (kind : BidKind) (s : AuctionState) : List Arm :=
  match s.outcomes key with
  | some _ => []
  | none =>
    if Qty.isZero qty then s.setOutcomeArms key (.rejected .zeroQuantity)
    else if !s.status.acceptsBids then s.setOutcomeArms key (.rejected .notLive)
    else
      match kind with
      | .take expectedPrice => s.onTakeArms seq ts participant key qty expectedPrice
      | .resting limit => s.onRestArms seq ts participant key qty limit

def onCancelRestingArms (participant : ParticipantId) (key : IdempotencyKey) (s : AuctionState) :
    List Arm :=
  match s.resting.remove participant key with
  | (some _, _) => s.setOutcomeArms key .cancelled
  | (none, _) => []

def settleAtFloorArms (s : AuctionState) : List Arm :=
  s.flushWindowArms ++
    if s.flushWindow.1.status.acceptsBids then s.flushWindow.1.clearArms s.config.floorPrice else []

def onTickArms (ts : Nanos) (s : AuctionState) : List Arm :=
  if !s.status.acceptsBids then []
  else
    let s := s.triggerResting ts
    (if s.config.batchWindow.val = 0 then s.flushWindowArms else []) ++
      let s := ((if s.config.batchWindow.val = 0 then flushWindow else Emit.skip) s).1
      if s.status.acceptsBids && s.config.schedule.atFloor ts then s.settleAtFloorArms else []

def onCancelArms (s : AuctionState) : List Arm :=
  if s.status.isTerminal then []
  else
    let bids := (s.window.map OpenWindow.bids).getD []
    let s := { s with status := .cancelled, window := none }
    turnAwayPendingArms .notLive bids s ++
      (Emit.forEach (turnAwayPending .notLive) bids s).1.drainLadderArms .notLive

def handleArms (seq : Seq) (ts : Nanos) : Command → AuctionState → List Arm
  | .open, _ => []
  | .setCollateral _ _, _ => []
  | .submitBid participant key qty kind, s => s.onBidArms seq ts participant key qty kind
  | .cancelResting participant key, s => s.onCancelRestingArms participant key
  | .tick, s => s.onTickArms ts
  | .cancel, s => s.onCancelArms

/-- Every guarded arm that applying one record takes. -/
def arms (s : AuctionState) (r : LogRecord) : List Arm :=
  let now := max r.ts s.now
  let s := s.stamp r.seq r.ts
  s.closeElapsedWindowArms now ++ (s.closeElapsedWindow now).1.handleArms r.seq now r.cmd

/-! ## None is taken

A bid that a loop holds is live, so its record is not a fill; a bid that received something leaves
a remainder only if the supply is exhausted, and then nothing is put back. -/

variable {s : AuctionState} {floor : Price} {t : Nanos}

theorem setOutcomeArms_of_none {key : IdempotencyKey} (outcome : Outcome)
    (hkey : s.outcomes key = none) : s.setOutcomeArms key outcome = [] := by
  rw [setOutcomeArms, hkey]

theorem setOutcomeArms_of_holding {b : LiveBid} {bids : List LiveBid} (outcome : Outcome)
    (h : (s.holding (b :: bids) []).Keyed) : s.setOutcomeArms b.key outcome = [] := by
  have hb : b ∈ (s.holding (b :: bids) []).live :=
    Multiset.mem_add.mpr (Or.inl (Multiset.mem_coe.mpr List.mem_cons_self))
  have hrecord : s.outcomes b.key = some (.queued b.qty) ∨
      s.outcomes b.key = some (.resting b.qty) := (h.of_live hb).2.2
  rcases hrecord with hrecord | hrecord
  · rw [setOutcomeArms, hrecord]
  · rw [setOutcomeArms, hrecord]

theorem loopArms_eq_nil {α : Type*} {f : α → AuctionState → AuctionState × List Event}
    {arms : α → AuctionState → List Arm} {P : List α → AuctionState → Prop}
    (pass : ∀ a as s, P (a :: as) s → arms a s = [] ∧ P as (f a s).1) {l : List α}
    (h : P l s) : loopArms f arms l s = [] := by
  induction l generalizing s with
  | nil => rfl
  | cons a as ih =>
    obtain ⟨harms, hP⟩ := pass a as s h
    rw [loopArms, harms, ih hP, List.nil_append]

theorem turnAwayPendingArms_eq_nil {reason : RejectReason} {l : List PendingBid}
    (h : (s.holding (l.map PendingBid.live) []).Keyed) : turnAwayPendingArms reason l s = [] :=
  loopArms_eq_nil (P := fun l s ↦ (s.holding (l.map PendingBid.live) []).Keyed)
    (fun b _ _ h ↦ ⟨setOutcomeArms_of_holding (b := b.live) _ h,
      h.move (move_turnAway reason b.live : Book.Move 0 .tick _ _)⟩) h

theorem drainLadderArms_eq_nil {reason : RejectReason} (h : s.book.Keyed) :
    s.drainLadderArms reason = [] := by
  rw [← holding_ladder] at h
  exact loopArms_eq_nil (P := fun l s ↦ (s.holding (l.map RestingBid.live) []).Keyed)
    (fun b _ _ h ↦ ⟨setOutcomeArms_of_holding (b := b.live) _ h,
      h.move (move_turnAway reason b.live : Book.Move 0 .tick _ _)⟩) h

theorem clearArms_eq_nil {price : Price} (h : s.book.Keyed)
    (hprice : ∀ f ∈ s.fills, price ≤ f.price) :
    s.clearArms price = [] := by
  refine drainLadderArms_eq_nil ?_
  rw [← s.holding_fills price] at h
  exact (moves_repriceFill le_rfl hprice _ : Book.Moves _ .tick _ _).keeps
    (fun _ _ h hm ↦ h.move hm) h

theorem requeueArms_eq_nil {exhausted : Bool} {b : PendingBid} {alloc : ℕ}
    (hle : alloc ≤ b.qty.val) (hfull : exhausted = false → alloc = b.qty.val) :
    requeueArms exhausted b (U64.saturate alloc) = [] := by
  rw [requeueArms, remainder_done hle hfull]
  cases b.restingLimit with
  | none => rfl
  | some limit => rfl

private theorem settleLoopArms_eq_nil {w : OpenWindow} {supply : Qty} {s : AuctionState}
    (hcovered : ∀ b ∈ w.bids, w.price ≤ b.reservePrice)
    (h : (s.holding ((allocations w.bids supply).map fun ba ↦ ba.1.live) []).Keyed) :
    loopArms (settle w.price (matchLevels (priceLevels (byPriority w.bids)) supply false).2.2)
      (settleArms w.price (matchLevels (priceLevels (byPriority w.bids)) supply false).2.2)
      (allocations w.bids supply) s = [] := by
  refine loopArms_eq_nil
    (P := fun l s ↦ (s.holding (l.map fun ba ↦ ba.1.live) []).Keyed ∧
      ∀ ba ∈ l, ba ∈ allocations w.bids supply) (fun ba l s h ↦ ?_) ⟨h, fun _ hba ↦ hba⟩
  obtain ⟨hkeyed, hmem⟩ := h
  have hba := hmem ba List.mem_cons_self
  have hle := alloc_le_qty hba
  have hfull := alloc_eq_qty_of_not_exhausted hba
  refine ⟨?_, ?_, fun c hc ↦ hmem c (List.mem_cons_of_mem _ hc)⟩
  · unfold settleArms
    dsimp only
    split_ifs with hz
    · exact setOutcomeArms_of_holding (b := ba.1.live) _ hkeyed
    · have hpos : 0 < ba.2 := Nat.pos_of_ne_zero fun h ↦ hz (isZero_saturate.mpr h)
      rw [requeueArms_eq_nil hle (hfull hpos), List.append_nil]
      exact setOutcomeArms_of_holding (b := ba.1.live) _ hkeyed
  · exact hkeyed.move (move_settle le_rfl (hcovered ba.1 (mem_of_mem_allocations hba)) hle hfull :
      Book.Move _ .tick _ _)

theorem flushWindowArms_eq_nil (h : PricedAt t s) (hkeyed : s.book.Keyed)
    (hripe : ∀ w, s.window = some w → s.status = .live → s.Ripe w) : s.flushWindowArms = [] := by
  unfold flushWindowArms
  cases hw : s.window with
  | none => rfl
  | some w =>
    have hlive : s.status = .live := by
      by_contra hstatus
      exact nomatch (h.idle hstatus).1.symm.trans hw
    have hready := hripe w hw hlive
    have hheld := s.holding_window (s.supplyAfter w) hw
      (allocations_bids_perm w.bids s.supplyRemaining)
    rw [List.map_map] at hheld
    dsimp only
    rw [if_pos (Status.acceptsBids_iff.mpr hlive)]
    refine List.append_eq_nil_iff.mpr ⟨settleLoopArms_eq_nil (h.covered w hw) ?_, ?_⟩
    · exact hheld ▸ hkeyed
    · have hdec : decide (s.Exhausts w) =
          (matchLevels (priceLevels (byPriority w.bids)) s.supplyRemaining false).2.2 :=
        Bool.decide_eq_true
      have hset : (s.settled w).clearArms w.price = [] :=
        clearArms_eq_nil
          ((moves_settled h hw hready : Book.Moves _ .tick _ _).keeps (fun _ _ h hm ↦ h.move hm)
            hkeyed)
          fun f hf ↦ price_le_of_mem_settled hready hf
      unfold settled settling at hset
      rw [hdec] at hset
      split_ifs
      · exact hset
      · rfl

/-! ### Every command -/

theorem closeElapsedWindowArms_eq_nil (h : s.PricedBefore) (hkeyed : s.book.Keyed) :
    s.closeElapsedWindowArms s.now = [] := by
  obtain ⟨t, -, h⟩ := h
  unfold closeElapsedWindowArms
  cases hw : s.window with
  | none => rfl
  | some w =>
    dsimp only
    split_ifs with helapsed
    · refine flushWindowArms_eq_nil h hkeyed fun w' hw' hlive ↦ ?_
      rw [hw] at hw'
      cases hw'
      exact h.ripe_of_elapsed hw hlive helapsed
    · rfl

private theorem phase_keyed {cmd : Command} {r : AuctionState × List Event} (h : s.Priced)
    (hkeyed : s.book.Keyed) (hphase : s.Phase cmd r) : r.1.Priced ∧ r.1.book.Keyed :=
  ⟨h.phase hphase, (hphase.moves h).keeps (fun _ _ h hm ↦ h.move hm) hkeyed⟩

private theorem onTakeArms_eq_nil (h : s.Priced) (hkeyed : s.book.Keyed) (seq : Seq)
    (participant : ParticipantId) {key : IdempotencyKey} {qty : Qty} (expected : Price)
    (hkey : s.outcomes key = none) (hqty : 0 < qty.val) (hlive : s.status = .live) :
    s.onTakeArms seq s.now participant key qty expected = [] := by
  unfold onTakeArms
  dsimp only
  obtain ⟨c, hc⟩ := s.reserve_frame participant (s.config.windowBounds s.now).2 qty
  have hkey' :
      (s.reserve participant (s.config.windowBounds s.now).2 qty).1.outcomes key = none := by
    rw [hc]
    exact hkey
  split_ifs with hmoved
  · exact setOutcomeArms_of_none _ hkey
  cases hres : (s.reserve participant (s.config.windowBounds s.now).2 qty).2 with
  | false =>
    rw [← Prod.eta (s.reserve participant _ qty), hres]
    exact setOutcomeArms_of_none _ hkey'
  | true =>
    obtain ⟨hpriced, hkeyed'⟩ := phase_keyed h hkeyed
      (Phase.queue seq participant key qty expected rfl hkey hqty hlive hres (not_lt.mp hmoved))
    have hlive' : (s.enqueue seq participant key qty).1.status = .live := by
      unfold enqueue
      dsimp only
      rw [hc]
      exact hlive
    have hflush : (if (s.enqueue seq participant key qty).1.config.batchWindow.val = 0 then
        (s.enqueue seq participant key qty).1.flushWindowArms else []) = [] := by
      split_ifs with hzero
      · exact flushWindowArms_eq_nil hpriced hkeyed' fun w hw _ ↦
          hpriced.ripe hw hlive' (Or.inl hzero)
      · rfl
    rw [← Prod.eta (s.reserve participant _ qty), hres]
    exact List.append_eq_nil_iff.mpr ⟨setOutcomeArms_of_none _ hkey', hflush⟩

private theorem onBidArms_eq_nil (h : s.Priced) (hkeyed : s.book.Keyed) (seq : Seq)
    (participant : ParticipantId) (key : IdempotencyKey) (qty : Qty) (kind : BidKind) :
    s.onBidArms seq s.now participant key qty kind = [] := by
  unfold onBidArms
  cases hkey : s.outcomes key with
  | some outcome => rfl
  | none =>
    dsimp only
    split_ifs with hzero hlive
    · exact setOutcomeArms_of_none _ hkey
    · exact setOutcomeArms_of_none _ hkey
    · have hqty : 0 < qty.val := Qty.isZero_eq_false.mp (Bool.not_eq_true _ ▸ hzero)
      have hlive : s.status = .live := by simpa using hlive
      cases kind with
      | take expected => exact onTakeArms_eq_nil h hkeyed seq participant expected hkey hqty hlive
      | resting limit =>
        show s.onRestArms seq s.now participant key qty limit = []
        unfold onRestArms
        dsimp only
        obtain ⟨c, hc⟩ := s.reserve_frame participant limit qty
        have hkey' : (s.reserve participant limit qty).1.outcomes key = none := by
          rw [hc]
          exact hkey
        split_ifs
        · exact setOutcomeArms_of_none _ hkey
        cases hres : (s.reserve participant limit qty).2 with
        | false =>
          rw [← Prod.eta (s.reserve participant limit qty), hres]
          exact setOutcomeArms_of_none _ hkey'
        | true =>
          rw [← Prod.eta (s.reserve participant limit qty), hres]
          exact setOutcomeArms_of_none _ hkey'

private theorem onCancelRestingArms_eq_nil (hkeyed : s.book.Keyed) (participant : ParticipantId)
    (key : IdempotencyKey) : s.onCancelRestingArms participant key = [] := by
  unfold onCancelRestingArms
  split
  · rename_i bid resting hrem
    obtain ⟨rfl, -, hperm⟩ := PriceLadder.remove_eq_some (congrArg Prod.fst hrem)
    have hlive : bid.live ∈ s.book.live := by
      rw [live_book, Multiset.mem_coe, liveBids, List.mem_append]
      exact Or.inr (List.mem_map_of_mem (hperm.mem_iff.mpr List.mem_cons_self))
    have hrecord : s.outcomes bid.key = some (.queued bid.qty) ∨
        s.outcomes bid.key = some (.resting bid.qty) := (hkeyed.of_live hlive).2.2
    rcases hrecord with hrecord | hrecord
    · rw [setOutcomeArms, hrecord]
    · rw [setOutcomeArms, hrecord]
  · rfl

private theorem settleAtFloorArms_eq_nil (h : s.Priced) (hkeyed : s.book.Keyed)
    (hlive : s.status = .live) (hfloor : s.config.schedule.atFloor s.now = true) :
    s.settleAtFloorArms = [] := by
  obtain ⟨hpriced, hkeyed'⟩ :=
    phase_keyed h hkeyed (Phase.flush hlive (Or.inr hfloor) : s.Phase .tick _)
  refine List.append_eq_nil_iff.mpr ⟨flushWindowArms_eq_nil h hkeyed fun w hw _ ↦
    h.ripe hw hlive (Or.inr hfloor), ?_⟩
  split_ifs with hlive'
  · refine clearArms_eq_nil hkeyed' fun f hf ↦ ?_
    have hreached := hpriced.fills f hf
    rw [reached_eq_priceAt hpriced (Status.acceptsBids_iff.mp hlive')] at hreached
    rw [← s.flushWindow_frame.2.1]
    exact (AuctionConfig.floor_le_priceAt _).trans hreached
  · rfl

private theorem onTickArms_eq_nil (h : s.Priced) (hkeyed : s.book.Keyed) :
    s.onTickArms s.now = [] := by
  have hfloorArms : ∀ u : AuctionState, u.Priced → u.book.Keyed → u.now = s.now →
      (if u.status.acceptsBids && u.config.schedule.atFloor s.now then u.settleAtFloorArms
        else []) = [] := by
    intro u hu hkeyed hnow
    split_ifs with hfloor
    · rw [Bool.and_eq_true, Status.acceptsBids_iff, ← hnow] at hfloor
      exact settleAtFloorArms_eq_nil hu hkeyed hfloor.1 hfloor.2
    · rfl
  unfold onTickArms
  split_ifs with hlive
  · rfl
  have hlive : s.status = .live := by simpa using hlive
  obtain ⟨hpriced, hkeyed'⟩ := phase_keyed h hkeyed (Phase.trigger hlive : s.Phase .tick _)
  have htriggered := s.triggerResting_eq
  have hlive' : (s.triggerResting s.now).status = .live := by rw [htriggered]; exact hlive
  have hnow : (s.triggerResting s.now).now = s.now := by rw [htriggered]
  dsimp only
  by_cases hbatch : (s.triggerResting s.now).config.batchWindow.val = 0
  · obtain ⟨hpriced', hkeyed''⟩ := phase_keyed hpriced hkeyed'
      (Phase.flush hlive' (Or.inl hbatch) : Phase .tick _ _)
    rw [if_pos hbatch, if_pos hbatch]
    refine List.append_eq_nil_iff.mpr ⟨flushWindowArms_eq_nil hpriced hkeyed' fun w hw _ ↦
      hpriced.ripe hw hlive' (Or.inl hbatch), ?_⟩
    exact hfloorArms _ hpriced' hkeyed'' ((flushWindow_frame _).2.2.trans hnow)
  · rw [if_neg hbatch, if_neg hbatch]
    exact hfloorArms _ hpriced hkeyed' hnow

private theorem onCancelArms_eq_nil (hkeyed : s.book.Keyed) : s.onCancelArms = [] := by
  unfold onCancelArms
  split_ifs with hterm
  · rfl
  rw [← s.holding_cancelled] at hkeyed
  refine List.append_eq_nil_iff.mpr ⟨turnAwayPendingArms_eq_nil hkeyed, drainLadderArms_eq_nil ?_⟩
  exact (moves_forEach PendingBid.live _ (fun b _ s bids ↦ move_turnAway .notLive b.live) _ :
    Book.Moves 0 .tick _ _).keeps (fun _ _ h hm ↦ h.move hm) hkeyed

private theorem handleArms_eq_nil (h : s.Priced) (hkeyed : s.book.Keyed) (seq : Seq)
    (cmd : Command) : s.handleArms seq s.now cmd = [] := by
  cases cmd with
  | «open» => rfl
  | setCollateral participant limit => rfl
  | submitBid participant key qty kind =>
    exact onBidArms_eq_nil h hkeyed seq participant key qty kind
  | cancelResting participant key => exact onCancelRestingArms_eq_nil hkeyed participant key
  | tick => exact onTickArms_eq_nil h hkeyed
  | cancel => exact onCancelArms_eq_nil hkeyed

/-- **No record takes a guarded arm** where the pricing invariant holds and the record agrees with
the book. -/
theorem arms_eq_nil (h : s.Priced) (hkeyed : s.book.Keyed) (r : LogRecord) : s.arms r = [] := by
  have hbefore := h.stamp r.seq r.ts
  have hkeyed' : ((s.stamp r.seq r.ts).closeElapsedWindow (s.stamp r.seq r.ts).now).1.book.Keyed :=
    (hbefore.moves : Book.Moves _ r.cmd _ _).keeps (fun _ _ h hm ↦ h.move hm) hkeyed
  refine List.append_eq_nil_iff.mpr ⟨closeElapsedWindowArms_eq_nil hbefore hkeyed, ?_⟩
  have hhandle := handleArms_eq_nil hbefore.close hkeyed' r.seq r.cmd
  rw [(closeElapsedWindow_frame _ _).2] at hhandle
  exact hhandle

end AuctionState

/-! ## The record and the book -/

/-- **The idempotency record agrees with the book, and every bid is in exactly one place.** No key
is live twice; a key is on record as queued or resting exactly when live, and as filled exactly when
filled, once; a finished auction has nothing live; fills are only appended to, and only fall in
price; and no guarded arm is ever taken. -/
theorem record_agrees_with_book {config : AuctionConfig} {tr : List Transition} {s : AuctionState}
    (hrun : Run config tr s) :
    (s.liveBids.map LiveBid.key).Nodup ∧
      (∀ k q, (s.outcome k = some (.queued q) ∨ s.outcome k = some (.resting q)) ↔
        ∃ b ∈ s.liveBids, b.key = k ∧ b.qty = q) ∧
      (∀ k, (s.fills.filter fun f ↦ f.key = k).length ≤ 1) ∧
      (∀ k q p, s.outcome k = some (.filled q p) ↔
        ∃ f ∈ s.fills, f.key = k ∧ f.qty = q ∧ f.price = p) ∧
      (s.status.isTerminal = true → s.liveBids = []) ∧
      (∀ t ∈ tr, Lowers t.pre.fills t.post.fills) ∧
      (∀ k q p, s.outcome k ≠ some (.filledThenCancelled q p)) ∧
      ∀ t ∈ tr, t.pre.arms t.input = [] := by
  have hkeyed := run_keyed hrun
  have hpriced := run_priced hrun
  refine ⟨?_, fun k q ↦ ?_, fun k ↦ hkeyed.length_fillsAt_le, fun k q p ↦ hkeyed.filled_iff,
    fun hterm ↦ ?_, run_lowers hrun, fun k q p ↦ hkeyed.not_filledThenCancelled, fun t ht ↦ ?_⟩
  · have hnodup := hkeyed.nodup
    rw [s.live_book, Multiset.map_coe] at hnodup
    exact Multiset.coe_nodup.mp hnodup
  · have hiff := hkeyed.live_iff (k := k) (q := q)
    rw [s.live_book] at hiff
    exact hiff
  · have hidle := hpriced.idle fun hlive ↦ by rw [hlive] at hterm; exact nomatch hterm
    rw [AuctionState.liveBids, hidle.1, hidle.2]
    rfl
  · obtain ⟨⟨tr', -, hpre⟩, -⟩ := hrun.split ht
    exact AuctionState.arms_eq_nil (run_priced hpre) (run_keyed hpre) t.input

/-- The record has the bid of key 101 filled for five at 900, so it is in the book with that
fill. -/
theorem record_agrees_with_book_sample :
    ∃ f ∈ (play (.sample 0) sampleRecords).2.fills,
      f.key = 101 ∧ f.qty = U64.lit 5 ∧ f.price = I64.lit 900 :=
  ((record_agrees_with_book (run_play (.sample 0) sampleRecords)).2.2.2.1 101 (U64.lit 5)
    (I64.lit 900)).mp (by decide)

end DutchAuction
