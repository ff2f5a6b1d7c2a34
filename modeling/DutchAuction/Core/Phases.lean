import DutchAuction.Core.Frame

/-!
# The phases of one command

Every handler is a few phases in a row: refuse, queue a take, rest a limit, withdraw, set a ceiling,
open, trigger the ladder, flush the window, clear at the floor, cancel. `Phase` lists them with what
the code has checked by the time it gets there, and `handle_steps` decomposes every handler into
them. An invariant of the machine is proved once per phase and holds of every command.

One thing happens before the handler: the clock is stamped and an elapsed window is closed
(`closeElapsedWindow_cases`). Between the two a window may be open that the clock has passed, so
that step is kept apart from the phases. -/

namespace DutchAuction

namespace AuctionState

/-- A take that has its reservation: into the window, and on record as queued. -/
def enqueue (seq : Seq) (participant : ParticipantId) (key : IdempotencyKey) (qty : Qty)
    (s : AuctionState) : AuctionState × List Event :=
  let price := (s.config.windowBounds s.now).2
  (((s.reserve participant price qty).1.pushPending (s.config.windowBounds s.now).1 price
      ⟨seq, participant, key, qty, price, price, none⟩).setOutcome key (.queued qty),
    [.queued key participant qty price])

/-- A limit that has its reservation: onto the ladder, and on record as resting. -/
def shelve (seq : Seq) (participant : ParticipantId) (key : IdempotencyKey) (qty : Qty)
    (limit : Price) (s : AuctionState) : AuctionState × List Event :=
  let s := (s.reserve participant limit qty).1
  (({ s with resting := s.resting.insert ⟨seq, participant, key, qty, limit⟩ }).setOutcome key
    (.resting qty), [.rested key participant qty limit])

/-- The resting bid found under the key, withdrawn. -/
def withdraw (participant : ParticipantId) (key : IdempotencyKey) (bid : RestingBid)
    (s : AuctionState) : AuctionState × List Event :=
  (({ s with
      resting := (s.resting.remove participant key).2
      collateral := release s.collateral participant bid.limit bid.qty }).setOutcome key .cancelled,
    [.restingCancelled key participant bid.qty])

/-- One phase of handling `cmd`, with what has been checked on the way to it. -/
inductive Phase (cmd : Command) (s : AuctionState) : AuctionState × List Event → Prop
  /-- Answer a key that is on record with its record. -/
  | duplicate (key : IdempotencyKey) (outcome : Outcome) (hkey : s.outcomes key = some outcome) :
      Phase cmd s (s, [.duplicate key outcome])
  /-- Answer a withdrawal under a key that was never submitted. -/
  | unknown (key : IdempotencyKey) (hkey : s.outcomes key = none) :
      Phase cmd s (s, [.rejected key .unknownBid])
  /-- Refuse a bid before any money moves. -/
  | refuse (key : IdempotencyKey) (reason : RejectReason) (hkey : s.outcomes key = none)
      (hreason : reason ≠ .unfilled ∧ reason ≠ .unknownBid) : Phase cmd s (s.reject key reason)
  /-- Refuse a bid that the participant cannot cover. -/
  | uncovered (participant : ParticipantId) (key : IdempotencyKey) (price : Price) (qty : Qty)
      (hkey : s.outcomes key = none) (hres : (s.reserve participant price qty).2 = false) :
      Phase cmd s ((s.reserve participant price qty).1.reject key .insufficientCollateral)
  /-- Queue a take. -/
  | queue (seq : Seq) (participant : ParticipantId) (key : IdempotencyKey) (qty : Qty)
      (expectedPrice : Price) (hcmd : cmd = .submitBid participant key qty (.take expectedPrice))
      (hkey : s.outcomes key = none) (hqty : 0 < qty.val) (hlive : s.status = .live)
      (hres : (s.reserve participant (s.config.windowBounds s.now).2 qty).2 = true)
      (hmoved : I64.absDiff (s.config.priceAt s.now) expectedPrice ≤ s.config.priceTolerance) :
      Phase cmd s (s.enqueue seq participant key qty)
  /-- Rest a limit. -/
  | rest (seq : Seq) (participant : ParticipantId) (key : IdempotencyKey) (qty : Qty)
      (limit : Price) (hcmd : cmd = .submitBid participant key qty (.resting limit))
      (hkey : s.outcomes key = none) (hqty : 0 < qty.val) (hlive : s.status = .live)
      (hlimit : limit ≤ s.config.priceAt s.now)
      (hres : (s.reserve participant limit qty).2 = true) :
      Phase cmd s (s.shelve seq participant key qty limit)
  /-- Withdraw a resting bid. -/
  | withdraw (participant : ParticipantId) (key : IdempotencyKey) (bid : RestingBid)
      (hbid : (s.resting.remove participant key).1 = some bid) :
      Phase cmd s (s.withdraw participant key bid)
  /-- Set a ceiling. -/
  | fund (participant : ParticipantId) (limit : I64)
      (hcmd : cmd = .setCollateral participant limit) :
      Phase cmd s (s.onSetCollateral participant limit)
  /-- Start the clock. -/
  | «open» (hpending : s.status = .pending) : Phase cmd s s.onOpen
  /-- Drain the ladder down to the clock. -/
  | trigger (hlive : s.status = .live) : Phase cmd s (s.triggerResting s.now, [])
  /-- Settle the window, with batching off or the clock at the floor. -/
  | flush (hlive : s.status = .live)
      (hwhen : s.config.batchWindow.val = 0 ∨ s.config.schedule.atFloor s.now = true) :
      Phase cmd s s.flushWindow
  /-- Close the auction at the floor. -/
  | floor (hlive : s.status = .live) (hfloor : s.config.schedule.atFloor s.now = true)
      (hwindow : s.window = none) : Phase cmd s (s.clear s.config.floorPrice)
  /-- Cancel the auction. -/
  | cancel (hopen : s.status.isTerminal = false) (hcmd : cmd = .cancel) : Phase cmd s s.onCancel

/-! ## What a flush leaves -/

variable {s : AuctionState}

/-- What no handler changes: the configuration, the clock and the position in the log. -/
def fixed (s : AuctionState) : AuctionConfig × Nanos × Option Seq := (s.config, s.now, s.lastSeq)

theorem flushWindow_fixed (s : AuctionState) :
    s.flushWindow.1.window = none ∧ s.flushWindow.1.fixed = s.fixed := by
  rcases s.flushWindow_cases with ⟨hw, hf⟩ | ⟨w, -, -, hf⟩ | ⟨w, hw, hlive, -⟩
  · rw [hf]
    exact ⟨hw, rfl⟩
  · have hbare : s.flushWindow.1.bare = { s.bare with window := none } := by
      rw [hf]
      exact bare_turnAwayPending_loop .notLive w.bids
    have hfixed := congrArg fixed hbare
    exact ⟨congrArg AuctionState.window hbare, hfixed⟩
  · have hbare : s.flushWindow.1.bare.window = none ∧ s.flushWindow.1.bare.fixed = s.fixed := by
      rw [bare_flushWindow_live hw hlive]
      split_ifs
      · rw [bare_clear, bare_settled]
        exact ⟨rfl, rfl⟩
      · rw [bare_settled]
        exact ⟨rfl, rfl⟩
    exact hbare

theorem flushWindow_frame (s : AuctionState) :
    s.flushWindow.1.window = none ∧ s.flushWindow.1.config = s.config ∧
      s.flushWindow.1.now = s.now :=
  ⟨s.flushWindow_fixed.1, congrArg Prod.fst s.flushWindow_fixed.2,
    congrArg (fun f ↦ f.2.1) s.flushWindow_fixed.2⟩

/-! ## Every handler is a sequence of phases

A handler checks, reserves, files a bid or drains the ladder, flushes and ends the auction, in an
order of its own. `Phase` lists what it is put together from, with what is known of the state it is
done in, so that an invariant is proved of each phase once. -/

theorem enqueue_status (s : AuctionState) (seq : Seq) (participant : ParticipantId)
    (key : IdempotencyKey) (qty : Qty) :
    (s.enqueue seq participant key qty).1.status = s.status := by
  obtain ⟨c, hc⟩ := s.reserve_frame participant (s.config.windowBounds s.now).2 qty
  unfold enqueue
  dsimp only
  rw [hc]
  rfl

theorem enqueue_config (s : AuctionState) (seq : Seq) (participant : ParticipantId)
    (key : IdempotencyKey) (qty : Qty) :
    (s.enqueue seq participant key qty).1.config = s.config := by
  obtain ⟨c, hc⟩ := s.reserve_frame participant (s.config.windowBounds s.now).2 qty
  unfold enqueue
  dsimp only
  rw [hc]
  rfl

theorem onTake_moved (seq : Seq) (participant : ParticipantId) (key : IdempotencyKey) (qty : Qty)
    {ts : Nanos} {expectedPrice : Price}
    (hmoved : s.config.priceTolerance < I64.absDiff (s.config.priceAt ts) expectedPrice) :
    s.onTake seq ts participant key qty expectedPrice =
      s.reject key (.priceMoved (s.config.priceAt ts)) :=
  if_pos hmoved

theorem onTake_uncovered (seq : Seq) {participant : ParticipantId} (key : IdempotencyKey)
    {qty : Qty} {ts : Nanos} {expectedPrice : Price}
    (hmoved : I64.absDiff (s.config.priceAt ts) expectedPrice ≤ s.config.priceTolerance)
    (hres : (s.reserve participant (s.config.windowBounds ts).2 qty).2 = false) :
    s.onTake seq ts participant key qty expectedPrice =
      (s.reserve participant (s.config.windowBounds ts).2 qty).1.reject key
        .insufficientCollateral := by
  unfold onTake
  dsimp only
  rw [if_neg (not_lt.mpr hmoved), ← Prod.eta (s.reserve participant _ qty), hres]

theorem onTake_queued (seq : Seq) {participant : ParticipantId} (key : IdempotencyKey) {qty : Qty}
    {expectedPrice : Price}
    (hmoved : I64.absDiff (s.config.priceAt s.now) expectedPrice ≤ s.config.priceTolerance)
    (hres : (s.reserve participant (s.config.windowBounds s.now).2 qty).2 = true) :
    s.onTake seq s.now participant key qty expectedPrice =
      Emit.andThen (fun s ↦ s.enqueue seq participant key qty)
        (if s.config.batchWindow.val = 0 then flushWindow else Emit.skip) s := by
  have hwhen : (if s.config.batchWindow.val = 0 then flushWindow else Emit.skip) =
      if (s.enqueue seq participant key qty).1.config.batchWindow.val = 0 then flushWindow
      else Emit.skip := by rw [enqueue_config]
  unfold onTake
  dsimp only
  rw [if_neg (not_lt.mpr hmoved), ← Prod.eta (s.reserve participant _ qty), hres, hwhen]
  rfl

theorem onRest_above (seq : Seq) (participant : ParticipantId) (key : IdempotencyKey) (qty : Qty)
    {ts : Nanos} {limit : Price} (habove : s.config.priceAt ts < limit) :
    s.onRest seq ts participant key qty limit =
      s.reject key (.limitAboveClock (s.config.priceAt ts)) :=
  if_pos habove

theorem onRest_uncovered (seq : Seq) {participant : ParticipantId} (key : IdempotencyKey)
    {qty : Qty} {ts : Nanos} {limit : Price} (hlimit : limit ≤ s.config.priceAt ts)
    (hres : (s.reserve participant limit qty).2 = false) :
    s.onRest seq ts participant key qty limit =
      (s.reserve participant limit qty).1.reject key .insufficientCollateral := by
  unfold onRest
  dsimp only
  rw [if_neg (not_lt.mpr hlimit), ← Prod.eta (s.reserve participant limit qty), hres]

theorem onRest_rested (seq : Seq) {participant : ParticipantId} (key : IdempotencyKey)
    {qty : Qty} {ts : Nanos} {limit : Price} (hlimit : limit ≤ s.config.priceAt ts)
    (hres : (s.reserve participant limit qty).2 = true) :
    s.onRest seq ts participant key qty limit = s.shelve seq participant key qty limit := by
  unfold onRest
  dsimp only
  rw [if_neg (not_lt.mpr hlimit), ← Prod.eta (s.reserve participant limit qty), hres]
  rfl

variable {cmd : Command}

private theorem steps_flush_if (hlive : s.status = .live) {c : Prop} [Decidable c]
    (hc : c → s.config.batchWindow.val = 0 ∨ s.config.schedule.atFloor s.now = true) :
    Emit.Steps (Phase cmd) s ((if c then flushWindow else Emit.skip) s) := by
  split_ifs with h
  · exact Emit.Steps.single (Phase.flush hlive (hc h))
  · exact Emit.Steps.refl s

private theorem steps_onTake (seq : Seq) {participant : ParticipantId} {key : IdempotencyKey}
    {qty : Qty} {expectedPrice : Price}
    (hcmd : cmd = .submitBid participant key qty (.take expectedPrice))
    (hkey : s.outcomes key = none) (hqty : 0 < qty.val) (hlive : s.status = .live) :
    Emit.Steps (Phase cmd) s (s.onTake seq s.now participant key qty expectedPrice) := by
  rcases lt_or_ge s.config.priceTolerance
    (I64.absDiff (s.config.priceAt s.now) expectedPrice) with hmoved | hnear
  · rw [onTake_moved seq participant key qty hmoved]
    exact Emit.Steps.single (Phase.refuse key _ hkey (by simp))
  cases hres : (s.reserve participant (s.config.windowBounds s.now).2 qty).2 with
  | false =>
    rw [onTake_uncovered seq key hnear hres]
    exact Emit.Steps.single (Phase.uncovered _ _ _ _ hkey hres)
  | true =>
    have hqueue := Emit.Steps.single
      (Phase.queue seq participant key qty _ hcmd hkey hqty hlive hres hnear)
    have hstatus : (s.enqueue seq participant key qty).1.status = .live :=
      (s.enqueue_status seq participant key qty).trans hlive
    rw [onTake_queued seq key hnear hres]
    exact hqueue.trans (steps_flush_if hstatus fun hbatch ↦
      Or.inl ((s.enqueue_config seq participant key qty).symm ▸ hbatch))

private theorem steps_onRest (seq : Seq) {participant : ParticipantId} {key : IdempotencyKey}
    {qty : Qty} {limit : Price} (hcmd : cmd = .submitBid participant key qty (.resting limit))
    (hkey : s.outcomes key = none) (hqty : 0 < qty.val) (hlive : s.status = .live) :
    Emit.Steps (Phase cmd) s (s.onRest seq s.now participant key qty limit) := by
  rcases lt_or_ge (s.config.priceAt s.now) limit with habove | hlimit
  · rw [onRest_above seq participant key qty habove]
    exact Emit.Steps.single (Phase.refuse key _ hkey (by simp))
  cases hres : (s.reserve participant limit qty).2 with
  | false =>
    rw [onRest_uncovered seq key hlimit hres]
    exact Emit.Steps.single (Phase.uncovered _ _ _ _ hkey hres)
  | true =>
    rw [onRest_rested seq key hlimit hres]
    exact Emit.Steps.single (Phase.rest seq participant key qty limit hcmd hkey hqty hlive hlimit
      hres)

private theorem steps_onBid (seq : Seq) {participant : ParticipantId} {key : IdempotencyKey}
    {qty : Qty} {kind : BidKind} (hcmd : cmd = .submitBid participant key qty kind) :
    Emit.Steps (Phase cmd) s (s.onBid seq s.now participant key qty kind) := by
  unfold onBid
  cases hkey : s.outcomes key with
  | some outcome => exact Emit.Steps.single (Phase.duplicate key outcome hkey)
  | none =>
    simp only
    split_ifs with hzero hlive
    · exact Emit.Steps.single (Phase.refuse key _ hkey (by simp))
    · exact Emit.Steps.single (Phase.refuse key _ hkey (by simp))
    · have hqty : 0 < qty.val := Qty.isZero_eq_false.mp (Bool.not_eq_true _ ▸ hzero)
      have hlive : s.status = .live := by simpa using hlive
      cases kind with
      | take expectedPrice => exact steps_onTake seq hcmd hkey hqty hlive
      | resting limit => exact steps_onRest seq hcmd hkey hqty hlive

private theorem steps_onCancelResting (participant : ParticipantId) (key : IdempotencyKey) :
    Emit.Steps (Phase cmd) s (s.onCancelResting participant key) := by
  unfold onCancelResting
  split
  · rename_i bid resting hrem
    rw [show resting = (s.resting.remove participant key).2 from (congrArg Prod.snd hrem).symm]
    exact Emit.Steps.single (Phase.withdraw participant key bid (congrArg Prod.fst hrem))
  · cases hkey : s.outcomes key with
    | some outcome => exact Emit.Steps.single (Phase.duplicate key outcome hkey)
    | none => exact Emit.Steps.single (Phase.unknown key hkey)

private theorem steps_settleAtFloor (hlive : s.status = .live)
    (hfloor : s.config.schedule.atFloor s.now = true) :
    Emit.Steps (Phase cmd) s s.settleAtFloor := by
  obtain ⟨hwindow, hconfig, hnow⟩ := s.flushWindow_frame
  refine (Emit.Steps.single (Phase.flush hlive (Or.inr hfloor))).andThen ?_
  split_ifs with hlive'
  · refine Emit.Steps.single (Phase.floor (Status.acceptsBids_iff.mp hlive') ?_ hwindow)
    rw [hconfig, hnow]
    exact hfloor
  · exact Emit.Steps.refl _

private theorem steps_atFloor {ts : Nanos} (hnow : s.now = ts) :
    Emit.Steps (Phase cmd) s
      (if s.status.acceptsBids && s.config.schedule.atFloor ts then s.settleAtFloor else
        (s, [])) := by
  split_ifs with hfloor
  · rw [Bool.and_eq_true, Status.acceptsBids_iff] at hfloor
    exact steps_settleAtFloor hfloor.1 (hnow ▸ hfloor.2)
  · exact Emit.Steps.refl s

private theorem steps_onTick : Emit.Steps (Phase cmd) s (s.onTick s.now) := by
  unfold onTick
  split_ifs with hlive hzero
  · exact Emit.Steps.refl s
  all_goals
    have hlive : s.status = .live := by simpa using hlive
    have htriggered := s.triggerResting_eq
    have hstatus : (s.triggerResting s.now).status = .live := by rw [htriggered]; exact hlive
    have hnow : (s.triggerResting s.now).now = s.now := by rw [htriggered]
    have htrigger : Emit.Steps (Phase cmd) s _ := Emit.Steps.single (Phase.trigger hlive)
  · have hbatch : (s.triggerResting s.now).config.batchWindow.val = 0 := by
      rw [htriggered]
      exact hzero
    have hflush : Emit.Steps (Phase cmd) _ _ :=
      Emit.Steps.single (Phase.flush hstatus (Or.inl hbatch))
    exact htrigger.trans (hflush.trans (steps_atFloor ((flushWindow_frame _).2.2.trans hnow)))
  · exact htrigger.trans (steps_atFloor hnow)

/-- **Every handler is a sequence of phases.** -/
theorem handle_steps (seq : Seq) (cmd : Command) (s : AuctionState) :
    Emit.Steps (Phase cmd) s (handle seq s.now cmd s) := by
  cases hcmd : cmd with
  | «open» =>
    show Emit.Steps _ s s.onOpen
    by_cases hpending : s.status = .pending
    · exact Emit.Steps.single (Phase.open hpending)
    · rw [onOpen, if_neg hpending]
      exact Emit.Steps.refl s
  | setCollateral participant limit => exact Emit.Steps.single (Phase.fund participant limit rfl)
  | submitBid participant key qty kind => exact steps_onBid seq rfl
  | cancelResting participant key => exact steps_onCancelResting participant key
  | tick => exact steps_onTick
  | cancel =>
    show Emit.Steps _ s s.onCancel
    cases hterm : s.status.isTerminal with
    | true =>
      rw [onCancel, if_pos hterm]
      exact Emit.Steps.refl s
    | false => exact Emit.Steps.single (Phase.cancel hterm rfl)

theorem Phase.fixed {t : AuctionState × List Event} (h : s.Phase cmd t) : t.1.fixed = s.fixed := by
  cases h with
  | duplicate => rfl
  | unknown => rfl
  | refuse => rfl
  | uncovered participant key price qty =>
    obtain ⟨c, hc⟩ := s.reserve_frame participant price qty
    rw [hc]
    rfl
  | queue seq participant key qty =>
    obtain ⟨c, hc⟩ := s.reserve_frame participant (s.config.windowBounds s.now).2 qty
    unfold enqueue
    dsimp only
    rw [hc]
    rfl
  | rest seq participant key qty limit =>
    obtain ⟨c, hc⟩ := s.reserve_frame participant limit qty
    unfold shelve
    dsimp only
    rw [hc]
    rfl
  | withdraw => rfl
  | fund => rfl
  | «open» hpending =>
    rw [onOpen, if_pos hpending]
    rfl
  | trigger =>
    rw [s.triggerResting_eq]
    rfl
  | flush => exact s.flushWindow_fixed.2
  | floor =>
    have hfixed := congrArg AuctionState.fixed (s.bare_clear s.config.floorPrice)
    exact hfixed
  | cancel hopen =>
    have hfixed := congrArg AuctionState.fixed (bare_onCancel hopen)
    exact hfixed

theorem Phase.frame {t : AuctionState × List Event} (h : s.Phase cmd t) :
    t.1.config = s.config ∧ t.1.now = s.now :=
  ⟨congrArg Prod.fst h.fixed, congrArg (fun f ↦ f.2.1) h.fixed⟩

/-- **The step before the handler**: nothing to close, or a window whose time has passed is
flushed. -/
theorem closeElapsedWindow_cases (s : AuctionState) (ts : Nanos) :
    (s.closeElapsedWindow ts = (s, []) ∧
      ∀ w, s.window = some w → ¬w.index < (s.config.windowBounds ts).1) ∨
    ∃ w, s.window = some w ∧ w.index < (s.config.windowBounds ts).1 ∧
      s.closeElapsedWindow ts = s.flushWindow := by
  unfold closeElapsedWindow
  cases hw : s.window with
  | none => exact Or.inl ⟨rfl, fun w h ↦ absurd h (by simp)⟩
  | some w =>
    simp only
    split_ifs with helapsed
    · exact Or.inr ⟨w, rfl, helapsed, rfl⟩
    · exact Or.inl ⟨rfl, fun w' h ↦ by cases h; exact helapsed⟩

theorem closeElapsedWindow_fixed (s : AuctionState) (ts : Nanos) :
    (s.closeElapsedWindow ts).1.fixed = s.fixed := by
  rcases s.closeElapsedWindow_cases ts with ⟨h, -⟩ | ⟨w, -, -, h⟩
  · rw [h]
  · rw [h]
    exact s.flushWindow_fixed.2

theorem closeElapsedWindow_frame (s : AuctionState) (ts : Nanos) :
    (s.closeElapsedWindow ts).1.config = s.config ∧ (s.closeElapsedWindow ts).1.now = s.now :=
  ⟨congrArg Prod.fst (s.closeElapsedWindow_fixed ts),
    congrArg (fun f ↦ f.2.1) (s.closeElapsedWindow_fixed ts)⟩

/-- **One command**: stamp the clock, close an elapsed window, then the phases of the handler. -/
theorem advance_eq (s : AuctionState) (seq : Seq) (ts : Nanos) (cmd : Command) :
    ∃ r, Emit.Steps (Phase cmd) ((s.stamp seq ts).closeElapsedWindow (s.stamp seq ts).now).1 r ∧
      s.advance seq ts cmd =
        (r.1, ((s.stamp seq ts).closeElapsedWindow (s.stamp seq ts).now).2 ++ r.2) := by
  refine ⟨_, handle_steps seq cmd _, ?_⟩
  rw [(closeElapsedWindow_frame _ _).2]
  rfl

end AuctionState

end DutchAuction
