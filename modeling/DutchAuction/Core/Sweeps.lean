import DutchAuction.Core.Keys

/-!
# Which ladder a clearing sweeps

Clearing empties the ladder and answers every bid in it as unfilled. `Sweeps` says of a list of
events that they clear the auction once, at a price, and answer exactly the bids of a ladder so; an
event that does neither is quiet. Every operation that can clear is one or the other, and where it
sweeps, what it sweeps is the whole ladder (`flushWindow_sweeps`, `onTake_sweeps`) or, after a tick,
what the clock has not reached (`onTick_sweeps`). Every other handler is quiet (`quiet_handle`).
-/

namespace DutchAuction

/-! ## Events -/

/-- The event neither clears the auction nor answers a bid as unfilled. -/
def Event.Quiet : Event → Prop
  | .cleared _ _ _ => False
  | .rejected _ .unfilled => False
  | _ => True

theorem Event.quiet_rejected {key : IdempotencyKey} {reason : RejectReason}
    (h : reason ≠ .unfilled) : (Event.rejected key reason).Quiet := by
  cases reason <;> first | exact trivial | exact absurd rfl h

/-- The events of one clearing, at `price`, that answers exactly the bids of `ladder` as
unfilled. -/
structure Sweeps (price : Price) (ladder : List RestingBid) (es : List Event) : Prop where
  only : ∀ p filled unsold, .cleared p filled unsold ∈ es → p = price
  cleared : ∃ filled unsold, .cleared price filled unsold ∈ es
  swept : ∀ key, .rejected key .unfilled ∈ es ↔ ∃ b ∈ ladder, b.key = key

namespace Sweeps

variable {price : Price} {ladder : List RestingBid} {es es' : List Event}

private theorem congr (h : Sweeps price ladder es) (hiff : ∀ e, ¬e.Quiet → (e ∈ es' ↔ e ∈ es)) :
    Sweeps price ladder es' := by
  refine ⟨fun p filled unsold hp ↦ h.only p filled unsold ((hiff _ id).mp hp), ?_, fun key ↦ ?_⟩
  · obtain ⟨filled, unsold, hmem⟩ := h.cleared
    exact ⟨filled, unsold, (hiff _ id).mpr hmem⟩
  · rw [hiff _ id]
    exact h.swept key

theorem quiet_append (h : Sweeps price ladder es) (hquiet : ∀ e ∈ es', e.Quiet) :
    Sweeps price ladder (es' ++ es) :=
  h.congr fun e he ↦ by
    rw [List.mem_append]
    exact or_iff_right fun hmem ↦ he (hquiet e hmem)

theorem append_quiet (h : Sweeps price ladder es) (hquiet : ∀ e ∈ es', e.Quiet) :
    Sweeps price ladder (es ++ es') :=
  h.congr fun e he ↦ by
    rw [List.mem_append]
    exact or_iff_left fun hmem ↦ he (hquiet e hmem)

end Sweeps

theorem quiet_events_append {es es' : List Event} (h : ∀ e ∈ es, e.Quiet)
    (h' : ∀ e ∈ es', e.Quiet) :
    ∀ e ∈ es ++ es', e.Quiet := fun e he ↦
  (List.mem_append.mp he).elim (h e) (h' e)

theorem quiet_events_nil : ∀ e ∈ ([] : List Event), e.Quiet := fun _ he ↦
  absurd he List.not_mem_nil

theorem quiet_events_singleton {e : Event} (h : e.Quiet) : ∀ e' ∈ [e], e'.Quiet := fun _ he ↦
  List.mem_singleton.mp he ▸ h

namespace AuctionState

variable {s : AuctionState}

/-! ## Clearing and flushing -/

theorem sweeps_clear (s : AuctionState) (price : Price) :
    Sweeps price s.resting.bids (s.clear price).2 := by
  have hquiet : ∀ e ∈ s.fills.flatMap fun f ↦
      if f.price = price then [] else [Event.repriced f.id f.price price], e.Quiet := by
    intro e he
    obtain ⟨f, -, hf⟩ := List.mem_flatMap.mp he
    split_ifs at hf
    · exact absurd hf List.not_mem_nil
    · rw [List.mem_singleton.mp hf]
      exact trivial
  rw [snd_clear]
  refine Sweeps.quiet_append ⟨fun p filled unsold hp ↦ ?_, ?_, fun key ↦ ?_⟩ hquiet
  · rcases List.mem_append.mp hp with hp | hp
    · obtain ⟨b, -, hb⟩ := List.mem_map.mp hp
      cases hb
    · cases List.mem_singleton.mp hp
      rfl
  · exact ⟨_, _, List.mem_append_right _ List.mem_cons_self⟩
  · rw [List.mem_append, List.mem_map]
    constructor
    · rintro (⟨b, hb, heq⟩ | hmem)
      · cases heq
        exact ⟨b, PriceLadder.drainAll_perm.mem_iff.mp hb, rfl⟩
      · cases List.mem_singleton.mp hmem
    · rintro ⟨b, hb, rfl⟩
      exact Or.inl ⟨b, PriceLadder.drainAll_perm.mem_iff.mpr hb, rfl⟩

/-- **A flush sweeps the ladder at the window's price, or is quiet** and leaves the ladder alone. -/
theorem flushWindow_sweeps (s : AuctionState) :
    (∃ w, s.window = some w ∧ s.status = .live ∧ s.Exhausts w ∧
      s.flushWindow.1.status = .cleared ∧ Sweeps w.price s.resting.bids s.flushWindow.2) ∨
    (∀ w, s.window = some w → s.status = .live → ¬s.Exhausts w) ∧
      (∀ e ∈ s.flushWindow.2, e.Quiet) ∧ s.flushWindow.1.status = s.status ∧
      s.flushWindow.1.resting = s.resting := by
  rcases s.flushWindow_cases with ⟨hw, hf⟩ | ⟨w, hw, hlive, hf⟩ | ⟨w, hw, hlive, hf⟩
  · refine Or.inr ⟨fun w hw' ↦ absurd (hw'.symm.trans hw) (Option.some_ne_none w), ?_⟩
    rw [hf]
    exact ⟨quiet_events_nil, rfl, rfl⟩
  · have hbare := bare_turnAwayPending_loop (s := { s with window := none }) .notLive w.bids
    have hstatus := congrArg AuctionState.status hbare
    have hresting := congrArg AuctionState.resting hbare
    rw [hf]
    refine Or.inr ⟨fun _ _ h ↦ absurd h hlive, fun e he ↦ ?_, hstatus, hresting⟩
    exact Emit.forall_mem_forEach_snd (Q := Event.Quiet)
      (fun b s e he ↦ quiet_events_singleton (Event.quiet_rejected (by decide)) e he) _ _ e he
  · have hsettling : ∀ e ∈ (s.settling w).2, e.Quiet := by
      intro e he
      rcases snd_settling he with ⟨key, rfl⟩ | ⟨f, rfl, -⟩
      · exact trivial
      · exact trivial
    have hset := s.bare_settled w
    have hresting : (s.settled w).resting = s.resting := by
      have h := congrArg AuctionState.resting hset
      exact h
    have hbare := bare_flushWindow_live hw hlive
    by_cases hex : s.Exhausts w
    · rw [if_pos hex] at hbare hf
      refine Or.inl ⟨w, hw, hlive, hex, ?_, ?_⟩
      · rw [bare_clear] at hbare
        exact congrArg AuctionState.status hbare
      · have hsweeps := sweeps_clear (s.settled w) w.price
        rw [hresting] at hsweeps
        rw [hf]
        exact hsweeps.quiet_append hsettling
    · rw [if_neg hex] at hbare hf
      have hstatus := congrArg AuctionState.status (hbare.trans hset)
      refine Or.inr ⟨fun w' hw' _ ↦ ?_, ?_, hstatus, ?_⟩
      · cases hw.symm.trans hw'
        exact hex
      · rw [hf]
        exact quiet_events_append hsettling quiet_events_nil
      · have h := congrArg AuctionState.resting hbare
        exact (show s.flushWindow.1.resting = (s.settled w).resting from h).trans hresting

/-! ## Ticks

A tick drains the ladder before it flushes, so what a clearing then finds on the ladder lies below
the price. -/

private theorem flush_sweeps (h : s.Priced) (hlive : s.status = .live)
    (hwhen : s.config.batchWindow.val = 0 ∨ s.config.schedule.atFloor s.now = true) :
    (∃ price, s.config.priceAt s.now ≤ price ∧ s.flushWindow.1.status = .cleared ∧
      Sweeps price s.resting.bids s.flushWindow.2) ∨
    (∀ e ∈ s.flushWindow.2, e.Quiet) ∧ s.flushWindow.1.status = .live ∧
      s.flushWindow.1.resting = s.resting := by
  rcases s.flushWindow_sweeps with ⟨w, hw, -, -, hcleared, hsweeps⟩ | ⟨-, hquiet, hstatus, hresting⟩
  · exact Or.inl ⟨w.price, (h.ripe hw hlive hwhen).priceAt_le, hcleared, hsweeps⟩
  · exact Or.inr ⟨hquiet, hstatus.trans hlive, hresting⟩

private theorem settleAtFloor_sweeps (h : s.Priced) (hlive : s.status = .live)
    (hfloor : s.config.schedule.atFloor s.now = true) :
    ∃ price, s.config.priceAt s.now ≤ price ∧ Sweeps price s.resting.bids s.settleAtFloor.2 := by
  have hconfig := s.flushWindow_frame.2.1
  rw [settleAtFloor, Emit.andThen_snd]
  rcases flush_sweeps h hlive (Or.inr hfloor) with
    ⟨price, hle, hcleared, hsweeps⟩ | ⟨hquiet, hstatus, hresting⟩
  · rw [if_neg (by rw [hcleared]; decide)]
    exact ⟨price, hle, hsweeps.append_quiet quiet_events_nil⟩
  · rw [if_pos (Status.acceptsBids_iff.mpr hstatus), hconfig]
    have hsweeps := sweeps_clear s.flushWindow.1 s.config.floorPrice
    rw [hresting] at hsweeps
    exact ⟨s.config.floorPrice, (show s.config.priceAt s.now = _ from of_decide_eq_true hfloor).le,
      hsweeps.quiet_append hquiet⟩

/-- **A tick has drained the ladder**: what it sweeps had its limit below the price. -/
theorem onTick_sweeps (h : s.Priced) :
    (∀ e ∈ (s.onTick s.now).2, e.Quiet) ∨
    ∃ price ladder, (∀ b ∈ ladder, b ∈ s.resting.bids ∧ b.limit < price) ∧
      Sweeps price ladder (s.onTick s.now).2 := by
  by_cases hlive : s.status = .live
  swap
  · have hdead : (!s.status.acceptsBids) = true := by simp [Status.acceptsBids, hlive]
    rw [onTick, if_pos hdead]
    exact Or.inl quiet_events_nil
  have hpriced : (s.triggerResting s.now).Priced := h.phase (Phase.trigger hlive : s.Phase .tick _)
  have htriggered := s.triggerResting_eq
  have hstatus : (s.triggerResting s.now).status = .live := by rw [htriggered]; exact hlive
  have hconfig : (s.triggerResting s.now).config = s.config := by rw [htriggered]
  have hnow : (s.triggerResting s.now).now = s.now := by rw [htriggered]
  have hladder : ∀ b ∈ (s.triggerResting s.now).resting.bids,
      b ∈ s.resting.bids ∧ b.limit < s.config.priceAt s.now := fun b hb ↦ by
    rw [htriggered] at hb
    exact ⟨(PriceLadder.bids_drainTriggered_perm _).mem_iff.mp (List.mem_append_right _ hb),
      PriceLadder.limit_lt_of_mem_drained h.filed hb⟩
  have hprice : (s.triggerResting s.now).config.priceAt (s.triggerResting s.now).now =
      s.config.priceAt s.now := by rw [hconfig, hnow]
  unfold onTick
  rw [if_neg (by rw [hlive]; decide), Emit.andThen_snd]
  generalize s.triggerResting s.now = u at hpriced hstatus hconfig hnow hladder hprice ⊢
  have hswept : ∀ {price : Price} {es : List Event}, s.config.priceAt s.now ≤ price →
      Sweeps price u.resting.bids es → ∃ price ladder,
        (∀ b ∈ ladder, b ∈ s.resting.bids ∧ b.limit < price) ∧ Sweeps price ladder es :=
    fun hle hsweeps ↦ ⟨_, _, fun b hb ↦ ⟨(hladder b hb).1, (hladder b hb).2.trans_le hle⟩, hsweeps⟩
  by_cases hbatch : s.config.batchWindow.val = 0
  · rw [if_pos hbatch]
    rw [← hconfig] at hbatch
    have hflushed := hpriced.phase (Phase.flush hstatus (Or.inl hbatch) : u.Phase .tick _)
    obtain ⟨-, hconfig', hnow'⟩ := u.flushWindow_frame
    rcases flush_sweeps hpriced hstatus (Or.inl hbatch) with
      ⟨price, hle, hcleared, hsweeps⟩ | ⟨hquiet, hlive', hresting⟩
    · have hdead : u.flushWindow.1.status.acceptsBids = false := by rw [hcleared]; rfl
      rw [hdead, Bool.false_and, if_neg Bool.false_ne_true]
      exact Or.inr (hswept (hprice ▸ hle) (hsweeps.append_quiet quiet_events_nil))
    · split_ifs with hfloor
      · have hat := (Bool.and_eq_true _ _ ▸ hfloor).2
        rw [← hnow, ← hnow'] at hat
        obtain ⟨price, hle, hsweeps⟩ := settleAtFloor_sweeps hflushed hlive' hat
        rw [hresting] at hsweeps
        rw [hconfig', hnow', hprice] at hle
        exact Or.inr (hswept hle (hsweeps.quiet_append hquiet))
      · exact Or.inl (quiet_events_append hquiet quiet_events_nil)
  · rw [if_neg hbatch, Emit.skip]
    split_ifs with hfloor
    · have hat := (Bool.and_eq_true _ _ ▸ hfloor).2
      rw [← hnow] at hat
      obtain ⟨price, hle, hsweeps⟩ := settleAtFloor_sweeps hpriced hstatus hat
      exact Or.inr (hswept (hprice ▸ hle) hsweeps)
    · exact Or.inl quiet_events_nil

/-! ## Takes

With batching off a take is matched on arrival, before the ladder is drained: the ladder it sweeps
is the one it found. -/

/-- The participant can cover `qty` at `price`. -/
def Covers (s : AuctionState) (participant : ParticipantId) (price : Price) (qty : Qty) : Prop :=
  ∃ cost, Price.checkedMulQty price qty = some cost ∧ cost ≤ (s.collateralOf participant).available

theorem reserve_snd (s : AuctionState) (participant : ParticipantId) (price : Price) (qty : Qty) :
    (s.reserve participant price qty).2 = true ↔ s.Covers participant price qty := by
  constructor
  · intro h
    rcases s.reserve_cases participant price qty with ⟨hfalse, -⟩ | ⟨cost, hcost, hle, -⟩
    · exact absurd (h.symm.trans hfalse) (by decide)
    · exact ⟨cost, hcost, hle⟩
  · rintro ⟨cost, hcost, hle⟩
    rw [reserve, hcost]
    dsimp only
    rw [if_neg (not_lt.mpr hle)]

theorem onTake_cases (s : AuctionState) (seq : Seq) (participant : ParticipantId)
    (key : IdempotencyKey) (qty : Qty) (expected : Price) :
    (¬(I64.absDiff (s.config.priceAt s.now) expected ≤ s.config.priceTolerance ∧
        s.Covers participant (s.config.windowBounds s.now).2 qty) ∧
      (s.onTake seq s.now participant key qty expected).1.window = s.window ∧
      ∀ e ∈ (s.onTake seq s.now participant key qty expected).2, e.Quiet) ∨
    I64.absDiff (s.config.priceAt s.now) expected ≤ s.config.priceTolerance ∧
      s.Covers participant (s.config.windowBounds s.now).2 qty ∧
      s.onTake seq s.now participant key qty expected =
        Emit.andThen (fun s ↦ s.enqueue seq participant key qty)
          (if s.config.batchWindow.val = 0 then flushWindow else Emit.skip) s := by
  have hcovers := s.reserve_snd participant (s.config.windowBounds s.now).2 qty
  rcases lt_or_ge s.config.priceTolerance
    (I64.absDiff (s.config.priceAt s.now) expected) with hmoved | hnear
  · rw [onTake_moved seq participant key qty hmoved]
    exact Or.inl ⟨fun h ↦ absurd h.1 (not_le.mpr hmoved), rfl,
      quiet_events_singleton (Event.quiet_rejected (by simp))⟩
  cases hres : (s.reserve participant (s.config.windowBounds s.now).2 qty).2 with
  | false =>
    rw [hres] at hcovers
    rw [onTake_uncovered seq key hnear hres]
    obtain ⟨c, hc⟩ := s.reserve_frame participant (s.config.windowBounds s.now).2 qty
    exact Or.inl ⟨fun h ↦ absurd (hcovers.mpr h.2) (by decide), by rw [hc]; rfl,
      quiet_events_singleton (Event.quiet_rejected (by decide))⟩
  | true => exact Or.inr ⟨hnear, hcovers.mp hres, onTake_queued seq key hnear hres⟩

theorem onTake_sweeps (hbatch : s.config.batchWindow.val = 0) (hwindow : s.window = none)
    (hlive : s.status = .live) (hsupply : 0 < s.supplyRemaining.val) (seq : Seq)
    (participant : ParticipantId) (key : IdempotencyKey) (qty : Qty) (expected : Price) :
    (s.supplyRemaining ≤ qty ∧
        I64.absDiff (s.config.priceAt s.now) expected ≤ s.config.priceTolerance ∧
        s.Covers participant (s.config.priceAt s.now) qty ∧
        Sweeps (s.config.priceAt s.now) s.resting.bids
          (s.onTake seq s.now participant key qty expected).2) ∨
    ¬(s.supplyRemaining ≤ qty ∧
        I64.absDiff (s.config.priceAt s.now) expected ≤ s.config.priceTolerance ∧
        s.Covers participant (s.config.priceAt s.now) qty) ∧
      ∀ e ∈ (s.onTake seq s.now participant key qty expected).2, e.Quiet := by
  have hprice : (s.config.windowBounds s.now).2 = s.config.priceAt s.now := by
    rw [AuctionConfig.windowBounds, if_pos hbatch]
  rcases s.onTake_cases seq participant key qty expected with
    ⟨hnot, -, hquiet⟩ | ⟨hwithin, hcovered, htake⟩
  · rw [hprice] at hnot
    exact Or.inr ⟨fun h ↦ hnot h.2, hquiet⟩
  rw [htake, if_pos hbatch, Emit.andThen_snd]
  rw [hprice] at hcovered
  have hqueued : ∀ e ∈ (s.enqueue seq participant key qty).2, e.Quiet :=
    quiet_events_singleton trivial
  -- The bid is alone in the window it opens, and asks for its own quantity.
  obtain ⟨c, hc⟩ := s.reserve_frame participant (s.config.windowBounds s.now).2 qty
  obtain ⟨w, hw, hwprice, hdemand⟩ : ∃ w, (s.enqueue seq participant key qty).1.window = some w ∧
      w.price = s.config.priceAt s.now ∧ demand w.bids = qty.val := by
    unfold enqueue pushPending setOutcome
    dsimp only
    rw [hc]
    dsimp only
    rw [hwindow]
    exact ⟨_, rfl, hprice, rfl⟩
  have hframe : (s.enqueue seq participant key qty).1.status = .live ∧
      (s.enqueue seq participant key qty).1.resting = s.resting ∧
      (s.enqueue seq participant key qty).1.supplyRemaining = s.supplyRemaining := by
    unfold enqueue
    dsimp only
    rw [hc]
    exact ⟨hlive, rfl, rfl⟩
  generalize s.enqueue seq participant key qty = u at hw hframe hqueued ⊢
  obtain ⟨hstatus, hresting, hremaining⟩ := hframe
  have hex : u.1.Exhausts w ↔ s.supplyRemaining ≤ qty := by
    rw [Exhausts, exhausted_iff_le_demand _ (hremaining ▸ hsupply), hremaining, hdemand, U64.le_def]
  rcases u.1.flushWindow_sweeps with ⟨w', hw', -, hexhausts, -, hsweeps⟩ | ⟨hnot, hquiet, -⟩
  · cases hw.symm.trans hw'
    rw [hresting, hwprice] at hsweeps
    exact Or.inl ⟨hex.mp hexhausts, hwithin, hcovered, hsweeps.quiet_append hqueued⟩
  · exact Or.inr ⟨fun h ↦ hnot w hw hstatus (hex.mpr h.1), quiet_events_append hqueued hquiet⟩

/-! ## The other commands -/

private theorem quiet_onRest (s : AuctionState) (seq : Seq) (ts : Nanos)
    (participant : ParticipantId) (key : IdempotencyKey) (qty : Qty) (limit : Price) :
    ∀ e ∈ (s.onRest seq ts participant key qty limit).2, e.Quiet := by
  rcases lt_or_ge (s.config.priceAt ts) limit with habove | hlimit
  · rw [onRest_above seq participant key qty habove]
    exact quiet_events_singleton (Event.quiet_rejected (by simp))
  cases hres : (s.reserve participant limit qty).2 with
  | false =>
    rw [onRest_uncovered seq key hlimit hres]
    exact quiet_events_singleton (Event.quiet_rejected (by decide))
  | true =>
    rw [onRest_rested seq key hlimit hres]
    exact quiet_events_singleton trivial

private theorem quiet_onCancelResting (s : AuctionState) (participant : ParticipantId)
    (key : IdempotencyKey) : ∀ e ∈ (s.onCancelResting participant key).2, e.Quiet := by
  unfold onCancelResting
  split
  · exact quiet_events_singleton trivial
  · split
    · exact quiet_events_singleton trivial
    · exact quiet_events_singleton (Event.quiet_rejected (by decide))

private theorem quiet_onCancel (s : AuctionState) : ∀ e ∈ s.onCancel.2, e.Quiet := by
  unfold onCancel
  split_ifs
  · exact quiet_events_nil
  · rw [Emit.andThen_snd, Emit.andThen_snd, snd_drainLadder]
    refine quiet_events_append (fun e he ↦ ?_)
      (quiet_events_append (fun e he ↦ ?_) (quiet_events_singleton trivial))
    · exact Emit.forall_mem_forEach_snd (Q := Event.Quiet)
        (fun b s e he ↦ quiet_events_singleton (Event.quiet_rejected (by decide)) e he) _ _ e he
    · obtain ⟨b, -, rfl⟩ := List.mem_map.mp he
      exact Event.quiet_rejected (by decide)

/-- **A handler is quiet**, apart from a tick and from a take that is matched on arrival. -/
theorem quiet_handle (seq : Seq) (cmd : Command) (htick : s.status = .live → cmd ≠ .tick)
    (htake : ∀ p k q e, cmd = .submitBid p k q (.take e) → s.status = .live →
      s.config.batchWindow.val = 0 → s.outcomes k ≠ none) :
    ∀ e ∈ (handle seq s.now cmd s).2, e.Quiet := by
  cases cmd with
  | «open» =>
    show ∀ e ∈ s.onOpen.2, e.Quiet
    unfold onOpen
    split_ifs
    · exact quiet_events_singleton trivial
    · exact quiet_events_nil
  | setCollateral participant limit => exact quiet_events_singleton trivial
  | cancelResting participant key => exact s.quiet_onCancelResting participant key
  | tick =>
    have hdead : (!s.status.acceptsBids) = true := by
      have hlive : s.status ≠ .live := fun h ↦ htick h rfl
      simp [Status.acceptsBids, hlive]
    show ∀ e ∈ (s.onTick s.now).2, e.Quiet
    rw [onTick, if_pos hdead]
    exact quiet_events_nil
  | cancel => exact s.quiet_onCancel
  | submitBid participant key qty kind =>
    show ∀ e ∈ (s.onBid seq s.now participant key qty kind).2, e.Quiet
    unfold onBid
    cases hkey : s.outcomes key with
    | some outcome => exact quiet_events_singleton trivial
    | none =>
      dsimp only
      split_ifs with hzero hdead
      · exact quiet_events_singleton (Event.quiet_rejected (by decide))
      · exact quiet_events_singleton (Event.quiet_rejected (by decide))
      cases kind with
      | resting limit => exact s.quiet_onRest seq s.now participant key qty limit
      | take expected =>
        have hlive : s.status = .live := by simpa using hdead
        have hbatch : s.config.batchWindow.val ≠ 0 := fun h ↦
          htake participant key qty expected rfl hlive h hkey
        rcases s.onTake_cases seq participant key qty expected with
          ⟨-, -, hquiet⟩ | ⟨-, -, heq⟩
        · exact hquiet
        · show ∀ e ∈ (s.onTake seq s.now participant key qty expected).2, e.Quiet
          rw [heq, if_neg hbatch]
          exact quiet_events_append (quiet_events_singleton trivial) quiet_events_nil

end AuctionState

end DutchAuction
