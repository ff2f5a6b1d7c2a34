import DutchAuction.Core.Supply

/-!
# The price only falls, and clears once

The invariant behind the uniform price, for the states between commands:

* the open window carries the bounds of the current instant, and no bid in it reserved at less than
  the window's price;
* no fill is below the price the auction has reached: the clock until the auction clears, the
  clearing price from then on (`reached`);
* a clearing price is there exactly when the auction is cleared; every fill then carries it, the
  clock showed it, and either nothing remains or it is the floor;
* outside the live phase nothing is in flight.

While an elapsed window waits to be closed the window and the fills still refer to the instant of
the command before, so the invariant takes that instant as a parameter (`PricedAt`).
-/

namespace DutchAuction

namespace AuctionState

variable {s : AuctionState} {t : Nanos}

/-- The price the auction has reached by `t`. -/
def reached (s : AuctionState) (t : Nanos) : Price := s.clearingPrice.getD (s.config.priceAt t)

/-- What clearing at a price promises about the state. -/
structure ClearedAt (s : AuctionState) (price : Price) : Prop where
  uniform : ∀ f ∈ s.fills, f.price = price
  /-- The clock showed this price. -/
  shown : ∃ u ≤ s.now, price = s.config.priceAt u
  /-- Nothing remains, or the floor was reached. -/
  spent : s.supplyRemaining.val = 0 ∨ price = s.config.floorPrice

/-- The pricing invariant, with the window and the fills as of `t`. -/
structure PricedAt (t : Nanos) (s : AuctionState) : Prop where
  filed : s.resting.Filed
  /-- Outside the live phase nothing is in flight. -/
  idle : s.status ≠ .live → s.window = none ∧ s.resting.bids = []
  /-- The window is the one `t` falls in. -/
  window : ∀ w, s.window = some w → s.config.windowBounds t = (w.index, w.price)
  /-- Every bid of the window reserved at its price or more. -/
  covered : ∀ w, s.window = some w → ∀ b ∈ w.bids, w.price ≤ b.reservePrice
  fills : ∀ f ∈ s.fills, s.reached t ≤ f.price
  cleared : s.status = .cleared ↔ s.clearingPrice.isSome = true
  clearedAt : ∀ price, s.clearingPrice = some price → s.ClearedAt price

/-- The pricing invariant between commands. -/
def Priced (s : AuctionState) : Prop := PricedAt s.now s

theorem pricedAt_bare : PricedAt t s.bare ↔ PricedAt t s :=
  ⟨fun h ↦ ⟨h.filed, h.idle, h.window, h.covered, h.fills, h.cleared, fun p hp ↦
      ⟨(h.clearedAt p hp).uniform, (h.clearedAt p hp).shown, (h.clearedAt p hp).spent⟩⟩,
    fun h ↦ ⟨h.filed, h.idle, h.window, h.covered, h.fills, h.cleared, fun p hp ↦
      ⟨(h.clearedAt p hp).uniform, (h.clearedAt p hp).shown, (h.clearedAt p hp).spent⟩⟩⟩

theorem PricedAt.of_bare_eq {s' : AuctionState} (h : PricedAt t s) (heq : s'.bare = s.bare) :
    PricedAt t s' :=
  pricedAt_bare.mp (heq ▸ pricedAt_bare.mpr h)

theorem priced_new (config : AuctionConfig) : (new config).Priced where
  filed := PriceLadder.filed_new
  idle := fun _ ↦ ⟨rfl, rfl⟩
  window := fun _ hw ↦ nomatch hw
  covered := fun _ hw ↦ nomatch hw
  fills := fun _ hf ↦ absurd hf List.not_mem_nil
  cleared := ⟨fun h ↦ (nomatch h), fun h ↦ (nomatch h)⟩
  clearedAt := fun _ hp ↦ nomatch hp

theorem PricedAt.clearingPrice_eq_none (h : PricedAt t s) (hstatus : s.status ≠ .cleared) :
    s.clearingPrice = none := by
  have := mt h.cleared.mpr hstatus
  simpa using this

theorem reached_anti {u : Nanos} (h : t ≤ u) : s.reached u ≤ s.reached t := by
  unfold reached
  cases s.clearingPrice with
  | none => exact AuctionConfig.priceAt_anti h
  | some p => rw [Option.getD_some, Option.getD_some]

theorem reached_eq_priceAt (h : PricedAt t s) (hlive : s.status = .live) (u : Nanos) :
    s.reached u = s.config.priceAt u := by
  rw [reached, h.clearingPrice_eq_none (by rw [hlive]; exact fun h ↦ nomatch h), Option.getD_none]

/-! ## Clearing -/

theorem priced_clear {price : Price} (hwindow : s.window = none)
    (hshown : ∃ u ≤ s.now, price = s.config.priceAt u)
    (hspent : s.supplyRemaining.val = 0 ∨ price = s.config.floorPrice) :
    (s.clear price).1.Priced := by
  have hbare := s.bare_clear price
  have hnow := congrArg AuctionState.now hbare
  unfold Priced
  rw [← pricedAt_bare, hbare]
  have huniform : ∀ f ∈ s.fills.map (Fill.at price), f.price = price := by
    intro f hf
    obtain ⟨g, -, rfl⟩ := List.mem_map.mp hf
    rfl
  exact
    { filed := PriceLadder.filed_new
      idle := fun _ ↦ ⟨hwindow, rfl⟩
      window := fun w hw ↦ nomatch hwindow.symm.trans hw
      covered := fun w hw ↦ nomatch hwindow.symm.trans hw
      fills := fun f hf ↦ (huniform f hf).ge
      cleared := ⟨fun _ ↦ rfl, fun _ ↦ rfl⟩
      clearedAt := fun p hp ↦ by
        cases hp
        exact ⟨huniform, hshown, hspent⟩ }

theorem repriced_lt_of_mem_clear {price : Price} (hfills : ∀ f ∈ s.fills, price ≤ f.price)
    {id : FillId} {fromPrice toPrice : Price}
    (h : .repriced id fromPrice toPrice ∈ (s.clear price).2) :
    toPrice < fromPrice ∧ toPrice = price := by
  rcases mem_clear h with ⟨f, hf, hne, heq⟩ | ⟨key, heq⟩ | ⟨filled, unsold, heq⟩
  · cases heq
    exact ⟨lt_of_le_of_ne (hfills f hf) hne.symm, rfl⟩
  · cases heq
  · cases heq

theorem not_filled_mem_clear {price : Price} {f : Fill} : .filled f ∉ (s.clear price).2 := by
  intro h
  rcases mem_clear h with ⟨g, -, -, heq⟩ | ⟨key, heq⟩ | ⟨filled, unsold, heq⟩
  · cases heq
  · cases heq
  · cases heq

/-! ## Flushing

A window is settled at its own price, so it has to be ripe: the clock has shown that price, and no
fill is below it. A window that has elapsed is, and the current one with batching off, at the very
instant of its price, and at the floor. -/

/-- What a flush needs of the window it settles: its price is one the clock has shown and no fill
is below it. -/
structure Ripe (s : AuctionState) (w : OpenWindow) : Prop where
  shown : ∃ u ≤ s.now, w.price = s.config.priceAt u
  below : ∀ f ∈ s.fills, w.price ≤ f.price

theorem Ripe.priceAt_le {w : OpenWindow} (h : s.Ripe w) : s.config.priceAt s.now ≤ w.price := by
  obtain ⟨u, hu, heq⟩ := h.shown
  rw [heq]
  exact AuctionConfig.priceAt_anti hu

theorem PricedAt.ripe_of_elapsed {w : OpenWindow} (h : PricedAt t s) (hw : s.window = some w)
    (hlive : s.status = .live) (helapsed : w.index < (s.config.windowBounds s.now).1) :
    s.Ripe w := by
  have hbounds := h.window w hw
  have hprice : (s.config.windowBounds t).2 = w.price := congrArg Prod.snd hbounds
  have hindex : (s.config.windowBounds t).1 = w.index := congrArg Prod.fst hbounds
  obtain ⟨last, -, heq, hlast⟩ := AuctionConfig.windowBounds_spec (c := s.config) t
  refine ⟨⟨last, hlast _ (hindex ▸ helapsed), hprice.symm.trans heq⟩, fun f hf ↦ ?_⟩
  calc w.price = (s.config.windowBounds t).2 := hprice.symm
    _ ≤ s.config.priceAt t := AuctionConfig.windowPrice_le_priceAt t
    _ = s.reached t := (reached_eq_priceAt h hlive t).symm
    _ ≤ f.price := h.fills f hf

theorem Priced.ripe {w : OpenWindow} (h : s.Priced) (hw : s.window = some w)
    (hlive : s.status = .live)
    (hwhen : s.config.batchWindow.val = 0 ∨ s.config.schedule.atFloor s.now = true) :
    s.Ripe w := by
  have hprice : (s.config.windowBounds s.now).2 = w.price := congrArg Prod.snd (h.window w hw)
  have hnow : w.price = s.config.priceAt s.now := by
    rw [← hprice]
    rcases hwhen with hzero | hfloor
    · rw [AuctionConfig.windowBounds, if_pos hzero]
    · have hfloor : s.config.priceAt s.now = s.config.floorPrice := of_decide_eq_true hfloor
      refine le_antisymm (AuctionConfig.windowPrice_le_priceAt s.now) ?_
      rw [hfloor]
      exact AuctionConfig.floor_le_windowPrice s.now
  refine ⟨⟨s.now, le_rfl, hnow⟩, fun f hf ↦ ?_⟩
  rw [hnow, ← reached_eq_priceAt h hlive]
  exact h.fills f hf

theorem supplyAfter_eq_zero {w : OpenWindow} (h : s.Exhausts w) : (s.supplyAfter w).val = 0 := by
  rw [supplyAfter, val_supply_matchLevels, flatten_priceLevels,
    demand_perm (byPriority_perm w.bids)]
  rcases Nat.eq_zero_or_pos s.supplyRemaining.val with hz | hpos
  · omega
  · have := (exhausted_iff_le_demand w.bids hpos).mp h
    omega

/-- **A flush keeps the price in order.** The window it settles must be ripe if the auction is
live. -/
theorem priced_flushWindow (h : PricedAt t s)
    (hripe : ∀ w, s.window = some w → s.status = .live → s.Ripe w)
    (hnone : s.window = none → s.Priced) : s.flushWindow.1.Priced := by
  rcases s.flushWindow_cases with ⟨hw, hf⟩ | ⟨w, hw, hlive, -⟩ | ⟨w, hw, hlive, -⟩
  · rw [hf]
    exact hnone hw
  · rw [(h.idle hlive).1] at hw
    cases hw
  · have hsettled : ∀ u, (s.settled w).bare.reached u = s.config.priceAt u := fun u ↦ by
      rw [bare_settled]
      exact reached_eq_priceAt h hlive u
    have hready := hripe w hw hlive
    have hbare := bare_flushWindow_live hw hlive
    split_ifs at hbare with hex
    · have hset := s.bare_settled w
      have hnow := congrArg AuctionState.now hset
      have hwindow := congrArg AuctionState.window hset
      have hconfig := congrArg AuctionState.config hset
      have hsupply := congrArg AuctionState.supplyRemaining hset
      refine PricedAt.of_bare_eq (s := ((s.settled w).clear w.price).1) ?_ hbare
      have hclear : ((s.settled w).clear w.price).1.Priced :=
        priced_clear hwindow ?_ (Or.inl ?_)
      · have hflush := congrArg AuctionState.now hbare
        unfold Priced at hclear
        exact hflush ▸ hclear
      · obtain ⟨u, hu, heq⟩ := hready.shown
        exact ⟨u, hnow ▸ hu, hconfig ▸ heq⟩
      · exact hsupply ▸ supplyAfter_eq_zero hex
    · refine PricedAt.of_bare_eq (s := s.settled w) ?_ hbare
      have hflush := congrArg AuctionState.now hbare
      have hset := s.bare_settled w
      have hnow := congrArg AuctionState.now hset
      have hnone := h.clearingPrice_eq_none (by rw [hlive]; exact fun h ↦ nomatch h)
      rw [show s.flushWindow.1.now = s.now from hflush.trans hnow, ← pricedAt_bare, hset]
      exact
        { filed := h.filed
          idle := fun hstatus ↦ absurd hlive hstatus
          window := fun _ hw ↦ nomatch hw
          covered := fun _ hw ↦ nomatch hw
          fills := fun f hf ↦ by
            show s.reached s.now ≤ f.price
            rw [reached_eq_priceAt h hlive]
            rcases List.mem_append.mp hf with hf | hf
            · exact hready.priceAt_le.trans (hready.below f hf)
            · obtain ⟨ba, -, -, -, -, -, hprice⟩ := mem_fillsOf hf
              rw [hprice]
              exact hready.priceAt_le
          cleared := h.cleared
          clearedAt := fun p hp ↦ nomatch hnone.symm.trans hp }

/-! ## Every phase -/

private theorem Priced.join (h : s.Priced) (hlive : s.status = .live) (bids : List PendingBid)
    (hbids : ∀ b ∈ bids, (s.config.windowBounds s.now).2 ≤ b.reservePrice)
    {resting : PriceLadder} (hfiled : resting.Filed) :
    { s with
      resting := resting
      window := some { s.currentWindow with bids := s.currentWindow.bids ++ bids } }.Priced := by
  have hcurrent : s.config.windowBounds s.now = (s.currentWindow.index, s.currentWindow.price) ∧
      ∀ b ∈ s.currentWindow.bids, s.currentWindow.price ≤ b.reservePrice := by
    unfold currentWindow
    cases hw : s.window with
    | none => exact ⟨rfl, fun b hb ↦ absurd hb List.not_mem_nil⟩
    | some w => exact ⟨h.window w hw, h.covered w hw⟩
  refine ⟨hfiled, fun hidle ↦ absurd hlive hidle, fun w hw ↦ ?_, fun w hw b hb ↦ ?_, h.fills,
    h.cleared, fun p hp ↦ ?_⟩
  · cases hw
    exact hcurrent.1
  · cases hw
    rcases List.mem_append.mp hb with hb | hb
    · exact hcurrent.2 b hb
    · have hprice : (s.config.windowBounds s.now).2 = s.currentWindow.price :=
        congrArg Prod.snd hcurrent.1
      exact hprice ▸ hbids b hb
  · have hnone := h.clearingPrice_eq_none (by rw [hlive]; exact fun h ↦ nomatch h)
    exact nomatch hnone.symm.trans hp

private theorem Priced.ladder (h : s.Priced) {resting : PriceLadder} (hfiled : resting.Filed)
    (hidle : s.status ≠ .live → resting.bids = []) : { s with resting := resting }.Priced :=
  ⟨hfiled, fun hs ↦ ⟨(h.idle hs).1, hidle hs⟩, h.window, h.covered, h.fills, h.cleared,
    fun p hp ↦ ⟨(h.clearedAt p hp).uniform, (h.clearedAt p hp).shown, (h.clearedAt p hp).spent⟩⟩

/-- **Every phase keeps the price in order.** -/
theorem Priced.phase {cmd : Command} {r : AuctionState × List Event} (h : s.Priced)
    (hphase : s.Phase cmd r) : r.1.Priced := by
  have hmaps : ∀ s' : AuctionState, s'.bare = s.bare → s'.Priced := fun s' heq ↦ by
    have hnow := congrArg AuctionState.now heq
    unfold Priced
    rw [show s'.now = s.now from hnow]
    exact h.of_bare_eq heq
  cases hphase with
  | duplicate => exact h
  | unknown => exact h
  | refuse => exact hmaps _ rfl
  | uncovered participant key price qty =>
    obtain ⟨c, hc⟩ := s.reserve_frame participant price qty
    rw [hc]
    exact hmaps _ rfl
  | queue seq participant key qty _ _ _ _ hlive =>
    obtain ⟨c, hc⟩ := s.reserve_frame participant (s.config.windowBounds s.now).2 qty
    have hjoin := h.join hlive [⟨seq, participant, key, qty, (s.config.windowBounds s.now).2,
      (s.config.windowBounds s.now).2, none⟩] (fun b hb ↦ by rw [List.mem_singleton.mp hb]) h.filed
    unfold enqueue
    dsimp only
    rw [hc]
    exact PricedAt.of_bare_eq hjoin rfl
  | rest seq participant key qty limit _ _ _ hlive =>
    obtain ⟨c, hc⟩ := s.reserve_frame participant limit qty
    have hladder := h.ladder (PriceLadder.filed_insert h.filed ⟨seq, participant, key, qty, limit⟩)
      (fun hs ↦ absurd hlive hs)
    unfold shelve
    dsimp only
    rw [hc]
    exact PricedAt.of_bare_eq hladder rfl
  | withdraw participant key bid hbid =>
    have hladder := h.ladder (PriceLadder.filed_remove h.filed participant key) fun hs ↦ by
        have hperm := (PriceLadder.remove_eq_some hbid).2.2
        rw [(h.idle hs).2] at hperm
        exact absurd hperm.length_eq (by simp)
    exact PricedAt.of_bare_eq hladder rfl
  | fund => exact hmaps _ rfl
  | «open» hpending =>
    have hnone := h.clearingPrice_eq_none (by rw [hpending]; decide)
    rw [onOpen, if_pos hpending]
    exact ⟨h.filed, fun hs ↦ absurd rfl hs, h.window, h.covered, h.fills,
      ⟨fun hs ↦ Status.noConfusion hs, fun hs ↦ by
        rw [hnone] at hs
        exact absurd hs Bool.false_ne_true⟩,
      fun p hp ↦ absurd (hp.symm.trans hnone) (Option.some_ne_none p)⟩
  | trigger hlive =>
    have hfiled := PriceLadder.filed_drainTriggered h.filed (s.config.priceAt s.now)
    rw [s.triggerResting_eq]
    split_ifs with hnil
    · exact h.ladder hfiled fun hs ↦ absurd hlive hs
    · refine h.join hlive _ (fun b hb ↦ ?_) hfiled
      obtain ⟨c, hc, rfl⟩ := List.mem_map.mp hb
      exact (AuctionConfig.windowPrice_le_priceAt s.now).trans
        (PriceLadder.mem_drainTriggered h.filed hc).2
  | flush hlive hwhen =>
    exact priced_flushWindow h (fun w hw _ ↦ h.ripe hw hlive hwhen) fun _ ↦ h
  | floor hlive hfloor hwindow =>
    have hshown : s.config.priceAt s.now = s.config.floorPrice := of_decide_eq_true hfloor
    exact priced_clear hwindow ⟨s.now, le_rfl, hshown.symm⟩ (Or.inr rfl)
  | cancel hopen =>
    have hbare := bare_onCancel hopen
    have hnow := congrArg AuctionState.now hbare
    have hstatus : s.status ≠ .cleared := fun hs ↦ by
      rw [hs] at hopen
      exact absurd hopen (by decide)
    have hnone := h.clearingPrice_eq_none hstatus
    unfold Priced
    rw [show s.onCancel.1.now = s.now from hnow, ← pricedAt_bare, hbare]
    exact
      { filed := PriceLadder.filed_new
        idle := fun _ ↦ ⟨rfl, rfl⟩
        window := fun w hw ↦ absurd hw.symm (Option.some_ne_none w)
        covered := fun w hw ↦ absurd hw.symm (Option.some_ne_none w)
        fills := h.fills
        cleared := ⟨fun hs ↦ Status.noConfusion hs, fun hs ↦ by
          have hsome : s.clearingPrice.isSome = true := hs
          rw [hnone] at hsome
          exact absurd hsome Bool.false_ne_true⟩
        clearedAt := fun p hp ↦ absurd (hp.symm.trans hnone) (Option.some_ne_none p) }

/-! ## Every command

Time goes on before the handler runs. A window that it leaves behind has elapsed and is flushed
first, so that the handler finds the window of its own instant or none. -/

/-- Between the stamp and the closing of an elapsed window, the invariant as of the command
before. -/
def PricedBefore (s : AuctionState) : Prop := ∃ t ≤ s.now, PricedAt t s

theorem Priced.stamp (h : s.Priced) (seq : Seq) (ts : Nanos) : (s.stamp seq ts).PricedBefore :=
  ⟨s.now, le_max_right _ _, h.filed, h.idle, h.window, h.covered, h.fills, h.cleared, fun p hp ↦
    ⟨(h.clearedAt p hp).uniform, by
      obtain ⟨u, hu, heq⟩ := (h.clearedAt p hp).shown
      exact ⟨u, hu.trans (le_max_right _ _), heq⟩, (h.clearedAt p hp).spent⟩⟩

private theorem PricedAt.catch_up (h : PricedAt t s) (ht : t ≤ s.now)
    (hcurrent : ∀ w, s.window = some w → ¬w.index < (s.config.windowBounds s.now).1) :
    s.Priced := by
  refine ⟨h.filed, h.idle, fun w hw ↦ ?_, h.covered,
    fun f hf ↦ (reached_anti ht).trans (h.fills f hf), h.cleared, h.clearedAt⟩
  have hbounds := h.window w hw
  have hindex : (s.config.windowBounds t).1 = w.index := congrArg Prod.fst hbounds
  rw [← hbounds]
  refine (AuctionConfig.windowBounds_eq_of_index_eq (le_antisymm ?_ ?_)).symm
  · exact AuctionConfig.windowIndex_mono ht
  · rw [hindex]
    exact not_lt.mp (hcurrent w hw)

theorem PricedBefore.close (h : s.PricedBefore) : (s.closeElapsedWindow s.now).1.Priced := by
  obtain ⟨t, ht, h⟩ := h
  rcases s.closeElapsedWindow_cases s.now with ⟨heq, hcurrent⟩ | ⟨w, hw, helapsed, heq⟩
  · rw [heq]
    exact h.catch_up ht hcurrent
  · rw [heq]
    refine priced_flushWindow h (fun w' hw' hlive ↦ ?_) fun hnone ↦ nomatch hnone.symm.trans hw
    rw [hw] at hw'
    cases hw'
    exact h.ripe_of_elapsed hw hlive helapsed

theorem Priced.step {r : LogRecord} {s' : AuctionState} {o : List Event} (h : s.Priced)
    (hstep : s.step r = some (s', o)) : s'.Priced :=
  step_keeps h (fun h ↦ h.stamp r.seq r.ts) (fun _ h ↦ h.close) (fun _ _ h hr ↦ h.phase hr) hstep

/-! ## What a tick leaves

A tick drains what the clock has reached and settles it, or ends the auction at the floor. Asked
again at its own instant, there is nothing to be done. -/

/-- **A tick leaves nothing to be done** at its own instant, or ends the auction. -/
theorem onTick_quiet (h : s.Priced) (hlive : (s.onTick s.now).1.status = .live) :
    (∀ b ∈ (s.onTick s.now).1.resting.bids, b.limit < s.config.priceAt s.now) ∧
      s.config.schedule.atFloor s.now = false := by
  unfold onTick at hlive ⊢
  by_cases haccepts : s.status.acceptsBids = true
  · rw [if_neg (by rw [haccepts]; decide), Emit.andThen_fst] at hlive ⊢
    have htriggered := s.triggerResting_eq
    have hdrained : ∀ b ∈ (s.triggerResting s.now).resting.bids,
      b.limit < s.config.priceAt s.now := by
      intro b hb
      rw [htriggered] at hb
      exact PriceLadder.limit_lt_of_mem_drained h.filed hb
    generalize hflushed : (if s.config.batchWindow.val = 0 then flushWindow else Emit.skip)
      (s.triggerResting s.now) = r at hlive ⊢
    have hkept : r.1.config = s.config ∧
        (r.1.status = .live → r.1.resting = (s.triggerResting s.now).resting) := by
      have hconfig : (s.triggerResting s.now).config = s.config := by rw [htriggered]
      rw [← hflushed, ← hconfig]
      split_ifs with hbatch
      · exact ⟨(flushWindow_frame _).2.1, fun hlive ↦ resting_flushWindow (by rw [hlive]; rfl)⟩
      · exact ⟨rfl, fun _ ↦ rfl⟩
    rw [← hkept.1]
    by_cases hfloor : (r.1.status.acceptsBids && r.1.config.schedule.atFloor s.now) = true
    · rw [if_pos hfloor] at hlive
      exact absurd hlive (settleAtFloor_status r.1)
    · rw [if_neg hfloor] at hlive ⊢
      rw [Bool.and_eq_true, not_and] at hfloor
      have hlater := hfloor (Status.acceptsBids_iff.mpr hlive)
      rw [hkept.2 hlive, hkept.1]
      rw [hkept.1] at hlater
      exact ⟨hdrained, Bool.eq_false_iff.mpr hlater⟩
  · rw [if_pos (by rw [Bool.eq_false_iff.mpr haccepts]; rfl)] at hlive
    exact absurd (Status.acceptsBids_iff.mpr hlive) haccepts

end AuctionState

theorem run_priced {config : AuctionConfig} {tr : List Transition} {s : AuctionState}
    (hrun : Run config tr s) : s.Priced :=
  hrun.invariant (AuctionState.priced_new config) fun _ _ _ _ h h' ↦ h.step h'

end DutchAuction
