import DutchAuction.Core.Keys

/-!
# One uniform, reachable clearing price

The price the auction has reached never rises from one command to the next, and nothing is ever
filled below the price reached by then (`Descends`). So when the auction clears, its price is no
higher than anything a fill carried before, which makes every repricing a strict decrease.

With the pricing invariant and the agreement of the record with the book this gives the uniform
price: every fill carries it, every record quotes it, the clock showed it, and either the supply is
gone or it is the floor.
-/

namespace DutchAuction

namespace AuctionState

variable {s : AuctionState} {t : Nanos}

/-- The price the auction has reached by now. -/
def mark (s : AuctionState) : Price := s.reached s.now

/-- From a price to a result: the price reached does not rise above it, nothing is filled below the
price reached, and every repricing is a strict decrease. -/
structure Descends (price : Price) (r : AuctionState × List Event) : Prop where
  mark : r.1.mark ≤ price
  filled : ∀ f, .filled f ∈ r.2 → r.1.mark ≤ f.price
  repriced : ∀ id fromPrice toPrice, .repriced id fromPrice toPrice ∈ r.2 → toPrice < fromPrice

theorem Descends.append {price : Price} {r r' : AuctionState × List Event} (h : Descends price r)
    (h' : Descends r.1.mark r') : Descends price (r'.1, r.2 ++ r'.2) where
  mark := h'.mark.trans h.mark
  filled f hf := by
    rcases List.mem_append.mp hf with hf | hf
    · exact h'.mark.trans (h.filled f hf)
    · exact h'.filled f hf
  repriced id fromPrice toPrice hr := by
    rcases List.mem_append.mp hr with hr | hr
    · exact h.repriced id fromPrice toPrice hr
    · exact h'.repriced id fromPrice toPrice hr

theorem Descends.quiet {r : AuctionState × List Event} (hmark : r.1.mark = s.mark)
    (hevents : ∀ e ∈ r.2, (∀ f, e ≠ .filled f) ∧ ∀ id fromPrice toPrice,
      e ≠ .repriced id fromPrice toPrice) : Descends s.mark r where
  mark := hmark.le
  filled f hf := absurd rfl ((hevents _ hf).1 f)
  repriced id fromPrice toPrice hr := absurd rfl ((hevents _ hr).2 id fromPrice toPrice)

theorem mark_clear (s : AuctionState) (price : Price) : (s.clear price).1.mark = price := by
  have hbare := congrArg AuctionState.clearingPrice (s.bare_clear price)
  have hprice : (s.clear price).1.clearingPrice = some price := hbare
  rw [mark, reached, hprice, Option.getD_some]

theorem descends_clear {price bound : Price} (hbound : price ≤ bound)
    (hfills : ∀ f ∈ s.fills, price ≤ f.price) : Descends bound (s.clear price) where
  mark := (s.mark_clear price).trans_le hbound
  filled _ hf := absurd hf not_filled_mem_clear
  repriced _ _ _ hr := (repriced_lt_of_mem_clear hfills hr).1

private theorem descends_settling {w : OpenWindow} (h : PricedAt t s) (ht : t ≤ s.now)
    (hlive : s.status = .live) (hready : s.Ripe w) : Descends (s.reached t) (s.settling w) := by
  have hset := s.bare_settled w
  have hnow := congrArg AuctionState.now hset
  have hconfig := congrArg AuctionState.config hset
  have hclearing := congrArg AuctionState.clearingPrice hset
  have hmark : (s.settled w).mark = s.config.priceAt s.now := by
    rw [mark, reached, show (s.settled w).clearingPrice = s.clearingPrice from hclearing,
      show (s.settled w).config = s.config from hconfig,
      show (s.settled w).now = s.now from hnow]
    exact reached_eq_priceAt h hlive s.now
  refine ⟨?_, fun f hf ↦ ?_, fun id a b hr ↦ ?_⟩
  · refine hmark.le.trans ?_
    rw [reached_eq_priceAt h hlive]
    exact AuctionConfig.priceAt_anti ht
  · rcases snd_settling hf with ⟨key, heq⟩ | ⟨g, heq, hprice⟩
    · cases heq
    · cases heq
      refine hmark.le.trans ?_
      rw [hprice]
      exact hready.priceAt_le
  · rcases snd_settling hr with ⟨key, heq⟩ | ⟨g, heq, -⟩
    · cases heq
    · cases heq

/-- **A flush of a ripe window descends.** -/
theorem descends_flushWindow (h : PricedAt t s) (ht : t ≤ s.now)
    (hripe : ∀ w, s.window = some w → s.status = .live → s.Ripe w) :
    Descends (s.reached t) s.flushWindow := by
  rcases s.flushWindow_cases with ⟨-, hf⟩ | ⟨w, hw, hlive, -⟩ | ⟨w, hw, hlive, hf⟩
  · rw [hf]
    exact ⟨reached_anti ht, fun _ hf ↦ absurd hf List.not_mem_nil,
      fun _ _ _ hr ↦ absurd hr List.not_mem_nil⟩
  · rw [(h.idle hlive).1] at hw
    cases hw
  · have hready := hripe w hw hlive
    have hsettling := descends_settling h ht hlive hready
    have hprice : (s.config.windowBounds t).2 = w.price := congrArg Prod.snd (h.window w hw)
    have hbound : w.price ≤ s.reached t := by
      rw [reached_eq_priceAt h hlive, ← hprice]
      exact AuctionConfig.windowPrice_le_priceAt t
    rw [hf]
    by_cases hex : s.Exhausts w
    · have hclear := descends_clear (s := s.settled w) hbound fun f hf ↦
        price_le_of_mem_settled hready hf
      have hmark := (s.settled w).mark_clear w.price
      rw [if_pos hex]
      refine ⟨hclear.mark, fun f hf ↦ ?_, fun id a b hr ↦ ?_⟩
      · rcases List.mem_append.mp hf with hf | hf
        -- The clearing price is the window's, which is also what this window filled at.
        · rcases snd_settling hf with ⟨key, heq⟩ | ⟨g, heq, hg⟩
          · cases heq
          · cases heq
            exact hmark.le.trans hg.ge
        · exact hclear.filled f hf
      · rcases List.mem_append.mp hr with hr | hr
        · exact hsettling.repriced id a b hr
        · exact hclear.repriced id a b hr
    · rw [if_neg hex]
      exact hsettling.append (Descends.quiet rfl fun e he ↦ absurd he List.not_mem_nil)

/-! ## Every command

The mark is the price that the auction has reached. No phase raises it, and none fills below it. -/

private theorem mark_of_bare_eq {s' : AuctionState} (h : s'.bare = s.bare) : s'.mark = s.mark := by
  have hnow := congrArg AuctionState.now h
  have hconfig := congrArg AuctionState.config h
  have hclearing := congrArg AuctionState.clearingPrice h
  rw [mark, mark, reached, reached, show s'.clearingPrice = s.clearingPrice from hclearing,
    show s'.config = s.config from hconfig, show s'.now = s.now from hnow]

private theorem Descends.single {r : AuctionState × List Event} {e : Event}
    (hmark : r.1.mark = s.mark) (hr : r.2 = [e]) (hfilled : ∀ f, e ≠ .filled f)
    (hrepriced : ∀ id a b, e ≠ .repriced id a b) : Descends s.mark r := by
  refine Descends.quiet hmark fun e' he' ↦ ?_
  rw [hr] at he'
  rw [List.mem_singleton.mp he']
  exact ⟨hfilled, hrepriced⟩

/-- **Every phase descends.** -/
theorem Phase.descends {cmd : Command} {r : AuctionState × List Event} (h : s.Priced)
    (hphase : s.Phase cmd r) : Descends s.mark r := by
  cases hphase with
  | duplicate =>
    exact Descends.single rfl rfl (fun _ ↦ Event.noConfusion) fun _ _ _ ↦ Event.noConfusion
  | unknown =>
    exact Descends.single rfl rfl (fun _ ↦ Event.noConfusion) fun _ _ _ ↦ Event.noConfusion
  | refuse =>
    exact Descends.single rfl rfl (fun _ ↦ Event.noConfusion) fun _ _ _ ↦ Event.noConfusion
  | uncovered participant key price qty =>
    obtain ⟨c, hc⟩ := s.reserve_frame participant price qty
    refine Descends.single (mark_of_bare_eq ?_) rfl (fun _ ↦ Event.noConfusion)
      fun _ _ _ ↦ Event.noConfusion
    rw [hc]
    rfl
  | queue seq participant key qty =>
    obtain ⟨c, hc⟩ := s.reserve_frame participant (s.config.windowBounds s.now).2 qty
    refine Descends.single ?_ rfl (fun _ ↦ Event.noConfusion) fun _ _ _ ↦ Event.noConfusion
    unfold enqueue
    dsimp only
    rw [hc]
    rfl
  | rest seq participant key qty limit =>
    obtain ⟨c, hc⟩ := s.reserve_frame participant limit qty
    refine Descends.single ?_ rfl (fun _ ↦ Event.noConfusion) fun _ _ _ ↦ Event.noConfusion
    unfold shelve
    dsimp only
    rw [hc]
    rfl
  | withdraw =>
    exact Descends.single rfl rfl (fun _ ↦ Event.noConfusion) fun _ _ _ ↦ Event.noConfusion
  | fund => exact Descends.single rfl rfl (fun _ ↦ Event.noConfusion) fun _ _ _ ↦ Event.noConfusion
  | «open» hpending =>
    rw [onOpen, if_pos hpending]
    exact Descends.single rfl rfl (fun _ ↦ Event.noConfusion) fun _ _ _ ↦ Event.noConfusion
  | trigger =>
    refine Descends.quiet ?_ fun e he ↦ absurd he List.not_mem_nil
    rw [s.triggerResting_eq]
    rfl
  | flush hlive hwhen =>
    exact descends_flushWindow h le_rfl fun w hw _ ↦ h.ripe hw hlive hwhen
  | floor hlive hfloor =>
    have hmark : s.mark = s.config.priceAt s.now := reached_eq_priceAt h hlive s.now
    refine descends_clear ?_ fun f hf ↦ ?_
    · rw [hmark]
      exact AuctionConfig.floor_le_priceAt s.now
    · refine le_trans ?_ (h.fills f hf)
      rw [reached_eq_priceAt h hlive]
      exact AuctionConfig.floor_le_priceAt s.now
  | cancel hopen =>
    have hbare := bare_onCancel hopen
    have hnow := congrArg AuctionState.now hbare
    have hconfig := congrArg AuctionState.config hbare
    have hclearing := congrArg AuctionState.clearingPrice hbare
    refine Descends.quiet ?_ fun e he ↦ ?_
    · rw [mark, mark, reached, reached,
        show s.onCancel.1.clearingPrice = s.clearingPrice from hclearing,
        show s.onCancel.1.config = s.config from hconfig, show s.onCancel.1.now = s.now from hnow]
    · rw [onCancel, if_neg (by rw [hopen]; exact Bool.false_ne_true), Emit.andThen_snd,
        Emit.andThen_snd] at he
      have hloop : ∀ l (s : AuctionState), ∀ e ∈ (Emit.forEach (turnAwayPending .notLive) l s).2,
          ∃ key, e = .rejected key .notLive :=
        Emit.forall_mem_forEach_snd fun b s e he ↦ ⟨b.key, List.mem_singleton.mp he⟩
      rcases List.mem_append.mp he with he | he
      · obtain ⟨key, rfl⟩ := hloop _ _ e he
        exact ⟨fun _ ↦ Event.noConfusion, fun _ _ _ ↦ Event.noConfusion⟩
      · rcases List.mem_append.mp he with he | he
        · rw [snd_drainLadder] at he
          obtain ⟨b, -, rfl⟩ := List.mem_map.mp he
          exact ⟨fun _ ↦ Event.noConfusion, fun _ _ _ ↦ Event.noConfusion⟩
        · rw [List.mem_singleton.mp he]
          exact ⟨fun _ ↦ Event.noConfusion, fun _ _ _ ↦ Event.noConfusion⟩

theorem Priced.descends_close (h : s.Priced) (seq : Seq) (ts : Nanos) :
    Descends s.mark ((s.stamp seq ts).closeElapsedWindow (s.stamp seq ts).now) := by
  have hstamped : PricedAt s.now (s.stamp seq ts) :=
    ⟨h.filed, h.idle, h.window, h.covered, h.fills, h.cleared, fun p hp ↦
      ⟨(h.clearedAt p hp).uniform, by
        obtain ⟨u, hu, heq⟩ := (h.clearedAt p hp).shown
        exact ⟨u, hu.trans (le_max_right _ _), heq⟩, (h.clearedAt p hp).spent⟩⟩
  have hle : s.now ≤ (s.stamp seq ts).now := le_max_right _ _
  rcases (s.stamp seq ts).closeElapsedWindow_cases (s.stamp seq ts).now with
    ⟨heq, -⟩ | ⟨w, hw, helapsed, heq⟩
  · rw [heq]
    exact ⟨reached_anti hle, fun _ hf ↦ absurd hf List.not_mem_nil,
      fun _ _ _ hr ↦ absurd hr List.not_mem_nil⟩
  · rw [heq]
    refine descends_flushWindow hstamped hle fun w' hw' hlive ↦ ?_
    rw [hw] at hw'
    cases hw'
    exact hstamped.ripe_of_elapsed hw hlive helapsed

/-- **Every command descends.** -/
theorem Priced.descends {r : LogRecord} {s' : AuctionState} {o : List Event} (h : s.Priced)
    (hstep : s.step r = some (s', o)) : Descends s.mark (s', o) := by
  obtain ⟨-, hadvance⟩ := step_eq_some hstep
  obtain ⟨t, hsteps, heq⟩ := s.advance_eq r.seq r.ts r.cmd
  have hphases := hsteps.rel (P := Priced) (M := fun s r ↦ Descends s.mark r)
    (fun s ↦ Descends.quiet rfl fun e he ↦ absurd he List.not_mem_nil)
    (fun _ _ _ h h' ↦ h.append h') (fun _ _ hu hv ↦ ⟨hu.phase hv, hv.descends hu⟩)
    (h.stamp r.seq r.ts).close
  rw [hadvance] at heq
  rw [heq]
  exact (h.descends_close r.seq r.ts).append hphases.2

end AuctionState

/-! ## Runs -/

variable {config : AuctionConfig} {tr : List Transition} {s : AuctionState}

theorem run_mark (hrun : Run config tr s) : ∀ t ∈ tr, s.mark ≤ t.pre.mark ∧ s.mark ≤ t.post.mark ∧
    ∀ f, .filled f ∈ t.out → s.mark ≤ f.price := by
  induction hrun with
  | nil => exact fun t ht ↦ absurd ht List.not_mem_nil
  | @snoc tr s s' r o hrun hstep ih =>
    have hdescends := (run_priced hrun).descends hstep
    intro t ht
    rcases List.mem_append.mp ht with ht | ht
    · obtain ⟨hpre, hpost, hfilled⟩ := ih t ht
      exact ⟨hdescends.mark.trans hpre, hdescends.mark.trans hpost,
        fun f hf ↦ hdescends.mark.trans (hfilled f hf)⟩
    · rw [List.mem_singleton.mp ht]
      exact ⟨hdescends.mark, le_rfl, hdescends.filled⟩

/-- **One uniform, reachable clearing price.** A cleared auction has one price, which every fill
carries and every record of a fill quotes; it lies between the floor and the start, the clock showed
it, it is no higher than anything a fill ever carried, and either nothing remains or it is the
floor. Every repricing is a strict decrease. -/
theorem uniform_price (hconfig : config.schedule.Constructed) (hrun : Run config tr s) :
    (s.clearingPrice.isSome = true ↔ s.status = .cleared) ∧
      (∀ price, s.clearingPrice = some price →
        (∀ f ∈ s.fills, f.price = price) ∧
        (∀ k q p, s.outcome k = some (.filled q p) → p = price) ∧
        config.floorPrice ≤ price ∧ price ≤ config.startPrice ∧
        (∃ elapsed ≤ s.now, price = config.priceAt elapsed) ∧
        (∀ t ∈ tr, (∀ f ∈ t.pre.fills, price ≤ f.price) ∧ (∀ f ∈ t.post.fills, price ≤ f.price) ∧
          ∀ f, .filled f ∈ t.out → price ≤ f.price) ∧
        (s.supplyRemaining.val = 0 ∨ price = config.floorPrice)) ∧
      ∀ t ∈ tr, ∀ id fromPrice toPrice, .repriced id fromPrice toPrice ∈ t.out →
        toPrice < fromPrice := by
  have hpriced := run_priced hrun
  have hsame := run_config hrun
  refine ⟨hpriced.cleared.symm, fun price hprice ↦ ?_, fun t ht ↦ ?_⟩
  · have hcleared := hpriced.clearedAt price hprice
    obtain ⟨u, hu, hshown⟩ := hcleared.shown
    rw [hsame] at hshown
    have hmark : s.mark = price := by rw [AuctionState.mark, AuctionState.reached, hprice,
      Option.getD_some]
    refine ⟨hcleared.uniform, fun k q p hk ↦ ?_, ?_, ?_, ⟨u, hu, hshown⟩, fun t ht ↦ ?_, ?_⟩
    · obtain ⟨f, hf, -, -, rfl⟩ := (run_keyed hrun).filled_iff.mp hk
      exact hcleared.uniform f hf
    · rw [hshown]
      exact AuctionConfig.floor_le_priceAt u
    · rw [hshown]
      exact PriceSchedule.priceAt_le_start hconfig.floor_le_start u
    · obtain ⟨hpre, hpost, hfilled⟩ := run_mark hrun t ht
      obtain ⟨⟨tr', -, hrun'⟩, hstep⟩ := hrun.split ht
      have hpriced' := run_priced hrun'
      rw [hmark] at hpre hpost hfilled
      exact ⟨fun f hf ↦ hpre.trans (hpriced'.fills f hf),
        fun f hf ↦ hpost.trans ((hpriced'.step hstep).fills f hf), hfilled⟩
    · have hspent := hcleared.spent
      rwa [hsame] at hspent
  · obtain ⟨⟨tr', -, hrun'⟩, hstep⟩ := hrun.split ht
    exact ((run_priced hrun').descends hstep).repriced

/-- Cleared at 900 by the second bid, which reprices the first. -/
theorem uniform_price_sample :
    (play (.sample 0) sampleRecords).2.clearingPrice = some (I64.lit 900) ∧
      ∀ f ∈ (play (.sample 0) sampleRecords).2.fills, f.price = I64.lit 900 :=
  have hprice : (play (.sample 0) sampleRecords).2.clearingPrice = some (I64.lit 900) := by decide
  ⟨hprice, ((uniform_price (AuctionConfig.sample_constructed 0)
    (run_play (.sample 0) sampleRecords)).2.1 (I64.lit 900) hprice).1⟩

end DutchAuction
