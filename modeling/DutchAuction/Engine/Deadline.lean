import DutchAuction.Engine.Loop

/-!
# The engine sleeps until something is to be done

The engine predicts when it must act: the end of the open window, the instant at which the clock
reaches the highest resting limit, the instant at which it reaches the floor. A tick decides from
the time it is stamped with whether there is anything to do. Both come to the same (`quiet_iff`):
the predicted deadline is later than an instant exactly when nothing is to be done then (`Quiet`).

So a tick before the deadline changes nothing, and as a tick leaves nothing to be done at its own
instant, the deadline after it is in the future (`tick_deadline`).
-/

namespace DutchAuction

/-- What the constructors of a schedule do not ask for: prices are not negative, and a step takes
time. -/
structure PriceSchedule.Sane (s : PriceSchedule) : Prop where
  constructed : s.Constructed
  floor : 0 ≤ s.floorPrice.val
  duration : ∀ stepDuration stepSize, s.kind = .stepped stepDuration stepSize → 0 < stepDuration.val

namespace AuctionState

variable {s : AuctionState} {t : Nanos}

/-- At instant `t` the clock has nothing to do: the window has not elapsed, no resting limit has
been reached, and neither has the floor. -/
structure Quiet (s : AuctionState) (t : Nanos) : Prop where
  window : ∀ w, s.window = some w → ¬w.index < (s.config.windowBounds t).1
  trigger : ∀ b ∈ s.resting.bids, b.limit < s.config.priceAt t
  floor : s.config.schedule.atFloor t = false

/-! ## Nothing to do, and the deadline

Each of the three deadlines is the first instant at which a tick has something of its kind to do:
close the window, drain the head of the ladder, settle at the floor. -/

theorem lt_windowClose {config : AuctionConfig} {now u : Nanos} (ht : t < U64.maxValue)
    (hindex : ¬(config.windowBounds now).1 < (config.windowBounds t).1)
    (hclose : windowClose now config.batchWindow = some u) : t < u := by
  unfold windowClose at hclose
  split_ifs at hclose with hwidth
  cases hclose
  have hpos : 0 < config.batchWindow.val := Nat.pos_of_ne_zero hwidth
  have hend := U64.lt_def.mp ht
  rw [AuctionConfig.windowBounds, AuctionConfig.windowBounds, if_neg hwidth,
    if_neg hwidth] at hindex
  have hle : t.val / config.batchWindow.val ≤ now.val / config.batchWindow.val := not_lt.mp hindex
  have hbound : t.val < (now.val / config.batchWindow.val + 1) * config.batchWindow.val := by
    rw [← Nat.div_lt_iff_lt_mul hpos]
    exact Nat.lt_succ_of_le hle
  have hsmall : (now.windowIndex config.batchWindow).val = now.val / config.batchWindow.val := by
    rw [Nanos.windowIndex, if_neg hwidth]
    rfl
  rw [U64.lt_def, U64.saturatingMul, U64.saturatingAdd, U64.val_saturate, U64.val_saturate, hsmall,
    U64.val_one]
  rw [U64.val_maxValue] at hend
  refine lt_min ?_ hend
  rcases le_total (now.val / config.batchWindow.val + 1) (2 ^ 64 - 1) with hfits | hbig
  · rw [min_eq_left hfits]
    exact hbound
  · rw [min_eq_right hbig]
    exact hend.trans_le (Nat.le_mul_of_pos_right _ hpos)

theorem atFloor_iff :
    s.config.schedule.atFloor t = true ↔ s.config.priceAt t ≤ s.config.floorPrice := by
  rw [PriceSchedule.atFloor, decide_eq_true_iff]
  exact ⟨fun h ↦ h.le, fun h ↦ le_antisymm h (AuctionConfig.floor_le_priceAt t)⟩

/-- **The deadline is later than an instant exactly when nothing is to be done then.** -/
theorem quiet_iff (hsane : s.config.schedule.Sane) (hpriced : s.Priced) (himmediate : s.Immediate)
    (hlive : s.status = .live) (hnow : s.now ≤ t) (ht : t < U64.maxValue) :
    s.Quiet t ↔ ∀ due, deadline s = some due → t < due := by
  have hexact := PriceSchedule.priceAt_le_iff hsane.constructed hsane.floor hsane.duration ht
  constructor
  · intro hquiet due hdue
    obtain ⟨-, ⟨u, hcomes, rfl⟩, -⟩ := deadline_eq_some.mp hdue
    refine lt_max_of_lt_left ?_
    cases hcomes with
    | window hwindow =>
      obtain ⟨w, hw, hclose⟩ := Option.bind_eq_some_iff.mp hwindow
      obtain ⟨w, hw, -⟩ := Option.map_eq_some_iff.mp hw
      refine lt_windowClose ht ?_ hclose
      rw [hpriced.window w hw]
      exact hquiet.window w hw
    | trigger htrigger =>
      obtain ⟨limit, hlimit, hu⟩ := Option.bind_eq_some_iff.mp htrigger
      obtain ⟨b, hb, rfl⟩ := PriceLadder.mem_of_nextTrigger hpriced.filed hlimit
      by_contra hle
      exact not_le.mpr (hquiet.trigger b hb) ((hexact _).mpr ⟨u, hu, not_lt.mp hle⟩)
    | floor hfloor =>
      by_contra hle
      have hreached := atFloor_iff.mpr ((hexact _).mpr ⟨u, hfloor, not_lt.mp hle⟩)
      exact absurd (hquiet.floor.symm.trans hreached) Bool.false_ne_true
  · intro hdeadline
    have hlate : ∀ {u : Nanos}, ComesDue s u → t < u := by
      intro u hcomes
      obtain ⟨due, hdue, hle⟩ := exists_deadline hlive hcomes
      by_contra hlt
      exact not_le.mpr (hdeadline due hdue) (hle.trans (max_le (not_lt.mp hlt) hnow))
    constructor
    · intro w hw helapsed
      have hindex : (s.config.windowBounds s.now).1 = w.index :=
        congrArg Prod.fst (hpriced.window w hw)
      have hwidth : s.config.batchWindow.val ≠ 0 := fun hzero ↦
        Option.some_ne_none w (hw.symm.trans (himmediate hzero))
      rw [← hindex] at helapsed
      obtain ⟨u, hclose, hle, -⟩ := windowClose_le hwidth helapsed
      refine absurd (hlate (.window (t := u) ?_)) (not_lt.mpr hle)
      rw [openWindow, hw]
      exact hclose
    · intro b hb
      by_contra hreached
      obtain ⟨limit, hlimit, hle⟩ := PriceLadder.limit_le_nextTrigger hpriced.filed hb
      obtain ⟨u, hu, hule⟩ := (hexact limit).mp ((not_lt.mp hreached).trans hle)
      refine absurd (hlate (.trigger (t := u) ?_)) (not_lt.mpr hule)
      rw [hlimit]
      exact hu
    · rw [Bool.eq_false_iff]
      intro hreached
      obtain ⟨u, hu, hule⟩ := (hexact _).mp (atFloor_iff.mp hreached)
      exact absurd (hlate (.floor hu)) (not_lt.mpr hule)

theorem onTick_eq_self (hfiled : s.resting.Filed) (himmediate : s.Immediate)
    (hquiet : s.Quiet s.now) : s.onTick s.now = (s, []) := by
  unfold onTick
  by_cases haccepts : s.status.acceptsBids = true
  · have htriggered : s.triggerResting s.now = s := by
      rw [triggerResting_eq, PriceLadder.drainTriggered_eq_self hfiled hquiet.trigger, if_pos rfl]
    have hflushed : (if s.config.batchWindow.val = 0 then flushWindow else Emit.skip) s =
      (s, []) := by
      split_ifs with hbatch
      · rw [flushWindow, himmediate hbatch]
      · rfl
    rw [if_neg (by rw [haccepts]; decide), htriggered, Emit.andThen, hflushed]
    dsimp only
    rw [hquiet.floor, Bool.and_false, if_neg Bool.false_ne_true]
    rfl
  · rw [if_pos (by rw [Bool.eq_false_iff.mpr haccepts]; rfl)]

theorem closeElapsedWindow_eq_self (h : s.Quiet s.now) : s.closeElapsedWindow s.now = (s, []) := by
  rcases s.closeElapsedWindow_cases s.now with ⟨heq, -⟩ | ⟨w, hw, helapsed, -⟩
  · exact heq
  · exact absurd helapsed (h.window w hw)

end AuctionState

open AuctionState

variable {config : AuctionConfig} {tr : List Transition} {s s' : AuctionState} {seq : Seq}
  {ts : Nanos} {o : List Event}

/-- **Sleeping until the deadline misses nothing, and a tick discharges the deadline** it was
scheduled for. -/
theorem tick_deadline (hsane : config.schedule.Sane) (hrun : Run config tr s)
    (hlive : s.status = .live) (hnow : s.now ≤ ts) (hts : ts < U64.maxValue)
    (htick : s.apply seq ts .tick = some (s', o)) :
    ((∀ due, deadline s = some due → ts < due) →
        s' = { s with lastSeq := some seq, now := ts } ∧ o = []) ∧
      ((∃ due, deadline s = some due ∧ due ≤ ts) →
        s'.status ≠ .live ∨ ∀ due, deadline s' = some due → ts < due) := by
  have hpriced := run_priced hrun
  have himmediate := run_immediate hrun
  have hconfig := run_config hrun
  have hstep : s.step ⟨seq, ts, .tick⟩ = some (s', o) := htick
  obtain ⟨-, hadvance⟩ := AuctionState.step_eq_some hstep
  have hmax : max ts s.now = ts := max_eq_left hnow
  have hstamp : s.stamp seq ts = { s with lastSeq := some seq, now := ts } := by
    rw [stamp, hmax]
  have hadvance : Emit.andThen (closeElapsedWindow ts) (onTick ts) (s.stamp seq ts) = (s', o) := by
    rw [advance, hmax] at hadvance
    exact hadvance
  constructor
  · intro hdeadline
    rw [← hconfig] at hsane
    have hquiet := (quiet_iff hsane hpriced himmediate hlive hnow hts).mpr hdeadline
    have hstamped : (s.stamp seq ts).Quiet ts := ⟨hquiet.window, hquiet.trigger, hquiet.floor⟩
    rw [hstamp] at hadvance hstamped
    have hclose := closeElapsedWindow_eq_self hstamped
    have hself := onTick_eq_self (s := { s with lastSeq := some seq, now := ts }) hpriced.filed
      himmediate hstamped
    dsimp only at hclose hself
    rw [Emit.andThen, hclose] at hadvance
    dsimp only at hadvance
    rw [hself] at hadvance
    cases hadvance
    exact ⟨rfl, rfl⟩
  · rintro -
    by_cases hlive' : s'.status = .live
    · refine Or.inr ?_
      have hrun' := hrun.snoc hstep
      obtain ⟨hconfig', hnow'⟩ := step_frame hstep
      rw [hmax] at hnow'
      rw [← run_config hrun'] at hsane
      have hpriced' := run_priced hrun'
      refine (quiet_iff hsane hpriced' (run_immediate hrun') hlive' hnow'.le hts).mp ?_
      -- Between the stamp and the tick the elapsed window is closed.
      obtain ⟨hconfig₁, hnow₁⟩ := (s.stamp seq ts).closeElapsedWindow_frame ts
      have hbefore := (hpriced.stamp seq ts).close
      rw [Emit.andThen] at hadvance
      have hpost : (onTick ts ((s.stamp seq ts).closeElapsedWindow ts).1).1 = s' :=
        congrArg Prod.fst hadvance
      rw [show (s.stamp seq ts).now = ts from hmax] at hbefore hnow₁
      generalize ((s.stamp seq ts).closeElapsedWindow ts).1 = s₁ at hconfig₁ hnow₁ hbefore hpost
      rw [← hnow₁] at hpost
      have hleft := onTick_quiet hbefore (hpost ▸ hlive')
      rw [hpost, hnow₁, hconfig₁] at hleft
      refine ⟨fun w hw ↦ ?_, ?_, ?_⟩
      · have hindex : (s'.config.windowBounds s'.now).1 = w.index :=
          congrArg Prod.fst (hpriced'.window w hw)
        rw [← hindex, hnow']
        exact lt_irrefl _
      · rw [hconfig']
        exact hleft.1
      · rw [hconfig']
        exact hleft.2
    · exact Or.inl hlive'

/-- A bid waits in the window of the first second. -/
def waitingPlay : List Transition × AuctionState :=
  play (.sample 1000000000) (script [(0, .open), (0, .setCollateral 1 100000),
    (0, .submitBid 1 101 5 (.take 1000))])

theorem AuctionConfig.sample_sane (batchWindow : Nanos) :
    (AuctionConfig.sample batchWindow).schedule.Sane where
  constructed := sample_constructed batchWindow
  floor := show 0 ≤ (I64.lit 100).val by decide
  duration := fun d z h ↦ by
    cases h
    decide

theorem tick_deadline_sample :
    (∃ s', waitingPlay.2.apply 3 500000000 .tick = some (s', []) ∧
        s' = { waitingPlay.2 with lastSeq := some 3, now := 500000000 }) ∧
      ∃ s' o, waitingPlay.2.apply 3 1000000000 .tick = some (s', o) ∧
        (s'.status ≠ .live ∨ ∀ due, deadline s' = some due → 1000000000 < due) := by
  have hrun := run_play (.sample 1000000000) (script [(0, .open), (0, .setCollateral 1 100000),
    (0, .submitBid 1 101 5 (.take 1000))])
  have hdue : deadline waitingPlay.2 = some 1000000000 := by decide
  obtain ⟨s₁, o₁, h₁⟩ : ∃ s₁ o₁, waitingPlay.2.apply 3 500000000 .tick = some (s₁, o₁) :=
    ⟨_, _, rfl⟩
  obtain ⟨s₂, o₂, h₂⟩ : ∃ s₂ o₂, waitingPlay.2.apply 3 1000000000 .tick = some (s₂, o₂) :=
    ⟨_, _, rfl⟩
  constructor
  · obtain ⟨hs, rfl⟩ :=
      (tick_deadline (AuctionConfig.sample_sane _) hrun rfl (by decide) (by decide)
      h₁).1 fun due hd ↦ by
        cases hdue.symm.trans hd
        decide
    exact ⟨s₁, h₁, hs⟩
  · exact ⟨s₂, o₂, h₂, (tick_deadline (AuctionConfig.sample_sane _) hrun rfl (by decide) (by decide)
      h₂).2 ⟨1000000000, hdue, by decide⟩⟩

end DutchAuction
