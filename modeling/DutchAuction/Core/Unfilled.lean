import DutchAuction.Core.Sweeps

/-!
# Who is told the clock never reached them

A bid answered as unfilled is told that the clock never got down to its limit. The ladder is drained
down to the clock by a tick and by nothing else, so what the answer is worth depends on which
command clears. A tick has always drained first. An elapsed window that sells out is closed by
whatever command comes next, and with batching off a take that sells out is matched on arrival; both
leave the ladder as it stands.

`none_overtaken_iff` says exactly when a command tells the truth: unless one of these two happens
while a bid rests at or above the price it clears at (`AuctionState.Overtakes`).
-/

namespace DutchAuction

namespace AuctionState

variable {s : AuctionState}

/-! ## With batching off nothing waits -/

/-- With batching off no window outlasts the command that opens it. -/
def Immediate (s : AuctionState) : Prop := s.config.batchWindow.val = 0 → s.window = none

private theorem window_settleAtFloor (s : AuctionState) : s.settleAtFloor.1.window = none := by
  have hwindow := s.flushWindow_frame.1
  rw [settleAtFloor, Emit.andThen_fst]
  split_ifs
  · have h := congrArg AuctionState.window
      (s.flushWindow.1.bare_clear s.flushWindow.1.config.floorPrice)
    exact (show (s.flushWindow.1.clear _).1.window = _ from h).trans hwindow
  · exact hwindow

private theorem window_onTick (hbatch : s.config.batchWindow.val = 0) (hwindow : s.window = none) :
    (s.onTick s.now).1.window = none := by
  unfold onTick
  split_ifs with hdead
  · exact hwindow
  · rw [Emit.andThen_fst]
    split_ifs
    · exact window_settleAtFloor _
    · exact (flushWindow_frame _).1

theorem window_handle (hbatch : s.config.batchWindow.val = 0) (hwindow : s.window = none)
    (seq : Seq)
    (cmd : Command) : (handle seq s.now cmd s).1.window = none := by
  cases cmd with
  | «open» =>
    show s.onOpen.1.window = none
    unfold onOpen
    split_ifs
    · exact hwindow
    · exact hwindow
  | setCollateral participant limit => exact hwindow
  | cancelResting participant key =>
    show (s.onCancelResting participant key).1.window = none
    unfold onCancelResting
    split
    · exact hwindow
    · split
      · exact hwindow
      · exact hwindow
  | tick => exact window_onTick hbatch hwindow
  | cancel =>
    show s.onCancel.1.window = none
    cases hterm : s.status.isTerminal with
    | true =>
      rw [onCancel, if_pos hterm]
      exact hwindow
    | false =>
      have h := congrArg AuctionState.window (bare_onCancel hterm)
      exact h
  | submitBid participant key qty kind =>
    show (s.onBid seq s.now participant key qty kind).1.window = none
    unfold onBid
    cases s.outcomes key with
    | some outcome => exact hwindow
    | none =>
      dsimp only
      split_ifs
      · exact hwindow
      · exact hwindow
      cases kind with
      | take expected =>
        show (s.onTake seq s.now participant key qty expected).1.window = none
        rcases s.onTake_cases seq participant key qty expected with ⟨-, hsame, -⟩ | ⟨-, -, heq⟩
        · exact hsame.trans hwindow
        · rw [heq, if_pos hbatch]
          exact (flushWindow_frame _).1
      | resting limit =>
        obtain ⟨c, hc⟩ := s.reserve_frame participant limit qty
        show (s.onRest seq s.now participant key qty limit).1.window = none
        rcases lt_or_ge (s.config.priceAt s.now) limit with habove | hlimit
        · rw [onRest_above seq participant key qty habove]
          exact hwindow
        cases hres : (s.reserve participant limit qty).2 with
        | false =>
          rw [onRest_uncovered seq key hlimit hres, hc]
          exact hwindow
        | true =>
          rw [onRest_rested seq key hlimit hres, shelve, hc]
          exact hwindow

theorem Immediate.step {r : LogRecord} {s' : AuctionState} {o : List Event} (h : s.Immediate)
    (hstep : s.step r = some (s', o)) : s'.Immediate := by
  intro hbatch
  rw [(step_frame hstep).1] at hbatch
  have hwindow := h hbatch
  obtain ⟨-, hadvance⟩ := step_eq_some hstep
  have hclose : (s.stamp r.seq r.ts).closeElapsedWindow (max r.ts s.now) =
      (s.stamp r.seq r.ts, []) := by
    rw [closeElapsedWindow, show (s.stamp r.seq r.ts).window = none from hwindow]
  have hpost : (s.advance r.seq r.ts r.cmd).1 =
      (handle r.seq (s.stamp r.seq r.ts).now r.cmd (s.stamp r.seq r.ts)).1 := by
    unfold advance
    dsimp only
    rw [Emit.andThen_fst, hclose]
    rfl
  rw [hadvance] at hpost
  rw [show s' = _ from hpost]
  exact window_handle (s := s.stamp r.seq r.ts) hbatch hwindow r.seq r.cmd

/-! ## Who is overtaken

A bid is overtaken if it is answered as unfilled although it rests at the clearing price or above.
A sweep overtakes nobody exactly if all that it sweeps lies below the price, so it comes down to
which ladder the handler sweeps. -/

/-- Whenever the events clear the auction, every bid they answer as unfilled rested below the
clearing price. -/
def NoneOvertaken (resting : List RestingBid) (es : List Event) : Prop :=
  ∀ price filled unsold, .cleared price filled unsold ∈ es →
    ∀ key, .rejected key .unfilled ∈ es → ∃ b ∈ resting, b.key = key ∧ b.limit < price

/-- The open window has elapsed and asks for all that remains, while a bid rests at its price or
above. -/
def ClosesOver (s : AuctionState) (now : Nanos) : Prop :=
  ∃ w, s.window = some w ∧ w.index < (s.config.windowBounds now).1 ∧
    s.supplyRemaining.val ≤ demand w.bids ∧ ∃ b ∈ s.resting.bids, w.price ≤ b.limit

/-- With batching off, the command is a take that is let in and asks for all that remains, while a
bid rests at the clock or above. -/
def TakesOver (s : AuctionState) (now : Nanos) (cmd : Command) : Prop :=
  s.config.batchWindow.val = 0 ∧ s.status = .live ∧ ∃ participant key qty expected,
    cmd = .submitBid participant key qty (.take expected) ∧ s.outcomes key = none ∧
      (s.supplyRemaining ≤ qty ∧
        I64.absDiff (s.config.priceAt now) expected ≤ s.config.priceTolerance ∧
        s.Covers participant (s.config.priceAt now) qty) ∧
      ∃ b ∈ s.resting.bids, s.config.priceAt now ≤ b.limit

/-- Applying the record clears the auction over the head of a resting bid. -/
def Overtakes (s : AuctionState) (r : LogRecord) : Prop :=
  s.ClosesOver (max r.ts s.now) ∨ s.TakesOver (max r.ts s.now) r.cmd

private theorem noneOvertaken_of_quiet {resting : List RestingBid} {es : List Event}
    (h : ∀ e ∈ es, e.Quiet) : NoneOvertaken resting es := fun _ _ _ hcleared ↦
  absurd (h _ hcleared) id

private theorem noneOvertaken_iff {resting ladder : List RestingBid} {price : Price}
    {es : List Event} (hsub : ∀ b ∈ ladder, b ∈ resting)
    (huniq : ∀ b ∈ resting, ∀ c ∈ resting, b.key = c.key → b = c) (h : Sweeps price ladder es) :
    NoneOvertaken resting es ↔ ∀ b ∈ ladder, b.limit < price := by
  constructor
  · intro hnone b hb
    obtain ⟨filled, unsold, hcleared⟩ := h.cleared
    obtain ⟨c, hc, hkey, hlt⟩ := hnone price filled unsold hcleared b.key ((h.swept b.key).mpr
      ⟨b, hb, rfl⟩)
    rwa [huniq b (hsub b hb) c hc hkey.symm]
  · intro hlt p filled unsold hcleared key hkey
    obtain ⟨b, hb, rfl⟩ := (h.swept key).mp hkey
    exact ⟨b, hsub b hb, rfl, h.only p filled unsold hcleared ▸ hlt b hb⟩

private theorem resting_unique (h : s.book.Keyed) :
    ∀ b ∈ s.resting.bids, ∀ c ∈ s.resting.bids, b.key = c.key → b = c := by
  intro b hb c hc hkey
  have hnodup := h.nodup
  rw [s.live_book, Multiset.map_coe, Multiset.coe_nodup, liveBids, List.map_append,
    List.nodup_append] at hnodup
  have hladder := hnodup.2.1
  rw [List.map_map] at hladder
  exact List.inj_on_of_nodup_map hladder hb hc hkey

private theorem noneOvertaken_handle (h : s.Priced) (seq : Seq) (cmd : Command)
    (htake : ∀ p k q e, cmd = .submitBid p k q (.take e) → s.status = .live →
      s.config.batchWindow.val = 0 → s.outcomes k ≠ none) {es : List Event}
    (hes : ∀ e ∈ es, e.Quiet) :
    NoneOvertaken s.resting.bids (es ++ (handle seq s.now cmd s).2) := by
  by_cases htick : cmd = .tick
  · subst htick
    rcases onTick_sweeps h with hquiet | ⟨price, ladder, hbelow, hsweeps⟩
    · exact noneOvertaken_of_quiet (quiet_events_append hes hquiet)
    · have hsweeps := hsweeps.quiet_append hes
      intro p filled unsold hcleared key hkey
      obtain ⟨b, hb, rfl⟩ := (hsweeps.swept key).mp hkey
      exact ⟨b, (hbelow b hb).1, rfl, hsweeps.only p filled unsold hcleared ▸ (hbelow b hb).2⟩
  · exact noneOvertaken_of_quiet
      (quiet_events_append hes (quiet_handle seq cmd (fun _ ↦ htick) htake))

private theorem noneOvertaken_handle_iff (h : s.Priced) (hkeyed : s.book.Keyed)
    (himmediate : s.Immediate) (hsupply : s.status = .live → 0 < s.supplyRemaining.val) (seq : Seq)
    (cmd : Command) :
    NoneOvertaken s.resting.bids (handle seq s.now cmd s).2 ↔ ¬s.TakesOver s.now cmd := by
  by_cases htake : ∃ p k q e, cmd = .submitBid p k q (.take e) ∧ s.status = .live ∧
      s.config.batchWindow.val = 0 ∧ s.outcomes k = none
  · obtain ⟨participant, key, qty, expected, rfl, hlive, hbatch, hkey⟩ := htake
    show NoneOvertaken s.resting.bids (s.onBid seq s.now participant key qty (.take expected)).2 ↔ _
    unfold onBid
    rw [hkey]
    dsimp only
    rw [if_neg (by rw [hlive]; decide : ¬(!s.status.acceptsBids) = true)]
    -- What is asked of the take is what the handler checks.
    have hiff : s.TakesOver s.now (.submitBid participant key qty (.take expected)) ↔
        (s.supplyRemaining ≤ qty ∧
          I64.absDiff (s.config.priceAt s.now) expected ≤ s.config.priceTolerance ∧
          s.Covers participant (s.config.priceAt s.now) qty) ∧
        ∃ b ∈ s.resting.bids, s.config.priceAt s.now ≤ b.limit := by
      constructor
      · rintro ⟨-, -, p, k, q, e, hcmd, -, hrest⟩
        cases hcmd
        exact hrest
      · intro hrest
        exact ⟨hbatch, hlive, participant, key, qty, expected, rfl, hkey, hrest⟩
    rw [hiff]
    by_cases hzero : Qty.isZero qty = true
    · rw [if_pos hzero]
      refine iff_of_true (noneOvertaken_of_quiet
        (quiet_events_singleton (Event.quiet_rejected (by decide)))) fun hrest ↦ ?_
      have hle := U64.le_def.mp hrest.1.1
      have hval := Qty.isZero_eq_true.mp hzero
      have hpos := hsupply hlive
      omega
    rw [if_neg hzero]
    rcases onTake_sweeps hbatch (himmediate hbatch) hlive (hsupply hlive) seq participant key qty
      expected with ⟨hfits, hwithin, hcovers, hsweeps⟩ | ⟨hnot, hquiet⟩
    · rw [noneOvertaken_iff (fun _ hb ↦ hb) (resting_unique hkeyed) hsweeps]
      constructor
      · rintro hlt ⟨-, b, hb, hle⟩
        exact absurd (hlt b hb) (not_lt.mpr hle)
      · intro hnot b hb
        exact not_le.mp fun hle ↦ hnot ⟨⟨hfits, hwithin, hcovers⟩, b, hb, hle⟩
    · exact iff_of_true (noneOvertaken_of_quiet hquiet) fun hrest ↦ hnot hrest.1
  · refine iff_of_true ?_ ?_
    · exact noneOvertaken_handle h seq cmd (fun p k q e hcmd hlive hbatch hkey ↦
        htake ⟨p, k, q, e, hcmd, hlive, hbatch, hkey⟩) quiet_events_nil
    · rintro ⟨hbatch, hlive, p, k, q, e, hcmd, hkey, -⟩
      exact htake ⟨p, k, q, e, hcmd, hlive, hbatch, hkey⟩

/-- **One command** overtakes a resting bid exactly in the two ways `Overtakes` lists. -/
theorem noneOvertaken_step (h : s.Priced) (hkeyed : s.book.Keyed) (himmediate : s.Immediate)
    (hsupply : s.status = .live → 0 < s.supplyRemaining.val) {r : LogRecord} {s' : AuctionState}
    {o : List Event} (hstep : s.step r = some (s', o)) :
    NoneOvertaken s.resting.bids o ↔ ¬s.Overtakes r := by
  obtain ⟨-, hadvance⟩ := step_eq_some hstep
  have hbefore := h.stamp r.seq r.ts
  have hpriced := hbefore.close
  have hframe := (s.stamp r.seq r.ts).closeElapsedWindow_frame (max r.ts s.now)
  have hout : o = ((s.stamp r.seq r.ts).closeElapsedWindow (max r.ts s.now)).2 ++
      (handle r.seq (max r.ts s.now) r.cmd
        ((s.stamp r.seq r.ts).closeElapsedWindow (max r.ts s.now)).1).2 := by
    have hsnd := congrArg Prod.snd hadvance
    exact hsnd.symm
  rcases (s.stamp r.seq r.ts).closeElapsedWindow_cases (max r.ts s.now) with
    ⟨hclose, hcurrent⟩ | ⟨w, hw, helapsed, hclose⟩
  · -- No window has elapsed: the handler works on the state as it was.
    have hnot : ¬s.ClosesOver (max r.ts s.now) := fun ⟨w, hw, helapsed, _⟩ ↦
      hcurrent w hw helapsed
    rw [hclose] at hout
    have hpriced' : (s.stamp r.seq r.ts).Priced := by
      have heq := congrArg Prod.fst hclose
      rwa [show ((s.stamp r.seq r.ts).closeElapsedWindow (s.stamp r.seq r.ts).now).1 = _ from heq]
        at hpriced
    have hiff := noneOvertaken_handle_iff (s := s.stamp r.seq r.ts) hpriced' hkeyed himmediate
      hsupply r.seq r.cmd
    rw [hout, List.nil_append]
    exact hiff.trans (not_congr (or_iff_right hnot).symm)
  · -- A window has elapsed, so batching is on.
    have hbatch : s.config.batchWindow.val ≠ 0 := fun h ↦
      absurd (hw.symm.trans (himmediate h)) (Option.some_ne_none w)
    have hlive : s.status = .live := by
      by_contra hstatus
      exact absurd (hw.symm.trans (h.idle hstatus).1) (Option.some_ne_none w)
    have hnot : ¬s.TakesOver (max r.ts s.now) r.cmd := fun h ↦ hbatch h.1
    have hex : (s.stamp r.seq r.ts).Exhausts w ↔ s.supplyRemaining.val ≤ demand w.bids :=
      exhausted_iff_le_demand w.bids (hsupply hlive)
    have hcloses : s.ClosesOver (max r.ts s.now) ↔ (s.stamp r.seq r.ts).Exhausts w ∧
        ∃ b ∈ s.resting.bids, w.price ≤ b.limit := by
      rw [hex]
      constructor
      · rintro ⟨w', hw', -, hrest⟩
        cases hw.symm.trans hw'
        exact hrest
      · exact fun hrest ↦ ⟨w, hw, helapsed, hrest⟩
    rw [Overtakes, or_iff_left hnot, hcloses]
    rw [hclose] at hout hframe
    have heq := congrArg Prod.fst hclose
    rw [show ((s.stamp r.seq r.ts).closeElapsedWindow (s.stamp r.seq r.ts).now).1 = _ from heq]
      at hpriced
    rcases (s.stamp r.seq r.ts).flushWindow_sweeps with
      ⟨w', hw', -, hexhausts, hcleared, hsweeps⟩ | ⟨hnone, hquiet, hstatus, hresting⟩
    · cases hw.symm.trans hw'
      have hdone := quiet_handle (s := (s.stamp r.seq r.ts).flushWindow.1) r.seq r.cmd
        (fun hlive ↦ absurd (hcleared.symm.trans hlive) (by decide))
        (fun _ _ _ _ _ hlive ↦ absurd (hcleared.symm.trans hlive) (by decide))
      rw [show (s.stamp r.seq r.ts).flushWindow.1.now = max r.ts s.now from hframe.2] at hdone
      have hsweeps := hsweeps.append_quiet hdone
      rw [← hout] at hsweeps
      rw [noneOvertaken_iff (fun _ hb ↦ hb) (resting_unique hkeyed) hsweeps]
      constructor
      · rintro hlt ⟨-, b, hb, hle⟩
        exact absurd (hlt b hb) (not_lt.mpr hle)
      · intro hnot b hb
        exact not_le.mp fun hle ↦ hnot ⟨hexhausts, b, hb, hle⟩
    · refine iff_of_true ?_ fun hrest ↦ hnone w hw hlive hrest.1
      have hhandle := noneOvertaken_handle hpriced r.seq r.cmd
        (fun _ _ _ _ _ _ hzero ↦ absurd (hframe.1 ▸ hzero) hbatch) hquiet
      rw [hresting, show (s.stamp r.seq r.ts).flushWindow.1.now = max r.ts s.now from hframe.2,
        ← hout] at hhandle
      exact hhandle

end AuctionState

/-! ## Runs

The command that clears an auction is the only one that answers anybody as unfilled, so a run is
judged at that command. -/

variable {config : AuctionConfig} {tr : List Transition} {s : AuctionState}

theorem run_immediate (hrun : Run config tr s) : s.Immediate :=
  hrun.invariant (fun _ ↦ rfl) fun _ _ _ _ h hstep ↦ h.step hstep

/-- **Nobody is overtaken, or the command overtakes.** In every run of an auction that offers
anything, a command that clears the auction answers only bids below the clearing price as unfilled
exactly when it does not close or take over the head of a resting bid. -/
theorem none_overtaken_iff (hsupply : 0 < config.totalSupply.val) (hrun : Run config tr s) :
    ∀ t ∈ tr, AuctionState.NoneOvertaken t.pre.resting.bids t.out ↔ ¬t.pre.Overtakes t.input := by
  intro t ht
  obtain ⟨⟨tr', -, hpre⟩, hstep⟩ := hrun.split ht
  exact AuctionState.noneOvertaken_step (run_priced hpre) (run_keyed hpre) (run_immediate hpre)
    ((supply_conserved hpre).2.2.2.2 hsupply) hstep

/-- The bid resting at 800 when the auction clears at 900 was never reached. -/
theorem none_overtaken_iff_sample :
    ∃ t ∈ (play (.sample 0) sampleRecords).1, .rejected 103 .unfilled ∈ t.out ∧
      AuctionState.NoneOvertaken t.pre.resting.bids t.out := by
  refine ⟨(play (.sample 0) sampleRecords).1.getLast (by decide), List.getLast_mem _, by decide, ?_⟩
  refine (none_overtaken_iff (by decide) (run_play (.sample 0) sampleRecords) _
    (List.getLast_mem _)).mpr ?_
  rintro (⟨w, hw, -⟩ | ⟨-, -, participant, key, qty, expected, -, -, -, b, hb, hle⟩)
  · have hnone : ((play (.sample 0) sampleRecords).1.getLast (by decide)).pre.window.isNone =
      true := by
      decide
    rw [hw] at hnone
    exact absurd hnone Bool.false_ne_true
  · have hbelow : ∀ b ∈ ((play (.sample 0) sampleRecords).1.getLast (by decide)).pre.resting.bids,
        b.limit < I64.lit 900 := by decide
    exact absurd (hbelow b hb) (not_lt.mpr hle)

/-- Five units rest at 950. Ten seconds later, with the clock at 900 and no tick in between, a take
of everything clears the auction. -/
def overtakingRecords : List LogRecord :=
  script [(0, .open), (0, .setCollateral 1 100000), (0, .setCollateral 2 100000),
    (0, .submitBid 1 101 5 (.resting 950)), (10000000000, .submitBid 2 102 10 (.take 900))]

/-- A bid at 950 is answered as unfilled when the auction clears at 900. -/
theorem bid_overtaken :
    ¬∀ (config : AuctionConfig) (tr : List Transition) (s : AuctionState),
      0 < config.totalSupply.val → Run config tr s →
      ∀ t ∈ tr, AuctionState.NoneOvertaken t.pre.resting.bids t.out := by
  intro h
  have hnone := h (.sample 0) _ _ (by decide) (run_play (.sample 0) overtakingRecords)
    ((play (.sample 0) overtakingRecords).1.getLast (by decide)) (List.getLast_mem _)
  obtain ⟨b, hb, -, hlt⟩ := hnone (I64.lit 900) (U64.lit 10) 0 (by decide) 101 (by decide)
  have habove : ∀ b ∈ ((play (.sample 0) overtakingRecords).1.getLast (by decide)).pre.resting.bids,
      I64.lit 900 ≤ b.limit := by decide
  exact absurd hlt (not_lt.mpr (habove b hb))

end DutchAuction
