import DutchAuction.Core.Final
import DutchAuction.Engine.Deadline
import DutchAuction.Engine.Timing

/-!
# No tick for nothing

Every tick goes into the log and is kept as long as the log is. The engine makes one only when a
deadline has passed, and a tick discharges what it was made for: it closes a window, takes a bid off
the ladder, or ends the auction. `owed` counts how often that can still happen. What is submitted
adds at most two to it, a bid that goes to the ladder and from there into a window, and nothing else
adds to it. So the engine makes at most two ticks for each command that was submitted
(`ticks_bounded`), over all its restarts, and none while nothing happens.

It does make the ones that are needed: if nobody submits anything, an auction whose clock has
reached the floor is cleared within four checks of the loop (`clears_itself`).
-/

namespace DutchAuction

namespace AuctionState

variable {s t : AuctionState} {cmd : Command}

/-! ## What the clock still has to do

A window can still be settled once, a bid on the ladder can be triggered into a window that is
settled then, and a live auction can end. `owed` counts these. -/

/-- How many ticks may still be owed: two for each bid on the ladder, one for an open window, and
one to end the auction. -/
def owed (s : AuctionState) : ℕ :=
  if s.status.isTerminal then 0 else 2 * s.resting.bids.length + s.window.toList.length + 1

theorem owed_bare (s : AuctionState) : s.bare.owed = s.owed := rfl

theorem owed_of_bare_eq (h : t.bare = s.bare) : t.owed = s.owed := by
  rw [← owed_bare, h, owed_bare]

theorem owed_over (h : s.status.isTerminal = true) : s.owed = 0 := if_pos h

theorem owed_open (h : s.status.isTerminal = false) :
    s.owed = 2 * s.resting.bids.length + s.window.toList.length + 1 :=
  if_neg (by rw [h]; exact Bool.false_ne_true)

theorem owed_clear (s : AuctionState) (price : Price) : (s.clear price).1.owed = 0 := by
  have hstatus := congrArg AuctionState.status (s.bare_clear price)
  have hstatus : (s.clear price).1.status = .cleared := hstatus
  exact owed_over (by rw [hstatus]; rfl)

theorem owed_le (hstatus : t.status = s.status)
    (h : 2 * t.resting.bids.length + t.window.toList.length ≤
      2 * s.resting.bids.length + s.window.toList.length) : t.owed ≤ s.owed := by
  rw [owed, owed, hstatus]
  split_ifs
  · exact le_rfl
  · omega

theorem length_window_le (w : Option OpenWindow) : w.toList.length ≤ 1 := by
  cases w with
  | none => exact Nat.zero_le 1
  | some w => exact le_rfl

theorem owed_flushWindow (s : AuctionState) :
    s.flushWindow.1.owed ≤ s.owed ∧
      (s.status = .live → s.window ≠ none → s.flushWindow.1.owed < s.owed) := by
  rcases s.flushWindow_cases with ⟨hw, hf⟩ | ⟨w, hw, hstatus, hf⟩ | ⟨w, hw, hlive, -⟩
  · rw [hf]
    exact ⟨le_rfl, fun _ h ↦ absurd hw h⟩
  · have hbare : s.flushWindow.1.bare = { s.bare with window := none } := by
      rw [hf]
      exact bare_turnAwayPending_loop .notLive w.bids
    rw [← owed_bare s.flushWindow.1, hbare]
    exact ⟨owed_le rfl (Nat.add_le_add_left (Nat.zero_le _) _), fun h ↦ absurd h hstatus⟩
  · have hless : s.flushWindow.1.owed < s.owed := by
      have hbare := bare_flushWindow_live hw hlive
      have hopen : s.status.isTerminal = false := by rw [hlive]; rfl
      rw [owed_open hopen, hw]
      split_ifs at hbare
      · rw [owed_of_bare_eq hbare, owed_clear]
        exact Nat.succ_pos _
      · have hsettled : (s.settled w).owed = 2 * s.resting.bids.length + 0 + 1 := by
          rw [← owed_bare, bare_settled]
          exact owed_open hopen
        rw [owed_of_bare_eq hbare, hsettled, Option.toList_some, List.length_singleton]
        exact Nat.lt_succ_self _
    exact ⟨hless.le, fun _ _ ↦ hless⟩

theorem owed_triggerResting (hlive : s.status = .live) :
    (s.triggerResting s.now).owed ≤ s.owed ∧
      ((s.resting.drainTriggered (s.config.priceAt s.now)).1 ≠ [] →
        (s.triggerResting s.now).owed < s.owed) := by
  have hperm := (PriceLadder.bids_drainTriggered_perm (l := s.resting)
    (s.config.priceAt s.now)).length_eq
  rw [List.length_append] at hperm
  have hopen : s.status.isTerminal = false := by rw [hlive]; rfl
  have htriggered : (s.triggerResting s.now).owed =
      2 * (s.resting.drainTriggered (s.config.priceAt s.now)).2.bids.length +
        (s.triggerResting s.now).window.toList.length + 1 := by
    rw [triggerResting_eq]
    exact owed_open hopen
  have hwindow := length_window_le (s.triggerResting s.now).window
  rw [htriggered, owed_open hopen]
  by_cases hnone : (s.resting.drainTriggered (s.config.priceAt s.now)).1 = []
  · have hsame : (s.triggerResting s.now).window = s.window := by
      rw [triggerResting_eq]
      exact if_pos hnone
    rw [hnone, List.length_nil] at hperm
    rw [hsame]
    exact ⟨by omega, fun h ↦ absurd hnone h⟩
  · have hpos := List.length_pos_iff.mpr hnone
    exact ⟨by omega, fun _ ↦ by omega⟩

/-! ## What a command adds

A bid that joins the window or goes to the ladder adds two at most, and no other command adds
anything: the end of the auction is owed from the start. -/

theorem owed_enqueue (seq : Seq) (participant : ParticipantId) (key : IdempotencyKey) (qty : Qty) :
    (s.enqueue seq participant key qty).1.owed ≤ s.owed + 2 := by
  obtain ⟨map, hmap⟩ := s.reserve_frame participant (s.config.windowBounds s.now).2 qty
  rw [enqueue, hmap]
  dsimp only
  rw [setOutcome, pushPending, owed, owed]
  dsimp only
  split_ifs
  · exact Nat.zero_le _
  · rw [Option.toList_some, List.length_singleton]
    omega

theorem owed_shelve (seq : Seq) (participant : ParticipantId) (key : IdempotencyKey) (qty : Qty)
    (limit : Price) : (s.shelve seq participant key qty limit).1.owed ≤ s.owed + 2 := by
  obtain ⟨map, hmap⟩ := s.reserve_frame participant limit qty
  rw [shelve, hmap]
  dsimp only
  rw [setOutcome, owed, owed]
  dsimp only
  rw [(PriceLadder.bids_insert_perm _).length_eq, List.length_cons]
  split_ifs
  · exact Nat.zero_le _
  · omega

/-- What a command may add. -/
def adds : Command → ℕ
  | .submitBid _ _ _ _ => 2
  | _ => 0

theorem owed_flush_if (c : Prop) [Decidable c] (s : AuctionState) :
    ((if c then flushWindow else Emit.skip) s).1.owed ≤ s.owed := by
  split_ifs
  · exact s.owed_flushWindow.1
  · exact le_rfl

theorem owed_onBid (seq : Seq) (participant : ParticipantId) (key : IdempotencyKey) (qty : Qty)
    (kind : BidKind) : (s.onBid seq s.now participant key qty kind).1.owed ≤ s.owed + 2 := by
  have huncovered : ∀ price, ((s.reserve participant price qty).1.reject key
      .insufficientCollateral).1.owed ≤ s.owed + 2 := by
    intro price
    obtain ⟨map, hmap⟩ := s.reserve_frame participant price qty
    rw [hmap]
    exact Nat.le_add_right s.owed 2
  unfold onBid
  cases hkey : s.outcomes key with
  | some outcome => exact Nat.le_add_right s.owed 2
  | none =>
    dsimp only
    split_ifs
    · exact Nat.le_add_right s.owed 2
    · exact Nat.le_add_right s.owed 2
    · cases kind with
      | take expectedPrice =>
        dsimp only
        rcases lt_or_ge s.config.priceTolerance
          (I64.absDiff (s.config.priceAt s.now) expectedPrice) with hmoved | hnear
        · rw [onTake_moved seq participant key qty hmoved]
          exact Nat.le_add_right s.owed 2
        cases hres : (s.reserve participant (s.config.windowBounds s.now).2 qty).2 with
        | false =>
          rw [onTake_uncovered seq key hnear hres]
          exact huncovered _
        | true =>
          rw [onTake_queued seq key hnear hres, Emit.andThen_fst]
          exact (owed_flush_if _ _).trans (owed_enqueue seq participant key qty)
      | resting limit =>
        dsimp only
        rcases lt_or_ge (s.config.priceAt s.now) limit with habove | hlimit
        · rw [onRest_above seq participant key qty habove]
          exact Nat.le_add_right s.owed 2
        cases hres : (s.reserve participant limit qty).2 with
        | false =>
          rw [onRest_uncovered seq key hlimit hres]
          exact huncovered _
        | true =>
          rw [onRest_rested seq key hlimit hres]
          exact owed_shelve seq participant key qty limit

theorem owed_onCancelResting (participant : ParticipantId) (key : IdempotencyKey) :
    (s.onCancelResting participant key).1.owed ≤ s.owed := by
  have hfewer := (s.resting.bids_remove_sublist participant key).length_le
  rw [onCancelResting]
  split
  · rename_i bid resting hrem
    rw [congrArg Prod.snd hrem] at hfewer
    have hfewer : resting.bids.length ≤ s.resting.bids.length := hfewer
    refine owed_le rfl ?_
    show 2 * resting.bids.length + _ ≤ _
    exact Nat.add_le_add_right (Nat.mul_le_mul_left 2 hfewer) _
  · split
    · exact le_rfl
    · exact le_rfl

theorem owed_onCancel (s : AuctionState) : s.onCancel.1.owed ≤ s.owed := by
  cases hterm : s.status.isTerminal with
  | true =>
    rw [onCancel, if_pos hterm]
  | false =>
    have hstatus := congrArg AuctionState.status (bare_onCancel hterm)
    have hstatus : s.onCancel.1.status = .cancelled := hstatus
    rw [owed_over (s := s.onCancel.1) (by rw [hstatus]; rfl)]
    exact Nat.zero_le _

/-! ## A tick -/

theorem owed_atFloor (ts : Nanos) (s : AuctionState) :
    (if s.status.acceptsBids && s.config.schedule.atFloor ts then s.settleAtFloor
      else (s, [])).1.owed ≤ s.owed := by
  split_ifs
  · rw [settleAtFloor, Emit.andThen_fst]
    split_ifs
    · rw [owed_clear]
      exact Nat.zero_le _
    · exact s.owed_flushWindow.1
  · exact le_rfl

theorem cleared_onTick (hpriced : s.Priced) (hlive : s.status = .live)
    (hfloor : s.config.schedule.atFloor s.now = true) : (s.onTick s.now).1.status = .cleared := by
  have hforward : (s.onTick s.now).1.status = .live ∨ (s.onTick s.now).1.status = .cleared := by
    refine (handle_steps 0 .tick s).keeps (P := fun u ↦ u.status = .live ∨ u.status = .cleared)
      (fun u v hu hv ↦ ?_) (Or.inl hlive)
    rcases hv.status_cases with hsame | ⟨hpending, -⟩ | ⟨-, hcleared⟩ | ⟨hcmd, -⟩
    · rwa [hsame]
    · rw [hpending] at hu
      rcases hu with hu | hu
      · cases hu
      · cases hu
    · exact Or.inr hcleared
    · cases hcmd
  refine hforward.resolve_left fun hlive' ↦ ?_
  exact Bool.false_ne_true ((onTick_quiet hpriced hlive').2.symm.trans hfloor)

/-- **A tick** adds nothing, and leaves less to be done if the clock has reached a resting limit or
the floor. -/
theorem owed_onTick (hpriced : s.Priced) (hlive : s.status = .live) :
    (s.onTick s.now).1.owed ≤ s.owed ∧
      ((∃ b ∈ s.resting.bids, s.config.priceAt s.now ≤ b.limit) ∨
        s.config.schedule.atFloor s.now = true → (s.onTick s.now).1.owed < s.owed) := by
  have hopen : s.status.isTerminal = false := by rw [hlive]; rfl
  have hrest : (s.onTick s.now).1.owed ≤ (s.triggerResting s.now).owed := by
    unfold onTick
    rw [if_neg (by rw [hlive]; decide), Emit.andThen_fst]
    exact (owed_atFloor _ _).trans (owed_flush_if _ _)
  obtain ⟨hle, hlt⟩ := owed_triggerResting hlive
  refine ⟨hrest.trans hle, ?_⟩
  rintro (⟨b, hb, hreached⟩ | hfloor)
  · refine hrest.trans_lt (hlt fun hnone ↦ ?_)
    have hmem := (PriceLadder.bids_drainTriggered_perm (s.config.priceAt s.now)).mem_iff.mpr hb
    rw [hnone, List.nil_append] at hmem
    exact absurd hreached (not_le.mpr (PriceLadder.limit_lt_of_mem_drained hpriced.filed hmem))
  · have hover : (s.onTick s.now).1.status.isTerminal = true := by
      rw [cleared_onTick hpriced hlive hfloor]
      rfl
    rw [owed_over hover, owed_open hopen]
    exact Nat.succ_pos _

/-! ## Every command -/

theorem owed_handle (hpriced : s.Priced) (seq : Seq) (cmd : Command) :
    (handle seq s.now cmd s).1.owed ≤ s.owed + adds cmd := by
  cases cmd with
  | «open» =>
    show s.onOpen.1.owed ≤ s.owed
    rw [onOpen]
    split_ifs with hpending
    · rw [owed_open (s := s) (by rw [hpending]; rfl)]
      exact le_rfl
    · exact le_rfl
  | setCollateral participant limit => exact le_rfl
  | submitBid participant key qty kind => exact owed_onBid seq participant key qty kind
  | cancelResting participant key => exact owed_onCancelResting participant key
  | tick =>
    show (s.onTick s.now).1.owed ≤ s.owed
    by_cases hlive : s.status = .live
    · exact (owed_onTick hpriced hlive).1
    · unfold onTick
      rw [if_pos (by rw [Bool.not_eq_true', Bool.eq_false_iff]; simpa using hlive)]
  | cancel => exact s.owed_onCancel

theorem owed_closeElapsedWindow (ts : Nanos) (s : AuctionState) :
    (s.closeElapsedWindow ts).1.owed ≤ s.owed ∧
      (s.status = .live → ∀ w, s.window = some w → w.index < (s.config.windowBounds ts).1 →
        (s.closeElapsedWindow ts).1.owed < s.owed) := by
  obtain ⟨hle, hlt⟩ := s.owed_flushWindow
  rcases s.closeElapsedWindow_cases ts with ⟨heq, hopen⟩ | ⟨w, hw, -, heq⟩
  · rw [heq]
    exact ⟨le_rfl, fun _ w hw helapsed ↦ absurd helapsed (hopen w hw)⟩
  · rw [heq]
    refine ⟨hle, fun hlive _ _ _ ↦ hlt hlive ?_⟩
    rw [hw]
    exact Option.some_ne_none w

/-- **A command adds what it may add, and a tick that finds something to do leaves less.** -/
theorem Priced.owed_step {r : LogRecord} {events : List Event} (h : s.Priced)
    (hstep : s.step r = some (t, events)) :
    t.owed ≤ s.owed + adds r.cmd ∧
      (r.cmd = .tick → s.status = .live → s.now ≤ r.ts → ¬s.Quiet r.ts → t.owed < s.owed) := by
  obtain ⟨-, hadvance⟩ := step_eq_some hstep
  have hpost := congrArg Prod.fst hadvance
  rw [advance, Emit.andThen_fst] at hpost
  have hpost : (handle r.seq (max r.ts s.now) r.cmd
      ((s.stamp r.seq r.ts).closeElapsedWindow (max r.ts s.now)).1).1 = t := hpost
  -- The stamp changes nothing that is counted.
  have howed : (s.stamp r.seq r.ts).owed = s.owed := rfl
  have hstatus : (s.stamp r.seq r.ts).status = s.status := rfl
  have hbefore := (h.stamp r.seq r.ts).close
  have hnow : (s.stamp r.seq r.ts).now = max r.ts s.now := rfl
  rw [hnow] at hbefore
  obtain ⟨hclose, hcloses⟩ := (s.stamp r.seq r.ts).owed_closeElapsedWindow (max r.ts s.now)
  have hframe := ((s.stamp r.seq r.ts).closeElapsedWindow_frame (max r.ts s.now)).2
  rw [hnow] at hframe
  rw [← hpost]
  have hhandle : (handle r.seq (max r.ts s.now) r.cmd
      ((s.stamp r.seq r.ts).closeElapsedWindow (max r.ts s.now)).1).1.owed ≤
        ((s.stamp r.seq r.ts).closeElapsedWindow (max r.ts s.now)).1.owed + adds r.cmd := by
    have hall := owed_handle hbefore r.seq r.cmd
    rwa [hframe] at hall
  refine ⟨hhandle.trans (Nat.add_le_add_right hclose _), fun hcmd hlive hts hbusy ↦ ?_⟩
  rw [hcmd] at hhandle
  by_cases helapsed : ∃ w, s.window = some w ∧ w.index < (s.config.windowBounds r.ts).1
  · obtain ⟨w, hw, hlt⟩ := helapsed
    rw [hcmd]
    exact hhandle.trans_lt (hcloses hlive w hw (by rwa [max_eq_left hts]))
  · -- No window to close: the handler finds something to do.
    have hsame : (s.stamp r.seq r.ts).closeElapsedWindow (max r.ts s.now) =
        (s.stamp r.seq r.ts, []) := by
      rcases (s.stamp r.seq r.ts).closeElapsedWindow_cases (max r.ts s.now) with
        ⟨heq, -⟩ | ⟨w, hw, hlt, -⟩
      · exact heq
      · rw [max_eq_left hts] at hlt
        exact absurd ⟨w, hw, hlt⟩ helapsed
    rw [hsame] at hbefore ⊢
    rw [hcmd, ← hnow]
    refine ((owed_onTick hbefore hlive).2 ?_).trans_eq howed
    rw [hnow, max_eq_left hts]
    by_contra hnothing
    obtain ⟨htrigger, hfloor⟩ := not_or.mp hnothing
    refine hbusy ⟨fun w hw hlt ↦ helapsed ⟨w, hw, hlt⟩, fun b hb ↦ ?_, ?_⟩
    · exact not_le.mp fun hle ↦ htrigger ⟨b, hb, hle⟩
    · exact Bool.eq_false_iff.mpr hfloor

theorem Priced.cleared_step {seq : Seq} {ts : Nanos} {events : List Event} (h : s.Priced)
    (hlive : s.status = .live) (hts : s.now ≤ ts) (hfloor : s.config.schedule.atFloor ts = true)
    (hstep : s.step ⟨seq, ts, .tick⟩ = some (t, events)) : t.status = .cleared := by
  obtain ⟨-, hadvance⟩ := step_eq_some hstep
  have hpost := congrArg Prod.fst hadvance
  rw [advance, Emit.andThen_fst] at hpost
  have hpost : (onTick (max ts s.now)
      ((s.stamp seq ts).closeElapsedWindow (max ts s.now)).1).1 = t := hpost
  have hbefore := (h.stamp seq ts).close
  have hnow : (s.stamp seq ts).now = max ts s.now := rfl
  rw [hnow] at hbefore
  obtain ⟨hconfig, hframe⟩ := (s.stamp seq ts).closeElapsedWindow_frame (max ts s.now)
  have hstatus := (s.stamp seq ts).status_closeElapsedWindow (max ts s.now)
  rw [hnow, max_eq_left hts] at hframe
  rw [max_eq_left hts] at hpost hbefore hconfig hstatus
  generalize ((s.stamp seq ts).closeElapsedWindow ts).1 = v at *
  rw [← hpost]
  rcases hstatus with hsame | ⟨-, hcleared⟩
  · rw [← hframe]
    refine cleared_onTick hbefore (hsame.trans hlive) ?_
    rw [hconfig, hframe]
    exact hfloor
  · unfold onTick
    rw [if_pos (by rw [hcleared]; rfl)]
    exact hcleared

end AuctionState

theorem owed_run {config : AuctionConfig} {tr : List Transition} {s : AuctionState}
    (hrun : Run config tr s) :
    (tr.map fun t ↦ if t.post.owed < t.pre.owed ∧ t.input.cmd = .tick then 1 else 0).sum + s.owed ≤
      1 + (tr.map fun t ↦ AuctionState.adds t.input.cmd).sum := by
  refine (Runs.Run.amortized (P := AuctionState.Priced) (C := fun _ ↦ True)
    (AuctionState.priced_new config) (fun t ht hstep _ ↦ ⟨ht.step hstep, ?_⟩) hrun
    fun _ _ ↦ trivial).2
  have hadds := (ht.owed_step hstep).1
  split_ifs with hcost
  · rw [hcost.2]
    show 1 + t.post.owed ≤ t.pre.owed + 0
    have hless := hcost.1
    omega
  · omega

namespace Loop

variable {config : AuctionConfig} {options : ThreadOptions} {instant : Instant} {l l' : Loop}
  {tr : List (Runs.Transition Loop Move (Option Applied))}

/-! ## The ticks in the log

The engine makes a tick only when a deadline has passed, so each of its ticks takes something off
what is owed. -/

/-- The commands that are in the log after a move: a restart keeps the first of them. -/
def keep (kept : List Applied) (t : Runs.Transition Loop Move (Option Applied)) : List Applied :=
  match t.input with
  | .restart n _ => kept.take n
  | .submit _ | .stop | .run _ _ _ => kept ++ t.out.toList

/-- The commands whose records are in the log, with where they came from. -/
def kept (tr : List (Runs.Transition Loop Move (Option Applied))) : List Applied := tr.foldl keep []

/-- The engine made it because something was to be done. -/
def Called (a : Applied) : Prop :=
  a.record.cmd = .tick ∧ a.transition.post.owed < a.transition.pre.owed

/-- How the log stands to the run: its commands lead to the state, and every tick that the engine
made was called for. -/
structure Frugal (config : AuctionConfig) (kept : List Applied) (l : Loop) : Prop where
  records : kept.map Applied.record = l.records
  run : DutchAuction.Run config (kept.map Applied.transition) l.engine.state
  called : ∀ a ∈ kept, a.origin = none → Called a

theorem called_of_tick (hsane : config.schedule.Sane) (hsound : l.Sound config)
    {seen anchored stamped : Instant} (horder : l.instant ≤ seen ∧ seen ≤ anchored ∧
      anchored ≤ stamped) {e₁ e' : Engine} {a : Applied}
    (hchecks : Engine.Checks l.engine seen e₁ (some .tick))
    (htakes : e₁.Takes none anchored stamped e' a) (hts : a.record.ts < U64.maxValue) :
    Called a := by
  obtain ⟨hpriced, himmediate, hconfig⟩ := hsound.reached
  cases hchecks with
  | ticked due hdue hle hposition =>
    have hcmd : a.record.cmd = .tick := htakes.cmd
    have hreading : a.record.ts = l.engine.clock.now stamped := by
      rw [htakes.ts, htakes.clock, if_neg]
      rintro ⟨hopen, -⟩
      cases hcmd.symm.trans hopen
    have hnow : l.engine.state.now ≤ a.record.ts := by
      rw [hreading]
      exact hsound.clock.trans (clock_mono _ (horder.1.trans (horder.2.1.trans horder.2.2)))
    have hlate : due ≤ a.record.ts := by
      rw [hreading]
      exact hle.trans (clock_mono _ (horder.2.1.trans horder.2.2))
    have hlive := (deadline_eq_some.mp hdue).1
    have hquiet := AuctionState.quiet_iff (hconfig ▸ hsane) hpriced himmediate hlive hnow hts
    have hbusy : ¬l.engine.state.Quiet a.record.ts := fun h ↦
      not_lt.mpr hlate (hquiet.mp h due hdue)
    have hless := (hpriced.owed_step htakes.applied).2 hcmd hlive hnow hbusy
    refine ⟨hcmd, ?_⟩
    rw [htakes.pre, htakes.post]
    exact hless

theorem Frugal.step {kept : List Applied} (hsane : config.schedule.Sane) (hsound : l.Sound config)
    (h : Frugal config kept l) {move : Move} {out : Option Applied}
    (hstep : Loop.step config options l move = some (l', out))
    (hts : ∀ a, out = some a → a.record.ts < U64.maxValue) :
    Frugal config (keep kept ⟨l, move, out, l'⟩) l' := by
  cases move with
  | submit s =>
    rw [Loop.step] at hstep
    rw [keep]
    dsimp only
    split at hstep
    · rename_i e hsubmit
      cases hstep
      rw [Engine.submit] at hsubmit
      split_ifs at hsubmit
      cases hsubmit
      rw [Option.toList_none, List.append_nil]
      exact ⟨h.records, h.run, h.called⟩
    · cases hstep
      rw [Option.toList_none, List.append_nil]
      exact h
  | stop =>
    cases hstep
    rw [keep]
    dsimp only
    rw [Option.toList_none, List.append_nil]
    exact ⟨h.records, h.run, h.called⟩
  | run seen anchored stamped =>
    rw [Loop.step] at hstep
    split_ifs at hstep with horder
    obtain ⟨⟨e, out'⟩, hrun, heq⟩ := Option.map_eq_some_iff.mp hstep
    cases heq
    have hpasses := Engine.run_passes hrun
    rw [keep]
    dsimp only
    cases out' with
    | none =>
      rw [Option.toList_none, List.append_nil]
      refine ⟨h.records.trans (List.append_nil _).symm, ?_, h.called⟩
      have hsame := hpasses.none_eq.1
      dsimp only at hsame ⊢
      rw [hsame]
      exact h.run
    | some a =>
      have happlies := hpasses.applies
      refine ⟨?_, ?_, fun b hb hnone ↦ ?_⟩
      · rw [List.map_append, h.records]
        rfl
      · rw [List.map_append, Option.toList_some, List.map_singleton, happlies.transition]
        exact h.run.snoc happlies.step
      · rcases List.mem_append.mp hb with hb | hb
        · exact h.called b hb hnone
        · obtain rfl := List.mem_singleton.mp hb
          cases hpasses with
          | work hchecks htakes => cases htakes.source.symm.trans hnone
          | tick hchecks htakes =>
            exact called_of_tick hsane hsound horder hchecks htakes (hts b rfl)
  | restart n instant =>
    rw [Loop.step] at hstep
    split_ifs at hstep
    obtain ⟨state, hreplay, hrest⟩ := Option.bind_eq_some_iff.mp hstep
    obtain ⟨next, -, heq⟩ := Option.map_eq_some_iff.mp hrest
    cases heq
    rw [keep]
    dsimp only
    have hrun := h.run
    rw [← List.take_append_drop n kept, List.map_append] at hrun
    obtain ⟨m, hfront, -⟩ := hrun.unappend
    have hall := run_applyAll hfront
    rw [List.map_map] at hall
    have hfrontRecords : (kept.take n).map Applied.record = l.records.take n := by
      rw [← h.records, List.map_take]
    have hall : fullReplay config ((kept.take n).map Applied.record) = some m := hall
    rw [hfrontRecords, hreplay] at hall
    obtain rfl := Option.some.inj hall
    exact ⟨hfrontRecords, hfront, fun a ha ↦ h.called a (List.mem_of_mem_take ha)⟩

/-- **The log is that of a frugal engine**, over all restarts. -/
theorem run_frugal (hsane : config.schedule.Sane) (hrun : Run config options instant tr l)
    (hts : ∀ t ∈ tr, ∀ a, t.out = some a → a.record.ts < U64.maxValue) :
    Frugal config (kept tr) l := by
  induction hrun with
  | nil => exact ⟨rfl, Runs.Run.nil, fun a ha ↦ absurd ha List.not_mem_nil⟩
  | @snoc tr l l' move out hrun hstep ih =>
    rw [kept, List.foldl_append]
    exact (ih fun t ht ↦ hts t (List.mem_append_left _ ht)).step hsane (run_sound hrun) hstep
      (hts _ (List.mem_append_right _ (List.mem_singleton_self _)))

/-- A bid was submitted. -/
def isBid : Command → Bool
  | .submitBid _ _ _ _ => true
  | _ => false

theorem countP_le_sum {α : Type*} {p : α → Bool} {f : α → ℕ} {l : List α}
    (h : ∀ a ∈ l, p a = true → 1 ≤ f a) : l.countP p ≤ (l.map f).sum := by
  induction l with
  | nil => exact le_rfl
  | cons a l ih =>
    have hrest := ih fun b hb ↦ h b (List.mem_cons_of_mem _ hb)
    rw [List.map_cons, List.sum_cons]
    cases hp : p a with
    | true =>
      have hone := h a List.mem_cons_self hp
      rw [List.countP_cons_of_pos hp]
      omega
    | false =>
      rw [List.countP_cons_of_neg (by rw [hp]; exact Bool.false_ne_true)]
      omega

theorem sum_adds (l : List Applied) :
    (l.map fun a ↦ AuctionState.adds a.record.cmd).sum =
      2 * l.countP fun a ↦ isBid a.record.cmd := by
  induction l with
  | nil => rfl
  | cons a l ih =>
    rw [List.map_cons, List.sum_cons, ih, List.countP_cons]
    cases a.record.cmd with
    | submitBid participant key qty kind =>
      show 2 + _ = 2 * (_ + 1)
      omega
    | _ => exact Nat.zero_add _

/-- **The engine makes no tick for nothing.** In every run, over all restarts, the ticks in the log
that the engine made are at most two for each bid in it, and one; what is left of that bounds the
ticks that can still come without another bid. -/
theorem ticks_bounded (hsane : config.schedule.Sane) (hrun : Run config options instant tr l)
    (hts : ∀ t ∈ tr, ∀ a, t.out = some a → a.record.ts < U64.maxValue) :
    (kept tr).map Applied.record = l.records ∧
      ((kept tr).countP fun a ↦ a.origin.isNone) + l.engine.state.owed ≤
        1 + 2 * (kept tr).countP fun a ↦ isBid a.record.cmd := by
  have h := run_frugal hsane hrun hts
  refine ⟨h.records, ?_⟩
  have hpaid := owed_run h.run
  rw [List.map_map, List.map_map] at hpaid
  have hadds := sum_adds (kept tr)
  have hticks := countP_le_sum (p := fun a : Applied ↦ a.origin.isNone)
    (f := (fun t : Transition ↦ if t.post.owed < t.pre.owed ∧ t.input.cmd = .tick then 1 else 0) ∘
      Applied.transition) (l := kept tr) fun a ha hnone ↦ by
    obtain ⟨hcmd, hless⟩ := h.called a ha (Option.isNone_iff_eq_none.mp hnone)
    exact (if_pos ⟨hless, hcmd⟩).ge
  refine (Nat.add_le_add_right hticks _).trans (hpaid.trans (Nat.add_le_add_left ?_ 1))
  exact hadds.le

/-- A bid waits in the window of the first second, and the engine settles it when that is over; the
auction is opened again, and runs down to its floor. -/
def tickedPlay : List (Runs.Transition Loop Move (Option Applied)) × Loop :=
  Runs.play (step (.sample 1000000000) sampleOptions) (new (.sample 1000000000) 0)
    (atOnce 0 .open ++ atOnce 0 (.setCollateral 1 100000) ++
      atOnce 0 (.submitBid 1 101 5 (.take 1000)) ++
      List.replicate 3 (.run 1000000000 1000000000 1000000000) ++ [.restart 4 2000000000] ++
      List.replicate 3 (.run 200000000000 200000000000 200000000000))

theorem ticks_bounded_sample :
    ((kept tickedPlay.1).countP fun a ↦ a.origin.isNone) = 2 ∧
      tickedPlay.2.engine.state.status = .cleared ∧
      (kept tickedPlay.1).map Applied.record = tickedPlay.2.records ∧
      ((kept tickedPlay.1).countP fun a ↦ a.origin.isNone) + tickedPlay.2.engine.state.owed ≤
        1 + 2 * (kept tickedPlay.1).countP fun a ↦ isBid a.record.cmd := by
  have hts : ∀ t ∈ tickedPlay.1, ∀ a ∈ t.out, a.record.ts < U64.maxValue := by decide +kernel
  exact ⟨by decide +kernel, by decide +kernel,
    ticks_bounded (AuctionConfig.sample_sane _) (Runs.run_play _ _ _) hts⟩

/-! ## The ticks that are needed

At the floor the deadline has passed, so the loop finds the queue empty, looks at the clock and
makes the tick. -/

/-- The next command is numbered behind the last. -/
def Aligned (l : Loop) : Prop :=
  ∀ last, l.engine.state.lastSeq = some last → last.next = some l.engine.nextSeq

theorem Aligned.step (h : l.Aligned) {move : Move} {out : Option Applied}
    (hstep : Loop.step config options l move = some (l', out)) : l'.Aligned := by
  cases move with
  | submit s =>
    rw [Loop.step] at hstep
    split at hstep
    · rename_i e hsubmit
      cases hstep
      rw [Engine.submit] at hsubmit
      split_ifs at hsubmit
      cases hsubmit
      exact h
    · cases hstep
      exact h
  | stop =>
    cases hstep
    exact h
  | run seen anchored stamped =>
    rw [Loop.step] at hstep
    split_ifs at hstep
    obtain ⟨⟨e, out'⟩, hrun, heq⟩ := Option.map_eq_some_iff.mp hstep
    cases heq
    have hpasses := Engine.run_passes hrun
    cases out' with
    | none =>
      obtain ⟨hstate, hnext, -⟩ := hpasses.none_eq
      intro last hlast
      dsimp only at hlast ⊢
      rw [hstate] at hlast
      rw [hnext]
      exact h last hlast
    | some a =>
      have happlies := hpasses.applies
      intro last hlast
      have hlast := hlast.symm.trans (step_lastSeq happlies.step)
      obtain rfl := Option.some.inj hlast
      rw [happlies.seq]
      exact Seq.next_eq_some.mpr happlies.next
  | restart n instant =>
    rw [Loop.step] at hstep
    split_ifs at hstep
    obtain ⟨state, hreplay, hrest⟩ := Option.bind_eq_some_iff.mp hstep
    obtain ⟨next, hnext, heq⟩ := Option.map_eq_some_iff.mp hrest
    cases heq
    intro last hlast
    have hlast : state.lastSeq = some last := hlast
    rw [applyAll_lastSeq hreplay] at hlast
    have hlast : ((l.records.take n).getLast?.map LogRecord.seq).or none = some last := hlast
    rw [Option.or_none] at hlast
    rw [hlast] at hnext
    exact hnext

theorem run_aligned (h : Run config options instant tr l) : l.Aligned :=
  h.invariant (P := Aligned) (fun last hlast ↦ by cases hlast) fun _ _ _ _ h hstep ↦ h.step hstep

/-- A live auction whose clock has reached the floor by `i`, with nothing that waits. -/
structure Overdue (config : AuctionConfig) (i : Instant) (l : Loop) : Prop where
  sound : l.Sound config
  aligned : l.Aligned
  live : l.engine.state.status = .live
  later : l.instant ≤ i
  floor : config.schedule.atFloor (l.engine.clock.now i) = true
  inTime : l.engine.clock.now i < U64.maxValue
  numbers : l.engine.nextSeq.next ≠ none
  empty : l.engine.rx = []
  running : l.engine.stop = false

theorem Overdue.clears {i : Instant} (options : ThreadOptions) (h : l.Overdue config i)
    (hsane : config.schedule.Sane) (hposition : l.engine.position = .timing) :
    ∃ l' a, Loop.step config options l (.run i i i) = some (l', some a) ∧ a.origin = none ∧
      l'.engine.state.status = .cleared := by
  obtain ⟨hpriced, himmediate, hconfig⟩ := h.sound.reached
  have hnow : l.engine.state.now ≤ l.engine.clock.now i :=
    h.sound.clock.trans (clock_mono _ h.later)
  have hbusy : ¬l.engine.state.Quiet (l.engine.clock.now i) := fun hquiet ↦ by
    have hopen := hquiet.floor
    rw [hconfig, h.floor] at hopen
    cases hopen
  -- So the deadline has passed.
  obtain ⟨due, hdue, hle⟩ : ∃ due, deadline l.engine.state = some due ∧
      due ≤ l.engine.clock.now i := by
    by_contra hnone
    refine hbusy ((AuctionState.quiet_iff (hconfig ▸ hsane) hpriced himmediate h.live hnow
      h.inTime).mpr fun due hdue ↦ not_le.mp fun hle ↦ hnone ⟨due, hdue, hle⟩)
  obtain ⟨nextSeq, hnext⟩ := Option.ne_none_iff_exists'.mp h.numbers
  have haccepts : l.engine.state.Accepts l.engine.nextSeq := h.aligned
  obtain ⟨r, hr⟩ : ∃ r, l.engine.state.apply l.engine.nextSeq (l.engine.clock.now i) .tick =
      some r := ⟨_, if_pos haccepts⟩
  have htake : Engine.take none i i { l.engine with position := .top } =
      some ({ l.engine with position := .top, state := r.1, nextSeq := nextSeq },
        ⟨none, l.engine.state, ⟨l.engine.nextSeq, l.engine.clock.now i, .tick⟩, r.2, r.1⟩) := by
    have hclosed : ¬((none : Option Submission).elim .tick Submission.cmd = .open ∧
        l.engine.state.status = .pending) := by
      rintro ⟨htick, -⟩
      cases htick
    rw [Engine.take]
    dsimp only
    rw [hnext, Option.bind_some, if_neg hclosed]
    show (l.engine.state.apply l.engine.nextSeq (l.engine.clock.now i) .tick).map _ = _
    rw [hr, Option.map_some]
    rfl
  have hstep : Loop.step config options l (.run i i i) =
      some (⟨{ l.engine with position := .top, state := r.1, nextSeq := nextSeq }, i,
        l.records ++ [⟨l.engine.nextSeq, l.engine.clock.now i, .tick⟩]⟩,
        some ⟨none, l.engine.state, ⟨l.engine.nextSeq, l.engine.clock.now i, .tick⟩, r.2,
          r.1⟩) := by
    rw [Loop.step, if_pos ⟨h.later, le_rfl, le_rfl⟩, Engine.run, Engine.next, hposition]
    dsimp only
    rw [hdue]
    dsimp only
    rw [if_pos hle, Option.bind_some]
    dsimp only
    rw [htake, Option.map_some, Option.map_some]
    rfl
  exact ⟨_, _, hstep, rfl, hpriced.cleared_step h.live hnow (hconfig ▸ h.floor) hr⟩

theorem Overdue.moved {i : Instant} (h : l.Overdue config i) {position : Position}
    (hposition : position ≠ .draining) :
    Overdue config i { l with engine := { l.engine with position := position }, instant := i } where
  sound := ⟨h.sound.replay, fun hdraining ↦ absurd hdraining hposition,
    h.sound.clock.trans (clock_mono _ h.later)⟩
  aligned := h.aligned
  live := h.live
  later := le_rfl
  floor := h.floor
  inTime := h.inTime
  numbers := h.numbers
  empty := h.empty
  running := h.running

/-- The auction is cleared within `k` more checks. -/
def ClearsWithin (config : AuctionConfig) (options : ThreadOptions) (i : Instant) (k : ℕ)
    (l : Loop) : Prop :=
  ∃ n ≤ k, (Runs.play (step config options) l (List.replicate n (.run i i i))).1.length = n ∧
    (Runs.play (step config options) l
      (List.replicate n (.run i i i))).2.engine.state.status = .cleared

theorem ClearsWithin.of_step {i : Instant} {k : ℕ} {out : Option Applied}
    (hstep : Loop.step config options l (.run i i i) = some (l', out))
    (h : ClearsWithin config options i k l') : ClearsWithin config options i (k + 1) l := by
  obtain ⟨n, hn, hlength, hcleared⟩ := h
  refine ⟨n + 1, Nat.succ_le_succ hn, ?_⟩
  rw [List.replicate_succ, Runs.play, hstep]
  exact ⟨congrArg Nat.succ hlength, hcleared⟩

theorem ClearsWithin.mono {i : Instant} {j k : ℕ} (hle : j ≤ k)
    (h : ClearsWithin config options i j l) : ClearsWithin config options i k l := by
  obtain ⟨n, hn, hreplay⟩ := h
  exact ⟨n, hn.trans hle, hreplay⟩

/-- **A live auction at its floor clears itself.** In every run, if the clock has reached the floor
and nothing waits, four checks of the loop are enough: the tick is made, and it clears. -/
theorem clears_itself (hsane : config.schedule.Sane) (hrun : Run config options instant tr l)
    {i : Instant} (hi : l.instant ≤ i) (hlive : l.engine.state.status = .live)
    (hfloor : config.schedule.atFloor (l.engine.clock.now i) = true)
    (hmax : l.engine.clock.now i < U64.maxValue) (hnumbers : l.engine.nextSeq.next ≠ none)
    (hempty : l.engine.rx = []) (hrunning : l.engine.stop = false) (hin : ¬l.engine.Left) :
    ClearsWithin config options i 4 l := by
  have hdue : l.Overdue config i := ⟨run_sound hrun, run_aligned hrun, hlive, hi, hfloor, hmax,
    hnumbers, hempty, hrunning⟩
  -- From each position, by way of the later ones.
  have htiming : ∀ {l : Loop}, l.Overdue config i → l.engine.position = .timing →
      ClearsWithin config options i 1 l := by
    intro l h hposition
    obtain ⟨l', a, hstep, -, hcleared⟩ := h.clears options hsane hposition
    exact .of_step hstep ⟨0, le_rfl, rfl, hcleared⟩
  have hlooks : ∀ (position : Position) {l : Loop} {k : ℕ}, l.Overdue config i →
      l.engine.next options i = some ({ l.engine with position := position }, none) →
        position ≠ .draining → (∀ {l : Loop}, l.Overdue config i → l.engine.position = position →
          ClearsWithin config options i k l) → ClearsWithin config options i (k + 1) l := by
    intro position l k h hnext hposition hthen
    have hstep : Loop.step config options l (.run i i i) =
        some ({ l with engine := { l.engine with position := position }, instant := i }, none) := by
      rw [Loop.step, if_pos ⟨h.later, le_rfl, le_rfl⟩, Engine.run, hnext, Option.bind_some,
        Option.map_some]
      dsimp only
      rw [Option.map_none, Option.toList_none, List.append_nil]
    exact .of_step hstep (hthen (h.moved hposition) rfl)
  have hpolling : ∀ {l : Loop}, l.Overdue config i → l.engine.position = .polling →
      ClearsWithin config options i 2 l := by
    intro l h hposition
    refine hlooks .timing h ?_ Position.noConfusion htiming
    rw [Engine.next, hposition]
    dsimp only
    rw [h.empty]
  have htop : ∀ {l : Loop}, l.Overdue config i → l.engine.position = .top →
      ClearsWithin config options i 3 l := by
    intro l h hposition
    refine hlooks .polling h ?_ Position.noConfusion hpolling
    rw [Engine.next, hposition]
    dsimp only
    rw [h.running, if_neg Bool.false_ne_true]
  cases hposition : l.engine.position with
  | top => exact .mono (by decide) (htop hdue hposition)
  | draining => exact absurd (hdue.sound.draining hposition) (by rw [hrunning]; decide)
  | polling => exact .mono (by decide) (hpolling hdue hposition)
  | timing => exact .mono (by decide) (htiming hdue hposition)
  | parked =>
    refine hlooks .top hdue ?_ Position.noConfusion htop
    rw [Engine.next, hposition]
    dsimp only
    rw [hempty]
  | stopped => exact absurd (Or.inl hposition) hin
  | ended => exact absurd (Or.inr hposition) hin

theorem clears_itself_sample :
    ClearsWithin (.sample 1000000000) sampleOptions 200000000000 4
      (Runs.play (step (.sample 1000000000) sampleOptions) (new (.sample 1000000000) 0)
        (atOnce 0 .open)).2 :=
  clears_itself (AuctionConfig.sample_sane _) (Runs.run_play _ _ _) (by decide) rfl (by decide)
    (by decide) (by decide) rfl rfl
    fun hleft ↦ hleft.elim Position.noConfusion Position.noConfusion

end Loop

end DutchAuction
