import DutchAuction.Engine.Deadline

/-!
# When the engine acts, and from when it counts

At a window boundary the engine's own tick should come before whatever is waiting. The loop tries
the queue first and looks at the clock only once it has found the queue empty: the tick wins exactly
when nothing waits at the moment a deadline has passed (`clock_wins_iff`). Then no participant's
command closes an elapsed window or runs ahead of a bid that should have been triggered.

Opening an auction anchors the clock at the auction time already reached, not at zero. So the price
starts at the published one exactly when every command before the opening came early enough on the
schedule (`opens_at_start_iff`).
-/

namespace DutchAuction

namespace Loop

variable {config : AuctionConfig} {options : ThreadOptions} {instant : Instant} {l l' : Loop}
  {tr : List (Runs.Transition Loop Move (Option Applied))}

/-! ## The invariant -/

theorem clock_mono (clock : Clock) {i j : Instant} (h : i ≤ j) : clock.now i ≤ clock.now j :=
  U64.saturate_mono (Int.toNat_le_toNat (Int.sub_le_sub_right h _))

theorem resume_now {anchored stamped : Instant} (h : anchored ≤ stamped) (elapsed : Nanos) :
    (Clock.resume anchored elapsed).now stamped =
      elapsed.saturatingAdd (U64.saturate (stamped - anchored).toNat) := by
  have hlt := elapsed.val_lt
  have hsplit : ∀ (n : ℕ) (a b : ℤ), a ≤ b → (b - (a - n)).toNat = n + (b - a).toNat := by omega
  apply U64.ext
  rw [Clock.now, Clock.resume, U64.saturatingAdd, U64.val_saturate, U64.val_saturate,
    U64.val_saturate]
  rw [hsplit _ _ _ h]
  omega

/-- What holds between any two steps. -/
structure Sound (config : AuctionConfig) (l : Loop) : Prop where
  /-- The state is the one the records lead to. -/
  replay : fullReplay config l.records = some l.engine.state
  /-- The queue is drained only once a stop was requested. -/
  draining : l.engine.position = .draining → l.engine.stop = true
  /-- The clock has not fallen behind the auction. -/
  clock : l.engine.state.now ≤ l.engine.clock.now l.instant

theorem new_sound (config : AuctionConfig) (instant : Instant) :
    (new config instant).Sound config :=
  ⟨rfl, fun h ↦ Position.noConfusion h, U64.le_def.mpr (Nat.zero_le _)⟩

/-- **One step** keeps the invariant. -/
theorem Sound.step (h : l.Sound config) {move : Move} {out : Option Applied}
    (hstep : Loop.step config options l move = some (l', out)) : l'.Sound config := by
  cases move with
  | submit s =>
    rw [Loop.step] at hstep
    split at hstep
    · rename_i e hsubmit
      cases hstep
      rw [Engine.submit] at hsubmit
      split_ifs at hsubmit
      cases hsubmit
      exact ⟨h.replay, h.draining, h.clock⟩
    · cases hstep
      exact h
  | stop =>
    cases hstep
    exact ⟨h.replay, fun _ ↦ rfl, h.clock⟩
  | run seen anchored stamped =>
    rw [Loop.step] at hstep
    split_ifs at hstep with horder
    obtain ⟨hseen, hanchored, hstamped⟩ := horder
    have hlater : l.instant ≤ stamped := hseen.trans (hanchored.trans hstamped)
    obtain ⟨⟨e, out'⟩, hrun, heq⟩ := Option.map_eq_some_iff.mp hstep
    cases heq
    have htakes : ∀ {e₁ e' : Engine} {picked : Next} {origin : Option Submission} {a : Applied},
        Engine.Checks l.engine seen e₁ (some picked) → picked ≠ .stop →
          e₁.Takes origin anchored stamped e' a →
          Sound config ⟨e', stamped, l.records ++ [a.record]⟩ := by
      intro e₁ e' picked origin a hchecks hpicked htakes
      have hstate : e₁.state = l.engine.state ∧ e₁.position = .top ∧ e₁.clock = l.engine.clock := by
        cases hchecks with
        | worked => exact ⟨rfl, rfl, rfl⟩
        | ticked => exact ⟨rfl, rfl, rfl⟩
        | stopped => exact absurd rfl hpicked
      have hreading : l.engine.state.now ≤ a.record.ts := by
        rw [htakes.ts, htakes.clock]
        split_ifs
        · rw [hstate.1, resume_now hstamped]
          exact U64.le_saturate (Nat.le_add_right _ _)
        · rw [hstate.2.2]
          exact h.clock.trans (clock_mono _ hlater)
      refine ⟨?_, fun hdraining ↦ ?_, ?_⟩
      · have happlied := htakes.applied
        rw [hstate.1] at happlied
        rw [fullReplay_append, h.replay, Option.bind_some, applyAll, follow, happlied]
        rfl
      · have hposition := htakes.rest.2.2
        rw [hstate.2.1] at hposition
        cases hposition.symm.trans hdraining
      · have hnow := (step_frame htakes.applied).2
        rw [hstate.1, max_eq_left hreading] at hnow
        exact (hnow.trans htakes.ts).le
    cases Engine.run_passes hrun with
    | idle hchecks hnone =>
      rw [Option.map_none, Option.toList_none, List.append_nil]
      cases hchecks with
      | looked position hin hloop hdraining =>
        exact ⟨h.replay, hdraining, h.clock.trans (clock_mono _ hlater)⟩
      | worked => simp at hnone
      | ticked => simp at hnone
      | stopped =>
        exact ⟨h.replay, fun hdraining ↦ Position.noConfusion hdraining,
          h.clock.trans (clock_mono _ hlater)⟩
    | work hchecks ht => exact htakes hchecks Next.noConfusion ht
    | tick hchecks ht => exact htakes hchecks Next.noConfusion ht
  | restart n instant =>
    rw [Loop.step] at hstep
    split_ifs at hstep
    obtain ⟨state, hreplay, hrest⟩ := Option.bind_eq_some_iff.mp hstep
    obtain ⟨next, -, heq⟩ := Option.map_eq_some_iff.mp hrest
    cases heq
    refine ⟨hreplay, fun hdraining ↦ Position.noConfusion hdraining, ?_⟩
    show state.now ≤ (Clock.resume instant state.now).now instant
    rw [resume_now le_rfl]
    exact U64.le_saturate (Nat.le_add_right _ _)

theorem run_sound (h : Run config options instant tr l) : l.Sound config :=
  h.invariant (new_sound config instant) fun _ _ _ _ hs hstep ↦ hs.step hstep

theorem Sound.reached (h : l.Sound config) :
    l.engine.state.Priced ∧ l.engine.state.Immediate ∧ l.engine.state.config = config := by
  obtain ⟨tr, hrun, -⟩ := applyAll_run h.replay
  exact ⟨run_priced hrun, run_immediate hrun, run_config hrun⟩

/-! ## Who closes a window

A command that is taken from the queue while a deadline has passed comes before the tick. So the
tick wins exactly when nothing waits. -/

/-- A deadline is at or before the reading that the loop would see at this instant. -/
def Due (l : Loop) (seen : Instant) : Prop :=
  ∃ due, deadline l.engine.state = some due ∧ due ≤ l.engine.clock.now seen

/-- With a deadline due and no stop requested, a command that is applied is the engine's own
tick. -/
def ClockWins (t : Runs.Transition Loop Move (Option Applied)) : Prop :=
  ∀ seen anchored stamped, t.input = .run seen anchored stamped → t.pre.engine.stop = false →
    t.pre.Due seen → ∀ a, t.out = some a → a.origin = none

/-- With a deadline due and no stop requested, nothing waits where the loop looks at the queue. -/
def NothingWaits (t : Runs.Transition Loop Move (Option Applied)) : Prop :=
  ∀ seen anchored stamped, t.input = .run seen anchored stamped → t.pre.engine.stop = false →
    t.pre.Due seen → t.pre.engine.position = .polling ∨ t.pre.engine.position = .parked →
      t.pre.engine.rx = []

/-- A command that does not come late: it closes no elapsed window, and no resting bid should have
been triggered before it. -/
structure OnTime (config : AuctionConfig) (a : Applied) : Prop where
  window : ∀ w, a.transition.pre.window = some w →
    ¬w.index < (config.windowBounds a.transition.post.now).1
  trigger : config.schedule.Constructed → ∀ b ∈ a.transition.pre.resting.bids, ∀ u,
    config.schedule.timeToReach b.limit = some u → a.transition.post.now < u
  /-- Where the prediction is exact, the clock shows more than every resting limit. -/
  price : config.schedule.Sane → a.transition.post.now < U64.maxValue →
    ∀ b ∈ a.transition.pre.resting.bids,
      b.limit < config.schedule.priceAt a.transition.post.now

theorem passes {t : Runs.Transition Loop Move (Option Applied)}
    (h : Run config options instant tr l)
    (ht : t ∈ tr) {seen anchored stamped : Instant}
    (hinput : t.input = .run seen anchored stamped) :
    Engine.Passes t.pre.engine seen anchored stamped t.post.engine t.out ∧
      t.pre.instant ≤ seen ∧ seen ≤ anchored ∧ anchored ≤ stamped := by
  have hstep := (h.split ht).2
  rw [hinput, Loop.step] at hstep
  split_ifs at hstep with horder
  obtain ⟨r, hrun, heq⟩ := Option.map_eq_some_iff.mp hstep
  obtain ⟨hpost, hout⟩ := Prod.mk.inj heq
  rw [← hpost, ← hout]
  exact ⟨Engine.run_passes hrun, horder⟩

theorem clockWins_iff {t : Runs.Transition Loop Move (Option Applied)}
    (h : Run config options instant tr l) (ht : t ∈ tr) : ClockWins t ↔ NothingWaits t := by
  have hsound : t.pre.Sound config := by
    obtain ⟨⟨tr', -, hrun⟩, -⟩ := h.split ht
    exact run_sound hrun
  constructor
  · intro hwins seen anchored stamped hinput hstop hdue hposition
    by_contra hne
    obtain ⟨hpasses, -⟩ := passes h ht hinput
    have hwins := hwins seen anchored stamped hinput hstop hdue
    generalize t.post.engine = e' at hpasses
    generalize t.out = out at hpasses hwins
    cases hpasses with
    | idle hchecks hnone =>
      cases hchecks with
      | looked position hin hloop hdraining hempty => exact hne (hempty hposition)
      | worked => simp at hnone
      | ticked => simp at hnone
      | stopped hrx => exact hne hrx
    | work hchecks htakes => exact absurd (htakes.source.symm.trans (hwins _ rfl)) (by simp)
    | tick hchecks htakes =>
      cases hchecks with
      | ticked due hdue' hle htiming =>
        rw [htiming] at hposition
        simp at hposition
  · intro hwaits seen anchored stamped hinput hstop hdue a hout
    obtain ⟨hpasses, -⟩ := passes h ht hinput
    rw [hout] at hpasses
    cases hpasses with
    | tick hchecks htakes => exact htakes.source
    | work hchecks htakes =>
      cases hchecks with
      | worked s rx hrx hposition =>
        rcases hposition with hdraining | hposition
        · exact absurd (hsound.draining hdraining) (by rw [hstop]; exact Bool.false_ne_true)
        · rw [hwaits seen anchored stamped hinput hstop hdue hposition] at hrx
          cases hrx

theorem takes {t : Runs.Transition Loop Move (Option Applied)} (h : Run config options instant tr l)
    (ht : t ∈ tr) {seen anchored stamped : Instant} (hinput : t.input = .run seen anchored stamped)
    {a : Applied} (hout : t.out = some a) :
    ∃ (e₁ e' : Engine) (origin : Option Submission), e₁.Takes origin anchored stamped e' a ∧
      e₁.state = t.pre.engine.state ∧ e₁.clock = t.pre.engine.clock := by
  obtain ⟨hpasses, -⟩ := passes h ht hinput
  rw [hout] at hpasses
  cases hpasses with
  | work hchecks htakes =>
    cases hchecks with
    | worked => exact ⟨_, _, _, htakes, rfl, rfl⟩
  | tick hchecks htakes =>
    cases hchecks with
    | ticked => exact ⟨_, _, _, htakes, rfl, rfl⟩

theorem onTime_of_not_due {t : Runs.Transition Loop Move (Option Applied)} {i : Instant}
    {a : Applied}
    (h : Run config options instant tr l) (ht : t ∈ tr) (hinput : t.input = .run i i i)
    (hout : t.out = some a) (hdue : ¬t.pre.Due i) : OnTime config a := by
  obtain ⟨⟨tr', -, hrun⟩, -⟩ := h.split ht
  have hsound := run_sound hrun
  obtain ⟨hpriced, himmediate, hconfig⟩ := hsound.reached
  obtain ⟨-, hi, -⟩ := passes h ht hinput
  obtain ⟨e₁, e', origin, htakes, hstate, hclock⟩ := takes h ht hinput hout
  have hpre : a.transition.pre = t.pre.engine.state := htakes.pre.trans hstate
  have hpost : a.transition.post.now = max a.record.ts t.pre.engine.state.now := by
    rw [htakes.post, (step_frame htakes.applied).2, hstate]
  -- While something is in flight the auction is live, and the clock is not anchored anew.
  have hlate : ∀ {u : Nanos}, t.pre.engine.state.status = .live → ComesDue t.pre.engine.state u →
      a.transition.post.now < u := by
    intro u hlive hcomes
    have hreading : a.record.ts = t.pre.engine.clock.now i := by
      rw [htakes.ts, htakes.clock, if_neg, hclock]
      rintro ⟨-, hpending⟩
      rw [hstate, hlive] at hpending
      cases hpending
    have hnow : t.pre.engine.state.now ≤ a.record.ts := by
      rw [hreading]
      exact hsound.clock.trans (clock_mono _ hi)
    rw [hpost, max_eq_left hnow]
    obtain ⟨due, hdeadline, hle⟩ := exists_deadline hlive hcomes
    by_contra hlt
    refine hdue ⟨due, hdeadline, hle.trans ?_⟩
    rw [← hreading]
    exact max_le (not_lt.mp hlt) hnow
  have htrigger : config.schedule.Constructed → ∀ b ∈ a.transition.pre.resting.bids, ∀ u,
      config.schedule.timeToReach b.limit = some u → a.transition.post.now < u := by
    intro hconstructed b hb u hu
    rw [hpre] at hb
    have hlive : t.pre.engine.state.status = .live := by
      by_contra hstatus
      rw [(hpriced.idle hstatus).2] at hb
      exact absurd hb List.not_mem_nil
    obtain ⟨limit, hnext, hle⟩ := PriceLadder.limit_le_nextTrigger hpriced.filed hb
    obtain ⟨u', hu', hle'⟩ := PriceSchedule.timeToReach_anti hconstructed hle hu
    refine (hlate hlive (.trigger (t := u') ?_)).trans_le hle'
    rw [hnext, hconfig]
    exact hu'
  refine ⟨?_, htrigger, ?_⟩
  · intro w hw helapsed
    rw [hpre] at hw
    have hlive : t.pre.engine.state.status = .live := by
      by_contra hstatus
      cases (hpriced.idle hstatus).1.symm.trans hw
    have hwidth : config.batchWindow.val ≠ 0 := by
      intro hzero
      rw [← hconfig] at hzero
      cases (himmediate hzero).symm.trans hw
    have hbounds := hpriced.window w hw
    rw [hconfig] at hbounds
    have hindex : (config.windowBounds t.pre.engine.state.now).1 = w.index :=
      congrArg Prod.fst hbounds
    rw [← hindex] at helapsed
    obtain ⟨u, hclose, hle, -⟩ := windowClose_le hwidth helapsed
    refine absurd (hlate hlive (.window (t := u) ?_)) (not_lt.mpr hle)
    rw [AuctionState.openWindow, hw, hconfig]
    exact hclose
  · intro hsane hend b hb
    have hexact := PriceSchedule.priceAt_le_iff hsane.constructed hsane.floor hsane.duration hend
    by_contra hreached
    obtain ⟨u, hu, hle⟩ := (hexact b.limit).mp (not_lt.mp hreached)
    exact absurd (htrigger hsane.constructed b hb u hu) (not_lt.mpr hle)

/-- **The clock tick wins every window boundary** at which nothing waits, and at no other. -/
theorem clock_wins_iff (h : Run config options instant tr l) :
    ((∀ t ∈ tr, ClockWins t) ↔ ∀ t ∈ tr, NothingWaits t) ∧
      ((∀ t ∈ tr, NothingWaits t) → ∀ t ∈ tr, ∀ i a s, t.input = .run i i i →
        t.pre.engine.stop = false → t.out = some a → a.origin = some s → OnTime config a) := by
  refine ⟨forall₂_congr fun t ht ↦ clockWins_iff h ht,
    fun hwaits t ht i a s hinput hstop hout hs ↦ ?_⟩
  refine onTime_of_not_due h ht hinput hout fun hdue ↦ ?_
  have hnone := (clockWins_iff h ht).mpr (hwaits t ht) i i i hinput hstop hdue a hout
  rw [hs] at hnone
  cases hnone

/-! ### A busy queue -/

/-- Windows a second wide. -/
def sampleOptions : ThreadOptions := ⟨4, ⟨4, 4⟩, 250000, .async⟩

/-- A command is taken at once. -/
def atOnce (instant : Instant) (cmd : Command) : List Move :=
  [.submit ⟨cmd, none⟩, .run instant instant instant, .run instant instant instant]

/-- A bid goes into the window of the first second, and two seconds later another command waits. -/
def busyMoves : List Move :=
  atOnce 0 .open ++ atOnce 0 (.setCollateral 1 100000) ++
    atOnce 0 (.submitBid 1 101 5 (.take 1000)) ++
    [.submit ⟨.setCollateral 2 100000, none⟩, .run 2000000000 2000000000 2000000000]

def busyPlay : List (Runs.Transition Loop Move (Option Applied)) × Loop :=
  Runs.play (step (.sample 1000000000) sampleOptions) (new (.sample 1000000000) 0) busyMoves

theorem clock_wins_iff_sample :
    (∀ t ∈ busyPlay.1, ClockWins t) ↔ ∀ t ∈ busyPlay.1, NothingWaits t :=
  (clock_wins_iff (Runs.run_play (step (.sample 1000000000) sampleOptions) _ busyMoves)).1

/-- The command that waits is taken before the tick, and closes the elapsed window. -/
theorem waiting_command_closes_window :
    ∃ tr l, Run (.sample 1000000000) sampleOptions 0 tr l ∧ ∃ t ∈ tr, ∃ a s w,
      t.input = .run 2000000000 2000000000 2000000000 ∧ t.pre.engine.stop = false ∧
        t.pre.Due 2000000000 ∧ t.out = some a ∧ a.origin = some s ∧
        a.transition.pre.window = some w ∧
        w.index < ((AuctionConfig.sample 1000000000).windowBounds a.transition.post.now).1 := by
  have hrun := Runs.run_play (step (.sample 1000000000) sampleOptions) (new (.sample 1000000000) 0)
    busyMoves
  have hdue : busyPlay.2.Due 2000000000 := ⟨1000000000, by decide, by decide⟩
  obtain ⟨l', a, hstep, horigin, w, hw, hlt⟩ : ∃ l' a, step (.sample 1000000000) sampleOptions
      busyPlay.2 (.run 2000000000 2000000000 2000000000) = some (l', some a) ∧
        a.origin = some ⟨.setCollateral 2 100000, none⟩ ∧ ∃ w, a.transition.pre.window = some w ∧
          w.index < ((AuctionConfig.sample 1000000000).windowBounds a.transition.post.now).1 :=
    ⟨_, _, rfl, rfl, _, rfl, by decide⟩
  exact ⟨_, _, hrun.snoc hstep, _, List.mem_append_right _ (List.mem_singleton_self _), a, _, w,
    rfl, rfl, hdue, rfl, horigin, hw, hlt⟩

/-! ## What opening an auction starts from

Auction time is that of the latest command, so a command before the opening, the setting of a
ceiling say, moves the instant that the schedule is read at. -/

theorem now_applyAll {s s' : AuctionState} {records : List LogRecord}
    (h : applyAll s records = some s') :
    s'.now ∈ s.now :: records.map LogRecord.ts ∧
      ∀ t ∈ s.now :: records.map LogRecord.ts, t ≤ s'.now := by
  induction records generalizing s with
  | nil =>
    cases h
    exact ⟨List.mem_cons_self, fun t ht ↦ (List.mem_singleton.mp ht).le⟩
  | cons r records ih =>
    obtain ⟨t, hfollow, hall⟩ := Option.bind_eq_some_iff.mp h
    obtain ⟨u, hstep, rfl⟩ := Option.map_eq_some_iff.mp hfollow
    have hnow := (step_frame (o := u.2) hstep).2
    obtain ⟨hmem, hle⟩ := ih hall
    have hmax := hle _ List.mem_cons_self
    rw [hnow] at hmem hmax
    constructor
    · rcases List.mem_cons.mp hmem with hmem | hmem
      · rw [hmem]
        rcases max_choice r.ts s.now with hmax | hmax
        · rw [hmax]
          exact List.mem_cons_of_mem _ List.mem_cons_self
        · rw [hmax]
          exact List.mem_cons_self
      · exact List.mem_cons_of_mem _ (List.mem_cons_of_mem _ hmem)
    · intro t ht
      rcases List.mem_cons.mp ht with rfl | ht
      · exact (le_max_right _ _).trans hmax
      · rcases List.mem_cons.mp ht with rfl | ht
        · exact (le_max_left _ _).trans hmax
        · exact hle t (List.mem_cons_of_mem _ ht)

/-- **The opening starts at the published price** exactly when the schedule is still there at the
time of every command before it, put off by the time between the two readings of the clock. -/
theorem opens_at_start_iff {t : Runs.Transition Loop Move (Option Applied)}
    (h : Run config options instant tr l) (ht : t ∈ tr) {seen anchored stamped : Instant}
    {a : Applied} (hinput : t.input = .run seen anchored stamped) (hout : t.out = some a)
    (hopen : a.record.cmd = .open) (hpending : a.transition.pre.status = .pending) :
    config.priceAt a.transition.post.now = config.startPrice ↔
      ∀ elapsed ∈ 0 :: t.pre.records.map LogRecord.ts,
        config.priceAt (elapsed.saturatingAdd (U64.saturate (stamped - anchored).toNat)) =
          config.startPrice := by
  obtain ⟨⟨tr', -, hrun⟩, -⟩ := h.split ht
  have hsound := run_sound hrun
  obtain ⟨-, -, -, hle⟩ := passes h ht hinput
  obtain ⟨e₁, e', origin, htakes, hstate, -⟩ := takes h ht hinput hout
  obtain ⟨hmem, hmax⟩ := now_applyAll hsound.replay
  have hnow : a.transition.post.now = t.pre.engine.state.now.saturatingAdd
      (U64.saturate (stamped - anchored).toNat) := by
    rw [htakes.pre] at hpending
    rw [htakes.post, (step_frame htakes.applied).2, htakes.ts, htakes.clock,
      if_pos ⟨hopen, hpending⟩, resume_now hle, hstate]
    exact max_eq_left (U64.le_saturate (Nat.le_add_right _ _))
  rw [hnow]
  constructor
  · intro hstart elapsed helapsed
    have hearlier : elapsed.saturatingAdd (U64.saturate (stamped - anchored).toNat) ≤
        t.pre.engine.state.now.saturatingAdd (U64.saturate (stamped - anchored).toNat) :=
      U64.saturate_mono (Nat.add_le_add_right (U64.le_def.mp (hmax elapsed helapsed)) _)
    refine le_antisymm ?_ (hstart ▸ AuctionConfig.priceAt_anti hearlier)
    refine PriceSchedule.priceAt_le_start ?_ _
    exact (AuctionConfig.floor_le_priceAt _).trans_eq hstart
  · intro hall
    exact hall _ hmem

/-- An auction that is opened at once, two seconds after the process was started. -/
def freshPlay : List (Runs.Transition Loop Move (Option Applied)) × Loop :=
  Runs.play (step (.sample 0) sampleOptions) (new (.sample 0) 0)
    [.submit ⟨.open, none⟩, .run 2000000000 2000000000 2000000000]

theorem opens_at_start_iff_sample :
    ∃ l' a, step (.sample 0) sampleOptions freshPlay.2 (.run 2000000000 2000000000 2000000000) =
        some (l', some a) ∧
      ((AuctionConfig.sample 0).priceAt a.transition.post.now =
        (AuctionConfig.sample 0).startPrice ↔
        ∀ elapsed ∈ 0 :: freshPlay.2.records.map LogRecord.ts,
          (AuctionConfig.sample 0).priceAt (elapsed.saturatingAdd
            (U64.saturate (2000000000 - 2000000000 : Instant).toNat)) =
              (AuctionConfig.sample 0).startPrice) := by
  obtain ⟨l', a, hstep, hopen, hpending⟩ : ∃ l' a,
      step (.sample 0) sampleOptions freshPlay.2 (.run 2000000000 2000000000 2000000000) =
        some (l', some a) ∧ a.record.cmd = .open ∧ a.transition.pre.status = .pending :=
    ⟨_, _, rfl, rfl, rfl⟩
  refine ⟨l', a, hstep, ?_⟩
  have hrun := Runs.run_play (step (.sample 0) sampleOptions) (new (.sample 0) 0)
    [.submit ⟨.open, none⟩, .run 2000000000 2000000000 2000000000]
  exact opens_at_start_iff (hrun.snoc hstep)
    (List.mem_append_right _ (List.mem_singleton_self _)) rfl rfl hopen hpending

/-- A participant is funded five seconds after the start of the process, and the auction opened
then. -/
def fundedPlay : List (Runs.Transition Loop Move (Option Applied)) × Loop :=
  Runs.play (step (.sample 0) sampleOptions) (new (.sample 0) 0)
    (atOnce 5000000000 (.setCollateral 1 100000) ++
      [.submit ⟨.open, none⟩, .run 5000000000 5000000000 5000000000])

/-- Opened five seconds late, the auction opens five steps down. -/
theorem opens_below_start :
    ∃ tr l, Run (.sample 0) sampleOptions 0 tr l ∧ ∃ t ∈ tr, ∃ a,
      t.input = .run 5000000000 5000000000 5000000000 ∧ t.out = some a ∧ a.record.cmd = .open ∧
        a.transition.pre.status = .pending ∧
        (AuctionConfig.sample 0).priceAt a.transition.post.now ≠
          (AuctionConfig.sample 0).startPrice := by
  have hrun := Runs.run_play (step (.sample 0) sampleOptions) (new (.sample 0) 0)
    (atOnce 5000000000 (.setCollateral 1 100000) ++
      [.submit ⟨.open, none⟩, .run 5000000000 5000000000 5000000000])
  obtain ⟨l', a, hstep, hopen, hpending, hprice⟩ : ∃ l' a,
      step (.sample 0) sampleOptions fundedPlay.2 (.run 5000000000 5000000000 5000000000) =
        some (l', some a) ∧ a.record.cmd = .open ∧ a.transition.pre.status = .pending ∧
          (AuctionConfig.sample 0).priceAt a.transition.post.now ≠
            (AuctionConfig.sample 0).startPrice := ⟨_, _, rfl, rfl, rfl, by decide⟩
  exact ⟨_, _, hrun.snoc hstep, _, List.mem_append_right _ (List.mem_singleton_self _), a, rfl, rfl,
    hopen, hpending, hprice⟩

end Loop

end DutchAuction
