import DutchAuction.Core.Final
import DutchAuction.Engine.Timing

/-!
# An outage pauses the clock

Auction time is resumed where the log leads, so the time between the death of one process and the
opening of the next does not count: no participant misses a price that the clock passed while nobody
could bid. After an auction is opened again, and as long as that process runs, its clock has gone on
by exactly the time since. Over any number of restarts the machine's time is uptime and downtime,
and auction time is at most the uptime (`outage_pauses_clock`); what is lost with the end of the log
only sets it back.
-/

namespace DutchAuction

theorem Status.Follows.ne_pending {status status' : Status} (h : status.Follows status')
    (hopened : status ≠ .pending) : status' ≠ .pending := by
  cases h with
  | stay => exact hopened
  | opened => exact absurd rfl hopened
  | cleared => exact Status.noConfusion
  | cancelled => exact Status.noConfusion

namespace Loop

variable {config : AuctionConfig} {options : ThreadOptions} {instant : Instant} {l l' : Loop}
  {tr : List (Runs.Transition Loop Move (Option Applied))}

/-- The auction is opened again. -/
def Move.reopens : Move → Bool
  | .restart _ _ => true
  | _ => false

/-- How far the machine's clock went in a step. -/
def span (t : Runs.Transition Loop Move (Option Applied)) : ℕ :=
  (t.post.instant - t.pre.instant).toNat

/-- How long a process ran in a step, -/
def uptime (t : Runs.Transition Loop Move (Option Applied)) : ℕ :=
  if t.input.reopens then 0 else span t

/-- and how long none did. -/
def downtime (t : Runs.Transition Loop Move (Option Applied)) : ℕ :=
  if t.input.reopens then span t else 0

theorem uptime_add_downtime (t : Runs.Transition Loop Move (Option Applied)) :
    uptime t + downtime t = span t := by
  rw [uptime, downtime]
  split_ifs
  · exact Nat.zero_add _
  · exact Nat.add_zero _

/-- What the auction's clock would read, were there no largest reading. -/
def elapsed (l : Loop) : ℕ := (l.instant - l.engine.clock.origin).toNat

theorem now_eq_elapsed (l : Loop) : l.engine.clock.now l.instant = U64.saturate l.elapsed := rfl

theorem Sound.now_le_elapsed (h : l.Sound config) : l.engine.state.now.val ≤ l.elapsed := by
  have hclock := U64.le_def.mp h.clock
  rw [now_eq_elapsed, U64.val_saturate] at hclock
  omega

theorem Sound.now_take_le (h : l.Sound config) {n : ℕ} {state : AuctionState}
    (hreplay : fullReplay config (l.records.take n) = some state) :
    state.now ≤ l.engine.state.now := by
  have hwhole := h.replay
  rw [← List.take_append_drop n l.records, fullReplay_append, hreplay, Option.bind_some] at hwhole
  exact (now_applyAll hwhole).2 _ List.mem_cons_self

/-- What one step does to the machine's clock and to the auction's. -/
structure Advances (config : AuctionConfig) (l : Loop) (move : Move) (l' : Loop) : Prop where
  later : l.instant ≤ l'.instant
  elapsed : l'.elapsed ≤ l.elapsed + if move.reopens then 0 else (l'.instant - l.instant).toNat
  /-- Once the auction is opened, its clock is not set again while the process runs. -/
  kept : move.reopens = false → l.engine.state.status ≠ .pending →
    l'.engine.clock = l.engine.clock ∧ l'.engine.state.status ≠ .pending

theorem Advances.of_clock {move : Move} (hlater : l.instant ≤ l'.instant)
    (hclock : l'.engine.clock = l.engine.clock)
    (hkept : l.engine.state.status ≠ .pending → l'.engine.state.status ≠ .pending)
    (hmove : move.reopens = false) : Advances config l move l' where
  later := hlater
  elapsed := by
    rw [hmove, if_neg Bool.false_ne_true, Loop.elapsed, Loop.elapsed, hclock]
    omega
  kept _ hstatus := ⟨hclock, hkept hstatus⟩

/-- **One step.** -/
theorem Sound.advances (h : l.Sound config) {move : Move} {out : Option Applied}
    (hstep : Loop.step config options l move = some (l', out)) : Advances config l move l' := by
  cases move with
  | submit s =>
    rw [Loop.step] at hstep
    split at hstep
    · rename_i e hsubmit
      cases hstep
      rw [Engine.submit] at hsubmit
      split_ifs at hsubmit
      cases hsubmit
      exact .of_clock le_rfl rfl id rfl
    · cases hstep
      exact .of_clock le_rfl rfl id rfl
  | stop =>
    cases hstep
    exact .of_clock le_rfl rfl id rfl
  | run seen anchored stamped =>
    rw [Loop.step] at hstep
    split_ifs at hstep with horder
    obtain ⟨hseen, hanchored, hstamped⟩ := horder
    obtain ⟨⟨e, out'⟩, hrun, heq⟩ := Option.map_eq_some_iff.mp hstep
    cases heq
    have hlater : l.instant ≤ stamped := hseen.trans (hanchored.trans hstamped)
    have hnow := h.now_le_elapsed
    have hage : ∀ (n m : ℕ) (a b i : ℤ), n ≤ m → i ≤ a → a ≤ b →
        (b - (a - n)).toNat ≤ m + (b - i).toNat := by omega
    have htakes : ∀ {e₁ e' : Engine} {origin : Option Submission} {a : Applied}
        {records : List LogRecord}, e₁.Takes origin anchored stamped e' a →
          e₁.state = l.engine.state → e₁.clock = l.engine.clock →
          Advances config l (.run seen anchored stamped) ⟨e', stamped, records⟩ := by
      intro e₁ e' origin a records ht hstate hclock
      have hfollows : l.engine.state.status ≠ .pending → e'.state.status ≠ .pending :=
        (h.reached.1.follows (hstate ▸ ht.applied)).ne_pending
      by_cases hopen : a.record.cmd = .open ∧ e₁.state.status = .pending
      · -- The clock is set at the opening, to the age the auction has.
        have hset := ht.clock
        rw [if_pos hopen, hstate] at hset
        have hpending : l.engine.state.status = .pending := by rw [← hstate, hopen.2]
        refine ⟨hlater, ?_, fun _ hstatus ↦ absurd hpending hstatus⟩
        have hmove : Move.reopens (.run seen anchored stamped) = false := rfl
        rw [hmove, if_neg Bool.false_ne_true, Loop.elapsed, hset, Clock.resume]
        exact hage _ l.elapsed _ _ l.instant hnow (hseen.trans hanchored) hstamped
      · have hkept := ht.clock
        rw [if_neg hopen, hclock] at hkept
        exact .of_clock hlater hkept hfollows rfl
    cases Engine.run_passes hrun with
    | idle hchecks hnone =>
      cases hchecks with
      | looked => exact .of_clock hlater rfl id rfl
      | worked => simp at hnone
      | ticked => simp at hnone
      | stopped => exact .of_clock hlater rfl id rfl
    | work hchecks ht =>
      cases hchecks with
      | worked => exact htakes ht rfl rfl
    | tick hchecks ht =>
      cases hchecks with
      | ticked => exact htakes ht rfl rfl
  | restart n i =>
    rw [Loop.step] at hstep
    split_ifs at hstep with hlater
    obtain ⟨state, hreplay, hrest⟩ := Option.bind_eq_some_iff.mp hstep
    obtain ⟨next, -, heq⟩ := Option.map_eq_some_iff.mp hrest
    cases heq
    have hnow := U64.le_def.mp (h.now_take_le hreplay)
    have hage := h.now_le_elapsed
    refine ⟨hlater, ?_, fun hreopens ↦ Bool.noConfusion hreopens⟩
    rw [Move.reopens, if_pos rfl, Loop.elapsed, Engine.start, Clock.resume]
    dsimp only
    omega

theorem run_elapsed (hrun : Run config options instant tr l) :
    l.elapsed ≤ (tr.map uptime).sum := by
  have hage : l.Sound config ∧ (tr.map fun _ ↦ 0).sum + l.elapsed ≤
      (new config instant).elapsed + (tr.map uptime).sum :=
    hrun.amortized (C := fun _ ↦ True) (new_sound config instant)
      (fun t h hstep _ ↦ ⟨h.step hstep, by
        rw [Nat.zero_add]
        exact (h.advances hstep).elapsed⟩) fun _ _ ↦ trivial
  have hzero : (new config instant).elapsed = 0 := by
    show (instant - (instant - ((0 : ℕ) : ℤ))).toNat = 0
    rw [Int.natCast_zero, sub_zero, sub_self, Int.toNat_zero]
  omega

theorem run_instant (hrun : Run config options instant tr l) :
    instant + (tr.map uptime).sum + (tr.map downtime).sum = l.instant := by
  induction hrun with
  | nil => simp [new]
  | @snoc tr l l' move out hrun hstep ih =>
    have hlater := ((run_sound hrun).advances hstep).later
    have hspan := uptime_add_downtime ⟨l, move, out, l'⟩
    have hgoes : ∀ (m n u d : ℕ) (i j k : ℤ), i + m + n = j → j ≤ k → u + d = (k - j).toNat →
        i + (m + u : ℕ) + (n + d : ℕ) = k := by omega
    rw [List.map_append, List.map_append, List.sum_append, List.sum_append, List.map_singleton,
      List.map_singleton, List.sum_singleton, List.sum_singleton]
    exact hgoes _ _ _ _ _ _ _ ih hlater hspan

/-- **An auction that was opened before** goes on, in one process, from where its log led. -/
theorem resumed {before after : List (Runs.Transition Loop Move (Option Applied))}
    {t : Runs.Transition Loop Move (Option Applied)}
    (hrun : Run config options instant (before ++ t :: after) l) (ht : t.input.reopens = true)
    (hafter : ∀ u ∈ after, u.input.reopens = false)
    (hopened : t.post.engine.state.status ≠ .pending) :
    l.engine.clock.now l.instant = t.post.engine.state.now.saturatingAdd
      (U64.saturate (l.instant - t.post.instant).toNat) := by
  rw [List.append_cons] at hrun
  obtain ⟨m, hbefore, hsince⟩ := hrun.unappend
  obtain rfl := hbefore.last
  have hset : t.post.engine.clock = Clock.resume t.post.instant t.post.engine.state.now := by
    have hstep := (hbefore.split (List.mem_append_right _ (List.mem_singleton_self _))).2
    cases hinput : t.input with
    | restart n i =>
      rw [hinput, Loop.step] at hstep
      split_ifs at hstep
      obtain ⟨state, -, hrest⟩ := Option.bind_eq_some_iff.mp hstep
      obtain ⟨next, -, heq⟩ := Option.map_eq_some_iff.mp hrest
      rw [← (Prod.mk.inj heq).1]
      rfl
    | submit s => rw [hinput] at ht; cases ht
    | stop => rw [hinput] at ht; cases ht
    | run seen anchored stamped => rw [hinput] at ht; cases ht
  -- Nothing sets the clock again.
  obtain ⟨-, hclock, -, hlater⟩ := hsince.invariant_of
    (P := fun l : Loop ↦ l.Sound config ∧ l.engine.clock = t.post.engine.clock ∧
      l.engine.state.status ≠ .pending ∧ t.post.instant ≤ l.instant)
    (C := fun u ↦ u.input.reopens = false) ⟨run_sound hbefore, rfl, hopened, le_rfl⟩
    (fun l move l' out h hstep hmove ↦ by
      obtain ⟨hs, hclock, hstatus, hlater⟩ := h
      obtain ⟨hgoes, -, hkept⟩ := hs.advances hstep
      obtain ⟨hsame, hstill⟩ := hkept hmove hstatus
      exact ⟨hs.step hstep, hsame.trans hclock, hstill, hlater.trans hgoes⟩) hafter
  rw [hclock, hset, resume_now hlater]

/-- What an outage does to the clock. -/
structure Paused (config : AuctionConfig) (instant : Instant)
    (tr : List (Runs.Transition Loop Move (Option Applied))) (l : Loop) : Prop where
  /-- The machine's clock has gone on by uptime and downtime. -/
  machine : instant + (tr.map uptime).sum + (tr.map downtime).sum = l.instant
  /-- Auction time is at most the uptime, -/
  auction : (l.engine.clock.now l.instant).val ≤ (tr.map uptime).sum
  /-- so the price is not below what it is after that time. -/
  price : config.priceAt (U64.saturate (tr.map uptime).sum) ≤ config.priceAt l.engine.state.now
  /-- An auction that was opened before its process died goes on from where the log led, by the time
  since it was opened again. -/
  resumed : ∀ before t after, tr = before ++ t :: after → t.input.reopens = true →
    (∀ u ∈ after, u.input.reopens = false) → t.post.engine.state.status ≠ .pending →
      l.engine.clock.now l.instant = t.post.engine.state.now.saturatingAdd
        (U64.saturate (l.instant - t.post.instant).toNat)

/-- **An outage pauses the clock**, in every run over any number of restarts. -/
theorem outage_pauses_clock (hrun : Run config options instant tr l) :
    Paused config instant tr l := by
  have helapsed := run_elapsed hrun
  have hnow := (run_sound hrun).now_le_elapsed
  refine ⟨run_instant hrun, ?_, AuctionConfig.priceAt_anti (U64.le_saturate (hnow.trans helapsed)),
    fun before t after heq ht hafter hopened ↦ resumed (heq ▸ hrun) ht hafter hopened⟩
  rw [now_eq_elapsed, U64.val_saturate]
  omega

/-- An auction is opened, its process dies, and it is opened again a hundred seconds later. -/
def outagePlay : List (Runs.Transition Loop Move (Option Applied)) × Loop :=
  Runs.play (step (.sample 0) sampleOptions) (new (.sample 0) 0)
    (atOnce 0 .open ++ [.restart 1 100000000000, .run 101000000000 101000000000 101000000000])

/-- A second after that, it is one second old. -/
theorem outage_pauses_clock_sample :
    outagePlay.2.instant = 101000000000 ∧
      outagePlay.2.engine.clock.now outagePlay.2.instant = U64.lit 1000000000 ∧
      Paused (.sample 0) 0 outagePlay.1 outagePlay.2 :=
  ⟨by decide, by decide, outage_pauses_clock (Runs.run_play _ _ _)⟩

end Loop

end DutchAuction
