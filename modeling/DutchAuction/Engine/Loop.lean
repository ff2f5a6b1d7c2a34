import DutchAuction.Core.Unfilled
import DutchAuction.Wal.Commit

/-!
# The engine loop

One thread takes commands from the ingress queue, or owes the auction a tick when a deadline has
passed; it numbers each command, stamps it with the auction's clock and applies it. The loop of
`next` is followed check by check (`Position`): between any two of them commands may arrive and a
stop may be requested.

The machine's clock is an integer that the environment never turns back. The process can be opened
again at any moment, from the records of any first part of the log.
-/

namespace DutchAuction

/-! ## The clock -/

/-- A reading of the machine's monotonic clock, in nanoseconds. -/
abbrev Instant := ℤ

/-- The mapping between the machine's clock and auction time. -/
structure Clock where
  /-- The instant that corresponds to time zero. -/
  origin : Instant

/-- Resume a clock for an auction that is already `elapsed` old. -/
def Clock.resume (instant : Instant) (elapsed : Nanos) : Clock := ⟨instant - elapsed.val⟩

/-- Auction time at this instant. -/
def Clock.now (clock : Clock) (instant : Instant) : Nanos :=
  U64.saturate (instant - clock.origin).toNat

/-! ## Deadlines

The engine has to act at the earliest of the instants at which something comes due by itself. -/

/-- When the batch window containing `now` closes. -/
def windowClose (now width : Nanos) : Option Nanos :=
  if width.val = 0 then none
  else some (((now.windowIndex width).saturatingAdd 1).saturatingMul width)

/-- The next instant the engine has work to do with nothing arriving from outside. -/
def deadline (state : AuctionState) : Option Nanos :=
  if state.status.acceptsBids then
    let window := state.openWindow.bind fun _ ↦ windowClose state.now state.config.batchWindow
    -- The clock only descends, so the highest resting limit is the next one it reaches.
    let trigger := state.resting.nextTrigger.bind state.config.schedule.timeToReach
    let floor := state.config.schedule.timeToReach state.config.floorPrice
    -- A deadline in the past is due now, not skipped.
    (([window, trigger, floor].filterMap id).map fun t ↦ max t state.now).min?
  else none

/-! ## The door

Whoever submits a command is let in, or is told that the queue is full or the engine gone. -/

/-- A command travelling to the engine, and the return address for its answer. -/
structure Submission where
  cmd : Command
  reply : Option ℕ
deriving DecidableEq

/-- Why a command never made it to the engine. -/
inductive Shed
  /-- The ingress queue was full. -/
  | busy
  /-- The engine thread is gone. -/
  | stopped
deriving DecidableEq

/-- How much the primary waits for the standby before acknowledging a bid. -/
inductive ReplicationMode
  | async
  | sync
deriving DecidableEq

/-- What the threads are tuned with. -/
structure ThreadOptions where
  /-- Ingress slots. Of a queue of depth zero, which hands over directly, the one slot is the
  sender's. -/
  queueDepth : ℕ
  wal : WalOptions
  /-- How long before a deadline the engine stops parking and starts spinning. -/
  spinAhead : Nanos
  replication : ReplicationMode

/-! ## The engine

Taking a command numbers it, stamps it with the time of the clock and applies it; what comes of it
is handed on. -/

/-- Where the engine thread is. The auction holds a sender as long as the thread runs, so it never
finds the ingress queue disconnected. -/
inductive Position
  /-- About to look at the stop flag. -/
  | top
  /-- It is set: about to drain the queue. -/
  | draining
  /-- It is not: about to try the queue. -/
  | polling
  /-- The queue was empty: about to look at the clock. -/
  | timing
  /-- Parked on the queue. -/
  | parked
  /-- Out of the loop, and still holding its ends of the channels. -/
  | stopped
  | ended
deriving DecidableEq

/-- What the engine does next. -/
inductive Next
  /-- Something arrived from outside. -/
  | work (s : Submission)
  /-- A deadline passed with nothing arriving: the engine owes the auction a tick. -/
  | tick
  | stop

/-- What the engine thread owns, and what it shares with the door. -/
structure Engine where
  state : AuctionState
  nextSeq : Seq
  clock : Clock
  rx : List Submission
  stop : Bool
  position : Position

/-- A command that was applied: where it came from, and what it did. -/
structure Applied where
  /-- `none` is the engine's own tick. -/
  origin : Option Submission
  transition : Transition

/-- The record of an applied command. -/
def Applied.record (a : Applied) : LogRecord := a.transition.input

namespace Engine

/-- An engine that was just opened on this state. -/
def start (instant : Instant) (state : AuctionState) (nextSeq : Seq) : Engine where
  state := state
  nextSeq := nextSeq
  clock := Clock.resume instant state.now
  rx := []
  stop := false
  position := .top

/-- Offer a command to the engine. -/
def submit (options : ThreadOptions) (s : Submission) (e : Engine) : Except Shed Engine :=
  if e.position = .ended then .error .stopped
  else if e.rx.length < max options.queueDepth 1 then .ok { e with rx := e.rx ++ [s] }
  else .error .busy

/-- One check of the loop of `next`, at this instant. -/
def next (options : ThreadOptions) (instant : Instant) (e : Engine) :
    Option (Engine × Option Next) :=
  match e.position with
  | .top => some ({ e with position := if e.stop then .draining else .polling }, none)
  | .draining =>
    match e.rx with
    | s :: rx => some ({ e with rx := rx, position := .top }, some (.work s))
    | [] => some ({ e with position := .stopped }, some .stop)
  | .polling =>
    match e.rx with
    | s :: rx => some ({ e with rx := rx, position := .top }, some (.work s))
    | [] => some ({ e with position := .timing }, none)
  | .timing =>
    match deadline e.state with
    | none => some ({ e with position := .parked }, none)
    | some due =>
      let now := e.clock.now instant
      if due ≤ now then some ({ e with position := .top }, some .tick)
      else if due.val - now.val ≤ options.spinAhead.val then
        some ({ e with position := .top }, none)
      else some ({ e with position := .parked }, none)
  | .parked =>
    match e.rx with
    | s :: rx => some ({ e with rx := rx, position := .top }, some (.work s))
    -- The park has timed out.
    | [] => some ({ e with position := .top }, none)
  | .stopped | .ended => none

/-- Number a command, stamp it and apply it. The clock is anchored anew for the command that opens
the auction, and is read once for every command. -/
def take (origin : Option Submission) (anchored stamped : Instant) (e : Engine) :
    Option (Engine × Applied) :=
  let cmd := origin.elim .tick Submission.cmd
  let seq := e.nextSeq
  seq.next.bind fun nextSeq ↦
    let clock :=
      if cmd = .open ∧ e.state.status = .pending then Clock.resume anchored e.state.now else e.clock
    let ts := clock.now stamped
    (e.state.apply seq ts cmd).map fun r ↦
      ({ e with state := r.1, nextSeq := nextSeq, clock := clock },
        ⟨origin, ⟨e.state, ⟨seq, ts, cmd⟩, r.2, r.1⟩⟩)

/-- One check, and the command it picks if it picks one. -/
def run (options : ThreadOptions) (seen anchored stamped : Instant) (e : Engine) :
    Option (Engine × Option Applied) :=
  (e.next options seen).bind fun
    | (e, some (.work s)) => (e.take (some s) anchored stamped).map fun r ↦ (r.1, some r.2)
    | (e, some .tick) => (e.take none anchored stamped).map fun r ↦ (r.1, some r.2)
    | (e, some .stop) => some (e, none)
    | (e, none) => some (e, none)

end Engine

/-! ## The loop over its restarts

A step is one check of the loop, or something that happens around it: a command arrives, the clock
goes on, a stop is requested, the process is opened again. -/

/-- The engine, the last reading of the machine's clock, and the log. -/
structure Loop where
  engine : Engine
  instant : Instant
  /-- The records of every command applied, in order. -/
  records : List LogRecord

namespace Loop

/-- What can happen. -/
inductive Move
  | submit (s : Submission)
  | stop
  /-- The engine makes its next check. If it picks a command, its clock is read again to anchor and
  to stamp it. -/
  | run (seen anchored stamped : Instant)
  /-- The process is gone, and the auction is opened again from the first `n` records. -/
  | restart (n : ℕ) (instant : Instant)

/-- An auction opened for the first time. -/
def new (config : AuctionConfig) (instant : Instant) : Loop :=
  ⟨Engine.start instant (AuctionState.new config) Seq.START, instant, []⟩

/-- One step, and the command it applied. -/
def step (config : AuctionConfig) (options : ThreadOptions) (l : Loop) :
    Move → Option (Loop × Option Applied)
  | .submit s =>
    match l.engine.submit options s with
    | .ok e => some ({ l with engine := e }, none)
    | .error _ => some (l, none)
  | .stop => some ({ l with engine := { l.engine with stop := true } }, none)
  | .run seen anchored stamped =>
    if l.instant ≤ seen ∧ seen ≤ anchored ∧ anchored ≤ stamped then
      (l.engine.run options seen anchored stamped).map fun r ↦
        (⟨r.1, stamped, l.records ++ (r.2.map Applied.record).toList⟩, r.2)
    else none
  | .restart n instant =>
    if l.instant ≤ instant then
      let records := l.records.take n
      (fullReplay config records).bind fun state ↦
        ((records.getLast?.map LogRecord.seq).elim (some Seq.START) Seq.next).map fun nextSeq ↦
          (⟨Engine.start instant state nextSeq, instant, records⟩, none)
    else none

/-- The runs of one auction's engine. -/
abbrev Run (config : AuctionConfig) (options : ThreadOptions) (instant : Instant) :
    List (Runs.Transition Loop Move (Option Applied)) → Loop → Prop :=
  Runs.Run (step config options) (new config instant)

end Loop

/-! ## When a deadline is due

The deadline is one of the instants, and no later than any other, so something is overdue exactly
if it has passed. -/

section

variable {s : AuctionState} {t due : Nanos}

/-- The three things that can come due at `t`. -/
inductive ComesDue (s : AuctionState) (t : Nanos) : Prop
  | window (h : (s.openWindow.bind fun _ ↦ windowClose s.now s.config.batchWindow) = some t)
  | trigger (h : s.resting.nextTrigger.bind s.config.schedule.timeToReach = some t)
  | floor (h : s.config.schedule.timeToReach s.config.floorPrice = some t)

private theorem mem_instants :
    due ∈ ([s.openWindow.bind fun _ ↦ windowClose s.now s.config.batchWindow,
      s.resting.nextTrigger.bind s.config.schedule.timeToReach,
      s.config.schedule.timeToReach s.config.floorPrice].filterMap id).map
        (fun t ↦ max t s.now) ↔ ∃ t, ComesDue s t ∧ due = max t s.now := by
  rw [List.mem_map]
  constructor
  · rintro ⟨t, ht, rfl⟩
    obtain ⟨o, ho, rfl⟩ := List.mem_filterMap.mp ht
    rcases List.mem_cons.mp ho with ho | ho
    · exact ⟨t, .window ho.symm, rfl⟩
    · rcases List.mem_cons.mp ho with ho | ho
      · exact ⟨t, .trigger ho.symm, rfl⟩
      · exact ⟨t, .floor (List.mem_singleton.mp ho).symm, rfl⟩
  · rintro ⟨t, ht, rfl⟩
    refine ⟨t, List.mem_filterMap.mpr ⟨some t, ?_, rfl⟩, rfl⟩
    cases ht with
    | window h => rw [h]; exact List.mem_cons_self
    | trigger h => rw [h]; exact List.mem_cons_of_mem _ List.mem_cons_self
    | floor h =>
      rw [h]
      exact List.mem_cons_of_mem _ (List.mem_cons_of_mem _ List.mem_cons_self)

theorem deadline_eq_some :
    deadline s = some due ↔ s.status = .live ∧ (∃ t, ComesDue s t ∧ due = max t s.now) ∧
      ∀ t, ComesDue s t → due ≤ max t s.now := by
  rw [deadline]
  by_cases haccepts : s.status.acceptsBids = true
  · have hlive : s.status = .live := by simpa using haccepts
    rw [if_pos haccepts]
    dsimp only
    rw [List.min?_eq_some_iff, mem_instants]
    constructor
    · rintro ⟨hmem, hle⟩
      exact ⟨hlive, hmem, fun t ht ↦ hle _ (mem_instants.mpr ⟨t, ht, rfl⟩)⟩
    · rintro ⟨-, hmem, hle⟩
      refine ⟨hmem, fun b hb ↦ ?_⟩
      obtain ⟨t, ht, rfl⟩ := mem_instants.mp hb
      exact hle t ht
  · rw [if_neg haccepts]
    constructor
    · intro h
      cases h
    · rintro ⟨hlive, -⟩
      rw [hlive] at haccepts
      exact absurd rfl haccepts

theorem exists_deadline (hlive : s.status = .live) (h : ComesDue s t) :
    ∃ due, deadline s = some due ∧ due ≤ max t s.now := by
  have haccepts : s.status.acceptsBids = true := by
    rw [hlive]
    rfl
  have hsome := List.isSome_min?_of_mem (mem_instants.mpr ⟨t, h, rfl⟩)
  obtain ⟨due, hdue⟩ := Option.isSome_iff_exists.mp hsome
  refine ⟨due, ?_, (List.min?_eq_some_iff.mp hdue).2 _ (mem_instants.mpr ⟨t, h, rfl⟩)⟩
  rw [deadline, if_pos haccepts]
  exact hdue

theorem windowClose_le {config : AuctionConfig} {now u : Nanos}
    (hwidth : config.batchWindow.val ≠ 0)
    (helapsed : (config.windowBounds now).1 < (config.windowBounds u).1) :
    ∃ t, windowClose now config.batchWindow = some t ∧ t ≤ u ∧ now < u := by
  have hpos : 0 < config.batchWindow.val := Nat.pos_of_ne_zero hwidth
  rw [AuctionConfig.windowBounds, AuctionConfig.windowBounds, if_neg hwidth,
    if_neg hwidth] at helapsed
  have hlt : now.val / config.batchWindow.val < u.val / config.batchWindow.val := helapsed
  have hle : (now.val / config.batchWindow.val + 1) * config.batchWindow.val ≤ u.val :=
    (Nat.mul_le_mul_right _ hlt).trans (Nat.div_mul_le_self _ _)
  refine ⟨_, if_neg hwidth, ?_, ?_⟩
  · rw [Nanos.windowIndex, if_neg hwidth]
    show min (min (now.val / config.batchWindow.val + 1) (2 ^ 64 - 1) * config.batchWindow.val)
      (2 ^ 64 - 1) ≤ u.val
    refine (min_le_left _ _).trans (le_trans ?_ hle)
    exact Nat.mul_le_mul_right _ (min_le_left _ _)
  · exact U64.lt_def.mpr (((Nat.div_lt_iff_lt_mul hpos).mp (Nat.lt_succ_self _)).trans_le hle)

end

/-! ## What one check does

A check picks a command out of the queue, or a tick, or moves on to the next check. Only a check
that picks one changes the state. -/

namespace Engine

variable {options : ThreadOptions} {e e' : Engine} {seen anchored stamped : Instant}

/-- What one check can come to. -/
inductive Checks (e : Engine) (seen : Instant) : Engine → Option Next → Prop
  | looked (position : Position) (hin : e.position ≠ .stopped ∧ e.position ≠ .ended)
      (hloop : position ≠ .stopped ∧ position ≠ .ended)
      (hdraining : position = .draining → e.stop = true)
      (hempty : e.position = .polling ∨ e.position = .parked → e.rx = []) :
      Checks e seen { e with position := position } none
  | worked (s : Submission) (rx : List Submission) (hrx : e.rx = s :: rx)
      (hposition : e.position = .draining ∨ e.position = .polling ∨ e.position = .parked) :
      Checks e seen { e with rx := rx, position := .top } (some (.work s))
  | ticked (due : Nanos) (hdue : deadline e.state = some due) (hle : due ≤ e.clock.now seen)
      (hposition : e.position = .timing) :
      Checks e seen { e with position := .top } (some .tick)
  | stopped (hrx : e.rx = []) (hposition : e.position = .draining) :
      Checks e seen { e with position := .stopped } (some .stop)

theorem next_checks {picked : Option Next} (h : e.next options seen = some (e', picked)) :
    Checks e seen e' picked := by
  have hin : ∀ {position}, e.position = position → position ≠ .stopped → position ≠ .ended →
      e.position ≠ .stopped ∧ e.position ≠ .ended := by
    rintro position rfl hstopped hended
    exact ⟨hstopped, hended⟩
  rw [next] at h
  split at h
  · rename_i hposition
    cases h
    refine Checks.looked _ (hin hposition Position.noConfusion Position.noConfusion) ?_
      (fun hdraining ↦ ?_) fun hwhere ↦ ?_
    · split_ifs
      · exact ⟨Position.noConfusion, Position.noConfusion⟩
      · exact ⟨Position.noConfusion, Position.noConfusion⟩
    · by_contra hstop
      rw [if_neg hstop] at hdraining
      cases hdraining
    · rw [hposition] at hwhere
      rcases hwhere with hwhere | hwhere
      · cases hwhere
      · cases hwhere
  · rename_i hposition
    split at h
    · rename_i s rx hrx
      cases h
      exact Checks.worked s rx hrx (Or.inl hposition)
    · rename_i hrx
      cases h
      exact Checks.stopped hrx hposition
  · rename_i hposition
    split at h
    · rename_i s rx hrx
      cases h
      exact Checks.worked s rx hrx (Or.inr (Or.inl hposition))
    · rename_i hrx
      cases h
      exact Checks.looked _ (hin hposition Position.noConfusion Position.noConfusion)
        ⟨Position.noConfusion, Position.noConfusion⟩ Position.noConfusion fun _ ↦ hrx
  · rename_i hposition
    have hlooked : ∀ position, position ≠ .stopped ∧ position ≠ .ended → position ≠ .draining →
        Checks e seen { e with position := position } none := by
      intro position hloop hdraining
      refine Checks.looked _ (hin hposition Position.noConfusion Position.noConfusion) hloop
        (fun hd ↦ absurd hd hdraining) fun hwhere ↦ ?_
      rw [hposition] at hwhere
      rcases hwhere with hwhere | hwhere
      · cases hwhere
      · cases hwhere
    split at h
    · cases h
      exact hlooked .parked ⟨Position.noConfusion, Position.noConfusion⟩ Position.noConfusion
    · rename_i due hdue
      dsimp only at h
      split_ifs at h with hle hspin
      · cases h
        exact Checks.ticked due hdue hle hposition
      · cases h
        exact hlooked .top ⟨Position.noConfusion, Position.noConfusion⟩ Position.noConfusion
      · cases h
        exact hlooked .parked ⟨Position.noConfusion, Position.noConfusion⟩ Position.noConfusion
  · rename_i hposition
    split at h
    · rename_i s rx hrx
      cases h
      exact Checks.worked s rx hrx (Or.inr (Or.inr hposition))
    · rename_i hrx
      cases h
      exact Checks.looked _ (hin hposition Position.noConfusion Position.noConfusion)
        ⟨Position.noConfusion, Position.noConfusion⟩ Position.noConfusion fun _ ↦ hrx
  · cases h
  · cases h

/-- What taking a command does. -/
structure Takes (e : Engine) (origin : Option Submission) (anchored stamped : Instant) (e' : Engine)
    (a : Applied) : Prop where
  source : a.origin = origin
  cmd : a.record.cmd = origin.elim .tick Submission.cmd
  seq : a.record.seq = e.nextSeq
  ts : a.record.ts = e'.clock.now stamped
  pre : a.transition.pre = e.state
  post : a.transition.post = e'.state
  applied : e.state.step a.record = some (e'.state, a.transition.out)
  next : e.nextSeq.next = some e'.nextSeq
  clock : e'.clock = if a.record.cmd = .open ∧ e.state.status = .pending then
    Clock.resume anchored e.state.now else e.clock
  rest : e'.rx = e.rx ∧ e'.stop = e.stop ∧ e'.position = e.position

theorem take_takes {origin : Option Submission} {a : Applied}
    (h : e.take origin anchored stamped = some (e', a)) : e.Takes origin anchored stamped e' a := by
  obtain ⟨nextSeq, hnext, happly⟩ := Option.bind_eq_some_iff.mp h
  obtain ⟨r, hr, heq⟩ := Option.map_eq_some_iff.mp happly
  cases heq
  exact ⟨rfl, rfl, rfl, rfl, rfl, rfl, hr, hnext, rfl, rfl, rfl, rfl⟩

/-- What one check with the command it picks can come to. -/
inductive Passes (e : Engine) (seen anchored stamped : Instant) : Engine → Option Applied → Prop
  | idle {e' : Engine} {picked : Option Next} (h : Checks e seen e' picked)
      (hnone : picked = none ∨ picked = some .stop) : Passes e seen anchored stamped e' none
  | work {e₁ e' : Engine} {s : Submission} {a : Applied} (h : Checks e seen e₁ (some (.work s)))
      (htakes : e₁.Takes (some s) anchored stamped e' a) :
      Passes e seen anchored stamped e' (some a)
  | tick {e₁ e' : Engine} {a : Applied} (h : Checks e seen e₁ (some .tick))
      (htakes : e₁.Takes none anchored stamped e' a) : Passes e seen anchored stamped e' (some a)

theorem run_passes {out : Option Applied}
    (h : e.run options seen anchored stamped = some (e', out)) :
    Passes e seen anchored stamped e' out := by
  obtain ⟨⟨e₁, picked⟩, hnext, hrest⟩ := Option.bind_eq_some_iff.mp h
  have hchecks := next_checks hnext
  cases picked with
  | none =>
    cases hrest
    exact Passes.idle hchecks (Or.inl rfl)
  | some picked =>
    cases picked with
    | work s =>
      obtain ⟨r, hr, heq⟩ := Option.map_eq_some_iff.mp hrest
      cases heq
      exact Passes.work hchecks (take_takes hr)
    | tick =>
      obtain ⟨r, hr, heq⟩ := Option.map_eq_some_iff.mp hrest
      cases heq
      exact Passes.tick hchecks (take_takes hr)
    | stop =>
      cases hrest
      exact Passes.idle hchecks (Or.inr rfl)

theorem Passes.none_eq (h : Passes e seen anchored stamped e' none) :
    e'.state = e.state ∧ e'.nextSeq = e.nextSeq ∧ e'.rx = e.rx := by
  cases h with
  | idle h hnone =>
    cases h with
    | looked position hin hloop hdraining hempty => exact ⟨rfl, rfl, rfl⟩
    | worked s rx hrx hposition =>
      rcases hnone with hnone | hnone
      · cases hnone
      · cases hnone
    | ticked due hdue hle hposition => exact ⟨rfl, rfl, rfl⟩
    | stopped hrx hposition => exact ⟨rfl, rfl, rfl⟩

/-- What a check that picks a command does. -/
structure Applies (e e' : Engine) (a : Applied) : Prop where
  step : e.state.step a.record = some (e'.state, a.transition.out)
  transition : a.transition = ⟨e.state, a.record, a.transition.out, e'.state⟩
  cmd : a.record.cmd = a.origin.elim .tick Submission.cmd
  seq : a.record.seq = e.nextSeq
  next : e'.nextSeq.val = e.nextSeq.val + 1
  rx : e.rx = a.origin.toList ++ e'.rx

theorem Takes.applies {origin : Option Submission} {a : Applied}
    (h : e.Takes origin anchored stamped e' a) :
    e.state.step a.record = some (e'.state, a.transition.out) ∧
      a.transition = ⟨e.state, a.record, a.transition.out, e'.state⟩ ∧
      e'.nextSeq.val = e.nextSeq.val + 1 := by
  refine ⟨h.applied, ?_, Seq.next_eq_some.mp h.next⟩
  rw [← h.pre, ← h.post]
  rfl

theorem Passes.applies {a : Applied} (h : Passes e seen anchored stamped e' (some a)) :
    e.Applies e' a := by
  cases h with
  | work hchecks htakes =>
    obtain ⟨hstep, htransition, hnext⟩ := htakes.applies
    cases hchecks with
    | worked s rx hrx hposition =>
      refine ⟨hstep, htransition, ?_, htakes.seq, hnext, ?_⟩
      · rw [htakes.cmd, htakes.source]
      · rw [hrx, htakes.source, htakes.rest.1]
        rfl
  | tick hchecks htakes =>
    obtain ⟨hstep, htransition, hnext⟩ := htakes.applies
    cases hchecks with
    | ticked due hdue hle hposition =>
      refine ⟨hstep, htransition, ?_, htakes.seq, hnext, ?_⟩
      · rw [htakes.cmd, htakes.source]
      · rw [htakes.source, htakes.rest.1]
        rfl

/-- The engine thread is out of its loop. -/
def Left (e : Engine) : Prop := e.position = .stopped ∨ e.position = .ended

theorem Checks.rest {picked : Option Next} (h : Checks e seen e' picked) :
    ¬e.Left ∧ e'.stop = e.stop ∧ (e'.position = .draining → e.stop = true) ∧
      (e'.Left → picked = some .stop ∧ e.position = .draining ∧ e'.rx = []) := by
  have htop : ∀ {rx}, ¬Left { e with rx := rx, position := .top } := by
    rintro rx (htop | htop)
    · cases htop
    · cases htop
  have hin : ∀ {position}, e.position = position → position ≠ .stopped → position ≠ .ended →
      ¬e.Left := by
    rintro position rfl hstopped hended (hleft | hleft)
    · exact hstopped hleft
    · exact hended hleft
  cases h with
  | looked position hin hloop hdraining hempty =>
    refine ⟨fun hleft ↦ ?_, rfl, hdraining, fun hleft ↦ ?_⟩
    · rcases hleft with hleft | hleft
      · exact hin.1 hleft
      · exact hin.2 hleft
    · rcases hleft with hleft | hleft
      · exact absurd hleft hloop.1
      · exact absurd hleft hloop.2
  | worked s rx hrx hposition =>
    refine ⟨?_, rfl, Position.noConfusion, fun hleft ↦ absurd hleft htop⟩
    rcases hposition with hposition | hposition | hposition
    · exact hin hposition Position.noConfusion Position.noConfusion
    · exact hin hposition Position.noConfusion Position.noConfusion
    · exact hin hposition Position.noConfusion Position.noConfusion
  | ticked due hdue hle hposition =>
    exact ⟨hin hposition Position.noConfusion Position.noConfusion, rfl, Position.noConfusion,
      fun hleft ↦ absurd hleft htop⟩
  | stopped hrx hposition =>
    exact ⟨hin hposition Position.noConfusion Position.noConfusion, rfl, Position.noConfusion,
      fun _ ↦ ⟨rfl, hposition, hrx⟩⟩

/-- **The engine leaves its loop** only while it drains, and with nothing left in its queue. -/
theorem Passes.rest {out : Option Applied} (h : Passes e seen anchored stamped e' out) :
    ¬e.Left ∧ e'.stop = e.stop ∧ (e'.position = .draining → e.stop = true) ∧
      (e'.Left → out = none ∧ e.position = .draining ∧ e'.rx = []) := by
  have hpicks : ∀ {e₁ : Engine} {next : Next} {a origin}, Checks e seen e₁ (some next) →
      next ≠ .stop → e₁.Takes origin anchored stamped e' a → ¬e.Left ∧ e'.stop = e.stop ∧
        (e'.position = .draining → e.stop = true) ∧
          (e'.Left → out = none ∧ e.position = .draining ∧ e'.rx = []) := by
    intro e₁ next a origin hchecks hnext htakes
    obtain ⟨hrx, hstop, hposition⟩ := htakes.rest
    obtain ⟨hin, hstop₁, hdraining, hleft⟩ := hchecks.rest
    refine ⟨hin, hstop.trans hstop₁, fun hd ↦ hdraining (hposition ▸ hd), fun hl ↦ ?_⟩
    rw [Left, hposition] at hl
    exact absurd (Option.some.inj (hleft hl).1) hnext
  cases h with
  | idle hchecks hnone =>
    obtain ⟨hin, hstop, hdraining, hleft⟩ := hchecks.rest
    exact ⟨hin, hstop, hdraining, fun hl ↦ ⟨rfl, (hleft hl).2⟩⟩
  | work hchecks htakes => exact hpicks hchecks Next.noConfusion htakes
  | tick hchecks htakes => exact hpicks hchecks Next.noConfusion htakes

end Engine

end DutchAuction
