import DutchAuction.Core.Phases
import DutchAuction.Library.Runs

/-!
# Runs of the machine

A log record is one call to `apply`, recorded. A run of the machine from a fresh auction applies
records one after another, in sequence order, with any commands and any timestamps; it remembers the
state before and after each of them and the events each produced.

`step_rule` is the induction step of every safety property: what the stamp, the closing of an
elapsed window and every phase of a handler keep is kept by the whole command.
-/

namespace DutchAuction

/-- A single entry of the log: one call to `apply`, recorded. -/
structure LogRecord where
  seq : Seq
  ts : Nanos
  cmd : Command
deriving DecidableEq

namespace AuctionState

/-- Apply one record. -/
def step (s : AuctionState) (r : LogRecord) : Option (AuctionState × List Event) :=
  s.apply r.seq r.ts r.cmd

theorem step_eq_some {s s' : AuctionState} {r : LogRecord} {o : List Event}
    (h : s.step r = some (s', o)) : s.Accepts r.seq ∧ s.advance r.seq r.ts r.cmd = (s', o) := by
  unfold step apply at h
  split_ifs at h with hseq
  exact ⟨hseq, Option.some.inj h⟩

/-- The state a command's handler finds: stamped, with an elapsed window closed. -/
def entry (s : AuctionState) (r : LogRecord) : AuctionState :=
  ((s.stamp r.seq r.ts).closeElapsedWindow (max r.ts s.now)).1

/-- What a command is answered: the events of its own handler, without those of a window that its
time has closed. -/
def answer (s : AuctionState) (r : LogRecord) : List Event :=
  (handle r.seq (max r.ts s.now) r.cmd
    ((s.stamp r.seq r.ts).closeElapsedWindow (max r.ts s.now)).1).2

theorem step_events {s s' : AuctionState} {r : LogRecord} {o : List Event}
    (h : s.step r = some (s', o)) :
    o = ((s.stamp r.seq r.ts).closeElapsedWindow (max r.ts s.now)).2 ++ s.answer r := by
  obtain ⟨-, hadvance⟩ := step_eq_some h
  exact (congrArg Prod.snd hadvance).symm

theorem step_entry {s s' : AuctionState} {r : LogRecord} {o : List Event}
    (h : s.step r = some (s', o)) : s' = (handle r.seq (max r.ts s.now) r.cmd (s.entry r)).1 := by
  obtain ⟨-, hadvance⟩ := step_eq_some h
  exact (congrArg Prod.fst hadvance).symm

theorem entry_now (s : AuctionState) (r : LogRecord) : (s.entry r).now = max r.ts s.now :=
  (closeElapsedWindow_frame (s.stamp r.seq r.ts) (max r.ts s.now)).2

end AuctionState

/-- One command applied, with the states around it and the events it produced. -/
abbrev Transition := Runs.Transition AuctionState LogRecord (List Event)

/-- The runs of one auction: the transitions taken and the state reached. -/
abbrev Run (config : AuctionConfig) : List Transition → AuctionState → Prop :=
  Runs.Run AuctionState.step (AuctionState.new config)

/-- The run that applies these records to a fresh auction, up to the first that is refused. -/
def play (config : AuctionConfig) (records : List LogRecord) : List Transition × AuctionState :=
  Runs.play AuctionState.step (AuctionState.new config) records

theorem run_play (config : AuctionConfig) (records : List LogRecord) :
    Run config (play config records).1 (play config records).2 :=
  Runs.run_play _ _ _

/-- Commands with their times, as consecutive records. -/
def script (commands : List (Nanos × Command)) : List LogRecord :=
  commands.zipIdx.map fun e ↦ ⟨U64.saturate e.2, e.1.1, e.1.2⟩

/-- Ten units, from 1000 down to 100 by ten a second: the auction of the concrete runs. -/
def AuctionConfig.sample (batchWindow : Nanos) : AuctionConfig where
  auctionId := 0
  totalSupply := U64.lit 10
  schedule := ⟨I64.lit 1000, I64.lit 100, .stepped (U64.lit 1000000000) (I64.lit 10)⟩
  batchWindow := batchWindow
  priceTolerance := U64.lit 10

theorem AuctionConfig.sample_constructed (batchWindow : Nanos) :
    (AuctionConfig.sample batchWindow).schedule.Constructed :=
  Or.inl ⟨I64.lit 1000, I64.lit 100, U64.lit 1000000000, I64.lit 10, rfl⟩

/-- Five units rest at 950 and one at 800. The clock reaches the first at 940, and a take of what is
left at 900 clears the auction and reprices it. -/
def sampleRecords : List LogRecord :=
  script [(0, .open), (0, .setCollateral 1 (I64.lit 100000)),
    (0, .setCollateral 2 (I64.lit 100000)),
    (0, .submitBid 1 101 (U64.lit 5) (.resting (I64.lit 950))),
    (0, .submitBid 2 103 1 (.resting (I64.lit 800))), (U64.lit 6000000000, .tick),
    (U64.lit 10000000000, .submitBid 2 102 (U64.lit 10) (.take (I64.lit 900)))]

/-- Twenty units rest at 950 and five at 940. In a window of ten seconds the clock reaches both. -/
def crowdedRecords : List LogRecord :=
  script [(0, .open), (0, .setCollateral 1 (I64.lit 100000)),
    (0, .setCollateral 2 (I64.lit 100000)),
    (0, .submitBid 1 101 (U64.lit 20) (.resting (I64.lit 950))),
    (0, .submitBid 2 102 (U64.lit 5) (.resting (I64.lit 940))), (U64.lit 6000000000, .tick)]

/-- The window they wait in, with ten units to hand out. -/
def crowdedWindow : OpenWindow where
  index := 0
  price := I64.lit 910
  bids := [⟨U64.lit 3, 1, 101, U64.lit 20, I64.lit 950, I64.lit 950, some (I64.lit 950)⟩,
    ⟨U64.lit 4, 2, 102, U64.lit 5, I64.lit 940, I64.lit 940, some (I64.lit 940)⟩]

/-- **The step rule.** `P` holds between commands and `J` while an elapsed window may still be
open. -/
theorem step_rule {P J : AuctionState → Prop} {Q : Event → Prop} {s s' : AuctionState}
    {r : LogRecord} {o : List Event} (hs : P s) (stamp : P s → J (s.stamp r.seq r.ts))
    (close : ∀ s, J s →
      P (s.closeElapsedWindow s.now).1 ∧ ∀ e ∈ (s.closeElapsedWindow s.now).2, Q e)
    (phase : ∀ s t, P s → s.Phase r.cmd t → P t.1 ∧ ∀ e ∈ t.2, Q e)
    (h : s.step r = some (s', o)) : P s' ∧ ∀ e ∈ o, Q e := by
  obtain ⟨-, hadvance⟩ := AuctionState.step_eq_some h
  obtain ⟨t, hsteps, heq⟩ := s.advance_eq r.seq r.ts r.cmd
  obtain ⟨hP, hQ⟩ := close _ (stamp hs)
  obtain ⟨hP', hQ'⟩ := hsteps.invariant phase hP
  rw [hadvance] at heq
  cases heq
  refine ⟨hP', fun e he ↦ ?_⟩
  rcases List.mem_append.mp he with he | he
  · exact hQ e he
  · exact hQ' e he

theorem step_keeps {P J : AuctionState → Prop} {s s' : AuctionState} {r : LogRecord}
    {o : List Event} (hs : P s) (stamp : P s → J (s.stamp r.seq r.ts))
    (close : ∀ s, J s → P (s.closeElapsedWindow s.now).1)
    (phase : ∀ s t, P s → s.Phase r.cmd t → P t.1) (h : s.step r = some (s', o)) : P s' :=
  (step_rule (Q := fun _ ↦ True) hs stamp (fun s h ↦ ⟨close s h, fun _ _ ↦ trivial⟩)
    (fun s t h h' ↦ ⟨phase s t h h', fun _ _ ↦ trivial⟩) h).1

variable {config : AuctionConfig} {tr : List Transition} {s s' : AuctionState} {r : LogRecord}
  {o : List Event}

theorem step_fixed (h : s.step r = some (s', o)) :
    s'.fixed = (s.config, max r.ts s.now, some r.seq) := by
  obtain ⟨-, hadvance⟩ := AuctionState.step_eq_some h
  obtain ⟨t, hsteps, heq⟩ := s.advance_eq r.seq r.ts r.cmd
  have hkeep := hsteps.keeps (P := fun t ↦ t.fixed = (s.stamp r.seq r.ts).fixed)
    (fun u v hu hv ↦ hv.fixed.trans hu) (AuctionState.closeElapsedWindow_fixed _ _)
  rw [hadvance] at heq
  cases heq
  exact hkeep

theorem step_frame (h : s.step r = some (s', o)) :
    s'.config = s.config ∧ s'.now = max r.ts s.now :=
  ⟨congrArg Prod.fst (step_fixed h), congrArg (fun f ↦ f.2.1) (step_fixed h)⟩

theorem step_lastSeq (h : s.step r = some (s', o)) : s'.lastSeq = some r.seq :=
  congrArg (fun f ↦ f.2.2) (step_fixed h)

theorem run_config (h : Run config tr s) : s.config = config :=
  h.invariant (P := fun s ↦ s.config = config) rfl fun _ _ _ _ hs hstep ↦
    (step_frame hstep).1.trans hs

end DutchAuction
