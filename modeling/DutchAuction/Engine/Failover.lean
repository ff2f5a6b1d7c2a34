import DutchAuction.Engine.Clients

/-!
# Failing over

The primary dies, at any moment. The standby still has records in its queue, and it is stopped: it
applies what it was sent and ends (`Standby.stop`). It never aborts on the way, since what it was
sent is a part of the history that the primary went through.

What it is worth is `takes_over`. The state it ends in is where a log leads that starts with the
records of all earlier lives and goes on with those the primary sent. As long as the primary waits
for its standby, everything that it let out is what the replay of this log says, so nothing that
anyone was told, by this life or by an earlier one, is lost with the primary's disk.
-/

namespace DutchAuction

variable {codec : Codec} {config : AuctionConfig} {options : ThreadOptions} {o : Opened} {l : Lives}
  {p p' : Pipeline}

namespace Standby

/-- The standby's thread, until it ends. -/
def run : ℕ → Standby → Option Standby
  | 0, _ => none
  | fuel + 1, s =>
    match s.position with
    | .ended => some s
    | .following | .confirming _ => s.follow.bind (run fuel)

/-- Stop following once the queue is empty, and wait for the thread. -/
def stop (fuel : ℕ) (s : Standby) : Option Standby := run fuel { s with stopping := true }

/-- The steps that are left. -/
def left (s : Standby) : ℕ :=
  match s.position with
  | .ended => 0
  | .following => 2 * s.queue.length + 1
  | .confirming _ => 2 * s.queue.length + 2

theorem publish_eq (seq : Seq) (s : Standby) : ∃ c, s.publish seq = { s with confirmed := c } := by
  rw [publish]
  split_ifs
  · exact ⟨s.confirmed, rfl⟩
  · exact ⟨some seq, rfl⟩

/-- **A standby that is stopped applies what it was sent**, if that can be applied. -/
theorem run_drains {fuel : ℕ} {s : Standby} {state : AuctionState} (hstopping : s.stopping = true)
    (hposition : s.position ≠ .ended) (hqueue : applyAll s.state s.queue = some state)
    (hfuel : s.left < fuel) :
    ∃ s', s.run fuel = some s' ∧ s'.position = .ended ∧ s'.applied = s.applied ++ s.queue ∧
      s'.state = state := by
  induction fuel generalizing s with
  | zero => exact absurd hfuel (Nat.not_lt_zero _)
  | succ fuel ih =>
    rw [left] at hfuel
    rw [run]
    cases hs : s.position with
    | ended => exact absurd hs hposition
    | confirming seq =>
      obtain ⟨c, hpublish⟩ := s.publish_eq seq
      rw [hs] at hfuel
      dsimp only at hfuel ⊢
      rw [follow, hs]
      dsimp only
      rw [Option.bind_some, hpublish]
      exact ih hstopping (fun h ↦ StandbyPosition.noConfusion h) hqueue
        (by rw [left]; dsimp only; omega)
    | following =>
      rw [hs] at hfuel
      dsimp only at hfuel ⊢
      rw [follow, hs]
      dsimp only
      cases hq : s.queue with
      | nil =>
        -- Nothing is left: the thread ends, and the next look at it sees that.
        rw [hq] at hqueue hfuel
        rw [hstopping, if_pos rfl, Option.bind_some, List.append_nil]
        obtain ⟨fuel, rfl⟩ := Nat.exists_eq_add_one_of_ne_zero (by omega : fuel ≠ 0)
        exact ⟨_, rfl, rfl, rfl, Option.some.inj hqueue⟩
      | cons record queue =>
        rw [hq, applyAll] at hqueue
        rw [hq, List.length_cons] at hfuel
        obtain ⟨next, hnext, hrest⟩ := Option.bind_eq_some_iff.mp hqueue
        dsimp only
        rw [hnext, Option.map_some, Option.bind_some]
        obtain ⟨s', hrun, hended, happlied, hstate⟩ := ih (s := { s with
          queue := queue
          state := next
          position := .confirming record.seq
          applied := s.applied ++ [record] }) hstopping (fun h ↦ StandbyPosition.noConfusion h)
          hrest (by rw [left]; dsimp only; omega)
        refine ⟨s', hrun, hended, ?_, hstate⟩
        rw [happlied, List.append_assoc]
        rfl

end Standby

/-! ## What the standby has when the primary dies

What it was sent is a first part of what the primary applied, and what it was sent and has not
applied is in its queue. -/

/-- As long as it waits, the primary lets out nothing that the standby has not applied. -/
def Pipeline.Awaited (o : Opened) (p : Pipeline) : Prop :=
  p.acks.replicaLost = false → ∀ s ∈ p.standby, ∀ e ∈ p.emitted, o.Within s.applied.length e.seq

theorem AckThread.Steps.replicaLost {mode : ReplicationMode} {watermark : Watermark}
    {standby : Option Standby} {hungUp : Bool} {a a' : AckThread} {out : Option Emission}
    (h : a.Steps mode watermark standby hungUp a' out) (hlost : a'.replicaLost = false) :
    a.replicaLost = false := by
  cases h with
  | lost pending hposition => cases hlost
  | _ => exact hlost

namespace Pipeline

/-- **One step** lets out nothing else. -/
theorem Sound.awaited (h : p.Sound o options.replication) (hmode : options.replication = .sync)
    (hawaited : p.Awaited o) {move : Move} {out : Option Output}
    (hstep : p.step codec options move = some (p', out)) : p'.Awaited o := by
  cases step_steps hstep with
  | replicated a ha =>
    intro hlost s' hs'
    obtain ⟨s, hs, rfl⟩ := Option.map_eq_some_iff.mp hs'
    exact hawaited hlost s hs
  | stoppedStandby =>
    intro hlost s' hs'
    obtain ⟨s, hs, rfl⟩ := Option.map_eq_some_iff.mp hs'
    exact hawaited hlost s hs
  | followed s s' hs hfollow =>
    rintro hlost t ht e he
    obtain rfl := Option.some.inj ht
    have hle := ((h.mirrored s hs).follow h.numbered hfollow).2.length_le
    exact (hawaited hlost s hs e he).mono hle
  | acked timedOut acks e hsteps =>
    intro hlost s hs e' he'
    have hkept := hsteps.replicaLost hlost
    rcases List.mem_append.mp he' with he' | he'
    · exact hawaited hkept s hs e' he'
    · obtain rfl := Option.mem_toList.mp he'
      exact (h.of_emitted hstep).2 hmode hkept s hs
  | _ => exact hawaited

/-- What a standby is worth once the primary is dead and it has ended. -/
structure TakesOver (config : AuctionConfig) (mode : ReplicationMode) (base : List LogRecord)
    (told : List Emission) (p : Pipeline) (s s' : Standby) : Prop where
  ended : s'.position = .ended
  /-- It has applied the first of the primary's records, and is where the log leads that starts
  with those of the earlier lives. -/
  records : s'.applied <+: p.records
  state : fullReplay config (base ++ s'.applied) = some s'.state
  /-- All that it was sent is in it, unless its thread had ended before. -/
  sent : s.position ≠ .ended → p.records = s'.applied ++ p.handing.unsent
  /-- A primary that has waited for it has told nothing else. -/
  told : mode = .sync → p.acks.replicaLost = false → Told config (base ++ s'.applied) told

/-- **The standby takes over.** In any life, at any moment, the primary may die: its standby, once
stopped, ends without aborting, in the state of a log that starts with what earlier lives have left;
and if the primary has waited for it, the replay of this log says everything that was ever told. -/
theorem takes_over (hc : codec.Lawful)
    {tr : List (Runs.Transition Lives Lives.Move (Option Output))}
    (hlives : Lives.Run codec config options tr l) (hcalm : ∀ t ∈ tr, Lives.Calm t) {dir : Dir}
    (hdown : l.phase = .down dir) {segmentBytes : U64}
    (hopen : openInner codec config segmentBytes dir = some (.ok o)) {replicated : Bool}
    {instant : Instant} {tr' : List (Runs.Transition Pipeline Move (Option Output))}
    (hrun : Run codec options o replicated instant tr' p) {s : Standby}
    (hs : p.standby = some s) {fuel : ℕ} (hfuel : 2 * s.queue.length + 2 < fuel) :
    ∃ base s', codec.readAll dir = .ok base ∧ s.stop fuel = some s' ∧
      p.TakesOver config options.replication base (l.told ++ p.emitted) s s' := by
  obtain ⟨⟨appended, synced, hl⟩, -⟩ := Lives.run_sound hc hlives hcalm
  obtain ⟨o', base, hopen', hread, hsynced, -, hbase, hnext, haligned, -⟩ :=
    hl.opens hc hdown segmentBytes
  obtain rfl : o = o' := Except.ok.inj (Option.some.inj (hopen.symm.trans hopen'))
  obtain ⟨hsound, hawaited⟩ : p.Sound o options.replication ∧
      (options.replication = .sync → p.Awaited o) :=
    hrun.invariant (P := fun p ↦ p.Sound o options.replication ∧
        (options.replication = .sync → p.Awaited o))
      ⟨start_sound haligned replicated instant, fun _ _ _ _ e he ↦ absurd he List.not_mem_nil⟩
      fun _ _ _ _ h hstep ↦ ⟨h.1.step hstep, fun hmode ↦ h.1.awaited hmode (h.2 hmode) hstep⟩
  have hmirrors := hsound.mirrored s hs
  have htold : Told config base l.told := by
    rw [Lives.told, hdown]
    exact (hl.down dir hdown).mono hsynced
  -- Whatever it ends with, if that is of the records and at least what it has now.
  have htakes : ∀ s' : Standby, s'.position = .ended → s.applied <+: s'.applied →
      s'.applied <+: p.records → applyAll o.state s'.applied = some s'.state →
      (s.position ≠ .ended → p.records = s'.applied ++ p.handing.unsent) →
      p.TakesOver config options.replication base (l.told ++ p.emitted) s s' := by
    intro s' hended hmore hfront hstate hsent
    refine ⟨hended, hfront, ?_, hsent, fun hmode hlost ↦ ?_⟩
    · rw [fullReplay_append, hbase, Option.bind_some, hstate]
    · rw [List.prefix_iff_eq_take.mp hfront]
      exact hsound.told_take hbase
        (fun e he ↦ (hawaited hmode hlost s hs e he).mono hmore.length_le) htold
  refine ⟨base, ?_⟩
  by_cases hended : s.position = .ended
  · refine ⟨{ s with stopping := true }, hread, ?_, htakes _ hended List.prefix_rfl
      ⟨_, hmirrors.records.symm⟩ hmirrors.state fun h ↦ absurd hended h⟩
    obtain ⟨fuel, rfl⟩ := Nat.exists_eq_add_one_of_ne_zero (by omega : fuel ≠ 0)
    rw [Standby.stop, Standby.run]
    dsimp only
    rw [hended]
  · -- What is in its queue could be applied, as the primary has done it.
    have hall := run_applyAll hsound.history
    have hrecords := hmirrors.records
    rw [← List.append_assoc] at hrecords
    rw [List.map_map] at hall
    have hall : applyAll o.state p.records = some p.engine.state := hall
    rw [hrecords, applyAll_append, applyAll_append, hmirrors.state, Option.bind_some] at hall
    obtain ⟨state, hqueue, -⟩ := Option.bind_eq_some_iff.mp hall
    have hleft : s.left ≤ 2 * s.queue.length + 2 := by
      rw [Standby.left]
      split <;> omega
    obtain ⟨s', hrun', hended', happlied, hstate⟩ :=
      Standby.run_drains (s := { s with stopping := true }) rfl hended hqueue
        (hleft.trans_lt hfuel)
    refine ⟨s', hread, hrun', htakes s' hended' ?_ ?_ ?_ fun _ ↦ ?_⟩
    · rw [happlied]
      exact List.prefix_append _ _
    · rw [happlied, hrecords]
      exact List.prefix_append _ _
    · rw [happlied, hstate, applyAll_append]
      show (applyAll o.state s.applied).bind _ = _
      rw [hmirrors.state, Option.bind_some]
      exact hqueue
    · rw [happlied]
      exact hrecords

/-- The primary has opened the auction, with an answer, and dies while the standby still has the
cancellation in its queue. -/
def sampleDeath : List (Runs.Transition Pipeline Move (Option Output)) × Pipeline :=
  Runs.play (step Bincode.codec ⟨4, ⟨4, 4⟩, 0, .sync⟩) (start sampleOpened true 0)
    [.submit ⟨.open, some 0⟩, .engine 0 0 0, .engine 0 0 0, .hand, .hand, .hand, .acks false,
      .standby, .standby, .commit .poll, .commit .lapse, .commit (.write none),
      .commit (.write none), .commit .publish, .acks false, .acks false, .acks false, .acks false,
      .acks false, .submit ⟨.cancel, none⟩, .engine 0 0 0, .engine 0 0 0, .hand]

theorem takes_over_sample :
    ∃ s, sampleDeath.2.standby = some s ∧ s.applied.length = 1 ∧ s.queue.length = 1 ∧
      sampleDeath.2.emitted.length = 3 ∧ sampleDeath.2.acks.replicaLost = false ∧
      ∃ base s', Bincode.codec.readAll Dir.empty = .ok base ∧ s.stop 5 = some s' ∧
        sampleDeath.2.TakesOver (.sample 0) .sync base ([] ++ sampleDeath.2.emitted) s s' := by
  have hopen : openInner Bincode.codec (.sample 0) 4096 Dir.empty = some (.ok sampleOpened) := rfl
  have hrun : Run Bincode.codec ⟨4, ⟨4, 4⟩, 0, .sync⟩ sampleOpened true 0 sampleDeath.1
      sampleDeath.2 := Runs.run_play _ _ _
  exact ⟨_, rfl, rfl, rfl, rfl, rfl, takes_over Bincode.lawful Runs.Run.nil
    (fun t ht ↦ absurd ht List.not_mem_nil) rfl hopen hrun rfl (by decide)⟩

end Pipeline

end DutchAuction
