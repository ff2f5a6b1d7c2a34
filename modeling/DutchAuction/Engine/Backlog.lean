import DutchAuction.Engine.Lives
import DutchAuction.Engine.Shutdown
import DutchAuction.Wal.Backlog

/-!
# What a crash can lose

The engine applies a command before it is on disk. While the queue of the commit thread is full it
waits, with one command in hand; so it is never further ahead of the disk than the queue, one batch
and that command (`backlog_bounded`), however the threads interleave and whichever write fails. This
needs the stop to come from the shutdown only: behind a stop the writer takes all it is sent.

A crash loses none of what is synced, so it loses no more than that of what the process had applied
(`crash_loses_at_most`).
-/

namespace DutchAuction

/-- How many commands the engine can be ahead of the disk. -/
def ThreadOptions.backlog (options : ThreadOptions) : ℕ := options.wal.slots + options.wal.batch + 1

/-- The engine is about to pass something on. -/
def Handing.Busy : Handing → Prop
  | .replicating _ | .logging _ | .answering _ => True
  | .nothing | .unlogged _ | .unanswered _ => False

theorem Handing.length_unsubmitted_le (handing : Handing) : handing.unsubmitted.length ≤ 1 := by
  cases handing with
  | nothing => exact Nat.zero_le _
  | replicating a => exact le_rfl
  | logging a => exact le_rfl
  | answering a => exact Nat.zero_le _
  | unlogged a => exact le_rfl
  | unanswered a => exact Nat.zero_le _

theorem Shutdown.engineJoined_of_stopSent {s : Shutdown} (h : s.stopSent = true) :
    s.EngineJoined := by
  cases s with
  | running => cases h
  | joiningEngine => cases h
  | stoppingLog => trivial
  | joiningLog => trivial
  | joiningAcks => trivial
  | returned => trivial

namespace Pipeline

variable {codec : Codec} {options : ThreadOptions} {o : Opened} {p p' : Pipeline} {move : Move}
  {out : Option Output}

/-- A stop reaches the commit thread from outside the shutdown. -/
def Move.strays : Move → Bool
  | .stopCommit => true
  | _ => false

/-- What holds besides, as long as nobody but the shutdown stops the commit thread: an engine that
has left its loop passes nothing on, and it has left once it was waited for. -/
structure Backed (options : ThreadOptions) (p : Pipeline) : Prop where
  commit : p.commit.Backed options.wal p.shutdown.stopSent
  left : p.engine.Left → ¬p.handing.Busy
  joined : p.shutdown.EngineJoined → p.engine.Left

theorem start_backed (o : Opened) (replicated : Bool) (instant : Instant) :
    (start o replicated instant).Backed options where
  commit := CommitThread.spawn_backed o.wal o.dir
  left _ := id
  joined h := h.elim

namespace Backed

variable (h : p.Backed options)
include h

theorem stopSent (hin : ¬p.engine.Left) : p.shutdown.stopSent = false := by
  by_contra hsent
  exact hin (h.joined (Shutdown.engineJoined_of_stopSent (Bool.eq_true_of_not_eq_false hsent)))

/-- **A shutdown that goes on**, with the engine and the commit thread where they are. -/
theorem shut {shutdown : Shutdown} (hsent : shutdown.stopSent = p.shutdown.stopSent)
    (hjoined : shutdown.EngineJoined → p.engine.Left) : Backed options { p with
      shutdown := shutdown } where
  commit := by
    show p.commit.Backed options.wal shutdown.stopSent
    rw [hsent]
    exact h.commit
  left := h.left
  joined := hjoined

/-- **Every step** keeps it. -/
theorem step (hs : p.Sound o options.replication)
    (hstep : Pipeline.step codec options p move = some (p', out)) (hmove : move.strays = false) :
    p'.Backed options := by
  cases step_steps hstep with
  | accepted s engine hsubmit =>
    rw [Engine.submit] at hsubmit
    split_ifs at hsubmit
    obtain rfl := Except.ok.inj hsubmit
    exact { h with }
  | shed s why hsubmit => exact h
  | looked seen anchored stamped engine hnothing hpasses =>
    exact
      { h with
        left := fun _ ↦ by rw [hnothing]; exact id
        joined := fun hj ↦ absurd (h.joined hj) hpasses.rest.1 }
  | applied seen anchored stamped engine a hnothing hpasses =>
    obtain ⟨hin, -, -, hleft⟩ := hpasses.rest
    exact
      { h with
        left := fun hl ↦ absurd (hleft hl).1 (Option.some_ne_none a)
        joined := fun hj ↦ absurd (h.joined hj) hin }
  | replicated a ha =>
    exact { h with left := fun hl ↦ absurd (by rw [ha]; trivial) (h.left hl) }
  | logged a commit ha hsend =>
    have hin : ¬p.engine.Left := fun hl ↦ h.left hl (by rw [ha]; trivial)
    have hsent := h.stopSent hin
    refine { h with commit := ?_, left := fun hl ↦ absurd hl hin }
    show commit.Backed options.wal p.shutdown.stopSent
    rw [hsent]
    exact (hsent ▸ h.commit).send_record hsend
  | unlogged a ha hended => exact { h with left := fun _ ↦ id, joined := fun _ ↦ Or.inl rfl }
  | answered a ha hopen => exact { h with left := fun _ ↦ id }
  | unanswered a ha hended => exact { h with left := fun _ ↦ id, joined := fun _ ↦ Or.inl rfl }
  | left hposition =>
    exact { h with left := fun _ ↦ h.left (Or.inl hposition), joined := fun _ ↦ Or.inr rfl }
  | committed move commit hadvance =>
    exact { h with
      commit := h.commit.advance hs.commit (CommitThread.advance_advances hadvance) }
  | acked timedOut acks e hsteps => exact { h with }
  | followed s s' hs hfollow => exact { h with }
  | stoppedStandby => exact { h with }
  | stoppedCommit commit sent hsend => cases hmove
  | flagged hshutdown =>
    exact
      { h with
        commit := (hshutdown ▸ h.commit : p.commit.Backed options.wal Shutdown.running.stopSent)
        joined := False.elim }
  | joinedEngine hshutdown hended =>
    exact h.shut (by rw [hshutdown]; rfl) fun _ ↦ Or.inr hended
  | stoppedLog commit sent hshutdown hsend =>
    have hcommit : p.commit.Backed options.wal Shutdown.stoppingLog.stopSent := hshutdown ▸ h.commit
    exact
      { h with
        commit := CommitThread.Backed.send_stop hcommit hsend
        joined := fun _ ↦ h.joined (hshutdown ▸ trivial) }
  | joinedLog hshutdown hended =>
    exact h.shut (by rw [hshutdown]; rfl) fun _ ↦ h.joined (hshutdown ▸ trivial)
  | joinedAcks hshutdown hended =>
    exact h.shut (by rw [hshutdown]; rfl) fun _ ↦ h.joined (hshutdown ▸ trivial)

theorem backlog {mode : ReplicationMode} (hs : p.Sound o mode) :
    p.applied.length ≤ p.commit.synced.length + options.backlog := by
  have hsubmitted := h.commit.backlog hs.commit
  have hinHand := p.handing.length_unsubmitted_le
  have hrecords := congrArg List.length hs.submitted
  rw [records, List.length_map, List.length_append] at hrecords
  rw [ThreadOptions.backlog]
  omega

end Backed

/-- **The engine is never further ahead of the disk** than the queue, one batch and one command, in
any interleaving and with writes that fail. -/
theorem backlog_bounded {config : AuctionConfig} {segmentBytes : U64} {dir : Dir}
    {replicated : Bool} {instant : Instant}
    {tr : List (Runs.Transition Pipeline Move (Option Output))}
    (hopen : openInner codec config segmentBytes dir = some (.ok o))
    (hmanifest : dir.manifest = none → dir.segments = [])
    (hrun : Run codec options o replicated instant tr p)
    (hstop : ∀ t ∈ tr, t.input.strays = false) :
    p.applied.length ≤ p.commit.synced.length + options.backlog := by
  obtain ⟨hsound, hbacked⟩ := hrun.invariant_of
    (P := fun p ↦ p.Sound o options.replication ∧ p.Backed options)
    (C := fun t ↦ t.input.strays = false)
    ⟨start_sound (openInner_aligned hopen hmanifest) replicated instant,
      start_backed o replicated instant⟩
    (fun _ _ _ _ h hstep hmove ↦ ⟨h.1.step hstep, h.2.step h.1 hstep hmove⟩) hstop
  exact hbacked.backlog hsound

/-- A record is submitted while the writer lingers, and the next is in hand. -/
def waitingPlay : List (Runs.Transition Pipeline Move (Option Output)) × Pipeline :=
  Runs.play (step Bincode.codec ⟨4, ⟨1, 1⟩, 0, .async⟩) (start sampleOpened false 0)
    [.submit ⟨.open, none⟩, .engine 0 0 0, .engine 0 0 0, .hand, .hand, .hand, .commit .poll,
      .submit ⟨.tick, none⟩, .engine 0 0 0, .engine 0 0 0, .hand, .hand, .hand,
      .submit ⟨.tick, none⟩, .engine 0 0 0, .engine 0 0 0, .hand]

/-- With a queue and a batch of one record each, three commands are ahead of the disk. -/
theorem backlog_bounded_sample :
    waitingPlay.2.applied.length = 3 ∧ waitingPlay.2.commit.synced.length = 0 ∧
      waitingPlay.2.applied.length ≤ waitingPlay.2.commit.synced.length +
        ThreadOptions.backlog ⟨4, ⟨1, 1⟩, 0, .async⟩ := by
  have hopen : openInner Bincode.codec (.sample 0) 4096 Dir.empty = some (.ok sampleOpened) := rfl
  exact ⟨rfl, rfl, backlog_bounded hopen (fun _ ↦ rfl) (Runs.run_play _ _ _) (by decide)⟩

end Pipeline

/-! ## A crash

A life is a pipeline on the log that it was opened on. What of its records is synced when it dies
is read back, and the rest is no more than its backlog. -/

namespace Lives

variable {codec : Codec} {config : AuctionConfig} {options : ThreadOptions} {l l' : Lives}
  {appended synced : List LogRecord}

/-- What is left in the directory of what a process had applied: a first part of its log, which
lacks at most `n` of its commands. -/
def LosesAtMost (codec : Codec) (config : AuctionConfig) (n : ℕ) (p : Pipeline) (dir : Dir) :
    Prop :=
  ∃ base records, fullReplay config (base ++ p.records) = some p.engine.state ∧
    codec.readAll dir = .ok records ∧ records <+: base ++ p.records ∧
      p.applied.length ≤ (records.length - base.length) + n

/-- A stop reaches the commit thread from outside the shutdown. -/
def Move.strays : Move → Bool
  | .live move => move.strays
  | _ => false

theorem backed_step (h : l.Sound codec config options.replication appended synced)
    (hbacked : ∀ p, l.phase = .up p → p.Backed options) {move : Move} {out : Option Pipeline.Output}
    (hstep : l.step codec config options move = some (l', out))
    (hmove : move.strays = false) : ∀ p, l'.phase = .up p → p.Backed options := by
  intro q hq
  cases move with
  | «open» segmentBytes replicated instant =>
    rw [step] at hstep
    split at hstep
    · cases hstep
    · split at hstep
      · cases hstep
        cases hq
        exact Pipeline.start_backed _ replicated instant
      · cases hstep
  | live move =>
    rw [step] at hstep
    split at hstep
    · cases hstep
    · rename_i p hphase
      obtain ⟨⟨p', out'⟩, hmoved, heq⟩ := Option.map_eq_some_iff.mp hstep
      cases heq
      cases hq
      obtain ⟨base, hlively⟩ := h.up p hphase
      obtain ⟨o, hp, -⟩ := hlively.sound
      exact (hbacked p hphase).step hp hmoved hmove
  | save k n =>
    rw [step] at hstep
    split at hstep
    · cases hstep
    · rename_i p hphase
      obtain ⟨a, -, heq⟩ := Option.map_eq_some_iff.mp hstep
      cases heq
      cases hq
      have hcommit := (hbacked p hphase).commit
      exact { hbacked p hphase with
        commit := ⟨hcommit.hungUp, hcommit.queue, hcommit.stop, hcommit.room⟩ }
  | crash len =>
    rw [step] at hstep
    split_ifs at hstep
    cases hstep
    cases hq

/-- **What is synced survives.** -/
theorem Lively.losesAtMost {p : Pipeline} {base : List LogRecord} {before : List Emission}
    (h : Lively config options.replication p base appended synced before)
    (hbacked : p.Backed options) {dir : Dir} {records : List LogRecord}
    (hread : codec.readAll dir = .ok records) (hsynced : synced <+: records)
    (hfront : records <+: appended) : LosesAtMost codec config options.backlog p dir := by
  obtain ⟨o, hp, hbase, -⟩ := h.sound
  have happended : p.commit.appended <+: p.records :=
    hp.commit.appended_prefix.trans ⟨_, hp.submitted.symm⟩
  have hbacklog := hbacked.backlog hp
  refine ⟨base, records, ?_, hread, ?_, ?_⟩
  · rw [fullReplay_append, hbase, Option.bind_some]
    have hall := run_applyAll hp.history
    rw [List.map_map] at hall
    exact hall
  · rw [h.appended] at hfront
    exact hfront.trans ((List.prefix_append_right_inj base).mpr happended)
  · cases h.covers with
    | fresh hnone _ _ =>
      rw [hnone] at hbacklog
      exact hbacklog.trans (by rw [List.length_nil]; omega)
    | own hown _ =>
      have hlength := hsynced.length_le
      rw [hown, List.length_append] at hlength
      omega

/-- **A crash loses at most the backlog**: whenever a process dies, what the next one reads is a
first part of what this one had applied, and lacks no more of it than the queue, one batch and one
command. -/
theorem crash_loses_at_most (hc : codec.Lawful)
    {tr : List (Runs.Transition Lives Move (Option Pipeline.Output))}
    (hrun : Run codec config options tr l) (hcalm : ∀ t ∈ tr, Calm t)
    (hstop : ∀ t ∈ tr, t.input.strays = false) :
    ∀ t ∈ tr, ∀ len p, t.input = .crash len → t.pre.phase = .up p →
      LosesAtMost codec config options.backlog p t.post.dir := by
  intro t ht len p hcrash hphase
  obtain ⟨⟨tr', hfront, hrun'⟩, hstep⟩ := hrun.split ht
  obtain ⟨⟨appended, synced, hsound⟩, hbacked⟩ := hrun'.invariant_of
    (P := fun l : Lives ↦ (∃ appended synced,
      l.Sound codec config options.replication appended synced) ∧
        ∀ p, l.phase = .up p → p.Backed options)
    (C := fun t ↦ Calm t ∧ t.input.strays = false)
    ⟨⟨[], [], new_sound codec config options.replication⟩, fun _ h ↦ Phase.noConfusion h⟩
    (fun _ _ _ _ h hstep hC ↦ by
      obtain ⟨⟨appended, synced, hs⟩, hbacked⟩ := h
      exact ⟨hs.step hc hstep hC.1.1 hC.1.2, backed_step hs hbacked hstep hC.2⟩)
    (fun t' ht' ↦ ⟨hcalm t' (hfront.subset ht'), hstop t' (hfront.subset ht')⟩)
  have hfew := (hcalm t ht).2
  rw [hcrash, step] at hstep
  split_ifs at hstep with hlen
  obtain ⟨hpost, -⟩ := Prod.mk.inj (Option.some.inj hstep)
  rw [← hpost] at hfew ⊢
  obtain ⟨base, hlively⟩ := hsound.up p hphase
  obtain ⟨-, records, -, hread, hsynced, hfront, -⟩ := (hsound.crash hc hlen hfew).opens hc rfl 0
  exact hlively.losesAtMost (hbacked p hphase) hread hsynced hfront

theorem crash_loses_at_most_sample :
    let played := Runs.play (step Bincode.codec (.sample 0) ⟨4, ⟨4, 4⟩, 0, .async⟩) new sampleMoves
    played.1.length = 24 ∧ ∀ t ∈ played.1, ∀ len p, t.input = .crash len → t.pre.phase = .up p →
      LosesAtMost Bincode.codec (.sample 0) 9 p t.post.dir :=
  ⟨by decide +kernel, crash_loses_at_most Bincode.lawful (Runs.run_play _ _ _) (by decide +kernel)
    (by decide +kernel)⟩

end Lives

end DutchAuction
