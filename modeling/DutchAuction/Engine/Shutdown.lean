import DutchAuction.Engine.Pipeline

/-!
# Every submission meets one fate

As long as no write fails, the commit thread stops for the shutdown only. Until its stop arrives it
takes every record it is given, and behind the stop nothing is sent any more, for by then the engine
has ended (`CommitThread.Orderly`). So the engine is never refused by the log or by the ack thread,
it leaves its loop only once it has drained its queue, no wait for the log fails, and the ack thread
ends only with nothing left (`Pipeline.Orderly`).

Whatever the door had let in when the stop flag was set has then been applied, synced and answered
when the shutdown returns; what it let in later has been too, or was never taken.
-/

namespace DutchAuction

/-! ## The commit thread without failures

It takes what is sent until its stop arrives, and behind the stop nothing was sent. -/

/-- The batch in hand is not the last, and the writer will receive again. -/
def After.Last : After → Prop
  | .receive => False
  | .drain | .close => True

/-- The writer has taken a stop. -/
def Writer.Stopping : Writer → Prop
  | .receiving _ | .gathering _ _ => False
  | .writing _ _ after | .publishing _ _ after => after.Last
  | .draining _ _ | .closing _ | .returning | .ended => True

namespace CommitThread

variable {codec : Codec} {options : WalOptions} {c c' : CommitThread} {stopped : Bool}

/-- No write has failed, and a stop is in the channel once it was sent, behind all records, until
the writer takes it. -/
structure Orderly (stopped : Bool) (c : CommitThread) : Prop where
  hungUp : c.hungUp = false
  closing : ∀ e, c.writer ≠ .closing (.failed e)
  mark : ∀ d e, c.watermark ≠ .closed d (.failed e)
  serving : ¬c.writer.Stopping → ∃ records : List LogRecord,
    c.queue = records.map Msg.record ++ (if stopped then [Msg.stop] else [])
  stopping : c.writer.Stopping → stopped = true ∧ c.queue = []

theorem spawn_orderly (wal : Wal) (dir : Dir) : (spawn wal dir).Orderly false where
  hungUp := rfl
  closing _ := Writer.noConfusion
  mark _ _ := Watermark.noConfusion
  serving _ := ⟨[], rfl⟩
  stopping h := h.elim

/-- **The next record** of a numbered sequence is always accepted. -/
theorem Sound.append_ok (h : c.Sound) (hcodec : codec.Lawful) {n : ℕ}
    (hheld : ∀ d ∈ c.held, d.val + 1 = n) (hnum : NumberedFrom n c.submitted) {wal : Wal}
    {r : LogRecord} {rest : List LogRecord} {after : After}
    (hw : c.writer = .writing wal (r :: rest) after) :
    ∃ wal' dir, wal.append codec c.dir r = .ok (wal', dir) := by
  have hstage := h.stage
  simp only [Stage, hw] at hstage
  obtain ⟨hwrites, -⟩ := hstage
  rw [hwrites.order, NumberedFrom.append] at hnum
  have hnext : ∀ prev ∈ wal.appended, prev.next = some r.seq := by
    intro prev hprev
    rw [hwrites.appended, last] at hprev
    refine Seq.next_eq_some.mpr ?_
    rw [hnum.2.1]
    cases hlast : c.appended.getLast? with
    | some last =>
      rw [hlast] at hprev
      obtain rfl := Option.some.inj hprev
      exact (hnum.1.getLast? hlast).symm
    | none =>
      rw [hlast] at hprev
      rw [List.getLast?_eq_none_iff.mp hlast]
      exact (hheld prev hprev).symm
  rw [Wal.append_eq_put hnext, Wal.append.put, hcodec.encode_eq]
  exact ⟨_, _, rfl⟩

/-- **A record** is taken as long as no stop was sent. -/
theorem Orderly.send_record (h : c.Orderly false) {r : LogRecord} {sent : Bool}
    (hsend : c.send options (.record r) = some (c', sent)) : sent = true ∧ c'.Orderly false := by
  have hrunning : ¬c.writer.Stopping := fun hstopping ↦ Bool.noConfusion (h.stopping hstopping).1
  obtain ⟨rfl, -, rfl⟩ | ⟨-, hended, -⟩ := send_cases hsend
  · obtain ⟨records, hqueue⟩ := h.serving hrunning
    refine ⟨rfl, h.hungUp, h.closing, h.mark, fun _ ↦ ⟨records ++ [r], ?_⟩,
      fun hs ↦ absurd hs hrunning⟩
    rw [hqueue, List.map_append, List.append_assoc, List.append_assoc]
    rfl
  · refine absurd ?_ hrunning
    rw [hended]
    trivial

theorem Orderly.send_stop (h : c.Orderly false) {sent : Bool}
    (hsend : c.send options .stop = some (c', sent)) : c'.Orderly true := by
  have hrunning : ¬c.writer.Stopping := fun hstopping ↦ Bool.noConfusion (h.stopping hstopping).1
  obtain ⟨-, -, rfl⟩ | ⟨-, hended, -⟩ := send_cases hsend
  · obtain ⟨records, hqueue⟩ := h.serving hrunning
    refine ⟨h.hungUp, h.closing, h.mark, fun _ ↦ ⟨records, ?_⟩, fun hs ↦ absurd hs hrunning⟩
    rw [hqueue]
    exact congrArg (· ++ [Msg.stop]) (List.append_nil _)
  · refine absurd ?_ hrunning
    rw [hended]
    trivial

theorem Orderly.queue_record (h : c.Orderly stopped) (hrunning : ¬c.writer.Stopping) {r : LogRecord}
    {queue : List Msg} (hqueue : c.queue = .record r :: queue) :
    ∃ records : List LogRecord,
      queue = records.map Msg.record ++ (if stopped then [Msg.stop] else []) := by
  obtain ⟨records, hall⟩ := h.serving hrunning
  rw [hqueue] at hall
  cases records with
  | nil =>
    cases stopped with
    | true => cases (List.cons.inj hall).1
    | false => cases hall
  | cons r' records => exact ⟨records, (List.cons.inj hall).2⟩

theorem Orderly.queue_stop (h : c.Orderly stopped) (hrunning : ¬c.writer.Stopping)
    {queue : List Msg}
    (hqueue : c.queue = .stop :: queue) : stopped = true ∧ queue = [] := by
  obtain ⟨records, hall⟩ := h.serving hrunning
  rw [hqueue] at hall
  cases records with
  | nil =>
    cases stopped with
    | true => exact ⟨rfl, (List.cons.inj hall).2⟩
    | false => cases hall
  | cons r' records => cases (List.cons.inj hall).1

theorem Orderly.stays (h : c.Orderly stopped) (hstopping : c.writer.Stopping) {w : Writer}
    (hw : w.Stopping) (hclosing : ∀ e, w ≠ .closing (.failed e)) {watermark : Watermark}
    (hmark : ∀ d e, watermark ≠ .closed d (.failed e)) :
    Orderly stopped { c with writer := w, watermark := watermark } :=
  ⟨h.hungUp, hclosing, hmark, fun hs ↦ absurd hw hs, fun _ ↦ h.stopping hstopping⟩

/-- **Every step of the writer**, unless it is a failed write. -/
theorem Orderly.advance (h : c.Orderly stopped)
    (happend : ∀ wal r rest after, c.writer = .writing wal (r :: rest) after →
      ∃ wal' dir, wal.append codec c.dir r = .ok (wal', dir))
    {move : Move} (hcalm : ∀ fault, move ≠ .write (some fault))
    (hadvance : c.advance codec options move = some c') : c'.Orderly stopped := by
  have hhung : c.hungUp ≠ true := by
    rw [h.hungUp]
    exact Bool.noConfusion
  cases move with
  | poll =>
    rw [CommitThread.advance, poll] at hadvance
    split at hadvance
    · rename_i wal r queue hw hqueue
      cases hadvance
      have hrunning : ¬c.writer.Stopping := by
        rw [hw]
        exact id
      exact ⟨h.hungUp, fun _ ↦ Writer.noConfusion, h.mark,
        fun _ ↦ h.queue_record hrunning hqueue, False.elim⟩
    · rename_i wal queue hw hqueue
      cases hadvance
      have hrunning : ¬c.writer.Stopping := by
        rw [hw]
        exact id
      exact ⟨h.hungUp, fun _ ↦ Writer.noConfusion, h.mark, fun hs ↦ absurd trivial hs,
        fun _ ↦ h.queue_stop hrunning hqueue⟩
    · rw [if_neg hhung] at hadvance
      cases hadvance
    · rename_i wal batch hw
      have hrunning : ¬c.writer.Stopping := by
        rw [hw]
        exact id
      by_cases hroom : batch.length < options.maxBatch
      · rw [if_pos hroom] at hadvance
        split at hadvance
        · rename_i r queue hqueue
          cases hadvance
          exact ⟨h.hungUp, fun _ ↦ Writer.noConfusion, h.mark,
            fun _ ↦ h.queue_record hrunning hqueue, False.elim⟩
        · rename_i queue hqueue
          cases hadvance
          exact ⟨h.hungUp, fun _ ↦ Writer.noConfusion, h.mark, fun hs ↦ absurd trivial hs,
            fun _ ↦ h.queue_stop hrunning hqueue⟩
        · rw [if_neg hhung] at hadvance
          cases hadvance
      · rw [if_neg hroom] at hadvance
        cases hadvance
        exact ⟨h.hungUp, fun _ ↦ Writer.noConfusion, h.mark, fun _ ↦ h.serving hrunning, False.elim⟩
    · -- Behind a stop the channel is empty.
      rename_i wal leftovers r queue hw hqueue
      have hstopping : c.writer.Stopping := by
        rw [hw]
        trivial
      cases hqueue.symm.trans (h.stopping hstopping).2
    · rename_i wal leftovers queue hw hqueue
      have hstopping : c.writer.Stopping := by
        rw [hw]
        trivial
      cases hqueue.symm.trans (h.stopping hstopping).2
    · rename_i wal hw hqueue
      cases hadvance
      have hstopping : c.writer.Stopping := by
        rw [hw]
        trivial
      exact h.stays hstopping (by trivial) (fun e he ↦ by cases he) h.mark
    · rename_i wal leftovers hne hw hqueue
      cases hadvance
      have hstopping : c.writer.Stopping := by
        rw [hw]
        trivial
      exact h.stays hstopping (by trivial) (fun _ ↦ Writer.noConfusion) h.mark
    · cases hadvance
  | lapse =>
    rw [CommitThread.advance, lapse] at hadvance
    split at hadvance
    · rename_i wal batch hw hqueue
      cases hadvance
      have hrunning : ¬c.writer.Stopping := by
        rw [hw]
        exact id
      exact ⟨h.hungUp, fun _ ↦ Writer.noConfusion, h.mark, fun _ ↦ h.serving hrunning, False.elim⟩
    · cases hadvance
  | write fault =>
    rw [CommitThread.advance, write] at hadvance
    split at hadvance
    · rename_i wal rest after hw
      have hsame : ∀ w : Writer, w.Stopping = after.Last → (∀ e, w ≠ .closing (.failed e)) →
          ∀ dir appended synced, Orderly stopped { c with
            dir := dir, appended := appended, synced := synced, writer := w } := by
        intro w hlast hclosing dir appended synced
        refine ⟨h.hungUp, hclosing, h.mark, fun hs ↦ h.serving ?_, fun hs ↦ h.stopping ?_⟩
        · rw [hw]
          exact fun hlast' ↦ hs (hlast.mpr hlast')
        · rw [hw]
          exact hlast.mp hs
      split at hadvance
      · exact absurd rfl (hcalm _)
      · rename_i r rest
        split_ifs at hadvance
        obtain ⟨wal', dir, hok⟩ := happend wal r rest after hw
        rw [hok] at hadvance
        cases hadvance
        exact hsame _ rfl (fun _ ↦ Writer.noConfusion) _ _ _
      · cases hadvance
        exact hsame _ rfl (fun _ ↦ Writer.noConfusion) _ _ _
    · cases hadvance
  | publish =>
    rw [CommitThread.advance, publish] at hadvance
    split at hadvance
    · rename_i wal durable after hw
      cases hadvance
      have hmark : ∀ d e, c.watermark.publish durable ≠ .closed d (.failed e) := by
        intro d e hclosed
        cases hmark : c.watermark with
        | live d' =>
          rw [hmark, Watermark.publish] at hclosed
          split_ifs at hclosed
        | closed d' reason =>
          rw [hmark] at hclosed
          exact h.mark d e (hmark.trans hclosed)
      cases after with
      | receive =>
        have hrunning : ¬c.writer.Stopping := by
          rw [hw]
          exact id
        exact ⟨h.hungUp, fun _ ↦ Writer.noConfusion, hmark, fun _ ↦ h.serving hrunning, False.elim⟩
      | drain =>
        have hstopping : c.writer.Stopping := by
          rw [hw]
          trivial
        exact h.stays hstopping (by trivial) (fun _ ↦ Writer.noConfusion) hmark
      | close =>
        have hstopping : c.writer.Stopping := by
          rw [hw]
          trivial
        exact h.stays hstopping (by trivial) (fun e he ↦ by cases he) hmark
    · cases hadvance
  | close =>
    rw [CommitThread.advance, close] at hadvance
    split at hadvance
    · rename_i reason hw
      cases hadvance
      have hstopping : c.writer.Stopping := by
        rw [hw]
        trivial
      refine h.stays hstopping (by trivial) (fun _ ↦ Writer.noConfusion) fun d e hclosed ↦ ?_
      obtain ⟨-, rfl⟩ := Watermark.closed.inj hclosed
      exact h.closing e hw
    · cases hadvance
  | «return» =>
    rw [CommitThread.advance, CommitThread.return] at hadvance
    split at hadvance
    · rename_i hw
      cases hadvance
      have hstopping : c.writer.Stopping := by
        rw [hw]
        trivial
      exact h.stays hstopping (by trivial) (fun _ ↦ Writer.noConfusion) h.mark
    · cases hadvance

end CommitThread

theorem NumberedFrom.le_last {n : ℕ} {records : List LogRecord} {r : LogRecord}
    (h : NumberedFrom n records) (hr : r ∈ records) (held : Option Seq) :
    some r.seq ≤ (records.getLast?.map LogRecord.seq).or held := by
  have hle := (h.le_of_mem hr).2
  cases hlast : records.getLast? with
  | none =>
    rw [List.getLast?_eq_none_iff.mp hlast] at hr
    exact absurd hr List.not_mem_nil
  | some last =>
    have := h.getLast? hlast
    refine Option.some_le_some.mpr (U64.le_def.mpr ?_)
    omega

/-! ## The auction without failures

The engine ends before the commit thread is stopped, and the commit thread before the ack thread
is. So nobody is refused by a thread behind him, and each ends with nothing left. -/

/-- The commit thread has been sent its stop. -/
def Shutdown.stopSent : Shutdown → Bool
  | .joiningLog | .joiningAcks | .returned => true
  | .running | .joiningEngine | .stoppingLog => false

/-- The engine thread has been waited for. -/
def Shutdown.EngineJoined : Shutdown → Prop
  | .stoppingLog | .joiningLog | .joiningAcks | .returned => True
  | .running | .joiningEngine => False

namespace Pipeline

/-- No write fails, and nobody but the shutdown stops the commit thread. -/
def Move.Calm : Move → Prop
  | .stopCommit | .commit (.write (some _)) => False
  | _ => True

instance decidableCalm : DecidablePred Move.Calm
  | .stopCommit | .commit (.write (some _)) => .isFalse id
  | .submit _ | .engine .. | .hand | .leave | .commit .poll | .commit .lapse | .commit (.write none)
  | .commit .publish | .commit .close | .commit .return | .acks _ | .standby | .stopStandby
  | .shutdown => .isTrue trivial

/-- What holds besides, as long as no write fails. -/
structure Orderly (p : Pipeline) : Prop where
  commit : p.commit.Orderly p.shutdown.stopSent
  running : p.engine.stop = true → p.shutdown ≠ .running
  draining : p.engine.position = .draining → p.engine.stop = true
  left : p.engine.Left → p.engine.stop = true ∧ p.handing = .nothing
  unlogged : ∀ a, p.handing ≠ .unlogged a
  unanswered : ∀ a, p.handing ≠ .unanswered a
  inHand : ∀ a, p.handing = .replicating a ∨ p.handing = .logging a ∨ p.handing = .answering a →
    a ∈ p.applied
  joinedEngine : p.shutdown.EngineJoined → p.engine.position = .ended
  joinedLog : p.shutdown = .joiningAcks ∨ p.shutdown = .returned → p.commit.writer = .ended
  joinedAcks : p.shutdown = .returned → p.acks.Ended
  waits : ∀ pending, pending ∈ p.acks.queue ∨ p.acks.position = .waiting pending →
    ∃ a ∈ p.applied, pending.seq = a.record.seq
  refused : ∀ pending, p.acks.position ≠ .refused pending
  finished : p.acks.position = .finished → p.engine.position = .ended ∧ p.acks.queue = []

section

variable {codec : Codec} {options : ThreadOptions} {o : Opened} {mode : ReplicationMode}
  {p p' : Pipeline} {move : Move} {out : Option Output}

theorem start_orderly (o : Opened) (replicated : Bool) (instant : Instant) :
    (start o replicated instant).Orderly where
  commit := CommitThread.spawn_orderly o.wal o.dir
  running h := Bool.noConfusion h
  draining h := Position.noConfusion h
  left h := by
    rcases h with h | h
    · cases h
    · cases h
  unlogged _ := Handing.noConfusion
  unanswered _ := Handing.noConfusion
  inHand a h := by
    rcases h with h | h | h
    · cases h
    · cases h
    · cases h
  joinedEngine h := h.elim
  joinedLog h := by
    rcases h with h | h
    · cases h
    · cases h
  joinedAcks h := Shutdown.noConfusion h
  waits pending h := by
    rcases h with h | h
    · exact absurd h List.not_mem_nil
    · cases h
  refused _ := AckPosition.noConfusion
  finished h := AckPosition.noConfusion h

namespace Orderly

variable (h : p.Orderly)
include h

theorem not_joined {a : Applied} (ha : p.handing = .replicating a ∨ p.handing = .logging a ∨
    p.handing = .answering a) : ¬p.engine.Left ∧ p.shutdown.stopSent = false := by
  have hleft : ¬p.engine.Left := by
    intro hleft
    rw [(h.left hleft).2] at ha
    rcases ha with ha | ha | ha
    · cases ha
    · cases ha
    · cases ha
  refine ⟨hleft, ?_⟩
  by_contra hsent
  refine hleft (Or.inr (h.joinedEngine ?_))
  cases hshutdown : p.shutdown with
  | running => exact hsent (hshutdown ▸ rfl)
  | joiningEngine => exact hsent (hshutdown ▸ rfl)
  | stoppingLog => trivial
  | joiningLog => trivial
  | joiningAcks => trivial
  | returned => trivial

theorem not_ended {a : Applied} (ha : p.handing = .logging a) : p.commit.writer ≠ .ended := by
  intro hended
  have hstopping : p.commit.writer.Stopping := by
    rw [hended]
    trivial
  have hsent := (h.not_joined (Or.inr (Or.inl ha))).2
  rw [(h.commit.stopping hstopping).1] at hsent
  cases hsent

theorem not_refusing {a : Applied} (ha : p.handing = .answering a) :
    ¬p.acks.Ended := by
  rintro (hended | ⟨pending, hrefused⟩)
  · exact absurd (Or.inr (h.finished hended).1) (h.not_joined (Or.inr (Or.inr ha))).1
  · exact absurd hrefused (h.refused pending)

theorem synced_of_closed (hs : p.Sound o mode) {d : Option Seq} {reason : StopReason}
    (hclosed : p.commit.watermark = .closed d reason) : p.commit.synced = p.records := by
  obtain ⟨hwriter, -, hleaves⟩ := hs.commit.closed hclosed
  have hstopping : p.commit.writer.Stopping := by
    rcases hwriter with hwriter | hwriter
    · rw [hwriter]
      trivial
    · rw [hwriter]
      trivial
  obtain ⟨hsent, hqueue⟩ := h.commit.stopping hstopping
  have hjoined : p.shutdown.EngineJoined := by
    cases hshutdown : p.shutdown with
    | running => rw [hshutdown] at hsent; cases hsent
    | joiningEngine => rw [hshutdown] at hsent; cases hsent
    | stoppingLog => trivial
    | joiningLog => trivial
    | joiningAcks => trivial
    | returned => trivial
  have hrecords : p.records = p.commit.submitted := by
    rw [hs.submitted, (h.left (Or.inr (h.joinedEngine hjoined))).2]
    exact List.append_nil _
  cases reason with
  | failed e => exact absurd hclosed (h.commit.mark _ e)
  | shutDown =>
    rw [hrecords, hleaves.2, CommitThread.queued, hqueue, hleaves.1]
    exact (List.append_nil _).symm

/-- **No wait for the log fails.** -/
theorem waitFor_ne_error (hs : p.Sound o mode) {pending : Pending} {reason : StopReason}
    (hposition : p.acks.position = .waiting pending) :
    p.commit.watermark.waitFor pending.seq ≠ some (.error reason) := by
  intro hwait
  cases hmark : p.commit.watermark with
  | live d =>
    rw [hmark, Watermark.waitFor] at hwait
    split_ifs at hwait
    cases hwait
  | closed d reason' =>
    obtain ⟨-, rfl, -⟩ := hs.commit.closed hmark
    obtain ⟨a, ha, hseq⟩ := h.waits pending (Or.inr hposition)
    have hle : some pending.seq ≤ p.commit.lastSynced := by
      rw [hseq, CommitThread.lastSynced, CommitThread.last, h.synced_of_closed hs hmark]
      exact hs.numbered.le_last (List.mem_map_of_mem ha) _
    rw [hmark, Watermark.waitFor, if_pos hle] at hwait
    cases hwait

/-- **A check** that picks no command. -/
theorem looked {seen anchored stamped : Instant} {engine : Engine} (hnothing : p.handing = .nothing)
    (hpasses : Engine.Passes p.engine seen anchored stamped engine none) :
    Orderly { p with engine := engine } := by
  obtain ⟨hin, hstop, hdraining, hleft⟩ := hpasses.rest
  refine
    { h with
      running := fun hs ↦ h.running (hstop ▸ hs)
      draining := fun hd ↦ hstop.trans (hdraining hd)
      left := fun hl ↦ ⟨hstop.trans (h.draining (hleft hl).2.1), hnothing⟩
      joinedEngine := fun hj ↦ absurd (Or.inr (h.joinedEngine hj)) hin
      finished := fun hf ↦ absurd (Or.inr (h.finished hf).1) hin }

/-- **The engine** takes a command in hand. -/
theorem applied {seen anchored stamped : Instant} {engine : Engine} {a : Applied}
    (hpasses : Engine.Passes p.engine seen anchored stamped engine (some a)) :
    Orderly
      { p with engine := engine, handing := .replicating a, applied := p.applied ++ [a] } := by
  obtain ⟨hin, hstop, hdraining, hleft⟩ := hpasses.rest
  refine
    { h with
      running := fun hs ↦ h.running (hstop ▸ hs)
      draining := fun hd ↦ hstop.trans (hdraining hd)
      left := fun hl ↦ absurd (hleft hl).1 (Option.some_ne_none a)
      unlogged := fun _ ↦ Handing.noConfusion
      unanswered := fun _ ↦ Handing.noConfusion
      inHand := fun b hb ↦ ?_
      joinedEngine := fun hj ↦ absurd (Or.inr (h.joinedEngine hj)) hin
      waits := fun pending hp ↦ ?_
      finished := fun hf ↦ absurd (Or.inr (h.finished hf).1) hin }
  · rcases hb with hb | hb | hb
    · obtain rfl := Handing.replicating.inj hb
      exact List.mem_append_right _ (List.mem_singleton_self _)
    · cases hb
    · cases hb
  · obtain ⟨b, hb, hseq⟩ := h.waits pending hp
    exact ⟨b, List.mem_append_left _ hb, hseq⟩

/-- **Handing over** keeps it, to the standby and then to the log and the ack thread. -/
theorem replicated {a : Applied} (ha : p.handing = .replicating a) :
    Orderly { p with standby := p.standby.map (Standby.send a.record), handing := .logging a } := by
  refine
    { h with
      left := fun hl ↦ absurd hl (h.not_joined (Or.inl ha)).1
      unlogged := fun _ ↦ Handing.noConfusion
      unanswered := fun _ ↦ Handing.noConfusion
      inHand := fun b hb ↦ ?_ }
  rcases hb with hb | hb | hb
  · cases hb
  · obtain rfl := Handing.logging.inj hb
    exact h.inHand a (Or.inl ha)
  · cases hb

theorem logged {a : Applied} {commit : CommitThread} {wal : WalOptions} {sent : Bool}
    (ha : p.handing = .logging a)
    (hsend : p.commit.send wal (.record a.record) = some (commit, sent)) :
    Orderly { p with commit := commit, handing := .answering a } := by
  obtain ⟨hleft, hsent⟩ := h.not_joined (Or.inr (Or.inl ha))
  refine
    { h with
      commit := ?_
      left := fun hl ↦ absurd hl hleft
      unlogged := fun _ ↦ Handing.noConfusion
      unanswered := fun _ ↦ Handing.noConfusion
      inHand := fun b hb ↦ ?_
      joinedLog := fun hj ↦ ?_ }
  · show commit.Orderly p.shutdown.stopSent
    rw [hsent]
    exact ((hsent ▸ h.commit).send_record hsend).2
  · rcases hb with hb | hb | hb
    · cases hb
    · cases hb
    · obtain rfl := Handing.answering.inj hb
      exact h.inHand a (Or.inr (Or.inl ha))
  · have hjoined : p.shutdown = .joiningAcks ∨ p.shutdown = .returned := hj
    rcases hjoined with hj | hj
    · rw [hj] at hsent
      cases hsent
    · rw [hj] at hsent
      cases hsent

theorem answered {a : Applied} (ha : p.handing = .answering a) :
    Orderly { p with
      acks := { p.acks with queue := p.acks.queue ++ [a.pending] }
      handing := .nothing } := by
  obtain ⟨hleft, hsent⟩ := h.not_joined (Or.inr (Or.inr ha))
  refine
    { h with
      left := fun hl ↦ absurd hl hleft
      unlogged := fun _ ↦ Handing.noConfusion
      unanswered := fun _ ↦ Handing.noConfusion
      inHand := fun b hb ↦ ?_
      waits := fun pending hp ↦ ?_
      finished := fun hf ↦ absurd (Or.inr (h.finished hf).1) hleft }
  · rcases hb with hb | hb | hb
    · cases hb
    · cases hb
    · cases hb
  · rcases hp with hp | hp
    · rcases List.mem_append.mp hp with hp | hp
      · exact h.waits pending (Or.inl hp)
      · rw [List.mem_singleton.mp hp]
        exact ⟨a, h.inHand a (Or.inr (Or.inr ha)), rfl⟩
    · exact h.waits pending (Or.inr hp)

theorem moved {position : AckPosition} {lost : Bool} {emitted : List Emission}
    (hjoined : p.shutdown ≠ .returned) (hwaiting : ∀ pending, position ≠ .waiting pending)
    (hrefused : ∀ pending, position ≠ .refused pending) (hfinished : position ≠ .finished) :
    Orderly { p with
      acks := { p.acks with position := position, replicaLost := lost }
      emitted := emitted } := by
  refine
    { h with
      joinedAcks := fun hr ↦ absurd hr hjoined
      waits := fun q hq ↦ ?_
      refused := hrefused
      finished := fun hf ↦ absurd hf hfinished }
  rcases hq with hq | hq
  · exact h.waits q (Or.inl hq)
  · exact absurd hq (hwaiting q)

/-- **The ack thread** is not refused, and ends only behind the engine. -/
theorem acks (hs : p.Sound o mode) {acks : AckThread} {e : Option Emission}
    (hsteps : p.acks.Steps mode p.commit.watermark p.standby (p.engine.position = .ended) acks e) :
    Orderly { p with acks := acks, emitted := p.emitted ++ e.toList } := by
  have hjoined : ∀ {position}, p.acks.position = position → position ≠ .finished →
      p.shutdown ≠ .returned := by
    intro position hposition hfinished hreturned
    rcases h.joinedAcks hreturned with hended | ⟨pending, hended⟩
    · exact hfinished (hposition.symm.trans hended)
    · exact h.refused pending hended
  cases hsteps with
  | took pending queue hposition hqueue =>
    refine
      { h with
        joinedAcks := fun hr ↦ absurd hr (hjoined hposition AckPosition.noConfusion)
        waits := fun q hq ↦ ?_
        refused := fun _ ↦ AckPosition.noConfusion
        finished := fun hf ↦ AckPosition.noConfusion hf }
    rcases hq with hq | hq
    · exact h.waits q (Or.inl (hqueue ▸ List.mem_cons_of_mem _ hq))
    · obtain rfl := AckPosition.waiting.inj hq
      exact h.waits pending (Or.inl (hqueue ▸ List.mem_cons_self))
  | finished hposition hqueue hhung =>
    refine
      { h with
        joinedAcks := fun _ ↦ Or.inl rfl
        waits := fun q hq ↦ ?_
        refused := fun _ ↦ AckPosition.noConfusion
        finished := fun _ ↦ ⟨of_decide_eq_true hhung, hqueue⟩ }
    rcases hq with hq | hq
    · exact h.waits q (Or.inl hq)
    · cases hq
  | refused pending reason hposition hwait =>
    exact absurd hwait (h.waitFor_ne_error hs hposition)
  | durable pending hposition hwait =>
    exact h.moved (hjoined hposition AckPosition.noConfusion) (fun _ ↦ AckPosition.noConfusion)
      (fun _ ↦ AckPosition.noConfusion) AckPosition.noConfusion
  | cleared pending hposition hconfirmed =>
    exact h.moved (hjoined hposition AckPosition.noConfusion) (fun _ ↦ AckPosition.noConfusion)
      (fun _ ↦ AckPosition.noConfusion) AckPosition.noConfusion
  | lost pending hposition =>
    exact h.moved (hjoined hposition AckPosition.noConfusion) (fun _ ↦ AckPosition.noConfusion)
      (fun _ ↦ AckPosition.noConfusion) AckPosition.noConfusion
  | released pending e rest hposition =>
    exact h.moved (hjoined hposition AckPosition.noConfusion) (fun _ ↦ AckPosition.noConfusion)
      (fun _ ↦ AckPosition.noConfusion) AckPosition.noConfusion
  | done pending hposition =>
    exact h.moved (hjoined hposition AckPosition.noConfusion) (fun _ ↦ AckPosition.noConfusion)
      (fun _ ↦ AckPosition.noConfusion) AckPosition.noConfusion

/-- **One step**, unless a write fails. -/
theorem step (hs : p.Sound o options.replication) (hcodec : codec.Lawful)
    (hstep : Pipeline.step codec options p move = some (p', out))
    (hcalm : move.Calm) : p'.Orderly := by
  cases step_steps hstep with
  | accepted s engine hsubmit =>
    rw [Engine.submit] at hsubmit
    split_ifs at hsubmit
    obtain rfl := Except.ok.inj hsubmit
    exact { h with }
  | shed s why hsubmit => exact h
  | looked seen anchored stamped engine hnothing hpasses => exact h.looked hnothing hpasses
  | applied seen anchored stamped engine a hnothing hpasses => exact h.applied hpasses
  | replicated a ha => exact h.replicated ha
  | logged a commit ha hsend => exact h.logged ha hsend
  | unlogged a ha hended =>
    exact absurd hended (h.not_ended ha)
  | answered a ha hopen => exact h.answered ha
  | unanswered a ha hended =>
    exact absurd hended (h.not_refusing ha)
  | left hposition =>
    exact
      { h with
        draining := fun hd ↦ Position.noConfusion hd
        left := fun _ ↦ h.left (Or.inl hposition)
        joinedEngine := fun _ ↦ rfl
        finished := fun hf ↦ ⟨rfl, (h.finished hf).2⟩ }
  | committed move commit hadvance =>
    have hnum := hs.numbered
    rw [hs.submitted, NumberedFrom.append] at hnum
    refine
      { h with
        commit := h.commit.advance
          (fun wal r rest after hw ↦ hs.commit.append_ok hcodec hs.held hnum.1 hw)
          (fun fault hfault ↦ by rw [hfault] at hcalm; exact hcalm) hadvance
        joinedLog := fun hj ↦ ?_ }
    rw [CommitThread.advance_ended (h.joinedLog hj)] at hadvance
    cases hadvance
  | acked timedOut acks e hsteps => exact h.acks hs hsteps
  | followed s s' hs hfollow => exact { h with }
  | stoppedStandby => exact { h with }
  | stoppedCommit commit sent hsend => exact hcalm.elim
  | flagged hshutdown =>
    refine
      { h with
        commit := ?_
        running := fun _ ↦ Shutdown.noConfusion
        draining := fun _ ↦ rfl
        left := fun hl ↦ ⟨rfl, (h.left hl).2⟩
        joinedEngine := fun hj ↦ hj.elim
        joinedLog := fun hj ↦ ?_
        joinedAcks := fun hj ↦ Shutdown.noConfusion hj }
    · exact (hshutdown ▸ h.commit : p.commit.Orderly Shutdown.running.stopSent)
    · rcases hj with hj | hj
      · cases hj
      · cases hj
  | joinedEngine hshutdown hended =>
    refine
      { h with
        commit := ?_
        running := fun _ ↦ Shutdown.noConfusion
        joinedEngine := fun _ ↦ hended
        joinedLog := fun hj ↦ ?_
        joinedAcks := fun hj ↦ Shutdown.noConfusion hj }
    · exact (hshutdown ▸ h.commit : p.commit.Orderly Shutdown.joiningEngine.stopSent)
    · rcases hj with hj | hj
      · cases hj
      · cases hj
  | stoppedLog commit sent hshutdown hsend =>
    refine
      { h with
        commit := ?_
        running := fun _ ↦ Shutdown.noConfusion
        joinedEngine := fun _ ↦ h.joinedEngine (hshutdown ▸ trivial)
        joinedLog := fun hj ↦ ?_
        joinedAcks := fun hj ↦ Shutdown.noConfusion hj }
    · have hcommit : p.commit.Orderly Shutdown.stoppingLog.stopSent := hshutdown ▸ h.commit
      exact CommitThread.Orderly.send_stop hcommit hsend
    · rcases hj with hj | hj
      · cases hj
      · cases hj
  | joinedLog hshutdown hended =>
    exact
      { h with
        commit := (hshutdown ▸ h.commit : p.commit.Orderly Shutdown.joiningLog.stopSent)
        running := fun _ ↦ Shutdown.noConfusion
        joinedEngine := fun _ ↦ h.joinedEngine (hshutdown ▸ trivial)
        joinedLog := fun _ ↦ hended
        joinedAcks := fun hj ↦ Shutdown.noConfusion hj }
  | joinedAcks hshutdown hended =>
    exact
      { h with
        commit := (hshutdown ▸ h.commit : p.commit.Orderly Shutdown.joiningAcks.stopSent)
        running := fun _ ↦ Shutdown.noConfusion
        joinedEngine := fun _ ↦ h.joinedEngine (hshutdown ▸ trivial)
        joinedLog := fun _ ↦ h.joinedLog (Or.inl hshutdown)
        joinedAcks := fun _ ↦ hended }

end Orderly

/-! ## One fate

The door decides first: what it turns away is told so and is never applied. What it lets in is
applied in the order of arrival, or still waits when the engine has left. -/

/-- How a later state continues an earlier one: whatever had been let in before the engine left its
loop has been taken once it has. -/
structure Follows (p p' : Pipeline) : Prop where
  accepted : p.accepted <+: p'.accepted
  applied : p.applied <+: p'.applied
  drained : p'.engine.Left → ¬p.engine.Left → p.accepted <+: p'.applied.filterMap Applied.origin

theorem Follows.refl (p : Pipeline) : p.Follows p where
  accepted := List.prefix_rfl
  applied := List.prefix_rfl
  drained h h' := absurd h h'

theorem Follows.trans {p₁ p₂ p₃ : Pipeline} (h : p₁.Follows p₂) (h' : p₂.Follows p₃) :
    p₁.Follows p₃ where
  accepted := h.accepted.trans h'.accepted
  applied := h.applied.trans h'.applied
  drained hleft hin := by
    by_cases hmid : p₂.engine.Left
    · exact (h.drained hmid hin).trans (h'.applied.filterMap _)
    · exact h.accepted.trans (h'.drained hleft hmid)

theorem Follows.of_eq (haccepted : p'.accepted = p.accepted) (happlied : p'.applied = p.applied)
    (hleft : p'.engine.Left → p.engine.Left) : p.Follows p' where
  accepted := haccepted ▸ List.prefix_rfl
  applied := happlied ▸ List.prefix_rfl
  drained h h' := absurd (hleft h) h'

theorem Orderly.follows (h : p.Orderly) (hs : p.Sound o options.replication)
    (hstep : Pipeline.step codec options p move = some (p', out)) : p.Follows p' := by
  cases step_steps hstep with
  | accepted s engine hsubmit =>
    rw [Engine.submit] at hsubmit
    split_ifs at hsubmit
    obtain rfl := Except.ok.inj hsubmit
    exact ⟨List.prefix_append _ _, List.prefix_rfl, fun hl hin ↦ absurd hl hin⟩
  | looked seen anchored stamped engine hnothing hpasses =>
    refine ⟨List.prefix_rfl, List.prefix_rfl, fun hl _ ↦ ?_⟩
    -- It leaves with nothing in its queue: all that was let in has been taken.
    have hrx : p.engine.rx = [] := hpasses.none_eq.2.2.symm.trans (hpasses.rest.2.2.2 hl).2.2
    refine ⟨[], ?_⟩
    rw [List.append_nil, hs.accepted, hrx]
    exact List.append_nil _
  | applied seen anchored stamped engine a hnothing hpasses =>
    refine ⟨List.prefix_rfl, List.prefix_append _ _, fun hl _ ↦ ?_⟩
    exact absurd (hpasses.rest.2.2.2 hl).1 (Option.some_ne_none a)
  | unlogged a ha hended =>
    exact absurd hended (h.not_ended ha)
  | unanswered a ha hended =>
    exact absurd hended (h.not_refusing ha)
  | left hposition => exact Follows.of_eq rfl rfl fun _ ↦ Or.inl hposition
  | _ => exact Follows.of_eq rfl rfl id

/-- The submissions the door let in during a run, in order. -/
def admitted (tr : List (Runs.Transition Pipeline Move (Option Output))) : List Submission :=
  tr.filterMap fun t ↦
    match t.input, t.out with
    | .submit s, some .accepted => some s
    | _, _ => none

theorem step_accepted (hstep : step codec options p move = some (p', out)) :
    p'.accepted = p.accepted ++ admitted [⟨p, move, out, p'⟩] := by
  cases step_steps hstep with
  | accepted s engine hsubmit => rfl
  | acked timedOut acks e hsteps => exact (List.append_nil _).symm
  | _ => exact (List.append_nil _).symm

theorem step_shed {why : Shed}
    (hstep : Pipeline.step codec options p move = some (p', some (.shed why))) : p' = p := by
  have hsteps := step_steps hstep
  generalize hout : some (Output.shed why) = out at hsteps
  cases hsteps with
  | shed s why hsubmit => rfl
  | acked timedOut acks e hsteps =>
    cases e with
    | none => cases hout
    | some e => cases hout
  | accepted s engine hsubmit => cases hout
  | _ => cases hout

/-- Every submission meets one fate. -/
structure Fates (o : Opened) (tr : List (Runs.Transition Pipeline Move (Option Output)))
    (p : Pipeline) : Prop where
  /-- What the door let in is what it said it let in, -/
  door : p.accepted = admitted tr
  /-- and a submission that is refused leaves no trace. -/
  refused : ∀ t ∈ tr, ∀ why, t.out = some (.shed why) → t.post = t.pre
  /-- The others are applied at most once, in the order in which they were let in, -/
  taken : p.applied.filterMap Applied.origin <+: p.accepted
  /-- with nothing between them but ticks of the engine, -/
  source : ∀ a ∈ p.applied, a.record.cmd = a.origin.elim .tick Submission.cmd
  /-- and this is what the state and the log are made of. -/
  history : Runs.Run AuctionState.step o.state (p.applied.map Applied.transition) p.engine.state
  numbered : NumberedFrom o.nextSeq.val p.records
  log : p.commit.appended <+: p.records
  /-- Once the shutdown has returned, all that was applied is synced and let out, each thing
  once, -/
  settled : p.shutdown = .returned →
    p.commit.synced = p.records ∧ emissions tr = p.applied.flatMap Applied.emissions
  /-- and all that was let in before the stop flag was set has been applied. -/
  promised : p.shutdown = .returned → ∀ t ∈ tr, t.input = .shutdown → t.pre.shutdown = .running →
    t.pre.accepted <+: p.applied.filterMap Applied.origin

/-- **Every submission meets exactly one fate.** -/
theorem every_submission_meets_one_fate {config : AuctionConfig} {segmentBytes : U64} {dir : Dir}
    {replicated : Bool} {instant : Instant}
    {tr : List (Runs.Transition Pipeline Move (Option Output))} (hcodec : codec.Lawful)
    (hopen : openInner codec config segmentBytes dir = some (.ok o))
    (hmanifest : dir.manifest = none → dir.segments = [])
    (hrun : Run codec options o replicated instant tr p) (hcalm : ∀ t ∈ tr, t.input.Calm) :
    Fates o tr p := by
  obtain ⟨⟨hsound, horderly⟩, hpast⟩ := hrun.history_of (C := fun t ↦ t.input.Calm)
    (P := fun p ↦ p.Sound o options.replication ∧ p.Orderly) (R := Follows)
    Follows.refl (fun _ _ _ ↦ Follows.trans)
    ⟨start_sound (openInner_aligned hopen hmanifest) replicated instant,
      start_orderly o replicated instant⟩
    (fun _ _ _ _ h hstep hcalm ↦
      ⟨⟨h.1.step hstep, h.2.step h.1 hcodec hstep hcalm⟩, h.2.follows h.1 hstep⟩) hcalm
  have hdoor : p.accepted = admitted tr := by
    clear hcalm hsound horderly hpast
    induction hrun with
    | nil => rfl
    | snoc hrun hstep ih =>
      rw [step_accepted hstep, ih]
      exact List.filterMap_append.symm
  have hended : p.shutdown = .returned → p.engine.position = .ended := fun hreturned ↦
    horderly.joinedEngine (hreturned ▸ trivial)
  refine
    { door := hdoor
      refused := fun t ht why hout ↦ ?_
      taken := ⟨_, hsound.accepted.symm⟩
      source := hsound.source
      history := hsound.history
      numbered := hsound.numbered
      log := hsound.commit.appended_prefix.trans ⟨_, hsound.submitted.symm⟩
      settled := fun hreturned ↦ ?_
      promised := fun hreturned t ht hinput hrunning ↦ ?_ }
  · have hstep := (hrun.split ht).2
    rw [hout] at hstep
    exact step_shed hstep
  · obtain ⟨reason, hclosed, -⟩ := hsound.commit.ended (horderly.joinedLog (Or.inr hreturned))
    refine ⟨horderly.synced_of_closed hsound hclosed, ?_⟩
    rw [run_emitted hrun, hsound.released, (horderly.left (Or.inr (hended hreturned))).2]
    rcases horderly.joinedAcks hreturned with hfinished | ⟨pending, hrefused⟩
    · rw [AckThread.unreleased, hfinished, (horderly.finished hfinished).2]
      exact (List.append_nil _).symm
    · exact absurd hrefused (horderly.refused pending)
  · obtain ⟨⟨-, hpre⟩, hstep, hsince⟩ := hpast t ht
    exact (hstep.trans hsince).drained (Or.inr (hended hreturned))
      fun hleft ↦ hpre.running (hpre.left hleft).1 hrunning

/-- A command is taken and answered, the auction is shut down, a second one is let in too late to be
taken, and a third is refused. -/
def shutdownPlay : List (Runs.Transition Pipeline Move (Option Output)) × Pipeline :=
  Runs.play (step Bincode.codec ⟨4, ⟨4, 4⟩, 0, .async⟩) (start sampleOpened false 0)
    [.submit ⟨.open, some 0⟩, .engine 0 0 0, .shutdown, .engine 0 0 0, .hand, .hand, .hand,
      .acks false, .commit .poll, .commit .lapse, .engine 0 0 0, .engine 0 0 0,
      .submit ⟨.tick, none⟩, .leave, .submit ⟨.tick, none⟩, .shutdown, .shutdown,
      .commit (.write none), .commit (.write none), .commit .publish, .acks false, .acks false,
      .acks false, .acks false, .acks false, .acks false, .acks false, .commit .poll,
      .commit .poll, .commit .close, .commit .return, .shutdown, .shutdown]

theorem every_submission_meets_one_fate_sample :
    shutdownPlay.2.shutdown = .returned ∧ (admitted shutdownPlay.1).length = 2 ∧
      shutdownPlay.2.applied.filterMap Applied.origin = [⟨.open, some 0⟩] ∧
      Fates sampleOpened shutdownPlay.1 shutdownPlay.2 := by
  have hopen : openInner Bincode.codec (.sample 0) 4096 Dir.empty = some (.ok sampleOpened) := rfl
  refine ⟨rfl, rfl, rfl, every_submission_meets_one_fate Bincode.lawful hopen (fun _ ↦ rfl)
    (Runs.run_play _ _ _) ?_⟩
  decide +kernel

end

end Pipeline

end DutchAuction
