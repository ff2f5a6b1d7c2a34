import DutchAuction.Engine.Loop
import DutchAuction.Wal.Disk

/-!
# The pipeline

What happens to a command once the engine has applied it. The engine thread hands the record to the
standby and to the commit thread, and the events, the view and the return address to the ack thread.
The ack thread takes these in order: it waits until the record is durable and, if it has to, until
the standby has confirmed it, and lets out the view, the events and the answer. The standby applies
the records it is sent and confirms each one after applying it. A shutdown stops the engine, then
the log, then the acks.

Every thread moves one call at a time, in any order (`Pipeline.step`). `Sound` says where everything
is that the engine has applied: each of the three ways out is a conveyor, and what was put on it is
what has left it, what is on it, and what the engine still has in hand.
-/

namespace DutchAuction

/-! ## What is let out -/

/-- A cheap summary of an auction, for the network edge. -/
structure View where
  status : Status
  supplyRemaining : Qty
  /-- The clock price, or the clearing price once the auction has settled. -/
  price : Price
  clearingPrice : Option Price
  /-- Auction time as of the last applied command. -/
  elapsed : Nanos
  /-- The last sequence applied. -/
  seq : Option Seq

def View.of (state : AuctionState) : View where
  status := state.status
  supplyRemaining := state.supplyRemaining
  price := state.price
  clearingPrice := state.clearingPrice
  elapsed := state.now
  seq := state.lastSeq

/-- A command applied but not yet durable, waiting on the ack thread. -/
structure Pending where
  seq : Seq
  events : List Event
  reply : Option ℕ
  /-- The state as of this command, if it changed anything. -/
  view : Option View

/-- What the ack thread lets out: it publishes, broadcasts and replies. -/
inductive Emission
  | view (seq : Seq) (view : View)
  | event (seq : Seq) (event : Event)
  | reply (seq : Seq) (receiver : ℕ) (events : List Event)

def Emission.seq : Emission → Seq
  | view seq _ => seq
  | event seq _ => seq
  | reply seq _ _ => seq

/-- The view, the events and the answer, in this order. -/
def Pending.emissions (p : Pending) : List Emission :=
  (p.view.map (Emission.view p.seq)).toList ++ (p.events.map (Emission.event p.seq) ++
    (p.reply.map fun receiver ↦ Emission.reply p.seq receiver p.events).toList)

/-- What the engine puts before the ack thread for an applied command. -/
def Applied.pending (a : Applied) : Pending where
  seq := a.record.seq
  events := a.transition.out
  reply := a.origin.bind Submission.reply
  view := if a.transition.out = [] then none else some (View.of a.transition.post)

/-- What the outside is shown of an applied command. -/
def Applied.emissions (a : Applied) : List Emission := a.pending.emissions

/-! ## The ack thread

What it has in hand goes through the stations of `AckPosition`: the wait for the log, the wait for
the standby, and then out, piece by piece. -/

/-- Where the ack thread is. -/
inductive AckPosition
  | receiving
  /-- Until the record is durable. -/
  | waiting (p : Pending)
  /-- Until the standby has confirmed it, if that is asked for. -/
  | confirming (p : Pending)
  /-- Letting out the rest of what there is to let out. -/
  | releasing (p : Pending) (rest : List Emission)
  /-- Out of its loop: the engine is gone and nothing is left. -/
  | finished
  /-- Out of its loop: the log stopped before this one was durable. -/
  | refused (p : Pending)

structure AckThread where
  queue : List Pending
  position : AckPosition
  /-- Set once the standby has missed its deadline. -/
  replicaLost : Bool

/-! ## The standby -/

/-- Where the standby thread is. -/
inductive StandbyPosition
  | following
  /-- Applied, and about to confirm it. -/
  | confirming (seq : Seq)
  | ended

/-- A standby running in this process, fed by a channel. -/
structure Standby where
  queue : List LogRecord
  state : AuctionState
  confirmed : Option Seq
  stopping : Bool
  position : StandbyPosition
  /-- Every record it has applied, in order. -/
  applied : List LogRecord

namespace Standby

/-- Start following, beginning from this state. -/
def start (state : AuctionState) : Standby where
  queue := []
  state := state
  confirmed := none
  stopping := false
  position := .following
  applied := []

/-- Hand over a record. Nobody takes it any more once the thread has ended. -/
def send (record : LogRecord) (s : Standby) : Standby := { s with queue := s.queue ++ [record] }

/-- Advance the watermark to `seq`, if that is forward. -/
def publish (seq : Seq) (s : Standby) : Standby :=
  if s.confirmed.any fun confirmed ↦ seq ≤ confirmed then s else { s with confirmed := some seq }

/-- The standby's entire job. A record that cannot be applied stops the program. -/
def follow (s : Standby) : Option Standby :=
  match s.position with
  | .following =>
    match s.queue with
    | record :: queue =>
      (DutchAuction.follow s.state record).map fun state ↦ { s with
        queue := queue
        state := state
        position := .confirming record.seq
        applied := s.applied ++ [record] }
    -- An empty queue is the only safe moment to stop: everything sent has been applied.
    | [] => some (if s.stopping then { s with position := .ended } else s)
  | .confirming seq => some { s.publish seq with position := .following }
  | .ended => none

end Standby

/-- The next step of the ack thread. `hungUp` is whether the engine has let go of its queue, and
`timedOut` whether the wait for the standby runs out of time. -/
def AckThread.next (mode : ReplicationMode) (watermark : Watermark) (standby : Option Standby)
    (hungUp timedOut : Bool) (a : AckThread) : Option (AckThread × Option Emission) :=
  match a.position with
  | .receiving =>
    match a.queue with
    | p :: queue => some ({ a with queue := queue, position := .waiting p }, none)
    | [] => if hungUp then some ({ a with position := .finished }, none) else none
  | .waiting p =>
    match watermark.waitFor p.seq with
    | some (.ok ()) => some ({ a with position := .confirming p }, none)
    -- Every waiter from here on is dropped rather than acknowledged.
    | some (.error _) => some ({ a with position := .refused p }, none)
    | none => none
  | .confirming p =>
    let release := { a with position := .releasing p p.emissions }
    if mode = .sync ∧ a.replicaLost = false then
      match standby with
      | some standby =>
        -- Availability over zero loss: the standby is declared lost, and the command released.
        if timedOut then some ({ release with replicaLost := true }, none)
        else if standby.confirmed.any fun confirmed ↦ p.seq ≤ confirmed then some (release, none)
        else none
      | none => some (release, none)
    else some (release, none)
  | .releasing p (e :: rest) => some ({ a with position := .releasing p rest }, some e)
  | .releasing _ [] => some ({ a with position := .receiving }, none)
  | .finished | .refused _ => none

/-! ## The auction -/

/-- What the engine has in hand between applying a command and the next. -/
inductive Handing
  | nothing
  /-- About to send the record to the standby, -/
  | replicating (a : Applied)
  /-- to submit it to the log, -/
  | logging (a : Applied)
  /-- and to put the command before the ack thread. -/
  | answering (a : Applied)
  /-- Out of the loop: the commit thread was gone. -/
  | unlogged (a : Applied)
  /-- Out of the loop: the ack thread was gone. -/
  | unanswered (a : Applied)

namespace Handing

/-- The record that the standby has not been sent. -/
def unsent : Handing → List LogRecord
  | replicating a => [a.record]
  | _ => []

/-- The record that the log has not been given. -/
def unsubmitted : Handing → List LogRecord
  | replicating a | logging a | unlogged a => [a.record]
  | _ => []

/-- What the ack thread has not been given. -/
def unreleased : Handing → List Emission
  | replicating a | logging a | answering a | unlogged a | unanswered a => a.emissions
  | nothing => []

end Handing

/-- How far a shutdown has come. -/
inductive Shutdown
  | running
  /-- The stop flag is set. -/
  | joiningEngine
  | stoppingLog
  | joiningLog
  | joiningAcks
  | returned
deriving DecidableEq

/-- A running auction: one engine thread, one commit thread, one ack thread, and a standby if there
is one. -/
structure Pipeline where
  engine : Engine
  handing : Handing
  commit : CommitThread
  acks : AckThread
  standby : Option Standby
  shutdown : Shutdown
  /-- Every submission the door let in, in order. -/
  accepted : List Submission
  /-- Every command applied, in order. -/
  applied : List Applied
  /-- Everything let out, in order. -/
  emitted : List Emission

/-- What an auction is opened with. -/
structure Opened where
  state : AuctionState
  nextSeq : Seq
  wal : Wal
  dir : Dir

/-- Recover the auction whose log lives in this directory, if there is one, and open the log. -/
def openInner (codec : Codec) (config : AuctionConfig) (segmentBytes : U64) (dir : Dir) :
    Option (Except WalError Opened) :=
  (codec.recover dir).map fun
    | .ok r =>
      if r.state.config = config then resume r.state r.nextSeq
      else .error (.manifestMismatch .dir)
    | .error (.noManifest _) => resume (AuctionState.new config) Seq.START
    | .error e => .error e
where
  resume (state : AuctionState) (nextSeq : Seq) : Except WalError Opened :=
    match Wal.open codec config segmentBytes dir with
    | (.ok wal, dir) => .ok ⟨state, nextSeq, wal, dir⟩
    | (.error e, _) => .error e

namespace Pipeline

/-- What can happen. -/
inductive Move
  | submit (s : Submission)
  /-- The engine makes its next check. -/
  | engine (seen anchored stamped : Instant)
  /-- The engine passes on what it has in hand. -/
  | hand
  /-- The engine thread lets go of its channels. -/
  | leave
  | commit (move : CommitThread.Move)
  | acks (timedOut : Bool)
  | standby
  | stopStandby
  /-- A stop reaches the commit thread from outside the shutdown. -/
  | stopCommit
  /-- The shutdown goes on, or begins. -/
  | shutdown

/-- What comes out of a step. -/
inductive Output
  | accepted
  | shed (why : Shed)
  | emitted (e : Emission)

def Output.emission? : Output → Option Emission
  | emitted e => some e
  | accepted | shed _ => none

/-- An auction that was just opened. -/
def start (o : Opened) (replicated : Bool) (instant : Instant) : Pipeline where
  engine := Engine.start instant o.state o.nextSeq
  handing := .nothing
  commit := CommitThread.spawn o.wal o.dir
  acks := ⟨[], .receiving, false⟩
  standby := if replicated then some (Standby.start o.state) else none
  shutdown := .running
  accepted := []
  applied := []
  emitted := []

/-- The engine makes its next check, with nothing in hand. -/
def runEngine (options : ThreadOptions) (seen anchored stamped : Instant) (p : Pipeline) :
    Option Pipeline :=
  match p.handing with
  | .nothing =>
    (p.engine.run options seen anchored stamped).map fun
      | (engine, some a) => { p with
        engine := engine
        handing := .replicating a
        applied := p.applied ++ [a] }
      | (engine, none) => { p with engine := engine }
  | _ => none

/-- The engine passes on what it has in hand: to the standby, to the log, to the ack thread. -/
def hand (options : ThreadOptions) (p : Pipeline) : Option Pipeline :=
  match p.handing with
  | .replicating a =>
    some { p with standby := p.standby.map (Standby.send a.record), handing := .logging a }
  | .logging a =>
    (p.commit.send options.wal (.record a.record)).map fun
      | (commit, true) => { p with commit := commit, handing := .answering a }
      | (_, false) => { p with
        engine := { p.engine with position := .stopped }
        handing := .unlogged a }
  | .answering a =>
    match p.acks.position with
    | .finished | .refused _ => some { p with
        engine := { p.engine with position := .stopped }
        handing := .unanswered a }
    | _ => some { p with
        acks := { p.acks with queue := p.acks.queue ++ [a.pending] }
        handing := .nothing }
  | .nothing | .unlogged _ | .unanswered _ => none

/-- Out of its loop, the engine thread ends. What is left in its queue is dropped with it. -/
def leave (p : Pipeline) : Option Pipeline :=
  match p.engine.position with
  | .stopped => some { p with engine := { p.engine with position := .ended } }
  | _ => none

/-- The next step of a shutdown: the engine stops applying first, then the log is flushed, then the
ack thread is allowed to finish. -/
def stopAll (options : ThreadOptions) (p : Pipeline) : Option Pipeline :=
  match p.shutdown with
  | .running => some { p with
      engine := { p.engine with stop := true }
      shutdown := .joiningEngine }
  | .joiningEngine =>
    match p.engine.position with
    | .ended => some { p with shutdown := .stoppingLog }
    | _ => none
  | .stoppingLog =>
    (p.commit.send options.wal .stop).map fun r ↦ { p with commit := r.1, shutdown := .joiningLog }
  | .joiningLog =>
    match p.commit.writer with
    | .ended => some { p with shutdown := .joiningAcks }
    | _ => none
  | .joiningAcks =>
    match p.acks.position with
    | .finished | .refused _ => some { p with shutdown := .returned }
    | _ => none
  | .returned => none

/-- One step, and what comes out of it. -/
def step (codec : Codec) (options : ThreadOptions) (p : Pipeline) :
    Move → Option (Pipeline × Option Output)
  | .submit s =>
    match p.engine.submit options s with
    | .ok engine =>
      some ({ p with engine := engine, accepted := p.accepted ++ [s] }, some .accepted)
    | .error why => some (p, some (.shed why))
  | .engine seen anchored stamped =>
    (p.runEngine options seen anchored stamped).map fun p ↦ (p, none)
  | .hand => (p.hand options).map fun p ↦ (p, none)
  | .leave => p.leave.map fun p ↦ (p, none)
  | .commit move =>
    (p.commit.advance codec options.wal move).map fun commit ↦ ({ p with commit := commit }, none)
  | .acks timedOut =>
    (p.acks.next options.replication p.commit.watermark p.standby (p.engine.position = .ended)
      timedOut).map fun r ↦
        ({ p with acks := r.1, emitted := p.emitted ++ r.2.toList }, r.2.map Output.emitted)
  | .standby =>
    match p.standby with
    | some s => s.follow.map fun s ↦ ({ p with standby := some s }, none)
    | none => none
  | .stopStandby =>
    some ({ p with standby := p.standby.map fun s ↦ { s with stopping := true } }, none)
  | .stopCommit =>
    (p.commit.send options.wal .stop).map fun r ↦ ({ p with commit := r.1 }, none)
  | .shutdown => (p.stopAll options).map fun p ↦ (p, none)

/-- The runs of an auction that was just opened. -/
abbrev Run (codec : Codec) (options : ThreadOptions) (o : Opened) (replicated : Bool)
    (instant : Instant) : List (Runs.Transition Pipeline Move (Option Output)) → Pipeline → Prop :=
  Runs.Run (step codec options) (start o replicated instant)

/-- Everything let out in a run, in order. -/
def emissions (tr : List (Runs.Transition Pipeline Move (Option Output))) : List Emission :=
  tr.filterMap fun t ↦ t.out.bind Output.emission?

/-- The records of every command applied, in order. -/
def records (p : Pipeline) : List LogRecord := p.applied.map Applied.record

end Pipeline

/-! ## What one step does -/

/-- What a step of the ack thread can come to. -/
inductive AckThread.Steps (mode : ReplicationMode) (watermark : Watermark)
    (standby : Option Standby) (hungUp : Bool) (a : AckThread) : AckThread → Option Emission → Prop
  | took (p : Pending) (queue : List Pending) (hposition : a.position = .receiving)
      (hqueue : a.queue = p :: queue) :
      Steps mode watermark standby hungUp a { a with queue := queue, position := .waiting p } none
  | finished (hposition : a.position = .receiving) (hqueue : a.queue = []) (hhung : hungUp = true) :
      Steps mode watermark standby hungUp a { a with position := .finished } none
  | durable (p : Pending) (hposition : a.position = .waiting p)
      (hwait : watermark.waitFor p.seq = some (.ok ())) :
      Steps mode watermark standby hungUp a { a with position := .confirming p } none
  | refused (p : Pending) (reason : StopReason) (hposition : a.position = .waiting p)
      (hwait : watermark.waitFor p.seq = some (.error reason)) :
      Steps mode watermark standby hungUp a { a with position := .refused p } none
  | cleared (p : Pending) (hposition : a.position = .confirming p)
      (hconfirmed : mode = .sync → a.replicaLost = false →
        ∀ s ∈ standby, ∃ confirmed ∈ s.confirmed, p.seq ≤ confirmed) :
      Steps mode watermark standby hungUp a { a with position := .releasing p p.emissions } none
  | lost (p : Pending) (hposition : a.position = .confirming p) :
      Steps mode watermark standby hungUp a
        { a with position := .releasing p p.emissions, replicaLost := true } none
  | released (p : Pending) (e : Emission) (rest : List Emission)
      (hposition : a.position = .releasing p (e :: rest)) :
      Steps mode watermark standby hungUp a { a with position := .releasing p rest } (some e)
  | done (p : Pending) (hposition : a.position = .releasing p []) :
      Steps mode watermark standby hungUp a { a with position := .receiving } none

theorem AckThread.next_steps {mode : ReplicationMode} {watermark : Watermark}
    {standby : Option Standby} {hungUp timedOut : Bool} {a a' : AckThread} {out : Option Emission}
    (h : a.next mode watermark standby hungUp timedOut = some (a', out)) :
    a.Steps mode watermark standby hungUp a' out := by
  rw [AckThread.next] at h
  split at h
  · rename_i hposition
    split at h
    · rename_i p queue hqueue
      cases h
      exact Steps.took p queue hposition hqueue
    · rename_i hqueue
      split_ifs at h with hhung
      cases h
      exact Steps.finished hposition hqueue hhung
  · rename_i p hposition
    split at h
    · rename_i hwait
      cases h
      exact Steps.durable p hposition hwait
    · rename_i reason hwait
      cases h
      exact Steps.refused p reason hposition hwait
    · cases h
  · rename_i p hposition
    dsimp only at h
    by_cases hwaits : mode = .sync ∧ a.replicaLost = false
    · rw [if_pos hwaits] at h
      cases standby with
      | none =>
        cases h
        exact Steps.cleared p hposition fun _ _ s hs ↦ absurd hs (Option.not_mem_none s)
      | some standby =>
        dsimp only at h
        split_ifs at h with htimed hconfirmed
        · cases h
          exact Steps.lost p hposition
        · cases h
          refine Steps.cleared p hposition fun _ _ s hs ↦ ?_
          obtain rfl := Option.some.inj hs
          obtain ⟨confirmed, hmem, hle⟩ := (Option.any_eq_true _ _).mp hconfirmed
          exact ⟨confirmed, hmem, of_decide_eq_true hle⟩
    · rw [if_neg hwaits] at h
      cases h
      exact Steps.cleared p hposition fun hmode hlost ↦ absurd ⟨hmode, hlost⟩ hwaits
  · rename_i p e rest hposition
    cases h
    exact Steps.released p e rest hposition
  · rename_i p hposition
    cases h
    exact Steps.done p hposition
  · cases h
  · cases h

/-- The ack thread is out of its loop. -/
def AckThread.Ended (a : AckThread) : Prop := a.position = .finished ∨ ∃ p, a.position = .refused p

/-- What one step can come to. -/
inductive Pipeline.Steps (codec : Codec) (options : ThreadOptions) (p : Pipeline) :
    Pipeline.Move → Pipeline → Option Pipeline.Output → Prop
  | accepted (s : Submission) (engine : Engine) (h : p.engine.submit options s = .ok engine) :
      Steps codec options p (.submit s)
        { p with engine := engine, accepted := p.accepted ++ [s] } (some .accepted)
  | shed (s : Submission) (why : Shed) (h : p.engine.submit options s = .error why) :
      Steps codec options p (.submit s) p (some (.shed why))
  | looked (seen anchored stamped : Instant) (engine : Engine) (hnothing : p.handing = .nothing)
      (h : Engine.Passes p.engine seen anchored stamped engine none) :
      Steps codec options p (.engine seen anchored stamped) { p with engine := engine } none
  | applied (seen anchored stamped : Instant) (engine : Engine) (a : Applied)
      (hnothing : p.handing = .nothing)
      (h : Engine.Passes p.engine seen anchored stamped engine (some a)) :
      Steps codec options p (.engine seen anchored stamped)
        { p with engine := engine, handing := .replicating a, applied := p.applied ++ [a] } none
  | replicated (a : Applied) (ha : p.handing = .replicating a) :
      Steps codec options p .hand
        { p with standby := p.standby.map (Standby.send a.record), handing := .logging a } none
  | logged (a : Applied) (commit : CommitThread) (ha : p.handing = .logging a)
      (h : p.commit.send options.wal (.record a.record) = some (commit, true)) :
      Steps codec options p .hand { p with commit := commit, handing := .answering a } none
  | unlogged (a : Applied) (ha : p.handing = .logging a) (h : p.commit.writer = .ended) :
      Steps codec options p .hand
        { p with engine := { p.engine with position := .stopped }, handing := .unlogged a } none
  | answered (a : Applied) (ha : p.handing = .answering a) (h : ¬p.acks.Ended) :
      Steps codec options p .hand
        { p with
          acks := { p.acks with queue := p.acks.queue ++ [a.pending] }
          handing := .nothing } none
  | unanswered (a : Applied) (ha : p.handing = .answering a) (h : p.acks.Ended) :
      Steps codec options p .hand
        { p with engine := { p.engine with position := .stopped }, handing := .unanswered a } none
  | left (h : p.engine.position = .stopped) :
      Steps codec options p .leave { p with engine := { p.engine with position := .ended } } none
  | committed (move : CommitThread.Move) (commit : CommitThread)
      (h : p.commit.advance codec options.wal move = some commit) :
      Steps codec options p (.commit move) { p with commit := commit } none
  | acked (timedOut : Bool) (acks : AckThread) (e : Option Emission)
      (h : p.acks.Steps options.replication p.commit.watermark p.standby
        (p.engine.position = .ended) acks e) :
      Steps codec options p (.acks timedOut)
        { p with acks := acks, emitted := p.emitted ++ e.toList } (e.map .emitted)
  | followed (s s' : Standby) (hs : p.standby = some s) (h : s.follow = some s') :
      Steps codec options p .standby { p with standby := some s' } none
  | stoppedStandby :
      Steps codec options p .stopStandby
        { p with standby := p.standby.map fun s ↦ { s with stopping := true } } none
  | stoppedCommit (commit : CommitThread) (sent : Bool)
      (h : p.commit.send options.wal .stop = some (commit, sent)) :
      Steps codec options p .stopCommit { p with commit := commit } none
  | flagged (h : p.shutdown = .running) :
      Steps codec options p .shutdown
        { p with engine := { p.engine with stop := true }, shutdown := .joiningEngine } none
  | joinedEngine (h : p.shutdown = .joiningEngine) (hended : p.engine.position = .ended) :
      Steps codec options p .shutdown { p with shutdown := .stoppingLog } none
  | stoppedLog (commit : CommitThread) (sent : Bool) (h : p.shutdown = .stoppingLog)
      (hsend : p.commit.send options.wal .stop = some (commit, sent)) :
      Steps codec options p .shutdown { p with commit := commit, shutdown := .joiningLog } none
  | joinedLog (h : p.shutdown = .joiningLog) (hended : p.commit.writer = .ended) :
      Steps codec options p .shutdown { p with shutdown := .joiningAcks } none
  | joinedAcks (h : p.shutdown = .joiningAcks) (hended : p.acks.Ended) :
      Steps codec options p .shutdown { p with shutdown := .returned } none

theorem Pipeline.hand_steps {codec : Codec} {options : ThreadOptions} {p p' : Pipeline}
    (h : p.hand options = some p') : Steps codec options p .hand p' none := by
  rw [hand] at h
  split at h
  · rename_i a ha
    cases h
    exact Steps.replicated a ha
  · rename_i a ha
    obtain ⟨⟨commit, sent⟩, hsend, heq⟩ := Option.map_eq_some_iff.mp h
    cases sent with
    | true =>
      cases heq
      exact Steps.logged a commit ha hsend
    | false =>
      cases heq
      obtain ⟨hsent, -, -⟩ | ⟨-, hended, -⟩ := CommitThread.send_cases hsend
      · cases hsent
      · exact Steps.unlogged a ha hended
  · rename_i a ha
    split at h
    · rename_i hposition
      cases h
      exact Steps.unanswered a ha (Or.inl hposition)
    · rename_i pending hposition
      cases h
      exact Steps.unanswered a ha (Or.inr ⟨pending, hposition⟩)
    · rename_i hfinished hrefused
      cases h
      refine Steps.answered a ha ?_
      rintro (hposition | ⟨pending, hposition⟩)
      · exact hfinished hposition
      · exact hrefused pending hposition
  · cases h
  · cases h
  · cases h

theorem Pipeline.stopAll_steps {codec : Codec} {options : ThreadOptions} {p p' : Pipeline}
    (h : p.stopAll options = some p') : Steps codec options p .shutdown p' none := by
  rw [stopAll] at h
  split at h
  · rename_i hshutdown
    cases h
    exact Steps.flagged hshutdown
  · rename_i hshutdown
    split at h
    · rename_i hended
      cases h
      exact Steps.joinedEngine hshutdown hended
    · cases h
  · rename_i hshutdown
    obtain ⟨⟨commit, sent⟩, hsend, rfl⟩ := Option.map_eq_some_iff.mp h
    exact Steps.stoppedLog commit sent hshutdown hsend
  · rename_i hshutdown
    split at h
    · rename_i hended
      cases h
      exact Steps.joinedLog hshutdown hended
    · cases h
  · rename_i hshutdown
    split at h
    · rename_i hended
      cases h
      exact Steps.joinedAcks hshutdown (Or.inl hended)
    · rename_i pending hended
      cases h
      exact Steps.joinedAcks hshutdown (Or.inr ⟨pending, hended⟩)
    · cases h
  · cases h

theorem Pipeline.step_steps {codec : Codec} {options : ThreadOptions} {p p' : Pipeline}
    {move : Move} {out : Option Output} (h : step codec options p move = some (p', out)) :
    Steps codec options p move p' out := by
  cases move with
  | submit s =>
    rw [step] at h
    split at h
    · rename_i engine hsubmit
      cases h
      exact Steps.accepted s engine hsubmit
    · rename_i why hsubmit
      cases h
      exact Steps.shed s why hsubmit
  | engine seen anchored stamped =>
    obtain ⟨q, hrun, heq⟩ := Option.map_eq_some_iff.mp h
    cases heq
    rw [runEngine] at hrun
    split at hrun
    · rename_i hnothing
      obtain ⟨⟨engine, a⟩, hpasses, rfl⟩ := Option.map_eq_some_iff.mp hrun
      cases a with
      | none => exact Steps.looked seen anchored stamped engine hnothing (Engine.run_passes hpasses)
      | some a =>
        exact Steps.applied seen anchored stamped engine a hnothing (Engine.run_passes hpasses)
    · cases hrun
  | hand =>
    obtain ⟨q, hhand, heq⟩ := Option.map_eq_some_iff.mp h
    cases heq
    exact hand_steps hhand
  | leave =>
    obtain ⟨q, hleave, heq⟩ := Option.map_eq_some_iff.mp h
    cases heq
    rw [leave] at hleave
    split at hleave
    · rename_i hposition
      cases hleave
      exact Steps.left hposition
    · cases hleave
  | commit move =>
    obtain ⟨commit, hadvance, heq⟩ := Option.map_eq_some_iff.mp h
    cases heq
    exact Steps.committed move commit hadvance
  | acks timedOut =>
    obtain ⟨⟨acks, e⟩, hnext, heq⟩ := Option.map_eq_some_iff.mp h
    cases heq
    exact Steps.acked timedOut acks e (AckThread.next_steps hnext)
  | standby =>
    rw [step] at h
    split at h
    · rename_i s hs
      obtain ⟨s', hfollow, heq⟩ := Option.map_eq_some_iff.mp h
      cases heq
      exact Steps.followed s s' hs hfollow
    · cases h
  | stopStandby =>
    cases h
    exact Steps.stoppedStandby
  | stopCommit =>
    obtain ⟨⟨commit, sent⟩, hsend, heq⟩ := Option.map_eq_some_iff.mp h
    cases heq
    exact Steps.stoppedCommit commit sent hsend
  | shutdown =>
    obtain ⟨q, hstop, heq⟩ := Option.map_eq_some_iff.mp h
    cases heq
    exact stopAll_steps hstop

/-! ## Where everything is

A record that the engine has applied goes three ways. What has left a conveyor, what is on it and
what the engine has not put there yet are together all that was applied. -/

/-- `seq` is one of the first `n` behind what the auction was opened with, or before them. -/
def Opened.Within (o : Opened) (n : ℕ) (seq : Seq) : Prop := seq.val < o.nextSeq.val + n

/-- What the ack thread still has to let out. -/
def AckPosition.unreleased : AckPosition → List Emission
  | .waiting p | .confirming p | .refused p => p.emissions
  | .releasing _ rest => rest
  | .receiving | .finished => []

def AckThread.unreleased (a : AckThread) : List Emission :=
  a.position.unreleased ++ a.queue.flatMap Pending.emissions

/-- A command that is past a wait has been waited for. -/
def AckPosition.Cleared (o : Opened) (mode : ReplicationMode) (synced : List LogRecord)
    (standby : Option Standby) (lost : Bool) : AckPosition → Prop
  | .confirming p => o.Within synced.length p.seq
  | .releasing p rest =>
    o.Within synced.length p.seq ∧
      (mode = .sync → lost = false → ∀ s ∈ standby, o.Within s.applied.length p.seq) ∧
      ∀ e ∈ rest, e.seq = p.seq
  | _ => True

/-- The standby has applied the first of the records, the rest is on its way, and it has confirmed
nothing that it has not applied. -/
structure Standby.Mirrors (o : Opened) (records : List LogRecord) (handing : Handing)
    (s : Standby) :
    Prop where
  records : records = s.applied ++ (s.queue ++ handing.unsent)
  state : applyAll o.state s.applied = some s.state
  confirmed : ∀ seq ∈ s.confirmed, o.Within s.applied.length seq
  confirming : ∀ seq, s.position = .confirming seq → o.Within s.applied.length seq

/-- What holds between any two steps. -/
structure Pipeline.Sound (o : Opened) (mode : ReplicationMode) (p : Pipeline) : Prop where
  history : Runs.Run AuctionState.step o.state (p.applied.map Applied.transition) p.engine.state
  numbered : NumberedFrom o.nextSeq.val p.records
  next : p.engine.nextSeq.val = o.nextSeq.val + p.applied.length
  source : ∀ a ∈ p.applied, a.record.cmd = a.origin.elim .tick Submission.cmd
  accepted : p.accepted = p.applied.filterMap Applied.origin ++ p.engine.rx
  commit : p.commit.Sound
  held : ∀ d ∈ p.commit.held, d.val + 1 = o.nextSeq.val
  submitted : p.records = p.commit.submitted ++ p.handing.unsubmitted
  released : p.applied.flatMap Applied.emissions =
    p.emitted ++ (p.acks.unreleased ++ p.handing.unreleased)
  emitted : ∀ e ∈ p.emitted, o.Within p.commit.synced.length e.seq
  cleared : p.acks.position.Cleared o mode p.commit.synced p.standby p.acks.replicaLost
  mirrored : ∀ s ∈ p.standby, s.Mirrors o p.records p.handing

section

variable {codec : Codec} {options : ThreadOptions} {o : Opened} {mode : ReplicationMode} {n m : ℕ}
  {seq : Seq} {r : LogRecord} {records front : List LogRecord}

theorem Opened.Within.mono (h : o.Within n seq) (hle : n ≤ m) : o.Within m seq :=
  Nat.lt_of_lt_of_le h (Nat.add_le_add_left hle _)

theorem Opened.Within.mem (hnum : NumberedFrom o.nextSeq.val records) (hfront : front <+: records)
    (hr : r ∈ records) (h : o.Within front.length r.seq) : r ∈ front := by
  obtain ⟨back, rfl⟩ := hfront
  rcases List.mem_append.mp hr with hr | hr
  · exact hr
  · have hback := ((NumberedFrom.append.mp hnum).2.le_of_mem hr).1
    exact absurd h (Nat.not_lt.mpr hback)

theorem CommitThread.Sound.within {c : CommitThread} (h : c.Sound)
    (hheld : ∀ d ∈ c.held, d.val + 1 = o.nextSeq.val)
    (hnum : NumberedFrom o.nextSeq.val c.submitted) (hle : some seq ≤ c.lastSynced) :
    o.Within c.synced.length seq := by
  obtain ⟨back, hback⟩ := h.synced.trans h.appended_prefix
  rw [← hback, NumberedFrom.append] at hnum
  rw [CommitThread.lastSynced, CommitThread.last] at hle
  cases hlast : c.synced.getLast? with
  | some r =>
    rw [hlast] at hle
    have hr := hnum.1.getLast? hlast
    have hseq : seq.val ≤ r.seq.val := Option.some_le_some.mp hle
    rw [Opened.Within]
    omega
  | none =>
    rw [hlast, Option.map_none, Option.none_or] at hle
    cases hd : c.held with
    | none =>
      rw [hd] at hle
      exact absurd hle Option.not_some_le_none
    | some d =>
      rw [hd] at hle
      have := hheld d hd
      have hseq : seq.val ≤ d.val := Option.some_le_some.mp hle
      rw [Opened.Within]
      omega

theorem Pending.seq_of_mem {p : Pending} {e : Emission} (h : e ∈ p.emissions) : e.seq = p.seq := by
  rcases List.mem_append.mp h with h | h
  · obtain ⟨v, -, rfl⟩ := Option.map_eq_some_iff.mp (Option.mem_toList.mp h)
    rfl
  · rcases List.mem_append.mp h with h | h
    · obtain ⟨event, -, rfl⟩ := List.mem_map.mp h
      rfl
    · obtain ⟨receiver, -, rfl⟩ := Option.map_eq_some_iff.mp (Option.mem_toList.mp h)
      rfl

theorem AckPosition.Cleared.mono {synced synced' : List LogRecord}
    {standby standby' : Option Standby}
    {lost : Bool} {position : AckPosition} (h : position.Cleared o mode synced standby lost)
    (hsynced : synced <+: synced')
    (hstandby : ∀ s' ∈ standby', ∃ s ∈ standby, s.applied <+: s'.applied) :
    position.Cleared o mode synced' standby' lost := by
  cases position with
  | confirming p => exact Opened.Within.mono h hsynced.length_le
  | releasing p rest =>
    refine ⟨h.1.mono hsynced.length_le, fun hmode hlost s' hs' ↦ ?_, h.2.2⟩
    obtain ⟨s, hs, hle⟩ := hstandby s' hs'
    exact (h.2.1 hmode hlost s hs).mono hle.length_le
  | receiving => trivial
  | waiting p => trivial
  | finished => trivial
  | refused p => trivial

/-! ## The standby -/

namespace Standby.Mirrors

variable {handing : Handing} {s s' : Standby} {a : Applied}

theorem congr {handing' : Handing} (h : s.Mirrors o records handing)
    (hunsent : handing'.unsent = handing.unsent) : s.Mirrors o records handing' where
  records := h.records.trans (hunsent ▸ rfl)
  state := h.state
  confirmed := h.confirmed
  confirming := h.confirming

theorem applied (h : s.Mirrors o records .nothing) :
    s.Mirrors o (records ++ [a.record]) (.replicating a) where
  records := by
    rw [h.records, List.append_assoc, List.append_assoc]
    rfl
  state := h.state
  confirmed := h.confirmed
  confirming := h.confirming

/-- **Sending** puts it behind the others. -/
theorem send (h : s.Mirrors o records (.replicating a)) :
    (s.send a.record).Mirrors o records (.logging a) where
  records := by
    rw [h.records]
    show s.applied ++ (s.queue ++ [a.record]) = s.applied ++ ((s.queue ++ [a.record]) ++ [])
    rw [List.append_nil]
  state := h.state
  confirmed := h.confirmed
  confirming := h.confirming

/-- **Following** applies the next record, and confirms it behind that. -/
theorem follow (h : s.Mirrors o records handing) (hnum : NumberedFrom o.nextSeq.val records)
    (hfollow : s.follow = some s') : s'.Mirrors o records handing ∧ s.applied <+: s'.applied := by
  rw [Standby.follow] at hfollow
  split at hfollow
  · split at hfollow
    · rename_i record queue hqueue
      obtain ⟨state, hstate, rfl⟩ := Option.map_eq_some_iff.mp hfollow
      have hrecords : records = (s.applied ++ [record]) ++ (queue ++ handing.unsent) := by
        rw [h.records, hqueue, List.append_assoc]
        rfl
      have hwithin : o.Within (s.applied ++ [record]).length record.seq := by
        rw [hrecords, NumberedFrom.append] at hnum
        have hlast := hnum.1.getLast? (r := record) (List.getLast?_concat ..)
        rw [Opened.Within, ← hlast]
        exact Nat.lt_succ_self _
      refine ⟨⟨hrecords, ?_, fun seq hseq ↦ ?_, fun seq hseq ↦ ?_⟩, List.prefix_append _ _⟩
      · rw [applyAll_append, h.state, Option.bind_some, applyAll, hstate]
        rfl
      · exact (h.confirmed seq hseq).mono (List.prefix_append _ _).length_le
      · obtain rfl := StandbyPosition.confirming.inj hseq
        exact hwithin
    · obtain rfl := Option.some.inj hfollow
      split_ifs
      · exact ⟨⟨h.records, h.state, h.confirmed, fun seq hseq ↦ by cases hseq⟩, List.prefix_rfl⟩
      · exact ⟨h, List.prefix_rfl⟩
  · rename_i seq hposition
    obtain rfl := Option.some.inj hfollow
    have hfields : (s.publish seq).applied = s.applied ∧ (s.publish seq).queue = s.queue ∧
        (s.publish seq).state = s.state ∧
          ∀ c ∈ (s.publish seq).confirmed, c ∈ s.confirmed ∨ c = seq := by
      rw [publish]
      split_ifs
      · exact ⟨rfl, rfl, rfl, fun c hc ↦ Or.inl hc⟩
      · exact ⟨rfl, rfl, rfl, fun c hc ↦ Or.inr (Option.some.inj hc).symm⟩
    obtain ⟨happlied, hqueue, hstate, hconfirmed⟩ := hfields
    refine ⟨⟨?_, ?_, fun c hc ↦ ?_, fun c hc ↦ by cases hc⟩, ?_⟩
    · show records = (s.publish seq).applied ++ ((s.publish seq).queue ++ handing.unsent)
      rw [happlied, hqueue]
      exact h.records
    · show applyAll o.state (s.publish seq).applied = some (s.publish seq).state
      rw [happlied, hstate]
      exact h.state
    · show o.Within (s.publish seq).applied.length c
      rw [happlied]
      rcases hconfirmed c hc with hc | rfl
      · exact h.confirmed c hc
      · exact h.confirming c hposition
    · exact ⟨[], (List.append_nil _).trans happlied.symm⟩
  · cases hfollow

end Standby.Mirrors

/-! ## Every step keeps it

The engine and the commit thread are followed call by call; a step of the one leaves the conveyors
of the other as they are. -/

namespace Pipeline.Sound

variable {p p' : Pipeline} (h : p.Sound o mode)
include h

/-- **The door** puts what it lets in behind the rest. -/
theorem accept {s : Submission} {engine : Engine}
    (hsubmit : p.engine.submit options s = .ok engine) :
    Pipeline.Sound o mode { p with engine := engine, accepted := p.accepted ++ [s] } := by
  rw [Engine.submit] at hsubmit
  split_ifs at hsubmit
  obtain rfl := Except.ok.inj hsubmit
  refine { h with accepted := ?_ }
  show p.accepted ++ [s] = p.applied.filterMap Applied.origin ++ (p.engine.rx ++ [s])
  rw [h.accepted, List.append_assoc]

/-- **A check** that picks no command leaves everything where it is. -/
theorem looked {seen anchored stamped : Instant} {engine : Engine}
    (hpasses : Engine.Passes p.engine seen anchored stamped engine none) :
    Pipeline.Sound o mode { p with engine := engine } := by
  obtain ⟨hstate, hnext, hrx⟩ := hpasses.none_eq
  refine { h with history := ?_, next := ?_, accepted := ?_ }
  · exact hstate ▸ h.history
  · exact (congrArg U64.val hnext).trans h.next
  · exact h.accepted.trans (congrArg _ hrx.symm)

/-- **The engine** takes a command in hand once it has applied it. -/
theorem engine {seen anchored stamped : Instant} {engine : Engine} {a : Applied}
    (hnothing : p.handing = .nothing)
    (hpasses : Engine.Passes p.engine seen anchored stamped engine (some a)) :
    Pipeline.Sound o mode
      { p with engine := engine, handing := .replicating a, applied := p.applied ++ [a] } := by
  have ha := hpasses.applies
  have hrecords : (p.applied ++ [a]).map Applied.record = p.records ++ [a.record] := by
    rw [List.map_append]
    rfl
  refine
    { h with
      history := ?_
      numbered := ?_
      next := ?_
      source := fun b hb ↦ ?_
      accepted := ?_
      submitted := ?_
      released := ?_
      mirrored := fun s hs ↦ ?_ }
  · show Runs.Run AuctionState.step o.state ((p.applied ++ [a]).map Applied.transition) engine.state
    rw [List.map_append, List.map_singleton, ha.transition]
    exact h.history.snoc ha.step
  · show NumberedFrom o.nextSeq.val ((p.applied ++ [a]).map Applied.record)
    rw [hrecords, NumberedFrom.append]
    refine ⟨h.numbered, ?_, trivial⟩
    rw [ha.seq, h.next, records, List.length_map]
  · show engine.nextSeq.val = o.nextSeq.val + (p.applied ++ [a]).length
    rw [ha.next, h.next, List.length_append, Nat.add_assoc]
    rfl
  · rcases List.mem_append.mp hb with hb | hb
    · exact h.source b hb
    · rw [List.mem_singleton.mp hb]
      exact ha.cmd
  · show p.accepted = (p.applied ++ [a]).filterMap Applied.origin ++ engine.rx
    rw [h.accepted, ha.rx, List.filterMap_append, List.append_assoc]
    cases horigin : a.origin with
    | none => rw [List.filterMap_cons_none horigin]; rfl
    | some s => rw [List.filterMap_cons_some horigin]; rfl
  · show (p.applied ++ [a]).map Applied.record = p.commit.submitted ++ [a.record]
    rw [hrecords, h.submitted, hnothing]
    exact congrArg (· ++ [a.record]) (List.append_nil _)
  · show (p.applied ++ [a]).flatMap Applied.emissions =
      p.emitted ++ (p.acks.unreleased ++ a.emissions)
    rw [List.flatMap_append, h.released, hnothing, List.flatMap_singleton, List.append_assoc,
      List.append_assoc]
    rfl
  · show s.Mirrors o ((p.applied ++ [a]).map Applied.record) (.replicating a)
    rw [hrecords]
    exact (hnothing ▸ h.mirrored s hs).applied

/-- **Handing over** moves what is in hand onto the conveyors, first of the standby, then of the log
and of the ack thread. -/
theorem replicated {a : Applied} (ha : p.handing = .replicating a) :
    Pipeline.Sound o mode
      { p with standby := p.standby.map (Standby.send a.record), handing := .logging a } := by
  refine
    { h with
      submitted := h.submitted.trans (ha ▸ rfl)
      released := h.released.trans (ha ▸ rfl)
      cleared := h.cleared.mono List.prefix_rfl fun s' hs' ↦ ?_
      mirrored := fun s' hs' ↦ ?_ }
  · obtain ⟨s, hs, rfl⟩ := Option.map_eq_some_iff.mp hs'
    exact ⟨s, hs, List.prefix_rfl⟩
  · obtain ⟨s, hs, rfl⟩ := Option.map_eq_some_iff.mp hs'
    exact (ha ▸ h.mirrored s hs : s.Mirrors o p.records (.replicating a)).send

theorem logged {a : Applied} {commit : CommitThread} {wal : WalOptions}
    (ha : p.handing = .logging a)
    (hsend : p.commit.send wal (.record a.record) = some (commit, true)) :
    Pipeline.Sound o mode { p with commit := commit, handing := .answering a } := by
  have hcommit := (h.commit.send hsend).1
  obtain ⟨-, -, rfl⟩ | ⟨hsent, -, -⟩ := CommitThread.send_cases hsend
  · refine
      { h with
        commit := hcommit
        submitted := ?_
        released := h.released.trans (ha ▸ rfl)
        mirrored := fun s hs ↦ (h.mirrored s hs).congr (ha ▸ rfl) }
    show p.records = (p.commit.submitted ++ [a.record]) ++ []
    rw [h.submitted, ha, List.append_nil]
    rfl
  · cases hsent

theorem answered {a : Applied} (ha : p.handing = .answering a) :
    Pipeline.Sound o mode
      { p with
        acks := { p.acks with queue := p.acks.queue ++ [a.pending] }
        handing := .nothing } := by
  refine
    { h with
      submitted := h.submitted.trans (ha ▸ rfl)
      released := ?_
      mirrored := fun s hs ↦ (h.mirrored s hs).congr (ha ▸ rfl) }
  show p.applied.flatMap Applied.emissions = p.emitted ++ ((p.acks.position.unreleased ++
    (p.acks.queue ++ [a.pending]).flatMap Pending.emissions) ++ [])
  rw [h.released, ha, List.flatMap_append, List.flatMap_singleton, List.append_nil,
    ← List.append_assoc p.acks.position.unreleased]
  rfl

/-- **Breaking off**, the engine keeps what it has in hand. -/
theorem stopped {handing : Handing} (hunsent : handing.unsent = p.handing.unsent)
    (hunsubmitted : handing.unsubmitted = p.handing.unsubmitted)
    (hunreleased : handing.unreleased = p.handing.unreleased) :
    Pipeline.Sound o mode
      { p with engine := { p.engine with position := .stopped }, handing := handing } :=
  { h with
    submitted := h.submitted.trans (hunsubmitted ▸ rfl)
    released := h.released.trans (hunreleased ▸ rfl)
    mirrored := fun s hs ↦ (h.mirrored s hs).congr hunsent }

theorem commitThread {commit : CommitThread} (hcommit : commit.Sound)
    (hheld : commit.held = p.commit.held) (hsubmitted : commit.submitted = p.commit.submitted)
    (hsynced : p.commit.synced <+: commit.synced) :
    Pipeline.Sound o mode { p with commit := commit } := by
  refine
    { h with
      commit := hcommit
      held := hheld ▸ h.held
      submitted := hsubmitted ▸ h.submitted
      emitted := fun e he ↦ ?_
      cleared := h.cleared.mono hsynced fun s hs ↦ ⟨s, hs, List.prefix_rfl⟩ }
  exact (h.emitted e he).mono hsynced.length_le

/-- **A stop** in the channel of the commit thread is no record. -/
theorem stopCommit {wal : WalOptions} {commit : CommitThread} {sent : Bool}
    (hsend : p.commit.send wal .stop = some (commit, sent)) :
    Pipeline.Sound o mode { p with commit := commit } := by
  have hsound := (h.commit.send hsend).1
  obtain ⟨-, -, rfl⟩ | ⟨-, -, rfl⟩ := CommitThread.send_cases hsend
  · exact h.commitThread hsound rfl (List.append_nil _) List.prefix_rfl
  · exact h.commitThread hsound rfl rfl List.prefix_rfl

theorem commit_within (hle : some seq ≤ p.commit.watermark.durable) :
    o.Within p.commit.synced.length seq := by
  have hnum := h.numbered
  rw [h.submitted, NumberedFrom.append] at hnum
  exact h.commit.within h.held hnum.1 (markLE_trans hle h.commit.mark_le)

/-- **The ack thread** lets out what it has waited for, and nothing else. -/
theorem acks {hungUp : Bool} {acks : AckThread} {out : Option Emission}
    (hsteps : p.acks.Steps mode p.commit.watermark p.standby hungUp acks out) :
    Pipeline.Sound o mode { p with acks := acks, emitted := p.emitted ++ out.toList } := by
  have hkeep : ∀ {a : AckThread}, a.unreleased = p.acks.unreleased →
      p.applied.flatMap Applied.emissions =
        (p.emitted ++ []) ++ (a.unreleased ++ p.handing.unreleased) := by
    intro a ha
    rw [ha, List.append_nil]
    exact h.released
  have hemitted : ∀ e ∈ p.emitted ++ [], o.Within p.commit.synced.length e.seq := by
    rw [List.append_nil]
    exact h.emitted
  have hcleared := h.cleared
  cases hsteps with
  | took pending queue hposition hqueue =>
    refine { h with released := hkeep ?_, emitted := hemitted, cleared := trivial }
    rw [AckThread.unreleased, AckThread.unreleased, hposition, hqueue]
    rfl
  | finished hposition hqueue hhung =>
    refine { h with released := hkeep ?_, emitted := hemitted, cleared := trivial }
    rw [AckThread.unreleased, AckThread.unreleased, hposition]
    rfl
  | durable pending hposition hwait =>
    refine { h with released := hkeep ?_, emitted := hemitted, cleared := ?_ }
    · rw [AckThread.unreleased, AckThread.unreleased, hposition]
      rfl
    · exact h.commit_within (GroupCommit.waitFor_ok hwait)
  | refused pending reason hposition hwait =>
    refine { h with released := hkeep ?_, emitted := hemitted, cleared := trivial }
    rw [AckThread.unreleased, AckThread.unreleased, hposition]
    rfl
  | cleared pending hposition hconfirmed =>
    rw [hposition] at hcleared
    refine { h with released := hkeep ?_, emitted := hemitted, cleared := ?_ }
    · rw [AckThread.unreleased, AckThread.unreleased, hposition]
      rfl
    · refine ⟨hcleared, fun hmode hlost s hs ↦ ?_, fun e he ↦ Pending.seq_of_mem he⟩
      obtain ⟨confirmed, hmem, hle⟩ := hconfirmed hmode hlost s hs
      exact Nat.lt_of_le_of_lt hle ((h.mirrored s hs).confirmed confirmed hmem)
  | lost pending hposition =>
    rw [hposition] at hcleared
    refine { h with released := hkeep ?_, emitted := hemitted, cleared := ?_ }
    · rw [AckThread.unreleased, AckThread.unreleased, hposition]
      rfl
    · exact ⟨hcleared, fun _ hlost ↦ Bool.noConfusion hlost, fun e he ↦ Pending.seq_of_mem he⟩
  | released pending e rest hposition =>
    rw [hposition] at hcleared
    obtain ⟨hsynced, hstandby, hseq⟩ := hcleared
    refine
      { h with
        released := ?_
        emitted := fun e' he' ↦ ?_
        cleared := ⟨hsynced, hstandby, fun e' he' ↦ hseq e' (List.mem_cons_of_mem _ he')⟩ }
    · rw [h.released, AckThread.unreleased, AckThread.unreleased, hposition,
        List.append_assoc p.emitted]
      rfl
    · rcases List.mem_append.mp he' with he' | he'
      · exact h.emitted e' he'
      · rw [List.mem_singleton.mp he', hseq e List.mem_cons_self]
        exact hsynced
  | done pending hposition =>
    refine { h with released := hkeep ?_, emitted := hemitted, cleared := trivial }
    rw [AckThread.unreleased, AckThread.unreleased, hposition]
    rfl

/-- **The standby** applies and confirms, and the acks that waited for it stay right. -/
theorem standby {s s' : Standby} (hs : p.standby = some s) (hfollow : s.follow = some s') :
    Pipeline.Sound o mode { p with standby := some s' } := by
  obtain ⟨hmirrors, hforward⟩ := (h.mirrored s hs).follow h.numbered hfollow
  refine { h with cleared := h.cleared.mono List.prefix_rfl ?_, mirrored := ?_ }
  · intro t ht
    obtain rfl := Option.some.inj ht
    exact ⟨s, hs, hforward⟩
  · intro t ht
    obtain rfl := Option.some.inj ht
    exact hmirrors

theorem stopStandby :
    Pipeline.Sound o mode
      { p with standby := p.standby.map fun s ↦ { s with stopping := true } } := by
  refine { h with cleared := h.cleared.mono List.prefix_rfl ?_, mirrored := ?_ }
  · intro t ht
    obtain ⟨s, hs, rfl⟩ := Option.map_eq_some_iff.mp ht
    exact ⟨s, hs, List.prefix_rfl⟩
  · intro t ht
    obtain ⟨s, hs, rfl⟩ := Option.map_eq_some_iff.mp ht
    exact { h.mirrored s hs with }

end Pipeline.Sound

/-- The log that was opened ends where the sequencer resumes, and all of it is durable. -/
structure Opened.Aligned (o : Opened) : Prop where
  durable : o.wal.appended = o.wal.durable
  next : ∀ d ∈ o.wal.durable, d.next = some o.nextSeq

/-- **Recovery and the log agree** on where the auction resumes. -/
theorem openInner_aligned {config : AuctionConfig} {segmentBytes : U64} {dir : Dir}
    (hopen : openInner codec config segmentBytes dir = some (.ok o))
    (hmanifest : dir.manifest = none → dir.segments = []) : o.Aligned := by
  obtain ⟨recovered, hrecover, hresult⟩ := Option.map_eq_some_iff.mp hopen
  have hresume : ∀ {state nextSeq},
      openInner.resume codec config segmentBytes dir state nextSeq = .ok o →
        o.wal.appended = o.wal.durable ∧ codec.lastSeqIn dir = .ok o.wal.durable ∧
          o.nextSeq = nextSeq := by
    intro state nextSeq h
    rw [openInner.resume] at h
    split at h
    · rename_i wal dir' hwal
      obtain rfl := Except.ok.inj h
      exact ⟨(Wal.open_durable hwal).1, (Wal.open_durable hwal).2, rfl⟩
    · cases h
  split at hresult
  · rename_i r
    split_ifs at hresult
    obtain ⟨hdurable, hlast, hnext⟩ := hresume hresult
    refine ⟨hdurable, fun d hd ↦ ?_⟩
    rw [Codec.recover] at hrecover
    split at hrecover
    · cases hrecover
    · split at hrecover
      · cases hrecover
      · rename_i records hread
        obtain ⟨n, hnum⟩ := Codec.readAll_numbered hread
        rw [Codec.lastSeqIn, hread] at hlast
        have hlast' := Except.ok.inj hlast
        rw [Option.mem_def.mp hd] at hlast'
        obtain ⟨record, hrecord, rfl⟩ := Option.map_eq_some_iff.mp hlast'
        rw [hnext]
        exact recoverFrom_next hnum hrecover record hrecord
  · obtain ⟨hdurable, hlast, -⟩ := hresume hresult
    refine ⟨hdurable, fun d hd ↦ ?_⟩
    rw [Codec.recover] at hrecover
    have hnone : dir.segments = [] := by
      refine hmanifest ?_
      by_contra hsome
      split at hrecover
      · rename_i e hread
        cases hrecover
        rw [Dir.readManifest] at hread
        split at hread
        · rename_i hnone
          exact hsome hnone
        · cases hread
        · cases hread
      · split at hrecover
        · rename_i e hread
          rw [Codec.lastSeqIn, hread] at hlast
          cases hlast
        · -- What recovery itself can complain of is a gap.
          obtain ⟨result, hreplay, hresult⟩ := Option.bind_eq_some_iff.mp hrecover
          split at hresult
          · cases hresult
            obtain ⟨prev, found, hgap⟩ := replay_error hreplay
            cases hgap
          · obtain ⟨nextSeq, -, heq⟩ := Option.map_eq_some_iff.mp hresult
            cases heq
    rw [Codec.lastSeqIn, Codec.readAll, hnone] at hlast
    have hlast' := Except.ok.inj hlast
    rw [Option.mem_def.mp hd] at hlast'
    cases hlast'
  · cases hresult

namespace Pipeline

theorem start_sound (h : o.Aligned) (replicated : Bool) (instant : Instant) :
    (start o replicated instant).Sound o mode where
  history := Runs.Run.nil
  numbered := trivial
  next := rfl
  source a ha := absurd ha List.not_mem_nil
  accepted := rfl
  commit := CommitThread.spawn_sound h.durable o.dir
  held d hd := (Seq.next_eq_some.mp (h.next d hd)).symm
  submitted := rfl
  released := rfl
  emitted e he := absurd he List.not_mem_nil
  cleared := trivial
  mirrored s hs := by
    cases replicated with
    | false => exact absurd hs (Option.not_mem_none s)
    | true =>
      obtain rfl := Option.some.inj hs
      exact ⟨rfl, rfl, fun seq hseq ↦ absurd hseq (Option.not_mem_none seq),
        fun seq hseq ↦ StandbyPosition.noConfusion hseq⟩

variable {p p' : Pipeline} {move : Move} {out : Option Output}

/-- **One step** keeps everything in its place. -/
theorem Sound.step (h : p.Sound o options.replication)
    (hstep : Pipeline.step codec options p move = some (p', out)) :
    p'.Sound o options.replication := by
  cases step_steps hstep with
  | accepted s engine hsubmit => exact h.accept hsubmit
  | shed s why hsubmit => exact h
  | looked seen anchored stamped engine hnothing hpasses => exact h.looked hpasses
  | applied seen anchored stamped engine a hnothing hpasses => exact h.engine hnothing hpasses
  | replicated a ha => exact h.replicated ha
  | logged a commit ha hsend => exact h.logged ha hsend
  | unlogged a ha hended => exact h.stopped (ha ▸ rfl) (ha ▸ rfl) (ha ▸ rfl)
  | answered a ha hopen => exact h.answered ha
  | unanswered a ha hended => exact h.stopped (ha ▸ rfl) (ha ▸ rfl) (ha ▸ rfl)
  | left hposition => exact { h with }
  | committed move commit hadvance =>
    obtain ⟨hsound, hfollows⟩ := h.commit.advance hadvance
    obtain ⟨hsubmitted, hsynced⟩ := h.commit.advance_lists hadvance
    exact h.commitThread hsound hfollows.held hsubmitted hsynced
  | acked timedOut acks e hsteps => exact h.acks hsteps
  | followed s s' hs hfollow => exact h.standby hs hfollow
  | stoppedStandby => exact h.stopStandby
  | stoppedCommit commit sent hsend => exact h.stopCommit hsend
  | flagged hshutdown => exact { h with }
  | joinedEngine hshutdown hended => exact { h with }
  | stoppedLog commit sent hshutdown hsend => exact { h.stopCommit hsend with }
  | joinedLog hshutdown hended => exact { h with }
  | joinedAcks hshutdown hended => exact { h with }

theorem step_emitted (hstep : step codec options p move = some (p', out)) :
    p'.emitted = p.emitted ++ (out.bind Output.emission?).toList := by
  cases step_steps hstep with
  | acked timedOut acks e hsteps =>
    cases e with
    | none => rfl
    | some e => rfl
  | _ => exact (List.append_nil _).symm

theorem run_emitted {replicated : Bool} {instant : Instant}
    {tr : List (Runs.Transition Pipeline Move (Option Output))}
    (hrun : Run codec options o replicated instant tr p) : emissions tr = p.emitted := by
  induction hrun with
  | nil => rfl
  | @snoc tr p p' move out hrun hstep ih =>
    rw [step_emitted hstep, ← ih, emissions, List.filterMap_append]
    refine congrArg (_ ++ ·) ?_
    cases hout : out.bind Output.emission? with
    | none => exact List.filterMap_cons_none hout
    | some e => exact List.filterMap_cons_some hout

theorem pairwise_emissions {applied : List Applied} {n : ℕ}
    (hnum : NumberedFrom n (applied.map Applied.record)) :
    (applied.flatMap Applied.emissions).Pairwise fun e e' ↦ e.seq ≤ e'.seq := by
  induction applied generalizing n with
  | nil => exact List.Pairwise.nil
  | cons a applied ih =>
    rw [List.flatMap_cons, List.pairwise_append]
    have hseq : ∀ e ∈ a.emissions, e.seq = a.record.seq := fun e he ↦ Pending.seq_of_mem he
    refine ⟨List.pairwise_of_forall_mem_list fun e he e' he' ↦ ?_, ih hnum.2, fun e he e' he' ↦ ?_⟩
    · rw [hseq e he, hseq e' he']
    · obtain ⟨b, hb, he'⟩ := List.mem_flatMap.mp he'
      have hle := (hnum.2.le_of_mem (List.mem_map_of_mem hb)).1
      rw [hseq e he, Pending.seq_of_mem he']
      exact U64.le_def.mpr ((Nat.le_succ _).trans (hnum.1 ▸ hle))

theorem step_refused {pending : Pending} (hstep : step codec options p move = some (p', out))
    (hrefused : p.acks.position = .refused pending) :
    p'.acks.position = .refused pending ∧ p'.emitted = p.emitted := by
  cases step_steps hstep with
  | acked timedOut acks e hsteps =>
    cases hsteps with
    | took q queue hposition hqueue => cases hrefused.symm.trans hposition
    | finished hposition hqueue hhung => cases hrefused.symm.trans hposition
    | durable q hposition hwait => cases hrefused.symm.trans hposition
    | refused q reason hposition hwait => cases hrefused.symm.trans hposition
    | cleared q hposition hconfirmed => cases hrefused.symm.trans hposition
    | lost q hposition => cases hrefused.symm.trans hposition
    | released q e rest hposition => cases hrefused.symm.trans hposition
    | done q hposition => cases hrefused.symm.trans hposition
  | _ => exact ⟨hrefused, rfl⟩

/-- An answer is never ahead of the disk or of the standby, and what is let out is the public record
of what the engine applied. -/
structure Discloses (options : ThreadOptions) (o : Opened)
    (tr : List (Runs.Transition Pipeline Move (Option Output))) (p : Pipeline) : Prop where
  /-- Whatever is let out, every record up to it has been synced, -/
  durable : ∀ t ∈ tr, ∀ e, t.out = some (.emitted e) →
    ∀ a ∈ t.pre.applied, a.record.seq ≤ e.seq → a.record ∈ t.pre.commit.synced
  /-- and applied by the standby, unless that has been declared lost. -/
  replicated : options.replication = .sync → ∀ t ∈ tr, t.pre.acks.replicaLost = false →
    ∀ e, t.out = some (.emitted e) → ∀ s ∈ t.pre.standby,
      ∀ a ∈ t.pre.applied, a.record.seq ≤ e.seq → a.record ∈ s.applied
  /-- The commands applied are a run of the state machine, numbered one after another, -/
  history : Runs.Run AuctionState.step o.state (p.applied.map Applied.transition) p.engine.state
  numbered : NumberedFrom o.nextSeq.val p.records
  /-- and what they brought about is let out in their order, each thing once. -/
  order : emissions tr <+: p.applied.flatMap Applied.emissions
  ascending : (emissions tr).Pairwise fun e e' ↦ e.seq ≤ e'.seq
  /-- Nothing is let out from the first command on that is not durable, -/
  stops : ∀ a ∈ p.applied, a.record ∉ p.commit.synced → ∀ e ∈ emissions tr, e.seq < a.record.seq
  /-- nor after a wait has failed. -/
  refused : ∀ t ∈ tr, ∀ pending, t.post.acks.position = .refused pending →
    emissions tr = t.post.emitted
  /-- The standby is where a prefix of the records leads. -/
  standby : ∀ s ∈ p.standby, s.applied <+: p.records ∧ applyAll o.state s.applied = some s.state

theorem Sound.synced_prefix (h : p.Sound o mode) : p.commit.synced <+: p.records :=
  (h.commit.synced.trans h.commit.appended_prefix).trans ⟨_, h.submitted.symm⟩

theorem Sound.of_emitted (h : p.Sound o options.replication) {e : Emission}
    (hstep : Pipeline.step codec options p move = some (p', some (.emitted e))) :
    o.Within p.commit.synced.length e.seq ∧
      (options.replication = .sync → p.acks.replicaLost = false →
        ∀ s ∈ p.standby, o.Within s.applied.length e.seq) := by
  have hsteps := step_steps hstep
  generalize hout : some (Output.emitted e) = out at hsteps
  cases hsteps with
  | acked timedOut acks e' hsteps =>
    cases hsteps with
    | released pending e' rest hposition =>
      obtain rfl := Output.emitted.inj (Option.some.inj hout)
      have hcleared := h.cleared
      rw [hposition] at hcleared
      rw [hcleared.2.2 e List.mem_cons_self]
      exact ⟨hcleared.1, hcleared.2.1⟩
    | _ => cases hout
  | accepted s engine hsubmit => cases hout
  | shed s why hsubmit => cases hout
  | _ => cases hout

/-- **An acknowledgement is never ahead of the disk or the standby, and the public record is in
order.** -/
theorem acks_behind_disk_and_standby {config : AuctionConfig} {segmentBytes : U64} {dir : Dir}
    {replicated : Bool} {instant : Instant}
    {tr : List (Runs.Transition Pipeline Move (Option Output))}
    (hopen : openInner codec config segmentBytes dir = some (.ok o))
    (hmanifest : dir.manifest = none → dir.segments = [])
    (hrun : Run codec options o replicated instant tr p) : Discloses options o tr p := by
  obtain ⟨hsound, hpast⟩ := hrun.history (P := Sound o options.replication)
    (R := fun p p' ↦ ∀ pending, p.acks.position = .refused pending →
      p'.acks.position = .refused pending ∧ p'.emitted = p.emitted)
    (fun _ _ h ↦ ⟨h, rfl⟩)
    (fun _ _ _ h h' pending hrefused ↦
      ⟨(h' pending (h pending hrefused).1).1,
        (h' pending (h pending hrefused).1).2.trans (h pending hrefused).2⟩)
    (start_sound (openInner_aligned hopen hmanifest) replicated instant)
    (fun _ _ _ _ hs hstep ↦ ⟨hs.step hstep, fun _ hrefused ↦ step_refused hstep hrefused⟩)
  have hemitted := run_emitted hrun
  have hemissions : emissions tr <+: p.applied.flatMap Applied.emissions := by
    rw [hemitted, hsound.released]
    exact List.prefix_append _ _
  refine
    { durable := fun t ht e hout a ha hle ↦ ?_
      replicated := fun hmode t ht hlost e hout s hs a ha hle ↦ ?_
      history := hsound.history
      numbered := hsound.numbered
      order := hemissions
      ascending := (pairwise_emissions hsound.numbered).sublist hemissions.sublist
      stops := fun a ha hunsynced e he ↦ ?_
      refused := fun t ht pending hrefused ↦ ?_
      standby := fun s hs ↦ ?_ }
  · have hpre := (hpast t ht).1
    have hstep := (hrun.split ht).2
    rw [hout] at hstep
    refine Opened.Within.mem hpre.numbered hpre.synced_prefix (List.mem_map_of_mem ha) ?_
    exact Nat.lt_of_le_of_lt hle (hpre.of_emitted hstep).1
  · have hpre := (hpast t ht).1
    have hstep := (hrun.split ht).2
    rw [hout] at hstep
    refine Opened.Within.mem hpre.numbered ?_ (List.mem_map_of_mem ha) ?_
    · exact ⟨_, (hpre.mirrored s hs).records.symm⟩
    · exact Nat.lt_of_le_of_lt hle ((hpre.of_emitted hstep).2 hmode hlost s hs)
  · by_contra hle
    refine hunsynced (Opened.Within.mem hsound.numbered hsound.synced_prefix
      (List.mem_map_of_mem ha) ?_)
    exact Nat.lt_of_le_of_lt (not_lt.mp hle) (hsound.emitted e (hemitted ▸ he))
  · rw [hemitted]
    exact ((hpast t ht).2.2 pending hrefused).2
  · obtain ⟨hrecords, hstate, -, -⟩ := hsound.mirrored s hs
    exact ⟨⟨_, hrecords.symm⟩, hstate⟩

/-- A new auction with a standby that is waited for. -/
def sampleOpened : Opened where
  state := AuctionState.new (.sample 0)
  nextSeq := 0
  wal := ⟨4096, 0, 0, [], none, none⟩
  dir := ⟨some (.ok (.sample 0)), OrdMap.empty.upsert 0 fun _ ↦ [], OrdMap.empty⟩

/-- It is opened by a command: the standby confirms it, the log syncs it, and the answer goes
out. -/
def samplePlay : List (Runs.Transition Pipeline Move (Option Output)) × Pipeline :=
  Runs.play (step Bincode.codec ⟨4, ⟨4, 4⟩, 0, .sync⟩) (start sampleOpened true 0)
    [.submit ⟨.open, some 0⟩, .engine 0 0 0, .engine 0 0 0, .hand, .hand, .hand, .acks false,
      .standby, .standby, .commit .poll, .commit .lapse, .commit (.write none),
      .commit (.write none), .commit .publish, .acks false, .acks false, .acks false, .acks false,
      .acks false]

theorem acks_behind_disk_and_standby_sample :
    (emissions samplePlay.1).map Emission.seq = [0, 0, 0] ∧
      Discloses ⟨4, ⟨4, 4⟩, 0, .sync⟩ sampleOpened samplePlay.1 samplePlay.2 := by
  have hopen : openInner Bincode.codec (.sample 0) 4096 Dir.empty = some (.ok sampleOpened) := rfl
  exact ⟨rfl, acks_behind_disk_and_standby hopen (fun _ ↦ rfl) (Runs.run_play _ _ _)⟩

end Pipeline

end

end DutchAuction
