import DutchAuction.Wal.Bincode
import DutchAuction.Wal.Recovery
import DutchAuction.Wal.Writing

/-!
# Group commit

Many appends, one sync. Records reach the writer thread through one bounded channel; it gathers what
arrives while it lingers, appends the batch, syncs once and publishes the highest durable sequence
number. Whoever waits for a record is parked on that number. A stop message ends the writer behind
everything queued before it, and a failed write ends it at once; either way the mark is closed at
its last value.

The channel, the writer and the callers are interleaved step by step (`GroupCommit.step`). Every
call that writes may fail; what a failed call leaves in the files is then not looked at again.
`Sound` is what holds between any two steps: what was submitted is what has been appended, what the
writer has in hand and what is queued, in this order, and the mark is the last record synced. -/

namespace DutchAuction

/-! ## The mark -/

/-- A mark that was never set is below every other. -/
instance decidableMarkLE : ∀ a b : Option Seq, Decidable (a ≤ b)
  | none, _ => .isTrue Option.none_le
  | some _, none => .isFalse Option.not_some_le_none
  | some _, some _ => decidable_of_iff _ Option.some_le_some.symm

theorem markLE_refl (a : Option Seq) : a ≤ a := by
  cases a with
  | none => exact Option.none_le
  | some a => exact Option.some_le_some.mpr le_rfl

theorem markLE_trans {a b d : Option Seq} (h : a ≤ b) (h' : b ≤ d) : a ≤ d := by
  cases a with
  | none => exact Option.none_le
  | some a =>
    cases b with
    | none => exact absurd h Option.not_some_le_none
    | some b =>
      cases d with
      | none => exact absurd h' Option.not_some_le_none
      | some d =>
        exact Option.some_le_some.mpr ((Option.some_le_some.mp h).trans (Option.some_le_some.mp h'))

theorem markLE_antisymm {a b : Option Seq} (h : a ≤ b) (h' : b ≤ a) : a = b := by
  cases a with
  | none =>
    cases b with
    | none => rfl
    | some b => exact absurd h' Option.not_some_le_none
  | some a =>
    cases b with
    | none => exact absurd h Option.not_some_le_none
    | some b =>
      exact congrArg some (le_antisymm (Option.some_le_some.mp h) (Option.some_le_some.mp h'))

/-- Why a write failed. -/
inductive WriteError
  | io (detail : String)
  | log (e : WalError)
deriving DecidableEq

/-- Why the writer stopped, as those who are still waiting are told. -/
inductive StopReason
  | failed (e : WriteError)
  | shutDown
deriving DecidableEq

/-- The published durability watermark. -/
inductive Watermark
  /-- The writer is running; this is the highest sequence proven durable so far. -/
  | live (durable : Option Seq)
  /-- The writer has stopped. `durable` is final and will never advance again. -/
  | closed (durable : Option Seq) (reason : StopReason)
deriving DecidableEq

namespace Watermark

def durable : Watermark → Option Seq
  | live d => d
  | closed d _ => d

/-- Advance the mark to `seq`, if that is forward. -/
def publish (seq : Option Seq) : Watermark → Watermark
  | live d => if seq ≤ d then live d else live seq
  | closed d reason => closed d reason

/-- Stop the mark for good. -/
def close (reason : StopReason) (w : Watermark) : Watermark := closed w.durable reason

/-- What a waiter for `target` reads off the mark; `none` is to go on waiting. -/
def waitFor (target : Seq) : Watermark → Option (Except StopReason Unit)
  | live d => if some target ≤ d then some (.ok ()) else none
  | closed d reason => some (if some target ≤ d then .ok () else .error reason)

end Watermark

/-! ## The writer thread

The writer receives a record, gathers a batch, writes it record by record, syncs and publishes the
mark. It ends by the stop, behind which it still writes what is queued, or by a call that fails. -/

/-- What the writer thread consumes. -/
inductive Msg
  | record (r : LogRecord)
  /-- Stop after draining. -/
  | stop

def Msg.record? : Msg → Option LogRecord
  | record r => some r
  | stop => none

/-- What the log is tuned with. -/
structure WalOptions where
  maxBatch : ℕ
  /-- Of a queue of depth zero, which hands over directly, the one slot is the sender's. -/
  submitQueueDepth : ℕ

/-- What the writer does behind a batch. -/
inductive After
  | receive
  /-- The stop was taken: drain the channel. -/
  | drain
  /-- The batch was what had been left in the channel. -/
  | close

/-- Where the writer thread is. -/
inductive Writer
  /-- Blocked until there is something to do. -/
  | receiving (wal : Wal)
  /-- Lingering, with what has arrived. -/
  | gathering (wal : Wal) (batch : List LogRecord)
  /-- Appending the rest of a batch, and then syncing. -/
  | writing (wal : Wal) (rest : List LogRecord) (after : After)
  /-- Synced, and about to publish. -/
  | publishing (wal : Wal) (durable : Option Seq) (after : After)
  /-- Taking whatever is left in the channel. -/
  | draining (wal : Wal) (leftovers : List LogRecord)
  | closing (reason : StopReason)
  /-- Closed, and still holding its end of the channel. -/
  | returning
  | ended

/-- Where a batch leads. -/
def After.next (wal : Wal) : After → Writer
  | receive => .receiving wal
  | drain => .draining wal []
  | close => .closing .shutDown

/-! ## The channel, the writer and the mark

One step is one call of the writer on the channel, on the log or on the mark. Of a call that fails
it does not matter what it leaves in the files. -/

/-- The commit thread and what it shares with its callers. -/
structure CommitThread where
  queue : List Msg
  /-- Every sender is gone. -/
  hungUp : Bool
  writer : Writer
  watermark : Watermark
  dir : Dir
  /-- What the log held when it was opened. -/
  held : Option Seq
  /-- Every record that was queued, in order. -/
  submitted : List LogRecord
  /-- Every record that was appended to the log, in order. -/
  appended : List LogRecord
  /-- What had been appended at the last completed sync. -/
  synced : List LogRecord

namespace CommitThread

/-- Take ownership of the log and start batching. -/
def spawn (wal : Wal) (dir : Dir) : CommitThread where
  queue := []
  hungUp := false
  writer := .receiving wal
  watermark := .live wal.durable
  dir := dir
  held := wal.durable
  submitted := []
  appended := []
  synced := []

/-- The last of these records, or what the log held before them. -/
def last (c : CommitThread) (records : List LogRecord) : Option Seq :=
  (records.getLast?.map LogRecord.seq).or c.held

/-- The last successfully synced sequence. -/
def lastSynced (c : CommitThread) : Option Seq := c.last c.synced

/-- What is in the channel. -/
def queued (c : CommitThread) : List LogRecord := c.queue.filterMap Msg.record?

/-- A write failed, and the writer stopped because of it. -/
def Failed (c : CommitThread) : Prop :=
  (∃ e, c.writer = .closing (.failed e)) ∨ ∃ d e, c.watermark = .closed d (.failed e)

/-- Put a message into the channel. The sender blocks while it is full, and is refused once the
writer is gone. -/
def send (options : WalOptions) (msg : Msg) (c : CommitThread) : Option (CommitThread × Bool) :=
  match c.writer with
  | .ended => some (c, false)
  | _ =>
    if c.hungUp = false ∧ c.queue.length < max options.submitQueueDepth 1 then
      some ({ c with
        queue := c.queue ++ [msg]
        submitted := c.submitted ++ msg.record?.toList }, true)
    else none

/-- The writer asks the channel for a message. -/
def poll (options : WalOptions) (c : CommitThread) : Option CommitThread :=
  match c.writer, c.queue with
  -- `recv`: block until there is something to do.
  | .receiving wal, .record r :: queue =>
    some { c with queue := queue, writer := .gathering wal [r] }
  | .receiving wal, .stop :: queue => some { c with queue := queue, writer := .draining wal [] }
  | .receiving wal, [] => if c.hungUp then some { c with writer := .draining wal [] } else none
  -- `try_recv`, while the batch has room.
  | .gathering wal batch, queue =>
    if batch.length < options.maxBatch then
      match queue with
      | .record r :: queue =>
        some { c with queue := queue, writer := .gathering wal (batch ++ [r]) }
      | .stop :: queue => some { c with queue := queue, writer := .writing wal batch .drain }
      | [] => if c.hungUp then some { c with writer := .writing wal batch .receive } else none
    else some { c with writer := .writing wal batch .receive }
  -- `try_iter`, until the channel is empty.
  | .draining wal leftovers, .record r :: queue =>
    some { c with queue := queue, writer := .draining wal (leftovers ++ [r]) }
  | .draining wal leftovers, .stop :: queue =>
    some { c with queue := queue, writer := .draining wal leftovers }
  | .draining _ [], [] => some { c with writer := .closing .shutDown }
  | .draining wal leftovers, [] => some { c with writer := .writing wal leftovers .close }
  | _, _ => none

/-- The linger is over: the channel was empty and the deadline has passed. -/
def lapse (c : CommitThread) : Option CommitThread :=
  match c.writer, c.queue with
  | .gathering wal batch, [] => some { c with writer := .writing wal batch .receive }
  | _, _ => none

/-- The next call of `write_batch` on the log: append what is left of the batch, then sync. `fault`
is an I/O error and what it leaves of the directory. -/
def write (codec : Codec) (fault : Option (String × Dir)) (c : CommitThread) :
    Option CommitThread :=
  match c.writer with
  | .writing wal rest after =>
    match fault, rest with
    | some (detail, dir), _ =>
      some { c with dir := dir, writer := .closing (.failed (.io detail)) }
    | none, r :: rest =>
      -- There is no position past the last of all: the program stops.
      if wal.appended = some U64.maxValue then none
      else
        match wal.append codec c.dir r with
        | .ok (wal, dir) =>
          some { c with
            dir := dir
            appended := c.appended ++ [r]
            writer := .writing wal rest after }
        | .error e => some { c with writer := .closing (.failed (.log e)) }
    | none, [] =>
      let synced := wal.sync c.dir
      some { c with
        dir := synced.2
        synced := c.appended
        writer := .publishing synced.1 synced.1.durable after }
  | _ => none

/-- Publish what was synced, only after the sync returned. -/
def publish (c : CommitThread) : Option CommitThread :=
  match c.writer with
  | .publishing wal durable after =>
    some { c with watermark := c.watermark.publish durable, writer := after.next wal }
  | _ => none

/-- Close the mark, -/
def close (c : CommitThread) : Option CommitThread :=
  match c.writer with
  | .closing reason => some { c with watermark := c.watermark.close reason, writer := .returning }
  | _ => none

/-- and let go of the channel. -/
def «return» (c : CommitThread) : Option CommitThread :=
  match c.writer with
  | .returning => some { c with writer := .ended }
  | _ => none

/-- What the writer thread can do next. -/
inductive Move
  | poll
  | lapse
  | write (fault : Option (String × Dir))
  | publish
  | close
  | «return»

/-- One step of the writer thread. -/
def advance (codec : Codec) (options : WalOptions) (c : CommitThread) : Move → Option CommitThread
  | .poll => c.poll options
  | .lapse => c.lapse
  | .write fault => c.write codec fault
  | .publish => c.publish
  | .close => c.close
  | .return => c.return

end CommitThread

/-! ## The callers

A caller sends a record, or waits for one: it is let through once the mark has come that far, and
refused once the mark is closed below it. -/

/-- The commit thread and those who wait for it, each for a sequence number. -/
structure GroupCommit where
  thread : CommitThread
  /-- Parked on the condition variable. -/
  parked : List Seq
  /-- About to take the lock and look at the mark. -/
  awake : List Seq

namespace GroupCommit

/-- What can happen. -/
inductive Move
  | submit (r : LogRecord)
  | stop
  /-- Every handle is dropped. -/
  | hangUp
  | thread (move : CommitThread.Move)
  /-- A caller starts to wait. -/
  | wait (seq : Seq)
  /-- One of those who are awake looks at the mark. -/
  | look (i : ℕ)

/-- Everyone parked is notified of every change of the mark. -/
def notified (g : GroupCommit) (thread : CommitThread) : GroupCommit :=
  if thread.watermark = g.thread.watermark then { g with thread := thread }
  else ⟨thread, [], g.awake ++ g.parked⟩

/-- One step, and what it returns to someone who waited. -/
def step (codec : Codec) (options : WalOptions) (g : GroupCommit) :
    Move → Option (GroupCommit × Option (Seq × Except StopReason Unit))
  | .submit r =>
    (g.thread.send options (.record r)).map fun sent ↦ ({ g with thread := sent.1 }, none)
  | .stop => (g.thread.send options .stop).map fun sent ↦ ({ g with thread := sent.1 }, none)
  | .hangUp => some ({ g with thread := { g.thread with hungUp := true } }, none)
  | .thread move => (g.thread.advance codec options move).map fun thread ↦ (g.notified thread, none)
  | .wait seq => some ({ g with awake := g.awake ++ [seq] }, none)
  | .look i =>
    match g.awake[i]? with
    | none => none
    | some seq =>
      let g := { g with awake := g.awake.eraseIdx i }
      match g.thread.watermark.waitFor seq with
      | some result => some (g, some (seq, result))
      | none => some ({ g with parked := g.parked ++ [seq] }, none)

/-- The runs of a commit thread on a log that was just opened. -/
abbrev Run (codec : Codec) (options : WalOptions) (wal : Wal) (dir : Dir) :
    List (Runs.Transition GroupCommit Move (Option (Seq × Except StopReason Unit))) →
      GroupCommit → Prop :=
  Runs.Run (step codec options) ⟨CommitThread.spawn wal dir, [], []⟩

end GroupCommit

/-! ## The invariant

What was submitted is in one of three places: appended, in the writer's hand, or queued. The log
itself says how far it is appended and synced, and the mark is never ahead of it. -/

namespace CommitThread

variable {codec : Codec} {options : WalOptions} {c c' : CommitThread} {wal : Wal}

/-- The log that the writer holds stands where the records say, and between the log and the channel
there is what the writer has in hand. -/
structure Writes (c : CommitThread) (wal : Wal) (inHand : List LogRecord) : Prop where
  appended : wal.appended = c.last c.appended
  durable : wal.durable = c.lastSynced
  order : c.submitted = c.appended ++ (inHand ++ c.queued)

/-- Between two batches everything appended is synced, and the mark says so. -/
structure Idle (c : CommitThread) : Prop where
  mark : c.watermark = .live c.lastSynced
  synced : c.synced = c.appended

/-- What a writer that stops for this reason has done. -/
def Leaves (c : CommitThread) : StopReason → Prop
  | .failed _ => c.appended <+: c.submitted
  | .shutDown => c.synced = c.appended ∧ c.submitted = c.appended ++ c.queued

/-- What holds where the writer is. -/
def Stage (c : CommitThread) : Prop :=
  match c.writer with
  | .receiving wal => c.Writes wal [] ∧ c.Idle
  | .gathering wal batch => c.Writes wal batch ∧ c.Idle
  | .draining wal leftovers => c.Writes wal leftovers ∧ c.Idle
  | .writing wal rest _ => c.Writes wal rest ∧ c.watermark = .live c.lastSynced
  | .publishing wal durable _ =>
    c.Writes wal [] ∧ c.synced = c.appended ∧ durable = c.lastSynced ∧
      ∃ d, c.watermark = .live d ∧ d ≤ durable
  | .closing reason => c.watermark = .live c.lastSynced ∧ c.Leaves reason
  | .returning | .ended => ∃ reason, c.watermark = .closed c.lastSynced reason ∧ c.Leaves reason

/-- What holds between any two steps. -/
structure Sound (c : CommitThread) : Prop where
  numbered : ∃ n, NumberedFrom n c.appended ∧ ∀ h ∈ c.held, h.val + 1 = n
  synced : c.synced <+: c.appended
  stage : c.Stage

/-- The records whose place in the log is settled once the writer has drained the channel, and all
that were submitted as long as it has not. -/
def kept (c : CommitThread) : List LogRecord :=
  match c.writer with
  | .writing _ rest .close => c.appended ++ rest
  | .publishing _ _ .close | .closing _ | .returning | .ended => c.appended
  | _ => c.submitted

/-- What every step does. -/
structure Follows (c c' : CommitThread) : Prop where
  held : c'.held = c.held
  mark : c.watermark.durable ≤ c'.watermark.durable
  final : ∀ d reason, c.watermark = .closed d reason → c'.watermark = c.watermark
  kept : ¬c'.Failed → ¬c.Failed ∧ c.kept <+: c'.kept

theorem last_mono {held : Option Seq} {n : ℕ} {l l' : List LogRecord}
    (hheld : ∀ h ∈ held, h.val + 1 = n) (hnum : NumberedFrom n (l ++ l')) :
    (l.getLast?.map LogRecord.seq).or held ≤ ((l ++ l').getLast?.map LogRecord.seq).or held := by
  rw [List.getLast?_append]
  cases hl' : l'.getLast? with
  | none => exact markLE_refl _
  | some r' =>
    have hlast : r'.seq.val + 1 = n + (l ++ l').length := by
      refine hnum.getLast? (r := r') ?_
      rw [List.getLast?_append, hl']
      rfl
    have hle : ∀ q ∈ (l.getLast?.map LogRecord.seq).or held, q ≤ r'.seq := by
      intro q hq
      show q.val ≤ r'.seq.val
      rw [List.length_append] at hlast
      cases hl : l.getLast? with
      | none =>
        rw [hl] at hq
        have := hheld q hq
        have : 0 < l'.length := List.length_pos_of_mem (List.mem_of_getLast? hl')
        omega
      | some r =>
        rw [hl] at hq
        obtain rfl := Option.some.inj hq
        have := (NumberedFrom.append.mp hnum).1.getLast? hl
        omega
    cases hq : (l.getLast?.map LogRecord.seq).or held with
    | none => exact Option.none_le
    | some q => exact Option.some_le_some.mpr (hle q hq)

theorem Follows.refl (c : CommitThread) : c.Follows c where
  held := rfl
  mark := markLE_refl _
  final _ _ _ := rfl
  kept h := ⟨h, List.prefix_rfl⟩

theorem Follows.trans {c₁ c₂ c₃ : CommitThread} (h : c₁.Follows c₂) (h' : c₂.Follows c₃) :
    c₁.Follows c₃ where
  held := h'.held.trans h.held
  mark := markLE_trans h.mark h'.mark
  final d reason hclosed :=
    (h'.final d reason ((h.final d reason hclosed).trans hclosed)).trans (h.final d reason hclosed)
  kept hfailed :=
    ⟨(h.kept (h'.kept hfailed).1).1, (h.kept (h'.kept hfailed).1).2.trans (h'.kept hfailed).2⟩

theorem spawn_sound (h : wal.appended = wal.durable) (dir : Dir) : (spawn wal dir).Sound where
  numbered := by
    refine ⟨wal.durable.elim 0 fun h ↦ h.val + 1, trivial, fun held hheld ↦ ?_⟩
    have hdurable : wal.durable = some held := hheld
    rw [hdurable]
    rfl
  synced := List.prefix_rfl
  stage := ⟨⟨h, rfl, rfl⟩, rfl, rfl⟩

/-! ## The callers' side -/

theorem queued_append (c : CommitThread) (msg : Msg) :
    (c.queue ++ [msg]).filterMap Msg.record? = c.queued ++ msg.record?.toList := by
  rw [List.filterMap_append, queued]
  cases msg with
  | record r => rfl
  | stop => rfl

theorem Writes.send {inHand : List LogRecord} (h : c.Writes wal inHand) (msg : Msg) :
    Writes { c with
      queue := c.queue ++ [msg]
      submitted := c.submitted ++ msg.record?.toList } wal inHand where
  appended := h.appended
  durable := h.durable
  order := by
    show c.submitted ++ msg.record?.toList =
      c.appended ++ (inHand ++ (c.queue ++ [msg]).filterMap Msg.record?)
    rw [queued_append, h.order, List.append_assoc, List.append_assoc]

theorem Leaves.send {reason : StopReason} (h : c.Leaves reason) (msg : Msg) :
    Leaves { c with
      queue := c.queue ++ [msg]
      submitted := c.submitted ++ msg.record?.toList } reason := by
  cases reason with
  | failed e => exact List.IsPrefix.trans h (List.prefix_append _ _)
  | shutDown =>
    refine ⟨h.1, ?_⟩
    show c.submitted ++ msg.record?.toList =
      c.appended ++ (c.queue ++ [msg]).filterMap Msg.record?
    rw [queued_append, h.2, List.append_assoc]

theorem Idle.send (h : c.Idle) (msg : Msg) :
    Idle { c with
      queue := c.queue ++ [msg]
      submitted := c.submitted ++ msg.record?.toList } := ⟨h.mark, h.synced⟩

/-- **Sending** puts the record behind the others. -/
theorem Sound.send (h : c.Sound) {msg : Msg} {sent : Bool}
    (hsend : c.send options msg = some (c', sent)) : c'.Sound ∧ c.Follows c' := by
  rw [CommitThread.send] at hsend
  split at hsend
  · cases hsend
    exact ⟨h, Follows.refl c⟩
  · split_ifs at hsend with hroom
    cases hsend
    have hstage := h.stage
    refine ⟨⟨h.numbered, h.synced, ?_⟩, rfl, markLE_refl _, fun _ _ _ ↦ rfl, fun hfailed ↦
      ⟨hfailed, ?_⟩⟩
    · unfold Stage at hstage ⊢
      dsimp only
      split at hstage
      · exact ⟨hstage.1.send msg, hstage.2.send msg⟩
      · exact ⟨hstage.1.send msg, hstage.2.send msg⟩
      · exact ⟨hstage.1.send msg, hstage.2.send msg⟩
      · exact ⟨hstage.1.send msg, hstage.2⟩
      · exact ⟨hstage.1.send msg, hstage.2⟩
      · exact ⟨hstage.1, hstage.2.send msg⟩
      · obtain ⟨reason, hmark, hleaves⟩ := hstage
        exact ⟨reason, hmark, hleaves.send msg⟩
      · obtain ⟨reason, hmark, hleaves⟩ := hstage
        exact ⟨reason, hmark, hleaves.send msg⟩
    · unfold kept
      dsimp only
      split
      · exact List.prefix_rfl
      · exact List.prefix_rfl
      · exact List.prefix_rfl
      · exact List.prefix_rfl
      · exact List.prefix_rfl
      · exact List.prefix_append _ _

theorem send_cases {msg : Msg} {sent : Bool} (hsend : c.send options msg = some (c', sent)) :
    (sent = true ∧ c.writer ≠ .ended ∧
      c' = { c with queue := c.queue ++ [msg], submitted := c.submitted ++ msg.record?.toList }) ∨
    (sent = false ∧ c.writer = .ended ∧ c' = c) := by
  rw [CommitThread.send] at hsend
  split at hsend
  · rename_i hended
    cases hsend
    exact Or.inr ⟨rfl, hended, rfl⟩
  · rename_i hrunning
    split_ifs at hsend
    cases hsend
    exact Or.inl ⟨rfl, hrunning, rfl⟩

theorem send_watermark {msg : Msg} {sent : Bool} (hsend : c.send options msg = some (c', sent)) :
    c'.watermark = c.watermark := by
  obtain ⟨-, -, rfl⟩ | ⟨-, -, rfl⟩ := send_cases hsend
  · rfl
  · rfl

theorem Sound.hangUp (h : c.Sound) :
    Sound { c with hungUp := true } ∧ c.Follows { c with hungUp := true } := by
  have hstage := h.stage
  refine ⟨⟨h.numbered, h.synced, ?_⟩, rfl, markLE_refl _, fun _ _ _ ↦ rfl, fun hfailed ↦
    ⟨hfailed, List.prefix_rfl⟩⟩
  unfold Stage at hstage ⊢
  dsimp only
  split at hstage
  · exact ⟨⟨hstage.1.appended, hstage.1.durable, hstage.1.order⟩, hstage.2.mark, hstage.2.synced⟩
  · exact ⟨⟨hstage.1.appended, hstage.1.durable, hstage.1.order⟩, hstage.2.mark, hstage.2.synced⟩
  · exact ⟨⟨hstage.1.appended, hstage.1.durable, hstage.1.order⟩, hstage.2.mark, hstage.2.synced⟩
  · exact ⟨⟨hstage.1.appended, hstage.1.durable, hstage.1.order⟩, hstage.2⟩
  · exact ⟨⟨hstage.1.appended, hstage.1.durable, hstage.1.order⟩, hstage.2⟩
  · rename_i reason _
    refine ⟨hstage.1, ?_⟩
    cases reason with
    | failed e => exact hstage.2
    | shutDown => exact hstage.2
  · obtain ⟨reason, hmark, hleaves⟩ := hstage
    refine ⟨reason, hmark, ?_⟩
    cases reason with
    | failed e => exact hleaves
    | shutDown => exact hleaves
  · obtain ⟨reason, hmark, hleaves⟩ := hstage
    refine ⟨reason, hmark, ?_⟩
    cases reason with
    | failed e => exact hleaves
    | shutDown => exact hleaves

/-! ## The writer's side -/

theorem follows_of_live {d : Option Seq} (hmark : c.watermark = .live d)
    (hwriter : ∀ e, c.writer ≠ .closing (.failed e)) (hheld : c'.held = c.held)
    (hsame : c'.watermark = c.watermark) (hkept : c.kept <+: c'.kept) : c.Follows c' where
  held := hheld
  mark := by
    rw [hsame]
    exact markLE_refl _
  final _ _ _ := hsame
  kept _ := by
    refine ⟨?_, hkept⟩
    rintro (⟨e, he⟩ | ⟨d', e, he⟩)
    · exact hwriter e he
    · rw [hmark] at he
      cases he

theorem Writes.receive {inHand inHand' : List LogRecord} {queue : List Msg}
    (h : c.Writes wal inHand)
    (hsame : inHand' ++ queue.filterMap Msg.record? = inHand ++ c.queued) (writer : Writer) :
    Writes { c with queue := queue, writer := writer } wal inHand' :=
  ⟨h.appended, h.durable, h.order.trans (congrArg (c.appended ++ ·) hsame.symm)⟩

theorem Idle.receive (h : c.Idle) (queue : List Msg) (writer : Writer) :
    Idle { c with queue := queue, writer := writer } := ⟨h.mark, h.synced⟩

theorem queued_record {r : LogRecord} {queue : List Msg} (h : c.queue = .record r :: queue)
    (inHand : List LogRecord) :
    (inHand ++ [r]) ++ queue.filterMap Msg.record? = inHand ++ c.queued := by
  rw [queued, h, List.append_assoc]
  rfl

theorem queued_stop {queue : List Msg} (h : c.queue = .stop :: queue) (inHand : List LogRecord) :
    inHand ++ queue.filterMap Msg.record? = inHand ++ c.queued := by
  rw [queued, h]
  rfl

theorem Sound.receives (h : c.Sound) (hidle : c.Idle) (hlive : ∀ e, c.writer ≠ .closing (.failed e))
    (hkept : c.kept = c.submitted) {queue : List Msg} {writer : Writer}
    (hstage : Stage { c with queue := queue, writer := writer })
    (hkept' : c.submitted <+: kept { c with queue := queue, writer := writer }) :
    Sound { c with queue := queue, writer := writer } ∧
      c.Follows { c with queue := queue, writer := writer } :=
  ⟨⟨h.numbered, h.synced, hstage⟩, follows_of_live hidle.mark hlive rfl rfl (hkept ▸ hkept')⟩

/-- **Receiving** moves a record from the channel into the writer's hand. -/
theorem Sound.poll (h : c.Sound) (hpoll : c.poll options = some c') :
    c'.Sound ∧ c.Follows c' := by
  have hstage := h.stage
  rw [CommitThread.poll] at hpoll
  split at hpoll
  · rename_i wal r queue hw hq
    cases hpoll
    simp only [Stage, hw] at hstage
    obtain ⟨hwrites, hidle⟩ := hstage
    refine h.receives hidle ?_ ?_ ⟨hwrites.receive (queued_record hq []) _, hidle.receive _ _⟩
      List.prefix_rfl
    · simp only [hw, ne_eq, reduceCtorEq, not_false_eq_true, implies_true]
    · rw [kept, hw]
  · rename_i wal queue hw hq
    cases hpoll
    simp only [Stage, hw] at hstage
    obtain ⟨hwrites, hidle⟩ := hstage
    refine h.receives hidle ?_ ?_ ⟨hwrites.receive (queued_stop hq []) _, hidle.receive _ _⟩
      List.prefix_rfl
    · simp only [hw, ne_eq, reduceCtorEq, not_false_eq_true, implies_true]
    · rw [kept, hw]
  · rename_i wal hw hq
    split_ifs at hpoll
    cases hpoll
    simp only [Stage, hw] at hstage
    obtain ⟨hwrites, hidle⟩ := hstage
    refine h.receives hidle ?_ ?_ ⟨hwrites.receive rfl _, hidle.receive _ _⟩ List.prefix_rfl
    · simp only [hw, ne_eq, reduceCtorEq, not_false_eq_true, implies_true]
    · rw [kept, hw]
  · rename_i wal batch hw
    simp only [Stage, hw] at hstage
    obtain ⟨hwrites, hidle⟩ := hstage
    have hlive : ∀ e, c.writer ≠ .closing (.failed e) := by
      simp only [hw, ne_eq, reduceCtorEq, not_false_eq_true, implies_true]
    have hkept : c.kept = c.submitted := by rw [kept, hw]
    by_cases hroom : batch.length < options.maxBatch
    · rw [if_pos hroom] at hpoll
      split at hpoll
      · rename_i r queue hq
        cases hpoll
        exact h.receives hidle hlive hkept
          ⟨hwrites.receive (queued_record hq batch) _, hidle.receive _ _⟩ List.prefix_rfl
      · rename_i queue hq
        cases hpoll
        exact h.receives hidle hlive hkept
          ⟨hwrites.receive (queued_stop hq batch) _, hidle.mark⟩ List.prefix_rfl
      · split_ifs at hpoll
        cases hpoll
        exact h.receives hidle hlive hkept ⟨hwrites.receive rfl _, hidle.mark⟩ List.prefix_rfl
    · rw [if_neg hroom] at hpoll
      cases hpoll
      exact h.receives hidle hlive hkept ⟨hwrites.receive rfl _, hidle.mark⟩ List.prefix_rfl
  · rename_i wal leftovers r queue hw hq
    cases hpoll
    simp only [Stage, hw] at hstage
    obtain ⟨hwrites, hidle⟩ := hstage
    refine h.receives hidle ?_ ?_
      ⟨hwrites.receive (queued_record hq leftovers) _, hidle.receive _ _⟩ List.prefix_rfl
    · simp only [hw, ne_eq, reduceCtorEq, not_false_eq_true, implies_true]
    · rw [kept, hw]
  · rename_i wal leftovers queue hw hq
    cases hpoll
    simp only [Stage, hw] at hstage
    obtain ⟨hwrites, hidle⟩ := hstage
    refine h.receives hidle ?_ ?_
      ⟨hwrites.receive (queued_stop hq leftovers) _, hidle.receive _ _⟩ List.prefix_rfl
    · simp only [hw, ne_eq, reduceCtorEq, not_false_eq_true, implies_true]
    · rw [kept, hw]
  · -- The channel is empty, so everything submitted has been appended.
    rename_i wal hw hq
    cases hpoll
    simp only [Stage, hw] at hstage
    obtain ⟨hwrites, hidle⟩ := hstage
    have hall : c.submitted = c.appended := by
      rw [hwrites.order, queued, hq]
      exact List.append_nil _
    refine h.receives hidle ?_ ?_ ⟨hidle.mark, hidle.synced, hwrites.order⟩ ?_
    · simp only [hw, ne_eq, reduceCtorEq, not_false_eq_true, implies_true]
    · rw [kept, hw]
    · exact ⟨[], (List.append_nil _).trans hall⟩
  · -- The channel is empty, so what is in hand is all that has not been appended.
    rename_i wal leftovers hne hw hq
    cases hpoll
    simp only [Stage, hw] at hstage
    obtain ⟨hwrites, hidle⟩ := hstage
    refine h.receives hidle ?_ ?_ ⟨hwrites.receive rfl _, hidle.mark⟩ ?_
    · simp only [hw, ne_eq, reduceCtorEq, not_false_eq_true, implies_true]
    · rw [kept, hw]
    · have hall : c.submitted = c.appended ++ leftovers := by
        rw [hwrites.order, queued, hq, List.filterMap_nil, List.append_nil]
      exact ⟨[], (List.append_nil _).trans hall⟩
  · cases hpoll

theorem poll_kept (hpoll : c.poll options = some c') : c.kept = c.submitted := by
  rw [CommitThread.poll] at hpoll
  cases hw : c.writer with
  | receiving wal => rw [kept, hw]
  | gathering wal batch => rw [kept, hw]
  | draining wal leftovers => rw [kept, hw]
  | writing wal rest after =>
    rw [hw] at hpoll
    cases hpoll
  | publishing wal durable after =>
    rw [hw] at hpoll
    cases hpoll
  | closing reason =>
    rw [hw] at hpoll
    cases hpoll
  | returning =>
    rw [hw] at hpoll
    cases hpoll
  | ended =>
    rw [hw] at hpoll
    cases hpoll

theorem Sound.lapse (h : c.Sound) (hlapse : c.lapse = some c') : c'.Sound ∧ c.Follows c' := by
  have hstage := h.stage
  rw [CommitThread.lapse] at hlapse
  split at hlapse
  · rename_i wal batch hw hq
    cases hlapse
    simp only [Stage, hw] at hstage
    obtain ⟨hwrites, hidle⟩ := hstage
    refine h.receives hidle ?_ ?_ ⟨hwrites.receive rfl _, hidle.mark⟩ List.prefix_rfl
    · simp only [hw, ne_eq, reduceCtorEq, not_false_eq_true, implies_true]
    · rw [kept, hw]
  · cases hlapse

theorem Sound.numbered_snoc (h : c.Sound) {r : LogRecord}
    (hnext : ∀ prev ∈ c.last c.appended, prev.next = some r.seq) :
    ∃ n, NumberedFrom n (c.appended ++ [r]) ∧ ∀ held ∈ c.held, held.val + 1 = n := by
  obtain ⟨n, hnum, hheld⟩ := h.numbered
  cases hlast : c.appended.getLast? with
  | some prev =>
    refine ⟨n, NumberedFrom.append.mpr ⟨hnum, ?_, trivial⟩, hheld⟩
    have hprev : prev.seq.next = some r.seq := hnext prev.seq (by rw [last, hlast]; rfl)
    rw [Seq.next_eq_some.mp hprev, hnum.getLast? hlast]
  | none =>
    rw [List.getLast?_eq_none_iff.mp hlast]
    refine ⟨r.seq.val, ⟨rfl, trivial⟩, fun held hheld ↦ ?_⟩
    have hprev : held.next = some r.seq := hnext held (by rw [last, hlast]; exact hheld)
    exact (Seq.next_eq_some.mp hprev).symm

/-- **Writing** appends the records in hand one by one, and syncs when none is left. -/
theorem Sound.write (h : c.Sound) {fault : Option (String × Dir)}
    (hwrite : c.write codec fault = some c') : c'.Sound ∧ c.Follows c' := by
  have hstage := h.stage
  rw [CommitThread.write] at hwrite
  split at hwrite
  · rename_i wal rest after hw
    simp only [Stage, hw] at hstage
    obtain ⟨hwrites, hmark⟩ := hstage
    have hlive : ∀ e, c.writer ≠ .closing (.failed e) := by
      simp only [hw, ne_eq, reduceCtorEq, not_false_eq_true, implies_true]
    -- Whatever the log answered, a writer that fails leaves what was appended.
    have hfails : ∀ (e : WriteError) (dir : Dir),
        Sound { c with dir := dir, writer := .closing (.failed e) } ∧
          c.Follows { c with dir := dir, writer := .closing (.failed e) } := by
      intro e dir
      refine ⟨⟨h.numbered, h.synced, hmark, ?_⟩, rfl, markLE_refl _, fun _ _ _ ↦ rfl,
        fun hok ↦ absurd (Or.inl ⟨_, rfl⟩) hok⟩
      show c.appended <+: c.submitted
      rw [hwrites.order]
      exact List.prefix_append _ _
    split at hwrite
    · cases hwrite
      exact hfails _ _
    · rename_i r rest
      by_cases hmax : wal.appended = some U64.maxValue
      · rw [if_pos hmax] at hwrite
        cases hwrite
      rw [if_neg hmax] at hwrite
      split at hwrite
      · rename_i wal' dir happend
        cases hwrite
        obtain ⟨hnext, hlast, hdurable⟩ := Wal.append_ok happend
        rw [hwrites.appended] at hnext
        refine ⟨⟨h.numbered_snoc hnext, h.synced.trans (List.prefix_append _ _),
          ⟨?_, hdurable.trans hwrites.durable, ?_⟩, hmark⟩,
          follows_of_live hmark hlive rfl rfl ?_⟩
        · rw [hlast, last, List.getLast?_concat]
          rfl
        · rw [hwrites.order, List.append_assoc]
          rfl
        · unfold kept
          simp only [hw]
          cases after with
          | receive => exact List.prefix_rfl
          | drain => exact List.prefix_rfl
          | close =>
            show c.appended ++ r :: rest <+: (c.appended ++ [r]) ++ rest
            rw [List.append_assoc]
            exact List.prefix_rfl
      · cases hwrite
        exact hfails _ _
    · cases hwrite
      obtain ⟨n, hnum, hheld⟩ := h.numbered
      obtain ⟨more, hmore⟩ := h.synced
      have hforward : c.lastSynced ≤ c.last c.appended := by
        rw [← hmore] at hnum ⊢
        exact last_mono hheld hnum
      refine ⟨⟨h.numbered, List.prefix_rfl,
        ⟨hwrites.appended, hwrites.appended, hwrites.order⟩, rfl, hwrites.appended,
          c.lastSynced, hmark, ?_⟩, follows_of_live hmark hlive rfl rfl ?_⟩
      · show c.lastSynced ≤ wal.appended
        rw [hwrites.appended]
        exact hforward
      · unfold kept
        simp only [hw]
        cases after with
        | receive => exact List.prefix_rfl
        | drain => exact List.prefix_rfl
        | close => exact ⟨[], (List.append_nil _).trans (List.append_nil _)⟩
  · cases hwrite

/-- **Publishing** brings the mark to the last record synced. -/
theorem Sound.publish (h : c.Sound) (hpublish : c.publish = some c') :
    c'.Sound ∧ c.Follows c' := by
  have hstage := h.stage
  rw [CommitThread.publish] at hpublish
  split at hpublish
  · rename_i wal durable after hw
    cases hpublish
    simp only [Stage, hw] at hstage
    obtain ⟨hwrites, hsynced, rfl, d, hmark, hle⟩ := hstage
    have hnew : c.watermark.publish c.lastSynced = .live c.lastSynced := by
      rw [hmark, Watermark.publish]
      split_ifs with hback
      · rw [markLE_antisymm hle hback]
      · rfl
    have hkept : c.kept <+: kept { c with
        watermark := c.watermark.publish c.lastSynced
        writer := after.next wal } := by
      unfold kept
      simp only [hw]
      cases after with
      | receive => exact List.prefix_rfl
      | drain => exact List.prefix_rfl
      | close => exact List.prefix_rfl
    refine ⟨⟨h.numbered, h.synced, ?_⟩, rfl, ?_, ?_, fun _ ↦ ⟨?_, hkept⟩⟩
    · cases after with
      | receive => exact ⟨⟨hwrites.appended, hwrites.durable, hwrites.order⟩, hnew, hsynced⟩
      | drain => exact ⟨⟨hwrites.appended, hwrites.durable, hwrites.order⟩, hnew, hsynced⟩
      | close => exact ⟨hnew, hsynced, hwrites.order⟩
    · show c.watermark.durable ≤ (c.watermark.publish c.lastSynced).durable
      rw [hnew, hmark]
      exact hle
    · intro d' reason hclosed
      rw [hmark] at hclosed
      cases hclosed
    · rintro (⟨e, he⟩ | ⟨d', e, he⟩)
      · rw [hw] at he
        cases he
      · rw [hmark] at he
        cases he
  · cases hpublish

/-- **Closing** leaves the mark at the last record synced, for good. -/
theorem Sound.close (h : c.Sound) (hclose : c.close = some c') : c'.Sound ∧ c.Follows c' := by
  have hstage := h.stage
  rw [CommitThread.close] at hclose
  split at hclose
  · rename_i reason hw
    cases hclose
    simp only [Stage, hw] at hstage
    obtain ⟨hmark, hleaves⟩ := hstage
    have hnew : c.watermark.close reason = .closed c.lastSynced reason := by
      rw [hmark]
      rfl
    refine ⟨⟨h.numbered, h.synced, reason, hnew, ?_⟩, rfl, markLE_refl _, ?_, fun hok ↦ ⟨?_, ?_⟩⟩
    · cases reason with
      | failed e => exact hleaves
      | shutDown => exact hleaves
    · intro d reason' hclosed
      rw [hmark] at hclosed
      cases hclosed
    · rintro (⟨e, he⟩ | ⟨d, e, he⟩)
      · obtain rfl := Writer.closing.inj (hw.symm.trans he)
        exact hok (Or.inr ⟨_, e, hnew⟩)
      · rw [hmark] at he
        cases he
    · unfold kept
      simp only [hw]
      exact List.prefix_rfl
  · cases hclose

theorem Sound.return (h : c.Sound) (hreturn : c.return = some c') : c'.Sound ∧ c.Follows c' := by
  have hstage := h.stage
  rw [CommitThread.return] at hreturn
  split at hreturn
  · rename_i hw
    cases hreturn
    simp only [Stage, hw] at hstage
    refine ⟨⟨h.numbered, h.synced, hstage⟩, rfl, markLE_refl _, fun _ _ _ ↦ rfl, fun hok ↦ ⟨?_, ?_⟩⟩
    · rintro (⟨e, he⟩ | hclosed)
      · rw [hw] at he
        cases he
      · exact hok (Or.inr hclosed)
    · unfold kept
      simp only [hw]
      exact List.prefix_rfl
  · cases hreturn

/-! ## What the invariant says

The synced records are a first part of those submitted and the mark is the last of them. Whoever is
let through waited for something at or below the mark. -/

theorem Sound.appended_prefix (h : c.Sound) : c.appended <+: c.submitted := by
  have hstage := h.stage
  have hleaves : ∀ {reason}, c.Leaves reason → c.appended <+: c.submitted := by
    intro reason hleaves
    cases reason with
    | failed e => exact hleaves
    | shutDown =>
      rw [hleaves.2]
      exact List.prefix_append _ _
  have hwrites : ∀ {wal inHand}, c.Writes wal inHand → c.appended <+: c.submitted := by
    intro wal inHand hwrites
    rw [hwrites.order]
    exact List.prefix_append _ _
  unfold Stage at hstage
  split at hstage
  · exact hwrites hstage.1
  · exact hwrites hstage.1
  · exact hwrites hstage.1
  · exact hwrites hstage.1
  · exact hwrites hstage.1
  · exact hleaves hstage.2
  · exact hleaves hstage.choose_spec.2
  · exact hleaves hstage.choose_spec.2

theorem Sound.mark_le (h : c.Sound) : c.watermark.durable ≤ c.lastSynced := by
  have hstage := h.stage
  have heq : ∀ {w : Watermark}, c.watermark = w → w.durable ≤ c.lastSynced →
      c.watermark.durable ≤ c.lastSynced := by
    rintro w rfl hle
    exact hle
  unfold Stage at hstage
  split at hstage
  · exact heq hstage.2.mark (markLE_refl _)
  · exact heq hstage.2.mark (markLE_refl _)
  · exact heq hstage.2.mark (markLE_refl _)
  · exact heq hstage.2 (markLE_refl _)
  · obtain ⟨-, -, rfl, d, hmark, hle⟩ := hstage
    exact heq hmark hle
  · exact heq hstage.1 (markLE_refl _)
  · exact heq hstage.choose_spec.1 (markLE_refl _)
  · exact heq hstage.choose_spec.1 (markLE_refl _)

theorem Sound.closed (h : c.Sound) {d : Option Seq} {reason : StopReason}
    (hclosed : c.watermark = .closed d reason) :
    (c.writer = .returning ∨ c.writer = .ended) ∧ d = c.lastSynced ∧ c.Leaves reason := by
  have hstage := h.stage
  have hlive : ∀ {d'}, c.watermark = .live d' → (c.writer = .returning ∨ c.writer = .ended) ∧
      d = c.lastSynced ∧ c.Leaves reason := by
    intro d' hlive
    rw [hlive] at hclosed
    cases hclosed
  have hleaves : ∀ {reason'}, c.watermark = .closed c.lastSynced reason' → c.Leaves reason' →
      d = c.lastSynced ∧ c.Leaves reason := by
    intro reason' hclosed' hleaves
    obtain ⟨rfl, rfl⟩ := Watermark.closed.inj (hclosed.symm.trans hclosed')
    exact ⟨rfl, hleaves⟩
  unfold Stage at hstage
  split at hstage
  · exact hlive hstage.2.mark
  · exact hlive hstage.2.mark
  · exact hlive hstage.2.mark
  · exact hlive hstage.2
  · exact hlive hstage.2.2.2.choose_spec.1
  · exact hlive hstage.1
  · rename_i hw
    exact ⟨Or.inl hw, hleaves hstage.choose_spec.1 hstage.choose_spec.2⟩
  · rename_i hw
    exact ⟨Or.inr hw, hleaves hstage.choose_spec.1 hstage.choose_spec.2⟩

theorem Sound.ended (h : c.Sound) (hended : c.writer = .ended) :
    ∃ reason, c.watermark = .closed c.lastSynced reason ∧ c.Leaves reason := by
  have hstage := h.stage
  simp only [Stage, hended] at hstage
  exact hstage

theorem advance_ended (hended : c.writer = .ended) (move : Move) :
    c.advance codec options move = none := by
  cases move with
  | poll => rw [CommitThread.advance, CommitThread.poll, hended]
  | lapse => rw [CommitThread.advance, CommitThread.lapse, hended]
  | write fault => rw [CommitThread.advance, CommitThread.write, hended]
  | publish => rw [CommitThread.advance, CommitThread.publish, hended]
  | close => rw [CommitThread.advance, CommitThread.close, hended]
  | «return» => rw [CommitThread.advance, CommitThread.return, hended]

/-- **Every step of the writer** keeps the invariant. -/
theorem Sound.advance (h : c.Sound) {move : Move}
    (hadvance : c.advance codec options move = some c') : c'.Sound ∧ c.Follows c' := by
  cases move with
  | poll => exact h.poll hadvance
  | lapse => exact h.lapse hadvance
  | write fault => exact h.write hadvance
  | publish => exact h.publish hadvance
  | close => exact h.close hadvance
  | «return» => exact h.return hadvance

theorem Sound.advance_lists (h : c.Sound) {move : Move}
    (hadvance : c.advance codec options move = some c') :
    c'.submitted = c.submitted ∧ c.synced <+: c'.synced := by
  cases move with
  | poll =>
    rw [CommitThread.advance, CommitThread.poll] at hadvance
    split at hadvance
    all_goals try cases hadvance
    all_goals try exact ⟨rfl, List.prefix_rfl⟩
    · split_ifs at hadvance
      cases hadvance
      exact ⟨rfl, List.prefix_rfl⟩
    · rename_i wal batch hw
      by_cases hroom : batch.length < options.maxBatch
      · rw [if_pos hroom] at hadvance
        split at hadvance
        · cases hadvance
          exact ⟨rfl, List.prefix_rfl⟩
        · cases hadvance
          exact ⟨rfl, List.prefix_rfl⟩
        · split_ifs at hadvance
          cases hadvance
          exact ⟨rfl, List.prefix_rfl⟩
      · rw [if_neg hroom] at hadvance
        cases hadvance
        exact ⟨rfl, List.prefix_rfl⟩
  | lapse =>
    rw [CommitThread.advance, CommitThread.lapse] at hadvance
    split at hadvance
    · cases hadvance
      exact ⟨rfl, List.prefix_rfl⟩
    · cases hadvance
  | write fault =>
    rw [CommitThread.advance, CommitThread.write] at hadvance
    split at hadvance
    · split at hadvance
      · cases hadvance
        exact ⟨rfl, List.prefix_rfl⟩
      · split_ifs at hadvance
        split at hadvance
        · cases hadvance
          exact ⟨rfl, List.prefix_rfl⟩
        · cases hadvance
          exact ⟨rfl, List.prefix_rfl⟩
      · cases hadvance
        exact ⟨rfl, h.synced⟩
    · cases hadvance
  | publish =>
    rw [CommitThread.advance, CommitThread.publish] at hadvance
    split at hadvance
    · cases hadvance
      exact ⟨rfl, List.prefix_rfl⟩
    · cases hadvance
  | close =>
    rw [CommitThread.advance, CommitThread.close] at hadvance
    split at hadvance
    · cases hadvance
      exact ⟨rfl, List.prefix_rfl⟩
    · cases hadvance
  | «return» =>
    rw [CommitThread.advance, CommitThread.return] at hadvance
    split at hadvance
    · cases hadvance
      exact ⟨rfl, List.prefix_rfl⟩
    · cases hadvance

end CommitThread

namespace GroupCommit

open CommitThread (Follows)

variable {codec : Codec} {config : AuctionConfig} {options : WalOptions} {segmentBytes : U64}
  {wal : Wal} {dir dir' : Dir} {g g' : GroupCommit}
  {tr : List (Runs.Transition GroupCommit Move (Option (Seq × Except StopReason Unit)))}

/-- What holds between any two steps: nobody is parked whom the mark would release. -/
structure Sound (g : GroupCommit) : Prop where
  thread : g.thread.Sound
  parked : ∀ seq ∈ g.parked, g.thread.watermark.waitFor seq = none

theorem Sound.notified (h : g.Sound) {thread : CommitThread} (hthread : thread.Sound) :
    (g.notified thread).Sound := by
  rw [GroupCommit.notified]
  split_ifs with hsame
  · exact ⟨hthread, fun seq hseq ↦ (congrArg _ hsame).trans (h.parked seq hseq)⟩
  · exact ⟨hthread, fun seq hseq ↦ absurd hseq List.not_mem_nil⟩

theorem notified_thread (g : GroupCommit) (thread : CommitThread) :
    (g.notified thread).thread = thread := by
  rw [notified]
  split_ifs
  · rfl
  · rfl

theorem waitFor_ok {w : Watermark} {seq : Seq} (h : w.waitFor seq = some (.ok ())) :
    some seq ≤ w.durable := by
  cases w with
  | live d =>
    rw [Watermark.waitFor] at h
    split_ifs at h with hle
    exact hle
  | closed d reason =>
    rw [Watermark.waitFor] at h
    by_cases hle : some seq ≤ d
    · exact hle
    · rw [if_neg hle] at h
      cases h

/-- **One step** keeps the invariant, and moves the mark forward if at all. -/
theorem Sound.step (h : g.Sound) {move : Move} {out : Option (Seq × Except StopReason Unit)}
    (hstep : GroupCommit.step codec options g move = some (g', out)) :
    g'.Sound ∧ g.thread.Follows g'.thread := by
  cases move with
  | submit r =>
    obtain ⟨sent, hsend, heq⟩ := Option.map_eq_some_iff.mp hstep
    cases heq
    obtain ⟨hsound, hfollows⟩ := h.thread.send hsend
    refine ⟨⟨hsound, fun seq hseq ↦ ?_⟩, hfollows⟩
    exact (congrArg _ (CommitThread.send_watermark hsend)).trans (h.parked seq hseq)
  | stop =>
    obtain ⟨sent, hsend, heq⟩ := Option.map_eq_some_iff.mp hstep
    cases heq
    obtain ⟨hsound, hfollows⟩ := h.thread.send hsend
    refine ⟨⟨hsound, fun seq hseq ↦ ?_⟩, hfollows⟩
    exact (congrArg _ (CommitThread.send_watermark hsend)).trans (h.parked seq hseq)
  | hangUp =>
    cases hstep
    exact ⟨⟨h.thread.hangUp.1, h.parked⟩, h.thread.hangUp.2⟩
  | thread move =>
    obtain ⟨thread, hadvance, heq⟩ := Option.map_eq_some_iff.mp hstep
    cases heq
    obtain ⟨hsound, hfollows⟩ := h.thread.advance hadvance
    refine ⟨h.notified hsound, ?_⟩
    rw [notified_thread]
    exact hfollows
  | wait seq =>
    cases hstep
    exact ⟨⟨h.thread, h.parked⟩, Follows.refl _⟩
  | look i =>
    rw [GroupCommit.step] at hstep
    split at hstep
    · cases hstep
    · rename_i seq hseq
      dsimp only at hstep
      split at hstep
      · cases hstep
        exact ⟨⟨h.thread, h.parked⟩, Follows.refl _⟩
      · rename_i hwait
        cases hstep
        refine ⟨⟨h.thread, fun seq' hseq' ↦ ?_⟩, Follows.refl _⟩
        rcases List.mem_append.mp hseq' with hseq' | hseq'
        · exact h.parked seq' hseq'
        · rw [List.mem_singleton.mp hseq']
          exact hwait

theorem le_mark_of_waited {move : Move} {seq : Seq}
    (hstep : GroupCommit.step codec options g move = some (g', some (seq, .ok ()))) :
    some seq ≤ g.thread.watermark.durable := by
  cases move with
  | look i =>
    rw [GroupCommit.step] at hstep
    split at hstep
    · cases hstep
    · dsimp only at hstep
      split at hstep
      · rename_i hwait
        cases hstep
        exact waitFor_ok hwait
      · cases hstep
  | submit r =>
    obtain ⟨sent, -, heq⟩ := Option.map_eq_some_iff.mp hstep
    cases heq
  | stop =>
    obtain ⟨sent, -, heq⟩ := Option.map_eq_some_iff.mp hstep
    cases heq
  | hangUp => cases hstep
  | thread move =>
    obtain ⟨thread, -, heq⟩ := Option.map_eq_some_iff.mp hstep
    cases heq
  | wait seq => cases hstep

theorem Sound.start (h : wal.appended = wal.durable) (dir : Dir) :
    Sound ⟨CommitThread.spawn wal dir, [], []⟩ where
  thread := CommitThread.spawn_sound h dir
  parked _ hseq := absurd hseq List.not_mem_nil

/-- The writer takes a stop out of the channel. -/
def ObservesStop (t : Runs.Transition GroupCommit Move (Option (Seq × Except StopReason Unit))) :
    Prop :=
  t.input = .thread .poll ∧ t.pre.thread.queue = .stop :: t.post.thread.queue

/-- What a writer that has ended leaves behind: the mark is closed at the last record synced and
answers everyone, and unless a write failed, all that was queued before a stop was taken is
synced. -/
structure Ended
    (tr : List (Runs.Transition GroupCommit Move (Option (Seq × Except StopReason Unit))))
    (g : GroupCommit) : Prop where
  closed : ∃ reason, g.thread.watermark = .closed g.thread.lastSynced reason ∧
    ∀ seq, g.thread.watermark.waitFor seq =
      some (if some seq ≤ g.thread.lastSynced then .ok () else .error reason)
  parked : g.parked = []
  drained : ¬g.thread.Failed → ∀ t ∈ tr, ObservesStop t →
    t.pre.thread.submitted <+: g.thread.synced

/-- **Group commit loses, duplicates and reorders nothing, and its mark tells the truth.** -/
theorem log_is_prefix_and_mark_is_true
    (hopen : Wal.open codec config segmentBytes dir = (.ok wal, dir'))
    (h : Run codec options wal dir' tr g) :
    g.thread.appended <+: g.thread.submitted ∧ g.thread.synced <+: g.thread.appended ∧
      g.thread.watermark.durable ≤ g.thread.lastSynced ∧
      (∀ t ∈ tr, t.pre.thread.watermark.durable ≤ t.post.thread.watermark.durable) ∧
      (∀ t ∈ tr, ∀ d reason, t.pre.thread.watermark = .closed d reason →
        t.post.thread.watermark = .closed d reason) ∧
      (∀ t ∈ tr, ∀ seq, t.out = some (seq, .ok ()) → some seq ≤ t.pre.thread.lastSynced) ∧
      (g.thread.writer = .ended → Ended tr g) := by
  obtain ⟨hsound, hpast⟩ := h.history (P := Sound) (R := fun g g' ↦ g.thread.Follows g'.thread)
    (fun g ↦ Follows.refl g.thread) (fun _ _ _ ↦ Follows.trans)
    (Sound.start (Wal.open_durable hopen).1 dir') (fun _ _ _ _ hs hstep ↦ hs.step hstep)
  refine ⟨hsound.thread.appended_prefix, hsound.thread.synced, hsound.thread.mark_le,
    fun t ht ↦ (hpast t ht).2.1.mark, fun t ht d reason hclosed ↦ ?_, fun t ht seq hout ↦ ?_,
    fun hended ↦ ?_⟩
  · exact ((hpast t ht).2.1.final d reason hclosed).trans hclosed
  · have hstep := (h.split ht).2
    rw [hout] at hstep
    exact markLE_trans (le_mark_of_waited hstep) (hpast t ht).1.thread.mark_le
  · obtain ⟨reason, hclosed, hleaves⟩ := hsound.thread.ended hended
    have hwait : ∀ seq, g.thread.watermark.waitFor seq =
        some (if some seq ≤ g.thread.lastSynced then .ok () else .error reason) := by
      intro seq
      rw [hclosed, Watermark.waitFor]
    refine ⟨⟨reason, hclosed, hwait⟩, ?_, fun hok t ht hstop ↦ ?_⟩
    · refine List.eq_nil_iff_forall_not_mem.mpr fun seq hseq ↦ ?_
      cases (hwait seq).symm.trans (hsound.parked seq hseq)
    · have hsynced : g.thread.synced = g.thread.appended := by
        cases reason with
        | failed e => exact absurd (Or.inr ⟨_, e, hclosed⟩) hok
        | shutDown => exact hleaves.1
      have hkept : g.thread.kept = g.thread.synced := by rw [CommitThread.kept, hended, hsynced]
      have hstep := (h.split ht).2
      rw [hstop.1] at hstep
      obtain ⟨thread, hpoll, -⟩ := Option.map_eq_some_iff.mp hstep
      rw [← CommitThread.poll_kept hpoll, ← hkept]
      exact (((hpast t ht).2.1.trans (hpast t ht).2.2).kept hok).2

/-- A record and a stop are queued, and two callers wait. -/
def sampleMoves : List Move :=
  [.submit ⟨0, 0, .open⟩, .stop, .wait 0, .look 0, .thread .poll, .thread .poll,
    .thread (.write none), .thread (.write none), .thread .publish, .thread .poll, .wait 1, .look 1,
    .thread .close, .thread .return, .look 0, .look 0]

/-- What comes of it on a new log. -/
def samplePlay : List (Runs.Transition GroupCommit Move (Option (Seq × Except StopReason Unit))) ×
    GroupCommit :=
  Runs.play (step Bincode.codec ⟨4, 4⟩)
    ⟨CommitThread.spawn ⟨4096, 0, 0, [], none, none⟩
      ⟨some (.ok (.sample 0)), OrdMap.empty.upsert 0 fun _ ↦ [], OrdMap.empty⟩, [], []⟩ sampleMoves

theorem log_is_prefix_and_mark_is_true_sample :
    samplePlay.2.thread.synced = [⟨0, 0, .open⟩] ∧ Ended samplePlay.1 samplePlay.2 := by
  have hopen : Wal.open Bincode.codec (.sample 0) 4096 Dir.empty =
      (.ok ⟨4096, 0, 0, [], none, none⟩,
        ⟨some (.ok (.sample 0)), OrdMap.empty.upsert 0 fun _ ↦ [], OrdMap.empty⟩) := rfl
  obtain ⟨-, -, -, -, -, -, hended⟩ := log_is_prefix_and_mark_is_true hopen
    (Runs.run_play (step Bincode.codec ⟨4, 4⟩) _ sampleMoves)
  exact ⟨rfl, hended rfl⟩

end GroupCommit

end DutchAuction
