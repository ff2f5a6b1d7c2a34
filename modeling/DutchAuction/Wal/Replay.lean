import DutchAuction.Wal.Log

/-!
# Snapshots, and rebuilding an auction from what is on disk

A snapshot file is the state after some command, under that command's sequence number; a state with
nothing applied has none. Recovery starts from the newest snapshot that reads, unless the log ends
before it, and replays every record after it.

`none` is an assertion of the program that failed: a record that the state machine does not accept,
or a next position past the last of all.
-/

namespace DutchAuction

namespace Snapshots

/-! ## Snapshots -/

/-- Write a snapshot of `state` at its last applied sequence. -/
def write (snaps : Snapshots) (state : AuctionState) : Option Seq × Snapshots :=
  match state.lastSeq with
  | none => (none, snaps)
  | some seq => (some seq, snaps.upsert seq fun _ ↦ .ok ⟨seq, state⟩)

/-- Snapshots in the directory, newest first. -/
def list (snaps : Snapshots) : List (Seq × Except String Snapshot) := snaps.entries.reverse

/-- The newest snapshot that actually loads. -/
def latestUsable (snaps : Snapshots) : Option Snapshot :=
  snaps.list.findSome? fun e ↦ e.2.toOption

/-- Delete the first `n` of the snapshots behind the newest `keep`. -/
def pruneSome (snaps : Snapshots) (keep n : ℕ) : ℕ × Snapshots :=
  let removed := ((snaps.list.drop keep).take n).map Prod.fst
  (removed.length, snaps.filter fun e ↦ e.1 ∉ removed)

/-- Delete all but the newest `keep` snapshots. -/
def prune (snaps : Snapshots) (keep : ℕ) : ℕ × Snapshots :=
  snaps.pruneSome keep snaps.entries.length

end Snapshots

/-! ## Recovery -/

/-- The outcome of a recovery. -/
structure Recovered where
  state : AuctionState
  /-- Where the sequencer must resume. -/
  nextSeq : Seq
  /-- How many commands were replayed on top of the snapshot. -/
  replayed : ℕ
  /-- The snapshot recovery started from, if any. -/
  fromSnapshot : Option Seq

/-- Apply one logged record, discarding its events. -/
def follow (state : AuctionState) (record : LogRecord) : Option AuctionState :=
  (state.step record).map Prod.fst

/-- Where recovery starts: the snapshot, unless there is none or the log ends before it. -/
def startFrom (config : AuctionConfig) (records : List LogRecord) :
    Option Snapshot → AuctionState × Option Seq
  | some s =>
    if records.getLast?.any fun r ↦ r.seq < s.seq then (AuctionState.new config, none)
    else (s.state, some s.seq)
  | none => (AuctionState.new config, none)

/-- Apply every record after `resumeAfter`, the last of which was `last`. -/
def replay (resumeAfter : Option Seq) :
    AuctionState → Option Seq → ℕ → List LogRecord →
      Option (Except WalError (AuctionState × Option Seq × ℕ))
  | state, last, replayed, [] => some (.ok (state, last, replayed))
  | state, last, replayed, record :: records =>
    if resumeAfter.any fun s ↦ record.seq ≤ s then
      replay resumeAfter state last replayed records
    else
      match last.bind fun prev ↦ if prev.next = some record.seq then none else some prev with
      | some prev => some (.error (.sequenceGap prev record.seq))
      | none =>
        (follow state record).bind fun state ↦
          replay resumeAfter state (some record.seq) (replayed + 1) records

/-- Rebuild the auction from a log and the newest snapshot that reads. -/
def recoverFrom (config : AuctionConfig) (records : List LogRecord) (snapshot : Option Snapshot) :
    Option (Except WalError Recovered) :=
  let start := startFrom config records snapshot
  (replay start.2 start.1 start.2 0 records).bind fun
    | .error e => some (.error e)
    | .ok (state, last, replayed) =>
      (last.elim (some Seq.START) Seq.next).map fun nextSeq ↦
        .ok ⟨state, nextSeq, replayed, start.2⟩

/-- Rebuild the auction stored in `dir`. -/
def Codec.recover (c : Codec) (dir : Dir) : Option (Except WalError Recovered) :=
  match dir.readManifest with
  | .error e => some (.error e)
  | .ok config =>
    match c.readAll dir with
    | .error e => some (.error e)
    | .ok records => recoverFrom config records dir.snaps.latestUsable

end DutchAuction
