import DutchAuction.Wal.Segment

/-!
# The log itself: append, sync, and read back

`append` puts a record behind the others and `sync` is the moment everything appended so far
survives losing power; between the two the bytes may still be in the writer's buffer. Reading back
walks the segments in order and expects every one but the last to be whole, and the sequence numbers
to have no gap. Opening resumes the last segment and cuts off what a crash left behind it.

Files are written and read without failing. A sequence number past the last of all stops the program
where it is compared; here the comparison fails.
-/

namespace DutchAuction

open Codec (frames_append frames_singleton)

/-! ## Reading back

The segments are read in the order of their indices. All but the last must end with their last
record; the last may have a torn tail. The numbers are checked across segments. -/

namespace Codec

variable (c : Codec)

/-- Put records behind others, in sequence. -/
def extend : List LogRecord → List LogRecord → Except WalError (List LogRecord)
  | all, [] => .ok all
  | all, record :: records =>
    match all.getLast? with
    | some prev =>
      if prev.seq.next = some record.seq then extend (all ++ [record]) records
      else .error (.sequenceGap prev.seq record.seq)
    | none => extend (all ++ [record]) records

/-- Every record in these segments, in order, behind `all`. -/
def readFrom : List LogRecord → List (ℕ × List UInt8) → Except WalError (List LogRecord)
  | all, [] => .ok all
  | all, (index, bytes) :: rest =>
    match c.readSegment index bytes with
    | .error e => .error e
    | .ok contents =>
      if contents.trailingBytes > 0 ∧ rest ≠ [] then
        .error (.corrupt (.segment index) 0
          s!"{contents.trailingBytes} unreadable trailing bytes in a sealed segment")
      else
        match extend all contents.records with
        | .error e => .error e
        | .ok all => readFrom all rest

/-- Every record in the log, in order. -/
def readAll (dir : Dir) : Except WalError (List LogRecord) := c.readFrom [] dir.segments

/-- Shorten a segment to its last complete record, if a crash left a partial one behind. -/
def truncateTornTail (dir : Dir) (index : ℕ) : Except WalError Dir :=
  match dir.segs.get? index with
  | none => .ok dir
  | some bytes =>
    match c.readSegment index bytes with
    | .error e => .error e
    | .ok contents =>
      if contents.trailingBytes = 0 then .ok dir
      else .ok (dir.setLen index (bytes.length - contents.trailingBytes))

def lastSeqIn (dir : Dir) : Except WalError (Option Seq) :=
  (c.readAll dir).map fun records ↦ records.getLast?.map LogRecord.seq

end Codec

/-- The auction this log belongs to. -/
def Dir.readManifest (dir : Dir) : Except WalError AuctionConfig :=
  match dir.manifest with
  | none => .error (.noManifest .dir)
  | some (.ok config) => .ok config
  | some (.error detail) => .error (.corrupt .manifest 0 detail)

/-- How much the writer buffers. -/
def BUFFER : ℕ := 256 * 1024

/-- An append-only log of commands for one auction. -/
structure Wal where
  /-- Roll to a new segment once the active one reaches this size. -/
  segmentBytes : U64
  activeIndex : ℕ
  activeBytes : ℕ
  /-- Written, but not yet handed to the operating system. -/
  buffer : List UInt8
  /-- Written, but not necessarily on the platter. -/
  appended : Option Seq
  /-- Proven to survive power loss. -/
  durable : Option Seq

namespace Wal

variable (c : Codec)

/-! ## Writing

A record goes to the buffer of the open log, after a roll if the segment is full; a sync writes the
buffer and then makes it durable. -/

/-- Hand what is buffered to the operating system. -/
def flush (w : Wal) (dir : Dir) : Wal × Dir :=
  ({ w with buffer := [] }, dir.write w.activeIndex w.buffer)

/-- Write through the buffer: what fits is buffered, what is larger than the whole buffer is not. -/
def writeAll (w : Wal) (dir : Dir) (bytes : List UInt8) : Wal × Dir :=
  if bytes.length < BUFFER - w.buffer.length then ({ w with buffer := w.buffer ++ bytes }, dir)
  else
    let r := if bytes.length > BUFFER - w.buffer.length then w.flush dir else (w, dir)
    if bytes.length ≥ BUFFER then (r.1, r.2.write r.1.activeIndex bytes)
    else ({ r.1 with buffer := r.1.buffer ++ bytes }, r.2)

/-- Seal the active segment and start the next. -/
def rotate (w : Wal) (dir : Dir) : Wal × Dir :=
  let r := w.flush dir
  ({ r.1 with activeIndex := r.1.activeIndex + 1, buffer := [], activeBytes := 0 },
    r.2.write (r.1.activeIndex + 1) [])

/-- Hand a record to the operating system. -/
def append (w : Wal) (dir : Dir) (record : LogRecord) : Except WalError (Wal × Dir) :=
  match w.appended with
  | some prev =>
    if prev.next = some record.seq then put else .error (.sequenceGap prev record.seq)
  | none => put
where
  put : Except WalError (Wal × Dir) :=
    match c.encode record with
    | .error e => .error e
    | .ok scratch =>
      -- Roll before writing, never mid-record.
      let r :=
        if w.activeBytes > 0 ∧ w.activeBytes + scratch.length > w.segmentBytes.val then w.rotate dir
        else (w, dir)
      let r := r.1.writeAll r.2 scratch
      .ok ({ r.1 with
        activeBytes := r.1.activeBytes + scratch.length
        appended := some record.seq }, r.2)

/-- Flush and sync. Returns the highest sequence number that is now durable. -/
def sync (w : Wal) (dir : Dir) : Wal × Dir :=
  let r := w.flush dir
  ({ r.1 with durable := r.1.appended }, r.2)

/-! ## Opening

Opening reads the log for its last position, cuts the torn tail off the last segment and goes on
with that segment, or starts the first. -/

/-- Open the log in `dir`, creating it if absent. The directory may have changed when it fails. -/
def «open» (config : AuctionConfig) (segmentBytes : U64) (dir : Dir) : Except WalError Wal × Dir :=
  match dir.readManifest with
  | .ok existing =>
    if existing = config then resume dir else (.error (.manifestMismatch .manifest), dir)
  | .error (.noManifest _) => resume { dir with manifest := some (.ok config) }
  | .error e => (.error e, dir)
where
  /-- Resume the highest-numbered segment rather than starting a new one. -/
  resume (dir : Dir) : Except WalError Wal × Dir :=
    let activeIndex := (dir.segments.getLast?.map Prod.fst).getD 0
    match c.lastSeqIn dir with
    | .error e => (.error e, dir)
    | .ok durable =>
      match c.truncateTornTail dir activeIndex with
      | .error e => (.error e, dir)
      | .ok dir =>
        let dir := dir.write activeIndex []
        (.ok ⟨segmentBytes, activeIndex, ((dir.segs.get? activeIndex).getD []).length, [], durable,
          durable⟩, dir)

end Wal

/-! ## Gapless lists -/

/-- Every sequence number is the one after the one before it. -/
def Gapless (records : List LogRecord) : Prop :=
  records.IsChain fun a b ↦ a.seq.next = some b.seq

instance (records : List LogRecord) : Decidable (Gapless records) :=
  inferInstanceAs (Decidable (records.IsChain fun a b ↦ a.seq.next = some b.seq))

namespace Codec

theorem extend_eq {all records : List LogRecord} (h : Gapless (all ++ records)) :
    extend all records = .ok (all ++ records) := by
  induction records generalizing all with
  | nil => rw [extend, List.append_nil]
  | cons record records ih =>
    have hrest : Gapless ((all ++ [record]) ++ records) := by
      rwa [List.append_assoc, List.singleton_append]
    rw [extend]
    cases hlast : all.getLast? with
    | none =>
      dsimp only
      rw [ih hrest, List.append_assoc, List.singleton_append]
    | some prev =>
      have hnext : prev.seq.next = some record.seq :=
        (List.isChain_append.mp h).2.2 prev hlast record rfl
      dsimp only
      rw [if_pos hnext, ih hrest, List.append_assoc, List.singleton_append]

variable {c : Codec} (h : c.Lawful)
include h

theorem readFrom_cons {all records : List LogRecord} (hgap : Gapless (all ++ records)) (index : ℕ)
    (rest : List (ℕ × List UInt8)) :
    c.readFrom all ((index, c.frames records) :: rest) = c.readFrom (all ++ records) rest := by
  rw [readFrom, h.readSegment_frames]
  dsimp only
  rw [if_neg fun hbad ↦ absurd hbad.1 (lt_irrefl 0), extend_eq hgap]

theorem readFrom_append {all : List LogRecord} {sealed : List (ℕ × List LogRecord)}
    (hgap : Gapless (all ++ sealed.flatMap Prod.snd)) (rest : List (ℕ × List UInt8)) :
    c.readFrom all (sealed.map (fun e ↦ (e.1, c.frames e.2)) ++ rest) =
      c.readFrom (all ++ sealed.flatMap Prod.snd) rest := by
  induction sealed generalizing all with
  | nil => rw [List.map_nil, List.nil_append, List.flatMap_nil, List.append_nil]
  | cons e sealed ih =>
    rw [List.flatMap_cons, ← List.append_assoc] at hgap
    rw [List.map_cons, List.cons_append, readFrom_cons h (List.IsChain.left_of_append hgap),
      ih hgap, List.flatMap_cons, List.append_assoc]

theorem readFrom_last {all records : List LogRecord} (hgap : Gapless (all ++ records)) (index : ℕ)
    {tail : List UInt8} (htail : Framing.Ends c.decode tail) :
    c.readFrom all [(index, c.frames records ++ tail)] = .ok (all ++ records) := by
  rw [readFrom, h.readSegment index records htail]
  dsimp only
  rw [if_neg fun hbad ↦ hbad.2 rfl, extend_eq hgap]
  rfl

/-- **Reading a log back** gives its records, whatever torn bytes follow them. -/
theorem readAll_eq {dir : Dir} {log : Segments} {tail : List UInt8}
    (hholds : dir.Holds c log (c.frames log.active ++ tail)) (hfew : log.index < SEGMENTS)
    (htail : Framing.Ends c.decode tail) (hgap : Gapless log.records) :
    c.readAll dir = .ok log.records := by
  rw [Segments.records] at hgap ⊢
  have hsealed : Gapless ([] ++ log.sealed.flatMap Prod.snd) := by
    rw [List.nil_append]
    exact hgap.left_of_append
  rw [readAll, hholds.segments hfew, Segments.files,
    readFrom_append h hsealed, List.nil_append, readFrom_last h hgap log.index htail]

/-- **A last segment that was cut** holds its first records and a torn tail, and reads as those. -/
theorem readAll_cut {dir : Dir} {log : Segments} {file : List UInt8} (hholds : dir.Holds c log file)
    (hfront : file <+: c.frames log.active) (hfew : log.index < SEGMENTS)
    (hgap : Gapless log.records) :
    ∃ k tail, file = c.frames (log.active.take k) ++ tail ∧ Framing.Ends c.decode tail ∧
      Gapless (log.sealed.flatMap Prod.snd ++ log.active.take k) ∧
      c.readAll dir = .ok (log.sealed.flatMap Prod.snd ++ log.active.take k) ∧
      ∀ records, records <+: log.active → (c.frames records).length ≤ file.length →
        records <+: log.active.take k := by
  obtain ⟨k, tail, heq, hend, hmax⟩ := h.framing.take_frames log.active file.length
  have hfile : file = c.frames (log.active.take k) ++ tail :=
    (List.prefix_iff_eq_take.mp hfront).trans heq
  have hgap' : Gapless (log.sealed.flatMap Prod.snd ++ log.active.take k) :=
    hgap.prefix (List.prefix_append_right_inj _ |>.mpr (List.take_prefix _ _))
  have hholds' : dir.Holds c { log with active := log.active.take k }
      (c.frames (log.active.take k) ++ tail) := hfile ▸ hholds.ascribe _
  exact ⟨k, tail, hfile, hend, hgap', readAll_eq h hholds' hfew hend hgap', hmax⟩

/-- **Cutting off the torn tail** leaves exactly the whole records. -/
theorem truncateTornTail_holds {dir : Dir} {log : Segments} {tail : List UInt8}
    (hholds : dir.Holds c log (c.frames log.active ++ tail)) (htail : Framing.Ends c.decode tail) :
    ∃ dir', c.truncateTornTail dir log.index = .ok dir' ∧ dir'.manifest = dir.manifest ∧
      dir'.snaps = dir.snaps ∧ dir'.Holds c log (c.frames log.active) := by
  rw [truncateTornTail, hholds.get?]
  dsimp only
  rw [h.readSegment log.index log.active htail]
  dsimp only
  split_ifs with hzero
  · rw [List.length_eq_zero_iff.mp hzero, List.append_nil] at hholds
    exact ⟨dir, rfl, rfl, rfl, hholds⟩
  · refine ⟨_, rfl, rfl, rfl, ?_⟩
    have hset := hholds.setLen (c.frames log.active).length
    rw [List.take_left] at hset
    rwa [List.length_append, Nat.add_sub_cancel]

end Codec

end DutchAuction
