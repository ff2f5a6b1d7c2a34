import DutchAuction.Wal.Record

/-!
# Segment files

A log directory holds a manifest, the segments of the log in ascending order of their index, and the
snapshots in ascending order of their sequence number. A segment is its bytes; the manifest and a
snapshot are what reading their file gives, or why it cannot be read.

Segment names carry eight digits. A file whose index needs more is there but is not one the reader
finds (`segments`).

`Dir.Holds` relates a directory to the records in its segments. The last segment may end in bytes
that are no whole record: where a scan of it stops without an error. -/

namespace DutchAuction

/-- A state plus its position in the log. -/
structure Snapshot where
  /-- The last command applied to `state`. -/
  seq : Seq
  state : AuctionState

/-- The snapshot files of a directory: what reading one gives, or why it cannot be read. -/
abbrev Snapshots := OrdMap Seq (Except String Snapshot)

/-- A log directory. -/
structure Dir where
  manifest : Option (Except String AuctionConfig)
  segs : OrdMap ℕ (List UInt8)
  snaps : Snapshots

/-- One past the largest index a segment name can carry. -/
def SEGMENTS : ℕ := 10 ^ 8

namespace Dir

/-- A directory that was just created. -/
def empty : Dir := ⟨none, OrdMap.empty, OrdMap.empty⟩

/-- Every segment in the directory, in sequence order. -/
def segments (dir : Dir) : List (ℕ × List UInt8) := dir.segs.entries.filter fun e ↦ e.1 < SEGMENTS

/-- Write at the end of a segment, which is created if it is not there. -/
def write (dir : Dir) (index : ℕ) (bytes : List UInt8) : Dir :=
  { dir with segs := dir.segs.upsert index fun old ↦ old.getD [] ++ bytes }

/-- Cut a segment to its first `len` bytes. -/
def setLen (dir : Dir) (index len : ℕ) : Dir :=
  { dir with segs := dir.segs.upsert index fun old ↦ (old.getD []).take len }

end Dir

/-- The records in one segment, plus how many trailing bytes could not be read. -/
structure SegmentContents where
  records : List LogRecord
  trailingBytes : ℕ

namespace Codec

variable (c : Codec)

/-- Read a segment back. -/
def readSegment (index : ℕ) (bytes : List UInt8) : Except WalError SegmentContents :=
  match Framing.scan c.decode bytes.length 0 bytes with
  | .ok (records, trailing) => .ok ⟨records, trailing⟩
  | .error (offset, detail) => .error (.corrupt (.segment index) offset detail)

/-- The bytes of a list of records. -/
def frames (records : List LogRecord) : List UInt8 :=
  records.flatMap fun r ↦ c.framed (c.serialize r)

variable {c}

@[simp] theorem frames_nil : c.frames [] = [] := rfl

theorem frames_append (l l' : List LogRecord) : c.frames (l ++ l') = c.frames l ++ c.frames l' :=
  List.flatMap_append

theorem frames_singleton (r : LogRecord) : c.frames [r] = c.framed (c.serialize r) :=
  List.flatMap_singleton ..

/-- **Reading a segment** gives the records up to the first place where nothing decodes. -/
theorem Lawful.readSegment (h : c.Lawful) (index : ℕ) (records : List LogRecord)
    {tail : List UInt8} (htail : Framing.Ends c.decode tail) :
    c.readSegment index (c.frames records ++ tail) = .ok ⟨records, tail.length⟩ := by
  rw [Codec.readSegment, frames, h.framing.scan_frames records htail le_rfl]

theorem Lawful.readSegment_frames (h : c.Lawful) (index : ℕ) (records : List LogRecord) :
    c.readSegment index (c.frames records) = .ok ⟨records, 0⟩ := by
  have hread := h.readSegment index records (Or.inl rfl : Framing.Ends c.decode [])
  rwa [List.append_nil] at hread

end Codec

/-! ## A directory and the records in it

Sealed segments are whole and lie below the last in the map of segments, so that the last one is
what is looked up, written to and cut, and starting another seals it. -/

/-- The records of the sealed segments and of the last one, with the indices of their files. -/
structure Segments where
  sealed : List (ℕ × List LogRecord)
  index : ℕ
  active : List LogRecord

namespace Segments

/-- All the records, in order. -/
def records (log : Segments) : List LogRecord := log.sealed.flatMap Prod.snd ++ log.active

/-- The files of the sealed segments. -/
def files (log : Segments) (c : Codec) : List (ℕ × List UInt8) :=
  log.sealed.map fun e ↦ (e.1, c.frames e.2)

theorem records_seal (log : Segments) (index : ℕ) (active : List LogRecord) :
    records ⟨log.sealed ++ [(log.index, log.active)], index, active⟩ = log.records ++ active := by
  rw [records, records, List.flatMap_append, List.flatMap_singleton]

end Segments

/-- The directory holds these segments, and `bytes` in the file of the last. -/
structure Dir.Holds (dir : Dir) (c : Codec) (log : Segments) (bytes : List UInt8) : Prop where
  entries : dir.segs.entries = log.files c ++ [(log.index, bytes)]

namespace Dir.Holds

variable {dir : Dir} {c : Codec} {log : Segments} {bytes : List UInt8}

theorem lt_index (h : dir.Holds c log bytes) : ∀ e ∈ log.files c, e.1 < log.index := by
  have hsorted := dir.segs.sorted
  rw [h.entries, List.pairwise_append] at hsorted
  exact fun e he ↦ hsorted.2.2 e he _ (List.mem_singleton_self _)

theorem segments (h : dir.Holds c log bytes) (hfew : log.index < SEGMENTS) :
    dir.segments = log.files c ++ [(log.index, bytes)] := by
  rw [Dir.segments, h.entries, List.filter_eq_self]
  intro e he
  refine decide_eq_true ?_
  rcases List.mem_append.mp he with he | he
  · exact (h.lt_index e he).trans hfew
  · rw [List.mem_singleton.mp he]
    exact hfew

theorem get? (h : dir.Holds c log bytes) : dir.segs.get? log.index = some bytes :=
  OrdMap.get?_of_mem h.entries

theorem write (h : dir.Holds c log bytes) (more : List UInt8) :
    (dir.write log.index more).Holds c log (bytes ++ more) :=
  ⟨OrdMap.entries_upsert_of_mem h.entries _⟩

theorem setLen (h : dir.Holds c log bytes) (len : ℕ) :
    (dir.setLen log.index len).Holds c log (bytes.take len) :=
  ⟨OrdMap.entries_upsert_of_mem h.entries _⟩

theorem start (h : dir.Holds c log (c.frames log.active)) :
    (dir.write (log.index + 1) []).Holds c
      ⟨log.sealed ++ [(log.index, log.active)], log.index + 1, []⟩ [] := by
  have hgt : ∀ e ∈ dir.segs.entries, e.1 < log.index + 1 := by
    intro e he
    rw [h.entries] at he
    rcases List.mem_append.mp he with he | he
    · exact Nat.lt_succ_of_lt (h.lt_index e he)
    · rw [List.mem_singleton.mp he]
      exact Nat.lt_succ_self _
  refine ⟨(OrdMap.entries_upsert_of_gt hgt _).trans ?_⟩
  rw [h.entries, Segments.files, Segments.files, List.map_append]
  rfl

theorem ascribe (h : dir.Holds c log bytes) (records : List LogRecord) :
    dir.Holds c { log with active := records } bytes := ⟨h.entries⟩

end Dir.Holds

end DutchAuction
