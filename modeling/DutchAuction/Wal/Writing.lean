import DutchAuction.Wal.Log

/-!
# What an open log has written

What is in the file of the last segment and what is still in the buffer make up the frames of its
records (`Wal.Writes`). Flushing moves the one to the other; appending puts one record behind the
others, in the last segment or in a new one (`Wal.Writes.put`); opening resumes with the whole
records of the last segment (`Wal.open_holds`).
-/

namespace DutchAuction

open Codec (frames_append frames_singleton)

namespace Wal

variable {c : Codec} {w : Wal} {dir : Dir} {log : Segments} {file : List UInt8}

/-- An open log and the segments it writes. -/
structure Writes (w : Wal) (c : Codec) (log : Segments) (file : List UInt8) : Prop where
  index : w.activeIndex = log.index
  bytes : file ++ w.buffer = c.frames log.active
  size : w.activeBytes = (c.frames log.active).length
  last : w.appended = log.records.getLast?.map LogRecord.seq

namespace Writes

theorem flush (h : w.Writes c log file) (hholds : dir.Holds c log file) :
    (w.flush dir).2.Holds c log (c.frames log.active) := by
  have hwrite := hholds.write w.buffer
  rw [h.bytes] at hwrite
  show (dir.write w.activeIndex w.buffer).Holds c log (c.frames log.active)
  rwa [h.index]

end Writes

theorem writeAll_holds (hholds : dir.Holds c log file) (hindex : w.activeIndex = log.index)
    (bytes : List UInt8) :
    ∃ file' buffer, (w.writeAll dir bytes).1 = { w with buffer := buffer } ∧
      (w.writeAll dir bytes).2.Holds c log file' ∧ file <+: file' ∧
      file' ++ buffer = file ++ w.buffer ++ bytes := by
  have hwrite : ∀ {dir : Dir} {file : List UInt8}, dir.Holds c log file → ∀ more,
      (dir.write w.activeIndex more).Holds c log (file ++ more) := by
    intro dir file hholds more
    rw [hindex]
    exact hholds.write more
  rw [writeAll]
  split_ifs with hfits hspare hlarge hlarge
  · exact ⟨file, w.buffer ++ bytes, rfl, hholds, List.prefix_rfl, (List.append_assoc ..).symm⟩
  · exact ⟨_, [], rfl, hwrite (hwrite hholds w.buffer) bytes,
      (List.prefix_append _ _).trans (List.prefix_append _ _), List.append_nil _⟩
  · exact ⟨_, bytes, rfl, hwrite hholds w.buffer, List.prefix_append _ _, rfl⟩
  · -- What fits neither the spare room nor the whole buffer was not larger than the spare room.
    have hempty : w.buffer = [] := by
      refine List.length_eq_zero_iff.mp ?_
      rw [BUFFER] at *
      omega
    refine ⟨_, w.buffer, rfl, hwrite hholds bytes, List.prefix_append _ _, ?_⟩
    rw [hempty, List.append_nil, List.append_nil]
  · exact ⟨file, w.buffer ++ bytes, rfl, hholds, List.prefix_rfl, (List.append_assoc ..).symm⟩

theorem writeAll_manifest (w : Wal) (dir : Dir) (bytes : List UInt8) :
    (w.writeAll dir bytes).2.manifest = dir.manifest := by
  rw [writeAll]
  split_ifs <;> rfl

/-! ## Appending

A record is accepted if it is the next one, and then it is behind the others, in the buffer or in
the file, and not durable yet. Any other is refused without a trace. -/

/-- Where a record went: behind the others of the last segment, or into a new one. -/
inductive Placed (log : Segments) (record : LogRecord) (file : List UInt8) :
    Segments → List UInt8 → Prop
  | here {file' : List UInt8} (hfile : file <+: file') :
      Placed log record file { log with active := log.active ++ [record] } file'
  | rolled {file' : List UInt8} :
      Placed log record file
        ⟨log.sealed ++ [(log.index, log.active)], log.index + 1, [record]⟩ file'

theorem Placed.records {record : LogRecord} {log' : Segments} {file' : List UInt8}
    (h : Placed log record file log' file') : log'.records = log.records ++ [record] := by
  cases h with
  | here hfile => rw [Segments.records, Segments.records, List.append_assoc]
  | rolled => exact log.records_seal _ _

/-- **Appending a record** puts it behind the others. -/
theorem Writes.put (h : c.Lawful) (hw : w.Writes c log file) (hholds : dir.Holds c log file)
    (record : LogRecord) :
    ∃ w' dir' log' file', append.put c w dir record = .ok (w', dir') ∧
      dir'.manifest = dir.manifest ∧ dir'.Holds c log' file' ∧ w'.Writes c log' file' ∧
      Placed log record file log' file' := by
  rw [append.put, h.encode_eq]
  dsimp only
  split_ifs with hroll
  · have hstart := (hw.flush hholds).start
    have hindex : (w.rotate dir).1.activeIndex = log.index + 1 := congrArg (· + 1) hw.index
    have hdir : (w.rotate dir).2.Holds c
        ⟨log.sealed ++ [(log.index, log.active)], log.index + 1, []⟩ [] := by
      show ((w.flush dir).2.write (w.activeIndex + 1) []).Holds c _ []
      rwa [hw.index]
    obtain ⟨file', buffer, hwal, hdir', hpre, hbytes⟩ :=
      writeAll_holds hdir hindex (c.framed (c.serialize record))
    refine ⟨_, _, _, file', rfl, writeAll_manifest _ _ _, hdir'.ascribe [record], ?_,
      Placed.rolled⟩
    rw [hwal]
    refine ⟨hindex, ?_, ?_, ?_⟩
    · rw [frames_singleton]
      exact hbytes
    · rw [frames_singleton]
      exact Nat.zero_add _
    · rw [Segments.records, List.getLast?_append]
      rfl
  · obtain ⟨file', buffer, hwal, hdir', hpre, hbytes⟩ :=
      writeAll_holds hholds hw.index (c.framed (c.serialize record))
    refine ⟨_, _, _, file', rfl, writeAll_manifest _ _ _,
      hdir'.ascribe (log.active ++ [record]), ?_, Placed.here hpre⟩
    rw [hwal]
    refine ⟨hw.index, ?_, ?_, ?_⟩
    · rw [frames_append, frames_singleton, ← hw.bytes]
      exact hbytes
    · rw [frames_append, frames_singleton, List.length_append, ← hw.size]
    · rw [Segments.records, List.getLast?_append, List.getLast?_append]
      rfl

theorem append_eq_put {record : LogRecord}
    (h : ∀ prev ∈ w.appended, prev.next = some record.seq) :
    w.append c dir record = append.put c w dir record := by
  rw [append]
  cases hlast : w.appended with
  | none => rfl
  | some prev => exact if_pos (h prev hlast)

theorem append_eq_error {record : LogRecord} {prev : Seq} (hprev : w.appended = some prev)
    (h : prev.next ≠ some record.seq) :
    w.append c dir record = .error (.sequenceGap prev record.seq) := by
  rw [append, hprev]
  exact if_neg h

theorem writeAll_fst (w : Wal) (dir : Dir) (bytes : List UInt8) :
    ∃ buffer, (w.writeAll dir bytes).1 = { w with buffer := buffer } := by
  rw [writeAll]
  split_ifs
  · exact ⟨_, rfl⟩
  · exact ⟨_, rfl⟩
  · exact ⟨_, rfl⟩
  · exact ⟨_, rfl⟩
  · exact ⟨_, rfl⟩

theorem append_manifest {w' : Wal} {dir' : Dir} {record : LogRecord}
    (h : w.append c dir record = .ok (w', dir')) : dir'.manifest = dir.manifest := by
  have hput : append.put c w dir record = .ok (w', dir') := by
    rw [append] at h
    split at h
    · split_ifs at h
      exact h
    · exact h
  rw [append.put] at hput
  split at hput
  · cases hput
  · dsimp only at hput
    obtain ⟨-, rfl⟩ := Prod.mk.inj (Except.ok.inj hput)
    rw [writeAll_manifest]
    split_ifs
    · rfl
    · rfl

theorem append_snaps {w' : Wal} {dir' : Dir} {record : LogRecord}
    (h : w.append c dir record = .ok (w', dir')) : dir'.snaps = dir.snaps := by
  have hwrite : ∀ (w : Wal) (dir : Dir) bytes, (w.writeAll dir bytes).2.snaps = dir.snaps := by
    intro w dir bytes
    rw [writeAll]
    split_ifs <;> rfl
  have hput : append.put c w dir record = .ok (w', dir') := by
    rw [append] at h
    split at h
    · split_ifs at h
      exact h
    · exact h
  rw [append.put] at hput
  split at hput
  · cases hput
  · dsimp only at hput
    obtain ⟨-, rfl⟩ := Prod.mk.inj (Except.ok.inj hput)
    rw [hwrite]
    split_ifs
    · rfl
    · rfl

theorem append_ok {w' : Wal} {dir' : Dir} {record : LogRecord}
    (h : w.append c dir record = .ok (w', dir')) :
    (∀ prev ∈ w.appended, prev.next = some record.seq) ∧ w'.appended = some record.seq ∧
      w'.durable = w.durable := by
  have hnext : ∀ prev ∈ w.appended, prev.next = some record.seq := by
    intro prev hprev
    by_contra hne
    rw [append_eq_error hprev hne] at h
    cases h
  rw [append_eq_put hnext, append.put] at h
  cases hencode : c.encode record with
  | error e =>
    rw [hencode] at h
    cases h
  | ok scratch =>
    rw [hencode] at h
    dsimp only at h
    split_ifs at h
    · obtain ⟨buffer, hwrite⟩ := (w.rotate dir).1.writeAll_fst (w.rotate dir).2 scratch
      rw [hwrite] at h
      obtain ⟨rfl, -⟩ := Prod.mk.inj (Except.ok.inj h)
      exact ⟨hnext, rfl, rfl⟩
    · obtain ⟨buffer, hwrite⟩ := w.writeAll_fst dir scratch
      rw [hwrite] at h
      obtain ⟨rfl, -⟩ := Prod.mk.inj (Except.ok.inj h)
      exact ⟨hnext, rfl, rfl⟩

/-! ## Opening

Opening leaves the snapshots alone, makes a manifest if there is none, and resumes with the whole
records of the last segment. All that it finds it holds durable. -/

theorem open_eq {config : AuctionConfig}
    (hmanifest : dir.manifest = none ∨ dir.manifest = some (.ok config)) (segmentBytes : U64) :
    Wal.open c config segmentBytes dir =
      open.resume c segmentBytes { dir with manifest := some (.ok config) } := by
  rcases hmanifest with hnone | hsome
  · rw [Wal.open, Dir.readManifest, hnone]
  · have hdir : { dir with manifest := some (.ok config) } = dir := by rw [← hsome]
    rw [Wal.open, Dir.readManifest, hsome]
    dsimp only
    rw [if_pos rfl, hdir]

/-- **Opening a log** cuts off the torn tail and resumes behind the last whole record. -/
theorem open_holds (h : c.Lawful) {config : AuctionConfig} {tail : List UInt8}
    (hmanifest : dir.manifest = none ∨ dir.manifest = some (.ok config))
    (hholds : dir.Holds c log (c.frames log.active ++ tail)) (hfew : log.index < SEGMENTS)
    (htail : Framing.Ends c.decode tail) (hgap : Gapless log.records) (segmentBytes : U64) :
    ∃ w dir', Wal.open c config segmentBytes dir = (.ok w, dir') ∧
      dir'.manifest = some (.ok config) ∧ dir'.Holds c log (c.frames log.active) ∧
      w.Writes c log (c.frames log.active) := by
  have hholds' : Dir.Holds { dir with manifest := some (.ok config) } c log
      (c.frames log.active ++ tail) := ⟨hholds.entries⟩
  have hread := Codec.readAll_eq h hholds' hfew htail hgap
  have hlast : (Dir.segments { dir with manifest := some (.ok config) }).getLast?.map Prod.fst =
      some log.index := by
    rw [hholds'.segments hfew, List.getLast?_append]
    rfl
  obtain ⟨dir', htrunc, hmanifest', -, hcut⟩ := Codec.truncateTornTail_holds h hholds' htail
  have hdone := hcut.write []
  rw [List.append_nil] at hdone
  rw [open_eq hmanifest, open.resume]
  dsimp only
  rw [hlast, Option.getD_some, Codec.lastSeqIn, hread]
  dsimp only [Except.map]
  rw [htrunc]
  dsimp only
  refine ⟨_, _, rfl, hmanifest', hdone, rfl, List.append_nil _, ?_, rfl⟩
  rw [hdone.get?]
  rfl

/-- **Opening a directory without segments** starts the first. -/
theorem open_empty {config : AuctionConfig}
    (hmanifest : dir.manifest = none ∨ dir.manifest = some (.ok config))
    (hempty : dir.segs.entries = []) (segmentBytes : U64) :
    ∃ w dir', Wal.open c config segmentBytes dir = (.ok w, dir') ∧
      dir'.manifest = some (.ok config) ∧ dir'.Holds c ⟨[], 0, []⟩ [] ∧
      w.Writes c ⟨[], 0, []⟩ [] := by
  have hsegments : Dir.segments { dir with manifest := some (.ok config) } = [] := by
    show dir.segs.entries.filter _ = []
    rw [hempty, List.filter_nil]
  have hnone : dir.segs.get? 0 = none := by
    rw [OrdMap.get?, hempty]
    rfl
  have hentries : (dir.segs.upsert 0 fun old ↦ old.getD [] ++ []).entries = [(0, [])] := by
    rw [OrdMap.entries_upsert_of_gt fun e he ↦ absurd (hempty ▸ he) List.not_mem_nil, hempty]
    rfl
  have hread : c.readAll { dir with manifest := some (.ok config) } = .ok [] := by
    rw [Codec.readAll, hsegments]
    rfl
  rw [open_eq hmanifest, open.resume]
  dsimp only
  rw [hsegments, Codec.lastSeqIn, hread]
  dsimp only [List.getLast?_nil, Option.map_none, Option.getD_none, Except.map]
  rw [Codec.truncateTornTail]
  dsimp only
  rw [hnone]
  refine ⟨_, _, rfl, rfl, ⟨hentries⟩, rfl, rfl, ?_, rfl⟩
  dsimp only [Dir.write]
  rw [OrdMap.get?, hentries]
  rfl

theorem open_manifest {config : AuctionConfig} {segmentBytes : U64} {dir' : Dir}
    {result : Except WalError Wal} (h : Wal.open c config segmentBytes dir = (result, dir')) :
    dir'.manifest ≠ none ∨ (dir' = dir ∧ ∀ w, result ≠ .ok w) := by
  have htruncate : ∀ {d d' index},
      c.truncateTornTail d index = .ok d' → d'.manifest = d.manifest := by
    intro d d' index h
    rw [Codec.truncateTornTail] at h
    split at h
    · exact Except.ok.inj h ▸ rfl
    · split at h
      · cases h
      · split_ifs at h
        · exact Except.ok.inj h ▸ rfl
        · exact Except.ok.inj h ▸ rfl
  have hresume : ∀ {d}, open.resume c segmentBytes d = (result, dir') →
      dir'.manifest = d.manifest := by
    intro d h
    rw [open.resume] at h
    dsimp only at h
    split at h
    · exact congrArg Dir.manifest (congrArg Prod.snd h).symm
    · split at h
      · exact congrArg Dir.manifest (congrArg Prod.snd h).symm
      · rename_i htrunc
        have hmanifest := htruncate htrunc
        exact (congrArg Dir.manifest (congrArg Prod.snd h).symm).trans hmanifest
  rw [Wal.open] at h
  split at h
  · rename_i existing hread
    left
    have hdir : dir.manifest ≠ none := by
      intro hnone
      rw [Dir.readManifest, hnone] at hread
      cases hread
    split_ifs at h
    · exact hresume h ▸ hdir
    · obtain ⟨-, rfl⟩ := Prod.mk.inj h
      exact hdir
  · left
    rw [hresume h]
    exact Option.some_ne_none _
  · obtain ⟨rfl, rfl⟩ := Prod.mk.inj h
    exact Or.inr ⟨rfl, fun w hw ↦ by cases hw⟩

theorem open_snaps {config : AuctionConfig} {segmentBytes : U64} {dir' : Dir}
    (h : Wal.open c config segmentBytes dir = (.ok w, dir')) : dir'.snaps = dir.snaps := by
  have htruncate : ∀ {d d' index},
      c.truncateTornTail d index = .ok d' → d'.snaps = d.snaps := by
    intro d d' index h
    rw [Codec.truncateTornTail] at h
    split at h
    · exact Except.ok.inj h ▸ rfl
    · split at h
      · cases h
      · split_ifs at h
        · exact Except.ok.inj h ▸ rfl
        · exact Except.ok.inj h ▸ rfl
  have hresume : ∀ {d}, open.resume c segmentBytes d = (.ok w, dir') → dir'.snaps = d.snaps := by
    intro d h
    rw [open.resume] at h
    dsimp only at h
    split at h
    · cases congrArg Prod.fst h
    · split at h
      · cases congrArg Prod.fst h
      · rename_i htrunc
        have hsnaps := htruncate htrunc
        exact (congrArg Dir.snaps (congrArg Prod.snd h).symm).trans hsnaps
  rw [Wal.open] at h
  split at h
  · split_ifs at h
    · exact hresume h
    · cases congrArg Prod.fst h
  · exact (hresume h).trans rfl
  · cases congrArg Prod.fst h

theorem open_durable {config : AuctionConfig} {segmentBytes : U64} {dir' : Dir}
    (h : Wal.open c config segmentBytes dir = (.ok w, dir')) :
    w.appended = w.durable ∧ c.lastSeqIn dir = .ok w.durable := by
  have hresume : ∀ manifest, Wal.open.resume c segmentBytes { dir with manifest := manifest } =
      (.ok w, dir') → w.appended = w.durable ∧ c.lastSeqIn dir = .ok w.durable := by
    intro manifest h
    rw [open.resume] at h
    dsimp only at h
    split at h
    · cases congrArg Prod.fst h
    · rename_i hlast
      split at h
      · cases congrArg Prod.fst h
      · obtain rfl := Except.ok.inj (congrArg Prod.fst h)
        exact ⟨rfl, hlast⟩
  rw [Wal.open] at h
  split at h
  · split_ifs at h
    · exact hresume dir.manifest h
    · cases congrArg Prod.fst h
  · exact hresume _ h
  · cases congrArg Prod.fst h

end Wal

end DutchAuction
