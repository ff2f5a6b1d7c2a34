import DutchAuction.Library.Interrupted
import DutchAuction.Wal.Recovery
import DutchAuction.Wal.Writing

/-!
# The calls a log makes on its segments

Opening, appending, syncing and rotating change the segments by a list of calls each: writes at the
end of a file, a cut, a sync. The lists are given here (`appendCalls` and so on), each with the
theorem that making all its calls is what the operation does to the directory.

A process can be killed before any of these calls or inside one, and a write that is cut off has
written some first bytes. Wherever that is, the segments stay `Legible`: all but the last are whole,
and the last has a first part of the frames of its records.
-/

namespace DutchAuction

open Codec (frames_append frames_singleton)

/-- The segment files of a directory. -/
abbrev Segs := OrdMap ℕ (List UInt8)

/-- A call on a segment file. -/
inductive SegCall
  /-- Write at the end of the file, which is created if it is not there. -/
  | write (index : ℕ) (bytes : List UInt8)
  | setLen (index len : ℕ)
  | sync (index : ℕ)

namespace SegCall

def apply : SegCall → Segs → Segs
  | write index bytes, segs => segs.upsert index fun old ↦ old.getD [] ++ bytes
  | setLen index len, segs => segs.upsert index fun old ↦ (old.getD []).take len
  | sync _, segs => segs

/-- A write that is cut off has written `n` bytes. -/
def cut (n : ℕ) : SegCall → Segs → Segs
  | write index bytes, segs => (write index (bytes.take n)).apply segs
  | setLen _ _, segs => segs
  | sync _, segs => segs

/-- What a call writes. -/
def bytes : SegCall → List UInt8
  | write _ bytes => bytes
  | setLen _ _ | sync _ => []

end SegCall

/-- The calls on segments, whole and cut off. -/
def segCalls : Interrupted.Effect Segs SegCall := ⟨SegCall.apply, SegCall.cut⟩

/-! ## The calls of each operation

An operation makes its calls in a fixed order, which may depend on the files. Made all, they do to
the directory what the operation does. -/

namespace Wal

variable (c : Codec)

def flushCalls (w : Wal) : List SegCall := [.write w.activeIndex w.buffer]

def syncCalls (w : Wal) : List SegCall := w.flushCalls ++ [.sync w.activeIndex]

def rotateCalls (w : Wal) : List SegCall := w.syncCalls ++ [.write (w.activeIndex + 1) []]

def writeAllCalls (w : Wal) (bytes : List UInt8) : List SegCall :=
  if bytes.length < BUFFER - w.buffer.length then []
  else
    (if bytes.length > BUFFER - w.buffer.length then w.flushCalls else []) ++
      if bytes.length ≥ BUFFER then [.write w.activeIndex bytes] else []

/-- Whether a record of this length goes into a new segment. -/
def Rolls (w : Wal) (len : ℕ) : Prop :=
  w.activeBytes > 0 ∧ w.activeBytes + len > w.segmentBytes.val

instance (w : Wal) (len : ℕ) : Decidable (w.Rolls len) :=
  inferInstanceAs (Decidable (w.activeBytes > 0 ∧ w.activeBytes + len > w.segmentBytes.val))

def appendCalls (w : Wal) (record : LogRecord) : List SegCall :=
  match c.encode record with
  | .error _ => []
  | .ok scratch =>
    if w.Rolls scratch.length then
      w.rotateCalls ++
        ({ w with activeIndex := w.activeIndex + 1, buffer := [], activeBytes := 0 } :
        Wal).writeAllCalls scratch
    else w.writeAllCalls scratch

/-- Cut off a torn tail, and open the last segment. -/
def openCalls (dir : Dir) : List SegCall :=
  let activeIndex := (dir.segments.getLast?.map Prod.fst).getD 0
  let truncate :=
    match dir.segs.get? activeIndex with
    | none => []
    | some bytes =>
      match c.readSegment activeIndex bytes with
      | .error _ => []
      | .ok contents =>
        if contents.trailingBytes = 0 then []
        else [.setLen activeIndex (bytes.length - contents.trailingBytes), .sync activeIndex]
  truncate ++ [.write activeIndex []]

variable {c}

theorem sync_calls (w : Wal) (dir : Dir) :
    (w.sync dir).2 = { dir with segs := segCalls.run w.syncCalls dir.segs } := rfl

theorem rotate_calls (w : Wal) (dir : Dir) :
    (w.rotate dir).2 = { dir with segs := segCalls.run w.rotateCalls dir.segs } := rfl

theorem writeAll_calls (w : Wal) (dir : Dir) (bytes : List UInt8) :
    (w.writeAll dir bytes).2 =
      { dir with segs := segCalls.run (w.writeAllCalls bytes) dir.segs } := by
  rw [writeAll, writeAllCalls]
  split_ifs <;> rfl

theorem append_calls {w w' : Wal} {dir dir' : Dir} {record : LogRecord}
    (h : w.append c dir record = .ok (w', dir')) :
    dir' = { dir with segs := segCalls.run (w.appendCalls c record) dir.segs } := by
  rw [append_eq_put (append_ok h).1, append.put] at h
  rw [appendCalls]
  cases hencode : c.encode record with
  | error e =>
    rw [hencode] at h
    cases h
  | ok scratch =>
    rw [hencode] at h
    dsimp only at h ⊢
    obtain ⟨-, rfl⟩ := Prod.mk.inj (Except.ok.inj h)
    by_cases hroll : w.Rolls scratch.length
    · have hroll' : w.activeBytes > 0 ∧ w.activeBytes + scratch.length > w.segmentBytes.val := hroll
      rw [if_pos hroll, if_pos hroll', writeAll_calls, rotate_calls,
        Interrupted.Effect.run_append]
      rfl
    · have hroll' : ¬(w.activeBytes > 0 ∧ w.activeBytes + scratch.length > w.segmentBytes.val) :=
        hroll
      rw [if_neg hroll, if_neg hroll', writeAll_calls]

theorem append_rolls {w w' : Wal} {dir dir' : Dir} {record : LogRecord} {scratch : List UInt8}
    (h : w.append c dir record = .ok (w', dir')) (hencode : c.encode record = .ok scratch)
    (hroll : w.Rolls scratch.length) : w'.activeIndex = w.activeIndex + 1 := by
  have hroll' : w.activeBytes > 0 ∧ w.activeBytes + scratch.length > w.segmentBytes.val := hroll
  rw [append_eq_put (append_ok h).1, append.put, hencode] at h
  dsimp only at h
  rw [if_pos hroll'] at h
  obtain ⟨buffer, hwrite⟩ := (w.rotate dir).1.writeAll_fst (w.rotate dir).2 scratch
  rw [hwrite] at h
  obtain ⟨rfl, -⟩ := Prod.mk.inj (Except.ok.inj h)
  rfl

theorem resume_calls {w : Wal} {dir dir' : Dir} {segmentBytes : U64}
    (h : open.resume c segmentBytes dir = (.ok w, dir')) :
    dir' = { dir with segs := segCalls.run (openCalls c dir) dir.segs } := by
  rw [open.resume] at h
  rw [openCalls]
  dsimp only at h ⊢
  split at h
  · cases congrArg Prod.fst h
  · rw [Codec.truncateTornTail] at h
    cases hget : dir.segs.get? ((dir.segments.getLast?.map Prod.fst).getD 0) with
    | none =>
      rw [hget] at h
      exact (congrArg Prod.snd h).symm
    | some bytes =>
      rw [hget] at h
      dsimp only at h ⊢
      cases hread : c.readSegment ((dir.segments.getLast?.map Prod.fst).getD 0) bytes with
      | error e =>
        rw [hread] at h
        cases congrArg Prod.fst h
      | ok contents =>
        rw [hread] at h
        dsimp only at h ⊢
        by_cases hzero : contents.trailingBytes = 0
        · rw [if_pos hzero] at h ⊢
          exact (congrArg Prod.snd h).symm
        · rw [if_neg hzero] at h ⊢
          exact (congrArg Prod.snd h).symm

end Wal

/-! ## Legible segments -/

/-- These segments hold these records, numbered from `n`; of the last there is a first part of its
frames. -/
structure Segs.Lies (c : Codec) (n : ℕ) (segs : Segs) (log : Segments) (file : List UInt8) :
    Prop where
  entries : segs.entries = log.files c ++ [(log.index, file)]
  front : file <+: c.frames log.active
  count : log.sealed.length = log.index
  few : log.index < SEGMENTS
  numbered : NumberedFrom n log.records
  bound : n + log.records.length < 2 ^ 64

/-- There is nothing yet, or there are segments like this. -/
def Segs.Legible (c : Codec) (n : ℕ) (segs : Segs) : Prop :=
  segs.entries = [] ∨ ∃ log file, segs.Lies c n log file

namespace Segs.Lies

variable {c : Codec} {n : ℕ} {segs t : Segs} {log : Segments} {file : List UInt8} {w : Wal}

theorem holds (h : segs.Lies c n log file) {dir : Dir} (hdir : dir.segs = segs) :
    dir.Holds c log file := ⟨hdir ▸ h.entries⟩

theorem legible (h : segs.Lies c n log file) : segs.Legible c n := Or.inr ⟨log, file, h⟩

theorem write (h : segs.Lies c n log file) (more : List UInt8)
    (hmore : file ++ more <+: c.frames log.active) :
    Segs.Lies c n ((SegCall.write log.index more).apply segs) log (file ++ more) where
  entries := OrdMap.entries_upsert_of_mem h.entries _
  front := hmore
  count := h.count
  few := h.few
  numbered := h.numbered
  bound := h.bound

theorem setLen (h : segs.Lies c n log file) (len : ℕ) :
    Segs.Lies c n ((SegCall.setLen log.index len).apply segs) log (file.take len) where
  entries := OrdMap.entries_upsert_of_mem h.entries _
  front := (List.take_prefix _ _).trans h.front
  count := h.count
  few := h.few
  numbered := h.numbered
  bound := h.bound

theorem start (h : segs.Lies c n log (c.frames log.active)) (hfew : log.index + 1 < SEGMENTS) :
    Segs.Lies c n ((SegCall.write (log.index + 1) []).apply segs)
      ⟨log.sealed ++ [(log.index, log.active)], log.index + 1, []⟩ [] := by
  have hrecords : Segments.records ⟨log.sealed ++ [(log.index, log.active)], log.index + 1, []⟩ =
      log.records :=
    (log.records_seal _ []).trans (List.append_nil _)
  exact
    { entries := ((⟨h.entries⟩ : Dir.Holds ⟨none, segs, OrdMap.empty⟩ c log _).start).entries
      front := List.nil_prefix
      count := by rw [List.length_append, h.count]; rfl
      few := hfew
      numbered := hrecords ▸ h.numbered
      bound := hrecords ▸ h.bound }

theorem extend (h : segs.Lies c n log file) {r : LogRecord}
    (hnum : NumberedFrom n (log.records ++ [r]))
    (hbound : n + (log.records ++ [r]).length < 2 ^ 64) :
    segs.Lies c n { log with active := log.active ++ [r] } file := by
  have hrecords :
      Segments.records { log with active := log.active ++ [r] } = log.records ++ [r] := by
    rw [Segments.records, Segments.records, List.append_assoc]
  exact
    { entries := h.entries
      front := h.front.trans (by rw [frames_append]; exact List.prefix_append _ _)
      count := h.count
      few := h.few
      numbered := hrecords ▸ hnum
      bound := hrecords ▸ hbound }

theorem left_writes (calls : List SegCall)
    (hall : ∀ call ∈ calls, call = .write log.index call.bytes ∨ ∃ i, call = .sync i)
    (h : segs.Lies c n log file)
    (hfits : file ++ calls.flatMap SegCall.bytes <+: c.frames log.active) :
    (∀ t, segCalls.Left calls segs t → ∃ file', Segs.Lies c n t log file') ∧
      Segs.Lies c n (segCalls.run calls segs) log (file ++ calls.flatMap SegCall.bytes) := by
  induction calls generalizing segs file with
  | nil =>
    refine ⟨fun t ht ↦ ?_, ?_⟩
    · rw [Interrupted.Effect.left_nil.mp ht]
      exact ⟨file, h⟩
    · rw [List.flatMap_nil, List.append_nil]
      exact h
  | cons call calls ih =>
    rw [List.flatMap_cons, ← List.append_assoc] at hfits ⊢
    have hpart : file ++ call.bytes <+: c.frames log.active :=
      (List.prefix_append _ _).trans hfits
    have happly : Segs.Lies c n (call.apply segs) log (file ++ call.bytes) := by
      rcases hall call List.mem_cons_self with hwrite | ⟨i, rfl⟩
      · rw [hwrite]
        exact h.write _ hpart
      · rw [SegCall.bytes, List.append_nil]
        exact h
    obtain ⟨hleft, hrun⟩ :=
      ih (fun call hcall ↦ hall call (List.mem_cons_of_mem _ hcall)) happly hfits
    refine ⟨fun t ht ↦ ?_, hrun⟩
    cases ht with
    | before => exact ⟨file, h⟩
    | inside k =>
      rcases hall call List.mem_cons_self with hwrite | ⟨i, rfl⟩
      · rw [hwrite]
        refine ⟨_, h.write (call.bytes.take k) (List.IsPrefix.trans ?_ hpart)⟩
        exact (List.prefix_append_right_inj _).mpr (List.take_prefix _ _)
      · exact ⟨file, h⟩
    | behind ht => exact hleft t ht

/-! ## What a killed operation leaves

Each operation is followed through its calls to the one it is killed in. Opening does nothing to
the files but cut off a torn tail or start the first segment. -/

theorem sync (h : segs.Lies c n log file) (hw : w.Writes c log file) :
    (∀ t, segCalls.Left w.syncCalls segs t → t.Legible c n) ∧
      Segs.Lies c n (segCalls.run w.syncCalls segs) log (c.frames log.active) := by
  have hbytes : file ++ w.syncCalls.flatMap SegCall.bytes = c.frames log.active := by
    rw [← hw.bytes]
    exact congrArg (file ++ ·) (List.append_nil _)
  obtain ⟨hleft, hrun⟩ := h.left_writes w.syncCalls (by
    intro call hcall
    rcases List.mem_cons.mp hcall with rfl | hcall
    · exact Or.inl (congrArg (SegCall.write · w.buffer) hw.index)
    · exact Or.inr ⟨_, List.mem_singleton.mp hcall⟩) (hbytes ▸ List.prefix_rfl)
  refine ⟨fun t ht ↦ ?_, hbytes ▸ hrun⟩
  obtain ⟨file', h'⟩ := hleft t ht
  exact h'.legible

theorem rotate (h : segs.Lies c n log file) (hw : w.Writes c log file)
    (hfew : log.index + 1 < SEGMENTS) :
    (∀ t, segCalls.Left w.rotateCalls segs t → t.Legible c n) ∧
      Segs.Lies c n (segCalls.run w.rotateCalls segs)
        ⟨log.sealed ++ [(log.index, log.active)], log.index + 1, []⟩ [] := by
  obtain ⟨hleft, hrun⟩ := h.sync hw
  have hstart := hrun.start hfew
  rw [← hw.index] at hstart
  refine ⟨fun t ht ↦ ?_, ?_⟩
  · rcases Interrupted.Effect.left_append.mp ht with ht | ht
    · exact hleft t ht
    · cases ht with
      | before => exact hrun.legible
      | inside k =>
        have hcut := hstart.legible
        rwa [← List.take_nil (i := k)] at hcut
      | behind ht =>
        rw [Interrupted.Effect.left_nil.mp ht]
        exact hstart.legible
  · rw [Wal.rotateCalls, Interrupted.Effect.run_append]
    exact hw.index ▸ hstart

end Segs.Lies

theorem Wal.mem_openCalls {c : Codec} {dir : Dir} {call : SegCall}
    (h : call ∈ Wal.openCalls c dir) :
    (∃ len, call = .setLen ((dir.segments.getLast?.map Prod.fst).getD 0) len) ∨
      (∃ i, call = .sync i) ∨ call = .write ((dir.segments.getLast?.map Prod.fst).getD 0) [] := by
  rw [openCalls] at h
  rcases List.mem_append.mp h with h | h
  · split at h
    · exact absurd h List.not_mem_nil
    · split at h
      · exact absurd h List.not_mem_nil
      · split_ifs at h
        · exact absurd h List.not_mem_nil
        · rcases List.mem_cons.mp h with rfl | h
          · exact Or.inl ⟨_, rfl⟩
          · exact Or.inr (Or.inl ⟨_, List.mem_singleton.mp h⟩)
  · exact Or.inr (Or.inr (List.mem_singleton.mp h))

theorem Wal.writeAllCalls_bytes (w : Wal) (bytes : List UInt8) :
    (∀ call ∈ w.writeAllCalls bytes, call = .write w.activeIndex call.bytes) ∧
      (w.writeAllCalls bytes).flatMap SegCall.bytes <+: w.buffer ++ bytes := by
  rw [writeAllCalls]
  split_ifs with hfits hspare hlarge hlarge
  · exact ⟨fun call hcall ↦ absurd hcall List.not_mem_nil, List.nil_prefix⟩
  · refine ⟨fun call hcall ↦ ?_, ?_⟩
    · rcases List.mem_cons.mp hcall with rfl | hcall
      · rfl
      · obtain rfl := List.mem_singleton.mp hcall
        rfl
    · refine ⟨[], ?_⟩
      show w.buffer ++ (bytes ++ []) ++ [] = w.buffer ++ bytes
      rw [List.append_nil, List.append_nil]
  · refine ⟨fun call hcall ↦ ?_, ?_⟩
    · obtain rfl := List.mem_singleton.mp hcall
      rfl
    · show w.buffer ++ [] <+: w.buffer ++ bytes
      rw [List.append_nil]
      exact List.prefix_append _ _
  · -- What fits neither the spare room nor the whole buffer was not larger than the spare room.
    have hempty : w.buffer = [] := by
      refine List.length_eq_zero_iff.mp ?_
      rw [BUFFER] at *
      omega
    refine ⟨fun call hcall ↦ ?_, ?_⟩
    · obtain rfl := List.mem_singleton.mp hcall
      rfl
    · refine ⟨[], ?_⟩
      show bytes ++ [] ++ [] = w.buffer ++ bytes
      rw [List.append_nil, List.append_nil, hempty, List.nil_append]
  · exact ⟨fun call hcall ↦ absurd hcall List.not_mem_nil, List.nil_prefix⟩

namespace Segs.Lies

variable {c : Codec} {n : ℕ} {segs t : Segs} {log : Segments} {file : List UInt8} {w : Wal}

theorem writeAll (h : segs.Lies c n log file) (hindex : w.activeIndex = log.index) {r : LogRecord}
    (hbytes : file ++ w.buffer = c.frames log.active)
    (hnum : NumberedFrom n (log.records ++ [r])) (hbound : n + (log.records ++ [r]).length < 2 ^ 64)
    (ht : segCalls.Left (w.writeAllCalls (c.framed (c.serialize r))) segs t) : t.Legible c n := by
  obtain ⟨hall, hpart⟩ := w.writeAllCalls_bytes (c.framed (c.serialize r))
  have hfits : file ++ (w.writeAllCalls (c.framed (c.serialize r))).flatMap SegCall.bytes <+:
      c.frames (log.active ++ [r]) := by
    rw [frames_append, frames_singleton, ← hbytes, List.append_assoc]
    exact (List.prefix_append_right_inj _).mpr hpart
  obtain ⟨file', h'⟩ := ((h.extend hnum hbound).left_writes _
    (fun call hcall ↦ Or.inl (hindex ▸ hall call hcall)) hfits).1 t ht
  exact h'.legible

/-- **Appending** the next record. -/
theorem append (hc : c.Lawful) (h : segs.Lies c n log file) (hw : w.Writes c log file)
    {r : LogRecord} (hnum : NumberedFrom n (log.records ++ [r]))
    (hbound : n + (log.records ++ [r]).length < 2 ^ 64) {dir : Dir} (hdir : dir.segs = segs) :
    ∃ w', w.append c dir r =
        .ok (w', { dir with segs := segCalls.run (w.appendCalls c r) segs }) ∧
      (w'.activeIndex < SEGMENTS →
        (∀ t, segCalls.Left (w.appendCalls c r) segs t → t.Legible c n) ∧
        ∃ log' file', Segs.Lies c n (segCalls.run (w.appendCalls c r) segs) log' file' ∧
          w'.Writes c log' file' ∧ log'.records = log.records ++ [r]) := by
  have hnext : ∀ prev ∈ w.appended, prev.next = some r.seq := by
    intro prev hprev
    rw [hw.last] at hprev
    obtain ⟨last, hlast, rfl⟩ := Option.map_eq_some_iff.mp hprev
    have hboth := NumberedFrom.append.mp hnum
    exact Seq.next_eq_some.mpr (hboth.2.1.trans (hboth.1.getLast? hlast).symm)
  obtain ⟨w', dir', log', file', hput, -, hholds, hwrites, hplaced⟩ := hw.put hc (h.holds hdir) r
  have happend : w.append c dir r = .ok (w', dir') := (Wal.append_eq_put hnext).trans hput
  have hcalls := Wal.append_calls happend
  rw [hdir] at hcalls
  refine ⟨w', hcalls ▸ happend,
    fun hfew ↦ ⟨fun t ht ↦ ?_, log', file', ?_, hwrites, hplaced.records⟩⟩
  · rw [Wal.appendCalls, hc.encode_eq] at ht
    dsimp only at ht
    split_ifs at ht with hroll
    · have hindex : log.index + 1 < SEGMENTS := by
        rw [← hw.index, ← Wal.append_rolls happend (hc.encode_eq r) hroll]
        exact hfew
      obtain ⟨hleft, hrun⟩ := h.rotate hw hindex
      have hrecords : Segments.records
          ⟨log.sealed ++ [(log.index, log.active)], log.index + 1, []⟩ = log.records :=
        (log.records_seal _ []).trans (List.append_nil _)
      rcases Interrupted.Effect.left_append.mp ht with ht | ht
      · exact hleft t ht
      · exact hrun.writeAll (congrArg (· + 1) hw.index) rfl (hrecords.symm ▸ hnum)
          (hrecords.symm ▸ hbound) ht
    · exact h.writeAll hw.index hw.bytes hnum hbound ht
  · have hentries : (segCalls.run (w.appendCalls c r) segs).entries =
        log'.files c ++ [(log'.index, file')] := by
      have hentries := hholds.entries
      rw [hcalls] at hentries
      exact hentries
    have hrecords := hplaced.records
    refine ⟨hentries, ⟨w'.buffer, hwrites.bytes⟩, ?_, hwrites.index ▸ hfew, hrecords ▸ hnum,
      hrecords ▸ hbound⟩
    cases hplaced with
    | here => exact h.count
    | rolled =>
      rw [List.length_append, h.count]
      rfl

/-- **Opening** leaves the files legible; what it does to them is cut off a torn tail. -/
theorem «open» (h : segs.Lies c n log file) {dir : Dir} (hdir : dir.segs = segs)
    (ht : segCalls.Left (Wal.openCalls c dir) segs t) : ∃ file', Segs.Lies c n t log file' := by
  have hholds := h.holds hdir
  have hindex : (dir.segments.getLast?.map Prod.fst).getD 0 = log.index := by
    rw [hholds.segments h.few, List.getLast?_append]
    rfl
  refine ht.invariant (P := fun t ↦ ∃ file', Segs.Lies c n t log file') ⟨file, h⟩ ?_ ?_
  · rintro call hcall s ⟨file', h'⟩
    rcases Wal.mem_openCalls hcall with ⟨len, rfl⟩ | ⟨i, rfl⟩ | rfl
    · rw [hindex]
      exact ⟨_, h'.setLen len⟩
    · exact ⟨file', h'⟩
    · rw [hindex]
      exact ⟨_, h'.write [] (by rw [List.append_nil]; exact h'.front)⟩
  · rintro k call hcall s ⟨file', h'⟩
    rcases Wal.mem_openCalls hcall with ⟨len, rfl⟩ | ⟨i, rfl⟩ | rfl
    · exact ⟨file', h'⟩
    · exact ⟨file', h'⟩
    · rw [hindex]
      exact ⟨_, h'.write ([].take k)
        (by rw [List.take_nil, List.append_nil]; exact h'.front)⟩

end Segs.Lies

theorem Wal.openCalls_empty {c : Codec} {n : ℕ} {dir : Dir} {t : Segs} (hn : n < 2 ^ 64)
    (hempty : dir.segs.entries = []) (ht : segCalls.Left (Wal.openCalls c dir) dir.segs t) :
    t.Legible c n := by
  have hnone : dir.segs.get? 0 = none := by
    rw [OrdMap.get?, hempty]
    rfl
  have hcalls : Wal.openCalls c dir = [.write 0 []] := by
    have hsegments : dir.segments = [] := by
      rw [Dir.segments, hempty]
      rfl
    rw [Wal.openCalls, hsegments]
    dsimp only [List.getLast?_nil, Option.map_none, Option.getD_none]
    rw [hnone]
    rfl
  have hstart : ∀ bytes : List UInt8, bytes = [] →
      Segs.Lies c n ((SegCall.write 0 bytes).apply dir.segs) ⟨[], 0, []⟩ [] := by
    rintro _ rfl
    exact
      { entries := by
          show (dir.segs.upsert 0 fun old ↦ old.getD [] ++ []).entries = [(0, [])]
          rw [OrdMap.entries_upsert_of_gt fun e he ↦ absurd (hempty ▸ he) List.not_mem_nil, hempty]
          rfl
        front := List.nil_prefix
        count := rfl
        few := by decide
        numbered := trivial
        bound := hn }
  rw [hcalls] at ht
  cases ht with
  | before => exact Or.inl hempty
  | inside k => exact (hstart _ List.take_nil).legible
  | behind ht =>
    rw [Interrupted.Effect.left_nil.mp ht]
    exact (hstart [] rfl).legible

end DutchAuction
